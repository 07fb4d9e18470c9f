import LockPrune.Decimal.Binary64
import LockPrune.Yaml.Scalar.Quoted
import LockPrune.Yaml.Token

/-!
# What a scalar means

A plain scalar without a tag is the missing value, a truth value, an integer or a floating
point number if it is spelled like one, and a text otherwise.  Digits with a zero in front
are a text.  Integers of more than sixty-four bits are told apart, and so are those of more
than a hundred and twenty-eight, which are numbers like any other.

## Main definitions

* `Meaning` — what a scalar stands for.
* `Meaning.ofPlain` — the meaning of a plain scalar without a tag.
* `Meaning.ofScalar` — the meaning of any scalar; a common tag asks for its kind.
-/

namespace LockPrune.Yaml

/-- What a scalar stands for. -/
inductive Meaning where
  | null
  | bool (value : Bool)
  | integer (value : Int)
  /-- An integer of more than sixty-four bits. -/
  | wide (value : Int)
  | float (value : Binary64)
  | text (value : String)
  deriving DecidableEq, Repr

namespace Meaning

/-! ## Spellings -/

/-- The spellings of the missing value. -/
def nullWords : List String := ["null", "Null", "NULL", "~"]

/-- The spellings of true. -/
def trueWords : List String := ["true", "True", "TRUE"]

/-- The spellings of false. -/
def falseWords : List String := ["false", "False", "FALSE"]

/-- A truth value. -/
def bool? (s : String) : Option Bool :=
  if trueWords.contains s then some true
  else if falseWords.contains s then some false
  else none

/-- The text without a sign at its front. -/
def dropSign : List Char → List Char
  | '+' :: rest => rest
  | '-' :: rest => rest
  | s => s

/-- Several digits with a zero in front, perhaps behind a sign. -/
def isPaddedDigits (s : List Char) : Bool :=
  match dropSign s with
  | '0' :: d :: rest => (d :: rest).all Char.isDigit
  | _ => false

/-- The number that the digits of a base spell; there is at least one. -/
def digits? (base : Nat) (ds : List Char) : Option Nat :=
  if ds.isEmpty then none
  else ds.foldlM (fun n d =>
    match hexValue? d with
    | some v => if v < base then some (n * base + v) else none
    | none => none) 0

/-- The number that digits spell, in a base that a mark in front of them may give. -/
def natural? (s : List Char) : Option Nat :=
  match s with
  | '0' :: 'x' :: ds => digits? 16 ds
  | '0' :: 'o' :: ds => digits? 8 ds
  | '0' :: 'b' :: ds => digits? 2 ds
  | ds => if isPaddedDigits ds then none else digits? 10 ds

/-- An integer of any size: a natural with one sign at most. -/
def integer? (s : List Char) : Option Int :=
  match s with
  | '+' :: ds => (natural? ds).map Int.ofNat
  | '-' :: ds => (natural? ds).map fun n => -(n : Int)
  | ds => (natural? ds).map Int.ofNat

/-- An integer that can be told from a float: of a hundred and twenty-eight bits at most. -/
def ofInteger? (i : Int) : Option Meaning :=
  if Int.negOfNat (Nat.pow 2 63) ≤ i ∧ i < Nat.pow 2 64 then some (.integer i)
  else if Int.negOfNat (Nat.pow 2 127) ≤ i ∧ i < Nat.pow 2 128 then some (.wide i)
  else none

/-- The decimal number of digits with a point and an exponent: the digits as one number,
and the exponent. -/
def decimal? (s : List Char) : Option (Nat × Int) := do
  let whole := s.takeWhile Char.isDigit
  let s := s.drop whole.length
  let (fraction, s) :=
    match s with
    | '.' :: rest =>
      let fraction := rest.takeWhile Char.isDigit
      (fraction, rest.drop fraction.length)
    | _ => ([], s)
  let n ← digits? 10 (whole ++ fraction)
  match s with
  | [] => some (n, -fraction.length)
  | e :: rest =>
    if e = 'e' ∨ e = 'E' then
      let size ← digits? 10 (dropSign rest)
      let exponent : Int := if rest.head? = some '-' then -size else size
      some (n, exponent - fraction.length)
    else none

/-- A finite float, with a sign in front perhaps. -/
def finiteFloat? (s : List Char) : Option Binary64 := do
  let (n, e) ← decimal? (dropSign s)
  let x := Binary64.ofDecimal (s.head? = some '-') n e
  if x.isFinite then some x else none

/-- A float, finite or not.  Of the numbers that are not finite only a positive infinity
may have a plus sign. -/
def float? (s : List Char) : Option Binary64 :=
  let t := String.ofList s
  if [".inf", ".Inf", ".INF", "+.inf", "+.Inf", "+.INF"].contains t then some (.infinite false)
  else if ["-.inf", "-.Inf", "-.INF"].contains t then some (.infinite true)
  else if [".nan", ".NaN", ".NAN"].contains t then some .nan
  else finiteFloat? s

/-! ## Meanings -/

/-- The number that a text spells, if it spells one. -/
def number? (s : List Char) : Option Meaning :=
  match (integer? s).bind ofInteger? with
  | some m => some m
  | none => if isPaddedDigits s then none else (float? s).map .float

/-- The meaning of a plain scalar without a tag. -/
def ofPlain (s : String) : Meaning :=
  if s.isEmpty || nullWords.contains s then .null
  else
    match bool? s with
    | some b => .bool b
    | none => (number? s.toList).getD (.text s)

/-- The meaning of a scalar.  A common tag asks for its kind, and the error is what was
asked for; a tag of the document's own leaves a plain scalar its meaning; every other
scalar is a text. -/
def ofScalar (tag : Option Tag) (style : Style) (s : String) : Except String Meaning :=
  match tag with
  | none => .ok (if style = .plain then ofPlain s else .text s)
  | some t =>
    if t = Tag.bool then
      match bool? s with
      | some b => .ok (.bool b)
      | none => .error "a boolean"
    else if t = Tag.int then
      match (integer? s.toList).bind ofInteger? with
      | some m => .ok m
      | none => .error "an integer"
    else if t = Tag.float then
      match float? s.toList with
      | some x => .ok (.float x)
      | none => .error "a float"
    else if t = Tag.null then
      if nullWords.contains s then .ok .null else .error "null"
    else .ok (if t.isLocal && style = .plain then ofPlain s else .text s)

end Meaning

end LockPrune.Yaml
