import LockPrune.Decimal.Layout
import LockPrune.Text.Quoted

/-!
# Values

The data that a YAML node stands for when its form is not known beforehand.  Mappings keep
the order of their entries, but their equality does not look at it.

## Main definitions

* `Number`, `Value` — the data.
* `Value.same` — whether two values are equal as data.
* `Value.keyText` — how a message names a value that is a key.
-/

namespace LockPrune.Yaml

/-- A number. -/
inductive Number where
  | integer (value : Int)
  | float (value : Binary64)
  deriving DecidableEq, Repr, Inhabited

namespace Number

/-- Equality as numbers; an integer is no float. -/
def same : Number → Number → Bool
  | .integer a, .integer b => a = b
  | .float a, .float b => a.same b
  | _, _ => false

/-- The text of a number as data stores it. -/
def text : Number → String
  | .integer i => toString i
  | .float x => x.text

end Number

/-- Data.  The name of a tag is what follows its exclamation mark. -/
inductive Value where
  | null
  | bool (value : Bool)
  | number (value : Number)
  | string (value : String)
  | sequence (items : List Value)
  | mapping (entries : List (Value × Value))
  | tagged (tag : String) (value : Value)
  deriving Repr, Inhabited

namespace Value

mutual

/-- Equality as data: the order of the entries of a mapping does not count. -/
def same : Value → Value → Bool
  | .null, .null => true
  | .bool a, .bool b => a = b
  | .number a, .number b => a.same b
  | .string a, .string b => a = b
  | .sequence a, .sequence b => sameItems a b
  | .mapping a, .mapping b => a.length = b.length && sameEntries a b
  | .tagged s a, .tagged t b => s = t && a.same b
  | _, _ => false
termination_by structural a => a

/-- Equality of the items of two sequences. -/
def sameItems : List Value → List Value → Bool
  | [], [] => true
  | a :: as, b :: bs => a.same b && sameItems as bs
  | _, _ => false
termination_by structural as => as

/-- Every entry of the first mapping is one of the second. -/
def sameEntries : List (Value × Value) → List (Value × Value) → Bool
  | [], _ => true
  | (k, v) :: rest, bs => bs.any (fun b => k.same b.1 && v.same b.2) && sameEntries rest bs
termination_by structural as => as

end

/-- How a message names a value that is a key. -/
def keyText : Value → String
  | .null => "with null key"
  | .bool b => "with key \x60" ++ toString b ++ "\x60"
  | .number n => "with key " ++ n.text
  | .string s => "with key " ++ Text.quoted s
  | _ => "in YAML map"

end Value

end LockPrune.Yaml
