import LockPrune.Yaml.Meaning
import LockPrune.Yaml.Tree

/-!
# How a scalar is written

A text is written plain if it reads back as itself.  A text that would read as something
else is put between single quotes, a text of several lines is written as a block, and what
no other form can hold goes between double quotes with escapes.

## Main definitions

* `Scalar.wanted` — the style that is asked for a text.
* `Scalar.admitted` — the style that a text and its place admit.
* `Scalar.write` — the scalar in a style.
-/

namespace LockPrune.Yaml

namespace Scalar

/-! ## The style that is asked for -/

/-- The text would not read back as a text without quotes. -/
def isAmbiguous (s : String) : Bool :=
  match Meaning.ofPlain s with
  | .text _ => Meaning.isPaddedDigits s.toList
  | _ => true

/-- The style that is asked for a text. -/
def wanted (s : String) : Style :=
  if s.toList.contains '\n' then .literal
  else if isAmbiguous s then .single
  else .plain

/-! ## What a text admits -/

/-- The character is written as itself. -/
def isPrintable (c : Char) : Bool :=
  let n := c.toNat
  c = '\n' || (0x20 ≤ n && n ≤ 0x7E) || (0xA0 ≤ n && n ≤ 0xD7FF) ||
    (0xE000 ≤ n && n ≤ 0xFFFD && n != 0xFEFF) || 0x10000 ≤ n

/-- A character of one class is followed by one of another. -/
def hasPair (p q : Char → Bool) : List Char → Bool
  | a :: b :: rest => (p a && q b) || hasPair p q (b :: rest)
  | _ => false

/-- The last character is of a class. -/
def endsWith (p : Char → Bool) (s : List Char) : Bool :=
  s.getLast?.any p

/-- The first character is of a class. -/
def beginsWith (p : Char → Bool) (s : List Char) : Bool :=
  s.head?.any p

/-- A colon stands at the end of a word. -/
def hasKeyMark : List Char → Bool
  | [] => false
  | a :: rest => (a = ':' && atStop rest) || hasKeyMark rest

/-- The characters that begin something other than a plain scalar. -/
def leadMarks : List Char :=
  ['#', ',', '[', ']', '\x7b', '\x7d', '&', '*', '!', '|', '>', '\x27', '"', '%', '@', '\x60']

/-- The text would be taken for something other than a plain scalar. -/
def looksMarked (s : List Char) : Bool :=
  ['-', '-', '-'].isPrefixOf s || ['.', '.', '.'].isPrefixOf s ||
    beginsWith leadMarks.contains s ||
    (beginsWith (fun c => c = '?' || c = '-') s && atStop (s.drop 1)) ||
    hasKeyMark s || hasPair (fun c => isGap c || isBreak c) (· = '#') s

/-- A blank at the end of a line, or a character that is not written as itself: only
double quotes hold these. -/
def needsEscapes (s : List Char) : Bool :=
  hasPair (· = ' ') isBreak s || s.any fun c => !isPrintable c

/-- The text may stand without quotes. -/
def plainAdmitted (s : List Char) : Bool :=
  !(needsEscapes s || s.any isBreak || beginsWith (· = ' ') s || endsWith (· = ' ') s ||
    looksMarked s)

/-- The text may stand between single quotes. -/
def singleAdmitted (s : List Char) : Bool :=
  !(needsEscapes s || hasPair isBreak (· = ' ') s)

/-- The text may stand in a block. -/
def literalAdmitted (s : List Char) : Bool :=
  !(needsEscapes s || endsWith (· = ' ') s || s.isEmpty)

/-- The style that a text admits, given the style that is asked for.  A key is written on
one line, and is not left out. -/
def admitted (style : Style) (isKey : Bool) (s : List Char) : Style :=
  let quotes := if singleAdmitted s then .single else .double
  match style with
  | .plain => if plainAdmitted s && !(s.isEmpty && isKey) then .plain else quotes
  | .single => quotes
  | .double => .double
  | .literal => if literalAdmitted s && !isKey then .literal else .double
  | .folded => if literalAdmitted s && !isKey then .literal else .double

/-! ## Writing -/

/-- `n` spaces. -/
def spaces (n : Nat) : List Char :=
  List.replicate n ' '

/-- A text between single quotes: a quote is written twice, and a line begins at the
indentation. -/
def writeSingle (indent : Nat) : Bool → List Char → List Char
  | fresh, [] => if fresh then spaces indent else []
  | fresh, c :: rest =>
    if isBreak c then
      (if c = '\n' && !fresh then ['\n'] else []) ++ c :: writeSingle indent true rest
    else
      (if fresh then spaces indent else []) ++
        (if c = '\x27' then ['\x27', '\x27'] else [c]) ++ writeSingle indent false rest

/-- A hexadecimal digit, in capitals. -/
def hexDigit (n : Nat) : Char :=
  if n < 10 then Char.ofNat (48 + n) else Char.ofNat (55 + n)

/-- The last `k` hexadecimal digits of a number. -/
def hexText : Nat → Nat → List Char
  | 0, _ => []
  | k + 1, n => hexDigit (n / Nat.pow 16 k % 16) :: hexText k n

/-- The letter of the escape for a character that has one. -/
def escapeLetter? : Char → Option Char
  | '\x00' => some '0'
  | '\x07' => some 'a'
  | '\x08' => some 'b'
  | '\t' => some 't'
  | '\n' => some 'n'
  | '\x0b' => some 'v'
  | '\x0c' => some 'f'
  | '\r' => some 'r'
  | '\x1b' => some 'e'
  | '"' => some '"'
  | '\\' => some '\\'
  | '\x85' => some 'N'
  | '\xa0' => some '_'
  | '\u2028' => some 'L'
  | '\u2029' => some 'P'
  | _ => none

/-- The escape of a character. -/
def escape (c : Char) : List Char :=
  match escapeLetter? c with
  | some letter => ['\\', letter]
  | none =>
    let n := c.toNat
    if n ≤ 0xFF then '\\' :: 'x' :: hexText 2 n
    else if n ≤ 0xFFFF then '\\' :: 'u' :: hexText 4 n
    else '\\' :: 'U' :: hexText 8 n

/-- A character between double quotes. -/
def writeDoubleChar (c : Char) : List Char :=
  if !isPrintable c || isBreak c || c = '"' || c = '\\' then escape c else [c]

/-- The header of a block: the indentation if the text begins with a blank, and what
becomes of the ends of line at its end. -/
def literalHeader (s : List Char) : List Char :=
  let hint := if beginsWith (fun c => c = ' ' || isBreak c) s then ['2'] else []
  let chomping :=
    if !endsWith isBreak s then ['-']
    else if s.dropLast.isEmpty || endsWith isBreak s.dropLast then ['+']
    else []
  '|' :: hint ++ chomping

/-- The lines of a block, each at the indentation. -/
def writeLines (indent : Nat) : Bool → List Char → List Char
  | _, [] => []
  | fresh, c :: rest =>
    if isBreak c then c :: writeLines indent true rest
    else (if fresh then spaces indent else []) ++ c :: writeLines indent false rest

/-- A scalar in a style, with further lines at the indentation. -/
def write (style : Style) (indent : Nat) (s : List Char) : List Char :=
  match style with
  | .plain => s
  | .single => '\x27' :: writeSingle indent false s ++ ['\x27']
  | .double => '"' :: s.flatMap writeDoubleChar ++ ['"']
  | .literal => literalHeader s ++ '\n' :: writeLines indent true s
  | .folded => literalHeader s ++ '\n' :: writeLines indent true s

end Scalar

/-- A text as a scalar that reads back as a text. -/
def Tree.ofText (s : String) : Tree :=
  .scalar none (Scalar.wanted s) s

end LockPrune.Yaml
