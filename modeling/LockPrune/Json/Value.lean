import LockPrune.Decimal.Layout
import LockPrune.Ordered.Table

/-!
# JSON

A JSON document as data, and its text: two blanks of indentation for every level, one item
or member on a line, and the members of an object sorted by their names.

## Main definitions

* `Value` — the data.
* `Value.ofTable` — the object with the members of a table.
* `quoted` — a text between double quotes, escaped.
* `numeral` — a number with a fraction.
* `Value.text` — the text of a document.
-/

namespace LockPrune.Json

/-- Data.  The members of an object stand in the order in which they are written. -/
inductive Value where
  | null
  | bool (value : Bool)
  | integer (value : Int)
  /-- A number with a fraction; one that is not finite has no form in JSON. -/
  | float (value : Binary64)
  | string (value : String)
  | array (items : List Value)
  | object (members : List (String × Value))
  deriving Repr, Inhabited

/-- The object with the members of a table. -/
def Value.ofTable (t : Table Value) : Value :=
  .object t.pairs

/-! ## Strings -/

/-- A digit in base sixteen, in small letters. -/
def hexDigit (n : Nat) : Char :=
  Nat.digitChar (n % 16)

/-- One character of a quoted text: controls, double quotes and backslashes are escaped. -/
def quotedChar (c : Char) : List Char :=
  if c = '"' || c = '\\' then ['\\', c]
  else if c = '\n' then ['\\', 'n']
  else if c = '\r' then ['\\', 'r']
  else if c = '\t' then ['\\', 't']
  else if c = '\x08' then ['\\', 'b']
  else if c = '\x0c' then ['\\', 'f']
  else if c.toNat < 32 then
    ['\\', 'u', '0', '0', hexDigit (c.toNat / 16), hexDigit c.toNat]
  else [c]

/-- A text between double quotes, escaped. -/
def quoted (s : String) : String :=
  String.ofList ('"' :: s.toList.flatMap quotedChar ++ ['"'])

/-! ## Numbers -/

/-- A double as JSON stores it: every exponent has a sign. -/
def numeral (x : Binary64) : String :=
  x.stored ['+']

/-! ## Documents -/

namespace Value

/-- The blanks in front of a line that is one level deeper. -/
def deeper (margin : String) : String :=
  margin ++ "  "

mutual

/-- The text of a value whose lines stand behind a margin, the first line excepted. -/
def textAt (margin : String) : Value → String
  | .null => "null"
  | .bool b => if b then "true" else "false"
  | .integer i => toString i
  | .float x => if x.isFinite then numeral x else "null"
  | .string s => quoted s
  | .array items =>
    if items.isEmpty then "[]"
    else "[" ++ itemsText (deeper margin) "\n" items ++ "\n" ++ margin ++ "]"
  | .object members =>
    if members.isEmpty then "\x7b\x7d"
    else "\x7b" ++ membersText (deeper margin) "\n" members ++ "\n" ++ margin ++ "\x7d"
termination_by structural v => v

/-- The text of items, each on a line of its own behind a margin.  The first stands behind
`gap`, each other behind a comma. -/
def itemsText (margin gap : String) : List Value → String
  | [] => ""
  | v :: vs => gap ++ margin ++ textAt margin v ++ itemsText margin ",\n" vs
termination_by structural vs => vs

/-- The text of members, laid out like items. -/
def membersText (margin gap : String) : List (String × Value) → String
  | [] => ""
  | (name, v) :: rest =>
    gap ++ margin ++ quoted name ++ ": " ++ textAt margin v ++ membersText margin ",\n" rest
termination_by structural members => members

end

/-- The text of a document. -/
def text (v : Value) : String :=
  v.textAt ""

end Value

end LockPrune.Json
