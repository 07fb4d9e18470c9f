import LockPrune.Decimal.Layout
import LockPrune.Text.Quoted
import LockPrune.Yaml.Meaning
import LockPrune.Yaml.Node

/-!
# What can be wrong with a document

A complaint is about a node that has not the form that is asked for; it tells the place of
the node and the way to it from the root.  The other faults are about the text as a whole.

## Main definitions

* `Path` — the way from the root to a node.
* `Complaint` — what is wrong with a node.
* `Fault` — what is wrong with a document, and `Fault.message`, the text that says so.
-/

namespace LockPrune.Yaml

/-! ## Paths -/

/-- The way from the root of a document to a node. -/
inductive Path where
  | root
  | field (parent : Path) (key : String)
  | index (parent : Path) (i : Nat)
  /-- The node that an alias names. -/
  | alias (parent : Path)
  /-- A value whose key is no scalar. -/
  | unknown (parent : Path)
  deriving DecidableEq, Repr

namespace Path

/-- The path as a message shows it. -/
def text : Path → String
  | .root => "."
  | .field .root key => key
  | .field parent key => parent.text ++ "." ++ key
  | .index parent i => parent.text ++ "[" ++ toString i ++ "]"
  | .alias parent => parent.text
  | .unknown .root => "?"
  | .unknown parent => parent.text ++ ".?"

/-- The way to the value of a key. -/
def value (path : Path) (key : Node) : Path :=
  match key with
  | .scalar _ _ _ _ text => .field path text
  | _ => .unknown path

end Path

/-! ## Complaints -/

/-- What stands where something else was asked for. -/
inductive Found where
  | scalar (meaning : Meaning)
  | sequence
  | map
  deriving DecidableEq, Repr

namespace Found

/-- What was found, as a message names it. -/
def text : Found → String
  | .scalar .null => "unit value"
  | .scalar (.bool b) => "boolean \x60" ++ toString b ++ "\x60"
  | .scalar (.integer i) => "integer \x60" ++ toString i ++ "\x60"
  | .scalar (.wide i) =>
    "integer \x60" ++ toString i ++ "\x60 as " ++ (if i < 0 then "i128" else "u128")
  | .scalar (.float x) => "floating point \x60" ++ x.positional ++ "\x60"
  | .scalar (.text s) => "string " ++ Text.quoted s
  | .sequence => "sequence"
  | .map => "map"

end Found

/-- What is wrong with a node. -/
inductive Complaint where
  | invalidType (found : Found) (expected : String)
  | invalidValue (text : String) (expected : String)
  | missingField (name : String)
  | duplicateField (name : String)
  | duplicateKey (key : String)
  deriving DecidableEq, Repr

namespace Complaint

/-- The text of a complaint, without its place. -/
def text : Complaint → String
  | .invalidType found expected => "invalid type: " ++ found.text ++ ", expected " ++ expected
  | .invalidValue s expected =>
    "invalid value: string " ++ Text.quoted s ++ ", expected " ++ expected
  | .missingField name => "missing field \x60" ++ name ++ "\x60"
  | .duplicateField name => "duplicate field \x60" ++ name ++ "\x60"
  | .duplicateKey key => "duplicate entry " ++ key

end Complaint

/-! ## Faults -/

/-- What is wrong with a document. -/
inductive Fault where
  | complaint (what : Complaint) (place : Option (Mark × Path))
  | malformed
  | unknownAnchor (mark : Mark)
  | tooDeep (mark : Mark)
  | tooManyAliases
  | moreThanOneDocument
  deriving DecidableEq, Repr

namespace Fault

/-- The fault that a document breaks off with. -/
def ofBreak : Break → Fault
  | .malformed => .malformed
  | .unknownAnchor mark => .unknownAnchor mark

/-- A complaint whose place is not known yet. -/
def unplaced (what : Complaint) : Fault :=
  .complaint what none

/-- Gives a complaint its place, unless it has one. -/
def placed (f : Fault) (mark : Mark) (path : Path) : Fault :=
  match f with
  | .complaint what none => .complaint what (some (mark, path))
  | f => f

/-- The place behind a message.  The beginning of the text goes without saying. -/
def placeText (mark : Mark) : String :=
  if mark.line = 0 ∧ mark.column = 0 then ""
  else " at line " ++ toString (mark.line + 1) ++ " column " ++ toString (mark.column + 1)

/-- The way in front of a message.  The root goes without saying. -/
def pathText (path : Path) : String :=
  if path.text = "." then "" else path.text ++ ": "

/-- The text of a fault.  A text that is no YAML is reported without details. -/
def message : Fault → String
  | .complaint what none => what.text
  | .complaint what (some (mark, path)) => pathText path ++ what.text ++ placeText mark
  | .malformed => "<yaml>"
  | .unknownAnchor mark => "unknown anchor" ++ placeText mark
  | .tooDeep mark => "recursion limit exceeded" ++ placeText mark
  | .tooManyAliases => "repetition limit exceeded"
  | .moreThanOneDocument =>
    "deserializing from YAML containing more than one document is not supported"

end Fault

end LockPrune.Yaml
