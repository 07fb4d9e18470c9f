/-!
# Tags

A tag names the type of a node.  It is a sequence of octets, because its written
form may give octets by number, and these need not be the octets of a text.

## Main definitions

* `Tag` — the octets of a tag.
* `Tag.local?` — the name of a tag of the document's own, written with `!`.
-/

namespace LockPrune.Yaml

/-- A tag, in the octets of its full form. -/
structure Tag where
  octets : List UInt8
  deriving DecidableEq, Repr

namespace Tag

/-- The octets of a text. -/
def octetsOf (s : List Char) : List UInt8 :=
  s.flatMap String.utf8EncodeChar

/-- The tag that a text spells. -/
def ofText (s : String) : Tag :=
  ⟨octetsOf s.toList⟩

/-- What stands before the names of the common tags. -/
def commonStem : String := "tag:yaml.org,2002:"

/-- The tag of truth values. -/
def bool : Tag := ofText (commonStem ++ "bool")

/-- The tag of integers. -/
def int : Tag := ofText (commonStem ++ "int")

/-- The tag of floating point numbers. -/
def float : Tag := ofText (commonStem ++ "float")

/-- The tag of the missing value. -/
def null : Tag := ofText (commonStem ++ "null")

/-- The tag begins with an exclamation mark. -/
def isLocal (t : Tag) : Bool :=
  t.octets.head? = some 33

/-- The name of a tag of the document's own: what follows the exclamation mark, or
the mark itself when nothing follows.  A tag whose name is no text has none. -/
def local? (t : Tag) : Option String :=
  match t.octets with
  | 33 :: rest =>
    let name := if rest.isEmpty then [33] else rest
    String.fromUTF8? ⟨name.toArray⟩
  | _ => none

end Tag

end LockPrune.Yaml
