import LockPrune.Yaml.Token

/-!
# Events

The tree of a YAML document, read from left to right: scalars, the beginnings and ends
of collections, and the beginnings and ends of documents.  What an event says does not
depend on whether a collection is written with brackets or by indentation.

## Main definitions

* `Properties` — the anchor and the tag of a node.
* `Event` — an event and where it stands.
-/

namespace LockPrune.Yaml

/-- What may stand in front of a node. -/
structure Properties where
  anchor : Option (List Char)
  tag : Option Tag
  deriving DecidableEq, Repr

/-- One step of the walk through the documents of a text. -/
inductive Event where
  | documentStart
  | documentEnd
  | streamEnd (mark : Mark)
  | alias (mark : Mark) (name : List Char)
  | scalar (mark : Mark) (properties : Properties) (style : Style) (text : List Char)
  | sequenceStart (mark : Mark) (properties : Properties)
  | sequenceEnd
  | mappingStart (mark : Mark) (properties : Properties)
  | mappingEnd
  deriving DecidableEq, Repr

end LockPrune.Yaml
