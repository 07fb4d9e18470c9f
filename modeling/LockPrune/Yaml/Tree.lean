import LockPrune.Yaml.Token

/-!
# Trees to be written

What is to be written as YAML: scalars with the style that is asked for, and collections.
A scalar keeps its style only where its text and its place admit it.

## Main definitions

* `Tree` — the tree.
-/

namespace LockPrune.Yaml

/-- A tree to be written.  A tag is given by its full text. -/
inductive Tree where
  | scalar (tag : Option String) (style : Style) (text : String)
  | sequence (tag : Option String) (items : List Tree)
  | mapping (tag : Option String) (entries : List (Tree × Tree))
  deriving Repr, Inhabited

end LockPrune.Yaml
