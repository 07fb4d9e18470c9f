import LockPrune.Yaml.Cursor
import LockPrune.Yaml.Tag

/-!
# Tokens

The words and marks that a YAML text is made of.  Besides what is written there are
tokens for what indentation says: where a block collection begins and where it ends.

## Main definitions

* `Style` — how a scalar is written.
* `Token.Kind`, `Token` — a token and where it stands.
-/

namespace LockPrune.Yaml

/-- How a scalar is written. -/
inductive Style where
  | plain
  | single
  | double
  | literal
  | folded
  deriving DecidableEq, Repr, Inhabited

/-- A tag as it is written: a handle that stands for the beginning of the tag, and the
octets that follow.  An empty handle stands for nothing. -/
structure TagText where
  handle : List Char
  suffix : List UInt8
  deriving DecidableEq, Repr

namespace Token

/-- What a token is. -/
inductive Kind where
  | streamStart
  | streamEnd
  | version (major minor : Nat)
  | tagHandle (handle : List Char) (stem : List UInt8)
  | documentStart
  | documentEnd
  | blockSequenceStart
  | blockMappingStart
  | blockEnd
  | flowSequenceStart
  | flowSequenceEnd
  | flowMappingStart
  | flowMappingEnd
  | blockEntry
  | flowEntry
  | key
  | value
  | alias (name : List Char)
  | anchor (name : List Char)
  | tag (text : TagText)
  | scalar (style : Style) (text : List Char)
  deriving DecidableEq, Repr

end Token

/-- A token and the places where it begins and ends. -/
structure Token where
  kind : Token.Kind
  start : Mark
  stop : Mark
  deriving DecidableEq, Repr

end LockPrune.Yaml
