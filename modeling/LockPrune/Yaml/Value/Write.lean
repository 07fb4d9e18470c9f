import LockPrune.Yaml.Tree.Layout
import LockPrune.Yaml.Value

/-!
# Writing a value

A value is written as the tree it reads back from.  There is one form that cannot be
written: a mapping of a single entry whose key is itself tagged or a mapping of a single
entry, unless the outer mapping has a tag.

## Main definitions

* `Value.tree?` — the tree of a value, if it can be written.
-/

namespace LockPrune.Yaml

namespace Value

/-- A value that, as the only key of a mapping, cannot be told from the mapping. -/
def isLone : Value → Bool
  | .tagged .. => true
  | .mapping [_] => true
  | _ => false

/-- The full text of a tag, from the name behind its exclamation mark. -/
def tagText (name : String) : String :=
  if name.toList.head? = some '!' then name else "!" ++ name

/-- The only key of a mapping without a tag is one that cannot be told from it. -/
def isBlocked (tag : Option String) : List (Value × Value) → Bool
  | [(k, _)] => tag.isNone && k.isLone
  | _ => false

mutual

/-- The tree of a value with a tag in front. -/
def treeWith? (tag : Option String) : Value → Option Tree
  | .null => some (.scalar tag .plain "null")
  | .bool b => some (.scalar tag .plain (if b then "true" else "false"))
  | .number n => some (.scalar tag .plain n.text)
  | .string s => some (.scalar tag (Scalar.wanted s) s)
  | .sequence items => (itemTrees? items).map (.sequence tag)
  | .mapping entries =>
    if isBlocked tag entries then none else (entryTrees? entries).map (.mapping tag)
  | .tagged name v => if tag.isSome then none else v.treeWith? (some (tagText name))
termination_by structural v => v

/-- The trees of the items of a sequence. -/
def itemTrees? : List Value → Option (List Tree)
  | [] => some []
  | v :: vs =>
    match v.treeWith? none, itemTrees? vs with
    | some t, some ts => some (t :: ts)
    | _, _ => none
termination_by structural vs => vs

/-- The trees of the entries of a mapping. -/
def entryTrees? : List (Value × Value) → Option (List (Tree × Tree))
  | [] => some []
  | (k, v) :: rest =>
    match k.treeWith? none, v.treeWith? none, entryTrees? rest with
    | some kt, some vt, some ts => some ((kt, vt) :: ts)
    | _, _, _ => none
termination_by structural es => es

end

/-- The tree of a value, if it can be written. -/
def tree? (v : Value) : Option Tree :=
  v.treeWith? none

end Value

end LockPrune.Yaml
