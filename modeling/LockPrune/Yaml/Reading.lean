import LockPrune.Yaml.Fault

/-!
# Reading values out of a document

Readers for the forms of node that data is made of.  A reader follows an alias to the node
it names, asks for a form, and complains with the place of the node if it has another.  Two
bounds hold on the way: collections nest at most `maxDepth` deep, and the aliases that are
followed are at most a hundred times as many as the events of the document.

## Main definitions

* `Reading` — the result of a reader: it counts the aliases that were followed.
* `Document.follow` — the node behind an alias.
* `Document.text`, `Document.optional`, `Document.mapping` — readers for a text, for what
  may be missing, and for a mapping.
* `Document.read` — reads a whole document.
-/

namespace LockPrune.Yaml

/-- A reader counts the aliases that it followed, and may fail. -/
abbrev Reading (α : Type) := StateT Nat (Except Fault) α

/-- How deep collections may nest. -/
def maxDepth : Nat := 128

namespace Reading

/-- Fails. -/
def fail {α : Type} (f : Fault) : Reading α :=
  fun _ => .error f

/-- Gives the complaint of a reader its place. -/
def placedAt {α : Type} (mark : Mark) (path : Path) (r : Reading α) : Reading α :=
  fun n =>
    match r n with
    | .ok result => .ok result
    | .error f => .error (f.placed mark path)

/-- Goes one level deeper, if the bound admits it. -/
def deeper {α : Type} (depth : Nat) (mark : Mark) (r : Nat → Reading α) : Reading α :=
  match depth with
  | 0 => fail (.tooDeep mark)
  | d + 1 => r d

end Reading

namespace Document

/-- The fault at the place where the document breaks off. -/
def breakFault (d : Document) : Fault :=
  .ofBreak (d.fault.getD .malformed)

/-- The node behind an alias, and the way to it. -/
def follow (d : Document) (path : Path) : Node → Reading (Node × Path)
  | .alias _ target => fun n =>
    if d.size * 100 < n + 1 then .error .tooManyAliases
    else
      match d.target? target with
      | some node => .ok ((node, .alias path), n + 1)
      | none => .error .malformed
  | node => pure (node, path)

/-- Complains about the form of a node. -/
def mistyped {α : Type} (d : Document) (expected : String) : Node → Reading α
  | .scalar _ _ tag style text =>
    match Meaning.ofScalar tag style text with
    | .ok meaning => .fail (.unplaced (.invalidType (.scalar meaning) expected))
    | .error kind => .fail (.unplaced (.invalidValue text kind))
  | .sequence .. => .fail (.unplaced (.invalidType .sequence expected))
  | .mapping .. => .fail (.unplaced (.invalidType .map expected))
  | .void _ => .fail (.unplaced (.invalidType (.scalar .null) expected))
  | .alias .. => .fail d.breakFault
  | .cut => .fail d.breakFault

/-- Passes over a node, whatever it is. -/
def ignore (d : Document) (node : Node) : Reading Unit :=
  if node.isUnbroken then pure () else .fail d.breakFault

/-- Reads a text: a scalar as it is written, whatever its tag. -/
def text (d : Document) (expected : String) (path : Path) (node : Node) : Reading String := do
  let (node, path) ← d.follow path node
  match node with
  | .scalar _ _ _ _ text => pure text
  | node => .placedAt node.mark path (d.mistyped expected node)

/-- The node stands for nothing: a plain scalar that is empty or spells the missing
value.  With the tag of the missing value it has to spell it. -/
def isMissing (tag : Option Tag) (style : Style) (text : String) : Except Complaint Bool :=
  if style ≠ .plain then .ok false
  else
    match tag with
    | none => .ok (text.isEmpty || Meaning.nullWords.contains text)
    | some t =>
      if t = Tag.null then
        if Meaning.nullWords.contains text then .ok true else .error (.invalidValue text "null")
      else .ok false

/-- Reads what may be missing. -/
def optional {α : Type} (d : Document) (inner : Path → Node → Reading α) (path : Path)
    (node : Node) : Reading (Option α) := do
  let (node, path) ← d.follow path node
  match node with
  | .scalar _ _ tag style text =>
    match isMissing tag style text with
    | .ok true => pure none
    | .ok false => some <$> inner path node
    | .error what => .fail (.unplaced what)
  | .void _ => pure none
  | .cut => .fail d.breakFault
  | node => some <$> inner path node

/-- Reads a mapping.  Nothing at all is a mapping without entries. -/
def mapping {α : Type} (d : Document) (expected : String)
    (body : Nat → Path → List (Node × Node) → Reading α) (depth : Nat) (path : Path)
    (node : Node) : Reading α := do
  let (node, path) ← d.follow path node
  .placedAt node.mark path <|
    match node with
    | .mapping mark _ _ entries => .deeper depth mark fun depth => body depth path entries
    | .void _ => body depth path []
    | .scalar _ _ tag style text =>
      if text.isEmpty && style = .plain then body depth path []
      else d.mistyped expected (.scalar node.mark none tag style text)
    | node => d.mistyped expected node

/-- Reads a whole document: its root, and then that nothing is wrong behind it. -/
def read {α : Type} (d : Document) (root : Nat → Path → Node → Reading α) : Except Fault α := do
  let (result, _) ← root maxDepth .root d.root 0
  match d.fault with
  | some f => .error (.ofBreak f)
  | none => if d.alone then .ok result else .error .moreThanOneDocument

end Document

end LockPrune.Yaml
