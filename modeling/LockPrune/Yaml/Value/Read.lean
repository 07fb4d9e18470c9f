import LockPrune.Yaml.Reading
import LockPrune.Yaml.Value

/-!
# Reading a value

A node is read for what it stands for: a tag of the document's own is kept, and the node
behind it is read as if it had none.  A mapping may not have two equal keys.

## Main definitions

* `Document.value` — the value of a node.
* `Value.ofText` — the value of a text of one document.
-/

namespace LockPrune.Yaml

namespace Document

/-- The value that a scalar means. -/
def valueOf (meaning : Meaning) : Reading Value :=
  match meaning with
  | .null => pure .null
  | .bool b => pure (.bool b)
  | .integer i => pure (.number (.integer i))
  | .wide i => .fail (.unplaced (.invalidType (.scalar (.wide i)) "any YAML value"))
  | .float x => pure (.number (.float x))
  | .text s => pure (.string s)

/-- The value of a scalar whose tag is not of the document's own. -/
def scalarValue (tag : Option Tag) (style : Style) (text : String) : Reading Value :=
  match Meaning.ofScalar tag style text with
  | .ok meaning => valueOf meaning
  | .error kind => .fail (.unplaced (.invalidValue text kind))

/-- The name of a tag of the document's own; of two exclamation marks at its front the
second does not count either. -/
def localName (tag : Option Tag) : Option String :=
  (tag.bind Tag.local?).map fun name =>
    match name.toList with
    | '!' :: a :: rest => String.ofList (a :: rest)
    | _ => name

/-- Keeps the tag of a value, if it is of the document's own. -/
def keepTag (tag : Option Tag) (value : Value) : Value :=
  match localName tag with
  | some name => .tagged name value
  | none => value

/-- Reads the items of a sequence, the first of them being the item `i`. -/
def items (read : Path → Node → Reading Value) (path : Path) :
    Nat → List Node → Reading (List Value)
  | _, [] => pure []
  | i, node :: rest => do
    let value ← read (.index path i) node
    let values ← items read path (i + 1) rest
    pure (value :: values)

/-- Reads the entries of a mapping behind the entries `before`. -/
def entries (read : Path → Node → Reading Value) (path : Path) (before : List (Value × Value)) :
    List (Node × Node) → Reading (List (Value × Value))
  | [] => pure before
  | (k, v) :: rest => do
    let key ← read path k
    if before.any fun entry => entry.1.same key then
      .fail (.unplaced (.duplicateKey key.keyText))
    else
      let value ← read (path.value k) v
      entries read path (before ++ [(key, value)]) rest

/-- The value of a scalar.  Behind a tag of the document's own it is read as if it had none. -/
def ownValue (tag : Option Tag) (style : Style) (text : String) : Reading Value :=
  match localName tag with
  | some name => Value.tagged name <$> scalarValue none style text
  | none => scalarValue tag style text

/-- The reader of what stands inside a collection, if one more may nest. -/
def readerInside (inside? : Option (Path → Node → Reading Value)) (mark : Mark) :
    Reading (Path → Node → Reading Value) :=
  match inside? with
  | some read => pure read
  | none => .fail (.tooDeep mark)

/-- The value of a node, from a reader of what stands inside it. -/
def valueFrom (d : Document) (inside? : Option (Path → Node → Reading Value)) (path : Path)
    (node : Node) : Reading Value := do
  let (node, path) ← d.follow path node
  .placedAt node.mark path <|
    match node with
    | .scalar _ _ tag style text => ownValue tag style text
    | .sequence mark _ tag nodes => do
      let read ← readerInside inside? mark
      (fun vs => keepTag tag (.sequence vs)) <$> items read path 0 nodes
    | .mapping mark _ tag nodes => do
      let read ← readerInside inside? mark
      (fun es => keepTag tag (.mapping es)) <$> entries read path [] nodes
    | .void _ => pure .null
    | .alias .. => .fail d.breakFault
    | .cut => .fail d.breakFault

/-- The value of a node. -/
def value (d : Document) : Nat → Path → Node → Reading Value
  | 0 => d.valueFrom none
  | depth + 1 => d.valueFrom (some (d.value depth))

end Document

/-- The value of a text of one document. -/
def Value.ofText (text : String) : Except Fault Value :=
  let d := Document.ofText text.toList
  d.read d.value

end LockPrune.Yaml
