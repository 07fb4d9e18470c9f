import LockPrune.Yaml.Event.Grammar

/-!
# Nodes and documents

The first document of a text as a tree.  A text with a fault still has a tree: up to the
fault it is read like any other, and where it breaks off stands a node of its own.  So a
complaint about what stands before the fault can be told from the fault itself.

An alias names its node by number.  The number of an anchor is the number of different
names that were given before it, so an anchor that is given again takes a new number, and
may share it with a later one; the last node with a number is the one that is meant.

## Main definitions

* `Node` — the tree.
* `Document` — the first document of a text, its fault if it has one, and whether it is
  the only document.
* `Document.ofText` — reads it.
-/

namespace LockPrune.Yaml

/-- A node of a document. -/
inductive Node where
  | scalar (mark : Mark) (anchor : Option Nat) (tag : Option Tag) (style : Style) (text : String)
  | sequence (mark : Mark) (anchor : Option Nat) (tag : Option Tag) (items : List Node)
  | mapping (mark : Mark) (anchor : Option Nat) (tag : Option Tag) (entries : List (Node × Node))
  | alias (mark : Mark) (target : Nat)
  /-- A text without any document. -/
  | void (mark : Mark)
  /-- The place where the document breaks off. -/
  | cut
  deriving Repr, Inhabited

namespace Node

/-- The place of a node. -/
def mark : Node → Mark
  | .scalar m .. => m
  | .sequence m .. => m
  | .mapping m .. => m
  | .alias m _ => m
  | .void m => m
  | .cut => .start

/-- Takes nodes in pairs; what is missing of the last pair breaks off. -/
def pairUp : List Node → List (Node × Node)
  | [] => []
  | [k] => [(k, .cut)]
  | k :: v :: rest => (k, v) :: pairUp rest

/-- The node itself under its number, if it has one. -/
def numbered (n : Node) : Option Nat → List (Nat × Node)
  | some i => [(i, n)]
  | none => []

mutual

/-- The nodes with a number, in the order in which they begin. -/
def anchored : Node → List (Nat × Node)
  | .scalar m a t s x => (Node.scalar m a t s x).numbered a
  | .sequence m a t items => (Node.sequence m a t items).numbered a ++ anchoredItems items
  | .mapping m a t entries => (Node.mapping m a t entries).numbered a ++ anchoredEntries entries
  | .alias .. => []
  | .void _ => []
  | .cut => []
termination_by structural n => n

/-- The nodes with a number in a sequence. -/
def anchoredItems : List Node → List (Nat × Node)
  | [] => []
  | n :: rest => n.anchored ++ anchoredItems rest
termination_by structural ns => ns

/-- The nodes with a number in a mapping. -/
def anchoredEntries : List (Node × Node) → List (Nat × Node)
  | [] => []
  | (k, v) :: rest => k.anchored ++ v.anchored ++ anchoredEntries rest
termination_by structural ns => ns

end

mutual

/-- The document does not break off inside a node. -/
def isUnbroken : Node → Bool
  | .sequence _ _ _ items => itemsUnbroken items
  | .mapping _ _ _ entries => entriesUnbroken entries
  | .cut => false
  | .scalar .. => true
  | .alias .. => true
  | .void _ => true
termination_by structural n => n

/-- The document does not break off inside a sequence. -/
def itemsUnbroken : List Node → Bool
  | [] => true
  | n :: rest => n.isUnbroken && itemsUnbroken rest
termination_by structural ns => ns

/-- The document does not break off inside a mapping. -/
def entriesUnbroken : List (Node × Node) → Bool
  | [] => true
  | (k, v) :: rest => k.isUnbroken && v.isUnbroken && entriesUnbroken rest
termination_by structural ns => ns

end

end Node

/-! ## Documents -/

/-- Why a document breaks off. -/
inductive Break where
  | malformed
  | unknownAnchor (mark : Mark)
  deriving DecidableEq, Repr

/-- The first document of a text. -/
structure Document where
  root : Node
  /-- The number of its events. -/
  size : Nat
  /-- Why it breaks off, if it does. -/
  fault : Option Break
  /-- Whether nothing follows it. -/
  alone : Bool
  /-- The nodes with a number, the last first. -/
  anchored : List (Nat × Node)

namespace Document

/-- A collection that is not complete, with its nodes in reverse. -/
structure Open where
  mark : Mark
  anchor : Option Nat
  tag : Option Tag
  isMapping : Bool
  nodes : List Node

/-- The collection of the nodes so far. -/
def Open.close (o : Open) : Node :=
  if o.isMapping then .mapping o.mark o.anchor o.tag (Node.pairUp o.nodes.reverse)
  else .sequence o.mark o.anchor o.tag o.nodes.reverse

/-- A document that is being read. -/
structure Draft where
  size : Nat
  /-- The number of the last anchor of each name. -/
  names : List (List Char × Nat)
  opened : List Open
  root : Option Node

namespace Draft

/-- Nothing was read. -/
def empty : Draft := ⟨0, [], [], none⟩

/-- Adds a node to the innermost collection. -/
def put (p : Draft) (n : Node) : Draft :=
  match p.opened with
  | [] => { p with root := some n }
  | o :: rest => { p with opened := { o with nodes := n :: o.nodes } :: rest }

/-- Counts an event. -/
def count (p : Draft) : Draft :=
  { p with size := p.size + 1 }

/-- Gives an anchor its number. -/
def name (p : Draft) : Option (List Char) → Option Nat × Draft
  | none => (none, p)
  | some a =>
    let number := p.names.length
    (some number, { p with names := (a, number) :: p.names.filter fun other => other.1 ≠ a })

/-- Begins a collection. -/
def openCollection (p : Draft) (mark : Mark) (props : Properties) (isMapping : Bool) : Draft :=
  let (anchor, p) := p.count.name props.anchor
  { p with opened := ⟨mark, anchor, props.tag, isMapping, []⟩ :: p.opened }

/-- Ends the innermost collection. -/
def finish (p : Draft) : Draft :=
  match p.opened with
  | [] => p.count
  | o :: rest => ({ p with opened := rest }.put o.close).count

/-- Breaks off: every open collection ends with the place of the break. -/
def breakOff (p : Draft) : Node :=
  p.opened.foldl (fun n o => { o with nodes := n :: o.nodes }.close) (p.root.getD .cut)

/-- The document as far as it was read. -/
def document (p : Draft) (fault : Option Break) (alone : Bool) : Document :=
  let root := p.breakOff
  ⟨root, p.size, fault, alone, root.anchored.reverse⟩

end Draft

/-- A text without any document. -/
def void (mark : Mark) : Document :=
  ⟨.void mark, 1, none, true, []⟩

/-- A text that cannot be read at all. -/
def malformed : Document :=
  Draft.empty.document (some .malformed) false

/-- Reads on in the events of the first document. -/
def ofEventsFrom : Draft → List Event → Document
  | p, [] => p.document (some .malformed) false
  | p, e :: rest =>
    match e with
    | .documentStart => ofEventsFrom p rest
    | .documentEnd => p.document none (rest matches [.streamEnd _])
    | .streamEnd mark => void mark
    | .alias mark name =>
      match p.names.find? fun other => other.1 = name with
      | some (_, number) => ofEventsFrom (p.count.put (.alias mark number)) rest
      | none => p.document (some (.unknownAnchor mark)) false
    | .scalar mark props style text =>
      let (anchor, p) := p.count.name props.anchor
      ofEventsFrom (p.put (.scalar mark anchor props.tag style (String.ofList text))) rest
    | .sequenceStart mark props => ofEventsFrom (p.openCollection mark props false) rest
    | .mappingStart mark props => ofEventsFrom (p.openCollection mark props true) rest
    | .sequenceEnd => ofEventsFrom p.finish rest
    | .mappingEnd => ofEventsFrom p.finish rest

/-- The first document of a text. -/
def ofText (text : List Char) : Document :=
  ofEventsFrom .empty (Events.ofText text).events

/-- The node that a number means. -/
def target? (d : Document) (number : Nat) : Option Node :=
  (d.anchored.find? fun entry => entry.1 = number).map (·.2)

/-- The text is one whole document. -/
def isWhole (d : Document) : Bool :=
  d.fault.isNone && d.alone

end Document

end LockPrune.Yaml
