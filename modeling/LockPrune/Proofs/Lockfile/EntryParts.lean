import LockPrune.Entry.Write
import LockPrune.Proofs.Lockfile.EntryReading
import LockPrune.Proofs.Yaml.ValueNode

/-!
# Entries from their parts

What is written of an entry are its parts: fields with a text, with ranges, or with a value that is
not modelled, and no field that is empty.  An entry is read from nodes that say what its parts say,
whatever its texts are: no field is lost or moved, and an empty one is as good as one left out.

## Main definitions

* `Part` — what stands under one field.
* `Entry.parts` — the fields that are written of an entry, in order.
* `Entry.Says` — some nodes say what the parts of an entry say.

## Main statements

* `Entry.trees?_eq_mapM` — an entry is written as its parts.
* `Entry.foldl_assignments` — the parts of an entry, put in their places, are the entry.
* `Entry.read_of_content` — an entry is read from what was written of it.
* `Entry.read_parts` — an entry is read from its parts.
-/

namespace LockPrune

open Yaml

/-! ## Fields in the order in which they are written -/

namespace Field

/-- The fields in front of those that are not modelled. -/
def front : List Field :=
  [.version, .resolved, .integrity, .resolution, .dependencies, .optionalDependencies,
    .peerDependencies]

/-- The fields behind those that are not modelled. -/
def back : List Field :=
  [.checksum, .conditions, .languageName, .linkType]

theorem ofName?_eq_none_iff {name : String} : ofName? name = none ↔ ∀ f : Field, f.name ≠ name := by
  simp only [ofName?, List.find?_eq_none, decide_eq_true_eq]
  exact ⟨fun h f => h f (mem_all f), fun h f _ => h f⟩

end Field

/-- What stands under a field. -/
inductive Part where
  | text (s : String)
  | ranges (r : Ranges)
  | value (v : Value)

/-- The tree of what stands under a field, if it can be written. -/
def Part.tree? : Part → Option Tree
  | .text s => some (.ofText s)
  | .ranges r => some (Entry.rangesTree r)
  | .value v => v.tree?

/-- Nothing stands under a field. -/
def Part.isEmpty : Part → Bool
  | .text s => s.isEmpty
  | .ranges r => r.isEmpty
  | .value _ => false

namespace Entry

variable {e : Entry}

/-- What stands under a modelled field. -/
def part (e : Entry) : Field → Part
  | .version => .text e.version
  | .resolved => .text e.resolved
  | .integrity => .text e.integrity
  | .resolution => .text e.resolution
  | .dependencies => .ranges e.dependencies
  | .optionalDependencies => .ranges e.optionalDependencies
  | .peerDependencies => .ranges e.peerDependencies
  | .checksum => .text e.checksum
  | .conditions => .text e.conditions
  | .languageName => .text e.languageName
  | .linkType => .text e.linkType

/-- The field is written: it is the version, or it is not empty. -/
def isWritten (e : Entry) (f : Field) : Bool :=
  decide (f = .version) || !(e.part f).isEmpty

/-- Some of the modelled fields, as they are written. -/
def modelledParts (e : Entry) (fs : List Field) : List (String × Part) :=
  (fs.filter e.isWritten).map fun f => (f.name, e.part f)

/-- The fields that are written of an entry, with what stands under them. -/
def parts (e : Entry) : List (String × Part) :=
  e.modelledParts Field.front ++ e.extra.pairs.map (fun p => (p.1, .value p.2)) ++
    e.modelledParts Field.back

/-! ## Writing -/

/-- The tree of a field, if it can be written. -/
def fieldTree? (p : String × Part) : Option (Tree × Tree) :=
  p.2.tree?.map fun t => (Tree.ofText p.1, t)

theorem modelledParts_cons (f : Field) (fs : List Field) : e.modelledParts (f :: fs) =
    (if e.isWritten f then [(f.name, e.part f)] else []) ++ e.modelledParts fs := by
  rw [modelledParts, List.filter_cons]
  split <;> rfl

theorem mapM_textPart (f : Field) (s : String) :
    (if (!s.isEmpty) = true then [(f.name, Part.text s)] else []).mapM fieldTree? =
      some (textField f s) := by
  cases hs : s.isEmpty <;> simp [textField, hs, fieldTree?, Part.tree?]

theorem mapM_rangesPart (f : Field) (r : Ranges) :
    (if (!r.isEmpty) = true then [(f.name, Part.ranges r)] else []).mapM fieldTree? =
      some (rangesField f r) := by
  cases hr : r.isEmpty <;> simp [rangesField, hr, fieldTree?, Part.tree?]

/-- The tree of a modelled field, unless it is empty. -/
def modelledTrees (e : Entry) : Field → List (Tree × Tree)
  | .version => [(.ofText Field.version.name, .ofText e.version)]
  | .resolved => textField .resolved e.resolved
  | .integrity => textField .integrity e.integrity
  | .resolution => textField .resolution e.resolution
  | .dependencies => rangesField .dependencies e.dependencies
  | .optionalDependencies => rangesField .optionalDependencies e.optionalDependencies
  | .peerDependencies => rangesField .peerDependencies e.peerDependencies
  | .checksum => textField .checksum e.checksum
  | .conditions => textField .conditions e.conditions
  | .languageName => textField .languageName e.languageName
  | .linkType => textField .linkType e.linkType

theorem mapM_modelledParts (e : Entry) (fs : List Field) :
    (e.modelledParts fs).mapM fieldTree? = some (fs.flatMap e.modelledTrees) := by
  have hfield : ∀ f : Field, (if e.isWritten f then [(f.name, e.part f)] else []).mapM fieldTree? =
      some (e.modelledTrees f) := by
    intro f
    cases f
    case version => simp [isWritten, part, fieldTree?, Part.tree?, modelledTrees]
    case dependencies => exact mapM_rangesPart _ _
    case optionalDependencies => exact mapM_rangesPart _ _
    case peerDependencies => exact mapM_rangesPart _ _
    all_goals exact mapM_textPart _ _
  induction fs with
  | nil => rfl
  | cons f fs ih =>
    rw [modelledParts_cons, List.mapM_append, hfield, ih, List.flatMap_cons]
    rfl

/-- An entry is written as its parts, one by one. -/
theorem trees?_eq_mapM (e : Entry) : e.trees? = e.parts.mapM fieldTree? := by
  have hextra : (e.extra.pairs.map fun p => (p.1, Part.value p.2)).mapM fieldTree? =
      extraTrees? e.extra := by
    rw [List.mapM_map]
    rfl
  rw [parts, List.mapM_append, List.mapM_append, mapM_modelledParts, mapM_modelledParts, hextra,
    trees?]
  cases extraTrees? e.extra with
  | none => rfl
  | some extra =>
    simp [Field.front, Field.back, modelledTrees]

/-! ## Putting parts in their places -/

namespace Draft

/-- What a modelled field of a draft holds. -/
def content (a : Draft) : (f : Field) → f.Content
  | .version => a.version
  | .resolved => a.entry.resolved
  | .integrity => a.entry.integrity
  | .resolution => a.entry.resolution
  | .dependencies => a.entry.dependencies
  | .optionalDependencies => a.entry.optionalDependencies
  | .peerDependencies => a.entry.peerDependencies
  | .checksum => a.entry.checksum
  | .conditions => a.entry.conditions
  | .languageName => a.entry.languageName
  | .linkType => a.entry.linkType

@[simp] theorem put_content (a : Draft) (f : Field) : a.put f (a.content f) = a := by
  cases f <;> rfl

theorem content_put_of_ne {f g : Field} (h : f ≠ g) (a : Draft) (x : f.Content) :
    (a.put f x).content g = a.content g := by
  cases f <;> cases g <;> first | rfl | exact absurd rfl h

/-- Fields that hold what they are to hold may be left out. -/
theorem foldl_modelled {fs : List Field} (hnodup : fs.Nodup) {written : Field → Bool} {a b : Draft}
    (h : ∀ f ∈ fs, written f = false → a.content f = b.content f) :
    ((fs.filter written).map fun f => Assignment.modelled f (b.content f)).foldl assign a =
      fs.foldl (fun a f => a.put f (b.content f)) a := by
  induction fs generalizing a with
  | nil => rfl
  | cons f fs ih =>
    obtain ⟨hnew, hnodup⟩ := List.nodup_cons.1 hnodup
    rw [List.forall_mem_cons] at h
    have hput : ∀ g ∈ fs, written g = false → (a.put f (b.content f)).content g = b.content g := by
      intro g hg hunwritten
      have hne : f ≠ g := fun heq => hnew (heq ▸ hg)
      rw [content_put_of_ne hne, h.2 g hg hunwritten]
    rw [List.filter_cons, List.foldl_cons, ← ih hnodup hput]
    cases hwritten : written f with
    | true => rfl
    | false =>
      rw [← h.1 hwritten, put_content]
      rfl

theorem foldl_others (a : Draft) (pairs : List (String × Value)) :
    (pairs.map fun p => Assignment.other p.1 p.2).foldl assign a =
      a.withExtra (pairs.foldl (fun c p => c.put p.1 p.2) a.entry.extra) := by
  induction pairs generalizing a with
  | nil => rfl
  | cons p pairs ih =>
    rw [List.map_cons, List.foldl_cons, ih]
    rfl

end Draft

/-- What was read of an entry when all of it was read. -/
def draft (e : Entry) : Draft :=
  ⟨some e.version, { e with version := "" }⟩

/-- What is read of the parts of an entry. -/
def assignments (e : Entry) : List Assignment :=
  ((Field.front.filter e.isWritten).map fun f => .modelled f (e.draft.content f)) ++
    e.extra.pairs.map (fun p => .other p.1 p.2) ++
    (Field.back.filter e.isWritten).map fun f => .modelled f (e.draft.content f)

/-- A field is left out if it is as in an entry of which nothing was read. -/
theorem content_of_not_isWritten {f : Field} (h : e.isWritten f = false) :
    (⟨none, {}⟩ : Draft).content f = e.draft.content f := by
  have htext : ∀ s : String, (!s.isEmpty) = false → "" = s := by
    intro s hs
    rw [Bool.not_eq_false', String.isEmpty_iff] at hs
    exact hs.symm
  have hranges : ∀ r : Ranges, (!r.isEmpty) = false → Table.empty = r := by
    rintro ⟨pairs, hascending⟩ hr
    rw [Bool.not_eq_false'] at hr
    obtain rfl : pairs = [] := List.isEmpty_iff.1 hr
    rfl
  cases f
  case version => cases h
  case dependencies => exact hranges _ h
  case optionalDependencies => exact hranges _ h
  case peerDependencies => exact hranges _ h
  all_goals exact htext _ h

/-- The parts of an entry, put in their places, are the entry. -/
theorem foldl_assignments (e : Entry) :
    e.assignments.foldl Draft.assign ⟨none, {}⟩ = e.draft := by
  have hwhole : e.extra.pairs.foldl (fun c p => c.put p.1 p.2) .empty = e.extra :=
    Catalog.ext_of_pairs (Catalog.pairs_ofList e.extra.distinct)
  -- the fields in front leave the others as they are, and so do those that are not modelled
  have hfront : ((Field.front.filter e.isWritten).map fun f => Assignment.modelled f
      (e.draft.content f)).foldl Draft.assign ⟨none, {}⟩ = ⟨some e.version, ⟨"", e.resolved,
        e.integrity, e.resolution, e.dependencies, e.optionalDependencies, e.peerDependencies,
        .empty, "", "", "", ""⟩⟩ :=
    Draft.foldl_modelled (by decide) fun f _ => content_of_not_isWritten
  have hback : ((Field.back.filter e.isWritten).map fun f => Assignment.modelled f
      (e.draft.content f)).foldl Draft.assign ⟨some e.version, ⟨"", e.resolved, e.integrity,
        e.resolution, e.dependencies, e.optionalDependencies, e.peerDependencies, e.extra, "", "",
        "", ""⟩⟩ = e.draft := by
    refine Draft.foldl_modelled (by decide) fun f hf hunwritten => ?_
    rw [← content_of_not_isWritten hunwritten]
    cases f <;> first | rfl | exact absurd hf (by decide)
  rw [assignments, List.foldl_append, List.foldl_append, hfront, Draft.foldl_others, hwhole]
  exact hback

end Entry

/-! ## Nodes that say what an entry says -/

/-- The node says what stands under a field. -/
def Part.Says (d : Document) (depth : Nat) : Part → Node → Prop
  | .text s, node => node.IsText s
  | .ranges r, node => ∃ mark anchor tag nodes, node = .mapping mark anchor tag nodes ∧
    List.Forall₂ (fun p n => n.1.IsText p.1 ∧ n.2.IsText p.2) r.pairs nodes
  | .value v, node => ∀ path k, d.value depth path node k = .ok (v, k)

namespace Entry

variable {e : Entry} {d : Document} {depth k : Nat} {path : Path} {node : Node}

/-- The nodes say what the parts of an entry say: the names of fields and the texts are scalars that
mean texts, and whatever is not modelled is read as the value that it is. -/
def Says (e : Entry) (d : Document) (depth : Nat) (nodes : List (Node × Node)) : Prop :=
  List.Forall₂ (fun p n => n.1.IsText p.1 ∧ p.2.Says d depth n.2) e.parts nodes

theorem readRanges_of_says {r : Ranges} (h : (Part.ranges r).Says d depth node) :
    readRanges d (depth + 1) path node k = .ok (r, k) := by
  obtain ⟨mark, anchor, tag, nodes, rfl, hnodes⟩ := h
  have hread : d.mapping "a map" (fun _ path => readPairs d path .empty) (depth + 1) path
      (.mapping mark anchor tag nodes) k = .ok (r, k) :=
    Reading.placedAt_eq_ok_iff.2 (readPairs_of_isText (r := .empty) r.ascending hnodes)
  have hsome : d.optional (d.mapping "a map" (fun _ path => readPairs d path .empty) (depth + 1))
      path (.mapping mark anchor tag nodes) k = .ok (some r, k) :=
    Reading.map_eq_ok_iff.2 ⟨r, k, hread, rfl⟩
  exact Reading.map_eq_ok_iff.2 ⟨some r, k, hsome, rfl⟩

/-- A field is read as what it is to hold. -/
def ReadsAs (d : Document) (depth : Nat) (p : String × Part) (x : Assignment) : Prop :=
  ∀ n : Node × Node, n.1.IsText p.1 → p.2.Says d depth n.2 →
    ∀ path k, readField d depth path n k = .ok (x, k)

theorem readsAs_modelled (d : Document) (depth : Nat) (f : Field) :
    ReadsAs d (depth + 1) (f.name, e.part f) (.modelled f (e.draft.content f)) := by
  intro n hname hmeant path k
  have hcontent : ∀ path, readContent d (depth + 1) path n.2 f k = .ok (e.draft.content f, k) := by
    intro path
    cases f
    case version => exact readText?_of_isText hmeant
    case dependencies => exact readRanges_of_says hmeant
    case optionalDependencies => exact readRanges_of_says hmeant
    case peerDependencies => exact readRanges_of_says hmeant
    all_goals exact readText_of_isText hmeant
  rw [readField, Reading.bind_of_ok (text_of_isText hname _), readNamed, Field.ofName?_name]
  exact Reading.map_eq_ok_iff.2 ⟨_, k, hcontent _, rfl⟩

theorem readsAs_other {name : String} (hname : Field.ofName? name = none) (v : Value) :
    ReadsAs d depth (name, .value v) (.other name v) := by
  intro n hn hmeant path k
  rw [readField, Reading.bind_of_ok (text_of_isText hn _), readNamed, hname]
  exact Reading.map_eq_ok_iff.2 ⟨v, k, hmeant _ k, rfl⟩

/-- Each part of an entry is read as what it puts in its place. -/
theorem forall₂_readsAs (hname : ∀ p ∈ e.extra.pairs, Field.ofName? p.1 = none) :
    List.Forall₂ (ReadsAs d (depth + 1)) e.parts e.assignments := by
  have hmodelled : ∀ fs : List Field, List.Forall₂ (ReadsAs d (depth + 1)) (e.modelledParts fs)
      ((fs.filter e.isWritten).map fun f => .modelled f (e.draft.content f)) := by
    intro fs
    rw [modelledParts, List.forall₂_map_left_iff, List.forall₂_map_right_iff, List.forall₂_same]
    exact fun f _ => readsAs_modelled d depth f
  have hother : List.Forall₂ (ReadsAs d (depth + 1)) (e.extra.pairs.map fun p => (p.1, .value p.2))
      (e.extra.pairs.map fun p => .other p.1 p.2) := by
    rw [List.forall₂_map_left_iff, List.forall₂_map_right_iff, List.forall₂_same]
    exact fun p hp => readsAs_other (hname p hp) p.2
  exact List.rel_append (List.rel_append (hmodelled _) hother) (hmodelled _)

theorem mapM_readField {ps : List (String × Part)} {xs : List Assignment}
    {nodes : List (Node × Node)}
    (hmeant : List.Forall₂ (fun p n => n.1.IsText p.1 ∧ p.2.Says d depth n.2) ps nodes)
    (hreads : List.Forall₂ (ReadsAs d depth) ps xs) :
    nodes.mapM (readField d depth path) k = .ok (xs, k) := by
  induction hmeant generalizing xs with
  | nil =>
    cases hreads
    rw [List.mapM_nil]
    rfl
  | @cons p n ps nodes hp _ ih =>
    obtain ⟨x, xs, hx, hxs, rfl⟩ := List.forall₂_cons_left_iff.1 hreads
    rw [List.mapM_cons, Reading.bind_of_ok (hx n hp.1 hp.2 path k), Reading.bind_of_ok (ih hxs)]
    rfl

/-- An entry is read from nodes that say what its parts say. -/
theorem read_of_says (hname : ∀ f : Field, f.name ∉ e.extra.keys) {nodes : List (Node × Node)}
    (hmeant : e.Says d (depth + 1) nodes) (mark : Mark) (anchor : Option Nat) (tag : Option Tag) :
    read d (depth + 2) path (.mapping mark anchor tag nodes) k = .ok (e, k) := by
  have hnone : ∀ p ∈ e.extra.pairs, Field.ofName? p.1 = none := fun p hp =>
    Field.ofName?_eq_none_iff.2 fun f heq => hname f (heq ▸ List.mem_map_of_mem hp)
  have hfields : readFields d (depth + 1) path ⟨none, {}⟩ nodes k = .ok (e.draft, k) := by
    rw [readFields_eq, ← foldl_assignments]
    exact Reading.map_eq_ok_iff.2 ⟨_, k, mapM_readField hmeant (forall₂_readsAs hnone), rfl⟩
  exact read_mapping_eq_ok_iff.2 ⟨depth + 1, rfl, e.draft, k, hfields, rfl⟩

/-! ## Entries that were written -/

theorem IsHeld.name_not_mem_keys (he : e.IsHeld depth) (f : Field) : f.name ∉ e.extra.keys := by
  intro hmem
  obtain ⟨p, hp, heq⟩ := List.mem_map.1 hmem
  exact Field.ofName?_eq_none_iff.1 (he.name p hp) f heq.symm

/-- The values among the parts of an entry are those of the fields that are not modelled. -/
theorem mem_extra_of_mem_parts {p : String × Part} (hp : p ∈ e.parts) {v : Value}
    (hv : p.2 = .value v) : (p.1, v) ∈ e.extra.pairs := by
  have hmodelled : ∀ {fs : List Field}, p ∉ e.modelledParts fs := by
    intro fs hmem
    obtain ⟨f, -, rfl⟩ := List.mem_map.1 hmem
    cases f <;> cases hv
  rw [parts, List.mem_append, List.mem_append] at hp
  obtain ⟨q, hq, rfl⟩ := List.mem_map.1 ((hp.resolve_right hmodelled).resolve_left hmodelled)
  cases hv
  exact hq

/-- What says what the tree of a part says says what the part does. -/
theorem says_of_tree? {p : Part} (hp : ∀ v, p = .value v → v.IsHeld depth ∧ v.KeepsTags) {t : Tree}
    (ht : p.tree? = some t) (hnode : node.content? = some t.content) : p.Says d depth node := by
  cases p with
  | text s =>
    obtain rfl := Option.some.inj ht
    exact Node.isText_of_content hnode
  | ranges r =>
    obtain rfl := Option.some.inj ht
    rw [rangesTree, Tree.content] at hnode
    obtain ⟨mark, anchor, nodes, rfl, hnodes⟩ := Node.content?_mapping_iff.1 hnode
    have hpairs := Tree.forall₂_of_entryContents? hnodes
    rw [List.forall₂_map_left_iff] at hpairs
    exact ⟨mark, anchor, _, nodes, rfl, hpairs.imp fun q n hq =>
      ⟨Node.isText_of_content hq.1, Node.isText_of_content hq.2⟩⟩
  | value v =>
    obtain ⟨hheld, htags⟩ := hp v rfl
    exact fun path k => Document.value_of_content hheld htags (.inl rfl) ht hnode path k

/-- What says what is written of an entry is a mapping with a field for each part. -/
theorem exists_nodes_of_content {fields : List (Tree × Tree)} (hfields : e.trees? = some fields)
    (hnode : node.content? = some (Tree.mapping none fields).content) :
    ∃ mark anchor tag nodes, node = .mapping mark anchor tag nodes ∧
      List.Forall₂ (fun p n => n.1.content? = some (Tree.ofText p.1).content ∧
        ∃ t, p.2.tree? = some t ∧ n.2.content? = some t.content) e.parts nodes := by
  rw [Tree.content] at hnode
  obtain ⟨mark, anchor, nodes, rfl, hnodes⟩ := Node.content?_mapping_iff.1 hnode
  refine ⟨mark, anchor, _, nodes, rfl, ?_⟩
  rw [trees?_eq_mapM, mapM_eq_some_iff] at hfields
  refine (forall₂_trans hfields (Tree.forall₂_of_entryContents? hnodes)).imp ?_
  rintro p n ⟨field, hfield, hname, hvalue⟩
  obtain ⟨t, ht, rfl⟩ := Option.map_eq_some_iff.1 hfield
  exact ⟨hname, t, ht, hvalue⟩

/-- The entry of what says what the fields of an entry say. -/
theorem read_of_content (he : e.IsHeld (depth + 1)) (htags : e.KeepsTags)
    {fields : List (Tree × Tree)} (hfields : e.trees? = some fields)
    (hnode : node.content? = some (Tree.mapping none fields).content) :
    read d (depth + 2) path node k = .ok (e, k) := by
  obtain ⟨mark, anchor, tag, nodes, rfl, hnodes⟩ := exists_nodes_of_content hfields hnode
  have hparts : ∀ p ∈ e.parts, ∀ v, p.2 = .value v → v.IsHeld (depth + 1) ∧ v.KeepsTags :=
    fun p hp v hv =>
      ⟨he.value _ (mem_extra_of_mem_parts hp hv), htags _ (mem_extra_of_mem_parts hp hv)⟩
  have hmeant : e.Says d (depth + 1) nodes := by
    refine ((List.forall₂_and_left _ _).2 ⟨hparts, hnodes⟩).imp ?_
    rintro p n ⟨hp, hname, t, ht, hvalue⟩
    exact ⟨Node.isText_of_content hname, says_of_tree? hp ht hvalue⟩
  exact read_of_says he.name_not_mem_keys hmeant mark anchor tag

/-! ## Nodes for every entry -/

/-- The nodes of names with ranges. -/
def rangesNodes (r : Ranges) : List (Node × Node) :=
  r.pairs.map fun p => (.scalar .start none none .double p.1, .scalar .start none none .double p.2)

end Entry

/-- The node of what stands under a field. -/
def Part.node : Part → Node
  | .text s => .scalar .start none none .double s
  | .ranges r => .mapping .start none none (Entry.rangesNodes r)
  | .value v => v.node

namespace Entry

variable {e : Entry} {d : Document} {depth k k' : Nat} {path : Path} {node : Node}

/-- An entry whose fields that are not modelled have values with nodes of their own. -/
structure HasNodes (depth : Nat) (e : Entry) : Prop where
  isHeld : ∀ p ∈ e.extra.pairs, p.2.IsHeld depth
  singlyTagged : ∀ p ∈ e.extra.pairs, p.2.SinglyTagged

/-- The nodes of an entry: names and texts in quotes, and the nodes of all values. -/
def nodes (e : Entry) : List (Node × Node) :=
  e.parts.map fun p => (.scalar .start none none .double p.1, p.2.node)

theorem isText_double (s : String) : (Node.scalar .start none none .double s).IsText s :=
  ⟨.start, none, none, .double, rfl, rfl⟩

theorem says_node {p : Part} (hp : ∀ v, p = .value v → v.IsHeld depth ∧ v.SinglyTagged)
    (d : Document) : p.Says d depth p.node := by
  cases p with
  | text s => exact isText_double s
  | ranges r =>
    refine ⟨.start, none, none, rangesNodes r, rfl, ?_⟩
    rw [rangesNodes, List.forall₂_map_right_iff, List.forall₂_same]
    exact fun q _ => ⟨isText_double q.1, isText_double q.2⟩
  | value v =>
    obtain ⟨hheld, hone⟩ := hp v rfl
    exact fun path k => Document.value_node hheld hone path k

theorem says_nodes (h : e.HasNodes depth) (d : Document) : e.Says d depth e.nodes := by
  rw [Says, nodes, List.forall₂_map_right_iff, List.forall₂_same]
  refine fun p hp => ⟨isText_double p.1, says_node (fun v hv => ?_) d⟩
  exact ⟨h.isHeld _ (mem_extra_of_mem_parts hp hv), h.singlyTagged _ (mem_extra_of_mem_parts hp hv)⟩

/-! ## Entries that are read -/

/-- An entry that is read has none of the modelled fields among the others, and its values have
nodes. -/
theorem hasNodes_of_read (h : read d (depth + 1) path node k = .ok (e, k')) :
    (∀ f : Field, f.name ∉ e.extra.keys) ∧ e.HasNodes depth := by
  have hheld := isHeld_of_read h
  exact ⟨hheld.name_not_mem_keys, hheld.value,
    forall_extra_of_read (fun _ _ _ _ _ _ _ hv => Document.singlyTagged_of_value hv) h⟩

/-- **Entries are read from their parts**: an entry that is read has none of the modelled fields
among the others.  What is written of an entry are its parts, and from nodes that say what these say
every such entry is read again, with texts that are empty or spell what is missing as with any
other, and with whatever values its other fields have.  There are such nodes for every entry whose
values a document can hold, as are those of every entry that is read. -/
theorem read_parts :
    (∀ (d : Document) (depth : Nat) (path : Path) (node : Node) (k : Nat) (e : Entry) (k' : Nat),
      read d (depth + 1) path node k = .ok (e, k') →
        (∀ f : Field, f.name ∉ e.extra.keys) ∧ e.HasNodes depth) ∧
      (∀ e : Entry, e.trees? = e.parts.mapM fieldTree?) ∧
      (∀ e : Entry, (∀ f : Field, f.name ∉ e.extra.keys) →
        ∀ (d : Document) (depth : Nat) (nodes : List (Node × Node)), e.Says d (depth + 1) nodes →
          ∀ (path : Path) (mark : Mark) (anchor : Option Nat) (tag : Option Tag) (k : Nat),
            read d (depth + 2) path (.mapping mark anchor tag nodes) k = .ok (e, k)) ∧
      ∀ (e : Entry) (depth : Nat), e.HasNodes depth → ∀ d : Document, e.Says d depth e.nodes :=
  ⟨fun _ _ _ _ _ _ _ => hasNodes_of_read, trees?_eq_mapM,
    fun _ hname _ _ _ hmeant _ mark anchor tag _ => read_of_says hname hmeant mark anchor tag,
    fun _ _ => says_nodes⟩

/-- An entry with texts that spell what is missing, with an empty range, and with a value that
cannot be written as text. -/
def oblique : Entry where
  version := ""
  resolved := "~"
  dependencies := .ofList [("null", ""), ("a", "~")]
  extra := .ofList [("Version", .tagged "!x" .null),
    ("bin", .mapping [(.mapping [(.string "a", .null)], .string "null")])]
  linkType := "null"

/-- It is read from its nodes, although it cannot be written as text. -/
theorem read_parts_oblique :
    oblique.trees? = none ∧ oblique.parts.map Prod.fst =
      ["version", "resolved", "dependencies", "Version", "bin", "linkType"] ∧
    read .malformed 4 .root (.mapping .start none none oblique.nodes) 0 = .ok (oblique, 0) := by
  have hpairs : oblique.extra.pairs = [("Version", .tagged "!x" .null),
      ("bin", .mapping [(.mapping [(.string "a", .null)], .string "null")])] := rfl
  have hname : ∀ f : Field, f.name ∉ oblique.extra.keys := by
    intro f
    cases f <;> decide
  have hnodes : oblique.HasNodes 3 := by
    have hmap : ∀ {depth : Nat} {k v : Yaml.Value}, k.IsHeld depth → v.IsHeld depth →
        (Yaml.Value.mapping [(k, v)]).IsHeld (depth + 1) := fun hk hv =>
      .mapping (List.pairwise_singleton _ _) (List.forall_mem_singleton.2 hk)
        (List.forall_mem_singleton.2 hv)
    have htag : ∀ {k v : Yaml.Value}, k.SinglyTagged → v.SinglyTagged →
        (Yaml.Value.mapping [(k, v)]).SinglyTagged := fun hk hv =>
      .mapping (List.forall_mem_singleton.2 hk) (List.forall_mem_singleton.2 hv)
    constructor <;> rw [hpairs, List.forall_mem_cons, List.forall_mem_singleton]
    · exact ⟨.tagged (by decide) .null, hmap (hmap .string .null) .string⟩
    · exact ⟨.tagged .null rfl, htag (htag .string .null) .string⟩
  obtain ⟨-, -, hread, hmeant⟩ := read_parts
  exact ⟨by decide +kernel, by decide +kernel,
    hread oblique hname .malformed 2 oblique.nodes (hmeant oblique 3 hnodes .malformed) .root .start
      none none 0⟩

end Entry

end LockPrune
