import LockPrune.Proofs.Lockfile.FileReading
import LockPrune.Proofs.Yaml.Respelling

/-!
# Fields that are not modelled, written again

The block of a key in a file, and the block under that key in what is written of the file, have the
same fields that are not modelled, in one order.  Their values say the same up to spelling: texts in
quotes are kept, and a plain scalar is written as what it means.

## Main definitions

* `Yaml.Document.lastRow?` — the last entry of a document under a name with some property.
* `Entry.otherNodes` — the nodes of the fields of a block that are not modelled.

## Main statements

* `Entry.forall₂_extra_of_read` — what is read of these fields.
* `Entry.forall₂_extra_of_content` — what is written of these fields.
* `Lockfile.others_encode` — what becomes of them when a file is read and written again.
-/

namespace LockPrune

open Yaml Yaml.Tree

/-! ## The fields of a block -/

namespace Entry

variable {d : Document} {depth : Nat} {path : Path} {node : Node} {k k' : Nat} {e : Entry}

/-- The name and the node of a field, unless it is modelled. -/
def otherNode? (d : Document) (field : Node × Node) : Option (String × Node) :=
  ((d.nameOf? field.1).filter fun name => (Field.ofName? name).isNone).map fun name =>
    (name, field.2)

/-- The nodes of the fields of a block that are not modelled, in order.  Of several under one name
the last counts. -/
def otherNodes (d : Document) (block : Node) : Catalog Node :=
  .ofList ((d.entriesOf block).filterMap (otherNode? d))

/-! ## Reading them -/

theorem rel_other?_of_readField {field : Node × Node} {r : Assignment × Nat}
    (h : readField d depth path field k = .ok r) :
    Option.Rel (Catalog.PairRel (Document.Gives (d.value depth)))
      (otherNode? d field) r.1.other? := by
  obtain ⟨x, m⟩ := r
  obtain ⟨hname, hother⟩ := name_of_readField h
  rw [isOtherField, hname, Option.any_some] at hother
  rw [otherNode?, hname, Option.filter_some, hother]
  cases x with
  | modelled f content => exact .none
  | other name v =>
    obtain ⟨-, path', j, hvalue⟩ := value_of_readField h
    exact .some ⟨rfl, path', j, m, hvalue⟩

/-- The fields of an entry that are not modelled are read from those of its block, in order. -/
theorem forall₂_extra_of_read (h : read d (depth + 1) path node k = .ok (e, k')) :
    List.Forall₂ (Catalog.PairRel (Document.Gives (d.value depth))) (otherNodes d node).pairs
      e.extra.pairs := by
  obtain ⟨path', rs, hrs, hextra⟩ := extra_of_read h
  rw [hextra]
  exact Catalog.forall₂_ofList
    (List.rel_filterMap (fun _ _ hr => rel_other?_of_readField hr) hrs)

/-! ## Writing them -/

/-- The node says what is written of the value. -/
def IsWrittenAs (v : Value) (node : Node) : Prop :=
  ∃ t, v.tree? = some t ∧ node.content? = some t.content

/-- The name and the value of a part, unless it is a modelled field. -/
def otherPart? : String × Part → Option (String × Value)
  | (name, .value v) => some (name, v)
  | _ => none

theorem filterMap_otherPart? (e : Entry) : e.parts.filterMap otherPart? = e.extra.pairs := by
  have hmodelled : ∀ fs : List Field, (e.modelledParts fs).filterMap otherPart? = [] := by
    intro fs
    rw [List.filterMap_eq_nil_iff]
    intro p hp
    obtain ⟨f, -, rfl⟩ := List.mem_map.1 hp
    cases f <;> rfl
  rw [parts, List.filterMap_append, List.filterMap_append, hmodelled, hmodelled, List.nil_append,
    List.append_nil, List.filterMap_map]
  exact List.filterMap_some

/-- The parts with the names of modelled fields are these fields. -/
theorem isSome_otherPart? (hname : ∀ f : Field, f.name ∉ e.extra.keys) {p : String × Part}
    (hp : p ∈ e.parts) : (otherPart? p).isSome = (Field.ofName? p.1).isNone := by
  have hmodelled : ∀ {fs : List Field}, p ∈ e.modelledParts fs →
      (otherPart? p).isSome = (Field.ofName? p.1).isNone := by
    intro fs hmem
    obtain ⟨f, -, rfl⟩ := List.mem_map.1 hmem
    rw [Field.ofName?_name]
    cases f <;> rfl
  rw [parts, List.mem_append, List.mem_append] at hp
  rcases hp with (hp | hp) | hp
  · exact hmodelled hp
  · obtain ⟨q, hq, rfl⟩ := List.mem_map.1 hp
    have hnone : Field.ofName? q.1 = none :=
      Field.ofName?_eq_none_iff.2 fun f heq => hname f (heq ▸ List.mem_map_of_mem hq)
    rw [hnone]
    rfl
  · exact hmodelled hp

theorem rel_otherPart?_of_content {p : String × Part}
    (hp : (otherPart? p).isSome = (Field.ofName? p.1).isNone) {field : Node × Node}
    (hkey : field.1.content? = some (Tree.ofText p.1).content) {t : Tree}
    (ht : p.2.tree? = some t) (hvalue : field.2.content? = some t.content) :
    Option.Rel (Catalog.PairRel IsWrittenAs) (otherPart? p) (otherNode? d field) := by
  rw [otherNode?, nameOf?_of_content hkey, Option.filter_some, ← hp]
  obtain ⟨name, part⟩ := p
  cases part with
  | value v => exact .some ⟨rfl, t, ht, hvalue⟩
  | _ => exact .none

/-- The fields of an entry that are not modelled are those of the block that is written, in order.
-/
theorem forall₂_extra_of_content (hname : ∀ f : Field, f.name ∉ e.extra.keys)
    {fields : List (Tree × Tree)} (hfields : e.trees? = some fields)
    (hnode : node.content? = some (Tree.mapping none fields).content) :
    List.Forall₂ (Catalog.PairRel IsWrittenAs) e.extra.pairs (otherNodes d node).pairs := by
  obtain ⟨mark, anchor, tag, nodes, rfl, hnodes⟩ := exists_nodes_of_content hfields hnode
  have hothers : List.Forall₂ (Catalog.PairRel IsWrittenAs) (e.parts.filterMap otherPart?)
      (nodes.filterMap (otherNode? d)) := by
    refine List.rel_filterMap ?_
      ((List.forall₂_and_left _ _).2 ⟨fun p => isSome_otherPart? hname, hnodes⟩)
    rintro p field ⟨hp, hkey, t, ht, hvalue⟩
    exact rel_otherPart?_of_content hp hkey ht hvalue
  rw [filterMap_otherPart?] at hothers
  have hextra := Catalog.forall₂_ofList hothers
  rwa [Catalog.pairs_ofList e.extra.distinct] at hextra

/-- What is written of an entry that was read has the fields of its block that are not modelled,
each with what its node said, respelled. -/
theorem forall₂_otherNodes {d' : Document} {node' : Node}
    (h : read d (depth + 1) path node k = .ok (e, k')) {fields : List (Tree × Tree)}
    (hfields : e.trees? = some fields)
    (hnode : node'.content? = some (Tree.mapping none fields).content) :
    List.Forall₂ (Catalog.PairRel fun n n' =>
        ∃ c, d.said? depth n = some c ∧ n'.content? = some c.respelled)
      (otherNodes d node).pairs (otherNodes d' node').pairs := by
  have hname : ∀ f : Field, f.name ∉ e.extra.keys := (hasNodes_of_read h).1
  refine (forall₂_trans (forall₂_extra_of_read h)
    (forall₂_extra_of_content hname hfields hnode)).imp ?_
  rintro p q ⟨r, ⟨hpr, hvalue⟩, hrq, t, ht, hcontent⟩
  obtain ⟨c, hc, htree⟩ := Document.respells_of_value hvalue
  exact ⟨hpr.trans hrq, c, hc, htree t ht ▸ hcontent⟩

end Entry

/-! ## The block of a key -/

/-- The node behind the last entry of the root whose name has a property. -/
def Yaml.Document.lastRow? (d : Document) (p : String → Bool) : Option Node :=
  ((d.entriesOf d.root).findRev? fun row => (d.nameOf? row.1).any p).map Prod.snd

namespace Lockfile

variable {octets : List UInt8} {l : Lockfile} {key : String} {e : Entry} {text : String}

/-- A block with a raw key is one of a key: it is not the metadata, and has the key among its own.
-/
def standsOver (key raw : String) : Bool :=
  raw ≠ Metadata.key && (Block.mk raw default).keys.contains key

/-- The entry of a key was read from the last block that stands over the key. -/
theorem exists_row_of_decode (hl : decode octets = .ok l) (he : l.entry? key = some e) :
    ∃ block, (documentOf octets).lastRow? (standsOver key) = some block ∧
      ∃ path n n', Entry.read (documentOf octets) (maxDepth - 1) path block n = .ok (e, n') := by
  obtain ⟨metadata, blocks, hblocks, rfl⟩ := exists_blocks_of_decode hl
  rw [entry?_eq_findRev?, Option.map_eq_some_iff] at he
  obtain ⟨b, hb, rfl⟩ := he
  have hne : blocks ≠ [] := by
    rintro rfl
    cases hb
  obtain ⟨row, hrow, hread⟩ := exists_findRev?_of_forall₂
    (p := fun row => ((documentOf octets).nameOf? row.1).any fun raw =>
      (Block.mk raw default).keys.contains key)
    (fun row b hrow => by rw [hrow.name]; rfl) (forall₂_of_decodeBlocks hblocks hne) hb
  refine ⟨row.2, ?_, hread.entry⟩
  have hkind : ∀ row, decide (isBlockRow (documentOf octets) row = true ∧
      ((documentOf octets).nameOf? row.1).any (fun raw =>
        (Block.mk raw default).keys.contains key) = true) =
      ((documentOf octets).nameOf? row.1).any (standsOver key) := by
    intro row
    rw [isBlockRow]
    cases (documentOf octets).nameOf? row.1 <;> simp [standsOver]
  rw [List.findRev?_eq_find?_reverse, ← List.filter_reverse, List.find?_filter, funext hkind,
    ← List.findRev?_eq_find?_reverse] at hrow
  rw [Document.lastRow?, hrow, Option.map_some]

/-- The last entry of a key is its only one. -/
theorem findRev?_entries (he : l.entry? key = some e) :
    l.entries.findRev? (fun p => p.1 = key) = some (key, e) := by
  have hsome : (l.entries.findRev? fun p => p.1 = key).isSome := by
    rw [List.findRev?_eq_find?_reverse, List.find?_isSome]
    exact ⟨(key, e), List.mem_reverse.2 (entry?_eq_some_iff.1 he), decide_eq_true rfl⟩
  obtain ⟨⟨key', e'⟩, hp⟩ := Option.isSome_iff_exists.1 hsome
  rw [List.findRev?_eq_find?_reverse] at hp ⊢
  obtain rfl : key' = key := by simpa using List.find?_some hp
  have he' := entry?_eq_some_iff.2 (List.mem_reverse.1 (List.mem_of_find?_eq_some hp))
  rw [hp, Option.some.inj (he.symm.trans he')]

/-- The block that is written of a key says what is written of its entry. -/
theorem exists_row_of_encode (htags : l.IsReadable)
    (hkept : ∀ trees, l.trees? = some trees → isKeptRoot trees = true) (h : l.encode = .ok text)
    (he : l.entry? key = some e) :
    ∃ block, (documentOf (Sink.octets text.toList)).lastRow? (fun raw => raw = key) = some block ∧
      ∃ fields, e.trees? = some fields ∧
        block.content? = some (Tree.mapping none fields).content := by
  obtain ⟨trees, htrees⟩ := exists_trees h
  have hnodes := entryContents?_rows_of_encode htags htrees (hkept trees htrees) h
  generalize documentOf (Sink.octets text.toList) = d at hnodes ⊢
  obtain ⟨kn, vn, rows, hentries, -, -, hrows⟩ := Node.entryContents?_eq_cons hnodes
  have hall : List.Forall₂ (fun row p => d.nameOf? row.1 = some p.1 ∧ ∃ fields,
      p.2.trees? = some fields ∧ row.2.content? = some (Tree.mapping none fields).content)
      rows l.entries := by
    refine (forall₂_trans (forall₂_of_trees? htrees)
      (Tree.forall₂_of_entryContents? hrows)).flip.imp ?_
    rintro row p ⟨tree, ⟨fields, hfields, rfl⟩, hkey, hvalue⟩
    exact ⟨Entry.nameOf?_of_content hkey, fields, hfields, hvalue⟩
  obtain ⟨row, hrow, -, hfields⟩ := exists_findRev?_of_forall₂
    (p := fun row => (d.nameOf? row.1).any fun raw => raw = key)
    (fun row p hrow => by rw [hrow.1]; rfl) hall (findRev?_entries he)
  refine ⟨row.2, ?_, hfields⟩
  -- the metadata stands in front of all blocks
  rw [Document.lastRow?, hentries, List.findRev?, hrow]
  rfl

/-- **What becomes of fields that are not modelled**: the block that is written of a key has those
of the last block that stood over the key, in their order.  At any depth the scalars in their values
are respelled one by one.  A scalar without a tag keeps its text if it stood in quotes, or is plain
and means a text; every other plain scalar is written in the one spelling of what it means, so its
text is kept only if that was it. -/
theorem others_encode (hl : decode octets = .ok l) (htags : l.IsReadable)
    (hkept : ∀ trees, l.trees? = some trees → isKeptRoot trees = true) (h : l.encode = .ok text) :
    (∀ key ∈ l.keys, ∃ block block',
      (documentOf octets).lastRow? (standsOver key) = some block ∧
      (documentOf (Sink.octets text.toList)).lastRow? (fun raw => raw = key) = some block' ∧
      List.Forall₂ (Catalog.PairRel fun n n' => ∃ c,
          (documentOf octets).said? (maxDepth - 2) n = some c ∧ n'.content? = some c.respelled ∧
            c.respelled.scalars = c.scalars.map Content.respelled)
        (Entry.otherNodes (documentOf octets) block).pairs
        (Entry.otherNodes (documentOf (Sink.octets text.toList)) block').pairs) ∧
    (∀ isPlain s, ∃ isPlain', (Content.scalar none isPlain s).respelled =
      .scalar none isPlain' (if isPlain then (Meaning.ofPlain s).spelling else s)) ∧
    ∀ s x, Meaning.ofPlain s = .text x → (Meaning.ofPlain s).spelling = s := by
  refine ⟨fun key hkey => ?_, Content.respelled_untagged, fun _ _ => Meaning.spelling_ofPlain⟩
  obtain ⟨e, he⟩ := Option.isSome_iff_exists.1 (entry?_isSome_iff.2 hkey)
  obtain ⟨block, hblock, path, n, n', hread⟩ := exists_row_of_decode hl he
  obtain ⟨block', hblock', fields, hfields, hcontent⟩ := exists_row_of_encode htags hkept h he
  refine ⟨block, block', hblock, hblock',
    (Entry.forall₂_otherNodes hread hfields hcontent).imp ?_⟩
  rintro p q ⟨hname, c, hsaid, hwritten⟩
  exact ⟨hname, c, hsaid, hwritten, c.scalars_respelled⟩

/-- A block with a further field of scalars in quotes and without. -/
def spelledText : String :=
  "a@1:\n  version: 1\n  bin:\n    x: \"0x10\"\n    y: [0x10, 1.10, ~, yes]\n"

/-- The texts of the scalars that are said. -/
def saidTexts (c : Content) : List String :=
  c.scalars.map fun
    | .scalar _ _ s => s
    | _ => ""

/-- The text in quotes is kept, and so is the plain one; the numbers and the missing value are not.
-/
theorem others_encode_numbers : ∃ l text block,
    decode (Sink.octets spelledText.toList) = .ok l ∧ l.encode = .ok text ∧
      (documentOf (Sink.octets text.toList)).lastRow? (fun raw => raw = "a@1") = some block ∧
      (Entry.otherNodes (documentOf (Sink.octets text.toList)) block).pairs.map
          (fun p => (p.1, p.2.content?.map saidTexts)) =
        [("bin", some ["x", "0x10", "y", "16", "1.1", "null", "yes"])] := by
  have hread : (decode (Sink.octets spelledText.toList)).toOption.any (fun l =>
      decide (l.keys = ["a@1"]) && decide (∀ p ∈ l.entries, p.2.KeepsTags) &&
        l.trees?.any isKeptRoot) = true := by
    decide +kernel
  have hsource : ((documentOf (Sink.octets spelledText.toList)).lastRow? (standsOver "a@1")).map
      (fun block => (Entry.otherNodes (documentOf (Sink.octets spelledText.toList)) block).pairs.map
        fun p => (p.1, ((documentOf (Sink.octets spelledText.toList)).said? (maxDepth - 2) p.2).map
          fun c => saidTexts c.respelled)) =
        some [("bin", some ["x", "0x10", "y", "16", "1.1", "null", "yes"])] := by
    decide +kernel
  obtain ⟨l, hdecode, hcheck⟩ := (Option.any_eq_true _ _).1 hread
  rw [toOption_eq_some_iff] at hdecode
  simp only [Bool.and_eq_true, decide_eq_true_iff] at hcheck
  obtain ⟨⟨hkeys, htags⟩, hkept⟩ := hcheck
  obtain ⟨trees, htrees, hroot⟩ := (Option.any_eq_true _ _).1 hkept
  obtain ⟨text, htext⟩ : ∃ text, l.encode = .ok text :=
    ⟨_, encode_eq_ok_iff.2 ⟨_, yaml?_of_trees? htrees, rfl⟩⟩
  have hall : ∀ trees, l.trees? = some trees → isKeptRoot trees = true := fun ts hts =>
    Option.some.inj (htrees.symm.trans hts) ▸ hroot
  obtain ⟨hblocks, -⟩ := others_encode hdecode (fun p hp => (htags p hp).isReadable) hall htext
  obtain ⟨block, block', hblock, hblock', hothers⟩ :=
    hblocks "a@1" (hkeys ▸ List.mem_singleton_self _)
  refine ⟨l, text, block', hdecode, htext, hblock', ?_⟩
  rw [hblock, Option.map_some, Option.some.injEq] at hsource
  rw [← hsource, ← List.forall₂_eq_eq_eq, List.forall₂_map_left_iff, List.forall₂_map_right_iff]
  refine List.Forall₂.flip (hothers.imp ?_)
  rintro p q ⟨hname, c, hsaid, hwritten, -⟩
  rw [flip, hsaid, hwritten, hname]
  rfl

end Lockfile

end LockPrune
