import LockPrune.Proofs.Lockfile.EntryParts
import LockPrune.Proofs.Lockfile.ReservedKey

/-!
# Files written of what was read

A lockfile that was read can be written unless a mapping without a tag has a single entry whose key
cannot be told from the mapping.  If its tags read back and nothing misleads the layout, the file
that is written gives the same keys with the same entries, and from these the same file, unless a
key is the one of the metadata or a line looks like a mark of a merge conflict.

## Main definitions

* `Yaml.Value.bareMappings` — the mappings in a value that stand without a tag.
* `Yaml.Value.TellsApart` — the keys of mappings can be told from them.

## Main statements

* `Yaml.Value.isSome_tree?_iff` — the values that can be written.
* `Lockfile.exists_encode_iff` — the lockfiles that can be written.
* `Lockfile.encode_of_decode` — when what is written of a lockfile is read as it was.
-/

namespace LockPrune

open Yaml Yaml.Tree

/-! ## Values that can be written -/

namespace Yaml.Value

mutual

/-- The entries of all mappings in a value that stand without a tag.  The value itself may stand
behind one. -/
def bareMappings (bare : Bool) : Value → List (List (Value × Value))
  | .sequence items => itemBareMappings items
  | .mapping entries =>
    if bare then entries :: entryBareMappings entries else entryBareMappings entries
  | .tagged _ v => v.bareMappings false
  | .null | .bool _ | .number _ | .string _ => []
termination_by structural v => v

/-- Those in the items of a sequence. -/
def itemBareMappings : List Value → List (List (Value × Value))
  | [] => []
  | v :: vs => v.bareMappings true ++ itemBareMappings vs
termination_by structural vs => vs

/-- Those in the keys and the values of a mapping. -/
def entryBareMappings : List (Value × Value) → List (List (Value × Value))
  | [] => []
  | (k, v) :: rest => k.bareMappings true ++ (v.bareMappings true ++ entryBareMappings rest)
termination_by structural es => es

end

/-- No mapping has a single entry whose key is itself tagged or a mapping of a single entry. -/
def TellsApart (mappings : List (List (Value × Value))) : Prop :=
  ∀ k v, [(k, v)] ∈ mappings → k.isLone = false

theorem tellsApart_nil : TellsApart [] :=
  fun _ _ h => absurd h List.not_mem_nil

theorem tellsApart_append {xs ys : List (List (Value × Value))} :
    TellsApart (xs ++ ys) ↔ TellsApart xs ∧ TellsApart ys := by
  simp only [TellsApart, List.mem_append, or_imp, forall_and]

theorem tellsApart_cons {entries : List (Value × Value)} {xs : List (List (Value × Value))} :
    TellsApart (entries :: xs) ↔ isBlocked none entries = false ∧ TellsApart xs := by
  have hfirst :
      (∀ k v, [(k, v)] = entries → k.isLone = false) ↔ isBlocked none entries = false := by
    match entries with
    | [] => simp [isBlocked]
    | [(k, v)] => simp [isBlocked]
    | _ :: _ :: _ => simp [isBlocked]
  simp only [TellsApart, List.mem_cons, or_imp, forall_and, hfirst]

theorem isBlocked_some (name : String) (entries : List (Value × Value)) :
    isBlocked (some name) entries = false := by
  unfold isBlocked
  split <;> rfl

theorem isSome_itemTrees?_iff {items : List Value} (h : ∀ v ∈ items,
      ((v.treeWith? none).isSome ↔ TellsApart (v.bareMappings true))) :
    (itemTrees? items).isSome ↔ TellsApart (itemBareMappings items) := by
  induction items with
  | nil => exact iff_of_true rfl tellsApart_nil
  | cons v vs ih =>
    rw [List.forall_mem_cons] at h
    rw [itemTrees?, itemBareMappings, tellsApart_append, ← h.1, ← ih h.2]
    cases v.treeWith? none <;> cases itemTrees? vs <;> simp

theorem isSome_entryTrees?_iff {entries : List (Value × Value)}
    (hkey : ∀ e ∈ entries, ((e.1.treeWith? none).isSome ↔ TellsApart (e.1.bareMappings true)))
    (hvalue : ∀ e ∈ entries, ((e.2.treeWith? none).isSome ↔ TellsApart (e.2.bareMappings true))) :
    (entryTrees? entries).isSome ↔ TellsApart (entryBareMappings entries) := by
  induction entries with
  | nil => exact iff_of_true rfl tellsApart_nil
  | cons e es ih =>
    obtain ⟨k, v⟩ := e
    rw [List.forall_mem_cons] at hkey hvalue
    rw [entryTrees?, entryBareMappings, tellsApart_append, tellsApart_append, ← hkey.1, ← hvalue.1,
      ← ih hkey.2 hvalue.2]
    cases k.treeWith? none <;> cases v.treeWith? none <;> cases entryTrees? es <;> simp

theorem isSome_treeWith?_iff {v : Value} (hone : v.SinglyTagged) {tag : Option String}
    (htag : tag = none ∨ v.isTagged = false) :
    (v.treeWith? tag).isSome ↔ TellsApart (v.bareMappings tag.isNone) := by
  induction hone generalizing tag with
  | null => exact iff_of_true rfl tellsApart_nil
  | bool => exact iff_of_true rfl tellsApart_nil
  | number => exact iff_of_true rfl tellsApart_nil
  | string => exact iff_of_true rfl tellsApart_nil
  | sequence _ ih =>
    rw [treeWith?, Option.isSome_map, bareMappings]
    exact isSome_itemTrees?_iff fun v hv => ih v hv (.inl rfl)
  | @mapping entries _ _ ihkey ihvalue =>
    have hentries := isSome_entryTrees?_iff (fun e he => ihkey e he (.inl rfl))
      fun e he => ihvalue e he (.inl rfl)
    cases tag with
    | none =>
      rw [treeWith?, bareMappings, Option.isNone_none, if_pos rfl, tellsApart_cons, ← hentries]
      cases isBlocked none entries <;> simp
    | some name =>
      rw [treeWith?, bareMappings, Option.isNone_some, if_neg Bool.false_ne_true, isBlocked_some,
        if_neg Bool.false_ne_true, Option.isSome_map, hentries]
  | @tagged name v _ hbare ih =>
    obtain rfl : tag = none := htag.resolve_right (by simp [isTagged])
    rw [treeWith?, bareMappings, Option.isSome_none, if_neg Bool.false_ne_true]
    exact ih (.inr hbare)

/-- The values that can be written, of those that can be read. -/
theorem isSome_tree?_iff {v : Value} (hone : v.SinglyTagged) :
    v.tree?.isSome ↔ TellsApart (v.bareMappings true) :=
  isSome_treeWith?_iff hone (.inl rfl)

end Yaml.Value

namespace Lockfile

variable {octets : List UInt8} {l l' : Lockfile} {text : String}

/-! ## Lockfiles that can be written -/

theorem isSome_trees?_iff : l.trees?.isSome ↔
    ∀ p ∈ l.entries, ∀ q ∈ p.2.extra.pairs, q.2.tree?.isSome := by
  simp only [trees?, Entry.trees?, Entry.extraTrees?, isSome_mapM_iff, Option.isSome_map]

theorem exists_encode_iff_isSome : (∃ text, l.encode = .ok text) ↔ l.trees?.isSome := by
  simp only [encode_eq_ok_iff, exists_comm (α := String), exists_and_left, exists_eq, and_true]
  rw [← Option.isSome_iff_exists, yaml?, Option.isSome_map]

/-- No tag in what was read stands right behind another. -/
theorem singlyTagged_of_decode (h : decode octets = .ok l) :
    ∀ p ∈ l.entries, ∀ q ∈ p.2.extra.pairs, q.2.SinglyTagged := by
  obtain ⟨metadata, blocks, hblocks, rfl⟩ := exists_blocks_of_decode h
  intro p hp
  obtain ⟨q, -, rfl⟩ := List.mem_map.1 hp
  obtain ⟨row, hrow⟩ := exists_isReadFrom_of_decodeBlocks hblocks (List.getElem_mem q.2.isLt)
  obtain ⟨path, n, n', hread⟩ := hrow.entry
  exact (Entry.hasNodes_of_read hread).2.singlyTagged

/-- A lockfile that was read can be written exactly if the keys of the mappings in it can be told
from them. -/
theorem exists_encode_iff (h : decode octets = .ok l) : (∃ text, l.encode = .ok text) ↔
    ∀ p ∈ l.entries, ∀ q ∈ p.2.extra.pairs, Value.TellsApart (q.2.bareMappings true) := by
  rw [exists_encode_iff_isSome, isSome_trees?_iff]
  exact forall₂_congr fun p hp => forall₂_congr fun q hq =>
    Value.isSome_tree?_iff (singlyTagged_of_decode h p hp q hq)

/-! ## Reading what was written -/

theorem conflictLine?_of_decode (h : decode octets = .ok l) : conflictLine? octets = none := by
  cases hmark : conflictLine? octets with
  | none => rfl
  | some n =>
    rw [decode, decodeBlocks, hmark] at h
    cases h

/-- The rows of a written file stand under the key of the metadata and under those of the lockfile.
-/
theorem key_of_row (htags : l.IsReadable) {trees : List (Tree × Tree)}
    (htrees : l.trees? = some trees)
    (hkept : isKeptRoot trees = true) (h : l.encode = .ok text) {row : Node × Node}
    (hrow : row ∈ (documentOf (Sink.octets text.toList)).entriesOf
      (documentOf (Sink.octets text.toList)).root) {raw : String}
    (hname : (documentOf (Sink.octets text.toList)).nameOf? row.1 = some raw) :
    raw = Metadata.key ∨ raw ∈ l.keys := by
  obtain ⟨tree, htree, hkey, -⟩ := exists_mem_left
    (Tree.forall₂_of_entryContents? (entryContents?_rows_of_encode htags htrees hkept h)) hrow
  have hof : ∀ key, tree.1 = Tree.ofText key → raw = key := by
    intro key hkey'
    rw [hkey'] at hkey
    exact Option.some.inj (hname.symm.trans (Entry.nameOf?_of_content hkey))
  rcases List.mem_cons.1 htree with rfl | htree
  · exact .inl (hof _ rfl)
  · have hmem : tree.1 ∈ l.keys.map Tree.ofText :=
      map_fst_of_trees? htrees ▸ List.mem_map_of_mem htree
    obtain ⟨key, hkey', hofText⟩ := List.mem_map.1 hmem
    exact .inr (hof key hofText.symm ▸ hkey')

/-- What is read of a written file does not have the key of the metadata. -/
theorem metadata_not_mem_keys (hkeys : ∀ key ∈ l.keys, IsSingleKey key) (htags : l.IsReadable)
    (hkept : ∀ trees, l.trees? = some trees → isKeptRoot trees = true) (h : l.encode = .ok text)
    (hback : decode (Sink.octets text.toList) = .ok l') : Metadata.key ∉ l'.keys := by
  obtain ⟨trees, htrees⟩ := exists_trees h
  obtain ⟨metadata, blocks, hblocks, rfl⟩ := exists_blocks_of_decode hback
  rw [mem_keys_ofBlocks_iff]
  rintro ⟨b, hb, hmem⟩
  obtain ⟨row, hrow, hread⟩ :=
    exists_mem_left (forall₂_of_decodeBlocks hblocks (List.ne_nil_of_mem hb)) hb
  have hkey := (key_of_row htags htrees (hkept trees htrees) h (List.mem_of_mem_filter hrow)
    hread.name).resolve_left hread.key_ne
  have hown : b.keys = [b.key] := hkeys b.key hkey b.entry
  rw [hown, List.mem_singleton] at hmem
  exact hread.key_ne hmem.symm

/-- **Reading what was written**: a lockfile that was read can be written exactly if the keys of the
mappings in it can be told from them.  If its tags read back and nothing misleads the layout, then
reading the file that is written gives the same keys in the same order, with the same entries, and
from these the same file, exactly if no key is the one of the metadata and no line looks like a mark
of a merge conflict. -/
theorem encode_of_decode (hl : decode octets = .ok l) :
    ((∃ text, l.encode = .ok text) ↔
      ∀ p ∈ l.entries, ∀ q ∈ p.2.extra.pairs, Value.TellsApart (q.2.bareMappings true)) ∧
    ((∀ p ∈ l.entries, p.2.KeepsTags) →
      (∀ trees, l.trees? = some trees → isKeptRoot trees = true) →
      ∀ text, l.encode = .ok text →
        ((∃ l', decode (Sink.octets text.toList) = .ok l' ∧ l'.keys = l.keys ∧
            l'.entries = l.entries ∧ l'.encode = .ok text) ↔
          Metadata.key ∉ l.keys ∧ conflictLine? (Sink.octets text.toList) = none)) := by
  refine ⟨exists_encode_iff hl, fun htags hkept text htext => ⟨?_, ?_⟩⟩
  · rintro ⟨l', hback, hkeys, -, -⟩
    have hreserved := metadata_not_mem_keys (fun key => isSingleKey_of_mem_keys_decode hl)
      (fun p hp => (htags p hp).isReadable) hkept htext hback
    exact ⟨hkeys ▸ hreserved, conflictLine?_of_decode hback⟩
  · rintro ⟨hreserved, hunmarked⟩
    have hfaithful : l.IsFaithful := ⟨htags, hkept, hreserved, fun text' htext' =>
      Except.ok.inj (htext.symm.trans htext') ▸ hunmarked⟩
    have hentries : l.apart.entries = l.entries :=
      entries_apart fun key => isSingleKey_of_mem_keys_decode hl
    exact ⟨l.apart, decode_encode (isHeld_of_decode hl) hfaithful htext, keys_congr hentries,
      hentries, (encode_congr hentries).trans htext⟩

/-- A block of two keys, with a tag in a mapping of a single entry. -/
def taggedText : String :=
  "\"b@1, a@1\":\n  version: 2.10\n  bin:\n    x: !path \"bin/x\"\n"

/-- The two keys get a block each, with the same entry. -/
theorem encode_of_decode_tagged : ∃ l text l', decode (Sink.octets taggedText.toList) = .ok l ∧
    l.keys = ["b@1", "a@1"] ∧ l.encode = .ok text ∧
    (∀ p ∈ l.entries, ∀ q ∈ p.2.extra.pairs, Value.TellsApart (q.2.bareMappings true)) ∧
    l.IsFaithful ∧ decode (Sink.octets text.toList) = .ok l' ∧ l'.keys = l.keys ∧
    l'.entries = l.entries ∧ l'.encode = .ok text := by
  have hread : (decode (Sink.octets taggedText.toList)).toOption.any (fun l =>
      decide (l.keys = ["b@1", "a@1"]) && decide l.IsFaithful && l.trees?.isSome) = true := by
    decide +kernel
  obtain ⟨l, hdecode, hcheck⟩ := (Option.any_eq_true _ _).1 hread
  rw [toOption_eq_some_iff] at hdecode
  simp only [Bool.and_eq_true, decide_eq_true_iff] at hcheck
  obtain ⟨⟨hkeys, hfaithful⟩, htrees⟩ := hcheck
  obtain ⟨text, htext⟩ := exists_encode_iff_isSome.2 htrees
  obtain ⟨hwritable, hback⟩ := encode_of_decode hdecode
  obtain ⟨l', hback', hsame⟩ := (hback hfaithful.keepsTags hfaithful.kept text htext).2
    ⟨hfaithful.reserved, hfaithful.unmarked text htext⟩
  exact ⟨l, text, l', hdecode, hkeys, htext, hwritable.1 ⟨text, htext⟩, hfaithful, hback', hsame⟩

end Lockfile

end LockPrune
