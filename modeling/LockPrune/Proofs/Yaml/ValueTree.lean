import LockPrune.Proofs.Yaml.Numerals
import LockPrune.Proofs.Yaml.Spelling
import LockPrune.Yaml.Value.Write

/-!
# The trees of values

Whatever is written of a value reads back, but for the names of tags, of which some do not.

## Main definitions

* `Value.IsReadable` — all tags of a value read back.

## Main statements

* `Tree.isSound_ofText` — the text of a scalar reads back.
* `Value.isSound_of_treeWith?` — the tree of a value reads back.
-/

namespace LockPrune.Yaml

open Scalar

namespace Tree

/-! ## Trees of texts -/

theorem hasSoundTag_none : HasSoundTag none := by
  simp [HasSoundTag]

theorem one_line_of_wanted {s : String} (h : wanted s = .plain ∨ wanted s = .single) :
    '\n' ∉ s.toList := by
  intro hmem
  have hliteral : wanted s = .literal := by
    rw [wanted, if_pos (by simpa using hmem)]
  simp [hliteral] at h

/-- The empty text would read as the missing value. -/
theorem ne_nil_of_wanted {s : String} (h : wanted s = .plain) : s.toList ≠ [] := by
  intro hnil
  obtain rfl : s = "" := String.toList_eq_nil_iff.1 hnil
  revert h
  decide

theorem isSoundScalar_wanted {tag : Option String} (htag : HasSoundTag tag) (s : String) :
    IsSoundScalar tag (wanted s) s :=
  ⟨htag, one_line_of_wanted, ne_nil_of_wanted⟩

/-- The text of a scalar reads back. -/
theorem isSound_ofText (s : String) : (Tree.ofText s).IsSound := by
  rw [Tree.ofText, IsSound]
  exact isSoundScalar_wanted hasSoundTag_none s

theorem isSoundScalar_numeral {tag : Option String} (htag : HasSoundTag tag) (n : Number) :
    IsSoundScalar tag .plain n.text := by
  refine ⟨htag, fun _ hmem => ?_, fun _ => n.isNumeral_text.ne_nil⟩
  have hbreak := (isNumeralChar_cases (n.isNumeral_text.isNumeralChar _ hmem)).2.1
  exact absurd hbreak (by decide)

/-- Every entry reads back when its key and its value do. -/
theorem entriesSound_iff {entries : List (Tree × Tree)} :
    EntriesSound entries ↔ ∀ entry ∈ entries, entry.1.IsSound ∧ entry.2.IsSound := by
  induction entries with
  | nil => simp [EntriesSound]
  | cons entry entries ih => simp [EntriesSound, ih, and_assoc]

theorem entriesSound_append {xs ys : List (Tree × Tree)} :
    EntriesSound (xs ++ ys) ↔ EntriesSound xs ∧ EntriesSound ys := by
  rw [entriesSound_iff, entriesSound_iff, entriesSound_iff]
  exact List.forall_mem_append

end Tree

namespace Value

/-! ## Trees of values -/

mutual

/-- All tags of a value read back. -/
def IsReadable : Value → Prop
  | .sequence items => ItemsReadable items
  | .mapping entries => EntriesReadable entries
  | .tagged name v => IsReadableTag (tagText name) ∧ v.IsReadable
  | _ => True
termination_by structural v => v

/-- All tags of the items of a sequence read back. -/
def ItemsReadable : List Value → Prop
  | [] => True
  | v :: vs => v.IsReadable ∧ ItemsReadable vs
termination_by structural vs => vs

/-- All tags of the entries of a mapping read back. -/
def EntriesReadable : List (Value × Value) → Prop
  | [] => True
  | (k, v) :: rest => k.IsReadable ∧ v.IsReadable ∧ EntriesReadable rest
termination_by structural es => es

end

mutual

/-- The tree of a value reads back when its tags do. -/
theorem isSound_of_treeWith? (v : Value) (hv : v.IsReadable) {tag : Option String}
    (htag : Tree.HasSoundTag tag) {t : Tree} (h : v.treeWith? tag = some t) : t.IsSound := by
  match v with
  | .null =>
    obtain rfl : Tree.scalar tag .plain "null" = t := by simpa [treeWith?] using h
    exact ⟨htag, fun _ => by decide, fun _ => by decide⟩
  | .bool b =>
    obtain rfl : Tree.scalar tag .plain (if b then "true" else "false") = t := by
      simpa [treeWith?] using h
    cases b <;> exact ⟨htag, fun _ => by decide, fun _ => by decide⟩
  | .number n =>
    obtain rfl : Tree.scalar tag .plain n.text = t := by simpa [treeWith?] using h
    exact Tree.isSoundScalar_numeral htag n
  | .string s =>
    obtain rfl : Tree.scalar tag (wanted s) s = t := by simpa [treeWith?] using h
    exact Tree.isSoundScalar_wanted htag s
  | .sequence items =>
    rw [IsReadable] at hv
    rw [treeWith?, Option.map_eq_some_iff] at h
    obtain ⟨ts, hts, rfl⟩ := h
    exact ⟨htag, itemsSound_of_itemTrees? items hv hts⟩
  | .mapping entries =>
    rw [IsReadable] at hv
    rw [treeWith?] at h
    split at h
    · cases h
    · rw [Option.map_eq_some_iff] at h
      obtain ⟨ts, hts, rfl⟩ := h
      exact ⟨htag, entriesSound_of_entryTrees? entries hv hts⟩
  | .tagged name v =>
    rw [IsReadable] at hv
    rw [treeWith?] at h
    split at h
    · cases h
    · refine isSound_of_treeWith? v hv.2 ?_ h
      intro s hs
      cases hs
      exact hv.1
termination_by structural v

theorem itemsSound_of_itemTrees? (items : List Value) (hitems : ItemsReadable items)
    {ts : List Tree} (h : itemTrees? items = some ts) : Tree.ItemsSound ts := by
  match items with
  | [] =>
    obtain rfl : [] = ts := by simpa [itemTrees?] using h
    trivial
  | v :: vs =>
    rw [ItemsReadable] at hitems
    rw [itemTrees?] at h
    split at h
    · rename_i t ts' ht hts
      obtain rfl := Option.some.inj h
      exact ⟨isSound_of_treeWith? v hitems.1 Tree.hasSoundTag_none ht,
        itemsSound_of_itemTrees? vs hitems.2 hts⟩
    · cases h
termination_by structural items

theorem entriesSound_of_entryTrees? (entries : List (Value × Value))
    (hentries : EntriesReadable entries) {ts : List (Tree × Tree)}
    (h : entryTrees? entries = some ts) : Tree.EntriesSound ts := by
  match entries with
  | [] =>
    obtain rfl : [] = ts := by simpa [entryTrees?] using h
    trivial
  | (k, v) :: rest =>
    rw [EntriesReadable] at hentries
    rw [entryTrees?] at h
    split at h
    · rename_i kt vt ts' hkt hvt hts
      obtain rfl := Option.some.inj h
      exact ⟨isSound_of_treeWith? k hentries.1 Tree.hasSoundTag_none hkt,
        isSound_of_treeWith? v hentries.2.1 Tree.hasSoundTag_none hvt,
        entriesSound_of_entryTrees? rest hentries.2.2 hts⟩
    · cases h
termination_by structural entries

end

end Value

end LockPrune.Yaml
