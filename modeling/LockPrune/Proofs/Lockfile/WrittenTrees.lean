import LockPrune.Lockfile.Encode
import LockPrune.Proofs.Lockfile.Keys
import LockPrune.Proofs.Ordered.Related
import LockPrune.Proofs.Yaml.ValueTree

/-!
# The trees of a lockfile

A lockfile is written as a mapping of its keys to the fields of their entries.  All of this
reads back, but for the names of tags in the fields that are not modelled.

## Main definitions

* `Entry.IsReadable`, `Lockfile.IsReadable` — all tags read back.

## Main statements

* `Entry.entriesSound_of_trees?`, `Lockfile.entriesSound_of_trees?` — what is written of an
  entry, and of a lockfile, reads back.
-/

namespace LockPrune

open Yaml Yaml.Tree

/-! ## Entries -/

namespace Entry

/-- All tags in an entry read back. -/
def IsReadable (e : Entry) : Prop :=
  ∀ p ∈ e.extra.pairs, p.2.IsReadable

theorem entriesSound_textField (f : Field) (s : String) : EntriesSound (textField f s) := by
  rw [textField]
  split
  · trivial
  · exact ⟨isSound_ofText _, isSound_ofText _, trivial⟩

theorem entriesSound_rangesField (f : Field) (r : Ranges) : EntriesSound (rangesField f r) := by
  rw [rangesField]
  split
  · trivial
  · refine ⟨isSound_ofText _, ⟨hasSoundTag_none, entriesSound_iff.2 ?_⟩, trivial⟩
    simp only [List.mem_map]
    rintro entry ⟨p, -, rfl⟩
    exact ⟨isSound_ofText _, isSound_ofText _⟩

theorem entriesSound_extraTrees {c : Catalog Value} (hc : ∀ p ∈ c.pairs, p.2.IsReadable)
    {ts : List (Tree × Tree)} (h : extraTrees? c = some ts) : EntriesSound ts := by
  rw [extraTrees?, mapM_eq_some_iff] at h
  rw [entriesSound_iff]
  intro entry hentry
  obtain ⟨p, hp, htree⟩ := exists_mem_left h hentry
  obtain ⟨t, ht, rfl⟩ := Option.map_eq_some_iff.1 htree
  exact ⟨isSound_ofText _, Value.isSound_of_treeWith? p.2 (hc p hp) hasSoundTag_none ht⟩

/-- What is written of an entry reads back. -/
theorem entriesSound_of_trees? {e : Entry} (he : e.IsReadable) {ts : List (Tree × Tree)}
    (h : e.trees? = some ts) : EntriesSound ts := by
  obtain ⟨extra, hextra, rfl⟩ := Option.map_eq_some_iff.1 h
  have hsound := entriesSound_extraTrees he hextra
  simp only [List.cons_append, EntriesSound, entriesSound_append, entriesSound_textField,
    entriesSound_rangesField, isSound_ofText, hsound, and_self]

end Entry

/-! ## Lockfiles -/

namespace Lockfile

/-- All tags in the entries of a lockfile read back. -/
def IsReadable (l : Lockfile) : Prop :=
  ∀ p ∈ l.entries, p.2.IsReadable

/-- The entries of a lockfile and their trees, one by one. -/
theorem forall₂_of_trees? {l : Lockfile} {trees : List (Tree × Tree)} (h : l.trees? = some trees) :
    List.Forall₂ (fun p tree => ∃ fields, p.2.trees? = some fields ∧
      tree = (Tree.ofText p.1, Tree.mapping none fields)) l.entries trees := by
  rw [trees?, mapM_eq_some_iff] at h
  refine h.imp fun p tree htree => ?_
  obtain ⟨fields, hfields, rfl⟩ := Option.map_eq_some_iff.1 htree
  exact ⟨fields, hfields, rfl⟩

/-- The keys of the trees are those of the lockfile, in order. -/
theorem map_fst_of_trees? {l : Lockfile} {trees : List (Tree × Tree)} (h : l.trees? = some trees) :
    trees.map Prod.fst = l.keys.map Tree.ofText := by
  have hentries := forall₂_of_trees? h
  rw [keys_eq_map_entries]
  clear h
  generalize l.entries = entries at hentries
  induction hentries with
  | nil => rfl
  | cons hentry _ ih =>
    obtain ⟨fields, -, rfl⟩ := hentry
    simp only [List.map_cons, ih]

/-- What is written of a lockfile reads back. -/
theorem entriesSound_of_trees? {l : Lockfile} (hl : l.IsReadable) {trees : List (Tree × Tree)}
    (h : l.trees? = some trees) : EntriesSound trees := by
  rw [entriesSound_iff]
  intro tree htree
  obtain ⟨p, hp, fields, hfields, rfl⟩ := exists_mem_left (forall₂_of_trees? h) htree
  exact ⟨isSound_ofText _, hasSoundTag_none, Entry.entriesSound_of_trees? (hl p hp) hfields⟩

end Lockfile

end LockPrune
