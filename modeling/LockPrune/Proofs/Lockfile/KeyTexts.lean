import LockPrune.Proofs.Lockfile.Assignments
import LockPrune.Proofs.Text.Pieces

/-!
# The texts of keys

The raw key of a block is cut at its commas, and what is left of a piece without the blanks at
its ends is a key, unless nothing is left.  So a key has a form of its own, and it reads as the
one key that it is.

## Main definitions

* `IsCanonical` — the form of a key.
* `Lockfile.IsSingleKey` — a text that reads as one key.

## Main statements

* `Block.keys_eq`, `Block.mem_keys_iff` — the keys of a block.
* `Lockfile.isCanonical_of_mem_keys_ofBlocks` — the keys of a lockfile have the form of a key.
-/

namespace LockPrune

variable {key : String}

/-- The form of a key: it is not empty, has no blanks at its ends, and is not several keys. -/
structure IsCanonical (key : String) : Prop where
  ne_empty : key ≠ ""
  front : ∀ c, key.toList.head? = some c → Text.isBlank c = false
  back : ∀ c, key.toList.getLast? = some c → Text.isBlank c = false
  single : ¬ Block.separator.toList <:+: key.toList

/-- The keys of a block are the pieces of its raw key, trimmed, but for those that are empty
then. -/
theorem Block.keys_eq (b : Block) :
    b.keys = (((Text.splitOnText Block.separator.toList b.key.toList).map Text.trim).filter
      (· ≠ [])).map String.ofList := by
  rw [Block.keys]
  generalize (Text.splitOnText separator.toList b.key.toList).map Text.trim = parts
  rw [← List.filterMap_eq_map, List.filterMap_filter]
  refine List.filterMap_congr fun part _ => ?_
  cases part <;> simp

/-- The keys of a block are what is left of the pieces of its raw key. -/
theorem Block.mem_keys_iff {b : Block} : key ∈ b.keys ↔ key ≠ "" ∧
    ∃ piece ∈ Text.splitOnText Block.separator.toList b.key.toList,
      Text.trim piece = key.toList := by
  have hne : key ≠ "" ↔ key.toList ≠ [] := not_congr String.toList_eq_nil_iff.symm
  rw [Block.keys_eq, List.mem_map, hne]
  simp only [List.mem_filter, List.mem_map, decide_eq_true_eq]
  constructor
  · rintro ⟨_, ⟨⟨piece, hpiece, rfl⟩, hleft⟩, rfl⟩
    rw [String.toList_ofList]
    exact ⟨hleft, piece, hpiece, rfl⟩
  · rintro ⟨hleft, piece, hpiece, htrim⟩
    exact ⟨key.toList, ⟨⟨piece, hpiece, htrim⟩, hleft⟩, String.ofList_toList⟩

/-- What is read as a key has the form of a key. -/
theorem isCanonical_of_mem_keys {b : Block} (h : key ∈ b.keys) : IsCanonical key := by
  obtain ⟨hne, piece, hpiece, htrim⟩ := Block.mem_keys_iff.1 h
  refine ⟨hne, fun c hc => ?_, fun c hc => ?_, fun hin => ?_⟩
  · exact Text.isBlank_of_head?_trim (htrim ▸ hc)
  · exact Text.isBlank_of_getLast?_trim (htrim ▸ hc)
  · exact Text.not_isInfix_of_mem_splitOnText (by decide) hpiece
      ((htrim ▸ hin).trans (Text.trim_isInfix piece))

namespace Lockfile

/-- A key that reads as one key. -/
def IsSingleKey (key : String) : Prop :=
  ∀ e, (Block.mk key e).keys = [key]

/-- What has the form of a key reads as one key. -/
theorem isSingleKey_of_isCanonical (h : IsCanonical key) : IsSingleKey key := by
  intro e
  rw [Block.keys, Text.splitOnText_of_not_isInfix h.single, List.map_singleton,
    Text.trim_eq_self h.front h.back, List.filterMap_cons, if_neg (by simpa using h.ne_empty),
    List.filterMap_nil, String.ofList_toList]

/-- The keys of a lockfile that was made from blocks have the form of a key. -/
theorem isCanonical_of_mem_keys_ofBlocks {metadata : Metadata} {blocks : List Block}
    (h : key ∈ (ofBlocks metadata blocks).keys) : IsCanonical key := by
  obtain ⟨b, -, hkey⟩ := mem_keys_ofBlocks_iff.1 h
  exact isCanonical_of_mem_keys hkey

end Lockfile

end LockPrune
