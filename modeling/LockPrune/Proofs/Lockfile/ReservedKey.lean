import LockPrune.Proofs.Lockfile.FileReading

/-!
# The key of the metadata

What a file has under the key of the metadata is never a block.  But that key is looked for
before raw keys are cut: a raw key with blanks around it, or with the key among its pieces, is
one of a block, and gives the lockfile a key by that name.  The file that is written for such a
lockfile has a second block under the key of the metadata.

## Main statements

* `Lockfile.exists_mem_trees_iff` — what is written stands under the keys of the lockfile.
* `Lockfile.metadata_mem_keys_iff` — when the key of the metadata is a key of a lockfile that was
  read, and a second block is written under it.
-/

namespace LockPrune.Lockfile

open Yaml

variable {l : Lockfile} {octets : List UInt8}

/-- The blocks of a lockfile that was read stand under other keys than the metadata. -/
theorem key_ne_of_decode (h : decode octets = .ok l) : ∀ b ∈ l.blocks, b.key ≠ Metadata.key := by
  obtain ⟨metadata, blocks, hblocks, rfl⟩ := exists_blocks_of_decode h
  intro b hb
  obtain ⟨row, hrow⟩ := exists_isReadFrom_of_decodeBlocks hblocks hb
  exact hrow.key_ne

/-- A key is written as a text, so it is known by what is written. -/
theorem ofText_injective : Function.Injective Tree.ofText := by
  intro key key' h
  rw [Tree.ofText, Tree.ofText, Tree.scalar.injEq] at h
  exact h.2.2

/-- What is written stands under the keys of the lockfile. -/
theorem exists_mem_trees_iff {trees : List (Tree × Tree)} (h : l.trees? = some trees)
    (key : String) : (∃ entry ∈ trees, entry.1 = Tree.ofText key) ↔ key ∈ l.keys := by
  rw [← List.mem_map, map_fst_of_trees? h, List.mem_map_of_injective ofText_injective]

/-- **The metadata as a package**: a file gives its lockfile the key of the metadata exactly if
one of its blocks stands under a raw key which is not that key but has it as a piece, up to
blanks.  Exactly then a second block is written under the key of the metadata. -/
theorem metadata_mem_keys_iff (octets : List UInt8) (l : Lockfile) (h : decode octets = .ok l) :
    (Metadata.key ∈ l.keys ↔ ∃ b ∈ l.blocks, b.key ≠ Metadata.key ∧
      ∃ piece ∈ Text.splitOnText Block.separator.toList b.key.toList,
        Text.trim piece = Metadata.key.toList) ∧
    ∀ trees, l.trees? = some trees →
      ((∃ entry ∈ trees, entry.1 = Tree.ofText Metadata.key) ↔ Metadata.key ∈ l.keys) := by
  refine ⟨?_, fun trees htrees => exists_mem_trees_iff htrees Metadata.key⟩
  have hkeys : Metadata.key ∈ l.keys ↔ ∃ b ∈ l.blocks, Metadata.key ∈ b.keys := by
    obtain ⟨metadata, blocks, -, rfl⟩ := exists_blocks_of_decode h
    exact mem_keys_ofBlocks_iff
  rw [hkeys]
  refine exists_congr fun b => and_congr_right fun hb => ?_
  have hne : Metadata.key ≠ "" := by decide
  simp only [Block.mem_keys_iff, key_ne_of_decode h b hb, hne, ne_eq, not_false_eq_true, true_and]

/-- A package that stands under the key of the metadata as well. -/
def shadowText : String :=
  "\"__metadata, a@1\":\n  version: 1\n"

/-- The first piece of the raw key becomes a key, and a second block is written under it. -/
theorem metadata_mem_keys_shadow :
    ∃ l trees, decode (Sink.octets shadowText.toList) = .ok l ∧ l.trees? = some trees ∧
      Metadata.key ∈ l.keys ∧ ∃ entry ∈ trees, entry.1 = Tree.ofText Metadata.key := by
  have hread : (decode (Sink.octets shadowText.toList)).toOption.any (fun l =>
      l.trees?.isSome && decide (l.blocks.map Block.key = ["__metadata, a@1"])) = true := by
    decide +kernel
  obtain ⟨l, hdecode, hcheck⟩ := (Option.any_eq_true _ _).1 hread
  rw [toOption_eq_some_iff] at hdecode
  rw [Bool.and_eq_true, decide_eq_true_iff, Option.isSome_iff_exists] at hcheck
  obtain ⟨⟨trees, htrees⟩, hblocks⟩ := hcheck
  obtain ⟨b, hb, hkey⟩ : ∃ b ∈ l.blocks, b.key = "__metadata, a@1" :=
    List.mem_map.1 (hblocks ▸ List.mem_singleton_self _)
  obtain ⟨hmem, hwritten⟩ := metadata_mem_keys_iff _ l hdecode
  have hpiece : ∃ piece ∈ Text.splitOnText Block.separator.toList "__metadata, a@1".toList,
      Text.trim piece = Metadata.key.toList :=
    ⟨Metadata.key.toList, by decide +kernel, by decide +kernel⟩
  have hshadow : Metadata.key ∈ l.keys :=
    hmem.2 ⟨b, hb, by rw [hkey]; decide, by rwa [hkey]⟩
  exact ⟨l, trees, hdecode, htrees, hshadow, (hwritten trees htrees).2 hshadow⟩

end LockPrune.Lockfile
