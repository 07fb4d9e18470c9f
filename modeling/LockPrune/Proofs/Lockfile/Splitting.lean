import LockPrune.Proofs.Lockfile.KeyTexts

/-!
# Blocks of one key each

A block under several keys may be given as several blocks, one under each key, with the entry
repeated.  The keys of the lockfile and their entries stay as they are; lost is only that the keys
were aliases, because two keys are aliases when the last block that has the one is the last block
that has the other.

## Main definitions

* `Block.split` — the blocks, each under one key, that a block stands for.
* `Lockfile.ownBlocks` — the blocks of a lockfile in which every key has its own.

## Main statements

* `ofBlocks_split` — the keys of a lockfile and their entries, and what is left when its blocks are
  split.
* `aliases_ofBlocks` — which keys are aliases.
-/

namespace LockPrune

variable {key : String}

/-- The blocks, each under one key, that a block stands for. -/
def Block.split (b : Block) : List Block :=
  b.keys.map fun key => ⟨key, b.entry⟩

namespace Lockfile

variable {l : Lockfile} {blocks : List Block}

/-- A block under one key is one piece. -/
theorem pieces_of_isSingleKey {entries : List (String × Entry)}
    (h : ∀ p ∈ entries, IsSingleKey p.1) :
    pieces (entries.map fun p => ⟨p.1, p.2⟩) = entries := by
  rw [pieces, List.flatMap_map]
  have hpiece : ∀ p ∈ entries,
      ((Block.mk p.1 p.2).keys.map fun key => (key, p.2)) = [p] := by
    intro p hp
    rw [h p hp, List.map_singleton]
  rw [List.flatMap_congr hpiece, List.flatMap_singleton']

/-- Splitting blocks leaves their pieces as they are. -/
theorem pieces_flatMap_split (blocks : List Block) :
    pieces (blocks.flatMap Block.split) = pieces blocks := by
  have hsplit : blocks.flatMap Block.split = (pieces blocks).map fun p => ⟨p.1, p.2⟩ := by
    simp only [pieces, List.map_flatMap, List.map_map]
    rfl
  rw [hsplit, pieces_of_isSingleKey]
  intro p hp
  obtain ⟨b, -, hb⟩ := List.mem_flatMap.1 hp
  obtain ⟨key, hkey, rfl⟩ := List.mem_map.1 hb
  exact isSingleKey_of_isCanonical (isCanonical_of_mem_keys hkey)

/-! ## A block for every key -/

/-- The blocks of a lockfile in which every key has its own. -/
def ownBlocks (l : Lockfile) : List Block :=
  l.entries.map fun p => ⟨p.1, p.2⟩

/-- Every key has the entry that it had. -/
theorem entries_ofBlocks_ownBlocks (metadata : Metadata) (h : ∀ key ∈ l.keys, IsSingleKey key) :
    (ofBlocks metadata l.ownBlocks).entries = l.entries := by
  have hsingle : ∀ p ∈ l.entries, IsSingleKey p.1 := by
    intro p hp
    exact h p.1 (keys_eq_map_entries l ▸ List.mem_map_of_mem hp)
  rw [entries_ofBlocks, ownBlocks, pieces_of_isSingleKey hsingle, Catalog.pairs_ofList]
  exact keys_eq_map_entries l ▸ l.directory.distinct

/-! ## What becomes of blocks -/

/-- **The lockfile of a list of blocks.**  The keys of a block are the parts of its raw key between
the commas, trimmed, without the empty ones.  The keys of the lockfile are those of the blocks, in
the order in which they first come, and each has the entry of the last block that has it.  The keys
and the entries are the same when every block is split first, and when the lockfile is made again
from what it lists. -/
theorem ofBlocks_split (metadata : Metadata) (blocks : List Block) :
    (∀ b ∈ blocks, ∃ parts : List (List Char),
      Block.separator.toList.intercalate parts = b.key.toList ∧
        (∀ part ∈ parts, ¬ Block.separator.toList <:+: part) ∧
        b.keys = ((parts.map Text.trim).filter (· ≠ [])).map String.ofList) ∧
    (ofBlocks metadata blocks).keys = (blocks.flatMap Block.keys).eraseDups ∧
    (∀ key, entry? (ofBlocks metadata blocks) key =
      (lastBlock? blocks key).map fun i => (blocks.get i).entry) ∧
    (ofBlocks metadata (blocks.flatMap Block.split)).entries =
      (ofBlocks metadata blocks).entries ∧
    (ofBlocks metadata (ofBlocks metadata blocks).ownBlocks).entries =
      (ofBlocks metadata blocks).entries := by
  refine ⟨fun b _ => ?_, keys_ofBlocks metadata blocks, entry?_ofBlocks metadata blocks, ?_, ?_⟩
  · exact ⟨_, Text.intercalate_splitOnText _ _,
      fun part hpart => Text.not_isInfix_of_mem_splitOnText (by decide) hpart, b.keys_eq⟩
  · rw [entries_ofBlocks, pieces_flatMap_split, entries_ofBlocks]
  · exact entries_ofBlocks_ownBlocks metadata fun key hkey =>
      isSingleKey_of_isCanonical (isCanonical_of_mem_keys_ofBlocks hkey)

/-- The second key of the first block comes again over the second: it keeps its place and takes the
entry of the second block.  The first block has an empty piece. -/
example : (ofBlocks .current [⟨"a@1, , a@2", { version := "1" }⟩, ⟨" a@2 , b@1", {}⟩]).keys =
    ["a@1", "a@2", "b@1"] := by decide

/-! ## Aliases -/

theorem exists_lastBlock? {metadata : Metadata} (h : key ∈ (ofBlocks metadata blocks).keys) :
    ∃ i, lastBlock? blocks key = some i := by
  rw [← block?_isSome_iff] at h
  exact Option.isSome_iff_exists.1 (block?_ofBlocks metadata blocks key ▸ h)

/-- Two keys have the same block when the last block that has the one is the last that has the
other. -/
theorem block?_ofBlocks_eq_iff {metadata : Metadata} {other : String} :
    (ofBlocks metadata blocks).block? other = (ofBlocks metadata blocks).block? key ↔
      lastBlock? blocks other = lastBlock? blocks key := by
  rw [← block?_ofBlocks metadata, ← block?_ofBlocks metadata]
  rfl

/-- **Which keys are aliases**: those for which the last block that has them is the same block, in
the order of the keys.  Blocks are told apart by their places in the list, so equal entries do not
make aliases. -/
theorem aliases_ofBlocks (metadata : Metadata) (blocks : List Block) (key other : String)
    (hkey : key ∈ (ofBlocks metadata blocks).keys)
    (hother : other ∈ (ofBlocks metadata blocks).keys) :
    (∃ i j, lastBlock? blocks key = some i ∧ lastBlock? blocks other = some j ∧
      (other ∈ (ofBlocks metadata blocks).aliases key ↔ i = j) ∧
      ((blocks.get i).entry = (blocks.get j).entry → i ≠ j →
        other ∉ (ofBlocks metadata blocks).aliases key)) ∧
    (ofBlocks metadata blocks).aliases key = (ofBlocks metadata blocks).keys.filter fun k =>
      lastBlock? blocks k = lastBlock? blocks key := by
  have haliases : (ofBlocks metadata blocks).aliases key =
      (ofBlocks metadata blocks).keys.filter fun k =>
        lastBlock? blocks k = lastBlock? blocks key := by
    rw [aliases_eq_filter]
    exact List.filter_congr fun k _ => decide_eq_decide.2 block?_ofBlocks_eq_iff
  obtain ⟨i, hi⟩ := exists_lastBlock? hkey
  obtain ⟨j, hj⟩ := exists_lastBlock? hother
  have hmem : other ∈ (ofBlocks metadata blocks).aliases key ↔ i = j := by
    rw [haliases, List.mem_filter, decide_eq_true_iff, hi, hj, Option.some.injEq]
    exact ⟨fun h => h.2.symm, fun h => ⟨hother, h.symm⟩⟩
  exact ⟨⟨i, j, hi, hj, hmem, fun _ hne h => hne (hmem.1 h)⟩, haliases⟩

/-- Two blocks with one entry, of which the second takes a key of the first. -/
def overlapping : List Block :=
  [⟨"a@1, a@2", { version := "1.0.0" }⟩, ⟨"a@2, b@1", { version := "1.0.0" }⟩]

/-- The key that was taken is an alias in the second block, and no longer in the first. -/
theorem aliases_ofBlocks_overlapping :
    "a@2" ∈ (ofBlocks .current overlapping).keys ∧ "a@1" ∈ (ofBlocks .current overlapping).keys ∧
      overlapping[0].entry = overlapping[1].entry ∧
      "a@1" ∉ (ofBlocks .current overlapping).aliases "a@2" ∧
      (ofBlocks .current overlapping).aliases "a@2" = ["a@2", "b@1"] := by
  have htaken : "a@2" ∈ (ofBlocks .current overlapping).keys := by decide
  have hleft : "a@1" ∈ (ofBlocks .current overlapping).keys := by decide
  obtain ⟨⟨i, j, hi, hj, -, hnot⟩, haliases⟩ :=
    aliases_ofBlocks .current overlapping "a@2" "a@1" htaken hleft
  have hsecond : lastBlock? overlapping "a@2" = some ⟨1, by decide⟩ := by decide
  have hfirst : lastBlock? overlapping "a@1" = some ⟨0, by decide⟩ := by decide
  obtain rfl := Option.some.inj (hsecond.symm.trans hi)
  obtain rfl := Option.some.inj (hfirst.symm.trans hj)
  exact ⟨htaken, hleft, rfl, hnot rfl (by decide), haliases.trans (by decide)⟩

end Lockfile

end LockPrune
