import LockPrune.Proofs.Lockfile.Keys
import Mathlib.Data.Fin.Basic
import Mathlib.Data.List.FinRange

/-!
# From blocks to keys

A key may stand over several blocks.  It is listed where it first comes, and it has the last block
that it stands over, so its place and its entry may come from different blocks.

## Main definitions

* `Lockfile.lastBlock?` — the last block that has a key.
* `Lockfile.pieces` — the keys of all blocks, each with the entry of its block.

## Main statements

* `block?_ofBlocks` — the block of a key is the last that has it.
* `entries_ofBlocks`, `keys_ofBlocks` — the entries of a lockfile are put together from the pieces,
  and its keys stand in the order in which they first come.
-/

namespace LockPrune.Lockfile

variable {blocks : List Block} {key : String}

/-! ## The last block -/

/-- The number of the last block that has a key. -/
def lastBlock? (blocks : List Block) (key : String) : Option (Fin blocks.length) :=
  Fin.findRev? fun i => key ∈ (blocks.get i).keys

theorem lastBlock?_eq_some_iff {i : Fin blocks.length} :
    lastBlock? blocks key = some i ↔
      key ∈ (blocks.get i).keys ∧ ∀ j, i < j → key ∉ (blocks.get j).keys := by
  simp only [lastBlock?, Fin.findRev?_eq_some_iff, decide_eq_true_eq, decide_eq_false_iff_not]

theorem mem_assignments_iff {i : Fin blocks.length} :
    (key, i) ∈ assignments blocks ↔ key ∈ (blocks.get i).keys := by
  simp [assignments]

/-- The blocks are gone through one after the other. -/
theorem pairwise_assignments (blocks : List Block) :
    (assignments blocks).Pairwise fun p q => p.2 ≤ q.2 := by
  rw [assignments, List.pairwise_flatMap]
  constructor
  · intro i _
    rw [List.pairwise_map]
    exact List.pairwise_of_forall fun _ _ => le_rfl
  · refine (List.pairwise_lt_finRange _).imp fun hlt p hp q hq => ?_
    obtain ⟨_, _, rfl⟩ := List.mem_map.1 hp
    obtain ⟨_, _, rfl⟩ := List.mem_map.1 hq
    exact hlt.le

/-- The block of a key is the last that has it. -/
theorem block?_ofBlocks (metadata : Metadata) (blocks : List Block) (key : String) :
    ((ofBlocks metadata blocks).block? key : Option (Fin blocks.length)) =
      lastBlock? blocks key := by
  change (Catalog.ofList (assignments blocks)).get? key = _
  refine Option.ext fun i => ?_
  rw [Catalog.get?_ofList_eq_some_iff (pairwise_assignments blocks), mem_assignments_iff,
    lastBlock?_eq_some_iff]
  refine and_congr_right fun _ => forall_congr' fun j => ?_
  rw [mem_assignments_iff, ← not_lt]
  exact imp_not_comm

theorem entry?_ofBlocks (metadata : Metadata) (blocks : List Block) (key : String) :
    entry? (ofBlocks metadata blocks) key =
      (lastBlock? blocks key).map fun i => (blocks.get i).entry := by
  rw [← block?_ofBlocks metadata]
  rfl

/-! ## Pieces -/

/-- The keys of all blocks, each with the entry of its block. -/
def pieces (blocks : List Block) : List (String × Entry) :=
  blocks.flatMap fun b => b.keys.map fun key => (key, b.entry)

theorem map_fst_pieces (blocks : List Block) :
    (pieces blocks).map Prod.fst = blocks.flatMap Block.keys := by
  simp [pieces, List.map_flatMap, Function.comp_def]

/-- The pieces are what is assigned, with the entries for the numbers of the blocks. -/
theorem map_assignments (blocks : List Block) :
    (assignments blocks).map (fun p => (p.1, (blocks.get p.2).entry)) = pieces blocks := by
  calc (assignments blocks).map (fun p => (p.1, (blocks.get p.2).entry))
      = ((List.finRange blocks.length).map blocks.get).flatMap fun b =>
          b.keys.map fun key => (key, b.entry) := by
        rw [List.flatMap_map, assignments, List.map_flatMap]
        simp only [List.map_map, Function.comp_def, List.get_eq_getElem, Fin.getElem_fin]
    _ = pieces blocks := congrArg _ (List.map_get_finRange blocks)

/-- Apart from who shares a block with whom, a lockfile is put together from its pieces. -/
theorem entries_ofBlocks (metadata : Metadata) (blocks : List Block) :
    (ofBlocks metadata blocks).entries = (Catalog.ofList (pieces blocks)).pairs := by
  rw [← map_assignments]
  exact congrArg Catalog.pairs
    (Catalog.mapValues_ofList (fun i => (blocks.get i).entry) (assignments blocks))

/-- The entry of a key is that of the last block that has the key. -/
theorem entry?_eq_findRev? (metadata : Metadata) (blocks : List Block) (key : String) :
    entry? (ofBlocks metadata blocks) key =
      (blocks.findRev? fun b => b.keys.contains key).map Block.entry := by
  have hlookup : entry? (ofBlocks metadata blocks) key = (pieces blocks).reverse.lookup key := by
    rw [← Catalog.get?_ofList]
    refine Option.ext fun e => ?_
    rw [entry?_eq_some_iff, entries_ofBlocks, Catalog.get?_eq_some_iff]
  rw [hlookup, List.findRev?_eq_find?_reverse]
  clear hlookup
  induction blocks using List.reverseRecOn with
  | nil => rfl
  | append_singleton blocks b ih =>
    have hpieces : (pieces (blocks ++ [b])).reverse =
        (b.keys.reverse.map fun key => (key, b.entry)) ++ (pieces blocks).reverse := by
      simp [pieces]
    rw [hpieces, List.lookup_append, Catalog.lookup_map_const, ih, List.reverse_concat,
      List.find?_cons]
    by_cases hb : key ∈ b.keys <;> simp [hb]

/-- The keys stand in the order in which they first come. -/
theorem keys_ofBlocks (metadata : Metadata) (blocks : List Block) :
    (ofBlocks metadata blocks).keys = (blocks.flatMap Block.keys).eraseDups := by
  rw [keys_eq_map_entries, entries_ofBlocks, ← map_fst_pieces, ← Catalog.keys_ofList, Catalog.keys]

/-- The keys of the lockfile of a list of blocks are the keys of the blocks. -/
theorem mem_keys_ofBlocks_iff {metadata : Metadata} :
    key ∈ (ofBlocks metadata blocks).keys ↔ ∃ b ∈ blocks, key ∈ b.keys := by
  rw [keys_ofBlocks, List.mem_eraseDups, List.mem_flatMap]

end LockPrune.Lockfile
