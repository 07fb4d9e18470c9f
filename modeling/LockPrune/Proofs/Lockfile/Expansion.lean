import LockPrune.Proofs.Lockfile.Session

/-!
# Aliases, one key at a time or all at once

The aliases of a key are found by a look at all other keys.  For many keys at once a table is
quicker, which is filled in one pass over the keys and has the keys of every block.  Both find the
same, in every lockfile: also in one that was cut down, where a block may have lost some of its
keys.

## Main definitions

* `Lockfile.groups` — the keys of every block that has any.
* `Lockfile.expandGrouped` — the aliases of some keys, taken from the table.

## Main statements

* `getD_groups` — the keys that the table has for a block.
* `expandGrouped_eq` — the table gives the aliases that are found without it.
* `expand_eq_union` — the aliases of some keys are those of each of them.
-/

namespace LockPrune.Lockfile

variable {l : Lockfile} {keys keys' : List String} {key : String}

/-! ## The table -/

/-- A table with one more key, behind the keys that its block has. -/
def addToGroup {n : Nat} (table : Std.HashMap (Fin n) (List String)) (p : String × Fin n) :
    Std.HashMap (Fin n) (List String) :=
  table.alter p.2 fun group? => some (group?.getD [] ++ [p.1])

/-- The keys of every block that has any, found in one pass over the keys. -/
def groups (l : Lockfile) : Std.HashMap (Fin l.blocks.length) (List String) :=
  l.directory.pairs.foldl addToGroup ∅

/-- The given keys that the lockfile has, with all their aliases, taken from the table. -/
def expandGrouped (l : Lockfile) (keys : List String) : KeySet :=
  let table := l.groups
  .ofList ((keys.filterMap l.block?).filterMap (table[·]?)).flatten

/-- One more key goes to its own block only. -/
theorem getD_addToGroup {n : Nat} (table : Std.HashMap (Fin n) (List String))
    (p : String × Fin n) (i : Fin n) :
    (addToGroup table p).getD i [] = table.getD i [] ++ if p.2 = i then [p.1] else [] := by
  rw [addToGroup, Std.HashMap.getD_alter]
  by_cases h : p.2 = i
  · subst h
    simp [Std.HashMap.getD_eq_getD_getElem?]
  · simp [h]

/-- The table has the keys of a block in order. -/
theorem getD_groups (l : Lockfile) (i : Fin l.blocks.length) :
    l.groups.getD i [] = (l.directory.pairs.filter fun p => p.2 = i).map Prod.fst := by
  rw [groups]
  induction l.directory.pairs using List.reverseRecOn with
  | nil => simp
  | append_singleton pairs p ih =>
    rw [List.foldl_append, List.foldl_cons, List.foldl_nil, getD_addToGroup, ih,
      List.filter_append, List.map_append]
    by_cases h : p.2 = i <;> simp [h]

/-- For the block of a key these are its aliases. -/
theorem getD_groups_of_block? {i : Fin l.blocks.length} (h : l.block? key = some i) :
    l.groups.getD i [] = l.aliases key := by
  rw [getD_groups, aliases, h]

/-- The keys that are found in the table for some keys, as they come. -/
theorem flatten_groups (l : Lockfile) (keys : List String) :
    ((keys.filterMap l.block?).filterMap (l.groups[·]?)).flatten = keys.flatMap l.aliases := by
  induction keys with
  | nil => rfl
  | cons key keys ih =>
    rw [List.flatMap_cons, ← ih]
    cases hblock : l.block? key with
    | none =>
      have hnone : l.aliases key = [] := by rw [aliases, hblock]
      rw [List.filterMap_cons_none hblock, hnone, List.nil_append]
    | some i =>
      rw [List.filterMap_cons_some hblock, ← getD_groups_of_block? hblock,
        Std.HashMap.getD_eq_getD_getElem?]
      cases hgroup : l.groups[i]? with
      | none => rw [List.filterMap_cons_none hgroup, Option.getD_none, List.nil_append]
      | some group => rw [List.filterMap_cons_some hgroup, List.flatten_cons, Option.getD_some]

/-! ## Aliases of many keys -/

/-- The aliases of some keys are those of each of them. -/
theorem mem_expand_iff_aliases : key ∈ l.expand keys ↔ ∃ k ∈ keys, key ∈ l.aliases k := by
  simp only [mem_expand_iff, mem_aliases_iff]

/-- The table gives the aliases that are found without it. -/
theorem expandGrouped_eq (l : Lockfile) (keys : List String) :
    l.expandGrouped keys = l.expand keys := by
  refine KeySet.ext_of_mem fun key => ?_
  rw [expandGrouped, flatten_groups, KeySet.mem_ofList, List.mem_flatMap, mem_expand_iff_aliases]

/-- A key of the lockfile is its own alias. -/
theorem mem_expand_self (hkey : key ∈ keys) (h : key ∈ l.keys) : key ∈ l.expand keys :=
  mem_expand_iff.2 ⟨key, hkey, .refl h⟩

/-- More keys have more aliases. -/
theorem mem_expand_of_subset (hsub : keys ⊆ keys') (h : key ∈ l.expand keys) :
    key ∈ l.expand keys' := by
  obtain ⟨k, hk, hshares⟩ := mem_expand_iff.1 h
  exact mem_expand_iff.2 ⟨k, hsub hk, hshares⟩

/-- Aliases of aliases are aliases. -/
theorem expand_expand (l : Lockfile) (keys : List String) :
    l.expand (l.expand keys).toList = l.expand keys := by
  refine KeySet.ext_of_mem fun key => ⟨fun h => ?_, fun h => ?_⟩
  · obtain ⟨other, hother, hshares⟩ := mem_expand_iff.1 h
    obtain ⟨k, hk, hshares'⟩ := mem_expand_iff.1 (KeySet.mem_def.2 hother)
    exact mem_expand_iff.2 ⟨k, hk, hshares'.trans hshares⟩
  · obtain ⟨k, hk, hshares⟩ := mem_expand_iff.1 h
    exact mem_expand_self (KeySet.mem_def.1 h) hshares.mem_keys

/-- **The aliases of some keys are those of each of them**, sorted and each of them once, in every
lockfile and for all keys, whether they are found one by one or in a table of the keys of every
block.  The given keys that the lockfile has are among them, more keys have no fewer aliases, and
the aliases of aliases are no new ones. -/
theorem expand_eq_union (l : Lockfile) (keys : List String) :
    l.expandGrouped keys = l.expand keys ∧
      (l.expand keys).toList.Pairwise (· < ·) ∧
      (∀ key, key ∈ l.expand keys ↔ ∃ k ∈ keys, key ∈ l.aliases k) ∧
      (∀ key ∈ keys, key ∈ l.keys → key ∈ l.expand keys) ∧
      (∀ keys', keys ⊆ keys' → ∀ key ∈ l.expand keys, key ∈ l.expand keys') ∧
      l.expand (l.expand keys).toList = l.expand keys :=
  ⟨l.expandGrouped_eq keys, (l.expand keys).ascending, fun _ => mem_expand_iff_aliases,
    fun _ => mem_expand_self, fun _ hsub _ => mem_expand_of_subset hsub, l.expand_expand keys⟩

/-- A lockfile that has lost one of three keys of a block. -/
def scattered : Lockfile :=
  (ofBlocks .current [⟨"a@3, a@1, a@2", { version := "1" }⟩, ⟨"b@1", { version := "1" }⟩]).restrict
    ["a@2", "b@1", "a@3"]

/-- The key that was lost is no alias any more, and no key either. -/
theorem expand_eq_union_scattered :
    ["a@3", "a@1", "a@3"] ⊆ ["a@1", "b@1", "a@3"] ∧
      scattered.expand ["a@3", "a@1", "a@3"] = scattered.expandGrouped ["a@3", "a@1", "a@3"] ∧
      "a@3" ∈ scattered.expand ["a@3", "a@1", "a@3"] ∧
      "a@2" ∈ scattered.expand ["a@1", "b@1", "a@3"] ∧
      "a@1" ∉ scattered.expand ["a@3", "a@1", "a@3"] := by
  have hsub : ["a@3", "a@1", "a@3"] ⊆ ["a@1", "b@1", "a@3"] := by decide
  obtain ⟨hgrouped, -, hunion, hself, hmono, -⟩ :=
    expand_eq_union scattered ["a@3", "a@1", "a@3"]
  refine ⟨hsub, hgrouped.symm, hself "a@3" (by decide) (by decide), hmono _ hsub "a@2" ?_, ?_⟩
  · exact (hunion "a@2").2 ⟨"a@3", by decide, by decide⟩
  · rw [hunion]
    decide

end LockPrune.Lockfile
