import LockPrune.Proofs.Lockfile.Reachability

/-!
# What a prune keeps

A prune keeps the keys that are reached from its roots, together with all keys that share a
block with one of these.  A key that is there only as an alias has the dependencies of the key
it shares its block with, so whatever it depends on was reached as well.

## Main statements

* `mem_expand_iff`, `mem_keys_prune` — which keys are kept.
* `resolve_prune` — every dependency of a kept key resolves as it did before.
* `prune_exact` — what a prune is: nothing that is needed is lost, and nothing else is kept.
-/

namespace LockPrune.Lockfile

variable {l : Lockfile} {policy : KeyPolicy} {roots : List String} {key : String}

/-- Two keys share a block. -/
def SharesBlock (l : Lockfile) (key other : String) : Prop :=
  ∃ i, l.block? key = some i ∧ l.block? other = some i

theorem SharesBlock.refl (h : key ∈ l.keys) : l.SharesBlock key key := by
  obtain ⟨i, hi⟩ := Option.isSome_iff_exists.1 (block?_isSome_iff.2 h)
  exact ⟨i, hi, hi⟩

theorem SharesBlock.symm {other : String} (h : l.SharesBlock key other) :
    l.SharesBlock other key := by
  obtain ⟨i, hkey, hother⟩ := h
  exact ⟨i, hother, hkey⟩

theorem SharesBlock.trans {other third : String} (h : l.SharesBlock key other)
    (h' : l.SharesBlock other third) : l.SharesBlock key third := by
  obtain ⟨i, hkey, hother⟩ := h
  obtain ⟨j, hother', hthird⟩ := h'
  obtain rfl : i = j := Option.some.inj (hother.symm.trans hother')
  exact ⟨i, hkey, hthird⟩

theorem SharesBlock.mem_keys {other : String} (h : l.SharesBlock key other) :
    other ∈ l.keys := by
  obtain ⟨i, _, hother⟩ := h
  exact block?_isSome_iff.1 (by simp [hother])

/-- Keys that share a block have one entry. -/
theorem SharesBlock.dependencies?_eq {other : String} (h : l.SharesBlock key other) :
    l.dependencies? key = l.dependencies? other := by
  obtain ⟨i, hkey, hother⟩ := h
  simp only [dependencies?, entry?, hkey, hother]

/-- The aliases of some keys are the keys that share a block with one of them. -/
theorem mem_expand_iff {keys : List String} :
    key ∈ l.expand keys ↔ ∃ k ∈ keys, l.SharesBlock k key := by
  simp only [expand, KeySet.mem_ofList, List.mem_map, List.mem_filter, List.contains_iff_mem,
    List.mem_filterMap, SharesBlock]
  constructor
  · rintro ⟨⟨k, i⟩, ⟨hmem, k', hk', hblock⟩, rfl⟩
    exact ⟨k', hk', i, hblock, Catalog.get?_eq_some_iff.2 hmem⟩
  · rintro ⟨k, hk, i, hblock, hkey⟩
    exact ⟨(key, i), ⟨Catalog.get?_eq_some_iff.1 hkey, k, hk, hblock⟩, rfl⟩

/-- A prune keeps the keys that share a block with one that is reached. -/
theorem mem_keys_prune :
    key ∈ (l.prune policy roots).keys ↔
      ∃ k ∈ l.closure policy roots, l.SharesBlock k key := by
  rw [prune, mem_keys_restrict, ← KeySet.mem_def, mem_expand_iff]
  simp only [← KeySet.mem_def]
  constructor
  · rintro ⟨h, _⟩
    exact h
  · rintro ⟨k, hk, hshares⟩
    exact ⟨⟨k, hk, hshares⟩, hshares.mem_keys⟩

/-- What is reached is kept. -/
theorem mem_keys_prune_of_mem_closure (h : key ∈ l.closure policy roots) :
    key ∈ (l.prune policy roots).keys :=
  mem_keys_prune.2 ⟨key, h, .refl (mem_keys_of_mem_closure h)⟩

/-- A prune adds no key. -/
theorem mem_keys_of_mem_keys_prune (h : key ∈ (l.prune policy roots).keys) : key ∈ l.keys := by
  obtain ⟨_, _, hshares⟩ := mem_keys_prune.1 h
  exact hshares.mem_keys

/-- A kept key keeps its entry. -/
theorem entry?_prune (h : key ∈ (l.prune policy roots).keys) :
    entry? (l.prune policy roots) key = l.entry? key :=
  entry?_restrict (mem_keys_restrict.1 h).1

/-- What a dependency of a kept key resolves to is reached, also if the key is there only for
sharing its block. -/
theorem mem_closure_of_resolve {r : Ranges} {p : String × String} {found : Resolved}
    (hkey : key ∈ (l.prune policy roots).keys)
    (hr : (l.prune policy roots).dependencies? key = some r) (hp : p ∈ r.pairs)
    (hfound : l.resolve policy p.1 p.2 = some found) :
    found.key ∈ l.closure policy roots := by
  obtain ⟨k, hk, hshares⟩ := mem_keys_prune.1 hkey
  have hdeps : l.dependencies? k = some r := by
    rw [hshares.dependencies?_eq, dependencies?, ← entry?_prune hkey]
    exact hr
  exact (isClosed_closure l policy roots).resolved k hk r hdeps p hp found hfound

/-- **A pruned lockfile is self-contained**: every dependency of every key it keeps resolves in
it as it does in the whole lockfile, to the same key and version, or not at all. -/
theorem resolve_prune (l : Lockfile) (policy : KeyPolicy) (roots : List String) (key : String)
    (hkey : key ∈ (l.prune policy roots).keys) (r : Ranges)
    (hr : (l.prune policy roots).dependencies? key = some r) (name range : String)
    (hp : (name, range) ∈ r.pairs) :
    (l.prune policy roots).resolve policy name range = l.resolve policy name range := by
  refine firstOf_congr (fun k _ hk => entry?_prune hk) (fun k _ hk hmem => ?_) ?_
  · exact hk (mem_keys_of_mem_keys_prune hmem)
  · intro found hfound
    exact mem_keys_prune_of_mem_closure (mem_closure_of_resolve hkey hr hp hfound)

/-- Two packages that need each other, the first under two keys, and one that neither needs. -/
def entangled : Lockfile :=
  .ofBlocks .current
    [⟨"a@1, a@2", { version := "1.0.0", dependencies := .ofList [("b", "1")] }⟩,
      ⟨"b@1", { version := "1.5.0", dependencies := .ofList [("a", "1")] }⟩,
      ⟨"c@1", { version := "2.0.0" }⟩]

/-- The second key of the first package is kept for the block it shares, and what it needs is
found as before. -/
theorem resolve_prune_entangled :
    "a@2" ∈ (entangled.prune .standard ["a@1"]).keys ∧
      (entangled.prune .standard ["a@1"]).dependencies? "a@2" = some (.ofList [("b", "1")]) ∧
      ("b", "1") ∈ (Table.ofList [("b", "1")]).pairs ∧
      (entangled.prune .standard ["a@1"]).resolve .standard "b" "1" = some ⟨"b@1", "1.5.0"⟩ := by
  have hroot : "a@1" ∈ entangled.closure .standard ["a@1"] :=
    (isClosed_closure entangled .standard ["a@1"]).root "a@1" (by simp) (by decide)
  have hkey : "a@2" ∈ (entangled.prune .standard ["a@1"]).keys :=
    mem_keys_prune.2 ⟨"a@1", hroot, ⟨0, by decide⟩, by decide, by decide⟩
  have hr : (entangled.prune .standard ["a@1"]).dependencies? "a@2" =
      some (.ofList [("b", "1")]) := by
    rw [dependencies?, entry?_prune hkey]
    rfl
  refine ⟨hkey, hr, by decide, ?_⟩
  exact (resolve_prune entangled .standard ["a@1"] "a@2" hkey _ hr "b" "1" (by decide)).trans
    (by decide)

/-! ## All that is kept, in order -/

/-- The keys of a prune are those that it asks for, all of which the lockfile has. -/
theorem keys_prune :
    (l.prune policy roots).keys = (l.expand (l.closure policy roots).toList).toList := by
  have hnodup := (l.expand (l.closure policy roots).toList).ascending.nodup
  rw [prune, keys_restrict hnodup, List.filter_eq_self]
  intro key hkey
  obtain ⟨_, _, hshares⟩ := mem_expand_iff.1 (KeySet.mem_def.2 hkey)
  exact block?_isSome_iff.2 hshares.mem_keys

theorem ascending_keys_prune : (l.prune policy roots).keys.Pairwise (· < ·) := by
  rw [keys_prune]
  exact (l.expand (l.closure policy roots).toList).ascending

/-- A prune from roots without dependencies keeps these roots and their aliases. -/
theorem prune_of_leaves (h : ∀ root ∈ roots, ∀ r, l.dependencies? root = some r → r.pairs = []) :
    l.prune policy roots = l.restrict (l.expand roots).toList := by
  have hexpand : l.expand (l.closure policy roots).toList = l.expand roots := by
    refine KeySet.ext_of_mem fun key => ?_
    simp only [mem_expand_iff, ← KeySet.mem_def, mem_closure_of_leaves h]
    constructor
    · rintro ⟨k, ⟨hk, -⟩, hshares⟩
      exact ⟨k, hk, hshares⟩
    · rintro ⟨k, hk, hshares⟩
      exact ⟨k, ⟨hk, hshares.symm.mem_keys⟩, hshares⟩
  rw [prune, hexpand]

/-- A kept key keeps its block. -/
theorem block?_prune (h : key ∈ (l.prune policy roots).keys) :
    (l.prune policy roots).block? key = l.block? key := by
  have hblock : (l.prune policy roots).block? key = _ := block?_restrict
  rw [hblock, if_pos (mem_keys_restrict.1 h).1]

/-- A prune has no more keys than the lockfile. -/
theorem size_prune_le : (l.prune policy roots).size ≤ l.size := by
  have hsize : ∀ l : Lockfile, l.size = l.keys.length := fun l => by
    rw [size, Catalog.size, keys, Catalog.keys, List.length_map]
  rw [hsize, hsize]
  exact (List.subperm_of_subset ascending_keys_prune.nodup
    fun _ hkey => mem_keys_of_mem_keys_prune hkey).length_le

/-- **A prune keeps exactly what is needed**: its keys are in strictly increasing order, and they
are the keys that share a block with one that is reached from the roots.  Each keeps its block,
the blocks and the metadata are those of the lockfile, and there are no more keys than there
were. -/
theorem prune_exact (l : Lockfile) (policy : KeyPolicy) (roots : List String) :
    (l.prune policy roots).keys.Pairwise (· < ·) ∧
      (∀ key, key ∈ (l.prune policy roots).keys ↔
        ∃ k, l.Reached policy roots k ∧ l.SharesBlock k key) ∧
      (∀ key ∈ (l.prune policy roots).keys,
        (l.prune policy roots).block? key = l.block? key) ∧
      (l.prune policy roots).blocks = l.blocks ∧
      (l.prune policy roots).metadata = l.metadata ∧
      (l.prune policy roots).size ≤ l.size := by
  refine ⟨ascending_keys_prune, fun key => ?_, fun _ hkey => block?_prune hkey, rfl, rfl,
    size_prune_le⟩
  simp only [mem_keys_prune, mem_closure_iff]

end LockPrune.Lockfile
