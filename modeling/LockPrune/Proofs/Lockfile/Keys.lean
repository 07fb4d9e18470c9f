import LockPrune.Lockfile.Closure
import LockPrune.Proofs.Ordered.Listing

/-!
# Keys, blocks and what they resolve to

The small laws of the views of a lockfile: which texts have an entry, which keys a dependency
may resolve to, and what is left of a lockfile that is cut down to some of its keys.

## Main statements

* `dependencies?_isSome_iff` — what has dependencies is a key.
* `entry?_eq_some_iff` — the entry of a key is the one listed with it.
* `aliases_eq_filter` — the aliases of a key are the keys with its block.
* `mem_keys_of_resolve`, `resolve_congr` — a dependency resolves to a key, and to the same one
  where the keys have the same entries.
* `firstOf_congr` — what is found among some candidates is found where only others are missing.
* `block?_restrict`, `keys_restrict` — the block of a key in a lockfile that is cut down, and
  its keys in order.
* `restrict_restrict` — a lockfile that is cut down twice.
-/

namespace LockPrune.Lockfile

variable {l l' : Lockfile} {policy : KeyPolicy} {key name range : String}

theorem block?_isSome_iff : (l.block? key).isSome = true ↔ key ∈ l.keys :=
  Catalog.isSome_get?_iff

/-- The entry of a key is that of its block. -/
theorem entry?_eq_map (l : Lockfile) (key : String) :
    l.entry? key = (l.block? key).map l.entryOf := rfl

theorem entry?_isSome_iff : (l.entry? key).isSome = true ↔ key ∈ l.keys := by
  rw [entry?_eq_map, Option.isSome_map, block?_isSome_iff]

/-- What has dependencies, if only none at all, is a key of the lockfile. -/
theorem dependencies?_isSome_iff : (l.dependencies? key).isSome = true ↔ key ∈ l.keys := by
  rw [dependencies?, Option.isSome_map, entry?_isSome_iff]

theorem dependencies?_eq_none_iff : l.dependencies? key = none ↔ key ∉ l.keys := by
  rw [← dependencies?_isSome_iff, Bool.not_eq_true, Option.isSome_eq_false_iff,
    Option.isNone_iff_eq_none]

/-! ## Keys with their entries -/

theorem keys_eq_map_entries (l : Lockfile) : l.keys = l.entries.map Prod.fst := by
  rw [entries, List.map_map]
  rfl

theorem keys_congr (h : l.entries = l'.entries) : l.keys = l'.keys := by
  rw [keys_eq_map_entries, keys_eq_map_entries, h]

theorem entry?_eq_some_iff {e : Entry} : l.entry? key = some e ↔ (key, e) ∈ l.entries := by
  rw [entry?_eq_map, Option.map_eq_some_iff, entries, List.mem_map]
  constructor
  · rintro ⟨i, hi, rfl⟩
    exact ⟨(key, i), Catalog.get?_eq_some_iff.1 hi, rfl⟩
  · rintro ⟨⟨k, i⟩, hp, heq⟩
    obtain ⟨rfl, rfl⟩ := Prod.mk.inj heq
    exact ⟨i, Catalog.get?_eq_some_iff.2 hp, rfl⟩

theorem entry?_congr (h : l.entries = l'.entries) (key : String) :
    l.entry? key = l'.entry? key := by
  refine Option.ext fun e => ?_
  rw [entry?_eq_some_iff, entry?_eq_some_iff, h]

/-- The keys in order, each with its entry. -/
theorem entries_eq_filterMap (l : Lockfile) :
    l.entries = l.keys.filterMap fun key => (l.entry? key).map fun e => (key, e) := by
  have hself : ∀ p ∈ l.entries, (l.entry? p.1).map (fun e => (p.1, e)) = some p := by
    intro p hp
    rw [entry?_eq_some_iff.2 hp, Option.map_some]
  rw [keys_eq_map_entries, List.filterMap_map]
  exact List.filterMap_some.symm.trans (List.filterMap_congr fun p hp => (hself p hp).symm)

/-- The aliases of a key are the keys with the same block, in order. -/
theorem aliases_eq_filter (l : Lockfile) (key : String) :
    l.aliases key = l.keys.filter fun other => l.block? other = l.block? key := by
  have hblock : ∀ p ∈ l.directory.pairs, l.block? p.1 = some p.2 :=
    fun p hp => Catalog.get?_eq_some_iff.2 hp
  rw [aliases, keys, Catalog.keys, List.filter_map]
  cases hkey : l.block? key with
  | none =>
    have hother : ∀ p ∈ l.directory.pairs, l.block? p.1 ≠ none := by
      intro p hp
      simp [hblock p hp]
    simpa using hother
  | some i =>
    refine congrArg (List.map Prod.fst) (List.filter_congr fun p hp => ?_)
    simp [hblock p hp]

/-! ## Resolving -/

/-- A dependency resolves to a key of the lockfile, which is one of its candidates. -/
theorem mem_keys_of_resolve {found : Resolved} (h : l.resolve policy name range = some found) :
    found.key ∈ l.keys := by
  obtain ⟨candidate, _, hfound⟩ := List.exists_of_findSome?_eq_some h
  obtain ⟨entry, hentry, rfl⟩ := Option.map_eq_some_iff.1 hfound
  exact entry?_isSome_iff.1 (by simp [hentry])

/-- What dependencies resolve to depends on nothing but the entry of every key. -/
theorem resolve_congr (h : ∀ key, l.entry? key = l'.entry? key) (name range : String) :
    l.resolve policy name range = l'.resolve policy name range := by
  simp only [resolve, firstOf, h]

theorem mem_successors_iff {r : Ranges} :
    key ∈ l.successors policy r ↔
      ∃ p ∈ r.pairs, ∃ found, l.resolve policy p.1 p.2 = some found ∧ found.key = key := by
  simp only [successors, List.mem_filterMap, Option.map_eq_some_iff]

/-- What the dependencies of a package resolve to are keys of the lockfile. -/
theorem mem_keys_of_mem_successors {r : Ranges} (h : key ∈ l.successors policy r) :
    key ∈ l.keys := by
  obtain ⟨p, _, found, hfound, rfl⟩ := mem_successors_iff.1 h
  exact mem_keys_of_resolve hfound

/-- Two lockfiles find the same among some candidates when the second has no keys but those of
the first, with their entries, and has the one that the first finds. -/
theorem firstOf_congr {l' : Lockfile} {candidates : List String}
    (hsub : ∀ k ∈ candidates, k ∈ l'.keys → l'.entry? k = l.entry? k)
    (hnone : ∀ k ∈ candidates, k ∉ l.keys → k ∉ l'.keys)
    (hfound : ∀ found, l.firstOf candidates = some found → found.key ∈ l'.keys) :
    l'.firstOf candidates = l.firstOf candidates := by
  induction candidates with
  | nil => rfl
  | cons k rest ih =>
    simp only [firstOf, List.findSome?_cons] at hfound ⊢
    by_cases hk : k ∈ l.keys
    · -- the first candidate is the one that is found
      obtain ⟨entry, hentry⟩ := Option.isSome_iff_exists.1 (entry?_isSome_iff.2 hk)
      have hk' : k ∈ l'.keys := hfound ⟨k, entry.version⟩ (by simp [hentry])
      rw [hsub k List.mem_cons_self hk', hentry]
      rfl
    · have hnot : l.entry? k = none := by
        rw [← Option.not_isSome_iff_eq_none, entry?_isSome_iff]
        exact hk
      have hnot' : l'.entry? k = none := by
        rw [← Option.not_isSome_iff_eq_none, entry?_isSome_iff]
        exact hnone k List.mem_cons_self hk
      simp only [hnot, hnot', Option.map_none] at hfound ⊢
      exact ih (fun a ha => hsub a (List.mem_cons_of_mem _ ha))
        (fun a ha => hnone a (List.mem_cons_of_mem _ ha)) hfound

/-! ## Cutting a lockfile down -/

/-- A key keeps its block when the lockfile is cut down to some keys, if it is one of them. -/
theorem block?_restrict {keys : List String} :
    (l.restrict keys).block? key = if key ∈ keys then l.block? key else none := by
  -- the chosen pairs give a key no block but its own, so it does not matter which one counts
  have hmem : ∀ i, (key, i) ∈ (l.selected keys).reverse ↔ key ∈ keys ∧ l.block? key = some i := by
    intro i
    simp only [selected, List.mem_reverse, List.mem_filterMap, Option.map_eq_some_iff,
      Prod.mk.injEq]
    constructor
    · rintro ⟨k, hk, j, hj, rfl, rfl⟩
      exact ⟨hk, hj⟩
    · rintro ⟨hk, hi⟩
      exact ⟨key, hk, i, hi, rfl, rfl⟩
  have hblock : (l.restrict keys).block? key = (l.selected keys).reverse.lookup key :=
    Catalog.get?_ofList
  rw [hblock]
  cases hlookup : (l.selected keys).reverse.lookup key with
  | none =>
    rw [List.lookup_eq_none_iff] at hlookup
    split
    · rename_i hin
      cases hi : l.block? key with
      | none => rfl
      | some i =>
        have := hlookup _ ((hmem i).2 ⟨hin, hi⟩)
        simp at this
    · rfl
  | some i =>
    obtain ⟨before, after, happ, _⟩ := List.lookup_eq_some_iff.1 hlookup
    have hpair := (hmem i).1 (by simp [happ])
    rw [if_pos hpair.1, hpair.2]

theorem mem_keys_restrict {keys : List String} :
    key ∈ (l.restrict keys).keys ↔ key ∈ keys ∧ key ∈ l.keys := by
  have hblock : ((l.restrict keys).block? key).isSome =
      (if key ∈ keys then l.block? key else none).isSome := by
    rw [block?_restrict]
    rfl
  rw [← block?_isSome_iff, ← block?_isSome_iff, hblock]
  by_cases h : key ∈ keys <;> simp [h]

/-- A key that is kept keeps its entry. -/
theorem entry?_restrict {keys : List String} (h : key ∈ keys) :
    entry? (l.restrict keys) key = l.entry? key := by
  have hblock : (l.restrict keys).block? key = l.block? key := by
    rw [block?_restrict, if_pos h]
  rw [entry?_eq_map, entry?_eq_map, hblock]
  rfl

/-- The keys that are chosen are those that the lockfile has. -/
theorem map_fst_selected (l : Lockfile) (keys : List String) :
    (l.selected keys).map Prod.fst = keys.filter fun key => (l.block? key).isSome := by
  rw [selected, List.map_filterMap, ← List.filterMap_eq_filter]
  refine List.filterMap_congr fun key _ => ?_
  cases h : l.block? key <;> simp [Option.guard, h]

/-- The keys that are given and that the lockfile has, in the order given, when none is given
twice. -/
theorem keys_restrict {keys : List String} (h : keys.Nodup) :
    (l.restrict keys).keys = keys.filter fun key => (l.block? key).isSome := by
  have hnodup : ((l.selected keys).map Prod.fst).Nodup := map_fst_selected l keys ▸ h.filter _
  rw [← map_fst_selected, ← Catalog.pairs_ofList hnodup]
  rfl

/-- What a lockfile finds among some candidates is still found when it is cut down to keys that
have it. -/
theorem firstOf_restrict {keys candidates : List String}
    (h : ∀ found, l.firstOf candidates = some found → found.key ∈ keys) :
    (l.restrict keys).firstOf candidates = l.firstOf candidates := by
  refine firstOf_congr (fun k _ hk => entry?_restrict (mem_keys_restrict.1 hk).1)
    (fun k _ hk hmem => hk (mem_keys_restrict.1 hmem).2) fun found hfound => ?_
  obtain ⟨k, _, hk⟩ := List.exists_of_findSome?_eq_some hfound
  obtain ⟨entry, hentry, rfl⟩ := Option.map_eq_some_iff.1 hk
  exact mem_keys_restrict.2 ⟨h _ hfound, entry?_isSome_iff.1 (by simp [hentry])⟩

/-- Cutting a lockfile down twice is cutting it down to those of the later keys that are among
the former. -/
theorem restrict_restrict (keys keys' : List String) :
    (l.restrict keys).restrict keys' = l.restrict (keys'.filter fun key => key ∈ keys) := by
  have hselected : (l.restrict keys).selected keys' =
      l.selected (keys'.filter fun key => key ∈ keys) := by
    rw [selected, selected, List.filterMap_filter]
    refine List.filterMap_congr fun key _ => ?_
    rw [block?_restrict]
    by_cases h : key ∈ keys
    · simp only [h, if_true, decide_true]
      rfl
    · simp only [h, if_false, decide_false]
      rfl
  exact congrArg (fun pairs => Lockfile.mk l.metadata l.blocks (.ofList pairs)) hselected

end LockPrune.Lockfile
