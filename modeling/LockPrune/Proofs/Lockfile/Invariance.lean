import LockPrune.Proofs.Lockfile.Apart

/-!
# What a prune does not depend on

A prune keeps keys together with their aliases, so it does not matter under which of its keys a
root is given.  The keys that are reached may differ, but only by keys that share a block.

Nor does it matter in which order the blocks of a lockfile stand, as long as no two of them have a
key in common: then every key has one block only, and the keys that a prune keeps are sorted.

## Main definitions

* `IsAlike` — two lockfiles with the same entries and the same aliases.

## Main statements

* `Reached.exists_sharesBlock` — what is reached from other keys of the same blocks.
* `prune_eq_of_expand_eq` — the choice of a key among its aliases.
* `IsAlike.entries_prune`, `isAlike_of_perm` — alike lockfiles, and blocks in another order.
* `prune_ofBlocks_perm` — the order of the blocks.
-/

namespace LockPrune.Lockfile

variable {l l' : Lockfile} {policy : KeyPolicy} {roots roots' : List String} {key other : String}

/-! ## Roots under other keys -/

/-- Where every root shares a block with one of some other roots, every key that is reached shares
a block with one that is reached from those. -/
theorem Reached.exists_sharesBlock
    (h : ∀ root ∈ roots, root ∈ l.keys → ∃ other ∈ roots', l.SharesBlock other root)
    (hreached : l.Reached policy roots key) :
    ∃ other, l.Reached policy roots' other ∧ l.SharesBlock other key := by
  induction hreached with
  | root hroot hkey =>
    obtain ⟨other, hother, hshares⟩ := h _ hroot hkey
    exact ⟨other, .root hother hshares.symm.mem_keys, hshares⟩
  | step _ hr hp hfound ih =>
    -- keys of one block have the same dependencies, so from here on the very same is reached
    obtain ⟨other, hother, hshares⟩ := ih
    have hdeps := hshares.dependencies?_eq.trans hr
    exact ⟨_, .step hother hdeps hp hfound, .refl (mem_keys_of_resolve hfound)⟩

/-- Such roots ask for no more keys. -/
theorem mem_expand_closure_of_sharesBlock
    (h : ∀ root ∈ roots, root ∈ l.keys → ∃ other ∈ roots', l.SharesBlock other root)
    (hkey : key ∈ l.expand (l.closure policy roots).toList) :
    key ∈ l.expand (l.closure policy roots').toList := by
  simp only [mem_expand_iff, ← KeySet.mem_def, mem_closure_iff] at hkey ⊢
  obtain ⟨k, hk, hshares⟩ := hkey
  obtain ⟨other, hother, hshares'⟩ := hk.exists_sharesBlock h
  exact ⟨other, hother, hshares'.trans hshares⟩

/-- A root shares a block with one of some other roots when these have its aliases. -/
theorem exists_sharesBlock_of_expand_eq (h : l.expand roots = l.expand roots') :
    ∀ root ∈ roots, root ∈ l.keys → ∃ other ∈ roots', l.SharesBlock other root := by
  intro root hroot hkey
  rw [← mem_expand_iff, ← h, mem_expand_iff]
  exact ⟨root, hroot, .refl hkey⟩

/-- **The choice of a key among its aliases does not matter to a prune**: roots with the same
aliases keep the same keys, in the same order and with the same blocks. -/
theorem prune_eq_of_expand_eq (l : Lockfile) (policy : KeyPolicy) (roots roots' : List String)
    (h : l.expand roots = l.expand roots') : l.prune policy roots = l.prune policy roots' := by
  have hexpand : l.expand (l.closure policy roots).toList =
      l.expand (l.closure policy roots').toList := by
    refine KeySet.ext_of_mem fun key => ⟨?_, ?_⟩
    · exact mem_expand_closure_of_sharesBlock (exists_sharesBlock_of_expand_eq h)
    · exact mem_expand_closure_of_sharesBlock (exists_sharesBlock_of_expand_eq h.symm)
  rw [prune, prune, hexpand]

/-- Of the packages that need each other, the second key of the first is reached only when it is a
root. -/
theorem prune_eq_of_expand_eq_entangled :
    entangled.expand ["a@1"] = entangled.expand ["a@2"] ∧
      entangled.closure .standard ["a@1"] ≠ entangled.closure .standard ["a@2"] ∧
      entangled.prune .standard ["a@1"] = entangled.prune .standard ["a@2"] := by
  have hexpand : entangled.expand ["a@1"] = entangled.expand ["a@2"] :=
    KeySet.ext_of_toList (by decide)
  have hreached : "a@2" ∈ entangled.closure .standard ["a@2"] :=
    mem_closure_iff.2 (.root (by simp) (by decide))
  -- the first key and the key of the package that it needs lead to nothing else
  have hclosed : entangled.IsClosed .standard ["a@1"] {key | key ∈ ["a@1", "b@1"]} := by
    refine ⟨fun key hroot _ => List.mem_cons.2 (.inl (List.mem_singleton.1 hroot)), ?_⟩
    intro key hkey r hr p hp found hfound
    have hbehind : found.key ∈ entangled.successors .standard r :=
      mem_successors_iff.2 ⟨p, hp, found, hfound, rfl⟩
    rcases List.mem_pair.1 hkey with rfl | rfl
    · obtain rfl : Table.ofList [("b", "1")] = r := Option.some.inj hr
      have hneeds : entangled.successors .standard (.ofList [("b", "1")]) = ["b@1"] := by decide
      exact List.mem_cons_of_mem _ (hneeds ▸ hbehind)
    · obtain rfl : Table.ofList [("a", "1")] = r := Option.some.inj hr
      have hneeds : entangled.successors .standard (.ofList [("a", "1")]) = ["a@1"] := by decide
      exact List.mem_cons.2 (.inl (List.mem_singleton.1 (hneeds ▸ hbehind)))
  refine ⟨hexpand, fun hclosure => ?_, prune_eq_of_expand_eq _ _ _ _ hexpand⟩
  have hother := hclosed.mem_of_mem_closure (hclosure ▸ hreached)
  simp at hother

/-! ## Lockfiles that differ in their order -/

/-- Two lockfiles with the same entries and the same aliases.  The keys may stand in another
order. -/
structure IsAlike (l l' : Lockfile) : Prop where
  entry?_eq : ∀ key, l.entry? key = l'.entry? key
  sharesBlock_iff : ∀ key other, l.SharesBlock key other ↔ l'.SharesBlock key other

/-- A prune keeps the same keys of alike lockfiles, in the same order. -/
theorem IsAlike.keys_prune (h : l.IsAlike l') :
    (l.prune policy roots).keys = (l'.prune policy roots).keys := by
  rw [Lockfile.keys_prune, Lockfile.keys_prune, closure_congr h.entry?_eq]
  refine congrArg KeySet.toList (KeySet.ext_of_mem fun key => ?_)
  simp only [mem_expand_iff, h.sharesBlock_iff]

/-- Each of them has the same entry. -/
theorem IsAlike.entries_prune (h : l.IsAlike l') :
    (l.prune policy roots).entries = (l'.prune policy roots).entries := by
  rw [entries_eq_filterMap, entries_eq_filterMap (l'.prune policy roots), ← h.keys_prune]
  refine List.filterMap_congr fun key hkey => ?_
  rw [entry?_prune hkey, entry?_prune (h.keys_prune ▸ hkey), h.entry?_eq]

/-! ## Blocks without common keys -/

section Disjoint

variable {metadata : Metadata} {blocks blocks' : List Block}
  (hdisjoint : blocks.Pairwise fun b c => ∀ key ∈ b.keys, key ∉ c.keys)

include hdisjoint

/-- The only block that has a key is the last. -/
theorem lastBlock?_eq_some_iff_mem {i : Fin blocks.length} :
    lastBlock? blocks key = some i ↔ key ∈ (blocks.get i).keys := by
  rw [lastBlock?_eq_some_iff]
  refine ⟨And.left, fun hkey => ⟨hkey, fun j hij => ?_⟩⟩
  exact List.pairwise_iff_getElem.1 hdisjoint i j i.isLt j.isLt hij key hkey

/-- What is true of the block of a key is true of a block that has it. -/
theorem exists_lastBlock?_iff {p : Block → Prop} :
    (∃ i, lastBlock? blocks key = some i ∧ p (blocks.get i)) ↔
      ∃ b ∈ blocks, key ∈ b.keys ∧ p b := by
  simp only [lastBlock?_eq_some_iff_mem hdisjoint]
  constructor
  · rintro ⟨i, hkey, hp⟩
    exact ⟨blocks.get i, List.get_mem _ i, hkey, hp⟩
  · rintro ⟨b, hb, hkey, hp⟩
    obtain ⟨i, hi, rfl⟩ := List.getElem_of_mem hb
    exact ⟨⟨i, hi⟩, hkey, hp⟩

theorem entry?_ofBlocks_eq_some_iff {e : Entry} :
    entry? (ofBlocks metadata blocks) key = some e ↔
      ∃ b ∈ blocks, key ∈ b.keys ∧ b.entry = e := by
  rw [entry?_ofBlocks, Option.map_eq_some_iff]
  exact exists_lastBlock?_iff hdisjoint (p := fun b => b.entry = e)

theorem sharesBlock_ofBlocks_iff :
    (ofBlocks metadata blocks).SharesBlock key other ↔
      ∃ b ∈ blocks, key ∈ b.keys ∧ other ∈ b.keys := by
  have hblock : (ofBlocks metadata blocks).SharesBlock key other ↔
      ∃ i, lastBlock? blocks key = some i ∧ lastBlock? blocks other = some i := by
    simp only [← block?_ofBlocks metadata]
    rfl
  rw [hblock, ← exists_lastBlock?_iff hdisjoint (p := fun b => other ∈ b.keys)]
  simp only [lastBlock?_eq_some_iff_mem hdisjoint]

/-- Blocks in another order make an alike lockfile. -/
theorem isAlike_of_perm (hperm : blocks.Perm blocks') :
    (ofBlocks metadata blocks).IsAlike (ofBlocks metadata blocks') := by
  have hdisjoint' : blocks'.Pairwise fun b c => ∀ key ∈ b.keys, key ∉ c.keys :=
    (hperm.pairwise_iff fun h key hc hb => h key hb hc).1 hdisjoint
  constructor
  · intro key
    refine Option.ext fun e => ?_
    simp only [entry?_ofBlocks_eq_some_iff hdisjoint, entry?_ofBlocks_eq_some_iff hdisjoint',
      hperm.mem_iff]
  · intro key other
    simp only [sharesBlock_ofBlocks_iff hdisjoint, sharesBlock_ofBlocks_iff hdisjoint',
      hperm.mem_iff]

end Disjoint

/-- **The order of the blocks does not matter to a prune**, where no key stands over two of them:
the same keys are kept in the same order with the same entries, and the same file is written. -/
theorem prune_ofBlocks_perm (metadata : Metadata) (blocks blocks' : List Block)
    (policy : KeyPolicy) (roots : List String) (hperm : blocks.Perm blocks')
    (hdisjoint : blocks.Pairwise fun b c => ∀ key ∈ b.keys, key ∉ c.keys) :
    ((ofBlocks metadata blocks).prune policy roots).entries =
        ((ofBlocks metadata blocks').prune policy roots).entries ∧
      ((ofBlocks metadata blocks).prune policy roots).encode =
        ((ofBlocks metadata blocks').prune policy roots).encode := by
  have hentries : ((ofBlocks metadata blocks).prune policy roots).entries =
      ((ofBlocks metadata blocks').prune policy roots).entries :=
    (isAlike_of_perm hdisjoint hperm).entries_prune
  exact ⟨hentries, encode_congr hentries⟩

/-- With the packages in reverse the keys stand in another order, but not those that are kept. -/
theorem prune_ofBlocks_perm_entangled :
    entangled.blocks.Perm entangled.blocks.reverse ∧
      (entangled.blocks.Pairwise fun b c => ∀ key ∈ b.keys, key ∉ c.keys) ∧
      (ofBlocks .current entangled.blocks).keys ≠
        (ofBlocks .current entangled.blocks.reverse).keys ∧
      ((ofBlocks .current entangled.blocks).prune .standard ["b@1"]).encode =
        ((ofBlocks .current entangled.blocks.reverse).prune .standard ["b@1"]).encode := by
  have hperm := (List.reverse_perm entangled.blocks).symm
  have hdisjoint : entangled.blocks.Pairwise fun b c => ∀ key ∈ b.keys, key ∉ c.keys := by decide
  refine ⟨hperm, hdisjoint, by decide, ?_⟩
  exact (prune_ofBlocks_perm .current _ _ .standard ["b@1"] hperm hdisjoint).2

end LockPrune.Lockfile
