import LockPrune.Proofs.Lockfile.Pruning

/-!
# Pruning again

A pruned lockfile is closed under its dependencies and under sharing blocks.  So what is reached
inside it from some of its keys is what is reached from them in the whole lockfile, and pruning
it gives what pruning the whole lockfile gives.

## Main statements

* `prune_prune` — a prune of a prune is a prune of the whole.
* `prune_prune_self` — pruning twice for the same roots is pruning once.
-/

namespace LockPrune.Lockfile

variable {l : Lockfile} {policy : KeyPolicy} {roots roots' : List String} {key : String}

/-- A key that shares its block with a kept one is kept. -/
theorem SharesBlock.mem_keys_prune {other : String} (h : l.SharesBlock key other)
    (hkey : key ∈ (l.prune policy roots).keys) : other ∈ (l.prune policy roots).keys := by
  obtain ⟨k, hk, hshares⟩ := LockPrune.Lockfile.mem_keys_prune.1 hkey
  exact LockPrune.Lockfile.mem_keys_prune.2 ⟨k, hk, hshares.trans h⟩

/-- Two keys share a block in a pruned lockfile when they are kept and share one in the whole. -/
theorem sharesBlock_prune_iff {other : String} (hkey : key ∈ (l.prune policy roots).keys) :
    (l.prune policy roots).SharesBlock key other ↔ l.SharesBlock key other := by
  constructor
  · intro h
    have hother := h.mem_keys
    obtain ⟨i, hi, hi'⟩ := h
    exact ⟨i, (block?_prune hkey).symm.trans hi, (block?_prune hother).symm.trans hi'⟩
  · intro h
    have hother := h.mem_keys_prune hkey
    obtain ⟨i, hi, hi'⟩ := h
    exact ⟨i, (block?_prune hkey).trans hi, (block?_prune hother).trans hi'⟩

theorem dependencies?_prune (hkey : key ∈ (l.prune policy roots).keys) :
    (l.prune policy roots).dependencies? key = l.dependencies? key := by
  rw [dependencies?, entry?_prune hkey]
  rfl

/-- What a dependency of a kept key resolves to, in the whole lockfile and in the pruned one. -/
theorem resolve_kept {r : Ranges} {p : String × String}
    (hkey : key ∈ (l.prune policy roots).keys) (hr : l.dependencies? key = some r)
    (hp : p ∈ r.pairs) :
    (l.prune policy roots).resolve policy p.1 p.2 = l.resolve policy p.1 p.2 := by
  refine firstOf_restrict fun found hfound => ?_
  have hmem := mem_closure_of_resolve hkey ((dependencies?_prune hkey).trans hr) hp hfound
  exact (mem_keys_restrict.1 (mem_keys_prune_of_mem_closure hmem)).1

theorem Reached.mem_keys (h : l.Reached policy roots key) : key ∈ l.keys :=
  mem_keys_of_mem_closure (mem_closure_iff.2 h)

section Roots

variable (hroots : ∀ k ∈ roots', k ∈ l.keys → k ∈ (l.prune policy roots).keys)

include hroots

/-- From roots that are kept nothing but kept keys is reached. -/
theorem mem_keys_prune_of_reached (h : l.Reached policy roots' key) :
    key ∈ (l.prune policy roots).keys := by
  induction h with
  | root hroot hkey => exact hroots _ hroot hkey
  | step _ hr hp hfound ih => exact mem_keys_of_resolve ((resolve_kept ih hr hp).trans hfound)

/-- From roots that are kept the same is reached inside a pruned lockfile as in the whole. -/
theorem reached_prune_iff :
    (l.prune policy roots).Reached policy roots' key ↔ l.Reached policy roots' key := by
  constructor
  · intro h
    induction h with
    | root hroot hkey => exact .root hroot (mem_keys_of_mem_keys_prune hkey)
    | step hkey hr hp hfound ih =>
      have hr' := (dependencies?_prune hkey.mem_keys).symm.trans hr
      exact .step ih hr' hp ((resolve_kept hkey.mem_keys hr' hp).symm.trans hfound)
  · intro h
    induction h with
    | root hroot hkey => exact .root hroot (hroots _ hroot hkey)
    | step hkey hr hp hfound ih =>
      have hkept := mem_keys_prune_of_reached hroots hkey
      exact .step ih ((dependencies?_prune hkept).trans hr) hp
        ((resolve_kept hkept hr hp).trans hfound)

/-- A prune of a prune asks for what a prune of the whole asks for. -/
theorem expand_closure_prune :
    (l.prune policy roots).expand ((l.prune policy roots).closure policy roots').toList =
      l.expand (l.closure policy roots').toList := by
  refine KeySet.ext_of_mem fun key => ?_
  simp only [mem_expand_iff, ← KeySet.mem_def, mem_closure_iff, reached_prune_iff hroots]
  refine exists_congr fun k => and_congr_right fun hk => ?_
  exact sharesBlock_prune_iff (mem_keys_prune_of_reached hroots hk)

/-- A prune of a prune for roots that are kept is a prune of the whole. -/
theorem prune_prune_of_kept :
    (l.prune policy roots).prune policy roots' = l.prune policy roots' := by
  rw [prune, expand_closure_prune hroots]
  nth_rewrite 1 [prune]
  rw [restrict_restrict]
  -- all keys that are asked for are kept, so none of them is left out
  have hkept : ((l.expand (l.closure policy roots').toList).toList.filter fun key =>
      key ∈ (l.expand (l.closure policy roots).toList).toList) =
        (l.expand (l.closure policy roots').toList).toList := by
    rw [List.filter_eq_self]
    intro key hkey
    obtain ⟨k, hk, hshares⟩ := mem_expand_iff.1 (KeySet.mem_def.2 hkey)
    have hreached := mem_closure_iff.1 (KeySet.mem_def.2 hk)
    rw [decide_eq_true_iff, ← keys_prune]
    exact hshares.mem_keys_prune (mem_keys_prune_of_reached hroots hreached)
  rw [hkept, prune]

end Roots

/-- Pruning for the same roots again changes nothing. -/
theorem prune_prune_self :
    (l.prune policy roots).prune policy roots = l.prune policy roots :=
  prune_prune_of_kept fun _ hroot hkey =>
    mem_keys_prune_of_mem_closure (mem_closure_iff.2 (.root hroot hkey))

/-- **Prunes compose**: pruning a pruned lockfile for some of its keys gives what pruning the
whole lockfile for them gives, the same keys in the same order with the same blocks. -/
theorem prune_prune (l : Lockfile) (policy : KeyPolicy) (roots roots' : List String)
    (h : ∀ key ∈ roots', key ∈ (l.prune policy roots).keys) :
    (l.prune policy roots).prune policy roots' = l.prune policy roots' :=
  prune_prune_of_kept fun key hroot _ => h key hroot

/-- Of the packages that need each other the second is pruned for on its own. -/
theorem prune_prune_entangled :
    (∀ key ∈ ["a@2", "b@1"], key ∈ (entangled.prune .standard ["a@1", "c@1"]).keys) ∧
      (entangled.prune .standard ["a@1", "c@1"]).prune .standard ["a@2", "b@1"] =
        entangled.prune .standard ["a@2", "b@1"] := by
  have hroot : "a@1" ∈ entangled.closure .standard ["a@1", "c@1"] :=
    mem_closure_iff.2 (.root (by simp) (by decide))
  have hneeded : "b@1" ∈ entangled.closure .standard ["a@1", "c@1"] := by
    have hfound : entangled.resolve .standard "b" "1" = some ⟨"b@1", "1.5.0"⟩ := by decide
    exact mem_closure_iff.2 (.step (r := .ofList [("b", "1")]) (p := ("b", "1"))
      (mem_closure_iff.1 hroot) rfl (by decide) hfound)
  have hkept : ∀ key ∈ ["a@2", "b@1"],
      key ∈ (entangled.prune .standard ["a@1", "c@1"]).keys := by
    simp only [List.forall_mem_cons, List.not_mem_nil, false_implies, implies_true, and_true]
    exact ⟨mem_keys_prune.2 ⟨"a@1", hroot, ⟨0, by decide⟩, by decide, by decide⟩,
      mem_keys_prune_of_mem_closure hneeded⟩
  exact ⟨hkept, prune_prune entangled .standard ["a@1", "c@1"] ["a@2", "b@1"] hkept⟩

end LockPrune.Lockfile
