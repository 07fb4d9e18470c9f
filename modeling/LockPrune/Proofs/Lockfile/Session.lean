import LockPrune.Lockfile.Decode
import LockPrune.Proofs.Lockfile.KeyTexts
import LockPrune.Proofs.Lockfile.Pruning

/-!
# Sessions

A lockfile is made once, from a file or from blocks.  After that it is cut down to some keys, or
pruned, or resolved by another policy, any number of times and in any order.  All that these
steps do to it is leave keys out: whatever is left after them is part of what there was at the
beginning, with the same blocks.

## Main definitions

* `Lockfile.IsMade` — the lockfiles that a session may begin with.
* `Lockfile.IsPart` — a lockfile of some of the keys of another, each with its block.
* `Session`, `Session.step`, `Session.run` — what is done with a lockfile.

## Main statements

* `IsPart.mem_aliases_iff` — the aliases of a key in a part of a lockfile.
* `IsPart.step`, `IsPart.run` — one step, and all of them, leave a part.
* `Session.run_isPart` — what a session keeps.
-/

namespace LockPrune

namespace Lockfile

variable {l₀ l l' : Lockfile} {key other : String}

/-- A lockfile that was read from a file, or made from blocks. -/
inductive IsMade : Lockfile → Prop where
  | read {octets : List UInt8} {l : Lockfile} (h : decode octets = .ok l) : IsMade l
  | ofBlocks (blocks : List Block) : IsMade (ofBlocks .current blocks)

/-- The keys of a lockfile that was made have the form of a key. -/
theorem IsMade.isCanonical (h : l.IsMade) (hkey : key ∈ l.keys) : IsCanonical key := by
  cases h with
  | @read octets _ h =>
    rw [decode] at h
    cases hblocks : decodeBlocks octets with
    | error e => rw [hblocks] at h; cases h
    | ok r =>
      rw [hblocks] at h
      cases h
      exact isCanonical_of_mem_keys_ofBlocks hkey
  | ofBlocks blocks => exact isCanonical_of_mem_keys_ofBlocks hkey

/-! ## The numbers of blocks -/

/-- The number of the block of a key.  Blocks are told apart by their numbers, not by what is
in them. -/
def number? (l : Lockfile) (key : String) : Option Nat :=
  (l.block? key).map Fin.val

theorem number?_isSome_iff : (l.number? key).isSome = true ↔ key ∈ l.keys := by
  rw [number?, Option.isSome_map, block?_isSome_iff]

theorem entry?_eq_bind (l : Lockfile) (key : String) :
    l.entry? key = (l.number? key).bind fun i => l.blocks[i]?.map Block.entry := by
  rw [entry?_eq_map, number?]
  cases l.block? key with
  | none => rfl
  | some i => simp [entryOf]

theorem sharesBlock_iff :
    l.SharesBlock key other ↔ ∃ i, l.number? key = some i ∧ l.number? other = some i := by
  simp only [SharesBlock, number?, Option.map_eq_some_iff]
  constructor
  · rintro ⟨i, hkey, hother⟩
    exact ⟨i, ⟨i, hkey, rfl⟩, i, hother, rfl⟩
  · rintro ⟨_, ⟨i, hkey, rfl⟩, j, hother, hij⟩
    exact ⟨i, hkey, Fin.eq_of_val_eq hij ▸ hother⟩

/-- The aliases of a key are the keys that share its block. -/
theorem mem_aliases_iff : other ∈ l.aliases key ↔ l.SharesBlock key other := by
  rw [aliases_eq_filter, List.mem_filter, decide_eq_true_iff, ← block?_isSome_iff, SharesBlock]
  constructor
  · rintro ⟨hsome, heq⟩
    obtain ⟨i, hi⟩ := Option.isSome_iff_exists.1 hsome
    exact ⟨i, heq ▸ hi, hi⟩
  · rintro ⟨i, hkey, hother⟩
    exact ⟨by simp [hother], hother.trans hkey.symm⟩

/-! ## Parts of a lockfile -/

/-- A lockfile of some of the keys of another, each with its block. -/
structure IsPart (l₀ l : Lockfile) : Prop where
  metadata_eq : l.metadata = l₀.metadata
  blocks_eq : l.blocks = l₀.blocks
  number?_eq : ∀ key ∈ l.keys, l.number? key = l₀.number? key

namespace IsPart

theorem refl (l : Lockfile) : l.IsPart l := ⟨rfl, rfl, fun _ _ => rfl⟩

theorem mem_keys (h : l₀.IsPart l) (hkey : key ∈ l.keys) : key ∈ l₀.keys := by
  rw [← number?_isSome_iff, ← h.number?_eq key hkey, number?_isSome_iff]
  exact hkey

theorem trans (h : l₀.IsPart l) (h' : l.IsPart l') : l₀.IsPart l' :=
  ⟨h'.metadata_eq.trans h.metadata_eq, h'.blocks_eq.trans h.blocks_eq, fun key hkey =>
    (h'.number?_eq key hkey).trans (h.number?_eq key (h'.mem_keys hkey))⟩

theorem restrict (l : Lockfile) (keys : List String) : l.IsPart (l.restrict keys) := by
  refine ⟨rfl, rfl, fun key hkey => ?_⟩
  have hblock : (l.restrict keys).block? key = l.block? key := by
    rw [block?_restrict, if_pos (mem_keys_restrict.1 hkey).1]
  exact congrArg (Option.map Fin.val) hblock

/-- A key that is left has the entry that it had. -/
theorem entry?_eq (h : l₀.IsPart l) (hkey : key ∈ l.keys) : l.entry? key = l₀.entry? key := by
  rw [entry?_eq_bind, entry?_eq_bind, h.number?_eq key hkey, h.blocks_eq]

/-- The aliases of a key that is left are those that it had, as far as they are left. -/
theorem mem_aliases_iff (h : l₀.IsPart l) (hkey : key ∈ l.keys) :
    other ∈ l.aliases key ↔ other ∈ l₀.aliases key ∧ other ∈ l.keys := by
  rw [Lockfile.mem_aliases_iff, Lockfile.mem_aliases_iff]
  constructor
  · intro hshares
    have hother := hshares.mem_keys
    rw [sharesBlock_iff, h.number?_eq key hkey, h.number?_eq other hother] at hshares
    exact ⟨sharesBlock_iff.2 hshares, hother⟩
  · rintro ⟨hshares, hother⟩
    rw [sharesBlock_iff, ← h.number?_eq key hkey, ← h.number?_eq other hother] at hshares
    exact sharesBlock_iff.2 hshares

end IsPart

end Lockfile

/-! ## Steps -/

/-- A lockfile, and the policy by which it is resolved. -/
structure Session where
  lockfile : Lockfile
  policy : KeyPolicy

namespace Session

/-- What is done with a lockfile at a time. -/
inductive Step where
  /-- It is cut down to some keys. -/
  | restrict (keys : List String)
  /-- It is cut down to what is needed by some keys. -/
  | prune (roots : List String)
  /-- It gets another policy. -/
  | adopt (policy : KeyPolicy)

/-- What is left after a step. -/
def step (s : Session) : Step → Session
  | .restrict keys => { s with lockfile := s.lockfile.restrict keys }
  | .prune roots => { s with lockfile := s.lockfile.prune s.policy roots }
  | .adopt policy => { s with policy }

/-- What is left after some steps. -/
def run (s : Session) (steps : List Step) : Session :=
  steps.foldl step s

end Session

open Lockfile

variable {l₀ : Lockfile} {s : Session}

/-- A step leaves a part of what there was. -/
theorem Lockfile.IsPart.step (h : l₀.IsPart s.lockfile) (step : Session.Step) :
    l₀.IsPart (s.step step).lockfile := by
  cases step with
  | restrict keys => exact h.trans (.restrict s.lockfile keys)
  | prune roots => exact h.trans (.restrict s.lockfile _)
  | adopt policy => exact h

/-- So do all steps of a session. -/
theorem Lockfile.IsPart.run (h : l₀.IsPart s.lockfile) (steps : List Session.Step) :
    l₀.IsPart (s.run steps).lockfile := by
  induction steps generalizing s with
  | nil => exact h
  | cons step steps ih => exact ih (h.step step)

/-- **What a session keeps**: after any steps the keys are distinct and have the form of keys,
they are keys that were there at the beginning, each with the block that it had, and the aliases
of a key are those it had at the beginning, as far as they are left.  The blocks and the metadata
are those of the beginning. -/
theorem Session.run_isPart (l₀ : Lockfile) (h : l₀.IsMade) (policy : KeyPolicy)
    (steps : List Session.Step) (l : Lockfile)
    (hrun : (Session.run ⟨l₀, policy⟩ steps).lockfile = l) :
    l.keys.Nodup ∧ (∀ key ∈ l.keys, IsCanonical key) ∧
      (∀ key ∈ l.keys, key ∈ l₀.keys ∧ l.number? key = l₀.number? key ∧
        l.entry? key = l₀.entry? key) ∧
      l.blocks = l₀.blocks ∧ l.metadata = l₀.metadata ∧
      ∀ key ∈ l.keys, ∀ other, other ∈ l.aliases key ↔ other ∈ l₀.aliases key ∧ other ∈ l.keys := by
  subst hrun
  have hpart := (IsPart.refl l₀).run (s := ⟨l₀, policy⟩) steps
  refine ⟨Catalog.distinct _, fun key hkey => h.isCanonical (hpart.mem_keys hkey),
    fun key hkey => ⟨hpart.mem_keys hkey, hpart.number?_eq key hkey, hpart.entry?_eq hkey⟩,
    hpart.blocks_eq, hpart.metadata_eq, fun key hkey other => hpart.mem_aliases_iff hkey⟩

/-- Of the packages that need each other the first is kept under its second key only: it has the
block that it had, and has lost its alias. -/
theorem Session.run_isPart_entangled :
    ∃ l, entangled.IsMade ∧
      (Session.run ⟨entangled, .standard⟩ [.prune ["a@1"], .adopt fun _ _ => [],
        .restrict ["a@2", "c@1"]]).lockfile = l ∧
      "a@2" ∈ l.keys ∧ l.number? "a@2" = some 0 ∧
      "a@1" ∈ entangled.aliases "a@2" ∧ "a@1" ∉ l.aliases "a@2" := by
  have hmade : entangled.IsMade := .ofBlocks _
  have hroot : "a@1" ∈ entangled.closure .standard ["a@1"] :=
    mem_closure_iff.2 (.root (by simp) (by decide))
  have hpruned : "a@2" ∈ (entangled.prune .standard ["a@1"]).keys :=
    mem_keys_prune.2 ⟨"a@1", hroot, ⟨0, by decide⟩, by decide, by decide⟩
  obtain ⟨-, -, hkeys, -, -, haliases⟩ := Session.run_isPart entangled hmade .standard
    [.prune ["a@1"], .adopt fun _ _ => [], .restrict ["a@2", "c@1"]] _ rfl
  have hkept : "a@2" ∈ ((entangled.prune .standard ["a@1"]).restrict ["a@2", "c@1"]).keys :=
    mem_keys_restrict.2 ⟨by simp, hpruned⟩
  refine ⟨_, hmade, rfl, hkept, (hkeys _ hkept).2.1.trans (by decide), by decide, fun hlost => ?_⟩
  have hgone := mem_keys_restrict.1 ((haliases _ hkept _).1 hlost).2
  simp at hgone

end LockPrune
