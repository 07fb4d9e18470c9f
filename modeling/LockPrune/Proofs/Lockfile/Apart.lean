import LockPrune.Lockfile.Encode
import LockPrune.Proofs.Lockfile.Repruning
import LockPrune.Proofs.Lockfile.Splitting

/-!
# Lockfiles without aliases

A file that was written has a block for every key.  Only the sharing of blocks tells the
lockfile in it from the one that was written: the keys, their entries, and what is reached from
some of them are the same.

## Main definitions

* `Lockfile.apart` — the lockfile with a block for every key.
* `Lockfile.IsApart` — no two keys share a block.

## Main statements

* `closure_congr`, `encode_congr` — what the keys and their entries tell.
* `IsApart.prune_eq` — a prune of a lockfile without aliases.
* `entries_prune_apart_prune` — pruning it for the same keys again.
-/

namespace LockPrune.Lockfile

variable {l l' : Lockfile} {policy : KeyPolicy} {roots : List String} {key : String}

/-! ## What the keys and their entries tell -/

theorem Reached.congr (h : ∀ key, l.entry? key = l'.entry? key)
    (hreached : l.Reached policy roots key) : l'.Reached policy roots key := by
  induction hreached with
  | @root key hroot hkey =>
    rw [← entry?_isSome_iff, h key, entry?_isSome_iff] at hkey
    exact .root hroot hkey
  | step _ hr hp hfound ih =>
    rw [resolve_congr h] at hfound
    rw [dependencies?, h] at hr
    exact .step ih hr hp hfound

/-- What is reached from some keys depends neither on the order of the keys nor on who shares a
block with whom. -/
theorem closure_congr (h : ∀ key, l.entry? key = l'.entry? key) :
    l.closure policy roots = l'.closure policy roots := by
  refine KeySet.ext_of_mem fun key => ?_
  rw [mem_closure_iff, mem_closure_iff]
  exact ⟨.congr h, .congr fun key => (h key).symm⟩

theorem encode_congr (h : l.entries = l'.entries) : l.encode = l'.encode := by
  simp only [encode, writes, yaml?, trees?, h]

/-! ## No two keys share a block -/

/-- No two keys share a block. -/
def IsApart (l : Lockfile) : Prop :=
  ∀ key other, l.SharesBlock key other → key = other

/-- Some of the keys, in order, each with its entry. -/
theorem entries_restrict (hsorted : l.keys.Pairwise (· < ·)) (keys : KeySet) :
    (l.restrict keys.toList).keys = l.keys.filter keys.contains ∧
      (l.restrict keys.toList).entries = l.entries.filter fun p => keys.contains p.1 := by
  have hkeys : (l.restrict keys.toList).keys = l.keys.filter keys.contains := by
    have hkept := keys_restrict (l := l) keys.ascending.nodup
    refine List.Pairwise.eq_of_mem_iff (r := (· < ·)) (hkept ▸ keys.ascending.filter _)
      (hsorted.filter _) fun key => ?_
    rw [mem_keys_restrict, List.mem_filter, KeySet.contains_iff, KeySet.mem_def, and_comm]
  refine ⟨hkeys, ?_⟩
  have hentry : ∀ key ∈ (l.restrict keys.toList).keys,
      entry? (l.restrict keys.toList) key = l.entry? key :=
    fun key hkey => entry?_restrict (mem_keys_restrict.1 hkey).1
  rw [entries_eq_filterMap, List.filterMap_congr fun key hkey => by rw [hentry key hkey], hkeys,
    entries_eq_filterMap l, List.filter_filterMap, List.filterMap_filter]
  refine List.filterMap_congr fun key _ => ?_
  cases l.entry? key with
  | none => simp
  | some e => simp [Option.filter]

/-- A prune of a lockfile without aliases leaves out what is not reached. -/
theorem IsApart.prune_eq (h : l.IsApart) :
    l.prune policy roots = l.restrict (l.closure policy roots).toList := by
  have hexpand : l.expand (l.closure policy roots).toList = l.closure policy roots := by
    refine KeySet.ext_of_mem fun key => ?_
    rw [mem_expand_iff]
    constructor
    · rintro ⟨k, hk, hshares⟩
      exact h k key hshares ▸ hk
    · exact fun hkey => ⟨key, hkey, .refl (mem_keys_of_mem_closure hkey)⟩
  rw [prune, hexpand]

/-! ## A block for every key -/

/-- The lockfile with a block for every key. -/
def apart (l : Lockfile) : Lockfile :=
  ofBlocks .current l.ownBlocks

theorem apart_congr (h : l.entries = l'.entries) : l.apart = l'.apart := by
  rw [apart, apart, ownBlocks, ownBlocks, h]

section Apart

variable (hkeys : ∀ key ∈ l.keys, IsSingleKey key)

include hkeys

/-- Every key has the entry that it had. -/
theorem entries_apart : l.apart.entries = l.entries :=
  entries_ofBlocks_ownBlocks .current hkeys

theorem isApart_apart : l.apart.IsApart := by
  -- every block has the one key that it stands under
  have hown : ∀ b ∈ l.ownBlocks, b.keys = [b.key] := by
    intro b hb
    obtain ⟨p, hp, rfl⟩ := List.mem_map.1 hb
    exact hkeys p.1 (keys_eq_map_entries l ▸ List.mem_map_of_mem hp) p.2
  have hkey : ∀ key (i : Fin l.ownBlocks.length), l.apart.block? key = some i →
      key = (l.ownBlocks.get i).key := by
    intro key i hi
    have hlast := (block?_ofBlocks .current l.ownBlocks key).symm.trans hi
    have hmem := (lastBlock?_eq_some_iff.1 hlast).1
    rwa [hown _ (List.get_mem _ i), List.mem_singleton] at hmem
  rintro key other ⟨i, hi, hother⟩
  rw [hkey key i hi, hkey other i hother]

end Apart

/-- Pruning a lockfile without aliases for some keys, and what that leaves, with a block for every
key, for the same keys again, changes nothing more. -/
theorem entries_prune_apart_prune (policy : KeyPolicy) (roots : List String) (h : l.IsApart)
    (hkeys : ∀ key ∈ l.keys, IsSingleKey key) :
    ((l.prune policy roots).apart.prune policy roots).entries = (l.prune policy roots).entries := by
  have hkeys' : ∀ key ∈ (l.prune policy roots).keys, IsSingleKey key :=
    fun key hkey => hkeys key (mem_keys_of_mem_keys_prune hkey)
  have hentries := entries_apart hkeys'
  have hsorted := keys_congr hentries ▸ ascending_keys_prune
  rw [(isApart_apart hkeys').prune_eq, (entries_restrict hsorted _).2, hentries,
    closure_congr (entry?_congr hentries), List.filter_eq_self]
  intro p hp
  have hkey : p.1 ∈ (l.prune policy roots).keys := by
    rw [keys_eq_map_entries]
    exact List.mem_map_of_mem hp
  have hroots : ∀ k ∈ roots, k ∈ l.keys → k ∈ (l.prune policy roots).keys := fun k hk hmem =>
    mem_keys_prune_of_mem_closure (mem_closure_iff.2 (.root hk hmem))
  rw [KeySet.contains_iff, mem_closure_iff, reached_prune_iff hroots, ← mem_closure_iff]
  rw [h.prune_eq, mem_keys_restrict] at hkey
  exact hkey.1

end LockPrune.Lockfile
