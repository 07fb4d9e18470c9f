import LockPrune.Proofs.Lockfile.Keys

/-!
# Cutting a lockfile down

A lockfile that is cut down to some keys has them in the order in which they are asked for, not in
the order in which it had them.  Cutting down is filtering: done twice it is done once with the
keys that are asked for both times, and the first candidate that is found is the first that is
found among those that are left.

## Main statements

* `keys_restrict_eq_eraseDups` — the keys that are left, in order.
* `firstOf_restrict_eq_filter` — what is found among some candidates.
* `restrict_algebra` — the laws of cutting down.
-/

namespace LockPrune.Lockfile

/-- A key that is asked for again stays where it was asked for first. -/
theorem keys_restrict_eq_eraseDups (l : Lockfile) (keys : List String) :
    (l.restrict keys).keys = (keys.filter fun key => key ∈ l.keys).eraseDups := by
  have hkeys : (l.restrict keys).keys = ((l.selected keys).map Prod.fst).eraseDups :=
    Catalog.keys_ofList (l.selected keys)
  rw [hkeys, map_fst_selected]
  refine congrArg List.eraseDups (List.filter_congr fun key _ => ?_)
  rw [Bool.eq_iff_iff, block?_isSome_iff, decide_eq_true_iff]

/-- Only the candidates that are left can be found, and the first of them is. -/
theorem firstOf_restrict_eq_filter (l : Lockfile) (keys candidates : List String) :
    (l.restrict keys).firstOf candidates =
      l.firstOf (candidates.filter fun key => key ∈ (l.restrict keys).keys) := by
  induction candidates with
  | nil => rfl
  | cons key rest ih =>
    by_cases hkey : key ∈ (l.restrict keys).keys
    · have hentry := entry?_restrict (l := l) (mem_keys_restrict.1 hkey).1
      rw [List.filter_cons_of_pos (by simpa using hkey), firstOf, firstOf, List.findSome?_cons,
        List.findSome?_cons, hentry]
      cases l.entry? key with
      | none => exact ih
      | some e => rfl
    · have hnone : entry? (l.restrict keys) key = none := by
        rw [← Option.not_isSome_iff_eq_none, entry?_isSome_iff]
        exact hkey
      rw [List.filter_cons_of_neg (by simpa using hkey), ← ih, firstOf, List.findSome?_cons, hnone]
      rfl

/-- **The laws of cutting down**: the keys that are left are those that are asked for and were
there, each where it is asked for first.  What is left after cutting down twice is what is left
after cutting down to the later keys that are among the former, with the same blocks and the same
metadata.  What is found among some candidates is what the whole lockfile finds among those that
are left. -/
theorem restrict_algebra (l : Lockfile) (keys keys' : List String) :
    (l.restrict keys).keys = (keys.filter fun key => key ∈ l.keys).eraseDups ∧
      (l.restrict keys).restrict keys' = l.restrict (keys'.filter fun key => key ∈ keys) ∧
      ∀ candidates, (l.restrict keys).firstOf candidates =
        l.firstOf (candidates.filter fun key => key ∈ (l.restrict keys).keys) :=
  ⟨l.keys_restrict_eq_eraseDups keys, restrict_restrict keys keys',
    l.firstOf_restrict_eq_filter keys⟩

/-- A key that is asked for twice stands where it is asked for first, in front of a key that the
lockfile has before it. -/
example : ((ofBlocks .current [⟨"a@1", {}⟩, ⟨"b@1, b@2", {}⟩]).restrict
    ["b@2", "c@1", "a@1", "b@2"]).keys = ["b@2", "a@1"] := by decide

end LockPrune.Lockfile
