import LockPrune.Lockfile.Resolve

/-!
# Reachable packages

From some keys, the keys that are reached by following dependencies.  Keys that the lockfile
does not have are passed over, and so are dependencies that do not resolve.

The walk keeps the keys it has seen and a stack of the keys still to visit.  A key counts as
seen only after the keys behind it were put on the stack, so a key may wait there more than
once.  The walk ends because every turn either sees one more key of the lockfile or leaves
fewer keys to visit.

## Main definitions

* `Lockfile.successors` — the keys that the dependencies of a package resolve to.
* `Traversal`, `Lockfile.turn` — the state of the walk, and one turn of it.
* `Lockfile.closure` — the keys that are reached.
-/

namespace LockPrune

/-! ## The bound of the walk -/

/-- Where one more element has a property, fewer do not. -/
theorem countP_lt_countP {α : Type} {p q : α → Bool} {l : List α} {a : α}
    (hle : ∀ b ∈ l, q b = true → p b = true) (ha : a ∈ l) (hp : p a = true)
    (hq : q a = false) : l.countP q < l.countP p := by
  induction l with
  | nil => cases ha
  | cons b rest ih =>
    have hrest : rest.countP q ≤ rest.countP p :=
      List.countP_mono_left fun c hc => hle c (List.mem_cons_of_mem _ hc)
    rcases List.mem_cons.1 ha with rfl | hmem
    · simp only [List.countP_cons, hp, hq]
      simp
      omega
    · have := ih (fun c hc => hle c (List.mem_cons_of_mem _ hc)) hmem
      have hb := hle b List.mem_cons_self
      simp only [List.countP_cons]
      cases hqb : q b
      · simp
        omega
      · simp only [hb hqb, if_true]
        omega

/-- A walk between two turns: the keys it has seen, and the stack of the keys to visit, the
next one in front. -/
structure Traversal where
  seen : KeySet
  stack : List String

namespace Lockfile

/-- The number of keys of the lockfile that are not among the seen ones. -/
def unseen (l : Lockfile) (seen : KeySet) : Nat :=
  l.keys.countP fun key => !seen.contains key

/-- A key with dependencies is a key of the lockfile. -/
theorem mem_keys_of_dependencies? {l : Lockfile} {key : String} {r : Ranges}
    (h : l.dependencies? key = some r) : key ∈ l.keys := by
  simp only [dependencies?, entry?, Option.map_map, Option.map_eq_some_iff] at h
  obtain ⟨i, hi, _⟩ := h
  exact Catalog.mem_keys_of_get? hi

/-- Seeing a key of the lockfile leaves fewer of them. -/
theorem unseen_insert_lt {l : Lockfile} {seen : KeySet} {key : String}
    (hmem : key ∈ l.keys) (hnot : seen.contains key = false) :
    l.unseen (seen.insert key) < l.unseen seen := by
  refine countP_lt_countP (fun k _ hk => ?_) hmem (by simp [hnot]) ?_
  · simp only [Bool.not_eq_true', Bool.eq_false_iff, ne_eq, KeySet.contains_iff] at hk ⊢
    exact fun h => hk (KeySet.mem_insert.2 (.inr h))
  · simp only [Bool.not_eq_false', KeySet.contains_iff]
    exact KeySet.mem_insert.2 (.inl rfl)

/-! ## The walk -/

/-- The keys that dependencies resolve to. -/
def successors (l : Lockfile) (policy : KeyPolicy) (r : Ranges) : List String :=
  r.pairs.filterMap fun p => (l.resolve policy p.1 p.2).map Resolved.key

/-- One turn of the walk, unless nothing is left to visit: the key on top is taken off, and if
it is a key of the lockfile that was not seen, the keys behind it that were not seen are put on
the stack one after the other, and it is seen. -/
def turn (l : Lockfile) (policy : KeyPolicy) : Traversal → Option Traversal
  | ⟨_, []⟩ => none
  | ⟨seen, key :: rest⟩ =>
    if seen.contains key then some ⟨seen, rest⟩
    else
      match l.dependencies? key with
      | none => some ⟨seen, rest⟩
      | some r =>
        let fresh := (l.successors policy r).filter fun k => !seen.contains k
        some ⟨seen.insert key, fresh.reverse ++ rest⟩

/-- What a turn can do: it passes over the key on top, which was seen or is no key of the
lockfile, or it sees that key. -/
theorem turn_cases {l : Lockfile} {policy : KeyPolicy} {t t' : Traversal}
    (h : l.turn policy t = some t') :
    ∃ key rest, t.stack = key :: rest ∧
      ((t' = ⟨t.seen, rest⟩ ∧ (key ∈ t.seen ∨ l.dependencies? key = none)) ∨
        ∃ r, key ∉ t.seen ∧ l.dependencies? key = some r ∧
          t' = ⟨t.seen.insert key,
            ((l.successors policy r).filter fun k => !t.seen.contains k).reverse ++ rest⟩) := by
  obtain ⟨seen, stack⟩ := t
  cases stack with
  | nil => simp [turn] at h
  | cons key rest =>
    refine ⟨key, rest, rfl, ?_⟩
    simp only [turn] at h
    split at h
    · rename_i hseen
      exact .inl ⟨by simpa using h.symm, .inl (KeySet.contains_iff.1 hseen)⟩
    · rename_i hseen
      split at h
      · rename_i hdeps
        exact .inl ⟨by simpa using h.symm, .inr hdeps⟩
      · rename_i r hdeps
        refine .inr ⟨r, fun hmem => hseen (KeySet.contains_iff.2 hmem), hdeps, ?_⟩
        simpa using h.symm

/-- The walk ends with nothing left to visit. -/
theorem turn_eq_none_iff {l : Lockfile} {policy : KeyPolicy} {t : Traversal} :
    l.turn policy t = none ↔ t.stack = [] := by
  obtain ⟨seen, stack⟩ := t
  cases stack with
  | nil => simp [turn]
  | cons key rest =>
    simp only [turn, reduceCtorEq, iff_false]
    split
    · simp
    · split <;> simp

/-- How much is left of a walk: the keys of the lockfile that it has not seen, and then the
height of the stack. -/
def remaining (l : Lockfile) (t : Traversal) : Nat × Nat :=
  (l.unseen t.seen, t.stack.length)

/-- A turn leaves less of the walk. -/
theorem remaining_turn_lt {l : Lockfile} {policy : KeyPolicy} {t t' : Traversal}
    (h : l.turn policy t = some t') :
    Prod.Lex (· < ·) (· < ·) (l.remaining t') (l.remaining t) := by
  obtain ⟨key, rest, hstack, ⟨rfl, _⟩ | ⟨r, hnot, hdeps, rfl⟩⟩ := turn_cases h
  · exact Prod.Lex.right _ (by simp [hstack])
  · refine Prod.Lex.left _ _ (unseen_insert_lt (mem_keys_of_dependencies? hdeps) ?_)
    rw [Bool.eq_false_iff]
    exact fun hmem => hnot (KeySet.contains_iff.1 hmem)

/-- The keys that a walk has seen when it ends. -/
def walk (l : Lockfile) (policy : KeyPolicy) (t : Traversal) : KeySet :=
  match _h : l.turn policy t with
  | none => t.seen
  | some t' => walk l policy t'
termination_by l.remaining t
decreasing_by exact remaining_turn_lt _h

/-- The keys that are reached from some keys by following dependencies. -/
def closure (l : Lockfile) (policy : KeyPolicy) (roots : List String) : KeySet :=
  l.walk policy ⟨.empty, roots.reverse⟩

/-- The lockfile of what is needed by some keys: of all that is reached from them, with the
aliases. -/
def prune (l : Lockfile) (policy : KeyPolicy) (roots : List String) : Lockfile :=
  l.restrict (l.expand (l.closure policy roots).toList).toList

end Lockfile

end LockPrune
