import LockPrune.Proofs.Lockfile.Keys
import Mathlib.Logic.Relation
import Mathlib.Order.Bounds.Defs

/-!
# The closure is what is reached

A set of keys is closed when it holds the roots that the lockfile has and, with each key, all
that its dependencies resolve to.  The walk ends after finitely many turns, whatever the
dependencies look like, and what it has seen then is the least closed set.

Two invariants carry this through the turns.  Every closed set holds what was seen, and what
waits on the stack and is a key of the lockfile.  And what the walk owes, the roots and the keys
behind a seen one, was seen or waits on the stack.

## Main definitions

* `Reached` — the keys that are reached, one dependency after the other.

## Main statements

* `mem_closure_iff` — the closure has the keys that are reached.
* `closure_isLeast` — the walk ends, and the closure is the least closed set.
-/

namespace LockPrune.Lockfile

variable {l : Lockfile} {policy : KeyPolicy} {roots : List String} {t t' : Traversal}

/-- A set of keys that holds the roots the lockfile has and, with each key, all that its
dependencies resolve to. -/
structure IsClosed (l : Lockfile) (policy : KeyPolicy) (roots : List String)
    (s : Set String) : Prop where
  root : ∀ key ∈ roots, key ∈ l.keys → key ∈ s
  resolved : ∀ key ∈ s, ∀ r, l.dependencies? key = some r → ∀ p ∈ r.pairs, ∀ found,
    l.resolve policy p.1 p.2 = some found → found.key ∈ s

/-- The keys behind a key of a closed set belong to it. -/
theorem IsClosed.mem_of_mem_successors {s : Set String} (hs : l.IsClosed policy roots s)
    {key k : String} {r : Ranges} (hkey : key ∈ s) (hr : l.dependencies? key = some r)
    (hk : k ∈ l.successors policy r) : k ∈ s := by
  obtain ⟨p, hp, found, hfound, rfl⟩ := mem_successors_iff.1 hk
  exact hs.resolved key hkey r hr p hp found hfound

/-- One turn of the walk as a relation. -/
def Turns (l : Lockfile) (policy : KeyPolicy) (t t' : Traversal) : Prop :=
  l.turn policy t = some t'

/-- The beginning of the walk from some roots: the last of them is visited first. -/
def departure (roots : List String) : Traversal :=
  ⟨.empty, roots.reverse⟩

/-- The walk ends: some number of turns leads to an empty stack, with what it returns seen. -/
theorem exists_turns_walk (l : Lockfile) (policy : KeyPolicy) (t : Traversal) :
    ∃ last, Relation.ReflTransGen (l.Turns policy) t last ∧ last.stack = [] ∧
      last.seen = l.walk policy t := by
  induction t using walk.induct l policy with
  | case1 t h =>
    refine ⟨t, .refl, turn_eq_none_iff.1 h, ?_⟩
    rw [walk]
    split
    · rfl
    · rename_i h'
      rw [h] at h'
      cases h'
  | case2 t t' h ih =>
    obtain ⟨last, hturns, hstack, hseen⟩ := ih
    refine ⟨last, .head h hturns, hstack, ?_⟩
    rw [hseen, walk.eq_def l policy t]
    split
    · rename_i h'
      rw [h] at h'
      cases h'
    · rename_i h'
      rw [h, Option.some.injEq] at h'
      rw [h']

/-! ## Nothing but what is reached -/

/-- What was seen belongs to a set, and so does what waits on the stack and is a key. -/
structure StaysIn (l : Lockfile) (s : Set String) (t : Traversal) : Prop where
  seen : ∀ key ∈ t.seen, key ∈ s
  stack : ∀ key ∈ t.stack, key ∈ l.keys → key ∈ s

theorem staysIn_departure {s : Set String} (hs : l.IsClosed policy roots s) :
    l.StaysIn s (departure roots) where
  seen := by
    intro key hkey
    simp [departure, KeySet.empty, KeySet.mem_def] at hkey
  stack := by
    intro key hkey
    exact hs.root key (List.mem_reverse.1 hkey)

/-- A turn does not leave a closed set. -/
theorem StaysIn.turn {s : Set String} (hs : l.IsClosed policy roots s) (h : l.StaysIn s t)
    (hturn : l.Turns policy t t') : l.StaysIn s t' := by
  obtain ⟨key, rest, hstack, ⟨rfl, _⟩ | ⟨r, _, hr, rfl⟩⟩ := turn_cases hturn
  · refine ⟨h.seen, fun k hk => h.stack k ?_⟩
    rw [hstack]
    exact List.mem_cons_of_mem _ hk
  · have hkey : key ∈ s := h.stack key (by simp [hstack]) (mem_keys_of_dependencies? hr)
    refine ⟨fun k hk => ?_, fun k hk hmem => ?_⟩
    · rcases KeySet.mem_insert.1 hk with rfl | hk
      · exact hkey
      · exact h.seen k hk
    · rcases List.mem_append.1 hk with hk | hk
      · rw [List.mem_reverse, List.mem_filter] at hk
        exact hs.mem_of_mem_successors hkey hr hk.1
      · exact h.stack k (by rw [hstack]; exact List.mem_cons_of_mem _ hk) hmem

/-! ## All that is reached -/

/-- What the walk owes was seen or waits on the stack: the roots, and the keys behind a seen
key.  What was seen are keys of the lockfile. -/
structure Owes (l : Lockfile) (policy : KeyPolicy) (roots : List String) (t : Traversal) :
    Prop where
  isKey : ∀ key ∈ t.seen, key ∈ l.keys
  root : ∀ key ∈ roots, key ∈ l.keys → key ∈ t.seen ∨ key ∈ t.stack
  successor : ∀ key ∈ t.seen, ∀ r, l.dependencies? key = some r →
    ∀ k ∈ l.successors policy r, k ∈ t.seen ∨ k ∈ t.stack

theorem owes_departure : l.Owes policy roots (departure roots) where
  isKey := by
    intro key hkey
    simp [departure, KeySet.empty, KeySet.mem_def] at hkey
  root := by
    intro key hkey _
    exact .inr (List.mem_reverse.2 hkey)
  successor := by
    intro key hkey
    simp [departure, KeySet.empty, KeySet.mem_def] at hkey

/-- Passing over a key that was seen, or that is no key of the lockfile, loses nothing that is
owed. -/
theorem seen_or_mem_rest {key : String} {rest : List String} (hstack : t.stack = key :: rest)
    (hpass : key ∈ t.seen ∨ l.dependencies? key = none) {k : String} (hk : k ∈ l.keys)
    (h : k ∈ t.seen ∨ k ∈ t.stack) : k ∈ t.seen ∨ k ∈ rest := by
  rcases h with h | h
  · exact .inl h
  · rw [hstack] at h
    rcases List.mem_cons.1 h with rfl | h
    · rcases hpass with hseen | hnone
      · exact .inl hseen
      · exact absurd hk (dependencies?_eq_none_iff.1 hnone)
    · exact .inr h

/-- A turn pays nothing off without seeing it. -/
theorem Owes.turn (h : l.Owes policy roots t) (hturn : l.Turns policy t t') :
    l.Owes policy roots t' := by
  obtain ⟨key, rest, hstack, ⟨rfl, hpass⟩ | ⟨r, _, hr, rfl⟩⟩ := turn_cases hturn
  · refine ⟨h.isKey, fun k hk hmem => ?_, fun k hk r hr k' hk' => ?_⟩
    · exact seen_or_mem_rest hstack hpass hmem (h.root k hk hmem)
    · exact seen_or_mem_rest hstack hpass (mem_keys_of_mem_successors hk')
        (h.successor k hk r hr k' hk')
  · -- the key on top moves from the stack to the seen ones, and the keys behind it come in
    have moved : ∀ k fresh, k ∈ t.seen ∨ k ∈ t.stack →
        k ∈ t.seen.insert key ∨ k ∈ fresh ++ rest := by
      intro k fresh hk
      rw [hstack] at hk
      rcases hk with hk | hk
      · exact .inl (KeySet.mem_insert.2 (.inr hk))
      · rcases List.mem_cons.1 hk with rfl | hk
        · exact .inl (KeySet.mem_insert.2 (.inl rfl))
        · exact .inr (List.mem_append_right _ hk)
    refine ⟨fun k hk => ?_, fun k hk hmem => moved k _ (h.root k hk hmem),
      fun k hk r' hr' k' hk' => ?_⟩
    · rcases KeySet.mem_insert.1 hk with rfl | hk
      · exact mem_keys_of_dependencies? hr
      · exact h.isKey k hk
    · rcases KeySet.mem_insert.1 hk with rfl | hk
      · rw [hr, Option.some.injEq] at hr'
        subst hr'
        by_cases hseen : k' ∈ t.seen
        · exact .inl (KeySet.mem_insert.2 (.inr hseen))
        · have hfresh : k' ∈ (l.successors policy r).filter fun k => !t.seen.contains k := by
            rw [List.mem_filter]
            exact ⟨hk', by simpa [← KeySet.contains_iff] using hseen⟩
          exact .inr (List.mem_append_left _ (List.mem_reverse.2 hfresh))
      · exact moved k' _ (h.successor k hk r' hr' k' hk')

/-- Once nothing waits any more, what was seen is closed. -/
theorem Owes.isClosed (h : l.Owes policy roots t) (hstack : t.stack = []) :
    l.IsClosed policy roots {key | key ∈ t.seen} where
  root := by
    intro key hkey hmem
    exact (h.root key hkey hmem).resolve_right (by simp [hstack])
  resolved := by
    intro key hkey r hr p hp found hfound
    have hk : found.key ∈ l.successors policy r :=
      mem_successors_iff.2 ⟨p, hp, found, hfound, rfl⟩
    exact (h.successor key hkey r hr _ hk).resolve_right (by simp [hstack])

/-! ## The closure -/

/-- What a property of the walk that every turn keeps says about its end. -/
theorem closure_end {P : Traversal → Prop} (start : P (departure roots))
    (turn : ∀ t t', P t → l.Turns policy t t' → P t') :
    ∃ last, P last ∧ last.stack = [] ∧ last.seen = l.closure policy roots := by
  obtain ⟨last, hturns, hstack, hseen⟩ := exists_turns_walk l policy (departure roots)
  have hlast : P last := by
    clear hstack hseen
    induction hturns with
    | refl => exact start
    | tail _ hturn ih => exact turn _ _ ih hturn
  exact ⟨last, hlast, hstack, hseen⟩

/-- The closure is closed. -/
theorem isClosed_closure (l : Lockfile) (policy : KeyPolicy) (roots : List String) :
    l.IsClosed policy roots {key | key ∈ l.closure policy roots} := by
  obtain ⟨last, howes, hstack, hseen⟩ :=
    closure_end (l := l) owes_departure (fun _ _ h hturn => Owes.turn h hturn)
  rw [← hseen]
  exact howes.isClosed hstack

/-- What is in the closure is in every closed set. -/
theorem IsClosed.mem_of_mem_closure {s : Set String} (hs : l.IsClosed policy roots s)
    {key : String} (h : key ∈ l.closure policy roots) : key ∈ s := by
  obtain ⟨last, hstays, _, hseen⟩ :=
    closure_end (staysIn_departure hs) (fun _ _ h hturn => StaysIn.turn hs h hturn)
  exact hstays.seen key (hseen ▸ h)

/-- What is in the closure are keys of the lockfile. -/
theorem mem_keys_of_mem_closure {key : String} (h : key ∈ l.closure policy roots) :
    key ∈ l.keys := by
  have hkeys : l.IsClosed policy roots {key | key ∈ l.keys} :=
    ⟨fun _ _ hmem => hmem, fun _ _ _ _ _ _ _ hfound => mem_keys_of_resolve hfound⟩
  exact hkeys.mem_of_mem_closure h

/-- A key is reached from some roots: it is one of them and the lockfile has it, or a dependency
of a key that is reached resolves to it. -/
inductive Reached (l : Lockfile) (policy : KeyPolicy) (roots : List String) : String → Prop where
  | root {key : String} (hroot : key ∈ roots) (hkey : key ∈ l.keys) : Reached l policy roots key
  | step {key : String} {r : Ranges} {p : String × String} {found : Resolved}
      (hkey : Reached l policy roots key) (hr : l.dependencies? key = some r) (hp : p ∈ r.pairs)
      (hfound : l.resolve policy p.1 p.2 = some found) : Reached l policy roots found.key

/-- The closure has the keys that are reached, and no others. -/
theorem mem_closure_iff {key : String} :
    key ∈ l.closure policy roots ↔ l.Reached policy roots key := by
  constructor
  · intro h
    have hclosed : l.IsClosed policy roots {key | l.Reached policy roots key} :=
      ⟨fun _ hroot hkey => Reached.root hroot hkey,
        fun _ hkey _ hr _ hp _ hfound => Reached.step hkey hr hp hfound⟩
    exact hclosed.mem_of_mem_closure h
  · intro h
    induction h with
    | root hroot hkey => exact (isClosed_closure l policy roots).root _ hroot hkey
    | step _ hr hp hfound ih =>
      exact (isClosed_closure l policy roots).resolved _ ih _ hr _ hp _ hfound

/-- From roots without dependencies nothing else is reached. -/
theorem mem_closure_of_leaves {key : String}
    (h : ∀ root ∈ roots, ∀ r, l.dependencies? root = some r → r.pairs = []) :
    key ∈ l.closure policy roots ↔ key ∈ roots ∧ key ∈ l.keys := by
  rw [mem_closure_iff]
  constructor
  · intro hreached
    induction hreached with
    | root hroot hkey => exact ⟨hroot, hkey⟩
    | step _ hr hp _ ih =>
      rw [h _ ih.1 _ hr] at hp
      cases hp
  · rintro ⟨hroot, hkey⟩
    exact .root hroot hkey

/-- **The walk from some roots ends, and what it has seen by then is exactly what is reached**:
the least set that holds the roots the lockfile has and, with each key, all that its dependencies
resolve to. -/
theorem closure_isLeast (l : Lockfile) (policy : KeyPolicy) (roots : List String) :
    (∃ last, Relation.ReflTransGen (l.Turns policy) (departure roots) last ∧
      last.stack = [] ∧ last.seen = l.closure policy roots) ∧
    IsLeast {s | l.IsClosed policy roots s} {key | key ∈ l.closure policy roots} := by
  refine ⟨exists_turns_walk l policy (departure roots), isClosed_closure l policy roots, ?_⟩
  intro s hs key hkey
  exact IsClosed.mem_of_mem_closure hs hkey

end LockPrune.Lockfile
