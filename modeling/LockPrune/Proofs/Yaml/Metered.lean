import LockPrune.Proofs.Yaml.Reading
import LockPrune.Yaml.Value.Read
import Mathlib.Data.List.Forall2

/-!
# Readers that count aliases

A document bounds the number of aliases that are followed in all of it, so that a node may be read
in one place and not in another.  But the place counts for nothing else: what a reader gives, and
how many aliases it follows, is known from the reader that begins to count at nothing, and the sum
of both counts has to keep the bound.  This holds of the smallest readers, and is kept where readers
follow each other.

## Main definitions

* `Reading.IsMetered` — a reader depends on the number of aliases through the bound only.

## Main statements

* `Reading.IsMetered.bind` — readers one after the other.
* `Document.isMetered_follow` — following an alias counts for one.
* `Document.isMetered_text`, `Document.isMetered_optional`, `Document.isMetered_mapping`,
  `Document.isMetered_value` — the readers of a document.
-/

namespace LockPrune.Yaml

namespace Reading

variable {α β : Type} {bound : Nat} {x : Reading α}

/-- What is read, and for how many aliases, is the same wherever the count begins, but that the
aliases count towards the bound. -/
def IsMetered (bound : Nat) (x : Reading α) : Prop :=
  ∀ n a m, x n = .ok (a, m) ↔ ∃ j, x 0 = .ok (a, j) ∧ m = n + j ∧ (j = 0 ∨ m ≤ bound)

theorem isMetered_pure (a : α) : (pure a : Reading α).IsMetered bound := by
  intro n b m
  simp only [pure_eq_ok_iff, Prod.mk.injEq]
  constructor
  · rintro ⟨rfl, rfl⟩
    exact ⟨0, ⟨rfl, rfl⟩, rfl, .inl rfl⟩
  · rintro ⟨j, ⟨rfl, rfl⟩, rfl, -⟩
    exact ⟨rfl, rfl⟩

theorem isMetered_fail (f : Fault) : (fail f : Reading α).IsMetered bound := by
  intro n a m
  simp

/-- The second of two readers counts on from where the first ended. -/
theorem IsMetered.bind {g : α → Reading β} (hx : x.IsMetered bound)
    (hg : ∀ a, (g a).IsMetered bound) : (x >>= g).IsMetered bound := by
  intro n b m
  simp only [bind_eq_ok_iff]
  constructor
  · rintro ⟨a, k, hfirst, hsecond⟩
    obtain ⟨i, hi, rfl, hkeeps⟩ := (hx n a k).1 hfirst
    obtain ⟨j, hj, rfl, hkeeps'⟩ := (hg a _ b m).1 hsecond
    refine ⟨i + j, ⟨a, i, hi, (hg a i b _).2 ⟨j, hj, rfl, by omega⟩⟩, by omega, by omega⟩
  · rintro ⟨j', ⟨a, i, hi, hsecond⟩, rfl, hkeeps⟩
    obtain ⟨j, hj, rfl, -⟩ := (hg a i b j').1 hsecond
    exact ⟨a, n + i, (hx n a _).2 ⟨i, hi, rfl, by omega⟩,
      (hg a _ b _).2 ⟨j, hj, by omega, by omega⟩⟩

theorem IsMetered.map (hx : x.IsMetered bound) (g : α → β) : (g <$> x).IsMetered bound :=
  hx.bind fun a => isMetered_pure (g a)

theorem IsMetered.placedAt (hx : x.IsMetered bound) (mark : Mark) (path : Path) :
    (placedAt mark path x).IsMetered bound := by
  intro n a m
  simp only [placedAt_eq_ok_iff]
  exact hx n a m

theorem isMetered_deeper {r : Nat → Reading α} (h : ∀ depth, (r depth).IsMetered bound)
    (depth : Nat) (mark : Mark) : (deeper depth mark r).IsMetered bound := by
  cases depth with
  | zero => exact isMetered_fail _
  | succ depth => exact h depth

theorem isMetered_mapM {f : β → Reading α} (h : ∀ b, (f b).IsMetered bound) (bs : List β) :
    (bs.mapM f).IsMetered bound := by
  induction bs with
  | nil =>
    rw [List.mapM_nil]
    exact isMetered_pure _
  | cons b bs ih =>
    rw [List.mapM_cons]
    exact (h b).bind fun a => ih.bind fun as => isMetered_pure _

/-- Several readers give what each gives by itself, for the aliases of all of them together. -/
theorem mapM_eq_ok_iff {f : β → Reading α} (h : ∀ b, (f b).IsMetered bound) {bs : List β}
    {as : List α} {n m : Nat} : bs.mapM f n = .ok (as, m) ↔
      ∃ rs : List (α × Nat), List.Forall₂ (fun b r => f b 0 = .ok r) bs rs ∧
        as = rs.map Prod.fst ∧ m = n + (rs.map Prod.snd).sum ∧
          ((rs.map Prod.snd).sum = 0 ∨ m ≤ bound) := by
  induction bs generalizing as n m with
  | nil =>
    rw [List.mapM_nil, pure_eq_ok_iff]
    constructor
    · intro h
      obtain ⟨rfl, rfl⟩ := Prod.mk.inj h
      exact ⟨[], .nil, rfl, rfl, .inl rfl⟩
    · rintro ⟨rs, hrs, rfl, rfl, -⟩
      cases hrs
      rfl
  | cons b bs ih =>
    simp only [List.mapM_cons, bind_eq_ok_iff, pure_eq_ok_iff, Prod.mk.injEq]
    constructor
    · rintro ⟨a, k, hfirst, as, m, hrest, rfl, rfl⟩
      obtain ⟨j, hj, rfl, hkeeps⟩ := (h b n a k).1 hfirst
      obtain ⟨rs, hrs, rfl, rfl, hkeeps'⟩ := ih.1 hrest
      refine ⟨(a, j) :: rs, .cons hj hrs, rfl, ?_, ?_⟩ <;>
        simp only [List.map_cons, List.sum_cons] <;> omega
    · rintro ⟨_, hall, rfl, rfl, hkeeps⟩
      obtain ⟨⟨a, j⟩, rs, hj, hrs, rfl⟩ := List.forall₂_cons_left_iff.1 hall
      simp only [List.map_cons, List.sum_cons] at hkeeps ⊢
      exact ⟨a, n + j, (h b n a _).2 ⟨j, hj, rfl, by omega⟩, rs.map Prod.fst, _,
        ih.2 ⟨rs, hrs, rfl, rfl, by omega⟩, rfl, by omega⟩

/-- Whether a node is read behind some aliases: by itself, and with the bound kept. -/
theorem IsMetered.exists_ok_iff (hx : x.IsMetered bound) (n : Nat) :
    (∃ r, x n = .ok r) ↔ ∃ a j, x 0 = .ok (a, j) ∧ (j = 0 ∨ n + j ≤ bound) := by
  constructor
  · rintro ⟨⟨a, m⟩, h⟩
    obtain ⟨j, hj, rfl, hkeeps⟩ := (hx n a m).1 h
    exact ⟨a, j, hj, hkeeps⟩
  · rintro ⟨a, j, hj, hkeeps⟩
    exact ⟨(a, n + j), (hx n a _).2 ⟨j, hj, rfl, hkeeps⟩⟩

end Reading

open Reading

namespace Document

variable {α : Type} {d : Document}

/-- The number of aliases that a document allows to be followed. -/
def aliasBound (d : Document) : Nat :=
  d.size * 100

/-! ## Readers of nodes -/

theorem follow_alias_eq_ok_iff {path : Path} {mark : Mark} {target n m : Nat} {r : Node × Path} :
    d.follow path (.alias mark target) n = .ok (r, m) ↔
      ∃ node, d.target? target = some node ∧ r = (node, .alias path) ∧ m = n + 1 ∧
        m ≤ d.aliasBound := by
  simp only [follow, aliasBound]
  by_cases hbound : d.size * 100 < n + 1
  · rw [if_pos hbound]
    constructor
    · rintro ⟨⟩
    · rintro ⟨node, -, -, rfl, hle⟩
      omega
  · rw [if_neg hbound]
    cases d.target? target with
    | none => simp
    | some node =>
      simp only [Except.ok.injEq, Prod.mk.injEq, Option.some.injEq, exists_eq_left']
      constructor
      · rintro ⟨rfl, rfl⟩
        exact ⟨rfl, rfl, by omega⟩
      · rintro ⟨rfl, rfl, -⟩
        exact ⟨rfl, rfl⟩

/-- Following an alias counts for one. -/
theorem isMetered_follow (path : Path) (node : Node) :
    (d.follow path node).IsMetered d.aliasBound := by
  cases node with
  | «alias» mark target =>
    intro n a m
    simp only [follow_alias_eq_ok_iff]
    constructor
    · rintro ⟨node, hnode, rfl, rfl, hle⟩
      exact ⟨1, ⟨node, hnode, rfl, rfl, by omega⟩, rfl, .inr hle⟩
    · rintro ⟨j, ⟨node, hnode, rfl, rfl, -⟩, rfl, hle⟩
      exact ⟨node, hnode, rfl, rfl, by omega⟩
  | _ => exact isMetered_pure _

theorem isMetered_mistyped (expected : String) (node : Node) :
    (d.mistyped expected node : Reading α).IsMetered d.aliasBound := by
  intro n a m
  simp [mistyped_ne_ok]

theorem isMetered_ignore (node : Node) : (d.ignore node).IsMetered d.aliasBound := by
  rw [ignore]
  split
  · exact isMetered_pure _
  · exact isMetered_fail _

theorem isMetered_text (expected : String) (path : Path) (node : Node) :
    (d.text expected path node).IsMetered d.aliasBound := by
  refine (isMetered_follow path node).bind fun ⟨node, path⟩ => ?_
  cases node with
  | scalar mark anchor tag style text => exact isMetered_pure _
  | _ => exact (isMetered_mistyped _ _).placedAt _ _

theorem isMetered_optional {inner : Path → Node → Reading α}
    (h : ∀ path node, (inner path node).IsMetered d.aliasBound) (path : Path) (node : Node) :
    (d.optional inner path node).IsMetered d.aliasBound := by
  refine (isMetered_follow path node).bind fun ⟨node, path⟩ => ?_
  cases node with
  | scalar mark anchor tag style text =>
    dsimp only
    split
    · exact isMetered_pure _
    · exact (h _ _).map _
    · exact isMetered_fail _
  | void mark => exact isMetered_pure _
  | cut => exact isMetered_fail _
  | _ => exact (h _ _).map _

theorem isMetered_mapping {body : Nat → Path → List (Node × Node) → Reading α}
    (h : ∀ depth path nodes, (body depth path nodes).IsMetered d.aliasBound) (expected : String)
    (depth : Nat) (path : Path) (node : Node) :
    (d.mapping expected body depth path node).IsMetered d.aliasBound := by
  refine (isMetered_follow path node).bind fun ⟨node, path⟩ => ?_
  refine IsMetered.placedAt ?_ _ _
  cases node with
  | mapping mark anchor tag nodes => exact isMetered_deeper (fun depth => h depth path nodes) _ _
  | void mark => exact h depth path []
  | scalar mark anchor tag style text =>
    dsimp only
    split
    · exact h depth path []
    · exact isMetered_mistyped _ _
  | _ => exact isMetered_mistyped _ _

/-! ## Readers of values -/

theorem isMetered_scalarValue (bound : Nat) (tag : Option Tag) (style : Style) (text : String) :
    (scalarValue tag style text).IsMetered bound := by
  rw [scalarValue]
  cases Meaning.ofScalar tag style text with
  | error what => exact isMetered_fail _
  | ok meaning =>
    cases meaning with
    | wide i => exact isMetered_fail _
    | _ => exact isMetered_pure _

theorem isMetered_ownValue (bound : Nat) (tag : Option Tag) (style : Style) (text : String) :
    (ownValue tag style text).IsMetered bound := by
  rw [ownValue]
  split
  · exact (isMetered_scalarValue _ _ _ _).map _
  · exact isMetered_scalarValue _ _ _ _

variable {bound : Nat} {read : Path → Node → Reading Value}

theorem isMetered_items (h : ∀ path node, (read path node).IsMetered bound) (path : Path) (i : Nat)
    (nodes : List Node) : (items read path i nodes).IsMetered bound := by
  induction nodes generalizing i with
  | nil => exact isMetered_pure _
  | cons node nodes ih =>
    exact (h _ node).bind fun value => (ih (i + 1)).bind fun values => isMetered_pure _

theorem isMetered_entries (h : ∀ path node, (read path node).IsMetered bound) (path : Path)
    (before : List (Value × Value)) (nodes : List (Node × Node)) :
    (entries read path before nodes).IsMetered bound := by
  induction nodes generalizing before with
  | nil => exact isMetered_pure _
  | cons node nodes ih =>
    obtain ⟨k, v⟩ := node
    refine (h path k).bind fun key => ?_
    split
    · exact isMetered_fail _
    · exact (h _ v).bind fun value => ih _

theorem isMetered_valueFrom {inside? : Option (Path → Node → Reading Value)}
    (h : ∀ read, inside? = some read → ∀ path node, (read path node).IsMetered d.aliasBound)
    (path : Path) (node : Node) : (d.valueFrom inside? path node).IsMetered d.aliasBound := by
  refine (isMetered_follow path node).bind fun ⟨node, path⟩ => ?_
  refine IsMetered.placedAt ?_ _ _
  cases node with
  | scalar mark anchor tag style text => exact isMetered_ownValue _ _ _ _
  | sequence mark anchor tag nodes =>
    cases inside? with
    | none => exact isMetered_fail _
    | some read =>
      dsimp only [readerInside]
      rw [pure_bind]
      exact (isMetered_items (h read rfl) path 0 nodes).map _
  | mapping mark anchor tag nodes =>
    cases inside? with
    | none => exact isMetered_fail _
    | some read =>
      dsimp only [readerInside]
      rw [pure_bind]
      exact (isMetered_entries (h read rfl) path [] nodes).map _
  | void mark => exact isMetered_pure _
  | _ => exact isMetered_fail _

theorem isMetered_value (depth : Nat) (path : Path) (node : Node) :
    (d.value depth path node).IsMetered d.aliasBound := by
  induction depth generalizing path node with
  | zero => exact isMetered_valueFrom (by simp) path node
  | succ depth ih =>
    refine isMetered_valueFrom (fun read hread => ?_) path node
    obtain rfl := Option.some.inj hread
    exact ih

end Document

end LockPrune.Yaml
