import LockPrune.Proofs.Yaml.Reading
import LockPrune.Yaml.Value.Read

/-!
# What a value is read from

A value is read from the node that is meant: that of a scalar from its text, and that of a
collection from what stands inside, one by one and in order.  So what holds of a value that was read
is shown by going through the forms of a node.

## Main definitions

* `Document.Gives` — a reader gives a value for a node.

## Main statements

* `Document.forall₂_of_items`, `Document.forall₂_of_entries` — what stands inside a collection.
* `Document.value_induction` — induction on what was read.
-/

namespace LockPrune.Yaml.Document

variable {d : Document} {depth : Nat} {path : Path} {k k' : Nat}

/-- The reader gives the value for the node. -/
def Gives (read : Path → Node → Reading Value) (n : Node) (v : Value) : Prop :=
  ∃ path k k', read path n k = .ok (v, k')

/-- Two keys that are not equal as data. -/
def Differ (a b : Value × Value) : Prop :=
  a.1.same b.1 = false

section

variable {read : Path → Node → Reading Value}

theorem forall₂_of_items {nodes : List Node} {i : Nat} {vs : List Value}
    (h : items read path i nodes k = .ok (vs, k')) : List.Forall₂ (Gives read) nodes vs := by
  induction nodes generalizing i k vs k' with
  | nil =>
    obtain ⟨rfl, -⟩ := Prod.mk.inj (Reading.pure_eq_ok_iff.1 h)
    exact .nil
  | cons n nodes ih =>
    simp only [items, Reading.bind_eq_ok_iff, Reading.pure_eq_ok_iff] at h
    obtain ⟨v, k₁, hv, vs', k₂, hvs, heq⟩ := h
    obtain ⟨rfl, -⟩ := Prod.mk.inj heq
    exact .cons ⟨_, _, _, hv⟩ (ih hvs)

/-- The entries stand behind those that were read before, and all keys differ if theirs do. -/
theorem forall₂_of_entries {nodes : List (Node × Node)} {before es : List (Value × Value)}
    (hbefore : before.Pairwise Differ) (h : entries read path before nodes k = .ok (es, k')) :
    ∃ es', es = before ++ es' ∧ es.Pairwise Differ ∧
      List.Forall₂ (fun n e => Gives read n.1 e.1 ∧ Gives read n.2 e.2) nodes es' := by
  induction nodes generalizing before k with
  | nil =>
    obtain ⟨rfl, -⟩ := Prod.mk.inj (Reading.pure_eq_ok_iff.1 h)
    exact ⟨[], (List.append_nil _).symm, hbefore, .nil⟩
  | cons n nodes ih =>
    obtain ⟨kn, vn⟩ := n
    rw [entries, Reading.bind_eq_ok_iff] at h
    obtain ⟨key, k₁, hkey, h⟩ := h
    cases hany : before.any fun entry => entry.1.same key with
    | true =>
      rw [hany, if_pos rfl] at h
      exact absurd h Reading.fail_ne_ok
    | false =>
      rw [hany, if_neg Bool.false_ne_true, Reading.bind_eq_ok_iff] at h
      obtain ⟨v, k₂, hv, h⟩ := h
      have hdiffer : (before ++ [(key, v)]).Pairwise Differ := by
        refine List.pairwise_append.2 ⟨hbefore, List.pairwise_singleton _ _, fun e he e' he' => ?_⟩
        obtain rfl := List.mem_singleton.1 he'
        simpa [Differ] using List.any_eq_false.1 hany e he
      obtain ⟨es', rfl, hall, hes⟩ := ih hdiffer h
      exact ⟨(key, v) :: es', List.append_assoc _ _ _, hall,
        .cons ⟨⟨_, _, _, hkey⟩, _, _, _, hv⟩ hes⟩

end

theorem readerInside_eq_ok {inside? : Option (Path → Node → Reading Value)} {mark : Mark}
    {read : Path → Node → Reading Value} (h : readerInside inside? mark k = .ok (read, k')) :
    inside? = some read := by
  cases inside? with
  | none => exact absurd h (Reading.fail_ne_ok (k := k))
  | some read' =>
    obtain ⟨rfl, -⟩ := Prod.mk.inj (Reading.pure_eq_ok_iff.1 h)
    rfl

section

variable {P : Nat → Node → Value → Prop}
  (scalar : ∀ {depth : Nat} {n : Node} {mark : Mark} {anchor : Option Nat} {tag : Option Tag}
    {style : Style} {text : String} {v : Value} {k k' : Nat},
    d.meant? n = some (.scalar mark anchor tag style text) →
      ownValue tag style text k = .ok (v, k') → P depth n v)
  (sequence : ∀ {depth : Nat} {n : Node} {mark : Mark} {anchor : Option Nat} {tag : Option Tag}
    {nodes : List Node} {vs : List Value},
    d.meant? n = some (.sequence mark anchor tag nodes) → List.Forall₂ (P depth) nodes vs →
      P (depth + 1) n (keepTag tag (.sequence vs)))
  (mapping : ∀ {depth : Nat} {n : Node} {mark : Mark} {anchor : Option Nat} {tag : Option Tag}
    {nodes : List (Node × Node)} {es : List (Value × Value)},
    d.meant? n = some (.mapping mark anchor tag nodes) → es.Pairwise Differ →
      List.Forall₂ (fun n e => P depth n.1 e.1 ∧ P depth n.2 e.2) nodes es →
        P (depth + 1) n (keepTag tag (.mapping es)))
  (void : ∀ {depth : Nat} {n : Node} {mark : Mark}, d.meant? n = some (.void mark) →
    P depth n .null)
include scalar sequence mapping void

theorem valueFrom_induction {inside? : Option (Path → Node → Reading Value)}
    (hinside : ∀ read, inside? = some read → ∃ m, depth = m + 1 ∧ ∀ n v, Gives read n v → P m n v)
    {n : Node} {v : Value} (h : d.valueFrom inside? path n k = .ok (v, k')) : P depth n v := by
  rw [valueFrom, Reading.bind_eq_ok_iff] at h
  obtain ⟨⟨node, path'⟩, k₁, hfollow, h⟩ := h
  have hmeant := meant?_of_follow hfollow
  rw [Reading.placedAt_eq_ok_iff] at h
  cases node with
  | scalar mark anchor tag style text => exact scalar hmeant h
  | sequence mark anchor tag nodes =>
    obtain ⟨read, k₂, hreader, h⟩ := Reading.bind_eq_ok_iff.1 h
    obtain ⟨vs, k₃, hvs, heq⟩ := Reading.map_eq_ok_iff.1 h
    obtain ⟨rfl, -⟩ := Prod.mk.inj heq
    obtain ⟨m, rfl, hread⟩ := hinside read (readerInside_eq_ok hreader)
    exact sequence hmeant ((forall₂_of_items hvs).imp hread)
  | mapping mark anchor tag nodes =>
    obtain ⟨read, k₂, hreader, h⟩ := Reading.bind_eq_ok_iff.1 h
    obtain ⟨es, k₃, hes, heq⟩ := Reading.map_eq_ok_iff.1 h
    obtain ⟨rfl, -⟩ := Prod.mk.inj heq
    obtain ⟨m, rfl, hread⟩ := hinside read (readerInside_eq_ok hreader)
    obtain ⟨es', rfl, hdiffer, hall⟩ := forall₂_of_entries .nil hes
    exact mapping hmeant hdiffer (hall.imp fun n e he => ⟨hread _ _ he.1, hread _ _ he.2⟩)
  | void mark =>
    obtain ⟨rfl, -⟩ := Prod.mk.inj (Reading.pure_eq_ok_iff.1 h)
    exact void hmeant
  | _ => exact absurd h (Reading.fail_ne_ok (k := k₁))

/-- Induction on what was read: a scalar has a value of its own, that of a collection is made of the
values inside, and nothing at all is the missing value. -/
theorem value_induction {n : Node} {v : Value} (h : Gives (d.value depth) n v) : P depth n v := by
  induction depth generalizing n v with
  | zero =>
    obtain ⟨path, k, k', h⟩ := h
    exact valueFrom_induction (P := P) scalar sequence mapping void (by simp) h
  | succ m ih =>
    obtain ⟨path, k, k', h⟩ := h
    refine valueFrom_induction (P := P) scalar sequence mapping void
      (fun read hread => ⟨m, rfl, ?_⟩) h
    obtain rfl := Option.some.inj hread
    exact fun n v hv => ih hv

end

end LockPrune.Yaml.Document
