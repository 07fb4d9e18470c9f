/-!
# Sets of texts

A set of texts, kept sorted by the order of their code points, so that a set has one list
only.

## Main definitions

* `KeySet` — the texts, in strictly increasing order.
* `KeySet.insert`, `KeySet.ofList` — sets with given texts.
* `KeySet.mem_ofList` — which texts these are.
-/

namespace LockPrune

/-- A set of texts. -/
structure KeySet where
  toList : List String
  ascending : toList.Pairwise (· < ·)

namespace KeySet

/-- The set without texts. -/
def empty : KeySet :=
  ⟨[], List.Pairwise.nil⟩

instance : Membership String KeySet := ⟨fun s k => k ∈ s.toList⟩

/-- Whether a text belongs to a set. -/
def contains (s : KeySet) (key : String) : Bool :=
  s.toList.contains key

theorem mem_def {s : KeySet} {key : String} : key ∈ s ↔ key ∈ s.toList :=
  Iff.rfl

theorem contains_iff {s : KeySet} {key : String} : s.contains key = true ↔ key ∈ s := by
  simp [contains, mem_def]

/-! ## Insertion -/

/-- The sorted texts with one more. -/
def insertSorted (key : String) : List String → List String
  | [] => [key]
  | k :: rest =>
    if key < k then key :: k :: rest
    else if key = k then k :: rest
    else k :: insertSorted key rest

theorem mem_insertSorted {key k : String} {keys : List String} :
    k ∈ insertSorted key keys ↔ k = key ∨ k ∈ keys := by
  induction keys with
  | nil => simp [insertSorted]
  | cons a rest ih =>
    simp only [insertSorted]
    split
    · simp
    · split
      · rename_i h
        subst h
        simp
      · simp only [List.mem_cons, ih]
        constructor
        · rintro (h | h | h)
          · exact .inr (.inl h)
          · exact .inl h
          · exact .inr (.inr h)
        · rintro (h | h | h)
          · exact .inr (.inl h)
          · exact .inl h
          · exact .inr (.inr h)

/-- Insertion keeps the texts sorted. -/
theorem ascending_insertSorted {key : String} {keys : List String}
    (h : keys.Pairwise (· < ·)) : (insertSorted key keys).Pairwise (· < ·) := by
  induction keys with
  | nil => simp [insertSorted]
  | cons a rest ih =>
    have hrest := (List.pairwise_cons.1 h).1
    simp only [insertSorted]
    split
    · rename_i hlt
      refine List.Pairwise.cons (fun k hk => ?_) h
      rcases List.mem_cons.1 hk with rfl | hk
      · exact hlt
      · exact String.lt_trans hlt (hrest _ hk)
    · rename_i hlt
      split
      · exact h
      · rename_i hne
        refine List.Pairwise.cons (fun k hk => ?_) (ih h.of_cons)
        rcases mem_insertSorted.1 hk with rfl | hk
        · exact Std.lt_of_le_of_ne hlt (Ne.symm hne)
        · exact hrest _ hk

/-- The set with one more text. -/
def insert (s : KeySet) (key : String) : KeySet :=
  ⟨insertSorted key s.toList, ascending_insertSorted s.ascending⟩

@[simp] theorem mem_insert {s : KeySet} {key k : String} :
    k ∈ s.insert key ↔ k = key ∨ k ∈ s :=
  mem_insertSorted

/-- The set of the texts of a list. -/
def ofList (keys : List String) : KeySet :=
  keys.foldl insert empty

theorem mem_foldl_insert {keys : List String} {s : KeySet} {k : String} :
    k ∈ keys.foldl insert s ↔ k ∈ keys ∨ k ∈ s := by
  induction keys generalizing s with
  | nil => simp
  | cons a rest ih =>
    rw [List.foldl_cons, ih, mem_insert, List.mem_cons]
    constructor
    · rintro (h | h | h)
      · exact .inl (.inr h)
      · exact .inl (.inl h)
      · exact .inr h
    · rintro ((h | h) | h)
      · exact .inr (.inl h)
      · exact .inl h
      · exact .inr (.inr h)

/-- The set of a list has the texts of the list. -/
@[simp] theorem mem_ofList {keys : List String} {k : String} : k ∈ ofList keys ↔ k ∈ keys := by
  rw [ofList, mem_foldl_insert]
  exact ⟨fun h => h.resolve_right (by simp [empty, mem_def]), .inl⟩

end KeySet

end LockPrune
