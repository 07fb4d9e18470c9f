/-!
# Tables

A table gives values to texts and is sorted by the texts, in the order of their code
points.

## Main definitions

* `Table` — the pairs, in strictly increasing order of the texts.
* `Table.put` — gives a value to a text.
* `Table.ofList` — the table of a list of pairs, of which the last for a text counts.
-/

namespace LockPrune

/-- Values given to texts, sorted by the texts. -/
structure Table (α : Type) where
  pairs : List (String × α)
  ascending : pairs.Pairwise fun a b => a.1 < b.1

namespace Table

variable {α : Type}

/-- No text has a value. -/
def empty : Table α :=
  ⟨[], List.Pairwise.nil⟩

instance : Inhabited (Table α) := ⟨empty⟩

/-- No text has a value. -/
def isEmpty (t : Table α) : Bool :=
  t.pairs.isEmpty

/-- The value of a text. -/
def get? (t : Table α) (key : String) : Option α :=
  t.pairs.lookup key

/-! ## Giving a value -/

/-- The sorted pairs with a value given to a text. -/
def putPairs (key : String) (value : α) : List (String × α) → List (String × α)
  | [] => [(key, value)]
  | (k, v) :: rest =>
    if key < k then (key, value) :: (k, v) :: rest
    else if key = k then (key, value) :: rest
    else (k, v) :: putPairs key value rest

/-- Giving a value adds no pair but that of the text it is given to. -/
theorem mem_putPairs {key : String} {value : α} {p : String × α} {pairs : List (String × α)}
    (h : p ∈ putPairs key value pairs) : p = (key, value) ∨ p ∈ pairs := by
  induction pairs with
  | nil => simpa [putPairs] using h
  | cons q rest ih =>
    obtain ⟨k, v⟩ := q
    simp only [putPairs] at h
    split at h
    · simpa using h
    · split at h
      · rcases List.mem_cons.1 h with h | h
        · exact .inl h
        · exact .inr (List.mem_cons_of_mem _ h)
      · rcases List.mem_cons.1 h with h | h
        · exact .inr (h ▸ List.mem_cons_self)
        · rcases ih h with h | h
          · exact .inl h
          · exact .inr (List.mem_cons_of_mem _ h)

/-- Giving a value keeps the pairs sorted. -/
theorem ascending_putPairs {key : String} {value : α} {pairs : List (String × α)}
    (h : pairs.Pairwise fun a b => a.1 < b.1) :
    (putPairs key value pairs).Pairwise fun a b => a.1 < b.1 := by
  induction pairs with
  | nil => simp [putPairs]
  | cons q rest ih =>
    obtain ⟨k, v⟩ := q
    have hrest := (List.pairwise_cons.1 h).1
    simp only [putPairs]
    split
    · rename_i hlt
      refine List.Pairwise.cons (fun p hp => ?_) h
      rcases List.mem_cons.1 hp with rfl | hp
      · exact hlt
      · exact String.lt_trans hlt (hrest _ hp)
    · rename_i hlt
      split
      · rename_i heq
        subst heq
        exact List.Pairwise.cons (fun p hp => hrest _ hp) h.of_cons
      · rename_i hne
        refine List.Pairwise.cons (fun p hp => ?_) (ih h.of_cons)
        rcases mem_putPairs hp with rfl | hp
        · exact Std.lt_of_le_of_ne hlt (Ne.symm hne)
        · exact hrest _ hp

/-- Gives a value to a text. -/
def put (t : Table α) (key : String) (value : α) : Table α :=
  ⟨putPairs key value t.pairs, ascending_putPairs t.ascending⟩

/-- The table of a list of pairs, of which the last for a text counts. -/
def ofList (pairs : List (String × α)) : Table α :=
  pairs.foldl (fun t p => t.put p.1 p.2) empty

/-- The values of two tables; where both have one, that of the second. -/
def union (s t : Table α) : Table α :=
  t.pairs.foldl (fun s p => s.put p.1 p.2) s

/-- A value for every text, made from the value it has. -/
def mapValues {β : Type} (f : α → β) (t : Table α) : Table β :=
  ⟨t.pairs.map fun p => (p.1, f p.2), List.pairwise_map.2 t.ascending⟩

end Table

end LockPrune
