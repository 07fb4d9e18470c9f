/-!
# Catalogs

A catalog gives values to texts and keeps the order in which the texts came.  A text that
comes again keeps its place and takes the new value.

## Main definitions

* `Catalog` — the pairs, with no text twice.
* `Catalog.put`, `Catalog.erase` — gives a value to a text, and takes it away.
* `Catalog.get?`, `Catalog.keys` — the value of a text, and the texts in order.
-/

namespace LockPrune

/-- Values given to texts, in the order in which the texts came. -/
structure Catalog (α : Type) where
  pairs : List (String × α)
  distinct : (pairs.map Prod.fst).Nodup

namespace Catalog

variable {α : Type}

/-- No text has a value. -/
def empty : Catalog α :=
  ⟨[], List.nodup_nil⟩

/-- The texts, in order. -/
def keys (c : Catalog α) : List String :=
  c.pairs.map Prod.fst

/-- The value of a text. -/
def get? (c : Catalog α) (key : String) : Option α :=
  c.pairs.lookup key

/-- The number of texts. -/
def size (c : Catalog α) : Nat :=
  c.pairs.length

/-! ## Giving a value -/

/-- The pairs with a value given to a text: in its place, or behind all others. -/
def putPairs (key : String) (value : α) : List (String × α) → List (String × α)
  | [] => [(key, value)]
  | (k, v) :: rest => if k = key then (k, value) :: rest else (k, v) :: putPairs key value rest

/-- Giving a value adds no text but the one it is given to. -/
theorem mem_keys_putPairs {key k : String} {value : α} {pairs : List (String × α)} :
    k ∈ (putPairs key value pairs).map Prod.fst ↔ k = key ∨ k ∈ pairs.map Prod.fst := by
  induction pairs with
  | nil => simp [putPairs]
  | cons p rest ih =>
    obtain ⟨k', v⟩ := p
    by_cases h : k' = key
    · subst h
      simp [putPairs]
    · simp only [putPairs, h, if_false, List.map_cons, List.mem_cons, ih]
      constructor
      · rintro (h | h | h)
        · exact .inr (.inl h)
        · exact .inl h
        · exact .inr (.inr h)
      · rintro (h | h | h)
        · exact .inr (.inl h)
        · exact .inl h
        · exact .inr (.inr h)

/-- Giving a value keeps the texts distinct. -/
theorem nodup_putPairs {key : String} {value : α} {pairs : List (String × α)}
    (h : (pairs.map Prod.fst).Nodup) : ((putPairs key value pairs).map Prod.fst).Nodup := by
  induction pairs with
  | nil => simp [putPairs]
  | cons p rest ih =>
    obtain ⟨k, v⟩ := p
    simp only [List.map_cons, List.nodup_cons] at h
    by_cases hk : k = key
    · simp only [putPairs, hk, if_true, List.map_cons, List.nodup_cons]
      exact ⟨hk ▸ h.1, h.2⟩
    · simp only [putPairs, hk, if_false, List.map_cons, List.nodup_cons]
      refine ⟨fun hmem => ?_, ih h.2⟩
      rcases mem_keys_putPairs.1 hmem with rfl | hmem
      · exact hk rfl
      · exact h.1 hmem

/-- Gives a value to a text. -/
def put (c : Catalog α) (key : String) (value : α) : Catalog α :=
  ⟨putPairs key value c.pairs, nodup_putPairs c.distinct⟩

/-- The texts after a value was given. -/
theorem mem_keys_put {c : Catalog α} {key k : String} {value : α} :
    k ∈ (c.put key value).keys ↔ k = key ∨ k ∈ c.keys :=
  mem_keys_putPairs

/-- Gives values to texts, one after the other. -/
def ofList (pairs : List (String × α)) : Catalog α :=
  pairs.foldl (fun c p => c.put p.1 p.2) empty

/-! ## The value of a text -/

/-- The first pair for a text counts. -/
theorem lookup_cons_eq_ite {key k : String} {value : α} {rest : List (String × α)} :
    ((k, value) :: rest).lookup key = if key = k then some value else rest.lookup key := by
  rw [List.lookup_cons]
  by_cases h : key = k
  · simp [h]
  · have hbeq : (key == k) = false := by simpa using h
    simp [h, hbeq]

theorem get?_eq_some_iff {c : Catalog α} {key : String} {value : α} :
    c.get? key = some value ↔ (key, value) ∈ c.pairs := by
  obtain ⟨pairs, distinct⟩ := c
  simp only [get?]
  induction pairs with
  | nil => simp
  | cons p rest ih =>
    obtain ⟨k, v⟩ := p
    simp only [List.map_cons, List.nodup_cons] at distinct
    rw [lookup_cons_eq_ite]
    by_cases hk : key = k
    · subst hk
      have hnot : (key, value) ∉ rest := fun hmem => distinct.1 (List.mem_map_of_mem hmem)
      simp [hnot, eq_comm]
    · simp [hk, ih distinct.2]

/-- A text has a value exactly if it is one of the texts. -/
theorem isSome_get?_iff {c : Catalog α} {key : String} :
    (c.get? key).isSome = true ↔ key ∈ c.keys := by
  rw [Option.isSome_iff_exists, keys, List.mem_map]
  constructor
  · rintro ⟨value, h⟩
    exact ⟨(key, value), get?_eq_some_iff.1 h, rfl⟩
  · rintro ⟨⟨k, value⟩, hmem, rfl⟩
    exact ⟨value, get?_eq_some_iff.2 hmem⟩

/-- A text with a value is one of the texts. -/
theorem mem_keys_of_get? {c : Catalog α} {key : String} {value : α}
    (h : c.get? key = some value) : key ∈ c.keys :=
  isSome_get?_iff.1 (by simp [h])

/-- Giving a value changes the value of the one text it is given to. -/
theorem get?_put {c : Catalog α} {key k : String} {value : α} :
    (c.put key value).get? k = if k = key then some value else c.get? k := by
  have lookup_putPairs : ∀ pairs : List (String × α),
      (putPairs key value pairs).lookup k = if k = key then some value else pairs.lookup k := by
    intro pairs
    induction pairs with
    | nil => simp [putPairs, lookup_cons_eq_ite]
    | cons p rest ih =>
      obtain ⟨k', v⟩ := p
      by_cases hk' : k' = key
      · subst hk'
        by_cases hk : k = k' <;> simp [putPairs, lookup_cons_eq_ite, hk]
      · by_cases hk : k = k'
        · subst hk
          simp [putPairs, hk']
        · simp [putPairs, lookup_cons_eq_ite, hk', hk, ih]
  exact lookup_putPairs c.pairs

/-- Of the values that a list gives to a text the last counts. -/
theorem get?_ofList {pairs : List (String × α)} {key : String} :
    (ofList pairs).get? key = pairs.reverse.lookup key := by
  have get?_foldl : ∀ (pairs : List (String × α)) (c : Catalog α),
      (pairs.foldl (fun c p => c.put p.1 p.2) c).get? key =
        (pairs.reverse.lookup key).or (c.get? key) := by
    intro pairs
    induction pairs with
    | nil => simp
    | cons p rest ih =>
      intro c
      obtain ⟨k, v⟩ := p
      rw [List.foldl_cons, ih, get?_put, List.reverse_cons, List.lookup_append,
        lookup_cons_eq_ite]
      by_cases hk : key = k <;> simp [hk]
  rw [ofList, get?_foldl]
  simp [empty, get?]

/-- Takes the value of a text away. -/
def erase (c : Catalog α) (key : String) : Catalog α :=
  ⟨c.pairs.filter fun p => p.1 ≠ key, c.distinct.sublist (List.filter_sublist.map Prod.fst)⟩

/-- The texts after a value was taken away. -/
theorem mem_keys_erase {c : Catalog α} {key k : String} :
    k ∈ (c.erase key).keys ↔ k ≠ key ∧ k ∈ c.keys := by
  simp only [erase, keys, List.mem_map, List.mem_filter, decide_eq_true_eq]
  constructor
  · rintro ⟨p, ⟨hmem, hne⟩, rfl⟩
    exact ⟨hne, p, hmem, rfl⟩
  · rintro ⟨hne, p, hmem, rfl⟩
    exact ⟨p, ⟨hmem, hne⟩, rfl⟩

/-- A value for every text, made from the value it has. -/
def mapValues {β : Type} (f : α → β) (c : Catalog α) : Catalog β :=
  ⟨c.pairs.map fun p => (p.1, f p.2), by simpa [Function.comp_def] using c.distinct⟩

end Catalog

end LockPrune
