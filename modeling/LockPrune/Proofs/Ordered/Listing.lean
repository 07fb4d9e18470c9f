import LockPrune.Ordered.Catalog
import LockPrune.Ordered.KeySet
import LockPrune.Ordered.Table
import Mathlib.Data.List.Forall2
import Mathlib.Data.List.Induction
import Mathlib.Data.List.Sort

/-!
# Catalogs, tables and sets as lists

A catalog is known by its texts in order and their values, and a set by its texts.  A table of
values for texts that all differ holds what was given, sorted.

## Main definitions

* `Catalog.PairRel` — two values for one text are related.

## Main statements

* `Catalog.pairs_ofList` — values for texts that all differ stand as they were given.
* `Catalog.keys_ofList` — texts that come again keep their first place.
* `Catalog.get?_ofList_eq_some_iff` — of values that come in increasing order a text has the
  greatest of its own.
* `Catalog.mapValues_ofList`, `Catalog.forall₂_ofList` — values made from, and related to, those
  that are given.
* `Catalog.ext_of_pairs`, `KeySet.ext_of_mem` — when two catalogs, or two sets, are one.
* `Catalog.put_put`, `Catalog.erase_put` — what is put for a text is all there is of it.
* `Table.perm_ofList` — values for texts that all differ are those that were given.
-/

namespace LockPrune

namespace Catalog

variable {α : Type}

/-- A text that is new goes behind all others. -/
theorem putPairs_of_not_mem {key : String} {value : α} {pairs : List (String × α)}
    (h : key ∉ pairs.map Prod.fst) : putPairs key value pairs = pairs ++ [(key, value)] := by
  induction pairs with
  | nil => rfl
  | cons p rest ih =>
    obtain ⟨k, v⟩ := p
    rw [List.map_cons, List.mem_cons, not_or] at h
    rw [putPairs, if_neg (Ne.symm h.1), ih h.2, List.cons_append]

/-- Values for texts that all differ stand as they were given. -/
theorem pairs_ofList {pairs : List (String × α)} (h : (pairs.map Prod.fst).Nodup) :
    (ofList pairs).pairs = pairs := by
  have pairs_foldl : ∀ (pairs : List (String × α)) (c : Catalog α),
      ((c.pairs ++ pairs).map Prod.fst).Nodup →
        (pairs.foldl (fun c p => c.put p.1 p.2) c).pairs = c.pairs ++ pairs := by
    intro pairs
    induction pairs with
    | nil => simp
    | cons p rest ih =>
      intro c hnodup
      have hput : (c.put p.1 p.2).pairs = c.pairs ++ [p] := by
        refine putPairs_of_not_mem fun hmem => ?_
        rw [List.map_append, List.map_cons] at hnodup
        exact (List.nodup_append.1 hnodup).2.2 _ hmem _ List.mem_cons_self rfl
      rw [List.foldl_cons, ih _ (by rwa [hput, List.append_assoc]), hput, List.append_assoc]
      rfl
  exact pairs_foldl pairs empty h

theorem ext_of_pairs {c d : Catalog α} (h : c.pairs = d.pairs) : c = d := by
  obtain ⟨_, _⟩ := c
  obtain ⟨_, _⟩ := d
  subst h
  rfl

/-- Of two values that are given to a text the first is lost. -/
theorem put_put (c : Catalog α) (key : String) (value value' : α) :
    (c.put key value).put key value' = c.put key value' := by
  have putPairs_putPairs : ∀ pairs : List (String × α),
      putPairs key value' (putPairs key value pairs) = putPairs key value' pairs := by
    intro pairs
    induction pairs with
    | nil => simp [putPairs]
    | cons p rest ih =>
      obtain ⟨k, v⟩ := p
      by_cases hk : k = key
      · simp [putPairs, hk]
      · simpa [putPairs, hk] using ih
  exact ext_of_pairs (putPairs_putPairs c.pairs)

/-- Of a value that was given and taken away nothing is left. -/
theorem erase_put (c : Catalog α) (key : String) (value : α) :
    (c.put key value).erase key = c.erase key := by
  have filter_putPairs : ∀ pairs : List (String × α),
      ((putPairs key value pairs).filter fun p => p.1 ≠ key) = pairs.filter fun p => p.1 ≠ key := by
    intro pairs
    induction pairs with
    | nil => simp [putPairs]
    | cons p rest ih =>
      obtain ⟨k, v⟩ := p
      by_cases hk : k = key
      · simp [putPairs, hk]
      · simpa [putPairs, hk] using ih
  exact ext_of_pairs (filter_putPairs c.pairs)

theorem erase_of_not_mem {c : Catalog α} {key : String} (h : key ∉ c.keys) : c.erase key = c := by
  apply ext_of_pairs
  rw [erase, List.filter_eq_self]
  intro p hp
  rw [decide_eq_true_iff]
  rintro rfl
  exact h (List.mem_map_of_mem hp)

/-! ## Values given one after the other -/

theorem ofList_concat (pairs : List (String × α)) (p : String × α) :
    ofList (pairs ++ [p]) = (ofList pairs).put p.1 p.2 := by
  rw [ofList, List.foldl_append, List.foldl_cons, List.foldl_nil, ofList]

/-- Nothing is in a catalog but what was given. -/
theorem mem_of_mem_ofList {pairs : List (String × α)} {p : String × α}
    (h : p ∈ (ofList pairs).pairs) : p ∈ pairs := by
  have hlookup := get?_ofList.symm.trans (get?_eq_some_iff.2 h)
  obtain ⟨before, after, hpairs, -⟩ := List.lookup_eq_some_iff.1 hlookup
  rw [← List.mem_reverse, hpairs]
  simp

/-- A text that has a value keeps its place. -/
theorem map_fst_putPairs_of_mem {key : String} {value : α} {pairs : List (String × α)}
    (h : key ∈ pairs.map Prod.fst) :
    (putPairs key value pairs).map Prod.fst = pairs.map Prod.fst := by
  induction pairs with
  | nil => cases h
  | cons p rest ih =>
    obtain ⟨k, v⟩ := p
    by_cases hk : k = key
    · simp [putPairs, hk]
    · have hrest : key ∈ rest.map Prod.fst := by simpa [Ne.symm hk] using h
      simp [putPairs, hk, ih hrest]

theorem keys_put {c : Catalog α} {key : String} {value : α} :
    (c.put key value).keys = if key ∈ c.keys then c.keys else c.keys ++ [key] := by
  change (putPairs key value c.pairs).map Prod.fst = _
  split
  · rename_i hold
    exact map_fst_putPairs_of_mem hold
  · rename_i hnew
    rw [putPairs_of_not_mem hnew, List.map_append, List.map_singleton, keys]

/-- The texts stand in the order in which they first come. -/
theorem keys_ofList (pairs : List (String × α)) :
    (ofList pairs).keys = (pairs.map Prod.fst).eraseDups := by
  induction pairs using List.reverseRecOn with
  | nil => rfl
  | append_singleton pairs p ih =>
    have hmem : p.1 ∈ (ofList pairs).keys ↔ p.1 ∈ pairs.map Prod.fst := by
      rw [ih, List.mem_eraseDups]
    rw [ofList_concat, keys_put, List.map_append, List.map_singleton, List.eraseDups_append,
      List.removeAll, ← ih]
    by_cases hold : p.1 ∈ pairs.map Prod.fst
    · rw [if_pos (hmem.2 hold)]
      simp [hold]
    · rw [if_neg (mt hmem.1 hold)]
      simp [hold, List.eraseDups_cons]

/-- Where the values come in increasing order, a text has the greatest of those given to it. -/
theorem get?_ofList_eq_some_iff [LinearOrder α] {pairs : List (String × α)} {key : String}
    {value : α} (h : pairs.Pairwise fun p q => p.2 ≤ q.2) :
    (ofList pairs).get? key = some value ↔
      (key, value) ∈ pairs ∧ ∀ v, (key, v) ∈ pairs → v ≤ value := by
  induction pairs using List.reverseRecOn with
  | nil => simp [ofList, empty, get?]
  | append_singleton pairs p ih =>
    obtain ⟨k, last⟩ := p
    obtain ⟨hpairs, -, hlast⟩ := List.pairwise_append.1 h
    rw [ofList_concat, get?_put]
    by_cases hk : key = k
    · -- the last value was given to the text, and none is greater
      subst hk
      have hle : ∀ v, (key, v) ∈ pairs ++ [(key, last)] → v ≤ last := by
        intro v hv
        rcases List.mem_append.1 hv with hv | hv
        · exact hlast _ hv _ (List.mem_singleton_self _)
        · obtain rfl : v = last := by simpa using hv
          exact le_rfl
      have hmem : (key, last) ∈ pairs ++ [(key, last)] := List.mem_append_right _ (by simp)
      rw [if_pos rfl, Option.some.injEq]
      constructor
      · rintro rfl
        exact ⟨hmem, hle⟩
      · rintro ⟨hvalue, hgreatest⟩
        exact le_antisymm (hgreatest _ hmem) (hle _ hvalue)
    · rw [if_neg hk, ih hpairs]
      simp [hk]

/-- In a list that gives one value to many texts each of them has it. -/
theorem lookup_map_const (keys : List String) (value : α) (key : String) :
    (keys.map fun key => (key, value)).lookup key = if key ∈ keys then some value else none := by
  induction keys with
  | nil => rfl
  | cons k ks ih =>
    rw [List.map_cons, lookup_cons_eq_ite, ih]
    by_cases hk : key = k <;> simp [hk]

/-- Values made from those that are given, one by one or when all are given. -/
theorem mapValues_ofList {β : Type} (f : α → β) (pairs : List (String × α)) :
    (ofList pairs).mapValues f = ofList (pairs.map fun p => (p.1, f p.2)) := by
  have map_putPairs : ∀ key value (pairs : List (String × α)),
      (putPairs key value pairs).map (fun p => (p.1, f p.2)) =
        putPairs key (f value) (pairs.map fun p => (p.1, f p.2)) := by
    intro key value pairs
    induction pairs with
    | nil => rfl
    | cons p rest ih =>
      obtain ⟨k, v⟩ := p
      by_cases hk : k = key <;> simp [putPairs, hk, ih]
  have mapValues_put : ∀ (c : Catalog α) key value,
      (c.put key value).mapValues f = (c.mapValues f).put key (f value) :=
    fun c key value => ext_of_pairs (map_putPairs key value c.pairs)
  induction pairs using List.reverseRecOn with
  | nil => rfl
  | append_singleton pairs p ih =>
    rw [ofList_concat, mapValues_put, ih, List.map_append, List.map_singleton, ofList_concat]

/-- The pairs are for one text, and their values are related. -/
def PairRel {β : Type} (r : α → β → Prop) (p : String × α) (q : String × β) : Prop :=
  p.1 = q.1 ∧ r p.2 q.2

/-- Values that are given to the same texts in the same order are related when all are given. -/
theorem forall₂_ofList {β : Type} {r : α → β → Prop} {xs : List (String × α)}
    {ys : List (String × β)} (h : List.Forall₂ (PairRel r) xs ys) :
    List.Forall₂ (PairRel r) (ofList xs).pairs (ofList ys).pairs := by
  have hput : ∀ {xs ys} {key : String} {x : α} {y : β}, r x y → List.Forall₂ (PairRel r) xs ys →
      List.Forall₂ (PairRel r) (putPairs key x xs) (putPairs key y ys) := by
    intro xs ys key x y hxy h
    induction h with
    | nil => exact .cons ⟨rfl, hxy⟩ .nil
    | @cons p q xs ys hpq hrest ih =>
      obtain ⟨k, v⟩ := p
      obtain ⟨k', v'⟩ := q
      obtain ⟨rfl, hv⟩ := hpq
      by_cases hk : k = key
      · simpa [putPairs, hk] using ⟨⟨rfl, hxy⟩, hrest⟩
      · simpa [putPairs, hk] using ⟨⟨rfl, hv⟩, ih⟩
  refine List.rel_foldl
    (P := fun (c : Catalog α) (d : Catalog β) => List.Forall₂ (PairRel r) c.pairs d.pairs) ?_ .nil h
  rintro c d hcd ⟨key, x⟩ ⟨key', y⟩ ⟨rfl, hxy⟩
  exact hput hxy hcd

end Catalog

namespace Table

variable {α : Type} {pairs : List (String × α)}

/-- A text that is new goes between the others. -/
theorem perm_putPairs {key : String} {value : α} (h : key ∉ pairs.map Prod.fst) :
    (putPairs key value pairs).Perm ((key, value) :: pairs) := by
  induction pairs with
  | nil => exact List.Perm.refl _
  | cons p rest ih =>
    obtain ⟨k, v⟩ := p
    rw [List.map_cons, List.mem_cons, not_or] at h
    rw [putPairs]
    split_ifs with hlt heq
    · exact List.Perm.refl _
    · exact absurd heq h.1
    · exact ((ih h.2).cons (k, v)).trans (List.Perm.swap _ _ _)

theorem ofList_concat (pairs : List (String × α)) (p : String × α) :
    ofList (pairs ++ [p]) = (ofList pairs).put p.1 p.2 := by
  rw [ofList, List.foldl_append]
  rfl

/-- Nothing is in a table but what was given. -/
theorem mem_of_mem_ofList {p : String × α} (h : p ∈ (ofList pairs).pairs) : p ∈ pairs := by
  induction pairs using List.reverseRecOn with
  | nil => cases h
  | append_singleton pairs q ih =>
    rw [ofList_concat] at h
    rcases mem_putPairs h with rfl | h
    · exact List.mem_append_right pairs (List.mem_singleton_self _)
    · exact List.mem_append_left _ (ih h)

/-- Values for texts that all differ are those that were given. -/
theorem perm_ofList (h : (pairs.map Prod.fst).Nodup) : (ofList pairs).pairs.Perm pairs := by
  induction pairs using List.reverseRecOn with
  | nil => exact List.Perm.refl _
  | append_singleton pairs p ih =>
    rw [List.map_append, List.nodup_append] at h
    obtain ⟨hpairs, -, hnew⟩ := h
    have hperm := ih hpairs
    have hkey : p.1 ∉ (ofList pairs).pairs.map Prod.fst := by
      intro hmem
      exact hnew _ ((hperm.map Prod.fst).mem_iff.1 hmem) _ List.mem_cons_self rfl
    rw [ofList_concat]
    exact ((perm_putPairs hkey).trans (hperm.cons p)).trans
      (List.perm_append_singleton p pairs).symm

end Table

namespace KeySet

theorem ext_of_toList {s t : KeySet} (h : s.toList = t.toList) : s = t := by
  obtain ⟨_, _⟩ := s
  obtain ⟨_, _⟩ := t
  subst h
  rfl

/-- Sets with the same texts are one. -/
theorem ext_of_mem {s t : KeySet} (h : ∀ key, key ∈ s ↔ key ∈ t) : s = t :=
  ext_of_toList (s.ascending.eq_of_mem_iff t.ascending h)

end KeySet

end LockPrune
