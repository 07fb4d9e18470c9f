import LockPrune.Lockfile.Document
import LockPrune.Proofs.Json.Grammar
import LockPrune.Proofs.Lockfile.FileReading

/-!
# What a lockfile is as JSON

A lockfile has a JSON document unless a mapping in one of its further fields has a key that names
no member: the missing value, a collection, a tagged value, or a double that is not finite.  The
first such key decides.  A document that there is has an entry for every key of the lockfile, and
its text is in the grammar of JSON.

## Main definitions

* `Yaml.Value.nameFault?` — why a value names no member.
* `Yaml.Value.memberKeys`, `Lockfile.memberKeys` — the keys of all mappings, in order.

## Main statements

* `Lockfile.of?_document` — the first key that names no member decides.
* `Lockfile.exists_members_of_document` — the members of a document.
* `Lockfile.isSound_of_document` — what was read from a file has digits for all doubles.
-/

namespace LockPrune

/-! ## Results -/

/-- The fault that there is in the place of a result. -/
def NameFault.of? {α : Type} : Except NameFault α → Option NameFault
  | .ok _ => none
  | .error fault => some fault

namespace NameFault

variable {α β : Type}

theorem of?_map (f : α → β) (x : Except NameFault α) : of? (x.map f) = of? x := by
  cases x <;> rfl

/-- A second result can be at fault only if the first is there. -/
theorem of?_bind {x : Except NameFault α} {f : α → Except NameFault β} {o : Option NameFault}
    (h : ∀ a, of? (f a) = o) : of? (x >>= f) = (of? x).or o := by
  cases x with
  | ok a => exact h a
  | error fault => rfl

/-- What is made of a result is at fault where the result is. -/
theorem of?_bind_pure (x : Except NameFault α) (f : α → β) :
    of? (x >>= fun a => pure (f a)) = of? x := by
  cases x <;> rfl

theorem of?_mapM (f : α → Except NameFault β) (xs : List α) :
    of? (xs.mapM f) = xs.findSome? fun x => of? (f x) := by
  induction xs with
  | nil => rfl
  | cons x xs ih =>
    have hrest : ∀ b, of? (xs.mapM f >>= fun bs => pure (b :: bs)) =
        xs.findSome? fun x => of? (f x) := fun b => (of?_bind_pure _ _).trans ih
    rw [List.mapM_cons, of?_bind hrest, List.findSome?_cons]
    cases of? (f x) <;> rfl

end NameFault

/-- What is found first in lists one after the other is found first in one of them. -/
theorem findSome?_flatMap {α β γ : Type} (f : α → List β) (g : β → Option γ) (xs : List α) :
    (xs.flatMap f).findSome? g = xs.findSome? fun x => (f x).findSome? g := by
  induction xs with
  | nil => rfl
  | cons x xs ih =>
    rw [List.flatMap_cons, List.findSome?_append, ih, List.findSome?_cons]
    cases (f x).findSome? g <;> rfl

namespace Yaml.Value

open NameFault

/-! ## Keys of mappings -/

/-- Why a value names no member, if it names none: texts, truth values and finite numbers do. -/
def nameFault? : Value → Option NameFault
  | .string _ | .bool _ | .number (.integer _) => none
  | .number (.float x) => if x.isFinite then none else some .notFinite
  | .null | .sequence _ | .mapping _ | .tagged _ _ => some .noText

mutual

/-- The keys of all mappings in a value, in order, a key in front of those in the value it has. -/
def memberKeys : Value → List Value
  | .sequence items => itemKeys items
  | .mapping entries => entryKeys entries
  | .tagged _ v => v.memberKeys
  | .null | .bool _ | .number _ | .string _ => []
termination_by structural v => v

/-- The keys of all mappings in the items of a sequence. -/
def itemKeys : List Value → List Value
  | [] => []
  | v :: vs => v.memberKeys ++ itemKeys vs
termination_by structural vs => vs

/-- The keys of a mapping and of all mappings in its values. -/
def entryKeys : List (Value × Value) → List Value
  | [] => []
  | (k, v) :: rest => k :: (v.memberKeys ++ entryKeys rest)
termination_by structural es => es

end

theorem of?_memberName (k : Value) : of? k.memberName = k.nameFault? := by
  cases k with
  | number n =>
    cases n with
    | integer i => rfl
    | float x =>
      rw [memberName, nameFault?]
      split <;> rfl
  | _ => rfl

mutual

/-- A value has a document unless a key in it names no member, and the first one decides. -/
theorem of?_document : ∀ v : Value, of? v.document = v.memberKeys.findSome? nameFault?
  | .null | .bool _ | .number _ | .string _ => rfl
  | .sequence items => by
    rw [document, of?_map, memberKeys]
    exact of?_itemDocuments items
  | .mapping entries => by
    rw [document, of?_map, memberKeys]
    exact of?_memberDocuments entries
  | .tagged tag v => by
    rw [document, of?_map, memberKeys]
    exact of?_document v
termination_by structural v => v

theorem of?_itemDocuments : ∀ items : List Value,
    of? (itemDocuments items) = (itemKeys items).findSome? nameFault?
  | [] => rfl
  | v :: vs => by
    have hrest : ∀ d, of? (itemDocuments vs >>= fun ds => pure (d :: ds)) =
        (itemKeys vs).findSome? nameFault? :=
      fun d => (of?_bind_pure _ _).trans (of?_itemDocuments vs)
    rw [itemDocuments, of?_bind hrest, of?_document v, itemKeys, List.findSome?_append]
termination_by structural items => items

theorem of?_memberDocuments : ∀ entries : List (Value × Value),
    of? (memberDocuments entries) = (entryKeys entries).findSome? nameFault?
  | [] => rfl
  | (k, v) :: rest => by
    have hrest : ∀ name d, of? (memberDocuments rest >>= fun ds => pure ((name, d) :: ds)) =
        (entryKeys rest).findSome? nameFault? :=
      fun name d => (of?_bind_pure _ _).trans (of?_memberDocuments rest)
    have hvalue : ∀ name, of? (do
        let d ← v.document
        let ds ← memberDocuments rest
        pure ((name, d) :: ds)) = (v.memberKeys ++ entryKeys rest).findSome? nameFault? := by
      intro name
      rw [of?_bind (hrest name), of?_document v, List.findSome?_append]
    rw [memberDocuments, of?_bind hvalue, of?_memberName, entryKeys, List.findSome?_cons]
    cases k.nameFault? <;> rfl
termination_by structural entries => entries

end

/-! ## Documents of values -/

theorem itemDocuments_eq_ok_iff {items : List Value} {ds : List Json.Value} :
    itemDocuments items = .ok ds ↔ List.Forall₂ (fun v d => v.document = .ok d) items ds := by
  induction items generalizing ds with
  | nil => simp [itemDocuments, eq_comm]
  | cons v vs ih =>
    rw [itemDocuments, List.forall₂_cons_left_iff]
    simp only [bind_eq_ok_iff, ih, pure, Except.pure, Except.ok.injEq]
    constructor
    · rintro ⟨d, hd, ds, hds, rfl⟩
      exact ⟨d, ds, hd, hds, rfl⟩
    · rintro ⟨d, ds, hd, hds, rfl⟩
      exact ⟨d, hd, ds, hds, rfl⟩

theorem memberDocuments_eq_ok_iff {entries : List (Value × Value)}
    {ms : List (String × Json.Value)} : memberDocuments entries = .ok ms ↔
      List.Forall₂ (fun e m => e.1.memberName = .ok m.1 ∧ e.2.document = .ok m.2) entries ms := by
  induction entries generalizing ms with
  | nil => simp [memberDocuments, eq_comm]
  | cons e es ih =>
    obtain ⟨k, v⟩ := e
    rw [memberDocuments, List.forall₂_cons_left_iff]
    simp only [bind_eq_ok_iff, ih, pure, Except.pure, Except.ok.injEq]
    constructor
    · rintro ⟨name, hname, d, hd, ms, hms, rfl⟩
      exact ⟨(name, d), ms, ⟨hname, hd⟩, hms, rfl⟩
    · rintro ⟨⟨name, d⟩, ms, ⟨hname, hd⟩, hms, rfl⟩
      exact ⟨name, hname, d, hd, ms, hms, rfl⟩

theorem isSound_ofTable {t : Table Json.Value} (h : ∀ p ∈ t.pairs, p.2.IsSound) :
    (Json.Value.ofTable t).IsSound :=
  .object h

theorem isSound_numberDocument {n : Number} (hn : n.IsMeant) : (numberDocument n).IsSound := by
  cases n with
  | integer i => exact .integer
  | float x =>
    rw [numberDocument]
    split
    · rename_i hfinite
      exact .float hn hfinite
    · exact .null

/-- The document of a value that a file can hold has digits for all doubles. -/
theorem isSound_of_document {depth : Nat} {v : Value} (hv : v.IsHeld depth) {d : Json.Value}
    (h : v.document = .ok d) : d.IsSound := by
  induction hv generalizing d with
  | null =>
    obtain rfl := Except.ok.inj h
    exact .null
  | bool =>
    obtain rfl := Except.ok.inj h
    exact .bool
  | number hn =>
    obtain rfl := Except.ok.inj h
    exact isSound_numberDocument hn
  | string =>
    obtain rfl := Except.ok.inj h
    exact .string
  | sequence hitems ih =>
    rw [document] at h
    obtain ⟨ds, hds, rfl⟩ := map_eq_ok_iff.1 h
    refine .array fun d hd => ?_
    obtain ⟨v, hv, hdoc⟩ := exists_mem_left (itemDocuments_eq_ok_iff.1 hds) hd
    exact ih v hv hdoc
  | mapping hdistinct hkey hvalue ihkey ihvalue =>
    rw [document] at h
    obtain ⟨ms, hms, rfl⟩ := map_eq_ok_iff.1 h
    refine isSound_ofTable fun m hm => ?_
    obtain ⟨e, he, -, hdoc⟩ :=
      exists_mem_left (memberDocuments_eq_ok_iff.1 hms) (Table.mem_of_mem_ofList hm)
    exact ihvalue e he hdoc
  | tagged hname hv ih =>
    rw [document] at h
    obtain ⟨d, hd, rfl⟩ := map_eq_ok_iff.1 h
    exact .object (List.forall_mem_singleton.2 (ih hd))

end Yaml.Value

/-! ## Documents of entries -/

namespace Entry

open NameFault

/-- The keys of all mappings in the further fields, in order. -/
def memberKeys (e : Entry) : List Yaml.Value :=
  e.extra.pairs.flatMap fun p => p.2.memberKeys

/-- An entry has a document unless a key in it names no member. -/
theorem of?_document (e : Entry) :
    of? e.document = e.memberKeys.findSome? Yaml.Value.nameFault? := by
  rw [document, of?_bind_pure, of?_mapM, memberKeys, findSome?_flatMap]
  simp only [of?_map, Yaml.Value.of?_document]

theorem isSound_textMember {f : Field} {s : String} :
    ∀ p ∈ textMember f s, p.2.IsSound := by
  intro p hp
  rw [textMember] at hp
  split at hp
  · cases hp
  · obtain rfl := List.mem_singleton.1 hp
    exact .string

theorem isSound_rangesMember {f : Field} {r : Ranges} :
    ∀ p ∈ rangesMember f r, p.2.IsSound := by
  intro p hp
  rw [rangesMember] at hp
  split at hp
  · cases hp
  · obtain rfl := List.mem_singleton.1 hp
    refine Yaml.Value.isSound_ofTable fun q hq => ?_
    obtain ⟨_, -, rfl⟩ := List.mem_map.1 hq
    exact .string

theorem isSound_of_document {depth : Nat} {e : Entry} (he : e.IsHeld depth) {d : Json.Value}
    (h : e.document = .ok d) : d.IsSound := by
  rw [document, bind_eq_ok_iff] at h
  obtain ⟨extra, hextra, h⟩ := h
  obtain rfl := Except.ok.inj h
  have hextra' : ∀ p ∈ extra, p.2.IsSound := by
    intro p hp
    obtain ⟨q, hq, hdoc⟩ := exists_mem_left (mapM_eq_ok_iff.1 hextra) hp
    obtain ⟨d, hd, rfl⟩ := map_eq_ok_iff.1 hdoc
    exact Yaml.Value.isSound_of_document (he.value q hq) hd
  refine Yaml.Value.isSound_ofTable fun p hp => ?_
  refine List.forall_mem_append.2 ⟨?_, isSound_textMember⟩ p (Table.mem_of_mem_ofList hp)
  simp only [List.cons_append, List.forall_mem_cons, List.forall_mem_append, and_assoc]
  exact ⟨.string, isSound_textMember, isSound_textMember, isSound_textMember, isSound_rangesMember,
    isSound_rangesMember, isSound_rangesMember, hextra', isSound_textMember, isSound_textMember,
    isSound_textMember⟩

end Entry

/-! ## Documents of lockfiles -/

namespace Lockfile

open NameFault

variable {l : Lockfile}

/-- The keys of all mappings in the further fields of the entries, in order. -/
def memberKeys (l : Lockfile) : List Yaml.Value :=
  l.entries.flatMap fun p => p.2.memberKeys

/-- A lockfile has a document unless a key in it names no member, and the first one decides. -/
theorem of?_document (l : Lockfile) :
    of? l.document = l.memberKeys.findSome? Yaml.Value.nameFault? := by
  rw [document, of?_bind_pure, of?_mapM, memberKeys, findSome?_flatMap]
  simp only [of?_map, Entry.of?_document]

/-- A document has two members, and that with the entries has a member for every key. -/
theorem exists_members_of_document {d : Json.Value} (h : l.document = .ok d) :
    ∃ members : List (String × Json.Value),
      d = .object [("entries", .object members), ("metadata", l.metadata.document)] ∧
      members.Pairwise (fun a b => a.1 < b.1) ∧ (members.map Prod.fst).Perm l.keys ∧
      ∀ m ∈ members, ∃ e, l.entry? m.1 = some e ∧ e.document = .ok m.2 := by
  rw [document, bind_eq_ok_iff] at h
  obtain ⟨entries, hentries, h⟩ := h
  have hall := mapM_eq_ok_iff.1 hentries
  have hkeys : entries.map Prod.fst = l.keys := by
    have heq : List.Forall₂ (fun a b => a = b) (l.entries.map Prod.fst) (entries.map Prod.fst) := by
      rw [List.forall₂_map_left_iff, List.forall₂_map_right_iff]
      refine hall.imp fun p q hdoc => ?_
      obtain ⟨d, -, rfl⟩ := map_eq_ok_iff.1 hdoc
      rfl
    rw [keys_eq_map_entries]
    exact (List.forall₂_eq_eq_eq ▸ heq).symm
  have hnodup : (entries.map Prod.fst).Nodup := hkeys ▸ l.directory.distinct
  refine ⟨(Table.ofList entries).pairs, ?_, (Table.ofList entries).ascending,
    hkeys ▸ (Table.perm_ofList hnodup).map Prod.fst, ?_⟩
  · have hsorted : ∀ a b : Json.Value,
        (Table.ofList [("metadata", a), ("entries", b)]).pairs =
          [("entries", b), ("metadata", a)] :=
      fun a b => if_pos (by decide : "entries" < "metadata")
    obtain rfl := Except.ok.inj h
    rw [Json.Value.ofTable, hsorted, Json.Value.ofTable]
  · intro m hm
    obtain ⟨p, hp, hdoc⟩ := exists_mem_left hall (Table.mem_of_mem_ofList hm)
    obtain ⟨d, hd, rfl⟩ := map_eq_ok_iff.1 hdoc
    exact ⟨p.2, entry?_eq_some_iff.2 hp, hd⟩

/-- What was read from a file has a document with digits for all doubles. -/
theorem isSound_of_document (hl : l.IsHeld) {d : Json.Value} (h : l.document = .ok d) :
    d.IsSound := by
  obtain ⟨members, rfl, -, -, hmembers⟩ := exists_members_of_document h
  have hentries : (Json.Value.object members).IsSound := by
    refine .object fun m hm => ?_
    obtain ⟨e, he, hdoc⟩ := hmembers m hm
    exact Entry.isSound_of_document (hl _ (entry?_eq_some_iff.1 he)) hdoc
  have hmetadata : l.metadata.document.IsSound := by
    refine Yaml.Value.isSound_ofTable fun p hp => ?_
    rcases List.mem_cons.1 (Table.mem_of_mem_ofList hp) with rfl | hp
    · exact .string
    · obtain rfl := List.mem_singleton.1 hp
      exact .string
  refine .object (List.forall_mem_cons.2 ⟨hentries, ?_⟩)
  exact List.forall_mem_singleton.2 hmetadata

end Lockfile

end LockPrune
