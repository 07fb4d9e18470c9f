import LockPrune.Proofs.Ordered.Related
import LockPrune.Proofs.Yaml.NumberReading
import LockPrune.Proofs.Yaml.ReadValue

/-!
# What a document can hold

The values that are read from documents: their numbers are of limited size, no two keys of a
mapping are equal, and their collections nest no deeper than is allowed.

## Main definitions

* `Value.IsHeld` — the values that a document can hold.

## Main statements

* `Meaning.isBounded_of_ofScalar` — the numbers that scalars mean.
* `Document.isHeld_of_value` — what is read is a value that a document can hold.
-/

namespace LockPrune.Yaml

/-! ## Meanings -/

namespace Meaning

/-- The numbers among the meanings are those that a plain scalar can mean. -/
def IsBounded : Meaning → Prop
  | .integer i => (Number.integer i).IsMeant
  | .float x => (Number.float x).IsMeant
  | _ => True

theorem isBounded_of_ofInteger? {i : Int} {m : Meaning} (h : ofInteger? i = some m) :
    m.IsBounded := by
  rw [ofInteger?] at h
  split_ifs at h with hrange
  · cases h
    exact hrange
  · cases h
    trivial

theorem isCanonical_of_float? {s : List Char} {x : Binary64} (h : float? s = some x) :
    x.IsCanonical := by
  simp only [float?] at h
  split_ifs at h
  · cases h
    trivial
  · cases h
    trivial
  · cases h
    trivial
  · rw [finiteFloat?, Option.bind_eq_bind, Option.bind_eq_some_iff] at h
    obtain ⟨⟨n, e⟩, -, h⟩ := h
    simp only at h
    split_ifs at h
    cases h
    exact Binary64.isCanonical_ofDecimal _ _ _

theorem isBounded_of_number? {s : List Char} {m : Meaning} (h : number? s = some m) :
    m.IsBounded := by
  rw [number?] at h
  split at h
  · rename_i m' hm
    cases h
    obtain ⟨i, -, hi⟩ := Option.bind_eq_some_iff.1 hm
    exact isBounded_of_ofInteger? hi
  · split_ifs at h
    obtain ⟨x, hx, rfl⟩ := Option.map_eq_some_iff.1 h
    exact isCanonical_of_float? hx

theorem isBounded_ofPlain (s : String) : (ofPlain s).IsBounded := by
  rw [ofPlain]
  split
  · trivial
  · split
    · trivial
    · cases hn : number? s.toList with
      | none => trivial
      | some m => exact isBounded_of_number? hn

theorem isBounded_of_ofScalar {tag : Option Tag} {style : Style} {s : String} {m : Meaning}
    (h : ofScalar tag style s = .ok m) : m.IsBounded := by
  cases tag with
  | none =>
    rw [ofScalar] at h
    cases h
    split
    · exact isBounded_ofPlain s
    · trivial
  | some t =>
    rw [ofScalar] at h
    split_ifs at h
    · cases hb : bool? s with
      | none => rw [hb] at h; cases h
      | some b =>
        rw [hb] at h
        cases h
        trivial
    · cases hi : (integer? s.toList).bind ofInteger? with
      | none => rw [hi] at h; cases h
      | some m' =>
        rw [hi] at h
        cases h
        obtain ⟨i, -, hi⟩ := Option.bind_eq_some_iff.1 hi
        exact isBounded_of_ofInteger? hi
    · cases hx : float? s.toList with
      | none => rw [hx] at h; cases h
      | some x =>
        rw [hx] at h
        cases h
        exact isCanonical_of_float? hx
    · cases h
      trivial
    · cases h
      exact isBounded_ofPlain s
    · cases h
      trivial

end Meaning

/-! ## Values -/

namespace Value

/-- A value that a document can hold inside fewer collections than the bound by a depth. -/
inductive IsHeld : Nat → Value → Prop
  | null {depth : Nat} : IsHeld depth .null
  | bool {depth : Nat} {b : Bool} : IsHeld depth (.bool b)
  | number {depth : Nat} {n : Number} (h : n.IsMeant) : IsHeld depth (.number n)
  | string {depth : Nat} {s : String} : IsHeld depth (.string s)
  | sequence {depth : Nat} {items : List Value} (h : ∀ v ∈ items, IsHeld depth v) :
    IsHeld (depth + 1) (.sequence items)
  | mapping {depth : Nat} {entries : List (Value × Value)}
    (distinct : entries.Pairwise fun a b => a.1.same b.1 = false)
    (hkey : ∀ e ∈ entries, IsHeld depth e.1) (hvalue : ∀ e ∈ entries, IsHeld depth e.2) :
    IsHeld (depth + 1) (.mapping entries)
  | tagged {depth : Nat} {name : String} {v : Value} (hname : name ≠ "") (h : IsHeld depth v) :
    IsHeld depth (.tagged name v)

end Value

namespace Document

variable {d : Document} {depth : Nat} {path : Path} {k : Nat}

/-- The value of a meaning that is given by an integer or a float of limited size. -/
theorem isHeld_of_valueOf {m : Meaning} (hm : m.IsBounded) {v : Value} {k' : Nat}
    (h : valueOf m k = .ok (v, k')) : v.IsHeld depth := by
  cases m with
  | null =>
    obtain ⟨rfl, -⟩ := Prod.mk.inj (Reading.pure_eq_ok_iff.1 h)
    exact .null
  | bool b =>
    obtain ⟨rfl, -⟩ := Prod.mk.inj (Reading.pure_eq_ok_iff.1 h)
    exact .bool
  | integer i =>
    obtain ⟨rfl, -⟩ := Prod.mk.inj (Reading.pure_eq_ok_iff.1 h)
    exact .number hm
  | wide i => exact absurd h (Reading.fail_ne_ok (k := k))
  | float x =>
    obtain ⟨rfl, -⟩ := Prod.mk.inj (Reading.pure_eq_ok_iff.1 h)
    exact .number hm
  | text s =>
    obtain ⟨rfl, -⟩ := Prod.mk.inj (Reading.pure_eq_ok_iff.1 h)
    exact .string

theorem isHeld_of_scalarValue {tag : Option Tag} {style : Style} {text : String} {v : Value}
    {k' : Nat} (h : scalarValue tag style text k = .ok (v, k')) : v.IsHeld depth := by
  rw [scalarValue] at h
  cases hm : Meaning.ofScalar tag style text with
  | ok m =>
    rw [hm] at h
    exact isHeld_of_valueOf (Meaning.isBounded_of_ofScalar hm) h
  | error what =>
    rw [hm] at h
    exact absurd h Reading.fail_ne_ok

theorem fromUTF8?_ne_empty {octets : List UInt8} (hne : octets ≠ []) {s : String}
    (h : String.fromUTF8? ⟨octets.toArray⟩ = some s) : s ≠ "" := by
  rintro rfl
  rw [String.fromUTF8?] at h
  split at h
  · have hdata : octets.toArray = #[] :=
      congrArg (fun s => (String.toByteArray s).data) (Option.some.inj h)
    exact hne (by simpa using hdata)
  · cases h

/-- The name of a tag is not empty. -/
theorem localName_ne_empty {tag : Option Tag} {name : String} (h : localName tag = some name) :
    name ≠ "" := by
  rw [localName, Option.map_eq_some_iff] at h
  obtain ⟨inner, hinner, rfl⟩ := h
  obtain ⟨t, -, hlocal⟩ := Option.bind_eq_some_iff.1 hinner
  have hne : inner ≠ "" := by
    rw [Tag.local?] at hlocal
    split at hlocal
    · refine fromUTF8?_ne_empty ?_ hlocal
      split
      · simp
      · rename_i hrest
        simpa using hrest
    · cases hlocal
  split
  · simp
  · exact hne

theorem isHeld_keepTag {tag : Option Tag} {v : Value} (h : v.IsHeld depth) :
    (keepTag tag v).IsHeld depth := by
  rw [keepTag]
  split
  · rename_i name hname
    exact .tagged (localName_ne_empty hname) h
  · exact h

theorem isHeld_of_ownValue {tag : Option Tag} {style : Style} {text : String} {v : Value}
    {k' : Nat} (h : ownValue tag style text k = .ok (v, k')) : v.IsHeld depth := by
  rw [ownValue] at h
  cases hname : localName tag with
  | some name =>
    rw [hname] at h
    obtain ⟨inner, k'', hinner, heq⟩ := Reading.map_eq_ok_iff.1 h
    obtain ⟨rfl, -⟩ := Prod.mk.inj heq
    exact .tagged (localName_ne_empty hname) (isHeld_of_scalarValue hinner)
  | none =>
    rw [hname] at h
    exact isHeld_of_scalarValue h

/-- What is read is a value that a document can hold. -/
theorem isHeld_of_value {n : Node} {v : Value} {k' : Nat}
    (h : d.value depth path n k = .ok (v, k')) : v.IsHeld depth := by
  refine value_induction (P := fun depth _ v => v.IsHeld depth) ?scalar ?sequence ?mapping ?void
    ⟨path, k, k', h⟩
  case scalar => exact fun _ h => isHeld_of_ownValue h
  case sequence =>
    intro depth n mark anchor tag nodes vs _ hvs
    refine isHeld_keepTag (.sequence fun v hv => ?_)
    obtain ⟨_, -, hheld⟩ := exists_mem_left hvs hv
    exact hheld
  case mapping =>
    intro depth n mark anchor tag nodes es _ hdiffer hes
    refine isHeld_keepTag (.mapping hdiffer (fun e he => ?_) fun e he => ?_)
    · obtain ⟨_, -, hkey, -⟩ := exists_mem_left hes he
      exact hkey
    · obtain ⟨_, -, -, hvalue⟩ := exists_mem_left hes he
      exact hvalue
  case void => exact fun _ => .null

end Document

end LockPrune.Yaml
