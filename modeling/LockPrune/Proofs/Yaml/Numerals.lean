import LockPrune.Proofs.Yaml.Plain
import LockPrune.Yaml.Value
import LockPrune.Yaml.Tree.Scalar

/-!
# The texts of numbers

The text of a number is a numeral: digits with a point and an exponent, or one of two words
behind a point, with a minus sign in front perhaps.  A numeral may stand without quotes.

## Main definitions

* `IsNumeral` — the texts that begin like a number and have no other characters than numbers
  have.

## Main statements

* `Number.isNumeral_text` — the text of a number is a numeral.
* `IsNumeral.plainAdmitted` — a numeral may stand without quotes.
-/

namespace LockPrune

namespace Yaml

open Scalar

/-! ## Numerals -/

/-- The marks and letters in the texts of numbers. -/
def numeralMarks : List Char := ['-', '.', 'e', 'i', 'n', 'f', 'a', 'N']

/-- A character in the text of a number. -/
def isNumeralChar (c : Char) : Bool :=
  c.isDigit || numeralMarks.contains c

/-- A numeral without a sign begins with a digit, or with a letter behind a point. -/
inductive IsUnsigned : List Char → Prop where
  | digit {d : Char} {s : List Char} (hd : d.isDigit = true)
      (hs : ∀ c ∈ s, isNumeralChar c = true) : IsUnsigned (d :: s)
  | word {a : Char} {s : List Char} (ha : a.isAlpha = true)
      (hs : ∀ c ∈ a :: s, isNumeralChar c = true) : IsUnsigned ('.' :: a :: s)

/-- A numeral: there may be a minus sign in front. -/
def IsNumeral (s : List Char) : Prop :=
  IsUnsigned s ∨ ∃ r, s = '-' :: r ∧ IsUnsigned r

theorem isNumeralChar_of_isDigit {c : Char} (h : c.isDigit = true) : isNumeralChar c = true := by
  rw [isNumeralChar, h, Bool.true_or]

theorem IsUnsigned.isNumeralChar {s : List Char} (h : IsUnsigned s) :
    ∀ c ∈ s, isNumeralChar c = true := by
  intro c hc
  cases h with
  | digit hd hs =>
    rcases List.mem_cons.1 hc with rfl | hc
    · exact isNumeralChar_of_isDigit hd
    · exact hs c hc
  | word ha hs =>
    rcases List.mem_cons.1 hc with rfl | hc
    · decide
    · exact hs c hc

theorem IsNumeral.isNumeralChar {s : List Char} (h : IsNumeral s) :
    ∀ c ∈ s, isNumeralChar c = true := by
  intro c hc
  rcases h with h | ⟨r, rfl, h⟩
  · exact h.isNumeralChar c hc
  · rcases List.mem_cons.1 hc with rfl | hc
    · decide
    · exact h.isNumeralChar c hc

theorem IsNumeral.ne_nil {s : List Char} (h : IsNumeral s) : s ≠ [] := by
  rcases h with h | ⟨r, rfl, -⟩
  · cases h <;> simp
  · simp

/-- The characters of numerals are none of those that mean something in YAML. -/
theorem isNumeralChar_cases {c : Char} (h : isNumeralChar c = true) :
    isPrintable c = true ∧ isBreak c = false ∧ isGap c = false ∧ c ≠ ':' ∧ c ≠ '#' ∧
      leadMarks.contains c = false := by
  rw [isNumeralChar, Bool.or_eq_true] at h
  rcases h with h | h
  · have hrange : 48 ≤ c.toNat ∧ c.toNat ≤ 57 := by
      simpa [Char.isDigit, Char.le_def, UInt32.le_iff_toNat_le] using h
    obtain ⟨n, hn, rfl⟩ : ∃ n, n < 10 ∧ c = Char.ofNat (48 + n) :=
      ⟨c.toNat - 48, by omega, by rw [Nat.add_sub_cancel' hrange.1, Char.ofNat_toNat]⟩
    clear h hrange
    revert n
    decide
  · have hall : ∀ c ∈ numeralMarks, isPrintable c = true ∧ isBreak c = false ∧ isGap c = false ∧
        c ≠ ':' ∧ c ≠ '#' ∧ leadMarks.contains c = false :=
      forall_mem_of_all (by decide)
    exact hall c (by simpa using h)

theorem IsUnsigned.exists_cons {s : List Char} (h : IsUnsigned s) :
    ∃ c r, s = c :: r ∧ c ≠ '-' ∧ c ≠ '?' ∧ atStop s = false ∧
      ['.', '.', '.'].isPrefixOf s = false := by
  cases h with
  | @digit d s hd hs =>
    have hd' := isNumeralChar_cases (isNumeralChar_of_isDigit hd)
    refine ⟨d, s, rfl, ?_, ?_, by simp [atStop, hd'], ?_⟩
    · rintro rfl
      exact absurd hd (by decide)
    · rintro rfl
      exact absurd hd (by decide)
    · have hne : '.' ≠ d := by
        rintro rfl
        exact absurd hd (by decide)
      simp [List.isPrefixOf, hne]
  | @word a s ha hs =>
    have hne : '.' ≠ a := by
      rintro rfl
      exact absurd ha (by decide)
    exact ⟨'.', a :: s, rfl, by decide, by decide, rfl, by simp [List.isPrefixOf, hne]⟩

theorem hasPair_eq_false_of_left {p q : Char → Bool} {s : List Char}
    (h : ∀ c ∈ s, p c = false) : hasPair p q s = false := by
  induction s with
  | nil => rfl
  | cons a s ih =>
    have ih := ih fun c hc => h c (List.mem_cons_of_mem a hc)
    cases s with
    | nil => rfl
    | cons b s => rw [hasPair, ih, h a List.mem_cons_self, Bool.false_and, Bool.false_or]

theorem hasKeyMark_eq_false_of_not_mem {s : List Char} (h : ':' ∉ s) : hasKeyMark s = false := by
  induction s with
  | nil => rfl
  | cons a s ih =>
    rw [List.mem_cons, not_or] at h
    simp [hasKeyMark, ih h.2, Ne.symm h.1]

/-- A numeral may stand without quotes. -/
theorem IsNumeral.plainAdmitted {s : List Char} (h : IsNumeral s) :
    Scalar.plainAdmitted s = true := by
  have hchars := fun c hc => isNumeralChar_cases (h.isNumeralChar c hc)
  have hspace : ∀ c ∈ s, c ≠ ' ' := by
    rintro c hc rfl
    exact absurd (hchars _ hc).2.2.1 (by decide)
  have hescapes : needsEscapes s = false := by
    have hpair : hasPair (· = ' ') isBreak s = false :=
      hasPair_eq_false_of_left fun c hc => by simpa using hspace c hc
    rw [needsEscapes, hpair, Bool.false_or, List.any_eq_false]
    intro c hc
    simp [(hchars c hc).1]
  have hbreak : s.any isBreak = false := by
    rw [List.any_eq_false]
    intro c hc
    simp [(hchars c hc).2.1]
  have hbegins : beginsWith (· = ' ') s = false := by
    cases s with
    | nil => rfl
    | cons c s => simpa [beginsWith] using hspace c List.mem_cons_self
  have hends : endsWith (· = ' ') s = false := by
    cases hlast : s.getLast? with
    | none => rw [endsWith, hlast, Option.any_none]
    | some c =>
      rw [endsWith, hlast, Option.any_some]
      simpa using hspace c (List.mem_of_getLast? hlast)
  have hmarks : beginsWith leadMarks.contains s = false := by
    cases s with
    | nil => rfl
    | cons c s => exact (hchars c List.mem_cons_self).2.2.2.2.2
  have hkey : hasKeyMark s = false :=
    hasKeyMark_eq_false_of_not_mem fun hc => (hchars _ hc).2.2.2.1 rfl
  have hcomment : hasPair (fun c => isGap c || isBreak c) (· = '#') s = false :=
    hasPair_eq_false_of_left fun c hc => by simp [hchars c hc]
  -- a sign stands in front of something else
  have hlead : ['-', '-', '-'].isPrefixOf s = false ∧ ['.', '.', '.'].isPrefixOf s = false ∧
      (beginsWith (fun c => c = '?' || c = '-') s && atStop (s.drop 1)) = false := by
    rcases h with h | ⟨r, rfl, h⟩
    · obtain ⟨c, r, rfl, hminus, hmark, -, hdots⟩ := h.exists_cons
      refine ⟨by simp [List.isPrefixOf, Ne.symm hminus], hdots, ?_⟩
      simp [beginsWith, hminus, hmark]
    · obtain ⟨c, r, rfl, hminus, -, hstop, -⟩ := h.exists_cons
      refine ⟨by simp [List.isPrefixOf, Ne.symm hminus], by simp [List.isPrefixOf], ?_⟩
      rw [List.drop_one, List.tail_cons, hstop, Bool.and_false]
  obtain ⟨hdashes, hdots, hdash⟩ := hlead
  simp only [Scalar.plainAdmitted, looksMarked, hescapes, hbreak, hbegins, hends, hmarks, hkey,
    hcomment, hdashes, hdots, hdash, Bool.or_false, Bool.not_false]

/-! ## Numbers -/

/-- Digits are followed by other characters of numerals. -/
theorem isUnsigned_of_digits {ds s : List Char} (hne : ds ≠ []) (hds : ∀ c ∈ ds, c.isDigit = true)
    (hs : ∀ c ∈ s, isNumeralChar c = true) : IsUnsigned (ds ++ s) := by
  obtain ⟨d, ds, rfl⟩ := List.exists_cons_of_ne_nil hne
  refine .digit (hds d List.mem_cons_self) ?_
  intro c hc
  rcases List.mem_append.1 hc with hc | hc
  · exact isNumeralChar_of_isDigit (hds c (List.mem_cons_of_mem d hc))
  · exact hs c hc

theorem isNumeral_signed (negative : Bool) {s : List Char} (h : IsUnsigned s) :
    IsNumeral (Binary64.signed negative s).toList := by
  rw [Binary64.signed, String.toList_ofList]
  cases negative with
  | false => exact .inl h
  | true => exact .inr ⟨s, rfl, h⟩

theorem isNumeral_repr (i : Int) : IsNumeral (toString i).toList := by
  have hdigits : ∀ n : Nat, IsUnsigned n.repr.toList := by
    intro n
    rw [Nat.toList_repr, ← List.append_nil (Nat.toDigits 10 n)]
    refine isUnsigned_of_digits Nat.toDigits_ne_nil ?_ (by simp)
    exact fun c hc => Nat.isDigit_of_mem_toDigits (by decide) (by decide) hc
  rw [Int.toString_eq_repr, Int.repr_eq_if]
  split
  · exact .inl (hdigits _)
  · exact .inr ⟨_, String.toList_append, hdigits _⟩

end Yaml

namespace Decimal

open Yaml

theorem isUnsigned_positional (d : Decimal) : IsUnsigned d.positional := by
  have hne : d.digitText ≠ [] := Nat.toDigits_ne_nil
  have hds : ∀ c ∈ d.digitText, c.isDigit = true := fun c hc =>
    Nat.isDigit_of_mem_toDigits (by decide) (by decide) hc
  have hzeros : ∀ n, ∀ c ∈ zeros n, c.isDigit = true := by
    intro n c hc
    rw [List.eq_of_mem_replicate hc]
    rfl
  simp only [positional]
  split
  · rw [List.append_assoc]
    refine isUnsigned_of_digits hne hds ?_
    intro c hc
    rcases List.mem_append.1 hc with hc | hc
    · exact isNumeralChar_of_isDigit (hzeros _ c hc)
    · have hmarks : ∀ c ∈ ['.', '0'], isNumeralChar c = true := forall_mem_of_all (by decide)
      exact hmarks c hc
  · split
    · rename_i hpoint
      refine isUnsigned_of_digits ?_ (fun c hc => hds c (List.mem_of_mem_take hc)) ?_
      · rw [Ne, List.take_eq_nil_iff, not_or]
        exact ⟨by omega, hne⟩
      · intro c hc
        rcases List.mem_cons.1 hc with rfl | hc
        · decide
        · exact isNumeralChar_of_isDigit (hds c (List.mem_of_mem_drop hc))
    · refine .digit rfl ?_
      intro c hc
      rcases List.mem_append.1 hc with hc | hc
      · rcases List.mem_cons.1 hc with rfl | hc
        · decide
        · exact isNumeralChar_of_isDigit (hzeros _ c hc)
      · exact isNumeralChar_of_isDigit (hds c hc)

theorem isUnsigned_scientific (d : Decimal) : IsUnsigned (d.scientific []) := by
  have hne : d.digitText ≠ [] := Nat.toDigits_ne_nil
  have hds : ∀ c ∈ d.digitText, c.isDigit = true := fun c hc =>
    Nat.isDigit_of_mem_toDigits (by decide) (by decide) hc
  simp only [scientific, ite_self, List.append_assoc, List.cons_append, List.nil_append]
  refine isUnsigned_of_digits (by simpa using hne) (fun c hc => hds c (List.mem_of_mem_take hc)) ?_
  intro c hc
  rcases List.mem_append.1 hc with hc | hc
  · split at hc
    · cases hc
    · rcases List.mem_cons.1 hc with rfl | hc
      · decide
      · exact isNumeralChar_of_isDigit (hds c (List.mem_of_mem_drop hc))
  · rcases List.mem_cons.1 hc with rfl | hc
    · decide
    · exact (isNumeral_repr _).isNumeralChar c hc

end Decimal

namespace Yaml

theorem isNumeral_float (x : Binary64) : IsNumeral x.text.toList := by
  have hword : ∀ s : List Char, s = ['.', 'i', 'n', 'f'] ∨ s = ['.', 'n', 'a', 'n'] →
      IsUnsigned s := by
    rintro s (rfl | rfl)
    · exact .word rfl (forall_mem_of_all (by decide))
    · exact .word rfl (forall_mem_of_all (by decide))
  match x with
  | .finite negative 0 e =>
    exact isNumeral_signed negative (.digit rfl (forall_mem_of_all (by decide)))
  | .finite negative (m + 1) e =>
    refine isNumeral_signed negative ?_
    split
    · exact Decimal.isUnsigned_positional _
    · exact Decimal.isUnsigned_scientific _
  | .infinite negative => exact isNumeral_signed negative (hword _ (.inl rfl))
  | .nan => exact .inl (hword _ (.inr rfl))

/-- The text of a number is a numeral. -/
theorem Number.isNumeral_text (n : Number) : IsNumeral n.text.toList := by
  cases n with
  | integer i => exact isNumeral_repr i
  | float x => exact isNumeral_float x

end Yaml

end LockPrune
