import LockPrune.Proofs.Decimal.Shortest
import LockPrune.Proofs.Yaml.Numerals
import LockPrune.Yaml.Meaning

/-!
# Numbers read back

The text of a number means the number: that of an integer the same integer, and that of a
double the same double, down to the sign of zero.

## Main statements

* `Meaning.integer?_toString` — the text of an integer.
* `Decimal.decimal?_positional`, `Decimal.decimal?_scientific` — the texts of a decimal.
* `Meaning.number?_float` — the text of a double.
* `Meaning.ofPlain_text` — the text of a number, as a plain scalar.
-/

namespace LockPrune

namespace Yaml.Meaning

/-! ## Digits -/

theorem hexValue?_of_isDigit {c : Char} (h : c.isDigit = true) :
    hexValue? c = some (c.toNat - '0'.toNat) ∧ c.toNat - '0'.toNat < 10 := by
  have hrange : '0' ≤ c ∧ c ≤ '9' := by
    simpa [Char.isDigit, Char.le_def] using h
  have hle : c.toNat ≤ 57 := by simpa [Char.le_def, UInt32.le_iff_toNat_le] using hrange.2
  refine ⟨by rw [hexValue?, if_pos hrange]; rfl, ?_⟩
  have : '0'.toNat = 48 := rfl
  omega

theorem isDigit_of_hexValue? {c : Char} {v : Nat} (h : hexValue? c = some v) (hv : v < 10) :
    c.isDigit = true := by
  rw [hexValue?] at h
  split_ifs at h with h1 h2 h3
  · simpa [Char.isDigit, Char.le_def] using h1
  · have hge : 97 ≤ c.toNat := by simpa [Char.le_def, UInt32.le_iff_toNat_le] using h2.1
    cases h
    omega
  · have hge : 65 ≤ c.toNat := by simpa [Char.le_def, UInt32.le_iff_toNat_le] using h3.1
    cases h
    omega

/-- Adding digit after digit. -/
theorem foldlM_digits {f : Nat → Char → Option Nat} {ds : List Char}
    (h : ∀ n, ∀ d ∈ ds, f n d = some (10 * n + (d.toNat - '0'.toNat))) (n : Nat) :
    ds.foldlM f n = some (Nat.ofDigitChars 10 ds n) := by
  induction ds generalizing n with
  | nil => rfl
  | cons d ds ih =>
    rw [List.foldlM_cons, h n d List.mem_cons_self, Nat.ofDigitChars_cons]
    exact ih (fun n a ha => h n a (List.mem_cons_of_mem d ha)) _

/-- Where every step gives something, it does so for every element. -/
theorem exists_step_of_foldlM {f : Nat → Char → Option Nat} {ds : List Char} {n n' : Nat}
    (h : ds.foldlM f n = some n') : ∀ d ∈ ds, ∃ k k', f k d = some k' := by
  induction ds generalizing n with
  | nil => simp
  | cons d ds ih =>
    rw [List.foldlM_cons, Option.bind_eq_bind, Option.bind_eq_some_iff] at h
    obtain ⟨k, hk, hrest⟩ := h
    intro a ha
    rcases List.mem_cons.1 ha with rfl | ha
    · exact ⟨n, k, hk⟩
    · exact ih hrest a ha

/-- Digits spell a number. -/
theorem digits?_eq {ds : List Char} (hne : ds ≠ []) (hds : ∀ c ∈ ds, c.isDigit = true) :
    digits? 10 ds = some (Nat.ofDigitChars 10 ds 0) := by
  rw [digits?, if_neg (by simpa using hne)]
  refine foldlM_digits (fun n d hd => ?_) 0
  obtain ⟨hvalue, hlt⟩ := hexValue?_of_isDigit (hds d hd)
  rw [hvalue, mul_comm]
  exact if_pos hlt

/-- Nothing but digits spells a number. -/
theorem isDigit_of_digits? {ds : List Char} {n : Nat} (h : digits? 10 ds = some n) :
    ∀ c ∈ ds, c.isDigit = true := by
  rw [digits?] at h
  split at h
  · cases h
  · intro c hc
    obtain ⟨k, k', hk⟩ := exists_step_of_foldlM h c hc
    split at hk
    · rename_i v hv
      split at hk
      · rename_i hlt
        exact isDigit_of_hexValue? hv hlt
      · cases hk
    · cases hk

theorem digits?_toDigits (n : Nat) : digits? 10 (Nat.toDigits 10 n) = some n := by
  rw [digits?_eq Nat.toDigits_ne_nil fun c hc =>
    Nat.isDigit_of_mem_toDigits (by decide) (by decide) hc, Nat.ofDigitChars_ten_toDigits]

/-! ## Integers -/

/-- A number other than zero begins with a digit other than zero. -/
theorem head_toDigits {n : Nat} (hn : 0 < n) : (Nat.toDigits 10 n).head? ≠ some '0' := by
  induction n using Nat.strongRecOn with
  | ind n ih =>
    rw [Nat.toDigits_eq_if (by decide)]
    split
    · rename_i hlt
      have hdigit : ∀ k < 10, 0 < k → [k.digitChar].head? ≠ some '0' := by decide
      exact hdigit n hlt hn
    · rename_i hge
      rw [List.head?_append_of_ne_nil _ Nat.toDigits_ne_nil]
      exact ih (n / 10) (by omega) (by omega)

theorem dropSign_of_isDigit {d : Char} (h : d.isDigit = true) (s : List Char) :
    dropSign (d :: s) = d :: s := by
  rw [dropSign]
  · rintro _ ⟨⟩
    exact absurd h (by decide)
  · rintro _ ⟨⟩
    exact absurd h (by decide)

/-- Digits behind no padding are a natural in base ten. -/
theorem natural?_of_digits {s : List Char} {n : Nat} (hpadded : isPaddedDigits s = false)
    (h : digits? 10 s = some n) : natural? s = some n := by
  have hdigit := isDigit_of_digits? h
  rw [natural?]
  · rw [hpadded, if_neg Bool.false_ne_true, h]
  · rintro ds rfl
    exact absurd (hdigit 'x' (by simp)) (by decide)
  · rintro ds rfl
    exact absurd (hdigit 'o' (by simp)) (by decide)
  · rintro ds rfl
    exact absurd (hdigit 'b' (by simp)) (by decide)

theorem natural?_toDigits (n : Nat) : natural? (Nat.toDigits 10 n) = some n := by
  refine natural?_of_digits ?_ (digits?_toDigits n)
  rcases Nat.eq_zero_or_pos n with rfl | hn
  · decide
  · have hhead := head_toDigits hn
    have hdigit := fun c => Nat.isDigit_of_mem_toDigits (b := 10) (n := n) (c := c) (by decide)
      (by decide)
    obtain ⟨d, ds, hds⟩ := List.exists_cons_of_ne_nil (Nat.toDigits_ne_nil (b := 10) (n := n))
    rw [hds] at hhead hdigit ⊢
    rw [isPaddedDigits, dropSign_of_isDigit (hdigit d List.mem_cons_self)]
    split
    · rename_i heq
      cases heq
      exact absurd rfl hhead
    · rfl

theorem integer?_of_isDigit {d : Char} (h : d.isDigit = true) (s : List Char) :
    integer? (d :: s) = (natural? (d :: s)).map Int.ofNat := by
  rw [integer?]
  · rintro _ ⟨⟩
    exact absurd h (by decide)
  · rintro _ ⟨⟩
    exact absurd h (by decide)

/-- The text of an integer is read as the integer. -/
theorem integer?_toString (i : Int) : integer? (toString i).toList = some i := by
  rw [Int.toString_eq_repr, Int.repr_eq_if]
  split
  · rename_i hi
    rw [Nat.toList_repr]
    obtain ⟨d, ds, hds⟩ := List.exists_cons_of_ne_nil (Nat.toDigits_ne_nil (b := 10) (n := i.toNat))
    have hdigit : d.isDigit = true := by
      refine Nat.isDigit_of_mem_toDigits (b := 10) (n := i.toNat) (by decide) (by decide) ?_
      rw [hds]
      exact List.mem_cons_self
    rw [hds, integer?_of_isDigit hdigit, ← hds, natural?_toDigits, Option.map_some,
      Int.ofNat_eq_natCast, Int.toNat_of_nonneg hi]
  · rename_i hi
    have hminus : "-".toList = ['-'] := rfl
    rw [String.toList_append, Nat.toList_repr, hminus, List.singleton_append, integer?,
      natural?_toDigits]
    change some (-((-i).toNat : Int)) = some i
    rw [Int.toNat_of_nonneg (by omega), neg_neg]

/-! ## Decimals -/

/-- The digits behind a point, if there are any. -/
def pointed (fraction : List Char) : List Char :=
  if fraction = [] then [] else '.' :: fraction

/-- Digits with a point between are one number, and an exponent for the digits behind the point. -/
theorem decimal?_pointed {whole fraction : List Char} (hne : whole ≠ [])
    (hwhole : ∀ c ∈ whole, c.isDigit = true) (hfraction : ∀ c ∈ fraction, c.isDigit = true) :
    decimal? (whole ++ pointed fraction) =
      some (Nat.ofDigitChars 10 (whole ++ fraction) 0, -(fraction.length : Int)) := by
  have hdigits : digits? 10 (whole ++ fraction) =
      some (Nat.ofDigitChars 10 (whole ++ fraction) 0) :=
    digits?_eq (by simp [hne]) (List.forall_mem_append.2 ⟨hwhole, hfraction⟩)
  by_cases hf : fraction = []
  · subst hf
    have htake : whole.takeWhile Char.isDigit = whole := List.takeWhile_eq_self_iff.2 hwhole
    rw [List.append_nil] at hdigits
    rw [pointed, if_pos rfl, List.append_nil, decimal?]
    simp [htake, hdigits]
  · have htake : (whole ++ '.' :: fraction).takeWhile Char.isDigit = whole :=
      Cursor.takeWhile_prefix hwhole rfl
    have hfrac : fraction.takeWhile Char.isDigit = fraction :=
      List.takeWhile_eq_self_iff.2 hfraction
    rw [pointed, if_neg hf, decimal?]
    simp only [htake, List.drop_left, hfrac, List.drop_length]
    rw [hdigits]
    rfl

/-- The same in front of an exponent. -/
theorem decimal?_exponent {whole fraction rest : List Char} {size : Nat} (hne : whole ≠ [])
    (hwhole : ∀ c ∈ whole, c.isDigit = true) (hfraction : ∀ c ∈ fraction, c.isDigit = true)
    (hsize : digits? 10 (dropSign rest) = some size) :
    decimal? (whole ++ (pointed fraction ++ 'e' :: rest)) =
      some (Nat.ofDigitChars 10 (whole ++ fraction) 0,
        (if rest.head? = some '-' then -(size : Int) else size) - fraction.length) := by
  have hdigits : digits? 10 (whole ++ fraction) =
      some (Nat.ofDigitChars 10 (whole ++ fraction) 0) :=
    digits?_eq (by simp [hne]) (List.forall_mem_append.2 ⟨hwhole, hfraction⟩)
  by_cases hf : fraction = []
  · subst hf
    have htake : (whole ++ 'e' :: rest).takeWhile Char.isDigit = whole :=
      Cursor.takeWhile_prefix hwhole rfl
    rw [List.append_nil] at hdigits
    rw [pointed, if_pos rfl, List.nil_append, decimal?]
    simp [htake, hdigits, hsize]
  · have htake : (whole ++ '.' :: (fraction ++ 'e' :: rest)).takeWhile Char.isDigit = whole :=
      Cursor.takeWhile_prefix hwhole rfl
    have hfrac : (fraction ++ 'e' :: rest).takeWhile Char.isDigit = fraction :=
      Cursor.takeWhile_prefix hfraction rfl
    rw [pointed, if_neg hf, List.cons_append, decimal?]
    simp only [htake, List.drop_left, hfrac]
    rw [hdigits]
    simp [hsize]

/-- The size and the sign of an exponent. -/
theorem digits?_dropSign_toString (i : Int) : ∃ size,
    digits? 10 (dropSign (toString i).toList) = some size ∧
      (if (toString i).toList.head? = some '-' then -(size : Int) else size) = i := by
  rw [Int.toString_eq_repr, Int.repr_eq_if]
  split
  · rename_i hi
    refine ⟨i.toNat, ?_⟩
    rw [Nat.toList_repr]
    have hdigits := digits?_toDigits i.toNat
    obtain ⟨d, ds, hds⟩ := List.exists_cons_of_ne_nil (Nat.toDigits_ne_nil (b := 10) (n := i.toNat))
    rw [hds] at hdigits ⊢
    have hdigit := isDigit_of_digits? hdigits d List.mem_cons_self
    have hne : d ≠ '-' := by
      rintro rfl
      exact absurd hdigit (by decide)
    refine ⟨by rw [dropSign_of_isDigit hdigit, hdigits], ?_⟩
    rw [List.head?_cons, if_neg (by simpa using hne), Int.toNat_of_nonneg hi]
  · rename_i hi
    refine ⟨(-i).toNat, ?_⟩
    have hminus : "-".toList = ['-'] := rfl
    rw [String.toList_append, Nat.toList_repr, hminus, List.singleton_append]
    refine ⟨digits?_toDigits _, ?_⟩
    rw [List.head?_cons, if_pos rfl, Int.toNat_of_nonneg (by omega), neg_neg]

end Yaml.Meaning

namespace Decimal

open Yaml.Meaning

theorem isDigit_of_mem_digitText (d : Decimal) : ∀ c ∈ d.digitText, c.isDigit = true :=
  fun _ hc => Nat.isDigit_of_mem_toDigits (by decide) (by decide) hc

theorem isDigit_of_mem_take (d : Decimal) (n : Nat) : ∀ c ∈ d.digitText.take n, c.isDigit = true :=
  fun c hc => d.isDigit_of_mem_digitText c (List.mem_of_mem_take hc)

theorem isDigit_of_mem_drop (d : Decimal) (n : Nat) : ∀ c ∈ d.digitText.drop n, c.isDigit = true :=
  fun c hc => d.isDigit_of_mem_digitText c (List.mem_of_mem_drop hc)

theorem isDigit_of_mem_zeros (n : Nat) : ∀ c ∈ zeros n, c.isDigit = true := by
  intro c hc
  rw [List.eq_of_mem_replicate hc]
  rfl

theorem ofDigitChars_digitText (d : Decimal) : Nat.ofDigitChars 10 d.digitText 0 = d.digits :=
  Nat.ofDigitChars_ten_toDigits

/-- A decimal with a point is read as the number that it is. -/
theorem decimal?_positional (d : Decimal) :
    ∃ n k, decimal? d.positional = some (n, k) ∧ (n : ℚ) * 10 ^ k = d.value := by
  have hds := d.isDigit_of_mem_digitText
  have hne : d.digitText ≠ [] := Nat.toDigits_ne_nil
  simp only [positional]
  split
  · -- zeros behind the digits, and a zero behind the point
    rename_i hexp
    have htext : d.digitText ++ zeros d.exponent.toNat ++ ['.', '0'] =
        d.digitText ++ zeros d.exponent.toNat ++ pointed ['0'] := rfl
    refine ⟨_, _, (congrArg decimal? htext).trans (decimal?_pointed (by simp [hne])
      (List.forall_mem_append.2 ⟨hds, isDigit_of_mem_zeros _⟩) (isDigit_of_mem_zeros 1)), ?_⟩
    rw [Nat.ofDigitChars_append, Nat.ofDigitChars_append, ofDigitChars_digitText, zeros,
      Nat.ofDigitChars_replicate_zero, Nat.ofDigitChars_cons, Nat.ofDigitChars_nil, value]
    obtain ⟨j, hj⟩ := Int.eq_ofNat_of_zero_le hexp
    rw [hj, Int.toNat_natCast, zpow_natCast, List.length_singleton, Nat.cast_one, zpow_neg_one]
    push_cast
    ring
  · rename_i hexp
    split
    · -- the point stands among the digits
      rename_i hpoint
      have hsplit : d.digitText.take (d.digitText.length + d.exponent).toNat ++
          d.digitText.drop (d.digitText.length + d.exponent).toNat = d.digitText :=
        List.take_append_drop _ _
      have hdrop : d.digitText.drop (d.digitText.length + d.exponent).toNat ≠ [] := by
        rw [Ne, List.drop_eq_nil_iff]
        omega
      have htake : d.digitText.take (d.digitText.length + d.exponent).toNat ≠ [] := by
        rw [Ne, List.take_eq_nil_iff, not_or]
        exact ⟨by omega, hne⟩
      have htext := decimal?_pointed htake (d.isDigit_of_mem_take _)
        (d.isDigit_of_mem_drop (d.digitText.length + d.exponent).toNat)
      rw [pointed, if_neg hdrop, hsplit, ofDigitChars_digitText, List.length_drop] at htext
      refine ⟨_, _, htext, ?_⟩
      rw [value]
      congr 2
      omega
    · -- zeros in front of the digits
      rename_i hpoint
      have hfraction : zeros (-(d.digitText.length + d.exponent)).toNat ++ d.digitText ≠ [] := by
        simp [hne]
      have htext := decimal?_pointed (List.cons_ne_nil '0' []) (isDigit_of_mem_zeros 1)
        (List.forall_mem_append.2
          ⟨isDigit_of_mem_zeros (-(d.digitText.length + d.exponent)).toNat, hds⟩)
      rw [pointed, if_neg hfraction, ← List.append_assoc, Nat.ofDigitChars_append, zeros,
        ← List.replicate_one, ← List.replicate_add, Nat.ofDigitChars_replicate_zero, Nat.mul_zero,
        ofDigitChars_digitText, List.length_append, List.length_replicate] at htext
      refine ⟨_, _, htext, ?_⟩
      rw [value]
      congr 2
      omega

/-- A decimal with an exponent is read as the number that it is. -/
theorem decimal?_scientific (d : Decimal) :
    ∃ n k, decimal? (d.scientific []) = some (n, k) ∧ (n : ℚ) * 10 ^ k = d.value := by
  have hne : d.digitText ≠ [] := Nat.toDigits_ne_nil
  have hpos := List.length_pos_iff.2 hne
  obtain ⟨size, hsize, hexponent⟩ :=
    digits?_dropSign_toString ((d.digitText.length : Int) + d.exponent - 1)
  have htake : d.digitText.take 1 ≠ [] := by simpa using hne
  have hpoint : (if d.digitText.length = 1 then [] else '.' :: d.digitText.drop 1) =
      pointed (d.digitText.drop 1) := by
    rw [pointed]
    refine if_congr ?_ rfl rfl
    rw [List.drop_eq_nil_iff]
    omega
  have htext := decimal?_exponent htake (d.isDigit_of_mem_take 1) (d.isDigit_of_mem_drop 1) hsize
  rw [hexponent, List.take_append_drop, ofDigitChars_digitText, List.length_drop] at htext
  refine ⟨d.digits, d.exponent, ?_, rfl⟩
  simp only [scientific, hpoint, ite_self, List.append_assoc, List.cons_append, List.nil_append]
  rw [htext]
  congr 2
  omega

end Decimal

namespace Yaml.Meaning

/-! ## Doubles -/

/-- Digits, and behind them a point or an exponent. -/
def IsMarked (s : List Char) : Prop :=
  ∃ ds c t, s = ds ++ c :: t ∧ ds ≠ [] ∧ (∀ d ∈ ds, d.isDigit = true) ∧ (c = '.' ∨ c = 'e')

theorem isMarked_positional (d : Decimal) : IsMarked d.positional := by
  have hne : d.digitText ≠ [] := Nat.toDigits_ne_nil
  simp only [Decimal.positional]
  split
  · exact ⟨d.digitText ++ Decimal.zeros d.exponent.toNat, '.', ['0'], rfl, by simp [hne],
      List.forall_mem_append.2 ⟨d.isDigit_of_mem_digitText, Decimal.isDigit_of_mem_zeros _⟩,
      .inl rfl⟩
  · split
    · rename_i hpoint
      refine ⟨_, '.', _, rfl, ?_, d.isDigit_of_mem_take _, .inl rfl⟩
      rw [Ne, List.take_eq_nil_iff, not_or]
      exact ⟨by omega, hne⟩
    · exact ⟨['0'], '.', _, rfl, List.cons_ne_nil _ _, Decimal.isDigit_of_mem_zeros 1, .inl rfl⟩

theorem isMarked_scientific (d : Decimal) : IsMarked (d.scientific []) := by
  have hne : d.digitText.take 1 ≠ [] := by
    have : d.digitText ≠ [] := Nat.toDigits_ne_nil
    simpa using this
  simp only [Decimal.scientific, ite_self, List.append_assoc, List.cons_append, List.nil_append]
  split
  · exact ⟨_, 'e', _, rfl, hne, d.isDigit_of_mem_take 1, .inr rfl⟩
  · exact ⟨_, '.', _, rfl, hne, d.isDigit_of_mem_take 1, .inl rfl⟩

/-- Digits with a point or an exponent are no natural. -/
theorem IsMarked.natural? {s : List Char} (h : IsMarked s) :
    Meaning.natural? s = none ∧ isPaddedDigits s = false ∧ s.head?.any Char.isDigit = true := by
  obtain ⟨ds, c, t, rfl, hne, hds, hc⟩ := h
  obtain ⟨d, ds, rfl⟩ := List.exists_cons_of_ne_nil hne
  have hnot : c.isDigit = false := by rcases hc with rfl | rfl <;> decide
  have hd : d.isDigit = true := hds d List.mem_cons_self
  have hmem : c ∈ d :: ds ++ c :: t := by simp
  -- what follows the first digit is no mark of a base
  have hsecond : ∀ a, a.isDigit = false → a ≠ '.' → a ≠ 'e' →
      ∀ r, d :: ds ++ c :: t = '0' :: a :: r → False := by
    intro a ha hpoint hexp r heq
    cases ds with
    | nil =>
      simp only [List.cons_append, List.nil_append, List.cons.injEq] at heq
      obtain ⟨-, rfl, -⟩ := heq
      rcases hc with rfl | rfl <;> contradiction
    | cons b ds =>
      simp only [List.cons_append, List.cons.injEq] at heq
      obtain ⟨-, rfl, -⟩ := heq
      have hb := hds b (by simp)
      rw [ha] at hb
      cases hb
  have hpadded : isPaddedDigits (d :: ds ++ c :: t) = false := by
    rw [isPaddedDigits, List.cons_append, dropSign_of_isDigit hd]
    split
    · rename_i heq
      rw [List.all_eq_false]
      refine ⟨c, ?_, by simp [hnot]⟩
      rw [← (List.cons.inj heq).2]
      simp
    · rfl
  refine ⟨?_, hpadded, by simp [hd]⟩
  rw [Meaning.natural?]
  · rw [hpadded, if_neg Bool.false_ne_true, Option.eq_none_iff_forall_ne_some]
    intro n hn
    have hdigit := isDigit_of_digits? hn c hmem
    rw [hnot] at hdigit
    cases hdigit
  · exact fun r => hsecond 'x' (by decide) (by decide) (by decide) r
  · exact fun r => hsecond 'o' (by decide) (by decide) (by decide) r
  · exact fun r => hsecond 'b' (by decide) (by decide) (by decide) r

theorem toList_signed (negative : Bool) (s : List Char) :
    (Binary64.signed negative s).toList = if negative then '-' :: s else s :=
  String.toList_ofList

theorem dropSign_signed (negative : Bool) {s : List Char} (h : s.head?.any Char.isDigit = true) :
    dropSign (Binary64.signed negative s).toList = s := by
  rw [toList_signed]
  cases negative with
  | true => rfl
  | false =>
    cases s with
    | nil => rfl
    | cons d s => exact dropSign_of_isDigit h s

/-- Digits with a point or an exponent are no integer, whatever their sign. -/
theorem IsMarked.integer?_signed {s : List Char} (h : IsMarked s) (negative : Bool) :
    integer? (Binary64.signed negative s).toList = none ∧
      isPaddedDigits (Binary64.signed negative s).toList = false := by
  obtain ⟨hnatural, hpadded, hhead⟩ := h.natural?
  have hdrop := dropSign_signed negative hhead
  constructor
  · rw [toList_signed]
    cases negative with
    | true =>
      rw [if_pos rfl, integer?, hnatural]
      rfl
    | false =>
      rw [if_neg Bool.false_ne_true]
      cases s with
      | nil => cases hhead
      | cons d s => rw [integer?_of_isDigit hhead, hnatural, Option.map_none]
  · have hsame : isPaddedDigits (Binary64.signed negative s).toList = isPaddedDigits s := by
      rw [isPaddedDigits, isPaddedDigits, hdrop]
      cases s with
      | nil => rfl
      | cons d s => rw [dropSign_of_isDigit hhead]
    exact hsame.trans hpadded

/-- A number that begins with a digit is none of those that are not finite. -/
theorem float?_of_isDigit {s : List Char} (h : (dropSign s).head?.any Char.isDigit = true) :
    float? s = finiteFloat? s := by
  have hwords : ∀ words : List String,
      (words.all fun w => !(dropSign w.toList).head?.any Char.isDigit) = true →
      words.contains (String.ofList s) = false := by
    intro words hall
    rw [Bool.eq_false_iff]
    intro hmem
    have hword := List.all_eq_true.1 hall _ (List.contains_iff_mem.1 hmem)
    rw [String.toList_ofList, h] at hword
    cases hword
  simp only [float?, hwords [".inf", ".Inf", ".INF", "+.inf", "+.Inf", "+.INF"] (by decide),
    hwords ["-.inf", "-.Inf", "-.INF"] (by decide), hwords [".nan", ".NaN", ".NAN"] (by decide),
    Bool.false_eq_true, if_false]

/-- The digits of a finite double, behind its sign. -/
theorem float?_signed {negative : Bool} {s : List Char} {n m : Nat} {k e : Int}
    (hhead : s.head?.any Char.isDigit = true) (hdecimal : decimal? s = some (n, k))
    (hdouble : Binary64.ofDecimal negative n k = .finite negative m e) :
    float? (Binary64.signed negative s).toList = some (.finite negative m e) := by
  have hdrop := dropSign_signed negative hhead
  have hsign : (decide ((Binary64.signed negative s).toList.head? = some '-')) = negative := by
    rw [toList_signed]
    cases negative with
    | true => rfl
    | false =>
      cases s with
      | nil => rfl
      | cons d s =>
        have hdigit : d.isDigit = true := hhead
        have hne : d ≠ '-' := by
          rintro rfl
          exact absurd hdigit (by decide)
        simpa using hne
  rw [float?_of_isDigit (hdrop.symm ▸ hhead), finiteFloat?, hdrop, hdecimal, hsign]
  simp [hdouble, Binary64.isFinite]

/-- The text of a double is read as the double. -/
theorem number?_float {x : Binary64} (hx : x.IsCanonical) :
    number? x.text.toList = some (.float x) := by
  have hmarked : ∀ {negative s} {m : Nat} {e : Int}, IsMarked s →
      (∃ n k, decimal? s = some (n, k) ∧
        Binary64.ofDecimal negative n k = .finite negative m e) →
      number? (Binary64.signed negative s).toList = some (.float (.finite negative m e)) := by
    rintro negative s m e hs ⟨n, k, hdecimal, hdouble⟩
    obtain ⟨hinteger, hpadded⟩ := hs.integer?_signed negative
    rw [number?, hinteger, hpadded, float?_signed hs.natural?.2.2 hdecimal hdouble]
    rfl
  cases x with
  | finite negative m e =>
    have hd : Binary64.IsDouble m e := hx
    cases m with
    | zero =>
      obtain rfl : e = Binary64.minExponent := hd.normal.resolve_left (by norm_num)
      exact hmarked ⟨['0'], '.', ['0'], rfl, List.cons_ne_nil _ _,
        Decimal.isDigit_of_mem_zeros 1, .inl rfl⟩
        ⟨0, -1, rfl, rfl⟩
    | succ m =>
      have hround := Decimal.roundsTo_shortest m.succ_pos hd
      have hspelled : ∀ s, (∃ n k, decimal? s = some (n, k) ∧
            (n : ℚ) * 10 ^ k = (Decimal.shortest (m + 1) e).value) →
          ∃ n k, decimal? s = some (n, k) ∧
            Binary64.ofDecimal negative n k = .finite negative (m + 1) e := by
        rintro s ⟨n, k, hdecimal, hvalue⟩
        exact ⟨n, k, hdecimal, Binary64.ofDecimal_eq m.succ_pos hd (hvalue ▸ hround)⟩
      rw [Binary64.text, Binary64.stored]
      · split
        · exact hmarked (isMarked_positional _) (hspelled _ (Decimal.decimal?_positional _))
        · exact hmarked (isMarked_scientific _) (hspelled _ (Decimal.decimal?_scientific _))
      · exact m.succ_ne_zero
  | infinite negative => cases negative <;> rfl
  | nan => rfl

end Yaml.Meaning

/-! ## Numbers -/

namespace Yaml

/-- A number that a plain scalar can mean. -/
def Number.IsMeant : Number → Prop
  | .integer i => Int.negOfNat (Nat.pow 2 63) ≤ i ∧ i < Nat.pow 2 64
  | .float x => x.IsCanonical

/-- The meaning of a number. -/
def Number.meaning : Number → Meaning
  | .integer i => .integer i
  | .float x => .float x

/-- The text of a number is read as the number. -/
theorem Meaning.number?_text {n : Number} (h : n.IsMeant) :
    number? n.text.toList = some n.meaning := by
  cases n with
  | integer i =>
    have hinteger : ofInteger? i = some (.integer i) := if_pos h
    rw [number?, Number.text, integer?_toString, Option.bind_some, hinteger]
    rfl
  | float x => exact number?_float h

/-- A character that a number begins with. -/
def isNumeralHead (c : Char) : Bool :=
  c = '-' || c = '.' || c.isDigit

theorem IsNumeral.head {s : List Char} (h : IsNumeral s) : s.head?.any isNumeralHead = true := by
  rcases h with h | ⟨r, rfl, -⟩
  · cases h with
    | digit hd hs => simp [isNumeralHead, hd]
    | word ha hs => rfl
  · rfl

/-- A numeral is no word. -/
theorem Meaning.ofPlain_of_isNumeral {s : String} (h : IsNumeral s.toList) :
    ofPlain s = (number? s.toList).getD (.text s) := by
  have hwords : ∀ words : List String,
      (words.all fun w => !w.toList.head?.any isNumeralHead) = true → words.contains s = false := by
    intro words hall
    rw [Bool.eq_false_iff]
    intro hmem
    have hword := List.all_eq_true.1 hall _ (List.contains_iff_mem.1 hmem)
    rw [h.head] at hword
    cases hword
  have hempty : s.isEmpty = false := by
    rw [Bool.eq_false_iff, Ne, String.isEmpty_iff]
    rintro rfl
    exact h.ne_nil rfl
  have hnull : nullWords.contains s = false := hwords _ (by decide)
  have htrue : trueWords.contains s = false := hwords _ (by decide)
  have hfalse : falseWords.contains s = false := hwords _ (by decide)
  simp only [ofPlain, bool?, hempty, hnull, htrue, hfalse, Bool.or_self, Bool.false_eq_true,
    if_false]

/-- The text of a number means the number. -/
theorem Meaning.ofPlain_text {n : Number} (h : n.IsMeant) : ofPlain n.text = n.meaning := by
  rw [ofPlain_of_isNumeral n.isNumeral_text, number?_text h, Option.getD_some]

end Yaml

end LockPrune
