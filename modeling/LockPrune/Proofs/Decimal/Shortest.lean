import LockPrune.Decimal.Shortest
import LockPrune.Proofs.Decimal.Rounding

/-!
# The shortest decimal reads back

The shortest decimal of a double lies in the interval of the double, so that it goes back to
it.  With seventeen digits one of the two neighbours always lies there: the grid of the decimals
is then finer than the doubles are.

## Main statements

* `Decimal.holds_ofBinary_iff` — the interval that is searched is that of the double.
* `Decimal.roundsTo_shortest` — the shortest decimal lies in it.
* `Binary64.ofDecimal_eq` — a decimal in the interval of a double goes to the double.
-/

namespace LockPrune

namespace Decimal

open Binary64

/-! ## Fractions and decimals as numbers -/

/-- A fraction as a number. -/
def Fraction.value (f : Fraction) : ℚ :=
  f.num / f.den

/-- A decimal as a number. -/
def value (d : Decimal) : ℚ :=
  d.digits * 10 ^ d.exponent

theorem value_scaled (n : Nat) (e : Int) : (Fraction.scaled n e).value = n * 2 ^ e := by
  have hpow := zpow_eq_div two_pos e
  rw [Nat.cast_two] at hpow
  rw [Fraction.value, Fraction.scaled, hpow, mul_div_assoc', Nat.cast_mul]

theorem den_scaled_pos (n : Nat) (e : Int) : 0 < (Fraction.scaled n e).den :=
  Nat.pow_pos two_pos

/-- A decimal as a fraction of naturals. -/
theorem natCast_mul_zpow (n : Nat) (e : Int) :
    ((n * Nat.pow 10 e.toNat : Nat) : ℚ) / (Nat.pow 10 (-e).toNat : Nat) = n * 10 ^ e := by
  have hpow := zpow_eq_div (show 0 < 10 by norm_num) e
  rw [Nat.cast_ofNat] at hpow
  rw [hpow, mul_div_assoc', Nat.cast_mul]

/-! ## The interval of a double -/

theorem Interval.holds_iff {i : Interval} (hlow : 0 < i.low.den) (hhigh : 0 < i.high.den) (n : Nat)
    (e : Int) : i.holds n e = true ↔
      if i.closed then i.low.value ≤ n * 10 ^ e ∧ (n : ℚ) * 10 ^ e ≤ i.high.value
      else i.low.value < n * 10 ^ e ∧ (n : ℚ) * 10 ^ e < i.high.value := by
  have hden : 0 < Nat.pow 10 (-e).toNat := Nat.pow_pos (by norm_num)
  have hlow' : (0 : ℚ) < i.low.den := by exact_mod_cast hlow
  have hhigh' : (0 : ℚ) < i.high.den := by exact_mod_cast hhigh
  have hden' : (0 : ℚ) < (Nat.pow 10 (-e).toNat : Nat) := by exact_mod_cast hden
  rw [← natCast_mul_zpow, Interval.holds, Fraction.value, Fraction.value,
    div_le_div_iff₀ hlow' hden', div_le_div_iff₀ hden' hhigh', div_lt_div_iff₀ hlow' hden',
    div_lt_div_iff₀ hden' hhigh']
  cases i.closed with
  | true =>
    simp only [if_true, Bool.and_eq_true, decide_eq_true_eq]
    exact_mod_cast Iff.rfl
  | false =>
    simp only [Bool.false_eq_true, if_false, Bool.and_eq_true, decide_eq_true_eq]
    exact_mod_cast Iff.rfl

/-- The interval that is searched is that of the double. -/
theorem holds_ofBinary_iff {m : Nat} (hm : 0 < m) (e : Int) (n : Nat) (k : Int) :
    (Interval.ofBinary m e).holds n k = true ↔ RoundsTo (n * 10 ^ k) m e := by
  have hquarter : (2 : ℚ) ^ e = 4 * 2 ^ (e - 2) := by
    rw [zpow_sub₀ two_ne_zero]
    norm_num
    ring
  have hlow : (Interval.ofBinary m e).low.value = lowEnd m e := by
    rw [Interval.ofBinary, value_scaled, lowEnd, hquarter]
    simp only [Nat.pow_eq]
    split
    · rw [Nat.cast_sub (by omega)]
      push_cast
      ring
    · rw [Nat.cast_sub (by omega)]
      push_cast
      ring
  have hhigh : (Interval.ofBinary m e).high.value = (m + 1 / 2) * 2 ^ e := by
    rw [Interval.ofBinary, value_scaled, hquarter]
    push_cast
    ring
  have hclosed : (Interval.ofBinary m e).closed = decide (m % 2 = 0) := rfl
  rw [Interval.holds_iff (den_scaled_pos _ _) (den_scaled_pos _ _), hlow, hhigh, hclosed]
  by_cases heven : m % 2 = 0
  · simp only [heven, decide_true, if_true]
    constructor
    · rintro ⟨h, h'⟩
      exact ⟨h.lt_or_eq.imp_right fun h => ⟨h, heven⟩, h'.lt_or_eq.imp_right fun h => ⟨h, heven⟩⟩
    · rintro ⟨h, h'⟩
      exact ⟨h.elim le_of_lt fun h => h.1.le, h'.elim le_of_lt fun h => h.1.le⟩
  · simp only [heven, decide_false, Bool.false_eq_true, if_false]
    constructor
    · rintro ⟨h, h'⟩
      exact ⟨.inl h, .inl h'⟩
    · rintro ⟨h, h'⟩
      exact ⟨h.resolve_right fun h => heven h.2, h'.resolve_right fun h => heven h.2⟩

/-! ## The leading digit -/

theorem lt_pow_digitCount (n : Nat) : n < 10 ^ digitCount n :=
  (Nat.length_toDigits_le_iff (by norm_num) Nat.length_toDigits_pos).1 (le_refl _)

theorem pow_digitCount_le {n : Nat} (hn : 0 < n) : 10 ^ (digitCount n - 1) ≤ n := by
  have hpos : 0 < digitCount n := Nat.length_toDigits_pos
  by_cases hone : digitCount n = 1
  · rw [hone]
    exact hn
  · by_contra hlt
    have hle := (Nat.length_toDigits_le_iff (b := 10) (by norm_num)
      (show 0 < digitCount n - 1 by omega)).2 (not_le.1 hlt)
    have : digitCount n ≤ digitCount n - 1 := hle
    omega

/-- The power of ten of the leading digit does not exceed the fraction. -/
theorem pow_leadingDigit_le {v : Fraction} (hnum : 0 < v.num) (hden : 0 < v.den) :
    (10 : ℚ) ^ leadingDigit v ≤ v.value := by
  have hden' : (0 : ℚ) < v.den := by exact_mod_cast hden
  have hnum' : (0 : ℚ) < v.num := by exact_mod_cast hnum
  rw [leadingDigit, Fraction.value]
  split
  · rename_i hle
    have hquot : 0 < v.num / v.den := Nat.div_pos hle hden
    have hpos : 0 < digitCount (v.num / v.den) := Nat.length_toDigits_pos
    have hpow := (Nat.le_div_iff_mul_le hden).1 (pow_digitCount_le hquot)
    rw [le_div_iff₀ hden', ← Int.ofNat_one, ← Int.ofNat_sub hpos, zpow_natCast]
    exact_mod_cast hpow
  · generalize hc : (v.den + v.num - 1) / v.num = c
    have hceil : v.den ≤ c * v.num := by
      have hdiv := Nat.div_add_mod (v.den + v.num - 1) v.num
      have hmod := Nat.mod_lt (v.den + v.num - 1) hnum
      rw [hc] at hdiv
      rw [mul_comm]
      omega
    have hle : c ≤ 10 ^ digitCount (c - 1) := by
      have := lt_pow_digitCount (c - 1)
      omega
    have hpow : v.den ≤ 10 ^ digitCount (c - 1) * v.num :=
      hceil.trans (Nat.mul_le_mul_right _ hle)
    simp only
    rw [Int.negOfNat_eq, Int.ofNat_eq_natCast, zpow_neg, zpow_natCast, inv_le_comm₀ (by positivity)
      (by positivity), inv_div, div_le_iff₀ hnum']
    exact_mod_cast hpow

/-! ## Neighbours on a grid -/

/-- The multiple below a fraction, and the one above it. -/
theorem neighbour_spec {v : Fraction} (hden : 0 < v.den) (e : Int) :
    ((neighbour v e).1 : ℚ) * 10 ^ e ≤ v.value ∧
      v.value < (((neighbour v e).1 + 1 : Nat) : ℚ) * 10 ^ e := by
  have hpow := zpow_eq_div (show 0 < 10 by norm_num) e
  have ha : 0 < Nat.pow 10 (-e).toNat := Nat.pow_pos (by norm_num)
  have hb : 0 < Nat.pow 10 e.toNat := Nat.pow_pos (by norm_num)
  rw [Nat.cast_ofNat] at hpow
  rw [neighbour, Fraction.value, hpow]
  generalize Nat.pow 10 (-e).toNat = a at ha ⊢
  generalize Nat.pow 10 e.toNat = b at hb ⊢
  have hden' : (0 : ℚ) < v.den := by exact_mod_cast hden
  have ha' : (0 : ℚ) < a := by exact_mod_cast ha
  have hpos : 0 < v.den * b := Nat.mul_pos hden hb
  have hlow := Nat.div_mul_le_self (v.num * a) (v.den * b)
  have hhigh := Nat.lt_mul_div_succ (v.num * a) hpos
  simp only
  generalize v.num * a / (v.den * b) = f at hlow hhigh ⊢
  rw [mul_div_assoc', mul_div_assoc', div_le_div_iff₀ ha' hden', div_lt_div_iff₀ hden' ha']
  constructor
  · have : (f * (v.den * b) : ℚ) ≤ v.num * a := by exact_mod_cast hlow
    linarith
  · have : (v.num * a : ℚ) < v.den * b * (f + 1) := by exact_mod_cast hhigh
    push_cast
    linarith

theorem holds_of_hit {i : Interval} {v : Fraction} {e : Int} {n : Nat} (h : hit i v e = some n) :
    i.holds n e = true := by
  simp only [hit] at h
  split at h
  · cases h
  · rename_i hlow _
    cases h
    exact hlow
  · rename_i hhigh
    cases h
    exact hhigh
  · rename_i hlow hhigh
    split at h
    · cases h
      exact hlow
    · cases h
      exact hhigh
    · split at h <;> cases h
      · exact hlow
      · exact hhigh

theorem hit_ne_none {i : Interval} {v : Fraction} {e : Int}
    (h : i.holds (neighbour v e).1 e = true ∨ i.holds ((neighbour v e).1 + 1) e = true) :
    hit i v e ≠ none := by
  intro hnone
  simp only [hit] at hnone
  split at hnone
  · rename_i hlow hhigh
    rcases h with h | h
    · exact absurd (h.symm.trans hlow) (by decide)
    · exact absurd (h.symm.trans hhigh) (by decide)
  · cases hnone
  · cases hnone
  · split at hnone
    · cases hnone
    · cases hnone
    · split at hnone <;> cases hnone

/-- With seventeen digits one of the neighbours lies in the interval of the double. -/
theorem holds_seventeen {m : Nat} {e k : Int} {f : Nat} (hm : 0 < m) (hd : IsDouble m e)
    (hgrid : (10 : ℚ) ^ k * 10 ^ 16 ≤ m * 2 ^ e) (hlow : (f : ℚ) * 10 ^ k ≤ m * 2 ^ e)
    (hhigh : (m : ℚ) * 2 ^ e < (f + 1 : Nat) * 10 ^ k) :
    (Interval.ofBinary m e).holds f k = true ∨ (Interval.ofBinary m e).holds (f + 1) k = true := by
  rw [holds_ofBinary_iff hm, holds_ofBinary_iff hm]
  have hstep : (0 : ℚ) < 2 ^ e := by positivity
  have hspace : (0 : ℚ) < 10 ^ k := by positivity
  have hlt : (m : ℚ) + 1 ≤ 2 ^ 53 := by exact_mod_cast hd.lt
  generalize (10 : ℚ) ^ k = g at hspace hgrid hlow hhigh ⊢
  generalize hs : (2 : ℚ) ^ e = s at hstep hgrid hlow hhigh ⊢
  push_cast at hhigh ⊢
  -- the grid is finer than the doubles, and twice as fine where they lie closer on one side
  have hfine : g < s := by nlinarith
  have hedge : m = 2 ^ 52 → g < s / 2 := by
    rintro rfl
    push_cast at hgrid
    linarith
  have hend : lowEnd m e ≤ m * s - s / 4 ∧ (m ≠ 2 ^ 52 → lowEnd m e = m * s - s / 2) := by
    rw [lowEnd, hs]
    constructor
    · split <;> nlinarith
    · intro hne
      rw [if_neg fun h => hne h.1]
      ring
  by_cases hnear : m * s - f * g ≤ g / 2
  · left
    refine ⟨.inl ?_, .inl (by rw [hs]; nlinarith)⟩
    by_cases hpow : m = 2 ^ 52
    · have := hedge hpow
      linarith [hend.1]
    · rw [hend.2 hpow]
      linarith
  · right
    exact ⟨.inl (by linarith [hend.1]), .inl (by rw [hs]; linarith)⟩

/-! ## The search -/

/-- The search ends in the interval when its last grid has a hit. -/
theorem holds_search {i : Interval} {v : Fraction} {lead : Int}
    (h : hit i v (lead - 16) ≠ none) (n : Nat) :
    i.holds (search i v lead (n + 1)).digits (search i v lead (n + 1)).exponent = true := by
  induction n with
  | zero =>
    obtain ⟨f, hf⟩ := Option.ne_none_iff_exists'.1 h
    have hgrid : lead - ((16 - 0 : Nat) : Int) = lead - 16 := rfl
    rw [search]
    simp only [hgrid, hf]
    exact holds_of_hit hf
  | succ n ih =>
    rw [search]
    split
    · rename_i f hf
      exact holds_of_hit hf
    · exact ih

/-- Moving zeros into the exponent changes nothing. -/
theorem value_trimZeros (n : Nat) (d : Decimal) : (trimZeros n d).value = d.value := by
  induction n generalizing d with
  | zero => rfl
  | succ n ih =>
    rw [trimZeros]
    split
    · rename_i h
      rw [ih, value, value, zpow_add_one₀ (by norm_num)]
      have hdigits : (d.digits : ℚ) = (d.digits / 10 : Nat) * 10 := by
        exact_mod_cast (Nat.div_mul_cancel (Nat.dvd_of_mod_eq_zero h.2)).symm
      rw [hdigits]
      ring
    · rfl

/-- **The shortest decimal of a double lies in the interval of the double.** -/
theorem roundsTo_shortest {m : Nat} {e : Int} (hm : 0 < m) (hd : IsDouble m e) :
    RoundsTo (shortest m e).value m e := by
  have hvalue : (Fraction.scaled (4 * m) (e - 2)).value = m * 2 ^ e := by
    rw [value_scaled, zpow_sub₀ two_ne_zero]
    push_cast
    ring
  have hden := den_scaled_pos (4 * m) (e - 2)
  have hnum : 0 < (Fraction.scaled (4 * m) (e - 2)).num :=
    Nat.mul_pos (by omega) (Nat.pow_pos two_pos)
  have hlead := pow_leadingDigit_le hnum hden
  rw [shortest, value_trimZeros]
  generalize Fraction.scaled (4 * m) (e - 2) = v at hvalue hden hnum hlead ⊢
  obtain ⟨hbelow, habove⟩ := neighbour_spec hden (leadingDigit v - 16)
  rw [hvalue] at hlead hbelow habove
  have hgrid : (10 : ℚ) ^ (leadingDigit v - 16) * 10 ^ 16 ≤ m * 2 ^ e := by
    have hcast : (10 : ℚ) ^ 16 = 10 ^ (16 : Int) := rfl
    rwa [hcast, ← zpow_add₀ (by norm_num), sub_add_cancel]
  have hhit := hit_ne_none (i := .ofBinary m e) (v := v)
    (holds_seventeen hm hd hgrid hbelow habove)
  exact (holds_ofBinary_iff hm e _ _).1 (holds_search hhit 16)

end Decimal

namespace Binary64

open Decimal

theorem RoundsTo.pos {x : ℚ} {m : Nat} {e : Int} (h : RoundsTo x m e) (hm : 0 < m) :
    (2 : ℚ) ^ (e - 1) ≤ x := by
  have hpos : (0 : ℚ) < 2 ^ e := by positivity
  have hm' : (1 : ℚ) ≤ m := by exact_mod_cast hm
  have hhalf : (2 : ℚ) ^ (e - 1) = 2 ^ e / 2 := zpow_sub_one₀ two_ne_zero e
  rw [hhalf]
  rcases h.low_half with h | ⟨h, -⟩ <;> nlinarith

/-- A decimal in the interval of a double is not out of reach by its size alone. -/
theorem RoundsTo.exponent_le {m n : Nat} {e k : Int} (h : RoundsTo (n * 10 ^ k) m e)
    (hd : IsDouble m e) (hn : 0 < n) : k ≤ 400 := by
  by_contra hlt
  have hn' : (1 : ℚ) ≤ n := by exact_mod_cast hn
  have hbig : (2 : ℚ) ^ (1024 : Int) < n * 10 ^ k := by
    calc (2 : ℚ) ^ (1024 : Int) ≤ 2 ^ ((3 : Int) * 400) := zpow_le_zpow_right₀ one_le_two (by omega)
      _ = 8 ^ (400 : Int) := by rw [zpow_mul]; norm_num
      _ < 10 ^ (400 : Int) := zpow_lt_zpow_left₀ (by norm_num) (by norm_num) (by norm_num)
      _ ≤ 10 ^ k := zpow_le_zpow_right₀ (by norm_num) (by omega)
      _ ≤ n * 10 ^ k := le_mul_of_one_le_left (by positivity) hn'
  have hsmall : (2 : ℚ) ^ (53 + e) ≤ 2 ^ (1024 : Int) := by
    have := hd.le_max
    rw [maxExponent] at this
    exact zpow_le_zpow_right₀ one_le_two (by omega)
  exact absurd (h.lt hd.lt) (not_lt.2 (hsmall.trans hbig.le))

theorem RoundsTo.le_log2 {m n : Nat} {e k : Int} (h : RoundsTo (n * 10 ^ k) m e)
    (hm : 0 < m) (hd : IsDouble m e) (hk : k < 0) : -1100 ≤ (n.log2 : Int) + 1 + 3 * k := by
  have hlow : (2 : ℚ) ^ (-1075 : Int) ≤ n * 10 ^ k := by
    refine le_trans ?_ (h.pos hm)
    have := hd.min_le
    rw [minExponent] at this
    exact zpow_le_zpow_right₀ one_le_two (by omega)
  have hhigh : (n : ℚ) * 10 ^ k < 2 ^ ((n.log2 : Int) + 1 + 3 * k) := by
    have hn : (n : ℚ) < 2 ^ ((n.log2 : Int) + 1) := by exact_mod_cast Nat.lt_log2_self
    have hten : (10 : ℚ) ^ k ≤ 2 ^ (3 * k) := by
      obtain ⟨j, rfl⟩ : ∃ j : Nat, k = -(j : Int) := ⟨k.natAbs, by omega⟩
      have height : (2 : ℚ) ^ (3 * -(j : Int)) = 8 ^ (-(j : Int)) := by
        rw [zpow_mul]
        norm_num
      rw [height, zpow_neg, zpow_neg, zpow_natCast, zpow_natCast]
      gcongr
      norm_num
    rw [zpow_add₀ two_ne_zero]
    calc (n : ℚ) * 10 ^ k < 2 ^ ((n.log2 : Int) + 1) * 10 ^ k := by gcongr
      _ ≤ 2 ^ ((n.log2 : Int) + 1) * 2 ^ (3 * k) := by gcongr
  have := (zpow_lt_zpow_iff_right₀ (one_lt_two (α := ℚ))).1 (hlow.trans_lt hhigh)
  omega

/-- **A decimal in the interval of a double goes to the double.** -/
theorem ofDecimal_eq {negative : Bool} {m n : Nat} {e k : Int} (hm : 0 < m) (hd : IsDouble m e)
    (h : RoundsTo (n * 10 ^ k) m e) : ofDecimal negative n k = .finite negative m e := by
  have hn : 0 < n := by
    rw [Nat.pos_iff_ne_zero]
    rintro rfl
    have hpos : (0 : ℚ) < 2 ^ (e - 1) := by positivity
    have := h.pos hm
    simp only [Nat.cast_zero, zero_mul] at this
    linarith
  have hlarge := h.exponent_le hd hn
  have hsmall : ¬ (k < 0 ∧ (n.log2 : Int) + 1 + 3 * k < -1100) := by
    rintro ⟨hk, hlt⟩
    exact absurd hlt (not_lt.2 (h.le_log2 hm hd hk))
  rw [ofDecimal, if_neg hn.ne', if_neg (by omega), if_neg hsmall]
  refine ofFraction_eq (Nat.mul_pos hn (Nat.pow_pos (by norm_num)))
    (Nat.pow_pos (by norm_num)) hd ?_
  rwa [natCast_mul_zpow]

end Binary64

end LockPrune
