import LockPrune.Decimal.Binary64
import Mathlib.Algebra.Order.Field.Power
import Mathlib.Data.Nat.Log
import Mathlib.Tactic.FieldSimp
import Mathlib.Tactic.Linarith
import Mathlib.Tactic.Positivity
import Mathlib.Tactic.Ring

/-!
# Rounding to doubles

A positive fraction goes to the double whose interval it lies in: up to half a step on either
side, or a quarter below a power of two, where the doubles lie twice as close.  The ends of the
interval belong to it when the mantissa is even.

## Main definitions

* `Binary64.IsCanonical` — the mantissa and the exponent are those of a double.
* `Binary64.RoundsTo` — a number lies in the interval of a double.

## Main statements

* `ofFraction_eq` — a fraction goes to the double whose interval it lies in.
* `isCanonical_ofFraction`, `isCanonical_ofDecimal` — what comes out is a double.
-/

namespace LockPrune.Binary64

/-! ## Quotients -/

/-- The nearest natural to a quotient, or the even one of two that are as near. -/
theorem divNearestEven_eq {num den m : Nat} (hden : 0 < den)
    (hlow : 2 * m * den < 2 * num + den ∨ 2 * m * den = 2 * num + den ∧ m % 2 = 0)
    (hhigh : 2 * num < (2 * m + 1) * den ∨ 2 * num = (2 * m + 1) * den ∧ m % 2 = 0) :
    divNearestEven num den = m := by
  have hdiv := Nat.div_add_mod num den
  have hmod := Nat.mod_lt num hden
  rw [divNearestEven]
  generalize num / den = q at hdiv
  generalize num % den = r at hdiv hmod
  have hle : q ≤ m := by
    by_contra hlt
    have : (m + 1) * den ≤ q * den := Nat.mul_le_mul_right den (Nat.lt_of_not_le hlt)
    rcases hhigh with h | ⟨h, -⟩ <;> nlinarith
  have hge : m ≤ q + 1 := by
    by_contra hlt
    have : (q + 2) * den ≤ m * den := Nat.mul_le_mul_right den (Nat.lt_of_not_le hlt)
    rcases hlow with h | ⟨h, -⟩ <;> nlinarith
  obtain rfl | rfl : m = q ∨ m = q + 1 := by omega
  · -- the quotient is rounded down
    have hr : 2 * r < den ∨ 2 * r = den ∧ m % 2 = 0 := by
      rcases hhigh with h | ⟨h, heven⟩
      · left; nlinarith
      · right; exact ⟨by nlinarith, heven⟩
    rcases hr with h | ⟨h, heven⟩
    · simp [h]
    · simp [h, heven]
  · -- the quotient is rounded up
    have hr : den < 2 * r ∨ den = 2 * r ∧ (q + 1) % 2 = 0 := by
      rcases hlow with h | ⟨h, heven⟩
      · left; nlinarith
      · right; exact ⟨by nlinarith, heven⟩
    rcases hr with h | ⟨h, heven⟩
    · rw [if_neg (by omega), if_pos h]
    · rw [if_neg (by omega), if_neg (by omega), if_neg (by omega)]

theorem le_divNearestEven {num den m : Nat} (hden : 0 < den) (h : m * den ≤ num) :
    m ≤ divNearestEven num den := by
  have hle : m ≤ num / den := (Nat.le_div_iff_mul_le hden).2 h
  rw [divNearestEven]
  split_ifs <;> omega

theorem divNearestEven_le {num den m : Nat} (hden : 0 < den) (h : num < m * den) :
    divNearestEven num den ≤ m := by
  have hlt : num / den < m := (Nat.div_lt_iff_lt_mul hden).2 h
  rw [divNearestEven]
  split_ifs <;> omega

/-! ## Powers -/

/-- A power of a natural as a fraction of naturals. -/
theorem zpow_eq_div {b : Nat} (hb : 0 < b) (e : Int) :
    (b : ℚ) ^ e = (Nat.pow b e.toNat : Nat) / (Nat.pow b (-e).toNat : Nat) := by
  have hne : (b : ℚ) ≠ 0 := by positivity
  simp only [Nat.pow_eq, Nat.cast_pow]
  obtain ⟨n, rfl | rfl⟩ := e.eq_nat_or_neg
  · simp
  · simp

theorem two_zpow_add (n : Nat) (e : Int) : (2 : ℚ) ^ (n + e) = 2 ^ n * 2 ^ e := by
  rw [zpow_add₀ two_ne_zero, zpow_natCast]

/-- A fraction is compared with a power without any division. -/
theorem mul_pow_le_iff {b num den : Nat} (hb : 0 < b) (hden : 0 < den) (e : Int) :
    den * Nat.pow b e.toNat ≤ num * Nat.pow b (-e).toNat ↔ (b : ℚ) ^ e ≤ (num : ℚ) / den := by
  have hpos : 0 < Nat.pow b (-e).toNat := Nat.pow_pos hb
  rw [zpow_eq_div hb, div_le_div_iff₀ (by exact_mod_cast hpos) (by exact_mod_cast hden),
    mul_comm den]
  exact_mod_cast Iff.rfl

/-! ## The leading bit -/

/-- A positive fraction lies between two powers of two. -/
theorem leadingBit_spec {num den : Nat} (hnum : 0 < num) (hden : 0 < den) :
    (2 : ℚ) ^ leadingBit num den ≤ (num : ℚ) / den ∧
      (num : ℚ) / den < 2 ^ (leadingBit num den + 1) := by
  have hn := Nat.log2_self_le hnum.ne'
  have hn' := Nat.lt_log2_self (n := num)
  have hd := Nat.log2_self_le hden.ne'
  have hd' := Nat.lt_log2_self (n := den)
  have hden' : (0 : ℚ) < den := by exact_mod_cast hden
  -- the two logarithms leave two candidates
  have hlow : (2 : ℚ) ^ ((num.log2 : Int) - den.log2 - 1) ≤ (num : ℚ) / den := by
    rw [le_div_iff₀ hden']
    calc (2 : ℚ) ^ ((num.log2 : Int) - den.log2 - 1) * den
        ≤ 2 ^ ((num.log2 : Int) - den.log2 - 1) * 2 ^ ((den.log2 : Int) + 1) := by
          gcongr
          exact_mod_cast hd'.le
      _ = 2 ^ (num.log2 : Int) := by
          rw [← zpow_add₀ two_ne_zero]
          congr 1
          ring
      _ ≤ num := by exact_mod_cast hn
  have hhigh : (num : ℚ) / den < 2 ^ ((num.log2 : Int) - den.log2 + 1) := by
    rw [div_lt_iff₀ hden']
    calc (num : ℚ) < 2 ^ ((num.log2 : Int) + 1) := by exact_mod_cast hn'
      _ = 2 ^ ((num.log2 : Int) - den.log2 + 1) * 2 ^ (den.log2 : Int) := by
          rw [← zpow_add₀ two_ne_zero]
          congr 1
          ring
      _ ≤ 2 ^ ((num.log2 : Int) - den.log2 + 1) * den := by
          gcongr
          exact_mod_cast hd
  rw [leadingBit]
  split
  · rename_i h
    exact ⟨by exact_mod_cast (mul_pow_le_iff two_pos hden _).1 h, hhigh⟩
  · rename_i h
    refine ⟨hlow, ?_⟩
    rw [mul_pow_le_iff two_pos hden, not_le] at h
    simpa using h

theorem leadingBit_eq {num den : Nat} {k : Int} (hnum : 0 < num) (hden : 0 < den)
    (hlow : (2 : ℚ) ^ k ≤ (num : ℚ) / den) (hhigh : (num : ℚ) / den < 2 ^ (k + 1)) :
    leadingBit num den = k := by
  obtain ⟨hlow', hhigh'⟩ := leadingBit_spec hnum hden
  have h1 := (zpow_lt_zpow_iff_right₀ (one_lt_two (α := ℚ))).1 (hlow.trans_lt hhigh')
  have h2 := (zpow_lt_zpow_iff_right₀ (one_lt_two (α := ℚ))).1 (hlow'.trans_lt hhigh)
  omega

/-! ## Doubles -/

/-- The mantissa and the exponent of a double. -/
structure IsDouble (m : Nat) (e : Int) : Prop where
  lt : m < 2 ^ 53
  normal : 2 ^ 52 ≤ m ∨ e = minExponent
  min_le : minExponent ≤ e
  le_max : e ≤ maxExponent

/-- A finite number has the mantissa and the exponent of a double. -/
def IsCanonical : Binary64 → Prop
  | .finite _ m e => IsDouble m e
  | _ => True

/-- The lower end of the interval of a double. -/
def lowEnd (m : Nat) (e : Int) : ℚ :=
  if m = 2 ^ 52 ∧ minExponent < e then (m - 1 / 4) * 2 ^ e else (m - 1 / 2) * 2 ^ e

/-- A number lies in the interval of a double. -/
structure RoundsTo (x : ℚ) (m : Nat) (e : Int) : Prop where
  low : lowEnd m e < x ∨ lowEnd m e = x ∧ m % 2 = 0
  high : x < (m + 1 / 2) * 2 ^ e ∨ x = (m + 1 / 2) * 2 ^ e ∧ m % 2 = 0

/-- The nearest natural to a multiple of a power of two. -/
theorem divNearestEven_scaled {num den m : Nat} {e : Int} (hden : 0 < den)
    (hlow : ((m : ℚ) - 1 / 2) * 2 ^ e < num / den ∨
      ((m : ℚ) - 1 / 2) * 2 ^ e = num / den ∧ m % 2 = 0)
    (hhigh : (num : ℚ) / den < (m + 1 / 2) * 2 ^ e ∨
      (num : ℚ) / den = (m + 1 / 2) * 2 ^ e ∧ m % 2 = 0) :
    divNearestEven (num * Nat.pow 2 (-e).toNat) (den * Nat.pow 2 e.toNat) = m := by
  have hpow := zpow_eq_div two_pos e
  have ha : 0 < Nat.pow 2 (-e).toNat := Nat.pow_pos two_pos
  have hb : 0 < Nat.pow 2 e.toNat := Nat.pow_pos two_pos
  rw [Nat.cast_two] at hpow
  rw [hpow] at hlow hhigh
  generalize Nat.pow 2 (-e).toNat = a at ha hlow hhigh
  generalize Nat.pow 2 e.toNat = b at hb hlow hhigh
  have hden' : (0 : ℚ) < den := by exact_mod_cast hden
  have ha' : (0 : ℚ) < a := by exact_mod_cast ha
  have hleft : ∀ c : ℚ, c * ((b : ℚ) / a) = c * b / a := fun c => by ring
  rw [hleft] at hlow hhigh
  rw [div_lt_div_iff₀ ha' hden', div_eq_div_iff ha'.ne' hden'.ne'] at hlow
  rw [div_lt_div_iff₀ hden' ha', div_eq_div_iff hden'.ne' ha'.ne'] at hhigh
  refine divNearestEven_eq (Nat.mul_pos hden hb) ?_ ?_
  · rcases hlow with h | ⟨h, heven⟩
    · left
      have : (2 * m * (den * b) : ℚ) < 2 * (num * a) + den * b := by linarith
      exact_mod_cast this
    · right
      have : (2 * m * (den * b) : ℚ) = 2 * (num * a) + den * b := by linarith
      exact ⟨by exact_mod_cast this, heven⟩
  · rcases hhigh with h | ⟨h, heven⟩
    · left
      have : (2 * (num * a) : ℚ) < (2 * m + 1) * (den * b) := by linarith
      exact_mod_cast this
    · right
      have : (2 * (num * a) : ℚ) = (2 * m + 1) * (den * b) := by linarith
      exact ⟨by exact_mod_cast this, heven⟩

/-- A fraction is compared with a multiple of a power of two without any division. -/
theorem div_lt_mul_zpow_iff {num den m : Nat} {e : Int} (hden : 0 < den) :
    (num : ℚ) / den < m * 2 ^ e ↔
      num * Nat.pow 2 (-e).toNat < m * (den * Nat.pow 2 e.toNat) := by
  have hpow := zpow_eq_div two_pos e
  have ha : 0 < Nat.pow 2 (-e).toNat := Nat.pow_pos two_pos
  rw [Nat.cast_two] at hpow
  rw [hpow, ← mul_div_assoc, div_lt_div_iff₀ (by exact_mod_cast hden) (by exact_mod_cast ha),
    mul_assoc, mul_comm (_ : ℚ) (den : ℚ)]
  exact_mod_cast Iff.rfl

theorem divNearestEven_scaled_le {num den m : Nat} {e : Int} (hden : 0 < den)
    (h : (num : ℚ) / den < m * 2 ^ e) :
    divNearestEven (num * Nat.pow 2 (-e).toNat) (den * Nat.pow 2 e.toNat) ≤ m :=
  divNearestEven_le (Nat.mul_pos hden (Nat.pow_pos two_pos)) ((div_lt_mul_zpow_iff hden).1 h)

theorem le_divNearestEven_scaled {num den m : Nat} {e : Int} (hden : 0 < den)
    (h : m * 2 ^ e ≤ (num : ℚ) / den) :
    m ≤ divNearestEven (num * Nat.pow 2 (-e).toNat) (den * Nat.pow 2 e.toNat) := by
  refine le_divNearestEven (Nat.mul_pos hden (Nat.pow_pos two_pos)) ?_
  rwa [← not_lt, div_lt_mul_zpow_iff hden, not_lt] at h

/-! ## Fractions -/

theorem RoundsTo.low_half {x : ℚ} {m : Nat} {e : Int} (h : RoundsTo x m e) :
    ((m : ℚ) - 1 / 2) * 2 ^ e < x ∨ ((m : ℚ) - 1 / 2) * 2 ^ e = x ∧ m % 2 = 0 := by
  have hpos : (0 : ℚ) < 2 ^ e := by positivity
  have hlow := h.low
  rw [lowEnd] at hlow
  split_ifs at hlow with hedge
  · left
    rcases hlow with h | ⟨h, -⟩ <;> nlinarith
  · exact hlow

theorem RoundsTo.lt {x : ℚ} {m : Nat} {e : Int} (h : RoundsTo x m e) (hm : m < 2 ^ 53) :
    x < 2 ^ (53 + e) := by
  have hpos : (0 : ℚ) < 2 ^ e := by positivity
  have hm' : (m : ℚ) + 1 ≤ 2 ^ 53 := by exact_mod_cast hm
  rw [show (53 : Int) = (53 : Nat) from rfl, two_zpow_add]
  rcases h.high with h | ⟨h, -⟩ <;> nlinarith

/-- Below a power of two, what goes to it lies within a quarter of its step. -/
theorem RoundsTo.below {x : ℚ} {m : Nat} {e : Int} (h : RoundsTo x m e) (hd : IsDouble m e)
    (hmin : minExponent < e) (hx : x < 2 ^ (52 + e)) :
    m = 2 ^ 52 ∧ ((2 : ℚ) ^ 53 - 1 / 2) * 2 ^ (e - 1) ≤ x := by
  have hpos : (0 : ℚ) < 2 ^ e := by positivity
  rw [show (52 : Int) = (52 : Nat) from rfl, two_zpow_add] at hx
  have hge : 2 ^ 52 ≤ m := hd.normal.resolve_right hmin.ne'
  have hm : m = 2 ^ 52 := by
    by_contra hne
    have hge' : ((2 : ℚ) ^ 52 + 1) ≤ m := by
      have : 2 ^ 52 + 1 ≤ m := by omega
      exact_mod_cast this
    rcases h.low_half with h | ⟨h, -⟩ <;> nlinarith
  refine ⟨hm, ?_⟩
  have hlow := h.low
  rw [lowEnd, if_pos ⟨hm, hmin⟩, hm] at hlow
  rw [zpow_sub_one₀ two_ne_zero]
  push_cast at hlow
  rcases hlow with h | ⟨h, -⟩ <;> linarith

/-- What lies below a power of two and goes to it is rounded up to it, with the exponent that it
has by itself. -/
theorem RoundsTo.rounds_up {num den m : Nat} {e : Int} (hnum : 0 < num) (hden : 0 < den)
    (h : RoundsTo (num / den) m e) (hd : IsDouble m e) (hmin : minExponent < e)
    (hx : (num : ℚ) / den < 2 ^ (52 + e)) :
    leadingBit num den = 51 + e ∧
      divNearestEven (num * Nat.pow 2 (-(e - 1)).toNat) (den * Nat.pow 2 (e - 1).toNat) =
        2 ^ 53 := by
  obtain ⟨-, hbelow⟩ := h.below hd hmin hx
  have hpos : (0 : ℚ) < 2 ^ (e - 1) := by positivity
  have hhalf : (2 : ℚ) ^ (51 + e) = 2 ^ 52 * 2 ^ (e - 1) := by
    rw [← two_zpow_add]
    congr 1
    ring
  have hwhole : (2 : ℚ) ^ (52 + e) = 2 ^ 53 * 2 ^ (e - 1) := by
    rw [← two_zpow_add]
    congr 1
    ring
  constructor
  · refine leadingBit_eq hnum hden ?_ (hx.trans_eq ?_)
    · rw [hhalf]
      nlinarith
    · congr 1
      ring
  · refine divNearestEven_scaled hden ?_ (.inl ?_)
    · push_cast
      rcases hbelow.lt_or_eq with hlt | heq
      · exact .inl hlt
      · exact .inr ⟨heq, by decide⟩
    · push_cast
      nlinarith [hx]

/-- **A fraction goes to the double whose interval it lies in.** -/
theorem ofFraction_eq {negative : Bool} {num den m : Nat} {e : Int} (hnum : 0 < num)
    (hden : 0 < den) (hd : IsDouble m e) (h : RoundsTo (num / den) m e) :
    ofFraction negative num den = .finite negative m e := by
  have hlt := h.lt hd.lt
  have hle := hd.le_max
  rw [ofFraction, if_neg hnum.ne']
  by_cases hx : (2 : ℚ) ^ (52 + e) ≤ num / den ∨ e = minExponent
  · -- the fraction has the exponent of the double
    have hexponent : max (leadingBit num den - 52) minExponent = e := by
      rcases hx with hx | rfl
      · have hbit : leadingBit num den = 52 + e := by
          refine leadingBit_eq hnum hden hx (hlt.trans_eq ?_)
          congr 1
          ring
        have := hd.min_le
        omega
      · have hbit := (leadingBit_spec hnum hden).1.trans_lt hlt
        have := (zpow_lt_zpow_iff_right₀ (one_lt_two (α := ℚ))).1 hbit
        omega
    simp only [hexponent, divNearestEven_scaled hden h.low_half h.high]
    rw [if_neg (show ¬ m = Nat.pow 2 53 from ne_of_lt hd.lt), if_neg (by omega)]
  · -- the fraction lies below a power of two, and is rounded up to it
    rw [not_or, not_le] at hx
    have hmin : minExponent < e := lt_of_le_of_ne hd.min_le (Ne.symm hx.2)
    obtain ⟨hbit, hup⟩ := h.rounds_up hnum hden hd hmin hx.1
    have hexponent : max (leadingBit num den - 52) minExponent = e - 1 := by omega
    simp only [hexponent, hup]
    rw [if_pos (show 2 ^ 53 = Nat.pow 2 53 from rfl), sub_add_cancel, if_neg (by omega),
      (h.below hd hmin hx.1).1]
    rfl

/-! ## What comes out -/

/-- What comes out of a fraction is a double. -/
theorem isCanonical_ofFraction (negative : Bool) {num den : Nat} (hden : 0 < den) :
    (ofFraction negative num den).IsCanonical := by
  rw [ofFraction]
  split
  · exact ⟨by norm_num, .inr rfl, le_refl _, by decide⟩
  · rename_i hnum
    obtain ⟨hlow, hhigh⟩ := leadingBit_spec (Nat.pos_of_ne_zero hnum) hden
    generalize he : max (leadingBit num den - 52) minExponent = e
    have hmin : minExponent ≤ e := he ▸ le_max_right _ _
    have hm : divNearestEven (num * Nat.pow 2 (-e).toNat) (den * Nat.pow 2 e.toNat) ≤ 2 ^ 53 := by
      refine divNearestEven_scaled_le hden (hhigh.trans_le ?_)
      rw [Nat.cast_pow, Nat.cast_two, ← two_zpow_add]
      exact zpow_le_zpow_right₀ one_le_two (by omega)
    have hnormal : minExponent < e → 2 ^ 52 ≤
        divNearestEven (num * Nat.pow 2 (-e).toNat) (den * Nat.pow 2 e.toNat) := by
      intro hmin
      refine le_divNearestEven_scaled hden (le_trans (le_of_eq ?_) hlow)
      rw [Nat.cast_pow, Nat.cast_two, ← two_zpow_add]
      congr 1
      omega
    simp only
    generalize divNearestEven (num * Nat.pow 2 (-e).toNat) (den * Nat.pow 2 e.toNat) = m
      at hm hnormal ⊢
    split
    · split
      · trivial
      · rename_i hmax
        exact ⟨by norm_num, .inl (le_refl _), by omega, by omega⟩
    · rename_i hne
      split
      · trivial
      · rename_i hmax
        refine ⟨lt_of_le_of_ne hm hne, ?_, hmin, by omega⟩
        rcases hmin.lt_or_eq with hlt | heq
        · exact .inl (hnormal hlt)
        · exact .inr heq.symm

/-- What comes out of a decimal is a double. -/
theorem isCanonical_ofDecimal (negative : Bool) (digits : Nat) (exponent : Int) :
    (ofDecimal negative digits exponent).IsCanonical := by
  have hzero : IsDouble 0 minExponent := ⟨by norm_num, .inr rfl, le_refl _, by decide⟩
  rw [ofDecimal]
  split_ifs
  · exact hzero
  · trivial
  · exact hzero
  · exact isCanonical_ofFraction negative (Nat.pow_pos (by norm_num))

end LockPrune.Binary64
