/-!
# Double-precision numbers

A double is a signed multiple of a power of two, or an infinity, or not a number.
Everything here is integer arithmetic, so that a statement about numbers is a
statement about naturals.

## Main definitions

* `Binary64` — the doubles; a finite one is `mantissa * 2 ^ exponent`.
* `Binary64.ofDecimal` — the double nearest to a decimal number, a tie going to
  the even mantissa.
* `Binary64.same` — equality of doubles as numbers: the two zeros are one number,
  and a value that is not a number equals itself.
-/

namespace LockPrune

/-- A double-precision number.  A finite one has a mantissa below `2 ^ 53` and an
exponent from `-1074` to `971`; the mantissa is at least `2 ^ 52` unless the
exponent is the smallest. -/
inductive Binary64 where
  | finite (negative : Bool) (mantissa : Nat) (exponent : Int)
  | infinite (negative : Bool)
  | nan
  deriving DecidableEq, Repr, Inhabited

namespace Binary64

/-- The smallest exponent of a finite double. -/
def minExponent : Int := -1074

/-- The largest exponent of a finite double. -/
def maxExponent : Int := 971

/-- The quotient rounded to the nearest natural, a tie going to the even one. -/
def divNearestEven (num den : Nat) : Nat :=
  let q := num / den
  let r := num % den
  if 2 * r < den then q
  else if den < 2 * r then q + 1
  else if q % 2 = 0 then q else q + 1

/-- The exponent of the leading bit of the positive fraction `num / den`. -/
def leadingBit (num den : Nat) : Int :=
  let d : Int := (num.log2 : Int) - (den.log2 : Int)
  if den * Nat.pow 2 d.toNat ≤ num * Nat.pow 2 (-d).toNat then d else d - 1

/-- The double nearest to the fraction `num / den`. -/
def ofFraction (negative : Bool) (num den : Nat) : Binary64 :=
  if num = 0 then .finite negative 0 minExponent
  else
    let e := max (leadingBit num den - 52) minExponent
    let m := divNearestEven (num * Nat.pow 2 (-e).toNat) (den * Nat.pow 2 e.toNat)
    if m = Nat.pow 2 53 then
      if maxExponent < e + 1 then .infinite negative
      else .finite negative (Nat.pow 2 52) (e + 1)
    else if maxExponent < e then .infinite negative
    else .finite negative m e

/-- The double nearest to `digits * 10 ^ exponent`.  Numbers that are out of
reach of every finite double by their size alone are not expanded. -/
def ofDecimal (negative : Bool) (digits : Nat) (exponent : Int) : Binary64 :=
  if digits = 0 then .finite negative 0 minExponent
  else if 400 < exponent then .infinite negative
  else if exponent < 0 ∧ (digits.log2 : Int) + 1 + 3 * exponent < -1100 then
    .finite negative 0 minExponent
  else
    ofFraction negative (digits * Nat.pow 10 exponent.toNat) (Nat.pow 10 (-exponent).toNat)

/-- Whether the number is neither infinite nor missing. -/
def isFinite : Binary64 → Bool
  | .finite .. => true
  | _ => false

/-- Equality of doubles as numbers. -/
def same : Binary64 → Binary64 → Bool
  | .finite s m e, .finite s' m' e' => (m = 0 && m' = 0) || (s = s' && m = m' && e = e')
  | .infinite s, .infinite s' => s = s'
  | .nan, .nan => true
  | _, _ => false

end Binary64

end LockPrune
