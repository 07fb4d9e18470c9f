import LockPrune.Decimal.Binary64

/-!
# The shortest decimal of a double

Of the decimals that read back as a given double, those with the fewest digits
are kept, and of these the one nearest to the double.  A decimal reads back when
it lies in the interval of the reals that round to the double; the ends belong to
the interval exactly when the mantissa is even.

For one digit, two digits, and so on, the two neighbours of the double on the grid
of decimals with that many digits are tried.  If a point of a grid lies in the
interval then so does one of these two, so the first grid with a hit has the fewest
digits.

## Main definitions

* `Decimal` — a natural times a power of ten.
* `shortest m e` — the shortest decimal of the double `m * 2 ^ e`.
-/

namespace LockPrune

/-- The number `digits * 10 ^ exponent`. -/
structure Decimal where
  digits : Nat
  exponent : Int
  deriving DecidableEq, Repr

namespace Decimal

/-- A positive fraction. -/
structure Fraction where
  num : Nat
  den : Nat

/-- The fraction `n * 2 ^ e`. -/
def Fraction.scaled (n : Nat) (e : Int) : Fraction :=
  ⟨n * Nat.pow 2 e.toNat, Nat.pow 2 (-e).toNat⟩

/-- The number of decimal digits of a natural, at least one. -/
def digitCount (n : Nat) : Nat :=
  (Nat.toDigits 10 n).length

/-- The exponent of the leading decimal digit of a positive fraction. -/
def leadingDigit (v : Fraction) : Int :=
  if v.den ≤ v.num then (digitCount (v.num / v.den) : Int) - 1
  else
    let c := (v.den + v.num - 1) / v.num
    Int.negOfNat (digitCount (c - 1))

/-- The reals that round to a double: its two ends, and whether they belong. -/
structure Interval where
  low : Fraction
  high : Fraction
  closed : Bool

/-- Whether `n * 10 ^ e` lies in the interval. -/
def Interval.holds (i : Interval) (n : Nat) (e : Int) : Bool :=
  let num := n * Nat.pow 10 e.toNat
  let den := Nat.pow 10 (-e).toNat
  let low := i.low.num * den
  let low' := num * i.low.den
  let high := num * i.high.den
  let high' := i.high.num * den
  if i.closed then low ≤ low' && high ≤ high' else low < low' && high < high'

/-- The interval of the reals that round to `m * 2 ^ e`.  Below a power of two the
doubles lie twice as close. -/
def Interval.ofBinary (m : Nat) (e : Int) : Interval :=
  let below := if m = Nat.pow 2 52 ∧ Binary64.minExponent < e then 1 else 2
  ⟨.scaled (4 * m - below) (e - 2), .scaled (4 * m + 2) (e - 2), m % 2 = 0⟩

/-- The neighbours of `v` on the grid of the multiples of `10 ^ e`: the multiple
below, and whether the one above is nearer (`gt`), as near (`eq`) or farther. -/
def neighbour (v : Fraction) (e : Int) : Nat × Ordering :=
  let num := v.num * Nat.pow 10 (-e).toNat
  let den := v.den * Nat.pow 10 e.toNat
  (num / den, compare (2 * (num % den)) den)

/-- The multiple of `10 ^ e` in the interval that is nearest to `v`, if there is
one; of two as near the even one. -/
def hit (i : Interval) (v : Fraction) (e : Int) : Option Nat :=
  let (f, half) := neighbour v e
  match i.holds f e, i.holds (f + 1) e with
  | false, false => none
  | true, false => some f
  | false, true => some (f + 1)
  | true, true =>
    match half with
    | .lt => some f
    | .gt => some (f + 1)
    | .eq => if f % 2 = 0 then some f else some (f + 1)

/-- Tries the grids of `17 - n`, …, `17` digits. -/
def search (i : Interval) (v : Fraction) (lead : Int) : Nat → Decimal
  | 0 => ⟨(neighbour v (lead - 16)).1, lead - 16⟩
  | n + 1 =>
    let e := lead - (16 - n : Nat)
    match hit i v e with
    | some f => ⟨f, e⟩
    | none => search i v lead n

/-- Moves zeros at the end of the digits into the exponent; the count bounds how
many. -/
def trimZeros : Nat → Decimal → Decimal
  | 0, d => d
  | n + 1, d =>
    if d.digits ≠ 0 ∧ d.digits % 10 = 0 then trimZeros n ⟨d.digits / 10, d.exponent + 1⟩ else d

/-- The shortest decimal that reads back as the positive double `m * 2 ^ e`. -/
def shortest (m : Nat) (e : Int) : Decimal :=
  let v := Fraction.scaled (4 * m) (e - 2)
  trimZeros 20 (search (.ofBinary m e) v (leadingDigit v) 17)

end Decimal

end LockPrune
