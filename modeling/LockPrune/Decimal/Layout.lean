import LockPrune.Decimal.Shortest

/-!
# The text of a double

Two ways of writing a double down: with a point and an exponent where the number is
large or small, as data is stored, and always positionally, as messages have it.
Both use the digits of the shortest decimal that reads back.

## Main definitions

* `Binary64.stored`, `Binary64.text` — positional while the point stands within sixteen
  digits, or less than five zeros before the first digit; otherwise with an exponent.
* `Binary64.positional` — without an exponent, whatever the size.
-/

namespace LockPrune

namespace Decimal

/-- The digits of a decimal, without its exponent. -/
def digitText (d : Decimal) : List Char :=
  Nat.toDigits 10 d.digits

/-- `n` zeros. -/
def zeros (n : Nat) : List Char :=
  List.replicate n '0'

/-- The decimal without an exponent, with a point and at least one digit on both
sides of it. -/
def positional (d : Decimal) : List Char :=
  let ds := d.digitText
  let point : Int := ds.length + d.exponent
  if 0 ≤ d.exponent then ds ++ zeros d.exponent.toNat ++ ['.', '0']
  else if 0 < point then ds.take point.toNat ++ '.' :: ds.drop point.toNat
  else '0' :: '.' :: zeros (-point).toNat ++ ds

/-- The decimal with one digit before the point and an exponent, which has the sign `plus`
in front unless it is negative. -/
def scientific (plus : List Char) (d : Decimal) : List Char :=
  let ds := d.digitText
  let e : Int := ds.length + d.exponent - 1
  ds.take 1 ++ (if ds.length = 1 then [] else '.' :: ds.drop 1) ++
    'e' :: (if e < 0 then [] else plus) ++ (toString e).toList

/-- Positional notation is used while the point stands at most sixteen digits after
the first digit, or less than five zeros before it. -/
def isPositional (d : Decimal) : Bool :=
  let point : Int := d.digitText.length + d.exponent
  decide (point > -5 ∧ point ≤ 16)

end Decimal

namespace Binary64

/-- The text of the number with a mark for its sign. -/
def signed (negative : Bool) (s : List Char) : String :=
  String.ofList (if negative then '-' :: s else s)

/-- A double as data stores it, with the sign `plus` before an exponent that is not
negative. -/
def stored (plus : List Char) : Binary64 → String
  | .finite negative 0 _ => signed negative ['0', '.', '0']
  | .finite negative m e =>
    let d := Decimal.shortest m e
    signed negative (if d.isPositional then d.positional else d.scientific plus)
  | .infinite negative => signed negative ".inf".toList
  | .nan => ".nan"

/-- A double as YAML stores it: only a negative exponent has a sign. -/
def text (x : Binary64) : String :=
  x.stored []

/-- A double as a message shows it. -/
def positional : Binary64 → String
  | .finite negative 0 _ => signed negative ['0', '.', '0']
  | .finite negative m e => signed negative (Decimal.shortest m e).positional
  | .infinite negative => signed negative "inf".toList
  | .nan => "NaN"

end Binary64

end LockPrune
