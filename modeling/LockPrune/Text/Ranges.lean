/-!
# Character classes as lists of code point ranges

A class of characters beyond ASCII is written as a list of closed ranges of
code points, in increasing order.  The tables of this library are of this form.

## Main definitions

* `inRanges ranges n` — whether one of the ranges holds `n`.
-/

namespace LockPrune.Text

/-- Whether one of the closed ranges holds the code point `n`. -/
def inRanges (ranges : List (Nat × Nat)) (n : Nat) : Bool :=
  ranges.any fun range => range.1 ≤ n && n ≤ range.2

end LockPrune.Text
