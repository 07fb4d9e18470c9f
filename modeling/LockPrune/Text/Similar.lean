/-!
# Similar words

A word that is not known may be a known one with a slip in it.  How like two words are is the
mean of three shares.  Equal characters of both make pairs if they stand nearly at the same
place; two shares tell how much of either word is paired, and the third how much of what is
paired stands in the same order in both.

## Main definitions

* `Likeness`, `likeness` — how like two words are.
* `similar word names` — the names that are like a word, the most like one last.
* `closest?` — the name that is most like a word.
-/

namespace LockPrune.Text

/-! ## Pairs -/

/-- Pairs the first free character equal to `c` that stands from place `low` to place `high`;
the characters stand with a mark that says whether they are paired, from place `i` on. -/
def pairFirst (c : Char) (low high : Nat) : Nat → List (Char × Bool) → Option (List (Char × Bool))
  | _, [] => none
  | i, (d, paired) :: rest =>
    if low ≤ i && i ≤ high && d = c && !paired then some ((d, true) :: rest)
    else (pairFirst c low high (i + 1) rest).map ((d, paired) :: ·)

/-- The characters that find a partner at most `reach` places away, the first of them standing
at place `i`, and the other word with its marks. -/
def pairAll (reach : Nat) : Nat → List Char → List (Char × Bool) → List Char × List (Char × Bool)
  | _, [], marked => ([], marked)
  | i, c :: rest, marked =>
    match pairFirst c (i - reach) (i + reach) 0 marked with
    | some marked =>
      let (paired, marked) := pairAll reach (i + 1) rest marked
      (c :: paired, marked)
    | none => pairAll reach (i + 1) rest marked

/-! ## Likeness -/

/-- How like two words are, as `part` of `whole`. -/
structure Likeness where
  part : Nat
  whole : Nat
  deriving DecidableEq, Repr

namespace Likeness

/-- Words are similar that are like each other to seven tenths. -/
def isEnough (l : Likeness) : Bool :=
  7 * l.whole ≤ 10 * l.part

/-- One likeness is not greater than another. -/
def isAtMost (l k : Likeness) : Bool :=
  l.part * k.whole ≤ k.part * l.whole

end Likeness

/-- How like two words are: with `m` pairs, of which `t` pairs of places are out of order, the
mean of `m / a.length`, `m / b.length` and `(m - t) / m`. -/
def likeness (a b : List Char) : Likeness :=
  let reach := max a.length b.length / 2 - 1
  let (left, marked) := pairAll reach 0 a (b.map (·, false))
  let right := (marked.filter Prod.snd).map Prod.fst
  let m := left.length
  let t := ((left.zip right).filter fun p => p.1 ≠ p.2).length / 2
  if a.isEmpty && b.isEmpty then ⟨1, 1⟩
  else if m = 0 then ⟨0, 1⟩
  else ⟨m * m * (a.length + b.length) + (m - t) * a.length * b.length,
    3 * m * a.length * b.length⟩

/-- The names that are similar to a word, from the least to the most like it. -/
def similar (word : String) (names : List String) : List String :=
  let rated := names.map fun name => (likeness word.toList name.toList, name)
  ((rated.filter fun p => p.1.isEnough).mergeSort fun p q => p.1.isAtMost q.1).map Prod.snd

/-- The name that is most like a word, if one is similar to it. -/
def closest? (word : String) (names : List String) : Option String :=
  (similar word names).getLast?

end LockPrune.Text
