import LockPrune.Yaml.Cursor

/-!
# The gaps inside a scalar

A plain or quoted scalar may go on over several lines.  What stands between two of
its words is a gap: blanks, or ends of line with blanks around them.  Within a line a
gap is kept as it is; a single end of line reads as a space, and of several the first
is left out.

## Main definitions

* `Gap` — what stands between two words.
* `Gap.text` — what it reads as.
* `Gap.read` — the gap that a text begins with.
-/

namespace LockPrune.Yaml

/-- What stands between two words of a scalar. -/
structure Gap where
  /-- The blanks, if no line ends. -/
  blanks : List Char
  /-- Whether a line ends. -/
  broken : Bool
  /-- The first end of line. -/
  first : List Char
  /-- The further ends of line. -/
  further : List Char
  deriving DecidableEq, Repr

namespace Gap

/-- Nothing stands between. -/
def none : Gap := ⟨[], false, [], []⟩

/-- The line ends by an escape, which reads as nothing. -/
def escaped : Gap := ⟨[], true, [], []⟩

/-- What the gap reads as. -/
def text (g : Gap) : List Char :=
  if g.broken then
    if g.first.head? = some '\n' then
      if g.further.isEmpty then [' '] else g.further
    else g.first ++ g.further
  else g.blanks

/-- The rest of a gap begun as `g`.  After an end of line a tab is refused where
`tabRefused` says so of its column.  The count bounds the number of characters. -/
def read (tabRefused : Nat → Bool) : Nat → Gap → Cursor → Option (Gap × Cursor)
  | 0, g, c => some (g, c)
  | n + 1, g, c =>
    match c.rest with
    | [] => some (g, c)
    | a :: _ =>
      if isGap a then
        if g.broken then
          if a = '\t' && tabRefused c.column then Option.none
          else read tabRefused n g (c.skip 1)
        else read tabRefused n { g with blanks := g.blanks ++ [a] } (c.skip 1)
      else if isBreak a then
        let (line, c) := c.readLine
        if g.broken then read tabRefused n { g with further := g.further ++ line } c
        else read tabRefused n ⟨[], true, line, g.further⟩ c
      else some (g, c)

end Gap

end LockPrune.Yaml
