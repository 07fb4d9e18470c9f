import LockPrune.Yaml.Token

/-!
# Block scalars

A block scalar begins with `|` or `>` and takes the indented lines that follow.  Its
header may give the indentation, and whether the ends of line after the last line are
kept.  A folded scalar joins the lines that do not begin with a blank.

## Main definitions

* `Chomping` — what becomes of the ends of line at the end.
* `readBlock` — the block scalar that a text begins with.
-/

namespace LockPrune.Yaml

/-- What becomes of the ends of line after the last line of a block scalar. -/
inductive Chomping where
  | strip
  | clip
  | keep
  deriving DecidableEq, Repr

/-- The header of a block scalar. -/
structure BlockHeader where
  chomping : Chomping
  increment : Option Nat

/-- The chomping that a mark of the header gives. -/
def chomping? : Char → Option Chomping
  | '+' => some .keep
  | '-' => some .strip
  | _ => none

/-- The indentation that a digit of the header gives; zero is refused. -/
def readIncrement (c : Cursor) : Option (Option Nat × Cursor) :=
  match c.rest with
  | '0' :: _ => none
  | a :: _ => if a.isDigit then some (some (a.toNat - 48), c.skip 1) else some (none, c)
  | [] => some (none, c)

/-- The chomping mark that stands next, if there is one. -/
def readChomping (c : Cursor) : Option Chomping × Cursor :=
  match c.rest with
  | a :: _ =>
    match chomping? a with
    | some ch => (some ch, c.skip 1)
    | none => (none, c)
  | [] => (none, c)

/-- The header of a block scalar, up to the end of its line.  The chomping and the
indentation may stand in either order. -/
def readBlockHeader (c : Cursor) : Option (BlockHeader × Cursor) := do
  let (before, c) := readChomping c
  let (increment, c) ← readIncrement c
  let (after, c) :=
    if before.isNone && increment.isSome then readChomping c else (none, c)
  let c := (c.skipWhile isGap).skipComment
  if atBreakOrEnd c.rest then
    some (⟨(before.or after).getD .clip, increment⟩, c.skipLine)
  else none

/-- Whether a column is short of an indentation that may not be known yet. -/
def isShort (indent : Option Nat) (column : Nat) : Bool :=
  match indent with
  | none => true
  | some i => column < i

/-- Reads the blank lines that stand next: their ends of line, and the deepest column
reached.  A tab in place of indentation is refused. -/
def readBlankLines (indent : Option Nat) :
    Nat → Nat → List Char → Cursor → Option (Nat × List Char × Cursor)
  | 0, deepest, breaks, c => some (deepest, breaks, c)
  | n + 1, deepest, breaks, c =>
    match c.rest with
    | a :: _ =>
      if a = ' ' && isShort indent c.column then
        readBlankLines indent n deepest breaks (c.skip 1)
      else
        let deepest := max deepest c.column
        if a = '\t' && isShort indent c.column then none
        else if isBreak a then
          let (line, c) := c.readLine
          readBlankLines indent n deepest (breaks ++ line) c
        else some (deepest, breaks, c)
    | [] => some (max deepest c.column, breaks, c)

/-- The lines of a block scalar that were read so far. -/
structure BlockText where
  text : List Char
  /-- The end of the last line. -/
  lineEnd : List Char
  /-- The ends of the blank lines after it. -/
  blankEnds : List Char
  /-- Whether the last line began with a blank. -/
  afterBlank : Bool

namespace BlockText

/-- What stands for the ends of line in front of a further line.  A folded scalar joins
two lines that begin with no blank. -/
def joint (b : BlockText) (folded startsBlank : Bool) : List Char :=
  if folded && b.lineEnd.head? = some '\n' && !b.afterBlank && !startsBlank then
    if b.blankEnds.isEmpty then [' '] else b.blankEnds
  else b.lineEnd ++ b.blankEnds

/-- The text, with the ends of line that the chomping keeps. -/
def close (b : BlockText) : Chomping → List Char
  | .strip => b.text
  | .clip => b.text ++ b.lineEnd
  | .keep => b.text ++ b.lineEnd ++ b.blankEnds

end BlockText

/-- The further lines of a block scalar; the count bounds the number of lines. -/
def readBlockLines (folded : Bool) (indent bound : Nat) :
    Nat → BlockText → Cursor → Option (BlockText × Cursor)
  | 0, b, c => some (b, c)
  | n + 1, b, c =>
    if c.column = indent && !c.rest.isEmpty then
      let startsBlank := atGap c.rest
      let line := c.rest.takeWhile (fun a => !isBreak a)
      let text := b.text ++ b.joint folded startsBlank ++ line
      let (lineEnd, c) := (c.skip line.length).readLine
      match readBlankLines (some indent) (bound + 1) 0 [] c with
      | none => none
      | some (_, blankEnds, c) =>
        readBlockLines folded indent bound n ⟨text, lineEnd, blankEnds, startsBlank⟩ c
    else some (b, c)

/-- The block scalar that stands next in a text of at most `bound` characters, inside a
collection indented by `parent`.  Without an indentation in the header the first line
that is not blank gives it. -/
def readBlock (folded : Bool) (parent : Int) (bound : Nat) (c : Cursor) :
    Option (List Char × Cursor) := do
  let (header, c) ← readBlockHeader (c.skip 1)
  let given := header.increment.map fun i => if 0 ≤ parent then parent.toNat + i else i
  let (deepest, blankEnds, c) ← readBlankLines given (bound + 1) 0 [] c
  let indent := given.getD (max deepest (max (parent + 1).toNat 1))
  let (b, c) ← readBlockLines folded indent bound (bound + 1) ⟨[], [], blankEnds, false⟩ c
  some (b.close header.chomping, c)

end LockPrune.Yaml
