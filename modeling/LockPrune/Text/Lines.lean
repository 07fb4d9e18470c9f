/-!
# Lines

A text is cut at its line feeds.  `splitOn` keeps every piece, so that joining
the pieces gives the text back; `lines` is what a reader of the text calls its
lines: an end of line that closes the text opens no further line, and a carriage
return before a line feed belongs to the end of the line.

## Main definitions

* `splitOn sep s` — the pieces of `s` between the elements equal to `sep`.
* `lines s` — the lines of a text.
* `splitOnText sep s` — the pieces of `s` between the occurrences of a text.
* `hanging margin s` — `s` with every line but the first behind a margin.
-/

namespace LockPrune.Text

variable {α : Type} [DecidableEq α]

/-- The pieces of a list between the elements equal to `sep`. -/
def splitOn (sep : α) : List α → List (List α)
  | [] => [[]]
  | a :: rest =>
    if a = sep then [] :: splitOn sep rest
    else match splitOn sep rest with
      | [] => [[a]]
      | piece :: pieces => (a :: piece) :: pieces

/-- A list is never cut into no pieces at all. -/
theorem splitOn_ne_nil (sep : α) (s : List α) : splitOn sep s ≠ [] := by
  cases s with
  | nil => simp [splitOn]
  | cons a rest =>
    simp only [splitOn]
    split
    · simp
    · split <;> simp

/-- The list without one `last` at its end. -/
def dropOneAtEnd (last : α) (s : List α) : List α :=
  if s.getLast? = some last then s.dropLast else s

/-- The lines among the pieces between line feeds: what follows the last line feed is a
line only if it is not empty. -/
def linesOfPieces : List (List Char) → List (List Char)
  | [] => []
  | [last] => if last.isEmpty then [] else [last]
  | piece :: pieces => dropOneAtEnd '\r' piece :: linesOfPieces pieces

/-- The lines of a text: cut at line feeds, each without one carriage return in front of
its line feed, and with no line behind a last line feed. -/
def lines (s : List Char) : List (List Char) :=
  linesOfPieces (splitOn '\n' s)

/-- The pieces of a text between the occurrences of a separator, found from left
to right.  The count bounds the number of cuts. -/
def splitOnTextWithin (sep : List Char) : Nat → List Char → List Char → List (List Char)
  | 0, piece, s => [piece.reverse ++ s]
  | _ + 1, piece, [] => [piece.reverse]
  | n + 1, piece, c :: rest =>
    if sep.isPrefixOf (c :: rest) then
      piece.reverse :: splitOnTextWithin sep n [] ((c :: rest).drop sep.length)
    else splitOnTextWithin sep n (c :: piece) rest

/-- The pieces of a text between the occurrences of a separator. -/
def splitOnText (sep s : List Char) : List (List Char) :=
  splitOnTextWithin sep (s.length + 1) [] s

/-- A text with every line but the first behind a margin. -/
def hanging (margin s : String) : String :=
  String.ofList (s.toList.flatMap fun c => if c = '\n' then c :: margin.toList else [c])

end LockPrune.Text
