/-!
# Styled text

What a text says about itself may be set off where it is shown: titles, names that are typed as
they stand, what was right and what was wrong.  A terminal is told by a sequence of characters
in front of the words, and by another one behind them that ends every style.

## Main definitions

* `Style` — what words are set off as.
* `Style.paint` — words between the sequences of a style.
-/

namespace LockPrune.Text

/-- What words are set off as. -/
inductive Style where
  /-- The title of a part. -/
  | title
  /-- The word that begins the account of something wrong. -/
  | alarm
  /-- A name that is typed as it stands. -/
  | literal
  /-- What would be right. -/
  | valid
  /-- What is wrong. -/
  | invalid
  deriving DecidableEq, Repr

namespace Style

/-- The marks that tell a terminal to be bold, to underline, and to change the colour. -/
def marks : Style → List String
  | .title => ["1", "4"]
  | .alarm => ["1", "31"]
  | .literal => ["1"]
  | .valid => ["32"]
  | .invalid => ["33"]

/-- The sequence of a mark. -/
def sequence (mark : String) : String :=
  "\x1b[" ++ mark ++ "m"

/-- Words between the sequences of a style. -/
def paint (s : Style) (words : String) : String :=
  String.join (s.marks.map sequence) ++ words ++ sequence "0"

end Style

end LockPrune.Text
