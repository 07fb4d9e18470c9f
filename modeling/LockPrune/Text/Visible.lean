/-!
# What a text shows

A text may hold characters that are no part of what it shows: controls, and sequences by
which a terminal is told to change a colour or a title.  A reader who wants the words alone is
given the text without them.

A sequence begins with the escape character.  What follows says how it ends: a bracket opens
one that ends with a letter, other marks open strings, and most characters end it at once.  A
sequence without an end lasts until the next one begins.

A blank in a sequence is shown all the same, and so is what follows, up to the next control;
from there on the sequence goes on, unless a character that is not ASCII has ended it.

## Main definitions

* `visible s` — the text without controls and sequences.
-/

namespace LockPrune.Text

/-- Where in a sequence a text is. -/
inductive Sequence where
  /-- In no sequence. -/
  | outside
  /-- Behind the escape character. -/
  | opened
  /-- Behind the escape character and marks. -/
  | marked
  /-- In a sequence that ends with a letter or a mark behind the digits. -/
  | control
  /-- In a string that a bell ends. -/
  | title
  /-- At the beginning of a string for a device. -/
  | device
  /-- In the digits at the beginning of such a string. -/
  | deviceDigits
  /-- In the marks at the beginning of such a string. -/
  | deviceMarks
  /-- In a string that an octet ends. -/
  | string
  deriving DecidableEq, Repr

namespace Sequence

/-- A character from `@` on, which ends what stands in front of it. -/
def closes (c : Char) : Bool :=
  '@' ≤ c && c ≤ '~'

/-- A mark from the blank to the slash. -/
def isMark (c : Char) : Bool :=
  ' ' ≤ c && c ≤ '/'

/-- The octet that ends a string is among those in which the character is stored. -/
def holdsEnd (c : Char) : Bool :=
  (String.utf8EncodeChar c).contains 0x9c

/-- Where a text is behind a character that it does not show. -/
def step (s : Sequence) (c : Char) : Sequence :=
  if c = '\x1b' then .opened
  else if c = '\x18' || c = '\x1a' then .outside
  else match s with
    | .outside => .outside
    | .opened =>
      if c = '[' then .control
      else if c = ']' then .title
      else if c = 'P' then .device
      else if c = 'X' || c = '^' || c = '_' then .string
      else if isMark c then .marked
      else if '0' ≤ c && c ≤ '~' then .outside
      else .opened
    | .marked => if '0' ≤ c && c ≤ '~' then .outside else .marked
    | .control => if closes c then .outside else .control
    | .title => if c = '\x07' then .outside else .title
    | .device =>
      if isMark c then .deviceMarks
      else if closes c || c = ':' then .string
      else if '0' ≤ c && c ≤ '?' then .deviceDigits
      else .device
    | .deviceDigits =>
      if isMark c then .deviceMarks
      else if closes c || c = ':' || '<' ≤ c && c ≤ '?' then .string
      else .deviceDigits
    | .deviceMarks => if '0' ≤ c && c ≤ '~' then .string else .deviceMarks
    | .string => if holdsEnd c then .outside else .string

/-- The text shows the character: outside of sequences whatever is no control, and blanks
that stand in a sequence which is no string. -/
def shows (s : Sequence) (c : Char) : Bool :=
  let isBlank := c = '\t' || c = '\n' || c = '\x0c' || c = '\r'
  match s with
  | .outside => isBlank || (' ' ≤ c && c ≠ '\x7f')
  | .opened | .marked | .control => isBlank
  | .title | .device | .deviceDigits | .deviceMarks | .string => false

/-- Where a text is behind a character that it shows. -/
def stay (s : Sequence) (c : Char) : Sequence :=
  if c ≤ '\x7f' then s else .outside

end Sequence

/-- What the rest of a text shows, behind a character that is shown or one that is not. -/
def visibleFrom (s : Sequence) (showing : Bool) : List Char → List Char
  | [] => []
  | c :: rest =>
    if s.shows c || showing && Sequence.outside.shows c then
      c :: visibleFrom (s.stay c) true rest
    else visibleFrom (s.step c) false rest

/-- What a text shows. -/
def visible (s : String) : String :=
  String.ofList (visibleFrom .outside false s.toList)

end LockPrune.Text
