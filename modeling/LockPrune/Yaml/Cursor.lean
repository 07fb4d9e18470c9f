/-!
# A place in a text

A cursor is what is left of a text together with the place where the rest begins.
Places count octets, lines and characters of a line from zero; a carriage return, a line
feed, both in this order, and three separators beyond ASCII each end a line.

## Main definitions

* `Mark` — a place: octets, lines, and characters since the line began.
* `Cursor` — the rest of a text and its mark.
* `Cursor.skip`, `Cursor.skipLine` — step over characters, or over an end of line.
* `atStop`, `atBreakOrEnd`, … — what a rest begins with.
-/

namespace LockPrune.Yaml

/-- The number of octets in which characters are stored. -/
def octetCount (cs : List Char) : Nat :=
  cs.foldr (fun c n => c.utf8Size + n) 0

/-- A place in a text, counted from zero: the octets in front of it as the text is stored,
the lines in front of it, and the characters in front of it on its line. -/
structure Mark where
  offset : Nat
  line : Nat
  column : Nat
  deriving DecidableEq, Repr, Inhabited

namespace Mark

/-- The beginning of a text. -/
def start : Mark := ⟨0, 0, 0⟩

/-- The place behind some characters of the same line. -/
def along (m : Mark) (cs : List Char) : Mark :=
  ⟨m.offset + octetCount cs, m.line, m.column + cs.length⟩

/-- The beginning of the next line, behind the characters that end this one. -/
def nextLine (m : Mark) (lineEnd : List Char) : Mark :=
  ⟨m.offset + octetCount lineEnd, m.line + 1, 0⟩

end Mark

/-! ## Classes of characters -/

/-- A space or a tab. -/
def isGap (c : Char) : Bool :=
  c = ' ' || c = '\t'

/-- A character that ends a line. -/
def isBreak (c : Char) : Bool :=
  c = '\n' || c = '\r' || c = '\x85' || c = '\u2028' || c = '\u2029'

/-- A character of an anchor or of the handle of a tag. -/
def isWordChar (c : Char) : Bool :=
  c.isAlphanum || c = '_' || c = '-'

/-- A character that may stand in a YAML text at all. -/
def isAdmitted (c : Char) : Bool :=
  let n := c.toNat
  n = 9 || n = 10 || n = 13 || (0x20 ≤ n && n ≤ 0x7E) || n = 0x85 ||
    (0xA0 ≤ n && n ≤ 0xD7FF) || (0xE000 ≤ n && n ≤ 0xFFFD) || 0x10000 ≤ n

/-- The mark that may stand at the beginning of a file. -/
def byteOrderMark : Char := '\ufeff'

/-- The rest begins with a space or a tab. -/
def atGap : List Char → Bool
  | c :: _ => isGap c
  | [] => false

/-- The rest begins with an end of line. -/
def atBreak : List Char → Bool
  | c :: _ => isBreak c
  | [] => false

/-- The rest is empty or begins with an end of line. -/
def atBreakOrEnd : List Char → Bool
  | c :: _ => isBreak c
  | [] => true

/-- No word goes on here: the rest is empty or begins with a space, a tab or an end
of line. -/
def atStop : List Char → Bool
  | c :: _ => isGap c || isBreak c
  | [] => true

/-- The rest begins with one of the given characters. -/
def atOneOf (cs : List Char) : List Char → Bool
  | c :: _ => cs.contains c
  | [] => false

/-- The rest begins with the mark `c` three times and no more of a word. -/
def atTriple (c : Char) : List Char → Bool
  | a :: b :: d :: rest => a = c && b = c && d = c && atStop rest
  | _ => false

/-! ## Cursors -/

/-- What is left of a text, and where it begins. -/
structure Cursor where
  rest : List Char
  mark : Mark
  deriving DecidableEq, Repr, Inhabited

namespace Cursor

/-- The beginning of a text. -/
def ofText (s : List Char) : Cursor :=
  ⟨s, .start⟩

/-- The column of the next character. -/
def column (c : Cursor) : Nat :=
  c.mark.column

/-- Steps over `n` characters of a line. -/
def skip (c : Cursor) (n : Nat) : Cursor :=
  ⟨c.rest.drop n, c.mark.along (c.rest.take n)⟩

/-- Steps over the characters of a class that stand next. -/
def skipWhile (p : Char → Bool) (c : Cursor) : Cursor :=
  c.skip (c.rest.takeWhile p).length

/-- Reads the end of line that stands next, if there is one.  All ends of line are
read as a line feed but for the two separators that are kept. -/
def readLine (c : Cursor) : List Char × Cursor :=
  match c.rest with
  | '\r' :: '\n' :: rest => (['\n'], ⟨rest, c.mark.nextLine ['\r', '\n']⟩)
  | b :: rest =>
    if b = '\u2028' || b = '\u2029' then ([b], ⟨rest, c.mark.nextLine [b]⟩)
    else if isBreak b then (['\n'], ⟨rest, c.mark.nextLine [b]⟩)
    else ([], c)
  | [] => ([], c)

/-- Steps over the end of line that stands next, if there is one. -/
def skipLine (c : Cursor) : Cursor :=
  c.readLine.2

/-- A line of the document that separates documents stands here. -/
def atDocumentMark (c : Cursor) : Bool :=
  c.column = 0 && (atTriple '-' c.rest || atTriple '.' c.rest)

/-- Steps over a comment, if one begins here, up to the end of its line. -/
def skipComment (c : Cursor) : Cursor :=
  if atOneOf ['#'] c.rest then c.skipWhile (fun a => !isBreak a) else c

end Cursor

end LockPrune.Yaml
