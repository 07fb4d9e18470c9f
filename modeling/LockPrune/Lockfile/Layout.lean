import LockPrune.Text.Blank
import LockPrune.Text.Lines

/-!
# The layout of a lockfile

A lockfile is YAML with two customs: an empty line stands in front of every block, and texts
are put between double quotes only.  Both are brought about line by line.  A quote opens a
text where a scalar may begin; between single quotes, a quote that is written twice becomes
one, and double quotes and backslashes get a backslash.  The lines of a block scalar are left
as they are.

## Main definitions

* `Layout.Quote`, `Layout.State` — what is carried from line to line.
* `Layout.scan` — the characters of one line.
* `Layout.writes` — the texts that are written for a document, in order.
* `Layout.apply` — the document in the layout of a lockfile.
-/

namespace LockPrune.Layout

/-- The quotes that the text between is in. -/
inductive Quote where
  | outside
  | single
  | double
  deriving DecidableEq, Repr

/-- What is carried from line to line. -/
structure State where
  quote : Quote
  /-- The indentation of the line that opened a block scalar. -/
  block : Option Nat
  deriving DecidableEq, Repr

/-- The beginning of a document. -/
def State.start : State := ⟨.outside, none⟩

/-! ## One line -/

/-- A scalar may begin behind the given characters of a line, which stand in reverse. -/
def mayBegin (before : List Char) : Bool :=
  before.all Text.isBlank ||
    match before with
    | ' ' :: c :: _ => c = ':' || c = '-' || c = '?'
    | _ => false

/-- The rest of a line behind the given characters, which stand in reverse, and the quotes
that are open at its end. -/
def scan : Quote → List Char → List Char → List Char × Quote
  | q, _, [] => ([], q)
  | .outside, before, c :: rest =>
    if c = '\x27' && mayBegin before then
      let (out, q) := scan .single (c :: before) rest
      ('"' :: out, q)
    else if c = '"' && mayBegin before then
      let (out, q) := scan .double (c :: before) rest
      ('"' :: out, q)
    else
      let (out, q) := scan .outside (c :: before) rest
      (c :: out, q)
  | .single, before, '\x27' :: '\x27' :: rest =>
    let (out, q) := scan .single ('\x27' :: '\x27' :: before) rest
    ('\x27' :: out, q)
  | .single, before, c :: rest =>
    if c = '\x27' then
      let (out, q) := scan .outside (c :: before) rest
      ('"' :: out, q)
    else
      let (out, q) := scan .single (c :: before) rest
      (if c = '"' || c = '\\' then '\\' :: c :: out else c :: out, q)
  | .double, before, '\\' :: c :: rest =>
    let (out, q) := scan .double (c :: '\\' :: before) rest
    ('\\' :: c :: out, q)
  | .double, before, c :: rest =>
    let (out, q) := scan (if c = '"' then .outside else .double) (c :: before) rest
    (c :: out, q)

/-- The number of spaces that a line begins with. -/
def indentation (line : List Char) : Nat :=
  (line.takeWhile (· = ' ')).length

/-- A character behind the mark of a block scalar. -/
def isHeaderChar (c : Char) : Bool :=
  c = '-' || c = '+' || c.isDigit

/-- The line ends in the header of a block scalar. -/
def opensBlock (line : List Char) : Bool :=
  let head := Text.dropEndWhile isHeaderChar (Text.trimEnd line)
  [": |", ": >", "- |", "- >"].any fun mark => mark.toList.isSuffixOf head

/-- The line begins a block of the lockfile, or is at least not indented. -/
def isFlush (line : List Char) : Bool :=
  match line with
  | [] => false
  | c :: _ => c != ' '

/-- The line belongs to the block scalar that is open. -/
def staysInBlock (s : State) (line : List Char) : Bool :=
  match s.block with
  | some indent => line.isEmpty || indent < indentation line
  | none => false

/-- The texts that are written for a line, and the state behind it. -/
def line (s : State) (text : List Char) : List (List Char) × State :=
  if staysInBlock s text then ([text, ['\n']], s)
  else
    let gap := if s.quote = .outside && isFlush text then [['\n']] else []
    let (out, quote) := scan s.quote [] text
    let block := if quote = .outside && opensBlock text then some (indentation text) else none
    (gap ++ [out, ['\n']], ⟨quote, block⟩)

/-! ## Documents -/

/-- The texts that are written for the lines of a document. -/
def writesFrom : State → List (List Char) → List (List Char)
  | _, [] => []
  | s, text :: rest =>
    let (out, s) := line s text
    out ++ writesFrom s rest

/-- The texts that are written for a document, in order. -/
def writes (yaml : List Char) : List (List Char) :=
  writesFrom .start (Text.lines yaml)

/-- The document in the layout of a lockfile. -/
def apply (yaml : List Char) : List Char :=
  (writes yaml).flatten

end LockPrune.Layout
