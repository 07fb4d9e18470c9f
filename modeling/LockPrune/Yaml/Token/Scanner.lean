import LockPrune.Yaml.Scalar.Block
import LockPrune.Yaml.Scalar.Plain
import LockPrune.Yaml.Scalar.Quoted
import LockPrune.Yaml.Token.Property

/-!
# From a text to its tokens

Tokens are found from left to right.  What makes this more than cutting the text up is
that a key shows itself only by the colon behind it: the place of every token that may
begin a key is remembered, one for each open bracket, and when the colon comes the
tokens for the key are put in at that place.  A token is therefore handed over only once
nothing can be put in front of it any more.

Indentation opens block collections by the same means, and closes them as soon as a
token stands further to the left.

## Main definitions

* `Scanner` — the state between two tokens.
* `Scanner.fetch` — one step: at least one more token, or a fault.
* `Tokens` — the tokens of a text, and whether they reach its end.
* `Tokens.ofText` — all tokens that are settled before a fault.
-/

namespace LockPrune.Yaml

/-- A place where a key may begin. -/
structure PossibleKey where
  /-- The number of the token that begins it, counted over the whole text. -/
  number : Nat
  /-- Whether the indentation admits nothing but a key. -/
  required : Bool
  mark : Mark
  deriving DecidableEq, Repr

/-- The state between two tokens. -/
structure Scanner where
  /-- A bound on the number of characters of the text. -/
  bound : Nat
  cursor : Cursor
  /-- The column of the innermost block collection; `-1` outside of all. -/
  indent : Int
  /-- The columns of the block collections around it. -/
  outerIndents : List Int
  /-- Whether a key may begin at the next token. -/
  keyAllowed : Bool
  /-- The possible key of the innermost bracket, and those of the brackets around it. -/
  key : Option PossibleKey
  outerKeys : List (Option PossibleKey)
  /-- The tokens that are not handed over yet. -/
  pending : List Token
  /-- The number of tokens that were handed over. -/
  taken : Nat

namespace Scanner

/-! ## Views and small moves -/

/-- Brackets are open. -/
def inFlow (s : Scanner) : Bool :=
  !s.outerKeys.isEmpty

/-- The number of the next token. -/
def nextNumber (s : Scanner) : Nat :=
  s.taken + s.pending.length

/-- Adds a token at the end. -/
def push (s : Scanner) (kind : Token.Kind) (start stop : Mark) : Scanner :=
  { s with pending := s.pending ++ [⟨kind, start, stop⟩] }

/-- Adds a token in front of the token with a given number. -/
def pushAt (s : Scanner) (number : Nat) (kind : Token.Kind) (mark : Mark) : Scanner :=
  let i := number - s.taken
  { s with pending := s.pending.take i ++ ⟨kind, mark, mark⟩ :: s.pending.drop i }

/-- Adds a token for the text from the cursor up to another one, and goes there. -/
def take (s : Scanner) (kind : Token.Kind) (c : Cursor) : Scanner :=
  { s.push kind s.cursor.mark c.mark with cursor := c }

/-- Adds a token for the next `n` characters. -/
def takeChars (s : Scanner) (kind : Token.Kind) (n : Nat) : Scanner :=
  s.take kind (s.cursor.skip n)

/-- Says whether a key may begin at the next token. -/
def allowKey (s : Scanner) (allowed : Bool) : Scanner :=
  { s with keyAllowed := allowed }

/-! ## Possible keys -/

/-- A key stands on one line and has no more octets than this. -/
def maxKeyLength : Nat := 1024

/-- The possible key was left behind without a colon. -/
def isStale (m : Mark) (k : PossibleKey) : Bool :=
  k.mark.line < m.line || k.mark.offset + maxKeyLength < m.offset

/-- Gives up a possible key that was left behind; a required one is a fault. -/
def dropStaleKey (m : Mark) : Option PossibleKey → Option (Option PossibleKey)
  | none => some none
  | some k => if isStale m k then if k.required then none else some none else some (some k)

/-- Gives up the possible keys that were left behind. -/
def dropStale (s : Scanner) : Option Scanner := do
  let key ← dropStaleKey s.cursor.mark s.key
  let outerKeys ← s.outerKeys.mapM (dropStaleKey s.cursor.mark)
  some { s with key := key, outerKeys := outerKeys }

/-- Gives up the innermost possible key; a required one is a fault. -/
def removeKey (s : Scanner) : Option Scanner :=
  match s.key with
  | some k => if k.required then none else some { s with key := none }
  | none => some s

/-- Remembers the next token as one that may begin a key. -/
def saveKey (s : Scanner) : Option Scanner :=
  if s.keyAllowed then
    let required := !s.inFlow && s.indent = s.cursor.column
    s.removeKey.map fun s => { s with key := some ⟨s.nextNumber, required, s.cursor.mark⟩ }
  else some s

/-! ## Indentation -/

/-- Opens a block collection at a column, if it lies further to the right. -/
def openBlock (s : Scanner) (column : Nat) (kind : Token.Kind) (mark : Mark)
    (number : Option Nat) : Scanner :=
  if !s.inFlow && s.indent < column then
    let s := { s with indent := column, outerIndents := s.indent :: s.outerIndents }
    match number with
    | some n => s.pushAt n kind mark
    | none => s.push kind mark mark
  else s

/-- The columns that stay open at a column, and how many are closed. -/
def closeIndents (column : Int) : Int → List Int → Nat × Int × List Int
  | indent, [] => (0, indent, [])
  | indent, outer :: rest =>
    if column < indent then
      let (n, indent, outerIndents) := closeIndents column outer rest
      (n + 1, indent, outerIndents)
    else (0, indent, outer :: rest)

/-- Closes the block collections that lie further to the right than a column. -/
def closeBlocks (s : Scanner) (column : Int) : Scanner :=
  if s.inFlow then s
  else
    let (n, indent, outerIndents) := closeIndents column s.indent s.outerIndents
    { s with
      indent := indent
      outerIndents := outerIndents
      pending := s.pending ++ List.replicate n ⟨.blockEnd, s.cursor.mark, s.cursor.mark⟩ }

/-! ## To the next token -/

/-- Steps over blanks, comments and ends of line; the count bounds the number of lines.
In a block a new line may begin with a key.  A tab is no blank where a key may begin. -/
def skipToToken : Nat → Scanner → Scanner
  | 0, s => s
  | n + 1, s =>
    let c := s.cursor
    let c := if c.column = 0 && atOneOf [byteOrderMark] c.rest then c.skip 1 else c
    let c := c.skipWhile fun a => a = ' ' || ((s.inFlow || !s.keyAllowed) && a = '\t')
    let c := c.skipComment
    if atBreak c.rest then
      skipToToken n { s with cursor := c.skipLine, keyAllowed := s.keyAllowed || !s.inFlow }
    else { s with cursor := c }

/-! ## One kind of token at a time -/

/-- The end of the text closes every block.  It counts as a line of its own. -/
def fetchEnd (s : Scanner) : Option Scanner := do
  let c := s.cursor
  let mark := if c.column = 0 then c.mark else { c.mark with column := 0, line := c.mark.line + 1 }
  let s := ({ s with cursor := { c with mark := mark } }).closeBlocks (-1)
  let s ← s.removeKey
  some ((s.allowKey false).takeChars .streamEnd 0)

/-- A directive stands outside of every block. -/
def fetchDirective (s : Scanner) : Option Scanner := do
  let s ← (s.closeBlocks (-1)).removeKey
  let (kind, c) ← readDirective s.bound s.cursor
  some ((s.allowKey false).take kind c)

/-- A mark between documents closes every block. -/
def fetchDocumentMark (s : Scanner) (kind : Token.Kind) : Option Scanner := do
  let s ← (s.closeBlocks (-1)).removeKey
  some ((s.allowKey false).takeChars kind 3)

/-- An opening bracket may itself begin a key, and a key may stand behind it. -/
def fetchFlowStart (s : Scanner) (kind : Token.Kind) : Option Scanner := do
  let s ← s.saveKey
  let s := { s with key := none, outerKeys := s.key :: s.outerKeys }
  some ((s.allowKey true).takeChars kind 1)

/-- A closing bracket. -/
def fetchFlowEnd (s : Scanner) (kind : Token.Kind) : Option Scanner := do
  let s ← s.removeKey
  let s :=
    match s.outerKeys with
    | key :: outerKeys => { s with key := key, outerKeys := outerKeys }
    | [] => s
  some ((s.allowKey false).takeChars kind 1)

/-- A comma between brackets. -/
def fetchFlowEntry (s : Scanner) : Option Scanner := do
  let s ← s.removeKey
  some ((s.allowKey true).takeChars .flowEntry 1)

/-- The dash of a sequence.  In a block it stands where a key may begin, and may open
the sequence. -/
def fetchBlockEntry (s : Scanner) : Option Scanner :=
  if !s.inFlow && !s.keyAllowed then none
  else do
    let s := s.openBlock s.cursor.column .blockSequenceStart s.cursor.mark none
    let s ← s.removeKey
    some ((s.allowKey true).takeChars .blockEntry 1)

/-- The mark of a key that is written out. -/
def fetchKey (s : Scanner) : Option Scanner :=
  if !s.inFlow && !s.keyAllowed then none
  else do
    let s := s.openBlock s.cursor.column .blockMappingStart s.cursor.mark none
    let s ← s.removeKey
    some ((s.allowKey (!s.inFlow)).takeChars .key 1)

/-- The colon behind a key.  If a key may have begun before, it did: its tokens are put
in at its place. -/
def fetchValue (s : Scanner) : Option Scanner :=
  match s.key with
  | some k =>
    let s := s.pushAt k.number .key k.mark
    let s := s.openBlock k.mark.column .blockMappingStart k.mark (some k.number)
    some (({ s with key := none }.allowKey false).takeChars .value 1)
  | none =>
    if !s.inFlow && !s.keyAllowed then none
    else
      let s := s.openBlock s.cursor.column .blockMappingStart s.cursor.mark none
      some ((s.allowKey (!s.inFlow)).takeChars .value 1)

/-- An anchor or an alias. -/
def fetchAnchor (s : Scanner) (kind : List Char → Token.Kind) : Option Scanner := do
  let s ← s.saveKey
  let (name, c) ← readAnchorName (s.cursor.skip 1)
  some ((s.allowKey false).take (kind name) c)

/-- A tag. -/
def fetchTag (s : Scanner) : Option Scanner := do
  let s ← s.saveKey
  let (tag, c) ← readTag s.inFlow s.bound s.cursor
  some ((s.allowKey false).take (.tag tag) c)

/-- A block scalar; the next line may begin with a key. -/
def fetchBlockScalar (s : Scanner) (style : Style) : Option Scanner := do
  let s ← s.removeKey
  let (text, c) ← readBlock (style = .folded) s.indent s.bound s.cursor
  some ((s.allowKey true).take (.scalar style text) c)

/-- A quoted scalar. -/
def fetchQuoted (s : Scanner) (style : Style) : Option Scanner := do
  let s ← s.saveKey
  let read := if style = .single then readSingle else readDouble
  let (text, c) ← read s.bound s.cursor
  some ((s.allowKey false).take (.scalar style text) c)

/-- A plain scalar; when it goes up to a new line, this may begin with a key. -/
def fetchPlain (s : Scanner) : Option Scanner := do
  let s ← s.saveKey
  let p ← readPlain s.inFlow (s.indent + 1) s.bound s.cursor
  some ((s.allowKey p.lineEnded).take (.scalar .plain p.text) p.cursor)

/-! ## The next token -/

/-- The marks that no plain scalar begins with. -/
def indicators : List Char :=
  ['-', '?', ':', ',', '[', ']', '\x7b', '\x7d', '#', '&', '*', '!', '|', '>', '\x27', '"', '%',
    '@', '\x60']

/-- Whether a plain scalar may begin with `a` in front of `rest`. -/
def beginsPlain (inFlow : Bool) (a : Char) (rest : List Char) : Bool :=
  !(isGap a || isBreak a || indicators.contains a) || (a = '-' && !atGap rest) ||
    (!inFlow && (a = '?' || a = ':') && !atStop rest)

/-- The token that stands next, with the tokens that it brings about. -/
def fetchNext (s : Scanner) : Option Scanner :=
  let c := s.cursor
  match c.rest with
  | [] => s.fetchEnd
  | a :: rest =>
    if c.column = 0 && a = '%' then s.fetchDirective
    else if c.column = 0 && atTriple '-' c.rest then s.fetchDocumentMark .documentStart
    else if c.column = 0 && atTriple '.' c.rest then s.fetchDocumentMark .documentEnd
    else if a = '[' then s.fetchFlowStart .flowSequenceStart
    else if a = '\x7b' then s.fetchFlowStart .flowMappingStart
    else if a = ']' then s.fetchFlowEnd .flowSequenceEnd
    else if a = '\x7d' then s.fetchFlowEnd .flowMappingEnd
    else if a = ',' then s.fetchFlowEntry
    else if a = '-' && atStop rest then s.fetchBlockEntry
    else if a = '?' && (s.inFlow || atStop rest) then s.fetchKey
    else if a = ':' && (s.inFlow || atStop rest) then s.fetchValue
    else if a = '*' then s.fetchAnchor .alias
    else if a = '&' then s.fetchAnchor .anchor
    else if a = '!' then s.fetchTag
    else if a = '|' && !s.inFlow then s.fetchBlockScalar .literal
    else if a = '>' && !s.inFlow then s.fetchBlockScalar .folded
    else if a = '\x27' then s.fetchQuoted .single
    else if a = '"' then s.fetchQuoted .double
    else if beginsPlain s.inFlow a rest then s.fetchPlain
    else none

/-- One step: goes to the next token, closes the blocks that end before it, and adds it. -/
def fetch (s : Scanner) : Option Scanner := do
  let s ← (skipToToken (s.bound + 1) s).dropStale
  let s ← (s.closeBlocks s.cursor.column).fetchNext
  s.dropStale

/-! ## Handing over -/

/-- A key may still be put in front of the token with a given number. -/
def isAwaited (s : Scanner) (number : Nat) : Bool :=
  (s.key :: s.outerKeys).any fun key => key.any fun k => k.number = number

/-- The tokens that nothing can be put in front of any more. -/
def settled (s : Scanner) : Nat → List Token → List Token
  | _, [] => []
  | number, token :: tokens =>
    if s.isAwaited number then [] else token :: settled s (number + 1) tokens

/-- The settled tokens, and the scanner without them. -/
def handOver (s : Scanner) : List Token × Scanner :=
  let ready := s.settled s.taken s.pending
  (ready, { s with pending := s.pending.drop ready.length, taken := s.taken + ready.length })

/-- The beginning of a text. -/
def start (text : List Char) : Scanner where
  bound := text.length
  cursor := .ofText text
  indent := -1
  outerIndents := []
  keyAllowed := true
  key := none
  outerKeys := []
  pending := [⟨.streamStart, .start, .start⟩]
  taken := 0

end Scanner

/-- The tokens of a text up to its end or to a fault. -/
structure Tokens where
  tokens : List Token
  /-- Whether the tokens reach the end of the text. -/
  complete : Bool

namespace Tokens

/-- The tokens with more of them in front. -/
def prepend (tokens : List Token) (t : Tokens) : Tokens :=
  { t with tokens := tokens ++ t.tokens }

/-- The tokens that a scanner still finds; the count bounds the number of its steps. -/
def ofScanner : Nat → Scanner → Tokens
  | 0, _ => ⟨[], false⟩
  | n + 1, s =>
    match s.fetch with
    | none => ⟨[], false⟩
    | some s =>
      let (ready, s) := s.handOver
      if ready.getLast?.any (fun token => token.kind = .streamEnd) then ⟨ready, true⟩
      else (ofScanner n s).prepend ready

/-- The tokens of a text.  A text with a character that may not stand in it has none. -/
def ofText (text : List Char) : Tokens :=
  if text.all isAdmitted then
    let (ready, s) := (Scanner.start text).handOver
    (ofScanner (text.length + 1) s).prepend ready
  else ⟨[], false⟩

end Tokens

end LockPrune.Yaml
