import LockPrune.Yaml.Scalar.Gap

/-!
# Quoted scalars

Between single quotes every character stands for itself, and a quote is written
twice.  Between double quotes a backslash begins an escape; before an end of line it
joins the lines.

## Main definitions

* `readSingle`, `readDouble` — the quoted scalar that a text begins with.
* `escapeValue?` — the character that an escape stands for.
-/

namespace LockPrune.Yaml

/-! ## Escapes -/

/-- The characters that the escapes of one letter stand for. -/
def shortEscape? : Char → Option Char
  | '0' => some '\x00'
  | 'a' => some '\x07'
  | 'b' => some '\x08'
  | 't' => some '\t'
  | '\t' => some '\t'
  | 'n' => some '\n'
  | 'v' => some '\x0b'
  | 'f' => some '\x0c'
  | 'r' => some '\r'
  | 'e' => some '\x1b'
  | ' ' => some ' '
  | '"' => some '"'
  | '/' => some '/'
  | '\\' => some '\\'
  | 'N' => some '\x85'
  | '_' => some '\xa0'
  | 'L' => some '\u2028'
  | 'P' => some '\u2029'
  | _ => none

/-- The number of hexadecimal digits that an escape by number has. -/
def longEscape? : Char → Option Nat
  | 'x' => some 2
  | 'u' => some 4
  | 'U' => some 8
  | _ => none

/-- The value of a hexadecimal digit. -/
def hexValue? (c : Char) : Option Nat :=
  if '0' ≤ c ∧ c ≤ '9' then some (c.toNat - 48)
  else if 'a' ≤ c ∧ c ≤ 'f' then some (c.toNat - 87)
  else if 'A' ≤ c ∧ c ≤ 'F' then some (c.toNat - 55)
  else none

/-- The number that hexadecimal digits spell. -/
def hexNumber? (ds : List Char) : Option Nat :=
  ds.foldlM (fun n d => (hexValue? d).map (n * 16 + ·)) 0

/-- The character with a given number, if it is one. -/
def charOf? (n : Nat) : Option Char :=
  if n < 0xD800 ∨ (0xDFFF < n ∧ n ≤ 0x10FFFF) then some (Char.ofNat n) else none

/-- The character that stands for the escape after a backslash, and the number of
characters of the escape. -/
def escapeValue? : List Char → Option (Char × Nat)
  | [] => none
  | a :: rest =>
    match shortEscape? a with
    | some c => some (c, 1)
    | none => do
      let n ← longEscape? a
      let ds := rest.take n
      if ds.length < n then none
      else
        let value ← hexNumber? ds
        let c ← charOf? value
        some (c, n + 1)

/-! ## Words between quotes -/

/-- A word between quotes: its text, whether an escape joins it to the next line, and
where it ends. -/
structure QuotedWord where
  text : List Char
  joined : Bool
  cursor : Cursor

/-- The word with one more character in front. -/
def QuotedWord.cons (a : Char) (w : QuotedWord) : QuotedWord :=
  { w with text := a :: w.text }

/-- The word between single quotes that stands next; the count bounds its length. -/
def readSingleWord : Nat → Cursor → Option QuotedWord
  | 0, c => some ⟨[], false, c⟩
  | n + 1, c =>
    match c.rest with
    | '\x27' :: '\x27' :: _ => (readSingleWord n (c.skip 2)).map (.cons '\x27')
    | a :: _ =>
      if a = '\x27' || isGap a || isBreak a then some ⟨[], false, c⟩
      else (readSingleWord n (c.skip 1)).map (.cons a)
    | [] => some ⟨[], false, c⟩

/-- The word between double quotes that stands next; the count bounds its length. -/
def readDoubleWord : Nat → Cursor → Option QuotedWord
  | 0, c => some ⟨[], false, c⟩
  | n + 1, c =>
    match c.rest with
    | '\\' :: rest =>
      if atBreak rest then some ⟨[], true, (c.skip 1).skipLine⟩
      else
        match escapeValue? rest with
        | none => none
        | some (a, len) => (readDoubleWord n (c.skip (len + 1))).map (.cons a)
    | a :: _ =>
      if a = '"' || isGap a || isBreak a then some ⟨[], false, c⟩
      else (readDoubleWord n (c.skip 1)).map (.cons a)
    | [] => some ⟨[], false, c⟩

/-! ## Scalars -/

/-- The rest of a quoted scalar, read word by word; the count bounds the number of
words.  A line that separates documents may not stand inside. -/
def readQuotedWithin (quote : Char) (word : Cursor → Option QuotedWord) (bound : Nat) :
    Nat → Cursor → Option (List Char × Cursor)
  | 0, _ => none
  | n + 1, c =>
    if c.atDocumentMark || c.rest.isEmpty then none
    else do
      let w ← word c
      if atOneOf [quote] w.cursor.rest then some (w.text, w.cursor.skip 1)
      else
        let begun := if w.joined then Gap.escaped else Gap.none
        let (gap, c) ← Gap.read (fun _ => false) bound begun w.cursor
        let (text, c) ← readQuotedWithin quote word bound n c
        some (w.text ++ gap.text ++ text, c)

/-- The scalar between single quotes that stands next, in a text of at most `bound`
characters. -/
def readSingle (bound : Nat) (c : Cursor) : Option (List Char × Cursor) :=
  readQuotedWithin '\x27' (readSingleWord bound) bound (bound + 1) (c.skip 1)

/-- The scalar between double quotes that stands next, in a text of at most `bound`
characters. -/
def readDouble (bound : Nat) (c : Cursor) : Option (List Char × Cursor) :=
  readQuotedWithin '"' (readDoubleWord bound) bound (bound + 1) (c.skip 1)

end LockPrune.Yaml
