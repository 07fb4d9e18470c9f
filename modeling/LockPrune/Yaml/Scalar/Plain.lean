import LockPrune.Yaml.Scalar.Gap

/-!
# Plain scalars

A plain scalar is a run of words without quotes.  It ends before a comment, before a
colon that ends a key, inside brackets before a mark of the collection, and in a block
where the next line is indented less.

## Main definitions

* `plainWordLength` — how long the word is that a text begins with.
* `readPlain` — the plain scalar that a text begins with.
-/

namespace LockPrune.Yaml

/-- The marks that end a plain word inside brackets. -/
def flowMarks : List Char := [',', '[', ']', '\x7b', '\x7d']

/-- The length of the plain word that stands next.  Inside brackets a colon in front
of a mark of the collection is refused. -/
def plainWordLength (inFlow : Bool) : List Char → Option Nat
  | [] => some 0
  | a :: rest =>
    if isGap a || isBreak a then some 0
    else if inFlow && a = ':' && atOneOf ('?' :: flowMarks) rest then none
    else if (a = ':' && atStop rest) || (inFlow && flowMarks.contains a) then some 0
    else (plainWordLength inFlow rest).map (· + 1)

/-- A plain scalar that was read. -/
structure PlainScalar where
  text : List Char
  /-- Whether the cursor went to a new line after the last word. -/
  lineEnded : Bool
  cursor : Cursor

/-- The scalar with more text in front. -/
def PlainScalar.prepend (text : List Char) (p : PlainScalar) : PlainScalar :=
  { p with text := text ++ p.text }

/-- The rest of a plain scalar: `gap` stands in front of the next word, if there is
one.  The count bounds the number of words. -/
def readPlainWithin (inFlow : Bool) (indent : Int) (bound : Nat) :
    Nat → Gap → Cursor → Option PlainScalar
  | 0, gap, c => some ⟨[], gap.broken, c⟩
  | n + 1, gap, c =>
    if c.atDocumentMark || atOneOf ['#'] c.rest then some ⟨[], gap.broken, c⟩
    else
      match plainWordLength inFlow c.rest with
      | none => none
      | some 0 => some ⟨[], gap.broken, c⟩
      | some len =>
        let text := gap.text ++ c.rest.take len
        let c := c.skip len
        if atGap c.rest || atBreak c.rest then
          match Gap.read (fun column => (column : Int) < indent) bound .none c with
          | none => none
          | some (gap, c) =>
            if !inFlow && (c.column : Int) < indent then some ⟨text, gap.broken, c⟩
            else (readPlainWithin inFlow indent bound n gap c).map (.prepend text)
        else some ⟨text, false, c⟩

/-- The plain scalar that stands next in a text of at most `bound` characters; in a
block it goes on over the lines indented by at least `indent`. -/
def readPlain (inFlow : Bool) (indent : Int) (bound : Nat) (c : Cursor) : Option PlainScalar :=
  readPlainWithin inFlow indent bound (bound + 1) .none c

end LockPrune.Yaml
