import LockPrune.Yaml.Tree.Scalar

/-!
# How a tree is laid out

Collections are written by indentation, two spaces a level.  A sequence stands as far to
the left as the key it belongs to; a collection behind a dash, or behind a key that is
written out, begins on the same line.  A key that is long, has several lines or is a
collection is written out behind a question mark.

## Main definitions

* `Tree.isSimpleKey` — whether a key is written in front of its colon.
* `Tree.render` — the text of a mapping that is the root of a document.
-/

namespace LockPrune.Yaml

namespace Tree

/-- A key that is written in front of its colon has at most this many octets. -/
def maxSimpleKey : Nat := 128

/-- The characters of a tag that are written as themselves. -/
def isPlainTagChar (c : Char) : Bool :=
  isWordChar c || ";/?:@&=+$,_.~*'()[]".toList.contains c

/-- A character of a tag; an octet is written by number where it has to be. -/
def tagChar (c : Char) : List Char :=
  if isPlainTagChar c then [c]
  else (String.utf8EncodeChar c).flatMap fun octet => '%' :: Scalar.hexText 2 octet.toNat

/-- The text of a tag: behind its mark, or in full when the mark is all there is. -/
def tagText (tag : String) : List Char :=
  match tag.toList with
  | '!' :: a :: rest => '!' :: (a :: rest).flatMap tagChar
  | cs => '!' :: '<' :: cs.flatMap tagChar ++ ['>']

/-- The number of octets of a tag. -/
def tagSize (tag : Option String) : Nat :=
  (tag.map String.utf8ByteSize).getD 0

/-- A key that is written in front of its colon: short and on one line. -/
def isSimpleKey : Tree → Bool
  | .scalar tag _ text =>
    !text.toList.any isBreak && tagSize tag + text.utf8ByteSize ≤ maxSimpleKey
  | .sequence tag [] => tagSize tag ≤ maxSimpleKey
  | .mapping tag [] => tagSize tag ≤ maxSimpleKey
  | _ => false

/-- Ends the line, unless the text ends with one. -/
def closeLine (s : List Char) : List Char :=
  if Scalar.endsWith isBreak s then s else s ++ ['\n']

/-- Texts that each begin a line at an indentation. -/
def stack (indent : Nat) : List (List Char) → List Char
  | [] => []
  | [s] => s
  | s :: rest => closeLine s ++ Scalar.spaces indent ++ stack indent rest

/-- A tag in front of what it belongs to. -/
def withTag (tag : Option String) (s : List Char) : List Char :=
  match tag with
  | none => s
  | some t => tagText t ++ (if s.isEmpty then [] else ' ' :: s)

/-- A text behind a mark, with a space between. -/
def spaced (s : List Char) : List Char :=
  if s.isEmpty then [] else ' ' :: s

/-- A scalar at an indentation. -/
def scalarText (tag : Option String) (style : Style) (isKey : Bool) (indent : Nat)
    (text : String) : List Char :=
  let s := text.toList
  withTag tag (Scalar.write (Scalar.admitted style isKey s) indent s)

/-- The text of a key that is written in front of its colon. -/
def simpleKeyText : Tree → List Char
  | .scalar tag style text => scalarText tag style true 0 text
  | .sequence tag _ => withTag tag ['[', ']']
  | .mapping tag _ => withTag tag ['\x7b', '\x7d']

/-- What a node stands behind. -/
inductive Behind where
  /-- The colon of a key on the same line. -/
  | key
  /-- The dash of a sequence. -/
  | dash
  /-- The mark of a key that is written out, or the colon on the line behind it. -/
  | mark
  deriving DecidableEq, Repr

/-- The indentation of the items of a sequence. -/
def itemIndent (behind : Behind) (tagged : Bool) (indent : Nat) : Nat :=
  match behind, tagged with
  | .key, _ => indent
  | .mark, true => indent
  | _, _ => indent + 2

/-- The lines of a collection behind a mark: they begin on the same line unless a key or a
tag stands in front. -/
def place (behind : Behind) (tag : Option String) (indent : Nat) (lines : List Char) :
    List Char :=
  match behind, tag with
  | .key, none => '\n' :: Scalar.spaces indent ++ lines
  | _, none => ' ' :: lines
  | _, some t => ' ' :: tagText t ++ '\n' :: Scalar.spaces indent ++ lines

/-- What the value of a key stands behind. -/
def keyMark (k : Tree) : Behind :=
  if k.isSimpleKey then .key else .mark

/-- An entry of a mapping: the texts of its key, written out, and of its value are given. -/
def entryText (k : Tree) (indent : Nat) (writtenOut value : List Char) : List Char :=
  if k.isSimpleKey then simpleKeyText k ++ ':' :: value
  else closeLine ('?' :: writtenOut) ++ Scalar.spaces indent ++ ':' :: value

mutual

/-- A node behind a mark, inside a collection at an indentation. -/
def behind (after : Behind) (indent : Nat) : Tree → List Char
  | .scalar tag style text => spaced (scalarText tag style false (indent + 2) text)
  | .sequence tag [] => spaced (withTag tag ['[', ']'])
  | .sequence tag (item :: items) =>
    let inner := itemIndent after tag.isSome indent
    place after tag inner
      (stack inner (('-' :: behind .dash inner item) :: itemTexts inner items))
  | .mapping tag [] => spaced (withTag tag ['\x7b', '\x7d'])
  | .mapping tag ((k, v) :: entries) =>
    let inner := indent + 2
    place after tag inner
      (stack inner
        (entryText k inner (behind .mark inner k) (behind (keyMark k) inner v) ::
          entryTexts inner entries))
termination_by structural t => t

/-- The items of a sequence. -/
def itemTexts (indent : Nat) : List Tree → List (List Char)
  | [] => []
  | item :: items => ('-' :: behind .dash indent item) :: itemTexts indent items
termination_by structural ts => ts

/-- The entries of a mapping. -/
def entryTexts (indent : Nat) : List (Tree × Tree) → List (List Char)
  | [] => []
  | (k, v) :: entries =>
    entryText k indent (behind .mark indent k) (behind (keyMark k) indent v) ::
      entryTexts indent entries
termination_by structural ts => ts

end

/-- The text of a mapping that is the root of a document. -/
def render : List (Tree × Tree) → List Char
  | [] => ['\x7b', '\x7d', '\n']
  | entries => closeLine (stack 0 (entryTexts 0 entries))

end Tree

end LockPrune.Yaml
