import LockPrune.Yaml.Scalar.Quoted
import LockPrune.Yaml.Token

/-!
# Anchors, tags and directives

What may stand in front of a node or of a document.  The name of an anchor is a word.
A tag is a handle and a suffix, or its full form between angle brackets; a percent
sign gives an octet by number.

## Main definitions

* `readAnchorName` — the name after `&` or `*`.
* `readTag` — a tag.
* `readDirective` — the version of the language, or the meaning of a handle.
-/

namespace LockPrune.Yaml

/-- The characters that may follow the name of an anchor without a blank between. -/
def afterAnchor : List Char := ['?', ':', ',', ']', '\x7d', '%', '@', '\x60']

/-- The name of an anchor or of an alias, after its mark. -/
def readAnchorName (c : Cursor) : Option (List Char × Cursor) :=
  let name := c.rest.takeWhile isWordChar
  let c := c.skip name.length
  if !name.isEmpty && (atStop c.rest || atOneOf afterAnchor c.rest) then some (name, c) else none

/-! ## Octets of a tag -/

/-- A character that may stand in a tag.  The marks of flow collections may do so in the
full form only. -/
def isTagChar (full : Bool) (c : Char) : Bool :=
  isWordChar c || ";/?:@&=+$.%!~*'()".toList.contains c || (full && [',', '[', ']'].contains c)

/-- The octet that a percent sign and two digits give. -/
def readOctet : List Char → Option UInt8
  | '%' :: a :: b :: _ => (hexNumber? [a, b]).map UInt8.ofNat
  | _ => none

/-- The number of octets of the character that begins with a given octet. -/
def octetCount? (octet : UInt8) : Option Nat :=
  let n := octet.toNat
  if n < 0x80 then some 1
  else if 0xC0 ≤ n ∧ n < 0xE0 then some 2
  else if 0xE0 ≤ n ∧ n < 0xF0 then some 3
  else if 0xF0 ≤ n ∧ n < 0xF8 then some 4
  else none

/-- `n` octets by number that go on with a character. -/
def readFurtherOctets : Nat → Cursor → Option (List UInt8 × Cursor)
  | 0, c => some ([], c)
  | n + 1, c => do
    let octet ← readOctet c.rest
    if octet.toNat / 64 = 2 then
      let (octets, c) ← readFurtherOctets n (c.skip 3)
      some (octet :: octets, c)
    else none

/-- The octets of one character by number. -/
def readOctets (c : Cursor) : Option (List UInt8 × Cursor) := do
  let octet ← readOctet c.rest
  let n ← octetCount? octet
  let (octets, c) ← readFurtherOctets (n - 1) (c.skip 3)
  some (octet :: octets, c)

/-- The octets that stand next, written as the characters of a tag; the count bounds
their number.  Also says whether any stood there. -/
def readTagOctets (full : Bool) : Nat → Cursor → Option (List UInt8 × Cursor)
  | 0, c => some ([], c)
  | n + 1, c =>
    match c.rest with
    | a :: _ =>
      if a = '%' then do
        let (octets, c) ← readOctets c
        let (further, c) ← readTagOctets full n c
        some (octets ++ further, c)
      else if isTagChar full a then do
        let (further, c) ← readTagOctets full n (c.skip 1)
        some (Tag.octetsOf [a] ++ further, c)
      else some ([], c)
    | [] => some ([], c)

/-- The octets up to the first that is zero, where a tag ends. -/
def upToZero (octets : List UInt8) : List UInt8 :=
  octets.takeWhile (· != 0)

/-! ## Tags -/

/-- The handle that stands next: an exclamation mark, perhaps with a word and a second
mark. -/
def readHandle (c : Cursor) : Option (List Char × Cursor) :=
  match c.rest with
  | '!' :: _ =>
    let c := c.skip 1
    let word := c.rest.takeWhile isWordChar
    let c := c.skip word.length
    if atOneOf ['!'] c.rest then some ('!' :: word ++ ['!'], c.skip 1) else some ('!' :: word, c)
  | _ => none

/-- A tag in its full form, after the opening bracket. -/
def readFullTag (bound : Nat) (c : Cursor) : Option (TagText × Cursor) := do
  let (octets, c') ← readTagOctets true bound c
  if c'.mark = c.mark then none
  else if atOneOf ['>'] c'.rest then some (⟨[], upToZero octets⟩, c'.skip 1)
  else none

/-- A tag with a handle.  A word without a second mark belongs to the suffix, and a mark
alone is a tag of its own. -/
def readShortTag (bound : Nat) (c : Cursor) : Option (TagText × Cursor) := do
  let (handle, c) ← readHandle c
  if 1 < handle.length && handle.getLast? = some '!' then
    let (octets, c') ← readTagOctets false bound c
    if c'.mark = c.mark then none else some (⟨handle, upToZero octets⟩, c')
  else
    let (octets, c) ← readTagOctets false bound c
    let suffix := upToZero (Tag.octetsOf (handle.drop 1) ++ octets)
    if suffix.isEmpty then some (⟨[], [33]⟩, c) else some (⟨['!'], suffix⟩, c)

/-- The tag that stands next.  A blank follows it, or a comma inside brackets. -/
def readTag (inFlow : Bool) (bound : Nat) (c : Cursor) : Option (TagText × Cursor) := do
  let (tag, c) ←
    match c.rest with
    | '!' :: '<' :: _ => readFullTag bound (c.skip 2)
    | _ => readShortTag bound c
  if atStop c.rest || (inFlow && atOneOf [','] c.rest) then some (tag, c) else none

/-! ## Directives -/

/-- A number of at most nine digits. -/
def readSmallNumber (c : Cursor) : Option (Nat × Cursor) :=
  let ds := c.rest.takeWhile Char.isDigit
  if ds.isEmpty || 9 < ds.length then none
  else some (ds.foldl (fun n d => n * 10 + (d.toNat - 48)) 0, c.skip ds.length)

/-- The version of the language, after the name of the directive. -/
def readVersion (c : Cursor) : Option (Token.Kind × Cursor) := do
  let (major, c) ← readSmallNumber (c.skipWhile isGap)
  if atOneOf ['.'] c.rest then
    let (minor, c) ← readSmallNumber (c.skip 1)
    some (.version major minor, c)
  else none

/-- The meaning of a handle, after the name of the directive. -/
def readHandleMeaning (bound : Nat) (c : Cursor) : Option (Token.Kind × Cursor) := do
  let (handle, c) ← readHandle (c.skipWhile isGap)
  if handle ≠ ['!'] ∧ handle.getLast? ≠ some '!' then none
  else if !atGap c.rest then none
  else
    let c := c.skipWhile isGap
    let (octets, c') ← readTagOctets true bound c
    if c'.mark = c.mark || !atStop c'.rest then none
    else some (.tagHandle handle (upToZero octets), c')

/-- The directive that stands next, up to the end of its line. -/
def readDirective (bound : Nat) (c : Cursor) : Option (Token.Kind × Cursor) := do
  let c := c.skip 1
  let name := c.rest.takeWhile isWordChar
  let c := c.skip name.length
  if name.isEmpty || !atStop c.rest then none
  else
    let (kind, c) ←
      if name = "YAML".toList then readVersion c
      else if name = "TAG".toList then readHandleMeaning bound c
      else none
    let c := (c.skipWhile isGap).skipComment
    if atBreakOrEnd c.rest then some (kind, c.skipLine) else none

end LockPrune.Yaml
