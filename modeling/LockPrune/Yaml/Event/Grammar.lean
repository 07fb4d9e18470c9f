import LockPrune.Yaml.Event
import LockPrune.Yaml.Token.Scanner

/-!
# From tokens to events

The grammar of YAML as a walk over the tokens.  The state is what is expected next, and
what is to be resumed when the present node is complete.  Every step yields one event; a
node that is left out, such as the value of a key with nothing behind its colon, yields an
empty plain scalar.

## Main definitions

* `Place` — what is expected next.
* `Walk` — the state between two events.
* `Walk.step` — the next event, if the tokens have the form that is expected.
* `Events.ofTokens` — all events up to the end or a fault.
-/

namespace LockPrune.Yaml

/-- What is expected next. -/
inductive Place where
  | firstDocument
  | document
  | root
  | rootOrNothing
  | documentEnd
  | blockEntry
  | indentlessEntry
  | blockKey
  | blockValue
  | flowEntry (first : Bool)
  | pairKey
  | pairValue
  | pairEnd
  | flowKey (first : Bool)
  | flowValue
  | flowNoValue
  | nothing
  deriving DecidableEq, Repr

/-- The state between two events. -/
structure Walk where
  tokens : List Token
  place : Place
  /-- What is resumed when the present node is complete, innermost first. -/
  outer : List Place
  /-- The meaning of the handles of tags in this document. -/
  handles : List (List Char × List UInt8)

/-- The meaning of the handles that need no directive. -/
def defaultHandles : List (List Char × List UInt8) :=
  [(['!'], [33]), (['!', '!'], Tag.octetsOf Tag.commonStem.toList)]

namespace Walk

/-- The kind of the next token. -/
def next? (w : Walk) : Option Token.Kind :=
  w.tokens.head?.map Token.kind

/-- Goes on behind the next token. -/
def skip (w : Walk) : Walk :=
  { w with tokens := w.tokens.drop 1 }

/-- Expects something else next. -/
def expect (w : Walk) (place : Place) : Walk :=
  { w with place := place }

/-- Remembers what to resume after a node. -/
def resumeAt (w : Walk) (place : Place) : Walk :=
  { w with outer := place :: w.outer }

/-- Resumes what surrounds the node that is complete. -/
def resume (w : Walk) : Walk :=
  match w.outer with
  | place :: outer => { w with place := place, outer := outer }
  | [] => { w with place := .nothing }

/-- The next token is none of the given kinds. -/
def nextIsNot (w : Walk) (kinds : List Token.Kind) : Bool :=
  !w.next?.any kinds.contains

/-! ## Nodes -/

/-- The event of a node that is left out. -/
def emptyScalar (mark : Mark) : Event :=
  .scalar mark ⟨none, none⟩ .plain []

/-- The full form of a tag, if its handle has a meaning. -/
def fullTag? (w : Walk) (t : TagText) : Option Tag :=
  if t.handle.isEmpty then some ⟨t.suffix⟩
  else (w.handles.find? fun h => h.1 = t.handle).map fun h => ⟨upToZero (h.2 ++ t.suffix)⟩

/-- The anchor and the tag that stand next, in either order, and where they begin. -/
def properties (w : Walk) (mark : Mark) :
    Option (Option (List Char) × Option TagText) × Mark × Walk :=
  match w.tokens with
  | ⟨.anchor name, _, _⟩ :: ⟨.tag t, _, _⟩ :: _ => (some (some name, some t), mark, w.skip.skip)
  | ⟨.tag t, _, _⟩ :: ⟨.anchor name, _, _⟩ :: _ => (some (some name, some t), mark, w.skip.skip)
  | ⟨.anchor name, _, _⟩ :: _ => (some (some name, none), mark, w.skip)
  | ⟨.tag t, _, _⟩ :: _ => (some (none, some t), mark, w.skip)
  | _ => (none, mark, w)

/-- No content stands next: properties alone are those of an empty scalar. -/
def withoutContent (w : Walk) (mark : Mark) (props : Properties) : Option (Event × Walk) :=
  if props.anchor.isSome || props.tag.isSome then
    some (.scalar mark props .plain [], w.resume)
  else none

/-- The event of the node that stands next, with its properties read.  In a block a
collection may be written by indentation, and where `indentless` says so a sequence may
stand as far to the left as its key. -/
def content (w : Walk) (block indentless : Bool) (mark : Mark) (props : Properties) :
    Option (Event × Walk) := do
  let token ← w.tokens.head?
  match token.kind with
  | .blockEntry =>
    if indentless then some (.sequenceStart mark props, w.expect .indentlessEntry)
    else w.withoutContent mark props
  | .scalar style text => some (.scalar mark props style text, w.skip.resume)
  | .flowSequenceStart => some (.sequenceStart mark props, w.skip.expect (.flowEntry true))
  | .flowMappingStart => some (.mappingStart mark props, w.skip.expect (.flowKey true))
  | .blockSequenceStart =>
    if block then some (.sequenceStart mark props, w.skip.expect .blockEntry)
    else w.withoutContent mark props
  | .blockMappingStart =>
    if block then some (.mappingStart mark props, w.skip.expect .blockKey)
    else w.withoutContent mark props
  | _ => w.withoutContent mark props

/-- The event of the node that stands next. -/
def node (w : Walk) (block indentless : Bool) : Option (Event × Walk) := do
  let token ← w.tokens.head?
  match token.kind with
  | .alias name => some (.alias token.start name, w.skip.resume)
  | _ =>
    let (found, mark, w) := w.properties token.start
    match found with
    | none => w.content block indentless mark ⟨none, none⟩
    | some (anchor, none) => w.content block indentless mark ⟨anchor, none⟩
    | some (anchor, some t) =>
      let tag ← w.fullTag? t
      w.content block indentless mark ⟨anchor, some tag⟩

/-! ## Documents -/

/-- The directives in front of a document: one version at most, and each handle once. -/
def directives : Nat → Bool → Walk → Option Walk
  | 0, _, w => some w
  | n + 1, versioned, w =>
    match w.next? with
    | some (.version major minor) =>
      if versioned || !(major = 1 && (minor = 1 || minor = 2)) then none
      else directives n true w.skip
    | some (.tagHandle handle stem) =>
      if w.handles.any (fun h => h.1 = handle) then none
      else directives n versioned ({ w with handles := w.handles ++ [(handle, stem)] }).skip
    | _ => some w

/-- Adds the handles that need no directive where none gave them a meaning. -/
def withDefaultHandles (w : Walk) : Walk :=
  { w with handles := w.handles ++ defaultHandles }

/-- A document that is announced, or the end of the stream. -/
def announced (w : Walk) : Option (Event × Walk) := do
  let token ← w.tokens.head?
  if token.kind = .streamEnd then some (.streamEnd token.start, w.skip.expect .nothing)
  else
    let w ← directives w.tokens.length false { w with handles := [] }
    if w.next? = some .documentStart then
      some (.documentStart, (w.withDefaultHandles.resumeAt .documentEnd).skip.expect .rootOrNothing)
    else none

/-- The first document need not be announced. -/
def firstDocument (w : Walk) : Option (Event × Walk) := do
  let token ← w.tokens.head?
  match token.kind with
  | .version .. => w.announced
  | .tagHandle .. => w.announced
  | .documentStart => w.announced
  | .streamEnd => w.announced
  | _ =>
    let w := { w with handles := [] }.withDefaultHandles
    some (.documentStart, (w.resumeAt .documentEnd).expect .root)

/-- The marks behind a document do not begin a new one. -/
def document (w : Walk) : Option (Event × Walk) :=
  ({ w with tokens := w.tokens.dropWhile fun t => t.kind = Token.Kind.documentEnd }).announced

/-- The root of a document that is announced may be left out. -/
def rootOrNothing (w : Walk) : Option (Event × Walk) := do
  let token ← w.tokens.head?
  match token.kind with
  | .version .. => some (emptyScalar token.start, w.resume)
  | .tagHandle .. => some (emptyScalar token.start, w.resume)
  | .documentStart => some (emptyScalar token.start, w.resume)
  | .documentEnd => some (emptyScalar token.start, w.resume)
  | .streamEnd => some (emptyScalar token.start, w.resume)
  | _ => w.node true false

/-- The end of a document may be marked. -/
def documentEnd (w : Walk) : Option (Event × Walk) := do
  let token ← w.tokens.head?
  let w := if token.kind = .documentEnd then w.skip else w
  some (.documentEnd, w.expect .document)

/-! ## Collections -/

/-- A node, unless a token of the given kinds stands in its place. -/
def nodeOrEmpty (w : Walk) (ends : List Token.Kind) (after : Place) (mark : Mark)
    (block indentless : Bool) : Option (Event × Walk) := do
  let _ ← w.tokens.head?
  if w.nextIsNot ends then (w.resumeAt after).node block indentless
  else some (emptyScalar mark, w.expect after)

/-- An entry of a block sequence, or its end. -/
def blockEntry (w : Walk) : Option (Event × Walk) := do
  let token ← w.tokens.head?
  match token.kind with
  | .blockEntry => w.skip.nodeOrEmpty [.blockEntry, .blockEnd] .blockEntry token.stop true false
  | .blockEnd => some (.sequenceEnd, w.skip.resume)
  | _ => none

/-- An entry of a sequence that stands as far to the left as its key, or its end. -/
def indentlessEntry (w : Walk) : Option (Event × Walk) := do
  let token ← w.tokens.head?
  match token.kind with
  | .blockEntry =>
    w.skip.nodeOrEmpty [.blockEntry, .key, .value, .blockEnd] .indentlessEntry token.stop true false
  | _ => some (.sequenceEnd, w.resume)

/-- A key of a block mapping, or its end. -/
def blockKey (w : Walk) : Option (Event × Walk) := do
  let token ← w.tokens.head?
  match token.kind with
  | .key => w.skip.nodeOrEmpty [.key, .value, .blockEnd] .blockValue token.stop true true
  | .blockEnd => some (.mappingEnd, w.skip.resume)
  | _ => none

/-- The value of a key in a block mapping. -/
def blockValue (w : Walk) : Option (Event × Walk) := do
  let token ← w.tokens.head?
  match token.kind with
  | .value => w.skip.nodeOrEmpty [.key, .value, .blockEnd] .blockKey token.stop true true
  | _ => some (emptyScalar token.start, w.expect .blockKey)

/-- Goes over the comma in front of every entry but the first. -/
def comma (w : Walk) (first : Bool) (ending : Token.Kind) : Option Walk := do
  let token ← w.tokens.head?
  if first || token.kind = ending then some w
  else if token.kind = .flowEntry then some w.skip
  else none

/-- An entry of a sequence in brackets, or its end.  An entry with a key is a mapping of
one pair. -/
def flowEntry (w : Walk) (first : Bool) : Option (Event × Walk) := do
  let w ← w.comma first .flowSequenceEnd
  let token ← w.tokens.head?
  match token.kind with
  | .flowSequenceEnd => some (.sequenceEnd, w.skip.resume)
  | .key => some (.mappingStart token.start ⟨none, none⟩, w.skip.expect .pairKey)
  | _ => (w.resumeAt (.flowEntry false)).node false false

/-- The key of a pair in a sequence.  When it is left out, the token in its place goes with
it. -/
def pairKey (w : Walk) : Option (Event × Walk) := do
  let token ← w.tokens.head?
  if w.nextIsNot [.value, .flowEntry, .flowSequenceEnd] then
    (w.resumeAt .pairValue).node false false
  else some (emptyScalar token.stop, w.skip.expect .pairValue)

/-- The value of a pair in a sequence. -/
def pairValue (w : Walk) : Option (Event × Walk) := do
  let token ← w.tokens.head?
  if token.kind = .value then
    let w := w.skip
    let token ← w.tokens.head?
    w.nodeOrEmpty [.flowEntry, .flowSequenceEnd] .pairEnd token.start false false
  else some (emptyScalar token.start, w.expect .pairEnd)

/-- The end of a pair in a sequence. -/
def pairEnd (w : Walk) : Option (Event × Walk) := do
  let _ ← w.tokens.head?
  some (.mappingEnd, w.expect (.flowEntry false))

/-- A key of a mapping in braces, or its end. -/
def flowKey (w : Walk) (first : Bool) : Option (Event × Walk) := do
  let w ← w.comma first .flowMappingEnd
  let token ← w.tokens.head?
  match token.kind with
  | .flowMappingEnd => some (.mappingEnd, w.skip.resume)
  | .key =>
    let w := w.skip
    let token ← w.tokens.head?
    w.nodeOrEmpty [.value, .flowEntry, .flowMappingEnd] .flowValue token.start false false
  | _ => (w.resumeAt .flowNoValue).node false false

/-- The value of a key in a mapping in braces. -/
def flowValue (w : Walk) : Option (Event × Walk) := do
  let token ← w.tokens.head?
  if token.kind = .value then
    let w := w.skip
    let token ← w.tokens.head?
    w.nodeOrEmpty [.flowEntry, .flowMappingEnd] (.flowKey false) token.start false false
  else some (emptyScalar token.start, w.expect (.flowKey false))

/-- The value of an entry of a mapping that has no colon. -/
def flowNoValue (w : Walk) : Option (Event × Walk) := do
  let token ← w.tokens.head?
  some (emptyScalar token.start, w.expect (.flowKey false))

/-- The next event. -/
def step (w : Walk) : Option (Event × Walk) :=
  match w.place with
  | .firstDocument => w.firstDocument
  | .document => w.document
  | .root => w.node true false
  | .rootOrNothing => w.rootOrNothing
  | .documentEnd => w.documentEnd
  | .blockEntry => w.blockEntry
  | .indentlessEntry => w.indentlessEntry
  | .blockKey => w.blockKey
  | .blockValue => w.blockValue
  | .flowEntry first => w.flowEntry first
  | .pairKey => w.pairKey
  | .pairValue => w.pairValue
  | .pairEnd => w.pairEnd
  | .flowKey first => w.flowKey first
  | .flowValue => w.flowValue
  | .flowNoValue => w.flowNoValue
  | .nothing => none

end Walk

/-- The events of a text up to its end or to a fault. -/
structure Events where
  events : List Event
  /-- Whether the events reach the end of the text. -/
  complete : Bool

namespace Events

/-- The events with one more in front. -/
def cons (e : Event) (es : Events) : Events :=
  { es with events := e :: es.events }

/-- The events that a walk still finds; the count bounds their number. -/
def ofWalk : Nat → Walk → Events
  | 0, _ => ⟨[], false⟩
  | n + 1, w =>
    match w.step with
    | none => ⟨[], false⟩
    | some (.streamEnd mark, _) => ⟨[.streamEnd mark], true⟩
    | some (e, w) => (ofWalk n w).cons e

/-- The events of a list of tokens.  No token brings about more than four events. -/
def ofTokens (ts : Tokens) : Events :=
  ofWalk (4 * ts.tokens.length + 4) ⟨ts.tokens.drop 1, .firstDocument, [], []⟩

/-- The events of a text. -/
def ofText (text : List Char) : Events :=
  ofTokens (.ofText text)

end Events

end LockPrune.Yaml
