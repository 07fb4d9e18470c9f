import LockPrune.Text.Lines
import LockPrune.Text.Similar

/-!
# Arguments

The words behind the name of the command: options, which begin with a dash, the name of one
of three verbs, and the places of the verb.  An option that takes a value has it behind an
equals sign, directly behind its letter, or as the next word; letters of options may stand
together.  Two dashes end the options.

Two options are for the log and a third asks for help; they are known everywhere.  The
environment may give the option for the filter of the log as well.

A word is taken up when the next one is looked at, so of two things that are wrong the later
may be told.

## Main definitions

* `Flag`, `Place`, `Slot`, `Verb` — what can be given.
* `Topic` — what the words at hand are about: the command, or one of its verbs.
* `Tip`, `Misuse`, `Stop` — why words are no task.
* `Given` — what has been given so far.
* `Task`, `Task.ofWords` — what is to be done.
-/

namespace LockPrune.Command

/-! ## What can be given -/

/-- The options. -/
inductive Flag where
  | verbose
  | log
  | fixture
  | json
  | workspace
  | output
  | noRoot
  | help
  deriving DecidableEq, Repr

namespace Flag

/-- The letter of an option. -/
def short? : Flag → Option Char
  | .verbose => some 'v'
  | .fixture => some 'f'
  | .workspace => some 'w'
  | .output => some 'o'
  | .help => some 'h'
  | _ => none

/-- The name of an option. -/
def long : Flag → String
  | .verbose => "verbose"
  | .log => "log"
  | .fixture => "fixture"
  | .json => "json"
  | .workspace => "workspace"
  | .output => "output"
  | .noRoot => "no-root"
  | .help => "help"

/-- What the value of an option is called, if it takes one. -/
def value? : Flag → Option String
  | .log => some "FILTER"
  | .fixture => some "NAME"
  | .workspace => some "NAME"
  | .output => some "PATH"
  | _ => none

/-- The option may be given more than once. -/
def repeats (f : Flag) : Bool :=
  f = .workspace

/-- The value of the option is the path of a file. -/
def takesPath (f : Flag) : Bool :=
  f = .output

/-- The name of an option as it is typed. -/
def typed (f : Flag) : String :=
  "--" ++ f.long

/-- What follows the name of an option where it is shown. -/
def valueShown (f : Flag) : String :=
  match f.value? with
  | some v => " <" ++ v ++ ">"
  | none => ""

/-- How an option is shown. -/
def shown (f : Flag) : String :=
  f.typed ++ f.valueShown

end Flag

/-- A place for a word that is no option. -/
structure Place where
  name : String
  isRequired : Bool := true
  /-- The word is the path of a file. -/
  isPath : Bool := false
  about : String := ""
  deriving DecidableEq, Repr

namespace Place

/-- How a place is shown that has to be filled, or may stay empty. -/
def shownAs (p : Place) (isRequired : Bool) : String :=
  if isRequired then "<" ++ p.name ++ ">" else "[" ++ p.name ++ "]"

/-- How a place is shown. -/
def shown (p : Place) : String :=
  p.shownAs p.isRequired

end Place

/-- What a word can be for: an option or a place. -/
inductive Slot where
  | flag (f : Flag)
  | place (p : Place)
  deriving DecidableEq, Repr

namespace Slot

/-- How a slot is shown. -/
def shown : Slot → String
  | .flag f => f.shown
  | .place p => p.shown

/-- How a slot is shown as one of several. -/
def choice : Slot → String
  | .flag f => f.shown
  | .place p => p.name

/-- The slot takes more than one word. -/
def repeats : Slot → Bool
  | .flag f => f.repeats
  | .place _ => false

/-- The slot holds the path of a file. -/
def takesPath : Slot → Bool
  | .flag f => f.takesPath
  | .place p => p.isPath

/-- The option of a slot. -/
def flag? : Slot → Option Flag
  | .flag f => some f
  | .place _ => none

end Slot

/-- What can be done. -/
inductive Verb where
  | dump
  | resolve
  | prune
  deriving DecidableEq, Repr

namespace Verb

/-- The verbs. -/
def all : List Verb := [.dump, .resolve, .prune]

/-- The name of a verb. -/
def name : Verb → String
  | .dump => "dump"
  | .resolve => "resolve"
  | .prune => "prune"

/-- The verb of a name. -/
def ofName? (name : String) : Option Verb :=
  all.find? fun v => v.name = name

/-- The options that a verb alone has. -/
def flags : Verb → List Flag
  | .dump => [.fixture, .json]
  | .resolve => []
  | .prune => [.workspace, .output, .noRoot]

/-- The options of a verb that have to be given. -/
def requiredFlags : Verb → List Flag
  | .prune => [.workspace]
  | _ => []

/-- The places of a verb, in order. -/
def places : Verb → List Place
  | .dump => [⟨"LOCKFILE", false, true, "Path to a lockfile to decode"⟩]
  | .resolve => [⟨"LOCKFILE", true, true, ""⟩,
      ⟨"NAME", true, false, "Package name, e.g. \x60@babel/core\x60"⟩,
      ⟨"SPECIFIER", true, false,
        "The range as written in a package.json, e.g. \x60^7.0.0\x60"⟩]
  | .prune => [⟨"LOCKFILE", true, true, ""⟩]

/-- What has to be given for a verb. -/
def required (v : Verb) : List Slot :=
  v.requiredFlags.map .flag ++ (v.places.filter Place.isRequired).map .place

/-- Two slots of a verb of which only one may be given. -/
def rivals? : Verb → Option (Slot × Slot)
  | .dump => (places .dump).head?.map fun p => (.place p, .flag .fixture)
  | _ => none

/-- The name of the help, which stands where a verb may stand. -/
def helpName : String := "help"

/-- The names that may stand where a verb is expected. -/
def names : List String :=
  all.map name ++ [helpName]

end Verb

/-! ## Topics -/

/-- What words are about: the command as a whole, one of its verbs, or its help. -/
inductive Topic where
  | command
  | verb (v : Verb)
  | help
  deriving DecidableEq, Repr

namespace Topic

/-- The options that are known. -/
def flags : Topic → List Flag
  | .command => [.verbose, .log, .help]
  | .verb v => v.flags ++ [.verbose, .log, .help]
  | .help => []

/-- The options that have to be given. -/
def requiredFlags : Topic → List Flag
  | .verb v => v.requiredFlags
  | _ => []

/-- The places for words. -/
def places : Topic → List Place
  | .command => []
  | .verb v => v.places
  | .help => []

/-- What can be given to the topic itself: what is known everywhere belongs to the command. -/
def own : Topic → List Slot
  | .command => [.flag .verbose, .flag .log]
  | .verb v => v.places.map .place ++ v.flags.map .flag
  | .help => []

/-- The option with a given letter. -/
def ofShort? (t : Topic) (c : Char) : Option Flag :=
  t.flags.find? fun f => f.short? = some c

/-- The option with a given name. -/
def ofLong? (t : Topic) (name : String) : Option Flag :=
  t.flags.find? fun f => f.long = name

/-- The option whose name is most like a word. -/
def likeLong? (t : Topic) (word : String) : Option Flag :=
  (Text.closest? word (t.flags.map Flag.long)).bind t.ofLong?

end Topic

/-! ## What can be wrong -/

/-- What may have been meant by a word that is wrong. -/
inductive Tip where
  | similarFlag (f : Flag)
  | similarVerbs (names : List String)
  /-- The option of a verb that is named later. -/
  | flagOfVerb (v : Verb) (f : Flag)
  /-- A word that looks like an option and may be meant for a place. -/
  | asWord (word : String)
  /-- The name of a verb behind the two dashes that end the options. -/
  | withoutDashes (verb : String)
  deriving DecidableEq, Repr

/-- Why words are no task.  Where it says what has been given so far, that is shown with what
is wrong. -/
inductive Misuse where
  | unknown (word : String) (tip? : Option Tip) (given : List Slot)
  | unknownVerb (word : String) (similar : List String)
  | noVerb
  | noValue (s : Slot)
  | extraValue (f : Flag) (value : String) (given : List Slot)
  | repeated (s : Slot)
  | conflict (s other : Slot) (given : List Slot)
  | absent (missing given : List Slot)
  deriving DecidableEq, Repr

/-- Why there is no task: help was asked for, nothing was given, or the words are wrong. -/
inductive Stop where
  | help (t : Topic)
  | wordless
  | misuse (t : Topic) (m : Misuse)
  deriving DecidableEq, Repr

/-! ## Words -/

/-- What a word looks like. -/
inductive Word where
  | plain
  | endOfFlags
  | long (name : String) (value? : Option String)
  | letters (cs : List Char)
  deriving DecidableEq, Repr

/-- What a word looks like.  A dash alone is no option. -/
def Word.ofText (s : String) : Word :=
  match s.toList with
  | ['-', '-'] => .endOfFlags
  | '-' :: '-' :: rest =>
    match rest.dropWhile (· ≠ '=') with
    | [] => .long (String.ofList rest) none
    | _ :: value => .long (String.ofList (rest.takeWhile (· ≠ '='))) (some (String.ofList value))
  | '-' :: c :: rest => .letters (c :: rest)
  | _ => .plain

/-! ## What has been given -/

/-- What has been given, in order.  The slot of the last word is pending until something else
follows, and so is its value if that is the next word. -/
structure Given where
  taken : List (Slot × String) := []
  pending : Option (Slot × Option String) := none
  /-- How many places have got a word. -/
  filled : Nat := 0

namespace Given

/-- The slots that were taken up, in order. -/
def slots (g : Given) : List Slot :=
  (g.taken.map Prod.fst).eraseDups

/-- The slot has been taken up. -/
def has (g : Given) (s : Slot) : Bool :=
  g.slots.contains s

/-- The values that an option was given, in order. -/
def values (g : Given) (f : Flag) : List String :=
  (g.taken.filter fun p => p.1 = .flag f).map Prod.snd

/-- The words in the places, in order. -/
def words (g : Given) : List String :=
  (g.taken.filter fun p => p.1.flag?.isNone).map Prod.snd

/-- The option at the end of what was given awaits its value. -/
def awaitsValue (g : Given) : Bool :=
  g.pending.any fun p => p.2.isNone

/-- Takes up a slot with its value, and says what is wrong with that.  A path that is empty is
no value, but it counts as given; a slot that was given before does not count any more. -/
def enter (g : Given) (s : Slot) : Option String → Given × Option Misuse
  | none => (g, some (.noValue s))
  | some value =>
    if g.has s && !s.repeats then
      ({ g with taken := g.taken.filter fun p => p.1 ≠ s }, some (.repeated s))
    else
      ({ g with taken := g.taken ++ [(s, value)] },
        if s.takesPath && value.isEmpty then some (.noValue s) else none)

/-- Takes up the slot that is pending, and says what is wrong with that. -/
def settle (g : Given) : Given × Option Misuse :=
  match g.pending with
  | none => (g, none)
  | some (s, value?) => { g with pending := none }.enter s value?

/-- Stops at what is wrong. -/
def checked (t : Topic) : Given × Option Misuse → Except Stop Given
  | (g, none) => .ok g
  | (_, some m) => .error (.misuse t m)

/-- Takes up an option, with its value if that stands in the same word. -/
def take (t : Topic) (g : Given) (f : Flag) (value : String) : Except Stop Given := do
  let g ← checked t g.settle
  if f = .help then .error (.help t) else checked t (g.enter (.flag f) (some value))

/-- Takes up an option whose value is the next word. -/
def await (t : Topic) (g : Given) (f : Flag) : Except Stop Given := do
  let g ← checked t g.settle
  .ok { g with pending := some (.flag f, none) }

/-- A word that has no place. -/
def misplaced (t : Topic) (word : String) (behindDashes : Bool) : Misuse :=
  if t = .command then
    if behindDashes && Verb.names.contains word then
      .unknown word (some (.withoutDashes word)) []
    else .unknownVerb word (Text.similar word Verb.names)
  else .unknown word none []

/-- Takes up a word that is no option. -/
def fill (t : Topic) (behindDashes : Bool) (g : Given) (word : String) : Except Stop Given :=
  match t.places[g.filled]? with
  | some p => do
    let g ← checked t g.settle
    .ok { g with pending := some (.place p, some word), filled := g.filled + 1 }
  | none => .error (.misuse t (misplaced t word behindDashes))

/-- The tip that a word which looks like an option may be meant for a place, where the topic
has one. -/
def wordTip? (t : Topic) (word : String) : Option Tip :=
  if t.places.isEmpty then none else some (.asWord word)

/-- The option of a verb that an unknown option may be: of the verbs that are named in the rest
of the words, the first one with an option like it. -/
def verbTip? (name : String) (rest : List String) : Option Tip :=
  rest.firstM fun word => do
    let v ← Verb.ofName? word
    let f ← Topic.likeLong? (.verb v) name
    some (.flagOfVerb v f)

/-- What is wrong with an option of an unknown name, in front of the rest of the words. -/
def unknownLong (t : Topic) (g : Given) (name : String) (rest : List String) : Misuse :=
  let g := g.settle.1
  let word := "--" ++ name
  match t.likeLong? name with
  | some f => .unknown word (some (.similarFlag f)) (g.slots ++ [.flag f])
  | none =>
    let tip? := (if t = .command then verbTip? name rest else none) <|> wordTip? t word
    .unknown word tip? g.slots

/-- Takes up an option by its name, in front of the rest of the words. -/
def long (t : Topic) (g : Given) (name : String) (value? : Option String)
    (rest : List String) : Except Stop Given :=
  match t.ofLong? name with
  | none => .error (.misuse t (g.unknownLong t name rest))
  | some f =>
    match f.value?, value? with
    | some _, some value => g.take t f value
    | some _, none => g.await t f
    | none, some value => .error (.misuse t (.extraValue f value g.slots))
    | none, none => g.take t f ""

/-- Takes up options by their letters. -/
def letters (t : Topic) : Given → List Char → Except Stop Given
  | g, [] => .ok g
  | g, c :: rest =>
    match t.ofShort? c with
    | none =>
      let word := String.ofList ['-', c]
      .error (.misuse t (.unknown word (wordTip? t word) []))
    | some f =>
      if f.value?.isSome then
        match rest with
        | [] => g.await t f
        | '=' :: value => g.take t f (String.ofList value)
        | value => g.take t f (String.ofList value)
      else do
        let g ← g.take t f ""
        letters t g rest

/-- Takes up words none of which is an option. -/
def fillAll (t : Topic) (g : Given) (words : List String) : Except Stop Given :=
  words.foldlM (fill t true) g

end Given

/-! ## Tasks -/

/-- The topic that words behind the name of the help are about. -/
def helpTopic : List String → Except Stop Topic
  | [] => .ok .command
  | word :: rest =>
    match (if word = Verb.helpName then some Topic.help else (Verb.ofName? word).map .verb),
        rest with
    | some t, [] => .ok t
    | some t, extra :: _ => .error (.misuse t (.unknownVerb extra []))
    | none, _ => .error (.misuse .command (.unknownVerb word []))

/-- Takes up the words of a topic.  Words about the command end with the name of a verb. -/
def takeWords (t : Topic) : Given → List String →
    Except Stop (Given × Option (Verb × List String))
  | g, [] => (Given.checked t g.settle).map (·, none)
  | g, word :: rest =>
    match Word.ofText word with
    | .endOfFlags => do
      let g ← g.fillAll t rest
      (Given.checked t g.settle).map (·, none)
    | .long name value? => do
      let g ← g.long t name value? rest
      takeWords t g rest
    | .letters cs => do
      let g ← g.letters t cs
      takeWords t g rest
    | .plain =>
      if g.awaitsValue then
        takeWords t { g with pending := g.pending.map fun p => (p.1, some word) } rest
      else if t = .command && word = Verb.helpName then do
        let topic ← helpTopic rest
        .error (.help topic)
      else
        match (if t = .command then Verb.ofName? word else none) with
        | some v => .ok (g, some (v, rest))
        | none => do
          let g ← g.fill t false word
          takeWords t g rest
termination_by structural _ words => words

/-- Where a lockfile is dumped from. -/
inductive Source where
  | path (path : String)
  | fixture (name : String)
  deriving DecidableEq, Repr

/-- What is to be done. -/
inductive Task where
  | dump (source? : Option Source) (asJson : Bool)
  | resolve (path name range : String)
  | prune (path : String) (workspaces : List String) (output? : Option String)
      (withRoot : Bool)
  deriving DecidableEq, Repr

/-- The slots that have something, the filter of the log also from the environment. -/
def Given.present (g : Given) (hasFilter : Bool) : List Slot :=
  g.slots ++ if hasFilter && !g.has (.flag .log) then [.flag .log] else []

/-- What is wrong with the slots that have something for a verb: two rivals among them, of
which the first is blamed, or one that is missing. -/
def Verb.misuse? (v : Verb) (present : List Slot) : Option Misuse :=
  match v.rivals?.bind fun (a, b) =>
      if present.contains a && present.contains b then
        some (if present.idxOf a < present.idxOf b then (a, b) else (b, a))
      else none with
  | some (former, other) => some (.conflict former other (present.erase other))
  | none =>
    let missing := v.required.filter fun s => !present.contains s
    if missing.isEmpty then none else some (.absent missing (present ++ missing))

/-- The task of a verb with what was given for it. -/
def taskOf (v : Verb) (hasFilter : Bool) (g : Given) : Except Stop Task :=
  let present := g.present hasFilter
  match v.misuse? present, v, g.words with
  | some m, _, _ => .error (.misuse (.verb v) m)
  | none, .dump, words =>
    let source? := ((g.values .fixture).head?.map Source.fixture) <|> words.head?.map Source.path
    .ok (.dump source? (g.has (.flag .json)))
  | none, .resolve, [path, name, range] => .ok (.resolve path name range)
  | none, .prune, [path] =>
    .ok (.prune path (g.values .workspace) (g.values .output).head? (!g.has (.flag .noRoot)))
  | none, _, _ => .error (.misuse (.verb v) (.absent v.required present))

/-- The task that words ask for, where the environment gives the filter of the log or not.
What was given in front of the verb is settled last. -/
def Task.ofWords (hasFilter : Bool) (words : List String) : Except Stop Task := do
  let (outer, next) ← takeWords .command {} words
  match next with
  | none =>
    if (outer.present hasFilter).isEmpty then .error .wordless
    else .error (.misuse .command .noVerb)
  | some (v, rest) =>
    let (inner, _) ← takeWords (.verb v) {} rest
    let task ← taskOf v hasFilter inner
    let _ ← Given.checked .command outer.settle
    .ok task

end LockPrune.Command
