import LockPrune.Command.Arguments
import LockPrune.Command.Environment
import LockPrune.Text.Style
import LockPrune.Text.Visible

/-!
# Help

What the command says about its use: the pages that explain it and its verbs, and the texts
that say what is wrong with some words.  On a page the explanations stand in a column, two
blanks behind the longest of what they explain.  A text about wrong words says how words are
given; once some of them were right, it says how to go on from those.

All of this is styled for a terminal, and loses its styles where they are not wanted.

## Main definitions

* `Topic.page` — the page about a topic.
* `Misuse.message`, `Tip.text` — what is wrong with words, and what may be meant.
* `Stop.text` — the answer to words that are no task.
-/

namespace LockPrune.Command

open Text (Style)

/-- The name of the command. -/
def commandName : String := "berry-prune"

/-- What an option is for.  That of the log also shows what the environment says, and nothing
where it says nothing. -/
def Flag.about (filter : String) : Flag → String
  | .verbose => "Log at debug level unless a log filter is given"
  | .log =>
    "Log filter, e.g. \x60berry_lockfile=trace\x60. Falls back to RUST_LOG [env: " ++
      Environment.filterName ++ "=" ++ filter ++ "]"
  | .fixture =>
    "Use a bundled fixture name instead of a path (reads from repo fixtures/)"
  | .json => "Print JSON instead of the Rust structs"
  | .workspace => "Workspace to keep, may be given more than once"
  | .output => "Write the pruned lockfile here instead of stdout"
  | .noRoot => "Don\x27t keep the root workspace and its dependencies"
  | .help => "Print help"

/-- How an option is shown with its name set off. -/
def Flag.styled (f : Flag) : String :=
  Style.literal.paint f.typed ++ f.valueShown

/-- What a verb does. -/
def Verb.about : Verb → String
  | .dump => "Decode a lockfile and dump its entries"
  | .resolve => "Resolve a dependency to its lockfile key"
  | .prune => "Cut a lockfile down to what the given workspaces need"

namespace Topic

/-- What a topic is about. -/
def about : Topic → String
  | .command => "Decode, query and prune Yarn Berry lockfiles"
  | .verb v => v.about
  | .help => "Print this message or the help of the given subcommand(s)"

/-- The words that lead to a topic. -/
def path : Topic → List String
  | .command => [commandName]
  | .verb v => [commandName, v.name]
  | .help => [commandName, Verb.helpName]

/-- Several slots of which any may be given. -/
def choices (slots : List Slot) : String :=
  "<" ++ "|".intercalate (slots.map Slot.choice) ++ ">"

/-- How the words of a topic are given, or go on where some slots have been given: what has to
be given and what was given are named, and where nothing was given the other options stand for
themselves.  The slots that are `joined` stand as one choice. -/
def usage (given joined : List Slot) (t : Topic) : String :=
  let flags := (t.requiredFlags ++ given.filterMap Slot.flag?).eraseDups.filter fun f =>
    !joined.contains (.flag f)
  let choice := if joined.isEmpty then [] else [choices joined]
  let places := (t.places.filter fun p => !joined.contains (.place p)).map fun p =>
    p.shownAs (p.isRequired || given.contains (.place p))
  let more := match t with
    | .command => ["<COMMAND>"]
    | .verb _ => []
    | .help => ["[COMMAND]..."]
  let options := if given.isEmpty && !t.flags.isEmpty then ["[OPTIONS]"] else []
  Style.title.paint "Usage:" ++ " " ++ " ".intercalate
    (Style.literal.paint (" ".intercalate t.path) :: options ++ flags.map Flag.styled ++
      choice ++ places ++ more)

/-- The options in the order in which they are explained: by their rank among those of the
verb or of the command, and then by letter or name. -/
def explained : Topic → List Flag
  | .command => [.verbose, .log, .help]
  | .verb .dump => [.fixture, .verbose, .json, .log, .help]
  | .verb .resolve => [.verbose, .log, .help]
  | .verb .prune => [.verbose, .workspace, .log, .output, .noRoot, .help]
  | .help => []

/-- All options are explained, and each once. -/
theorem explained_perm (t : Topic) : t.explained.Perm t.flags := by
  cases t with
  | command => exact .refl _
  | verb v => cases v <;> decide
  | help => exact .refl _

/-! ## Pages -/

/-- A row of a page: what is explained, how that is styled, and its explanation. -/
structure Row where
  plain : String
  styled : String
  about : String
  deriving DecidableEq, Repr

/-- A section with a title and rows, whose explanations stand below each other.  Nothing to
explain makes no section. -/
def pageSection (title : String) (rows : List Row) : String :=
  let width := rows.foldl (fun n r => max n r.plain.length) 0
  let blanks (n : Nat) := String.ofList (List.replicate n ' ')
  if rows.isEmpty then ""
  else "\n" ++ Style.title.paint (title ++ ":") ++ "\n" ++ String.join (rows.map fun r =>
    "  " ++ r.styled ++ blanks (width - r.plain.length + 2) ++
      Text.hanging (blanks (width + 4)) r.about ++ "\n")

/-- An option as a row: its letter, or as many blanks, and its name. -/
def flagRow (filter : String) (f : Flag) : Row :=
  match f.short? with
  | some c =>
    let letter := String.ofList ['-', c]
    ⟨letter ++ ", " ++ f.shown, Style.literal.paint letter ++ ", " ++ f.styled, f.about filter⟩
  | none => ⟨"    " ++ f.shown, "    " ++ f.styled, f.about filter⟩

/-- The verbs as rows, the help among them. -/
def verbRows : Topic → List Row
  | .command => (Verb.all.map (fun v => (v.name, v.about)) ++ [(Verb.helpName, about .help)]).map
      fun (name, about) => ⟨name, Style.literal.paint name, about⟩
  | _ => []

/-- The places as rows. -/
def placeRows : Topic → List Row
  | .help => [⟨"[COMMAND]...", "[COMMAND]...", "Print help for the subcommand(s)"⟩]
  | t => t.places.map fun p => ⟨p.shown, p.shown, p.about⟩

/-- The page about a topic. -/
def page (filter : String) (t : Topic) : String :=
  t.about ++ "\n\n" ++ t.usage [] [] ++ "\n" ++ pageSection "Commands" t.verbRows ++
    pageSection "Arguments" t.placeRows ++
    pageSection "Options" (t.explained.map (flagRow filter))

end Topic

/-! ## What is wrong -/

/-- A text between apostrophes, set off by a style. -/
def cited (style : Style) (s : String) : String :=
  "\x27" ++ style.paint s ++ "\x27"

/-- What is wrong with words. -/
def Misuse.message : Misuse → String
  | .unknown word .. => "unexpected argument " ++ cited .invalid word ++ " found"
  | .unknownVerb word _ => "unrecognized subcommand " ++ cited .invalid word
  | .noVerb =>
    cited .invalid commandName ++ " requires a subcommand but one was not provided\n" ++
      "  [subcommands: " ++ ", ".intercalate (Verb.names.map Style.valid.paint) ++ "]"
  | .noValue s =>
    "a value is required for " ++ cited .invalid s.shown ++ " but none was supplied"
  | .extraValue f value _ =>
    "unexpected value " ++ cited .invalid value ++ " for " ++ cited .literal f.shown ++
      " found; no more were expected"
  | .repeated s =>
    "the argument " ++ cited .invalid s.shown ++ " cannot be used multiple times"
  | .conflict s other _ =>
    "the argument " ++ cited .invalid s.shown ++ " cannot be used with " ++
      cited .invalid other.shown
  | .absent missing _ =>
    "the following required arguments were not provided:" ++
      String.join (missing.map fun s => "\n  " ++ Style.valid.paint s.shown)

/-- What may be meant. -/
def Tip.text : Tip → String
  | .similarFlag f => "a similar argument exists: " ++ cited .valid f.typed
  | .similarVerbs names =>
    (if names.length = 1 then "a similar subcommand exists: "
      else "some similar subcommands exist: ") ++ ", ".intercalate (names.map (cited .valid))
  | .flagOfVerb v f => cited .valid (v.name ++ " " ++ f.typed) ++ " exists"
  | .asWord word =>
    "to pass " ++ cited .invalid word ++ " as a value, use " ++ cited .valid ("-- " ++ word)
  | .withoutDashes verb =>
    "subcommand " ++ cited .valid verb ++ " exists; to use it, remove the " ++
      cited .invalid "--" ++ " before it"

/-- What may be meant by the words that are wrong. -/
def Misuse.tip? : Misuse → Option Tip
  | .unknown _ tip? _ => tip?
  | .unknownVerb _ similar => if similar.isEmpty then none else some (.similarVerbs similar)
  | _ => none

/-- How words about a topic are given, if that is told at all.  With an option that got a value
it cannot take, the slots of the topic stand as a choice if one of them had been given. -/
def Misuse.usage? (t : Topic) : Misuse → Option String
  | .noValue _ => none
  | .extraValue f _ given =>
    some (t.usage (given ++ [.flag f]) (if given.any t.own.contains then t.own else []))
  | .unknown _ _ given | .conflict _ _ given | .absent _ given => some (t.usage given [])
  | .unknownVerb .. | .noVerb | .repeated _ => some (t.usage [] [])

/-- What is wrong with words about a topic, and how they are given. -/
def Misuse.text (t : Topic) (m : Misuse) : String :=
  Style.alarm.paint "error:" ++ " " ++ m.message ++
    (match m.tip? with
      | some tip => "\n\n  " ++ Style.valid.paint "tip:" ++ " " ++ tip.text
      | none => "") ++
    (match m.usage? t with
      | some usage => "\n\n" ++ usage
      | none => "") ++
    (if t = .help then "\n"
      else "\n\nFor more information, try " ++ cited .literal Flag.help.typed ++ ".\n")

/-- The answer to words that are no task, as a terminal takes it. -/
def Stop.styled (filter : String) : Stop → String
  | .help t => t.page filter
  | .wordless => Topic.page filter .command
  | .misuse t m => m.text t

/-- The answer to words that are no task, in styles or with what is visible alone. -/
def Stop.text (env : Environment) (s : Stop) : String :=
  let styled := s.styled (env.filter?.getD "")
  if env.wantsStyles then styled else Text.visible styled

end LockPrune.Command
