import LockPrune.Text.Lines

/-!
# Listings

A listing shows data for reading: groups open and close on lines of their own, with four
blanks of indentation for every level between, and a comma behind every part.

## Main definitions

* `Listing` — what is shown.
* `Listing.text` — how it is shown.
-/

namespace LockPrune

/-- What is shown: a text, a part under a label, or a group of parts between two texts. -/
inductive Listing where
  | text (value : String)
  | labelled (label part : Listing)
  | group (opening closing : String) (parts : List Listing)
  deriving Repr, Inhabited

namespace Listing

/-- A group between braces, behind its name. -/
def record (name : String) (parts : List Listing) : Listing :=
  .group (name ++ "\x7b") "\x7d" parts

/-- A group between brackets, behind its name. -/
def series (name : String) (parts : List Listing) : Listing :=
  .group (name ++ "[") "]" parts

/-- The blanks in front of a line that is one level deeper. -/
def deeper (margin : String) : String :=
  margin ++ "    "

mutual

/-- The text of a listing whose lines stand behind a margin, the first line excepted.  A
group without parts stands on one line. -/
def render (margin : String) : Listing → String
  | .text s => Text.hanging margin s
  | .labelled label part => render margin label ++ ": " ++ render margin part
  | .group opening closing parts =>
    if parts.isEmpty then opening ++ closing
    else opening ++ "\n" ++ renderParts (deeper margin) parts ++ margin ++ closing
termination_by structural x => x

/-- The text of the parts of a group, each on lines of its own behind a margin. -/
def renderParts (margin : String) : List Listing → String
  | [] => ""
  | part :: rest => margin ++ render margin part ++ ",\n" ++ renderParts margin rest
termination_by structural parts => parts

end

end Listing

end LockPrune
