import LockPrune.Entry
import LockPrune.Yaml.Value.Read

/-!
# Reading an entry

An entry is read field by field.  Every modelled text is taken as it is written, so that a
range such as `2.10` keeps its zero; what is missing reads as the empty text.  A field that
comes again replaces what was read before.

## Main definitions

* `Entry.Draft` — what was read of an entry.
* `Entry.Draft.set` — reads one more field.
* `Entry.read` — reads an entry.
-/

namespace LockPrune

namespace Entry

open Yaml

/-- What was read of an entry.  The version is apart, since an entry has to have one. -/
structure Draft where
  version : Option String
  entry : Entry

/-- Reads a text that may be missing. -/
def readText? (d : Document) (path : Path) (node : Node) : Reading (Option String) :=
  d.optional (d.text "a string") path node

/-- Reads a text; what is missing is empty. -/
def readText (d : Document) (path : Path) (node : Node) : Reading String :=
  (·.getD "") <$> readText? d path node

/-- Reads names with ranges. -/
def readPairs (d : Document) (path : Path) : Ranges → List (Node × Node) → Reading Ranges
  | ranges, [] => pure ranges
  | ranges, (k, v) :: rest => do
    let name ← d.text "a string" path k
    let range ← readText d (path.value k) v
    readPairs d path (ranges.put name range) rest

/-- Reads a mapping of names to ranges; what is missing is empty. -/
def readRanges (d : Document) (depth : Nat) (path : Path) (node : Node) : Reading Ranges :=
  (·.getD .empty) <$>
    d.optional (d.mapping "a map" (fun _ path => readPairs d path .empty) depth) path node

/-- Reads one more field. -/
def Draft.set (d : Document) (depth : Nat) (path : Path) (draft : Draft) (name : String)
    (node : Node) : Reading Draft :=
  let entry := draft.entry
  let keep (entry : Entry) : Draft := { draft with entry := entry }
  match Field.ofName? name with
  | some .version => ({ draft with version := · }) <$> readText? d path node
  | some .resolved => (keep { entry with resolved := · }) <$> readText d path node
  | some .integrity => (keep { entry with integrity := · }) <$> readText d path node
  | some .resolution => (keep { entry with resolution := · }) <$> readText d path node
  | some .dependencies => (keep { entry with dependencies := · }) <$> readRanges d depth path node
  | some .optionalDependencies =>
    (keep { entry with optionalDependencies := · }) <$> readRanges d depth path node
  | some .peerDependencies =>
    (keep { entry with peerDependencies := · }) <$> readRanges d depth path node
  | some .checksum => (keep { entry with checksum := · }) <$> readText d path node
  | some .conditions => (keep { entry with conditions := · }) <$> readText d path node
  | some .languageName => (keep { entry with languageName := · }) <$> readText d path node
  | some .linkType => (keep { entry with linkType := · }) <$> readText d path node
  | none =>
    (fun v => keep { entry with extra := entry.extra.put name v }) <$> d.value depth path node

/-- Reads the fields of an entry. -/
def readFields (d : Document) (depth : Nat) (path : Path) :
    Draft → List (Node × Node) → Reading Draft
  | draft, [] => pure draft
  | draft, (k, v) :: rest => do
    let name ← d.text "a string" path k
    let draft ← draft.set d depth (path.value k) name v
    readFields d depth path draft rest

/-- The entry, if it has a version. -/
def Draft.finish (draft : Draft) : Reading Entry :=
  match draft.version with
  | some version => pure { draft.entry with version := version }
  | none => .fail (.unplaced (.missingField Field.version.name))

/-- Reads an entry. -/
def read (d : Document) (depth : Nat) (path : Path) (node : Node) : Reading Entry :=
  d.mapping "a lockfile entry" (fun depth path entries => do
    let draft ← readFields d depth path ⟨none, {}⟩ entries
    draft.finish) depth path node

/-- The entry that a text of one document holds. -/
def ofText (text : String) : Except Yaml.Fault Entry :=
  let d := Document.ofText text.toList
  d.read (read d)

end Entry

end LockPrune
