import LockPrune.Yaml.Reading

/-!
# Metadata

A lockfile begins with a block that tells the version of its format and the key of the cache
that its checksums belong to.

## Main definitions

* `Metadata` — the block.
* `Metadata.current` — the block of the files that are written.
* `Metadata.read` — reads the block.
* `header` — the beginning of every file that is written.
-/

namespace LockPrune

/-- The version of the format and the key of the cache. -/
structure Metadata where
  version : String
  cacheKey : String
  deriving DecidableEq, Repr

namespace Metadata

/-- The metadata of the files that are written. -/
def current : Metadata := ⟨"5", "8"⟩

/-- The key of the block. -/
def key : String := "__metadata"

/-! ## Reading -/

/-- What was read of the block. -/
structure Draft where
  version : Option String
  cacheKey : Option String

open Yaml

/-- Reads the fields of the block.  A field that is not known is passed over, and one that
is may stand once. -/
def readFields (d : Document) (path : Path) : Draft → List (Node × Node) → Reading Draft
  | draft, [] => pure draft
  | draft, (k, v) :: rest => do
    let name ← d.text "field identifier" path k
    let path' := path.value k
    if name = "version" then
      if draft.version.isSome then .fail (.unplaced (.duplicateField "version"))
      else
        let s ← d.text "a string" path' v
        readFields d path { draft with version := some s } rest
    else if name = "cacheKey" then
      if draft.cacheKey.isSome then .fail (.unplaced (.duplicateField "cacheKey"))
      else
        let s ← d.text "a string" path' v
        readFields d path { draft with cacheKey := some s } rest
    else
      d.ignore v
      readFields d path draft rest

/-- Reads the block.  It has a version; the key of the cache may be left out. -/
def read (d : Document) (depth : Nat) (path : Path) (node : Node) : Reading Metadata :=
  d.mapping "struct Metadata" (fun _ path entries => do
    let draft ← readFields d path ⟨none, none⟩ entries
    match draft.version with
    | some version => pure ⟨version, draft.cacheKey.getD ""⟩
    | none => .fail (.unplaced (.missingField "version"))) depth path node

/-- The metadata that a text of one document holds. -/
def ofText (text : String) : Except Fault Metadata :=
  let d := Document.ofText text.toList
  d.read (read d)

end Metadata

/-- The comment at the top of every file that is written. -/
def headerComment : String :=
  "# This file is generated by running \"yarn install\" inside your project.\n" ++
    "# Manual changes might be lost - proceed with caution!\n"

/-- The beginning of every file that is written, up to the end of its metadata. -/
def header : String :=
  headerComment ++ "\n" ++ Metadata.key ++ ":\n  version: " ++ Metadata.current.version ++
    "\n  cacheKey: " ++ Metadata.current.cacheKey ++ "\n"

end LockPrune
