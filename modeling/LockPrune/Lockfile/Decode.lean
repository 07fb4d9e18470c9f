import LockPrune.Entry.Read
import LockPrune.Lockfile.Basic
import LockPrune.Metadata

/-!
# Reading a lockfile

A file with the marks of a merge conflict is refused before anything else, and a file of
blank lines and comments is a lockfile without keys.  Every other file is a YAML mapping of
keys to entries, with the metadata under a key of its own.

When a block has not the form of an entry, the error names it, but only if the file is
otherwise sound: a fault anywhere in the text comes first.

## Main definitions

* `DecodeError` — why a file is no lockfile.
* `conflictLine?` — the line of the first mark of a merge conflict.
* `Lockfile.decodeBlocks`, `Lockfile.decode` — the blocks of a file, and its lockfile.
-/

namespace LockPrune

/-! ## Errors -/

/-- Why a file is no lockfile. -/
inductive DecodeError where
  | mergeConflict (line : Nat)
  | malformed (fault : Yaml.Fault)
  | entry (key : String) (fault : Yaml.Fault)
  deriving DecidableEq, Repr

namespace DecodeError

/-- What stands behind every message. -/
def hint : String :=
  "This can happen if your lockfile contains merge conflicts or is somehow corrupted. " ++
    "Please report this if it occurs"

/-- The text of an error. -/
def message : DecodeError → String
  | .mergeConflict line =>
    "lockfile contains a merge conflict marker on line " ++ toString line ++ ". " ++ hint
  | .malformed fault => "could not unmarshal lockfile: " ++ fault.message ++ ". " ++ hint
  | .entry key fault =>
    "lockfile entry " ++ Text.quoted key ++ " is malformed: " ++ fault.message ++ ". " ++ hint

/-- The code of an error. -/
def code : DecodeError → String
  | .mergeConflict _ => "berry::decode::merge_conflict"
  | .malformed _ => "berry::decode::syntax"
  | .entry .. => "berry::decode::entry"

/-- What may be done about an error. -/
def help : DecodeError → String
  | .mergeConflict _ =>
    "Resolve the conflict, or re-run \x60yarn install\x60 to regenerate the lockfile"
  | .malformed _ => "Re-run \x60yarn install\x60 to regenerate the lockfile"
  | .entry .. => "Every package block needs at least a \x60version\x60 field"

/-- The fault of the document behind an error. -/
def cause? : DecodeError → Option Yaml.Fault
  | .mergeConflict _ => none
  | .malformed fault => some fault
  | .entry _ fault => some fault

end DecodeError

/-! ## Lines of octets -/

/-- The lines of a file, without their line feeds. -/
def octetLines (contents : List UInt8) : List (List UInt8) :=
  Text.splitOn 10 contents

/-- The line is a mark of a merge conflict. -/
def isConflictMark (line : List UInt8) : Bool :=
  let line := Text.dropOneAtEnd 13 line
  (List.replicate 7 60).isPrefixOf line || (List.replicate 7 124).isPrefixOf line ||
    (List.replicate 7 62).isPrefixOf line || line = List.replicate 7 61

/-- The number of the first line that is a mark of a merge conflict. -/
def conflictLine? (contents : List UInt8) : Option Nat :=
  ((octetLines contents).findIdx? isConflictMark).map (· + 1)

/-- A blank octet. -/
def isBlankOctet (b : UInt8) : Bool :=
  b = 32 || b = 9 || b = 10 || b = 12 || b = 13

/-- The line is blank or a comment. -/
def isBlankLine (line : List UInt8) : Bool :=
  match line.dropWhile isBlankOctet with
  | [] => true
  | b :: _ => b = 35

/-- Every line is blank or a comment. -/
def isBlankDocument (contents : List UInt8) : Bool :=
  (octetLines contents).all isBlankLine

namespace Lockfile

open Yaml

/-! ## The document -/

/-- The document of a file.  Octets that are no text are no document. -/
def documentOf (contents : List UInt8) : Document :=
  match String.fromUTF8? ⟨contents.toArray⟩ with
  | some text => .ofText text.toList
  | none => .malformed

/-- A fault, with the key of the block that has it. -/
abbrev BlockFault := Option String × Fault

/-- Reads the blocks of a document.  The last block of metadata counts. -/
def readBlocks (d : Document) (depth : Nat) (path : Path) :
    Metadata → List (Node × Node) → Nat → Except BlockFault (Metadata × List Block)
  | metadata, [], _ => .ok (metadata, [])
  | metadata, (k, v) :: rest, n =>
    match d.text "a string" path k n with
    | .error fault => .error (none, fault)
    | .ok (key, n) =>
      if key = Metadata.key then
        match Metadata.read d depth (path.value k) v n with
        | .error fault => .error (some key, fault)
        | .ok (metadata, n) => readBlocks d depth path metadata rest n
      else
        match Entry.read d depth (path.value k) v n with
        | .error fault => .error (some key, fault)
        | .ok (entry, n) =>
          (readBlocks d depth path metadata rest n).map fun (metadata, blocks) =>
            (metadata, ⟨key, entry⟩ :: blocks)

/-- The root of a document as a mapping, with its place and the bound inside. -/
def rootEntries (d : Document) : Except Fault (Nat × Path × List (Node × Node) × Nat) :=
  let root := d.mapping "a mapping of lockfile keys to entries"
    (fun depth path entries => pure (depth, path, entries)) maxDepth .root d.root
  (root 0).map fun ((depth, path, entries), n) => (depth, path, entries, n)

/-- Reads the metadata and the blocks of a document. -/
def readDocument (d : Document) : Except BlockFault (Metadata × List Block) :=
  match rootEntries d with
  | .error fault => .error (none, fault)
  | .ok (depth, path, entries, n) =>
    match readBlocks d depth path .current entries n with
    | .error fault => .error fault
    | .ok result =>
      match d.fault with
      | some b => .error (none, .ofBreak b)
      | none => if d.alone then .ok result else .error (none, .moreThanOneDocument)

/-- The error for a fault: a block is named only if nothing else is wrong. -/
def errorOf (d : Document) : BlockFault → DecodeError
  | (some key, fault) => if d.isWhole then .entry key fault else .malformed fault
  | (none, fault) => .malformed fault

/-! ## Files -/

/-- The metadata and the blocks of a file. -/
def decodeBlocks (contents : List UInt8) : Except DecodeError (Metadata × List Block) :=
  match conflictLine? contents with
  | some line => .error (.mergeConflict line)
  | none =>
    if isBlankDocument contents then .ok (.current, [])
    else
      let d := documentOf contents
      (readDocument d).mapError (errorOf d)

/-- The lockfile of a file. -/
def decode (contents : List UInt8) : Except DecodeError Lockfile :=
  (decodeBlocks contents).map fun (metadata, blocks) => ofBlocks metadata blocks

end Lockfile

end LockPrune
