import LockPrune.Entry.Write
import LockPrune.Lockfile.Basic
import LockPrune.Lockfile.Layout
import LockPrune.Sink
import LockPrune.Yaml.Fault

/-!
# Writing a lockfile

A lockfile is written with a block for every key, in order, below a header that is always the
same.  The blocks are put into their form before anything is written, so that an entry that
cannot be written leaves nothing behind.

## Main definitions

* `EncodeError` — why a lockfile is not written.
* `Lockfile.writes` — the texts that are written, in order.
* `Lockfile.encode` — the file.
* `Lockfile.encodeTo` — writes the file to a sink.
-/

namespace LockPrune

/-- Why a lockfile is not written. -/
inductive EncodeError where
  /-- A value has no form in the file. -/
  | unwritable
  /-- What the file is written to did not take it. -/
  | refused (reason : String)
  deriving DecidableEq, Repr

namespace EncodeError

/-- What is behind an error. -/
def cause : EncodeError → String
  | .unwritable => Yaml.Fault.malformed.message
  | .refused reason => reason

/-- The text of an error. -/
def message : EncodeError → String
  | .unwritable => "failed to materialize sub-lockfile: " ++ cause .unwritable
  | .refused reason => "failed to write lockfile: " ++ reason

/-- The code of an error. -/
def code : EncodeError → String
  | .unwritable => "berry::encode::serialize"
  | .refused _ => "berry::encode::io"

/-- What may be done about an error. -/
def help? : EncodeError → Option String
  | .unwritable => none
  | .refused _ => some "The output is incomplete and should be discarded"

end EncodeError

namespace Lockfile

open Yaml

/-- The blocks as trees, if all of them can be written. -/
def trees? (l : Lockfile) : Option (List (Tree × Tree)) :=
  l.entries.mapM fun p => p.2.trees?.map fun fields => (Tree.ofText p.1, .mapping none fields)

/-- The blocks as YAML.  No blocks are no text at all. -/
def yaml? (l : Lockfile) : Option (List Char) :=
  l.trees?.map fun trees => if trees.isEmpty then [] else Tree.render trees

/-- The texts that are written, in order. -/
def writes (l : Lockfile) : Except EncodeError (List (List Char)) :=
  match l.yaml? with
  | some yaml => .ok (header.toList :: Layout.writes yaml)
  | none => .error .unwritable

/-- The file of a lockfile. -/
def encode (l : Lockfile) : Except EncodeError String :=
  l.writes.map fun texts => String.ofList texts.flatten

/-- Writes the file of a lockfile to a sink. -/
def encodeTo (l : Lockfile) (sink : Sink) : Sink × Except EncodeError Unit :=
  match l.writes with
  | .error e => (sink, .error e)
  | .ok texts =>
    match sink.writeAll texts with
    | (sink, true) => (sink, .ok ())
    | (sink, false) => (sink, .error (.refused Sink.refusal))

/-- The files that a lockfile refers to.  Patches are ranges like all others, so there are
none. -/
def patches (_ : Lockfile) : List String := []

end Lockfile

end LockPrune
