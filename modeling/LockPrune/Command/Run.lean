import LockPrune.Command.Fixtures
import LockPrune.Command.Folder
import LockPrune.Command.Help
import LockPrune.Command.Report
import LockPrune.Lockfile.Closure
import LockPrune.Lockfile.Decode
import LockPrune.Lockfile.Document
import LockPrune.Lockfile.Encode
import LockPrune.Lockfile.Listing

/-!
# The command

A lockfile is dumped, asked for a dependency, or cut down to what some workspaces need.  The
command is a program over any place that holds files.

There is no log: the options for it are accepted and change nothing.

## Main definitions

* `pruned` — a lockfile cut down to what some workspaces need.
* `Task.run` — does a task.
* `run` — does what words ask for.
-/

namespace LockPrune.Command

/-! ## Complaints -/

/-- The complaint about a file that cannot be used. -/
def FileFault.complaint (f : FileFault) : Complaint :=
  { message := f.message }

end LockPrune.Command

namespace LockPrune

/-- The complaint about a file that is no lockfile. -/
def DecodeError.complaint (e : DecodeError) : Command.Complaint where
  message := e.message
  causes := (e.cause?.map Yaml.Fault.message).toList
  help? := some e.help
  code? := some e.code

/-- The complaint about a lockfile that is not written. -/
def EncodeError.complaint (e : EncodeError) : Command.Complaint where
  message := e.message
  causes := [e.cause]
  help? := e.help?
  code? := some e.code

end LockPrune

namespace LockPrune.Command

/-! ## Reading -/

/-- The lockfile of a file that was read. -/
def lockfileOf (path : String) (contents : Except FileFault (List UInt8)) :
    Except Complaint Lockfile :=
  match contents with
  | .error fault => .error (fault.complaint.behind ("failed to read " ++ path))
  | .ok octets =>
    (Lockfile.decode octets).mapError fun e => e.complaint.behind ("failed to decode " ++ path)

section Files

variable {m : Type → Type} [Monad m] [MonadFiles m]

/-- The lockfile of a path. -/
def load (path : String) : m (Except Complaint Lockfile) := do
  let contents ← MonadFiles.readFile path
  pure (lockfileOf path contents)

/-- The lockfile that is dumped.  The name of a bundled lockfile is taken from their folder,
unless it is an absolute path. -/
def loadSource : Option Source → m (Except Complaint Lockfile)
  | some (.path path) => load path
  | some (.fixture name) =>
    let path := if (Path.ofText name).isAbsolute then name else "fixtures/" ++ name
    pure (lockfileOf path (fixtures.read name))
  | none => pure (.error { message := "Provide a lockfile path or --fixture <name>" })

end Files

/-! ## Answers -/

/-- Dumps a lockfile. -/
def dumped (asJson : Bool) (l : Lockfile) : Report :=
  if asJson then
    match l.document with
    | .ok d => .done (d.text ++ "\n")
    | .error fault => .formless fault.message
  else .done l.listing

/-- What a dependency resolves to. -/
def resolved (name range : String) (l : Lockfile) : Report :=
  match l.resolve .standard name range with
  | some r => .done (r.key ++ " -> " ++ r.version ++ "\n")
  | none => .absent (name ++ "@" ++ range ++ " is not in the lockfile")

/-- The keys that a prune starts from: that of the root, if it is kept and there is one, and
those of the workspaces. -/
def roots (workspaces : List String) (withRoot : Bool) (l : Lockfile) :
    Except Complaint (List String) := do
  let keys ← workspaces.mapM fun name =>
    match l.workspaceKey? name with
    | some key => .ok key
    | none => .error { message := "workspace \x60" ++ name ++ "\x60 is not in the lockfile" }
  pure ((if withRoot then l.rootKey?.toList else []) ++ keys)

/-- A lockfile cut down to what some workspaces need. -/
def pruned (workspaces : List String) (withRoot : Bool) (l : Lockfile) :
    Except Complaint Lockfile :=
  (roots workspaces withRoot l).map (l.prune .standard)

/-- Prints a lockfile. -/
def printed (l : Lockfile) : Report :=
  match l.encode with
  | .ok text => .done text
  | .error e => .failed e.complaint

section Files

variable {m : Type → Type} [Monad m] [MonadFiles m]

/-- Writes a lockfile to a file.  The file is made first, and removed again when the lockfile
cannot be written. -/
def save (path : String) (l : Lockfile) : m Report := do
  match ← MonadFiles.writeFile path [] with
  | .error fault =>
    pure (.failed (fault.complaint.behind ("failed to create " ++ path)))
  | .ok () =>
    let written ← match l.encode with
      | .error e => pure (.error e)
      | .ok text => do
        let answer ← MonadFiles.writeFile path (Sink.octets text.toList)
        pure (answer.mapError fun fault => EncodeError.refused fault.message)
    match written with
    | .ok () => pure (.done "")
    | .error e =>
      let _ ← MonadFiles.removeFile path
      pure (.failed (e.complaint.behind ("failed to write " ++ path)))

/-! ## Tasks -/

/-- Does a task. -/
def Task.run : Task → m Report
  | .dump source? asJson => do
    match ← loadSource source? with
    | .ok l => pure (dumped asJson l)
    | .error c => pure (.failed c)
  | .resolve path name range => do
    match ← load path with
    | .ok l => pure (resolved name range l)
    | .error c => pure (.failed c)
  | .prune path workspaces output? withRoot => do
    match (← load path).bind (pruned workspaces withRoot) with
    | .error c => pure (.failed c)
    | .ok l =>
      match output? with
      | none => pure (printed l)
      | some output => save output l

/-- The answer to words that are no task. -/
def Stop.report (env : Environment) (s : Stop) : Report :=
  match s with
  | .help _ => .done (s.text env)
  | .wordless | .misuse .. => .misused (s.text env)

/-- Does what words ask for. -/
def run (env : Environment) (words : List String) : m Report :=
  match Task.ofWords env.filter?.isSome words with
  | .ok task => task.run
  | .error stop => pure (stop.report env)

end Files

end LockPrune.Command
