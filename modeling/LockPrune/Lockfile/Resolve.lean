import LockPrune.Descriptor
import LockPrune.Lockfile.Basic

/-!
# Resolving dependencies

A dependency is a name and a range.  A policy turns it into the keys that it may be stored
under, the best first; the first that the lockfile has is what it resolves to.

## Main definitions

* `KeyPolicy` — from a dependency to its candidate keys.
* `KeyPolicy.standard` — the range as it is written, then with each known protocol.
* `Lockfile.firstOf`, `Lockfile.resolve` — the first key that the lockfile has.
* `Lockfile.workspaceKey?`, `Lockfile.rootKey?` — the keys of workspaces.
-/

namespace LockPrune

/-- The keys that a dependency may be stored under, the best first. -/
abbrev KeyPolicy := String → String → List String

namespace KeyPolicy

/-- The protocols that are put in front of a range without one. -/
def protocols : List String := ["npm", "file", "workspace", "yarn"]

/-- The range as it is written, then with each of the protocols in front. -/
def standard : KeyPolicy := fun name range =>
  (name ++ "@" ++ range) :: protocols.map fun protocol => name ++ "@" ++ protocol ++ ":" ++ range

/-- A policy given by templates, in which a name and a range in braces stand for those of
the dependency. -/
def ofTemplates (templates : List String) : KeyPolicy := fun name range =>
  templates.map fun t => (t.replace "\x7bname\x7d" name).replace "\x7bspecifier\x7d" range

end KeyPolicy

/-- What a dependency resolves to. -/
structure Resolved where
  key : String
  version : String
  deriving DecidableEq, Repr

namespace Lockfile

/-- The first of the given keys that the lockfile has, with its version. -/
def firstOf (l : Lockfile) (candidates : List String) : Option Resolved :=
  candidates.findSome? fun key => (l.entry? key).map fun e => ⟨key, e.version⟩

/-- What a dependency resolves to. -/
def resolve (l : Lockfile) (policy : KeyPolicy) (name range : String) : Option Resolved :=
  l.firstOf (policy name range)

/-! ## Workspaces -/

/-- The first key of the workspace of a given name. -/
def workspaceKey? (l : Lockfile) (name : String) : Option String :=
  l.keys.find? fun key =>
    (Descriptor.ofKey? key).any fun d => d.isWorkspace && d.ident.fullName = name

/-- The first key of the workspace at the root of the project. -/
def rootKey? (l : Lockfile) : Option String :=
  l.keys.find? fun key => (Descriptor.ofKey? key).any fun d => d.range = "workspace:."

end Lockfile

end LockPrune
