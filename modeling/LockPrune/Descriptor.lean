import LockPrune.Text.Alphanumeric

/-!
# Descriptors

A key of a lockfile names a package and the range that was asked for, as in
`debug@npm:1.0.0` or `@babel/core@^7.0.0`.  A name is a run of name characters, or two such
runs with `@` in front and a slash between; behind the name stand `@` and the range, which
goes on up to a control character.

## Main definitions

* `Ident`, `Descriptor` — a package, and a package with a range.
* `Descriptor.read` — the descriptor that a text begins with.
* `Descriptor.ofKey?` — the descriptor that is the whole key.
* `Descriptor.protocol?` — the protocol of the range, such as `npm`.
-/

namespace LockPrune

/-- A package.  The scope has its `@` in front. -/
structure Ident where
  scope : Option String
  name : String
  deriving DecidableEq, Repr

namespace Ident

/-- The name as it is asked for, with its scope. -/
def fullName (i : Ident) : String :=
  match i.scope with
  | some scope => scope ++ "/" ++ i.name
  | none => i.name

end Ident

/-- A package and the range that was asked for. -/
structure Descriptor where
  ident : Ident
  range : String
  deriving DecidableEq, Repr

namespace Descriptor

/-! ## Characters -/

/-- A character of a name. -/
def isNameChar (c : Char) : Bool :=
  Text.isAlphanumeric c || c = '-' || c = '_' || c = '.' || c = '~'

/-- A control character. -/
def isControl (c : Char) : Bool :=
  c.toNat < 0x20 || (0x7F ≤ c.toNat && c.toNat < 0xA0)

/-- A character of a protocol. -/
def isProtocolChar (c : Char) : Bool :=
  Text.isAlphanumeric c || c = '-' || c = '_' || c = '+'

/-! ## Reading -/

/-- Why a text does not begin with a descriptor, and what was left of it there. -/
inductive Fault where
  | noName (rest : List Char)
  | noMark (rest : List Char)
  | noRange (rest : List Char)
  deriving DecidableEq, Repr

/-- The characters of a class that a text begins with, at least one. -/
def run? (p : Char → Bool) (s : List Char) : Option (List Char × List Char) :=
  match s.takeWhile p with
  | [] => none
  | word => some (word, s.dropWhile p)

/-- The name with a scope that a text begins with. -/
def readScoped (s : List Char) : Option (Ident × List Char) :=
  match s with
  | '@' :: rest =>
    match run? isNameChar rest with
    | some (scope, '/' :: rest) =>
      (run? isNameChar rest).map fun (name, rest) =>
        (⟨some (String.ofList ('@' :: scope)), String.ofList name⟩, rest)
    | _ => none
  | _ => none

/-- The name that a text begins with. -/
def readName (s : List Char) : Option (Ident × List Char) :=
  match readScoped s with
  | some result => some result
  | none => (run? isNameChar s).map fun (name, rest) => (⟨none, String.ofList name⟩, rest)

/-- The descriptor that a text begins with, and what is left of the text. -/
def read (s : List Char) : Except Fault (Descriptor × List Char) :=
  match readName s with
  | none => .error (.noName s)
  | some (ident, '@' :: rest) =>
    match run? (fun c => !isControl c) rest with
    | none => .error (.noRange rest)
    | some (range, rest) => .ok (⟨ident, String.ofList range⟩, rest)
  | some (_, rest) => .error (.noMark rest)

/-- The descriptor that is the whole key. -/
def ofKey? (key : String) : Option Descriptor :=
  match read key.toList with
  | .ok (d, []) => some d
  | _ => none

/-! ## Ranges -/

/-- The protocol of the range: what stands in front of its first colon, if these are
characters of a protocol. -/
def protocol? (d : Descriptor) : Option String :=
  match run? isProtocolChar d.range.toList with
  | some (protocol, ':' :: _) => some (String.ofList protocol)
  | _ => none

/-- The package is a workspace of the project. -/
def isWorkspace (d : Descriptor) : Bool :=
  d.protocol? = some "workspace"

end Descriptor

end LockPrune
