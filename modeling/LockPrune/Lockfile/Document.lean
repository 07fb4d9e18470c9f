import LockPrune.Json.Value
import LockPrune.Lockfile.Basic

/-!
# A lockfile as a JSON document

All that a lockfile says can be had as JSON, with one limit: JSON names the members of an
object by texts, so a mapping can be shown only if each of its keys is a text, a truth value
or a finite number.

## Main definitions

* `NameFault` — why a key names no member.
* `Yaml.Value.memberName` — the text that a key is as the name of a member.
* `Yaml.Value.document`, `Entry.document`, `Lockfile.document` — the documents.
-/

namespace LockPrune

/-- Why a key names no member of an object. -/
inductive NameFault where
  | noText
  | notFinite
  deriving DecidableEq, Repr

/-- The text of a fault. -/
def NameFault.message : NameFault → String
  | .noText => "key must be a string"
  | .notFinite => "float key must be finite (got NaN or +/-inf)"

namespace Yaml.Value

/-- The text that a key is as the name of a member. -/
def memberName : Value → Except NameFault String
  | .string s => .ok s
  | .bool b => .ok (if b then "true" else "false")
  | .number (.integer i) => .ok (toString i)
  | .number (.float x) => if x.isFinite then .ok (Json.numeral x) else .error .notFinite
  | _ => .error .noText

/-- A number as JSON; one that is not finite has no form there. -/
def numberDocument : Number → Json.Value
  | .integer i => .integer i
  | .float x => if x.isFinite then .float x else .null

mutual

/-- A value as JSON.  A tagged value is an object with the tag as its only name, and of two
keys with the same text the later counts. -/
def document : Value → Except NameFault Json.Value
  | .null => .ok .null
  | .bool b => .ok (.bool b)
  | .number n => .ok (numberDocument n)
  | .string s => .ok (.string s)
  | .sequence items => (itemDocuments items).map .array
  | .mapping entries => (memberDocuments entries).map fun ms => .ofTable (.ofList ms)
  | .tagged tag v => v.document.map fun d => .object [("!" ++ tag, d)]
termination_by structural v => v

/-- The items of a sequence as JSON. -/
def itemDocuments : List Value → Except NameFault (List Json.Value)
  | [] => .ok []
  | v :: vs => do
    let d ← v.document
    let ds ← itemDocuments vs
    pure (d :: ds)
termination_by structural vs => vs

/-- The entries of a mapping as members, in order. -/
def memberDocuments : List (Value × Value) → Except NameFault (List (String × Json.Value))
  | [] => .ok []
  | (k, v) :: rest => do
    let name ← k.memberName
    let d ← v.document
    let ds ← memberDocuments rest
    pure ((name, d) :: ds)
termination_by structural es => es

end

end Yaml.Value

namespace Entry

/-- A field with a text, unless it is empty. -/
def textMember (f : Field) (s : String) : List (String × Json.Value) :=
  if s.isEmpty then [] else [(f.name, .string s)]

/-- A field with names and ranges, unless it is empty. -/
def rangesMember (f : Field) (r : Ranges) : List (String × Json.Value) :=
  if r.isEmpty then [] else [(f.name, .ofTable (r.mapValues .string))]

/-- An entry as JSON: the version, and of the other fields those that are not empty. -/
def document (e : Entry) : Except NameFault Json.Value := do
  let extra ← e.extra.pairs.mapM fun p => p.2.document.map fun d => (p.1, d)
  pure <| .ofTable <| .ofList <|
    (Field.version.name, .string e.version) ::
      textMember .resolved e.resolved ++ textMember .integrity e.integrity ++
      textMember .resolution e.resolution ++ rangesMember .dependencies e.dependencies ++
      rangesMember .optionalDependencies e.optionalDependencies ++
      rangesMember .peerDependencies e.peerDependencies ++ extra ++
      textMember .checksum e.checksum ++ textMember .conditions e.conditions ++
      textMember .languageName e.languageName ++ textMember .linkType e.linkType

end Entry

/-- The metadata as JSON. -/
def Metadata.document (m : Metadata) : Json.Value :=
  .ofTable (.ofList [("version", .string m.version), ("cacheKey", .string m.cacheKey)])

/-- A lockfile as JSON: its metadata, and the entry of every key. -/
def Lockfile.document (l : Lockfile) : Except NameFault Json.Value := do
  let entries ← l.entries.mapM fun p => p.2.document.map fun d => (p.1, d)
  pure (.ofTable (.ofList
    [("metadata", l.metadata.document), ("entries", .ofTable (.ofList entries))]))

end LockPrune
