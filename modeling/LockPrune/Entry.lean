import LockPrune.Ordered.Catalog
import LockPrune.Ordered.Table
import LockPrune.Yaml.Value

/-!
# Entries

An entry is one package of a lockfile as it was resolved: its version, where it came from,
and what it depends on.  The fields that every file may have are modelled; all others are
kept as data, in the order in which they came.

## Main definitions

* `Entry` — the package.
* `Entry.allDependencies` — what it depends on, optional or not.
* `Field` — the modelled fields and their names.
-/

namespace LockPrune

/-- Names of packages with the ranges that are asked for, sorted by the names. -/
abbrev Ranges := Table String

/-- One package, as it was resolved. -/
structure Entry where
  version : String := ""
  resolved : String := ""
  integrity : String := ""
  resolution : String := ""
  dependencies : Ranges := .empty
  optionalDependencies : Ranges := .empty
  peerDependencies : Ranges := .empty
  /-- The fields that are not modelled. -/
  extra : Catalog Yaml.Value := .empty
  checksum : String := ""
  conditions : String := ""
  languageName : String := ""
  linkType : String := ""

namespace Entry

instance : Inhabited Entry := ⟨{}⟩

/-- What the package depends on, optional or not.  Where both ask for a package the optional
range counts. -/
def allDependencies (e : Entry) : Ranges :=
  e.dependencies.union e.optionalDependencies

/-- The fields that are not modelled are equal as data, in whatever order. -/
def sameExtra (a b : Catalog Yaml.Value) : Bool :=
  a.size = b.size &&
    a.pairs.all fun p => b.pairs.any fun q => p.1 = q.1 && p.2.same q.2

/-- Equality of entries as data. -/
def same (a b : Entry) : Bool :=
  a.version = b.version && a.resolved = b.resolved && a.integrity = b.integrity &&
    a.resolution = b.resolution && a.dependencies.pairs = b.dependencies.pairs &&
    a.optionalDependencies.pairs = b.optionalDependencies.pairs &&
    a.peerDependencies.pairs = b.peerDependencies.pairs && sameExtra a.extra b.extra &&
    a.checksum = b.checksum && a.conditions = b.conditions &&
    a.languageName = b.languageName && a.linkType = b.linkType

end Entry

/-! ## Fields -/

/-- The fields that are modelled. -/
inductive Field where
  | version
  | resolved
  | integrity
  | resolution
  | dependencies
  | optionalDependencies
  | peerDependencies
  | checksum
  | conditions
  | languageName
  | linkType
  deriving DecidableEq, Repr

namespace Field

/-- The name of a field in a file. -/
def name : Field → String
  | .version => "version"
  | .resolved => "resolved"
  | .integrity => "integrity"
  | .resolution => "resolution"
  | .dependencies => "dependencies"
  | .optionalDependencies => "optionalDependencies"
  | .peerDependencies => "peerDependencies"
  | .checksum => "checksum"
  | .conditions => "conditions"
  | .languageName => "languageName"
  | .linkType => "linkType"

/-- The fields, in the order in which they are written. -/
def all : List Field :=
  [.version, .resolved, .integrity, .resolution, .dependencies, .optionalDependencies,
    .peerDependencies, .checksum, .conditions, .languageName, .linkType]

/-- The field with a given name. -/
def ofName? (name : String) : Option Field :=
  all.find? fun f => f.name = name

/-- Every field is listed. -/
theorem mem_all (f : Field) : f ∈ all := by
  cases f <;> simp [all]

end Field

end LockPrune
