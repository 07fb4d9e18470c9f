import LockPrune.Entry
import LockPrune.Yaml.Value.Write

/-!
# Writing an entry

The fields are written in a fixed order, the fields that are not modelled between the
dependencies and the checksum.  The version is always written, and of the others those that
are not empty.

## Main definitions

* `Entry.trees?` — the fields to be written, if all of them can be.
* `Entry.text?` — the entry as a document of its own.
-/

namespace LockPrune

namespace Entry

open Yaml

/-- A field with a text, unless it is empty. -/
def textField (f : Field) (s : String) : List (Tree × Tree) :=
  if s.isEmpty then [] else [(.ofText f.name, .ofText s)]

/-- The tree of names with ranges. -/
def rangesTree (r : Ranges) : Tree :=
  .mapping none (r.pairs.map fun p => (.ofText p.1, .ofText p.2))

/-- A field with names and ranges, unless it is empty. -/
def rangesField (f : Field) (r : Ranges) : List (Tree × Tree) :=
  if r.isEmpty then [] else [(.ofText f.name, rangesTree r)]

/-- The fields that are not modelled, if they can be written. -/
def extraTrees? (c : Catalog Value) : Option (List (Tree × Tree)) :=
  c.pairs.mapM fun p => p.2.tree?.map fun t => (Tree.ofText p.1, t)

/-- The fields of an entry, if they can be written. -/
def trees? (e : Entry) : Option (List (Tree × Tree)) :=
  (extraTrees? e.extra).map fun extra =>
    (.ofText Field.version.name, .ofText e.version) ::
      textField .resolved e.resolved ++ textField .integrity e.integrity ++
      textField .resolution e.resolution ++ rangesField .dependencies e.dependencies ++
      rangesField .optionalDependencies e.optionalDependencies ++
      rangesField .peerDependencies e.peerDependencies ++ extra ++
      textField .checksum e.checksum ++ textField .conditions e.conditions ++
      textField .languageName e.languageName ++ textField .linkType e.linkType

/-- The entry as a document of its own, if it can be written. -/
def text? (e : Entry) : Option String :=
  e.trees?.map fun trees => String.ofList (Tree.render trees)

end Entry

end LockPrune
