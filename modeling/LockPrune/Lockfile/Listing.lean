import LockPrune.Listing
import LockPrune.Lockfile.Basic
import LockPrune.Text.Quoted

/-!
# Listing a lockfile

All that a lockfile says, for reading: the metadata, the number of keys, and every key with
its entry.  Every field of an entry is shown, the empty ones too.

## Main definitions

* `Yaml.Value.listing`, `Entry.listing`, `Metadata.listing` — what is shown.
* `Lockfile.listing` — the text for a lockfile.
-/

namespace LockPrune

namespace Yaml.Value

/-- The key of a mapping, if it is shown without the kind of value that it is. -/
def bareKey? : Value → Option Listing
  | .bool b => some (.text (toString b))
  | .number n => some (.text n.text)
  | .string s => some (.text (Text.quoted s))
  | _ => none

mutual

/-- How a value is shown: by its kind, and what it holds. -/
def listing : Value → Listing
  | .null => .text "Null"
  | .bool b => .text ("Bool(" ++ toString b ++ ")")
  | .number n => .text ("Number(" ++ n.text ++ ")")
  | .string s => .text ("String(" ++ Text.quoted s ++ ")")
  | .sequence items => .series "Sequence " (itemListings items)
  | .mapping entries => .record "Mapping " (entryListings entries)
  | .tagged tag v =>
    .record "TaggedValue "
      [.labelled (.text "tag") (.text ("!" ++ tag)), .labelled (.text "value") v.listing]
termination_by structural v => v

/-- How the items of a sequence are shown. -/
def itemListings : List Value → List Listing
  | [] => []
  | v :: vs => v.listing :: itemListings vs
termination_by structural vs => vs

/-- How the entries of a mapping are shown. -/
def entryListings : List (Value × Value) → List Listing
  | [] => []
  | (k, v) :: rest => .labelled (k.bareKey?.getD k.listing) v.listing :: entryListings rest
termination_by structural es => es

end

end Yaml.Value

/-- How a part under a name is shown. -/
def namedPart (name : String) (part : Listing) : Listing :=
  .labelled (.text name) part

/-- How a text under a name is shown. -/
def namedText (name value : String) : Listing :=
  namedPart name (.text (Text.quoted value))

/-- How names with ranges are shown. -/
def Entry.rangesListing (r : Ranges) : Listing :=
  .record "" (r.pairs.map fun p => namedText (Text.quoted p.1) p.2)

/-- How an entry is shown. -/
def Entry.listing (e : Entry) : Listing :=
  .record "Entry " [
    namedText "version" e.version,
    namedText "resolved" e.resolved,
    namedText "integrity" e.integrity,
    namedText "resolution" e.resolution,
    namedPart "dependencies" (rangesListing e.dependencies),
    namedPart "optional_dependencies" (rangesListing e.optionalDependencies),
    namedPart "peer_dependencies" (rangesListing e.peerDependencies),
    namedPart "extra"
      (.record "" (e.extra.pairs.map fun p => namedPart (Text.quoted p.1) p.2.listing)),
    namedText "checksum" e.checksum,
    namedText "conditions" e.conditions,
    namedText "language_name" e.languageName,
    namedText "link_type" e.linkType]

/-- How metadata are shown. -/
def Metadata.listing (m : Metadata) : Listing :=
  .record "Metadata " [namedText "version" m.version, namedText "cache_key" m.cacheKey]

/-- How a lockfile is shown. -/
def Lockfile.listing (l : Lockfile) : String :=
  "metadata: " ++ l.metadata.listing.render "" ++ "\nentries: " ++ toString l.size ++ "\n" ++
    String.join (l.entries.map fun p => p.1 ++ ": " ++ p.2.listing.render "" ++ "\n")

end LockPrune
