import LockPrune.Proofs.Descriptor.Grammar
import LockPrune.Proofs.Lockfile.Keys

/-!
# What a dependency resolves to

A dependency resolves to the first of its candidates that the lockfile has.  The candidates of the
standard policy are put together from texts, and matched as texts; but a name ends in front of the
mark that follows it, whatever the range is, so that the key which is found is one of the package
that was asked for, and of no other.

## Main statements

* `KeyPolicy.exists_of_mem_standard` — a candidate is a key of the package that is asked for.
* `KeyPolicy.eq_of_mem_standard` — packages with different names have no candidate in common.
* `Lockfile.firstOf_eq_some_iff` — the key that is found among some candidates.
* `Lockfile.resolve_standard` — what a dependency resolves to under the standard policy.
-/

namespace LockPrune

open Descriptor

/-! ## Candidates -/

namespace KeyPolicy

variable {name name' range range' key : String}

/-- A candidate has the range behind the name, or the range behind a protocol. -/
theorem mem_standard_iff : key ∈ standard name range ↔ ∃ spelling,
    key = name ++ "@" ++ spelling ∧
      (spelling = range ∨ ∃ protocol ∈ protocols, spelling = protocol ++ ":" ++ range) := by
  rw [standard, List.mem_cons, List.mem_map]
  constructor
  · rintro (rfl | ⟨protocol, hprotocol, rfl⟩)
    · exact ⟨range, rfl, .inl rfl⟩
    · exact ⟨_, by simp only [String.append_assoc], .inr ⟨protocol, hprotocol, rfl⟩⟩
  · rintro ⟨spelling, rfl, rfl | ⟨protocol, hprotocol, rfl⟩⟩
    · exact .inl rfl
    · exact .inr ⟨protocol, hprotocol, by simp only [String.append_assoc]⟩

/-- A range behind a protocol is a range. -/
theorem isRange_protocol {protocol : String} (hprotocol : protocol ∈ protocols)
    (hrange : IsRange range.toList) : IsRange (protocol ++ ":" ++ range).toList := by
  have hplain : ∀ protocol ∈ protocols, (protocol ++ ":").toList.all (!isControl ·) = true := by
    decide
  rw [String.toList_append]
  refine ⟨List.append_ne_nil_of_right_ne_nil _ hrange.1, fun c hc => ?_⟩
  rcases List.mem_append.1 hc with hc | hc
  · exact List.all_eq_true.1 (hplain protocol hprotocol) c hc
  · exact hrange.2 c hc

/-- A candidate is a key of the package that is asked for, with the range that is asked for or with
that range behind a protocol. -/
theorem exists_of_mem_standard (hname : IsName name.toList) (hrange : IsRange range.toList)
    (h : key ∈ standard name range) :
    ∃ d, ofKey? key = some d ∧ d.ident.fullName = name ∧
      (d.range = range ∨ ∃ protocol ∈ protocols, d.range = protocol ++ ":" ++ range) := by
  obtain ⟨spelling, rfl, hspelling⟩ := mem_standard_iff.1 h
  obtain ⟨ident, hident⟩ := hname
  have hrange' : IsRange spelling.toList := by
    rcases hspelling with rfl | ⟨protocol, hprotocol, rfl⟩
    · exact hrange
    · exact isRange_protocol hprotocol hrange
  have hkey : name ++ "@" ++ spelling = .ofList (name.toList ++ '@' :: spelling.toList) :=
    String.toList_inj.1 (by simp)
  refine ⟨⟨ident, spelling⟩, ?_, String.toList_inj.1 hident.toList_fullName, hspelling⟩
  rw [hkey, ofKey?_ofList hident hrange', String.ofList_toList]

/-- Packages with different names have no candidate in common, whatever the ranges are. -/
theorem eq_of_mem_standard (hname : IsName name.toList) (hname' : IsName name'.toList)
    (h : key ∈ standard name range) (h' : key ∈ standard name' range') : name = name' := by
  obtain ⟨spelling, rfl, -⟩ := mem_standard_iff.1 h
  obtain ⟨spelling', heq, -⟩ := mem_standard_iff.1 h'
  obtain ⟨ident, hident⟩ := hname
  obtain ⟨ident', hident'⟩ := hname'
  have hlist : name.toList ++ '@' :: spelling.toList = name'.toList ++ '@' :: spelling'.toList := by
    simpa using congrArg String.toList heq
  exact String.toList_inj.1 (hident.eq_of_append hident' hlist).1

end KeyPolicy

/-! ## What is found -/

namespace Lockfile

variable {l : Lockfile} {name range : String} {candidates : List String} {found : Resolved}

/-- What is found among some candidates is the first that the lockfile has, with its version. -/
theorem firstOf_eq_some_iff : l.firstOf candidates = some found ↔
    ∃ before after, candidates = before ++ found.key :: after ∧ (∀ key ∈ before, key ∉ l.keys) ∧
      (l.entry? found.key).map Entry.version = some found.version := by
  have hmissing : ∀ key, (l.entry? key).map (fun e => Resolved.mk key e.version) = none ↔
      key ∉ l.keys := by
    intro key
    rw [Option.map_eq_none_iff, ← entry?_isSome_iff, Option.not_isSome_iff_eq_none]
  have hfound : ∀ key, (l.entry? key).map (fun e => Resolved.mk key e.version) = some found ↔
      key = found.key ∧ (l.entry? key).map Entry.version = some found.version := by
    intro key
    obtain ⟨key', version⟩ := found
    cases l.entry? key <;> simp
  rw [firstOf, List.findSome?_eq_some_iff]
  simp only [hmissing, hfound]
  constructor
  · rintro ⟨before, key, after, rfl, ⟨rfl, hversion⟩, hbefore⟩
    exact ⟨before, after, rfl, hbefore, hversion⟩
  · rintro ⟨before, after, rfl, hbefore, hversion⟩
    exact ⟨before, found.key, after, rfl, ⟨rfl, hversion⟩, hbefore⟩

/-- **A dependency resolves to its own package.**  Under the standard policy what is found for a
name and a range is a key of the lockfile.  It is a descriptor with that name, and with that range
or with that range behind a protocol, and no candidate in front of it is in the lockfile.  So two
dependencies on packages with different names never resolve to the same key. -/
theorem resolve_standard (hname : IsName name.toList) (hrange : IsRange range.toList)
    (h : l.resolve .standard name range = some found) :
    found.key ∈ l.keys ∧
      (∃ d, ofKey? found.key = some d ∧ d.ident.fullName = name ∧
        (d.range = range ∨
          ∃ protocol ∈ ["npm", "file", "workspace", "yarn"], d.range = protocol ++ ":" ++ range)) ∧
      (∃ before after, KeyPolicy.standard name range = before ++ found.key :: after ∧
        ∀ key ∈ before, key ∉ l.keys) ∧
      ∀ name' range' found', IsName name'.toList → name' ≠ name →
        l.resolve .standard name' range' = some found' → found'.key ≠ found.key := by
  have hmem : ∀ {name range found}, l.resolve .standard name range = some found →
      found.key ∈ KeyPolicy.standard name range := by
    intro name range found h
    obtain ⟨before, after, heq, -⟩ := firstOf_eq_some_iff.1 h
    rw [heq]
    exact List.mem_append_right before List.mem_cons_self
  refine ⟨mem_keys_of_resolve h, KeyPolicy.exists_of_mem_standard hname hrange (hmem h), ?_, ?_⟩
  · obtain ⟨before, after, heq, hbefore, -⟩ := firstOf_eq_some_iff.1 h
    exact ⟨before, after, heq, hbefore⟩
  · intro name' range' found' hname' hne h' hkey
    exact hne (KeyPolicy.eq_of_mem_standard hname' hname (hkey ▸ hmem h') (hmem h))

/-- A lockfile with a package, and with another one that has the key of the first in its range. -/
def patched : Lockfile :=
  ofBlocks .current
    [⟨"@a/b@npm:c@npm:1", { version := "2" }⟩, ⟨"c@npm:1", { version := "1" }⟩]

/-- A range that has the key of another package in it is not taken for that package. -/
theorem resolve_standard_patched :
    patched.resolve .standard "@a/b" "c@npm:1" = some ⟨"@a/b@npm:c@npm:1", "2"⟩ ∧
      patched.resolve .standard "c" "1" = some ⟨"c@npm:1", "1"⟩ ∧
      (∃ d, ofKey? "@a/b@npm:c@npm:1" = some d ∧ d.ident.fullName = "@a/b") ∧
      (∃ before after, KeyPolicy.standard "@a/b" "c@npm:1" =
        before ++ "@a/b@npm:c@npm:1" :: after ∧ ∀ key ∈ before, key ∉ patched.keys) ∧
      "c@npm:1" ≠ "@a/b@npm:c@npm:1" := by
  have hname : IsName "@a/b".toList :=
    ⟨_, .withScope (by decide : IsWord ['a']) (by decide : IsWord ['b'])⟩
  have hname' : IsName "c".toList := ⟨_, .bare (by decide)⟩
  have hfound : patched.resolve .standard "@a/b" "c@npm:1" = some ⟨"@a/b@npm:c@npm:1", "2"⟩ := by
    decide
  have hfound' : patched.resolve .standard "c" "1" = some ⟨"c@npm:1", "1"⟩ := by decide
  obtain ⟨-, ⟨d, hd, hfull, -⟩, hbefore, hother⟩ := resolve_standard hname (by decide) hfound
  exact ⟨hfound, hfound', ⟨d, hd, hfull⟩, hbefore,
    hother "c" "1" ⟨"c@npm:1", "1"⟩ hname' (by decide) hfound'⟩

end Lockfile

end LockPrune
