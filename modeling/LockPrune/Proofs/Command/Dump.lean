import LockPrune.Proofs.Command.Failure
import LockPrune.Proofs.Lockfile.JsonDocument

/-!
# Dumping a lockfile as JSON

A lockfile that can be read is printed as one JSON document, unless a key in one of its further
fields names no member of an object.  Then nothing is printed, and the command ends in the middle
of its work.  The files stay as they are in either case.

## Main definitions

* `IsDumpOf` — the texts that show a lockfile as JSON.

## Main statements

* `run_dump` — what dumping a file comes to.
* `run_dump_json` — what is printed of a lockfile as JSON, and when nothing is.
-/

namespace LockPrune.Command

open Yaml (Value)

variable {f : Folder} {path : String}

/-- Dumping a file: it is read and shown, and nothing is written. -/
theorem run_dump (path : String) (asJson : Bool) (f : Folder) :
    ((Task.dump (some (.path path)) asJson).run : StateM Folder Report).run f =
      match lockfileOf path (f.read path) with
      | .ok l => (dumped asJson l, f)
      | .error c => (.failed c, f) := by
  have hload : (loadSource (some (.path path)) : StateM Folder _).run f =
      pure (lockfileOf path (f.read path), f) := rfl
  simp only [Task.run, StateT.run_bind, hload, pure_bind]
  cases lockfileOf path (f.read path) <;> rfl

/-- A text that is one JSON document: the metadata of a lockfile, and the entry of every key, sorted
by the keys. -/
def IsDumpOf (l : Lockfile) (t : String) : Prop :=
  ∃ members : List (String × Json.Value),
    Json.IsDocument (.object [("entries", .object members), ("metadata", l.metadata.document)]) t ∧
    members.Pairwise (fun a b => a.1 < b.1) ∧ (members.map Prod.fst).Perm l.keys ∧
    ∀ m ∈ members, ∃ e, l.entry? m.1 = some e ∧ e.document = .ok m.2

/-- A lockfile that a file can hold is shown unless a key in it names no member. -/
theorem dumped_json {l : Lockfile} (hl : l.IsHeld) :
    match l.memberKeys.findSome? Value.nameFault? with
    | some fault => dumped true l = ⟨101, "", fault.message ++ "\n"⟩
    | none => ∃ output, dumped true l = ⟨0, output, ""⟩ ∧ IsDumpOf l output := by
  rw [← l.of?_document]
  cases hdoc : l.document with
  | error fault =>
    change dumped true l = _
    rw [dumped, if_pos rfl, hdoc]
    rfl
  | ok d =>
    obtain ⟨members, heq, hmembers⟩ := Lockfile.exists_members_of_document hdoc
    have hdocument := Json.isDocument_text (Lockfile.isSound_of_document hl hdoc)
    refine ⟨d.text ++ "\n", ?_, members, heq ▸ hdocument, hmembers⟩
    rw [dumped, if_pos rfl, hdoc]
    rfl

/-- Words that ask for a file as JSON have it read and shown. -/
theorem run_of_dump_words {env : Environment} {words : List String} {octets : List UInt8}
    {l : Lockfile}
    (hwords : Task.ofWords env.filter?.isSome words = .ok (.dump (some (.path path)) true))
    (hread : f.read path = .ok octets) (hl : Lockfile.decode octets = .ok l) :
    (run env words : StateM Folder Report).run f = (dumped true l, f) := by
  have hlockfile : lockfileOf path (f.read path) = .ok l := by
    rw [hread, lockfileOf, hl]
    rfl
  simp only [run, hwords, run_dump, hlockfile]

/-- **What is printed of a lockfile as JSON**: one document, whose entries have exactly the keys of
the lockfile, if every key in its further fields is a text, a truth value or a finite number; and
nothing otherwise, when the command ends with the first fault of a key. -/
theorem run_dump_json (env : Environment) {words : List String} {octets : List UInt8}
    {l : Lockfile}
    (hwords : Task.ofWords env.filter?.isSome words = .ok (.dump (some (.path path)) true))
    (hread : f.read path = .ok octets) (hl : Lockfile.decode octets = .ok l) :
    match l.memberKeys.findSome? Value.nameFault? with
    | some fault => (run env words : StateM Folder Report).run f =
        (⟨101, "", fault.message ++ "\n"⟩, f)
    | none => ∃ output, (run env words : StateM Folder Report).run f = (⟨0, output, ""⟩, f) ∧
        IsDumpOf l output := by
  have hdumped := dumped_json (Lockfile.isHeld_of_decode hl)
  rw [run_of_dump_words hwords hread hl]
  split at hdumped
  · rw [hdumped]
  · obtain ⟨output, houtput, hdump⟩ := hdumped
    exact ⟨output, by rw [houtput], hdump⟩

/-- A lockfile of one package with a further field, a mapping with the missing value as its key. -/
def namelessText : String :=
  "a@1:\n  version: 1\n  b: \x7b~: c\x7d\n"

/-- A lockfile of one package under two keys, with a further field, a mapping with a truth value and
a number as its keys. -/
def namedText : String :=
  "a@1, b@1:\n  version: 1\n  c: \x7btrue: x, 1.5: ~\x7d\n"

/-- What is printed of it. -/
def namedDump : String :=
  "\x7b\n  \"entries\": \x7b\n" ++
  "    \"a@1\": \x7b\n      \"c\": \x7b\n        \"1.5\": null,\n        \"true\": \"x\"\n" ++
  "      \x7d,\n      \"version\": \"1\"\n    \x7d,\n" ++
  "    \"b@1\": \x7b\n      \"c\": \x7b\n        \"1.5\": null,\n        \"true\": \"x\"\n" ++
  "      \x7d,\n      \"version\": \"1\"\n    \x7d\n  \x7d,\n" ++
  "  \"metadata\": \x7b\n    \"cacheKey\": \"8\",\n    \"version\": \"5\"\n  \x7d\n\x7d\n"

/-- Nothing is printed of the one lockfile, and of the other a document. -/
theorem run_dump_json_named :
    (∃ l, Lockfile.decode (Sink.octets namelessText.toList) = .ok l ∧
      l.memberKeys.findSome? Value.nameFault? = some .noText ∧
      (run ⟨[]⟩ ["dump", "yarn.lock", "--json"] : StateM Folder Report).run
        (folderOf namelessText) =
          (⟨101, "", "key must be a string\n"⟩, folderOf namelessText)) ∧
    ∃ l, Lockfile.decode (Sink.octets namedText.toList) = .ok l ∧
      l.memberKeys.findSome? Value.nameFault? = none ∧
      (run ⟨[]⟩ ["dump", "yarn.lock", "--json"] : StateM Folder Report).run
        (folderOf namedText) = (⟨0, namedDump, ""⟩, folderOf namedText) ∧
      IsDumpOf l namedDump := by
  have hwords : Task.ofWords (Environment.filter? ⟨[]⟩).isSome ["dump", "yarn.lock", "--json"] =
      .ok (.dump (some (.path "yarn.lock")) true) := by decide +kernel
  constructor
  · have h : (Lockfile.decode (Sink.octets namelessText.toList)).toOption.any
        (fun l => decide (l.memberKeys.findSome? Value.nameFault? = some .noText)) = true := by
      decide +kernel
    obtain ⟨l, hdecode, hfault⟩ := (Option.any_eq_true _ _).1 h
    rw [toOption_eq_some_iff] at hdecode
    rw [decide_eq_true_eq] at hfault
    have hrun := run_dump_json ⟨[]⟩ hwords (read_folderOf namelessText) hdecode
    rw [hfault] at hrun
    exact ⟨l, hdecode, hfault, hrun⟩
  · have h : (Lockfile.decode (Sink.octets namedText.toList)).toOption.any
        (fun l => decide (l.memberKeys.findSome? Value.nameFault? = none) &&
          decide ((dumped true l).output = namedDump)) = true := by
      decide +kernel
    obtain ⟨l, hdecode, hcheck⟩ := (Option.any_eq_true _ _).1 h
    rw [toOption_eq_some_iff] at hdecode
    rw [Bool.and_eq_true, decide_eq_true_eq, decide_eq_true_eq] at hcheck
    obtain ⟨hnone, houtput⟩ := hcheck
    have hrun := run_dump_json ⟨[]⟩ hwords (read_folderOf namedText) hdecode
    rw [hnone] at hrun
    obtain ⟨output, hrun, hdump⟩ := hrun
    -- what is printed is what was evaluated
    have hshown := run_of_dump_words hwords (read_folderOf namedText) hdecode
    obtain rfl : output = namedDump := by
      rw [← houtput, (Prod.mk.inj (hshown.symm.trans hrun)).1]
    exact ⟨l, hdecode, hnone, hrun, hdump⟩

end LockPrune.Command
