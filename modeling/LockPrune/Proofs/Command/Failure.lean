import LockPrune.Command.Run
import LockPrune.Proofs.Command.Folder
import LockPrune.Proofs.Lockfile.Pruning
import LockPrune.Proofs.Lockfile.WrittenTrees

/-!
# What a failing command leaves behind

Nothing is written before a lockfile was read and cut down, so up to then a failure leaves all
files as they were.  A file for the answer is made, or emptied, before the lockfile is put into
its form.  If it has none that file is removed, and what it held before is lost.

## Main definitions

* `Loses` — the case in which a file is lost.

## Main statements

* `Lockfile.encode_eq_error` — which lockfiles have no form.
* `save_cases` — what becomes of the files when a lockfile is saved.
* `run_failed` — what a failing command leaves behind.
-/

namespace LockPrune

/-! ## Lockfiles without a form -/

namespace Lockfile

variable {l : Lockfile} {key : String}

/-- The only reason for which a lockfile is not encoded is that it has no form. -/
theorem encode_cases (l : Lockfile) :
    (∃ text, l.encode = .ok text) ∨ l.encode = .error .unwritable := by
  rw [encode, writes]
  cases l.yaml? with
  | none => exact .inr rfl
  | some yaml => exact .inl ⟨_, rfl⟩

/-- A lockfile has no form when one of its entries has none. -/
theorem encode_eq_error {e : Entry} (h : l.entry? key = some e) (he : e.trees? = none) :
    l.encode = .error .unwritable := by
  have htrees : l.trees? = none := by
    cases htrees : l.trees? with
    | none => rfl
    | some trees =>
      obtain ⟨tree, -, fields, hfields, -⟩ :=
        exists_mem_left (forall₂_of_trees? htrees).flip (entry?_eq_some_iff.1 h)
      rw [he] at hfields
      cases hfields
  rw [encode, writes, yaml?, htrees]
  rfl

end Lockfile

namespace Command

variable {f f' : Folder} {l : Lockfile} {path : String}

/-! ## Saving a lockfile -/

/-- A lockfile that has a form is saved, wherever a file can be made. -/
theorem run_save_of_ok {text : String} (h : f.write path [] = .ok f')
    (htext : l.encode = .ok text) :
    ∃ f'', f.write path (Sink.octets text.toList) = .ok f'' ∧
      (save path l : StateM Folder Report).run f = (.done "", f'') := by
  obtain ⟨f'', hdirect, hafter⟩ := Folder.exists_write h (Sink.octets text.toList)
  refine ⟨f'', hdirect, ?_⟩
  simp only [save, StateT.run_bind, run_writeFile_of_ok h, htext, run_writeFile_of_ok hafter,
    pure_bind]
  rfl

/-- Where no file can be made nothing is done. -/
theorem run_save_of_fault {fault : FileFault} (h : f.write path [] = .error fault) :
    (save path l : StateM Folder Report).run f =
      (.failed (fault.complaint.behind ("failed to create " ++ path)), f) := by
  simp only [save, StateT.run_bind, run_writeFile_of_error h, pure_bind]
  rfl

/-- Of a lockfile without a form nothing is saved, and the file that was made for it is removed
again. -/
theorem run_save_of_error {f'' : Folder} {e : EncodeError} (h : f.write path [] = .ok f')
    (he : l.encode = .error e) (hremove : f'.remove path = .ok f'') :
    (save path l : StateM Folder Report).run f =
      (.failed (e.complaint.behind ("failed to write " ++ path)), f'') := by
  simp only [save, StateT.run_bind, run_writeFile_of_ok h, he, run_removeFile_of_ok hremove,
    pure_bind]
  rfl

/-- Where there is a file already, it is lost with the lockfile. -/
theorem run_save_of_file {name : String} {e : EncodeError} (he : l.encode = .error e)
    (hleads : f.LeadsTo path (.file name)) :
    (save path l : StateM Folder Report).run f =
      (.failed (e.complaint.behind ("failed to write " ++ path)), ⟨f.files.erase name⟩) := by
  refine run_save_of_error (Folder.write_of_leadsTo (.inl hleads)) he ?_
  rw [Folder.remove_of_leadsTo (Folder.leadsTo_put (.inl hleads)), Catalog.erase_put]

/-- What becomes of the files when a lockfile is saved: all goes well, or it fails and they are
left as they were, or the lockfile has no form and the file in its place is removed. -/
theorem save_cases (path : String) (l : Lockfile) (f : Folder) :
    ((save path l : StateM Folder Report).run f).1.code = 0 ∨
      ((save path l : StateM Folder Report).run f).2 = f ∨
      l.encode = .error .unwritable ∧ ∃ name, f.LeadsTo path (.file name) ∧
        ((save path l : StateM Folder Report).run f).2 = ⟨f.files.erase name⟩ := by
  cases hwrite : f.write path [] with
  | error fault =>
    rw [run_save_of_fault hwrite]
    exact .inr (.inl rfl)
  | ok f' =>
    rcases l.encode_cases with ⟨text, htext⟩ | hfail
    · obtain ⟨f'', -, hrun⟩ := run_save_of_ok hwrite htext
      rw [hrun]
      exact .inl rfl
    · rcases Folder.remove_write hwrite with hremove | ⟨name, hleads, hremove⟩
      · rw [run_save_of_error hwrite hfail hremove]
        exact .inr (.inl rfl)
      · rw [run_save_of_error hwrite hfail hremove]
        exact .inr (.inr ⟨hfail, name, hleads, rfl⟩)

/-- Saving a lockfile without a form fails. -/
theorem code_save_of_error {e : EncodeError} (he : l.encode = .error e) :
    ((save path l : StateM Folder Report).run f).1.code = 1 := by
  cases hwrite : f.write path [] with
  | error fault =>
    rw [run_save_of_fault hwrite]
    rfl
  | ok f' =>
    rcases Folder.remove_write hwrite with hremove | ⟨name, -, hremove⟩
    · rw [run_save_of_error hwrite he hremove]
      rfl
    · rw [run_save_of_error hwrite he hremove]
      rfl

/-! ## Tasks -/

/-- Pruning a file: it is read and cut down, and then printed or saved. -/
theorem run_prune (path : String) (workspaces : List String) (output? : Option String)
    (withRoot : Bool) (f : Folder) :
    ((Task.prune path workspaces output? withRoot).run : StateM Folder Report).run f =
      match (lockfileOf path (f.read path)).bind (pruned workspaces withRoot), output? with
      | .error c, _ => (.failed c, f)
      | .ok l, none => (printed l, f)
      | .ok l, some output => (save output l : StateM Folder Report).run f := by
  have hload : (load path : StateM Folder _).run f = pure (lockfileOf path (f.read path), f) := rfl
  simp only [Task.run, StateT.run_bind, hload, pure_bind]
  cases (lockfileOf path (f.read path)).bind (pruned workspaces withRoot) with
  | error c => rfl
  | ok l => cases output? <;> rfl

/-- Only a prune changes files. -/
theorem run_of_not_prune {task : Task} (h : ∀ path workspaces output? withRoot,
    task ≠ .prune path workspaces output? withRoot) (f : Folder) :
    ((task.run : StateM Folder Report).run f).2 = f := by
  cases task with
  | dump source? asJson =>
    cases source? with
    | none => rfl
    | some source =>
      cases source with
      | path path =>
        have hload : (loadSource (some (.path path)) : StateM Folder _).run f =
            pure (lockfileOf path (f.read path), f) := rfl
        simp only [Task.run, StateT.run_bind, hload, pure_bind]
        cases lockfileOf path (f.read path) <;> rfl
      | fixture name =>
        simp only [Task.run, loadSource, pure_bind]
        split <;> rfl
  | resolve path name range =>
    have hload : (load path : StateM Folder _).run f = pure (lockfileOf path (f.read path), f) :=
      rfl
    simp only [Task.run, StateT.run_bind, hload, pure_bind]
    cases lockfileOf path (f.read path) <;> rfl
  | prune path workspaces output? withRoot => exact absurd rfl (h path workspaces output? withRoot)

/-- A prune to a file ends with saving what is left of the lockfile. -/
theorem run_of_words {env : Environment} {words : List String} {workspaces : List String}
    {output : String} {withRoot : Bool}
    (hwords : Task.ofWords env.filter?.isSome words =
      .ok (.prune path workspaces (some output) withRoot))
    (hl : (lockfileOf path (f.read path)).bind (pruned workspaces withRoot) = .ok l) :
    (run env words : StateM Folder Report).run f =
      (save output l : StateM Folder Report).run f := by
  simp only [run, hwords, run_prune, hl]

/-- The case in which a file is lost: a pruned lockfile without a form is to be saved where there is
a file. -/
def Loses (env : Environment) (words : List String) (f : Folder) (name : String) : Prop :=
  ∃ path workspaces output withRoot l,
    Task.ofWords env.filter?.isSome words =
      .ok (.prune path workspaces (some output) withRoot) ∧
    (lockfileOf path (f.read path)).bind (pruned workspaces withRoot) = .ok l ∧
    l.encode = .error .unwritable ∧ f.LeadsTo output (.file name)

/-- In that case the command fails, and the folder is without the file that was there. -/
theorem run_of_loses {env : Environment} {words : List String} {name : String}
    (h : Loses env words f name) :
    name ∈ f.files.keys ∧ ((run env words : StateM Folder Report).run f).1.code = 1 ∧
      ((run env words : StateM Folder Report).run f).2 = ⟨f.files.erase name⟩ ∧
      name ∉ (f.files.erase name).keys := by
  obtain ⟨path, workspaces, output, withRoot, l, hwords, hl, hfail, hleads⟩ := h
  rw [run_of_words hwords hl, run_save_of_file hfail hleads]
  exact ⟨Folder.mem_of_leadsTo_file hleads, rfl, rfl, fun hmem =>
    (Catalog.mem_keys_erase.1 hmem).1 rfl⟩

/-- **What a failing command leaves behind**: all files as they were, or, when a pruned lockfile
that is to be saved has no form, all but the file in its place.  In that case it does fail, and the
file that was there is removed. -/
theorem run_failed (env : Environment) (words : List String) (f : Folder) :
    (((run env words : StateM Folder Report).run f).1.code ≠ 0 →
      ((run env words : StateM Folder Report).run f).2 = f ∨
        ∃ name, Loses env words f name ∧
          ((run env words : StateM Folder Report).run f).2 = ⟨f.files.erase name⟩) ∧
    ∀ name, Loses env words f name →
      name ∈ f.files.keys ∧ ((run env words : StateM Folder Report).run f).1.code = 1 ∧
        ((run env words : StateM Folder Report).run f).2 = ⟨f.files.erase name⟩ ∧
        name ∉ (f.files.erase name).keys := by
  refine ⟨fun h => ?_, fun name => run_of_loses⟩
  cases htask : Task.ofWords env.filter?.isSome words with
  | error stop =>
    rw [run, htask]
    exact .inl rfl
  | ok task =>
    by_cases hprune : ∃ path workspaces output? withRoot,
        task = .prune path workspaces output? withRoot
    · obtain ⟨path, workspaces, output?, withRoot, rfl⟩ := hprune
      cases hl : (lockfileOf path (f.read path)).bind (pruned workspaces withRoot) with
      | error c =>
        left
        simp only [run, htask, run_prune, hl]
      | ok l =>
        cases output? with
        | none =>
          left
          simp only [run, htask, run_prune, hl]
        | some output =>
          rw [run_of_words htask hl] at h ⊢
          rcases save_cases output l f with hcode | hsame | ⟨hfail, name, hleads, herase⟩
          · exact absurd hcode h
          · exact .inl hsame
          · exact .inr ⟨name, ⟨path, workspaces, output, withRoot, l, htask, hl, hfail, hleads⟩,
              herase⟩
    · simp only [run, htask]
      refine .inl (run_of_not_prune (fun path workspaces output? withRoot heq => ?_) f)
      exact hprune ⟨path, workspaces, output?, withRoot, heq⟩

/-! ## A lockfile that is lost -/

/-- A lockfile in a folder of its own. -/
def folderOf (text : String) : Folder :=
  ⟨.ofList [("yarn.lock", Sink.octets text.toList)]⟩

theorem read_folderOf (text : String) :
    (folderOf text).read "yarn.lock" = .ok (Sink.octets text.toList) := by
  have hpath : Path.ofText "yarn.lock" = ⟨false, [], some "yarn.lock", false⟩ := by decide
  have hname : Folder.nameOf ["yarn.lock"] = "yarn.lock" := by decide
  have hkeys : (folderOf text).files.keys = ["yarn.lock"] := rfl
  have hreach : (folderOf text).reach "yarn.lock" =
      .ok (⟨false, [], some "yarn.lock", false⟩, .inside []) := by
    rw [Folder.reach, if_neg (by decide), if_neg (by decide), hpath]
    rfl
  have hfind : (folderOf text).find (.inside []) "yarn.lock" = .ok (.file "yarn.lock") := by
    have hdir : (folderOf text).hasDirectory ["yarn.lock"] = false := by
      rw [Folder.hasDirectory, hkeys]
      decide
    have hget : ((folderOf text).files.get? "yarn.lock").isSome = true := by
      rw [Catalog.isSome_get?_iff, hkeys]
      exact List.mem_singleton_self _
    rw [Folder.find, if_neg (by decide)]
    simp only [List.nil_append, hname, hdir, hget, Bool.false_eq_true, if_false, if_true]
  exact Folder.read_of_leadsTo (Folder.leadsTo_of_find hreach hfind) rfl

/-- A lockfile of one package, which has a field without a form: a mapping whose only key is a
mapping of one entry. -/
def formlessText : String :=
  "\"a@workspace:.\":\n  version: 0\n  b: \x7b\x7ba: b\x7d: c\x7d\n"

/-- The lockfile in a folder of its own. -/
def formlessFolder : Folder :=
  ⟨.ofList [("yarn.lock", Sink.octets formlessText.toList)]⟩

/-- Pruning the lockfile in place, or to another file. -/
def formlessWords (output : String) : List String :=
  ["prune", "yarn.lock", "-w", "a", "-o", output]

theorem exists_formless : ∃ l e, Lockfile.decode (Sink.octets formlessText.toList) = .ok l ∧
    l.rootKey? = some "a@workspace:." ∧ l.workspaceKey? "a" = some "a@workspace:." ∧
    l.entry? "a@workspace:." = some e ∧ e.trees? = none := by
  have h : (Lockfile.decode (Sink.octets formlessText.toList)).toOption.any (fun l =>
      decide (l.rootKey? = some "a@workspace:.") &&
        decide (l.workspaceKey? "a" = some "a@workspace:.") &&
        (l.entry? "a@workspace:.").any fun e => e.trees?.isNone) = true := by decide +kernel
  obtain ⟨l, hl, hcheck⟩ := (Option.any_eq_true _ _).1 h
  simp only [Bool.and_eq_true, decide_eq_true_eq, Option.any_eq_true,
    Option.isNone_iff_eq_none] at hcheck
  obtain ⟨⟨hroot, hworkspace⟩, e, hentry, hnone⟩ := hcheck
  exact ⟨l, e, toOption_eq_some_iff.1 hl, hroot, hworkspace, hentry, hnone⟩

/-- What a prune leaves of the lockfile has no form. -/
theorem exists_pruned_formless
    (hread : f.read "yarn.lock" = .ok (Sink.octets formlessText.toList)) :
    ∃ l, (lockfileOf "yarn.lock" (f.read "yarn.lock")).bind (pruned ["a"] true) = .ok l ∧
      l.encode = .error .unwritable := by
  obtain ⟨l, e, hdecode, hroot, hworkspace, hentry, he⟩ := exists_formless
  obtain ⟨keys, hkeys⟩ : ∃ keys, keys = ["a@workspace:.", "a@workspace:."] := ⟨_, rfl⟩
  have hpruned : (lockfileOf "yarn.lock" (f.read "yarn.lock")).bind (pruned ["a"] true) =
      .ok (l.prune .standard keys) := by
    rw [hread, lockfileOf, hdecode, hkeys]
    simp [Except.mapError, Except.bind, Except.map, pruned, roots, hroot, hworkspace, bind, pure,
      Except.pure]
  have hkept : "a@workspace:." ∈ (l.prune .standard keys).keys := by
    refine Lockfile.mem_keys_prune_of_mem_closure (Lockfile.mem_closure_iff.2 (.root ?_ ?_))
    · simp [hkeys]
    · exact Lockfile.entry?_isSome_iff.1 (by simp [hentry])
  exact ⟨l.prune .standard keys, hpruned,
    Lockfile.encode_eq_error ((Lockfile.entry?_prune hkept).trans hentry) he⟩

/-- The lockfile beside another file. -/
def formlessPair : Folder :=
  ⟨.ofList [("yarn.lock", Sink.octets formlessText.toList), ("old", [10])]⟩

/-- Saving to a file that is new fails, and leaves nothing behind.  Saving to the other file fails,
and leaves the lockfile alone. -/
theorem run_failed_formless :
    (((run ⟨[]⟩ (formlessWords "new") : StateM Folder Report).run formlessPair).1.code ≠ 0 ∧
      ((run ⟨[]⟩ (formlessWords "new") : StateM Folder Report).run formlessPair).2 =
        formlessPair) ∧
    Loses ⟨[]⟩ (formlessWords "old") formlessPair "old" ∧
      ((run ⟨[]⟩ (formlessWords "old") : StateM Folder Report).run formlessPair).1.code = 1 ∧
      ((run ⟨[]⟩ (formlessWords "old") : StateM Folder Report).run formlessPair).2 =
        formlessFolder := by
  have hlock : formlessPair.LeadsTo "yarn.lock" (.file "yarn.lock") :=
    Folder.leadsTo_of_find (by decide +kernel) (by decide +kernel)
  have hnew : formlessPair.LeadsTo "new" (.vacant "new") :=
    Folder.leadsTo_of_find (by decide +kernel) (by decide +kernel)
  have hold : formlessPair.LeadsTo "old" (.file "old") :=
    Folder.leadsTo_of_find (by decide +kernel) (by decide +kernel)
  have hnewWords : Task.ofWords (Environment.filter? ⟨[]⟩).isSome (formlessWords "new") =
      .ok (.prune "yarn.lock" ["a"] (some "new") true) := by decide +kernel
  have holdWords : Task.ofWords (Environment.filter? ⟨[]⟩).isSome (formlessWords "old") =
      .ok (.prune "yarn.lock" ["a"] (some "old") true) := by decide +kernel
  obtain ⟨l, hl, hfail⟩ := exists_pruned_formless (Folder.read_of_leadsTo hlock (by decide +kernel))
  constructor
  · have hcode : ((run ⟨[]⟩ (formlessWords "new") : StateM Folder Report).run
        formlessPair).1.code ≠ 0 := by
      rw [run_of_words hnewWords hl, code_save_of_error hfail]
      exact one_ne_zero
    refine ⟨hcode, ((run_failed ⟨[]⟩ (formlessWords "new") formlessPair).1 hcode).resolve_right ?_⟩
    rintro ⟨name, ⟨path, workspaces, output, withRoot, l, hwords, -, -, hleads⟩, -⟩
    cases hnewWords.symm.trans hwords
    cases hnew.unique hleads
  · have hloses : Loses ⟨[]⟩ (formlessWords "old") formlessPair "old" :=
      ⟨_, _, _, _, l, holdWords, hl, hfail, hold⟩
    obtain ⟨-, hcode, hfiles, -⟩ :=
      (run_failed ⟨[]⟩ (formlessWords "old") formlessPair).2 "old" hloses
    exact ⟨hloses, hcode, hfiles⟩

/-- Pruning in place fails, and the lockfile is lost. -/
theorem run_formless_in_place :
    ((run ⟨[]⟩ (formlessWords "yarn.lock") : StateM Folder Report).run
        formlessFolder).1.code = 1 ∧
      formlessFolder.files.get? "yarn.lock" = some (Sink.octets formlessText.toList) ∧
      ((run ⟨[]⟩ (formlessWords "yarn.lock") : StateM Folder Report).run
        formlessFolder).2.files.get? "yarn.lock" = none := by
  have hleads : formlessFolder.LeadsTo "yarn.lock" (.file "yarn.lock") :=
    Folder.leadsTo_of_find (by decide +kernel) (by decide +kernel)
  obtain ⟨l, hl, hfail⟩ := exists_pruned_formless (read_folderOf formlessText)
  have hloses : Loses ⟨[]⟩ (formlessWords "yarn.lock") formlessFolder "yarn.lock" :=
    ⟨_, _, _, _, l, by decide +kernel, hl, hfail, hleads⟩
  obtain ⟨-, hcode, hfiles, -⟩ := run_of_loses hloses
  rw [hcode, hfiles]
  exact ⟨rfl, by decide +kernel, by decide +kernel⟩

end Command

end LockPrune
