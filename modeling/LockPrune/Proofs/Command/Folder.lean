import LockPrune.Command.Folder
import LockPrune.Proofs.Ordered.Listing

/-!
# Where paths lead

Making a file, emptying it and removing it change what the folder holds under one name.  They
do not change where the path leads: the directories on the way to it stay directories, and the
name does not become one.

## Main definitions

* `Folder.LeadsTo` — where a path leads that may be the path of a file.

## Main statements

* `Folder.write_cases` — what a write can do.
* `Folder.leadsTo_put` — a path leads to the file that was made there.
* `Folder.exists_write`, `Folder.remove_write` — what is left of a write when another one, or a
  removal, follows it.
-/

namespace LockPrune.Command

variable {f f' : Folder} {path name : String} {octets : List UInt8}

namespace Folder

/-- A path leads to a place, and does not ask for a directory there. -/
def LeadsTo (f : Folder) (path : String) (place : Location) : Prop :=
  ∃ p d name, f.reach path = .ok (p, d) ∧ p.last? = some name ∧ p.asDirectory = false ∧
    f.find d name = .ok place

/-- A path leads to one place. -/
theorem LeadsTo.unique {place place' : Location} (h : f.LeadsTo path place)
    (h' : f.LeadsTo path place') : place = place' := by
  obtain ⟨p, d, last, hreach, hlast, -, hfind⟩ := h
  obtain ⟨p', d', last', hreach', hlast', -, hfind'⟩ := h'
  obtain ⟨rfl, rfl⟩ := Prod.mk.inj (Except.ok.inj (hreach.symm.trans hreach'))
  obtain rfl := Option.some.inj (hlast.symm.trans hlast')
  exact Except.ok.inj (hfind.symm.trans hfind')

/-- A name by itself leads to what is in the folder under it. -/
theorem leadsTo_of_find {place : Location}
    (hreach : f.reach name = .ok (⟨false, [], some name, false⟩, .inside []))
    (hfind : f.find (.inside []) name = .ok place) : f.LeadsTo name place :=
  ⟨_, _, _, hreach, rfl, rfl, hfind⟩

/-! ## Operations on a place -/

theorem read_of_leadsTo (h : f.LeadsTo path (.file name)) (ho : f.files.get? name = some octets) :
    f.read path = .ok octets := by
  obtain ⟨p, d, last, hreach, hlast, hdir, hfind⟩ := h
  simp [read, bind, Except.bind, hreach, hlast, hdir, hfind, ho]

theorem write_of_leadsTo (h : f.LeadsTo path (.file name) ∨ f.LeadsTo path (.vacant name)) :
    f.write path octets = .ok ⟨f.files.put name octets⟩ := by
  rcases h with ⟨p, d, last, hreach, hlast, hdir, hfind⟩ | ⟨p, d, last, hreach, hlast, hdir, hfind⟩
  · simp [write, bind, Except.bind, hreach, hlast, hdir, hfind]
  · simp [write, bind, Except.bind, hreach, hlast, hdir, hfind]

theorem remove_of_leadsTo (h : f.LeadsTo path (.file name)) :
    f.remove path = .ok ⟨f.files.erase name⟩ := by
  obtain ⟨p, d, last, hreach, hlast, hdir, hfind⟩ := h
  simp [remove, bind, Except.bind, hreach, hlast, hdir, hfind]

/-- What a write can do: it puts a file in the place of one, or where there is none, or it
leaves the folder as it is. -/
theorem write_cases (h : f.write path octets = .ok f') :
    (∃ name, (f.LeadsTo path (.file name) ∨ f.LeadsTo path (.vacant name)) ∧
        f' = ⟨f.files.put name octets⟩) ∨
      ((f.LeadsTo path .vacantOutside ∨ f.LeadsTo path .nullDevice) ∧ f' = f) := by
  cases hreach : f.reach path with
  | error fault => simp [write, bind, Except.bind, hreach] at h
  | ok r =>
    obtain ⟨p, d⟩ := r
    simp only [write, bind, Except.bind, hreach] at h
    split at h
    · rename_i last hlast hdir
      cases hfind : f.find d last with
      | error fault => simp [hfind] at h
      | ok place =>
        have hleads : f.LeadsTo path place := ⟨p, d, last, hreach, hlast, hdir, hfind⟩
        rw [hfind] at h
        cases place with
        | file name => exact .inl ⟨name, .inl hleads, (Except.ok.inj h).symm⟩
        | directory d => cases h
        | vacant name => exact .inl ⟨name, .inr hleads, (Except.ok.inj h).symm⟩
        | vacantOutside => exact .inr ⟨.inl hleads, (Except.ok.inj h).symm⟩
        | nullDevice => exact .inr ⟨.inr hleads, (Except.ok.inj h).symm⟩
    · cases h

/-! ## A file that was made -/

/-- What is a directory stays one when a file is made. -/
theorem hasDirectory_put {way : List String} (h : f.hasDirectory way = true) :
    (Folder.mk (f.files.put name octets)).hasDirectory way = true := by
  rw [hasDirectory, List.any_eq_true] at h ⊢
  obtain ⟨k, hk, hprefix⟩ := h
  exact ⟨k, Catalog.mem_keys_put.2 (.inr hk), hprefix⟩

theorem find_directory_put {d d' : Directory} {part : String}
    (h : f.find d part = .ok (.directory d')) :
    (Folder.mk (f.files.put name octets)).find d part = .ok (.directory d') := by
  simp only [find] at h ⊢
  split at h
  · cases h
  · rename_i hlength
    rw [if_neg hlength]
    cases d with
    | inside way =>
      simp only [Except.ok.injEq] at h ⊢
      split at h
      · rename_i hdir
        rw [if_pos (hasDirectory_put hdir), h]
      · split at h <;> cases h
    | around => cases h
    | root => exact h
    | devices => exact h

theorem enter_put {d d' : Directory} {part : String} (h : f.enter d part = .ok d') :
    (Folder.mk (f.files.put name octets)).enter d part = .ok d' := by
  simp only [enter] at h ⊢
  split at h
  · rename_i hdot
    rw [if_pos hdot, h]
  · rename_i hdot
    rw [if_neg hdot]
    split at h
    · rename_i hdots
      rw [if_pos hdots, h]
    · rename_i hdots
      rw [if_neg hdots]
      cases hfind : f.find d part with
      | error fault => simp [hfind, bind, Except.bind] at h
      | ok place =>
        rw [hfind] at h
        cases place with
        | directory d'' =>
          rw [find_directory_put hfind]
          exact h
        | file _ => cases h
        | vacant _ => cases h
        | vacantOutside => cases h
        | nullDevice => cases h

/-- The way to a path stays open when a file is made. -/
theorem reach_put {r : Path × Directory} (h : f.reach path = .ok r) :
    (Folder.mk (f.files.put name octets)).reach path = .ok r := by
  have approach_put : ∀ (way : List String) (d d' : Directory),
      way.foldlM f.enter d = .ok d' →
        way.foldlM (Folder.mk (f.files.put name octets)).enter d = .ok d' := by
    intro way
    induction way with
    | nil => exact fun d d' h => h
    | cons part way ih =>
      intro d d' h
      rw [List.foldlM_cons] at h ⊢
      cases henter : f.enter d part with
      | error fault => simp [henter, bind, Except.bind] at h
      | ok d'' =>
        rw [henter] at h
        rw [enter_put henter]
        exact ih d'' d' h
  simp only [reach] at h ⊢
  split at h
  · cases h
  · rename_i hempty
    rw [if_neg hempty]
    split at h
    · cases h
    · rename_i hlength
      rw [if_neg hlength]
      obtain ⟨p, d⟩ := r
      cases happroach : f.approach (.ofText path) with
      | error fault => simp [happroach, Except.map] at h
      | ok d' =>
        rw [happroach] at h
        rw [approach, approach_put _ _ _ happroach]
        exact h

/-- Files are found, and can be made, in directories of the folder only, under names that are
none of a directory. -/
theorem exists_inside {d : Directory} {last : String}
    (h : f.find d last = .ok (.file name) ∨ f.find d last = .ok (.vacant name)) :
    ∃ way, d = .inside way ∧ last.utf8ByteSize ≤ maxNameLength ∧ nameOf (way ++ [last]) = name ∧
      f.hasDirectory (way ++ [last]) = false := by
  simp only [find] at h
  split at h
  · rcases h with h | h <;> cases h
  · rename_i hlength
    cases d with
    | inside way =>
      refine ⟨way, rfl, Nat.le_of_not_lt hlength, ?_⟩
      cases hdir : f.hasDirectory (way ++ [last]) with
      | true => simp [hdir] at h
      | false =>
        refine ⟨?_, rfl⟩
        simp only [hdir, Bool.false_eq_true, if_false, Except.ok.injEq] at h
        split at h
        · rcases h with h | h <;> cases h
          rfl
        · rcases h with h | h <;> cases h
          rfl
    | around => rcases h with h | h <;> cases h
    | root =>
      simp only [Except.ok.injEq] at h
      split at h <;> rcases h with h | h <;> cases h
    | devices =>
      simp only [Except.ok.injEq] at h
      split at h <;> rcases h with h | h <;> cases h

/-- A name does not begin with itself and a slash. -/
theorem isPrefixOf_slash (name : String) : (name ++ "/").toList.isPrefixOf name.toList = false := by
  rw [Bool.eq_false_iff, ne_eq, List.isPrefixOf_iff_prefix]
  intro h
  have hlength := h.length_le
  rw [String.toList_append, List.length_append] at hlength
  have hslash : "/".toList.length = 1 := rfl
  omega

/-- The file that was made is found where it was made. -/
theorem find_put {d : Directory} {last : String}
    (h : f.find d last = .ok (.file name) ∨ f.find d last = .ok (.vacant name)) :
    (Folder.mk (f.files.put name octets)).find d last = .ok (.file name) := by
  obtain ⟨way, rfl, hlength, rfl, hdir⟩ := exists_inside h
  have hdir' : (Folder.mk (f.files.put (nameOf (way ++ [last])) octets)).hasDirectory
      (way ++ [last]) = false := by
    rw [hasDirectory, List.any_eq_false] at hdir ⊢
    intro k hk
    rcases Catalog.mem_keys_put.1 hk with rfl | hk
    · rw [isPrefixOf_slash]
      exact Bool.false_ne_true
    · exact hdir k hk
  have hfile : ((f.files.put (nameOf (way ++ [last])) octets).get?
      (nameOf (way ++ [last]))).isSome = true := by
    rw [Catalog.get?_put, if_pos rfl]
    rfl
  simp only [find, if_neg (Nat.not_lt.2 hlength), hdir', hfile, Bool.false_eq_true, if_false,
    if_true]

/-- A path leads to the file that was made where it led. -/
theorem leadsTo_put (h : f.LeadsTo path (.file name) ∨ f.LeadsTo path (.vacant name)) :
    (Folder.mk (f.files.put name octets)).LeadsTo path (.file name) := by
  rcases h with ⟨p, d, last, hreach, hlast, hdir, hfind⟩ | ⟨p, d, last, hreach, hlast, hdir, hfind⟩
  · exact ⟨p, d, last, reach_put hreach, hlast, hdir, find_put (.inl hfind)⟩
  · exact ⟨p, d, last, reach_put hreach, hlast, hdir, find_put (.inr hfind)⟩

/-- Whether there is a file is told by the names in the folder. -/
theorem find_eq_file_iff {d : Directory} {last : String}
    (h : f.find d last = .ok (.file name) ∨ f.find d last = .ok (.vacant name)) :
    f.find d last = .ok (.file name) ↔ name ∈ f.files.keys := by
  obtain ⟨way, rfl, hlength, rfl, hdir⟩ := exists_inside h
  simp only [find, if_neg (Nat.not_lt.2 hlength), hdir, Bool.false_eq_true, if_false,
    Except.ok.injEq, ← Catalog.isSome_get?_iff]
  split <;> simp [*]

/-- Where a path leads to a file the folder has it. -/
theorem mem_of_leadsTo_file (h : f.LeadsTo path (.file name)) : name ∈ f.files.keys := by
  obtain ⟨p, d, last, -, -, -, hfind⟩ := h
  exact (find_eq_file_iff (.inl hfind)).1 hfind

/-- Where a path leads to no file the folder has none. -/
theorem not_mem_of_leadsTo_vacant (h : f.LeadsTo path (.vacant name)) : name ∉ f.files.keys := by
  obtain ⟨p, d, last, -, -, -, hfind⟩ := h
  intro hmem
  have hfile := (find_eq_file_iff (.inr hfind)).2 hmem
  rw [hfind] at hfile
  cases hfile

/-! ## One write after the other -/

theorem write_outside (h : f.LeadsTo path .vacantOutside ∨ f.LeadsTo path .nullDevice) :
    f.write path octets = .ok f := by
  rcases h with ⟨p, d, last, hreach, hlast, hdir, hfind⟩ | ⟨p, d, last, hreach, hlast, hdir, hfind⟩
  · simp [write, bind, Except.bind, hreach, hlast, hdir, hfind]
  · simp [write, bind, Except.bind, hreach, hlast, hdir, hfind]

theorem remove_outside (h : f.LeadsTo path .vacantOutside ∨ f.LeadsTo path .nullDevice) :
    f.remove path = .ok f := by
  rcases h with ⟨p, d, last, hreach, hlast, hdir, hfind⟩ | ⟨p, d, last, hreach, hlast, hdir, hfind⟩
  · simp [remove, bind, Except.bind, hreach, hlast, hfind]
  · simp [remove, bind, Except.bind, hreach, hlast, hfind]

/-- Where something was written anything can be, and what was there before does not show. -/
theorem exists_write (h : f.write path octets = .ok f') (octets' : List UInt8) :
    ∃ f'', f.write path octets' = .ok f'' ∧ f'.write path octets' = .ok f'' := by
  obtain ⟨name, hleads, rfl⟩ | ⟨hleads, rfl⟩ := write_cases h
  · refine ⟨⟨f.files.put name octets'⟩, write_of_leadsTo hleads, ?_⟩
    rw [write_of_leadsTo (.inl (leadsTo_put hleads)), Catalog.put_put]
  · exact ⟨f', write_outside hleads, write_outside hleads⟩

/-- What is left when a path is written to and then removed: the folder as it was, without the
file if the path led to one. -/
theorem remove_write (h : f.write path octets = .ok f') :
    f'.remove path = .ok f ∨
      ∃ name, f.LeadsTo path (.file name) ∧ f'.remove path = .ok ⟨f.files.erase name⟩ := by
  obtain ⟨name, hleads, rfl⟩ | ⟨hleads, rfl⟩ := write_cases h
  · rw [remove_of_leadsTo (leadsTo_put hleads), Catalog.erase_put]
    rcases hleads with hleads | hleads
    · exact .inr ⟨name, hleads, rfl⟩
    · exact .inl (by rw [Catalog.erase_of_not_mem (not_mem_of_leadsTo_vacant hleads)])
  · exact .inl (remove_outside hleads)

end Folder

/-! ## The operations of a command -/

theorem run_writeFile_of_ok (h : f.write path octets = .ok f') :
    (MonadFiles.writeFile path octets : StateM Folder _).run f = pure (.ok (), f') := by
  simp only [MonadFiles.writeFile, StateT.run, h]
  rfl

theorem run_writeFile_of_error {fault : FileFault} (h : f.write path octets = .error fault) :
    (MonadFiles.writeFile path octets : StateM Folder _).run f = pure (.error fault, f) := by
  simp only [MonadFiles.writeFile, StateT.run, h]
  rfl

theorem run_removeFile_of_ok (h : f.remove path = .ok f') :
    (MonadFiles.removeFile path : StateM Folder _).run f = pure (.ok (), f') := by
  simp only [MonadFiles.removeFile, StateT.run, h]
  rfl

end LockPrune.Command
