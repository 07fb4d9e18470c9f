import LockPrune.Proofs.Command.Failure
import LockPrune.Proofs.Lockfile.FileReading

/-!
# Pruning a file again

A prune keeps the aliases of what it keeps, and the file that it writes has a block for every key.
So a prune of that file may leave out more: what is not reached any longer.  After that nothing
changes any more.

## Main definitions

* `PrunesTo` — what a prune of a file prints, or writes where it is asked to.

## Main statements

* `roots_restrict` — the keys that a prune starts from are found among those that are kept.
* `prunesTo_apart`, `prunesTo_restrict_apart` — a prune of a file with a block for every key.
* `run_prune_again` — a prune of the file that a prune printed, and of what that prints.
* `run_prune_aliased` — the second prune may leave out an alias.
-/

namespace LockPrune

/-! ## First matches -/

/-- What is found first is found first among the elements that are kept, if it is kept. -/
theorem find?_filter_of_found {α : Type} {p q : α → Bool} {xs : List α}
    (h : ∀ a, xs.find? p = some a → q a = true) : (xs.filter q).find? p = xs.find? p := by
  induction xs with
  | nil => rfl
  | cons a xs ih =>
    rw [List.find?_cons] at h ⊢
    cases hp : p a with
    | true =>
      have hq : q a = true := h a (by rw [hp])
      rw [List.filter_cons, if_pos hq, List.find?_cons, hp]
    | false =>
      rw [hp] at h
      rw [List.filter_cons]
      split
      · rw [List.find?_cons, hp]
        exact ih h
      · exact ih h

namespace Command

variable {workspaces : List String} {withRoot : Bool} {l l' : Lockfile} {found : List String}

/-! ## The keys that a prune starts from -/

/-- A prune starts from the key of the root, if it is kept and there is one, and from a key for
each workspace. -/
theorem roots_eq_ok_iff : roots workspaces withRoot l = .ok found ↔
    ∃ keys, List.Forall₂ (fun name key => l.workspaceKey? name = some key) workspaces keys ∧
      found = (if withRoot then l.rootKey?.toList else []) ++ keys := by
  rw [roots, bind_eq_ok_iff]
  refine exists_congr fun keys => ?_
  rw [mapM_eq_ok_iff]
  constructor
  · rintro ⟨hkeys, hfound⟩
    refine ⟨hkeys.imp fun name key hkey => ?_, (Except.ok.inj hfound).symm⟩
    split at hkey
    · rename_i hsome
      exact hsome.trans (congrArg some (Except.ok.inj hkey))
    · cases hkey
  · rintro ⟨hkeys, rfl⟩
    refine ⟨hkeys.imp fun name key hkey => ?_, rfl⟩
    rw [hkey]

theorem roots_congr (h : l.keys = l'.keys) :
    roots workspaces withRoot l = roots workspaces withRoot l' := by
  simp only [roots, Lockfile.workspaceKey?, Lockfile.rootKey?, h]

/-- A prune starts from keys of the lockfile. -/
theorem mem_keys_of_roots (h : roots workspaces withRoot l = .ok found) :
    ∀ key ∈ found, key ∈ l.keys := by
  obtain ⟨keys, hkeys, rfl⟩ := roots_eq_ok_iff.1 h
  intro key hkey
  rcases List.mem_append.1 hkey with hkey | hkey
  · cases withRoot with
    | false => cases hkey
    | true => exact List.mem_of_find?_eq_some (Option.mem_toList.1 hkey)
  · obtain ⟨name, -, hname⟩ := exists_mem_left hkeys hkey
    exact List.mem_of_find?_eq_some hname

/-- Where the keys are that one lockfile is pruned from, another can be pruned for the same
workspaces. -/
theorem exists_roots (h : roots workspaces withRoot l = .ok found)
    (hmem : ∀ key ∈ found, key ∈ l'.keys) :
    ∃ found', roots workspaces withRoot l' = .ok found' := by
  obtain ⟨keys, hkeys, rfl⟩ := roots_eq_ok_iff.1 h
  have hkeys' : ∃ keys', List.Forall₂ (fun name key => l'.workspaceKey? name = some key)
      workspaces keys' := by
    have hmem' : ∀ key ∈ keys, key ∈ l'.keys := fun key hkey =>
      hmem key (List.mem_append_right _ hkey)
    clear h hmem
    induction hkeys with
    | nil => exact ⟨[], .nil⟩
    | @cons name key workspaces keys hname _ ih =>
      rw [List.forall_mem_cons] at hmem'
      obtain ⟨keys', hkeys'⟩ := ih hmem'.2
      have hsome : (l'.workspaceKey? name).isSome = true :=
        List.find?_isSome.2 ⟨key, hmem'.1, (List.find?_eq_some_iff_append.1 hname).1⟩
      obtain ⟨key', hkey'⟩ := Option.isSome_iff_exists.1 hsome
      exact ⟨key' :: keys', .cons hkey' hkeys'⟩
  obtain ⟨keys', hkeys'⟩ := hkeys'
  exact ⟨_, roots_eq_ok_iff.2 ⟨keys', hkeys', rfl⟩⟩

/-- The keys that a prune starts from are the first of their kind among all keys that are kept with
them. -/
theorem roots_restrict (hsorted : l.keys.Pairwise (· < ·)) {kept : KeySet}
    (h : roots workspaces withRoot l = .ok found) (hkept : ∀ key ∈ found, key ∈ kept) :
    roots workspaces withRoot (l.restrict kept.toList) = .ok found := by
  obtain ⟨keys, hkeys, rfl⟩ := roots_eq_ok_iff.1 h
  have hrestrict := (Lockfile.entries_restrict hsorted kept).1
  refine roots_eq_ok_iff.2 ⟨keys, ?_, ?_⟩
  · have hkept' : ∀ key ∈ keys, key ∈ kept := fun key hkey =>
      hkept key (List.mem_append_right _ hkey)
    clear h hkept
    induction hkeys with
    | nil => exact .nil
    | @cons name key workspaces keys hname _ ih =>
      rw [List.forall_mem_cons] at hkept'
      refine .cons ?_ (ih hkept'.2)
      rw [Lockfile.workspaceKey?, hrestrict, find?_filter_of_found]
      · exact hname
      · intro key' hkey'
        obtain rfl : key = key' := Option.some.inj (hname.symm.trans hkey')
        exact KeySet.contains_iff.2 hkept'.1
  · cases withRoot with
    | false => rfl
    | true =>
      have hroot : (l.restrict kept.toList).rootKey? = l.rootKey? := by
        rw [Lockfile.rootKey?, hrestrict, find?_filter_of_found]
        · rfl
        · intro key hkey
          refine KeySet.contains_iff.2 (hkept key (List.mem_append_left _ ?_))
          exact Option.mem_toList.2 hkey
      rw [hroot]

/-! ## Printing a pruned lockfile -/

theorem printed_eq_done_iff {text : String} : printed l = .done text ↔ l.encode = .ok text := by
  rw [printed]
  cases l.encode with
  | ok text' => simp [Report.done]
  | error e => simp [Report.done, Report.failed]

variable {f : Folder} {path text text' : String}

/-- What a prune of a file comes to: it prints a text, and where it can write to an output it
writes the text there. -/
def PrunesTo (path : String) (workspaces : List String) (withRoot : Bool) (f : Folder)
    (text : String) : Prop :=
  ((Task.prune path workspaces none withRoot).run : StateM Folder Report).run f = (.done text, f) ∧
    ∀ output f', f.write output [] = .ok f' →
      ∃ f'', f.write output (Sink.octets text.toList) = .ok f'' ∧
        ((Task.prune path workspaces (some output) withRoot).run : StateM Folder Report).run f =
          (.done "", f'')

/-- A prune comes to the file of the lockfile that is left. -/
theorem prunesTo_of_encode
    (hl : (lockfileOf path (f.read path)).bind (pruned workspaces withRoot) = .ok l)
    (h : l.encode = .ok text) : PrunesTo path workspaces withRoot f text := by
  constructor
  · rw [run_prune, hl, ← printed_eq_done_iff.2 h]
  · intro output f' hwrite
    obtain ⟨f'', hf'', hsave⟩ := run_save_of_ok hwrite h
    exact ⟨f'', hf'', by rw [run_prune, hl, ← hsave]⟩

/-- What a prune prints is the file of the lockfile that is left. -/
theorem exists_of_run_prune
    (h : ((Task.prune path workspaces none withRoot).run : StateM Folder Report).run f =
      (.done text, f)) :
    ∃ l, (lockfileOf path (f.read path)).bind (pruned workspaces withRoot) = .ok l ∧
      l.encode = .ok text := by
  rw [run_prune] at h
  cases hl : (lockfileOf path (f.read path)).bind (pruned workspaces withRoot) with
  | error c =>
    rw [hl] at h
    have hcode := congrArg (fun r : Report × Folder => r.1.code) h
    cases hcode
  | ok l =>
    rw [hl] at h
    exact ⟨l, rfl, printed_eq_done_iff.1 (Prod.mk.inj h).1⟩

theorem pruned_of_decode {octets : List UInt8} (hread : f.read path = .ok octets)
    (hdecode : Lockfile.decode octets = .ok l) (hroots : roots workspaces withRoot l = .ok found) :
    (lockfileOf path (f.read path)).bind (pruned workspaces withRoot) =
      .ok (l.prune .standard found) := by
  rw [hread, lockfileOf, hdecode]
  simp [Except.mapError, Except.bind, pruned, hroots, Except.map]

/-- What is left for keys without dependencies: these keys and their aliases. -/
theorem pruned_of_leaves {octets : List UInt8} (hread : f.read path = .ok octets)
    (hdecode : Lockfile.decode octets = .ok l) (hroots : roots workspaces withRoot l = .ok found)
    (hleaves : ∀ root ∈ found, ∀ r, l.dependencies? root = some r → r.pairs = []) :
    (lockfileOf path (f.read path)).bind (pruned workspaces withRoot) =
      .ok (l.restrict (l.expand found).toList) := by
  rw [pruned_of_decode hread hdecode hroots, Lockfile.prune_of_leaves hleaves]

/-- A lockfile that is left is one that was read, for the keys of what it was pruned for. -/
theorem exists_of_pruned
    (h : (lockfileOf path (f.read path)).bind (pruned workspaces withRoot) = .ok l) :
    ∃ octets l₀ found₀, Lockfile.decode octets = .ok l₀ ∧
      roots workspaces withRoot l₀ = .ok found₀ ∧ l = l₀.prune .standard found₀ := by
  cases hread : f.read path with
  | error fault =>
    rw [hread] at h
    cases h
  | ok octets =>
    rw [hread, lockfileOf] at h
    cases hdecode : Lockfile.decode octets with
    | error e =>
      rw [hdecode] at h
      cases h
    | ok l₀ =>
      rw [hdecode] at h
      change (roots workspaces withRoot l₀).map (l₀.prune .standard) = .ok l at h
      cases hroots : roots workspaces withRoot l₀ with
      | error c =>
        rw [hroots] at h
        cases h
      | ok found₀ =>
        rw [hroots] at h
        exact ⟨octets, l₀, found₀, hdecode, hroots, (Except.ok.inj h).symm⟩

theorem isHeld_of_pruned
    (h : (lockfileOf path (f.read path)).bind (pruned workspaces withRoot) = .ok l) : l.IsHeld := by
  obtain ⟨octets, l₀, found₀, hdecode, -, rfl⟩ := exists_of_pruned h
  exact (Lockfile.isHeld_of_decode hdecode).restrict

theorem isSingleKey_restrict (hkeys : ∀ key ∈ l.keys, Lockfile.IsSingleKey key) (kept : KeySet) :
    ∀ key ∈ (l.restrict kept.toList).keys, Lockfile.IsSingleKey key := fun key hkey =>
  hkeys key (Lockfile.mem_keys_restrict.1 hkey).2

section Again

variable (hsorted : l.keys.Pairwise (· < ·)) (hkeys : ∀ key ∈ l.keys, Lockfile.IsSingleKey key)

include hsorted hkeys

/-- With a block for every key a prune keeps what is reached. -/
theorem entries_prune_apart (policy : KeyPolicy) (found : List String) :
    (l.apart.prune policy found).entries =
      (l.restrict (l.closure policy found).toList).entries := by
  have hentries := Lockfile.entries_apart hkeys
  have hsorted' := Lockfile.keys_congr hentries ▸ hsorted
  rw [(Lockfile.isApart_apart hkeys).prune_eq, (Lockfile.entries_restrict hsorted' _).2,
    (Lockfile.entries_restrict hsorted _).2, hentries,
    Lockfile.closure_congr (Lockfile.entry?_congr hentries)]

variable (hroots : roots workspaces withRoot l = .ok found)
  (hencode : (l.restrict (l.closure .standard found).toList).encode = .ok text')

include hroots hencode

/-- Pruning the file of a lockfile leaves what is reached in it. -/
theorem prunesTo_apart (hback : Lockfile.decode (Sink.octets text.toList) = .ok l.apart)
    (hread : f.read path = .ok (Sink.octets text.toList)) :
    PrunesTo path workspaces withRoot f text' := by
  have hroots' : roots workspaces withRoot l.apart = .ok found :=
    (roots_congr (Lockfile.keys_congr (Lockfile.entries_apart hkeys))).trans hroots
  have hsame := Lockfile.encode_congr (entries_prune_apart hsorted hkeys .standard found)
  exact prunesTo_of_encode (pruned_of_decode hread hback hroots') (hsame.trans hencode)

/-- Pruning the file of what is reached in a lockfile leaves it as it is. -/
theorem prunesTo_restrict_apart
    (hback : Lockfile.decode (Sink.octets text'.toList) =
      .ok (l.restrict (l.closure .standard found).toList).apart)
    (hread : f.read path = .ok (Sink.octets text'.toList)) :
    PrunesTo path workspaces withRoot f text' := by
  have hpruned := entries_prune_apart hsorted hkeys .standard found
  have hkeys' := isSingleKey_restrict hkeys (l.closure .standard found)
  have hkept : ∀ key ∈ found, key ∈ l.closure .standard found := fun key hkey =>
    Lockfile.mem_closure_iff.2 (.root hkey (mem_keys_of_roots hroots key hkey))
  have hroots' := (roots_congr (Lockfile.keys_congr (Lockfile.entries_apart hkeys'))).trans
    (roots_restrict hsorted hroots hkept)
  have hapart : ∀ key ∈ l.apart.keys, Lockfile.IsSingleKey key := by
    rwa [Lockfile.keys_congr (Lockfile.entries_apart hkeys)]
  have hagain := Lockfile.entries_prune_apart_prune .standard found (Lockfile.isApart_apart hkeys)
    hapart
  rw [Lockfile.apart_congr hpruned, hpruned] at hagain
  exact prunesTo_of_encode (pruned_of_decode hread hback hroots')
    ((Lockfile.encode_congr hagain).trans hencode)

end Again

/-! ## Pruning the file of a prune -/

/-- Files that read back are the same only for the same keys. -/
theorem keys_eq_of_decode (hkeys : ∀ key ∈ l.keys, Lockfile.IsSingleKey key)
    (hkeys' : ∀ key ∈ l'.keys, Lockfile.IsSingleKey key)
    (h : Lockfile.decode (Sink.octets text.toList) = .ok l.apart)
    (h' : Lockfile.decode (Sink.octets text.toList) = .ok l'.apart) : l.keys = l'.keys := by
  have hsame : l.apart = l'.apart := Except.ok.inj (h.symm.trans h')
  rw [← Lockfile.keys_congr (Lockfile.entries_apart hkeys), hsame,
    Lockfile.keys_congr (Lockfile.entries_apart hkeys')]

/-- What is left of a lockfile has the same file exactly if nothing is left out. -/
theorem encode_restrict_eq_iff (hsorted : l.keys.Pairwise (· < ·))
    (hkeys : ∀ key ∈ l.keys, Lockfile.IsSingleKey key) {kept : KeySet}
    (hencode : l.encode = .ok text) (hencode' : (l.restrict kept.toList).encode = .ok text')
    (hback : Lockfile.decode (Sink.octets text.toList) = .ok l.apart)
    (hback' : Lockfile.decode (Sink.octets text'.toList) = .ok (l.restrict kept.toList).apart) :
    text' = text ↔ ∀ key ∈ l.keys, key ∈ kept := by
  have hrestrict := Lockfile.entries_restrict hsorted kept
  constructor
  · rintro rfl key hkey
    rw [keys_eq_of_decode hkeys (isSingleKey_restrict hkeys kept) hback hback', hrestrict.1,
      List.mem_filter, KeySet.contains_iff] at hkey
    exact hkey.2
  · intro hall
    have hentries : (l.restrict kept.toList).entries = l.entries := by
      rw [hrestrict.2, List.filter_eq_self]
      intro p hp
      refine KeySet.contains_iff.2 (hall p.1 ?_)
      rw [Lockfile.keys_eq_map_entries]
      exact List.mem_map_of_mem hp
    rw [Lockfile.encode_congr hentries, hencode] at hencode'
    exact (Except.ok.inj hencode').symm

/-- What a prune leaves has its keys in order, each of one piece, and can be pruned for the same
workspaces. -/
theorem exists_roots_of_pruned
    (h : (lockfileOf path (f.read path)).bind (pruned workspaces withRoot) = .ok l) :
    l.keys.Pairwise (· < ·) ∧ (∀ key ∈ l.keys, Lockfile.IsSingleKey key) ∧
      ∃ found, roots workspaces withRoot l = .ok found := by
  obtain ⟨octets, l₀, found₀, hdecode, hroots₀, rfl⟩ := exists_of_pruned h
  refine ⟨Lockfile.ascending_keys_prune, fun key hkey => ?_,
    exists_roots hroots₀ fun key hkey => ?_⟩
  · exact Lockfile.isSingleKey_of_mem_keys_decode hdecode (Lockfile.mem_keys_of_mem_keys_prune hkey)
  · -- the keys that the first prune started from were kept
    have hreached : key ∈ l₀.closure .standard found₀ :=
      Lockfile.mem_closure_iff.2 (.root hkey (mem_keys_of_roots hroots₀ key hkey))
    exact Lockfile.mem_keys_prune_of_mem_closure hreached

/-- If the file that a prune printed reads back, then pruning it leaves what is reached in it from
the keys that are found in it.  If the file of that reads back as well, then pruning it changes
nothing, and the first file stayed the same exactly if all of its keys are reached.  Both read back
if nothing is in the way of the first. -/
theorem run_prune_again
    (hrun : ((Task.prune path workspaces none withRoot).run : StateM Folder Report).run f =
      (.done text, f)) :
    ∃ l found left text',
      (lockfileOf path (f.read path)).bind (pruned workspaces withRoot) = .ok l ∧
      l.encode = .ok text ∧ roots workspaces withRoot l = .ok found ∧
      left = l.restrict (l.closure .standard found).toList ∧ left.encode = .ok text' ∧
      (l.ReadsBack → ∀ f' : Folder, f'.read path = .ok (Sink.octets text.toList) →
        PrunesTo path workspaces withRoot f' text') ∧
      (left.ReadsBack → ∀ f' : Folder, f'.read path = .ok (Sink.octets text'.toList) →
        PrunesTo path workspaces withRoot f' text') ∧
      (l.ReadsBack → left.ReadsBack →
        (text' = text ↔ ∀ key ∈ l.keys, l.Reached .standard found key)) ∧
      (l.IsFaithful → l.ReadsBack ∧ left.ReadsBack) := by
  obtain ⟨l, hl, hencode⟩ := exists_of_run_prune hrun
  obtain ⟨hsorted, hkeys, found, hroots⟩ := exists_roots_of_pruned hl
  obtain ⟨text', htext'⟩ :=
    Lockfile.exists_encode_restrict hsorted (l.closure .standard found) hencode
  refine ⟨l, found, _, text', hl, hencode, hroots, rfl, htext', fun hback f' hread => ?_,
    fun hback' f' hread => ?_, fun hback hback' => ?_, fun hfaithful => ?_⟩
  · exact prunesTo_apart hsorted hkeys hroots htext' (hback text hencode) hread
  · exact prunesTo_restrict_apart hsorted hkeys hroots htext' (hback' text' htext') hread
  · rw [encode_restrict_eq_iff hsorted hkeys hencode htext' (hback text hencode)
      (hback' text' htext')]
    simp only [Lockfile.mem_closure_iff]
  · have hheld := isHeld_of_pruned hl
    exact ⟨hfaithful.readsBack hheld,
      (hfaithful.restrict hsorted _ hencode).readsBack hheld.restrict⟩

/-! ### A lockfile with an alias -/

/-- A workspace without dependencies, under two keys. -/
def aliasedText : String :=
  "\"web@workspace:^, web@workspace:web\":\n  version: 0\n"

/-- The workspace, with a block for each of its keys. -/
def unjoinedText : String :=
  header ++ "\nweb@workspace:^:\n  version: \"0\"\n" ++
    "\nweb@workspace:web:\n  version: \"0\"\n"

/-- The workspace under the key by which it is found. -/
def loneText : String :=
  header ++ "\nweb@workspace:^:\n  version: \"0\"\n"

/-- The workspace is found under a key without dependencies, and what is left for it passes a
check. -/
def leavesLeaf (check : Lockfile → Bool) (l : Lockfile) : Bool :=
  decide ((roots ["web"] true l).toOption = some ["web@workspace:^"]) &&
    decide (∀ r ∈ l.dependencies? "web@workspace:^", r.pairs = []) &&
    check (l.restrict (l.expand ["web@workspace:^"]).toList)

theorem exists_pruned_leaf {check : Lockfile → Bool} {octets : List UInt8}
    (hread : f.read path = .ok octets) (hdecode : Lockfile.decode octets = .ok l)
    (h : leavesLeaf check l = true) :
    ∃ l', (lockfileOf path (f.read path)).bind (pruned ["web"] true) = .ok l' ∧
      check l' = true := by
  simp only [leavesLeaf, Bool.and_eq_true, decide_eq_true_eq, toOption_eq_some_iff] at h
  obtain ⟨⟨hroots, hleaf⟩, hleft⟩ := h
  refine ⟨_, pruned_of_leaves hread hdecode hroots fun root hroot r hr => ?_, hleft⟩
  obtain rfl := List.mem_singleton.1 hroot
  exact hleaf r hr

/-- Whether a file is a given one shows behind the header. -/
theorem decide_encode_eq (l : Lockfile) {text body : String} (h : text = header ++ body) :
    decide (l.encode.toOption = some text) =
      decide (l.yaml?.map (fun yaml => String.ofList (Layout.apply yaml)) = some body) := by
  rw [decide_eq_decide, toOption_eq_some_iff, Lockfile.encode_eq_ok_iff, Option.map_eq_some_iff, h]
  refine exists_congr fun yaml => and_congr_right fun _ => ?_
  rw [Lockfile.file, String.ofList_append, String.ofList_toList, String.append_right_inj, eq_comm]

theorem exists_pruned_aliased :
    ∃ l, (lockfileOf "yarn.lock" ((folderOf aliasedText).read "yarn.lock")).bind
        (pruned ["web"] true) = .ok l ∧ l.encode = .ok unjoinedText ∧ l.IsFaithful ∧
      leavesLeaf (fun l => decide (l.encode.toOption = some loneText)) l.apart = true := by
  have h : (Lockfile.decode (Sink.octets aliasedText.toList)).toOption.any
      (leavesLeaf fun l => decide (l.encode.toOption = some unjoinedText) && decide l.IsFaithful &&
        leavesLeaf (fun l => decide (l.encode.toOption = some loneText)) l.apart) = true := by
    -- all files begin alike, so only what stands behind the header is evaluated
    have hunjoined (l : Lockfile) : decide (l.encode.toOption = some unjoinedText) = _ :=
      decide_encode_eq l String.append_assoc
    have hlone (l : Lockfile) : decide (l.encode.toOption = some loneText) = _ :=
      decide_encode_eq l rfl
    simp only [hunjoined, hlone]
    decide +kernel
  obtain ⟨l₀, hdecode, hcheck⟩ := (Option.any_eq_true _ _).1 h
  obtain ⟨l, hl, hleft⟩ := exists_pruned_leaf (read_folderOf aliasedText)
    (toOption_eq_some_iff.1 hdecode) hcheck
  simp only [Bool.and_eq_true] at hleft
  obtain ⟨⟨hencode, hfaithful⟩, hleaf⟩ := hleft
  exact ⟨l, hl, toOption_eq_some_iff.1 (of_decide_eq_true hencode), of_decide_eq_true hfaithful,
    hleaf⟩

theorem run_prune_unjoined :
    ((Task.prune "yarn.lock" ["web"] none true).run : StateM Folder Report).run
      (folderOf unjoinedText) = (.done loneText, folderOf unjoinedText) := by
  obtain ⟨l, hl, hencode, hfaithful, hleaf⟩ := exists_pruned_aliased
  obtain ⟨l', hl', hleft⟩ := exists_pruned_leaf (read_folderOf unjoinedText)
    (hfaithful.readsBack (isHeld_of_pruned hl) _ hencode) hleaf
  have hencode' : l'.encode = .ok loneText :=
    toOption_eq_some_iff.1 (of_decide_eq_true hleft)
  exact (prunesTo_of_encode hl' hencode').1

/-- Pruning the file once more leaves out the second key, which is nothing but an alias: it has a
block of its own by then, and is not reached. -/
theorem run_prune_aliased :
    ((Task.prune "yarn.lock" ["web"] none true).run : StateM Folder Report).run
        (folderOf aliasedText) = (.done unjoinedText, folderOf aliasedText) ∧
      ((Task.prune "yarn.lock" ["web"] none true).run : StateM Folder Report).run
        (folderOf unjoinedText) = (.done loneText, folderOf unjoinedText) ∧
      loneText ≠ unjoinedText := by
  obtain ⟨l, hl, hencode, -, -⟩ := exists_pruned_aliased
  refine ⟨(prunesTo_of_encode hl hencode).1, run_prune_unjoined, ?_⟩
  decide +kernel

/-- Pruning the lockfile with the alias, what is printed, and what is printed then: the second prune
leaves out the alias, and the third nothing. -/
theorem run_prune_again_aliased :
    ((Task.prune "yarn.lock" ["web"] none true).run : StateM Folder Report).run
        (folderOf aliasedText) = (.done unjoinedText, folderOf aliasedText) ∧
      PrunesTo "yarn.lock" ["web"] true (folderOf unjoinedText) loneText ∧
      PrunesTo "yarn.lock" ["web"] true (folderOf loneText) loneText := by
  obtain ⟨l, hl, hencode, hfaithful, -⟩ := exists_pruned_aliased
  have hrun := (prunesTo_of_encode hl hencode).1
  obtain ⟨l', found, left, text', hl', -, -, -, -, hagain, hstable, -, hback⟩ :=
    run_prune_again hrun
  obtain rfl := Except.ok.inj (hl.symm.trans hl')
  obtain ⟨hback, hback'⟩ := hback hfaithful
  have hsecond := hagain hback _ (read_folderOf unjoinedText)
  obtain rfl : loneText = text' :=
    congrArg Report.output (Prod.mk.inj (run_prune_unjoined.symm.trans hsecond.1)).1
  exact ⟨hrun, hsecond, hstable hback' _ (read_folderOf loneText)⟩

end Command

end LockPrune
