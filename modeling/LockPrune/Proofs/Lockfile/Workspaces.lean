import LockPrune.Lockfile.Resolve
import LockPrune.Proofs.Descriptor.Grammar

/-!
# Workspaces

The workspace of a name is looked for among the keys, in their order: a key is read as a descriptor,
and the range of the descriptor for its protocol.  The two readers together see no more than the
text of the key shows.  A key is the workspace's exactly if it is the name, `@workspace:` and a
place, so that neither a range with such a place further on nor a longer name is taken for it.

## Main definitions

* `Descriptor.IsWorkspaceKey`, `Descriptor.IsRootKey` — the keys of workspaces, as texts.
* `IsFirst` — the first key of a kind.

## Main statements

* `Descriptor.ofKey?_eq_some_iff_spelled` — the keys of a descriptor.
* `Lockfile.workspace_lookup` — which keys of workspaces are found.
-/

namespace LockPrune

namespace Descriptor

variable {name key range : String} {d : Descriptor}

/-! ## Keys of workspaces -/

/-- The key of the workspace of a name: the name, `@workspace:`, and a place without control
characters. -/
def IsWorkspaceKey (name key : String) : Prop :=
  IsName name.toList ∧
    ∃ place : String, (∀ c ∈ place.toList, isControl c = false) ∧
      key = name ++ "@workspace:" ++ place

/-- The key of a workspace at the root of the project. -/
def IsRootKey (key : String) : Prop :=
  ∃ name : String, IsName name.toList ∧ key = name ++ "@workspace:."

/-! ## Keys and ranges that are read -/

/-- A key is a descriptor exactly if it is the name of a package, `@` and a range. -/
theorem ofKey?_eq_some_iff_spelled : ofKey? key = some d ↔
    Spells d.ident.fullName.toList d.ident ∧ IsRange d.range.toList ∧
      key = d.ident.fullName ++ "@" ++ d.range := by
  constructor
  · intro h
    obtain ⟨name, range, hparts, hname, hrange⟩ := read_eq_ok_iff.1 (ofKey?_eq_some_iff.1 h)
    rw [hname.toList_fullName, hrange, String.toList_ofList]
    refine ⟨hname, hparts.isRange, String.toList_inj.1 ?_⟩
    simp [hparts.eq, hname.toList_fullName]
  · rintro ⟨hname, hrange, rfl⟩
    have hread := ofKey?_ofList hname hrange
    rw [String.ofList_toList] at hread
    rw [← hread]
    refine congrArg ofKey? (String.toList_inj.1 ?_)
    simp

/-- A range has a protocol exactly if the protocol and a colon stand in front of it. -/
theorem protocol?_eq_some_iff {protocol : String} : d.protocol? = some protocol ↔
    IsRun isProtocolChar protocol.toList ∧ ∃ rest : String, d.range = protocol ++ ":" ++ rest := by
  constructor
  · intro h
    rw [protocol?] at h
    split at h
    · rename_i front rest hrun
      obtain rfl := Option.some.inj h
      obtain ⟨heq, hfront, -⟩ := run?_eq_some_iff.1 hrun
      rw [String.toList_ofList]
      refine ⟨hfront, .ofList rest, String.toList_inj.1 ?_⟩
      simp [heq]
    · cases h
  · rintro ⟨hprotocol, rest, hrange⟩
    have hlist : d.range.toList = protocol.toList ++ ':' :: rest.toList := by simp [hrange]
    rw [protocol?, hlist, run?_append hprotocol (stops_cons (by decide) _)]
    simp

theorem isWorkspace_iff :
    d.isWorkspace = true ↔ ∃ place : String, d.range = "workspace:" ++ place := by
  have hprotocol : IsRun isProtocolChar "workspace".toList := by decide
  rw [isWorkspace, decide_eq_true_iff, protocol?_eq_some_iff]
  exact and_iff_right hprotocol

/-- A range may begin with any text that is a range. -/
theorem isRange_append {front : String} (hfront : IsRange front.toList) :
    IsRange (front ++ range).toList ↔ ∀ c ∈ range.toList, isControl c = false := by
  rw [String.toList_append]
  constructor
  · rintro ⟨-, h⟩ c hc
    simpa using h c (List.mem_append_right _ hc)
  · intro h
    refine ⟨List.append_ne_nil_of_left_ne_nil hfront.1 _, List.forall_mem_append.2 ⟨hfront.2, ?_⟩⟩
    intro c hc
    simp [h c hc]

theorem mark_append (name range : String) : name ++ "@" ++ ("workspace:" ++ range) =
    name ++ "@workspace:" ++ range :=
  String.toList_inj.1 (by simp)

theorem mark_append_root (name : String) : name ++ "@" ++ "workspace:." = name ++ "@workspace:." :=
  String.toList_inj.1 (by simp)

/-- A key is read as a workspace of a name exactly if it is written as one. -/
theorem any_isWorkspace_iff :
    ((ofKey? key).any fun d => d.isWorkspace && d.ident.fullName = name) = true ↔
      IsWorkspaceKey name key := by
  have hfront : IsRange "workspace:".toList := by decide
  rw [Option.any_eq_true]
  constructor
  · rintro ⟨d, hd, h⟩
    rw [Bool.and_eq_true, decide_eq_true_iff] at h
    obtain ⟨hworkspace, rfl⟩ := h
    obtain ⟨place, hplace⟩ := isWorkspace_iff.1 hworkspace
    obtain ⟨hname, hrange, rfl⟩ := ofKey?_eq_some_iff_spelled.1 hd
    rw [hplace] at hrange ⊢
    exact ⟨⟨_, hname⟩, place, (isRange_append hfront).1 hrange, mark_append _ place⟩
  · rintro ⟨⟨ident, hname⟩, place, hplace, rfl⟩
    have hfull : ident.fullName = name := String.toList_inj.1 hname.toList_fullName
    refine ⟨⟨ident, "workspace:" ++ place⟩, ofKey?_eq_some_iff_spelled.2 ⟨?_, ?_, ?_⟩, ?_⟩
    · rwa [hfull]
    · exact (isRange_append hfront).2 hplace
    · rw [hfull, mark_append]
    · rw [Bool.and_eq_true, decide_eq_true_iff]
      exact ⟨isWorkspace_iff.2 ⟨place, rfl⟩, hfull⟩

/-- A key is read as a workspace at the root exactly if it is written as one. -/
theorem any_isRoot_iff :
    ((ofKey? key).any fun d => d.range = "workspace:.") = true ↔ IsRootKey key := by
  have hrange : IsRange "workspace:.".toList := by decide
  rw [Option.any_eq_true]
  constructor
  · rintro ⟨d, hd, h⟩
    rw [decide_eq_true_iff] at h
    obtain ⟨hname, -, rfl⟩ := ofKey?_eq_some_iff_spelled.1 hd
    exact ⟨_, ⟨_, hname⟩, by rw [h, mark_append_root]⟩
  · rintro ⟨name, ⟨ident, hname⟩, rfl⟩
    have hfull : ident.fullName = name := String.toList_inj.1 hname.toList_fullName
    refine ⟨⟨ident, "workspace:."⟩, ofKey?_eq_some_iff_spelled.2 ⟨?_, hrange, ?_⟩, by simp⟩
    · rwa [hfull]
    · rw [hfull, mark_append_root]

/-- Of two texts of a name with a range behind it, names and ranges are the same. -/
theorem eq_of_spelled {name' range' : String} (hname : IsName name.toList)
    (hname' : IsName name'.toList) (h : name ++ "@" ++ range = name' ++ "@" ++ range') :
    name = name' ∧ range = range' := by
  obtain ⟨ident, hname⟩ := hname
  obtain ⟨ident', hname'⟩ := hname'
  have hlist : name.toList ++ '@' :: range.toList = name'.toList ++ '@' :: range'.toList := by
    simpa using congrArg String.toList h
  obtain ⟨heq, -, hrange⟩ := hname.eq_of_append hname' hlist
  exact ⟨String.toList_inj.1 heq, String.toList_inj.1 hrange⟩

end Descriptor

open Descriptor

/-! ## The first key of a kind -/

/-- The first of some keys that is of a kind. -/
def IsFirst (p : String → Prop) (keys : List String) (key : String) : Prop :=
  ∃ before after, keys = before ++ key :: after ∧ p key ∧ ∀ other ∈ before, ¬ p other

theorem find?_eq_some_iff_isFirst {p : String → Prop} {test : String → Bool}
    (h : ∀ key, test key = true ↔ p key) {keys : List String} {key : String} :
    keys.find? test = some key ↔ IsFirst p keys key := by
  rw [List.find?_eq_some_iff_append, h]
  simp only [Bool.not_eq_true', ← Bool.not_eq_true, h]
  constructor
  · rintro ⟨hkey, before, after, hkeys, hbefore⟩
    exact ⟨before, after, hkeys, hkey, hbefore⟩
  · rintro ⟨before, after, hkeys, hkey, hbefore⟩
    exact ⟨hkey, before, after, hkeys, hbefore⟩

namespace Lockfile

/-- **Looking for workspaces**: for a name, the key that is found is the first that is the name,
`@workspace:` and a place without control characters, and none is found exactly if the name is no
name of a package or no key is of that form; at the root it is the first key that is a name and
`@workspace:.`.  No other name is taken for the one that is looked for, and no range that does not
begin with `workspace:`. -/
theorem workspace_lookup (l : Lockfile) (name : String) :
    (∀ key, l.workspaceKey? name = some key ↔ IsFirst (IsWorkspaceKey name) l.keys key) ∧
      (l.workspaceKey? name = none ↔ ¬ IsName name.toList ∨
        ∀ place : String, (∀ c ∈ place.toList, isControl c = false) →
          name ++ "@workspace:" ++ place ∉ l.keys) ∧
      (∀ key, l.rootKey? = some key ↔ IsFirst IsRootKey l.keys key) ∧
      (l.rootKey? = none ↔
        ∀ name : String, IsName name.toList → name ++ "@workspace:." ∉ l.keys) ∧
      ∀ name' range : String, IsName name'.toList →
        (l.workspaceKey? name = some (name' ++ "@" ++ range) →
          name' = name ∧ ∃ place, range = "workspace:" ++ place) ∧
        (l.rootKey? = some (name' ++ "@" ++ range) → range = "workspace:.") := by
  have hfound : ∀ key, l.workspaceKey? name = some key ↔
      IsFirst (IsWorkspaceKey name) l.keys key :=
    fun key => find?_eq_some_iff_isFirst fun key => any_isWorkspace_iff
  have hroot : ∀ key, l.rootKey? = some key ↔ IsFirst IsRootKey l.keys key :=
    fun key => find?_eq_some_iff_isFirst fun key => any_isRoot_iff
  refine ⟨hfound, ?_, hroot, ?_, fun name' range hname' => ⟨fun h => ?_, fun h => ?_⟩⟩
  · simp only [workspaceKey?, List.find?_eq_none, any_isWorkspace_iff]
    constructor
    · intro h
      refine or_iff_not_imp_left.2 fun hname place hplace hkey => ?_
      exact h _ hkey ⟨not_not.1 hname, place, hplace, rfl⟩
    · rintro h key hkey ⟨hname, place, hplace, rfl⟩
      exact h.resolve_left (not_not.2 hname) place hplace hkey
  · simp only [rootKey?, List.find?_eq_none, any_isRoot_iff]
    constructor
    · exact fun h name hname hkey => h _ hkey ⟨name, hname, rfl⟩
    · rintro h key hkey ⟨name, hname, rfl⟩
      exact h name hname hkey
  · obtain ⟨-, -, -, ⟨hname, place, -, hkey⟩, -⟩ := (hfound _).1 h
    rw [← mark_append] at hkey
    obtain ⟨hsame, hrange⟩ := eq_of_spelled hname' hname hkey
    exact ⟨hsame, place, hrange⟩
  · obtain ⟨-, -, -, ⟨name, hname, hkey⟩, -⟩ := (hroot _).1 h
    exact (eq_of_spelled hname' hname (hkey.trans (mark_append_root name).symm)).2

/-- A lockfile with workspaces and with keys that have those of workspaces in them. -/
def disguised : Lockfile :=
  ofBlocks .current
    [⟨"b@patch:a@workspace:a, ba@workspace:b", { version := "1" }⟩,
      ⟨"a@workspace:a, a@workspace:.", { version := "0" }⟩]

/-- Neither a range with a workspace in it nor a longer name is taken for the workspace, and no
other place for the root. -/
theorem workspace_lookup_disguised :
    disguised.workspaceKey? "a" = some "a@workspace:a" ∧
      disguised.rootKey? = some "a@workspace:." ∧ disguised.workspaceKey? "@" = none ∧
      disguised.workspaceKey? "a" ≠ some ("b" ++ "@" ++ "patch:a@workspace:a") ∧
      disguised.workspaceKey? "a" ≠ some ("ba" ++ "@" ++ "workspace:b") ∧
      disguised.rootKey? ≠ some ("a" ++ "@" ++ "workspace:a") := by
  have hfound : disguised.workspaceKey? "a" = some "a@workspace:a" := by decide
  have hroot : disguised.rootKey? = some "a@workspace:." := by decide
  obtain ⟨-, -, -, -, hother⟩ := workspace_lookup disguised "a"
  refine ⟨hfound, hroot, by decide, fun h => ?_, fun h => ?_, fun h => ?_⟩
  · have hname : IsName "b".toList := ⟨_, .bare (by decide)⟩
    exact absurd ((hother "b" _ hname).1 h).1 (by decide)
  · have hname : IsName "ba".toList := ⟨_, .bare (by decide)⟩
    exact absurd ((hother "ba" _ hname).1 h).1 (by decide)
  · have hname : IsName "a".toList := ⟨_, .bare (by decide)⟩
    exact absurd ((hother "a" _ hname).2 h) (by decide)

end Lockfile

end LockPrune
