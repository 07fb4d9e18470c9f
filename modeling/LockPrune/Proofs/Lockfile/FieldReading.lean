import LockPrune.Entry.Read
import LockPrune.Proofs.Lockfile.WrittenTrees
import LockPrune.Proofs.Yaml.Metered

/-!
# Entries as assignments

Reading an entry is reading each of its fields, and then putting what was read in its place.  What
is read of a field does not depend on the others, but for the aliases, which all count towards one
bound.

## Main definitions

* `Field.Content` — what a modelled field holds.
* `Entry.Assignment` — what was read of one field.
* `Entry.Draft.assign` — puts it in its place.

## Main statements

* `Entry.readFields_eq` — the fields are read one by one, and put in their places one by one.
* `Entry.Draft.assign_comm` — the order counts for fields that are not modelled only.
* `Entry.isMetered_read` — the entry depends on the aliases through their bound only.
* `Entry.readFields_eq_ok_iff` — what is read of the fields, by what is read of each.
* `Entry.extra_of_read` — the other fields of an entry, by what is read of each field.
* `Entry.forall_extra_of_read` — what holds of all values that are read for other fields.
-/

namespace LockPrune

open Yaml

theorem Field.ofName?_name (f : Field) : ofName? f.name = some f := by
  cases f <;> decide

/-- What a modelled field holds. -/
def Field.Content : Field → Type
  | .version => Option String
  | .dependencies => Ranges
  | .optionalDependencies => Ranges
  | .peerDependencies => Ranges
  | _ => String

namespace Entry

variable {d : Document} {depth : Nat} {path : Path}

/-! ## Assignments -/

/-- What was read of one field. -/
inductive Assignment where
  | modelled (f : Field) (content : f.Content)
  | other (name : String) (value : Value)

/-- The name of the field. -/
def Assignment.name : Assignment → String
  | .modelled f _ => f.name
  | .other name _ => name

/-- The field is not modelled. -/
def Assignment.isOther : Assignment → Bool
  | .modelled _ _ => false
  | .other _ _ => true

namespace Draft

/-- The draft with other fields that are not modelled. -/
def withExtra (a : Draft) (c : Catalog Value) : Draft :=
  { a with entry := { a.entry with extra := c } }

/-- The draft with another content of a modelled field. -/
def put (a : Draft) : (f : Field) → f.Content → Draft
  | .version, s => { a with version := s }
  | .resolved, s => { a with entry := { a.entry with resolved := s } }
  | .integrity, s => { a with entry := { a.entry with integrity := s } }
  | .resolution, s => { a with entry := { a.entry with resolution := s } }
  | .dependencies, r => { a with entry := { a.entry with dependencies := r } }
  | .optionalDependencies, r => { a with entry := { a.entry with optionalDependencies := r } }
  | .peerDependencies, r => { a with entry := { a.entry with peerDependencies := r } }
  | .checksum, s => { a with entry := { a.entry with checksum := s } }
  | .conditions, s => { a with entry := { a.entry with conditions := s } }
  | .languageName, s => { a with entry := { a.entry with languageName := s } }
  | .linkType, s => { a with entry := { a.entry with linkType := s } }

/-- Puts what was read of a field in its place. -/
def assign (a : Draft) : Assignment → Draft
  | .modelled f content => a.put f content
  | .other name value => a.withExtra (a.entry.extra.put name value)

theorem put_comm {f g : Field} (h : f ≠ g) (a : Draft) (x : f.Content) (y : g.Content) :
    (a.put f x).put g y = (a.put g y).put f x := by
  cases f <;> cases g <;> first | rfl | exact absurd rfl h

theorem put_withExtra (a : Draft) (f : Field) (x : f.Content) (c : Catalog Value) :
    (a.put f x).withExtra c = (a.withExtra c).put f x ∧
      (a.put f x).entry.extra = a.entry.extra := by
  cases f <;> exact ⟨rfl, rfl⟩

/-- The order of two fields counts only if they have one name, or both are not modelled. -/
theorem assign_comm {x y : Assignment} (hname : x.name ≠ y.name)
    (hother : (x.isOther && y.isOther) = false) (a : Draft) :
    (a.assign x).assign y = (a.assign y).assign x := by
  cases x with
  | modelled f content =>
    cases y with
    | modelled g content' => exact put_comm (fun h => hname (congrArg Field.name h)) a _ _
    | other name value =>
      obtain ⟨hput, hextra⟩ := put_withExtra a f content (a.entry.extra.put name value)
      rw [assign, assign, assign, assign, hextra, hput]
  | other name value =>
    cases y with
    | modelled g content =>
      obtain ⟨hput, hextra⟩ := put_withExtra a g content (a.entry.extra.put name value)
      rw [assign, assign, assign, assign, hextra, hput]
    | other name' value' => cases hother

end Draft

/-! ## Reading one field -/

/-- Reads what a modelled field holds. -/
def readContent (d : Document) (depth : Nat) (path : Path) (node : Node) :
    (f : Field) → Reading f.Content
  | .version => readText? d path node
  | .resolved => readText d path node
  | .integrity => readText d path node
  | .resolution => readText d path node
  | .dependencies => readRanges d depth path node
  | .optionalDependencies => readRanges d depth path node
  | .peerDependencies => readRanges d depth path node
  | .checksum => readText d path node
  | .conditions => readText d path node
  | .languageName => readText d path node
  | .linkType => readText d path node

/-- Reads a field with a given name. -/
def readNamed (d : Document) (depth : Nat) (path : Path) (name : String) (node : Node) :
    Reading Assignment :=
  match Field.ofName? name with
  | some f => .modelled f <$> readContent d depth path node f
  | none => .other name <$> d.value depth path node

/-- Reads a field. -/
def readField (d : Document) (depth : Nat) (path : Path) (node : Node × Node) :
    Reading Assignment := do
  let name ← d.text "a string" path node.1
  readNamed d depth (path.value node.1) name node.2

theorem set_eq (a : Draft) (name : String) (node : Node) :
    a.set d depth path name node = a.assign <$> readNamed d depth path name node := by
  rw [Draft.set, readNamed]
  cases Field.ofName? name with
  | none => simp only [Functor.map_map]; rfl
  | some f => cases f <;> (simp only [Functor.map_map]; rfl)

/-- The fields are read one by one, and what was read is put in its place. -/
theorem readFields_eq (a : Draft) (nodes : List (Node × Node)) :
    readFields d depth path a nodes =
      (fun xs => xs.foldl Draft.assign a) <$> nodes.mapM (readField d depth path) := by
  induction nodes generalizing a with
  | nil => simp [readFields]
  | cons node nodes ih =>
    obtain ⟨k, v⟩ := node
    simp only [readFields, List.mapM_cons, readField, set_eq, ih, map_eq_pure_bind, bind_assoc,
      pure_bind, List.foldl_cons]

theorem name_of_readNamed {name : String} {node : Node} {x : Assignment} {n m : Nat}
    (h : readNamed d depth path name node n = .ok (x, m)) :
    x.name = name ∧ x.isOther = (Field.ofName? name).isNone := by
  rw [readNamed] at h
  cases hname : Field.ofName? name with
  | none =>
    rw [hname] at h
    obtain ⟨v, k, -, heq⟩ := Reading.map_eq_ok_iff.1 h
    obtain ⟨rfl, -⟩ := Prod.mk.inj heq
    exact ⟨rfl, rfl⟩
  | some f =>
    rw [hname] at h
    obtain ⟨v, k, -, heq⟩ := Reading.map_eq_ok_iff.1 h
    obtain ⟨rfl, -⟩ := Prod.mk.inj heq
    have hsome := List.find?_some hname
    exact ⟨of_decide_eq_true hsome, rfl⟩

/-! ## Counting aliases -/

theorem isMetered_readText? (path : Path) (node : Node) :
    (readText? d path node).IsMetered d.aliasBound :=
  Document.isMetered_optional (fun _ _ => Document.isMetered_text _ _ _) path node

theorem isMetered_readText (path : Path) (node : Node) :
    (readText d path node).IsMetered d.aliasBound :=
  (isMetered_readText? path node).map _

theorem isMetered_readPairs (r : Ranges) (nodes : List (Node × Node)) :
    (readPairs d path r nodes).IsMetered d.aliasBound := by
  induction nodes generalizing r with
  | nil => exact Reading.isMetered_pure _
  | cons node nodes ih =>
    exact (Document.isMetered_text _ _ _).bind fun name =>
      (isMetered_readText _ _).bind fun range => ih _

theorem isMetered_readRanges (path : Path) (node : Node) :
    (readRanges d depth path node).IsMetered d.aliasBound := by
  refine (Document.isMetered_optional (fun path node => ?_) path node).map _
  exact Document.isMetered_mapping (fun _ path nodes => isMetered_readPairs _ nodes) _ _ _ _

theorem isMetered_readContent (path : Path) (node : Node) (f : Field) :
    (readContent d depth path node f).IsMetered d.aliasBound := by
  cases f
  case version => exact isMetered_readText? path node
  case dependencies => exact isMetered_readRanges path node
  case optionalDependencies => exact isMetered_readRanges path node
  case peerDependencies => exact isMetered_readRanges path node
  all_goals exact isMetered_readText path node

theorem isMetered_readField (node : Node × Node) :
    (readField d depth path node).IsMetered d.aliasBound := by
  refine (Document.isMetered_text _ _ _).bind fun name => ?_
  rw [readNamed]
  split
  · exact (isMetered_readContent _ _ _).map _
  · exact (Document.isMetered_value _ _ _).map _

theorem isMetered_readFields (a : Draft) (nodes : List (Node × Node)) :
    (readFields d depth path a nodes).IsMetered d.aliasBound := by
  rw [readFields_eq]
  exact (Reading.isMetered_mapM isMetered_readField nodes).map _

theorem isMetered_read (path : Path) (node : Node) :
    (read d depth path node).IsMetered d.aliasBound := by
  refine Document.isMetered_mapping (fun depth path nodes => ?_) _ _ _ _
  refine (isMetered_readFields _ nodes).bind fun a => ?_
  rw [Draft.finish]
  split
  · exact Reading.isMetered_pure _
  · exact Reading.isMetered_fail _

/-- What is read of the fields is what is read of each, put in its place. -/
theorem readFields_eq_ok_iff {a b : Draft} {nodes : List (Node × Node)} {n m : Nat} :
    readFields d depth path a nodes n = .ok (b, m) ↔
      ∃ rs : List (Assignment × Nat),
        List.Forall₂ (fun node r => readField d depth path node 0 = .ok r) nodes rs ∧
          b = (rs.map Prod.fst).foldl Draft.assign a ∧ m = n + (rs.map Prod.snd).sum ∧
            ((rs.map Prod.snd).sum = 0 ∨ m ≤ d.aliasBound) := by
  rw [readFields_eq, Reading.map_eq_ok_iff]
  simp only [Reading.mapM_eq_ok_iff isMetered_readField, Prod.mk.injEq]
  constructor
  · rintro ⟨_, _, ⟨rs, hrs, rfl, rfl, hkeeps⟩, rfl, rfl⟩
    exact ⟨rs, hrs, rfl, rfl, hkeeps⟩
  · rintro ⟨rs, hrs, rfl, rfl, hkeeps⟩
    exact ⟨_, _, ⟨rs, hrs, rfl, rfl, hkeeps⟩, rfl, rfl⟩

/-- A draft is an entry when it has a version. -/
theorem finish_eq_ok_iff {a : Draft} {e : Entry} {n m : Nat} :
    a.finish n = .ok (e, m) ↔
      ∃ version, a.version = some version ∧ e = { a.entry with version := version } ∧ m = n := by
  rw [Draft.finish]
  cases a.version with
  | none => simp
  | some version =>
    simp only [Reading.pure_eq_ok_iff, Prod.mk.injEq, Option.some.injEq, exists_eq_left']
    exact and_congr eq_comm eq_comm

/-- The entry of a mapping is read from its fields, inside one collection more. -/
theorem read_mapping_eq_ok_iff {mark : Mark} {anchor : Option Nat} {tag : Option Tag}
    {nodes : List (Node × Node)} {n : Nat} {r : Entry × Nat} :
    read d depth path (.mapping mark anchor tag nodes) n = .ok r ↔
      ∃ inside, depth = inside + 1 ∧ ∃ a k,
        readFields d inside path ⟨none, {}⟩ nodes n = .ok (a, k) ∧ a.finish k = .ok r := by
  have hread : read d depth path (.mapping mark anchor tag nodes) n =
      Reading.placedAt mark path (.deeper depth mark fun depth => do
        let draft ← readFields d depth path ⟨none, {}⟩ nodes
        draft.finish) n := rfl
  rw [hread, Reading.placedAt_eq_ok_iff, Reading.deeper_eq_ok_iff]
  simp only [Reading.bind_eq_ok_iff]

/-! ## Fields that are not modelled -/

/-- An entry that is read is read from fields, inside one collection more. -/
theorem exists_fields_of_read {node : Node} {n m : Nat} {e : Entry}
    (h : read d depth path node n = .ok (e, m)) :
    ∃ inside path' k a k', depth = inside + 1 ∧
      readFields d inside path' ⟨none, {}⟩ (d.entriesOf node) k = .ok (a, k') ∧
        a.finish k' = .ok (e, m) := by
  rw [read] at h
  rcases Document.mapping_cases h with ⟨-, path', k, h⟩ | ⟨path', k, inside, hdepth, h⟩
  · -- without fields there is no version
    obtain ⟨a, k', hfields, hfinish⟩ := Reading.bind_eq_ok_iff.1 h
    obtain ⟨rfl, -⟩ := Prod.mk.inj (Reading.pure_eq_ok_iff.1 hfields)
    obtain ⟨version, hversion, -⟩ := finish_eq_ok_iff.1 hfinish
    cases hversion
  · obtain ⟨a, k', hfields, hfinish⟩ := Reading.bind_eq_ok_iff.1 h
    exact ⟨inside, path', k, a, k', hdepth, hfields, hfinish⟩

/-- The name and the value that were read of a field, unless it is modelled. -/
def Assignment.other? : Assignment → Option (String × Value)
  | .modelled _ _ => none
  | .other name v => some (name, v)

theorem extra_foldl (a : Draft) (xs : List Assignment) :
    (xs.foldl Draft.assign a).entry.extra =
      (xs.filterMap Assignment.other?).foldl (fun c p => c.put p.1 p.2) a.entry.extra := by
  induction xs generalizing a with
  | nil => rfl
  | cons x xs ih =>
    rw [List.foldl_cons, ih, List.filterMap_cons]
    cases x with
    | modelled f content =>
      rw [Draft.assign, (Draft.put_withExtra a f content a.entry.extra).2]
      rfl
    | other name v => rfl

/-- The fields of an entry that are not modelled are those that were read, one by one. -/
theorem extra_of_read {node : Node} {n m : Nat} {e : Entry}
    (h : read d (depth + 1) path node n = .ok (e, m)) :
    ∃ path' rs, List.Forall₂ (fun field r => readField d depth path' field 0 = .ok r)
        (d.entriesOf node) rs ∧
      e.extra = .ofList (rs.filterMap fun r => r.1.other?) := by
  obtain ⟨inside, path', k, a, k', hdepth, hfields, hfinish⟩ := exists_fields_of_read h
  obtain rfl : depth = inside := by omega
  obtain ⟨version, -, rfl, -⟩ := finish_eq_ok_iff.1 hfinish
  obtain ⟨rs, hrs, rfl, -, -⟩ := readFields_eq_ok_iff.1 hfields
  refine ⟨path', rs, hrs, ?_⟩
  change ((rs.map Prod.fst).foldl Draft.assign ⟨none, {}⟩).entry.extra = _
  rw [extra_foldl, List.filterMap_map]
  rfl

theorem value_of_readField {node : Node × Node} {name : String} {v : Value} {n m : Nat}
    (h : readField d depth path node n = .ok (.other name v, m)) :
    Field.ofName? name = none ∧ ∃ path k, d.value depth path node.2 k = .ok (v, m) := by
  obtain ⟨name', k, -, h⟩ := Reading.bind_eq_ok_iff.1 h
  rw [readNamed] at h
  cases hname : Field.ofName? name' with
  | some f =>
    rw [hname] at h
    obtain ⟨x, k', -, heq⟩ := Reading.map_eq_ok_iff.1 h
    cases heq
  | none =>
    rw [hname] at h
    obtain ⟨x, k', hv, heq⟩ := Reading.map_eq_ok_iff.1 h
    cases heq
    exact ⟨hname, _, k, hv⟩

/-- What holds of every value that is read for a field that is not modelled holds of all those that
an entry has. -/
theorem forall_extra_of_read {p : String × Value → Prop}
    (hp : ∀ name path node k v k', Field.ofName? name = none →
      d.value depth path node k = .ok (v, k') → p (name, v))
    {node : Node} {n m : Nat} {e : Entry} (h : read d (depth + 1) path node n = .ok (e, m)) :
    ∀ q ∈ e.extra.pairs, p q := by
  obtain ⟨path', rs, hrs, hextra⟩ := extra_of_read h
  rw [hextra]
  intro q hq
  obtain ⟨⟨x, j⟩, hr, hother⟩ := List.mem_filterMap.1 (Catalog.mem_of_mem_ofList hq)
  obtain ⟨field, -, hfield⟩ := exists_mem_left hrs hr
  cases x with
  | modelled f content => cases hother
  | other name v =>
    obtain rfl := Option.some.inj hother
    obtain ⟨hname, path'', k, hv⟩ := value_of_readField hfield
    exact hp name path'' field.2 k v j hname hv

end Entry

end LockPrune
