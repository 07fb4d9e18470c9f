import LockPrune.Proofs.Lockfile.EntryParts

/-!
# The order of fields

The fields of an entry may come in any order.  Only those that are not modelled have to keep theirs,
since they are kept in the order in which they came.  An entry is written in one order, whatever the
order was in which it was read: so an entry that is read from its fields in two orders is written as
one text.

## Main definitions

* `Yaml.Document.nameOf?` — the name that a node gives to a field.
* `Entry.fieldNames` — the names of the fields that are written, in order.

## Main statements

* `Entry.foldl_assign_perm` — what was read of fields may be put in its place in any order.
* `Entry.readFields_perm` — fields may be read in any order.
* `Entry.read_field_order` — reading an entry in any order, and writing it in one.
-/

namespace LockPrune

open Yaml

/-! ## Folds -/

section

variable {α β : Type} {f : β → α → β} {p : α → Bool} {xs : List α}

/-- A step may be put behind others with which it commutes. -/
theorem foldl_of_comm {x : α} (h : ∀ y ∈ xs, ∀ b, f (f b x) y = f (f b y) x) (b : β) :
    xs.foldl f (f b x) = f (xs.foldl f b) x := by
  induction xs generalizing b with
  | nil => rfl
  | cons y xs ih =>
    rw [List.forall_mem_cons] at h
    rw [List.foldl_cons, h.1, ih h.2, List.foldl_cons]

/-- Steps of one kind may be put behind those of another with which they commute. -/
theorem foldl_filter_of_comm
    (h : ∀ x ∈ xs, p x = true → ∀ y ∈ xs, p y = false → ∀ b, f (f b x) y = f (f b y) x) (b : β) :
    xs.foldl f b = (xs.filter p).foldl f ((xs.filter fun x => !p x).foldl f b) := by
  induction xs generalizing b with
  | nil => rfl
  | cons x xs ih =>
    have hrest := ih (fun y hy hpy z hz =>
      h y (List.mem_cons_of_mem x hy) hpy z (List.mem_cons_of_mem x hz))
    rw [List.foldl_cons, hrest]
    cases hp : p x with
    | false => simp [hp]
    | true =>
      have hcomm : ∀ y ∈ xs.filter fun x => !p x, ∀ b, f (f b x) y = f (f b y) x := by
        intro y hy
        obtain ⟨hmem, hpy⟩ := List.mem_filter.1 hy
        exact h x List.mem_cons_self hp y (List.mem_cons_of_mem x hmem) (by simpa using hpy)
      rw [foldl_of_comm hcomm]
      simp [hp]

end

/-! ## Names -/

/-- The name that a node gives to a field. -/
def Yaml.Document.nameOf? (d : Document) : Node → Option String
  | .alias _ target => (d.target? target).bind Node.scalarText?
  | node => node.scalarText?

namespace Entry

variable {d : Document} {depth : Nat} {path : Path} {node : Node × Node} {x : Assignment}

/-- The field has a name, and is not modelled. -/
def isOtherField (d : Document) (node : Node × Node) : Bool :=
  (d.nameOf? node.1).any fun name => (Field.ofName? name).isNone

theorem nameOf?_of_text {expected : String} {key : Node} {name : String} {n m : Nat}
    (h : d.text expected path key n = .ok (name, m)) : d.nameOf? key = some name := by
  obtain ⟨⟨target, path'⟩, k, hfollow, h⟩ := Reading.bind_eq_ok_iff.1 h
  have hname : target.scalarText? = some name := by
    cases target with
    | scalar mark anchor tag style text =>
      obtain ⟨rfl, -⟩ := Prod.mk.inj (Reading.pure_eq_ok_iff.1 h)
      rfl
    | _ => exact absurd (Reading.placedAt_eq_ok_iff.1 h) Document.mistyped_ne_ok
  cases key with
  | «alias» mark index =>
    obtain ⟨node, hnode, heq, -⟩ := Document.follow_alias_eq_ok_iff.1 hfollow
    obtain ⟨rfl, -⟩ := Prod.mk.inj heq
    rw [Document.nameOf?, hnode, Option.bind_some, hname]
  | _ =>
    obtain ⟨heq, -⟩ := Prod.mk.inj (Reading.pure_eq_ok_iff.1 hfollow)
    obtain ⟨rfl, -⟩ := Prod.mk.inj heq
    exact hname

/-- A text that was asked for as it stands is a name. -/
theorem nameOf?_of_content {key : Node} {name : String}
    (h : key.content? = some (Tree.ofText name).content) : d.nameOf? key = some name := by
  obtain ⟨mark, anchor, tag, style, rfl, -⟩ := Node.isText_of_content h
  rfl

/-- What is read of a field has the name that its node gives. -/
theorem name_of_readField {n m : Nat} (h : readField d depth path node n = .ok (x, m)) :
    d.nameOf? node.1 = some x.name ∧ isOtherField d node = x.isOther := by
  obtain ⟨name, k, hname, hread⟩ := Reading.bind_eq_ok_iff.1 h
  obtain ⟨rfl, hother⟩ := name_of_readNamed hread
  have hnode := nameOf?_of_text hname
  exact ⟨hnode, by rw [isOtherField, hnode, hother, Option.any_some]⟩

/-! ## Reading in any order -/

/-- What was read of fields with names of their own may be put in its place in any order that keeps
the fields that are not modelled in theirs. -/
theorem foldl_assign_perm {xs ys : List Assignment} (hperm : xs.Perm ys)
    (hnames : (xs.map Assignment.name).Nodup)
    (hothers : xs.filter Assignment.isOther = ys.filter Assignment.isOther) (a : Draft) :
    xs.foldl Draft.assign a = ys.foldl Draft.assign a := by
  have hcomm : ∀ {xs : List Assignment}, (xs.map Assignment.name).Nodup → ∀ x ∈ xs, ∀ y ∈ xs,
      y.isOther = false → ∀ a : Draft, (a.assign x).assign y = (a.assign y).assign x := by
    intro xs hnames x hx y hy hother a
    by_cases heq : x = y
    · rw [heq]
    · have hne : x.name ≠ y.name := fun h => heq (List.inj_on_of_nodup_map hnames hx hy h)
      exact Draft.assign_comm hne (by rw [hother, Bool.and_false]) a
  have hnames' : (ys.map Assignment.name).Nodup := (hperm.map _).nodup_iff.1 hnames
  have hmodelled : ∀ b, (xs.filter fun x => !x.isOther).foldl Draft.assign b =
      (ys.filter fun x => !x.isOther).foldl Draft.assign b := by
    refine (hperm.filter _).foldl_eq' fun x hx y hy b => ?_
    obtain ⟨hxmem, -⟩ := List.mem_filter.1 hx
    obtain ⟨hymem, hother⟩ := List.mem_filter.1 hy
    exact hcomm hnames x hxmem y hymem (by simpa using hother) b
  -- the fields that are not modelled are put behind the others, in both lists in one order
  rw [foldl_filter_of_comm (p := Assignment.isOther) (fun x hx _ y hy hother b =>
      hcomm hnames x hx y hy hother b), hmodelled, hothers,
    ← foldl_filter_of_comm (p := Assignment.isOther) (fun x hx _ y hy hother b =>
      hcomm hnames' x hx y hy hother b)]

section

variable {nodes nodes' : List (Node × Node)} {rs rs' : List (Assignment × Nat)}

theorem filterMap_nameOf?
    (h : List.Forall₂ (fun node r => readField d depth path node 0 = .ok r) nodes rs) :
    nodes.filterMap (fun node => d.nameOf? node.1) = (rs.map Prod.fst).map Assignment.name := by
  induction h with
  | nil => rfl
  | @cons node r nodes rs hr _ ih =>
    simp only [List.filterMap_cons, (name_of_readField hr).1, ih, List.map_cons]

/-- What is read of the fields that are not modelled is known from these. -/
theorem filter_isOther_eq
    (h : List.Forall₂ (fun node r => readField d depth path node 0 = .ok r) nodes rs)
    (h' : List.Forall₂ (fun node r => readField d depth path node 0 = .ok r) nodes' rs')
    (hothers : nodes.filter (isOtherField d) = nodes'.filter (isOtherField d)) :
    (rs.map Prod.fst).filter Assignment.isOther = (rs'.map Prod.fst).filter Assignment.isOther := by
  have hfilter : ∀ {nodes : List (Node × Node)} {rs : List (Assignment × Nat)},
      List.Forall₂ (fun node r => readField d depth path node 0 = .ok r) nodes rs →
        List.Forall₂ (fun node r => readField d depth path node 0 = .ok r)
          (nodes.filter (isOtherField d)) (rs.filter fun r => r.1.isOther) := by
    intro nodes rs hrs
    refine List.rel_filter (fun node r hr => ?_) hrs
    exact iff_of_eq (congrArg (· = true) (name_of_readField hr).2)
  have hunique : Relator.RightUnique fun node r => readField d depth path node 0 = .ok r :=
    fun _ _ _ hr hr' => Except.ok.inj (hr.symm.trans hr')
  have heq : rs.filter (fun r => r.1.isOther) = rs'.filter fun r => r.1.isOther :=
    hunique.forall₂ (hfilter h) (hothers ▸ hfilter h')
  rw [List.filter_map, List.filter_map]
  exact congrArg (List.map Prod.fst) heq

theorem readFields_of_perm (hperm : nodes.Perm nodes')
    (hnames : (nodes.filterMap fun node => d.nameOf? node.1).Nodup)
    (hothers : nodes.filter (isOtherField d) = nodes'.filter (isOtherField d)) {a b : Draft}
    {n m : Nat} (h : readFields d depth path a nodes n = .ok (b, m)) :
    readFields d depth path a nodes' n = .ok (b, m) := by
  obtain ⟨rs, hrs, rfl, rfl, hkeeps⟩ := readFields_eq_ok_iff.1 h
  obtain ⟨rs', hrs', hperm'⟩ := List.perm_comp_forall₂ hperm.symm hrs
  -- the aliases count in any order
  have hsum : (rs'.map Prod.snd).sum = (rs.map Prod.snd).sum := (hperm'.map _).sum_eq
  refine readFields_eq_ok_iff.2 ⟨rs', hrs', ?_, by rw [hsum], by rwa [hsum]⟩
  rw [filterMap_nameOf? hrs] at hnames
  exact foldl_assign_perm (hperm'.symm.map _) hnames (filter_isOther_eq hrs hrs' hothers) a

/-- Fields with names of their own may be read in any order that keeps those that are not modelled
in theirs. -/
theorem readFields_perm (hperm : nodes.Perm nodes')
    (hnames : (nodes.filterMap fun node => d.nameOf? node.1).Nodup)
    (hothers : nodes.filter (isOtherField d) = nodes'.filter (isOtherField d)) {a b : Draft}
    {n m : Nat} : readFields d depth path a nodes n = .ok (b, m) ↔
      readFields d depth path a nodes' n = .ok (b, m) :=
  ⟨readFields_of_perm hperm hnames hothers,
    readFields_of_perm hperm.symm ((hperm.filterMap _).nodup_iff.1 hnames) hothers.symm⟩

end

/-! ## Writing in one order -/

/-- The names of the fields that are written, in order. -/
def fieldNames (e : Entry) : List String :=
  (Field.front.filter e.isWritten).map Field.name ++ e.extra.keys ++
    (Field.back.filter e.isWritten).map Field.name

variable {e : Entry}

theorem map_fst_parts (e : Entry) : e.parts.map Prod.fst = e.fieldNames := by
  have hmodelled : ∀ fs : List Field,
      (e.modelledParts fs).map Prod.fst = (fs.filter e.isWritten).map Field.name := by
    intro fs
    rw [modelledParts, List.map_map]
    rfl
  have hextra : (e.extra.pairs.map fun p => (p.1, Part.value p.2)).map Prod.fst = e.extra.keys := by
    rw [List.map_map]
    rfl
  rw [parts, List.map_append, List.map_append, hmodelled, hmodelled, hextra, fieldNames]

/-- No field is written twice. -/
theorem nodup_fieldNames (hname : ∀ f : Field, f.name ∉ e.extra.keys) : e.fieldNames.Nodup := by
  have hinj : Function.Injective Field.name := by
    intro f g h
    have hname := congrArg Field.ofName? h
    rw [Field.ofName?_name, Field.ofName?_name] at hname
    exact Option.some.inj hname
  have hmodelled : ∀ {fs : List Field}, fs.Nodup → ((fs.filter e.isWritten).map Field.name).Nodup :=
    fun h => (h.filter _).map hinj
  have hextra : ∀ {fs : List Field}, ∀ name ∈ (fs.filter e.isWritten).map Field.name,
      name ∉ e.extra.keys := by
    intro fs name hmem
    obtain ⟨f, -, rfl⟩ := List.mem_map.1 hmem
    exact hname f
  have hapart : ∀ name ∈ (Field.front.filter e.isWritten).map Field.name,
      name ∉ (Field.back.filter e.isWritten).map Field.name := by
    intro name hfront hback
    obtain ⟨f, hf, rfl⟩ := List.mem_map.1 hfront
    obtain ⟨g, hg, heq⟩ := List.mem_map.1 hback
    obtain rfl := hinj heq
    have hdisjoint : ∀ f ∈ Field.front, f ∉ Field.back := by decide
    exact hdisjoint g (List.mem_filter.1 hf).1 (List.mem_filter.1 hg).1
  rw [fieldNames, List.nodup_append', List.nodup_append']
  refine ⟨⟨hmodelled (by decide), e.extra.distinct, fun name h => hextra name h⟩,
    hmodelled (by decide), fun name h hback => ?_⟩
  rcases List.mem_append.1 h with hfront | hkeys
  · exact hapart name hfront hback
  · exact hextra name hback hkeys

/-- The fields that are written, one by one. -/
theorem trees?_eq_some_iff {ts : List (Tree × Tree)} : e.trees? = some ts ↔
    List.Forall₂ (fun p t => t.1 = Tree.ofText p.1 ∧ p.2.tree? = some t.2) e.parts ts := by
  have hfield : ∀ (p : String × Part) (t : Tree × Tree),
      fieldTree? p = some t ↔ t.1 = Tree.ofText p.1 ∧ p.2.tree? = some t.2 := by
    rintro p ⟨name, t⟩
    rw [fieldTree?, Option.map_eq_some_iff]
    constructor
    · rintro ⟨t', htree, heq⟩
      obtain ⟨rfl, rfl⟩ := Prod.mk.inj heq
      exact ⟨rfl, htree⟩
    · rintro ⟨rfl, htree⟩
      exact ⟨t, htree, rfl⟩
  simp only [trees?_eq_mapM, mapM_eq_some_iff, hfield]

/-- **Fields may come in any order**: fields with names of their own are read as the same entry in
any order that keeps those that are not modelled in theirs, or in none of these orders.  An entry is
written in one order: its fields are the version, the other modelled ones of those in front, those
that are not modelled, and the modelled ones behind them, no field comes twice if the entry was
read, and ranges come in the order of their names.  So whatever the order was in which an entry was
read, its text is one. -/
theorem read_field_order :
    (∀ (d : Document) (depth : Nat) (path : Path) (mark : Mark) (anchor : Option Nat)
      (tag : Option Tag) (nodes nodes' : List (Node × Node)), nodes.Perm nodes' →
        (nodes.filterMap fun node => d.nameOf? node.1).Nodup →
          nodes.filter (isOtherField d) = nodes'.filter (isOtherField d) →
            ∀ (n : Nat) (r : Entry × Nat), read d depth path (.mapping mark anchor tag nodes) n = .ok r ↔
              read d depth path (.mapping mark anchor tag nodes') n = .ok r) ∧
      (∀ (d : Document) (depth : Nat) (path : Path) (node : Node) (n : Nat) (e : Entry) (m : Nat),
        read d (depth + 1) path node n = .ok (e, m) → e.fieldNames.Nodup) ∧
      (∀ e : Entry, e.parts.map Prod.fst = e.fieldNames ∧
        ∀ ts, e.trees? = some ts ↔
          List.Forall₂ (fun p t => t.1 = Tree.ofText p.1 ∧ p.2.tree? = some t.2) e.parts ts) ∧
      ∀ e : Entry, ∀ p ∈ e.parts, ∀ r : Ranges, p.2 = .ranges r →
        (r.pairs.map Prod.fst).Pairwise (· < ·) := by
  refine ⟨fun d depth path mark anchor tag nodes nodes' hperm hnames hothers n r => ?_,
    fun d depth path node n e m h => nodup_fieldNames (hasNodes_of_read h).1,
    fun e => ⟨map_fst_parts e, fun ts => trees?_eq_some_iff⟩,
    fun e p _ r _ => List.pairwise_map.2 r.ascending⟩
  simp only [read_mapping_eq_ok_iff, readFields_perm hperm hnames hothers]

/-- Fields with plain texts. -/
def plainFields (fields : List (String × String)) : List (Node × Node) :=
  fields.map fun p => (.scalar .start none none .plain p.1, .scalar .start none none .plain p.2)

/-- A version behind the checksum is read as in front of it. -/
theorem read_field_order_jumbled :
    read .malformed 2 .root (.mapping .start none none
      (plainFields [("checksum", "2"), ("Version", "yes"), ("version", "1"), ("bin", "x")])) 0 =
        .ok (⟨"1", "", "", "", .empty, .empty, .empty,
          .ofList [("Version", .string "yes"), ("bin", .string "x")], "2", "", "", ""⟩, 0) := by
  have hperm : [("checksum", "2"), ("Version", "yes"), ("version", "1"), ("bin", "x")].Perm
      [("version", "1"), ("Version", "yes"), ("bin", "x"), ("checksum", "2")] := by
    decide
  obtain ⟨hread, -⟩ := read_field_order
  exact (hread .malformed 2 .root .start none none _ _ (hperm.map _) (by decide) rfl 0 _).2 rfl

end Entry

end LockPrune
