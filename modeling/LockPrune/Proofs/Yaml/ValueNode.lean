import LockPrune.Proofs.Yaml.ValueReading

/-!
# Values as nodes

Every value that is read has a node of its own, whether the value can be written as text or not: a
scalar stands for itself, with quotes if it is a text, and a tag stands on the node behind it.  So a
value may have many tags, but none right behind another.

## Main definitions

* `Value.SinglyTagged` — no tag has another right behind it.
* `Value.node` — the node of a value.

## Main statements

* `Document.singlyTagged_of_value` — what is read has no tag right behind another.
* `Document.value_node` — a value that a document can hold is read from its node.
-/

namespace LockPrune.Yaml

namespace Value

/-! ## Tags -/

/-- The value has a tag in front. -/
def isTagged : Value → Bool
  | .tagged _ _ => true
  | _ => false

/-- No tag has another right behind it. -/
inductive SinglyTagged : Value → Prop
  | null : SinglyTagged .null
  | bool {b : Bool} : SinglyTagged (.bool b)
  | number {n : Number} : SinglyTagged (.number n)
  | string {s : String} : SinglyTagged (.string s)
  | sequence {items : List Value} (h : ∀ v ∈ items, SinglyTagged v) : SinglyTagged (.sequence items)
  | mapping {entries : List (Value × Value)} (hkey : ∀ e ∈ entries, SinglyTagged e.1)
    (hvalue : ∀ e ∈ entries, SinglyTagged e.2) : SinglyTagged (.mapping entries)
  | tagged {name : String} {v : Value} (h : SinglyTagged v) (hbare : v.isTagged = false) :
    SinglyTagged (.tagged name v)

/-! ## Nodes -/

/-- A tag with a given name.  Of two exclamation marks at the front the second does not count, so
that the name may begin with one. -/
def tagNamed (name : String) : Tag :=
  ⟨33 :: 33 :: Sink.octets name.toList⟩

mutual

/-- The node of a value, with a tag if the value has none. -/
def nodeWith (tag : Option Tag) : Value → Node
  | .null => .scalar .start none tag .plain "null"
  | .bool b => .scalar .start none tag .plain (if b then "true" else "false")
  | .number n => .scalar .start none tag .plain n.text
  | .string s => .scalar .start none tag .double s
  | .sequence items => .sequence .start none tag (itemNodes items)
  | .mapping entries => .mapping .start none tag (entryNodes entries)
  | .tagged name v => v.nodeWith (some (tagNamed name))
termination_by structural v => v

/-- The nodes of the items of a sequence. -/
def itemNodes : List Value → List Node
  | [] => []
  | v :: vs => v.nodeWith none :: itemNodes vs
termination_by structural vs => vs

/-- The nodes of the entries of a mapping. -/
def entryNodes : List (Value × Value) → List (Node × Node)
  | [] => []
  | (k, v) :: rest => (k.nodeWith none, v.nodeWith none) :: entryNodes rest
termination_by structural es => es

end

/-- The node of a value. -/
def node (v : Value) : Node :=
  v.nodeWith none

end Value

namespace Document

variable {d : Document} {depth : Nat} {path : Path} {k k' : Nat} {v : Value}

/-! ## What is read -/

theorem singlyTagged_of_scalarValue {tag : Option Tag} {style : Style} {text : String}
    (h : scalarValue tag style text k = .ok (v, k')) : v.SinglyTagged ∧ v.isTagged = false := by
  rw [scalarValue] at h
  cases hm : Meaning.ofScalar tag style text with
  | error what => rw [hm] at h; exact absurd h Reading.fail_ne_ok
  | ok m =>
    rw [hm] at h
    cases m with
    | wide i => exact absurd h (Reading.fail_ne_ok (k := k))
    | _ =>
      obtain ⟨rfl, -⟩ := Prod.mk.inj (Reading.pure_eq_ok_iff.1 h)
      exact ⟨by constructor, rfl⟩

theorem singlyTagged_of_ownValue {tag : Option Tag} {style : Style} {text : String}
    (h : ownValue tag style text k = .ok (v, k')) : v.SinglyTagged := by
  rw [ownValue] at h
  cases hname : localName tag with
  | some name =>
    rw [hname] at h
    obtain ⟨inner, k₁, hinner, heq⟩ := Reading.map_eq_ok_iff.1 h
    obtain ⟨rfl, -⟩ := Prod.mk.inj heq
    obtain ⟨hone, hbare⟩ := singlyTagged_of_scalarValue hinner
    exact .tagged hone hbare
  | none =>
    rw [hname] at h
    exact (singlyTagged_of_scalarValue h).1

theorem singlyTagged_keepTag {tag : Option Tag} (h : v.SinglyTagged) (hbare : v.isTagged = false) :
    (keepTag tag v).SinglyTagged := by
  rw [keepTag]
  split
  · exact .tagged h hbare
  · exact h

/-- What is read has no tag right behind another. -/
theorem singlyTagged_of_value {n : Node} (h : d.value depth path n k = .ok (v, k')) :
    v.SinglyTagged := by
  refine value_induction (P := fun _ _ v => v.SinglyTagged) ?scalar ?sequence ?mapping ?void
    ⟨path, k, k', h⟩
  case scalar => exact fun _ h => singlyTagged_of_ownValue h
  case sequence =>
    intro depth n mark anchor tag nodes vs _ hvs
    refine singlyTagged_keepTag (.sequence fun v hv => ?_) rfl
    obtain ⟨_, -, hone⟩ := exists_mem_left hvs hv
    exact hone
  case mapping =>
    intro depth n mark anchor tag nodes es _ _ hes
    refine singlyTagged_keepTag (.mapping (fun e he => ?_) fun e he => ?_) rfl
    · obtain ⟨_, -, hkey, -⟩ := exists_mem_left hes he
      exact hkey
    · obtain ⟨_, -, -, hvalue⟩ := exists_mem_left hes he
      exact hvalue
  case void => exact fun _ => .null

/-! ## Reading the node of a value -/

/-- The name of a tag may begin with an exclamation mark. -/
theorem localName_tagNamed {name : String} (hne : name ≠ "") :
    localName (some (Value.tagNamed name)) = some name := by
  obtain ⟨c, cs, hcs⟩ := List.exists_cons_of_ne_nil (mt String.toList_eq_nil_iff.1 hne)
  have hoctets : Sink.octets ('!' :: name.toList) = 33 :: Sink.octets name.toList := rfl
  have hlocal : (Value.tagNamed name).local? = some (.ofList ('!' :: name.toList)) := by
    rw [← Sink.fromUTF8?_octets, hoctets]
    rfl
  rw [localName, Option.bind_some, hlocal, Option.map_some, String.toList_ofList, hcs]
  change some (String.ofList (c :: cs)) = some name
  rw [← hcs, String.ofList_toList]

/-- A reader reads the node of a value as the value. -/
def ReadsNode (read : Path → Node → Reading Value) (v : Value) : Prop :=
  ∀ path k, read path (v.nodeWith none) k = .ok (v, k)

theorem items_itemNodes {read : Path → Node → Reading Value} {vs : List Value}
    (h : ∀ v ∈ vs, ReadsNode read v) (path : Path) (i k : Nat) :
    items read path i (Value.itemNodes vs) k = .ok (vs, k) := by
  induction vs generalizing i with
  | nil => rfl
  | cons v vs ih =>
    rw [List.forall_mem_cons] at h
    rw [Value.itemNodes, items, Reading.bind_of_ok (h.1 _ k), Reading.bind_of_ok (ih h.2 (i + 1))]
    rfl

theorem entries_entryNodes {read : Path → Node → Reading Value} {es before : List (Value × Value)}
    (h : ∀ e ∈ es, ReadsNode read e.1 ∧ ReadsNode read e.2)
    (hdistinct : (before ++ es).Pairwise fun a b => a.1.same b.1 = false) (path : Path) (k : Nat) :
    entries read path before (Value.entryNodes es) k = .ok (before ++ es, k) := by
  induction es generalizing before with
  | nil =>
    rw [List.append_nil]
    rfl
  | cons e es ih =>
    obtain ⟨key, v⟩ := e
    rw [List.forall_mem_cons] at h
    have hfresh : (before.any fun entry => entry.1.same key) = false := by
      rw [List.any_eq_false]
      intro entry hentry
      simpa using (List.pairwise_append.1 hdistinct).2.2 entry hentry (key, v) List.mem_cons_self
    have hrest : before ++ [(key, v)] ++ es = before ++ (key, v) :: es := by simp
    obtain ⟨⟨hkey, hvalue⟩, hall⟩ := h
    rw [Value.entryNodes, entries, Reading.bind_of_ok (hkey path k), hfresh,
      if_neg Bool.false_ne_true, Reading.bind_of_ok (hvalue _ k), ih hall (hrest ▸ hdistinct),
        hrest]

/-- A value without a tag takes the tag that stands on its node. -/
theorem value_nodeWith (hv : v.IsHeld depth) (hone : v.SinglyTagged) {tag : Option Tag}
    (htag : IsOwnTag tag) (hbare : tag = none ∨ v.isTagged = false) (path : Path) (k : Nat) :
    d.value depth path (v.nodeWith tag) k = .ok (keepTag tag v, k) := by
  induction hv generalizing tag path k with
  | null => exact value_scalar (n := .scalar .start none tag .plain "null") rfl htag rfl
  | @bool depth b =>
    refine value_scalar (n := .scalar .start none tag .plain (if b then "true" else "false")) rfl
      htag ?_
    cases b <;> rfl
  | @number depth num hnum =>
    refine value_scalar (n := .scalar .start none tag .plain num.text) rfl htag ?_
    rw [decide_eq_true rfl, if_pos rfl, Meaning.ofPlain_text hnum]
    cases num <;> rfl
  | @string depth s => exact value_scalar (n := .scalar .start none tag .double s) rfl htag rfl
  | @sequence depth items h ih =>
    have hitems : ∀ v ∈ items, ReadsNode (d.value depth) v := by
      cases hone with
      | sequence hone => exact fun v hv path k => ih v hv (hone v hv) (.inl rfl) (.inl rfl) path k
    have hread : d.value (depth + 1) path (.sequence .start none tag (Value.itemNodes items)) k =
        Reading.placedAt .start path ((fun vs => keepTag tag (Value.sequence vs)) <$>
          Document.items (d.value depth) path 0 (Value.itemNodes items)) k := rfl
    rw [Value.nodeWith, hread, Reading.placedAt_eq_ok_iff, Reading.map_eq_ok_iff]
    exact ⟨items, k, items_itemNodes hitems path 0 k, rfl⟩
  | @mapping depth es distinct hkey hvalue ihkey ihvalue =>
    have hentries : ∀ e ∈ es, ReadsNode (d.value depth) e.1 ∧ ReadsNode (d.value depth) e.2 := by
      cases hone with
      | mapping hkeys hvalues =>
        exact fun e he => ⟨fun path k => ihkey e he (hkeys e he) (.inl rfl) (.inl rfl) path k,
          fun path k => ihvalue e he (hvalues e he) (.inl rfl) (.inl rfl) path k⟩
    have hread : d.value (depth + 1) path (.mapping .start none tag (Value.entryNodes es)) k =
        Reading.placedAt .start path ((fun es => keepTag tag (Value.mapping es)) <$>
          entries (d.value depth) path [] (Value.entryNodes es)) k := rfl
    rw [Value.nodeWith, hread, Reading.placedAt_eq_ok_iff, Reading.map_eq_ok_iff]
    rw [← List.nil_append es] at distinct
    exact ⟨es, k, entries_entryNodes hentries distinct path k, rfl⟩
  | @tagged depth name v hname h ih =>
    obtain rfl : tag = none := hbare.resolve_right (by simp [Value.isTagged])
    have hlocal := localName_tagNamed hname
    cases hone with
    | tagged hone hinner =>
      have hvalue := ih hone (.inr ⟨name, hlocal⟩) (.inr hinner) path k
      rw [Value.nodeWith, hvalue, keepTag, hlocal]
      rfl

/-- A value that a document can hold is read from its node. -/
theorem value_node (hv : v.IsHeld depth) (hone : v.SinglyTagged) (path : Path) (k : Nat) :
    d.value depth path v.node k = .ok (v, k) :=
  value_nodeWith hv hone (.inl rfl) (.inl rfl) path k

end Document

end LockPrune.Yaml
