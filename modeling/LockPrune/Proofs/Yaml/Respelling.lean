import LockPrune.Proofs.Yaml.ReadValue
import LockPrune.Proofs.Yaml.ValueReading

/-!
# Values written again

A value does not know how it was spelled.  What is written of it has the tags of the document's own
and the texts in quotes as they stood, and in the place of every plain scalar the one spelling of
what that scalar means.

## Main definitions

* `Document.said?` — what a node says, with what its aliases stand for.
* `Content.respelled` — what is written of the value of a content.
* `Content.scalars` — the scalars in a content, in order.

## Main statements

* `Document.respells_of_value` — the tree of a value that was read says what the node said,
  respelled.
* `Content.scalars_respelled` — the scalars are respelled one by one.
* `Content.respelled_untagged` — the text of a scalar without a tag.
-/

namespace LockPrune.Yaml

open Scalar

/-! ## Spellings -/

namespace Meaning

/-- The text that is written of a meaning. -/
def spelling : Meaning → String
  | .null => "null"
  | .bool b => if b then "true" else "false"
  | .integer i => (Number.integer i).text
  | .wide i => (Number.integer i).text
  | .float x => (Number.float x).text
  | .text s => s

/-- What is written of a meaning stands without quotes. -/
def isBare : Meaning → Bool
  | .text s => Tree.isPlainScalar (wanted s) s
  | _ => true

/-- A plain scalar that means a text is written as it stood. -/
theorem spelling_ofPlain {s x : String} (h : ofPlain s = .text x) : (ofPlain s).spelling = s := by
  rw [h, spelling, ofPlain_eq_text h]

/-- Of the style of a scalar it counts only whether it is plain. -/
theorem ofScalar_congr {style style' : Style} (h : style = .plain ↔ style' = .plain)
    (tag : Option Tag) (s : String) : ofScalar tag style s = ofScalar tag style' s := by
  simp only [ofScalar, h]

end Meaning

namespace Content

/-- The meaning of a scalar, behind a tag of the document's own. -/
def meaning (tag : Option Tag) (isPlain : Bool) (text : String) : Meaning :=
  let tag := if (Document.localName tag).isSome then none else tag
  match Meaning.ofScalar tag (if isPlain then .plain else .double) text with
  | .ok m => m
  | .error _ => .text text

/-- The tag that is written for a tag: none, unless it is of the document's own. -/
def keptTag (tag : Option Tag) : Option Tag :=
  (Document.localName tag).map fun name => Tag.ofText (Value.tagText name)

mutual

/-- What is written of the value of a content. -/
def respelled : Content → Content
  | .scalar tag isPlain text =>
    .scalar (keptTag tag) (meaning tag isPlain text).isBare (meaning tag isPlain text).spelling
  | .sequence tag items => .sequence (keptTag tag) (respelledItems items)
  | .mapping tag entries => .mapping (keptTag tag) (respelledEntries entries)
termination_by structural c => c

/-- What is written of the items of a sequence. -/
def respelledItems : List Content → List Content
  | [] => []
  | c :: cs => c.respelled :: respelledItems cs
termination_by structural cs => cs

/-- What is written of the entries of a mapping. -/
def respelledEntries : List (Content × Content) → List (Content × Content)
  | [] => []
  | (k, v) :: cs => (k.respelled, v.respelled) :: respelledEntries cs
termination_by structural cs => cs

end

mutual

/-- The scalars in a content, in order. -/
def scalars : Content → List Content
  | .scalar tag isPlain text => [.scalar tag isPlain text]
  | .sequence _ items => itemScalars items
  | .mapping _ entries => entryScalars entries
termination_by structural c => c

/-- The scalars in the items of a sequence. -/
def itemScalars : List Content → List Content
  | [] => []
  | c :: cs => c.scalars ++ itemScalars cs
termination_by structural cs => cs

/-- The scalars in the entries of a mapping. -/
def entryScalars : List (Content × Content) → List Content
  | [] => []
  | (k, v) :: cs => k.scalars ++ v.scalars ++ entryScalars cs
termination_by structural cs => cs

end

mutual

/-- The scalars are respelled one by one. -/
theorem scalars_respelled (c : Content) : c.respelled.scalars = c.scalars.map respelled := by
  match c with
  | .scalar tag isPlain text => simp only [respelled, scalars, List.map_cons, List.map_nil]
  | .sequence tag items =>
    rw [respelled, scalars, scalars]
    exact itemScalars_respelled items
  | .mapping tag entries =>
    rw [respelled, scalars, scalars]
    exact entryScalars_respelled entries
termination_by structural c

theorem itemScalars_respelled (cs : List Content) :
    itemScalars (respelledItems cs) = (itemScalars cs).map respelled := by
  match cs with
  | [] => rfl
  | c :: cs =>
    rw [respelledItems, itemScalars, itemScalars, List.map_append, scalars_respelled c,
      itemScalars_respelled cs]
termination_by structural cs

theorem entryScalars_respelled (cs : List (Content × Content)) :
    entryScalars (respelledEntries cs) = (entryScalars cs).map respelled := by
  match cs with
  | [] => rfl
  | (k, v) :: cs =>
    rw [respelledEntries, entryScalars, entryScalars, List.map_append, List.map_append,
      scalars_respelled k, scalars_respelled v, entryScalars_respelled cs]
termination_by structural cs

end

/-- A scalar without a tag has none afterwards, and the text that it had if it stood in quotes; a
plain one has the spelling of its meaning. -/
theorem respelled_untagged (isPlain : Bool) (text : String) : ∃ isPlain',
    (Content.scalar none isPlain text).respelled =
      .scalar none isPlain' (if isPlain then (Meaning.ofPlain text).spelling else text) := by
  refine ⟨(meaning none isPlain text).isBare, ?_⟩
  have hmeaning : meaning none isPlain text =
      if isPlain then Meaning.ofPlain text else .text text := by
    cases isPlain <;> rfl
  rw [respelled, hmeaning]
  cases isPlain <;> rfl

end Content

/-! ## What nodes say -/

namespace Document

/-- What the key and the value of an entry say. -/
def saidPair? (said : Node → Option Content) (e : Node × Node) : Option (Content × Content) :=
  (said e.1).bind fun key => (said e.2).map fun value => (key, value)

/-- What a node says, from what the nodes inside it do.  Nothing at all is as good as an empty
scalar. -/
def saidFrom? (said : Node → Option Content) : Node → Option Content
  | .scalar _ _ tag style text => some (.scalar tag (style = .plain) text)
  | .sequence _ _ tag items => (items.mapM said).map (.sequence tag)
  | .mapping _ _ tag entries => (entries.mapM (saidPair? said)).map (.mapping tag)
  | .void _ => some (.scalar none true "")
  | .alias .. => none
  | .cut => none

/-- What a node says, with what its aliases stand for, inside some collections at most. -/
def said? (d : Document) : Nat → Node → Option Content
  | 0, n => (d.meant? n).bind (saidFrom? fun _ => none)
  | depth + 1, n => (d.meant? n).bind (saidFrom? (d.said? depth))

variable {d : Document} {depth k k' : Nat} {v : Value}

/-! ## Values that were read -/

/-- The tree of a tagged value is that of the value, with the tag in front. -/
theorem treeWith?_keepTag (tag : Option Tag) (v : Value) :
    (keepTag tag v).treeWith? none = v.treeWith? ((localName tag).map Value.tagText) := by
  rw [keepTag]
  cases localName tag with
  | none => rfl
  | some name =>
    change (Value.tagged name v).treeWith? none = _
    rw [Value.treeWith?, Option.isSome_none, if_neg Bool.false_ne_true, Option.map_some]

theorem isPlainScalar_text (n : Number) : Tree.isPlainScalar .plain n.text = true := by
  rw [Tree.isPlainScalar, n.isNumeral_text.plainAdmitted]
  rfl

/-- The tree of the value of a meaning is its spelling. -/
theorem tree_of_valueOf {m : Meaning} (h : valueOf m k = .ok (v, k')) (tag : Option String) :
    ∃ style, v.treeWith? tag = some (.scalar tag style m.spelling) ∧
      Tree.isPlainScalar style m.spelling = m.isBare := by
  cases m with
  | wide i => exact absurd h (Reading.fail_ne_ok (k := k))
  | null =>
    obtain ⟨rfl, -⟩ := Prod.mk.inj (Reading.pure_eq_ok_iff.1 h)
    exact ⟨.plain, by rw [Value.treeWith?, Meaning.spelling], by decide⟩
  | bool b =>
    obtain ⟨rfl, -⟩ := Prod.mk.inj (Reading.pure_eq_ok_iff.1 h)
    exact ⟨.plain, by rw [Value.treeWith?, Meaning.spelling], by cases b <;> decide⟩
  | integer i =>
    obtain ⟨rfl, -⟩ := Prod.mk.inj (Reading.pure_eq_ok_iff.1 h)
    exact ⟨.plain, by rw [Value.treeWith?, Meaning.spelling], isPlainScalar_text _⟩
  | float x =>
    obtain ⟨rfl, -⟩ := Prod.mk.inj (Reading.pure_eq_ok_iff.1 h)
    exact ⟨.plain, by rw [Value.treeWith?, Meaning.spelling], isPlainScalar_text _⟩
  | text s =>
    obtain ⟨rfl, -⟩ := Prod.mk.inj (Reading.pure_eq_ok_iff.1 h)
    exact ⟨wanted s, by rw [Value.treeWith?, Meaning.spelling], rfl⟩

/-- What was read of a scalar is the value of its meaning, with its tag. -/
theorem exists_valueOf_of_ownValue {tag : Option Tag} {style : Style} {text : String}
    (h : ownValue tag style text k = .ok (v, k')) : ∃ w j j',
      v = keepTag tag w ∧ valueOf (Content.meaning tag (style = .plain) text) j = .ok (w, j') := by
  have hstyle : ∀ tag, Meaning.ofScalar tag (if decide (style = .plain) then .plain else .double)
      text = Meaning.ofScalar tag style text := by
    refine fun tag => Meaning.ofScalar_congr ?_ tag text
    by_cases hplain : style = .plain <;> simp [hplain]
  have hscalar : ∀ {tag w k k'}, scalarValue tag style text k = .ok (w, k') →
      ∃ m, Meaning.ofScalar tag style text = .ok m ∧ valueOf m k = .ok (w, k') := by
    intro tag w k k' h
    rw [scalarValue] at h
    cases hm : Meaning.ofScalar tag style text with
    | ok m => exact ⟨m, rfl, by rwa [hm] at h⟩
    | error what =>
      rw [hm] at h
      exact absurd h Reading.fail_ne_ok
  rw [ownValue] at h
  cases hname : localName tag with
  | some name =>
    rw [hname] at h
    obtain ⟨w, j, hw, heq⟩ := Reading.map_eq_ok_iff.1 h
    obtain ⟨rfl, -⟩ := Prod.mk.inj heq
    obtain ⟨m, hm, hvalue⟩ := hscalar hw
    refine ⟨w, k, j, by rw [keepTag, hname], ?_⟩
    rw [Content.meaning, hname, Option.isSome_some, if_pos rfl, hstyle, hm]
    exact hvalue
  | none =>
    rw [hname] at h
    obtain ⟨m, hm, hvalue⟩ := hscalar h
    refine ⟨v, k, k', by rw [keepTag, hname], ?_⟩
    rw [Content.meaning, hname, Option.isSome_none, if_neg Bool.false_ne_true, hstyle, hm]
    exact hvalue

/-- The node says something, and the tree of the value, if there is one, says it respelled. -/
def Respells (d : Document) (depth : Nat) (n : Node) (v : Value) : Prop :=
  ∃ c, d.said? depth n = some c ∧ ∀ t, v.tree? = some t → t.content = c.respelled

theorem said?_of_meant {n node : Node} {c : Content} (hmeant : d.meant? n = some node)
    (h : ∀ said, saidFrom? said node = some c) : d.said? depth n = some c := by
  cases depth <;> rw [said?, hmeant, Option.bind_some, h]

theorem exists_items_of_respells {nodes : List Node} {vs : List Value}
    (h : List.Forall₂ (d.Respells depth) nodes vs) :
    ∃ cs, nodes.mapM (d.said? depth) = some cs ∧ ∀ ts, Value.itemTrees? vs = some ts →
      Tree.itemContents ts = Content.respelledItems cs := by
  induction h with
  | nil =>
    refine ⟨[], rfl, fun ts hts => ?_⟩
    obtain rfl : [] = ts := by simpa [Value.itemTrees?] using hts
    rfl
  | @cons n v nodes vs hn _ ih =>
    obtain ⟨c, hc, htree⟩ := hn
    obtain ⟨cs, hcs, htrees⟩ := ih
    refine ⟨c :: cs, ?_, fun ts hts => ?_⟩
    · rw [List.mapM_cons, hc, hcs]
      rfl
    · rw [Value.itemTrees?] at hts
      split at hts
      · rename_i t ts' ht hts'
        obtain rfl := Option.some.inj hts
        rw [Tree.itemContents, Content.respelledItems, htree t ht, htrees ts' hts']
      · cases hts

theorem exists_entries_of_respells {nodes : List (Node × Node)} {es : List (Value × Value)}
    (h : List.Forall₂ (fun n e => d.Respells depth n.1 e.1 ∧ d.Respells depth n.2 e.2) nodes es) :
    ∃ cs, nodes.mapM (saidPair? (d.said? depth)) = some cs ∧ ∀ ts, Value.entryTrees? es = some ts →
      Tree.entryContents ts = Content.respelledEntries cs := by
  induction h with
  | nil =>
    refine ⟨[], rfl, fun ts hts => ?_⟩
    obtain rfl : [] = ts := by simpa [Value.entryTrees?] using hts
    rfl
  | @cons n e nodes es hn _ ih =>
    obtain ⟨key, v⟩ := e
    obtain ⟨⟨a, ha, hkey⟩, b, hb, hvalue⟩ := hn
    obtain ⟨cs, hcs, htrees⟩ := ih
    refine ⟨(a, b) :: cs, ?_, fun ts hts => ?_⟩
    · rw [List.mapM_cons, saidPair?, ha, hb, hcs]
      rfl
    · rw [Value.entryTrees?] at hts
      split at hts
      · rename_i kt vt ts' hkt hvt hts'
        obtain rfl := Option.some.inj hts
        rw [Tree.entryContents, Content.respelledEntries, hkey kt hkt, hvalue vt hvt,
          htrees ts' hts']
      · cases hts

/-- The tree of a value that was read says what the node said, respelled. -/
theorem respells_of_value {n : Node} (h : Gives (d.value depth) n v) : d.Respells depth n v := by
  refine value_induction (P := d.Respells) ?scalar ?sequence ?mapping ?void h
  case scalar =>
    intro depth n mark anchor tag style text v k k' hmeant hv
    obtain ⟨w, j, j', rfl, hw⟩ := exists_valueOf_of_ownValue hv
    obtain ⟨style', htree, hplain⟩ := tree_of_valueOf hw ((localName tag).map Value.tagText)
    refine ⟨_, said?_of_meant hmeant fun _ => rfl, fun t ht => ?_⟩
    rw [Value.tree?, treeWith?_keepTag, htree] at ht
    obtain rfl := Option.some.inj ht
    rw [Tree.content, Content.respelled, hplain, Option.map_map]
    rfl
  case sequence =>
    intro depth n mark anchor tag nodes vs hmeant hvs
    obtain ⟨cs, hcs, htrees⟩ := exists_items_of_respells hvs
    refine ⟨.sequence tag cs, ?_, fun t ht => ?_⟩
    · rw [said?, hmeant, Option.bind_some]
      exact congrArg (Option.map (Content.sequence tag)) hcs
    · rw [Value.tree?, treeWith?_keepTag, Value.treeWith?, Option.map_eq_some_iff] at ht
      obtain ⟨ts, hts, rfl⟩ := ht
      rw [Tree.content, Content.respelled, htrees ts hts, Option.map_map]
      rfl
  case mapping =>
    intro depth n mark anchor tag nodes es hmeant _ hes
    obtain ⟨cs, hcs, htrees⟩ := exists_entries_of_respells hes
    refine ⟨.mapping tag cs, ?_, fun t ht => ?_⟩
    · rw [said?, hmeant, Option.bind_some]
      exact congrArg (Option.map (Content.mapping tag)) hcs
    · rw [Value.tree?, treeWith?_keepTag, Value.treeWith?] at ht
      split at ht
      · cases ht
      · obtain ⟨ts, hts, rfl⟩ := Option.map_eq_some_iff.1 ht
        rw [Tree.content, Content.respelled, htrees ts hts, Option.map_map]
        rfl
  case void =>
    intro depth n mark hmeant
    refine ⟨_, said?_of_meant hmeant fun _ => rfl, fun t ht => ?_⟩
    obtain rfl : Tree.scalar none .plain "null" = t := by
      simpa [Value.tree?, Value.treeWith?] using ht
    rfl

end Document

end LockPrune.Yaml
