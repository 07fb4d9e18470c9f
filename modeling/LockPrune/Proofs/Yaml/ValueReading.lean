import LockPrune.Proofs.Text.Octets
import LockPrune.Proofs.Yaml.HeldValue
import LockPrune.Proofs.Yaml.ValueTree

/-!
# Values read back

A value that a document can hold is read from whatever says what the tree of the value says, if the
names of its tags read back.

## Main definitions

* `IsTagName`, `Value.KeepsTags` — the names of tags that read back.

## Main statements

* `Meaning.ofPlain_of_wanted` — a text that is asked for without quotes means itself.
* `Document.localName_tagText` — the name of a tag is read back from its text.
* `Document.value_of_content` — a value is read back from what its tree says.
-/

namespace LockPrune.Yaml

open Scalar

/-! ## Texts -/

namespace Meaning

theorem number?_ne_text {s : List Char} {x : String} : number? s ≠ some (.text x) := by
  intro h
  rw [number?] at h
  split at h
  · rename_i m hm
    obtain ⟨i, -, hi⟩ := Option.bind_eq_some_iff.1 hm
    cases h
    rw [ofInteger?] at hi
    split_ifs at hi <;> cases hi
  · split_ifs at h
    obtain ⟨y, -, hy⟩ := Option.map_eq_some_iff.1 h
    cases hy

/-- A plain scalar that means a text means its own. -/
theorem ofPlain_eq_text {s x : String} (h : ofPlain s = .text x) : x = s := by
  rw [ofPlain] at h
  split at h
  · cases h
  · split at h
    · cases h
    · cases hn : number? s.toList with
      | none =>
        rw [hn, Option.getD_none, Meaning.text.injEq] at h
        exact h.symm
      | some m =>
        rw [hn, Option.getD_some] at h
        exact absurd (h ▸ hn) number?_ne_text

/-- A text that is asked for without quotes means itself. -/
theorem ofPlain_of_wanted {s : String} (h : wanted s = .plain) : ofPlain s = .text s := by
  rw [wanted] at h
  split_ifs at h with hbreak hambiguous
  rw [isAmbiguous] at hambiguous
  cases hm : ofPlain s with
  | text x => rw [ofPlain_eq_text hm]
  | _ => simp [hm] at hambiguous

end Meaning

/-! ## Names of tags -/

/-- The names of tags that read back: without zeros and the marks of flow collections, and with an
exclamation mark in front only if that is all there is. -/
structure IsTagName (name : String) : Prop where
  marks : ∀ c ∈ name.toList, c ≠ '\x00' ∧ isFlowMark c = false
  alone : name.toList.head? = some '!' → name = "!"

instance (name : String) : Decidable (IsTagName name) :=
  decidable_of_iff ((name.toList.all fun c => decide (c ≠ '\x00' ∧ isFlowMark c = false)) = true ∧
      (name.toList.head? = some '!' → name = "!"))
    ⟨fun h => ⟨fun c hc => of_decide_eq_true (List.all_eq_true.1 h.1 c hc), h.2⟩,
      fun h => ⟨List.all_eq_true.2 fun c hc => decide_eq_true (h.marks c hc), h.alone⟩⟩

theorem IsTagName.isReadableTag {name : String} (h : IsTagName name) :
    IsReadableTag (Value.tagText name) := by
  by_cases hhead : name.toList.head? = some '!'
  · obtain rfl := h.alone hhead
    exact ⟨[], rfl, by simp, by simp⟩
  · have hbang : "!".toList = ['!'] := rfl
    rw [Value.tagText, if_neg hhead]
    refine ⟨name.toList, ?_, fun hzero => (h.marks _ hzero).1 rfl, fun c hc => (h.marks c hc).2⟩
    rw [String.toList_append, hbang, List.singleton_append]

namespace Document

/-- The name of a tag is read back from its text. -/
theorem localName_tagText {name : String} (h : IsTagName name) (hne : name ≠ "") :
    localName (some (Tag.ofText (Value.tagText name))) = some name := by
  by_cases hhead : name.toList.head? = some '!'
  · obtain rfl := h.alone hhead
    decide
  · have hbang : "!".toList = ['!'] := rfl
    have hoctets : (Tag.ofText (Value.tagText name)).octets = 33 :: Sink.octets name.toList := by
      rw [Value.tagText, if_neg hhead, Tag.ofText, String.toList_append, hbang]
      rfl
    have hsome : (Sink.octets name.toList).isEmpty = false := by
      obtain ⟨c, cs, hcs⟩ := List.exists_cons_of_ne_nil (mt String.toList_eq_nil_iff.1 hne)
      obtain ⟨o, rest, ho, -⟩ := exists_octets c
      rw [hcs, Sink.octets, List.flatMap_cons, ho]
      rfl
    have hlocal : (Tag.ofText (Value.tagText name)).local? = some name := by
      rw [Tag.local?, hoctets]
      simp only [hsome, Bool.false_eq_true, if_false]
      rw [Sink.fromUTF8?_octets, String.ofList_toList]
    rw [localName, Option.bind_some, hlocal, Option.map_some]
    split
    · rename_i a rest heq
      rw [heq] at hhead
      exact absurd rfl hhead
    · rfl

end Document

/-! ## Values -/

namespace Value

mutual

/-- The names of the tags in a value. -/
def tagNames : Value → List String
  | .sequence items => itemTagNames items
  | .mapping entries => entryTagNames entries
  | .tagged name v => name :: v.tagNames
  | _ => []
termination_by structural v => v

/-- The names of the tags in the items of a sequence. -/
def itemTagNames : List Value → List String
  | [] => []
  | v :: vs => v.tagNames ++ itemTagNames vs
termination_by structural vs => vs

/-- The names of the tags in the entries of a mapping. -/
def entryTagNames : List (Value × Value) → List String
  | [] => []
  | (k, v) :: rest => k.tagNames ++ v.tagNames ++ entryTagNames rest
termination_by structural es => es

end

/-- The names of all tags of a value read back. -/
def KeepsTags (v : Value) : Prop :=
  ∀ name ∈ v.tagNames, IsTagName name

instance (v : Value) : Decidable v.KeepsTags :=
  inferInstanceAs (Decidable (∀ name ∈ v.tagNames, IsTagName name))

theorem keepsTags_sequence {items : List Value} :
    (Value.sequence items).KeepsTags ↔ ∀ v ∈ items, v.KeepsTags := by
  rw [KeepsTags, tagNames]
  induction items with
  | nil => simp [itemTagNames]
  | cons v vs ih =>
    rw [itemTagNames, List.forall_mem_append, ih, List.forall_mem_cons]
    rfl

theorem keepsTags_mapping {entries : List (Value × Value)} :
    (Value.mapping entries).KeepsTags ↔ ∀ e ∈ entries, e.1.KeepsTags ∧ e.2.KeepsTags := by
  rw [KeepsTags, tagNames]
  induction entries with
  | nil => simp [entryTagNames]
  | cons e rest ih =>
    obtain ⟨key, v⟩ := e
    rw [entryTagNames, List.forall_mem_append, List.forall_mem_append, ih, List.forall_mem_cons]
    rfl

theorem keepsTags_tagged {name : String} {v : Value} :
    (Value.tagged name v).KeepsTags ↔ IsTagName name ∧ v.KeepsTags := by
  rw [KeepsTags, tagNames, List.forall_mem_cons]
  rfl

mutual

/-- Names of tags that read back are names of tags that can be read. -/
theorem KeepsTags.isReadable (v : Value) (h : v.KeepsTags) : v.IsReadable := by
  match v with
  | .null | .bool _ | .number _ | .string _ => trivial
  | .sequence items => exact itemsReadable_of_keepsTags items (keepsTags_sequence.1 h)
  | .mapping entries => exact entriesReadable_of_keepsTags entries (keepsTags_mapping.1 h)
  | .tagged name v =>
    obtain ⟨hname, hv⟩ := keepsTags_tagged.1 h
    exact ⟨hname.isReadableTag, KeepsTags.isReadable v hv⟩
termination_by structural v

theorem itemsReadable_of_keepsTags (items : List Value) (h : ∀ v ∈ items, v.KeepsTags) :
    ItemsReadable items := by
  match items with
  | [] => trivial
  | v :: vs =>
    rw [List.forall_mem_cons] at h
    exact ⟨KeepsTags.isReadable v h.1, itemsReadable_of_keepsTags vs h.2⟩
termination_by structural items

theorem entriesReadable_of_keepsTags (entries : List (Value × Value))
    (h : ∀ e ∈ entries, e.1.KeepsTags ∧ e.2.KeepsTags) : EntriesReadable entries := by
  match entries with
  | [] => trivial
  | (key, v) :: rest =>
    rw [List.forall_mem_cons] at h
    exact ⟨KeepsTags.isReadable key h.1.1, KeepsTags.isReadable v h.1.2,
      entriesReadable_of_keepsTags rest h.2⟩
termination_by structural entries

end

end Value

namespace Document

variable {d : Document} {depth : Nat} {path : Path} {k : Nat}

/-! ## Reading a value back -/

/-- The tag of a value that is written: none, or one that the document has of its own. -/
def IsOwnTag (tag : Option Tag) : Prop :=
  tag = none ∨ ∃ name, localName tag = some name

/-- The value of a scalar that is written with the tag of the value. -/
theorem value_scalar {n : Node} {tag : Option Tag} {isPlain : Bool} {text : String} {v : Value}
    (hn : n.content? = some (.scalar tag isPlain text)) (htag : IsOwnTag tag)
    (h : valueOf (if isPlain then Meaning.ofPlain text else .text text) = pure v) :
    d.value depth path n k = .ok (keepTag tag v, k) := by
  obtain ⟨mark, anchor, style, rfl, hplain⟩ := Node.content?_scalar_iff.1 hn
  have hscalar : scalarValue none style text = pure v := by
    rw [← hplain] at h
    simpa [scalarValue, Meaning.ofScalar] using h
  have hown : ownValue tag style text = pure (keepTag tag v) := by
    rcases htag with rfl | ⟨name, hname⟩
    · exact hscalar
    · rw [ownValue, keepTag, hname, hscalar]
      rfl
  have hfrom : ∀ inside?, d.valueFrom inside? path (.scalar mark anchor tag style text) k =
      .ok (keepTag tag v, k) := by
    intro inside?
    have hplaced :
        Reading.placedAt mark path (ownValue tag style text) k = .ok (keepTag tag v, k) :=
      Reading.placedAt_eq_ok_iff.2 (by rw [hown]; rfl)
    exact hplaced
  cases depth with
  | zero => exact hfrom none
  | succ depth => exact hfrom _

theorem value_sequence {n : Node} {tag : Option Tag} {cs : List Content} {vs : List Value}
    (hn : n.content? = some (.sequence tag cs))
    (h : ∀ nodes, Node.itemContents? nodes = some cs →
      items (d.value depth) path 0 nodes k = .ok (vs, k)) :
    d.value (depth + 1) path n k = .ok (keepTag tag (.sequence vs), k) := by
  obtain ⟨mark, anchor, nodes, rfl, hnodes⟩ := Node.content?_sequence_iff.1 hn
  have hplaced : Reading.placedAt mark path ((fun vs => keepTag tag (Value.sequence vs)) <$>
      items (d.value depth) path 0 nodes) k = .ok (keepTag tag (.sequence vs), k) :=
    Reading.placedAt_eq_ok_iff.2 (Reading.map_eq_ok_iff.2 ⟨vs, k, h nodes hnodes, rfl⟩)
  exact hplaced

theorem value_mapping {n : Node} {tag : Option Tag} {cs : List (Content × Content)}
    {es : List (Value × Value)} (hn : n.content? = some (.mapping tag cs))
    (h : ∀ nodes, Node.entryContents? nodes = some cs →
      entries (d.value depth) path [] nodes k = .ok (es, k)) :
    d.value (depth + 1) path n k = .ok (keepTag tag (.mapping es), k) := by
  obtain ⟨mark, anchor, nodes, rfl, hnodes⟩ := Node.content?_mapping_iff.1 hn
  have hplaced : Reading.placedAt mark path ((fun es => keepTag tag (Value.mapping es)) <$>
      entries (d.value depth) path [] nodes) k = .ok (keepTag tag (.mapping es), k) :=
    Reading.placedAt_eq_ok_iff.2 (Reading.map_eq_ok_iff.2 ⟨es, k, h nodes hnodes, rfl⟩)
  exact hplaced

/-- A reader reads the trees of a value as the value. -/
def ReadsBack (read : Path → Node → Reading Value) (v : Value) : Prop :=
  ∀ t, v.treeWith? none = some t → ∀ n : Node, n.content? = some t.content →
    ∀ path k, read path n k = .ok (v, k)

theorem items_of_contents {read : Path → Node → Reading Value} {vs : List Value}
    (hread : ∀ v ∈ vs, ReadsBack read v) {ts : List Tree} (hts : Value.itemTrees? vs = some ts)
    {nodes : List Node} (hnodes : Node.itemContents? nodes = some (Tree.itemContents ts))
    (i : Nat) :
    items read path i nodes k = .ok (vs, k) := by
  induction vs generalizing ts nodes i with
  | nil =>
    obtain rfl : [] = ts := by simpa [Value.itemTrees?] using hts
    obtain rfl := Node.itemContents?_eq_nil hnodes
    rfl
  | cons v vs ih =>
    rw [List.forall_mem_cons] at hread
    rw [Value.itemTrees?] at hts
    split at hts
    · rename_i t ts' ht hts'
      obtain rfl := Option.some.inj hts
      obtain ⟨n, rest, rfl, hn, hrest⟩ := Node.itemContents?_eq_cons hnodes
      rw [items]
      exact Reading.bind_eq_ok_iff.2 ⟨v, k, hread.1 t ht n hn _ k,
        Reading.bind_eq_ok_iff.2 ⟨vs, k, ih hread.2 hts' hrest (i + 1), rfl⟩⟩
    · cases hts

theorem entries_of_contents {read : Path → Node → Reading Value} {es before : List (Value × Value)}
    (hread : ∀ e ∈ es, ReadsBack read e.1 ∧ ReadsBack read e.2)
    (hdistinct : (before ++ es).Pairwise fun a b => a.1.same b.1 = false)
    {ts : List (Tree × Tree)} (hts : Value.entryTrees? es = some ts) {nodes : List (Node × Node)}
    (hnodes : Node.entryContents? nodes = some (Tree.entryContents ts)) :
    entries read path before nodes k = .ok (before ++ es, k) := by
  induction es generalizing before ts nodes with
  | nil =>
    obtain rfl : [] = ts := by simpa [Value.entryTrees?] using hts
    obtain rfl := Node.entryContents?_eq_nil hnodes
    rw [List.append_nil]
    rfl
  | cons e es ih =>
    obtain ⟨key, v⟩ := e
    rw [List.forall_mem_cons] at hread
    have hfresh : (before.any fun entry => entry.1.same key) = false := by
      rw [List.any_eq_false]
      intro entry hentry
      have := (List.pairwise_append.1 hdistinct).2.2 entry hentry (key, v) List.mem_cons_self
      simpa using this
    rw [Value.entryTrees?] at hts
    split at hts
    · rename_i kt vt ts' hkt hvt hts'
      obtain rfl := Option.some.inj hts
      obtain ⟨kn, vn, rest, rfl, hkn, hvn, hrest⟩ := Node.entryContents?_eq_cons hnodes
      have hdistinct' : (before ++ [(key, v)] ++ es).Pairwise fun a b => a.1.same b.1 = false := by
        rwa [List.append_assoc]
      have htail := ih hread.2 hdistinct' hts' hrest
      rw [entries]
      refine Reading.bind_eq_ok_iff.2 ⟨key, k, hread.1.1 kt hkt kn hkn _ k, ?_⟩
      rw [hfresh, if_neg Bool.false_ne_true]
      refine Reading.bind_eq_ok_iff.2 ⟨v, k, hread.1.2 vt hvt vn hvn _ k, ?_⟩
      rw [htail, List.append_assoc]
      rfl
    · cases hts

/-- What says what the tree of a value says is read as the value. -/
theorem value_of_content {v : Value} (hv : v.IsHeld depth) (htags : v.KeepsTags)
    {tag : Option String} (htag : IsOwnTag (tag.map Tag.ofText)) {t : Tree}
    (ht : v.treeWith? tag = some t) {n : Node} (hn : n.content? = some t.content) (path : Path)
    (k : Nat) : d.value depth path n k = .ok (keepTag (tag.map Tag.ofText) v, k) := by
  induction hv generalizing tag t n path k with
  | null =>
    obtain rfl : Tree.scalar tag .plain "null" = t := by simpa [Value.treeWith?] using ht
    exact value_scalar hn htag rfl
  | @bool depth b =>
    obtain rfl : Tree.scalar tag .plain (if b then "true" else "false") = t := by
      simpa [Value.treeWith?] using ht
    refine value_scalar hn htag ?_
    cases b <;> rfl
  | @number depth num hnum =>
    obtain rfl : Tree.scalar tag .plain num.text = t := by simpa [Value.treeWith?] using ht
    refine value_scalar hn htag ?_
    have hplain : Tree.isPlainScalar .plain num.text = true := by
      rw [Tree.isPlainScalar, num.isNumeral_text.plainAdmitted]
      rfl
    rw [hplain, if_pos rfl, Meaning.ofPlain_text hnum]
    cases num <;> rfl
  | @string depth s =>
    obtain rfl : Tree.scalar tag (wanted s) s = t := by simpa [Value.treeWith?] using ht
    refine value_scalar hn htag ?_
    split
    · rename_i hplain
      rw [Tree.isPlainScalar, Bool.and_eq_true, decide_eq_true_iff] at hplain
      rw [Meaning.ofPlain_of_wanted hplain.1]
      rfl
    · rfl
  | @sequence depth items h ih =>
    rw [Value.treeWith?, Option.map_eq_some_iff] at ht
    obtain ⟨ts, hts, rfl⟩ := ht
    refine value_sequence hn fun nodes hnodes => ?_
    refine items_of_contents (fun v hv t ht n hn path k => ?_) hts hnodes 0
    exact ih v hv (Value.keepsTags_sequence.1 htags v hv) (.inl rfl) ht hn path k
  | @mapping depth entries distinct hkey hvalue ihkey ihvalue =>
    rw [Value.treeWith?] at ht
    split at ht
    · cases ht
    · rw [Option.map_eq_some_iff] at ht
      obtain ⟨ts, hts, rfl⟩ := ht
      refine value_mapping hn fun nodes hnodes => ?_
      have hread :
          ∀ e ∈ entries, ReadsBack (d.value depth) e.1 ∧ ReadsBack (d.value depth) e.2 := by
        intro e he
        obtain ⟨hkeyTags, hvalueTags⟩ := Value.keepsTags_mapping.1 htags e he
        exact ⟨fun t ht n hn path k => ihkey e he hkeyTags (.inl rfl) ht hn path k,
          fun t ht n hn path k => ihvalue e he hvalueTags (.inl rfl) ht hn path k⟩
      rw [← List.nil_append entries] at distinct
      exact entries_of_contents hread distinct hts hnodes
  | @tagged depth name v hname h ih =>
    rw [Value.treeWith?] at ht
    split at ht
    · cases ht
    · rename_i hnone
      obtain rfl : tag = none := by simpa using hnone
      obtain ⟨hsound, hinner⟩ := Value.keepsTags_tagged.1 htags
      have hlocal := localName_tagText hsound hname
      have hown : IsOwnTag ((some (Value.tagText name)).map Tag.ofText) := .inr ⟨name, hlocal⟩
      have hvalue := ih hinner hown ht hn path k
      rw [Option.map_some, keepTag, hlocal] at hvalue
      exact hvalue

end Document

end LockPrune.Yaml
