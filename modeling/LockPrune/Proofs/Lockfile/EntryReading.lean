import LockPrune.Proofs.Lockfile.FieldReading
import LockPrune.Proofs.Yaml.ValueReading

/-!
# What entries are read from

An entry that is read is one that a document can hold.  Its texts are read from scalars that mean
texts, and its ranges from mappings of these, with the names in order.

## Main definitions

* `Entry.IsHeld` — the entries that a document can hold.
* `Entry.KeepsTags` — the names of all tags in an entry read back.
* `Yaml.Node.IsText` — the scalars that mean a text.

## Main statements

* `Entry.isHeld_of_read` — an entry that is read is one that a document can hold.
* `Entry.readText_of_isText`, `Entry.readPairs_of_isText` — texts and ranges are read as they stand.
-/

namespace LockPrune

open Yaml

/-- A value for a text behind all others stands at the end. -/
theorem Table.putPairs_of_lt {α : Type} {key : String} {value : α} {pairs : List (String × α)}
    (h : ∀ p ∈ pairs, p.1 < key) : putPairs key value pairs = pairs ++ [(key, value)] := by
  induction pairs with
  | nil => rfl
  | cons p rest ih =>
    obtain ⟨k, v⟩ := p
    rw [List.forall_mem_cons] at h
    rw [putPairs, if_neg (String.lt_asymm h.1), if_neg (String.ne_of_lt h.1).symm, ih h.2]
    rfl

namespace Entry

variable {d : Document} {depth : Nat} {path : Path} {k k' : Nat} {node : Node}

/-! ## What a document can hold -/

/-- An entry that a document can hold: its further fields are none of those that are modelled. -/
structure IsHeld (depth : Nat) (e : Entry) : Prop where
  name : ∀ p ∈ e.extra.pairs, Field.ofName? p.1 = none
  value : ∀ p ∈ e.extra.pairs, p.2.IsHeld depth

/-- An entry that is read is one that a document can hold. -/
theorem isHeld_of_read {e : Entry} (h : read d (depth + 1) path node k = .ok (e, k')) :
    e.IsHeld depth :=
  ⟨forall_extra_of_read (fun _ _ _ _ _ _ hname _ => hname) h,
    forall_extra_of_read (fun _ _ _ _ _ _ _ hv => Document.isHeld_of_value hv) h⟩

/-- The names of all tags in an entry read back. -/
def KeepsTags (e : Entry) : Prop :=
  ∀ p ∈ e.extra.pairs, p.2.KeepsTags

instance (e : Entry) : Decidable e.KeepsTags :=
  inferInstanceAs (Decidable (∀ p ∈ e.extra.pairs, p.2.KeepsTags))

theorem KeepsTags.isReadable {e : Entry} (h : e.KeepsTags) : e.IsReadable :=
  fun p hp => (h p hp).isReadable

end Entry

/-! ## Texts and ranges -/

/-- The node is a scalar that means a text. -/
def Yaml.Node.IsText (node : Node) (s : String) : Prop :=
  ∃ mark anchor tag style, node = .scalar mark anchor tag style s ∧
    Meaning.ofScalar tag style s = .ok (.text s)

/-- A text that was asked for as it stands is one. -/
theorem Yaml.Node.isText_of_content {node : Node} {s : String}
    (h : node.content? = some (Tree.ofText s).content) : node.IsText s := by
  rw [Tree.ofText, Tree.content] at h
  obtain ⟨mark, anchor, style, rfl, hplain⟩ := Node.content?_scalar_iff.1 h
  refine ⟨mark, anchor, none, style, rfl, ?_⟩
  rw [Meaning.ofScalar]
  by_cases hstyle : style = .plain
  · have hwanted : Scalar.wanted s = .plain := by
      rw [hstyle, decide_eq_true rfl, eq_comm, Tree.isPlainScalar, Bool.and_eq_true,
        decide_eq_true_iff] at hplain
      exact hplain.1
    rw [if_pos hstyle, Meaning.ofPlain_of_wanted hwanted]
  · rw [if_neg hstyle]

namespace Entry

variable {d : Document} {path : Path} {k : Nat} {node : Node} {s : String}

theorem text_of_isText (h : node.IsText s) (expected : String) :
    d.text expected path node k = .ok (s, k) := by
  obtain ⟨mark, anchor, tag, style, rfl, -⟩ := h
  exact Document.text_of_scalarText? rfl expected

/-- A scalar that means a text does not stand for what is missing. -/
theorem isMissing_of_text {tag : Option Tag} {style : Style}
    (h : Meaning.ofScalar tag style s = .ok (.text s)) :
    Document.isMissing tag style s = .ok false := by
  unfold Document.isMissing
  by_cases hstyle : style = .plain
  · rw [if_neg (not_not.2 hstyle)]
    cases tag with
    | none =>
      rw [Meaning.ofScalar, if_pos hstyle, Except.ok.injEq, Meaning.ofPlain] at h
      split at h
      · cases h
      · rename_i hnull
        simpa using hnull
    | some t =>
      by_cases hnull : t = Tag.null
      · subst hnull
        rw [Meaning.ofScalar, if_neg (by decide), if_neg (by decide), if_neg (by decide),
          if_pos rfl] at h
        split at h <;> cases h
      · simp [hnull]
  · rw [if_pos hstyle]

theorem readText?_of_isText (h : node.IsText s) : readText? d path node k = .ok (some s, k) := by
  obtain ⟨mark, anchor, tag, style, rfl, hmeaning⟩ := h
  exact Document.optional_of_scalar (isMissing_of_text hmeaning) rfl

theorem readText_of_isText (h : node.IsText s) : readText d path node k = .ok (s, k) :=
  Reading.map_eq_ok_iff.2 ⟨some s, k, readText?_of_isText h, rfl⟩

theorem readPairs_of_isText {r : Ranges} {pairs : List (String × String)}
    (hascending : (r.pairs ++ pairs).Pairwise fun a b => a.1 < b.1) {nodes : List (Node × Node)}
    (h : List.Forall₂ (fun p n => n.1.IsText p.1 ∧ n.2.IsText p.2) pairs nodes) :
    readPairs d path r nodes k = .ok (⟨r.pairs ++ pairs, hascending⟩, k) := by
  induction h generalizing r with
  | nil =>
    simp only [List.append_nil]
    rfl
  | @cons p n pairs nodes hp _ ih =>
    obtain ⟨name, range⟩ := p
    obtain ⟨kn, vn⟩ := n
    have hbehind : ∀ q ∈ r.pairs, q.1 < name := fun q hq =>
      (List.pairwise_append.1 hascending).2.2 q hq (name, range) List.mem_cons_self
    have hput : (r.put name range).pairs = r.pairs ++ [(name, range)] :=
      Table.putPairs_of_lt hbehind
    have hall : (r.put name range).pairs ++ pairs = r.pairs ++ (name, range) :: pairs := by
      rw [hput, List.append_assoc]
      rfl
    rw [readPairs, Reading.bind_of_ok (text_of_isText hp.1 _),
      Reading.bind_of_ok (readText_of_isText hp.2), ih (hall ▸ hascending)]
    simp only [hall]

end Entry

end LockPrune
