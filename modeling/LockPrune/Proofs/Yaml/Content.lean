import LockPrune.Proofs.Yaml.Spelling
import LockPrune.Yaml.Node
import Mathlib.Data.List.Forall2

/-!
# What a document says

The place of a node, its number and the kind of its quotes say nothing.  What is left is its
content, and two documents say the same when their contents are equal.  The content of a tree
is known before it is written.

## Main definitions

* `Content` — what a node says.
* `Node.content?` — the content of a node; an alias and a node that breaks off have none.
* `Tree.content` — the content of a tree.

## Main statements

* `Node.content?_scalar_iff`, `Node.content?_sequence_iff`, `Node.content?_mapping_iff` — the
  nodes with a given content.
* `Tree.forall₂_of_entryContents?` — the nodes of the entries of a tree.
* `Tree.quoting_style_admitted` — a scalar reads as plain when its content says so.
-/

namespace LockPrune.Yaml

/-- What a node says. -/
inductive Content where
  | scalar (tag : Option Tag) (isPlain : Bool) (text : String)
  | sequence (tag : Option Tag) (items : List Content)
  | mapping (tag : Option Tag) (entries : List (Content × Content))

namespace Node

mutual

/-- The content of a node. -/
def content? : Node → Option Content
  | .scalar _ _ tag style text => some (.scalar tag (style = .plain) text)
  | .sequence _ _ tag items => (itemContents? items).map (.sequence tag)
  | .mapping _ _ tag entries => (entryContents? entries).map (.mapping tag)
  | .alias .. => none
  | .void _ => none
  | .cut => none
termination_by structural n => n

/-- The contents of the items of a sequence. -/
def itemContents? : List Node → Option (List Content)
  | [] => some []
  | n :: rest => n.content?.bind fun c => (itemContents? rest).map (c :: ·)
termination_by structural ns => ns

/-- The contents of the entries of a mapping. -/
def entryContents? : List (Node × Node) → Option (List (Content × Content))
  | [] => some []
  | (k, v) :: rest =>
    k.content?.bind fun a => v.content?.bind fun b => (entryContents? rest).map ((a, b) :: ·)
termination_by structural ns => ns

end

theorem content?_scalar_iff {n : Node} {tag : Option Tag} {isPlain : Bool} {text : String} :
    n.content? = some (.scalar tag isPlain text) ↔
      ∃ mark anchor style, n = .scalar mark anchor tag style text ∧
        (decide (style = Style.plain)) = isPlain := by
  constructor
  · intro h
    match n, h with
    | .scalar mark anchor t style s, h =>
      simp only [content?, Option.some.injEq, Content.scalar.injEq] at h
      obtain ⟨rfl, hplain, rfl⟩ := h
      exact ⟨mark, anchor, style, rfl, hplain⟩
    | .sequence .., h => simp [content?] at h
    | .mapping .., h => simp [content?] at h
    | .alias .., h => simp [content?] at h
    | .void _, h => simp [content?] at h
    | .cut, h => simp [content?] at h
  · rintro ⟨mark, anchor, style, rfl, hplain⟩
    rw [content?, hplain]

theorem content?_sequence_iff {n : Node} {tag : Option Tag} {items : List Content} :
    n.content? = some (.sequence tag items) ↔
      ∃ mark anchor nodes, n = .sequence mark anchor tag nodes ∧
        itemContents? nodes = some items := by
  constructor
  · intro h
    match n, h with
    | .sequence mark anchor t nodes, h =>
      simp only [content?, Option.map_eq_some_iff, Content.sequence.injEq] at h
      obtain ⟨items, hitems, rfl, rfl⟩ := h
      exact ⟨mark, anchor, nodes, rfl, hitems⟩
    | .scalar .., h => simp [content?] at h
    | .mapping .., h => simp [content?] at h
    | .alias .., h => simp [content?] at h
    | .void _, h => simp [content?] at h
    | .cut, h => simp [content?] at h
  · rintro ⟨mark, anchor, nodes, rfl, hitems⟩
    rw [content?, hitems, Option.map_some]

theorem content?_mapping_iff {n : Node} {tag : Option Tag} {entries : List (Content × Content)} :
    n.content? = some (.mapping tag entries) ↔
      ∃ mark anchor nodes, n = .mapping mark anchor tag nodes ∧
        entryContents? nodes = some entries := by
  constructor
  · intro h
    match n, h with
    | .mapping mark anchor t nodes, h =>
      simp only [content?, Option.map_eq_some_iff, Content.mapping.injEq] at h
      obtain ⟨entries, hentries, rfl, rfl⟩ := h
      exact ⟨mark, anchor, nodes, rfl, hentries⟩
    | .scalar .., h => simp [content?] at h
    | .sequence .., h => simp [content?] at h
    | .alias .., h => simp [content?] at h
    | .void _, h => simp [content?] at h
    | .cut, h => simp [content?] at h
  · rintro ⟨mark, anchor, nodes, rfl, hentries⟩
    rw [content?, hentries, Option.map_some]

/-- A node whose parts all have contents is followed by the others. -/
theorem itemContents?_cons {n : Node} {c : Content} (h : n.content? = some c) (rest : List Node) :
    itemContents? (n :: rest) = (itemContents? rest).map (c :: ·) := by
  rw [itemContents?, h, Option.bind_some]

theorem entryContents?_cons {k v : Node} {a b : Content} (hk : k.content? = some a)
    (hv : v.content? = some b) (rest : List (Node × Node)) :
    entryContents? ((k, v) :: rest) = (entryContents? rest).map ((a, b) :: ·) := by
  rw [entryContents?, hk, Option.bind_some, hv, Option.bind_some]

theorem itemContents?_eq_nil {nodes : List Node} (h : itemContents? nodes = some []) :
    nodes = [] := by
  cases nodes with
  | nil => rfl
  | cons n rest =>
    rw [itemContents?, Option.bind_eq_some_iff] at h
    obtain ⟨c, -, h⟩ := h
    obtain ⟨cs, -, hcs⟩ := Option.map_eq_some_iff.1 h
    cases hcs

theorem itemContents?_eq_cons {nodes : List Node} {c : Content} {cs : List Content}
    (h : itemContents? nodes = some (c :: cs)) :
    ∃ n rest, nodes = n :: rest ∧ n.content? = some c ∧ itemContents? rest = some cs := by
  cases nodes with
  | nil => cases h
  | cons n rest =>
    rw [itemContents?, Option.bind_eq_some_iff] at h
    obtain ⟨c', hn, h⟩ := h
    obtain ⟨cs', hrest, hcs⟩ := Option.map_eq_some_iff.1 h
    cases hcs
    exact ⟨n, rest, rfl, hn, hrest⟩

theorem entryContents?_eq_nil {nodes : List (Node × Node)} (h : entryContents? nodes = some []) :
    nodes = [] := by
  cases nodes with
  | nil => rfl
  | cons n rest =>
    obtain ⟨k, v⟩ := n
    simp only [entryContents?, Option.bind_eq_some_iff] at h
    obtain ⟨a, -, b, -, h⟩ := h
    obtain ⟨cs, -, hcs⟩ := Option.map_eq_some_iff.1 h
    cases hcs

theorem entryContents?_eq_cons {nodes : List (Node × Node)} {a b : Content}
    {cs : List (Content × Content)} (h : entryContents? nodes = some ((a, b) :: cs)) :
    ∃ k v rest, nodes = (k, v) :: rest ∧ k.content? = some a ∧ v.content? = some b ∧
      entryContents? rest = some cs := by
  cases nodes with
  | nil => cases h
  | cons n rest =>
    obtain ⟨k, v⟩ := n
    simp only [entryContents?, Option.bind_eq_some_iff] at h
    obtain ⟨a', hk, b', hv, h⟩ := h
    obtain ⟨cs', hrest, hcs⟩ := Option.map_eq_some_iff.1 h
    cases hcs
    exact ⟨k, v, rest, rfl, hk, hv, hrest⟩

/-- Nodes that are taken in pairs, one pair after the other. -/
theorem pairUp_cons (k v : Node) (rest : List Node) :
    pairUp (k :: v :: rest) = (k, v) :: pairUp rest := rfl

end Node

namespace Tree

open Scalar

/-- A text that is asked for without quotes stands without them. -/
def isPlainScalar (style : Style) (text : String) : Bool :=
  style = .plain && plainAdmitted text.toList

mutual

/-- The content of a tree. -/
def content : Tree → Content
  | .scalar tag style text => .scalar (tag.map Tag.ofText) (isPlainScalar style text) text
  | .sequence tag items => .sequence (tag.map Tag.ofText) (itemContents items)
  | .mapping tag entries => .mapping (tag.map Tag.ofText) (entryContents entries)
termination_by structural t => t

/-- The contents of the items of a sequence. -/
def itemContents : List Tree → List Content
  | [] => []
  | item :: items => item.content :: itemContents items
termination_by structural ts => ts

/-- The contents of the entries of a mapping. -/
def entryContents : List (Tree × Tree) → List (Content × Content)
  | [] => []
  | (k, v) :: entries => (k.content, v.content) :: entryContents entries
termination_by structural ts => ts

end

/-- What says what the entries of a tree say are entries, one by one. -/
theorem forall₂_of_entryContents? {ts : List (Tree × Tree)} {nodes : List (Node × Node)}
    (h : Node.entryContents? nodes = some (entryContents ts)) :
    List.Forall₂ (fun t n => n.1.content? = some t.1.content ∧ n.2.content? = some t.2.content)
      ts nodes := by
  induction ts generalizing nodes with
  | nil =>
    obtain rfl := Node.entryContents?_eq_nil h
    exact .nil
  | cons t ts ih =>
    obtain ⟨k, v⟩ := t
    obtain ⟨kn, vn, rest, rfl, hk, hv, hrest⟩ := Node.entryContents?_eq_cons h
    exact .cons ⟨hk, hv⟩ (ih hrest)

/-- A scalar reads as plain when its content says so, as a key and otherwise. -/
theorem quoting_style_admitted (q : Quoting) {tag : Option String} {style : Style} {text : String}
    (h : IsSoundScalar tag style text) (isKey : Bool) :
    (decide (q.style (admitted style isKey text.toList) = .plain)) = isPlainScalar style text := by
  have hquotes : (if singleAdmitted text.toList then Style.single else .double) ≠ .plain := by
    split <;> simp
  have hblock : (if literalAdmitted text.toList && !isKey then Style.literal else .double) ≠
      .plain := by
    split <;> simp
  rw [Bool.eq_iff_iff, decide_eq_true_iff, q.style_eq_plain_iff]
  cases style with
  | plain =>
    have hne : text.toList.isEmpty = false := by
      simpa [List.isEmpty_iff] using h.ne_nil rfl
    simp only [admitted, isPlainScalar, hne, Bool.false_and, Bool.not_false, Bool.and_true,
      decide_true, Bool.true_and]
    cases plainAdmitted text.toList with
    | true => simp
    | false => simpa using hquotes
  | single => simp [admitted, isPlainScalar, hquotes]
  | double => simp [admitted, isPlainScalar]
  | literal => simpa [admitted, isPlainScalar] using hblock
  | folded => simpa [admitted, isPlainScalar] using hblock

end Tree

end LockPrune.Yaml
