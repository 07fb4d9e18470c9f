import LockPrune.Proofs.Yaml.Content
import LockPrune.Yaml.Reading

/-!
# Readers

When a reader gives a result, and what readers of scalars and mappings give for a node whose
content is known.

## Main definitions

* `Node.scalarText?` — the text of a scalar.
* `Document.meant?`, `Document.entriesOf` — the node that is meant, and the entries of a mapping.

## Main statements

* `Reading.bind_eq_ok_iff`, `Reading.map_eq_ok_iff` — readers one after the other.
* `Document.text_of_content`, `Document.mapping_of_content` — nodes with a known content.
* `Document.mapping_cases` — what a mapping that was read can be.
-/

namespace LockPrune.Yaml

/-! ## Results -/

namespace Reading

variable {α β : Type} {k : Nat}

@[simp] theorem pure_eq_ok_iff {a : α} {r : α × Nat} :
    (pure a : Reading α) k = .ok r ↔ (a, k) = r :=
  ⟨Except.ok.inj, congrArg Except.ok⟩

@[simp] theorem fail_ne_ok {f : Fault} {r : α × Nat} : (fail f : Reading α) k ≠ .ok r := by
  rintro ⟨⟩

theorem bind_of_ok {x : Reading α} {a : α} {k' : Nat} (h : x k = .ok (a, k'))
    (g : α → Reading β) : (x >>= g) k = g a k' := by
  change (x k >>= fun s => g s.1 s.2) = _
  rw [h]
  rfl

@[simp] theorem bind_eq_ok_iff {x : Reading α} {g : α → Reading β} {r : β × Nat} :
    (x >>= g) k = .ok r ↔ ∃ a k', x k = .ok (a, k') ∧ g a k' = .ok r := by
  change (x k >>= fun s => g s.1 s.2) = .ok r ↔ _
  cases x k with
  | error f => simp [bind, Except.bind]
  | ok s =>
    obtain ⟨a, k'⟩ := s
    simp [bind, Except.bind]

@[simp] theorem map_eq_ok_iff {x : Reading α} {g : α → β} {r : β × Nat} :
    (g <$> x) k = .ok r ↔ ∃ a k', x k = .ok (a, k') ∧ (g a, k') = r := by
  have hmap : g <$> x = x >>= fun a => pure (g a) := rfl
  rw [hmap, bind_eq_ok_iff]
  simp

@[simp] theorem placedAt_eq_ok_iff {mark : Mark} {path : Path} {x : Reading α} {r : α × Nat} :
    placedAt mark path x k = .ok r ↔ x k = .ok r := by
  rw [placedAt]
  cases x k <;> simp

@[simp] theorem deeper_eq_ok_iff {depth : Nat} {mark : Mark} {x : Nat → Reading α} {r : α × Nat} :
    deeper depth mark x k = .ok r ↔ ∃ n, depth = n + 1 ∧ x n k = .ok r := by
  cases depth with
  | zero => simp [deeper]
  | succ n => simp [deeper]

end Reading

/-- The text of a scalar. -/
def Node.scalarText? : Node → Option String
  | .scalar _ _ _ _ text => some text
  | _ => none

/-! ## Nodes with a known content -/

namespace Document

variable {d : Document} {n : Node} {path : Path} {k : Nat}

theorem text_of_scalarText? {s : String} (h : n.scalarText? = some s) (expected : String) :
    d.text expected path n k = .ok (s, k) := by
  cases n with
  | scalar mark anchor tag style text =>
    obtain rfl := Option.some.inj h
    rfl
  | _ => cases h

theorem text_of_content {tag : Option Tag} {isPlain : Bool} {s : String}
    (h : n.content? = some (.scalar tag isPlain s)) (expected : String) :
    d.text expected path n k = .ok (s, k) := by
  obtain ⟨mark, anchor, style, rfl, -⟩ := Node.content?_scalar_iff.1 h
  rfl

/-- The entries of a mapping are read inside one collection more. -/
theorem mapping_of_content {α : Type} {tag : Option Tag} {cs : List (Content × Content)}
    (h : n.content? = some (.mapping tag cs)) (expected : String)
    (body : Nat → Path → List (Node × Node) → Reading α) {depth : Nat} {r : α × Nat}
    (hbody : ∀ nodes, Node.entryContents? nodes = some cs → body depth path nodes k = .ok r) :
    d.mapping expected body (depth + 1) path n k = .ok r := by
  obtain ⟨mark, anchor, nodes, rfl, hnodes⟩ := Node.content?_mapping_iff.1 h
  exact Reading.placedAt_eq_ok_iff.2 (hbody nodes hnodes)

/-- What stands for something is read as it is. -/
theorem optional_of_scalar {α : Type} {inner : Path → Node → Reading α} {mark : Mark}
    {anchor : Option Nat} {tag : Option Tag} {style : Style} {s : String} {a : α}
    (hmissing : isMissing tag style s = .ok false)
    (h : inner path (.scalar mark anchor tag style s) k = .ok (a, k)) :
    d.optional inner path (.scalar mark anchor tag style s) k = .ok (some a, k) := by
  rw [optional]
  refine Reading.bind_eq_ok_iff.2 ⟨(.scalar mark anchor tag style s, path), k, rfl, ?_⟩
  simp only [hmissing]
  exact Reading.map_eq_ok_iff.2 ⟨a, k, h, rfl⟩

/-! ## What was read -/

/-- The node that is meant: that behind an alias, and any other itself. -/
def meant? (d : Document) : Node → Option Node
  | .alias _ target => d.target? target
  | node => some node

theorem meant?_of_follow {m : Node} {path' : Path} {k' : Nat}
    (h : d.follow path n k = .ok ((m, path'), k')) : d.meant? n = some m := by
  cases n with
  | «alias» mark target =>
    simp only [follow] at h
    split at h
    · cases h
    split at h
    · rename_i node hnode
      cases h
      exact hnode
    · cases h
  | _ =>
    cases h
    rfl

/-- The entries of the mapping that a node means; no other node has entries. -/
def entriesOf (d : Document) (n : Node) : List (Node × Node) :=
  match d.meant? n with
  | some (.mapping _ _ _ entries) => entries
  | _ => []

theorem mistyped_ne_ok {α : Type} {expected : String} {r : α × Nat} :
    d.mistyped expected n k ≠ .ok r := by
  cases n with
  | scalar mark anchor tag style text =>
    rw [mistyped]
    cases Meaning.ofScalar tag style text <;> exact Reading.fail_ne_ok
  | _ => exact Reading.fail_ne_ok (k := k)

/-- A mapping that was read is one, inside one collection more, or nothing at all. -/
theorem mapping_cases {α : Type} {expected : String}
    {body : Nat → Path → List (Node × Node) → Reading α} {depth : Nat} {r : α × Nat}
    (h : d.mapping expected body depth path n k = .ok r) :
    (d.entriesOf n = [] ∧ ∃ path' k', body depth path' [] k' = .ok r) ∨
      ∃ path' k' m, depth = m + 1 ∧ body m path' (d.entriesOf n) k' = .ok r := by
  rw [mapping, Reading.bind_eq_ok_iff] at h
  obtain ⟨⟨node, path'⟩, k', hfollow, h⟩ := h
  rw [entriesOf, meant?_of_follow hfollow]
  rw [Reading.placedAt_eq_ok_iff] at h
  cases node with
  | mapping mark anchor tag nodes =>
    obtain ⟨m, hm, hbody⟩ := Reading.deeper_eq_ok_iff.1 h
    exact .inr ⟨path', k', m, hm, hbody⟩
  | void mark => exact .inl ⟨rfl, path', k', h⟩
  | scalar mark anchor tag style text =>
    simp only at h
    split at h
    · exact .inl ⟨rfl, path', k', h⟩
    · exact absurd h mistyped_ne_ok
  | _ => exact absurd h mistyped_ne_ok

end Document

end LockPrune.Yaml
