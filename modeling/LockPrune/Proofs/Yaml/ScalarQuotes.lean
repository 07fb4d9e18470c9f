import LockPrune.Proofs.Yaml.Spelling
import LockPrune.Yaml.Token.Scanner

/-!
# The quotes of the scalars of a text

The scalars of a text are told from its tokens, with how each is written and whether a tag
stands in front of it.  A tree has the same scalars in either kind of quotes: where there are
single quotes in one text there are double quotes in the other, but for behind a tag.

## Main definitions

* `WrittenScalar` — a scalar of a text.
* `WrittenScalar.requoted` — the scalar, with double quotes for single ones.
* `Tokens.scalars` — the scalars of a text.

## Main statements

* `Tree.requotes_entryKinds` — the entries of a mapping have the same scalars in either kind of
  quotes, one by one requoted.
-/

namespace LockPrune.Yaml

/-! ## Scalars -/

/-- A scalar of a text. -/
structure WrittenScalar where
  /-- Whether a tag stands in front of it. -/
  tagged : Bool
  style : Style
  text : List Char
  deriving DecidableEq, Repr

namespace WrittenScalar

variable {s : WrittenScalar}

/-- Behind a tag single quotes stay; everywhere else there are double quotes in their place. -/
def requoted (s : WrittenScalar) : WrittenScalar :=
  if s.style = .single ∧ s.tagged = false then { s with style := .double } else s

/-- The scalars that are still between single quotes are those behind a tag. -/
theorem style_requoted_eq_single_iff :
    s.requoted.style = .single ↔ s.style = .single ∧ s.tagged = true := by
  rw [requoted]
  split
  · rename_i h
    simp [h.2]
  · rename_i h
    simp only [not_and, Bool.not_eq_false] at h
    exact ⟨fun hsingle => ⟨hsingle, h hsingle⟩, And.left⟩

theorem requoted_single_behind (tag : Option String) (style : Style) (text : List Char) :
    requoted ⟨tag.isSome, (Quoting.single.behind tag).style style, text⟩ =
      ⟨tag.isSome, (Quoting.double.behind tag).style style, text⟩ := by
  cases tag <;> cases style <;> rfl

end WrittenScalar

/-! ## The scalars of tokens -/

/-- The scalars among the tokens; a tag belongs to the scalar that follows it. -/
def scalarsFrom (tagged : Bool) : List Token.Kind → List WrittenScalar
  | [] => []
  | .tag _ :: kinds => scalarsFrom true kinds
  | .anchor _ :: kinds => scalarsFrom tagged kinds
  | .scalar style text :: kinds => ⟨tagged, style, text⟩ :: scalarsFrom false kinds
  | _ :: kinds => scalarsFrom false kinds

/-- The scalars of a text, in order. -/
def Tokens.scalars (t : Tokens) : List WrittenScalar :=
  scalarsFrom false (t.tokens.map Token.kind)

/-- A mark is neither a scalar nor a part of a node. -/
def Token.Kind.IsMark (k : Token.Kind) : Prop :=
  ∀ tagged kinds, scalarsFrom tagged (k :: kinds) = scalarsFrom false kinds

/-- The scalars of the second tokens are those of the first, requoted, and so they are with more
behind both.  The flag says whether there is a tag in front of the tokens. -/
def Requotes (tagged : Bool) (ks ks' : List Token.Kind) : Prop :=
  ∀ rest rest', scalarsFrom false rest' = (scalarsFrom false rest).map .requoted →
    scalarsFrom tagged (ks' ++ rest') = (scalarsFrom tagged (ks ++ rest)).map .requoted

namespace Requotes

variable {tagged : Bool} {k : Token.Kind} {ks ks' ls ls' : List Token.Kind}

theorem nil : Requotes false [] [] :=
  fun _ _ h => h

theorem append (hks : Requotes tagged ks ks') (hls : Requotes false ls ls') :
    Requotes tagged (ks ++ ls) (ks' ++ ls') := by
  intro rest rest' hrest
  rw [List.append_assoc, List.append_assoc]
  exact hks _ _ (hls rest rest' hrest)

/-- In front of a mark there is no tag. -/
theorem mark (hk : k.IsMark) (h : Requotes false ks ks') :
    Requotes tagged (k :: ks) (k :: ks') := by
  intro rest rest' hrest
  rw [List.cons_append, List.cons_append, hk, hk]
  exact h rest rest' hrest

theorem of_mark (hk : k.IsMark) (h : Requotes false (k :: ks) (k :: ks')) :
    Requotes tagged (k :: ks) (k :: ks') := by
  intro rest rest' hrest
  have hfree := h rest rest' hrest
  rwa [List.cons_append, List.cons_append, hk, hk] at hfree ⊢

theorem tag {tag : Option String} (h : Requotes tag.isSome ks ks') :
    Requotes false (Tree.tagKinds tag ++ ks) (Tree.tagKinds tag ++ ks') := by
  cases tag with
  | none => exact h
  | some t => exact h

/-- Behind a tag a scalar keeps its quotes. -/
theorem scalar (tag : Option String) (style : Style) (isKey : Bool) (text : String) :
    Requotes tag.isSome [Tree.scalarKind (Quoting.single.behind tag) style isKey text]
      [Tree.scalarKind (Quoting.double.behind tag) style isKey text] := by
  intro rest rest' hrest
  rw [List.singleton_append, List.singleton_append, Tree.scalarKind, Tree.scalarKind, scalarsFrom,
    scalarsFrom, List.map_cons, WrittenScalar.requoted_single_behind, hrest]

end Requotes

/-! ## The scalars of trees -/

namespace Tree

variable {tagged : Bool} {ks ks' : List Token.Kind}

/-- A collection without parts is a pair of brackets. -/
theorem requotes_partKinds_nil {block opening closing : Token.Kind} {indentless : Bool}
    (hopening : opening.IsMark) (hclosing : closing.IsMark) :
    Requotes tagged (partKinds indentless block opening closing [])
      (partKinds indentless block opening closing []) :=
  .mark hopening (.mark hclosing .nil)

theorem requotes_partKinds_cons {block opening closing k : Token.Kind} {indentless : Bool}
    (hblock : block.IsMark) (hk : k.IsMark) (h : Requotes false (k :: ks) (k :: ks')) :
    Requotes tagged (partKinds indentless block opening closing (k :: ks))
      (partKinds indentless block opening closing (k :: ks')) := by
  have hend : Token.Kind.blockEnd.IsMark := fun _ _ => rfl
  simp only [partKinds, List.isEmpty_cons, Bool.false_eq_true, if_false]
  split
  · exact .of_mark hk h
  · exact .mark hblock (h.append (.mark hend .nil))

theorem requotes_keyKinds (t : Tree) :
    Requotes false (keyKinds .single t) (keyKinds .double t) := by
  cases t with
  | scalar tag style text => exact .tag (.scalar tag style true text)
  | sequence tag items => exact .tag (.mark (fun _ _ => rfl) (.mark (fun _ _ => rfl) .nil))
  | mapping tag entries => exact .tag (.mark (fun _ _ => rfl) (.mark (fun _ _ => rfl) .nil))

mutual

/-- A node has the same scalars in either kind of quotes, one by one requoted. -/
theorem requotes_kinds (after : Behind) (t : Tree) :
    Requotes false (kinds .single after t) (kinds .double after t) := by
  match t with
  | .scalar tag style text => exact .tag (.scalar tag style false text)
  | .sequence tag [] => exact .tag (requotes_partKinds_nil (fun _ _ => rfl) fun _ _ => rfl)
  | .sequence tag (item :: items) =>
    exact .tag (requotes_partKinds_cons (fun _ _ => rfl) (fun _ _ => rfl)
      (requotes_itemKinds (item :: items)))
  | .mapping tag [] => exact .tag (requotes_partKinds_nil (fun _ _ => rfl) fun _ _ => rfl)
  | .mapping tag (entry :: entries) =>
    exact .tag (requotes_partKinds_cons (fun _ _ => rfl) (fun _ _ => rfl)
      (requotes_entryKinds (entry :: entries)))
termination_by structural t

/-- So have the items of a sequence. -/
theorem requotes_itemKinds (items : List Tree) :
    Requotes false (itemKinds .single items) (itemKinds .double items) := by
  match items with
  | [] => exact .nil
  | item :: items =>
    have hitem := requotes_kinds .dash item
    exact .mark (fun _ _ => rfl) (hitem.append (requotes_itemKinds items))
termination_by structural items

/-- So have the entries of a mapping, in the keys as in the values. -/
theorem requotes_entryKinds (entries : List (Tree × Tree)) :
    Requotes false (entryKinds .single entries) (entryKinds .double entries) := by
  match entries with
  | [] => exact .nil
  | (k, v) :: entries =>
    have hkey : Requotes false (if k.isSimpleKey then keyKinds .single k else kinds .single .mark k)
        (if k.isSimpleKey then keyKinds .double k else kinds .double .mark k) := by
      have hwrittenOut := requotes_kinds .mark k
      split
      · exact requotes_keyKinds k
      · exact hwrittenOut
    have hvalue := requotes_kinds (keyMark k) v
    have hmore := requotes_entryKinds entries
    simp only [entryKinds, List.cons_append, List.append_assoc]
    exact .mark (fun _ _ => rfl)
      (hkey.append (.mark (fun _ _ => rfl) (hvalue.append hmore)))
termination_by structural entries

end

end Tree

end LockPrune.Yaml
