import LockPrune.Proofs.Yaml.Block
import LockPrune.Proofs.Yaml.QuoteStyles
import LockPrune.Proofs.Yaml.Tag
import LockPrune.Yaml.Tree.Layout

/-!
# A tree in either kind of quotes

A tree is written with single quotes, and the file that comes of it has double quotes where
these stood.  Both texts are spelled here by one function, and both consist of the same
tokens.

## Main definitions

* `Quoting` — which quotes a text has that is admitted between single ones.
* `Tree.spell` — a node in either kind of quotes.
* `Tree.rows` — the entries of the root, each behind a gap.
* `Tree.kinds` — the kinds of the tokens of a node.
* `Tree.IsSound` — the trees whose text reads back.

## Main statements

* `Tree.spell_single`, `Tree.render_eq_rows` — with single quotes these are the texts that
  are written.
-/

namespace LockPrune.Yaml

open Scalar

/-- The quotes of a text that is admitted between single ones. -/
inductive Quoting where
  | single
  | double
  deriving DecidableEq, Repr

namespace Quoting

/-- A scalar in a style. -/
def write (q : Quoting) (style : Style) (indent : Nat) (s : List Char) : List Char :=
  match q, style with
  | .double, .single => requote indent s
  | _, style => Scalar.write style indent s

/-- The style that a scalar reads as. -/
def style (q : Quoting) (style : Style) : Style :=
  match q, style with
  | .double, .single => .double
  | _, style => style

/-- Behind a tag a scalar keeps its quotes. -/
def behind (q : Quoting) (tag : Option String) : Quoting :=
  if tag.isSome then .single else q

@[simp] theorem single_behind (tag : Option String) : Quoting.single.behind tag = .single := by
  rw [behind, ite_self]

@[simp] theorem write_single (style : Style) (indent : Nat) (s : List Char) :
    Quoting.single.write style indent s = Scalar.write style indent s := rfl

/-! Only single quotes have another choice. -/

@[simp] theorem write_plain (q : Quoting) (indent : Nat) (s : List Char) :
    q.write .plain indent s = s := by
  cases q <;> rfl

@[simp] theorem write_double (q : Quoting) (indent : Nat) (s : List Char) :
    q.write .double indent s = Scalar.write .double indent s := by
  cases q <;> rfl

@[simp] theorem write_literal (q : Quoting) (indent : Nat) (s : List Char) :
    q.write .literal indent s = Scalar.write .literal indent s := by
  cases q <;> rfl

@[simp] theorem style_plain (q : Quoting) : q.style .plain = .plain := by
  cases q <;> rfl

@[simp] theorem style_double (q : Quoting) : q.style .double = .double := by
  cases q <;> rfl

@[simp] theorem style_literal (q : Quoting) : q.style .literal = .literal := by
  cases q <;> rfl

/-- What is plain stays plain. -/
theorem style_eq_plain_iff (q : Quoting) (st : Style) : q.style st = .plain ↔ st = .plain := by
  cases q <;> cases st <;> simp [style]

end Quoting

namespace Tree

/-! ## Texts -/

/-- A scalar at an indentation. -/
def spellScalar (q : Quoting) (tag : Option String) (style : Style) (isKey : Bool)
    (indent : Nat) (text : String) : List Char :=
  withTag tag ((q.behind tag).write (admitted style isKey text.toList) indent text.toList)

/-- A key that is written in front of its colon. -/
def spellKey (q : Quoting) : Tree → List Char
  | .scalar tag style text => spellScalar q tag style true 0 text
  | .sequence tag _ => withTag tag ['[', ']']
  | .mapping tag _ => withTag tag ['\x7b', '\x7d']

/-- An entry of a mapping, given the texts of its key, written out, and of its value.  A gap
may stand behind a key that is written out. -/
def spellEntry (q : Quoting) (gap : List Char) (k : Tree) (indent : Nat)
    (writtenOut value : List Char) : List Char :=
  if k.isSimpleKey then spellKey q k ++ ':' :: value
  else closeLine ('?' :: writtenOut) ++ gap ++ spaces indent ++ ':' :: value

/-- A collection, given the texts of its parts; without any it is a pair of brackets. -/
def spellParts (after : Behind) (tag : Option String) (inner : Nat) (brackets : List Char)
    (parts : List (List Char)) : List Char :=
  if parts.isEmpty then spaced (withTag tag brackets) else place after tag inner (stack inner parts)

mutual

/-- A node behind a mark, inside a collection at an indentation. -/
def spell (q : Quoting) (after : Behind) (indent : Nat) : Tree → List Char
  | .scalar tag style text => spaced (spellScalar q tag style false (indent + 2) text)
  | .sequence tag items =>
    let inner := itemIndent after tag.isSome indent
    spellParts after tag inner ['[', ']'] (spellItems q inner items)
  | .mapping tag entries =>
    spellParts after tag (indent + 2) ['\x7b', '\x7d'] (spellEntries q (indent + 2) entries)
termination_by structural t => t

/-- The items of a sequence. -/
def spellItems (q : Quoting) (indent : Nat) : List Tree → List (List Char)
  | [] => []
  | item :: items => ('-' :: spell q .dash indent item) :: spellItems q indent items
termination_by structural ts => ts

/-- The entries of a mapping. -/
def spellEntries (q : Quoting) (indent : Nat) : List (Tree × Tree) → List (List Char)
  | [] => []
  | (k, v) :: entries =>
    spellEntry q [] k indent (spell q .mark indent k) (spell q (keyMark k) indent v) ::
      spellEntries q indent entries
termination_by structural ts => ts

end

/-- An entry of the root. -/
def row (q : Quoting) (gap : List Char) (entry : Tree × Tree) : List Char :=
  spellEntry q gap entry.1 0 (spell q .mark 0 entry.1) (spell q (keyMark entry.1) 0 entry.2)

/-- The entries of the root, each on lines of its own behind a gap. -/
def rows (q : Quoting) (gap : List Char) (entries : List (Tree × Tree)) : List Char :=
  entries.flatMap fun entry => gap ++ closeLine (row q gap entry)

theorem spellScalar_single (tag : Option String) (style : Style) (isKey : Bool) (indent : Nat)
    (text : String) :
    spellScalar .single tag style isKey indent text = scalarText tag style isKey indent text := by
  rw [spellScalar, scalarText, Quoting.single_behind]
  rfl

theorem spellKey_single (k : Tree) : spellKey .single k = simpleKeyText k := by
  cases k with
  | scalar => exact spellScalar_single ..
  | sequence => rfl
  | mapping => rfl

theorem spellEntry_single (k : Tree) (indent : Nat) (writtenOut value : List Char) :
    spellEntry .single [] k indent writtenOut value = entryText k indent writtenOut value := by
  rw [spellEntry, entryText, spellKey_single, List.append_nil]

mutual

/-- With single quotes a node is spelled as it is written. -/
theorem spell_single (after : Behind) (indent : Nat) (t : Tree) :
    spell .single after indent t = behind after indent t := by
  match t with
  | .scalar .. => rw [spell, behind, spellScalar_single]
  | .sequence _ items =>
    rw [spell, spellItems_single _ items]
    cases items <;> rfl
  | .mapping _ entries =>
    rw [spell, spellEntries_single _ entries]
    cases entries <;> rfl
termination_by structural t

theorem spellItems_single (indent : Nat) (items : List Tree) :
    spellItems .single indent items = itemTexts indent items := by
  match items with
  | [] => rfl
  | item :: items =>
    rw [spellItems, itemTexts, spell_single .dash _ item, spellItems_single _ items]
termination_by structural items

theorem spellEntries_single (indent : Nat) (entries : List (Tree × Tree)) :
    spellEntries .single indent entries = entryTexts indent entries := by
  match entries with
  | [] => rfl
  | (k, v) :: entries =>
    rw [spellEntries, entryTexts, spellEntry_single, spell_single .mark _ k,
      spell_single (keyMark k) _ v, spellEntries_single _ entries]
termination_by structural entries

end

/-! ## Lines -/

theorem closeLine_eq (s : List Char) : closeLine s = s ++ lineEnd s := by
  rw [closeLine, lineEnd]
  split <;> simp

theorem closeLine_of_endsWith {s : List Char} (h : endsWith isBreak s = false) :
    closeLine s = s ++ ['\n'] := by
  simp [closeLine, h]

/-- A line that is closed ends with an end of line. -/
theorem endsWith_closeLine (s : List Char) : endsWith isBreak (closeLine s) = true := by
  rw [closeLine]
  split
  · assumption
  · rw [endsWith, List.getLast?_concat]
    rfl

/-- The end of a text that is not empty is the end of what it stands behind. -/
theorem closeLine_append {x : List Char} (hx : x ≠ []) (s : List Char) :
    closeLine (s ++ x) = s ++ closeLine x := by
  obtain ⟨y, a, rfl⟩ := List.eq_nil_or_concat x |>.resolve_left hx
  simp [closeLine, endsWith]
  split <;> simp

/-- Behind a mark a text may be empty. -/
theorem closeLine_cons {a : Char} (ha : isBreak a = false) (x : List Char) :
    closeLine (a :: x) = a :: closeLine x := by
  cases x with
  | nil => simp [closeLine, endsWith, ha]
  | cons d x => exact closeLine_append (List.cons_ne_nil d x) [a]

theorem stack_cons {rest : List (List Char)} (hne : rest ≠ []) (indent : Nat) (s : List Char) :
    stack indent (s :: rest) = closeLine s ++ spaces indent ++ stack indent rest := by
  match rest, hne with
  | _ :: _, _ => rfl

/-- The lines of a collection, when the first of them is taken off. -/
theorem closeLine_stack_cons (indent : Nat) (s : List Char) {rest : List (List Char)}
    (hne : rest ≠ []) (hrest : ∀ r ∈ rest, r ≠ []) :
    closeLine (stack indent (s :: rest)) =
      closeLine s ++ (spaces indent ++ closeLine (stack indent rest)) := by
  match rest, hne with
  | r :: rest, _ =>
    have hstack : stack indent (r :: rest) ≠ [] := by
      cases rest with
      | nil => exact hrest r List.mem_cons_self
      | cons r' rest => simp [stack, closeLine_eq, hrest r List.mem_cons_self]
    rw [stack, closeLine_append hstack, List.append_assoc]
    simp

theorem spellEntry_ne_nil (q : Quoting) (gap : List Char) (k : Tree) (indent : Nat)
    (writtenOut value : List Char) : spellEntry q gap k indent writtenOut value ≠ [] := by
  rw [spellEntry]
  split
  · simp
  · simp

theorem spellItems_ne_nil (q : Quoting) (indent : Nat) (items : List Tree) :
    ∀ r ∈ spellItems q indent items, r ≠ [] := by
  induction items with
  | nil => simp [spellItems]
  | cons item items ih => simpa [spellItems] using ih

theorem spellEntries_ne_nil (q : Quoting) (indent : Nat) (entries : List (Tree × Tree)) :
    ∀ r ∈ spellEntries q indent entries, r ≠ [] := by
  induction entries with
  | nil => simp [spellEntries]
  | cons entry entries ih =>
    obtain ⟨k, v⟩ := entry
    intro r hr
    rcases List.mem_cons.1 hr with rfl | hr
    · exact spellEntry_ne_nil q [] k indent _ _
    · exact ih r hr

/-- A root with entries is written as its rows, with single quotes. -/
theorem render_eq_rows {entries : List (Tree × Tree)} (hne : entries ≠ []) :
    render entries = rows .single [] entries := by
  have hstack : ∀ entry entries,
      closeLine (stack 0 (spellEntries .single 0 (entry :: entries))) =
        rows .single [] (entry :: entries) := by
    intro entry entries
    induction entries generalizing entry with
    | nil => simp [rows, row, spellEntries, stack]
    | cons next entries ih =>
      have hcons : spellEntries .single 0 (next :: entries) ≠ [] := List.cons_ne_nil _ _
      rw [spellEntries, closeLine_stack_cons 0 _ hcons (spellEntries_ne_nil .single 0 _),
        ih next]
      simp [rows, row, spaces]
  obtain ⟨entry, entries, rfl⟩ := List.exists_cons_of_ne_nil hne
  rw [render, ← spellEntries_single, hstack]
  simp

/-! ## Empty lines at the end -/

/-- A text ends with an empty line. -/
def endsBlank (s : List Char) : Bool :=
  endsWith isBreak s && endsWith isBreak s.dropLast

theorem endsBlank_append {x : List Char} (hx : endsBlank x = true) (s : List Char) :
    endsBlank (s ++ x) = true := by
  simp only [endsBlank, endsWith, Bool.and_eq_true] at hx ⊢
  have hne : x ≠ [] := by
    rintro rfl
    simp at hx
  have hne' : x.dropLast ≠ [] := by
    intro h
    simp [h] at hx
  rw [List.dropLast_append_of_ne_nil hne]
  obtain ⟨y, a, rfl⟩ := List.eq_nil_or_concat x |>.resolve_left hne
  simp only [List.concat_eq_append, List.dropLast_concat] at hx hne' ⊢
  obtain ⟨z, d, rfl⟩ := List.eq_nil_or_concat y |>.resolve_left hne'
  simpa using hx

theorem endsBlank_of_append {s x : List Char} (h : endsBlank (s ++ x) = false) :
    endsBlank x = false := by
  cases hx : endsBlank x with
  | false => rfl
  | true => rw [← h, endsBlank_append hx]

/-! ## Tokens -/

/-- The kinds of the tokens of a tag. -/
def tagKinds : Option String → List Token.Kind
  | none => []
  | some tag => [.tag (tagToken tag)]

/-- The kind of the token of a scalar. -/
def scalarKind (q : Quoting) (style : Style) (isKey : Bool) (text : String) : Token.Kind :=
  .scalar (q.style (admitted style isKey text.toList)) text.toList

/-- A sequence stands as far to the left as what it belongs to. -/
def isIndentless (after : Behind) (tagged : Bool) : Bool :=
  match after, tagged with
  | .key, _ => true
  | .mark, true => true
  | _, _ => false

theorem itemIndent_eq (after : Behind) (tagged : Bool) (indent : Nat) :
    itemIndent after tagged indent = if isIndentless after tagged then indent else indent + 2 := by
  cases after <;> cases tagged <;> rfl

/-- The tokens of a key that is written in front of its colon. -/
def keyKinds (q : Quoting) : Tree → List Token.Kind
  | .scalar tag style text => tagKinds tag ++ [scalarKind (q.behind tag) style true text]
  | .sequence tag _ => tagKinds tag ++ [.flowSequenceStart, .flowSequenceEnd]
  | .mapping tag _ => tagKinds tag ++ [.flowMappingStart, .flowMappingEnd]

/-- The tokens of a collection, given those of its parts. -/
def partKinds (indentless : Bool) (block opening closing : Token.Kind)
    (parts : List Token.Kind) : List Token.Kind :=
  if parts.isEmpty then [opening, closing]
  else if indentless then parts
  else block :: parts ++ [.blockEnd]

mutual

/-- The tokens of a node behind a mark. -/
def kinds (q : Quoting) (after : Behind) : Tree → List Token.Kind
  | .scalar tag style text => tagKinds tag ++ [scalarKind (q.behind tag) style false text]
  | .sequence tag items =>
    tagKinds tag ++ partKinds (isIndentless after tag.isSome) .blockSequenceStart
      .flowSequenceStart .flowSequenceEnd (itemKinds q items)
  | .mapping tag entries =>
    tagKinds tag ++ partKinds false .blockMappingStart .flowMappingStart .flowMappingEnd
      (entryKinds q entries)
termination_by structural t => t

/-- The tokens of the items of a sequence. -/
def itemKinds (q : Quoting) : List Tree → List Token.Kind
  | [] => []
  | item :: items => .blockEntry :: kinds q .dash item ++ itemKinds q items
termination_by structural ts => ts

/-- The tokens of the entries of a mapping. -/
def entryKinds (q : Quoting) : List (Tree × Tree) → List Token.Kind
  | [] => []
  | (k, v) :: entries =>
    .key :: (if k.isSimpleKey then keyKinds q k else kinds q .mark k) ++
      .value :: kinds q (keyMark k) v ++ entryKinds q entries
termination_by structural ts => ts

end

/-! ## Trees that read back -/

/-- The tag reads back. -/
def HasSoundTag (tag : Option String) : Prop :=
  ∀ t, tag = some t → IsReadableTag t

/-- A text of several lines is asked for as a block, and no text is asked for as nothing. -/
structure IsSoundScalar (tag : Option String) (style : Style) (text : String) : Prop where
  tag : HasSoundTag tag
  one_line : style = .plain ∨ style = .single → '\n' ∉ text.toList
  ne_nil : style = .plain → text.toList ≠ []

mutual

/-- The text of the tree reads back. -/
def IsSound : Tree → Prop
  | .scalar tag style text => IsSoundScalar tag style text
  | .sequence tag items => HasSoundTag tag ∧ ItemsSound items
  | .mapping tag entries => HasSoundTag tag ∧ EntriesSound entries
termination_by structural t => t

/-- The texts of the items read back. -/
def ItemsSound : List Tree → Prop
  | [] => True
  | item :: items => item.IsSound ∧ ItemsSound items
termination_by structural ts => ts

/-- The texts of the entries read back. -/
def EntriesSound : List (Tree × Tree) → Prop
  | [] => True
  | (k, v) :: entries => k.IsSound ∧ v.IsSound ∧ EntriesSound entries
termination_by structural ts => ts

end

end Tree

end LockPrune.Yaml
