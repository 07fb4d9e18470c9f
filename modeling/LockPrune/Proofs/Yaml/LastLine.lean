import LockPrune.Proofs.Yaml.TreeTokens

/-!
# The last line of a tree

Of all that is written only a block that keeps the ends of line of its text ends with an empty
line.  A tree ends with one when its last scalar is such a block.

## Main definitions

* `Tree.isOpen`, `Tree.itemsOpen`, `Tree.entriesOpen` — the last scalar of a tree is a block
  whose last line is empty.

## Main statements

* `Tree.endsBlank_spell` — no other tree ends with an empty line.
-/

namespace LockPrune.Yaml

open Scalar

namespace Tree

/-! ## Scalars on one line -/

theorem endsWith_concat (p : Char → Bool) (x : List Char) (a : Char) :
    endsWith p (x ++ [a]) = p a := by
  rw [endsWith, List.getLast?_concat, Option.any_some]

theorem endsWith_withTag (tag : Option String) {s : List Char} (hs : s ≠ [])
    (hend : endsWith isBreak s = false) : endsWith isBreak (withTag tag s) = false := by
  cases tag with
  | none => exact hend
  | some t =>
    have htag : withTag (some t) s = (tagText t ++ [' ']) ++ s := by
      rw [withTag, if_neg (by simpa using hs)]
      simp
    obtain ⟨y, a, rfl⟩ := List.eq_nil_or_concat s |>.resolve_left hs
    rw [List.concat_eq_append, endsWith_concat] at hend
    rw [htag, List.concat_eq_append, ← List.append_assoc, endsWith_concat, hend]

/-- The end of a scalar on one line is none of the line. -/
theorem endsWith_write (q : Quoting) {st : Style} {s : List Char} (h : Fits st s)
    (hst : st ≠ .literal) (indent : Nat) : endsWith isBreak (q.write st indent s) = false := by
  cases h with
  | plain h hne =>
    have hplain : endsWith isBreak s = false := by
      cases hlast : s.getLast? with
      | none => simp [endsWith, hlast]
      | some a =>
        simpa [endsWith, hlast] using
          (words_of_plainAdmitted h hne).one_line a (List.mem_of_getLast? hlast)
    cases q <;> exact hplain
  | single =>
    cases q with
    | single => exact endsWith_concat isBreak _ '\x27'
    | double => exact endsWith_concat isBreak _ '"'
  | double => cases q <;> exact endsWith_concat isBreak _ '"'
  | literal => exact absurd rfl hst

/-! ## Empty lines -/

theorem endsBlank_concat (s : List Char) (a b : Char) :
    endsBlank (s ++ [a, b]) = (isBreak b && isBreak a) := by
  have hsplit : s ++ [a, b] = (s ++ [a]) ++ [b] := by simp
  rw [endsBlank, hsplit, endsWith_concat, List.dropLast_concat, endsWith_concat]

/-- A mark ends no line, so an empty line at the end stands behind it. -/
theorem endsBlank_append_cons {a : Char} (ha : isBreak a = false) (s x : List Char) :
    endsBlank (s ++ a :: x) = endsBlank x := by
  rcases List.eq_nil_or_concat x with rfl | ⟨y, c, rfl⟩
  · rw [endsBlank, endsWith_concat, ha]
    rfl
  · rcases List.eq_nil_or_concat y with rfl | ⟨z, b, rfl⟩
    · rw [List.concat_eq_append, List.nil_append, endsBlank_concat, ha, Bool.and_false]
      simp [endsBlank, endsWith]
    · have hsplit : (z.concat b).concat c = z ++ [b, c] := by simp
      have hsplit' : s ++ a :: (z ++ [b, c]) = (s ++ a :: z) ++ [b, c] := by simp
      rw [hsplit, hsplit', endsBlank_concat, endsBlank_concat]

theorem endsBlank_cons {a : Char} (ha : isBreak a = false) (x : List Char) :
    endsBlank (a :: x) = endsBlank x :=
  endsBlank_append_cons ha [] x

theorem endsBlank_of_endsWith {s : List Char} (h : endsWith isBreak s = false) :
    endsBlank s = false := by
  rw [endsBlank, h, Bool.false_and]

/-- A block ends with an empty line only if it keeps the ends of line of its text. -/
theorem endsBlank_of_not_keep {s : List Char} (hne : s ≠ []) (h : literalChomping s ≠ .keep)
    (indent : Nat) : endsBlank (Scalar.write .literal indent s) = false := by
  obtain ⟨y, b, rfl⟩ := List.eq_nil_or_concat s |>.resolve_left hne
  rw [List.concat_eq_append, literalChomping, endsWith_concat, List.dropLast_concat] at h
  rw [List.concat_eq_append, Scalar.write]
  cases hb : isBreak b with
  | false =>
    apply endsBlank_of_endsWith
    rw [endsWith, List.getLast?_append, List.getLast?_cons, getLast?_writeLines]
    simpa using hb
  | true =>
    simp only [hb, Bool.not_true, Bool.false_eq_true, if_false] at h
    have hkeep : ¬(y.isEmpty || endsWith isBreak y) = true := fun hy => h (by rw [if_pos hy])
    rw [Bool.or_eq_true, not_or, List.isEmpty_iff] at hkeep
    obtain ⟨z, a, rfl⟩ := List.eq_nil_or_concat y |>.resolve_left hkeep.1
    have ha := hkeep.2
    rw [List.concat_eq_append, endsWith_concat, Bool.not_eq_true] at ha
    rw [List.concat_eq_append, writeLines_append_breaks indent (by simpa using hb)]
    have hlast : (writeLines indent true (z ++ [a])).getLast? = some a := by
      rw [getLast?_writeLines, List.getLast?_concat]
    obtain ⟨x, hx⟩ := List.getLast?_eq_some_iff.1 hlast
    rw [hx]
    have hsplit : literalHeader (z ++ [a] ++ [b]) ++ '\n' :: (x ++ [a] ++ [b]) =
        (literalHeader (z ++ [a] ++ [b]) ++ '\n' :: x) ++ [a, b] := by
      simp
    rw [hsplit, endsBlank_concat, ha, Bool.and_false]

/-! ## Trees -/

mutual

/-- The last scalar of a tree is a block whose last line is empty. -/
def isOpen : Tree → Bool
  | .scalar _ style text =>
    admitted style false text.toList = .literal && literalChomping text.toList = .keep
  | .sequence _ items => itemsOpen items
  | .mapping _ entries => entriesOpen entries
termination_by structural t => t

/-- The last item of a sequence is open. -/
def itemsOpen : List Tree → Bool
  | [] => false
  | item :: items => if items.isEmpty then item.isOpen else itemsOpen items
termination_by structural ts => ts

/-- The last value of a mapping is open. -/
def entriesOpen : List (Tree × Tree) → Bool
  | [] => false
  | (_, v) :: entries => if entries.isEmpty then v.isOpen else entriesOpen entries
termination_by structural ts => ts

end

theorem endsBlank_spaced (s : List Char) : endsBlank (spaced s) = endsBlank s := by
  cases s with
  | nil => rfl
  | cons a s => exact endsBlank_cons rfl (a :: s)

theorem endsBlank_withTag (tag : Option String) {s : List Char} (hs : s ≠ []) :
    endsBlank (withTag tag s) = endsBlank s := by
  cases tag with
  | none => rfl
  | some t =>
    rw [withTag, if_neg (by simpa using hs)]
    exact endsBlank_append_cons rfl (tagText t) s

theorem endsBlank_spellEntry (q : Quoting) (gap : List Char) (k : Tree) (indent : Nat)
    (writtenOut value x : List Char) :
    endsBlank (x ++ spellEntry q gap k indent writtenOut value) = endsBlank value := by
  rw [spellEntry]
  split
  · rw [← List.append_assoc]
    exact endsBlank_append_cons rfl _ value
  · rw [← List.append_assoc]
    exact endsBlank_append_cons rfl _ value

theorem endsBlank_scalar (q : Quoting) {tag : Option String} {style : Style} {text : String}
    (h : IsSoundScalar tag style text) (hopen : (Tree.scalar tag style text).isOpen = false)
    (after : Behind) (indent : Nat) :
    endsBlank (spell q after indent (.scalar tag style text)) = false := by
  have hfits := h.fits false
  have hne := write_ne_nil (q.behind tag) hfits (indent + 2)
  rw [spell, endsBlank_spaced, spellScalar, endsBlank_withTag tag hne]
  by_cases hst : admitted style false text.toList = .literal
  · have hkeep : literalChomping text.toList ≠ .keep := by
      simpa [isOpen, hst] using hopen
    rw [hst] at hfits
    have hwrite : (q.behind tag).write .literal (indent + 2) text.toList =
        Scalar.write .literal (indent + 2) text.toList := by
      cases q.behind tag <;> rfl
    rw [hst, hwrite]
    cases hfits with
    | literal hadmitted =>
      refine endsBlank_of_not_keep ?_ hkeep (indent + 2)
      intro hnil
      simp [literalAdmitted, hnil] at hadmitted
  · exact endsBlank_of_endsWith (endsWith_write _ hfits hst (indent + 2))

/-- A collection ends as its parts do. -/
theorem endsBlank_spellParts {after : Behind} {tag : Option String} {inner : Nat}
    {brackets : List Char} (hb : brackets ≠ []) (hend : endsWith isBreak brackets = false)
    {parts : List (List Char)}
    (h : parts ≠ [] → ∀ x, endsBlank (x ++ stack inner parts) = false) :
    endsBlank (spellParts after tag inner brackets parts) = false := by
  rw [spellParts]
  split
  · rw [endsBlank_spaced, endsBlank_withTag tag hb]
    exact endsBlank_of_endsWith hend
  · rename_i hparts
    obtain ⟨x, hx⟩ := exists_place after tag inner
    rw [hx]
    exact h (by simpa using hparts) x

mutual

/-- A tree whose last scalar is no such block ends with no empty line. -/
theorem endsBlank_spell (q : Quoting) (t : Tree) (hsound : t.IsSound) (hopen : t.isOpen = false)
    (after : Behind) (indent : Nat) : endsBlank (spell q after indent t) = false := by
  match t with
  | .scalar tag style text => exact endsBlank_scalar q hsound hopen after indent
  | .sequence tag items =>
    rw [IsSound] at hsound
    rw [isOpen] at hopen
    rw [spell]
    refine endsBlank_spellParts (by simp) (by decide) fun hparts x => ?_
    have hne : items ≠ [] := by
      rintro rfl
      exact hparts rfl
    exact endsBlank_spellItems q items hsound.2 hne hopen _ x
  | .mapping tag entries =>
    rw [IsSound] at hsound
    rw [isOpen] at hopen
    rw [spell]
    refine endsBlank_spellParts (by simp) (by decide) fun hparts x => ?_
    have hne : entries ≠ [] := by
      rintro rfl
      exact hparts rfl
    exact endsBlank_spellEntries q entries hsound.2 hne hopen _ x
termination_by structural t

theorem endsBlank_spellItems (q : Quoting) (items : List Tree) (hsound : ItemsSound items)
    (hne : items ≠ []) (hopen : itemsOpen items = false) (indent : Nat) (x : List Char) :
    endsBlank (x ++ stack indent (spellItems q indent items)) = false := by
  match items with
  | [item] =>
    rw [ItemsSound] at hsound
    rw [spellItems, spellItems, stack, endsBlank_append_cons rfl]
    exact endsBlank_spell q item hsound.1 (by simpa [itemsOpen] using hopen) .dash indent
  | item :: next :: items =>
    rw [ItemsSound] at hsound
    rw [spellItems, stack_cons (by simp [spellItems]), ← List.append_assoc]
    exact endsBlank_spellItems q (next :: items) hsound.2 (by simp)
      (by simpa [itemsOpen] using hopen) indent _
termination_by structural items

theorem endsBlank_spellEntries (q : Quoting) (entries : List (Tree × Tree))
    (hsound : EntriesSound entries) (hne : entries ≠ []) (hopen : entriesOpen entries = false)
    (indent : Nat) (x : List Char) :
    endsBlank (x ++ stack indent (spellEntries q indent entries)) = false := by
  match entries with
  | [(k, v)] =>
    rw [EntriesSound] at hsound
    rw [spellEntries, spellEntries, stack, endsBlank_spellEntry]
    exact endsBlank_spell q v hsound.2.1 (by simpa [entriesOpen] using hopen) (keyMark k) indent
  | (k, v) :: next :: entries =>
    rw [EntriesSound] at hsound
    rw [spellEntries, stack_cons (by simp [spellEntries]), ← List.append_assoc]
    exact endsBlank_spellEntries q (next :: entries) hsound.2.2 (by simp)
      (by simpa [entriesOpen] using hopen) indent _
termination_by structural entries

end

end Tree

end LockPrune.Yaml
