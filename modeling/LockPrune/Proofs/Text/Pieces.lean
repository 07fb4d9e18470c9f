import LockPrune.Text.Blank
import LockPrune.Text.Lines
import Mathlib.Data.List.DropRight

/-!
# Pieces of a text

What is left of a text that was cut at every occurrence of a separator, and trimmed, can be cut
and trimmed again without any change.

## Main statements

* `not_isInfix_of_mem_splitOnText` — a piece does not hold the separator.
* `splitOnText_of_not_isInfix` — a text without the separator is the only piece.
* `intercalate_splitOnText` — the pieces with the separator between them are the text.
* `isBlank_of_head?_trim`, `isBlank_of_getLast?_trim`, `trim_eq_self` — trimming.
-/

namespace LockPrune.Text

variable {sep piece s p : List Char}

/-! ## Cutting -/

/-- The separator does not begin inside what was passed over since the last cut. -/
def IsPassed (sep piece s : List Char) : Prop :=
  ∀ a b, piece.reverse ++ s = a ++ b → a.length < piece.length → ¬ sep <+: b

theorem isPassed_nil (sep s : List Char) : IsPassed sep [] s :=
  fun _ _ _ hlt => absurd hlt (Nat.not_lt_zero _)

theorem IsPassed.cons {c : Char} (h : IsPassed sep piece (c :: s)) (hc : ¬ sep <+: c :: s) :
    IsPassed sep (c :: piece) s := by
  intro a b heq hlt
  rw [List.reverse_cons, List.append_assoc, List.singleton_append] at heq
  rcases Nat.lt_or_ge a.length piece.length with hlt' | hge
  · exact h a b heq hlt'
  · have hlength : piece.reverse.length = a.length := by
      rw [List.length_reverse]
      rw [List.length_cons] at hlt
      omega
    obtain ⟨-, rfl⟩ := List.append_inj heq hlength
    exact hc

/-- What was passed over does not hold the separator, whatever follows it. -/
theorem IsPassed.not_isInfix (hsep : sep ≠ []) (h : IsPassed sep piece s) :
    ¬ sep <:+: piece.reverse := by
  rintro ⟨a, b, heq⟩
  have hlength := congrArg List.length heq
  have hpos := List.length_pos_iff.2 hsep
  simp only [List.length_append, List.length_reverse] at hlength
  refine h a (sep ++ (b ++ s)) ?_ (by omega) (List.prefix_append _ _)
  rw [← heq]
  simp

/-- A piece does not hold the separator. -/
theorem not_isInfix_of_mem_splitOnText (hsep : sep ≠ []) (h : p ∈ splitOnText sep s) :
    ¬ sep <:+: p := by
  have within : ∀ n piece s, s.length < n → IsPassed sep piece s →
      ∀ p ∈ splitOnTextWithin sep n piece s, ¬ sep <:+: p := by
    intro n
    induction n with
    | zero => exact fun _ _ hn => absurd hn (Nat.not_lt_zero _)
    | succ n ih =>
      intro piece s hn hpassed p hp
      cases s with
      | nil =>
        rw [splitOnTextWithin, List.mem_singleton] at hp
        exact hp ▸ hpassed.not_isInfix hsep
      | cons c rest =>
        rw [List.length_cons] at hn
        rw [splitOnTextWithin] at hp
        split at hp
        · rcases List.mem_cons.1 hp with rfl | hp
          · exact hpassed.not_isInfix hsep
          · refine ih [] _ ?_ (isPassed_nil _ _) p hp
            have hpos := List.length_pos_iff.2 hsep
            rw [List.length_drop, List.length_cons]
            omega
        · rename_i hc
          rw [List.isPrefixOf_iff_prefix] at hc
          exact ih (c :: piece) rest (by omega) (hpassed.cons hc) p hp
  exact within _ [] s (Nat.lt_succ_self _) (isPassed_nil _ _) p h

/-- A text without the separator is the only piece. -/
theorem splitOnText_of_not_isInfix (h : ¬ sep <:+: s) : splitOnText sep s = [s] := by
  have within : ∀ n piece s, ¬ sep <:+: s →
      splitOnTextWithin sep n piece s = [piece.reverse ++ s] := by
    intro n
    induction n with
    | zero => exact fun _ _ _ => rfl
    | succ n ih =>
      intro piece s hs
      cases s with
      | nil => rw [splitOnTextWithin, List.append_nil]
      | cons c rest =>
        have hc : ¬ sep.isPrefixOf (c :: rest) = true := by
          rw [List.isPrefixOf_iff_prefix]
          exact fun hfront => hs hfront.isInfix
        have hrest : ¬ sep <:+: rest := fun hin => hs (hin.trans (List.suffix_cons c rest).isInfix)
        rw [splitOnTextWithin, if_neg hc, ih (c :: piece) rest hrest]
        simp
  exact within _ [] s h

theorem splitOnTextWithin_ne_nil (sep : List Char) (n : Nat) (piece s : List Char) :
    splitOnTextWithin sep n piece s ≠ [] := by
  induction n generalizing piece s with
  | zero => simp [splitOnTextWithin]
  | succ n ih =>
    cases s with
    | nil => simp [splitOnTextWithin]
    | cons c rest =>
      rw [splitOnTextWithin]
      split
      · exact List.cons_ne_nil _ _
      · exact ih _ _

/-- The pieces with the separator between them are the text. -/
theorem intercalate_splitOnText (sep s : List Char) : sep.intercalate (splitOnText sep s) = s := by
  have within : ∀ n piece s,
      sep.intercalate (splitOnTextWithin sep n piece s) = piece.reverse ++ s := by
    intro n
    induction n with
    | zero => exact fun _ _ => List.intercalate_singleton
    | succ n ih =>
      intro piece s
      cases s with
      | nil => rw [splitOnTextWithin, List.intercalate_singleton, List.append_nil]
      | cons c rest =>
        rw [splitOnTextWithin]
        split
        · rename_i hc
          obtain ⟨after, hafter⟩ := List.isPrefixOf_iff_prefix.1 hc
          rw [List.intercalate_cons_of_ne_nil (splitOnTextWithin_ne_nil sep n _ _), ih, ← hafter]
          simp
        · rw [ih, List.reverse_cons, List.append_assoc, List.singleton_append]
  exact within _ [] s

/-! ## Trimming -/

theorem trimEnd_eq_rdropWhile (s : List Char) : trimEnd s = s.rdropWhile isBlank := rfl

theorem trim_isInfix (s : List Char) : trim s <:+: s := by
  rw [trim, trimEnd_eq_rdropWhile, trimStart]
  exact (List.rdropWhile_prefix isBlank _).isInfix.trans (List.dropWhile_suffix isBlank).isInfix

/-- A text that was trimmed does not begin with a blank. -/
theorem isBlank_of_head?_trim {c : Char} (h : (trim s).head? = some c) : isBlank c = false := by
  -- what is left begins as it did before it was trimmed at its end
  obtain ⟨back, hback⟩ : trim s <+: s.dropWhile isBlank := List.rdropWhile_prefix isBlank _
  have hstart := List.head?_dropWhile_not isBlank s
  rwa [← hback, List.head?_append, h] at hstart

/-- A text that was trimmed does not end with a blank. -/
theorem isBlank_of_getLast?_trim {c : Char} (h : (trim s).getLast? = some c) :
    isBlank c = false := by
  have hend := List.head?_dropWhile_not isBlank (trimStart s).reverse
  rw [trim, trimEnd, dropEndWhile, List.getLast?_reverse] at h
  rwa [h] at hend

/-- Nothing is trimmed of a text without blanks at its ends. -/
theorem trim_eq_self (hfront : ∀ c, s.head? = some c → isBlank c = false)
    (hback : ∀ c, s.getLast? = some c → isBlank c = false) : trim s = s := by
  have hstart : trimStart s = s := by
    rw [trimStart, List.dropWhile_eq_self_iff]
    intro hpos
    rw [hfront s[0] (List.head?_eq_getElem? ▸ List.getElem?_eq_getElem hpos)]
    exact Bool.false_ne_true
  rw [trim, hstart, trimEnd_eq_rdropWhile, List.rdropWhile_eq_self_iff]
  intro hne
  rw [hback _ (List.getLast?_eq_some_getLast hne)]
  exact Bool.false_ne_true

end LockPrune.Text
