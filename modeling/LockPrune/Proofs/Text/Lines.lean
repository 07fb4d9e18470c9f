import LockPrune.Text.Lines

/-!
# The lines of a text

What is put together from lines is cut into them again.  A line feed ends a line whatever stands on
either side of it, so that the lines of two texts are those of the one and then those of the other
where the first ends its last line.

## Main statements

* `splitOn_append` — a text is cut on either side of a separator.
* `intercalate_splitOn`, `mem_splitOn` — its pieces have no separator, and stand between them.
* `lines_line`, `lines_append_of_ends` — the lines of a line and what follows, and of two texts.
* `mem_lines` — a line is made of what is in the text, but for line feeds.
* `line_induction` — what holds of a line, and of a line in front of a text of which it holds, holds
  of every text.
-/

namespace LockPrune.Text

/-! ## Pieces -/

/-- What stands in front of a separator is cut as if nothing followed. -/
theorem splitOn_append {α : Type} [DecidableEq α] (sep : α) (s t : List α) :
    splitOn sep (s ++ sep :: t) = splitOn sep s ++ splitOn sep t := by
  induction s with
  | nil => simp [splitOn]
  | cons a s ih =>
    rw [List.cons_append, splitOn, splitOn, ih]
    split
    · rfl
    · cases hs : splitOn sep s with
      | nil => exact absurd hs (splitOn_ne_nil sep s)
      | cons piece pieces => rfl

theorem splitOn_line {x : List Char} (hx : '\n' ∉ x) (t : List Char) :
    splitOn '\n' (x ++ '\n' :: t) = x :: splitOn '\n' t := by
  induction x with
  | nil => simp [splitOn]
  | cons c x ih =>
    rw [List.mem_cons, not_or] at hx
    rw [List.cons_append, splitOn, if_neg (Ne.symm hx.1), ih hx.2]

/-- The pieces with the separator between them are the text. -/
theorem intercalate_splitOn {α : Type} [DecidableEq α] (sep : α) (s : List α) :
    [sep].intercalate (splitOn sep s) = s := by
  induction s with
  | nil => rfl
  | cons a s ih =>
    obtain ⟨piece, pieces, hpieces⟩ := List.exists_cons_of_ne_nil (splitOn_ne_nil sep s)
    rw [splitOn]
    split
    · rename_i heq
      rw [List.intercalate_cons_of_ne_nil (splitOn_ne_nil sep s), ih, heq]
      rfl
    · rw [hpieces] at ih ⊢
      cases pieces with
      | nil =>
        rw [List.intercalate_singleton] at ih ⊢
        rw [ih]
      | cons q qs =>
        rw [List.intercalate_cons_of_ne_nil (List.cons_ne_nil q qs)] at ih ⊢
        rw [← ih]
        rfl

theorem mem_splitOn {α : Type} [DecidableEq α] {sep : α} {t p : List α} (h : p ∈ splitOn sep t) :
    sep ∉ p ∧ p ⊆ t := by
  induction t generalizing p with
  | nil =>
    obtain rfl : p = [] := by simpa [splitOn] using h
    exact ⟨List.not_mem_nil, List.Subset.refl []⟩
  | cons c t ih =>
    rw [splitOn] at h
    split at h
    · rcases List.mem_cons.1 h with rfl | h
      · exact ⟨List.not_mem_nil, List.nil_subset _⟩
      · exact ⟨(ih h).1, List.subset_cons_of_subset c (ih h).2⟩
    · rename_i hc
      obtain ⟨q, qs, hq⟩ := List.exists_cons_of_ne_nil (splitOn_ne_nil sep t)
      rw [hq] at h ih
      rcases List.mem_cons.1 h with rfl | h
      · obtain ⟨hline, hsub⟩ := ih List.mem_cons_self
        exact ⟨by simp [Ne.symm hc, hline], List.cons_subset_cons c hsub⟩
      · obtain ⟨hline, hsub⟩ := ih (List.mem_cons_of_mem q h)
        exact ⟨hline, List.subset_cons_of_subset c hsub⟩

/-! ## Lines -/

theorem lines_line {x : List Char} (hx : '\n' ∉ x) (hr : '\r' ∉ x) (t : List Char) :
    lines (x ++ '\n' :: t) = x :: lines t := by
  have hne := splitOn_ne_nil '\n' t
  have hlast : dropOneAtEnd '\r' x = x := by
    rw [dropOneAtEnd, if_neg]
    intro h
    exact hr (List.mem_of_getLast? h)
  rw [lines, splitOn_line hx, lines]
  match splitOn '\n' t, hne with
  | piece :: pieces, hne => rw [linesOfPieces.eq_3 _ _ (fun h => hne h), hlast]

theorem linesOfPieces_append (ps : List (List Char)) {qs : List (List Char)} (hqs : qs ≠ []) :
    linesOfPieces (ps ++ qs) = ps.map (dropOneAtEnd '\r') ++ linesOfPieces qs := by
  induction ps with
  | nil => rfl
  | cons p ps ih =>
    have hne : ps ++ qs ≠ [] := List.append_ne_nil_of_right_ne_nil ps hqs
    rw [List.cons_append, linesOfPieces.eq_3 _ _ (fun h => hne h), ih, List.map_cons,
      List.cons_append]

/-- The lines of two texts, the first of which ends its last line. -/
theorem lines_append (s t : List Char) :
    lines (s ++ '\n' :: t) = lines (s ++ ['\n']) ++ lines t := by
  have hpieces : ∀ u, lines (s ++ '\n' :: u) =
      (splitOn '\n' s).map (dropOneAtEnd '\r') ++ lines u := by
    intro u
    rw [lines, splitOn_append, linesOfPieces_append _ (splitOn_ne_nil '\n' u), lines]
  have hnil : lines [] = [] := rfl
  rw [hpieces, hpieces, hnil, List.append_nil]

/-- The lines of two texts, if the first is nothing but whole lines. -/
theorem lines_append_of_ends {s : List Char} (hs : s = [] ∨ s.getLast? = some '\n')
    (t : List Char) : lines (s ++ t) = lines s ++ lines t := by
  rcases hs with rfl | hs
  · rfl
  · obtain ⟨r, rfl⟩ := List.getLast?_eq_some_iff.1 hs
    rw [List.append_assoc, List.singleton_append, lines_append]

theorem dropOneAtEnd_append_cons {last c : Char} (hc : c ≠ last) (w z : List Char) :
    dropOneAtEnd last (w ++ c :: z) = w ++ c :: dropOneAtEnd last z := by
  obtain rfl | ⟨y, a, rfl⟩ := List.eq_nil_or_concat z
  · simp [dropOneAtEnd, hc]
  · have hlast : (w ++ c :: (y ++ [a])).getLast? = some a := by
      rw [← List.cons_append, ← List.append_assoc, List.getLast?_concat]
    rw [List.concat_eq_append, dropOneAtEnd, dropOneAtEnd, hlast, List.getLast?_concat]
    split
    · rw [List.dropLast_append_of_ne_nil (List.cons_ne_nil _ _),
        List.dropLast_cons_of_ne_nil (by simp)]
    · rfl

/-- The first line of a text has what stands in front of a line feed. -/
theorem exists_lines_eq {w : List Char} (hw : '\n' ∉ w) {c : Char} (hline : c ≠ '\n')
    (hreturn : c ≠ '\r') (t : List Char) :
    ∃ z rest, lines (w ++ c :: t) = (w ++ c :: z) :: rest := by
  have hpiece : ∃ z rest, splitOn '\n' (w ++ c :: t) = (w ++ c :: z) :: rest := by
    have hcons : ∀ (d : Char) (u : List Char), d ≠ '\n' → ∀ piece rest,
        splitOn '\n' u = piece :: rest → splitOn '\n' (d :: u) = (d :: piece) :: rest := by
      intro d u hd piece rest hu
      rw [splitOn, if_neg hd, hu]
    induction w with
    | nil =>
      obtain ⟨z, rest, hz⟩ := List.exists_cons_of_ne_nil (splitOn_ne_nil '\n' t)
      exact ⟨z, rest, hcons c t hline z rest hz⟩
    | cons d w ih =>
      rw [List.mem_cons, not_or] at hw
      obtain ⟨z, rest, hz⟩ := ih hw.2
      exact ⟨z, rest, hcons d _ (Ne.symm hw.1) _ rest hz⟩
  obtain ⟨z, rest, hz⟩ := hpiece
  rw [lines, hz]
  cases rest with
  | nil => exact ⟨z, [], by simp [linesOfPieces]⟩
  | cons p ps =>
    refine ⟨dropOneAtEnd '\r' z, linesOfPieces (p :: ps), ?_⟩
    rw [linesOfPieces.eq_3 _ _ (fun h => List.cons_ne_nil p ps h), dropOneAtEnd_append_cons hreturn]

/-- The last line of a text, and what stands in front of it. -/
theorem exists_last_line (t : List Char) :
    ∃ p w, t = p ++ w ∧ '\n' ∉ w ∧ (p = [] ∨ p.getLast? = some '\n') := by
  by_cases hmem : '\n' ∈ t
  · obtain ⟨w, p, ht, hw⟩ := List.eq_append_cons_of_mem (List.mem_reverse.2 hmem)
    refine ⟨p.reverse ++ ['\n'], w.reverse, ?_, by simpa using hw, .inr (by simp)⟩
    rw [← List.reverse_reverse t, ht]
    simp
  · exact ⟨[], t, rfl, hmem, .inl rfl⟩

/-- A text without a line feed is its only line. -/
theorem lines_eq_self {w : List Char} (hne : w ≠ []) (hw : '\n' ∉ w) : lines w = [w] := by
  have hpiece : splitOn '\n' w = [w] := by
    clear hne
    induction w with
    | nil => rfl
    | cons c w ih =>
      rw [List.mem_cons, not_or] at hw
      rw [splitOn, if_neg (Ne.symm hw.1), ih hw.2]
  rw [lines, hpiece, linesOfPieces, if_neg (by simpa using hne)]

theorem mem_linesOfPieces {ps : List (List Char)} {x : List Char} (h : x ∈ linesOfPieces ps) :
    ∃ p ∈ ps, x ⊆ p := by
  induction ps with
  | nil => cases h
  | cons p ps ih =>
    cases ps with
    | nil =>
      rw [linesOfPieces] at h
      split at h
      · cases h
      · exact ⟨x, h, List.Subset.refl x⟩
    | cons q qs =>
      rw [linesOfPieces.eq_3 _ _ (fun h => List.cons_ne_nil q qs h)] at h
      rcases List.mem_cons.1 h with rfl | h
      · refine ⟨p, List.mem_cons_self, ?_⟩
        rw [dropOneAtEnd]
        split
        · exact List.dropLast_subset p
        · exact List.Subset.refl p
      · obtain ⟨r, hr, hsub⟩ := ih h
        exact ⟨r, List.mem_cons_of_mem p hr, hsub⟩

/-- The lines of a text are made of what is in it, but for line feeds. -/
theorem mem_lines {t x : List Char} (h : x ∈ lines t) : '\n' ∉ x ∧ x ⊆ t := by
  obtain ⟨p, hp, hsub⟩ := mem_linesOfPieces h
  obtain ⟨hline, ht⟩ := mem_splitOn hp
  exact ⟨fun hmem => hline (hsub hmem), List.Subset.trans hsub ht⟩

/-! ## Induction over lines -/

/-- What holds of a text of one line, and of every line in front of a text of which it holds, holds
of all texts. -/
theorem line_induction {P : List Char → Prop} (last : ∀ x, '\n' ∉ x → P x)
    (line : ∀ x s, '\n' ∉ x → P s → P (x ++ '\n' :: s)) (s : List Char) : P s := by
  induction hn : s.length using Nat.strongRecOn generalizing s with
  | ind n ih =>
    by_cases hmem : '\n' ∈ s
    · obtain ⟨x, y, rfl, hx⟩ := List.eq_append_cons_of_mem hmem
      refine line x y hx (ih y.length ?_ y rfl)
      simp only [← hn, List.length_append, List.length_cons]
      omega
    · exact last s hmem

end LockPrune.Text
