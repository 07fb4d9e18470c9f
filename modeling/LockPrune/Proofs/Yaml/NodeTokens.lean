import LockPrune.Proofs.Yaml.Fetch
import LockPrune.Proofs.Yaml.KeyText

/-!
# The tokens of a node

A node that is written behind a mark is scanned up to the next token behind it, and the
tokens on the way are those that the node consists of.

## Main definitions

* `Scalar.Fits` — a text that may be written in a style.
* `Scalar.IsQuoted` — a text that is written between quotes, and reads back.
* `Scanner.landed` — the state at the next token on a later line.
* `Scanner.EndsLine`, `Scanner.EndsKey` — what a run does at the end of a line, and in front of
  the colon of a key.

## Main statements

* `Scanner.endsLine_scalar`, `Scanner.endsLine_brackets` — what may end a line.
* `Scanner.endsKey_scalar`, `Scanner.endsKey_brackets` — what may stand in front of a colon.
* `Scanner.EndsLine.tagged`, `Scanner.EndsKey.tagged` — either of them behind a tag.
-/

namespace LockPrune.Yaml

open Scalar LockPrune.Yaml.Tree

/-! ## Texts that fit a style -/

/-- A text that may be written in a style. -/
inductive Scalar.Fits : Style → List Char → Prop where
  | plain {s : List Char} (h : plainAdmitted s = true) (hne : s ≠ []) : Fits .plain s
  | single {s : List Char} (h : singleAdmitted s = true) (hline : '\n' ∉ s) : Fits .single s
  | double (s : List Char) : Fits .double s
  | literal {s : List Char} (h : literalAdmitted s = true) : Fits .literal s

theorem Tree.IsSoundScalar.fits {tag : Option String} {style : Style} {text : String}
    (h : IsSoundScalar tag style text) (isKey : Bool) :
    Fits (admitted style isKey text.toList) text.toList := by
  have hquotes : style = .plain ∨ style = .single →
      Fits (if singleAdmitted text.toList then .single else .double) text.toList := by
    intro hstyle
    split
    · exact .single ‹_› (h.one_line hstyle)
    · exact .double _
  have hblock : Fits (if literalAdmitted text.toList && !isKey then .literal else .double)
      text.toList := by
    split
    · rename_i hand
      simp only [Bool.and_eq_true] at hand
      exact .literal hand.1
    · exact .double _
  cases style with
  | plain =>
    simp only [admitted]
    split
    · rename_i hand
      simp only [Bool.and_eq_true] at hand
      exact .plain hand.1 (h.ne_nil rfl)
    · exact hquotes (.inl rfl)
  | single => exact hquotes (.inr rfl)
  | double => exact .double _
  | literal => exact hblock
  | folded => exact hblock

/-- A text that is written between quotes, and that the reader for the quotes gives back. -/
structure Scalar.IsQuoted (q : Quoting) (st : Style) (indent : Nat) (s : List Char)
    (quote : Char) (x : List Char) : Prop where
  quoteOf : Scanner.QuoteOf quote (q.style st)
  write_eq : q.write st indent s = quote :: (x ++ [quote])
  read : ∀ {b : Nat} {t : List Char} {m : Mark}, t.head? ≠ some quote →
    (q.write st indent s).length ≤ b →
    (if q.style st = .single then readSingle else readDouble) b
        ⟨q.write st indent s ++ t, m⟩ =
      some (s, ⟨t, m.past (q.write st indent s)⟩)

theorem Scalar.IsQuoted.endsWith_isBreak {q : Quoting} {st : Style} {indent : Nat}
    {s x : List Char} {quote : Char} (h : IsQuoted q st indent s quote x) :
    endsWith isBreak (q.write st indent s) = false := by
  rw [h.write_eq, endsWith, ← List.cons_append, List.getLast?_concat]
  exact h.quoteOf.not_break.1

/-- In a style with quotes a text is written between quotes. -/
theorem Scalar.exists_isQuoted {st : Style} {s : List Char} (q : Quoting) (indent : Nat)
    (hfits : Fits st s) (hst : st = .single ∨ st = .double)
    (hindent : s.any isBreak = true → 0 < indent) :
    ∃ quote x, IsQuoted q st indent s quote x := by
  cases hfits with
  | plain => rcases hst with h | h <;> cases h
  | single h hline =>
    cases q with
    | single => exact ⟨'\x27', _, .single, rfl, readSingle_write h hline hindent⟩
    | double => exact ⟨'"', _, .double, rfl, readDouble_requote h hline hindent⟩
  | double =>
    refine ⟨'"', s.flatMap writeDoubleChar, ?_, by rw [q.write_double]; rfl, fun ht hb => ?_⟩
    · rw [q.style_double]
      exact .double
    · rw [q.write_double] at hb ⊢
      rw [q.style_double]
      exact readDouble_write ht hb
  | literal => rcases hst with h | h <;> cases h

/-! ## The end of a line -/

/-- Behind the end of a line the column is that of the spaces that follow. -/
theorem Mark.column_past_line {s : List Char} (hs : s.getLast?.any isBreak = true) (m : Mark)
    (k : Nat) : (m.past (s ++ spaces k)).column = k := by
  obtain ⟨y, a, rfl⟩ : ∃ y a, s = y ++ [a] := by
    refine (List.eq_nil_or_concat s).elim (fun h => ?_) fun ⟨y, a, h⟩ => ⟨y, a, by simpa using h⟩
    rw [h] at hs
    cases hs
  have ha : isBreak a = true := by simpa using hs
  rw [Mark.past_append, Mark.past_append, Mark.past_cons_break _ _ ha, Mark.past_spaces]
  simp [Mark.past, Mark.nextLine]

/-- Empty lines behind what ends with an end of line end with one. -/
theorem getLast?_append_lines {s g : List Char} (hs : s.getLast?.any isBreak = true)
    (hg : ∀ a ∈ g, a = '\n') : (s ++ g).getLast?.any isBreak = true := by
  rcases List.eq_nil_or_concat g with rfl | ⟨y, a, rfl⟩
  · rwa [List.append_nil]
  · have ha : a = '\n' := hg a (by simp)
    subst ha
    simp [isBreak]

namespace Scanner

section

variable {b n : Nat} {t : List Char} {m : Mark} {i : Int} {is : List Int} {ps : List Token}

/-- The state at the next token on a later line, behind the tokens `ps`. -/
def landed (b : Nat) (t : List Char) (m : Mark) (i : Int) (is : List Int) (ps : List Token)
    (n : Nat) : Scanner :=
  ⟨b, ⟨t, m⟩, (closeIndents m.column i is).2.1, (closeIndents m.column i is).2.2, true, none, [],
    ps ++ blockEnds (closeIndents m.column i is).1 m, n⟩

/-- In a block that goes on, nothing is closed. -/
theorem landed_of_le (h : i ≤ m.column) :
    landed b t m i is ps n = ⟨b, ⟨t, m⟩, i, is, true, none, [], ps, n⟩ := by
  simp [landed, closeIndents_of_le h, blockEnds]

/-- To the left of a block the block is closed. -/
theorem landed_inside {j : Int} (h : m.column < i) :
    landed b t m i (j :: is) ps n = landed b t m j is (ps ++ [⟨.blockEnd, m, m⟩]) n := by
  simp [landed, closeIndents, h, blockEnds, List.replicate_succ]

end

/-! ## Scalars at the end of a line -/

section

variable {b n p c : Nat} {is : List Int} {al : Bool} {key : Option PossibleKey} {ps : List Token}
  {s g next : List Char} {m : Mark}

/-- A quoted scalar at the end of a line. -/
theorem leads_quoted {q : Quoting} {st : Style} {quote : Char} {x : List Char}
    (h : IsQuoted q st (p + 2) s quote x) (hg : ∀ a ∈ g, a = '\n') (hnext : Starts next)
    (hkey : al = true → key = none) (hpassed : Passed (m.line + 1) key) (hcolumn : p < m.column)
    (hb : (closeLine (q.write st (p + 2) s) ++ (g ++ (spaces c ++ next))).length ≤ b) :
    ∃ tok m', tok.kind = .scalar (q.style st) s ∧ m'.column = c ∧
      Leads ⟨b, ⟨closeLine (q.write st (p + 2) s) ++ (g ++ (spaces c ++ next)), m⟩, p, is, al, key,
        [], ps, n⟩ (landed b next m' p is (ps ++ [tok]) n) := by
  have hclose : closeLine (q.write st (p + 2) s) ++ (g ++ (spaces c ++ next)) =
      quote :: (x ++ [quote]) ++ ('\n' :: g ++ (spaces c ++ next)) := by
    rw [closeLine_of_endsWith h.endsWith_isBreak, h.write_eq]
    simp
  rw [hclose] at hb ⊢
  simp only [List.length_append, List.length_cons] at hb
  have hread := h.read (b := b) (t := '\n' :: g ++ (spaces c ++ next)) (m := m)
    (by simpa using h.quoteOf.not_break.2.symm)
    (by simp only [h.write_eq, List.length_append, List.length_cons]; omega)
  rw [h.write_eq] at hread
  have hg' : ∀ a ∈ '\n' :: g, a = '\n' := by simpa using hg
  have hline : m.line <
      ((m.past (quote :: (x ++ [quote]))).past ('\n' :: g ++ spaces c)).line := by
    refine Nat.lt_of_le_of_lt (Mark.line_le_line_past m _) (Mark.line_lt_line_past ?_)
    simp [isBreak]
  have hsaved : Passed ((m.past (quote :: (x ++ [quote]))).past ('\n' :: g ++ spaces c)).line
      (saved al key p m (n + ps.length)) :=
    passed_saved (hpassed.mono hline) (fun _ => by exact_mod_cast hcolumn) hline
  obtain ⟨key', hdrop, hkey'⟩ :=
    exists_dropStaleKey (m := m.past (quote :: (x ++ [quote]))) hsaved
  refine ⟨⟨.scalar (q.style st) s, m, m.past (quote :: (x ++ [quote]))⟩, _, rfl, ?_,
    Leads.of_advance (by simp only [List.length_append, List.length_cons]; omega)
      (advance_quoted h.quoteOf hkey hread hdrop)
      ⟨_, arrive_line hnext hg' ?_ rfl hkey' rfl, .refl _⟩⟩
  · exact Mark.column_past_line (getLast?_append_lines (s := ['\n']) rfl hg) _ c
  · simp only [List.length_cons]
    omega

/-- A plain scalar at the end of a line. -/
theorem leads_plain (h : plainAdmitted s = true) (hne : s ≠ []) (hg : ∀ a ∈ g, a = '\n')
    (hc : c ≤ p) (hnext : Starts next) (hkey : al = true → key = none)
    (hpassed : Passed (m.line + 1) key) (hcolumn : p < m.column)
    (hb : (closeLine s ++ (g ++ (spaces c ++ next))).length ≤ b) :
    ∃ tok m', tok.kind = .scalar .plain s ∧ m'.column = c ∧
      Leads ⟨b, ⟨closeLine s ++ (g ++ (spaces c ++ next)), m⟩, p, is, al, key, [], ps, n⟩
        (landed b next m' p is (ps ++ [tok]) n) := by
  have hclose : closeLine s ++ (g ++ (spaces c ++ next)) =
      s ++ ('\n' :: g ++ (spaces c ++ next)) := by
    rw [closeLine_of_endsWith (words_of_plainAdmitted h hne).endsWith_isBreak]
    simp
  rw [hclose] at hb ⊢
  have hline : m.line < (m.past (s ++ ('\n' :: g ++ spaces c))).line := by
    refine Mark.line_lt_line_past ?_
    simp [isBreak]
  have hsaved : Passed (m.past (s ++ ('\n' :: g ++ spaces c))).line
      (saved al key p m (n + ps.length)) :=
    passed_saved (hpassed.mono hline) (fun _ => by exact_mod_cast hcolumn) hline
  have hcloses : ClosesPlain ('\n' :: g ++ (spaces c ++ next)) := .inr rfl
  obtain ⟨hdash, hdot⟩ := atDocumentMark_of_plainAdmitted h hne hcloses
  simp only [List.length_append, List.length_cons, length_spaces] at hb
  have hread : readPlain false ((p : Int) + 1) b ⟨s ++ ('\n' :: g ++ (spaces c ++ next)), m⟩ =
      some ⟨s, true, ⟨next, m.past (s ++ ('\n' :: g ++ spaces c))⟩⟩ :=
    readPlain_line (words_of_plainAdmitted h hne) (fun a ha => by rw [hg a ha]; decide)
      hnext.not_stop (by omega) (by simp only [Cursor.atDocumentMark, hdash, hdot]; simp) (by omega)
      (by omega) (by omega)
  refine ⟨⟨.scalar .plain s, m, m.past (s ++ ('\n' :: g ++ spaces c))⟩,
    m.past (s ++ ('\n' :: g ++ spaces c)), rfl, ?_,
    Leads.of_advance
      (by
        have := List.length_pos_iff.2 hne
        simp only [List.length_append, List.length_cons]
        omega)
      (advance_plain h hne hcloses hkey hread (dropStaleKey_of_passed hsaved)) ?_⟩
  · have hcolumn := Mark.column_past_line
      (getLast?_append_lines (s := s ++ ['\n']) (by simp [isBreak]) hg) m c
    simpa using hcolumn
  · exact ⟨_, arrive_line (g := []) (k := 0) hnext (by simp) (Nat.zero_le _) (by simp [spaces])
      (passed_none _) rfl, .refl _⟩

theorem lineEnd_literal (hne : s ≠ []) (indent : Nat) :
    lineEnd (Scalar.write .literal indent s) = lineEnd s := by
  have hlast : (Scalar.write .literal indent s).getLast? = s.getLast? := by
    rw [Scalar.write, List.getLast?_append, List.getLast?_cons, getLast?_writeLines]
    cases hs : s.getLast? with
    | none => exact absurd (List.getLast?_eq_none_iff.1 hs) hne
    | some a => rfl
  rw [lineEnd, lineEnd, endsWith, endsWith, hlast]

/-- A text whose empty lines at the end are kept ends with an empty line as it is written. -/
theorem endsBlank_of_keep (h : literalChomping s = .keep) (indent : Nat) :
    endsBlank (Scalar.write .literal indent s) = true := by
  rw [literalChomping] at h
  split at h
  · cases h
  · rename_i hlast
    split at h
    · rename_i hbefore
      obtain ⟨y, a, rfl⟩ : ∃ y a, s = y ++ [a] := by
        obtain rfl | ⟨y, a, hs⟩ := List.eq_nil_or_concat s
        · exact absurd rfl hlast
        · exact ⟨y, a, by simpa using hs⟩
      have ha : isBreak a = true := by simpa [endsWith] using hlast
      have hwrite : Scalar.write .literal indent (y ++ [a]) =
          literalHeader (y ++ [a]) ++ '\n' :: writeLines indent true y ++ [a] := by
        rw [Scalar.write, writeLines_append_breaks indent (by simpa using ha)]
        simp
      rw [hwrite, endsBlank, List.dropLast_concat]
      simp only [endsWith, List.getLast?_append, List.getLast?_cons, getLast?_writeLines]
      simp only [List.dropLast_concat, endsWith, Bool.or_eq_true, List.isEmpty_iff] at hbefore
      rcases hbefore with rfl | hbefore
      · have hline : isBreak '\n' = true := by decide
        simp [ha, hline]
      · cases hy : y.getLast? with
        | none => simp [hy] at hbefore
        | some d => simpa [hy, ha] using hbefore
    · cases h

/-- A block scalar. -/
theorem leads_literal (h : literalAdmitted s = true) (hg : ∀ a ∈ g, a = '\n')
    (hblank : g = [] ∨ endsBlank (Scalar.write .literal (p + 2) s) = false) (hc : c ≤ p)
    (hnext : Starts next) (hpassed : Passed (m.line + 1) key)
    (hb : (closeLine (Scalar.write .literal (p + 2) s) ++ (g ++ (spaces c ++ next))).length ≤ b) :
    ∃ tok m', tok.kind = .scalar .literal s ∧ m'.column = c ∧
      Leads ⟨b, ⟨closeLine (Scalar.write .literal (p + 2) s) ++ (g ++ (spaces c ++ next)), m⟩, p,
        is, al, key, [], ps, n⟩ (landed b next m' p is (ps ++ [tok]) n) := by
  simp only [literalAdmitted, needsEscapes, Bool.not_eq_true', Bool.or_eq_false_iff] at h
  obtain ⟨⟨⟨-, hprint⟩, -⟩, hempty⟩ := h
  have hne : s ≠ [] := by
    rintro rfl
    cases hempty
  have hprintable : ∀ a ∈ s, isPrintable a = true := fun a ha => by
    simpa using List.any_eq_false.1 hprint a ha
  have hkeep : literalChomping s = .keep → g = [] := by
    intro hk
    rcases hblank with hblank | hblank
    · exact hblank
    · rw [endsBlank_of_keep hk] at hblank
      cases hblank
  rw [closeLine_eq, lineEnd_literal hne, List.append_assoc] at hb ⊢
  have hread : readBlock false (p : Int) b
      ⟨Scalar.write .literal (p + 2) s ++ (lineEnd s ++ (g ++ (spaces c ++ next))), m⟩ =
        some (s, ⟨next,
          m.past (Scalar.write .literal (p + 2) s ++ (lineEnd s ++ (g ++ spaces c)))⟩) := by
    refine readBlock_literal hne hprintable (fun a ha => by rw [hg a ha]; decide) hkeep (by omega)
      hnext.not_stop ?_
    simp only [List.length_append] at hb ⊢
    omega
  obtain ⟨x, hx⟩ : ∃ x, Scalar.write .literal (p + 2) s = '|' :: x := ⟨_, rfl⟩
  rw [hx, List.cons_append] at hread ⊢
  refine ⟨⟨.scalar .literal s, m, m.past ('|' :: x ++ (lineEnd s ++ (g ++ spaces c)))⟩,
    m.past ('|' :: x ++ (lineEnd s ++ (g ++ spaces c))), rfl, ?_,
    Leads.of_advance (by simp only [List.length_append, List.length_cons]; omega)
      (advance_literal hpassed hread) ?_⟩
  · have hcolumn := Mark.column_past_line
      (getLast?_append_lines (endsWith_closeLine (Scalar.write .literal (p + 2) s)) hg) m c
    rw [closeLine_eq, lineEnd_literal hne, hx] at hcolumn
    simpa using hcolumn
  · exact ⟨_, arrive_line (g := []) (k := 0) hnext (by simp) (Nat.zero_le _) (by simp [spaces])
      (passed_none _) rfl, .refl _⟩

end

/-- A scalar is scanned up to the next line that is indented no more than its collection. -/
theorem leads_scalar {b p c : Nat} (n : Nat) (is : List Int) {al : Bool}
    {key : Option PossibleKey} (ps : List Token) {s g next : List Char} {st : Style} {m : Mark}
    (q : Quoting)
    (hfits : Fits st s) (hg : ∀ a ∈ g, a = '\n')
    (hblank : g = [] ∨ endsBlank (q.write st (p + 2) s) = false) (hc : c ≤ p)
    (hnext : Starts next) (hkey : al = true → key = none) (hpassed : Passed (m.line + 1) key)
    (hcolumn : p < m.column)
    (hb : (closeLine (q.write st (p + 2) s) ++ (g ++ (spaces c ++ next))).length ≤ b) :
    ∃ tok m', tok.kind = .scalar (q.style st) s ∧ m'.column = c ∧
      Leads ⟨b, ⟨closeLine (q.write st (p + 2) s) ++ (g ++ (spaces c ++ next)), m⟩, p, is, al, key,
        [], ps, n⟩ (landed b next m' p is (ps ++ [tok]) n) := by
  cases hfits with
  | plain h hne =>
    rw [q.write_plain] at hb ⊢
    rw [q.style_plain]
    exact leads_plain h hne hg hc hnext hkey hpassed hcolumn hb
  | single h hline =>
    obtain ⟨quote, x, hquoted⟩ := exists_isQuoted q (p + 2) (.single h hline) (.inl rfl)
      fun _ => Nat.succ_pos _
    exact leads_quoted hquoted hg hnext hkey hpassed hcolumn hb
  | double s =>
    obtain ⟨quote, x, hquoted⟩ := exists_isQuoted q (p + 2) (.double s) (.inr rfl)
      fun _ => Nat.succ_pos _
    exact leads_quoted hquoted hg hnext hkey hpassed hcolumn hb
  | literal h =>
    rw [q.write_literal] at hb hblank ⊢
    rw [q.style_literal]
    exact leads_literal h hg hblank hc hnext hpassed hb

/-! ## Tags -/

/-- A tag begins with its mark. -/
theorem exists_tagText (tag : String) : ∃ x, tagText tag = '!' :: x := by
  unfold tagText
  split
  · exact ⟨_, rfl⟩
  · exact ⟨_, rfl⟩

section

variable {b n : Nat} {i : Int} (is : List Int) {al : Bool} {key : Option PossibleKey}
  {ps : List Token} {t : List Char} {m : Mark} {tag : String}

/-- A tag in front of what stands on the same line. -/
theorem leads_tag {key₁ key₂ : Option PossibleKey} (htag : IsReadableTag tag) (ht : Starts t)
    (hkey : al = true → key = none) (hi : i ≤ m.column) (hb : (tagText tag).length ≤ b)
    (hdrop₁ : dropStaleKey (m.along (tagText tag)) (saved al key i m (n + ps.length)) = some key₁)
    (hdrop₂ : dropStaleKey (m.along (tagText tag ++ [' '])) key₁ = some key₂) :
    ∃ tok, tok.kind = .tag (tagToken tag) ∧ ∀ C,
      Leads ⟨b, ⟨t, m.along (tagText tag ++ [' '])⟩, i, is, false, key₂, [], ps ++ [tok], n⟩ C →
      Leads ⟨b, ⟨tagText tag ++ ' ' :: t, m⟩, i, is, al, key, [], ps, n⟩ C := by
  have hread := readTag_tagText (t := ' ' :: t) (m := m) htag rfl hb
  obtain ⟨x, hx⟩ := exists_tagText tag
  rw [hx] at hread hdrop₁ hdrop₂ ⊢
  refine ⟨⟨.tag (tagToken tag), m, m.along ('!' :: x)⟩, rfl, fun C hC => ?_⟩
  refine Leads.of_advance (by simp only [List.length_append, List.length_cons]; omega)
    (advance_tag hkey hread hdrop₁) ⟨_, ?_, hC⟩
  rw [Mark.along_append] at hdrop₂ ⊢
  exact arrive_inline (k := 1) ht (by simp only [Mark.column_along]; omega) hdrop₂

/-- A tag at the end of a line. -/
theorem leads_tag_line {k : Nat} (htag : IsReadableTag tag) (ht : Starts t)
    (hkey : al = true → key = none) (hpassed : Passed (m.line + 1) key)
    (hal : al = true → i < m.column) (hi : i ≤ k) (hb : (tagText tag).length ≤ b) (hpos : 0 < b) :
    ∃ tok m', tok.kind = .tag (tagToken tag) ∧ m'.column = k ∧ ∀ C,
      Leads ⟨b, ⟨t, m'⟩, i, is, true, none, [], ps ++ [tok], n⟩ C →
      Leads ⟨b, ⟨tagText tag ++ '\n' :: (spaces k ++ t), m⟩, i, is, al, key, [], ps, n⟩ C := by
  have hread := readTag_tagText (t := '\n' :: (spaces k ++ t)) (m := m) htag rfl hb
  have hline : m.line < ((m.along (tagText tag)).past (['\n'] ++ spaces k)).line :=
    Mark.line_lt_line_past (m := m.along (tagText tag)) (by simp [isBreak])
  have hcolumn : ((m.along (tagText tag)).past (['\n'] ++ spaces k)).column = k :=
    Mark.column_past_line rfl _ k
  have hsaved : Passed ((m.along (tagText tag)).past (['\n'] ++ spaces k)).line
      (saved al key i m (n + ps.length)) := passed_saved (hpassed.mono hline) hal hline
  obtain ⟨key', hdrop, hkey'⟩ := exists_dropStaleKey (m := m.along (tagText tag)) hsaved
  obtain ⟨x, hx⟩ := exists_tagText tag
  rw [hx] at hread hdrop hkey' hcolumn ⊢
  refine ⟨⟨.tag (tagToken tag), m, m.along ('!' :: x)⟩, _, rfl, hcolumn, fun C hC => ?_⟩
  refine Leads.of_advance (by simp only [List.length_append, List.length_cons]; omega)
    (advance_tag hkey hread hdrop) ⟨_, ?_, hC⟩
  rw [← landed_of_le (b := b) (n := n) (t := t) (by rw [hcolumn]; exact hi)]
  exact arrive_line (g := ['\n']) ht (by simp) hpos rfl hkey' rfl

end

/-! ## What ends a line -/

/-- A text with the tokens of the given kinds that ends a line: from it a run gets to the next
line that is indented no more than the collection around. -/
def EndsLine (b n p c : Nat) (is : List Int) (next : List Char) (s tail : List Char)
    (ks : List Token.Kind) : Prop :=
  ∀ (m : Mark) (al : Bool) (key : Option PossibleKey) (ps : List Token), p < m.column →
    (al = true → key = none) → Passed (m.line + 1) key →
    ∃ toks m', toks.map Token.kind = ks ∧ m'.column = c ∧
      Leads ⟨b, ⟨closeLine s ++ tail, m⟩, p, is, al, key, [], ps, n⟩
        (landed b next m' p is (ps ++ toks) n)

section

variable {b n p c : Nat} {is : List Int} {g next s tail : List Char} {ks : List Token.Kind}

/-- A scalar ends a line. -/
theorem endsLine_scalar (is : List Int) {st : Style} (q : Quoting) (hfits : Fits st s)
    (hg : ∀ a ∈ g, a = '\n')
    (hblank : g = [] ∨ endsBlank (q.write st (p + 2) s) = false) (hc : c ≤ p)
    (hnext : Starts next)
    (hb : (closeLine (q.write st (p + 2) s) ++ (g ++ (spaces c ++ next))).length ≤ b) :
    EndsLine b n p c is next (q.write st (p + 2) s) (g ++ (spaces c ++ next))
      [.scalar (q.style st) s] := by
  intro m al key ps hcolumn hkey hpassed
  obtain ⟨tok, m', hkind, hm', hleads⟩ :=
    leads_scalar n is ps q hfits hg hblank hc hnext hkey hpassed hcolumn hb
  exact ⟨[tok], m', by simp [hkind], hm', hleads⟩

/-- A pair of brackets ends a line. -/
theorem endsLine_brackets (is : List Int) {o d : Char} {opening closing : Token.Kind}
    (hbrackets : Brackets o d opening closing) (hg : ∀ a ∈ g, a = '\n') (hnext : Starts next)
    (hb : (g ++ (spaces c ++ next)).length < b) :
    EndsLine b n p c is next [o, d] (g ++ (spaces c ++ next)) [opening, closing] := by
  intro m al key ps hcolumn hkey hpassed
  have hclose : closeLine [o, d] ++ (g ++ (spaces c ++ next)) =
      o :: d :: ('\n' :: g ++ (spaces c ++ next)) := by
    cases hbrackets <;> rfl
  have hline : m.line < ((m.along [o, d]).past ('\n' :: g ++ spaces c)).line :=
    Mark.line_lt_line_past (m := m.along [o, d]) (by simp [isBreak])
  have hsaved : Passed ((m.along [o, d]).past ('\n' :: g ++ spaces c)).line
      (saved al key p m (n + ps.length)) :=
    passed_saved (hpassed.mono hline) (fun _ => by exact_mod_cast hcolumn) hline
  obtain ⟨key₁, hdrop₁, hkey₁⟩ := exists_dropStaleKey (m := m.along [o]) hsaved
  obtain ⟨key₂, hdrop₂, hkey₂⟩ := exists_dropStaleKey (m := m.along [o, d]) hkey₁
  have hg' : ∀ a ∈ '\n' :: g, a = '\n' := by simpa using hg
  rw [hclose]
  refine ⟨[⟨opening, m, m.along [o]⟩, ⟨closing, m.along [o], m.along [o, d]⟩],
    (m.along [o, d]).past ('\n' :: g ++ spaces c), rfl, ?_,
    leads_brackets hbrackets hkey hdrop₁ hdrop₂
      ⟨_, arrive_line hnext hg' ?_ rfl hkey₂ rfl, .refl _⟩⟩
  · exact Mark.column_past_line (getLast?_append_lines (s := ['\n']) rfl hg) _ c
  · simp only [List.length_append, List.length_cons] at hb ⊢
    omega

/-- A tag in front of what ends a line. -/
theorem EndsLine.tagged (h : EndsLine b n p c is next s tail ks) (hs : s ≠ [])
    (hstarts : Starts (closeLine s ++ tail)) {tag : Option String} (htag : HasSoundTag tag)
    (hb : (closeLine (withTag tag s) ++ tail).length ≤ b) :
    EndsLine b n p c is next (withTag tag s) tail (tagKinds tag ++ ks) := by
  cases tag with
  | none => exact h
  | some t =>
    intro m al key ps hcolumn hkey hpassed
    have hempty : s.isEmpty = false := by simpa using hs
    have htext :
        closeLine (withTag (some t) s) ++ tail = tagText t ++ ' ' :: (closeLine s ++ tail) := by
      simp only [withTag, hempty, Bool.false_eq_true, if_false]
      rw [closeLine_append (by simp), closeLine_cons (by decide)]
      simp
    rw [htext] at hb ⊢
    simp only [List.length_append] at hb
    -- the tag may begin a key, which is passed on a later line
    have hsaved : Passed (m.line + 1) (saved al key p m (n + ps.length)) :=
      passed_saved hpassed (fun _ => by exact_mod_cast hcolumn) (Nat.lt_succ_self _)
    obtain ⟨key₁, hdrop₁, hkey₁⟩ := exists_dropStaleKey (m := m.along (tagText t)) hsaved
    obtain ⟨key₂, hdrop₂, hkey₂⟩ := exists_dropStaleKey (m := m.along (tagText t ++ [' '])) hkey₁
    obtain ⟨tok, hkind, hleads⟩ := leads_tag (b := b) is (htag t rfl) hstarts hkey
      (by exact_mod_cast Nat.le_of_lt hcolumn) (by omega) hdrop₁ hdrop₂
    obtain ⟨toks, m', hkinds, hm', hrun⟩ :=
      h (m.along (tagText t ++ [' '])) false key₂ (ps ++ [tok])
      (by simp only [Mark.column_along]; omega) (by simp) hkey₂
    refine ⟨tok :: toks, m', by simp [tagKinds, hkind, hkinds], hm', hleads _ ?_⟩
    simpa using hrun

/-- What ends a line is gone to behind a mark. -/
theorem EndsLine.reaches (h : EndsLine b n p c is next s tail ks) (hs : s ≠ [])
    (hstarts : Starts (closeLine s ++ tail)) {m : Mark} (hm : p ≤ m.column) (al : Bool)
    (ps : List Token) :
    ∃ toks m', toks.map Token.kind = ks ∧ m'.column = c ∧
      Reaches ⟨b, ⟨closeLine (spaced s) ++ tail, m⟩, p, is, al, none, [], ps, n⟩
        (landed b next m' p is (ps ++ toks) n) := by
  have hempty : s.isEmpty = false := by simpa using hs
  have htext : closeLine (spaced s) ++ tail = spaces 1 ++ (closeLine s ++ tail) := by
    simp only [spaced, hempty, Bool.false_eq_true, if_false]
    rw [closeLine_cons (by decide)]
    rfl
  rw [htext]
  obtain ⟨toks, m', hkinds, hm', hrun⟩ := h (m.along (spaces 1)) al none ps
    (by simp only [Mark.column_along, length_spaces]; omega) (fun _ => rfl) (passed_none _)
  exact ⟨toks, m', hkinds, hm', _, arrive_inline hstarts (by omega) rfl, hrun⟩

end

/-! ## Keys -/

/-- A text with the tokens of the given kinds that stands in front of a colon: from it a run
gets to the colon, and the key that was begun is still possible. -/
def EndsKey (b n : Nat) (i : Int) (is : List Int) (t s : List Char) (ks : List Token.Kind) :
    Prop :=
  ∀ (m : Mark) (al : Bool) (key : Option PossibleKey) (ps : List Token) (k : PossibleKey),
    i ≤ m.column → (al = true → key = none) → saved al key i m (n + ps.length) = some k →
    k.mark.line = m.line → m.offset + octetCount s ≤ k.mark.offset + maxKeyLength →
    ∃ toks, toks.map Token.kind = ks ∧ ∀ C,
      Leads ⟨b, ⟨':' :: t, m.along s⟩, i, is, false, some k, [], ps ++ toks, n⟩ C →
      Leads ⟨b, ⟨s ++ ':' :: t, m⟩, i, is, al, key, [], ps, n⟩ C

section

variable {b n : Nat} {i : Int} {is : List Int} {t s : List Char} {ks : List Token.Kind}

/-- A colon is gone to when nothing stands in front of it. -/
theorem arrive_colon {key : PossibleKey} {ps : List Token} {m : Mark} (hi : i ≤ m.column)
    (hline : key.mark.line = m.line) (hoffset : m.offset ≤ key.mark.offset + maxKeyLength) :
    arrive ⟨b, ⟨':' :: t, m⟩, i, is, false, some key, [], ps, n⟩ =
      some ⟨b, ⟨':' :: t, m⟩, i, is, false, some key, [], ps, n⟩ := by
  have hstarts : Starts (':' :: t) := rfl
  have hdrop : dropStaleKey (m.along (spaces 0)) (some key) = some (some key) :=
    dropStaleKey_of_near hline hoffset
  exact arrive_inline (k := 0) hstarts hi hdrop

/-- A quoted scalar of one line stands in front of a colon. -/
theorem endsKey_quoted {q : Quoting} {st : Style} {quote : Char} {x : List Char}
    (h : IsQuoted q st 0 s quote x) (hline : ∀ a ∈ q.write st 0 s, isBreak a = false)
    (hb : (q.write st 0 s).length ≤ b) :
    EndsKey b n i is t (q.write st 0 s) [.scalar (q.style st) s] := by
  intro m al key ps k hi hkey hsaved hsame hoffset
  have hread := h.read (t := ':' :: t) (m := m) (by simpa using h.quoteOf.ne_colon.symm) hb
  rw [Mark.past_eq_along hline] at hread
  rw [h.write_eq] at hb hread hoffset ⊢
  have hdrop : dropStaleKey (m.along (quote :: (x ++ [quote]))) (saved al key i m (n + ps.length)) =
      some (some k) := by
    rw [hsaved]
    exact dropStaleKey_of_near hsame hoffset
  refine ⟨[⟨.scalar (q.style st) s, m, m.along (quote :: (x ++ [quote]))⟩], rfl, fun C hC => ?_⟩
  exact Leads.of_advance (by simp only [List.length_append, List.length_cons]; omega)
    (advance_quoted h.quoteOf hkey hread hdrop)
    ⟨_, arrive_colon (by simp only [Mark.column_along]; omega) hsame hoffset, hC⟩

/-- A plain scalar stands in front of a colon. -/
theorem endsKey_plain (h : plainAdmitted s = true) (hne : s ≠ []) (ht : atStop t = true)
    (hb : s.length ≤ b) : EndsKey b n i is t s [.scalar .plain s] := by
  intro m al key ps k hi hkey hsaved hsame hoffset
  have hcloses : ClosesPlain (':' :: t) := .inl rfl
  obtain ⟨hdash, hdot⟩ := atDocumentMark_of_plainAdmitted h hne hcloses
  have hread : readPlain false (i + 1) b ⟨s ++ ':' :: t, m⟩ =
      some ⟨s, false, ⟨':' :: t, m.along s⟩⟩ :=
    readPlain_key (words_of_plainAdmitted h hne) ht
      (by simp only [Cursor.atDocumentMark, hdash, hdot]; simp) (by omega) hb
  have hdrop : dropStaleKey (m.along s) (saved al key i m (n + ps.length)) = some (some k) := by
    rw [hsaved]
    exact dropStaleKey_of_near hsame hoffset
  refine ⟨[⟨.scalar .plain s, m, m.along s⟩], rfl, fun C hC => ?_⟩
  exact Leads.of_advance
    (by have := List.length_pos_iff.2 hne; simp only [List.length_append, List.length_cons]; omega)
    (advance_plain h hne hcloses hkey hread hdrop)
    ⟨_, arrive_colon (by simp only [Mark.column_along]; omega) hsame hoffset, hC⟩

/-- A scalar of one line stands in front of a colon. -/
theorem endsKey_scalar {st : Style} (q : Quoting) (hfits : Fits st s)
    (hs : ∀ a ∈ s, isBreak a = false)
    (hst : st = .plain ∨ st = .double ∨ (st = .single ∧ singleAdmitted s = true))
    (ht : atStop t = true) (hb : (q.write st 0 s).length ≤ b) :
    EndsKey b n i is t (q.write st 0 s) [.scalar (q.style st) s] := by
  obtain ⟨hline, -⟩ := write_line q 0 hs hst
  have hindent : s.any isBreak = true → 0 < 0 := fun hany => by
    obtain ⟨a, ha, hbreak⟩ := List.any_eq_true.1 hany
    rw [hs a ha] at hbreak
    cases hbreak
  cases hfits with
  | plain h hne =>
    rw [q.write_plain] at hb ⊢
    rw [q.style_plain]
    exact endsKey_plain h hne ht hb
  | single h hnl =>
    obtain ⟨quote, x, hquoted⟩ := exists_isQuoted q 0 (.single h hnl) (.inl rfl) hindent
    exact endsKey_quoted hquoted hline hb
  | double =>
    obtain ⟨quote, x, hquoted⟩ := exists_isQuoted q 0 (.double s) (.inr rfl) hindent
    exact endsKey_quoted hquoted hline hb
  | literal h => rcases hst with hst | hst | ⟨hst, -⟩ <;> cases hst

/-- A pair of brackets stands in front of a colon. -/
theorem endsKey_brackets {o d : Char} {opening closing : Token.Kind}
    (hbrackets : Brackets o d opening closing) :
    EndsKey b n i is t [o, d] [opening, closing] := by
  intro m al key ps k hi hkey hsaved hline hoffset
  have hpos := o.utf8Size_pos
  simp only [octetCount_cons, octetCount_nil] at hoffset
  have hdrop₁ : dropStaleKey (m.along [o]) (saved al key i m (n + ps.length)) = some (some k) := by
    rw [hsaved]
    exact dropStaleKey_of_near hline
      (by simp only [Mark.offset_along, octetCount_cons, octetCount_nil]; omega)
  have hdrop₂ : dropStaleKey (m.along [o, d]) (some k) = some (some k) :=
    dropStaleKey_of_near hline
      (by simp only [Mark.offset_along, octetCount_cons, octetCount_nil]; omega)
  refine ⟨[⟨opening, m, m.along [o]⟩, ⟨closing, m.along [o], m.along [o, d]⟩], rfl, fun C hC => ?_⟩
  refine leads_brackets hbrackets hkey hdrop₁ hdrop₂ ⟨_, arrive_colon ?_ hline ?_, hC⟩
  · simp only [Mark.column_along]
    omega
  · simp only [Mark.offset_along, octetCount_cons, octetCount_nil]
    omega

/-- A tag in front of what stands in front of a colon. -/
theorem EndsKey.tagged (h : EndsKey b n i is t s ks) (hs : s ≠ [])
    (hstarts : Starts (s ++ ':' :: t))
    {tag : Option String} (htag : HasSoundTag tag) (hb : (withTag tag s).length ≤ b) :
    EndsKey b n i is t (withTag tag s) (tagKinds tag ++ ks) := by
  cases tag with
  | none => exact h
  | some x =>
    intro m al key ps k hi hkey hsaved hline hoffset
    have hempty : s.isEmpty = false := by simpa using hs
    have htext : withTag (some x) s = tagText x ++ ' ' :: s := by
      simp only [withTag, hempty, Bool.false_eq_true, if_false]
    have hspace : (' ').utf8Size = 1 := by decide
    rw [htext] at hb hoffset ⊢
    simp only [List.length_append, octetCount_append, octetCount_cons, hspace] at hb hoffset
    have hdrop₁ : dropStaleKey (m.along (tagText x)) (saved al key i m (n + ps.length)) =
        some (some k) := by
      rw [hsaved]
      exact dropStaleKey_of_near hline (by simp only [Mark.offset_along]; omega)
    have hdrop₂ : dropStaleKey (m.along (tagText x ++ [' '])) (some k) = some (some k) :=
      dropStaleKey_of_near hline (by
        simp only [Mark.offset_along, octetCount_append, octetCount_cons, octetCount_nil, hspace]
        omega)
    obtain ⟨tok, hkind, hleads⟩ := leads_tag (b := b) is (htag x rfl) hstarts hkey hi
      (by omega) hdrop₁ hdrop₂
    obtain ⟨toks, hkinds, hrun⟩ := h (m.along (tagText x ++ [' '])) false (some k) (ps ++ [tok]) k
      (by simp only [Mark.column_along]; omega) (by simp) rfl hline
      (by
        simp only [Mark.offset_along, octetCount_append, octetCount_cons, octetCount_nil, hspace]
        omega)
    refine ⟨tok :: toks, by simp [tagKinds, hkind, hkinds], fun C hC => ?_⟩
    have hgo := hleads C (hrun C (by
      rw [← Mark.along_append]
      simpa using hC))
    simpa using hgo

end

end Scanner

end LockPrune.Yaml
