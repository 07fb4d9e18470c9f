import LockPrune.Yaml.Scalar.Plain
import LockPrune.Proofs.Yaml.Quoted

/-!
# Plain scalars read back

A text that is admitted without quotes is a row of words with spaces between.  Reading takes
the words up to the end of the text, which shows itself by the colon of a key or by a line
that is indented less.

## Main definitions

* `Words` — what makes a text admitted without quotes, in one place.

## Main statements

* `readPlain_key` — a plain key reads back, up to its colon.
* `readPlain_line` — a plain text at the end of a line reads back, up to the next line that
  is not empty.
-/

namespace LockPrune.Yaml

open Scalar

/-! ## Texts without quotes -/

/-- No colon of the text stands before a blank or at the end. -/
theorem hasKeyMark_eq_false_iff {s : List Char} :
    hasKeyMark s = false ↔ ∀ u v, s = u ++ ':' :: v → atStop v = false := by
  induction s with
  | nil => simp [hasKeyMark]
  | cons a s ih =>
    simp only [hasKeyMark, Bool.or_eq_false_iff, ih]
    constructor
    · rintro ⟨ha, hrest⟩ u v h
      cases u with
      | nil =>
        simp only [List.nil_append, List.cons.injEq] at h
        obtain ⟨rfl, rfl⟩ := h
        simpa using ha
      | cons b u =>
        simp only [List.cons_append, List.cons.injEq] at h
        exact hrest u v h.2
    · intro h
      refine ⟨?_, fun u v hs => h (a :: u) v (by rw [hs]; rfl)⟩
      by_cases ha : a = ':'
      · subst ha
        simpa using h [] s rfl
      · simp [ha]

/-- What is left of a row of words: it begins and ends with a word, and holds neither a key
nor a comment. -/
structure Words (s : List Char) : Prop where
  ne_nil : s ≠ []
  printable : ∀ c ∈ s, isPrintable c = true
  one_line : ∀ c ∈ s, isBreak c = false
  begins : s.head?.any (fun c => c = ' ' || c = '#') = false
  ends : s.getLast? ≠ some ' '
  no_key : hasKeyMark s = false
  no_comment : hasPair (fun c => isGap c || isBreak c) (· = '#') s = false

namespace Words

variable {s : List Char}

theorem endsWith_isBreak (h : Words s) : endsWith isBreak s = false := by
  rw [endsWith]
  cases hs : s.getLast? with
  | none => rfl
  | some a => exact h.one_line a (List.mem_of_getLast? hs)

/-- The characters of a row of words are blanks only if they are spaces. -/
theorem stop_iff (h : Words s) {c : Char} (hc : c ∈ s) :
    (isGap c || isBreak c) = true ↔ c = ' ' := by
  rw [h.one_line c hc, Bool.or_false, isGap_iff_of_isPrintable (h.printable c hc)]

/-- What stands behind a gap is a row of words again. -/
theorem behind_gap {w r : List Char} {k : Nat} (h : Words (w ++ (spaces (k + 1) ++ r)))
    (hr : r.head?.any (· = ' ') = false) : Words r := by
  have hmem : ∀ c ∈ r, c ∈ w ++ (spaces (k + 1) ++ r) := fun c hc => by simp [hc]
  have hcomment := h.no_comment
  have hspaces : spaces (k + 1) ≠ [] := List.cons_ne_nil _ _
  have hhash : r.head?.any (· = '#') = false :=
    head_of_hasPair (fun c hc => by simp [isGap, eq_space_of_mem_spaces hc]) hspaces hcomment
  exact
    { ne_nil := by
        rintro rfl
        apply h.ends
        rw [List.append_nil, spaces, List.replicate_succ', ← List.append_assoc]
        simp
      printable := fun c hc => h.printable c (hmem c hc)
      one_line := fun c hc => h.one_line c (hmem c hc)
      begins := by
        cases hhead : r.head? with
        | none => rfl
        | some b =>
          rw [hhead] at hr hhash
          simp only [Option.any_some] at hr hhash ⊢
          rw [hr, hhash]
          rfl
      ends := by
        intro hlast
        apply h.ends
        rw [List.getLast?_append, List.getLast?_append, hlast]
        rfl
      no_key := by
        rw [hasKeyMark_eq_false_iff]
        intro u v hv
        exact hasKeyMark_eq_false_iff.1 h.no_key (w ++ spaces (k + 1) ++ u) v (by rw [hv]; simp)
      no_comment := hasPair_of_append (hasPair_of_append hcomment) }

/-- A row of words is a word, or a word, a gap and a row of words. -/
theorem exists_word (h : Words s) :
    ∃ w r, s = w ++ r ∧ w ≠ [] ∧ (∀ c ∈ w, (isGap c || isBreak c) = false) ∧
      w.getLast? ≠ some ':' ∧ (r = [] ∨ ∃ k r', r = spaces (k + 1) ++ r' ∧ Words r') := by
  obtain ⟨w, r, rfl, hw, hr⟩ := exists_run (fun c => c != ' ') s
  have hword : ∀ c ∈ w, (isGap c || isBreak c) = false := by
    intro c hc
    have hne : c ≠ ' ' := by simpa using hw c hc
    have hiff := h.stop_iff (List.mem_append_left r hc)
    simp only [hne, iff_false, Bool.not_eq_true] at hiff
    exact hiff
  have hwne : w ≠ [] := by
    rintro rfl
    have hne := h.ne_nil
    cases r with
    | nil => simp at hne
    | cons a r =>
      have hbegins := h.begins
      simp only [List.head?_cons, Option.any_some, bne_eq_false_iff_eq] at hr
      simp [hr] at hbegins
  have hstop : atStop r = true := by
    cases r with
    | nil => rfl
    | cons a r =>
      simp only [List.head?_cons, Option.any_some, bne_eq_false_iff_eq] at hr
      simp [atStop, hr, isGap]
  have hcolon : w.getLast? ≠ some ':' := by
    intro hlast
    obtain ⟨u, rfl⟩ := List.getLast?_eq_some_iff.1 hlast
    have hkey := hasKeyMark_eq_false_iff.1 h.no_key u r (by simp)
    rw [hstop] at hkey
    cases hkey
  refine ⟨w, r, rfl, hwne, hword, hcolon, ?_⟩
  cases r with
  | nil => exact .inl rfl
  | cons a r =>
    simp only [List.head?_cons, Option.any_some, bne_eq_false_iff_eq] at hr
    subst hr
    obtain ⟨g, r', hgr, hg, hr'⟩ := exists_run (· = ' ') (' ' :: r)
    have hgne : g ≠ [] := by
      rintro rfl
      simp only [List.nil_append] at hgr
      simp [← hgr] at hr'
    obtain ⟨k, hk⟩ : ∃ k, g.length = k + 1 :=
      ⟨g.length - 1, by have := List.length_pos_iff.2 hgne; omega⟩
    have hspaces : g = spaces (k + 1) :=
      List.eq_replicate_iff.2 ⟨hk, fun c hc => of_decide_eq_true (hg c hc)⟩
    rw [hgr, hspaces] at h ⊢
    exact .inr ⟨k, r', rfl, h.behind_gap hr'⟩

end Words

/-- What a text has to be to be admitted without quotes. -/
theorem words_of_plainAdmitted {s : List Char} (h : plainAdmitted s = true) (hne : s ≠ []) :
    Words s := by
  simp only [plainAdmitted, Bool.not_eq_true', Bool.or_eq_false_iff, needsEscapes, looksMarked]
    at h
  obtain ⟨⟨⟨⟨⟨-, hprint⟩, hbreak⟩, hbegin⟩, hend⟩, ⟨⟨⟨-, hlead⟩, -⟩, hkey⟩, hcomment⟩ := h
  exact
    { ne_nil := hne
      printable := fun c hc => by simpa using List.any_eq_false.1 hprint c hc
      one_line := fun c hc => by simpa using List.any_eq_false.1 hbreak c hc
      begins := by
        cases hhead : s.head? with
        | none => rfl
        | some b =>
          simp only [beginsWith, hhead, Option.any_some, decide_eq_false_iff_not] at hbegin hlead
          have hhash : b ≠ '#' := by
            rintro rfl
            exact absurd hlead (by decide)
          simp [hbegin, hhash]
      ends := by
        intro hlast
        simp [endsWith, hlast] at hend
      no_key := hkey
      no_comment := hcomment }

/-! ## Words -/

/-- A word ends before a blank, an end of line, or the colon of a key. -/
def endsWord (r : List Char) : Bool :=
  match r with
  | ':' :: rest => atStop rest
  | r => atStop r

/-- The length of a word that stands before an end of words. -/
theorem plainWordLength_append {w r : List Char}
    (hw : ∀ c ∈ w, (isGap c || isBreak c) = false) (hlast : w.getLast? ≠ some ':')
    (hr : endsWord r = true) : plainWordLength false (w ++ r) = some w.length := by
  induction w with
  | nil =>
    cases r with
    | nil => rfl
    | cons a r =>
      by_cases ha : a = ':'
      · subst ha
        have hstop : atStop r = true := hr
        simp [plainWordLength, isGap, isBreak, hstop]
      · have hstop : atStop (a :: r) = true := by
          rw [endsWord] at hr
          · exact hr
          · rintro rest heq
            simp only [List.cons.injEq] at heq
            exact ha heq.1
        have hstop' : (isGap a || isBreak a) = true := hstop
        simp [plainWordLength, hstop']
  | cons a w ih =>
    have ha : (isGap a || isBreak a) = false := hw a List.mem_cons_self
    have hcolon : (decide (a = ':') && atStop (w ++ r)) = false := by
      cases w with
      | nil =>
        have hne : a ≠ ':' := by
          rintro rfl
          exact hlast rfl
        simp [hne]
      | cons b w =>
        have hb : (isGap b || isBreak b) = false := hw b (by simp)
        have hstop : atStop (b :: w ++ r) = (isGap b || isBreak b) := rfl
        rw [hstop, hb, Bool.and_false]
    have hrest : plainWordLength false (w ++ r) = some w.length := by
      refine ih (fun c hc => hw c (List.mem_cons_of_mem _ hc)) fun h => hlast ?_
      rw [List.getLast?_cons, h]
      rfl
    rw [List.cons_append, plainWordLength]
    simp only [ha, hcolon, Bool.false_and, Bool.or_self, Bool.false_eq_true, if_false]
    rw [hrest]
    rfl

/-! ## Reading -/

/-- What becomes of a plain scalar behind a word, in front of further words. -/
def plainAfterWord (indent : Int) (bound n : Nat) (text : List Char) (c : Cursor) :
    Option PlainScalar :=
  if atGap c.rest || atBreak c.rest then
    match Gap.read (fun column => (column : Int) < indent) bound .none c with
    | none => none
    | some (gap, c) =>
      if (c.column : Int) < indent then some ⟨text, gap.broken, c⟩
      else (readPlainWithin false indent bound n gap c).map (.prepend text)
  else some ⟨text, false, c⟩

/-- One word of a plain scalar is read. -/
theorem readPlainWithin_word {indent : Int} {bound n : Nat} {gap : Gap} {w r : List Char}
    {m : Mark} (hw : ∀ c ∈ w, (isGap c || isBreak c) = false) (hne : w ≠ [])
    (hhash : w.head? ≠ some '#') (hlast : w.getLast? ≠ some ':') (hr : endsWord r = true)
    (hmark : (Cursor.mk (w ++ r) m).atDocumentMark = false) :
    readPlainWithin false indent bound (n + 1) gap ⟨w ++ r, m⟩ =
      plainAfterWord indent bound n (gap.text ++ w) ⟨r, m.along w⟩ := by
  have hlen := plainWordLength_append hw hlast hr
  have hat : atOneOf ['#'] (w ++ r) = false := by
    cases w with
    | nil => exact absurd rfl hne
    | cons a w =>
      have ha : a ≠ '#' := by
        rintro rfl
        exact hhash rfl
      simpa [atOneOf] using ha
  obtain ⟨k, hk⟩ : ∃ k, w.length = k + 1 :=
    ⟨w.length - 1, by have := List.length_pos_iff.2 hne; omega⟩
  rw [hk] at hlen
  have htake : (w ++ r).take (k + 1) = w := by rw [← hk, List.take_left]
  have hskip : (Cursor.mk (w ++ r) m).skip (k + 1) = ⟨r, m.along w⟩ := by
    rw [← hk, Cursor.skip_append]
  rw [readPlainWithin]
  simp only [hmark, hat, Bool.or_self, Bool.false_eq_true, if_false, hlen, htake, hskip]
  rw [plainAfterWord]
  by_cases hend : (atGap r || atBreak r) = true
  · rw [if_pos hend, if_pos hend]
    cases Gap.read (fun column => decide ((column : Int) < indent)) bound .none ⟨r, m.along w⟩ with
    | none => rfl
    | some read => simp
  · rw [if_neg hend, if_neg hend]

/-- A row of words is read up to what follows it, whatever becomes of that. -/
theorem readPlainWithin_words {indent : Int} {bound : Nat} {t : List Char} {ended : Bool}
    {after : Mark → Cursor} (ht : endsWord t = true)
    (hafter : ∀ n text m, plainAfterWord indent bound n text ⟨t, m⟩ =
      some ⟨text, ended, after m⟩) :
    ∀ (n : Nat) (s : List Char) (gap : Gap) (m : Mark), s.length ≤ n → s.length ≤ bound →
      Words s → (Cursor.mk (s ++ t) m).atDocumentMark = false → indent ≤ m.column + 1 →
      readPlainWithin false indent bound n gap ⟨s ++ t, m⟩ =
        some ⟨gap.text ++ s, ended, after (m.along s)⟩ := by
  intro n
  induction n with
  | zero =>
    intro s gap m hn _ hs
    exact absurd (List.length_eq_zero_iff.1 (Nat.le_zero.1 hn)) hs.ne_nil
  | succ n ih =>
    intro s gap m hn hbound hs hmark hindent
    obtain ⟨w, r, rfl, hne, hw, hlast, hr⟩ := hs.exists_word
    have hhash : w.head? ≠ some '#' := by
      intro hhead
      have hbegins := hs.begins
      rw [List.head?_append, hhead] at hbegins
      simp at hbegins
    have hpos : 0 < w.length := List.length_pos_iff.2 hne
    simp only [List.length_append] at hn hbound
    rw [List.append_assoc] at hmark ⊢
    rcases hr with rfl | ⟨k, r', rfl, hr'⟩
    · -- the last word
      rw [List.nil_append] at hmark ⊢
      rw [readPlainWithin_word hw hne hhash hlast ht hmark, hafter, List.append_nil]
    · -- spaces and further words stand behind the word
      have hends : endsWord (spaces (k + 1) ++ r' ++ t) = true := rfl
      have hgap : (atGap (spaces (k + 1) ++ r' ++ t) || atBreak (spaces (k + 1) ++ r' ++ t))
          = true := rfl
      have hhead : (r' ++ t).head?.any (fun a => isGap a || isBreak a) = false := by
        cases r' with
        | nil => exact absurd rfl hr'.ne_nil
        | cons b r' =>
          have hb := hr'.stop_iff (c := b) List.mem_cons_self
          have hbegins := hr'.begins
          simp only [List.head?_cons, Option.any_some, Bool.or_eq_false_iff,
            decide_eq_false_iff_not] at hbegins
          simp only [hbegins.1, iff_false, Bool.not_eq_true] at hb
          simpa using hb
      simp only [List.length_append, length_spaces] at hn hbound
      have hread := Gap.read_spaces (p := fun column => decide ((column : Int) < indent)) hhead
        (k + 1) bound [] (m.along w) (by omega)
      rw [← List.append_assoc] at hread
      have hcolumn : ¬ ((((m.along w).along (spaces (k + 1))).column : Int) < indent) := by
        simp only [Mark.column_along, length_spaces]
        omega
      rw [readPlainWithin_word hw hne hhash hlast hends hmark, plainAfterWord]
      simp only [hgap, if_true]
      rw [show Gap.none = ⟨[], false, [], []⟩ from rfl, hread]
      simp only [Cursor.column, hcolumn, if_false]
      rw [ih r' _ _ (by omega) (by omega) hr' (Cursor.atDocumentMark_of_column ?_) ?_]
      · have htext : Gap.text ⟨[] ++ spaces (k + 1), false, [], []⟩ = spaces (k + 1) := by
          simp [Gap.text]
        rw [htext, Option.map_some, PlainScalar.prepend, Mark.along_append, Mark.along_append]
        simp only [List.append_assoc]
      · simp only [Cursor.column, Mark.column_along, length_spaces]
        omega
      · simp only [Mark.column_along, length_spaces]
        omega

/-- A plain text reads back, up to the colon of the key that it is. -/
theorem readPlain_key {indent : Int} {bound : Nat} {s t : List Char} {m : Mark} (hs : Words s)
    (ht : atStop t = true) (hmark : (Cursor.mk (s ++ ':' :: t) m).atDocumentMark = false)
    (hindent : indent ≤ m.column + 1) (hbound : s.length ≤ bound) :
    readPlain false indent bound ⟨s ++ ':' :: t, m⟩ =
      some ⟨s, false, ⟨':' :: t, m.along s⟩⟩ := by
  have hafter : ∀ n text m, plainAfterWord indent bound n text ⟨':' :: t, m⟩ =
      some ⟨text, false, ⟨':' :: t, m⟩⟩ := by
    intro n text m
    simp [plainAfterWord, atGap, atBreak, isGap, isBreak]
  have hread := readPlainWithin_words (t := ':' :: t) ht hafter (bound + 1) s .none m (by omega)
    hbound hs hmark hindent
  simpa [readPlain, Gap.text, Gap.none] using hread

/-- A plain text at the end of a line reads back, up to a line that is indented less. -/
theorem readPlain_line {indent : Int} {bound k : Nat} {s g t : List Char} {m : Mark}
    (hs : Words s) (hg : ∀ b ∈ g, isWrittenBreak b = true)
    (ht : t.head?.any (fun a => isGap a || isBreak a) = false) (hk : (k : Int) < indent)
    (hmark : (Cursor.mk (s ++ ('\n' :: g ++ (spaces k ++ t))) m).atDocumentMark = false)
    (hindent : indent ≤ m.column + 1) (hbound : s.length ≤ bound)
    (hgap : g.length + k < bound) :
    readPlain false indent bound ⟨s ++ ('\n' :: g ++ (spaces k ++ t)), m⟩ =
      some ⟨s, true, ⟨t, m.past (s ++ ('\n' :: g ++ spaces k))⟩⟩ := by
  have hafter : ∀ n text m, plainAfterWord indent bound n text
      ⟨'\n' :: g ++ (spaces k ++ t), m⟩ =
        some ⟨text, true, ⟨t, m.past ('\n' :: g ++ spaces k)⟩⟩ := by
    intro n text m
    have hread := Gap.read_breaks (p := fun column => decide ((column : Int) < indent)) ht m
      (b := '\n') (by decide) hg hgap
    have hcolumn : (m.past ('\n' :: g ++ spaces k)).column = k :=
      Mark.column_past_breaks_spaces k (List.forall_mem_cons.2
        ⟨by decide, fun c hc => isBreak_of_isWrittenBreak (hg c hc)⟩) (by simp)
    have hat : (atGap ('\n' :: g ++ (spaces k ++ t)) || atBreak ('\n' :: g ++ (spaces k ++ t)))
        = true := rfl
    rw [plainAfterWord]
    simp only [hat, if_true, hread, Cursor.column, hcolumn, hk]
  have hread := readPlainWithin_words (t := '\n' :: g ++ (spaces k ++ t)) rfl hafter (bound + 1)
    s .none m (by omega) hbound hs hmark hindent
  have hpast : m.past s = m.along s := Mark.past_eq_along hs.one_line
  rw [Mark.past_append, hpast]
  simpa [readPlain, Gap.text, Gap.none] using hread

end LockPrune.Yaml
