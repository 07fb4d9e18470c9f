import LockPrune.Yaml.Scalar.Block
import LockPrune.Proofs.Yaml.Cursor

/-!
# Block scalars read back

A text that is admitted in a block is written line by line, below a header that tells how
the block begins and what becomes of the ends of line at its end.  Reading goes over the
empty lines and the indentation of every line, and stops at a line that is indented less.

## Main definitions

* `literalChomping`, `literalHint` — what the header of a text tells.
* `lineEnd` — the line feed that a text needs at its end.

## Main statements

* `readBlock_literal` — what is written as a block reads back, up to the next line that is
  not empty.
-/

namespace LockPrune.Yaml

open Scalar

/-! ## Empty lines and indentation -/

/-- What stands behind a block begins with no blank and no end of line. -/
theorem head_of_not_stop {t : List Char}
    (ht : t.head?.any (fun a => isGap a || isBreak a) = false) :
    t.head?.any (fun a => isBreak a || a = '\t') = false ∧ t.head? ≠ some ' ' := by
  cases hhead : t.head? with
  | none => exact ⟨rfl, by simp⟩
  | some a =>
    rw [hhead] at ht
    simp only [Option.any_some, isGap, Bool.or_eq_false_iff] at ht ⊢
    exact ⟨⟨ht.2, ht.1.2⟩, by simpa using ht.1.1⟩

/-- The spaces of a line are read up to the indentation, from any column on. -/
theorem readBlankLines_spaces {indent k : Nat} {t : List Char} (hk : k ≤ indent)
    (ht : t.head?.any (fun a => isBreak a || a = '\t') = false)
    (hspace : k < indent → t.head? ≠ some ' ') :
    ∀ (j n deepest : Nat) (breaks : List Char) (m : Mark), m.column + j = k → j < n →
      ∃ d, readBlankLines (some indent) n deepest breaks ⟨spaces j ++ t, m⟩ =
        some (d, breaks, ⟨t, m.past (spaces j)⟩) := by
  intro j
  induction j with
  | zero =>
    intro n deepest breaks m hm hn
    obtain ⟨n, rfl⟩ : ∃ n', n = n' + 1 := ⟨n - 1, by omega⟩
    cases t with
    | nil => exact ⟨_, rfl⟩
    | cons a t =>
      simp only [List.head?_cons, Option.any_some, Bool.or_eq_false_iff,
        decide_eq_false_iff_not] at ht
      have hshort : (decide (a = ' ') && isShort (some indent) m.column) = false := by
        by_cases ha : a = ' '
        · have hlt : ¬ m.column < indent := by
            intro hlt
            exact hspace (by omega) (by rw [ha]; rfl)
          simp [isShort, hlt]
        · simp [ha]
      refine ⟨max deepest m.column, ?_⟩
      simp [readBlankLines, Cursor.column, hshort, ht.1, ht.2]
  | succ j ih =>
    intro n deepest breaks m hm hn
    obtain ⟨n, rfl⟩ : ∃ n', n = n' + 1 := ⟨n - 1, by omega⟩
    have hshort : isShort (some indent) m.column = true := by
      have hlt : m.column < indent := by omega
      simp [isShort, hlt]
    obtain ⟨d, hd⟩ := ih n deepest breaks (m.along [' ']) (by simp; omega) (by omega)
    refine ⟨d, ?_⟩
    rw [spaces_succ, List.cons_append, readBlankLines,
      Mark.past_cons_of_not_break _ _ (by decide : isBreak ' ' = false)]
    simp only [Cursor.column, decide_true, hshort, Bool.and_self, if_true, Cursor.skip_one]
    exact hd

/-- Empty lines are read, and the spaces of the next line up to the indentation. -/
theorem readBlankLines_some {indent k : Nat} {t : List Char} (hk : k ≤ indent)
    (ht : t.head?.any (fun a => isBreak a || a = '\t') = false)
    (hspace : k < indent → t.head? ≠ some ' ') :
    ∀ (g : List Char) (n deepest : Nat) (breaks : List Char) (m : Mark),
      (∀ b ∈ g, isWrittenBreak b = true) → m.column = 0 → g.length + k < n →
      ∃ d, readBlankLines (some indent) n deepest breaks ⟨g ++ (spaces k ++ t), m⟩ =
        some (d, breaks ++ g, ⟨t, m.past (g ++ spaces k)⟩) := by
  intro g
  induction g with
  | nil =>
    intro n deepest breaks m _ hm hn
    simp only [List.length_nil, Nat.zero_add] at hn
    simpa using readBlankLines_spaces hk ht hspace k n deepest breaks m (by omega) hn
  | cons b g ih =>
    intro n deepest breaks m hg hm hn
    simp only [List.length_cons] at hn
    obtain ⟨n, rfl⟩ : ∃ n', n = n' + 1 := ⟨n - 1, by omega⟩
    have hb : isWrittenBreak b = true := hg b List.mem_cons_self
    have hbreak : isBreak b = true := isBreak_of_isWrittenBreak hb
    have hne : b ≠ ' ' ∧ b ≠ '\t' := by
      rcases isWrittenBreak_iff.1 hb with rfl | rfl | rfl <;> decide
    obtain ⟨d, hd⟩ := ih n (max deepest m.column) (breaks ++ [b]) (m.nextLine [b])
      (fun c hc => hg c (List.mem_cons_of_mem _ hc)) rfl (by omega)
    refine ⟨d, ?_⟩
    rw [List.cons_append, readBlankLines, List.cons_append, Mark.past_cons_break _ _ hbreak]
    simp only [hne.1, hne.2, decide_false, Bool.false_and, Bool.false_eq_true, if_false, hbreak,
      if_true, Cursor.readLine_break _ _ hb]
    rw [Cursor.column, hd]
    simp

/-- Without an indentation in the header, the first line that is not empty gives it. -/
theorem readBlankLines_none {t : List Char}
    (ht : t.head?.any (fun a => isGap a || isBreak a) = false) (hne : t ≠ []) :
    ∀ (k n deepest : Nat) (m : Mark), deepest ≤ m.column → k < n →
      readBlankLines none n deepest [] ⟨spaces k ++ t, m⟩ =
        some (m.column + k, [], ⟨t, m.past (spaces k)⟩) := by
  intro k
  induction k with
  | zero =>
    intro n deepest m hm hn
    obtain ⟨n, rfl⟩ : ∃ n', n = n' + 1 := ⟨n - 1, by omega⟩
    cases t with
    | nil => exact absurd rfl hne
    | cons a t =>
      simp only [List.head?_cons, Option.any_some, Bool.or_eq_false_iff, isGap,
        decide_eq_false_iff_not] at ht
      obtain ⟨⟨hspace, htab⟩, hbreak⟩ := ht
      simp [readBlankLines, Cursor.column, hspace, htab, hbreak, Nat.max_eq_right hm]
  | succ k ih =>
    intro n deepest m hm hn
    obtain ⟨n, rfl⟩ : ∃ n', n = n' + 1 := ⟨n - 1, by omega⟩
    rw [spaces_succ, List.cons_append, readBlankLines,
      Mark.past_cons_of_not_break _ _ (by decide : isBreak ' ' = false)]
    simp only [decide_true, isShort, Bool.and_self, if_true, Cursor.skip_one]
    rw [ih n deepest _ (by simp; omega) (by omega), Mark.column_along]
    simp only [List.length_singleton, Nat.add_assoc, Nat.add_comm 1 k]

/-! ## Lines -/

theorem writeLines_nil (indent : Nat) (fresh : Bool) : writeLines indent fresh [] = [] := by
  simp [writeLines]

/-- The characters of a line are written as they are. -/
theorem writeLines_append (indent : Nat) {w : List Char} (hw : ∀ c ∈ w, isBreak c = false)
    (s : List Char) :
    writeLines indent false (w ++ s) = w ++ writeLines indent false s := by
  induction w with
  | nil => rfl
  | cons c w ih =>
    have hc : isBreak c = false := hw c List.mem_cons_self
    rw [List.cons_append, writeLines]
    simp only [hc, Bool.false_eq_true, if_false, List.nil_append, List.cons_append,
      List.cons.injEq, true_and]
    exact ih fun d hd => hw d (List.mem_cons_of_mem _ hd)

/-- Ends of line are written as they are. -/
theorem writeLines_breaks (indent : Nat) {g : List Char} (hg : ∀ c ∈ g, isBreak c = true)
    (hne : g ≠ []) (fresh : Bool) (s : List Char) :
    writeLines indent fresh (g ++ s) = g ++ writeLines indent true s := by
  induction g generalizing fresh with
  | nil => exact absurd rfl hne
  | cons c g ih =>
    have hc : isBreak c = true := hg c List.mem_cons_self
    rw [List.cons_append, writeLines]
    simp only [hc, if_true, List.cons_append, List.cons.injEq, true_and]
    cases g with
    | nil => rfl
    | cons d g => exact ih (fun e he => hg e (List.mem_cons_of_mem _ he)) (by simp) true

/-- A line begins at the indentation. -/
theorem writeLines_fresh (indent : Nat) {s : List Char} (hs : s.head?.any isBreak = false)
    (hne : s ≠ []) :
    writeLines indent true s = spaces indent ++ writeLines indent false s := by
  cases s with
  | nil => exact absurd rfl hne
  | cons c s =>
    simp only [List.head?_cons, Option.any_some] at hs
    simp [writeLines, hs]

/-- A line, the ends of line behind it and the indentation of the next one. -/
theorem writeLines_line (indent : Nat) {w g s : List Char} (hw : ∀ c ∈ w, isBreak c = false)
    (hg : ∀ c ∈ g, isBreak c = true) (hgne : g ≠ []) (hs : s.head?.any isBreak = false)
    (hne : s ≠ []) :
    writeLines indent false (w ++ (g ++ s)) =
      w ++ (g ++ (spaces indent ++ writeLines indent false s)) := by
  rw [writeLines_append indent hw, writeLines_breaks indent hg hgne, writeLines_fresh indent hs hne]

/-- What begins with a character of its own is written so. -/
theorem head?_writeLines {indent : Nat} {s : List Char} (hne : s ≠ [])
    (hs : s.head?.any isBreak = false) (t : List Char) :
    (writeLines indent false s ++ t).head? = s.head? := by
  obtain ⟨a, s, rfl⟩ := List.exists_cons_of_ne_nil hne
  simp only [List.head?_cons, Option.any_some] at hs
  simp [writeLines, hs]

/-- The first line of a text, the ends of line behind it, and the further lines; or the text
is a single line. -/
theorem exists_line {r : List Char} (hne : r ≠ []) (hhead : r.head?.any isBreak = false)
    (hlast : r.getLast?.any isBreak = false) :
    ∃ line g r', r = line ++ (g ++ r') ∧ line ≠ [] ∧ (∀ c ∈ line, isBreak c = false) ∧
      ((g = [] ∧ r' = []) ∨ (g ≠ [] ∧ (∀ c ∈ g, isBreak c = true) ∧ r' ≠ [] ∧
        r'.head?.any isBreak = false ∧ r'.getLast?.any isBreak = false)) := by
  obtain ⟨line, r1, rfl, hline, hr1⟩ := exists_run (fun a => !isBreak a) r
  have hnot : ∀ c ∈ line, isBreak c = false := fun c hc => by simpa using hline c hc
  have hlne : line ≠ [] := by
    rintro rfl
    cases r1 with
    | nil => exact hne rfl
    | cons a r1 =>
      simp only [List.nil_append, List.head?_cons, Option.any_some] at hhead hr1
      simp [hhead] at hr1
  obtain ⟨g, r', rfl, hg, hr'⟩ := exists_run isBreak r1
  refine ⟨line, g, r', rfl, hlne, hnot, ?_⟩
  by_cases hgne : g = []
  · left
    subst hgne
    refine ⟨rfl, ?_⟩
    cases r' with
    | nil => rfl
    | cons a r' =>
      simp only [List.nil_append, List.head?_cons, Option.any_some] at hr1 hr'
      simp [hr'] at hr1
  · right
    have hr'ne : r' ≠ [] := by
      rintro rfl
      rw [List.append_nil, List.getLast?_append] at hlast
      rw [List.getLast?_eq_some_getLast hgne] at hlast
      simp [hg _ (List.getLast_mem hgne)] at hlast
    refine ⟨hgne, hg, hr'ne, hr', ?_⟩
    rw [List.getLast?_append, List.getLast?_append,
      List.getLast?_eq_some_getLast hr'ne] at hlast
    rw [List.getLast?_eq_some_getLast hr'ne]
    exact hlast

/-- One line of a block is read, with the empty lines behind it and the indentation of the
next. -/
theorem readBlockLines_line {indent bound n k : Nat} {b : BlockText} {line g t : List Char}
    {x : Char} {m : Mark} (hm : m.column = indent) (hne : line ≠ [])
    (hline : ∀ c ∈ line, isBreak c = false) (hx : isWrittenBreak x = true)
    (hg : ∀ c ∈ g, isWrittenBreak c = true) (hk : k ≤ indent)
    (ht : t.head?.any (fun a => isBreak a || a = '\t') = false)
    (hspace : k < indent → t.head? ≠ some ' ') (hbound : g.length + k ≤ bound) :
    readBlockLines false indent bound (n + 1) b ⟨line ++ (x :: g ++ (spaces k ++ t)), m⟩ =
      readBlockLines false indent bound n
        ⟨b.text ++ b.lineEnd ++ b.blankEnds ++ line, [x], g, atGap (line ++ x :: g)⟩
        ⟨t, m.past (line ++ (x :: g ++ spaces k))⟩ := by
  have hbreak : isBreak x = true := isBreak_of_isWrittenBreak hx
  have hrest : (line ++ (x :: g ++ (spaces k ++ t))).isEmpty = false := by simp
  have htake : (line ++ (x :: g ++ (spaces k ++ t))).takeWhile (fun a => !isBreak a) = line :=
    Cursor.takeWhile_prefix (fun c hc => by simp [hline c hc]) (by simp [hbreak])
  have hgap : atGap (line ++ (x :: g ++ (spaces k ++ t))) = atGap (line ++ x :: g) := by
    cases line with
    | nil => exact absurd rfl hne
    | cons a line => rfl
  obtain ⟨d, hd⟩ := readBlankLines_some hk ht hspace g (bound + 1) 0 []
    ((m.along line).nextLine [x]) hg rfl (by omega)
  have hpast : m.past (line ++ (x :: g ++ spaces k)) =
      ((m.along line).nextLine [x]).past (g ++ spaces k) := by
    rw [Mark.past_append, Mark.past_eq_along hline, List.cons_append,
      Mark.past_cons_break _ _ hbreak]
  rw [readBlockLines, hpast]
  simp only [Cursor.column, hm, decide_true, hrest, Bool.not_false, Bool.and_self, if_true,
    htake, Cursor.skip_append]
  rw [List.cons_append, Cursor.readLine_break _ _ hx]
  have hjoint : ∀ blank, b.joint false blank = b.lineEnd ++ b.blankEnds := by
    intro blank
    simp [BlockText.joint]
  rw [List.cons_append] at hgap
  simp only [hd, hjoint, hgap, List.nil_append, List.append_assoc]

/-- The lines of a block end before a line that is indented otherwise. -/
theorem readBlockLines_stop {indent : Nat} (bound n : Nat) (b : BlockText) (t : List Char)
    {m : Mark} (hm : m.column ≠ indent) :
    readBlockLines false indent bound n b ⟨t, m⟩ = some (b, ⟨t, m⟩) := by
  cases n with
  | zero => rfl
  | succ n =>
    rw [readBlockLines]
    simp only [Cursor.column, hm, decide_false, Bool.false_and, Bool.false_eq_true, if_false]

/-- Lines that begin and end with characters of their own are read, and after the last of
them its end of line and the empty lines behind it. -/
theorem readBlockLines_text {indent bound k : Nat} {x : Char} {g t : List Char}
    (hx : isWrittenBreak x = true) (hg : ∀ c ∈ g, isWrittenBreak c = true) (hk : k < indent)
    (ht : t.head?.any (fun a => isGap a || isBreak a) = false) (hgk : g.length + k ≤ bound) :
    ∀ (n : Nat) (r : List Char) (b : BlockText) (m : Mark), r ≠ [] →
      r.head?.any isBreak = false → r.getLast?.any isBreak = false →
      (∀ c ∈ r, isPrintable c = true) → m.column = indent → r.length ≤ n →
      (writeLines indent false r).length ≤ bound →
      ∃ blank, readBlockLines false indent bound n b
          ⟨writeLines indent false r ++ (x :: g ++ (spaces k ++ t)), m⟩ =
        some (⟨b.text ++ b.lineEnd ++ b.blankEnds ++ r, [x], g, blank⟩,
          ⟨t, m.past (writeLines indent false r ++ (x :: g ++ spaces k))⟩) := by
  intro n
  induction n with
  | zero =>
    intro r b m hne _ _ _ _ hn
    exact absurd (List.length_eq_zero_iff.1 (Nat.le_zero.1 hn)) hne
  | succ n ih =>
    intro r b m hne hhead hlast hprint hm hn hbound
    obtain ⟨line, g', r', rfl, hlne, hline, hrest⟩ := exists_line hne hhead hlast
    have hlpos : 0 < line.length := List.length_pos_iff.2 hlne
    simp only [List.length_append] at hn
    rcases hrest with ⟨rfl, rfl⟩ | ⟨hgne, hg', hr'ne, hr'head, hr'last⟩
    · -- the last line
      have hcolumn : (m.past (line ++ (x :: g ++ spaces k))).column = k := by
        rw [Mark.past_append]
        exact Mark.column_past_breaks_spaces k (List.forall_mem_cons.2
          ⟨isBreak_of_isWrittenBreak hx, fun c hc => isBreak_of_isWrittenBreak (hg c hc)⟩) (by simp)
      refine ⟨atGap (line ++ x :: g), ?_⟩
      have hwrite := writeLines_append indent hline []
      rw [writeLines_nil, List.append_nil] at hwrite
      rw [List.append_nil, List.append_nil, hwrite,
        readBlockLines_line hm hlne hline hx hg (Nat.le_of_lt hk) (head_of_not_stop ht).1
          (fun _ => (head_of_not_stop ht).2) hgk,
        readBlockLines_stop bound n _ t (by omega)]
    · -- a further line
      obtain ⟨y, g', rfl⟩ := List.exists_cons_of_ne_nil hgne
      have hwritten : ∀ c ∈ y :: g', isWrittenBreak c = true := by
        intro c hc
        have hp : isPrintable c = true :=
          hprint c (List.mem_append_right _ (List.mem_append_left _ hc))
        simp [isWrittenBreak, hg' c hc, hp]
      rw [writeLines_line indent hline hg' hgne hr'head hr'ne] at hbound ⊢
      simp only [List.length_append, List.length_cons, length_spaces] at hn hbound
      have hhead' : (writeLines indent false r' ++ (x :: g ++ (spaces k ++ t))).head?.any
          (fun a => isBreak a || a = '\t') = false := by
        rw [head?_writeLines hr'ne hr'head]
        obtain ⟨c, r', rfl⟩ := List.exists_cons_of_ne_nil hr'ne
        have hc := hprint c (by simp)
        simp only [List.head?_cons, Option.any_some] at hr'head ⊢
        simp [hr'head, (ne_of_isPrintable hc).1]
      have hcolumn : (m.past (line ++ (y :: g' ++ spaces indent))).column = indent := by
        rw [Mark.past_append]
        exact Mark.column_past_breaks_spaces indent hg' (by simp)
      obtain ⟨blank, hrec⟩ := ih r'
        ⟨b.text ++ b.lineEnd ++ b.blankEnds ++ line, [y], g', atGap (line ++ y :: g')⟩
        (m.past (line ++ (y :: g' ++ spaces indent))) hr'ne hr'head hr'last
        (fun c hc => hprint c (by simp [hc])) hcolumn (by omega) (by omega)
      refine ⟨blank, ?_⟩
      have hstep := readBlockLines_line (b := b) (n := n) hm hlne hline
        (hwritten y List.mem_cons_self) (fun c hc => hwritten c (List.mem_cons_of_mem _ hc))
        (Nat.le_refl indent) hhead' (fun h => absurd h (Nat.lt_irrefl _))
        (by omega : g'.length + indent ≤ bound)
      simp only [List.append_assoc, List.cons_append] at hstep hrec ⊢
      rw [hstep, hrec]
      simp only [Mark.past_append, Mark.past, List.nil_append]

/-! ## The header -/

/-- What becomes of the ends of line at the end of a text. -/
def literalChomping (s : List Char) : Chomping :=
  if !endsWith isBreak s then .strip
  else if s.dropLast.isEmpty || endsWith isBreak s.dropLast then .keep
  else .clip

/-- Whether the header has to give the indentation. -/
def literalHint (s : List Char) : Bool :=
  beginsWith (fun c => c = ' ' || isBreak c) s

/-- The line feed that a text needs at its end. -/
def lineEnd (s : List Char) : List Char :=
  if endsWith isBreak s then [] else ['\n']

/-- The header of a block is read up to the end of its line. -/
theorem readBlockHeader_literal (s t : List Char) (m : Mark) :
    ∃ rest, literalHeader s = '|' :: rest ∧ (∀ c ∈ rest, isBreak c = false) ∧
      readBlockHeader ⟨rest ++ '\n' :: t, m⟩ =
        some (⟨literalChomping s, if literalHint s then some 2 else none⟩,
          ⟨t, (m.along rest).nextLine ['\n']⟩) := by
  have hheader : literalHeader s = '|' :: ((if literalHint s then ['2'] else []) ++
      match literalChomping s with
      | .strip => ['-']
      | .keep => ['+']
      | .clip => []) := by
    rw [literalHeader, literalHint, literalChomping]
    split <;> split <;> (try split) <;> simp_all
  rw [hheader]
  refine ⟨_, rfl, ?_, ?_⟩
  · cases literalHint s <;> cases literalChomping s <;> exact forall_mem_of_all (by decide)
  · have hend : ∀ m' : Mark, ((Cursor.mk ('\n' :: t) m').skipWhile isGap).skipComment =
        ⟨'\n' :: t, m'⟩ := by
      intro m'
      rw [Cursor.skipWhile_of_head m' (by simp [isGap])]
      simp [Cursor.skipComment, atOneOf]
    have hline : ∀ m' : Mark, (Cursor.mk ('\n' :: t) m').skipLine = ⟨t, m'.nextLine ['\n']⟩ :=
      fun m' => Cursor.skipLine_break t m' (by decide)
    have hat : atBreakOrEnd ('\n' :: t) = true := rfl
    have htwo : m.along ['2', '+'] = (m.along ['2']).along ['+'] :=
      Mark.along_append m ['2'] ['+']
    have htwo' : m.along ['2', '-'] = (m.along ['2']).along ['-'] :=
      Mark.along_append m ['2'] ['-']
    cases literalHint s <;> cases literalChomping s <;>
      simp [readBlockHeader, readChomping, chomping?, readIncrement, Cursor.skip_one, hend, hline,
        hat, htwo, htwo', Char.isDigit]

/-! ## Blocks -/

/-- Ends of line at the end of a text are written as they are. -/
theorem writeLines_append_breaks (indent : Nat) {e : List Char}
    (he : ∀ c ∈ e, isBreak c = true) (r : List Char) (fresh : Bool) :
    writeLines indent fresh (r ++ e) = writeLines indent fresh r ++ e := by
  induction r generalizing fresh with
  | nil =>
    by_cases hne : e = []
    · simp [hne, writeLines_nil]
    · have h := writeLines_breaks indent he hne fresh []
      simpa [writeLines_nil] using h
  | cons c r ih =>
    rw [List.cons_append, writeLines, writeLines]
    split
    · rw [ih, List.cons_append]
    · rw [ih]
      simp

/-- A text is ends of line, or lines between ends of line. -/
theorem exists_lines (s : List Char) :
    ∃ u r e, s = u ++ (r ++ e) ∧ (∀ c ∈ u, isBreak c = true) ∧ (∀ c ∈ e, isBreak c = true) ∧
      ((r = [] ∧ e = []) ∨
        (r ≠ [] ∧ r.head?.any isBreak = false ∧ r.getLast?.any isBreak = false)) := by
  obtain ⟨u, s1, rfl, hu, hs1⟩ := exists_run isBreak s
  obtain ⟨e, r, her, he, hr⟩ := exists_run isBreak s1.reverse
  have hs1' : s1 = r.reverse ++ e.reverse := by
    rw [← List.reverse_append, ← her, List.reverse_reverse]
  refine ⟨u, r.reverse, e.reverse, by rw [hs1'], hu, fun c hc => he c (List.mem_reverse.1 hc), ?_⟩
  by_cases hrne : r = []
  · left
    subst hrne
    simp only [List.reverse_nil, List.nil_append] at hs1'
    refine ⟨rfl, ?_⟩
    cases hrev : e.reverse with
    | nil => rfl
    | cons a e' =>
      have ha : isBreak a = true := by
        refine he a (List.mem_reverse.1 ?_)
        rw [hrev]
        exact List.mem_cons_self
      rw [hs1', hrev] at hs1
      simp [ha] at hs1
  · right
    have hrrev : r.reverse ≠ [] := by simpa using hrne
    refine ⟨hrrev, ?_, by rw [List.getLast?_reverse]; exact hr⟩
    rw [hs1', List.head?_append] at hs1
    obtain ⟨a, r', hra⟩ := List.exists_cons_of_ne_nil hrrev
    rw [hra] at hs1 ⊢
    exact hs1

/-- What the header tells of a text that ends with a character of its own. -/
theorem literalChomping_strip {s : List Char} (h : s.getLast?.any isBreak = false) :
    literalChomping s = .strip ∧ lineEnd s = ['\n'] := by
  simp [literalChomping, lineEnd, endsWith, h]

/-- What the header tells of a text that ends with ends of line. -/
theorem literalChomping_breaks {r e : List Char} {x : Char} (hr : r.getLast?.any isBreak = false)
    (he : ∀ c ∈ x :: e, isBreak c = true) :
    literalChomping (r ++ x :: e) = (if r = [] ∨ e ≠ [] then .keep else .clip) ∧
      lineEnd (r ++ x :: e) = [] := by
  have hends : endsWith isBreak (r ++ x :: e) = true := by
    rw [endsWith, List.getLast?_append, List.getLast?_eq_some_getLast (List.cons_ne_nil x e)]
    exact he _ (List.getLast_mem _)
  refine ⟨?_, by rw [lineEnd, if_pos hends]⟩
  rw [literalChomping]
  simp only [hends, Bool.not_true, Bool.false_eq_true, if_false]
  cases e with
  | nil =>
    have hnot : endsWith isBreak r = false := hr
    simp [hnot]
  | cons y e =>
    have hdrop : (r ++ x :: y :: e).dropLast = r ++ x :: (y :: e).dropLast := by
      rw [List.dropLast_append_of_ne_nil (List.cons_ne_nil _ _),
        List.dropLast_cons_of_ne_nil (List.cons_ne_nil _ _)]
    have hlast : endsWith isBreak (r ++ x :: (y :: e).dropLast) = true := by
      rw [endsWith, List.getLast?_append,
        List.getLast?_eq_some_getLast (List.cons_ne_nil x (y :: e).dropLast)]
      refine he _ ?_
      rcases List.mem_cons.1 (List.getLast_mem (List.cons_ne_nil x (y :: e).dropLast)) with h | h
      · rw [h]
        exact List.mem_cons_self
      · exact List.mem_cons_of_mem _ (List.dropLast_subset _ h)
    rw [hdrop, hlast]
    simp

/-- The indentation that the header of a text gives, inside a collection. -/
def givenIndent (s : List Char) (parent : Nat) : Option Nat :=
  if literalHint s then some (parent + 2) else none

/-- A block is read by its header, its first empty lines, and its lines. -/
theorem readBlock_of_parts {s rest t : List Char} {parent bound d : Nat} {u : List Char}
    {m : Mark} {b : BlockText} {c1 c2 : Cursor} (hheader : literalHeader s = '|' :: rest)
    (hread : readBlockHeader ⟨rest ++ '\n' :: t, m.along ['|']⟩ =
      some (⟨literalChomping s, if literalHint s then some 2 else none⟩, c1))
    (hblank : readBlankLines (givenIndent s parent) (bound + 1) 0 [] c1 = some (d, u, c2))
    (hindent : (givenIndent s parent).getD (max d (parent + 1)) = parent + 2) {c3 : Cursor}
    (hlines : readBlockLines false (parent + 2) bound (bound + 1) ⟨[], [], u, false⟩ c2 =
      some (b, c3)) :
    readBlock false (parent : Int) bound ⟨literalHeader s ++ '\n' :: t, m⟩ =
      some (b.close (literalChomping s), c3) := by
  have hgiven : (Option.map (fun i => if (0 : Int) ≤ (parent : Int) then (parent : Int).toNat + i
      else i) (if literalHint s then some 2 else none)) = givenIndent s parent := by
    have hpos : (0 : Int) ≤ parent := Int.natCast_nonneg parent
    rw [givenIndent]
    simp only [hpos, if_true, Int.toNat_natCast]
    cases literalHint s <;> rfl
  have hmax : max d (max ((parent : Int) + 1).toNat 1) = max d (parent + 1) := by omega
  rw [readBlock, hheader, List.cons_append, Cursor.skip_one, hread]
  simp only [Option.bind_eq_bind, Option.bind_some, hgiven]
  rw [hblank]
  simp only [Option.bind_some, hmax, hindent]
  rw [hlines]
  rfl

/-- The empty lines at the beginning of a block are read, and the indentation of its first
line with them. -/
theorem readBlankLines_first {u r e x : List Char} {parent bound : Nat} {m : Mark}
    (hu : ∀ c ∈ u, isWrittenBreak c = true) (hm : m.column = 0)
    (hr : r.head?.any isBreak = false) (hrne : r ≠ [])
    (hx : x.head? = r.head?) (hprint : ∀ c ∈ r, isPrintable c = true)
    (hbound : u.length + (parent + 2) ≤ bound) :
    ∃ d, readBlankLines (givenIndent (u ++ (r ++ e)) parent) (bound + 1) 0 []
        ⟨u ++ (spaces (parent + 2) ++ x), m⟩ =
          some (d, u, ⟨x, m.past (u ++ spaces (parent + 2))⟩) ∧
      (givenIndent (u ++ (r ++ e)) parent).getD (max d (parent + 1)) = parent + 2 := by
  obtain ⟨a, r', rfl⟩ := List.exists_cons_of_ne_nil hrne
  simp only [List.head?_cons, Option.any_some] at hr
  have htab : a ≠ '\t' := (ne_of_isPrintable (hprint a List.mem_cons_self)).1
  rw [givenIndent]
  split
  · obtain ⟨d, hd⟩ := readBlankLines_some (Nat.le_refl (parent + 2))
      (t := x) (by rw [hx]; simp [hr, htab]) (fun h => absurd h (Nat.lt_irrefl _)) u (bound + 1)
      0 [] m hu hm (by omega)
    exact ⟨d, by simpa using hd, rfl⟩
  · rename_i hhint
    have hunil : u = [] := by
      cases u with
      | nil => rfl
      | cons c u =>
        have hc := isBreak_of_isWrittenBreak (hu c List.mem_cons_self)
        simp [literalHint, beginsWith, hc] at hhint
    subst hunil
    have ha : isGap a = false := by
      have hspace : a ≠ ' ' := by
        rintro rfl
        exact hhint rfl
      simp [isGap, hspace, htab]
    have hxne : x ≠ [] := by
      rintro rfl
      cases hx
    refine ⟨m.column + (parent + 2), ?_, ?_⟩
    · exact readBlankLines_none (by rw [hx]; simp [ha, hr]) hxne (parent + 2) (bound + 1) 0 m
        (Nat.zero_le _) (by omega)
    · simp only [Option.getD_none, hm]
      omega

/-- What is written as a block keeps its end. -/
theorem getLast?_writeLines (indent : Nat) (s : List Char) (fresh : Bool) :
    (writeLines indent fresh s).getLast? = s.getLast? := by
  induction s generalizing fresh with
  | nil => rfl
  | cons a s ih =>
    rw [writeLines]
    split
    · rw [List.getLast?_cons, List.getLast?_cons, ih]
    · rw [List.getLast?_append, List.getLast?_cons, List.getLast?_cons, ih]
      rfl

/-- Every character of a block takes some room. -/
theorem length_le_writeLines (indent : Nat) (s : List Char) (fresh : Bool) :
    s.length ≤ (writeLines indent fresh s).length := by
  induction s generalizing fresh with
  | nil => simp
  | cons c s ih =>
    have htrue := ih true
    have hfalse := ih false
    rw [writeLines]
    split
    · simp only [List.length_cons]
      omega
    · simp only [List.length_append, List.length_cons]
      omega

/-- What is left of the ends of line behind the last line makes the text whole. -/
theorem exists_close {q e g : List Char} (hq : q ≠ []) (hlast : q.getLast?.any isBreak = false)
    (he : ∀ c ∈ e, isBreak c = true) (hkeep : literalChomping (q ++ e) = .keep → g = []) :
    ∃ x g', e ++ (lineEnd (q ++ e) ++ g) = x :: g' ∧
      ∀ blank, BlockText.close ⟨q, [x], g', blank⟩ (literalChomping (q ++ e)) = q ++ e := by
  cases e with
  | nil =>
    obtain ⟨hchomp, hend⟩ := literalChomping_strip hlast
    rw [List.append_nil, hchomp, hend]
    exact ⟨'\n', g, rfl, fun _ => rfl⟩
  | cons x e =>
    obtain ⟨hchomp, hend⟩ := literalChomping_breaks hlast he
    rw [hchomp] at hkeep ⊢
    rw [hend]
    refine ⟨x, e ++ g, rfl, fun blank => ?_⟩
    by_cases hne : e = []
    · subst hne
      simp [hq, BlockText.close]
    · have hg := hkeep (by simp [hne])
      simp [hne, hg, BlockText.close]

theorem isWrittenBreak_of_mem_lineEnd {s : List Char} {c : Char} (hc : c ∈ lineEnd s) :
    isWrittenBreak c = true := by
  rw [lineEnd] at hc
  split at hc
  · cases hc
  · rw [List.mem_singleton] at hc
    rw [hc]
    decide

/-- Ends of line in front of some lines and behind them are written as they are, and the first
line is indented. -/
theorem writeLines_parts {indent : Nat} {u r e : List Char} (hu : ∀ c ∈ u, isBreak c = true)
    (he : ∀ c ∈ e, isBreak c = true) (hne : r ≠ []) (hhead : r.head?.any isBreak = false) :
    writeLines indent true (u ++ r ++ e) =
      u ++ (spaces indent ++ (writeLines indent false r ++ e)) := by
  have hfresh : writeLines indent true (u ++ r) =
      u ++ (spaces indent ++ writeLines indent false r) := by
    rw [← writeLines_fresh _ hhead hne]
    by_cases hune : u = []
    · simp [hune]
    · exact writeLines_breaks _ hu hune true r
  rw [writeLines_append_breaks _ he, hfresh]
  simp only [List.append_assoc]

/-- Behind the header of a block its first empty lines are read, which give its indentation, and
then its lines, which make up the text. -/
def ReadsText (s : List Char) (parent bound : Nat) (c c' : Cursor) : Prop :=
  ∃ d u b behind, readBlankLines (givenIndent s parent) (bound + 1) 0 [] c = some (d, u, behind) ∧
    (givenIndent s parent).getD (max d (parent + 1)) = parent + 2 ∧
    readBlockLines false (parent + 2) bound (bound + 1) ⟨[], [], u, false⟩ behind = some (b, c') ∧
    b.close (literalChomping s) = s

section Literal

variable {s g t : List Char} {parent k bound : Nat} {m : Mark}
  (hk : k < parent + 2) (ht : t.head?.any (fun a => isGap a || isBreak a) = false)
  (hm : m.column = 0) (hkeep : literalChomping s = .keep → g = [])
  (hbound : (writeLines (parent + 2) true s ++ (lineEnd s ++ (g ++ spaces k))).length ≤ bound)

include hk ht hm hkeep hbound

/-- A text of ends of line only is read with the empty lines. -/
theorem readsText_breaks (hne : s ≠ []) (hs : ∀ c ∈ s, isWrittenBreak c = true) :
    ReadsText s parent bound
      ⟨writeLines (parent + 2) true s ++ (lineEnd s ++ (g ++ (spaces k ++ t))), m⟩
      ⟨t, m.past (writeLines (parent + 2) true s ++ (lineEnd s ++ (g ++ spaces k)))⟩ := by
  have hbreak : ∀ c ∈ s, isBreak c = true := fun c hc => isBreak_of_isWrittenBreak (hs c hc)
  obtain ⟨x, s', rfl⟩ := List.exists_cons_of_ne_nil hne
  obtain ⟨hchomp, hend⟩ := literalChomping_breaks (r := []) (by simp) hbreak
  simp only [List.nil_append, true_or, if_true] at hchomp hend
  have hgnil := hkeep hchomp
  subst hgnil
  have hwrite := writeLines_append_breaks (parent + 2) hbreak [] true
  rw [List.nil_append, writeLines_nil, List.nil_append] at hwrite
  rw [hwrite, hend] at hbound ⊢
  simp only [List.nil_append, List.length_append, length_spaces] at hbound ⊢
  have hgiven : givenIndent (x :: s') parent = some (parent + 2) := by
    have hx : isBreak x = true := hbreak x List.mem_cons_self
    simp [givenIndent, literalHint, beginsWith, hx]
  obtain ⟨d, hd⟩ := readBlankLines_some (Nat.le_of_lt hk)
    (head_of_not_stop ht).1 (fun _ => (head_of_not_stop ht).2) (x :: s') (bound + 1) 0 [] m hs
    hm (by omega)
  have hcolumn : (m.past (x :: s' ++ spaces k)).column ≠ parent + 2 := by
    rw [Mark.column_past_breaks_spaces k hbreak (by simp)]
    omega
  refine ⟨d, _, _, _, by rw [hgiven]; exact hd, by rw [hgiven]; rfl,
    readBlockLines_stop bound (bound + 1) ⟨[], [], [] ++ x :: s', false⟩ t hcolumn, ?_⟩
  rw [hchomp]
  simp [BlockText.close]

/-- Other texts are read as their lines, between the ends of line in front and behind. -/
theorem readsText_lines {u r e : List Char} (hs : s = u ++ (r ++ e))
    (hprint : ∀ c ∈ s, isPrintable c = true) (hg : ∀ c ∈ g, isWrittenBreak c = true)
    (hu : ∀ c ∈ u, isWrittenBreak c = true) (he : ∀ c ∈ e, isWrittenBreak c = true) (hne : r ≠ [])
    (hhead : r.head?.any isBreak = false) (hlast : r.getLast?.any isBreak = false) :
    ReadsText s parent bound
      ⟨writeLines (parent + 2) true s ++ (lineEnd s ++ (g ++ (spaces k ++ t))), m⟩
      ⟨t, m.past (writeLines (parent + 2) true s ++ (lineEnd s ++ (g ++ spaces k)))⟩ := by
  have hubreak : ∀ c ∈ u, isBreak c = true := fun c hc => isBreak_of_isWrittenBreak (hu c hc)
  have hebreak : ∀ c ∈ e, isBreak c = true := fun c hc => isBreak_of_isWrittenBreak (he c hc)
  have hlast' : (u ++ r).getLast?.any isBreak = false := by
    rw [List.getLast?_append, List.getLast?_eq_some_getLast hne] at *
    exact hlast
  rw [← List.append_assoc] at hs
  obtain ⟨x, g', hE, hclose⟩ := exists_close (g := g) (by simp [hne]) hlast' hebreak (hs ▸ hkeep)
  rw [← hs] at hE hclose
  have hEwritten : ∀ c ∈ x :: g', isWrittenBreak c = true := by
    rw [← hE]
    exact List.forall_mem_append.2
      ⟨he, List.forall_mem_append.2 ⟨fun _ => isWrittenBreak_of_mem_lineEnd, hg⟩⟩
  have hwrite : writeLines (parent + 2) true s =
      u ++ (spaces (parent + 2) ++ (writeLines (parent + 2) false r ++ e)) := by
    rw [hs, writeLines_parts hubreak hebreak hne hhead]
  have hprintr : ∀ c ∈ r, isPrintable c = true := fun c hc =>
    hprint c (by rw [hs]; simp [hc])
  have hjoin : ∀ y, writeLines (parent + 2) true s ++ (lineEnd s ++ (g ++ y)) =
      u ++ (spaces (parent + 2) ++ (writeLines (parent + 2) false r ++ (x :: g' ++ y))) := by
    intro y
    rw [hwrite, ← hE]
    simp only [List.append_assoc]
  rw [hjoin] at hbound
  simp only [List.length_append, List.length_cons, length_spaces] at hbound
  have hlenr := length_le_writeLines (parent + 2) r false
  rw [hjoin, hjoin]
  obtain ⟨d, hblank, hindent⟩ := readBlankLines_first (e := e) hu hm hhead hne
    (head?_writeLines hne hhead _) hprintr (by omega : u.length + (parent + 2) ≤ bound)
  rw [← List.append_assoc, ← hs] at hblank hindent
  have hcolumn : (m.past (u ++ spaces (parent + 2))).column = parent + 2 :=
    Mark.column_past_breaks_spaces _ hubreak fun _ => hm
  obtain ⟨blank, hlines⟩ := readBlockLines_text (hEwritten x List.mem_cons_self)
    (fun c hc => hEwritten c (List.mem_cons_of_mem _ hc)) hk ht (by omega : g'.length + k ≤ bound)
    (bound + 1) r ⟨[], [], u, false⟩ _ hne hhead hlast hprintr hcolumn (by omega) (by omega)
  refine ⟨d, u, _, _, hblank, hindent, ?_, hclose blank⟩
  rw [hlines]
  simp only [List.nil_append, Mark.past_append]

end Literal

/-- What is written as a block reads back, up to a line that is indented less.  Where all
ends of line are kept, no empty line may follow. -/
theorem readBlock_literal {s g t : List Char} {parent k bound : Nat} {m : Mark} (hne : s ≠ [])
    (hprint : ∀ c ∈ s, isPrintable c = true) (hg : ∀ c ∈ g, isWrittenBreak c = true)
    (hkeep : literalChomping s = .keep → g = []) (hk : k < parent + 2)
    (ht : t.head?.any (fun a => isGap a || isBreak a) = false)
    (hbound : (write .literal (parent + 2) s ++ (lineEnd s ++ (g ++ spaces k))).length ≤ bound) :
    readBlock false (parent : Int) bound
        ⟨write .literal (parent + 2) s ++ (lineEnd s ++ (g ++ (spaces k ++ t))), m⟩ =
      some (s,
        ⟨t, m.past (write .literal (parent + 2) s ++ (lineEnd s ++ (g ++ spaces k)))⟩) := by
  obtain ⟨rest, hheader, hrest, hread⟩ := readBlockHeader_literal s
    (writeLines (parent + 2) true s ++ (lineEnd s ++ (g ++ (spaces k ++ t)))) (m.along ['|'])
  -- behind the header begins a line
  have hpast : ∀ y, m.past (write .literal (parent + 2) s ++ y) =
      (((m.along ['|']).along rest).nextLine ['\n']).past
        (writeLines (parent + 2) true s ++ y) := by
    intro y
    rw [write, hheader, List.append_assoc, List.cons_append,
      Mark.past_cons_of_not_break _ _ (by decide : isBreak '|' = false), Mark.past_append,
      Mark.past_eq_along hrest, List.cons_append,
      Mark.past_cons_break _ _ (by decide : isBreak '\n' = true)]
  rw [hpast, write, List.append_assoc, List.cons_append]
  have hcol := Mark.column_nextLine ((m.along ['|']).along rest) ['\n']
  have hbound' : (writeLines (parent + 2) true s ++ (lineEnd s ++ (g ++ spaces k))).length ≤
      bound := by
    simp only [write, List.length_append, List.length_cons] at hbound ⊢
    omega
  have hwritten : ∀ c ∈ s, isBreak c = true → isWrittenBreak c = true := by
    intro c hc hb
    simp [isWrittenBreak, hb, hprint c hc]
  obtain ⟨d, u, b, behind, hblank, hindent, hlines, hclose⟩ : ReadsText s parent bound
      ⟨writeLines (parent + 2) true s ++ (lineEnd s ++ (g ++ (spaces k ++ t))), _⟩ _ := by
    obtain ⟨u, r, e, hs, hu, he, ⟨rfl, rfl⟩ | ⟨hrne, hrhead, hrlast⟩⟩ := exists_lines s
    · rw [List.append_nil, List.append_nil] at hs
      exact readsText_breaks hk ht hcol hkeep hbound' hne
        fun c hc => hwritten c hc (hu c (hs ▸ hc))
    · exact readsText_lines hk ht hcol hkeep hbound' hs hprint hg
        (fun c hc => hwritten c (by simp [hs, hc]) (hu c hc))
        (fun c hc => hwritten c (by simp [hs, hc]) (he c hc)) hrne hrhead hrlast
  rw [readBlock_of_parts hheader hread hblank hindent hlines, hclose]

end LockPrune.Yaml
