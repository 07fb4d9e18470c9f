import LockPrune.Proofs.Yaml.Cursor

/-!
# Quoted scalars read back

A text between quotes is written character by character.  A space is written as it is, some
ends of line are written as they are with the indentation of the next line behind them, and
every other character as the quotes want it.  Reading takes such a text apart into words and
gaps, and puts the same text together again.

## Main definitions

* `writeBetween` — a text between quotes, whatever the quotes.
* `Quotes` — how characters are written between two quotes, and that words read back.

## Main statements

* `Quotes.readWithin_writeBetween` — what is written between quotes reads back.
-/

namespace LockPrune.Yaml

open Scalar

/-! ## Gaps -/

namespace Gap

/-- A gap ends before every other character. -/
theorem read_stop {p : Nat → Bool} (n : Nat) (g : Gap) (t : List Char) (m : Mark)
    (ht : t.head?.any (fun a => isGap a || isBreak a) = false) :
    Gap.read p n g ⟨t, m⟩ = some (g, ⟨t, m⟩) := by
  cases n with
  | zero => rfl
  | succ n =>
    cases t with
    | nil => rfl
    | cons a t =>
      simp only [List.head?_cons, Option.any_some, Bool.or_eq_false_iff] at ht
      simp [Gap.read, ht.1, ht.2]

/-- Spaces of a line are kept. -/
theorem read_spaces {p : Nat → Bool} {t : List Char}
    (ht : t.head?.any (fun a => isGap a || isBreak a) = false) :
    ∀ (k n : Nat) (blanks : List Char) (m : Mark), k ≤ n →
      Gap.read p n ⟨blanks, false, [], []⟩ ⟨spaces k ++ t, m⟩ =
        some (⟨blanks ++ spaces k, false, [], []⟩, ⟨t, m.along (spaces k)⟩) := by
  intro k
  induction k with
  | zero =>
    intro n blanks m _
    simpa using read_stop n ⟨blanks, false, [], []⟩ t m ht
  | succ k ih =>
    intro n blanks m hn
    obtain ⟨n, rfl⟩ : ∃ n', n = n' + 1 := ⟨n - 1, by omega⟩
    have hgap : isGap ' ' = true := by decide
    rw [spaces_succ, List.cons_append, Gap.read]
    simp only [hgap, if_true, Bool.false_eq_true, if_false, Cursor.skip_one]
    rw [ih n (blanks ++ [' ']) _ (by omega), ← Mark.along_append]
    simp

/-- Behind an end of line spaces are passed over. -/
theorem read_margin {p : Nat → Bool} {t : List Char}
    (ht : t.head?.any (fun a => isGap a || isBreak a) = false) :
    ∀ (k n : Nat) (first further : List Char) (m : Mark), k ≤ n →
      Gap.read p n ⟨[], true, first, further⟩ ⟨spaces k ++ t, m⟩ =
        some (⟨[], true, first, further⟩, ⟨t, m.along (spaces k)⟩) := by
  intro k
  induction k with
  | zero =>
    intro n first further m _
    simpa using read_stop n ⟨[], true, first, further⟩ t m ht
  | succ k ih =>
    intro n first further m hn
    obtain ⟨n, rfl⟩ : ∃ n', n = n' + 1 := ⟨n - 1, by omega⟩
    have hgap : isGap ' ' = true := by decide
    have htab : (decide (' ' = '\t') && p m.column) = false := by simp
    rw [spaces_succ, List.cons_append, Gap.read]
    simp only [hgap, if_true, Cursor.skip_one]
    simp only [Cursor.column, htab, Bool.false_eq_true, if_false]
    rw [ih n first further _ (by omega), ← Mark.along_append]
    simp

/-- Further ends of line are kept. -/
theorem read_further {p : Nat → Bool} {t : List Char}
    (ht : t.head?.any (fun a => isGap a || isBreak a) = false) (k : Nat) (first : List Char) :
    ∀ (g : List Char) (n : Nat) (further : List Char) (m : Mark),
      (∀ b ∈ g, isWrittenBreak b = true) → g.length + k ≤ n →
      Gap.read p n ⟨[], true, first, further⟩ ⟨g ++ (spaces k ++ t), m⟩ =
        some (⟨[], true, first, further ++ g⟩, ⟨t, m.past (g ++ spaces k)⟩) := by
  intro g
  induction g with
  | nil =>
    intro n further m _ hn
    simp only [List.length_nil, Nat.zero_add] at hn
    simpa [Mark.past_spaces] using read_margin ht k n first further m hn
  | cons b g ih =>
    intro n further m hg hn
    simp only [List.length_cons] at hn
    obtain ⟨n, rfl⟩ : ∃ n', n = n' + 1 := ⟨n - 1, by omega⟩
    have hb : isWrittenBreak b = true := hg b List.mem_cons_self
    have hbreak : isBreak b = true := isBreak_of_isWrittenBreak hb
    have hgap : isGap b = false := by
      rcases isWrittenBreak_iff.1 hb with rfl | rfl | rfl <;> decide
    rw [List.cons_append, Gap.read]
    simp only [hgap, hbreak, if_true, Bool.false_eq_true, if_false, Cursor.readLine_break _ _ hb]
    rw [ih n (further ++ [b]) _ (fun c hc => hg c (List.mem_cons_of_mem _ hc)) (by omega),
      List.cons_append, Mark.past_cons_break _ _ hbreak]
    simp

/-- A gap over several lines. -/
theorem read_breaks {p : Nat → Bool} {t : List Char}
    (ht : t.head?.any (fun a => isGap a || isBreak a) = false) {k : Nat} {b : Char}
    {g : List Char} {n : Nat} (m : Mark) (hb : isWrittenBreak b = true)
    (hg : ∀ c ∈ g, isWrittenBreak c = true) (hn : g.length + k < n) :
    Gap.read p n .none ⟨b :: g ++ (spaces k ++ t), m⟩ =
      some (⟨[], true, [b], g⟩, ⟨t, m.past (b :: g ++ spaces k)⟩) := by
  obtain ⟨n, rfl⟩ : ∃ n', n = n' + 1 := ⟨n - 1, by omega⟩
  have hbreak : isBreak b = true := isBreak_of_isWrittenBreak hb
  have hgap : isGap b = false := by
    rcases isWrittenBreak_iff.1 hb with rfl | rfl | rfl <;> decide
  rw [List.cons_append, Gap.read]
  simp only [hgap, hbreak, if_true, Bool.false_eq_true, if_false, Cursor.readLine_break _ _ hb,
    Gap.none]
  rw [read_further ht k [b] g n [] _ hg (by omega), List.cons_append,
    Mark.past_cons_break _ _ hbreak]
  simp

end Gap

/-! ## What is written between quotes -/

/-- A text between quotes: the ends of line of the class `raw` are written as they are, and
the next character stands at the indentation; all other characters are written by `code`. -/
def writeBetween (raw : Char → Bool) (code : Char → List Char) (indent : Nat) :
    Bool → List Char → List Char
  | fresh, [] => if fresh then spaces indent else []
  | fresh, c :: rest =>
    if raw c then c :: writeBetween raw code indent true rest
    else (if fresh then spaces indent else []) ++ code c ++ writeBetween raw code indent false rest

section

variable {raw : Char → Bool} {code : Char → List Char} {indent : Nat}

/-- The indentation is written in front of what begins a line. -/
theorem writeBetween_fresh {s : List Char} (hs : s.head?.any raw = false) :
    writeBetween raw code indent true s =
      spaces indent ++ writeBetween raw code indent false s := by
  cases s with
  | nil => simp [writeBetween]
  | cons c s =>
    simp only [List.head?_cons, Option.any_some] at hs
    simp [writeBetween, hs]

/-- Characters that are no raw ends of line are written one after the other. -/
theorem writeBetween_append {w : List Char} (hw : ∀ c ∈ w, raw c = false) (s : List Char) :
    writeBetween raw code indent false (w ++ s) =
      w.flatMap code ++ writeBetween raw code indent false s := by
  induction w with
  | nil => simp
  | cons c w ih =>
    have hc : raw c = false := hw c List.mem_cons_self
    rw [List.cons_append, writeBetween]
    simp only [hc, Bool.false_eq_true, if_false, List.nil_append, List.flatMap_cons,
      List.append_assoc]
    rw [ih fun d hd => hw d (List.mem_cons_of_mem _ hd)]

/-- Raw ends of line are written as they are, with the indentation behind the last. -/
theorem writeBetween_breaks {g s : List Char} (hg : ∀ c ∈ g, raw c = true)
    (hs : s.head?.any raw = false) (fresh : Bool) (hne : g ≠ []) :
    writeBetween raw code indent fresh (g ++ s) =
      g ++ (spaces indent ++ writeBetween raw code indent false s) := by
  induction g generalizing fresh with
  | nil => exact absurd rfl hne
  | cons c g ih =>
    have hc : raw c = true := hg c List.mem_cons_self
    rw [List.cons_append, writeBetween]
    simp only [hc, if_true, List.cons_append, List.cons.injEq, true_and]
    cases g with
    | nil => simpa using writeBetween_fresh hs
    | cons d g => exact ih (fun e he => hg e (List.mem_cons_of_mem _ he)) true (by simp)

end

/-! ## Reading back -/

/-- The characters of a word: those that are admitted, but for raw ends of line and the
space. -/
def inWord (raw allow : Char → Bool) (c : Char) : Bool :=
  allow c && !(raw c) && c != ' '

theorem inWord_iff {raw allow : Char → Bool} {c : Char} :
    inWord raw allow c = true ↔ allow c = true ∧ raw c = false ∧ c ≠ ' ' := by
  simp [inWord, and_assoc]

/-- How characters are written between two quotes: `word` reads a word, the ends of line of
the class `raw` are written as they are, and `code` writes the other characters that the
quotes `allow`. -/
structure Quotes (quote : Char) (word : Nat → Cursor → Option QuotedWord)
    (raw allow : Char → Bool) (code : Char → List Char) : Prop where
  /-- Only kept separators are raw. -/
  raw_break : ∀ c, raw c = true → isWrittenBreak c = true ∧ c ≠ '\n'
  /-- A space is written as it is. -/
  code_space : code ' ' = [' ']
  /-- The quote is none of the characters that part words. -/
  quote_stop : isGap quote = false ∧ isBreak quote = false
  /-- A character of a word reads back as itself. -/
  step : ∀ c n t m, inWord raw allow c = true →
    word (n + 1) ⟨code c ++ t, m⟩ = (word n ⟨t, m.along (code c)⟩).map (.cons c)
  /-- A character of a word begins with no blank and no end of line. -/
  code_head : ∀ c, inWord raw allow c = true →
    ∃ a s, code c = a :: s ∧ isGap a = false ∧ isBreak a = false
  /-- A character is written on one line. -/
  code_line : ∀ c a, inWord raw allow c = true → a ∈ code c → isBreak a = false
  /-- A word ends before a space, an end of line, or the closing quote. -/
  stop_blank : ∀ a n t m, isGap a = true ∨ isBreak a = true →
    word (n + 1) ⟨a :: t, m⟩ = some ⟨[], false, ⟨a :: t, m⟩⟩
  stop_quote : ∀ n t m, t.head? ≠ some quote →
    word (n + 1) ⟨quote :: t, m⟩ = some ⟨[], false, ⟨quote :: t, m⟩⟩

namespace Quotes

variable {quote : Char} {word : Nat → Cursor → Option QuotedWord} {raw allow : Char → Bool}
  {code : Char → List Char}

theorem raw_space (q : Quotes quote word raw allow code) : raw ' ' = false := by
  by_contra h
  simp only [Bool.not_eq_false] at h
  exact absurd (q.raw_break _ h).1 (by decide)

/-- Spaces are written as they are. -/
theorem flatMap_spaces (q : Quotes quote word raw allow code) (n : Nat) :
    (spaces n).flatMap code = spaces n := by
  induction n with
  | zero => rfl
  | succ n ih => rw [spaces_succ, List.flatMap_cons, ih, q.code_space, List.singleton_append]

/-- The marks of a word take it to the place behind it. -/
theorem past_word (q : Quotes quote word raw allow code) {w : List Char}
    (hw : ∀ c ∈ w, inWord raw allow c = true) (m : Mark) :
    m.past (w.flatMap code) = m.along (w.flatMap code) := by
  apply Mark.past_eq_along
  intro a ha
  obtain ⟨c, hc, hac⟩ := List.mem_flatMap.1 ha
  exact q.code_line c a (hw c hc) hac

/-- A word reads back, up to a place where words end. -/
theorem read_word (q : Quotes quote word raw allow code) {t : List Char}
    (ht : ∀ n m, word (n + 1) ⟨t, m⟩ = some ⟨[], false, ⟨t, m⟩⟩) :
    ∀ (w : List Char) (n : Nat) (m : Mark), (∀ c ∈ w, inWord raw allow c = true) → w.length < n →
      word n ⟨w.flatMap code ++ t, m⟩ =
        some ⟨w, false, ⟨t, m.along (w.flatMap code)⟩⟩ := by
  intro w
  induction w with
  | nil =>
    intro n m _ hn
    obtain ⟨n, rfl⟩ : ∃ n', n = n' + 1 := ⟨n - 1, by omega⟩
    simpa using ht n m
  | cons c w ih =>
    intro n m hw hn
    simp only [List.length_cons] at hn
    obtain ⟨n, rfl⟩ : ∃ n', n = n' + 1 := ⟨n - 1, by omega⟩
    rw [List.flatMap_cons, List.append_assoc, q.step c n _ m (hw c List.mem_cons_self),
      ih n _ (fun d hd => hw d (List.mem_cons_of_mem _ hd)) (by omega), Mark.along_append]
    rfl

/-- What is written begins with no blank and no end of line where a word begins. -/
theorem head_writeBetween (q : Quotes quote word raw allow code) {indent : Nat} {s : List Char}
    (hs : s.head?.all (inWord raw allow) = true) (t : List Char) :
    (writeBetween raw code indent false s ++ quote :: t).head?.any
      (fun a => isGap a || isBreak a) = false := by
  cases s with
  | nil => simp [writeBetween, q.quote_stop]
  | cons c s =>
    simp only [List.head?_cons, Option.all_some] at hs
    obtain ⟨a, r, hcode, hgap, hbreak⟩ := q.code_head c hs
    simp [writeBetween, (inWord_iff.1 hs).2.1, hcode, hgap, hbreak]

/-- Every character takes some room. -/
theorem length_le_flatMap (q : Quotes quote word raw allow code) {w : List Char}
    (hw : ∀ c ∈ w, inWord raw allow c = true) : w.length ≤ (w.flatMap code).length := by
  induction w with
  | nil => simp
  | cons c w ih =>
    obtain ⟨a, r, hcode, -, -⟩ := q.code_head c (hw c List.mem_cons_self)
    have hrest := ih fun d hd => hw d (List.mem_cons_of_mem _ hd)
    rw [List.flatMap_cons, List.length_append, hcode, List.length_cons, List.length_cons]
    omega

/-- A text is a word, then a gap of spaces or of ends of line, then a text that begins with
a word; or it is a single word. -/
theorem exists_word_gap {s : List Char} (hs : ∀ c ∈ s, allow c = true)
    (hspace : hasPair (· = ' ') raw s = false)
    (hbreak : hasPair raw (· = ' ') s = false) :
    ∃ w g r, s = w ++ (g ++ r) ∧ (∀ c ∈ w, inWord raw allow c = true) ∧
      r.head?.all (inWord raw allow) = true ∧
      ((g = [] ∧ r = []) ∨ (g ≠ [] ∧ g = spaces g.length) ∨
        (g ≠ [] ∧ ∀ c ∈ g, raw c = true)) := by
  obtain ⟨w, r, rfl, hw, hr⟩ := exists_run (inWord raw allow) s
  cases r with
  | nil => exact ⟨w, [], [], by simp, hw, rfl, .inl ⟨rfl, rfl⟩⟩
  | cons a r =>
    have hallow : ∀ g' r' : List Char, a :: r = g' ++ r' → ∀ b, r'.head? = some b →
        allow b = true := by
      intro g' r' h b hb
      refine hs b (List.mem_append_right _ ?_)
      rw [h]
      exact List.mem_append_right _ (List.mem_of_head? hb)
    simp only [List.head?_cons, Option.any_some] at hr
    by_cases ha : a = ' '
    · obtain ⟨g, r', hgr, hg, hr'⟩ := exists_run (· = ' ') (a :: r)
      have hne : g ≠ [] := by
        rintro rfl
        simp only [List.nil_append] at hgr
        simp [← hgr, ha] at hr'
      rw [hgr] at hspace
      have hraw := head_of_hasPair hg hne hspace
      have hspaces : g = spaces g.length :=
        List.eq_replicate_iff.2 ⟨rfl, fun c hc => of_decide_eq_true (hg c hc)⟩
      refine ⟨w, g, r', by rw [hgr], hw, ?_, .inr (.inl ⟨hne, hspaces⟩)⟩
      cases hhead : r'.head? with
      | none => rfl
      | some b =>
        rw [hhead] at hraw hr'
        simp only [Option.any_some, decide_eq_false_iff_not] at hraw hr'
        simpa using inWord_iff.2 ⟨hallow g r' hgr b hhead, hraw, hr'⟩
    · have hraw : raw a = true := by
        by_contra hraw
        simp only [Bool.not_eq_true] at hraw
        rw [inWord_iff.2 ⟨hs a (by simp), hraw, ha⟩] at hr
        cases hr
      obtain ⟨g, r', hgr, hg, hr'⟩ := exists_run raw (a :: r)
      have hne : g ≠ [] := by
        rintro rfl
        simp only [List.nil_append] at hgr
        simp [← hgr, hraw] at hr'
      rw [hgr] at hbreak
      have hblank := head_of_hasPair hg hne hbreak
      refine ⟨w, g, r', by rw [hgr], hw, ?_, .inr (.inr ⟨hne, hg⟩)⟩
      cases hhead : r'.head? with
      | none => rfl
      | some b =>
        rw [hhead] at hblank hr'
        simp only [Option.any_some, decide_eq_false_iff_not] at hblank hr'
        simpa using inWord_iff.2 ⟨hallow g r' hgr b hhead, hr', hblank⟩

/-- A gap of spaces reads back. -/
theorem read_spaces_gap (q : Quotes quote word raw allow code) (indent : Nat) {bound k : Nat}
    {r t : List Char}
    (hr : r.head?.all (inWord raw allow) = true) (hbound : k ≤ bound) (m : Mark) :
    writeBetween raw code indent false (spaces k ++ r) =
        spaces k ++ writeBetween raw code indent false r ∧
      Gap.read (fun _ => false) bound .none
          ⟨spaces k ++ (writeBetween raw code indent false r ++ quote :: t), m⟩ =
        some (⟨spaces k, false, [], []⟩,
          ⟨writeBetween raw code indent false r ++ quote :: t, m.past (spaces k)⟩) := by
  have hraw : ∀ c ∈ spaces k, raw c = false := by
    intro c hc
    rw [eq_space_of_mem_spaces hc]
    exact q.raw_space
  refine ⟨by rw [writeBetween_append hraw, q.flatMap_spaces], ?_⟩
  rw [Mark.past_spaces]
  exact Gap.read_spaces (q.head_writeBetween hr t) k bound [] m hbound

/-- A gap of ends of line reads back. -/
theorem read_breaks_gap (q : Quotes quote word raw allow code) {indent bound : Nat}
    {g r t : List Char} (hr : r.head?.all (inWord raw allow) = true) (hg : ∀ c ∈ g, raw c = true)
    (hne : g ≠ []) (hbound : g.length + indent ≤ bound) (m : Mark) :
    writeBetween raw code indent false (g ++ r) =
        (g ++ spaces indent) ++ writeBetween raw code indent false r ∧
      ∃ gap : Gap, gap.text = g ∧
        Gap.read (fun _ => false) bound .none
            ⟨(g ++ spaces indent) ++ (writeBetween raw code indent false r ++ quote :: t), m⟩ =
          some (gap,
            ⟨writeBetween raw code indent false r ++ quote :: t, m.past (g ++ spaces indent)⟩) := by
  have hhead : r.head?.any raw = false := by
    cases hr' : r.head? with
    | none => rfl
    | some b =>
      rw [hr'] at hr
      exact (inWord_iff.1 hr).2.1
  refine ⟨by rw [writeBetween_breaks hg hhead false hne, List.append_assoc], ?_⟩
  cases g with
  | nil => exact absurd rfl hne
  | cons b g =>
    have hb := q.raw_break b (hg b List.mem_cons_self)
    refine ⟨⟨[], true, [b], g⟩, by simp [Gap.text, hb.2], ?_⟩
    rw [List.append_assoc]
    exact Gap.read_breaks (q.head_writeBetween hr t) m hb.1
      (fun c hc => (q.raw_break c (hg c (List.mem_cons_of_mem _ hc))).1)
      (by simp only [List.length_cons] at hbound; omega)

/-- A gap that is not empty reads back; behind it the line has begun. -/
theorem read_gap (q : Quotes quote word raw allow code) (indent bound : Nat) {g r t : List Char}
    (hr : r.head?.all (inWord raw allow) = true) (hne : g ≠ [])
    (hg : g = spaces g.length ∨ ((∀ c ∈ g, raw c = true) ∧ 0 < indent))
    (hbound : (writeBetween raw code indent false (g ++ r)).length ≤ bound) (m : Mark)
    (hm : 0 < m.column) :
    ∃ margin gap, writeBetween raw code indent false (g ++ r) =
        margin ++ writeBetween raw code indent false r ∧
      margin.head?.any (fun a => isGap a || isBreak a) = true ∧
      0 < (m.past margin).column ∧ gap.text = g ∧
      Gap.read (fun _ => false) bound .none
          ⟨margin ++ (writeBetween raw code indent false r ++ quote :: t), m⟩ =
        some (gap, ⟨writeBetween raw code indent false r ++ quote :: t, m.past margin⟩) := by
  rcases hg with hg | ⟨hg, hindent⟩
  · obtain ⟨k, hk⟩ : ∃ k, g = spaces k := ⟨_, hg⟩
    subst hk
    have hwrite := (q.read_spaces_gap indent (t := t) hr (Nat.le_refl k) m).1
    rw [hwrite, List.length_append, length_spaces] at hbound
    have hread := (q.read_spaces_gap indent (t := t) hr (by omega : k ≤ bound) m).2
    refine ⟨spaces k, _, hwrite, ?_, ?_, by simp [Gap.text], hread⟩
    · cases k with
      | zero => exact absurd rfl hne
      | succ k =>
        rw [spaces_succ]
        simp [isGap]
    · rw [Mark.past_spaces, Mark.column_along]
      omega
  · have hwrite :=
      (q.read_breaks_gap (t := t) hr hg hne (Nat.le_refl (g.length + indent)) m).1
    rw [hwrite, List.length_append, List.length_append, length_spaces] at hbound
    obtain ⟨gap, htext, hread⟩ :=
      (q.read_breaks_gap (t := t) hr hg hne (by omega : g.length + indent ≤ bound) m).2
    refine ⟨g ++ spaces indent, gap, hwrite, ?_, ?_, htext, hread⟩
    · cases g with
      | nil => exact absurd rfl hne
      | cons b g =>
        have hb := isBreak_of_isWrittenBreak (q.raw_break b (hg b List.mem_cons_self)).1
        simp [hb]
    · rw [Mark.past_append, Mark.past_spaces, Mark.column_along, length_spaces]
      omega

/-- What is written between quotes reads back, and the closing quote ends it. -/
theorem readWithin_writeBetween (q : Quotes quote word raw allow code) (bound indent : Nat)
    {t : List Char} (ht : t.head? ≠ some quote) :
    ∀ (n : Nat) (s : List Char) (m : Mark), s.length < n → (∀ c ∈ s, allow c = true) →
      hasPair (· = ' ') raw s = false → hasPair raw (· = ' ') s = false →
      (s.any raw = true → 0 < indent) →
      (writeBetween raw code indent false s).length < bound → 0 < m.column →
      readQuotedWithin quote (word bound) bound n
          ⟨writeBetween raw code indent false s ++ quote :: t, m⟩ =
        some (s, ⟨t, m.past (writeBetween raw code indent false s ++ [quote])⟩) := by
  intro n
  induction n with
  | zero => intro s m hn; omega
  | succ n ih =>
    intro s m hn hs hspace hbreak hindent hbound hm
    have hmark : (Cursor.mk (writeBetween raw code indent false s ++ quote :: t) m).atDocumentMark
        = false := Cursor.atDocumentMark_of_column hm
    have hrest : (writeBetween raw code indent false s ++ quote :: t).isEmpty = false := by simp
    obtain ⟨w, g, r, rfl, hw, hr, hgap⟩ := exists_word_gap hs hspace hbreak
    have hwraw : ∀ c ∈ w, raw c = false := fun c hc => (inWord_iff.1 (hw c hc)).2.1
    have hlen := q.length_le_flatMap hw
    rw [readQuotedWithin]
    simp only [hmark, hrest, Bool.or_self, Bool.false_eq_true, if_false]
    rw [writeBetween_append hwraw] at hbound ⊢
    rw [List.length_append] at hbound
    rw [List.append_assoc, List.append_assoc, Mark.past_append, q.past_word hw]
    rcases hgap with ⟨rfl, rfl⟩ | hgap
    · -- the closing quote stands behind the word
      have hat : atOneOf [quote] (quote :: t) = true := by simp [atOneOf]
      rw [List.append_nil, writeBetween, if_neg Bool.false_ne_true, List.nil_append,
        List.nil_append, q.read_word (fun n m => q.stop_quote n t m ht) w bound m hw (by omega),
        Mark.past_cons_of_not_break _ _ q.quote_stop.2]
      simp [hat, Cursor.skip_one]
    · -- a gap stands behind the word, and a shorter text behind the gap
      have hne : g ≠ [] := hgap.elim And.left And.left
      have hg : g = spaces g.length ∨ ((∀ c ∈ g, raw c = true) ∧ 0 < indent) := by
        refine hgap.imp And.right fun h => ⟨h.2, hindent ?_⟩
        obtain ⟨b, hb⟩ := List.exists_mem_of_ne_nil g hne
        simp only [List.any_eq_true, List.mem_append]
        exact ⟨b, .inr (.inl hb), h.2 b hb⟩
      obtain ⟨margin, gap, hwrite, hhead, hcolumn, htext, hread⟩ :=
        q.read_gap indent bound (t := t) hr hne hg (by omega)
          (m.along (w.flatMap code)) (by rw [Mark.column_along]; omega)
      rw [hwrite, List.length_append] at hbound
      rw [hwrite, List.append_assoc, List.append_assoc, Mark.past_append]
      obtain ⟨a, margin', rfl⟩ : ∃ a margin', margin = a :: margin' := by
        cases margin with
        | nil => cases hhead
        | cons a margin' => exact ⟨a, margin', rfl⟩
      simp only [List.head?_cons, Option.any_some, Bool.or_eq_true] at hhead
      have hword := q.read_word
        (fun n m => q.stop_blank a n
          (margin' ++ (writeBetween raw code indent false r ++ quote :: t)) m hhead)
        w bound m hw (by omega)
      have hat : atOneOf [quote]
          (a :: (margin' ++ (writeBetween raw code indent false r ++ quote :: t))) = false := by
        have hquote := q.quote_stop
        have hane : a ≠ quote := by
          rintro rfl
          simp [hquote.1, hquote.2] at hhead
        simpa [atOneOf] using hane
      rw [List.cons_append, hword]
      have hpos : 0 < g.length := List.length_pos_iff.2 hne
      have hrec := ih r ((m.along (w.flatMap code)).past (a :: margin'))
        (by simp only [List.length_append] at hn; omega) (fun c hc => hs c (by simp [hc]))
        (hasPair_of_append (hasPair_of_append hspace))
        (hasPair_of_append (hasPair_of_append hbreak))
        (fun h => hindent (by simp [h])) (by omega) hcolumn
      simp only [Option.bind_eq_bind, Option.bind_some, hat, Bool.false_eq_true, if_false]
      rw [List.cons_append] at hread
      rw [hread]
      simp only [Option.bind_some]
      rw [hrec]
      simp [htext]

end Quotes

end LockPrune.Yaml
