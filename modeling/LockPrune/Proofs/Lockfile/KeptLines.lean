import LockPrune.Proofs.Lockfile.LayoutState

/-!
# Documents without single quotes

The layout rewrites nothing but what stands between single quotes.  In a document without any, be
it YAML or not, every line is left as it is, whether it is in a block scalar, between double quotes
or in neither: the scan never enters a text between single quotes, and that is the only state in
which it writes something else than it takes.  All that is added are empty lines, one at most in
front of a line at the left, and exactly one if there are no double quotes either.

## Main definitions

* `Spreads` — a text is some lines with an empty line in front of some of those at the left.

## Main statements

* `scan_eq_self`, `line_eq_self` — a part of a line, and a whole line, without single quotes.
* `spreads_applyFrom` — a document without single quotes, from any state.
* `spreads_apply` — the layout of a document without single quotes.
-/

namespace LockPrune.Layout

variable {q q' : Quote} {before x rest out t : List Char} {s : State} {xs : List (List Char)}

/-! ## One line -/

/-- A turn that takes no single quote writes what it takes, and opens no text between single
quotes, unless it is inside of one. -/
theorem Turn.eq_self (h : Turn q before x rest out q') (hq : q ≠ .single) (hx : '\x27' ∉ x) :
    out = x ∧ q' ≠ .single := by
  cases h with
  | plain => exact ⟨rfl, by decide⟩
  | opensSingle => exact absurd (List.mem_singleton.2 rfl) hx
  | opensDouble => exact ⟨rfl, by decide⟩
  | pair => exact absurd rfl hq
  | closesSingle => exact absurd rfl hq
  | single => exact absurd rfl hq
  | escape => exact ⟨rfl, by decide⟩
  | lastEscape => exact ⟨rfl, by decide⟩
  | closesDouble => exact ⟨rfl, by decide⟩
  | double => exact ⟨rfl, by decide⟩

/-- A part of a line without single quotes is left as it is. -/
theorem scan_eq_self (hq : q ≠ .single) (hx : '\x27' ∉ x) (before : List Char) :
    (scan q before x).1 = x ∧ (scan q before x).2 ≠ .single := by
  induction q, before, x using turn_induction with
  | nil q before => exact ⟨by rw [scan_nil], by rwa [scan_nil]⟩
  | @turn q before x rest out q' hturn ih =>
    rw [List.mem_append, not_or] at hx
    obtain ⟨rfl, hq'⟩ := hturn.eq_self hq hx.1
    obtain ⟨hrest, hend⟩ := ih hq' hx.2
    rw [hturn.scan_eq]
    exact ⟨by rw [hrest], hend⟩

/-- A line without single quotes is left as it is, and no text between single quotes is open behind
it. -/
theorem line_eq_self (hs : s.quote ≠ .single) (hx : '\x27' ∉ x) :
    (line s x).1.flatten = gapOf s x ++ (x ++ ['\n']) ∧ (line s x).2.quote ≠ .single := by
  obtain ⟨hscan, hend⟩ := scan_eq_self hs hx []
  rw [flatten_line, written, hscan, ite_self, line]
  refine ⟨rfl, ?_⟩
  split
  · exact hs
  · exact hend

/-! ## Documents -/

/-- A text is some lines, each ended by a line feed, with an empty line in front of some of those
that begin at the left. -/
inductive Spreads : List (List Char) → List Char → Prop where
  | nil : Spreads [] []
  | line {x : List Char} {xs : List (List Char)} {t : List Char} (h : Spreads xs t) :
    Spreads (x :: xs) (x ++ '\n' :: t)
  | gap {x : List Char} {xs : List (List Char)} {t : List Char} (hne : x ≠ [])
    (hspace : x.head? ≠ some ' ') (h : Spreads xs t) :
    Spreads (x :: xs) ('\n' :: (x ++ '\n' :: t))

theorem isFlush_iff : isFlush x = true ↔ x ≠ [] ∧ x.head? ≠ some ' ' := by
  cases x <;> simp [isFlush]

/-- The lines of a document without single quotes are left as they are, from whatever state. -/
theorem spreads_applyFrom (hs : s.quote ≠ .single) (ht : '\x27' ∉ t) :
    Spreads (Text.lines t) (applyFrom s t) := by
  have hlines : ∀ x ∈ Text.lines t, '\x27' ∉ x := fun x hx hquote =>
    ht ((Text.mem_lines hx).2 hquote)
  rw [applyFrom]
  generalize Text.lines t = xs at hlines
  induction xs generalizing s with
  | nil => exact .nil
  | cons x xs ih =>
    rw [List.forall_mem_cons] at hlines
    obtain ⟨hline, hnext⟩ := line_eq_self hs hlines.1
    have hrest := ih hnext hlines.2
    rw [writesFrom, List.flatten_append, hline, gapOf]
    split
    · rename_i hgap
      rw [Bool.and_eq_true, isFlush_iff] at hgap
      simpa using hrest.gap hgap.2.1 hgap.2.2
    · simpa using hrest.line

/-- Without any quotes no text is ever open, so that every line at the left has its empty line. -/
theorem applyFrom_of_no_quotes (b : Option Nat) (ht : ∀ c ∈ t, c ≠ '\x27' ∧ c ≠ '"') :
    applyFrom ⟨.outside, b⟩ t = (Text.lines t).flatMap fun x => lead x ++ (x ++ ['\n']) := by
  have hlines : ∀ x ∈ Text.lines t, ∀ c ∈ x, c ≠ '\x27' ∧ c ≠ '"' := fun x hx c hc =>
    ht c ((Text.mem_lines hx).2 hc)
  rw [applyFrom]
  generalize Text.lines t = xs at hlines
  induction xs generalizing b with
  | nil => rfl
  | cons x xs ih =>
    rw [List.forall_mem_cons] at hlines
    have hscan : scan .outside [] x = (x, .outside) :=
      (scans_of_not_opensQuote (opensQuote_eq_false hlines.1 [])).scan_eq
    obtain ⟨b', hnext⟩ : ∃ b', (line ⟨.outside, b⟩ x).2 = ⟨.outside, b'⟩ := by
      rw [line, hscan]
      split
      · exact ⟨b, rfl⟩
      · exact ⟨_, rfl⟩
    have hwritten : written ⟨.outside, b⟩ x = x := by rw [written, hscan, ite_self]
    have hgap : gapOf ⟨.outside, b⟩ x = lead x := rfl
    rw [writesFrom, List.flatten_append, flatten_line, hwritten, hgap, hnext, ih b' hlines.2,
      List.flatMap_cons]

/-- **A document without single quotes passes through.**  It may be YAML or not: its lines are
written in order, each as it is and ended by a line feed, whatever is between double quotes, behind
a backslash or in a block scalar.  Nothing is added but one empty line at most in front of a line
that is neither empty nor indented; without any double quotes either, exactly one is. -/
theorem spreads_apply (ht : '\x27' ∉ t) :
    Spreads (Text.lines t) (apply t) ∧
      ('"' ∉ t → apply t = (Text.lines t).flatMap fun x =>
        (if x ≠ [] ∧ x.head? ≠ some ' ' then ['\n'] else []) ++ (x ++ ['\n'])) := by
  refine ⟨spreads_applyFrom (by decide) ht, fun hdouble => ?_⟩
  have hquotes : ∀ c ∈ t, c ≠ '\x27' ∧ c ≠ '"' := fun c hc =>
    ⟨fun h => ht (h ▸ hc), fun h => hdouble (h ▸ hc)⟩
  have hall := applyFrom_of_no_quotes none hquotes
  simp only [lead, isFlush_iff] at hall
  exact hall

/-- A text between double quotes whose first line ends with a backslash, so that the quote on the
second line closes it, and a block scalar with a quote in it. -/
def unsettled : List Char :=
  "a: \"x\\\n\"b\n c\"\nd: |\r\n \"\n\ne".toList

/-- The line behind the backslash is inside of a text, and gets no empty line. -/
theorem spreads_apply_unsettled :
    '\x27' ∉ unsettled ∧ Spreads (Text.lines unsettled) (apply unsettled) ∧
      apply unsettled = "\na: \"x\\\n\"b\n c\"\n\nd: |\n \"\n\n\ne\n".toList := by
  have hquote : '\x27' ∉ unsettled := by decide
  exact ⟨hquote, (spreads_apply hquote).1, by decide⟩

end LockPrune.Layout
