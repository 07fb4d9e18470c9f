import LockPrune.Proofs.Lockfile.LayoutLines
import LockPrune.Proofs.Lockfile.LineTurns

/-!
# Documents one after the other in the layout of a lockfile

The layout carries its state from line to line.  Where a document ends its last line and leaves
no text between quotes open, what follows it is written as if it stood alone, and nowhere else:
a text that is left open swallows the empty line in front of what follows.

## Main definitions

* `stateFrom`, `stateAfter` — the state behind some lines, and behind a document.
* `StartsFlush` — a document whose first line is not indented.
* `IsSettled` — what follows a document is not touched by it.
* `IsSection` — a document that begins at the left and is ended by a break.

## Main statements

* `applyFrom_append` — two documents, one after the other.
* `writes_append` — they come out one by one exactly if no text is open between them.
* `scan_append` — a line that goes on.
* `apply_flatten_iff` — sections are written one by one exactly if all but the last are settled.
-/

namespace LockPrune

namespace Layout

open Yaml Yaml.Scalar

/-! ## The state behind a document -/

/-- The state behind some lines. -/
def stateFrom : State → List (List Char) → State
  | s, [] => s
  | s, text :: rest => stateFrom (line s text).2 rest

/-- The state behind a document. -/
def stateAfter (s : State) (t : List Char) : State :=
  stateFrom s (Text.lines t)

theorem writesFrom_append (s : State) (xs ys : List (List Char)) :
    writesFrom s (xs ++ ys) = writesFrom s xs ++ writesFrom (stateFrom s xs) ys := by
  induction xs generalizing s with
  | nil => rfl
  | cons x xs ih => simp [writesFrom, stateFrom, ih]

/-- Two documents, one after the other, the first of which ends its last line. -/
theorem applyFrom_append (s : State) {t : List Char} (ht : t = [] ∨ t.getLast? = some '\n')
    (u : List Char) : applyFrom s (t ++ u) = applyFrom s t ++ applyFrom (stateAfter s t) u := by
  rw [applyFrom, Text.lines_append_of_ends ht, writesFrom_append, List.flatten_append, applyFrom,
    applyFrom, stateAfter]

/-! ## What is written for a line -/

/-- The line that is written for a line. -/
def written (s : State) (x : List Char) : List Char :=
  if staysInBlock s x then x else (scan s.quote [] x).1

/-- The empty line in front of what is written for a line. -/
def gapOf (s : State) (x : List Char) : List Char :=
  if s.quote = .outside && isFlush x then ['\n'] else []

theorem isFlush_cons {c : Char} {z : List Char} : isFlush (c :: z) = true ↔ c ≠ ' ' := by
  simp [isFlush]

/-- A line at the left is in no block. -/
theorem staysInBlock_of_isFlush {x : List Char} (hx : isFlush x = true) (s : State) :
    staysInBlock s x = false := by
  match x, hx with
  | c :: z, hx =>
    rw [isFlush_cons] at hx
    rw [staysInBlock]
    cases s.block <;> simp [indentation, hx]

/-- So it does not depend on a block in front of it. -/
theorem line_of_isFlush {x : List Char} (hx : isFlush x = true) (b : Option Nat) :
    line ⟨.outside, b⟩ x = line .start x := by
  rw [line, line, staysInBlock_of_isFlush hx, staysInBlock_of_isFlush hx]
  rfl

theorem flatten_line (s : State) (x : List Char) :
    (line s x).1.flatten = gapOf s x ++ (written s x ++ ['\n']) := by
  rw [line, written]
  cases hstays : staysInBlock s x with
  | true =>
    have hgap : gapOf s x = [] := by
      cases hflush : isFlush x with
      | true => rw [staysInBlock_of_isFlush hflush s] at hstays; cases hstays
      | false => simp [gapOf, hflush]
    simp [hgap]
  | false =>
    rw [gapOf]
    cases hgap : (s.quote = .outside && isFlush x) <;> simp

/-! ## Lines at the left -/

/-- The first line of a text is not empty, and not indented. -/
def StartsFlush (t : List Char) : Prop :=
  ∃ x rest, Text.lines t = x :: rest ∧ isFlush x = true

/-- What begins at the left is written as if it stood alone, behind any state with no text open:
the block that may be open there ends. -/
theorem writesFrom_outside {t : List Char} (ht : StartsFlush t) {s : State}
    (hs : s.quote = .outside) : writesFrom s (Text.lines t) = writes t := by
  obtain ⟨q, b⟩ := s
  obtain rfl : q = .outside := hs
  obtain ⟨x, rest, hlines, hflush⟩ := ht
  rw [writes, hlines, writesFrom, writesFrom, line_of_isFlush hflush]

theorem applyFrom_outside {t : List Char} (ht : StartsFlush t) {s : State}
    (hs : s.quote = .outside) : applyFrom s t = apply t := by
  rw [applyFrom, writesFrom_outside ht hs, apply]

/-- An empty line stands in front of what begins at the left. -/
theorem exists_apply_eq {t : List Char} (ht : StartsFlush t) : ∃ out, apply t = '\n' :: out := by
  obtain ⟨x, rest, hlines, hflush⟩ := ht
  have hgap : gapOf .start x = ['\n'] := by simp [gapOf, State.start, hflush]
  rw [apply_eq, applyFrom, hlines, writesFrom, List.flatten_append, flatten_line, hgap]
  exact ⟨_, rfl⟩

/-- No empty line does if a text is open. -/
theorem exists_applyFrom_eq {t : List Char} (ht : StartsFlush t) {s : State}
    (hs : s.quote ≠ .outside) : ∃ d out, applyFrom s t = d :: out ∧ d ≠ '\n' := by
  obtain ⟨x, rest, hlines, hflush⟩ := ht
  have hgap : gapOf s x = [] := by simp [gapOf, hs]
  have hline : '\n' ∉ x := (Text.mem_lines (hlines ▸ List.mem_cons_self)).1
  cases x with
  | nil => cases hflush
  | cons c z =>
    obtain ⟨d, o, ho, -, hfeed⟩ := exists_scan_cons s.quote [] c z
    have hwritten : written s (c :: z) = d :: o := by
      rw [written, staysInBlock_of_isFlush hflush]
      exact ho
    rw [applyFrom, hlines, writesFrom, List.flatten_append, flatten_line, hgap, hwritten]
    refine ⟨d, _, rfl, ?_⟩
    intro hd
    exact hline (hfeed.1 hd ▸ List.mem_cons_self)

/-- A text begins with a character at the left of its line. -/
def IsLeft (t : List Char) : Prop :=
  ∃ c r, t = c :: r ∧ c ≠ ' ' ∧ isBreak c = false

theorem ne_of_not_isBreak {c : Char} (h : isBreak c = false) : c ≠ '\n' ∧ c ≠ '\r' := by
  constructor <;>
  · rintro rfl
    exact absurd h (by decide)

theorem IsLeft.startsFlush {t : List Char} (ht : IsLeft t) : StartsFlush t := by
  obtain ⟨c, r, rfl, hspace, hc⟩ := ht
  obtain ⟨hline, hreturn⟩ := ne_of_not_isBreak hc
  obtain ⟨z, rest, hlines⟩ := Text.exists_lines_eq List.not_mem_nil hline hreturn r
  exact ⟨c :: z, rest, hlines, isFlush_cons.2 hspace⟩

/-! ## One document behind another -/

section Append

variable {t u : List Char} (ht : t = [] ∨ t.getLast? = some '\n') (hu : StartsFlush u)

include ht in
theorem writesFrom_lines_append (s : State) : writesFrom s (Text.lines (t ++ u)) =
    writesFrom s (Text.lines t) ++ writesFrom (stateAfter s t) (Text.lines u) := by
  rw [Text.lines_append_of_ends ht, writesFrom_append, stateAfter]

include hu in
/-- With a text open, the empty line in front of what begins at the left is missing. -/
theorem applyFrom_ne_apply {s : State} (hs : s.quote ≠ .outside) : applyFrom s u ≠ apply u := by
  obtain ⟨d, out, hout, hd⟩ := exists_applyFrom_eq hu hs
  obtain ⟨out', hout'⟩ := exists_apply_eq hu
  rw [hout, hout']
  intro h
  exact hd (List.cons.inj h).1

include ht hu in
/-- Two documents come out one by one, from any state, exactly if no text is open between them. -/
theorem applyFrom_append_iff (s : State) :
    applyFrom s (t ++ u) = applyFrom s t ++ apply u ↔ (stateAfter s t).quote = .outside := by
  rw [applyFrom_append s ht, List.append_cancel_left_eq]
  constructor
  · intro h
    by_contra hquote
    exact applyFrom_ne_apply hu hquote h
  · intro hquote
    exact applyFrom_outside hu hquote

include ht hu in
/-- **The texts that are written for two documents, one behind the other, are those of the one and
then those of the other if no text is open between them, whether a block is or not; with a text
open, what comes out is something else.** -/
theorem writes_append :
    ((stateAfter .start t).quote = .outside → writes (t ++ u) = writes t ++ writes u) ∧
      (apply (t ++ u) = apply t ++ apply u ↔ (stateAfter .start t).quote = .outside) := by
  constructor
  · intro hquote
    rw [writes, writesFrom_lines_append ht, writesFrom_outside hu hquote, ← writes]
  · exact applyFrom_append_iff ht hu .start

end Append

/-- The first document ends inside a block, and the quotes in it open no text. -/
theorem writes_append_block :
    let t := "a:\n  b: |-\n    it's 'one\n".toList
    let u := "c: 'd'\n".toList
    (stateAfter .start t).block = some 2 ∧ writes (t ++ u) = writes t ++ writes u := by
  intro t u
  have hlines : Text.lines u = ["c: 'd'".toList] := by decide
  have hu : StartsFlush u := ⟨_, [], hlines, by decide⟩
  have hquote : (stateAfter .start t).quote = .outside := by decide
  exact ⟨by decide, (writes_append (.inr (by decide)) hu).1 hquote⟩

/-! ## A line that goes on -/

/-- A line that ends with a break other than its line feed goes on with what follows. -/
theorem exists_written_append (s : State) {w : List Char} {a : Char} (hlast : w.getLast? = some a)
    (ha : a ≠ ' ' ∧ a ≠ '\x27' ∧ a ≠ '\\') {c : Char} (hc : c ≠ '\n') (z : List Char) :
    ∃ d out, written s (w ++ c :: z) = written s w ++ d :: out ∧ d ≠ '\n' := by
  have hmem := List.mem_of_getLast? hlast
  have hstays : staysInBlock s (w ++ c :: z) = staysInBlock s w := by
    have hempty : w.isEmpty = false := List.isEmpty_eq_false_iff.2 (List.ne_nil_of_mem hmem)
    have hempty' : (w ++ c :: z).isEmpty = false := List.isEmpty_eq_false_iff.2 (by simp)
    rw [staysInBlock, staysInBlock, indentation_append ⟨a, hmem, ha.1⟩, hempty, hempty']
  rw [written, written, hstays]
  split
  · exact ⟨c, z, rfl, hc⟩
  · have hend : ∀ d, w.getLast? = some d → d ≠ '\x27' ∧ d ≠ '\\' := by
      intro d hd
      rw [hlast, Option.some.injEq] at hd
      exact hd ▸ ha.2
    obtain ⟨d, o, ho, -, hfeed⟩ := exists_scan_cons (scan s.quote [] w).2 (w.reverse ++ []) c z
    rw [scan_append s.quote [] w hend, ho]
    exact ⟨d, o, rfl, mt hfeed.1 hc⟩

/-- So does a document of one line. -/
theorem exists_applyFrom_append (s : State) {w : List Char} (hw : '\n' ∉ w) {a : Char}
    (hlast : w.getLast? = some a) (ha : a ≠ ' ' ∧ a ≠ '\x27' ∧ a ≠ '\\') {u : List Char}
    (hu : IsLeft u) :
    ∃ o d out, applyFrom s w = o ++ ['\n'] ∧ applyFrom s (w ++ u) = o ++ d :: out ∧ d ≠ '\n' := by
  obtain ⟨c, r, rfl, -, hc⟩ := hu
  obtain ⟨hline, hreturn⟩ := ne_of_not_isBreak hc
  obtain ⟨z, rest, hnext⟩ := Text.exists_lines_eq hw hline hreturn r
  obtain ⟨d, out, hout, hd⟩ := exists_written_append s hlast ha hline z
  have hne : w ≠ [] := List.ne_nil_of_mem (List.mem_of_getLast? hlast)
  have hgap : gapOf s (w ++ c :: z) = gapOf s w := by
    obtain ⟨b, v, rfl⟩ := List.exists_cons_of_ne_nil hne
    rfl
  refine ⟨gapOf s w ++ written s w, d,
    out ++ ['\n'] ++ (writesFrom (line s (w ++ c :: z)).2 rest).flatten, ?_, ?_, hd⟩
  · rw [applyFrom, Text.lines_eq_self hne hw, writesFrom, List.flatten_append, flatten_line]
    simp [writesFrom]
  · rw [applyFrom, hnext, writesFrom, List.flatten_append, flatten_line, hgap, hout]
    simp

/-! ## Sections -/

/-- A document that begins at the left and whose last line ends with a break. -/
structure IsSection (t : List Char) : Prop where
  begins : IsLeft t
  ends : endsWith isBreak t = true

/-- A document ends its last line, and leaves no text between quotes open. -/
def IsSettled (t : List Char) : Prop :=
  t.getLast? = some '\n' ∧ (stateAfter .start t).quote = .outside

instance (t : List Char) : Decidable (IsSettled t) :=
  inferInstanceAs (Decidable (_ ∧ _))

/-- What follows a settled document is written as if it stood alone. -/
theorem IsSettled.apply_append {t u : List Char} (ht : IsSettled t) (hu : IsLeft u) :
    apply (t ++ u) = apply t ++ apply u := by
  obtain ⟨hend, hquote⟩ := ht
  exact (applyFrom_append_iff (.inr hend) hu.startsFlush .start).2 hquote

/-- What is not settled is told by what is written behind it. -/
theorem isSettled_of_apply_append {t u out : List Char} (ht : endsWith isBreak t = true)
    (hu : IsLeft u) (h : apply (t ++ u) = apply t ++ '\n' :: out) : IsSettled t := by
  obtain ⟨a, hlast, hbreak⟩ : ∃ a, t.getLast? = some a ∧ isBreak a = true := by
    rwa [endsWith, Option.any_eq_true] at ht
  by_cases ha : a = '\n'
  · -- a text that is open takes the empty line
    subst ha
    refine ⟨hlast, ?_⟩
    by_contra hquote
    obtain ⟨d, o, ho, hd⟩ := exists_applyFrom_eq hu.startsFlush hquote
    rw [apply_eq, apply_eq, applyFrom_append _ (.inr hlast), ho, List.append_cancel_left_eq,
      List.cons.injEq] at h
    exact hd h.1
  · -- the last line goes on with the first line of what follows
    exfalso
    obtain ⟨p, w, rfl, hw, hp⟩ := Text.exists_last_line t
    have hlast' : w.getLast? = some a := by
      rw [List.getLast?_append] at hlast
      cases hw' : w.getLast? with
      | some d => rwa [hw'] at hlast
      | none =>
        rw [hw', Option.none_or] at hlast
        rcases hp with rfl | hp
        · cases hlast
        · exact absurd (Option.some.inj (hlast.symm.trans hp)) ha
    have hplain : a ≠ ' ' ∧ a ≠ '\x27' ∧ a ≠ '\\' := by
      refine ⟨?_, ?_, ?_⟩ <;>
      · rintro rfl
        exact absurd hbreak (by decide)
    obtain ⟨o, d, out', ho, ho', hd⟩ :=
      exists_applyFrom_append (stateAfter .start p) hw hlast' hplain hu
    rw [apply_eq, apply_eq, List.append_assoc, applyFrom_append _ hp, applyFrom_append _ hp,
      List.append_assoc, List.append_cancel_left_eq, ho, ho', List.append_assoc,
      List.append_cancel_left_eq] at h
    exact hd (List.cons.inj h).1

/-- Sections that are written one after the other come out one by one exactly if all of them are
settled but the last, which nothing follows. -/
theorem apply_flatten_iff {ts : List (List Char)} (hts : ∀ t ∈ ts, IsSection t) :
    apply ts.flatten = (ts.map apply).flatten ↔ ∀ t ∈ ts.dropLast, IsSettled t := by
  match ts, hts with
  | [], _ => simp [apply, writes, writesFrom, Text.lines, Text.splitOn, Text.linesOfPieces]
  | [t], _ => simp
  | t :: t' :: ts, hts =>
    have ht := hts t List.mem_cons_self
    have hrest : ∀ u ∈ t' :: ts, IsSection u := fun u hu => hts u (List.mem_cons_of_mem t hu)
    have hleft : IsLeft (t' :: ts).flatten := by
      obtain ⟨c, r, heq, hc⟩ := (hrest t' List.mem_cons_self).begins
      exact ⟨c, r ++ ts.flatten, by rw [List.flatten_cons, heq, List.cons_append], hc⟩
    have hflatten : (t :: t' :: ts).flatten = t ++ (t' :: ts).flatten := rfl
    have hmap : ((t :: t' :: ts).map apply).flatten =
        apply t ++ ((t' :: ts).map apply).flatten := rfl
    rw [List.dropLast_cons_of_ne_nil (List.cons_ne_nil t' ts), List.forall_mem_cons,
      ← apply_flatten_iff hrest, hflatten, hmap]
    constructor
    · intro h
      have hsettled : IsSettled t := by
        obtain ⟨out, hout⟩ := exists_apply_eq (hrest t' List.mem_cons_self).begins.startsFlush
        have hfront : ((t' :: ts).map apply).flatten = '\n' :: (out ++ (ts.map apply).flatten) := by
          rw [List.map_cons, List.flatten_cons, hout]
          rfl
        rw [hfront] at h
        exact isSettled_of_apply_append ht.ends hleft h
      rw [hsettled.apply_append hleft, List.append_cancel_left_eq] at h
      exact ⟨hsettled, h⟩
    · rintro ⟨hsettled, h⟩
      rw [hsettled.apply_append hleft, h]

end Layout

end LockPrune
