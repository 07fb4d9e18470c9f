import LockPrune.Proofs.Lockfile.LayoutState

/-!
# Texts between single quotes

Between single quotes a text has its quotes twice, and the layout puts it between double quotes
with a backslash in front of each quote and each backslash.  A quote is the end of the text or one
of two, and the scan tells by the character behind it: what is doubled comes in pairs, so that the
last quote is always the odd one.  The text may be of several lines, and none of them but the first
gets an empty line in front.

## Main definitions

* `doubled`, `marked` — a text between single quotes, and between double quotes.
* `unmarked` — a text without the backslashes in front of its characters.
* `Opened` — the layout is inside of a text between single quotes.

## Main statements

* `Opened.runs` — the rest of a text between single quotes, from whatever state it is in.
* `apply_doubled` — a document of one text between single quotes.
-/

namespace LockPrune.Layout

open Yaml

variable {s x o gap p q : List Char} {st : State}

/-! ## Texts -/

/-- A text as it stands between single quotes: each of its quotes is written twice. -/
def doubled (s : List Char) : List Char :=
  s.flatMap writeSingleChar

/-- A text as it stands between double quotes: a backslash is put in front of each quote and each
backslash. -/
def marked (s : List Char) : List Char :=
  s.flatMap requoteChar

/-- A text without the backslashes in front of its characters. -/
def unmarked : List Char → List Char
  | '\\' :: c :: s => c :: unmarked s
  | c :: s => c :: unmarked s
  | [] => []

theorem doubled_cons (c : Char) (s : List Char) :
    doubled (c :: s) = writeSingleChar c ++ doubled s :=
  rfl

theorem marked_cons (c : Char) (s : List Char) :
    marked (c :: s) = requoteChar c ++ marked s :=
  rfl

theorem doubled_line (x s : List Char) :
    doubled (x ++ '\n' :: s) = doubled x ++ '\n' :: doubled s := by
  simp [doubled, writeSingleChar]

theorem marked_line (x s : List Char) :
    marked (x ++ '\n' :: s) = marked x ++ '\n' :: marked s := by
  simp [marked, requoteChar]

/-- Nothing but quotes is added to a text between single quotes. -/
theorem mem_doubled_iff {a : Char} : a ∈ doubled s ↔ a ∈ s := by
  have hchar : ∀ c, a ∈ writeSingleChar c ↔ a = c := by
    intro c
    rw [writeSingleChar]
    split <;> simp [*]
  simp [doubled, hchar]

/-- Without the backslashes the text is what it was. -/
theorem unmarked_marked (s : List Char) : unmarked (marked s) = s := by
  induction s with
  | nil => rfl
  | cons c s ih =>
    rw [marked_cons, requoteChar]
    split
    · rw [List.cons_append, List.singleton_append, unmarked, ih]
    · rename_i hc
      have hmark : c ≠ '\\' := by
        rintro rfl
        exact hc (by decide)
      rw [List.singleton_append, unmarked, ih]
      exact fun _ _ h _ => hmark h

/-! ## One line -/

/-- The quotes of a text come in pairs, so that none of them closes it. -/
theorem scan_doubled (s before t : List Char) :
    scan .single before (doubled s ++ t) =
      (marked s ++ (scan .single ((doubled s).reverse ++ before) t).1,
        (scan .single ((doubled s).reverse ++ before) t).2) := by
  induction s generalizing before with
  | nil => simp [doubled, marked]
  | cons c s ih =>
    rw [doubled_cons, marked_cons, List.append_assoc, scans_single_char, ih]
    simp

/-- What follows a text on its last line: nothing, or the colon of a key. -/
def IsTail (q : List Char) : Prop :=
  q = [] ∨ q = [':']

theorem scan_tail (hq : IsTail q) (before : List Char) :
    scan .single before ('\x27' :: q) = ('"' :: q, .outside) := by
  have hhead : q.head? ≠ some '\x27' := by
    rcases hq with rfl | rfl <;> decide
  have hrest : scan .outside ('\x27' :: before) q = (q, .outside) := by
    rcases hq with rfl | rfl
    · exact scan_nil _ _
    · rw [scan_outside (by simp), scan_nil]
  rw [scan_single_close before hhead, hrest]

/-- A line that ends with a quote or a colon opens no block. -/
theorem opensBlock_tail (hq : IsTail q) (x : List Char) :
    opensBlock (x ++ '\x27' :: q) = false := by
  rcases hq with rfl | rfl
  · exact opensBlock_of_getLast? (a := '\x27') (by simp) (by decide)
  · exact opensBlock_of_getLast? (a := ':') (by simp) (by decide)

/-! ## Lines -/

/-- The layout is inside of a text between single quotes, behind a part of a line: what is written
for that part, and in front of its line. -/
structure Opened (st : State) (x o gap : List Char) : Prop where
  no_line : '\n' ∉ x
  no_return : '\r' ∉ x
  scan_eq : ∀ t, scan st.quote [] (x ++ t) =
    (o ++ (scan .single x.reverse t).1, (scan .single x.reverse t).2)
  stays_eq : ∀ t, staysInBlock st (x ++ t) = false
  gap_eq : ∀ t, gapOf st (x ++ t) = gap

namespace Opened

/-- The beginning of a further line of the text. -/
theorem nextLine : Opened ⟨.single, none⟩ [] [] [] where
  no_line := List.not_mem_nil
  no_return := List.not_mem_nil
  scan_eq _ := rfl
  stays_eq _ := rfl
  gap_eq _ := rfl

/-- The line goes on to its end. -/
theorem line_eq (h : Opened st x o gap) {y out : List Char} {q' : Quote}
    (hy : scan .single x.reverse y = (out, q')) :
    (line st (x ++ y)).1.flatten = gap ++ (o ++ (out ++ ['\n'])) ∧
      (line st (x ++ y)).2 = ⟨q',
        if q' = .outside && opensBlock (x ++ y) then some (indentation (x ++ y)) else none⟩ := by
  have hscan : scan st.quote [] (x ++ y) = (o ++ out, q') := by rw [h.scan_eq, hy]
  constructor
  · rw [flatten_line, h.gap_eq, written, h.stays_eq, hscan]
    simp
  · rw [line, h.stays_eq, hscan]
    simp

/-- The text goes on to its end, over however many lines, and something may follow on the last.
The induction is on the lines that are left; each but the last ends inside of the text, where no
empty line is put in front of the next. -/
theorem runs (h : Opened st x o gap) (hs : '\r' ∉ s) (hq : IsTail q) :
    Runs st (x ++ (doubled s ++ '\x27' :: (q ++ ['\n'])))
      (gap ++ (o ++ (marked s ++ '"' :: (q ++ ['\n'])))) ⟨.outside, none⟩ := by
  induction s using Text.line_induction generalizing st x o gap with
  | last y hline =>
    have htail : '\n' ∉ q ∧ '\r' ∉ q := by
      rcases hq with rfl | rfl <;> decide
    have hscan : scan .single x.reverse (doubled y ++ '\x27' :: q) =
        (marked y ++ '"' :: q, .outside) := by
      rw [scan_doubled, scan_tail hq]
    obtain ⟨hwritten, hnext⟩ := h.line_eq hscan
    have hopens : opensBlock (x ++ (doubled y ++ '\x27' :: q)) = false := by
      rw [← List.append_assoc]
      exact opensBlock_tail hq _
    have hline' : '\n' ∉ x ++ (doubled y ++ '\x27' :: q) := by
      simp [mem_doubled_iff, h.no_line, hline, htail.1]
    have hreturn' : '\r' ∉ x ++ (doubled y ++ '\x27' :: q) := by
      simp [mem_doubled_iff, h.no_return, hs, htail.2]
    intro t
    have hdocument : x ++ (doubled y ++ '\x27' :: (q ++ ['\n'])) ++ t =
        x ++ (doubled y ++ '\x27' :: q) ++ '\n' :: t := by simp
    rw [hdocument, applyFrom_line hline' hreturn', hwritten, hnext, hopens]
    simp
  | line y s hline ih =>
    rw [List.mem_append, List.mem_cons, not_or, not_or] at hs
    have hscan : scan .single x.reverse (doubled y) = (marked y, .single) := by
      have hscan := scan_doubled y x.reverse []
      rwa [List.append_nil, scan_nil, List.append_nil] at hscan
    obtain ⟨hwritten, hnext⟩ := h.line_eq hscan
    have hline' : '\n' ∉ x ++ doubled y := by simp [mem_doubled_iff, h.no_line, hline]
    have hreturn' : '\r' ∉ x ++ doubled y := by simp [mem_doubled_iff, h.no_return, hs.1]
    intro t
    have hdocument : x ++ (doubled (y ++ '\n' :: s) ++ '\x27' :: (q ++ ['\n'])) ++ t =
        x ++ doubled y ++ '\n' :: ([] ++ (doubled s ++ '\x27' :: (q ++ ['\n'])) ++ t) := by
      simp [doubled_line]
    rw [hdocument, applyFrom_line hline' hreturn', hwritten, hnext]
    have hrest := ih nextLine hs.2.2 t
    simp only [reduceCtorEq, decide_false, Bool.false_and, Bool.false_eq_true, if_false]
    rw [hrest, marked_line]
    simp

end Opened

/-- A quote where a scalar may begin opens a text. -/
theorem opened_of_mayBegin (hp : ∀ c ∈ p, c ≠ '\n' ∧ c ≠ '\r' ∧ c ≠ '\x27' ∧ c ≠ '"')
    (hbegin : mayBegin p.reverse = true) :
    Opened .start (p ++ ['\x27']) (p ++ ['"']) (if p.head? = some ' ' then [] else ['\n']) where
  no_line h := by
    rcases List.mem_append.1 h with h | h
    · exact (hp _ h).1 rfl
    · simp at h
  no_return h := by
    rcases List.mem_append.1 h with h | h
    · exact (hp _ h).2.1 rfl
    · simp at h
  scan_eq t := by
    have hplain : Scans .outside [] p p .outside :=
      scans_of_not_opensQuote (opensQuote_eq_false (fun c hc => (hp c hc).2.2) [])
    have hfront := hplain ('\x27' :: t) fun hlast =>
      absurd rfl (hp _ (List.mem_of_getLast? hlast)).2.2.1
    rw [List.append_nil, scan_opens_single hbegin] at hfront
    simpa [State.start] using hfront
  stays_eq _ := rfl
  gap_eq t := by
    have hquote : State.start.quote = .outside := rfl
    cases p with
    | nil => simp [gapOf, hquote, isFlush]
    | cons c p => by_cases hc : c = ' ' <;> simp [gapOf, hquote, isFlush, hc]

/-- **A text between single quotes is put between double quotes.**  It may be any text without
carriage returns, on however many lines, where nothing but blanks or the mark of a key or of an
item stands in front of it.  Every quote that was written twice is written once, and each double
quote and each backslash has a backslash in front, without which the text is what it was.  An empty
line comes first if the line is not indented. -/
theorem apply_doubled (hp : ∀ c ∈ p, c ≠ '\n' ∧ c ≠ '\r' ∧ c ≠ '\x27' ∧ c ≠ '"')
    (hbegin : (∀ c ∈ p, Text.isBlank c = true) ∨
      ∃ front, p = front ++ [':', ' '] ∨ p = front ++ ['-', ' '] ∨ p = front ++ ['?', ' '])
    (hs : '\r' ∉ s) (hq : q = [] ∨ q = [':']) :
    apply (p ++ '\x27' :: (doubled s ++ '\x27' :: (q ++ ['\n']))) =
        (if p.head? = some ' ' then [] else ['\n']) ++
          (p ++ '"' :: (marked s ++ '"' :: (q ++ ['\n']))) ∧
      unmarked (marked s) = s := by
  have hmay : mayBegin p.reverse = true := by
    rw [mayBegin_iff]
    rcases hbegin with hblank | ⟨front, rfl | rfl | rfl⟩
    · exact .inl (by simpa using hblank)
    · exact .inr ⟨':', front.reverse, by simp, .inl rfl⟩
    · exact .inr ⟨'-', front.reverse, by simp, .inr (.inl rfl)⟩
    · exact .inr ⟨'?', front.reverse, by simp, .inr (.inr rfl)⟩
  have hruns := ((opened_of_mayBegin hp hmay).runs hs hq).apply_eq
  simp only [List.append_assoc, List.singleton_append] at hruns
  exact ⟨hruns, unmarked_marked s⟩

/-- A key of two lines, with quotes at the end of each and a backslash in front of one. -/
theorem apply_doubled_key :
    apply "? 'it''s \"a\\''\n''''':\n".toList = "\n? \"it's \\\"a\\\\'\n''\":\n".toList ∧
      unmarked "it's \\\"a\\\\'\n''".toList = "it's \"a\\'\n''".toList :=
  apply_doubled (p := ['?', ' ']) (s := "it's \"a\\'\n''".toList) (q := [':'])
    (by simp) (.inr ⟨[], .inr (.inr rfl)⟩) (by decide) (.inr rfl)

end LockPrune.Layout
