import LockPrune.Yaml.Tree.Scalar
import Mathlib.Data.List.TakeWhile
import Mathlib.Tactic.ByContra

/-!
# Stepping through a written text

What is written has line feeds, and two separators beyond ASCII that are kept, for its only
ends of line, and no blank but the space.  In such a text the place behind a prefix depends
on the characters of the prefix one by one, and the moves of a cursor cut the text at
prefixes.

## Main definitions

* `Mark.past` — the place behind a text.

## Main statements

* `Cursor.skip_append`, `Cursor.skipWhile_append`, `Cursor.readLine_break` — the moves of a
  cursor over a prefix.
* `ne_of_isPrintable`, `isAdmitted_of_isPrintable` — the characters that are written as
  themselves.
-/

namespace LockPrune.Yaml

open Scalar

/-! ## Classes of characters -/

/-- What can be tested of every character of a short list. -/
theorem forall_mem_of_all {s : List Char} {p : Char → Prop} [DecidablePred p]
    (h : s.all (fun c => decide (p c)) = true) : ∀ c ∈ s, p c := by
  simpa using h

/-- An end of line that is written as itself. -/
def isWrittenBreak (c : Char) : Bool :=
  isBreak c && isPrintable c

theorem isBreak_of_isWrittenBreak {c : Char} (h : isWrittenBreak c = true) :
    isBreak c = true := by
  simp only [isWrittenBreak, Bool.and_eq_true] at h
  exact h.1

/-- The ends of line that are written as themselves are these three. -/
theorem isWrittenBreak_iff {c : Char} :
    isWrittenBreak c = true ↔ c = '\n' ∨ c = '\u2028' ∨ c = '\u2029' := by
  constructor
  · intro h
    simp only [isWrittenBreak, Bool.and_eq_true, isBreak, Bool.or_eq_true,
      decide_eq_true_eq] at h
    obtain ⟨hbreak, hprint⟩ := h
    rcases hbreak with (((h | h) | h) | h) | h
    · exact .inl h
    · subst h
      exact absurd hprint (by decide)
    · subst h
      exact absurd hprint (by decide)
    · exact .inr (.inl h)
    · exact .inr (.inr h)
  · rintro (h | h | h) <;> subst h <;> decide

/-- A character that is written as itself and is no end of line is no blank but the space,
and not the mark of a file. -/
theorem ne_of_isPrintable {c : Char} (h : isPrintable c = true) :
    c ≠ '\t' ∧ c ≠ '\r' ∧ c ≠ '\x85' ∧ c ≠ byteOrderMark := by
  refine ⟨?_, ?_, ?_, ?_⟩ <;>
  · intro hc
    subst hc
    exact absurd h (by decide)

/-- The only blank that is written as itself is the space. -/
theorem isGap_iff_of_isPrintable {c : Char} (h : isPrintable c = true) :
    isGap c = true ↔ c = ' ' := by
  have htab := (ne_of_isPrintable h).1
  simp [isGap, htab]

/-- What is written as itself may stand in a text. -/
theorem isAdmitted_of_isPrintable {c : Char} (h : isPrintable c = true) :
    isAdmitted c = true := by
  simp only [isPrintable, Bool.or_eq_true, Bool.and_eq_true, decide_eq_true_eq, bne_iff_ne] at h
  simp only [isAdmitted, Bool.or_eq_true, Bool.and_eq_true, decide_eq_true_eq]
  rcases h with (((rfl | h) | h) | h) | h
  · decide
  · omega
  · omega
  · omega
  · omega

/-- A text has a pair exactly where the two characters stand side by side. -/
theorem hasPair_eq_false_iff {p q : Char → Bool} {s : List Char} :
    hasPair p q s = false ↔
      ∀ u a b v, s = u ++ a :: b :: v → p a = true → q b = true → False := by
  induction s with
  | nil => simp [hasPair]
  | cons a s ih =>
    cases s with
    | nil =>
      simp only [hasPair, true_iff]
      intro u x y v h
      have hlen := congrArg List.length h
      simp at hlen
      omega
    | cons b s =>
      simp only [hasPair, Bool.or_eq_false_iff, ih]
      constructor
      · rintro ⟨hab, hrest⟩ u x y v h hx hy
        cases u with
        | nil =>
          simp only [List.nil_append, List.cons.injEq] at h
          obtain ⟨rfl, rfl, -⟩ := h
          simp [hx, hy] at hab
        | cons z u =>
          simp only [List.cons_append, List.cons.injEq] at h
          exact hrest u x y v h.2 hx hy
      · intro h
        refine ⟨?_, fun u x y v hs hx hy => h (a :: u) x y v (by rw [hs]; rfl) hx hy⟩
        by_contra hab
        simp only [Bool.not_eq_false, Bool.and_eq_true] at hab
        exact h [] a b s rfl hab.1 hab.2

/-- A text begins with a run of characters of a class. -/
theorem exists_run (p : Char → Bool) (s : List Char) :
    ∃ g r, s = g ++ r ∧ (∀ c ∈ g, p c = true) ∧ r.head?.any p = false := by
  refine ⟨s.takeWhile p, s.dropWhile p, List.takeWhile_append_dropWhile.symm,
    fun c hc => List.mem_takeWhile_imp hc, ?_⟩
  have h := List.head?_dropWhile_not p s
  cases hd : (s.dropWhile p).head? with
  | none => rfl
  | some a =>
    rw [hd] at h
    simpa using h

/-- Behind a run of one class, no character follows that makes a pair with its last. -/
theorem head_of_hasPair {p q : Char → Bool} {u g r : List Char} (hg : ∀ c ∈ g, p c = true)
    (hne : g ≠ []) (h : hasPair p q (u ++ (g ++ r)) = false) : r.head?.any q = false := by
  cases r with
  | nil => rfl
  | cons b r =>
    obtain ⟨g, x, rfl⟩ : ∃ g' x, g = g' ++ [x] :=
      ⟨g.dropLast, g.getLast hne, (List.dropLast_concat_getLast hne).symm⟩
    have hx : p x = true := hg x (by simp)
    rw [hasPair_eq_false_iff] at h
    have hb := h (u ++ g) x b r (by simp) hx
    simpa using hb

/-- A pair of a part is a pair of the whole. -/
theorem hasPair_of_append {p q : Char → Bool} {s t : List Char}
    (h : hasPair p q (s ++ t) = false) : hasPair p q t = false := by
  rw [hasPair_eq_false_iff] at h ⊢
  intro u a b v ht
  exact h (s ++ u) a b v (by rw [ht, List.append_assoc])

/-! ## Octets -/

@[simp] theorem octetCount_nil : octetCount [] = 0 := rfl

@[simp] theorem octetCount_cons (a : Char) (s : List Char) :
    octetCount (a :: s) = a.utf8Size + octetCount s := rfl

@[simp] theorem octetCount_append (s t : List Char) :
    octetCount (s ++ t) = octetCount s + octetCount t := by
  induction s with
  | nil => simp
  | cons a s ih =>
    rw [List.cons_append, octetCount_cons, ih, octetCount_cons]
    omega

/-! ## Places -/

namespace Mark

/-- The place behind a text whose ends of line are single characters. -/
def past (m : Mark) : List Char → Mark
  | [] => m
  | a :: s => (if isBreak a then m.nextLine [a] else m.along [a]).past s

@[simp] theorem past_nil (m : Mark) : m.past [] = m := rfl

theorem past_cons_break {a : Char} (m : Mark) (s : List Char) (h : isBreak a = true) :
    m.past (a :: s) = (m.nextLine [a]).past s := by
  simp [past, h]

theorem past_cons_of_not_break {a : Char} (m : Mark) (s : List Char) (h : isBreak a = false) :
    m.past (a :: s) = (m.along [a]).past s := by
  simp [past, h]

theorem past_append (m : Mark) (s t : List Char) : m.past (s ++ t) = (m.past s).past t := by
  induction s generalizing m with
  | nil => rfl
  | cons a s ih => rw [List.cons_append, past, past, ih]

@[simp] theorem along_nil (m : Mark) : m.along [] = m := by
  simp [along]

/-- Along a line the place moves by characters and octets. -/
theorem past_eq_along {m : Mark} {s : List Char} (h : ∀ a ∈ s, isBreak a = false) :
    m.past s = m.along s := by
  induction s generalizing m with
  | nil => simp
  | cons a s ih =>
    have ha : isBreak a = false := h a List.mem_cons_self
    rw [past_cons_of_not_break _ _ ha, ih fun b hb => h b (List.mem_cons_of_mem _ hb)]
    simp only [along, octetCount_cons, octetCount_nil, List.length_cons, List.length_nil]
    congr 1 <;> omega

@[simp] theorem offset_past (m : Mark) (s : List Char) :
    (m.past s).offset = m.offset + octetCount s := by
  induction s generalizing m with
  | nil => simp
  | cons a s ih =>
    rw [past, ih, octetCount_cons]
    split <;> simp [nextLine, along] <;> omega

/-- No move goes back to an earlier line. -/
theorem line_le_line_past (m : Mark) (s : List Char) : m.line ≤ (m.past s).line := by
  induction s generalizing m with
  | nil => simp
  | cons a s ih =>
    rw [past]
    refine Nat.le_trans ?_ (ih _)
    split <;> simp [nextLine, along]

/-- Behind an end of line begins a later line. -/
theorem line_lt_line_past {m : Mark} {s : List Char} (h : s.any isBreak = true) :
    m.line < (m.past s).line := by
  induction s generalizing m with
  | nil => simp at h
  | cons a s ih =>
    by_cases ha : isBreak a = true
    · rw [past_cons_break _ _ ha]
      have hline : m.line < (m.nextLine [a]).line := by simp [nextLine]
      exact Nat.lt_of_lt_of_le hline (line_le_line_past _ _)
    · simp only [Bool.not_eq_true] at ha
      rw [past_cons_of_not_break _ _ ha]
      simp only [List.any_cons, ha, Bool.false_or] at h
      have hline : (m.along [a]).line = m.line := rfl
      rw [← hline]
      exact ih h

/-- Behind ends of line a line begins. -/
theorem column_past_breaks {m : Mark} {b : Char} {g : List Char} (hb : isBreak b = true)
    (hg : ∀ c ∈ g, isBreak c = true) : (m.past (b :: g)).column = 0 := by
  induction g generalizing m b with
  | nil =>
    rw [past_cons_break _ _ hb]
    rfl
  | cons c g ih =>
    rw [past_cons_break _ _ hb]
    exact ih (hg c List.mem_cons_self) fun d hd => hg d (List.mem_cons_of_mem _ hd)

@[simp] theorem line_along (m : Mark) (s : List Char) : (m.along s).line = m.line := rfl

@[simp] theorem column_along (m : Mark) (s : List Char) :
    (m.along s).column = m.column + s.length := rfl

@[simp] theorem offset_along (m : Mark) (s : List Char) :
    (m.along s).offset = m.offset + octetCount s := rfl

@[simp] theorem column_nextLine (m : Mark) (s : List Char) : (m.nextLine s).column = 0 := rfl

@[simp] theorem line_nextLine (m : Mark) (s : List Char) :
    (m.nextLine s).line = m.line + 1 := rfl

theorem along_append (m : Mark) (s t : List Char) :
    m.along (s ++ t) = (m.along s).along t := by
  simp only [along, octetCount_append, List.length_append]
  congr 1 <;> omega

end Mark

/-! ## Spaces -/

@[simp] theorem length_spaces (n : Nat) : (spaces n).length = n := by
  simp [spaces]

theorem eq_space_of_mem_spaces {n : Nat} {a : Char} (h : a ∈ spaces n) : a = ' ' :=
  List.eq_of_mem_replicate h

theorem isBreak_of_mem_spaces {n : Nat} {a : Char} (h : a ∈ spaces n) : isBreak a = false := by
  rw [eq_space_of_mem_spaces h]
  decide

@[simp] theorem spaces_zero : spaces 0 = [] := rfl

theorem spaces_succ (n : Nat) : spaces (n + 1) = ' ' :: spaces n := rfl

/-- The place behind spaces. -/
theorem Mark.past_spaces (m : Mark) (n : Nat) : m.past (spaces n) = m.along (spaces n) :=
  past_eq_along fun _ h => isBreak_of_mem_spaces h

/-- Behind ends of line, or from the beginning of a line, spaces are counted. -/
theorem Mark.column_past_breaks_spaces {g : List Char} {m : Mark} (n : Nat)
    (hg : ∀ c ∈ g, isBreak c = true) (hm : g = [] → m.column = 0) :
    (m.past (g ++ spaces n)).column = n := by
  rw [past_append, past_spaces, column_along, length_spaces]
  cases g with
  | nil => rw [past_nil, hm rfl, Nat.zero_add]
  | cons c g =>
    rw [column_past_breaks (hg c List.mem_cons_self)
      fun d hd => hg d (List.mem_cons_of_mem _ hd), Nat.zero_add]

/-! ## Cursors -/

namespace Cursor

/-- Stepping over a prefix that ends no line. -/
theorem skip_append (s t : List Char) (m : Mark) :
    (Cursor.mk (s ++ t) m).skip s.length = ⟨t, m.along s⟩ := by
  simp [skip]

/-- Stepping over one character. -/
theorem skip_one (a : Char) (t : List Char) (m : Mark) :
    (Cursor.mk (a :: t) m).skip 1 = ⟨t, m.along [a]⟩ := by
  simp [skip]

/-- Stepping over two characters. -/
theorem skip_two (a b : Char) (t : List Char) (m : Mark) :
    (Cursor.mk (a :: b :: t) m).skip 2 = ⟨t, m.along [a, b]⟩ := by
  simp [skip]

/-- A prefix of a class is taken up to the first character that is not of it. -/
theorem takeWhile_prefix {p : Char → Bool} {s t : List Char} (hs : ∀ a ∈ s, p a = true)
    (ht : t.head?.any p = false) : (s ++ t).takeWhile p = s := by
  rw [List.takeWhile_append_of_pos hs]
  cases t with
  | nil => simp
  | cons b t =>
    simp only [List.head?_cons, Option.any_some] at ht
    simp [ht]

/-- Stepping over the characters of a class. -/
theorem skipWhile_append {p : Char → Bool} {s t : List Char} (m : Mark)
    (hs : ∀ a ∈ s, p a = true) (ht : t.head?.any p = false) :
    (Cursor.mk (s ++ t) m).skipWhile p = ⟨t, m.along s⟩ := by
  rw [skipWhile, takeWhile_prefix hs ht, skip_append]

/-- Stepping over spaces. -/
theorem skipWhile_spaces {p : Char → Bool} (n : Nat) {t : List Char} (m : Mark)
    (hp : p ' ' = true) (ht : t.head?.any p = false) :
    (Cursor.mk (spaces n ++ t) m).skipWhile p = ⟨t, m.along (spaces n)⟩ :=
  skipWhile_append m (fun _ h => by rw [eq_space_of_mem_spaces h, hp]) ht

/-- Where no character of the class stands next, nothing is stepped over. -/
theorem skipWhile_of_head {p : Char → Bool} {t : List Char} (m : Mark)
    (ht : t.head?.any p = false) : (Cursor.mk t m).skipWhile p = ⟨t, m⟩ := by
  have h := skipWhile_append (s := []) m (by simp) ht
  simpa using h

/-- An end of line that is written as itself reads as itself. -/
theorem readLine_break {b : Char} (t : List Char) (m : Mark) (h : isWrittenBreak b = true) :
    (Cursor.mk (b :: t) m).readLine = ([b], ⟨t, m.nextLine [b]⟩) := by
  rcases isWrittenBreak_iff.1 h with rfl | rfl | rfl <;> simp [readLine, isBreak]

theorem skipLine_break {b : Char} (t : List Char) (m : Mark) (h : isWrittenBreak b = true) :
    (Cursor.mk (b :: t) m).skipLine = ⟨t, m.nextLine [b]⟩ := by
  rw [skipLine, readLine_break t m h]

/-- Behind the first column of a line no mark between documents stands. -/
theorem atDocumentMark_of_column {c : Cursor} (h : 0 < c.column) : c.atDocumentMark = false := by
  have hne : c.column ≠ 0 := Nat.ne_of_gt h
  simp [atDocumentMark, hne]

end Cursor

end LockPrune.Yaml
