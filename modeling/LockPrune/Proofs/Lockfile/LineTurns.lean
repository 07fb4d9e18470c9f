import LockPrune.Proofs.Lockfile.LineScan

/-!
# The scan of a line, turn by turn

The scan takes one character of a line at a time, or two of them where a quote is written twice
or a character is escaped.  What holds for every line is said of one turn, and of the line by
induction on what is left of it.

## Main definitions

* `Turn` — what the scan takes from a line in one turn, and what it writes for it.

## Main statements

* `exists_turn` — a line that is not empty begins with a turn.
* `scan_append` — a line that goes on.
* `exists_scan_cons` — what is written for a line begins with a space where the line does.
* `mem_of_mem_scan` — nothing but quotes and marks is added to a line.
-/

namespace LockPrune.Layout

open Yaml Yaml.Scalar

variable {q q' : Quote} {before x rest out : List Char}

/-- What the scan takes from the front of a line in one turn, what it writes for it, and the
quotes that are open then.  What follows is told where the turn depends on it. -/
inductive Turn : Quote → List Char → List Char → List Char → List Char → Quote → Prop where
  /-- A character that opens no text. -/
  | plain {before : List Char} {c : Char}
      (h : ((c = '\x27' || c = '"') && mayBegin before) = false) (rest : List Char) :
      Turn .outside before [c] rest [c] .outside
  | opensSingle {before : List Char} (h : mayBegin before = true) (rest : List Char) :
      Turn .outside before ['\x27'] rest ['"'] .single
  | opensDouble {before : List Char} (h : mayBegin before = true) (rest : List Char) :
      Turn .outside before ['"'] rest ['"'] .double
  /-- A quote that is written twice. -/
  | pair (before rest : List Char) : Turn .single before ['\x27', '\x27'] rest ['\x27'] .single
  | closesSingle (before : List Char) {rest : List Char} (h : rest.head? ≠ some '\x27') :
      Turn .single before ['\x27'] rest ['"'] .outside
  | single (before : List Char) {c : Char} (h : c ≠ '\x27') (rest : List Char) :
      Turn .single before [c] rest (requoteChar c) .single
  | escape (before : List Char) (c : Char) (rest : List Char) :
      Turn .double before ['\\', c] rest ['\\', c] .double
  /-- The mark of an escape that the line ends with. -/
  | lastEscape (before : List Char) : Turn .double before ['\\'] [] ['\\'] .double
  | closesDouble (before rest : List Char) : Turn .double before ['"'] rest ['"'] .outside
  | double (before : List Char) {c : Char} (h : c ≠ '"') (h' : c ≠ '\\') (rest : List Char) :
      Turn .double before [c] rest [c] .double

namespace Turn

/-- What is written for a line begins with what is written in the first turn. -/
theorem scan_eq (h : Turn q before x rest out q') :
    scan q before (x ++ rest) = (out ++ (scan q' (x.reverse ++ before) rest).1,
      (scan q' (x.reverse ++ before) rest).2) := by
  cases h with
  | plain h => exact scan_outside h _
  | opensSingle h => exact scan_opens_single h _
  | opensDouble h => exact scan_opens_double h _
  | pair => exact scan_single_pair _ _
  | closesSingle _ h => exact scan_single_close _ h
  | single _ h => exact scan_single_char _ _ h
  | escape => exact scan_double_escape _ _ _
  | lastEscape => rfl
  | closesDouble => exact scan_double_close _ _
  | double _ h h' => exact scan_double_char _ _ h h'

theorem ne_nil (h : Turn q before x rest out q') : x ≠ [] := by
  cases h <;> exact List.cons_ne_nil _ _

/-- A turn that does not end with a quote or with the mark of an escape is the same whatever
follows, and so is one that is not the last. -/
theorem append (h : Turn q before x rest out q')
    (hend : rest = [] → ∀ a, x.getLast? = some a → a ≠ '\x27' ∧ a ≠ '\\') (t : List Char) :
    Turn q before x (rest ++ t) out q' := by
  cases h with
  | plain h => exact .plain h _
  | opensSingle h => exact .opensSingle h _
  | opensDouble h => exact .opensDouble h _
  | pair => exact .pair _ _
  | closesSingle _ h =>
    cases rest with
    | nil => exact absurd rfl (hend rfl '\x27' rfl).1
    | cons a rest => exact .closesSingle _ h
  | single _ h => exact .single _ h _
  | escape => exact .escape _ _ _
  | lastEscape => exact absurd rfl (hend rfl '\\' rfl).2
  | closesDouble => exact .closesDouble _ _
  | double _ h h' => exact .double _ h h' _

/-- What is written begins with a space where the line does, and with no line feed but where
the line does. -/
theorem exists_cons (h : Turn q before x rest out q') :
    ∃ c z d o, x = c :: z ∧ out = d :: o ∧ (d = ' ' ↔ c = ' ') ∧ (d = '\n' ↔ c = '\n') := by
  cases h with
  | @single _ c =>
    refine ⟨c, [], ?_⟩
    rw [requoteChar]
    split
    · rename_i hc
      rw [Bool.or_eq_true, decide_eq_true_eq, decide_eq_true_eq] at hc
      rcases hc with rfl | rfl <;> exact ⟨'\\', _, rfl, rfl, by decide, by decide⟩
    · exact ⟨c, [], rfl, rfl, Iff.rfl, Iff.rfl⟩
  | opensSingle => exact ⟨_, _, _, _, rfl, rfl, by decide, by decide⟩
  | closesSingle => exact ⟨_, _, _, _, rfl, rfl, by decide, by decide⟩
  | _ => exact ⟨_, _, _, _, rfl, rfl, Iff.rfl, Iff.rfl⟩

/-- A turn writes what it takes, a double quote or the mark of an escape. -/
theorem mem_of_mem (h : Turn q before x rest out q') {a : Char} (ha : a ∈ out) :
    a ∈ x ∨ a = '"' ∨ a = '\\' := by
  cases h with
  | @single _ c =>
    rw [requoteChar] at ha
    split at ha
    · rcases List.mem_cons.1 ha with rfl | ha
      · exact .inr (.inr rfl)
      · exact .inl ha
    · exact .inl ha
  | opensSingle => exact .inr (.inl (List.mem_singleton.1 ha))
  | closesSingle => exact .inr (.inl (List.mem_singleton.1 ha))
  | pair => exact .inl (List.mem_cons_of_mem _ ha)
  | _ => exact .inl ha

end Turn

/-- A line that is not empty begins with a turn. -/
theorem exists_turn (q : Quote) (before : List Char) (c : Char) (r : List Char) :
    ∃ x rest out q', c :: r = x ++ rest ∧ Turn q before x rest out q' := by
  cases q with
  | outside =>
    by_cases hopens : ((c = '\x27' || c = '"') && mayBegin before) = true
    · rw [Bool.and_eq_true, Bool.or_eq_true, decide_eq_true_eq, decide_eq_true_eq] at hopens
      obtain ⟨rfl | rfl, hbegin⟩ := hopens
      · exact ⟨_, r, _, _, rfl, .opensSingle hbegin r⟩
      · exact ⟨_, r, _, _, rfl, .opensDouble hbegin r⟩
    · exact ⟨_, r, _, _, rfl, .plain (by simpa using hopens) r⟩
  | single =>
    by_cases hc : c = '\x27'
    · subst hc
      by_cases hpair : r.head? = some '\x27'
      · obtain ⟨r, rfl⟩ := List.head?_eq_some_iff.1 hpair
        exact ⟨_, r, _, _, rfl, .pair before r⟩
      · exact ⟨_, r, _, _, rfl, .closesSingle before hpair⟩
    · exact ⟨_, r, _, _, rfl, .single before hc r⟩
  | double =>
    by_cases hquote : c = '"'
    · subst hquote
      exact ⟨_, r, _, _, rfl, .closesDouble before r⟩
    · by_cases hescape : c = '\\'
      · subst hescape
        cases r with
        | nil => exact ⟨_, [], _, _, rfl, .lastEscape before⟩
        | cons d r => exact ⟨_, r, _, _, rfl, .escape before d r⟩
      · exact ⟨_, r, _, _, rfl, .double before hquote hescape r⟩

/-- What holds of a line without characters, and of every turn in front of a line of which it
holds, holds of all lines. -/
theorem turn_induction {P : Quote → List Char → List Char → Prop}
    (nil : ∀ q before, P q before [])
    (turn : ∀ {q before x rest out q'}, Turn q before x rest out q' →
      P q' (x.reverse ++ before) rest → P q before (x ++ rest))
    (q : Quote) (before w : List Char) : P q before w := by
  induction hn : w.length using Nat.strong_induction_on generalizing q before w with
  | _ n ih =>
    cases w with
    | nil => exact nil q before
    | cons c r =>
      obtain ⟨x, rest, out, q', hw, hturn⟩ := exists_turn q before c r
      rw [hw] at hn ⊢
      refine turn hturn (ih rest.length ?_ q' _ rest rfl)
      have hpos := List.length_pos_iff.2 hturn.ne_nil
      rw [← hn, List.length_append]
      omega

/-- What is written for a part of a line does not depend on what follows, unless the part ends
with a quote or with the mark of an escape. -/
theorem scan_append (q : Quote) (before w : List Char)
    (hend : ∀ a, w.getLast? = some a → a ≠ '\x27' ∧ a ≠ '\\') (t : List Char) :
    scan q before (w ++ t) =
      ((scan q before w).1 ++ (scan (scan q before w).2 (w.reverse ++ before) t).1,
        (scan (scan q before w).2 (w.reverse ++ before) t).2) := by
  induction q, before, w using turn_induction with
  | nil q before => simp [scan_nil]
  | @turn q before x rest out q' hturn ih =>
    have hlast : rest = [] → ∀ a, x.getLast? = some a → a ≠ '\x27' ∧ a ≠ '\\' := by
      rintro rfl
      rwa [List.append_nil] at hend
    have hrest : ∀ a, rest.getLast? = some a → a ≠ '\x27' ∧ a ≠ '\\' := by
      intro a ha
      refine hend a ?_
      rw [List.getLast?_append, ha]
      rfl
    rw [List.append_assoc, (hturn.append hlast t).scan_eq, hturn.scan_eq, ih hrest]
    simp

/-- What is written for a line begins with a space where the line does, and with no line feed
but where the line does. -/
theorem exists_scan_cons (q : Quote) (before : List Char) (c : Char) (r : List Char) :
    ∃ d o, (scan q before (c :: r)).1 = d :: o ∧ (d = ' ' ↔ c = ' ') ∧ (d = '\n' ↔ c = '\n') := by
  obtain ⟨x, rest, out, q', hline, hturn⟩ := exists_turn q before c r
  obtain ⟨c', z, d, o, rfl, rfl, hspace, hfeed⟩ := hturn.exists_cons
  obtain ⟨rfl, -⟩ := List.cons.inj hline
  rw [hline, hturn.scan_eq]
  exact ⟨d, _, rfl, hspace, hfeed⟩

/-- What is written for a line is in it, or a double quote or the mark of an escape. -/
theorem mem_of_mem_scan {q : Quote} {before w : List Char} {a : Char}
    (ha : a ∈ (scan q before w).1) : a ∈ w ∨ a = '"' ∨ a = '\\' := by
  induction q, before, w using turn_induction with
  | nil q before => simp [scan_nil] at ha
  | @turn q before x rest out q' hturn ih =>
    rw [hturn.scan_eq] at ha
    rcases List.mem_append.1 ha with ha | ha
    · exact (hturn.mem_of_mem ha).imp_left (List.mem_append_left rest)
    · exact (ih ha).imp_left (List.mem_append_right x)

end LockPrune.Layout
