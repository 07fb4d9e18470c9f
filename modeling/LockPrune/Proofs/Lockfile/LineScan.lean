import LockPrune.Lockfile.Layout
import LockPrune.Proofs.Yaml.QuoteStyles

/-!
# One line in the layout of a lockfile

What the scan of a line writes for a part of it: a text without quotes where a scalar may
begin is left as it is, a text between single quotes is put between double quotes, and a text
between double quotes is left as it is.

## Main definitions

* `Scans` — what is written for a part of a line, whatever follows.
* `opensQuote` — a quote stands where a scalar may begin.

## Main statements

* `scans_of_not_opensQuote`, `scans_single`, `scans_double` — the three kinds of parts.
-/

namespace LockPrune.Layout

open Yaml Yaml.Scalar

/-! ## Characters -/

section Characters

attribute [local simp] scan

theorem scan_nil (q : Quote) (before : List Char) : scan q before [] = ([], q) := by
  cases q <;> rfl

theorem scan_outside {before : List Char} {c : Char}
    (h : ((c = '\x27' || c = '"') && mayBegin before) = false) (rest : List Char) :
    scan .outside before (c :: rest) =
      (c :: (scan .outside (c :: before) rest).1, (scan .outside (c :: before) rest).2) := by
  rw [scan]
  cases hbegin : mayBegin before with
  | false => simp
  | true =>
    simp only [hbegin, Bool.and_true, Bool.or_eq_false_iff] at h
    simp [h.1, h.2]

theorem scan_opens_single {before : List Char} (h : mayBegin before = true) (rest : List Char) :
    scan .outside before ('\x27' :: rest) =
      ('"' :: (scan .single ('\x27' :: before) rest).1,
          (scan .single ('\x27' :: before) rest).2) := by
  rw [scan]
  simp [h]

theorem scan_opens_double {before : List Char} (h : mayBegin before = true) (rest : List Char) :
    scan .outside before ('"' :: rest) =
      ('"' :: (scan .double ('"' :: before) rest).1, (scan .double ('"' :: before) rest).2) := by
  rw [scan]
  simp [h]

theorem scan_single_pair (before rest : List Char) :
    scan .single before ('\x27' :: '\x27' :: rest) =
      ('\x27' :: (scan .single ('\x27' :: '\x27' :: before) rest).1,
        (scan .single ('\x27' :: '\x27' :: before) rest).2) := by
  rw [scan]

theorem scan_single_close (before : List Char) {rest : List Char}
    (h : rest.head? ≠ some '\x27') :
    scan .single before ('\x27' :: rest) =
      ('"' :: (scan .outside ('\x27' :: before) rest).1,
        (scan .outside ('\x27' :: before) rest).2) := by
  have hpair : ∀ s, '\x27' = '\x27' → rest = '\x27' :: s → False := by
    intro s _ hs
    simp [hs] at h
  rw [scan.eq_4 _ _ _ hpair]
  simp

theorem scan_single_char (before rest : List Char) {c : Char} (h : c ≠ '\x27') :
    scan .single before (c :: rest) =
      (requoteChar c ++ (scan .single (c :: before) rest).1,
        (scan .single (c :: before) rest).2) := by
  rw [scan]
  · rw [if_neg h, requoteChar]
    by_cases hc : c = '"' ∨ c = '\\' <;> simp [hc]
  · intro s hs
    exact absurd hs h

theorem scan_double_escape (before rest : List Char) (c : Char) :
    scan .double before ('\\' :: c :: rest) =
      ('\\' :: c :: (scan .double (c :: '\\' :: before) rest).1,
        (scan .double (c :: '\\' :: before) rest).2) := by
  rw [scan]

theorem scan_double_close (before rest : List Char) :
    scan .double before ('"' :: rest) =
      ('"' :: (scan .outside ('"' :: before) rest).1,
        (scan .outside ('"' :: before) rest).2) := by
  rw [scan]
  · simp
  · intro c s hs
    exact absurd hs (by decide)

theorem scan_double_char (before rest : List Char) {c : Char} (h : c ≠ '"') (h' : c ≠ '\\') :
    scan .double before (c :: rest) =
      (c :: (scan .double (c :: before) rest).1, (scan .double (c :: before) rest).2) := by
  rw [scan]
  · simp [h]
  · intro d s hs
    exact absurd hs h'

end Characters

/-! ## Parts of a line -/

/-- What is written for a part of a line, whatever follows.  Behind a single quote at its end no
other one follows, which would make a pair of the two. -/
def Scans (q : Quote) (before x out : List Char) (q' : Quote) : Prop :=
  ∀ t, (x.getLast? = some '\x27' → t.head? ≠ some '\x27') →
    scan q before (x ++ t) = (out ++ (scan q' (x.reverse ++ before) t).1,
      (scan q' (x.reverse ++ before) t).2)

theorem Scans.trans {q q' q'' : Quote} {before x y out out' : List Char}
    (h : Scans q before x out q') (h' : Scans q' (x.reverse ++ before) y out' q'')
    (hy : y ≠ []) (hpair : x.getLast? = some '\x27' → y.head? ≠ some '\x27') :
    Scans q before (x ++ y) (out ++ out') q'' := by
  intro t ht
  have hlast : (x ++ y).getLast? = y.getLast? := by
    obtain ⟨z, a, rfl⟩ := List.eq_nil_or_concat y |>.resolve_left hy
    simp [← List.append_assoc]
  have hhead : (y ++ t).head? = y.head? := by
    cases y with
    | nil => exact absurd rfl hy
    | cons => rfl
  rw [List.append_assoc, h (y ++ t) (by rwa [hhead]), h' t (by rwa [← hlast])]
  simp

theorem Scans.scan_eq {q q' : Quote} {before x out : List Char} (h : Scans q before x out q') :
    scan q before x = (out, q') := by
  have h := h [] (by simp)
  rw [List.append_nil, scan_nil] at h
  simpa using h

/-- A quote stands where a scalar may begin. -/
def opensQuote : List Char → List Char → Bool
  | _, [] => false
  | before, c :: rest =>
    ((c = '\x27' || c = '"') && mayBegin before) || opensQuote (c :: before) rest

/-- A text without quotes where a scalar may begin is left as it is. -/
theorem scans_of_not_opensQuote {before x : List Char} (h : opensQuote before x = false) :
    Scans .outside before x x .outside := by
  have key : ∀ t, scan .outside before (x ++ t) =
      (x ++ (scan .outside (x.reverse ++ before) t).1,
        (scan .outside (x.reverse ++ before) t).2) := by
    intro t
    induction x generalizing before with
    | nil => simp
    | cons c x ih =>
      rw [opensQuote, Bool.or_eq_false_iff] at h
      rw [List.cons_append, scan_outside h.1, ih h.2]
      simp
  exact fun t _ => key t

theorem opensQuote_append (before x y : List Char) :
    opensQuote before (x ++ y) = (opensQuote before x || opensQuote (x.reverse ++ before) y) := by
  induction x generalizing before with
  | nil => simp [opensQuote]
  | cons c x ih =>
    rw [List.cons_append, opensQuote, opensQuote, ih]
    simp [Bool.or_assoc]

/-- No quote, no beginning of a text between quotes. -/
theorem opensQuote_eq_false {x : List Char} (h : ∀ c ∈ x, c ≠ '\x27' ∧ c ≠ '"')
    (before : List Char) : opensQuote before x = false := by
  induction x generalizing before with
  | nil => rfl
  | cons c x ih =>
    have hc := h c List.mem_cons_self
    rw [opensQuote, ih fun a ha => h a (List.mem_cons_of_mem _ ha)]
    simp [hc.1, hc.2]

theorem mayBegin_iff {before : List Char} :
    mayBegin before = true ↔ before.all Text.isBlank = true ∨
      ∃ c s, before = ' ' :: c :: s ∧ (c = ':' ∨ c = '-' ∨ c = '?') := by
  match before with
  | [] => simp [mayBegin]
  | [a] => simp [mayBegin]
  | a :: c :: s =>
    by_cases ha : a = ' '
    · subst ha
      simp [mayBegin, or_assoc]
    · simp [mayBegin, ha]

/-- What stands further to the left does not make a place where a scalar may begin. -/
theorem mayBegin_of_append {s before : List Char} (h : mayBegin (s ++ before) = true) :
    mayBegin s = true := by
  rw [mayBegin_iff] at h ⊢
  rcases h with h | ⟨c, t, h, hc⟩
  · rw [List.all_append, Bool.and_eq_true] at h
    exact .inl h.1
  · match s, h with
    | [], _ => exact .inl rfl
    | [a], h =>
      obtain ⟨rfl, -⟩ := List.cons.inj h
      exact .inl (by decide)
    | a :: b :: s, h =>
      simp only [List.cons_append, List.cons.injEq] at h
      obtain ⟨rfl, rfl, -⟩ := h
      exact .inr ⟨b, s, rfl, hc⟩

theorem opensQuote_of_append {x : List Char} (s : List Char) (h : opensQuote s x = false)
    (before : List Char) : opensQuote (s ++ before) x = false := by
  induction x generalizing s with
  | nil => rfl
  | cons c x ih =>
    rw [opensQuote, Bool.or_eq_false_iff] at h ⊢
    refine ⟨?_, ih (c :: s) h.2⟩
    cases hbegin : mayBegin (s ++ before) with
    | false => simp
    | true => rw [← h.1, mayBegin_of_append hbegin]

theorem mayBegin_eq_false {before : List Char} (hhead : before.head? ≠ some ' ')
    (hsolid : ∃ a ∈ before, Text.isBlank a = false) : mayBegin before = false := by
  rw [← Bool.not_eq_true, mayBegin_iff]
  rintro (hblank | ⟨c, s, rfl, -⟩)
  · obtain ⟨a, ha, hsolid⟩ := hsolid
    rw [List.all_eq_true.1 hblank a ha] at hsolid
    cases hsolid
  · simp at hhead

/-- Inside a word no scalar begins. -/
theorem opensQuote_word {w : List Char} (hw : ' ' ∉ w) {before : List Char}
    (hhead : before.head? ≠ some ' ') (hsolid : ∃ a ∈ before, Text.isBlank a = false) :
    opensQuote before w = false := by
  induction w generalizing before with
  | nil => rfl
  | cons c w ih =>
    rw [List.mem_cons, not_or] at hw
    have hsolid' : ∃ a ∈ c :: before, Text.isBlank a = false := by
      obtain ⟨a, ha, hblank⟩ := hsolid
      exact ⟨a, List.mem_cons_of_mem c ha, hblank⟩
    have hrest := ih hw.2 (by simpa using Ne.symm hw.1) hsolid'
    rw [opensQuote, hrest, mayBegin_eq_false hhead hsolid]
    simp

/-! ## Texts between quotes -/

/-- What is written for one character between single quotes. -/
theorem scans_single_char (before : List Char) (c : Char) :
    ∀ t, scan .single before (writeSingleChar c ++ t) =
      (requoteChar c ++ (scan .single ((writeSingleChar c).reverse ++ before) t).1,
        (scan .single ((writeSingleChar c).reverse ++ before) t).2) := by
  intro t
  by_cases hc : c = '\x27'
  · subst hc
    exact scan_single_pair before t
  · rw [writeSingleChar, if_neg hc]
    exact scan_single_char before t hc

theorem scan_single_spaces (n : Nat) (before t : List Char) :
    scan .single before (spaces n ++ t) =
      (spaces n ++ (scan .single ((spaces n).reverse ++ before) t).1,
        (scan .single ((spaces n).reverse ++ before) t).2) := by
  induction n generalizing before with
  | zero => simp [spaces]
  | succ n ih =>
    have hcons : spaces (n + 1) = ' ' :: spaces n := rfl
    rw [hcons, List.cons_append, scan_single_char _ _ (by decide), ih]
    simp [requoteChar]

theorem scan_single_between (indent : Nat) (s before t : List Char) (fresh : Bool) :
    scan .single before (writeBetween isKept writeSingleChar indent fresh s ++ t) =
      (writeBetween isKept requoteChar indent fresh s ++
          (scan .single
            ((writeBetween isKept writeSingleChar indent fresh s).reverse ++ before) t).1,
        (scan .single
            ((writeBetween isKept writeSingleChar indent fresh s).reverse ++ before) t).2) := by
  induction s generalizing fresh before with
  | nil =>
    cases fresh with
    | false => simp [writeBetween]
    | true => exact scan_single_spaces indent before t
  | cons c s ih =>
    simp only [writeBetween]
    by_cases hc : isKept c = true
    · have hquote : c ≠ '\x27' := by
        rintro rfl
        exact absurd hc (by decide)
      have hkept : requoteChar c = [c] := by
        have hmarks : c ≠ '"' ∧ c ≠ '\\' := by
          constructor <;>
          · rintro rfl
            exact absurd hc (by decide)
        simp [requoteChar, hmarks.1, hmarks.2]
      rw [if_pos hc, if_pos hc, List.cons_append, scan_single_char _ _ hquote, ih, hkept]
      simp
    · rw [if_neg hc, if_neg hc]
      cases fresh with
      | false =>
        simp only [Bool.false_eq_true, if_false, List.nil_append, List.append_assoc]
        rw [scans_single_char, ih]
        simp
      | true =>
        simp only [if_true, List.append_assoc]
        rw [scan_single_spaces, scans_single_char, ih]
        simp

/-- A text between single quotes is put between double quotes. -/
theorem scans_single {before s : List Char} (hbegin : mayBegin before = true)
    (hs : singleAdmitted s = true) (hline : '\n' ∉ s) (indent : Nat) :
    Scans .outside before (write .single indent s) (requote indent s) .outside := by
  have hquotable := isQuotable_of_singleAdmitted hs hline
  intro t ht
  have hhead : t.head? ≠ some '\x27' := ht (by rw [write, List.getLast?_concat])
  simp only [write, writeSingle_eq hquotable, requote, List.append_assoc, List.cons_append,
    List.nil_append]
  rw [scan_opens_single hbegin, scan_single_between, scan_single_close _ hhead]
  simp

/-- An escape is a letter behind its mark, and perhaps digits. -/
theorem exists_escape_letter (c : Char) :
    ∃ l e, escape c = '\\' :: l :: e ∧ ∀ a ∈ e, a ≠ '"' ∧ a ≠ '\\' := by
  have hdigit : ∀ v, v < 16 → hexDigit v ≠ '"' ∧ hexDigit v ≠ '\\' := by
    decide
  have hdigits : ∀ k n, ∀ a ∈ hexText k n, a ≠ '"' ∧ a ≠ '\\' := by
    intro k n a ha
    obtain ⟨v, hv, rfl⟩ := exists_of_mem_hexText ha
    exact hdigit v hv
  rw [escape]
  split
  · exact ⟨_, [], rfl, by simp⟩
  · dsimp only
    split
    · exact ⟨_, _, rfl, hdigits _ _⟩
    · split
      · exact ⟨_, _, rfl, hdigits _ _⟩
      · exact ⟨_, _, rfl, hdigits _ _⟩

theorem scan_double_marks {e : List Char} (h : ∀ a ∈ e, a ≠ '"' ∧ a ≠ '\\')
    (before t : List Char) :
    scan .double before (e ++ t) = (e ++ (scan .double (e.reverse ++ before) t).1,
      (scan .double (e.reverse ++ before) t).2) := by
  induction e generalizing before with
  | nil => simp
  | cons a e ih =>
    have ha := h a List.mem_cons_self
    rw [List.cons_append, scan_double_char _ _ ha.1 ha.2,
      ih fun d hd => h d (List.mem_cons_of_mem _ hd)]
    simp

/-- What is written for one character between double quotes. -/
theorem scan_double_written (before : List Char) (c : Char) (t : List Char) :
    scan .double before (writeDoubleChar c ++ t) =
      (writeDoubleChar c ++ (scan .double ((writeDoubleChar c).reverse ++ before) t).1,
        (scan .double ((writeDoubleChar c).reverse ++ before) t).2) := by
  rcases writeDoubleChar_cases c with hc | ⟨hc, hslash, hquote, -, -⟩
  · obtain ⟨l, e, he, hmarks⟩ := exists_escape_letter c
    rw [hc, he, List.cons_append, List.cons_append, scan_double_escape, scan_double_marks hmarks]
    simp
  · rw [hc]
    exact scan_double_char before t hquote hslash

theorem scan_double_text (s before t : List Char) :
    scan .double before (s.flatMap writeDoubleChar ++ t) =
      (s.flatMap writeDoubleChar ++
          (scan .double ((s.flatMap writeDoubleChar).reverse ++ before) t).1,
        (scan .double ((s.flatMap writeDoubleChar).reverse ++ before) t).2) := by
  induction s generalizing before with
  | nil => simp
  | cons c s ih =>
    rw [List.flatMap_cons, List.append_assoc, scan_double_written, ih]
    simp

/-- A text between double quotes is left as it is. -/
theorem scans_double {before : List Char} (hbegin : mayBegin before = true) (indent : Nat)
    (s : List Char) :
    Scans .outside before (write .double indent s) (write .double indent s) .outside := by
  intro t _
  simp only [write, List.append_assoc, List.cons_append, List.nil_append]
  rw [scan_opens_double hbegin, scan_double_text, scan_double_close]
  simp

end LockPrune.Layout
