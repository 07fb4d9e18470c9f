import LockPrune.Proofs.Yaml.Quoted
import Mathlib.Tactic.Ring

/-!
# The three ways of writing between quotes

A text is written between single quotes, or between double quotes with escapes; and what
stands between single quotes may be put between double quotes without more escapes than the
quotes ask for.  Each of the three reads back.

## Main definitions

* `requote` — a text that is admitted between single quotes, between double quotes.

## Main statements

* `readSingle_write`, `readDouble_write`, `readDouble_requote` — what is written reads back.
-/

namespace LockPrune.Yaml

open Scalar

/-! ## Characters -/

/-- A separator that is an end of line and is kept. -/
def isKept (c : Char) : Bool :=
  c = '\u2028' || c = '\u2029'

/-- The characters that stand between quotes as themselves. -/
def isQuotable (c : Char) : Bool :=
  isPrintable c && c != '\n'

/-- A character between single quotes. -/
def writeSingleChar (c : Char) : List Char :=
  if c = '\x27' then ['\x27', '\x27'] else [c]

/-- A character that is admitted between single quotes, between double quotes. -/
def requoteChar (c : Char) : List Char :=
  if c = '"' || c = '\\' then ['\\', c] else [c]

/-- A text that is admitted between single quotes, between double quotes. -/
def requote (indent : Nat) (s : List Char) : List Char :=
  '"' :: writeBetween isKept requoteChar indent false s ++ ['"']

theorem isKept_iff {c : Char} : isKept c = true ↔ isWrittenBreak c = true ∧ c ≠ '\n' := by
  rw [isWrittenBreak_iff]
  simp only [isKept, Bool.or_eq_true, decide_eq_true_eq]
  constructor
  · rintro (rfl | rfl) <;> decide
  · rintro ⟨h | h, hne⟩
    · exact absurd h hne
    · exact h

/-- Of the characters that stand as themselves the kept separators are the ends of line. -/
theorem isKept_eq_isBreak {c : Char} (h : isQuotable c = true) : isKept c = isBreak c := by
  simp only [isQuotable, Bool.and_eq_true, bne_iff_ne] at h
  by_cases hbreak : isBreak c = true
  · rw [hbreak, isKept_iff]
    exact ⟨by simp [isWrittenBreak, hbreak, h.1], h.2⟩
  · have hkept : isKept c ≠ true := fun hkept =>
      hbreak (isBreak_of_isWrittenBreak (isKept_iff.1 hkept).1)
    simp only [Bool.not_eq_true] at hbreak hkept
    rw [hbreak, hkept]

/-- The characters of a word are no blanks and no ends of line. -/
theorem not_stop_of_inWord {c : Char} (h : inWord isKept isQuotable c = true) :
    isGap c = false ∧ isBreak c = false := by
  obtain ⟨hq, hkept, hspace⟩ := inWord_iff.1 h
  rw [isKept_eq_isBreak hq] at hkept
  refine ⟨?_, hkept⟩
  simp only [isQuotable, Bool.and_eq_true] at hq
  have hgap := isGap_iff_of_isPrintable hq.1
  simp only [hspace, iff_false, Bool.not_eq_true] at hgap
  exact hgap

/-! ## Single quotes -/

/-- The moves of a word between single quotes. -/
theorem readSingleWord_stop {a : Char} (n : Nat) (t : List Char) (m : Mark)
    (h : isGap a = true ∨ isBreak a = true) :
    readSingleWord (n + 1) ⟨a :: t, m⟩ = some ⟨[], false, ⟨a :: t, m⟩⟩ := by
  have hne : a ≠ '\x27' := by
    rintro rfl
    rcases h with h | h <;> exact absurd h (by decide)
  rw [readSingleWord]
  split
  · rename_i heq
    simp only [List.cons.injEq] at heq
    exact absurd heq.1 hne
  · rename_i heq
    simp only [List.cons.injEq] at heq
    obtain ⟨rfl, rfl⟩ := heq
    rcases h with h | h <;> simp [h]
  · rename_i heq
    cases heq

theorem readSingleWord_close (n : Nat) (t : List Char) (m : Mark) (h : t.head? ≠ some '\x27') :
    readSingleWord (n + 1) ⟨'\x27' :: t, m⟩ = some ⟨[], false, ⟨'\x27' :: t, m⟩⟩ := by
  rw [readSingleWord]
  split
  · rename_i heq
    simp only [List.cons.injEq, true_and] at heq
    simp [heq] at h
  · rename_i heq
    simp only [List.cons.injEq] at heq
    obtain ⟨rfl, rfl⟩ := heq
    simp
  · rename_i heq
    cases heq

/-- Single quotes: a quote is written twice. -/
theorem quotes_single : Quotes '\x27' readSingleWord isKept isQuotable writeSingleChar where
  raw_break c h := isKept_iff.1 h
  code_space := rfl
  quote_stop := by decide
  step c n t m h := by
    obtain ⟨hgap, hbreak⟩ := not_stop_of_inWord h
    by_cases hc : c = '\x27'
    · subst hc
      simp [writeSingleChar, readSingleWord, Cursor.skip_two]
    · rw [writeSingleChar, if_neg hc, List.singleton_append, readSingleWord]
      split
      · rename_i heq
        simp only [List.cons.injEq] at heq
        exact absurd heq.1 hc
      · rename_i heq
        simp only [List.cons.injEq] at heq
        obtain ⟨rfl, rfl⟩ := heq
        simp [hc, hgap, hbreak, Cursor.skip_one]
      · rename_i heq
        cases heq
  code_head c h := by
    obtain ⟨hgap, hbreak⟩ := not_stop_of_inWord h
    by_cases hc : c = '\x27'
    · subst hc
      exact ⟨'\x27', ['\x27'], rfl, hgap, hbreak⟩
    · exact ⟨c, [], by rw [writeSingleChar, if_neg hc], hgap, hbreak⟩
  code_line c a h ha := by
    have hac : a = c := by
      rw [writeSingleChar] at ha
      split at ha <;> simp_all
    rw [hac]
    exact (not_stop_of_inWord h).2
  stop_blank a n t m h := readSingleWord_stop n t m h
  stop_quote n t m h := readSingleWord_close n t m h

/-- A text between single quotes, character by character. -/
theorem writeSingle_eq {indent : Nat} {s : List Char} (hs : ∀ c ∈ s, isQuotable c = true)
    (fresh : Bool) :
    writeSingle indent fresh s = writeBetween isKept writeSingleChar indent fresh s := by
  induction s generalizing fresh with
  | nil => rfl
  | cons c s ih =>
    have hc : isQuotable c = true := hs c List.mem_cons_self
    have hrest := ih fun d hd => hs d (List.mem_cons_of_mem _ hd)
    have hne : c ≠ '\n' := by
      simp only [isQuotable, Bool.and_eq_true, bne_iff_ne] at hc
      exact hc.2
    rw [writeSingle, writeBetween, isKept_eq_isBreak hc, hrest, hrest]
    simp [hne, writeSingleChar]

/-! ## Double quotes -/

/-- An escape reads as the character it stands for. -/
theorem readDoubleWord_escape {e : List Char} {a : Char} {t : List Char}
    (he : escapeValue? (e ++ t) = some (a, e.length)) (hbreak : atBreak (e ++ t) = false)
    (n : Nat) (m : Mark) :
    readDoubleWord (n + 1) ⟨'\\' :: (e ++ t), m⟩ =
      (readDoubleWord n ⟨t, m.along ('\\' :: e)⟩).map (.cons a) := by
  have hskip : (Cursor.mk ('\\' :: (e ++ t)) m).skip (e.length + 1) =
      ⟨t, m.along ('\\' :: e)⟩ := by
    have h := Cursor.skip_append ('\\' :: e) t m
    simpa using h
  simp [readDoubleWord, he, hbreak, hskip]

/-- A character without an escape reads as itself. -/
theorem readDoubleWord_char {a : Char} (n : Nat) (t : List Char) (m : Mark) (hslash : a ≠ '\\')
    (hquote : a ≠ '"') (hgap : isGap a = false) (hbreak : isBreak a = false) :
    readDoubleWord (n + 1) ⟨a :: t, m⟩ = (readDoubleWord n ⟨t, m.along [a]⟩).map (.cons a) := by
  rw [readDoubleWord]
  split
  · rename_i heq
    simp only [List.cons.injEq] at heq
    exact absurd heq.1 hslash
  · rename_i heq
    simp only [List.cons.injEq] at heq
    obtain ⟨rfl, rfl⟩ := heq
    simp [hquote, hgap, hbreak, Cursor.skip_one]
  · rename_i heq
    cases heq

/-- A word between double quotes ends before a blank, an end of line, or the quote. -/
theorem readDoubleWord_stop {a : Char} (n : Nat) (t : List Char) (m : Mark)
    (h : (a = '"' || isGap a || isBreak a) = true) :
    readDoubleWord (n + 1) ⟨a :: t, m⟩ = some ⟨[], false, ⟨a :: t, m⟩⟩ := by
  have hslash : a ≠ '\\' := by
    rintro rfl
    exact absurd h (by decide)
  rw [readDoubleWord]
  split
  · rename_i heq
    simp only [List.cons.injEq] at heq
    exact absurd heq.1 hslash
  · rename_i heq
    simp only [List.cons.injEq] at heq
    obtain ⟨rfl, rfl⟩ := heq
    rw [if_pos h]
  · rename_i heq
    cases heq

/-- Double quotes with no more escapes than the quotes ask for. -/
theorem quotes_requoted : Quotes '"' readDoubleWord isKept isQuotable requoteChar where
  raw_break c h := isKept_iff.1 h
  code_space := rfl
  quote_stop := by decide
  step c n t m h := by
    obtain ⟨hgap, hbreak⟩ := not_stop_of_inWord h
    by_cases hquote : c = '"'
    · subst hquote
      exact readDoubleWord_escape (e := ['"']) rfl rfl n m
    · by_cases hslash : c = '\\'
      · subst hslash
        exact readDoubleWord_escape (e := ['\\']) rfl rfl n m
      · have hcode : requoteChar c = [c] := by simp [requoteChar, hquote, hslash]
        rw [hcode]
        exact readDoubleWord_char n t m hslash hquote hgap hbreak
  code_head c h := by
    obtain ⟨hgap, hbreak⟩ := not_stop_of_inWord h
    by_cases hc : c = '"' ∨ c = '\\'
    · exact ⟨'\\', [c], by simp [requoteChar, hc], by decide, by decide⟩
    · exact ⟨c, [], by simp [requoteChar, hc], hgap, hbreak⟩
  code_line c a h ha := by
    have hac : a = c ∨ a = '\\' := by
      rw [requoteChar] at ha
      split at ha
      · simpa [or_comm] using ha
      · simpa using Or.inl ha
    rcases hac with rfl | rfl
    · exact (not_stop_of_inWord h).2
    · decide
  stop_blank a n t m h := by
    refine readDoubleWord_stop n t m ?_
    rcases h with h | h <;> simp [h]
  stop_quote n t m _ := readDoubleWord_stop n t m (by decide)

/-! ## Escapes -/

/-- A hexadecimal digit has its value. -/
theorem hexValue?_hexDigit : ∀ v, v < 16 → hexValue? (hexDigit v) = some v := by
  decide

/-- A hexadecimal digit is no end of line. -/
theorem isBreak_hexDigit : ∀ v, v < 16 → isBreak (hexDigit v) = false := by
  decide

@[simp] theorem length_hexText (k n : Nat) : (hexText k n).length = k := by
  induction k with
  | zero => rfl
  | succ k ih => rw [hexText, List.length_cons, ih]

theorem exists_of_mem_hexText {k n : Nat} {a : Char} (h : a ∈ hexText k n) :
    ∃ v, v < 16 ∧ a = hexDigit v := by
  induction k with
  | zero => cases h
  | succ k ih =>
    rw [hexText] at h
    rcases List.mem_cons.1 h with rfl | h
    · exact ⟨_, Nat.mod_lt _ (by decide), rfl⟩
    · exact ih h

theorem isBreak_of_mem_hexText {k n : Nat} {a : Char} (h : a ∈ hexText k n) :
    isBreak a = false := by
  obtain ⟨v, hv, rfl⟩ := exists_of_mem_hexText h
  exact isBreak_hexDigit v hv

/-- Digits read as the number they spell, behind the number of the digits before. -/
theorem foldlM_hexText (k n acc : Nat) :
    (hexText k n).foldlM (fun n d => (hexValue? d).map (n * 16 + ·)) acc =
      some (acc * 16 ^ k + n % 16 ^ k) := by
  induction k generalizing acc with
  | zero => simp [hexText, Nat.mod_one]
  | succ k ih =>
    have hdigit := hexValue?_hexDigit (n / 16 ^ k % 16) (Nat.mod_lt _ (by decide))
    have hpow : Nat.pow 16 k = 16 ^ k := rfl
    rw [hexText, List.foldlM_cons, hpow, hdigit]
    simp only [Option.map_some, Option.bind_eq_bind, Option.bind_some]
    rw [ih, Nat.mod_pow_succ, Nat.pow_succ]
    congr 1
    ring

theorem hexNumber?_hexText {k n : Nat} (h : n < 16 ^ k) : hexNumber? (hexText k n) = some n := by
  rw [hexNumber?, foldlM_hexText, Nat.mod_eq_of_lt h]
  simp

/-- The numbers of characters leave out the surrogates. -/
theorem toNat_range (c : Char) : c.toNat < 0xD800 ∨ (0xDFFF < c.toNat ∧ c.toNat ≤ 0x10FFFF) := by
  have hvalid := c.valid
  simp only [UInt32.isValidChar, Nat.isValidChar] at hvalid
  simp only [Char.toNat]
  omega

theorem charOf?_toNat (c : Char) : charOf? c.toNat = some c := by
  rw [charOf?, if_pos (toNat_range c), Char.ofNat_toNat]

/-- The letter of an escape reads as the character it stands for. -/
theorem shortEscape?_of_escapeLetter? {c l : Char} (h : escapeLetter? c = some l) :
    shortEscape? l = some c ∧ isBreak l = false := by
  unfold escapeLetter? at h
  split at h <;> first | (cases h; decide) | cases h

/-- An escape by number reads as the character with the number. -/
theorem escapeValue?_hexText {letter c : Char} {k : Nat} (hshort : shortEscape? letter = none)
    (hlong : longEscape? letter = some k) (hc : c.toNat < 16 ^ k) (t : List Char) :
    escapeValue? (letter :: hexText k c.toNat ++ t) = some (c, k + 1) := by
  have htake : (hexText k c.toNat ++ t).take k = hexText k c.toNat := by
    have h : (hexText k c.toNat ++ t).take (hexText k c.toNat).length = hexText k c.toNat :=
      List.take_left
    rwa [length_hexText] at h
  rw [List.cons_append, escapeValue?]
  simp [hshort, hlong, htake, hexNumber?_hexText hc, charOf?_toNat]

/-- An escape reads as its character, whatever follows. -/
theorem exists_escape (c : Char) :
    ∃ e, escape c = '\\' :: e ∧ (∀ a ∈ e, isBreak a = false) ∧
      ∀ t, escapeValue? (e ++ t) = some (c, e.length) ∧ atBreak (e ++ t) = false := by
  have hnat : c.toNat < 16 ^ 8 := by
    rcases toNat_range c with h | h <;> omega
  -- an escape by number, for each of the three lengths
  have hnumber : ∀ (letter : Char) (k : Nat), shortEscape? letter = none →
      longEscape? letter = some k → isBreak letter = false → c.toNat < 16 ^ k →
      (∀ a ∈ letter :: hexText k c.toNat, isBreak a = false) ∧
      ∀ t, escapeValue? (letter :: hexText k c.toNat ++ t) =
        some (c, (letter :: hexText k c.toNat).length) ∧
        atBreak (letter :: hexText k c.toNat ++ t) = false := by
    intro letter k hshort hlong hletter hk
    refine ⟨fun a ha => ?_, fun t => ⟨?_, hletter⟩⟩
    · rcases List.mem_cons.1 ha with rfl | ha
      · exact hletter
      · exact isBreak_of_mem_hexText ha
    · rw [escapeValue?_hexText hshort hlong hk, List.length_cons, length_hexText]
  rw [escape]
  cases hl : escapeLetter? c with
  | some l =>
    obtain ⟨hshort, hbreak⟩ := shortEscape?_of_escapeLetter? hl
    refine ⟨[l], rfl, by simpa using hbreak, fun t => ⟨?_, by simpa [atBreak] using hbreak⟩⟩
    simp [escapeValue?, hshort]
  | none =>
    simp only
    split
    · exact ⟨_, rfl, hnumber 'x' 2 rfl rfl rfl (by omega)⟩
    · split
      · exact ⟨_, rfl, hnumber 'u' 4 rfl rfl rfl (by omega)⟩
      · exact ⟨_, rfl, hnumber 'U' 8 rfl rfl rfl hnat⟩

/-- A character is written by an escape, or it stands as itself. -/
theorem writeDoubleChar_cases (c : Char) :
    writeDoubleChar c = escape c ∨ (writeDoubleChar c = [c] ∧ c ≠ '\\' ∧ c ≠ '"' ∧
      isPrintable c = true ∧ isBreak c = false) := by
  rw [writeDoubleChar]
  split
  · exact .inl rfl
  · rename_i h
    simp only [Bool.or_eq_true, Bool.not_eq_true', decide_eq_true_eq, not_or] at h
    obtain ⟨⟨⟨hprint, hbreak⟩, hquote⟩, hslash⟩ := h
    exact .inr ⟨rfl, hslash, hquote, by simpa using hprint, by simpa using hbreak⟩

/-- Double quotes with escapes. -/
theorem quotes_double :
    Quotes '"' readDoubleWord (fun _ => false) (fun _ => true) writeDoubleChar where
  raw_break c h := by cases h
  code_space := rfl
  quote_stop := by decide
  step c n t m h := by
    rcases writeDoubleChar_cases c with hc | ⟨hc, hslash, hquote, hprint, hbreak⟩
    · obtain ⟨e, he, -, hread⟩ := exists_escape c
      rw [hc, he, List.cons_append]
      exact readDoubleWord_escape (hread t).1 (hread t).2 n m
    · rw [hc]
      have hgap : isGap c = false := by
        have hspace := isGap_iff_of_isPrintable hprint
        simp only [(inWord_iff.1 h).2.2, iff_false, Bool.not_eq_true] at hspace
        exact hspace
      exact readDoubleWord_char n t m hslash hquote hgap hbreak
  code_head c h := by
    rcases writeDoubleChar_cases c with hc | ⟨hc, hslash, hquote, hprint, hbreak⟩
    · obtain ⟨e, he, -, -⟩ := exists_escape c
      exact ⟨'\\', e, by rw [hc, he], by decide, by decide⟩
    · have hspace := isGap_iff_of_isPrintable hprint
      simp only [(inWord_iff.1 h).2.2, iff_false, Bool.not_eq_true] at hspace
      exact ⟨c, [], hc, hspace, hbreak⟩
  code_line c a h ha := by
    rcases writeDoubleChar_cases c with hc | ⟨hc, hslash, hquote, hprint, hbreak⟩
    · obtain ⟨e, he, hline, -⟩ := exists_escape c
      rw [hc, he] at ha
      rcases List.mem_cons.1 ha with rfl | ha
      · decide
      · exact hline a ha
    · rw [hc, List.mem_singleton] at ha
      rw [ha]
      exact hbreak
  stop_blank a n t m h := by
    refine readDoubleWord_stop n t m ?_
    rcases h with h | h <;> simp [h]
  stop_quote n t m _ := readDoubleWord_stop n t m (by decide)

/-- Without raw ends of line a text is written character by character. -/
theorem writeBetween_double (indent : Nat) (s : List Char) :
    writeBetween (fun _ => false) writeDoubleChar indent false s = s.flatMap writeDoubleChar := by
  have h : writeBetween (fun _ => false) writeDoubleChar indent false (s ++ []) = _ :=
    writeBetween_append (fun _ _ => rfl) []
  simpa [writeBetween] using h

/-! ## Reading back -/

/-- A text that is admitted between single quotes has characters that stand as themselves. -/
theorem singleAdmitted_iff {s : List Char} :
    singleAdmitted s = true ↔ hasPair (· = ' ') isBreak s = false ∧
      (∀ c ∈ s, isPrintable c = true) ∧ hasPair isBreak (· = ' ') s = false := by
  simp only [singleAdmitted, needsEscapes, Bool.not_eq_true', Bool.or_eq_false_iff]
  constructor
  · rintro ⟨⟨hspace, hprint⟩, hbreak⟩
    refine ⟨hspace, fun c hc => ?_, hbreak⟩
    have h := List.any_eq_false.1 hprint c hc
    simpa using h
  · rintro ⟨hspace, hprint, hbreak⟩
    refine ⟨⟨hspace, ?_⟩, hbreak⟩
    simp only [List.any_eq_false]
    intro c hc
    simp [hprint c hc]

/-- Pairs of a text do not depend on what the classes say of other characters. -/
theorem hasPair_congr {p p' q q' : Char → Bool} {s : List Char} (hp : ∀ c ∈ s, p c = p' c)
    (hq : ∀ c ∈ s, q c = q' c) : hasPair p q s = hasPair p' q' s := by
  induction s with
  | nil => rfl
  | cons a s ih =>
    cases s with
    | nil => rfl
    | cons b s =>
      have hrest := ih (fun c hc => hp c (List.mem_cons_of_mem _ hc))
        (fun c hc => hq c (List.mem_cons_of_mem _ hc))
      rw [hasPair, hasPair, hrest, hp a List.mem_cons_self,
        hq b (List.mem_cons_of_mem _ List.mem_cons_self)]

/-- What is admitted between single quotes on one line stands there as itself. -/
theorem isQuotable_of_singleAdmitted {s : List Char} (hs : singleAdmitted s = true)
    (hline : '\n' ∉ s) : ∀ c ∈ s, isQuotable c = true := by
  intro c hc
  have hne : c ≠ '\n' := fun h => hline (h ▸ hc)
  simp [isQuotable, (singleAdmitted_iff.1 hs).2.1 c hc, hne]

section

variable {s t : List Char} {m : Mark} {indent bound : Nat}

/-- The body between two quotes reads back, as the quotes have it. -/
theorem readWithin_of_singleAdmitted (bound : Nat) {quote : Char}
    {word : Nat → Cursor → Option QuotedWord} {code : Char → List Char}
    (q : Quotes quote word isKept isQuotable code)
    (hs : singleAdmitted s = true) (hline : '\n' ∉ s) (hindent : s.any isBreak = true → 0 < indent)
    (ht : t.head? ≠ some quote)
    (hbound : (writeBetween isKept code indent false s).length < bound) (hlen : s.length ≤ bound)
    (hm : 0 < m.column) :
    readQuotedWithin quote (word bound) bound (bound + 1)
        ⟨writeBetween isKept code indent false s ++ quote :: t, m⟩ =
      some (s, ⟨t, m.past (writeBetween isKept code indent false s ++ [quote])⟩) := by
  obtain ⟨hspace, -, hbreak⟩ := singleAdmitted_iff.1 hs
  have hquotable := isQuotable_of_singleAdmitted hs hline
  have hkept : ∀ c ∈ s, isBreak c = isKept c := fun c hc =>
    (isKept_eq_isBreak (hquotable c hc)).symm
  refine q.readWithin_writeBetween bound indent ht (bound + 1) s m (by omega) hquotable ?_ ?_ ?_
    hbound hm
  · rwa [hasPair_congr (fun _ _ => rfl) hkept] at hspace
  · rwa [hasPair_congr hkept (fun _ _ => rfl)] at hbreak
  · intro h
    apply hindent
    obtain ⟨c, hc, hck⟩ := List.any_eq_true.1 h
    exact List.any_eq_true.2 ⟨c, hc, by rw [hkept c hc, hck]⟩

/-- Every character between quotes takes some room. -/
theorem length_le_writeBetween (raw : Char → Bool) {code : Char → List Char} (indent : Nat)
    (s : List Char) (hcode : ∀ c, 1 ≤ (code c).length) (fresh : Bool) :
    s.length ≤ (writeBetween raw code indent fresh s).length := by
  induction s generalizing fresh with
  | nil => simp
  | cons c s ih =>
    have htrue := ih true
    have hfalse := ih false
    have hc := hcode c
    rw [writeBetween]
    split
    · simp only [List.length_cons]
      omega
    · simp only [List.length_cons, List.length_append]
      omega

theorem one_le_writeSingleChar (c : Char) : 1 ≤ (writeSingleChar c).length := by
  rw [writeSingleChar]
  split <;> simp

theorem one_le_requoteChar (c : Char) : 1 ≤ (requoteChar c).length := by
  rw [requoteChar]
  split <;> simp

theorem one_le_writeDoubleChar (c : Char) : 1 ≤ (writeDoubleChar c).length := by
  rcases writeDoubleChar_cases c with hc | ⟨hc, -⟩
  · obtain ⟨e, he, -, -⟩ := exists_escape c
    simp [hc, he]
  · simp [hc]

/-- The quotes around a body are stepped over. -/
theorem past_quoted {quote : Char} (hquote : isBreak quote = false) (body : List Char) :
    (m.along [quote]).past (body ++ [quote]) = m.past (quote :: body ++ [quote]) := by
  rw [List.cons_append, Mark.past_cons_of_not_break _ _ hquote]

theorem column_quoted (quote : Char) : 0 < (m.along [quote]).column := by
  simp

/-- A text between single quotes reads back. -/
theorem readSingle_write (hs : singleAdmitted s = true) (hline : '\n' ∉ s)
    (hindent : s.any isBreak = true → 0 < indent) (ht : t.head? ≠ some '\x27')
    (hbound : (write .single indent s).length ≤ bound) :
    readSingle bound ⟨write .single indent s ++ t, m⟩ =
      some (s, ⟨t, m.past (write .single indent s)⟩) := by
  have hquotable := isQuotable_of_singleAdmitted hs hline
  have hwrite : write .single indent s =
      '\x27' :: writeBetween isKept writeSingleChar indent false s ++ ['\x27'] := by
    rw [write, writeSingle_eq hquotable]
  have hlen := length_le_writeBetween isKept indent s one_le_writeSingleChar false
  rw [hwrite] at hbound ⊢
  simp only [List.length_cons, List.length_append] at hbound
  have hread := readWithin_of_singleAdmitted bound quotes_single (m := m.along ['\x27'])
    hs hline hindent ht (by omega) (by omega) (column_quoted _)
  rw [← past_quoted (by decide), ← hread, readSingle, List.cons_append, List.cons_append,
    Cursor.skip_one, List.append_assoc, List.singleton_append]

/-- A text that is admitted between single quotes reads back when it is requoted. -/
theorem readDouble_requote (hs : singleAdmitted s = true) (hline : '\n' ∉ s)
    (hindent : s.any isBreak = true → 0 < indent) (ht : t.head? ≠ some '"')
    (hbound : (requote indent s).length ≤ bound) :
    readDouble bound ⟨requote indent s ++ t, m⟩ = some (s, ⟨t, m.past (requote indent s)⟩) := by
  have hlen := length_le_writeBetween isKept indent s one_le_requoteChar false
  rw [requote] at hbound ⊢
  simp only [List.length_cons, List.length_append] at hbound
  have hread := readWithin_of_singleAdmitted bound quotes_requoted (m := m.along ['"'])
    hs hline hindent ht (by omega) (by omega) (column_quoted _)
  rw [← past_quoted (by decide), ← hread, readDouble, List.cons_append, List.cons_append,
    Cursor.skip_one, List.append_assoc, List.singleton_append]

theorem hasPair_of_false {p q : Char → Bool} (h : (∀ c, p c = false) ∨ ∀ c, q c = false) :
    hasPair p q s = false := by
  rw [hasPair_eq_false_iff]
  intro u a b v _ ha hb
  rcases h with h | h
  · simp [h a] at ha
  · simp [h b] at hb

/-- A text between double quotes with escapes reads back. -/
theorem readDouble_write (ht : t.head? ≠ some '"')
    (hbound : (write .double indent s).length ≤ bound) :
    readDouble bound ⟨write .double indent s ++ t, m⟩ =
      some (s, ⟨t, m.past (write .double indent s)⟩) := by
  have hlen := length_le_writeBetween (fun _ => false) indent s one_le_writeDoubleChar false
  have hwrite : write .double indent s =
      '"' :: writeBetween (fun _ => false) writeDoubleChar indent false s ++ ['"'] := by
    rw [write, writeBetween_double]
  rw [hwrite] at hbound ⊢
  simp only [List.length_cons, List.length_append] at hbound
  have hread := quotes_double.readWithin_writeBetween bound indent ht (bound + 1) s
    (m.along ['"']) (by omega) (fun _ _ => rfl) (hasPair_of_false (.inr fun _ => rfl))
    (hasPair_of_false (.inl fun _ => rfl)) (fun h => by simp at h) (by omega) (column_quoted _)
  rw [← past_quoted (by decide), ← hread, readDouble, List.cons_append, List.cons_append,
    Cursor.skip_one, List.append_assoc, List.singleton_append]

end

end LockPrune.Yaml
