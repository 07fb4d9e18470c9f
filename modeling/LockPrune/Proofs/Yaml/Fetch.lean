import LockPrune.Proofs.Yaml.Scan

/-!
# What a token does to the scanner

Every kind of token that is written has one equation here: what `Scanner.advance` makes of
a state in which the token stands at the cursor.  The states are outside of brackets and
written out field by field.

## Main definitions

* `Scanner.saved` — the possible key behind a token that may begin one.
* `Scanner.Opens` — the columns and tokens of a block that is open, or is opened.

## Main statements

* `Scanner.advance_dash`, `Scanner.advance_query`, `Scanner.advance_colon` — the marks of
  block collections.
* `Scanner.advance_colon_key` — the colon behind a key puts the tokens of the key in.
* `Scanner.advance_plain`, `Scanner.advance_quoted`, `Scanner.advance_literal`,
  `Scanner.advance_tag` — scalars and tags, given what their readers say.
* `Scanner.leads_brackets` — a pair of brackets with nothing between.
-/

namespace LockPrune.Yaml

open Scalar

/-! ## What a plain scalar begins with -/

/-- A mark that stands three times at the beginning of a text does so in front of what cannot
go on with it. -/
theorem atTriple_append {c : Char} {s t : List Char} (hs : [c, c, c].isPrefixOf s = false)
    (hne : s ≠ []) (ht : t.head? ≠ some c) : atTriple c (s ++ t) = false := by
  have htail : ∀ (d : Char) (u : List Char), t = d :: u → d ≠ c := by
    rintro d u rfl rfl
    exact ht rfl
  match s, hne with
  | [a], _ =>
    match t, htail with
    | [], _ => rfl
    | [_], _ => rfl
    | d :: e :: u, htail => simp [atTriple, htail d _ rfl]
  | [a, d], _ =>
    match t, htail with
    | [], _ => rfl
    | e :: u, htail => simp [atTriple, htail e _ rfl]
  | a :: d :: e :: u, _ =>
    simp only [List.isPrefixOf, Bool.and_true, Bool.and_eq_false_iff, beq_eq_false_iff_ne] at hs
    have hne : ¬ (a = c ∧ d = c ∧ e = c) := by
      rintro ⟨rfl, rfl, rfl⟩
      simp at hs
    simp only [List.cons_append, atTriple, Bool.and_eq_false_iff, decide_eq_false_iff_not]
    tauto

/-- What the first character of a text says that is admitted without quotes. -/
theorem head_of_plainAdmitted {a : Char} {r : List Char} (h : plainAdmitted (a :: r) = true) :
    isPrintable a = true ∧ isGap a = false ∧ isBreak a = false ∧ leadMarks.contains a = false ∧
      ((a = '?' ∨ a = '-' ∨ a = ':') → atStop r = false) := by
  simp only [plainAdmitted, Bool.not_eq_true', Bool.or_eq_false_iff, needsEscapes, looksMarked]
    at h
  obtain ⟨⟨⟨⟨⟨-, hprint⟩, hbreak⟩, hbegin⟩, -⟩, ⟨⟨⟨-, hlead⟩, hmark⟩, hkey⟩, -⟩ := h
  have ha : isPrintable a = true := by
    simpa using List.any_eq_false.1 hprint a List.mem_cons_self
  have hspace : a ≠ ' ' := by simpa [beginsWith] using hbegin
  refine ⟨ha, ?_, ?_, hlead, ?_⟩
  · simpa [isGap, hspace] using (ne_of_isPrintable ha).1
  · simpa using List.any_eq_false.1 hbreak a List.mem_cons_self
  · rintro (rfl | rfl | rfl)
    · simpa [beginsWith] using hmark
    · simpa [beginsWith] using hmark
    · simp only [hasKeyMark, Bool.or_eq_false_iff, decide_true, Bool.true_and] at hkey
      exact hkey.1

/-- What follows a plain scalar where it is written: a colon or the end of the line. -/
def ClosesPlain (t : List Char) : Prop :=
  t.head? = some ':' ∨ t.head? = some '\n'

section

variable {s t : List Char}

/-- A text that is admitted without quotes is not a line between documents. -/
theorem atDocumentMark_of_plainAdmitted (h : plainAdmitted s = true) (hne : s ≠ [])
    (ht : ClosesPlain t) :
    atTriple '-' (s ++ t) = false ∧ atTriple '.' (s ++ t) = false := by
  simp only [plainAdmitted, Bool.not_eq_true', Bool.or_eq_false_iff, looksMarked] at h
  obtain ⟨-, ⟨⟨⟨⟨⟨hdash, hdot⟩, -⟩, -⟩, -⟩, -⟩⟩ := h
  constructor
  · refine atTriple_append hdash hne ?_
    rcases ht with ht | ht <;> simp [ht]
  · refine atTriple_append hdot hne ?_
    rcases ht with ht | ht <;> simp [ht]

/-- A text that is admitted without quotes begins a token. -/
theorem starts_of_plainAdmitted (h : plainAdmitted s = true) (hne : s ≠ []) :
    Starts (s ++ t) := by
  cases s with
  | nil => exact absurd rfl hne
  | cons a r =>
    obtain ⟨hprint, hgap, hbreak, hlead, -⟩ := head_of_plainAdmitted h
    have hhash : a ≠ '#' := by
      rintro rfl
      exact absurd hlead (by decide)
    simp [Starts, hgap, hbreak, hhash, (ne_of_isPrintable hprint).2.2.2]

end

namespace Scanner

section

variable {b n : Nat} {t : List Char} {m : Mark} {i : Int} {is : List Int} {al : Bool}
  {key : Option PossibleKey} {ps : List Token}

/-! ## Saving a key -/

/-- The possible key behind a token that may begin one. -/
def saved (al : Bool) (key : Option PossibleKey) (i : Int) (m : Mark) (number : Nat) :
    Option PossibleKey :=
  if al then some ⟨number, i = m.column, m⟩ else key

/-- Where a key may begin there is none that has begun. -/
theorem saveKey_eq (hkey : al = true → key = none) :
    saveKey ⟨b, ⟨t, m⟩, i, is, al, key, [], ps, n⟩ =
      some ⟨b, ⟨t, m⟩, i, is, al, saved al key i m (n + ps.length), [], ps, n⟩ := by
  cases al with
  | false => rfl
  | true =>
    rw [hkey rfl]
    rfl

/-- A key that is saved to the right of the block is passed on a later line. -/
theorem passed_saved {line number : Nat} (hkey : Passed line key) (hi : al = true → i < m.column)
    (hline : m.line < line) : Passed line (saved al key i m number) := by
  cases al with
  | false => exact hkey
  | true =>
    intro k hk
    have hlt := hi rfl
    simp only [saved, if_true, Option.some.injEq] at hk
    subst hk
    exact ⟨by simp; omega, hline⟩

/-! ## Opening a block -/

/-- The column `m.column` is that of the innermost block, or a block is opened there: the
columns around it, and the tokens in front of its first. -/
inductive Opens (kind : Token.Kind) (m : Mark) : Int → List Int → List Int → List Token → Prop
  where
  | already (is : List Int) : Opens kind m m.column is is []
  | fresh (i : Int) (is : List Int) (h : i < m.column) :
    Opens kind m i is (i :: is) [⟨kind, m, m⟩]

theorem openBlock_of_opens {kind : Token.Kind} {c : Cursor} {is' : List Int} {ks : List Token}
    (h : Opens kind m i is is' ks) :
    openBlock ⟨b, c, i, is, al, key, [], ps, n⟩ m.column kind m none =
      ⟨b, c, m.column, is', al, key, [], ps ++ ks, n⟩ := by
  cases h with
  | already => simp [openBlock, inFlow]
  | fresh _ _ hlt => simp [openBlock, inFlow, hlt, push]

theorem openBlock_at_of_opens {kind : Token.Kind} {c : Cursor} {is' : List Int}
    {ks qs : List Token} (h : Opens kind m i is is' ks) :
    openBlock ⟨b, c, i, is, al, key, [], ps ++ qs, n⟩ m.column kind m (some (n + ps.length)) =
      ⟨b, c, m.column, is', al, key, [], ps ++ ks ++ qs, n⟩ := by
  cases h with
  | already => simp [openBlock, inFlow]
  | fresh _ _ hlt => simp [openBlock, inFlow, hlt, pushAt]

/-! ## The marks of block collections -/

/-- The head of a text at a mark of one character is not a line between documents. -/
theorem atTriple_of_stop {a c : Char} (h : atStop t = true) (hc : isGap c = false)
    (hb : isBreak c = false) : atTriple c (a :: t) = false := by
  cases t with
  | nil => rfl
  | cons d t =>
    have hd : d ≠ c := by
      rintro rfl
      simp [atStop, hc, hb] at h
    cases t with
    | nil => rfl
    | cons e t => simp [atTriple, hd]

/-- Behind a token the keys that were left behind are given up. -/
theorem advance_of_fetchNext {s s' : Scanner} (h : s.fetchNext = some s') :
    s.advance = s'.dropStale := by
  rw [advance, h]
  rfl

/-- The dash of a sequence. -/
theorem advance_dash {is' : List Int} {ks : List Token}
    (hopen : Opens .blockSequenceStart m i is is' ks) (ht : atStop t = true) :
    advance ⟨b, ⟨'-' :: t, m⟩, i, is, true, none, [], ps, n⟩ =
      some ⟨b, ⟨t, m.along ['-']⟩, m.column, is', true, none, [],
        ps ++ ks ++ [⟨.blockEntry, m, m.along ['-']⟩], n⟩ := by
  have hdash : atTriple '-' ('-' :: t) = false := atTriple_of_stop ht rfl rfl
  have hdot : atTriple '.' ('-' :: t) = false := atTriple_of_stop ht rfl rfl
  have hfetch : fetchNext ⟨b, ⟨'-' :: t, m⟩, i, is, true, none, [], ps, n⟩ =
      fetchBlockEntry ⟨b, ⟨'-' :: t, m⟩, i, is, true, none, [], ps, n⟩ := by
    simp [fetchNext, hdash, hdot, ht]
  rw [advance, hfetch, fetchBlockEntry]
  simp only [inFlow, List.isEmpty_nil, Bool.not_true, Bool.and_false, Bool.false_eq_true, if_false,
    Cursor.column, openBlock_of_opens hopen, removeKey, Option.bind_eq_bind, Option.bind_some,
    allowKey, takeChars, take, push, Cursor.skip_one]
  exact dropStale_of rfl

/-- The mark of a key that is written out. -/
theorem advance_query {is' : List Int} {ks : List Token}
    (hopen : Opens .blockMappingStart m i is is' ks) (ht : atStop t = true) :
    advance ⟨b, ⟨'?' :: t, m⟩, i, is, true, none, [], ps, n⟩ =
      some ⟨b, ⟨t, m.along ['?']⟩, m.column, is', true, none, [],
        ps ++ ks ++ [⟨.key, m, m.along ['?']⟩], n⟩ := by
  have hdash : atTriple '-' ('?' :: t) = false := atTriple_of_stop ht rfl rfl
  have hdot : atTriple '.' ('?' :: t) = false := atTriple_of_stop ht rfl rfl
  have hfetch : fetchNext ⟨b, ⟨'?' :: t, m⟩, i, is, true, none, [], ps, n⟩ =
      fetchKey ⟨b, ⟨'?' :: t, m⟩, i, is, true, none, [], ps, n⟩ := by
    simp [fetchNext, hdash, hdot, ht]
  rw [advance, hfetch, fetchKey]
  simp only [inFlow, List.isEmpty_nil, Bool.not_true, Bool.and_false, Bool.false_eq_true, if_false,
    Cursor.column, openBlock_of_opens hopen, removeKey, Option.bind_eq_bind, Option.bind_some,
    allowKey, takeChars, take, push, Cursor.skip_one, Bool.not_false]
  exact dropStale_of rfl

/-- A colon in front of a stop is the mark of a value. -/
theorem fetchNext_colon (ht : atStop t = true) :
    fetchNext ⟨b, ⟨':' :: t, m⟩, i, is, al, key, [], ps, n⟩ =
      fetchValue ⟨b, ⟨':' :: t, m⟩, i, is, al, key, [], ps, n⟩ := by
  have hdash : atTriple '-' (':' :: t) = false := atTriple_of_stop ht rfl rfl
  have hdot : atTriple '.' (':' :: t) = false := atTriple_of_stop ht rfl rfl
  simp [fetchNext, hdash, hdot, ht]

/-- The colon on the line behind a key that was written out. -/
theorem advance_colon (hi : i = m.column) (ht : atStop t = true) :
    advance ⟨b, ⟨':' :: t, m⟩, i, is, true, none, [], ps, n⟩ =
      some ⟨b, ⟨t, m.along [':']⟩, i, is, true, none, [],
        ps ++ [⟨.value, m, m.along [':']⟩], n⟩ := by
  subst hi
  have hopen : Opens .blockMappingStart m m.column is is [] := .already is
  rw [advance, fetchNext_colon ht, fetchValue]
  simp only [inFlow, List.isEmpty_nil, Bool.not_true, Bool.and_false, Bool.false_eq_true, if_false,
    Cursor.column, openBlock_of_opens hopen, Option.bind_eq_bind, Option.bind_some, allowKey,
    takeChars, take, push, Cursor.skip_one, Bool.not_false, List.append_nil]
  exact dropStale_of rfl

/-- The colon behind a key: the tokens for the key are put in where it began. -/
theorem advance_colon_key {k : PossibleKey} {is' : List Int} {ks qs : List Token}
    (hopen : Opens .blockMappingStart k.mark i is is' ks) (hnumber : k.number = n + ps.length)
    (ht : atStop t = true) :
    advance ⟨b, ⟨':' :: t, m⟩, i, is, al, some k, [], ps ++ qs, n⟩ =
      some ⟨b, ⟨t, m.along [':']⟩, k.mark.column, is', false, none, [],
        ps ++ ks ++ [⟨.key, k.mark, k.mark⟩] ++ qs ++ [⟨.value, m, m.along [':']⟩], n⟩ := by
  have hpush : pushAt ⟨b, ⟨':' :: t, m⟩, i, is, al, some k, [], ps ++ qs, n⟩ k.number .key k.mark =
      ⟨b, ⟨':' :: t, m⟩, i, is, al, some k, [], ps ++ ([⟨.key, k.mark, k.mark⟩] ++ qs), n⟩ := by
    simp [pushAt, hnumber]
  rw [advance, fetchNext_colon ht, fetchValue]
  simp only [hpush]
  rw [hnumber, openBlock_at_of_opens hopen]
  simp only [Option.bind_eq_bind, Option.bind_some, allowKey, takeChars, take, push,
    Cursor.skip_one, List.append_assoc]
  exact dropStale_of rfl

/-! ## Plain scalars -/

/-- A text that is admitted without quotes is read as a plain scalar. -/
theorem fetchNext_plain {s : List Char} (h : plainAdmitted s = true) (hne : s ≠ [])
    (ht : ClosesPlain t) :
    fetchNext ⟨b, ⟨s ++ t, m⟩, i, is, al, key, [], ps, n⟩ =
      fetchPlain ⟨b, ⟨s ++ t, m⟩, i, is, al, key, [], ps, n⟩ := by
  obtain ⟨hdash, hdot⟩ := atDocumentMark_of_plainAdmitted h hne ht
  cases s with
  | nil => exact absurd rfl hne
  | cons a r =>
    obtain ⟨-, hgap, hbreak, hlead, hstop⟩ := head_of_plainAdmitted h
    have hword : (a = '?' ∨ a = '-' ∨ a = ':') → atStop (r ++ t) = false := by
      intro ha
      have hr := hstop ha
      cases r with
      | nil => simp [atStop] at hr
      | cons d r => exact hr
    have hbegins : beginsPlain false a (r ++ t) = true := by
      by_cases hmark : a = '?' ∨ a = '-' ∨ a = ':'
      · have hnot := hword hmark
        have hnogap : atGap (r ++ t) = false := by
          cases hr : r ++ t with
          | nil => rfl
          | cons d u =>
            rw [hr] at hnot
            simp only [atStop, Bool.or_eq_false_iff] at hnot
            exact hnot.1
        rcases hmark with rfl | rfl | rfl <;> simp [beginsPlain, hnot, hnogap]
      · have hindicator : indicators.contains a = false := by
          simp only [leadMarks, List.contains_cons, List.contains_nil, Bool.or_false,
            Bool.or_eq_false_iff, beq_eq_false_iff_ne] at hlead
          simp only [indicators, List.contains_cons, List.contains_nil, Bool.or_false,
            Bool.or_eq_false_iff, beq_eq_false_iff_ne]
          tauto
        simp only [beginsPlain, hgap, hbreak, hindicator, Bool.or_self, Bool.not_false,
          Bool.true_or]
    simp only [leadMarks, List.contains_cons, List.contains_nil, Bool.or_false,
      Bool.or_eq_false_iff, beq_eq_false_iff_ne] at hlead
    have hquery : a = '?' → atStop (r ++ t) = false := fun ha => hword (.inl ha)
    have hminus : a = '-' → atStop (r ++ t) = false := fun ha => hword (.inr (.inl ha))
    have hcolon : a = ':' → atStop (r ++ t) = false := fun ha => hword (.inr (.inr ha))
    rw [List.cons_append] at hdash hdot
    simp only [fetchNext, List.cons_append, hdash, hdot, Bool.and_false, Bool.false_eq_true,
      if_false, inFlow, List.isEmpty_nil, Bool.not_true, Bool.false_or, Bool.not_false,
      Bool.and_true, Bool.and_eq_true, decide_eq_true_eq, hbegins, if_true, hlead]
    have hq : ¬ (a = '?' ∧ atStop (r ++ t) = true) := by
      rintro ⟨ha, hs⟩
      simp [hquery ha] at hs
    have hm : ¬ (a = '-' ∧ atStop (r ++ t) = true) := by
      rintro ⟨ha, hs⟩
      simp [hminus ha] at hs
    have hc : ¬ (a = ':' ∧ atStop (r ++ t) = true) := by
      rintro ⟨ha, hs⟩
      simp [hcolon ha] at hs
    simp [hq, hm, hc]

/-- A plain scalar, given what its reader says. -/
theorem advance_plain {s u : List Char} {ended : Bool} {m' : Mark} {key' : Option PossibleKey}
    (h : plainAdmitted s = true) (hne : s ≠ []) (ht : ClosesPlain t)
    (hkey : al = true → key = none)
    (hread : readPlain false (i + 1) b ⟨s ++ t, m⟩ = some ⟨s, ended, ⟨u, m'⟩⟩)
    (hdrop : dropStaleKey m' (saved al key i m (n + ps.length)) = some key') :
    advance ⟨b, ⟨s ++ t, m⟩, i, is, al, key, [], ps, n⟩ =
      some ⟨b, ⟨u, m'⟩, i, is, ended, key', [], ps ++ [⟨.scalar .plain s, m, m'⟩], n⟩ := by
  have hfetch : fetchNext ⟨b, ⟨s ++ t, m⟩, i, is, al, key, [], ps, n⟩ =
      some ⟨b, ⟨u, m'⟩, i, is, ended, saved al key i m (n + ps.length), [],
        ps ++ [⟨.scalar .plain s, m, m'⟩], n⟩ := by
    rw [fetchNext_plain h hne ht, fetchPlain, saveKey_eq hkey]
    simp [inFlow, hread, allowKey, take, push]
  rw [advance_of_fetchNext hfetch]
  exact dropStale_of hdrop

/-! ## Other scalars, and tags -/

theorem atTriple_cons_of_ne {a c : Char} (h : a ≠ c) (t : List Char) :
    atTriple c (a :: t) = false := by
  match t with
  | [] => rfl
  | [_] => rfl
  | _ :: _ :: _ => simp [atTriple, h]

/-- The quotes, and the styles that they are read as. -/
inductive QuoteOf : Char → Style → Prop where
  | single : QuoteOf '\x27' .single
  | double : QuoteOf '"' .double

theorem QuoteOf.not_break {quote : Char} {style : Style} (h : QuoteOf quote style) :
    isBreak quote = false ∧ quote ≠ '\n' := by
  cases h <;> decide

theorem QuoteOf.ne_colon {quote : Char} {style : Style} (h : QuoteOf quote style) :
    quote ≠ ':' := by
  cases h <;> decide

/-- A quoted scalar, given what its reader says. -/
theorem advance_quoted {quote : Char} {style : Style} {s u : List Char} {m' : Mark}
    {key' : Option PossibleKey} (hquote : QuoteOf quote style) (hkey : al = true → key = none)
    (hread : (if style = .single then readSingle else readDouble) b ⟨quote :: t, m⟩ =
      some (s, ⟨u, m'⟩))
    (hdrop : dropStaleKey m' (saved al key i m (n + ps.length)) = some key') :
    advance ⟨b, ⟨quote :: t, m⟩, i, is, al, key, [], ps, n⟩ =
      some ⟨b, ⟨u, m'⟩, i, is, false, key', [], ps ++ [⟨.scalar style s, m, m'⟩], n⟩ := by
  have hdispatch : fetchNext ⟨b, ⟨quote :: t, m⟩, i, is, al, key, [], ps, n⟩ =
      fetchQuoted ⟨b, ⟨quote :: t, m⟩, i, is, al, key, [], ps, n⟩ style := by
    cases hquote with
    | single =>
      have hdash : atTriple '-' ('\x27' :: t) = false := atTriple_cons_of_ne (by decide) t
      have hdot : atTriple '.' ('\x27' :: t) = false := atTriple_cons_of_ne (by decide) t
      simp [fetchNext, hdash, hdot]
    | double =>
      have hdash : atTriple '-' ('"' :: t) = false := atTriple_cons_of_ne (by decide) t
      have hdot : atTriple '.' ('"' :: t) = false := atTriple_cons_of_ne (by decide) t
      simp [fetchNext, hdash, hdot]
  have hfetch : fetchNext ⟨b, ⟨quote :: t, m⟩, i, is, al, key, [], ps, n⟩ =
      some ⟨b, ⟨u, m'⟩, i, is, false, saved al key i m (n + ps.length), [],
        ps ++ [⟨.scalar style s, m, m'⟩], n⟩ := by
    rw [hdispatch, fetchQuoted, saveKey_eq hkey]
    simp only [Option.bind_eq_bind, Option.bind_some]
    rw [hread]
    rfl
  rw [advance_of_fetchNext hfetch]
  exact dropStale_of hdrop

/-- A block scalar, given what its reader says.  No key begins with it. -/
theorem advance_literal {s u : List Char} {line : Nat} {m' : Mark} (hkey : Passed line key)
    (hread : readBlock false i b ⟨'|' :: t, m⟩ = some (s, ⟨u, m'⟩)) :
    advance ⟨b, ⟨'|' :: t, m⟩, i, is, al, key, [], ps, n⟩ =
      some ⟨b, ⟨u, m'⟩, i, is, true, none, [], ps ++ [⟨.scalar .literal s, m, m'⟩], n⟩ := by
  have hdash : atTriple '-' ('|' :: t) = false := atTriple_cons_of_ne (by decide) t
  have hdot : atTriple '.' ('|' :: t) = false := atTriple_cons_of_ne (by decide) t
  have hdispatch : fetchNext ⟨b, ⟨'|' :: t, m⟩, i, is, al, key, [], ps, n⟩ =
      fetchBlockScalar ⟨b, ⟨'|' :: t, m⟩, i, is, al, key, [], ps, n⟩ .literal := by
    simp [fetchNext, hdash, hdot, inFlow]
  have hremove : removeKey ⟨b, ⟨'|' :: t, m⟩, i, is, al, key, [], ps, n⟩ =
      some ⟨b, ⟨'|' :: t, m⟩, i, is, al, none, [], ps, n⟩ := by
    cases key with
    | none => rfl
    | some k => simp [removeKey, (hkey k rfl).1]
  have hfetch : fetchNext ⟨b, ⟨'|' :: t, m⟩, i, is, al, key, [], ps, n⟩ =
      some ⟨b, ⟨u, m'⟩, i, is, true, none, [], ps ++ [⟨.scalar .literal s, m, m'⟩], n⟩ := by
    rw [hdispatch, fetchBlockScalar, hremove]
    simp [hread, allowKey, take, push]
  rw [advance_of_fetchNext hfetch]
  exact dropStale_of rfl

/-- A tag, given what its reader says. -/
theorem advance_tag {tag : TagText} {u : List Char} {m' : Mark} {key' : Option PossibleKey}
    (hkey : al = true → key = none)
    (hread : readTag false b ⟨'!' :: t, m⟩ = some (tag, ⟨u, m'⟩))
    (hdrop : dropStaleKey m' (saved al key i m (n + ps.length)) = some key') :
    advance ⟨b, ⟨'!' :: t, m⟩, i, is, al, key, [], ps, n⟩ =
      some ⟨b, ⟨u, m'⟩, i, is, false, key', [], ps ++ [⟨.tag tag, m, m'⟩], n⟩ := by
  have hdash : atTriple '-' ('!' :: t) = false := atTriple_cons_of_ne (by decide) t
  have hdot : atTriple '.' ('!' :: t) = false := atTriple_cons_of_ne (by decide) t
  have hdispatch : fetchNext ⟨b, ⟨'!' :: t, m⟩, i, is, al, key, [], ps, n⟩ =
      fetchTag ⟨b, ⟨'!' :: t, m⟩, i, is, al, key, [], ps, n⟩ := by
    simp [fetchNext, hdash, hdot]
  have hfetch : fetchNext ⟨b, ⟨'!' :: t, m⟩, i, is, al, key, [], ps, n⟩ =
      some ⟨b, ⟨u, m'⟩, i, is, false, saved al key i m (n + ps.length), [],
        ps ++ [⟨.tag tag, m, m'⟩], n⟩ := by
    rw [hdispatch, fetchTag, saveKey_eq hkey]
    simp [inFlow, hread, allowKey, take, push]
  rw [advance_of_fetchNext hfetch]
  exact dropStale_of hdrop

/-! ## Brackets with nothing between -/

/-- The brackets of an empty collection, and the tokens that they are. -/
inductive Brackets : Char → Char → Token.Kind → Token.Kind → Prop where
  | square : Brackets '[' ']' .flowSequenceStart .flowSequenceEnd
  | curly : Brackets '\x7b' '\x7d' .flowMappingStart .flowMappingEnd

/-- A key that was not given up at a place is not given up there the second time. -/
theorem dropStaleKey_idem {key' : Option PossibleKey} (h : dropStaleKey m key = some key') :
    dropStaleKey m key' = some key' := by
  cases key with
  | none =>
    cases h
    rfl
  | some k =>
    by_cases hstale : isStale m k = true
    · cases hreq : k.required with
      | true => simp [dropStaleKey, hstale, hreq] at h
      | false =>
        simp only [dropStaleKey, hstale, hreq, if_true, Bool.false_eq_true, if_false,
          Option.some.injEq] at h
        subst h
        rfl
    · simp only [dropStaleKey, hstale, if_false, Option.some.injEq, Bool.false_eq_true] at h
      subst h
      simp [dropStaleKey, hstale]

/-- Inside a pair of brackets the possible key is the one of what is around them. -/
theorem dropStale_inside {c : Cursor} {key' : Option PossibleKey}
    (h : dropStaleKey c.mark key = some key') :
    dropStale ⟨b, c, i, is, al, none, [key], ps, n⟩ =
      some ⟨b, c, i, is, al, none, [key'], ps, n⟩ := by
  have hnone : dropStaleKey c.mark none = some none := rfl
  simp [dropStale, h, hnone]

/-- Between the brackets the scanner waits for the second one. -/
theorem leads_brackets {o c : Char} {opening closing : Token.Kind} {C : Scanner}
    {key₁ key₂ : Option PossibleKey} (hbrackets : Brackets o c opening closing)
    (hkey : al = true → key = none)
    (hdrop₁ : dropStaleKey (m.along [o]) (saved al key i m (n + ps.length)) = some key₁)
    (hdrop₂ : dropStaleKey (m.along [o, c]) key₁ = some key₂)
    (h : Reaches ⟨b, ⟨t, m.along [o, c]⟩, i, is, false, key₂, [],
      ps ++ [⟨opening, m, m.along [o]⟩, ⟨closing, m.along [o], m.along [o, c]⟩], n⟩ C) :
    Leads ⟨b, ⟨o :: c :: t, m⟩, i, is, al, key, [], ps, n⟩ C := by
  have hidem := dropStaleKey_idem hdrop₁
  have hmark : (m.along [o]).along [c] = m.along [o, c] := (Mark.along_append m [o] [c]).symm
  -- the opening bracket, up to the closing one
  have hopen : (advance ⟨b, ⟨o :: c :: t, m⟩, i, is, al, key, [], ps, n⟩).bind arrive =
      some ⟨b, ⟨c :: t, m.along [o]⟩, i, is, true, none, [key₁],
        ps ++ [⟨opening, m, m.along [o]⟩], n⟩ := by
    have hfetch : fetchNext ⟨b, ⟨o :: c :: t, m⟩, i, is, al, key, [], ps, n⟩ =
        some ⟨b, ⟨c :: t, m.along [o]⟩, i, is, true, none, [saved al key i m (n + ps.length)],
          ps ++ [⟨opening, m, m.along [o]⟩], n⟩ := by
      have hdispatch : fetchNext ⟨b, ⟨o :: c :: t, m⟩, i, is, al, key, [], ps, n⟩ =
          fetchFlowStart ⟨b, ⟨o :: c :: t, m⟩, i, is, al, key, [], ps, n⟩ opening := by
        cases hbrackets <;> simp [fetchNext, atTriple_cons_of_ne]
      rw [hdispatch, fetchFlowStart, saveKey_eq hkey]
      rfl
    have hskip : skipToToken (b + 1) ⟨b, ⟨c :: t, m.along [o]⟩, i, is, true, none, [key₁],
        ps ++ [⟨opening, m, m.along [o]⟩], n⟩ =
          ⟨b, ⟨c :: t, m.along [o]⟩, i, is, true, none, [key₁],
            ps ++ [⟨opening, m, m.along [o]⟩], n⟩ := by
      cases hbrackets <;>
        simp [skipToToken, Cursor.column, atOneOf, byteOrderMark, Cursor.skipComment, atBreak,
          isBreak, Cursor.skipWhile_of_head]
    rw [advance_of_fetchNext hfetch, dropStale_inside hdrop₁, Option.bind_some, arrive, hskip,
      dropStale_inside hidem]
    simp [closeBlocks, inFlow]
  refine .step ⟨hopen, by simp⟩ (Leads.of_advance (by simp) ?_ h)
  -- the closing bracket
  have hfetch : fetchNext ⟨b, ⟨c :: t, m.along [o]⟩, i, is, true, none, [key₁],
      ps ++ [⟨opening, m, m.along [o]⟩], n⟩ =
        some ⟨b, ⟨t, m.along [o, c]⟩, i, is, false, key₁, [],
          ps ++ [⟨opening, m, m.along [o]⟩, ⟨closing, m.along [o], m.along [o, c]⟩], n⟩ := by
    have hdispatch : fetchNext ⟨b, ⟨c :: t, m.along [o]⟩, i, is, true, none, [key₁],
        ps ++ [⟨opening, m, m.along [o]⟩], n⟩ =
          fetchFlowEnd ⟨b, ⟨c :: t, m.along [o]⟩, i, is, true, none, [key₁],
            ps ++ [⟨opening, m, m.along [o]⟩], n⟩ closing := by
      cases hbrackets <;> simp [fetchNext, atTriple_cons_of_ne]
    rw [hdispatch, fetchFlowEnd]
    simp [removeKey, allowKey, takeChars, take, push, Cursor.skip_one, hmark]
  rw [advance_of_fetchNext hfetch]
  exact dropStale_of hdrop₂

end

end Scanner

end LockPrune.Yaml
