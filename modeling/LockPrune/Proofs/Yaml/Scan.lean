import LockPrune.Proofs.Yaml.Block
import LockPrune.Proofs.Yaml.Plain
import LockPrune.Proofs.Yaml.QuoteStyles
import LockPrune.Proofs.Yaml.Tag

/-!
# One token at a time

A step of the scanner goes to the next token, and then adds it.  Here the two halves are
taken apart and put together the other way round: a run goes from one token that is about to
be added to the next, so that the state in between has no blanks left in front and all blocks
closed that end there.

All statements are about states outside of brackets, which are written out field by field.

## Main definitions

* `Scanner.arrive`, `Scanner.advance` — the halves of a step.
* `Scanner.Leads` — a run from token to token.
* `Starts` — what a token begins with.

## Main statements

* `Scanner.arrive_line`, `Scanner.arrive_inline` — going to the next token, on a later line or
  on the same one.
-/

namespace LockPrune.Yaml

open Scalar

/-- A token begins here, or the text ends. -/
def Starts (t : List Char) : Prop :=
  t.head?.any (fun a => isGap a || isBreak a || a = '#' || a = byteOrderMark) = false

theorem Starts.not_stop {t : List Char} (h : Starts t) :
    t.head?.any (fun a => isGap a || isBreak a) = false := by
  cases hhead : t.head? with
  | none => rfl
  | some a =>
    rw [Starts, hhead] at h
    simp only [Option.any_some, Bool.or_eq_false_iff] at h ⊢
    exact h.1.1

theorem Starts.nil : Starts [] := rfl

namespace Scanner

/-! ## The halves of a step -/

/-- Goes to the next token: over what stands in front of it, giving up the keys that are left
behind and closing the blocks that end. -/
def arrive (s : Scanner) : Option Scanner := do
  let s ← (skipToToken (s.bound + 1) s).dropStale
  some (s.closeBlocks s.cursor.column)

/-- Adds the token that stands at the cursor. -/
def advance (s : Scanner) : Option Scanner := do
  let s ← s.fetchNext
  s.dropStale

theorem fetch_eq (s : Scanner) : s.fetch = s.arrive.bind advance := by
  rw [fetch, arrive]
  cases (skipToToken (s.bound + 1) s).dropStale <;> rfl

/-- A token that takes some room is added, and the next is gone to. -/
def Hops (a b : Scanner) : Prop :=
  a.advance.bind arrive = some b ∧ b.cursor.rest.length < a.cursor.rest.length

/-- A run from token to token. -/
inductive Leads : Scanner → Scanner → Prop where
  | refl (a : Scanner) : Leads a a
  | step {a b c : Scanner} (h : Hops a b) (rest : Leads b c) : Leads a c

theorem Leads.trans {a b c : Scanner} (h : Leads a b) (h' : Leads b c) : Leads a c := by
  induction h with
  | refl => exact h'
  | step hop _ ih => exact .step hop (ih h')

/-- A run from behind a token to the next and on. -/
def Reaches (s c : Scanner) : Prop :=
  ∃ a, s.arrive = some a ∧ Leads a c

theorem Reaches.trans {s b c : Scanner} (h : Reaches s b) (h' : Leads b c) : Reaches s c := by
  obtain ⟨a, ha, hab⟩ := h
  exact ⟨a, ha, hab.trans h'⟩

/-- Going to the next token takes nothing back. -/
theorem length_skipToToken_le (n : Nat) (s : Scanner) :
    (skipToToken n s).cursor.rest.length ≤ s.cursor.rest.length := by
  have hskip : ∀ (c : Cursor) k, (c.skip k).rest.length ≤ c.rest.length := by
    intro c k
    simp [Cursor.skip]
  have hwhile : ∀ (c : Cursor) p, (c.skipWhile p).rest.length ≤ c.rest.length :=
    fun c p => hskip c _
  have hcomment : ∀ c : Cursor, c.skipComment.rest.length ≤ c.rest.length := by
    intro c
    rw [Cursor.skipComment]
    split
    · exact hwhile c _
    · exact Nat.le_refl _
  have hline : ∀ c : Cursor, c.skipLine.rest.length ≤ c.rest.length := by
    intro c
    rw [Cursor.skipLine, Cursor.readLine]
    split
    · rename_i heq
      simp only [heq, List.length_cons]
      omega
    · rename_i heq
      split
      · simp [heq]
      · split
        · simp [heq]
        · exact Nat.le_refl _
    · exact Nat.le_refl _
  induction n generalizing s with
  | zero => exact Nat.le_refl _
  | succ n ih =>
    rw [skipToToken]
    split
    · split
      · exact Nat.le_trans (ih _) (Nat.le_trans (hline _) (Nat.le_trans (hcomment _)
          (Nat.le_trans (hwhile _ _) (hskip _ 1))))
      · exact Nat.le_trans (hcomment _) (Nat.le_trans (hwhile _ _) (hskip _ 1))
    · split
      · exact Nat.le_trans (ih _) (Nat.le_trans (hline _) (Nat.le_trans (hcomment _) (hwhile _ _)))
      · exact Nat.le_trans (hcomment _) (hwhile _ _)

theorem dropStale_cursor {s s' : Scanner} (h : s.dropStale = some s') : s'.cursor = s.cursor := by
  simp only [dropStale, Option.bind_eq_bind, Option.bind_eq_some_iff, Option.some.injEq] at h
  obtain ⟨_, -, _, -, rfl⟩ := h
  rfl

theorem length_arrive_le {s a : Scanner} (h : s.arrive = some a) :
    a.cursor.rest.length ≤ s.cursor.rest.length := by
  simp only [arrive, Option.bind_eq_bind, Option.bind_eq_some_iff, Option.some.injEq] at h
  obtain ⟨s', hs', rfl⟩ := h
  have hclose : ∀ (s : Scanner) c, (s.closeBlocks c).cursor = s.cursor := by
    intro s c
    rw [closeBlocks]
    split <;> rfl
  rw [hclose, dropStale_cursor hs']
  exact length_skipToToken_le _ s

/-- A token that takes some room is added, and the run goes on behind it. -/
theorem Leads.of_advance {a s c : Scanner} (hlt : s.cursor.rest.length < a.cursor.rest.length)
    (h : a.advance = some s) (h' : Reaches s c) : Leads a c := by
  obtain ⟨b, hb, hbc⟩ := h'
  refine .step ⟨?_, Nat.lt_of_le_of_lt (length_arrive_le hb) hlt⟩ hbc
  rw [h, Option.bind_some, hb]

/-! ## Possible keys -/

/-- A possible key that may be given up on a line: none, or one on an earlier line that is not
required. -/
def Passed (line : Nat) (key : Option PossibleKey) : Prop :=
  ∀ k, key = some k → k.required = false ∧ k.mark.line < line

theorem passed_none (line : Nat) : Passed line none := by
  intro k h
  cases h

theorem Passed.mono {line line' : Nat} {key : Option PossibleKey} (h : Passed line key)
    (hle : line ≤ line') : Passed line' key := by
  intro k hk
  exact ⟨(h k hk).1, Nat.lt_of_lt_of_le (h k hk).2 hle⟩

/-- A key that was passed is given up. -/
theorem dropStaleKey_of_passed {m : Mark} {key : Option PossibleKey} (h : Passed m.line key) :
    dropStaleKey m key = some none := by
  cases key with
  | none => rfl
  | some k =>
    obtain ⟨hreq, hline⟩ := h k rfl
    simp [dropStaleKey, isStale, hline, hreq]

/-- A key of the same line that is not too long is kept. -/
theorem dropStaleKey_of_near {m : Mark} {k : PossibleKey} (hline : k.mark.line = m.line)
    (hoffset : m.offset ≤ k.mark.offset + maxKeyLength) :
    dropStaleKey m (some k) = some (some k) := by
  have hstale : isStale m k = false := by
    simp only [isStale, Bool.or_eq_false_iff, decide_eq_false_iff_not]
    omega
  simp [dropStaleKey, hstale]

/-- A key that is not required is kept or given up. -/
theorem exists_dropStaleKey {m : Mark} {line : Nat} {key : Option PossibleKey}
    (h : Passed line key) : ∃ key', dropStaleKey m key = some key' ∧ Passed line key' := by
  cases key with
  | none => exact ⟨none, rfl, h⟩
  | some k =>
    have hreq := (h k rfl).1
    by_cases hstale : isStale m k = true
    · exact ⟨none, by simp [dropStaleKey, hstale, hreq], passed_none line⟩
    · exact ⟨some k, by simp [dropStaleKey, hstale], h⟩

section

variable {b n : Nat} {c : Cursor} {i : Int} {is : List Int} {al : Bool}
  {key key' : Option PossibleKey} {ps : List Token}

/-- Outside of brackets there is one possible key. -/
theorem dropStale_of (h : dropStaleKey c.mark key = some key') :
    dropStale ⟨b, c, i, is, al, key, [], ps, n⟩ = some ⟨b, c, i, is, al, key', [], ps, n⟩ := by
  simp [dropStale, h]

end

/-! ## Going to the next token -/

/-- What a token begins with is none of the characters that are passed over. -/
theorem head_of_starts {t : List Char} (ht : Starts t) :
    atOneOf [byteOrderMark] t = false ∧ atOneOf ['#'] t = false ∧ atBreak t = false ∧
      ∀ q, t.head?.any (fun a => a = ' ' || (q && a = '\t')) = false := by
  cases t with
  | nil => exact ⟨rfl, rfl, rfl, fun _ => rfl⟩
  | cons a t =>
    simp only [Starts, List.head?_cons, Option.any_some, Bool.or_eq_false_iff, isGap,
      decide_eq_false_iff_not] at ht
    obtain ⟨⟨⟨⟨hspace, htab⟩, hbreak⟩, hhash⟩, hmark⟩ := ht
    exact ⟨by simpa [atOneOf] using hmark, by simpa [atOneOf] using hhash, hbreak,
      fun q => by simp [hspace, htab]⟩

/-- Over the spaces in front of a token. -/
theorem skipToToken_spaces {b n f : Nat} {i : Int} {is : List Int} {al : Bool}
    {key : Option PossibleKey} {ps : List Token} {t : List Char} (ht : Starts t) (k : Nat)
    (m : Mark) :
    skipToToken (f + 1) ⟨b, ⟨spaces k ++ t, m⟩, i, is, al, key, [], ps, n⟩ =
      ⟨b, ⟨t, m.along (spaces k)⟩, i, is, al, key, [], ps, n⟩ := by
  obtain ⟨hmark, hhash, hbreak, hblank⟩ := head_of_starts ht
  have hfirst : atOneOf [byteOrderMark] (spaces k ++ t) = false := by
    cases k with
    | zero => exact hmark
    | succ k => rfl
  have hskip := Cursor.skipWhile_spaces (p := fun a => a = ' ' || ((false || !al) && a = '\t')) k m
    (by simp) (hblank _)
  have hcomment : (Cursor.mk t (m.along (spaces k))).skipComment = ⟨t, m.along (spaces k)⟩ := by
    simp [Cursor.skipComment, hhash]
  rw [skipToToken]
  simp only [Cursor.column, inFlow, List.isEmpty_nil, Bool.not_true, hfirst, Bool.and_false,
    Bool.false_eq_true, if_false, hskip, hcomment, hbreak]

/-- Over the end of a line. -/
theorem skipToToken_line {b n f : Nat} {i : Int} {is : List Int} {al : Bool}
    {key : Option PossibleKey} {ps : List Token} (t : List Char) (m : Mark) :
    skipToToken (f + 1) ⟨b, ⟨'\n' :: t, m⟩, i, is, al, key, [], ps, n⟩ =
      skipToToken f ⟨b, ⟨t, m.nextLine ['\n']⟩, i, is, true, key, [], ps, n⟩ := by
  have hskip : (Cursor.mk ('\n' :: t) m).skipWhile
      (fun a => a = ' ' || ((false || !al) && a = '\t')) = ⟨'\n' :: t, m⟩ :=
    Cursor.skipWhile_of_head m (by simp)
  have hcomment : (Cursor.mk ('\n' :: t) m).skipComment = ⟨'\n' :: t, m⟩ := by
    simp [Cursor.skipComment, atOneOf]
  have hmark : atOneOf [byteOrderMark] ('\n' :: t) = false := rfl
  have hbreak : atBreak ('\n' :: t) = true := rfl
  have hline := Cursor.skipLine_break (b := '\n') t m (by decide)
  rw [skipToToken]
  simp only [inFlow, List.isEmpty_nil, Bool.not_true, hmark, Bool.and_false, Bool.false_eq_true,
    if_false, hskip, hcomment, hbreak, if_true, hline, Bool.not_false, Bool.or_true]

/-- Over a line that is a comment. -/
theorem skipToToken_comment {b n f : Nat} {i : Int} {is : List Int} {al : Bool}
    {key : Option PossibleKey} {ps : List Token} {s : List Char}
    (hs : ∀ a ∈ s, isBreak a = false) (t : List Char) (m : Mark) :
    skipToToken (f + 1) ⟨b, ⟨'#' :: s ++ '\n' :: t, m⟩, i, is, al, key, [], ps, n⟩ =
      skipToToken f ⟨b, ⟨t, m.past ('#' :: s ++ ['\n'])⟩, i, is, true, key, [], ps, n⟩ := by
  have hskip : (Cursor.mk ('#' :: s ++ '\n' :: t) m).skipWhile
      (fun a => a = ' ' || ((false || !al) && a = '\t')) = ⟨'#' :: s ++ '\n' :: t, m⟩ :=
    Cursor.skipWhile_of_head m (by simp)
  have hs' : ∀ a ∈ '#' :: s, isBreak a = false := by
    intro a ha
    rcases List.mem_cons.1 ha with rfl | ha
    · decide
    · exact hs a ha
  have hcomment : (Cursor.mk ('#' :: s ++ '\n' :: t) m).skipComment =
      ⟨'\n' :: t, m.along ('#' :: s)⟩ := by
    have hat : atOneOf ['#'] ('#' :: s ++ '\n' :: t) = true := rfl
    rw [Cursor.skipComment, if_pos hat]
    exact Cursor.skipWhile_append m (fun a ha => by simp [hs' a ha]) (by simp [isBreak])
  have hmark : atOneOf [byteOrderMark] ('#' :: s ++ '\n' :: t) = false := rfl
  have hbreak : atBreak ('\n' :: t) = true := rfl
  have hline := Cursor.skipLine_break (b := '\n') t (m.along ('#' :: s)) (by decide)
  have hpast : m.past ('#' :: s ++ ['\n']) = (m.along ('#' :: s)).nextLine ['\n'] := by
    rw [Mark.past_append, Mark.past_eq_along hs', Mark.past_cons_break _ _ (by decide)]
    rfl
  rw [skipToToken, hpast]
  simp only [inFlow, List.isEmpty_nil, Bool.not_true, hmark, Bool.and_false, Bool.false_eq_true,
    if_false, hskip, hcomment, hbreak, if_true, hline, Bool.not_false, Bool.or_true]

/-- Over empty lines and spaces to a token. -/
theorem skipToToken_lines {b n : Nat} {i : Int} {is : List Int} {key : Option PossibleKey}
    {ps : List Token} {t : List Char} (ht : Starts t) (k : Nat) :
    ∀ (g : List Char) (f : Nat) (al : Bool) (m : Mark), (∀ a ∈ g, a = '\n') → g.length < f →
      skipToToken f ⟨b, ⟨g ++ (spaces k ++ t), m⟩, i, is, al, key, [], ps, n⟩ =
        ⟨b, ⟨t, m.past (g ++ spaces k)⟩, i, is, al || !g.isEmpty, key, [], ps, n⟩ := by
  intro g
  induction g with
  | nil =>
    intro f al m _ hf
    obtain ⟨f, rfl⟩ : ∃ f', f = f' + 1 := ⟨f - 1, by omega⟩
    simpa [Mark.past_spaces] using skipToToken_spaces ht k m
  | cons a g ih =>
    intro f al m hg hf
    simp only [List.length_cons] at hf
    obtain ⟨f, rfl⟩ : ∃ f', f = f' + 1 := ⟨f - 1, by omega⟩
    have ha : a = '\n' := hg a List.mem_cons_self
    subst ha
    rw [List.cons_append, skipToToken_line,
      ih f true _ (fun c hc => hg c (List.mem_cons_of_mem _ hc)) (by omega), List.cons_append,
      Mark.past_cons_break _ _ (by decide)]
    simp

/-! ## Arriving -/

theorem closeIndents_of_le {column i : Int} (h : i ≤ column) (is : List Int) :
    closeIndents column i is = (0, i, is) := by
  cases is with
  | nil => rfl
  | cons j is =>
    have hlt : ¬ column < i := Int.not_lt.2 h
    simp [closeIndents, hlt]

/-- The tokens for blocks that end at a place. -/
def blockEnds (k : Nat) (m : Mark) : List Token :=
  List.replicate k ⟨.blockEnd, m, m⟩

@[simp] theorem map_kind_blockEnds (k : Nat) (m : Mark) :
    (blockEnds k m).map Token.kind = List.replicate k .blockEnd := by
  simp [blockEnds]

/-- Going to a token on a later line: a key may begin there, and blocks end. -/
theorem arrive_line {b n k : Nat} {i : Int} {is : List Int} {al : Bool}
    {key : Option PossibleKey} {ps : List Token} {g t : List Char} {m m' : Mark} (ht : Starts t)
    (hg : ∀ a ∈ g, a = '\n') (hb : g.length ≤ b) (hm : m' = m.past (g ++ spaces k))
    (hkey : Passed m'.line key) (hal : (al || !g.isEmpty) = true) :
    arrive ⟨b, ⟨g ++ (spaces k ++ t), m⟩, i, is, al, key, [], ps, n⟩ =
      some ⟨b, ⟨t, m'⟩, (closeIndents m'.column i is).2.1, (closeIndents m'.column i is).2.2,
        true, none, [], ps ++ blockEnds (closeIndents m'.column i is).1 m', n⟩ := by
  rw [arrive, skipToToken_lines ht k g (b + 1) al m hg (by omega), ← hm,
    dropStale_of (dropStaleKey_of_passed hkey), hal]
  simp [closeBlocks, inFlow, blockEnds, Cursor.column]

/-- Going to a token of the same line, to the right of the block that is open. -/
theorem arrive_inline {b n k : Nat} {i : Int} {is : List Int} {al : Bool}
    {key key' : Option PossibleKey} {ps : List Token} {t : List Char} {m : Mark} (ht : Starts t)
    (hi : i ≤ (m.column + k : Nat))
    (hkey : dropStaleKey (m.along (spaces k)) key = some key') :
    arrive ⟨b, ⟨spaces k ++ t, m⟩, i, is, al, key, [], ps, n⟩ =
      some ⟨b, ⟨t, m.along (spaces k)⟩, i, is, al, key', [], ps, n⟩ := by
  have hcolumn : ((m.along (spaces k)).column : Int) = (m.column + k : Nat) := by simp
  rw [arrive, skipToToken_spaces ht k m, dropStale_of hkey]
  simp only [Option.bind_eq_bind, Option.bind_some, closeBlocks, inFlow, List.isEmpty_nil,
    Bool.not_true, Bool.false_eq_true, if_false, Cursor.column]
  rw [hcolumn, closeIndents_of_le hi]
  simp

end Scanner

end LockPrune.Yaml
