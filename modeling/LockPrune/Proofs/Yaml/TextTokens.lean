import LockPrune.Proofs.Yaml.Handover
import LockPrune.Proofs.Yaml.TreeTokens

/-!
# The tokens of a text

A text that consists of comments and of the entries of a mapping, each on lines of its own,
has the tokens of the mapping.

## Main definitions

* `Preamble` — comments and empty lines.

## Main statements

* `Tokens.ofText_rows` — the tokens of the text.
-/

namespace LockPrune.Yaml

open Scalar Scanner

/-- Comments and empty lines. -/
inductive Preamble : List Char → Prop where
  | nil : Preamble []
  | line {p : List Char} (h : Preamble p) : Preamble ('\n' :: p)
  | comment {s p : List Char} (hs : ∀ a ∈ s, isBreak a = false) (h : Preamble p) :
    Preamble ('#' :: s ++ '\n' :: p)

namespace Scanner

/-- Over comments and empty lines to a token. -/
theorem skipToToken_preamble {b n : Nat} {i : Int} {is : List Int} {ps : List Token}
    {pre t : List Char} (hpre : Preamble pre) (ht : Starts t) :
    ∀ (f : Nat) (m : Mark), m.column = 0 → pre.length < f →
      ∃ m', m'.column = 0 ∧
        skipToToken f ⟨b, ⟨pre ++ t, m⟩, i, is, true, none, [], ps, n⟩ =
          ⟨b, ⟨t, m'⟩, i, is, true, none, [], ps, n⟩ := by
  induction hpre with
  | nil =>
    intro f m hm hf
    obtain ⟨f, rfl⟩ : ∃ f', f = f' + 1 := ⟨f - 1, by omega⟩
    exact ⟨m.along (spaces 0), by simpa using hm, skipToToken_spaces ht 0 m⟩
  | line _ ih =>
    intro f m hm hf
    simp only [List.length_cons] at hf
    obtain ⟨f, rfl⟩ : ∃ f', f = f' + 1 := ⟨f - 1, by omega⟩
    obtain ⟨m', hm', hskip⟩ := ih f (m.nextLine ['\n']) rfl (by omega)
    refine ⟨m', hm', ?_⟩
    rw [List.cons_append, skipToToken_line, hskip]
  | @comment s p hs _ ih =>
    intro f m hm hf
    simp only [List.length_cons, List.length_append] at hf
    obtain ⟨f, rfl⟩ : ∃ f', f = f' + 1 := ⟨f - 1, by omega⟩
    have hcolumn := Mark.column_past_line (s := '#' :: s ++ ['\n'])
      (by rw [List.getLast?_concat]; rfl) m 0
    obtain ⟨m', hm', hskip⟩ := ih f (m.past ('#' :: s ++ ['\n'])) (by simpa [spaces] using hcolumn)
      (by omega)
    refine ⟨m', hm', ?_⟩
    rw [List.append_assoc, List.cons_append (a := '\n'), skipToToken_comment hs, hskip]

end Scanner

namespace Tree

/-- The entries of a root that may stand behind gaps: no key in front of a gap ends with an empty
line, and but for the last no entry does. -/
structure AllowsGap (q : Quoting) (gap : List Char) (entries : List (Tree × Tree)) : Prop where
  key : ∀ entry ∈ entries, KeyAllowsGap q gap entry.1
  row : gap = [] ∨ ∀ entry ∈ entries.dropLast, endsBlank (row q gap entry) = false

/-- The tokens of the entries of a root are found, up to the end of the text. -/
theorem leads_rows {q : Quoting} {gap : List Char} (hgap : ∀ a ∈ gap, a = '\n') {b n : Nat}
    {is' : List Int} :
    ∀ (entry : Tree × Tree) (entries : List (Tree × Tree)) (i : Int) (is : List Int)
      (os ps : List Token) (m : Mark), EntriesSound (entry :: entries) →
      AllowsGap q gap (entry :: entries) → m.column = 0 →
      Opens .blockMappingStart m i is is' os →
      (closeLine (row q gap entry) ++ rows q gap entries).length ≤ b →
      ∃ toks m', toks.map Token.kind = entryKinds q (entry :: entries) ∧ m'.column = 0 ∧
        Leads ⟨b, ⟨closeLine (row q gap entry) ++ rows q gap entries, m⟩, i, is, true, none, [],
            ps, n⟩
          ⟨b, ⟨[], m'⟩, 0, is', true, none, [], ps ++ os ++ toks, n⟩ := by
  intro entry entries
  induction entries generalizing entry with
  | nil =>
    intro i is os ps m hsound hallows hm hopen hb
    have hentry := readsLines_entry hsound.1 (readsNode q entry.1 hsound.1)
      (readsNode q entry.2 hsound.2.1) hgap (hallows.key entry List.mem_cons_self)
    obtain ⟨toks, m', hkinds, hm', hleads⟩ :=
      hentry b n 0 0 i is is' os ps [] [] m hm hopen (by simp)
      (.inl rfl) (Nat.le_refl 0) .nil hb
    rw [landed_of_le (by rw [hm'])] at hleads
    exact ⟨toks, m', by simpa [entryKinds] using hkinds, hm', hleads⟩
  | cons next entries ih =>
    intro i is os ps m hsound hallows hm hopen hb
    have hentry := readsLines_entry hsound.1 (readsNode q entry.1 hsound.1)
      (readsNode q entry.2 hsound.2.1) hgap (hallows.key entry List.mem_cons_self)
    have hrows : rows q gap (next :: entries) =
        gap ++ (spaces 0 ++ (closeLine (row q gap next) ++ rows q gap entries)) := by
      simp [rows, spaces]
    have hblank : gap = [] ∨ endsBlank (row q gap entry) = false :=
      hallows.row.imp_right fun h => h _ (by simp)
    have hallows' : AllowsGap q gap (next :: entries) :=
      ⟨fun e he => hallows.key e (List.mem_cons_of_mem _ he),
        hallows.row.imp_right fun h e he => h e (by
          rw [List.dropLast_cons_cons]
          exact List.mem_cons_of_mem _ he)⟩
    have hstarts : Starts (closeLine (row q gap next) ++ rows q gap entries) := by
      rw [closeLine_eq, List.append_assoc]
      exact (starts_spellEntry q gap hsound.2.2.1 0 _ _).2 _
    rw [hrows] at hb ⊢
    -- the entry, up to the next
    obtain ⟨toks, m', hkinds, hm', hleads⟩ := hentry b n 0 0 i is is' os ps gap _ m hm hopen hgap
      hblank (Nat.le_refl 0) hstarts hb
    rw [landed_of_le (by rw [hm'])] at hleads
    -- the further entries, in the block that is open
    have halready : Opens .blockMappingStart m' 0 is' is' [] := by
      have h : Opens .blockMappingStart m' m'.column is' is' [] := .already is'
      rwa [hm'] at h
    obtain ⟨toks', m'', hkinds', hm'', hleads'⟩ := ih next 0 is' [] (ps ++ os ++ toks) m' hsound.2.2
      hallows' hm' halready (by simp only [List.length_append] at hb ⊢; omega)
    refine ⟨toks ++ toks', m'', ?_, hm'', ?_⟩
    · rw [List.map_append, hkinds, hkinds']
      simp [entryKinds]
    · have hrun := hleads.trans hleads'
      simpa [stack, row] using hrun

/-! ## The end of the text -/

theorem tagKinds_ne_streamEnd {tag : Option String} {k : Token.Kind} (h : k ∈ tagKinds tag) :
    k ≠ .streamEnd := by
  cases tag with
  | none => cases h
  | some t =>
    rw [List.mem_singleton.1 h]
    simp

theorem keyKinds_ne_streamEnd (q : Quoting) (t : Tree) : ∀ k ∈ keyKinds q t, k ≠ .streamEnd := by
  intro k hk
  cases t <;>
  · simp only [keyKinds, List.mem_append, List.mem_cons, List.not_mem_nil, or_false] at hk
    rcases hk with hk | hk
    · exact tagKinds_ne_streamEnd hk
    · rintro rfl
      simp [scalarKind] at hk

theorem partKinds_ne_streamEnd {indentless : Bool} {block opening closing : Token.Kind}
    {ks : List Token.Kind} (hks : ∀ k ∈ ks, k ≠ .streamEnd)
    (h : block ≠ .streamEnd ∧ opening ≠ .streamEnd ∧ closing ≠ .streamEnd) :
    ∀ k ∈ partKinds indentless block opening closing ks, k ≠ .streamEnd := by
  intro k hk
  rw [partKinds] at hk
  split at hk
  · simp only [List.mem_cons, List.not_mem_nil, or_false] at hk
    rcases hk with rfl | rfl
    · exact h.2.1
    · exact h.2.2
  · split at hk
    · exact hks k hk
    · simp only [List.cons_append, List.mem_cons, List.mem_append, List.not_mem_nil, or_false] at hk
      rcases hk with rfl | hk | rfl
      · exact h.1
      · exact hks k hk
      · simp

mutual

/-- No token of a node is the end of the text. -/
theorem kinds_ne_streamEnd (q : Quoting) (after : Behind) (t : Tree) :
    ∀ k ∈ kinds q after t, k ≠ .streamEnd := by
  intro k hk
  match t with
  | .scalar tag style text =>
    simp only [kinds, List.mem_append, List.mem_singleton] at hk
    rcases hk with hk | rfl
    · exact tagKinds_ne_streamEnd hk
    · simp [scalarKind]
  | .sequence tag items =>
    simp only [kinds, List.mem_append] at hk
    rcases hk with hk | hk
    · exact tagKinds_ne_streamEnd hk
    · exact partKinds_ne_streamEnd (itemKinds_ne_streamEnd q items) (by simp) k hk
  | .mapping tag entries =>
    simp only [kinds, List.mem_append] at hk
    rcases hk with hk | hk
    · exact tagKinds_ne_streamEnd hk
    · exact partKinds_ne_streamEnd (entryKinds_ne_streamEnd q entries) (by simp) k hk
termination_by structural t

theorem itemKinds_ne_streamEnd (q : Quoting) (items : List Tree) :
    ∀ k ∈ itemKinds q items, k ≠ .streamEnd := by
  intro k hk
  match items with
  | [] => cases hk
  | item :: items =>
    simp only [itemKinds, List.cons_append, List.mem_cons, List.mem_append] at hk
    rcases hk with rfl | hk | hk
    · simp
    · exact kinds_ne_streamEnd q .dash item k hk
    · exact itemKinds_ne_streamEnd q items k hk
termination_by structural items

theorem entryKinds_ne_streamEnd (q : Quoting) (entries : List (Tree × Tree)) :
    ∀ k ∈ entryKinds q entries, k ≠ .streamEnd := by
  intro k hk
  match entries with
  | [] => cases hk
  | (key, value) :: entries =>
    have hkey := kinds_ne_streamEnd q .mark key
    have hvalue := kinds_ne_streamEnd q (keyMark key) value
    simp only [entryKinds, List.cons_append, List.append_assoc, List.mem_cons,
      List.mem_append] at hk
    rcases hk with rfl | hk | rfl | hk | hk
    · simp
    · split at hk
      · exact keyKinds_ne_streamEnd q key k hk
      · exact hkey k hk
    · simp
    · exact hvalue k hk
    · exact entryKinds_ne_streamEnd q entries k hk
termination_by structural entries

end

end Tree

/-- An empty line behind comments and empty lines is one more of them. -/
theorem Preamble.append_lines {pre gap : List Char} (h : Preamble pre)
    (hgap : ∀ a ∈ gap, a = '\n') :
    Preamble (pre ++ gap) := by
  induction h with
  | nil =>
    induction gap with
    | nil => exact .nil
    | cons a gap ih =>
      have ha : a = '\n' := hgap a List.mem_cons_self
      subst ha
      exact .line (ih fun c hc => hgap c (List.mem_cons_of_mem _ hc))
  | line _ ih => exact .line ih
  | comment hs _ ih =>
    have h := Preamble.comment hs ih
    simpa using h

open LockPrune.Yaml.Tree

/-- A scanner comes over comments and empty lines to what is behind them. -/
theorem exists_arrive_preamble {pre next : List Char} (hpre : Preamble pre) (hnext : Starts next) :
    ∃ m : Mark, m.column = 0 ∧ (Scanner.start (pre ++ next)).arrive =
      some ⟨(pre ++ next).length, ⟨next, m⟩, -1, [], true, none, [],
        [⟨.streamStart, .start, .start⟩], 0⟩ := by
  have hstart : Scanner.start (pre ++ next) = ⟨(pre ++ next).length, ⟨pre ++ next, .start⟩, -1, [],
      true, none, [], [⟨.streamStart, .start, .start⟩], 0⟩ := rfl
  obtain ⟨m, hm, hskip⟩ := skipToToken_preamble hpre hnext ((pre ++ next).length + 1) .start rfl
    (by simp only [List.length_append]; omega)
  refine ⟨m, hm, ?_⟩
  have hclose : closeIndents (m.column : Int) (-1) [] = (0, -1, []) := rfl
  rw [arrive, hstart, hskip, dropStale_of rfl]
  simp [closeBlocks, inFlow, Cursor.column, hclose]

/-- At the end of the text the block of the whole text is closed. -/
theorem advance_end (b : Nat) (before : List Token) {m : Mark} (hm : m.column = 0) :
    advance ⟨b, ⟨[], m⟩, 0, [-1], true, none, [], before, 0⟩ =
      some ⟨b, ⟨[], m⟩, -1, [], false, none, [],
        before ++ [⟨.blockEnd, m, m⟩] ++ [⟨.streamEnd, m, m⟩], 0⟩ := by
  have hfetch : fetchNext ⟨b, ⟨[], m⟩, 0, [-1], true, none, [], before, 0⟩ =
      some ⟨b, ⟨[], m⟩, -1, [], false, none, [],
        before ++ [⟨.blockEnd, m, m⟩] ++ [⟨.streamEnd, m, m⟩], 0⟩ := by
    simp [fetchNext, fetchEnd, Cursor.column, hm, closeBlocks, inFlow, closeIndents, removeKey,
      allowKey, takeChars, take, push, Cursor.skip]
  rw [advance_of_fetchNext hfetch]
  exact dropStale_of rfl

/-- The tokens of a text that is comments and the entries of a mapping. -/
theorem Tokens.ofText_rows {q : Quoting} {pre gap : List Char} {entries : List (Tree × Tree)}
    (hpre : Preamble pre) (hgap : ∀ a ∈ gap, a = '\n') (hne : entries ≠ [])
    (hsound : EntriesSound entries) (hallows : AllowsGap q gap entries)
    (hchars : ∀ a ∈ pre ++ rows q gap entries, isAdmitted a = true) :
    ∃ tokens, Tokens.ofText (pre ++ rows q gap entries) =
        ⟨⟨.streamStart, .start, .start⟩ :: tokens, true⟩ ∧
      tokens.map Token.kind =
        .blockMappingStart :: entryKinds q entries ++ [.blockEnd, .streamEnd] := by
  obtain ⟨entry, entries, rfl⟩ := List.exists_cons_of_ne_nil hne
  obtain ⟨row, hrow⟩ : ∃ first, first = closeLine (Tree.row q gap entry) := ⟨_, rfl⟩
  have htext :
      pre ++ rows q gap (entry :: entries) = pre ++ gap ++ (row ++ rows q gap entries) := by
    simp [rows, hrow]
  have hstarts : Starts (row ++ rows q gap entries) := by
    rw [hrow, closeLine_eq, List.append_assoc]
    exact (starts_spellEntry q gap hsound.1 0 _ _).2 _
  rw [htext] at hchars ⊢
  obtain ⟨text, hall⟩ : ∃ text, text = pre ++ gap ++ (row ++ rows q gap entries) := ⟨_, rfl⟩
  rw [← hall] at hchars ⊢
  -- over the comments to the first entry
  obtain ⟨m, hm, harrive⟩ := exists_arrive_preamble (hpre.append_lines hgap) hstarts
  rw [← hall] at harrive
  -- over the entries to the end of the text
  have hopen : Opens .blockMappingStart m (-1) [] [-1] [⟨.blockMappingStart, m, m⟩] :=
    .fresh (-1) [] (by omega)
  obtain ⟨toks, m', hkinds, hm', hleads⟩ :=
    leads_rows hgap (b := text.length) (n := 0) entry entries (-1) []
      [⟨.blockMappingStart, m, m⟩] [⟨.streamStart, .start, .start⟩] m hsound hallows hm hopen (by
        rw [← hrow, hall]
        simp only [List.length_append]
        omega)
  rw [← hrow] at hleads
  obtain ⟨before, hbefore⟩ : ∃ before : List Token, before = [⟨.streamStart, .start, .start⟩] ++
      [⟨.blockMappingStart, m, m⟩] ++ toks := ⟨_, rfl⟩
  rw [← hbefore] at hleads
  have hend := advance_end text.length before hm'
  have hkept : ∀ x ∈ before, x.kind ≠ .streamEnd := by
    intro x hx
    rw [hbefore] at hx
    simp only [List.mem_append, List.mem_singleton] at hx
    rcases hx with (rfl | rfl) | hx
    · simp
    · simp
    · exact entryKinds_ne_streamEnd q _ _ (hkinds ▸ List.mem_map_of_mem hx)
  have hfree : Free 1 (Scanner.start text) := by
    refine ⟨Nat.le_refl 1, fun key hkey k hk => ?_⟩
    rw [List.mem_singleton.1 hkey] at hk
    cases hk
  have hrun :=
    Tokens.ofScanner_of_leads hleads hend rfl rfl (by simp) rfl rfl hkept (text.length + 1) 1
    (Scanner.start text) harrive hfree (by
      rw [hall]
      simp only [List.length_append]
      omega)
  refine ⟨[⟨.blockMappingStart, m, m⟩] ++ toks ++ [⟨.blockEnd, m', m'⟩, ⟨.streamEnd, m', m'⟩],
    ?_, ?_⟩
  · have hhand : (Scanner.start text).handOver =
        ([⟨.streamStart, .start, .start⟩], (Scanner.start text).detach 1) := rfl
    rw [Tokens.ofText, if_pos (List.all_eq_true.2 hchars), hhand]
    dsimp only
    rw [hrun, Tokens.prepend, hbefore]
    simp
  · simp [hkinds]

end LockPrune.Yaml
