import LockPrune.Proofs.Lockfile.LineScan
import LockPrune.Proofs.Text.Lines
import LockPrune.Proofs.Yaml.Spelling
import Mathlib.Data.List.TakeWhile

/-!
# The lines of a document in the layout of a lockfile

The layout goes over a document line by line.  Here a line is put together from its parts,
and what is written for whole lines is put together from what is written for each.

## Main definitions

* `applyFrom` — what is written for a document, from a state.
* `Runs` — what is written for whole lines, whatever follows.
* `Begun` — the layout is inside a line, between two parts of it.

## Main statements

* `Begun.append`, `Begun.endLine` — a line goes on, and it ends.
* `runs_block` — the lines of a block scalar are left as they are.
* `opensBlock_append` — the last word of a line decides whether it opens a block.
-/

namespace LockPrune.Layout

open Yaml Yaml.Scalar

/-! ## Whole lines -/

/-- What is written for a document, from a state. -/
def applyFrom (s : State) (t : List Char) : List Char :=
  (writesFrom s (Text.lines t)).flatten

theorem apply_eq (t : List Char) : apply t = applyFrom .start t := rfl

theorem applyFrom_line {x : List Char} (hx : '\n' ∉ x) (hr : '\r' ∉ x) (s : State)
    (t : List Char) :
    applyFrom s (x ++ '\n' :: t) = (line s x).1.flatten ++ applyFrom (line s x).2 t := by
  rw [applyFrom, Text.lines_line hx hr, writesFrom, List.flatten_append, applyFrom]

/-- What is written for whole lines, whatever follows. -/
def Runs (s : State) (x out : List Char) (s' : State) : Prop :=
  ∀ t, applyFrom s (x ++ t) = out ++ applyFrom s' t

theorem Runs.nil (s : State) : Runs s [] [] s := fun _ => rfl

theorem Runs.trans {s s' s'' : State} {x y out out' : List Char} (h : Runs s x out s')
    (h' : Runs s' y out' s'') : Runs s (x ++ y) (out ++ out') s'' := by
  intro t
  rw [List.append_assoc, h, h', List.append_assoc]

theorem Runs.apply_eq {x out : List Char} {s : State} (h : Runs .start x out s) :
    apply x = out := by
  have h := h []
  have hnil : applyFrom s [] = [] := rfl
  rwa [List.append_nil, hnil, List.append_nil] at h

/-! ## Inside a line -/

/-- The empty line in front of a line that is not indented. -/
def lead (x : List Char) : List Char :=
  if isFlush x then ['\n'] else []

/-- The layout is inside a line, between two parts of it: what is written so far, and the
indentation. -/
structure Begun (s : State) (x out : List Char) (base : Nat) : Prop where
  solid : ∃ a ∈ x, a ≠ ' '
  indentation_eq : indentation x = base
  scans : ∃ o, out = lead x ++ o ∧ Scans .outside [] x o .outside
  outside : s.quote = .outside
  free : ∀ j, s.block = some j → base ≤ j

theorem indentation_append {x : List Char} (h : ∃ a ∈ x, a ≠ ' ') (y : List Char) :
    indentation (x ++ y) = indentation x := by
  obtain ⟨a, ha, hspace⟩ := h
  rw [indentation, indentation, List.takeWhile_append, if_neg]
  intro hlength
  have hself := (List.takeWhile_prefix (fun c => decide (c = ' '))).eq_of_length hlength
  exact hspace (by simpa using List.takeWhile_eq_self_iff.1 hself a ha)

theorem indentation_le_append (x y : List Char) : indentation x ≤ indentation (x ++ y) := by
  rw [indentation, indentation, List.takeWhile_append]
  split
  · rename_i h
    rw [List.length_append, h]
    omega
  · exact Nat.le_refl _

theorem lead_append {x : List Char} (h : x ≠ []) (y : List Char) : lead (x ++ y) = lead x := by
  cases x with
  | nil => exact absurd rfl h
  | cons => rfl

namespace Begun

variable {s : State} {x out : List Char} {base : Nat}

theorem ne_nil (h : Begun s x out base) : x ≠ [] := by
  obtain ⟨a, ha, -⟩ := h.solid
  exact List.ne_nil_of_mem ha

/-- A line goes on. -/
theorem append (h : Begun s x out base) {y o : List Char}
    (hy : Scans .outside x.reverse y o .outside) (hne : y ≠ [])
    (hpair : x.getLast? = some '\x27' → y.head? ≠ some '\x27') :
    Begun s (x ++ y) (out ++ o) base := by
  obtain ⟨o', rfl, hscans⟩ := h.scans
  refine ⟨?_, ?_, ⟨o' ++ o, ?_, ?_⟩, h.outside, h.free⟩
  · obtain ⟨a, ha, hspace⟩ := h.solid
    exact ⟨a, List.mem_append_left y ha, hspace⟩
  · rw [indentation_append h.solid, h.indentation_eq]
  · rw [lead_append h.ne_nil, List.append_assoc]
  · exact hscans.trans (by simpa using hy) hne hpair

/-- A line ends. -/
theorem endLine (h : Begun s x out base) (hline : '\n' ∉ x) (hreturn : '\r' ∉ x) :
    Runs s (x ++ ['\n']) (out ++ ['\n'])
      ⟨.outside, if opensBlock x then some base else none⟩ := by
  obtain ⟨o, rfl, hscans⟩ := h.scans
  have hstays : staysInBlock s x = false := by
    have hempty : x.isEmpty = false := by simpa using h.ne_nil
    rw [staysInBlock]
    cases hblock : s.block with
    | none => rfl
    | some j =>
      have := h.free j hblock
      simp only [hempty, Bool.false_or, decide_eq_false_iff_not, h.indentation_eq]
      omega
  have hline' : line s x = ((if isFlush x then [['\n']] else []) ++ [o, ['\n']],
      ⟨.outside, if opensBlock x then some base else none⟩) := by
    simp [line, hstays, h.outside, hscans.scan_eq, h.indentation_eq]
  intro t
  rw [List.append_assoc, List.singleton_append, applyFrom_line hline hreturn, hline', lead]
  cases isFlush x <;> simp

end Begun

/-- A part of a line that may stand at the place. -/
structure IsWord (y : List Char) : Prop where
  ne_nil : y ≠ []
  no_space : y.head? ≠ some ' '

/-- A word may stand behind a part of a line, which may be nothing but spaces, and it may be a
text between quotes. -/
structure Takes (s : State) (x out : List Char) (base : Nat) : Prop where
  begins : mayBegin x.reverse = true
  append : ∀ y o, IsWord y → Scans .outside x.reverse y o .outside →
    Begun s (x ++ y) (out ++ o) base

theorem Begun.takes {s : State} {x out : List Char} {base : Nat} (h : Begun s x out base)
    {c : Char} (hlast : x.getLast? = some c) (hc : c = ':' ∨ c = '-' ∨ c = '?') :
    Takes s (x ++ [' ']) (out ++ [' ']) base := by
  obtain ⟨z, rfl⟩ : ∃ z, x = z ++ [c] := by
    rw [List.getLast?_eq_some_iff] at hlast
    exact hlast
  have hspace : Scans .outside (z ++ [c]).reverse [' '] [' '] .outside :=
    scans_of_not_opensQuote (opensQuote_eq_false (by simp) _)
  have h' := h.append hspace (by simp) (by
    rw [List.getLast?_concat]
    rcases hc with rfl | rfl | rfl <;> simp)
  refine ⟨?_, fun y o hy hscans => ?_⟩
  · rw [mayBegin_iff]
    exact .inr ⟨c, z.reverse, by simp, hc⟩
  · exact h'.append hscans hy.ne_nil (by simp)

/-- The spaces in front of a line, and the empty line above it if there are none. -/
def margin (n : Nat) : List Char :=
  if n = 0 then ['\n'] else spaces n

theorem indentation_spaces (n : Nat) {y : List Char} (hy : y.head? ≠ some ' ') :
    indentation (spaces n ++ y) = n := by
  induction n with
  | zero =>
    cases y with
    | nil => rfl
    | cons c y =>
      have hc : c ≠ ' ' := by simpa using hy
      simp [indentation, spaces, hc]
  | succ n ih =>
    have hcons : spaces (n + 1) = ' ' :: spaces n := rfl
    rw [indentation] at ih ⊢
    rw [hcons, List.cons_append, List.takeWhile_cons_of_pos (by simp), List.length_cons, ih]

/-- A line begins at an indentation. -/
theorem takes_spaces {b : Option Nat} {n : Nat} (hfree : ∀ j, b = some j → n ≤ j) :
    Takes ⟨.outside, b⟩ (spaces n) (margin n) n := by
  have hblank : ∀ k, opensQuote [] (spaces k) = false := fun k =>
    opensQuote_eq_false (by simp [spaces]) []
  refine ⟨?_, fun y o hy hscans => ?_⟩
  · rw [mayBegin_iff]
    left
    simp [spaces, Text.isBlank]
  obtain ⟨a, z, rfl⟩ := List.exists_cons_of_ne_nil hy.ne_nil
  have ha : a ≠ ' ' := by simpa using hy.no_space
  refine ⟨⟨a, by simp, ha⟩, indentation_spaces n hy.no_space, ⟨spaces n ++ o, ?_, ?_⟩, rfl, hfree⟩
  · cases n with
    | zero => simp [margin, lead, isFlush, spaces, ha]
    | succ n => simp [margin, lead, isFlush, spaces, List.replicate_succ]
  · have hspaces : Scans .outside [] (spaces n) (spaces n) .outside :=
      scans_of_not_opensQuote (hblank n)
    refine hspaces.trans (by simpa using hscans) (by simp) ?_
    intro hlast
    have hmem := List.mem_of_getLast? hlast
    simp [spaces] at hmem

/-! ## The end of a line -/

theorem opensBlock_iff {x : List Char} :
    opensBlock x = true ↔ ∃ m c t,
      (x.reverse.dropWhile Text.isBlank).dropWhile isHeaderChar = m :: ' ' :: c :: t ∧
        (m = '|' ∨ m = '>') ∧ (c = ':' ∨ c = '-') := by
  have hhead : Text.dropEndWhile isHeaderChar (Text.trimEnd x) =
      ((x.reverse.dropWhile Text.isBlank).dropWhile isHeaderChar).reverse := by
    simp [Text.dropEndWhile, Text.trimEnd]
  rw [opensBlock, hhead]
  generalize (x.reverse.dropWhile Text.isBlank).dropWhile isHeaderChar = r
  simp only [List.any_cons, List.any_nil, Bool.or_false, Bool.or_eq_true, List.isSuffixOf,
    List.reverse_reverse, List.isPrefixOf_iff_prefix]
  constructor
  · rintro (⟨t, rfl⟩ | ⟨t, rfl⟩ | ⟨t, rfl⟩ | ⟨t, rfl⟩)
    · exact ⟨'|', ':', t, rfl, .inl rfl, .inl rfl⟩
    · exact ⟨'>', ':', t, rfl, .inr rfl, .inl rfl⟩
    · exact ⟨'|', '-', t, rfl, .inl rfl, .inr rfl⟩
    · exact ⟨'>', '-', t, rfl, .inr rfl, .inr rfl⟩
  · rintro ⟨m, c, t, rfl, rfl | rfl, rfl | rfl⟩
    · exact .inl ⟨t, rfl⟩
    · exact .inr (.inr (.inl ⟨t, rfl⟩))
    · exact .inr (.inl ⟨t, rfl⟩)
    · exact .inr (.inr (.inr ⟨t, rfl⟩))

/-- A character that ends no line which opens a block. -/
def isPlainEnd (a : Char) : Bool :=
  !(Text.isBlank a || isHeaderChar a || a = '|' || a = '>')

theorem opensBlock_of_getLast? {x : List Char} {a : Char} (hlast : x.getLast? = some a)
    (ha : isPlainEnd a = true) : opensBlock x = false := by
  simp only [isPlainEnd, Bool.not_eq_true', Bool.or_eq_false_iff, decide_eq_false_iff_not] at ha
  obtain ⟨⟨⟨hblank, hheader⟩, hbar⟩, hangle⟩ := ha
  obtain ⟨z, rfl⟩ := List.getLast?_eq_some_iff.1 hlast
  rw [← Bool.not_eq_true, opensBlock_iff]
  rintro ⟨m, c, t, hr, hm, -⟩
  rw [List.reverse_append, List.reverse_singleton, List.singleton_append,
    List.dropWhile_cons_of_neg (by simp [hblank]),
    List.dropWhile_cons_of_neg (by simp [hheader]), List.cons.injEq] at hr
  rcases hm with rfl | rfl
  · exact hbar hr.1
  · exact hangle hr.1

/-- The mark of a block stands behind a space. -/
theorem opensBlock_of_no_space {x : List Char} (h : ' ' ∉ x) : opensBlock x = false := by
  rw [← Bool.not_eq_true, opensBlock_iff]
  rintro ⟨m, c, t, hr, -, -⟩
  have hmem : ' ' ∈ (x.reverse.dropWhile Text.isBlank).dropWhile isHeaderChar := by
    rw [hr]
    simp
  have hmem := (List.dropWhile_suffix _).subset hmem
  have hmem := (List.dropWhile_suffix _).subset hmem
  exact h (List.mem_reverse.1 hmem)

/-- A text that begins with a character which is neither blank nor the mark of a block. -/
def beginsSolid (w : List Char) : Bool :=
  w.head?.any fun a => !(Text.isBlank a || a = '|' || a = '>')

theorem dropWhile_append_of_mem {p : Char → Bool} {x : List Char} (h : ∃ a ∈ x, p a = false)
    (y : List Char) : (x ++ y).dropWhile p = x.dropWhile p ++ y := by
  induction x with
  | nil => simp at h
  | cons c x ih =>
    by_cases hc : p c = true
    · rw [List.cons_append, List.dropWhile_cons_of_pos hc, List.dropWhile_cons_of_pos hc, ih]
      obtain ⟨a, ha, hpa⟩ := h
      rcases List.mem_cons.1 ha with rfl | ha
      · rw [hc] at hpa
        cases hpa
      · exact ⟨a, ha, hpa⟩
    · rw [List.cons_append, List.dropWhile_cons_of_neg hc, List.dropWhile_cons_of_neg hc,
        List.cons_append]

/-- What is left of a text ends with its last character. -/
theorem exists_dropWhile_concat {p : Char → Bool} {z : List Char} {a : Char}
    (h : ∃ d ∈ z ++ [a], p d = false) : ∃ v, (z ++ [a]).dropWhile p = v ++ [a] := by
  obtain ⟨u, hu⟩ := List.dropWhile_suffix p (l := z ++ [a])
  have hne : (z ++ [a]).dropWhile p ≠ [] := by
    intro hnil
    obtain ⟨d, hd, hpd⟩ := h
    rw [List.dropWhile_eq_nil_iff.1 hnil d hd] at hpd
    cases hpd
  obtain ⟨v, b, hv⟩ := List.eq_nil_or_concat _ |>.resolve_left hne
  have hlast : (u ++ (z ++ [a]).dropWhile p).getLast? = (z ++ [a]).getLast? := by rw [hu]
  rw [hv, List.concat_eq_append, ← List.append_assoc, List.getLast?_concat, List.getLast?_concat,
    Option.some.injEq] at hlast
  exact ⟨v, by rw [hv, hlast, List.concat_eq_append]⟩

/-- The last word of a line decides whether the line opens a block. -/
theorem opensBlock_append {w : List Char} (hsolid : beginsSolid w = true)
    (hw : opensBlock w = false) (x : List Char) : opensBlock (x ++ ' ' :: w) = false := by
  match w, hsolid with
  | a :: w, hsolid =>
    simp only [beginsSolid, List.head?_cons, Option.any_some, Bool.not_eq_true',
      Bool.or_eq_false_iff, decide_eq_false_iff_not] at hsolid
    obtain ⟨⟨hblank, hbar⟩, hangle⟩ := hsolid
    rw [← Bool.not_eq_true, opensBlock_iff] at hw ⊢
    rintro ⟨m, c, t, hr, hm, hc⟩
    refine hw ?_
    have htrim : (x ++ ' ' :: (a :: w)).reverse.dropWhile Text.isBlank =
        (a :: w).reverse.dropWhile Text.isBlank ++ ' ' :: x.reverse := by
      rw [List.reverse_append, List.reverse_cons (a := ' '), List.append_assoc,
        List.singleton_append, dropWhile_append_of_mem ⟨a, by simp, hblank⟩]
    have hends : ∃ z, (a :: w).reverse.dropWhile Text.isBlank = z ++ [a] := by
      rw [List.reverse_cons]
      exact exists_dropWhile_concat ⟨a, by simp, hblank⟩
    obtain ⟨z, hz⟩ := hends
    rw [htrim, hz] at hr
    rw [hz]
    by_cases hhead : ∃ d ∈ z ++ [a], isHeaderChar d = false
    · -- the word does not end with the header of a block
      rw [dropWhile_append_of_mem hhead] at hr
      obtain ⟨v, hv⟩ := exists_dropWhile_concat hhead
      rw [hv] at hr ⊢
      match v, hr with
      | [], hr =>
        simp only [List.nil_append, List.cons_append, List.cons.injEq] at hr
        rcases hm with rfl | rfl
        · exact absurd hr.1 hbar
        · exact absurd hr.1 hangle
      | [_], hr =>
        simp only [List.cons_append, List.nil_append, List.cons.injEq] at hr
        rw [hr.2.1] at hblank
        exact absurd hblank (by decide)
      | [_, _], hr =>
        simp only [List.cons_append, List.nil_append, List.cons.injEq] at hr
        obtain ⟨rfl, rfl, rfl, -⟩ := hr
        exact ⟨_, _, [], rfl, hm, hc⟩
      | _ :: _ :: _ :: v, hr =>
        simp only [List.cons_append, List.cons.injEq] at hr
        obtain ⟨rfl, rfl, rfl, -⟩ := hr
        exact ⟨_, _, v ++ [a], rfl, hm, hc⟩
    · -- nothing but the space is left in front of the header
      have hall : ∀ d ∈ z ++ [a], isHeaderChar d = true := by
        intro d hd
        by_contra hne
        exact hhead ⟨d, hd, by simpa using hne⟩
      rw [List.dropWhile_append_of_pos hall, List.dropWhile_cons_of_neg (by decide),
        List.cons.injEq] at hr
      rcases hm with rfl | rfl
      · exact absurd hr.1 (by decide)
      · exact absurd hr.1 (by decide)

/-! ## Block scalars -/

theorem header_chars (s : List Char) :
    ∃ r, literalHeader s = '|' :: r ∧ ∀ a ∈ r, isHeaderChar a = true ∧ Text.isBlank a = false ∧
      a ≠ '\x27' ∧ a ≠ '"' ∧ a ≠ '\n' ∧ a ≠ '\r' := by
  refine ⟨_, rfl, ?_⟩
  intro a ha
  rcases List.mem_append.1 ha with ha | ha
  · split at ha
    · rw [List.mem_singleton.1 ha]
      decide
    · cases ha
  · split at ha
    · rw [List.mem_singleton.1 ha]
      decide
    · split at ha
      · rw [List.mem_singleton.1 ha]
        decide
      · cases ha

/-- The header of a block behind a colon or a dash opens the block. -/
theorem opensBlock_header {x : List Char} {c : Char} (hlast : x.getLast? = some c)
    (hc : c = ':' ∨ c = '-') (s : List Char) : opensBlock (x ++ ' ' :: literalHeader s) = true := by
  obtain ⟨z, rfl⟩ := List.getLast?_eq_some_iff.1 hlast
  obtain ⟨r, hr, hchars⟩ := header_chars s
  rw [opensBlock_iff]
  refine ⟨'|', c, z.reverse, ?_, .inl rfl, hc⟩
  have htrim : ('|' :: r).reverse.dropWhile Text.isBlank = ('|' :: r).reverse := by
    have hall : ∀ a ∈ ('|' :: r).reverse, Text.isBlank a = false := by
      intro a ha
      rcases List.mem_cons.1 (List.mem_reverse.1 ha) with rfl | ha
      · decide
      · exact (hchars a ha).2.1
    cases h : ('|' :: r).reverse with
    | nil => rfl
    | cons a y =>
      rw [List.dropWhile_cons_of_neg]
      simp [hall a (h ▸ List.mem_cons_self)]
  rw [hr, List.reverse_append, List.reverse_cons (a := ' '), List.append_assoc,
    dropWhile_append_of_mem ⟨'|', by simp, by decide⟩, htrim, List.reverse_cons,
    List.append_assoc, List.dropWhile_append_of_pos fun a ha =>
      (hchars a (List.mem_reverse.1 ha)).1]
  simp [isHeaderChar, Char.isDigit]

theorem runs_inside {q : Quote} {j : Nat} {x : List Char} (hx : '\n' ∉ x) (hr : '\r' ∉ x)
    (h : x = [] ∨ j < indentation x) :
    Runs ⟨q, some j⟩ (x ++ ['\n']) (x ++ ['\n']) ⟨q, some j⟩ := by
  have hstays : staysInBlock ⟨q, some j⟩ x = true := by
    rcases h with rfl | h
    · rfl
    · simp [staysInBlock, h]
  intro t
  rw [List.append_assoc, List.singleton_append, applyFrom_line hx hr, line, if_pos hstays]
  simp

/-- The lines of a block scalar are left as they are. -/
theorem runs_block {j indent : Nat} (hj : j < indent) {s : List Char}
    (hs : ∀ a ∈ s, isBreak a = true → a = '\n') :
    ∀ (fresh : Bool) (x : List Char), (fresh = true → x = []) →
      (fresh = false → j < indentation x) → '\n' ∉ x → '\r' ∉ x →
      (fresh = true ∧ s = []) ∨ s.getLast? = some '\n' →
      Runs ⟨.outside, some j⟩ (x ++ writeLines indent fresh s) (x ++ writeLines indent fresh s)
        ⟨.outside, some j⟩ := by
  induction s with
  | nil =>
    intro fresh x hfresh _ _ _ hend
    obtain ⟨rfl, -⟩ : fresh = true ∧ ([] : List Char) = [] := by simpa using hend
    rw [hfresh rfl]
    exact .nil _
  | cons c s ih =>
    intro fresh x hfresh hindent hx hr hend
    have hs' : ∀ a ∈ s, isBreak a = true → a = '\n' := fun a ha => hs a (List.mem_cons_of_mem c ha)
    have hend' : s = [] ∨ s.getLast? = some '\n' := by
      cases s with
      | nil => exact .inl rfl
      | cons d s => exact .inr (by simpa using hend)
    by_cases hc : isBreak c = true
    · -- the end of a line
      obtain rfl := hs c List.mem_cons_self hc
      have hline : x = [] ∨ j < indentation x := by
        cases fresh with
        | true => exact .inl (hfresh rfl)
        | false => exact .inr (hindent rfl)
      have hrest := ih hs' true [] (by simp) (by simp) (by simp) (by simp)
        (hend'.imp_left fun h => ⟨rfl, h⟩)
      have hrun := (runs_inside (q := .outside) hx hr hline).trans hrest
      simpa [writeLines, hc] using hrun
    · -- a character of a line
      have hne : c ≠ '\n' ∧ c ≠ '\r' := by
        constructor <;>
        · rintro rfl
          exact hc (by decide)
      have hlast : s ≠ [] := by
        rintro rfl
        simp [hne.1] at hend
      have hend'' : s.getLast? = some '\n' := hend'.resolve_left hlast
      have hrest : ∀ y, j < indentation (x ++ y) → '\n' ∉ y → '\r' ∉ y →
          Runs ⟨.outside, some j⟩ (x ++ (y ++ c :: writeLines indent false s))
            (x ++ (y ++ c :: writeLines indent false s)) ⟨.outside, some j⟩ := by
        intro y hy hline hreturn
        have hgrown := Nat.lt_of_lt_of_le hy (indentation_le_append (x ++ y) [c])
        have hrun := ih hs' false (x ++ y ++ [c]) (by simp) (fun _ => hgrown)
          (by simp [hx, hline, Ne.symm hne.1]) (by simp [hr, hreturn, Ne.symm hne.2]) (.inr hend'')
        simpa using hrun
      rw [writeLines, if_neg hc]
      cases fresh with
      | true =>
        have hspaces : indentation (spaces indent) = indent := by
          simpa using indentation_spaces indent (y := []) (by simp)
        rw [if_pos rfl]
        refine hrest _ ?_ (by simp [spaces]) (by simp [spaces])
        rwa [hfresh rfl, List.nil_append, hspaces]
      | false => exact hrest [] (by simpa using hindent rfl) (by simp) (by simp)

/-- A block scalar behind its header. -/
theorem runs_writeLines {j indent : Nat} (hj : j < indent) {s : List Char}
    (hs : ∀ a ∈ s, isBreak a = true → a = '\n') :
    Runs ⟨.outside, some j⟩ (writeLines indent true s ++ lineEnd s)
      (writeLines indent true s ++ lineEnd s) ⟨.outside, some j⟩ := by
  have hbreak : ∀ a ∈ lineEnd s, a = '\n' := by
    intro a ha
    rw [lineEnd] at ha
    split at ha
    · cases ha
    · exact List.mem_singleton.1 ha
  have hend : (s ++ lineEnd s).getLast? = some '\n' := by
    rw [lineEnd, endsWith]
    split
    · rename_i hlast
      cases hs' : s.getLast? with
      | none => simp [hs'] at hlast
      | some a =>
        rw [hs', Option.any_some] at hlast
        rw [List.append_nil, hs', hs a (List.mem_of_getLast? hs') hlast]
    · simp
  rw [← writeLines_append_breaks indent (fun a ha => by rw [hbreak a ha]; decide)]
  refine runs_block hj (fun a ha hab => ?_) true [] (by simp) (by simp) (by simp) (by simp)
    (.inr hend)
  rcases List.mem_append.1 ha with ha | ha
  · exact hs a ha hab
  · exact hbreak a ha

end LockPrune.Layout
