import LockPrune.Proofs.Yaml.TreeTokens

/-!
# Hanging lines

A node is written on one line or on several, of which all but the first are indented or empty,
whatever the node holds.  The one exception are texts with an end of line other than the line feed,
which is not indented as a line feed would be.

## Main definitions

* `IsEven` — every end of line in a text is a line feed.
* `Hangs` — all lines of a text but the first are indented or empty.
* `Tree.sections` — the lines of an entry of the root, up to the next line at the left.

## Main statements

* `Tree.hangs_spell` — the lines of a node hang.
* `Tree.hangs_of_mem_sections` — an entry of the root begins at the left once, or twice if its key
  is written out.
-/

namespace LockPrune.Yaml

open Scalar

variable {s t x y : List Char} {n : Nat}

/-! ## Texts -/

/-- Every end of line is a line feed. -/
def IsEven (t : List Char) : Prop :=
  ∀ a ∈ t, isBreak a = true → a = '\n'

instance (t : List Char) : Decidable (IsEven t) :=
  decidable_of_iff ((t.all fun a => !isBreak a || a = '\n') = true) <| by
    simp [IsEven, or_iff_not_imp_left]

theorem IsEven.of_subset (h : IsEven t) (hs : s ⊆ t) : IsEven s :=
  fun a ha => h a (hs ha)

/-- What follows a line feed is indented, or an empty line, or nothing. -/
def IsIndented (t : List Char) : Prop :=
  ∀ a, t.head? = some a → a = ' ' ∨ a = '\n'

/-- All lines but the first are indented or empty. -/
def Hangs : List Char → Prop
  | [] => True
  | c :: t => (c = '\n' → IsIndented t) ∧ Hangs t

theorem hangs_of_not_mem (h : '\n' ∉ t) : Hangs t := by
  induction t with
  | nil => trivial
  | cons c t ih =>
    rw [List.mem_cons, not_or] at h
    exact ⟨fun hc => absurd hc.symm h.1, ih h.2⟩

theorem Hangs.append (hx : Hangs x) (hy : Hangs y)
    (h : x.getLast? = some '\n' → IsIndented y) : Hangs (x ++ y) := by
  induction x with
  | nil => exact hy
  | cons c x ih =>
    cases x with
    | nil => exact ⟨fun hc => h (by rw [hc]; rfl), hy⟩
    | cons d x => exact ⟨hx.1, ih hx.2 (by simpa using h)⟩

/-- What is put in front of the first line does not matter. -/
theorem Hangs.behind (hy : Hangs y) (hx : '\n' ∉ x) : Hangs (x ++ y) :=
  (hangs_of_not_mem hx).append hy fun h => absurd (List.mem_of_getLast? h) hx

theorem Hangs.cons (h : Hangs t) {c : Char} (hc : c ≠ '\n') : Hangs (c :: t) :=
  ⟨fun h => absurd h hc, h⟩

theorem not_mem_spaces (n : Nat) : '\n' ∉ spaces n := by
  simp [spaces]

theorem isIndented_spaces (hn : 0 < n) (t : List Char) : IsIndented (spaces n ++ t) := by
  obtain ⟨m, rfl⟩ := Nat.exists_eq_succ_of_ne_zero (Nat.ne_of_gt hn)
  intro a ha
  exact .inl (Option.some.inj ha).symm

/-- A line goes on at an indentation. -/
theorem Hangs.indent (hx : Hangs x) (hy : Hangs y) (hn : 0 < n) : Hangs (x ++ spaces n ++ y) := by
  rw [List.append_assoc]
  exact hx.append (hy.behind (not_mem_spaces n)) fun _ => isIndented_spaces hn y

theorem Hangs.closeLine (h : Hangs t) : Hangs (Tree.closeLine t) := by
  rw [Tree.closeLine]
  split
  · exact h
  · exact h.append ⟨by simp [IsIndented], trivial⟩ fun _ a ha => .inr (Option.some.inj ha).symm

/-! ## Scalars -/

theorem subset_writeLines (n : Nat) (fresh : Bool) (s : List Char) :
    s ⊆ writeLines n fresh s := by
  induction s generalizing fresh with
  | nil => simp
  | cons c s ih =>
    have hrest := fun fresh => List.Subset.trans (ih fresh) (List.subset_cons_self c _)
    rw [writeLines]
    split
    · exact List.cons_subset.2 ⟨List.mem_cons_self, hrest true⟩
    · exact List.Subset.trans (List.cons_subset.2 ⟨List.mem_cons_self, hrest false⟩)
        (List.subset_append_right _ _)

/-- The lines of a block are indented, from the first on if it begins one. -/
theorem hangs_writeLines (hn : 0 < n) (hs : IsEven s) (fresh : Bool) :
    Hangs (writeLines n fresh s) ∧ (fresh = true → IsIndented (writeLines n fresh s)) := by
  induction s generalizing fresh with
  | nil => exact ⟨by simp [writeLines, Hangs], by simp [writeLines, IsIndented]⟩
  | cons c s ih =>
    have hrest := ih (hs.of_subset (List.subset_cons_self c s))
    rw [writeLines]
    split
    · rename_i hbreak
      obtain rfl := hs c List.mem_cons_self hbreak
      exact ⟨⟨fun _ => (hrest true).2 rfl, (hrest true).1⟩,
        fun _ a ha => .inr (Option.some.inj ha).symm⟩
    · rename_i hbreak
      have hc : c ≠ '\n' := by
        rintro rfl
        exact hbreak (by decide)
      have hline := (hrest false).1.cons hc
      cases fresh with
      | true => exact ⟨hline.behind (not_mem_spaces n), fun _ => isIndented_spaces hn _⟩
      | false => exact ⟨hline, by simp⟩

theorem subset_writeSingle (n : Nat) (fresh : Bool) (s : List Char) :
    s ⊆ writeSingle n fresh s := by
  induction s generalizing fresh with
  | nil => simp
  | cons c s ih =>
    intro a ha
    rw [writeSingle]
    rcases List.mem_cons.1 ha with rfl | ha
    · split
      · simp
      · by_cases hquote : a = '\x27' <;> simp [hquote]
    · split
      · simp [ih true ha]
      · simp [ih false ha]

/-- The lines of a text between single quotes are indented. -/
theorem hangs_writeSingle (hn : 0 < n) (hs : IsEven s) (fresh : Bool) :
    Hangs (writeSingle n fresh s ++ ['\x27']) ∧
      (fresh = true → IsIndented (writeSingle n fresh s ++ ['\x27'])) := by
  have hquote : Hangs ['\x27'] := hangs_of_not_mem (by decide)
  induction s generalizing fresh with
  | nil =>
    cases fresh with
    | true => exact ⟨hquote.behind (not_mem_spaces n), fun _ => isIndented_spaces hn _⟩
    | false => exact ⟨hquote, by simp⟩
  | cons c s ih =>
    have hrest := ih (hs.of_subset (List.subset_cons_self c s))
    rw [writeSingle]
    split
    · rename_i hbreak
      obtain rfl := hs c List.mem_cons_self hbreak
      have hline : Hangs ('\n' :: (writeSingle n true s ++ ['\x27'])) :=
        ⟨fun _ => (hrest true).2 rfl, (hrest true).1⟩
      have hindented : ∀ u, IsIndented ('\n' :: u) := fun u a ha => .inr (Option.some.inj ha).symm
      cases fresh with
      | true => exact ⟨hline, fun _ => hindented _⟩
      | false => exact ⟨⟨fun _ => hindented _, hline⟩, by simp⟩
    · rename_i hbreak
      have hc : '\n' ∉ (if c = '\x27' then ['\x27', '\x27'] else [c]) := by
        split
        · decide
        · rw [List.mem_singleton]
          rintro rfl
          exact hbreak (by decide)
      have hline := (hrest false).1.behind hc
      rw [List.append_assoc, List.append_assoc]
      cases fresh with
      | true => exact ⟨hline.behind (not_mem_spaces n), fun _ => isIndented_spaces hn _⟩
      | false => exact ⟨hline, by simp⟩

/-- A text that stands without quotes has no ends of line. -/
theorem lineFeed_not_mem_plain (h : plainAdmitted s = true) : '\n' ∉ s := by
  intro hmem
  have hbreak : s.any isBreak = true := List.any_eq_true.2 ⟨_, hmem, by decide⟩
  simp [plainAdmitted, hbreak] at h

theorem plainAdmitted_of_admitted {style : Style} {isKey : Bool}
    (h : admitted style isKey s = .plain) : plainAdmitted s = true := by
  have hquotes : (if singleAdmitted s = true then Style.single else Style.double) ≠ .plain := by
    split <;> simp
  cases style with
  | plain =>
    simp only [admitted] at h
    split at h
    · rename_i hplain
      rw [Bool.and_eq_true] at hplain
      exact hplain.1
    · exact absurd h hquotes
  | single => exact absurd h hquotes
  | double => cases h
  | literal => exact absurd h (by simp only [admitted]; split <;> simp)
  | folded => exact absurd h (by simp only [admitted]; split <;> simp)

theorem lineFeed_not_mem_header (s : List Char) : '\n' ∉ literalHeader s := by
  rw [literalHeader]
  split <;> split <;> try split
  all_goals decide

/-- The lines of a scalar hang. -/
theorem hangs_write (hn : 0 < n) {style : Style} {isKey : Bool}
    (h : IsEven (write (admitted style isKey s) n s)) :
    Hangs (write (admitted style isKey s) n s) := by
  have hblock : IsEven (literalHeader s ++ '\n' :: writeLines n true s) →
      Hangs (literalHeader s ++ '\n' :: writeLines n true s) := by
    intro heven
    have hs : IsEven s := heven.of_subset fun a ha => by simp [subset_writeLines n true s ha]
    refine Hangs.behind ⟨fun _ => ?_, (hangs_writeLines hn hs true).1⟩ (lineFeed_not_mem_header s)
    exact (hangs_writeLines hn hs true).2 rfl
  generalize hst : admitted style isKey s = st at h ⊢
  cases st with
  | plain => exact hangs_of_not_mem (lineFeed_not_mem_plain (plainAdmitted_of_admitted hst))
  | single =>
    have hs : IsEven s := h.of_subset fun a ha => by simp [write, subset_writeSingle n false s ha]
    exact (hangs_writeSingle hn hs false).1.cons (by decide)
  | double =>
    refine hangs_of_not_mem ?_
    have htext := lineFeed_not_mem_double s
    simp [write, htext]
  | literal => exact hblock h
  | folded => exact hblock h

/-! ## Nodes -/

namespace Tree

theorem lineFeed_not_mem_tagText (tag : String) : '\n' ∉ tagText tag :=
  fun hmem => absurd ((tagText_line tag).1 _ hmem) (by decide)

theorem hangs_withTag (h : Hangs s) (tag : Option String) : Hangs (withTag tag s) := by
  cases tag with
  | none => exact h
  | some t =>
    refine Hangs.behind ?_ (lineFeed_not_mem_tagText t)
    split
    · trivial
    · exact h.cons (by decide)

theorem subset_withTag (tag : Option String) (s : List Char) : s ⊆ withTag tag s := by
  cases tag with
  | none => exact List.Subset.refl s
  | some t =>
    intro a ha
    have hne : s.isEmpty = false := List.isEmpty_eq_false_iff.2 (List.ne_nil_of_mem ha)
    simp [withTag, hne, ha]

theorem subset_spaced (s : List Char) : s ⊆ spaced s := by
  intro a ha
  have hne : s.isEmpty = false := List.isEmpty_eq_false_iff.2 (List.ne_nil_of_mem ha)
  simp [spaced, hne, ha]

theorem hangs_spaced (h : Hangs s) : Hangs (spaced s) := by
  rw [spaced]
  split
  · trivial
  · exact h.cons (by decide)

/-- The lines of a collection hang if those of its parts do. -/
theorem hangs_stack (hn : 0 < n) {parts : List (List Char)} (h : ∀ r ∈ parts, Hangs r) :
    Hangs (stack n parts) := by
  match parts, h with
  | [], _ => trivial
  | [r], h => exact h r List.mem_cons_self
  | r :: r' :: rest, h =>
    have hrest := hangs_stack hn fun u hu => h u (List.mem_cons_of_mem r hu)
    exact (h r List.mem_cons_self).closeLine.indent hrest hn

theorem subset_stack {parts : List (List Char)} {r : List Char} (hr : r ∈ parts) (n : Nat) :
    r ⊆ stack n parts := by
  match parts, hr with
  | [r'], hr =>
    rw [List.mem_singleton.1 hr]
    exact List.Subset.refl r'
  | r' :: r'' :: rest, hr =>
    rw [stack_cons (List.cons_ne_nil r'' rest)]
    rcases List.mem_cons.1 hr with rfl | hr
    · intro a ha
      simp [closeLine_eq, ha]
    · exact List.Subset.trans (subset_stack hr n) (List.subset_append_right _ _)

theorem hangs_place (h : Hangs s) (hn : 0 < n) (after : Behind) (tag : Option String) :
    Hangs (place after tag n s) := by
  have hline : Hangs ('\n' :: spaces n ++ s) :=
    ⟨fun _ => isIndented_spaces hn s, h.behind (not_mem_spaces n)⟩
  cases tag with
  | none =>
    cases after with
    | key => exact hline
    | dash => exact h.cons (by decide)
    | mark => exact h.cons (by decide)
  | some t =>
    have htag : Hangs (' ' :: tagText t ++ '\n' :: spaces n ++ s) := by
      have hmem : '\n' ∉ ' ' :: tagText t := by
        simpa using lineFeed_not_mem_tagText t
      simpa using hline.behind hmem
    cases after <;> exact htag

theorem hangs_spellParts {after : Behind} {tag : Option String} {brackets : List Char}
    {parts : List (List Char)} (hn : 0 < n) (hb : '\n' ∉ brackets)
    (heven : IsEven (spellParts after tag n brackets parts))
    (h : ∀ r ∈ parts, IsEven r → Hangs r) : Hangs (spellParts after tag n brackets parts) := by
  rw [spellParts] at heven ⊢
  split
  · exact hangs_spaced (hangs_withTag (hangs_of_not_mem hb) tag)
  · rename_i hparts
    rw [if_neg hparts] at heven
    refine hangs_place (hangs_stack hn fun r hr => h r hr (heven.of_subset ?_)) hn after tag
    obtain ⟨pre, hpre⟩ := exists_place after tag n
    rw [hpre]
    exact List.Subset.trans (subset_stack hr n) (List.subset_append_right _ _)

theorem hangs_spellEntry {k : Tree} {writtenOut value : List Char} (hn : 0 < n)
    (heven : IsEven (spellEntry .single [] k n writtenOut value))
    (hkey : IsEven writtenOut → Hangs writtenOut) (hvalue : IsEven value → Hangs value) :
    Hangs (spellEntry .single [] k n writtenOut value) := by
  rw [spellEntry] at heven ⊢
  split
  · rename_i hsimple
    rw [if_pos hsimple] at heven
    have hline : '\n' ∉ spellKey .single k := fun hmem =>
      absurd ((spellKey_line .single hsimple).1 _ hmem) (by decide)
    refine Hangs.behind (Hangs.cons (hvalue (heven.of_subset ?_)) (by decide)) hline
    exact fun a ha => by simp [ha]
  · rename_i hsimple
    rw [if_neg hsimple] at heven
    have hfirst := (hkey (heven.of_subset fun a ha => by simp [closeLine_eq, ha])).cons
      (c := '?') (by decide)
    have hsecond := (hvalue (heven.of_subset fun a ha => by simp [ha])).cons (c := ':') (by decide)
    rw [List.append_nil]
    exact hfirst.closeLine.indent hsecond hn

mutual

/-- All lines of a node but the first are indented or empty. -/
theorem hangs_spell (t : Tree) (after : Behind) (n : Nat)
    (hflat : 0 < n ∨ ∀ tag items, t ≠ .sequence tag items)
    (heven : IsEven (spell .single after n t)) : Hangs (spell .single after n t) := by
  match t with
  | .scalar tag style text =>
    rw [spell, spellScalar_single, scalarText] at heven ⊢
    have hwrite := heven.of_subset (List.Subset.trans (subset_withTag tag _) (subset_spaced _))
    exact hangs_spaced (hangs_withTag (hangs_write (Nat.succ_pos _) hwrite) tag)
  | .sequence tag items =>
    have hn : 0 < n := hflat.resolve_right fun h => h tag items rfl
    have hinner : 0 < itemIndent after tag.isSome n := by
      rw [itemIndent_eq]
      split <;> omega
    exact hangs_spellParts hinner (by decide) heven
      (hangs_spellItems items (itemIndent after tag.isSome n) hinner)
  | .mapping tag entries =>
    exact hangs_spellParts (by omega) (by decide) heven
      (hangs_spellEntries entries (n + 2) (by omega))
termination_by structural t

theorem hangs_spellItems (items : List Tree) (n : Nat) (hn : 0 < n) :
    ∀ r ∈ spellItems .single n items, IsEven r → Hangs r := by
  match items with
  | [] => exact fun r hr => absurd hr List.not_mem_nil
  | item :: items =>
    rw [spellItems, List.forall_mem_cons]
    refine ⟨fun heven => ?_, hangs_spellItems items n hn⟩
    exact (hangs_spell item .dash n (.inl hn) (heven.of_subset (List.subset_cons_self _ _))).cons
      (by decide)
termination_by structural items

theorem hangs_spellEntries (entries : List (Tree × Tree)) (n : Nat) (hn : 0 < n) :
    ∀ r ∈ spellEntries .single n entries, IsEven r → Hangs r := by
  match entries with
  | [] => exact fun r hr => absurd hr List.not_mem_nil
  | (k, v) :: entries =>
    rw [spellEntries, List.forall_mem_cons]
    refine ⟨fun heven => ?_, hangs_spellEntries entries n hn⟩
    exact hangs_spellEntry hn heven (hangs_spell k .mark n (.inl hn))
      (hangs_spell v (keyMark k) n (.inl hn))
termination_by structural entries

end

/-! ## Entries of the root -/

/-- The texts of an entry of the root that begin at the left: one, or two if the key is written
out. -/
def sections (entry : Tree × Tree) : List (List Char) :=
  if entry.1.isSimpleKey then [spellKey .single entry.1 ++ ':' :: spell .single .key 0 entry.2]
  else ['?' :: spell .single .mark 0 entry.1, ':' :: spell .single .mark 0 entry.2]

theorem closeLine_row (entry : Tree × Tree) :
    closeLine (row .single [] entry) = (sections entry).flatMap closeLine := by
  rw [row, spellEntry, sections, keyMark]
  split
  · simp
  · rw [closeLine_append (List.cons_ne_nil _ _)]
    simp [spaces]

/-- All lines of a text that begins at the left but the first are indented or empty. -/
theorem hangs_of_mem_sections {entry : Tree × Tree}
    (hkey : ∀ tag items, entry.1 ≠ .sequence tag items)
    (hvalue : ∀ tag items, entry.2 ≠ .sequence tag items) {r : List Char} (hr : r ∈ sections entry)
    (heven : IsEven r) : Hangs r := by
  rw [sections] at hr
  split at hr
  · rename_i hsimple
    obtain rfl := List.mem_singleton.1 hr
    have hline : '\n' ∉ spellKey .single entry.1 := fun hmem =>
      absurd ((spellKey_line .single hsimple).1 _ hmem) (by decide)
    exact ((hangs_spell entry.2 .key 0 (.inr hvalue)
      (heven.of_subset fun a ha => by simp [ha])).cons
      (by decide)).behind hline
  · rcases List.mem_cons.1 hr with rfl | hr
    · exact (hangs_spell entry.1 .mark 0 (.inr hkey)
        (heven.of_subset (List.subset_cons_self _ _))).cons (by decide)
    · obtain rfl := List.mem_singleton.1 hr
      exact (hangs_spell entry.2 .mark 0 (.inr hvalue)
        (heven.of_subset (List.subset_cons_self _ _))).cons (by decide)

end Tree

end LockPrune.Yaml
