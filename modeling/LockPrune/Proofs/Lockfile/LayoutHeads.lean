import LockPrune.Proofs.Lockfile.LayoutBlocks
import LockPrune.Proofs.Yaml.Hanging

/-!
# The lines at the left of a file

Of the lines of a file behind its comment one begins at the left for the metadata and one for
every key, or two where the key is written out, and exactly one empty line stands in front of
each.  So it is as long as the layout finds no text open and no empty line where one of them
begins, and every end of line in the texts is a line feed.

## Main definitions

* `Layout.isRegular` — where a line begins at the left, no text is open and no line above is empty.
* `Layout.IsSpaced` — exactly one empty line stands at the end of some lines.
* `Lockfile.IsHeadsOf` — the lines at the left that a key is written on.

## Main statements

* `Layout.filter_writtenFrom`, `Layout.spacedFrom_writtenFrom` — what is written for the lines of a
  regular document.
* `Lockfile.lines_encode` — the lines of a file.
-/

namespace LockPrune

open Yaml Yaml.Tree Yaml.Scalar

/-! ## Regular documents -/

namespace Layout

/-- The lines that are written for the lines of a document. -/
def writtenFrom : State → List (List Char) → List (List Char)
  | _, [] => []
  | s, x :: rest =>
    (if s.quote = .outside && isFlush x then [[]] else []) ++ written s x ::
      writtenFrom (line s x).2 rest

/-- Where a line begins at the left no text is open, and the line above is not empty. -/
def isRegularFrom : State → Bool → List (List Char) → Bool
  | _, _, [] => true
  | s, blank, x :: rest =>
    (!isFlush x || (s.quote = .outside && !blank)) && isRegularFrom (line s x).2 x.isEmpty rest

/-- Wherever a line of a document begins at the left, no text is open, and the line above is not
empty. -/
def isRegular (yaml : List Char) : Bool :=
  isRegularFrom .start false (Text.lines yaml)

/-- What is written for a line that begins outside of all texts. -/
def headOf (x : List Char) : List Char :=
  (scan .outside [] x).1

theorem written_eq_nil_iff {s : State} {x : List Char} : written s x = [] ↔ x = [] := by
  rw [written]
  split
  · rfl
  · cases x with
    | nil => simp [scan_nil]
    | cons c r =>
      obtain ⟨d, o, ho, -⟩ := exists_scan_cons s.quote [] c r
      simp [ho]

theorem isFlush_written (s : State) (x : List Char) : isFlush (written s x) = isFlush x := by
  rw [written]
  split
  · rfl
  · cases x with
    | nil => rw [scan_nil]
    | cons c r =>
      obtain ⟨d, o, ho, hspace, -⟩ := exists_scan_cons s.quote [] c r
      rw [ho, Bool.eq_iff_iff, isFlush_cons, isFlush_cons, Ne, Ne, hspace]

theorem mem_of_mem_written {s : State} {x : List Char} {a : Char} (ha : a ∈ written s x) :
    a ∈ x ∨ a = '"' ∨ a = '\\' := by
  rw [written] at ha
  split at ha
  · exact .inl ha
  · exact mem_of_mem_scan ha

/-- The lines that are written for the lines of a document. -/
theorem lines_flatten_writesFrom (s : State) {xs : List (List Char)}
    (hxs : ∀ x ∈ xs, '\n' ∉ x ∧ '\r' ∉ x) :
    Text.lines (writesFrom s xs).flatten = writtenFrom s xs := by
  induction xs generalizing s with
  | nil => rfl
  | cons x xs ih =>
    rw [List.forall_mem_cons] at hxs
    have hkept : ∀ a, a ≠ '"' → a ≠ '\\' → a ∉ x → a ∉ written s x := fun a hq hm hx hmem =>
      (mem_of_mem_written hmem).elim hx fun h => h.elim hq hm
    have hline : ∀ t, Text.lines (written s x ++ '\n' :: t) = written s x :: Text.lines t :=
      Text.lines_line (hkept _ (by decide) (by decide) hxs.1.1)
        (hkept _ (by decide) (by decide) hxs.1.2)
    have hempty : ∀ t, Text.lines ('\n' :: t) = [] :: Text.lines t :=
      Text.lines_line List.not_mem_nil List.not_mem_nil
    rw [writesFrom, List.flatten_append, flatten_line, writtenFrom, ← ih (line s x).2 hxs.2, gapOf]
    split
    · simp [hline, hempty]
    · simp [hline]

/-- The lines at the left are those of the document, without single quotes around texts. -/
theorem filter_writtenFrom {s : State} {blank : Bool} {xs : List (List Char)}
    (h : isRegularFrom s blank xs = true) :
    (writtenFrom s xs).filter isFlush = (xs.filter isFlush).map headOf := by
  induction xs generalizing s blank with
  | nil => rfl
  | cons x xs ih =>
    rw [isRegularFrom, Bool.and_eq_true] at h
    have hrest := ih h.2
    have hgap : (if s.quote = .outside && isFlush x then [[]] else []).filter isFlush =
        ([] : List (List Char)) := by
      split <;> rfl
    rw [writtenFrom, List.filter_append, hgap, List.nil_append]
    cases hflush : isFlush x with
    | false =>
      rw [List.filter_cons_of_neg (by simp [isFlush_written, hflush]),
        List.filter_cons_of_neg (by simp [hflush]), hrest]
    | true =>
      have hquote : s.quote = .outside := by
        simp only [hflush, Bool.not_true, Bool.false_or, Bool.and_eq_true, decide_eq_true_eq] at h
        exact h.1.1
      have hwritten : written s x = headOf x := by
        rw [written, staysInBlock_of_isFlush hflush, hquote]
        rfl
      rw [List.filter_cons_of_pos (by rw [isFlush_written, hflush]),
        List.filter_cons_of_pos hflush, hrest, List.map_cons, hwritten]

/-- Exactly one empty line stands at the end of some lines. -/
def IsSpaced (lines : List (List Char)) : Prop :=
  ∃ front above, lines = front ++ [above, []] ∧ above ≠ []

/-- Exactly one empty line stands in front of every line at the left, given the two lines in front
of all. -/
def SpacedFrom : List Char → List Char → List (List Char) → Prop
  | _, _, [] => True
  | a, b, x :: rest => (isFlush x = true → a ≠ [] ∧ b = []) ∧ SpacedFrom b x rest

theorem SpacedFrom.isSpaced {a b head : List Char} {before after : List (List Char)}
    (h : SpacedFrom a b (before ++ head :: after)) (hflush : isFlush head = true)
    (front : List (List Char)) : IsSpaced (front ++ [a, b] ++ before) := by
  induction before generalizing a b front with
  | nil =>
    obtain ⟨ha, rfl⟩ := h.1 hflush
    exact ⟨front, a, by simp, ha⟩
  | cons x before ih => simpa using ih h.2 (front ++ [a])

/-- Exactly one empty line is written in front of every line at the left. -/
theorem spacedFrom_writtenFrom {s : State} {blank : Bool} {xs : List (List Char)}
    (h : isRegularFrom s blank xs = true) (a : List Char) {b : List Char}
    (hb : b = [] → blank = true) : SpacedFrom a b (writtenFrom s xs) := by
  induction xs generalizing s blank a b with
  | nil => trivial
  | cons x xs ih =>
    rw [isRegularFrom, Bool.and_eq_true] at h
    have hrest : ∀ c, SpacedFrom c (written s x) (writtenFrom (line s x).2 xs) := fun c =>
      ih h.2 c fun hnil => by rw [written_eq_nil_iff.1 hnil]; rfl
    rw [writtenFrom]
    cases hflush : isFlush x with
    | false =>
      rw [Bool.and_false]
      exact ⟨fun hwritten => by simp [isFlush_written, hflush] at hwritten, hrest b⟩
    | true =>
      simp only [hflush, Bool.not_true, Bool.false_or, Bool.and_eq_true, decide_eq_true_eq,
        Bool.not_eq_true'] at h
      have habove : b ≠ [] := fun hnil => by simp [hb hnil] at h
      rw [h.1.1]
      exact ⟨by simp [isFlush], fun _ => ⟨habove, rfl⟩, hrest []⟩

/-! ## Texts that hang -/

/-- The first line of a text. -/
def firstLine (t : List Char) : List Char :=
  t.takeWhile (· ≠ '\n')

theorem firstLine_line {x : List Char} (hx : '\n' ∉ x) (t : List Char) :
    firstLine (x ++ '\n' :: t) = x := by
  have hall : ∀ a ∈ x, decide (a ≠ '\n') = true := by
    intro a ha
    rw [decide_eq_true_eq]
    rintro rfl
    exact hx ha
  rw [firstLine, List.takeWhile_append_of_pos hall, List.takeWhile_cons_of_neg (by simp),
    List.append_nil]

theorem firstLine_cons {c : Char} (hc : c ≠ '\n') (t : List Char) :
    firstLine (c :: t) = c :: firstLine t :=
  List.takeWhile_cons_of_pos (by simpa using hc)

/-- What follows a line feed ends with one too, or is nothing, if the whole does. -/
theorem ends_of_append_line {x y : List Char} (h : (x ++ '\n' :: y).getLast? = some '\n') :
    y = [] ∨ y.getLast? = some '\n' := by
  cases y with
  | nil => exact .inl rfl
  | cons d y => exact .inr (by simpa [List.getLast?_append] using h)

theorem hangs_of_append {x y : List Char} (h : Hangs (x ++ y)) : Hangs y := by
  induction x with
  | nil => exact h
  | cons c x ih => exact ih h.2

/-- No line of what hangs below a line begins at the left. -/
theorem exists_lines_of_isIndented {u : List Char} (hend : u = [] ∨ u.getLast? = some '\n')
    (hindented : IsIndented u) (hhangs : Hangs u) (hreturn : '\r' ∉ u) :
    ∃ below, (∀ x ∈ below, isFlush x = false) ∧
      ∀ t, Text.lines (u ++ t) = below ++ Text.lines t := by
  induction u using Text.line_induction with
  | last x hx =>
    rcases hend with rfl | hend
    · exact ⟨[], by simp, fun t => rfl⟩
    · exact absurd (List.mem_of_getLast? hend) hx
  | line x y hx ih =>
    rw [List.mem_append, List.mem_cons, not_or, not_or] at hreturn
    obtain ⟨hnext, hhangs'⟩ := hangs_of_append hhangs
    have hflush : isFlush x = false := by
      match x, hx, hindented with
      | [], _, _ => rfl
      | c :: x, hx, hindented =>
        rcases hindented c rfl with rfl | rfl
        · rfl
        · exact absurd List.mem_cons_self hx
    have hend' : y = [] ∨ y.getLast? = some '\n' :=
      ends_of_append_line (hend.resolve_left (by simp))
    obtain ⟨below, hbelow, hlines⟩ := ih hend' (hnext rfl) hhangs' hreturn.2.2
    refine ⟨x :: below, List.forall_mem_cons.2 ⟨hflush, hbelow⟩, fun t => ?_⟩
    rw [List.append_assoc, List.cons_append, Text.lines_line hx hreturn.1, hlines, List.cons_append]

/-- Of the lines of a text that hangs only the first begins at the left. -/
theorem exists_lines_of_hangs {u : List Char} (hleft : IsLeft u) (hend : u.getLast? = some '\n')
    (hhangs : Hangs u) (hreturn : '\r' ∉ u) :
    isFlush (firstLine u) = true ∧ ∃ below, (∀ x ∈ below, isFlush x = false) ∧
      ∀ t, Text.lines (u ++ t) = firstLine u :: (below ++ Text.lines t) := by
  obtain ⟨x, y, rfl, hx⟩ := List.eq_append_cons_of_mem (List.mem_of_getLast? hend)
  rw [List.mem_append, List.mem_cons, not_or, not_or] at hreturn
  obtain ⟨hnext, hhangs'⟩ := hangs_of_append hhangs
  obtain ⟨below, hbelow, hlines⟩ :=
    exists_lines_of_isIndented (ends_of_append_line hend) (hnext rfl) hhangs' hreturn.2.2
  rw [firstLine_line hx]
  refine ⟨?_, below, hbelow, fun t => ?_⟩
  · obtain ⟨c, r, heq, hspace, hc⟩ := hleft
    match x, heq with
    | [], heq => exact absurd (List.cons.inj heq).1.symm (ne_of_not_isBreak hc).1
    | d :: x, heq =>
      rw [isFlush_cons, (List.cons.inj heq).1]
      exact hspace
  · rw [List.append_assoc, List.cons_append, Text.lines_line hx hreturn.1, hlines]

end Layout

/-! ## Keys -/

namespace Lockfile

open Layout

variable {l : Lockfile} {key : String}

/-- The line of a key in front of its colon. -/
def keyLine (key : String) : List Char :=
  headOf (spellKey .single (Tree.ofText key) ++ [':'])

/-- The lines at the left that a key is written on.  A key that is long or has several lines is
written out, and its colon stands on a line of its own. -/
inductive IsHeadsOf (key : String) : List (List Char) → Prop where
  | short (h : (Tree.ofText key).isSimpleKey = true) : IsHeadsOf key [keyLine key]
  | writtenOut (h : (Tree.ofText key).isSimpleKey = false) (x y : List Char) :
    IsHeadsOf key ['?' :: ' ' :: x, ':' :: ' ' :: y]

theorem headOf_mark {c : Char} (hc : c = '?' ∨ c = ':') (x : List Char) :
    headOf (c :: ' ' :: x) = c :: ' ' :: (scan .outside [' ', c] x).1 := by
  have hmark : ((c = '\x27' || c = '"') && mayBegin []) = false := by
    rcases hc with rfl | rfl <;> decide
  rw [headOf, scan_outside hmark, scan_outside (by simp)]

/-- What is closed ends with a line feed if no other end of line is in it. -/
theorem getLast?_closeLine_of_isEven {r : List Char} (heven : IsEven (closeLine r)) :
    (closeLine r).getLast? = some '\n' := by
  obtain ⟨a, ha, hbreak⟩ : ∃ a, (closeLine r).getLast? = some a ∧ isBreak a = true := by
    have hends := endsWith_closeLine r
    rwa [endsWith, Option.any_eq_true] at hends
  rw [ha, heven a (List.mem_of_getLast? ha) hbreak]

/-- What begins at the left in an entry of the root. -/
theorem isLeft_of_mem_sections {v : Tree} {r : List Char}
    (hr : r ∈ sections (Tree.ofText key, v)) : IsLeft (closeLine r) := by
  rw [closeLine_eq]
  rw [sections] at hr
  split at hr
  · rename_i hsimple
    rw [List.mem_singleton.1 hr, List.append_assoc]
    exact isLeft_spellKey hsimple _
  · rcases List.mem_cons.1 hr with rfl | hr
    · exact ⟨'?', _, rfl, by decide, by decide⟩
    · rw [List.mem_singleton.1 hr]
      exact ⟨':', _, rfl, by decide, by decide⟩

/-- Of the lines of a section only the first begins at the left. -/
theorem exists_lines_section {fields : List (Tree × Tree)} {r : List Char}
    (hr : r ∈ sections (Tree.ofText key, .mapping none fields)) (heven : IsEven (closeLine r)) :
    isFlush (firstLine (closeLine r)) = true ∧ ∃ below, (∀ x ∈ below, isFlush x = false) ∧
      ∀ t, Text.lines (closeLine r ++ t) = firstLine (closeLine r) :: (below ++ Text.lines t) := by
  have hhangs := hangs_of_mem_sections (by simp [Tree.ofText]) (by simp) hr
    (heven.of_subset fun a ha => by simp [closeLine_eq, ha])
  have hreturn : '\r' ∉ closeLine r := fun hmem =>
    absurd (heven _ hmem (by decide)) (by decide)
  exact exists_lines_of_hangs (isLeft_of_mem_sections hr) (getLast?_closeLine_of_isEven heven)
    hhangs.closeLine hreturn

theorem filter_lines_section {fields : List (Tree × Tree)} {r : List Char}
    (hr : r ∈ sections (Tree.ofText key, .mapping none fields)) (heven : IsEven (closeLine r))
    (t : List Char) :
    (Text.lines (closeLine r ++ t)).filter isFlush =
      firstLine (closeLine r) :: (Text.lines t).filter isFlush := by
  obtain ⟨hflush, below, hbelow, hlines⟩ := exists_lines_section hr heven
  have hnone : below.filter isFlush = [] :=
    List.filter_eq_nil_iff.2 fun x hx => by simp [hbelow x hx]
  rw [hlines, List.filter_cons_of_pos hflush, List.filter_append, hnone, List.nil_append]

/-- The lines of the fields of an entry stand below its key, or behind the colon of a key that is
written out. -/
theorem exists_spell_fields {fields : List (Tree × Tree)} (hfields : fields ≠ []) :
    (∃ z, spell .single .key 0 (.mapping none fields) = '\n' :: z) ∧
      ∃ z, spell .single .mark 0 (.mapping none fields) = ' ' :: z := by
  have hparts : (spellEntries .single (0 + 2) fields).isEmpty = false := by
    cases fields with
    | nil => exact absurd rfl hfields
    | cons => rfl
  simp only [spell, spellParts, hparts, place]
  exact ⟨⟨_, rfl⟩, _, rfl⟩

theorem exists_spell_key (key : String) :
    ∃ z, spell .single .mark 0 (Tree.ofText key) = ' ' :: z := by
  have hne : spellScalar .single none (wanted key) false (0 + 2) key ≠ [] :=
    write_ne_nil .single (IsSoundScalar.fits (isSound_ofText key) false) (0 + 2)
  rw [Tree.ofText, spell, spaced, if_neg (by simpa using hne)]
  exact ⟨_, rfl⟩

/-- The lines at the left that a key is written on. -/
theorem exists_heads {fields : List (Tree × Tree)} (hfields : fields ≠ [])
    (heven : IsEven (blockText (Tree.ofText key, .mapping none fields))) :
    ∃ heads, IsHeadsOf key heads ∧ ∀ t,
      ((Text.lines (blockText (Tree.ofText key, .mapping none fields) ++ t)).filter
          isFlush).map headOf =
        heads ++ ((Text.lines t).filter isFlush).map headOf := by
  obtain ⟨⟨below, hbelow⟩, behind, hbehind⟩ := exists_spell_fields hfields
  obtain ⟨written, hwritten⟩ := exists_spell_key key
  rw [blockText, closeLine_row] at heven ⊢
  have hsection : ∀ r ∈ sections (Tree.ofText key, .mapping none fields), ∀ t,
      (Text.lines (closeLine r ++ t)).filter isFlush =
        firstLine (closeLine r) :: (Text.lines t).filter isFlush := fun r hr =>
    filter_lines_section hr (heven.of_subset fun a ha => List.mem_flatMap.2 ⟨r, hr, ha⟩)
  cases hsimple : (Tree.ofText key).isSimpleKey with
  | true =>
    have hsections : sections (Tree.ofText key, .mapping none fields) =
        [spellKey .single (Tree.ofText key) ++ ':' :: '\n' :: below] := by
      rw [← hbelow]
      exact if_pos hsimple
    rw [hsections] at hsection ⊢
    refine ⟨[keyLine key], .short hsimple, fun t => ?_⟩
    have hline : '\n' ∉ spellKey .single (Tree.ofText key) ++ [':'] := by
      intro hmem
      rcases List.mem_append.1 hmem with hmem | hmem
      · exact absurd ((spellKey_line .single hsimple).1 _ hmem) (by decide)
      · exact absurd hmem (by decide)
    have hfirst : ∀ u, firstLine (spellKey .single (Tree.ofText key) ++ ':' :: '\n' :: u) =
        spellKey .single (Tree.ofText key) ++ [':'] := by
      intro u
      rw [← firstLine_line hline u]
      simp
    rw [List.flatMap_singleton, hsection _ List.mem_cons_self, closeLine_eq, List.append_assoc,
      List.cons_append, List.cons_append, hfirst]
    rfl
  | false =>
    have hsections : sections (Tree.ofText key, .mapping none fields) =
        ['?' :: ' ' :: written, ':' :: ' ' :: behind] := by
      rw [← hwritten, ← hbehind]
      exact if_neg (by simp [hsimple])
    rw [hsections] at hsection ⊢
    have hhead : ∀ c, c = '?' ∨ c = ':' → ∀ u, ∃ x,
        headOf (firstLine (closeLine (c :: ' ' :: u))) = c :: ' ' :: x := by
      intro c hc u
      have hline : c ≠ '\n' := by rcases hc with rfl | rfl <;> decide
      rw [closeLine_eq, List.cons_append, List.cons_append, firstLine_cons hline,
        firstLine_cons (by decide), headOf_mark hc]
      exact ⟨_, rfl⟩
    obtain ⟨x, hx⟩ := hhead '?' (.inl rfl) written
    obtain ⟨y, hy⟩ := hhead ':' (.inr rfl) behind
    refine ⟨_, .writtenOut hsimple x y, fun t => ?_⟩
    rw [List.flatMap_cons, List.flatMap_singleton, List.append_assoc,
      hsection _ List.mem_cons_self, hsection _ (List.mem_cons_of_mem _ List.mem_cons_self),
      List.map_cons, List.map_cons, hx, hy]
    rfl

/-! ## Files -/

/-- An entry has the field of its version. -/
theorem trees?_ne_nil {e : Entry} {fields : List (Tree × Tree)} (h : e.trees? = some fields) :
    fields ≠ [] := by
  obtain ⟨extra, -, rfl⟩ := Option.map_eq_some_iff.1 h
  simp

/-- The lines at the left that the keys are written on, in order. -/
theorem exists_heads_of_keys {keys : List String}
    (h : ∀ key ∈ keys, (l.tree? key).isSome = true) (heven : IsEven (keys.flatMap l.blockYaml)) :
    ∃ heads, List.Forall₂ IsHeadsOf keys heads ∧
      ((Text.lines (keys.flatMap l.blockYaml)).filter isFlush).map headOf = heads.flatten := by
  induction keys with
  | nil => exact ⟨[], .nil, rfl⟩
  | cons key keys ih =>
    rw [List.forall_mem_cons] at h
    rw [List.flatMap_cons] at heven ⊢
    obtain ⟨heads, hheads, hlines⟩ := ih h.2 (heven.of_subset (List.subset_append_right _ _))
    obtain ⟨tree, htree⟩ := Option.isSome_iff_exists.1 h.1
    obtain ⟨e, -, hentry⟩ := Option.bind_eq_some_iff.1 htree
    obtain ⟨fields, hfields, rfl⟩ := Option.map_eq_some_iff.1 hentry
    have hblock : l.blockYaml key = blockText (Tree.ofText key, .mapping none fields) := by
      rw [blockYaml, htree]
      rfl
    rw [hblock] at heven ⊢
    obtain ⟨first, hfirst, hnext⟩ :=
      exists_heads (trees?_ne_nil hfields) (heven.of_subset (List.subset_append_left _ _))
    exact ⟨first :: heads, .cons hfirst hheads, by rw [hnext, hlines, List.flatten_cons]⟩

/-- The lines of the comment at the top. -/
def commentLines : List (List Char) :=
  ["# This file is generated by running \"yarn install\" inside your project.",
    "# Manual changes might be lost - proceed with caution!"].map String.toList

/-- The lines of the metadata that are written. -/
def metadataLines : List (List Char) :=
  ["", "__metadata:", "  version: 5", "  cacheKey: 8"].map String.toList

theorem toList_header :
    header.toList = (commentLines ++ metadataLines).flatMap (· ++ ['\n']) := by
  have hcomment : headerComment.toList = commentLines.flatMap (· ++ ['\n']) := by
    have hlines : headerComment =
        "# This file is generated by running \"yarn install\" inside your project." ++ "\n" ++
          ("# Manual changes might be lost - proceed with caution!" ++ "\n") := by
      decide
    rw [hlines]
    simp only [String.toList_append]
    rfl
  have hmetadata : ("\n" ++ (Metadata.key ++ (":\n  version: " ++ (Metadata.current.version ++
      ("\n  cacheKey: " ++ (Metadata.current.cacheKey ++ "\n")))))).toList =
        metadataLines.flatMap (· ++ ['\n']) := by
    decide
  rw [List.flatMap_append, ← hcomment, ← hmetadata, ← String.toList_append]
  simp only [header, String.append_assoc]

/-- The lines of a file: those of the comment, those of the metadata, and those behind them. -/
theorem lines_file (body : List Char) :
    Text.lines (file body).toList = commentLines ++ (metadataLines ++ Text.lines body) := by
  have hlines : ∀ x ∈ commentLines ++ metadataLines, '\n' ∉ x ∧ '\r' ∉ x := by
    decide
  rw [file, String.toList_ofList, toList_header, ← List.append_assoc]
  generalize commentLines ++ metadataLines = xs at hlines
  induction xs with
  | nil => rfl
  | cons x xs ih =>
    rw [List.forall_mem_cons] at hlines
    rw [List.flatMap_cons, List.append_assoc, List.append_assoc, List.singleton_append,
      Text.lines_line hlines.1.1 hlines.1.2, ih hlines.2, List.cons_append]

/-- Every end of line in the texts of a lockfile is a line feed, and the layout finds no text open
and no empty line above where a line of them begins at the left. -/
def IsRegular (l : Lockfile) : Prop :=
  ∀ yaml, l.yaml? = some yaml → IsEven yaml ∧ isRegular yaml = true

/-- **The lines of a file**: behind the comment those at the left are that of the metadata and
those of the keys, in order, and exactly one empty line stands in front of each. -/
theorem lines_encode {text : String} (h : l.encode = .ok text) (hregular : l.IsRegular) :
    ∃ body heads, Text.lines text.toList = commentLines ++ body ∧
      List.Forall₂ IsHeadsOf l.keys heads ∧
      body.filter isFlush = "__metadata:".toList :: heads.flatten ∧
      ∀ before head after, body = before ++ head :: after → isFlush head = true →
        IsSpaced (commentLines ++ before) := by
  obtain ⟨yaml, hyaml, rfl⟩ := encode_eq_ok_iff.1 h
  obtain ⟨heven, hlayout⟩ := hregular yaml hyaml
  obtain ⟨hsome, rfl⟩ := yaml?_eq_some_iff.1 hyaml
  obtain ⟨heads, hheads, hlines⟩ := exists_heads_of_keys hsome heven
  generalize l.keys.flatMap l.blockYaml = yaml at *
  have hwritten : Text.lines (apply yaml) = writtenFrom .start (Text.lines yaml) := by
    refine lines_flatten_writesFrom .start fun x hx => ?_
    obtain ⟨hline, hsub⟩ := Text.mem_lines hx
    exact ⟨hline, fun hmem => absurd (heven _ (hsub hmem) (by decide)) (by decide)⟩
  refine ⟨metadataLines ++ writtenFrom .start (Text.lines yaml), heads, ?_, hheads, ?_, ?_⟩
  · rw [lines_file, hwritten]
  · rw [List.filter_append, filter_writtenFrom hlayout, hlines]
    rfl
  · intro before head after hbody hflush
    obtain ⟨first, second, hcomment, hsecond⟩ :
        ∃ first second, commentLines = [first, second] ∧ second ≠ [] :=
      ⟨_, _, rfl, by decide⟩
    have hspaced :
        SpacedFrom first second (metadataLines ++ writtenFrom .start (Text.lines yaml)) :=
      ⟨by simp [isFlush], fun _ => ⟨hsecond, rfl⟩, by simp [isFlush], by simp [isFlush],
        spacedFrom_writtenFrom hlayout _ (by simp)⟩
    rw [hbody] at hspaced
    rw [hcomment]
    exact hspaced.isSpaced hflush []

/-- A lockfile with a quote inside of a text, and with a key of two lines. -/
def twoLined : Lockfile :=
  ofBlocks .current [⟨"a@1", { version := "1", conditions := "x - 'y'" }⟩,
    ⟨"b\nb@1", { version := "2", resolution := "one\ntwo\n" }⟩]

/-- The key of two lines takes two lines at the left. -/
theorem lines_encode_twoLined :
    ∃ text body x y, twoLined.encode = .ok text ∧ Text.lines text.toList = commentLines ++ body ∧
      body.filter isFlush =
        ["__metadata:".toList, "a@1:".toList, '?' :: ' ' :: x, ':' :: ' ' :: y] ∧
      ∀ before head after, body = before ++ head :: after → isFlush head = true →
        IsSpaced (commentLines ++ before) := by
  have hkeys : twoLined.keys = ["a@1", "b\nb@1"] := by decide
  have hsome : ∀ key ∈ twoLined.keys, (twoLined.tree? key).isSome = true := by
    rw [hkeys]
    decide
  have hyaml := yaml?_eq_some_iff.2 ⟨hsome, rfl⟩
  have hregular : twoLined.IsRegular := by
    intro yaml h
    obtain rfl := Option.some.inj (hyaml.symm.trans h)
    exact ⟨by decide +kernel, by decide +kernel⟩
  obtain ⟨body, heads, htext, hheads, hleft, hspaced⟩ :=
    lines_encode (encode_eq_ok_iff.2 ⟨_, hyaml, rfl⟩) hregular
  rw [hkeys] at hheads
  obtain _ | ⟨hfirst, _ | ⟨hsecond, _ | _⟩⟩ := hheads
  cases hfirst with
  | writtenOut hsimple => exact absurd hsimple (by decide)
  | short =>
    cases hsecond with
    | short hsimple => exact absurd hsimple (by decide)
    | writtenOut _ x y =>
      have hline : keyLine "a@1" = "a@1:".toList := by decide +kernel
      rw [hline] at hleft
      exact ⟨_, body, x, y, encode_eq_ok_iff.2 ⟨_, hyaml, rfl⟩, htext, hleft, hspaced⟩

end Lockfile

end LockPrune
