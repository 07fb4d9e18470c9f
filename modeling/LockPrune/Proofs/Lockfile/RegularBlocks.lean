import LockPrune.Proofs.Lockfile.LayoutContent
import LockPrune.Proofs.Lockfile.LayoutHeads

/-!
# Regular lockfiles

Whether a lockfile is regular can be told block by block: a block of a short key has one line at
the left, and what it leaves for the next is the text that is open at its end and its last line.
Where nothing misleads the layout no text is open, so that the lines of the file are as they
should be.

## Main statements

* `Layout.isRegular_flatten` — blocks that are regular one after the other.
* `Lockfile.isRegular_of_blocks` — a lockfile is regular if its blocks but the last are closed.
* `Lockfile.isRegular_of_isKeptRoot` — it is if nothing misleads the layout.
* `Lockfile.keyLine_of_isCalmKey` — the line of a key is then the key and its colon.
-/

namespace LockPrune

open Yaml Yaml.Tree Yaml.Scalar

/-! ## Documents in parts -/

namespace Layout

/-- The last of some lines is empty, or if there are none, the line above was. -/
def endsEmpty (blank : Bool) (xs : List (List Char)) : Bool :=
  (xs.getLast?.map List.isEmpty).getD blank

theorem isRegularFrom_append (s : State) (blank : Bool) (xs ys : List (List Char)) :
    isRegularFrom s blank (xs ++ ys) =
      (isRegularFrom s blank xs && isRegularFrom (stateFrom s xs) (endsEmpty blank xs) ys) := by
  induction xs generalizing s blank with
  | nil => rfl
  | cons x xs ih =>
    have hends : endsEmpty blank (x :: xs) = endsEmpty x.isEmpty xs := by
      cases xs with
      | nil => rfl
      | cons y xs => simp [endsEmpty, List.getLast?_cons]
    rw [List.cons_append, isRegularFrom, isRegularFrom, ih, stateFrom, hends, Bool.and_assoc]

/-- Lines that do not begin at the left are regular. -/
theorem isRegularFrom_of_not_flush {xs : List (List Char)} (h : ∀ x ∈ xs, isFlush x = false)
    (s : State) (blank : Bool) : isRegularFrom s blank xs = true := by
  induction xs generalizing s blank with
  | nil => rfl
  | cons x xs ih =>
    rw [List.forall_mem_cons] at h
    rw [isRegularFrom, h.1, ih h.2]
    rfl

/-- A text that begins at the left, with lines that hang below its first. -/
structure IsBlock (t : List Char) : Prop where
  left : IsLeft t
  ends : t.getLast? = some '\n'
  hangs : Hangs t
  even : IsEven t

theorem IsBlock.not_mem_return {t : List Char} (h : IsBlock t) : '\r' ∉ t :=
  fun hmem => absurd (h.even _ hmem (by decide)) (by decide)

/-- A block is regular if no text is open in front of it and no empty line is above. -/
theorem IsBlock.isRegularFrom {t : List Char} (h : IsBlock t) (b : Option Nat) :
    isRegularFrom ⟨.outside, b⟩ false (Text.lines t) = true ∧
      (stateAfter ⟨.outside, b⟩ t).quote = (stateAfter .start t).quote := by
  obtain ⟨hflush, below, hbelow, hlines⟩ :=
    exists_lines_of_hangs h.left h.ends h.hangs h.not_mem_return
  have hlines := hlines []
  have hnil : Text.lines [] = [] := rfl
  rw [List.append_nil, hnil, List.append_nil] at hlines
  rw [stateAfter, stateAfter, hlines, stateFrom, stateFrom, line_of_isFlush hflush,
    Layout.isRegularFrom, isRegularFrom_of_not_flush hbelow]
  exact ⟨by simp, rfl⟩

/-- The last line of a block that does not end with an empty line is not empty. -/
theorem IsBlock.endsEmpty_lines {t : List Char} (h : IsBlock t) (hblank : endsBlank t = false)
    (blank : Bool) : endsEmpty blank (Text.lines t) = false := by
  obtain ⟨r, rfl⟩ := List.getLast?_eq_some_iff.1 h.ends
  obtain ⟨p, w, rfl, hw, hp⟩ := Text.exists_last_line r
  have hreturn : '\r' ∉ w := fun hmem => h.not_mem_return (by simp [hmem])
  have hne : w ≠ [] := by
    rintro rfl
    rcases hp with rfl | hp
    · obtain ⟨c, r, heq, -, hc⟩ := h.left
      exact (ne_of_not_isBreak hc).1 (List.cons.inj heq).1.symm
    · obtain ⟨q, rfl⟩ := List.getLast?_eq_some_iff.1 hp
      rw [List.append_nil, List.append_assoc] at hblank
      exact absurd (hblank.symm.trans (endsBlank_concat q '\n' '\n')) (by decide)
  have hlast : Text.lines (w ++ ['\n']) = [w] := Text.lines_line hw hreturn []
  rw [List.append_assoc, Text.lines_append_of_ends hp, hlast, endsEmpty, List.getLast?_concat]
  exact List.isEmpty_eq_false_iff.2 hne

/-- Blocks are regular one after the other if each of them but the last is settled and does not
end with an empty line. -/
theorem isRegular_flatten {ts : List (List Char)} (hts : ∀ t ∈ ts, IsBlock t)
    (hclosed : ∀ t ∈ ts.dropLast, IsSettled t ∧ endsBlank t = false) :
    isRegular ts.flatten = true := by
  have hfrom : ∀ b, isRegularFrom ⟨.outside, b⟩ false (Text.lines ts.flatten) = true := by
    induction ts with
    | nil => exact fun b => rfl
    | cons t ts ih =>
      intro b
      rw [List.forall_mem_cons] at hts
      obtain ⟨hregular, hquote⟩ := hts.1.isRegularFrom b
      rw [List.flatten_cons, Text.lines_append_of_ends (.inr hts.1.ends), isRegularFrom_append,
        hregular, Bool.true_and]
      cases ts with
      | nil => rfl
      | cons t' ts =>
        rw [List.dropLast_cons_of_ne_nil (List.cons_ne_nil t' ts), List.forall_mem_cons] at hclosed
        obtain ⟨⟨hsettled, hblank⟩, hclosed⟩ := hclosed
        have hstate : (stateFrom ⟨.outside, b⟩ (Text.lines t)).quote = .outside :=
          hquote.trans hsettled.2
        generalize stateFrom ⟨.outside, b⟩ (Text.lines t) = s at hstate
        obtain ⟨q, b'⟩ := s
        obtain rfl : q = .outside := hstate
        rw [hts.1.endsEmpty_lines hblank]
        exact ih hts.2 hclosed b'
  exact hfrom none

end Layout

/-! ## Lockfiles -/

namespace Lockfile

variable {l : Lockfile} {key : String}

/-- The YAML of a short key is a block. -/
theorem isBlock_blockYaml (hsome : (l.tree? key).isSome = true)
    (hshort : (Tree.ofText key).isSimpleKey = true) (heven : IsEven (l.blockYaml key)) :
    Layout.IsBlock (l.blockYaml key) := by
  obtain ⟨tree, htree⟩ := Option.isSome_iff_exists.1 hsome
  obtain ⟨e, -, hentry⟩ := Option.bind_eq_some_iff.1 htree
  obtain ⟨fields, -, rfl⟩ := Option.map_eq_some_iff.1 hentry
  have hsections : sections (Tree.ofText key, Tree.mapping none fields) =
      [spellKey .single (Tree.ofText key) ++ ':' :: spell .single .key 0 (.mapping none fields)] :=
    if_pos hshort
  have hblock : l.blockYaml key = closeLine
      (spellKey .single (Tree.ofText key) ++
        ':' :: spell .single .key 0 (.mapping none fields)) := by
    rw [blockYaml, htree, Option.map_some, Option.getD_some, blockText, closeLine_row, hsections,
      List.flatMap_singleton]
  have hmem := List.mem_singleton_self
    (spellKey .single (Tree.ofText key) ++ ':' :: spell .single .key 0 (.mapping none fields))
  rw [← hsections] at hmem
  rw [hblock] at heven ⊢
  have hhangs := hangs_of_mem_sections (by simp [Tree.ofText]) (by simp) hmem
    (heven.of_subset fun a ha => by rw [closeLine_eq]; exact List.mem_append_left _ ha)
  exact ⟨isLeft_of_mem_sections hmem, getLast?_closeLine_of_isEven heven, hhangs.closeLine, heven⟩

/-- A lockfile with short keys is regular if each of its blocks but the last is settled and does
not end with an empty line. -/
theorem isRegular_of_blocks (hsome : ∀ key ∈ l.keys, (l.tree? key).isSome = true)
    (hshort : ∀ key ∈ l.keys, (Tree.ofText key).isSimpleKey = true)
    (heven : IsEven (l.keys.flatMap l.blockYaml))
    (hclosed : ∀ key ∈ l.keys.dropLast,
      (l.restrict [key]).IsSettled ∧ endsBlank (l.blockYaml key) = false) : l.IsRegular := by
  intro yaml hyaml
  obtain ⟨-, rfl⟩ := yaml?_eq_some_iff.1 hyaml
  refine ⟨heven, ?_⟩
  rw [List.flatMap_def]
  refine Layout.isRegular_flatten (List.forall_mem_map.2 fun key hkey => ?_) ?_
  · exact isBlock_blockYaml (hsome key hkey) (hshort key hkey)
      (heven.of_subset fun a ha => List.mem_flatMap.2 ⟨key, hkey, ha⟩)
  · rw [← List.map_dropLast, List.forall_mem_map]
    intro key hkey
    obtain ⟨hsettled, hblank⟩ := hclosed key hkey
    have hkey := List.dropLast_subset l.keys hkey
    exact ⟨(isSettled_restrict_singleton_iff hsome hkey).1 hsettled, hblank⟩

/-- What does not end with an empty line does not when its last line is ended. -/
theorem endsBlank_closeLine {s : List Char} (h : endsBlank s = false) :
    endsBlank (closeLine s) = false := by
  rw [closeLine]
  split
  · exact h
  · rename_i hend
    rw [endsBlank, List.dropLast_concat]
    simp [hend]

/-- A lockfile with short keys is regular if nothing in its entries misleads the layout. -/
theorem isRegular_of_isKeptRoot (hread : l.IsReadable) {trees : List (Tree × Tree)}
    (htrees : l.trees? = some trees) (hkept : isKeptRoot trees = true)
    (hshort : ∀ key ∈ l.keys, (Tree.ofText key).isSimpleKey = true)
    (heven : IsEven (l.keys.flatMap l.blockYaml)) : l.IsRegular := by
  have hcalm : Layout.isCalmRoot trees = true := by
    rw [isKeptRoot, Bool.and_eq_true, Bool.and_eq_true] at hkept
    exact hkept.1.1
  have hsettled : ∀ key ∈ l.keys, (l.restrict [key]).IsSettled := fun key hkey =>
    isSettled_of_isCalmRoot hread htrees hcalm hkey
  have hsound := entriesSound_iff.1 (entriesSound_of_trees? hread htrees)
  rw [trees?_eq_mapM] at htrees
  refine isRegular_of_blocks (isSome_tree?_of_mapM htrees) hshort heven fun key hkey => ?_
  refine ⟨hsettled key (List.dropLast_subset l.keys hkey), ?_⟩
  -- the value of the key is not the last one
  have htaken := List.forall₂_take (l.keys.length - 1) (mapM_eq_some_iff.1 htrees)
  rw [← List.dropLast_eq_take, (mapM_eq_some_iff.1 htrees).length_eq,
    ← List.dropLast_eq_take] at htaken
  obtain ⟨tree, hmem, htree⟩ := exists_mem_left htaken.flip hkey
  have hopen := (isOpen_eq_false_of_isKeptRoot hkept).2 tree hmem
  have hvalue := endsBlank_spell .single tree.2
    (hsound tree (List.dropLast_subset trees hmem)).2 hopen (keyMark tree.1) 0
  rw [blockYaml, htree]
  refine endsBlank_closeLine ?_
  rw [← hvalue]
  exact endsBlank_spellEntry .single [] tree.1 0 _ _ []

/-- The line of a short key that does not mislead the layout is the key, between double quotes if
between any, and its colon. -/
theorem keyLine_of_isCalmKey (hcalm : (Tree.ofText key).isCalmKey = true) :
    keyLine key = spellKey .double (Tree.ofText key) ++ [':'] := by
  have hfits := IsSoundScalar.fits (isSound_ofText key) true
  have hstyle : admitted (wanted key) true key.toList ≠ .literal := by
    rcases admitted_key (wanted key) key.toList with h | h | ⟨h, -⟩ <;> simp [h]
  have hbegin : Layout.mayBegin [] = true := rfl
  have hscans := Layout.scans_scalar hbegin hfits hstyle hcalm
  have hkey : spellKey .single (Tree.ofText key) = scalarText none (wanted key) true 0 key :=
    spellScalar_single ..
  rw [keyLine, Layout.headOf, hkey, hscans [':'] fun _ => by decide, Layout.scan_outside (by simp)]
  simp [Layout.scan_nil, Tree.ofText, spellKey]

end Lockfile

end LockPrune
