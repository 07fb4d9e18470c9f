import LockPrune.Proofs.Lockfile.TreeLayout
import LockPrune.Proofs.Lockfile.WrittenTrees
import LockPrune.Proofs.Yaml.TreeEvents

/-!
# What the layout of a lockfile says

The layout of a lockfile writes other quotes and other lines than there were.  As long as
nothing misleads it, what the text says as YAML stays the same.

## Main definitions

* `Document.content?` — what a document says.
* `Tree.isKeptRoot` — the layout is not misled by the entries of a root.

## Main statements

* `Tree.content?_rows` — what the entries of a root say, in either kind of quotes.
* `Lockfile.content_layout` — the layout does not change what the YAML of a lockfile says.
-/

namespace LockPrune

open Yaml Yaml.Tree Yaml.Scalar

/-! ## Documents -/

/-- What a text says that is one whole document. -/
def Yaml.Document.content? (d : Document) : Option Content :=
  if d.isWhole then d.root.content? else none

theorem Yaml.Document.content?_eq_some_iff {d : Document} {c : Content} :
    d.content? = some c ↔ d.isWhole = true ∧ d.root.content? = some c := by
  rw [Document.content?, Option.ite_none_right_eq_some]

theorem Yaml.Document.content?_eq {root : Node} (size : Nat) (anchored : List (Nat × Node)) :
    (Document.mk root size none true anchored).content? = root.content? :=
  if_pos rfl

/-! ## The entries of a root -/

namespace Yaml.Tree

/-- The layout is not misled by the entries of a root, and no line that it puts in between
belongs to a block in front of it. -/
def isKeptRoot (entries : List (Tree × Tree)) : Bool :=
  Layout.isCalmRoot entries && (entries.all fun entry => entry.1.isSimpleKey || !entry.1.isOpen) &&
    entries.dropLast.all fun entry => !entry.2.isOpen

theorem isOpen_eq_false_of_isKeptRoot {entries : List (Tree × Tree)}
    (h : isKeptRoot entries = true) :
    (∀ entry ∈ entries, entry.1.isSimpleKey = false → entry.1.isOpen = false) ∧
      ∀ entry ∈ entries.dropLast, entry.2.isOpen = false := by
  simp only [isKeptRoot, Bool.and_eq_true, List.all_eq_true, Bool.or_eq_true,
    Bool.not_eq_true'] at h
  refine ⟨fun entry hentry hsimple => ?_, h.2⟩
  have hkey := h.1.2 entry hentry
  simpa [hsimple] using hkey

/-- The entries allow the lines that the layout puts in between. -/
theorem allowsGap_of_isKeptRoot {entries : List (Tree × Tree)} (hsound : EntriesSound entries)
    (h : isKeptRoot entries = true) : AllowsGap .double ['\n'] entries := by
  obtain ⟨hkey, hvalue⟩ := isOpen_eq_false_of_isKeptRoot h
  rw [entriesSound_iff] at hsound
  constructor
  · intro entry hentry
    right
    intro hsimple inner
    exact endsBlank_spell .double entry.1 (hsound entry hentry).1 (hkey entry hentry hsimple) .mark
      inner
  · right
    intro entry hentry
    have hv := endsBlank_spell .double entry.2
      (hsound entry (List.dropLast_subset entries hentry)).2 (hvalue entry hentry)
        (keyMark entry.1) 0
    rw [← hv]
    exact endsBlank_spellEntry .double ['\n'] entry.1 0 _ _ []

/-- What the entries of a root say, whatever quotes they stand in. -/
theorem content?_rows {q : Quoting} {gap : List Char} (hgap : ∀ a ∈ gap, a = '\n')
    {entries : List (Tree × Tree)} (hne : entries ≠ []) (hsound : EntriesSound entries)
    (hallows : AllowsGap q gap entries) :
    (Document.ofText (rows q gap entries)).content? =
      some (.mapping none (entryContents entries)) := by
  have hclear : IsClear gap := by
    intro a ha
    rw [hgap a ha]
    rfl
  obtain ⟨size, root, hdocument, hcontent⟩ := Document.content_ofText_rows .nil hgap hne hsound
    hallows fun a ha => isAdmitted_of_isPrintable (isClear_rows q hclear hsound a ha)
  rw [List.nil_append] at hdocument
  rw [hdocument, Document.content?_eq, hcontent]

/-- The layout does not change what the entries of a root say. -/
theorem content?_apply_render {entries : List (Tree × Tree)} (hne : entries ≠ [])
    (hsound : EntriesSound entries) (hkept : isKeptRoot entries = true) :
    (Document.ofText (render entries)).content? = some (.mapping none (entryContents entries)) ∧
      (Document.ofText (Layout.apply (render entries))).content? =
        some (.mapping none (entryContents entries)) := by
  have hcalm : Layout.isCalmRoot entries = true := by
    rw [isKeptRoot, Bool.and_eq_true, Bool.and_eq_true] at hkept
    exact hkept.1.1
  have hallows : AllowsGap .single [] entries := ⟨fun entry _ => .inl rfl, .inl rfl⟩
  rw [render_eq_rows hne, Layout.apply_rows hsound hcalm]
  constructor
  · exact content?_rows (by simp) hne hsound hallows
  · exact content?_rows (by simp) hne hsound (allowsGap_of_isKeptRoot hsound hkept)

end Yaml.Tree

/-! ## Lockfiles -/

namespace Lockfile

/-- The layout of a lockfile says what the YAML of the lockfile says, unless the layout takes
something in it for what it is not. -/
theorem content_layout {l : Lockfile} (hne : l.entries ≠ []) (hread : l.IsReadable)
    {trees : List (Tree × Tree)} (htrees : l.trees? = some trees)
    (hkept : isKeptRoot trees = true) :
    ∃ yaml content, l.yaml? = some yaml ∧ (Document.ofText yaml).content? = some content ∧
      (Document.ofText (Layout.apply yaml)).content? = some content := by
  have hlength := (forall₂_of_trees? htrees).length_eq
  have hne' : trees ≠ [] := by
    rintro rfl
    exact hne (List.length_eq_zero_iff.1 hlength)
  obtain ⟨hyaml, hlayout⟩ := content?_apply_render hne' (entriesSound_of_trees? hread htrees) hkept
  refine ⟨render trees, _, ?_, hyaml, hlayout⟩
  rw [yaml?, htrees, Option.map_some, if_neg (by simpa using hne')]

/-- An entry with a text in quotes, an apostrophe in a text without, and a tag. -/
def quotedEntry : Entry :=
  { version := "1.0", conditions := "it's - so",
    extra := .ofList [("bin", .tagged "own" (.string "2.10"))] }

/-- An entry with a text of several lines. -/
def lineEntry : Entry :=
  { version := "2.10", resolution := "- 'b\n" }

theorem content_layout_quoted :
    ∃ yaml content, (ofBlocks .current [⟨"a@npm:^1", quotedEntry⟩, ⟨"b@1, b@2", lineEntry⟩]).yaml? =
        some yaml ∧
      (Document.ofText yaml).content? = some content ∧
      (Document.ofText (Layout.apply yaml)).content? = some content := by
  generalize hl : ofBlocks .current [⟨"a@npm:^1", quotedEntry⟩, ⟨"b@1, b@2", lineEntry⟩] = l
  have hentries : l.entries =
      [("a@npm:^1", quotedEntry), ("b@1", lineEntry), ("b@2", lineEntry)] := by
    rw [← hl]
    rfl
  have hread : l.IsReadable := by
    have hextra : quotedEntry.extra.pairs = [("bin", .tagged "own" (.string "2.10"))] := rfl
    have htag : IsReadableTag (Value.tagText "own") :=
      ⟨['o', 'w', 'n'], by decide +kernel, by decide, forall_mem_of_all (by decide)⟩
    have hquoted : quotedEntry.IsReadable := by
      rw [Entry.IsReadable, hextra, List.forall_mem_singleton]
      exact ⟨htag, trivial⟩
    have hline : lineEntry.IsReadable := fun p hp => absurd hp List.not_mem_nil
    rw [IsReadable, hentries]
    simp [hquoted, hline]
  obtain ⟨trees, htrees, hkept⟩ : ∃ trees, l.trees? = some trees ∧ isKeptRoot trees = true := by
    rw [trees?, hentries]
    refine ⟨_, rfl, ?_⟩
    decide +kernel
  exact content_layout (by simp [hentries]) hread htrees hkept

end Lockfile

end LockPrune
