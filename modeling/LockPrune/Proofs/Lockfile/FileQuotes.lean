import LockPrune.Proofs.Lockfile.FileReading
import LockPrune.Proofs.Yaml.ScalarQuotes

/-!
# The quotes in a file

A file has the scalars that the YAML of its lockfile has, behind those of the metadata, and where
the YAML has single quotes the file has double quotes.  Only behind a tag single quotes stay.
All of this is as long as nothing misleads the layout: a line that looks like one of a block keeps
its quotes, too.

## Main definitions

* `Metadata.scalars` — the scalars in the block of the metadata.

## Main statements

* `Lockfile.scalars_encode` — which scalars a file has, and in which quotes.
-/

namespace LockPrune

open Yaml Yaml.Tree

/-- The scalars of a text that is comments and the entries of a mapping. -/
theorem Yaml.Tokens.scalars_ofText_rows {q : Quoting} {pre gap : List Char}
    {entries : List (Tree × Tree)} (hpre : Preamble pre) (hgap : ∀ a ∈ gap, a = '\n')
    (hne : entries ≠ []) (hsound : EntriesSound entries) (hallows : AllowsGap q gap entries)
    (hchars : ∀ a ∈ pre ++ rows q gap entries, isAdmitted a = true) :
    (Tokens.ofText (pre ++ rows q gap entries)).complete = true ∧
      (Tokens.ofText (pre ++ rows q gap entries)).scalars =
        scalarsFrom false (entryKinds q entries ++ [.blockEnd, .streamEnd]) := by
  obtain ⟨tokens, htokens, hkinds⟩ := Tokens.ofText_rows hpre hgap hne hsound hallows hchars
  rw [htokens, Tokens.scalars, List.map_cons, hkinds]
  exact ⟨rfl, rfl⟩

namespace Metadata

/-- The scalars in the block of the metadata. -/
def scalars : List WrittenScalar :=
  [key, "version", current.version, "cacheKey", current.cacheKey].map
    fun text => ⟨false, .plain, text.toList⟩

/-- The scalars of the metadata stand in front of those of the blocks. -/
theorem scalarsFrom_entryKinds (trees : List (Tree × Tree)) (rest : List Token.Kind) :
    scalarsFrom false (entryKinds .double (tree :: trees) ++ rest) =
      scalars ++ scalarsFrom false (entryKinds .double trees ++ rest) :=
  rfl

end Metadata

namespace Lockfile

variable {l : Lockfile} {text : String}

/-- The scalars of the YAML of a lockfile. -/
theorem scalars_yaml (hread : l.IsReadable) {trees : List (Tree × Tree)}
    (htrees : l.trees? = some trees) :
    (Tokens.ofText (rows .single [] trees)).complete = true ∧
      (Tokens.ofText (rows .single [] trees)).scalars =
        scalarsFrom false (entryKinds .single trees ++ [.blockEnd, .streamEnd]) := by
  have hsound := entriesSound_of_trees? hread htrees
  have hgap : IsClear ([] : List Char) := fun _ ha => absurd ha List.not_mem_nil
  cases trees with
  | nil => decide
  | cons entry entries =>
    exact Tokens.scalars_ofText_rows .nil (by simp) (List.cons_ne_nil _ _) hsound
      ⟨fun _ _ => .inl rfl, .inl rfl⟩
      fun a ha => isAdmitted_of_isPrintable (isClear_rows .single hgap hsound a ha)

/-- The scalars of a file. -/
theorem scalars_file (hread : l.IsReadable) {trees : List (Tree × Tree)}
    (htrees : l.trees? = some trees) (hkept : isKeptRoot trees = true) (h : l.encode = .ok text) :
    (Tokens.ofText text.toList).complete = true ∧
      (Tokens.ofText text.toList).scalars = Metadata.scalars ++
        scalarsFrom false (entryKinds .double trees ++ [.blockEnd, .streamEnd]) := by
  have hsound := entriesSound_of_trees? hread htrees
  rw [toList_of_encode hread htrees hkept h, ← Metadata.scalarsFrom_entryKinds]
  exact Tokens.scalars_ofText_rows preamble_headerComment (by simp) (List.cons_ne_nil _ _)
    (Metadata.entriesSound_tree hsound)
    (Metadata.allowsGap_tree (allowsGap_of_isKeptRoot hsound hkept)) (isAdmitted_file hsound)

/-- **Quotes**: unless the layout takes something for what it is not, a file is whole as YAML and
has, behind those of the metadata, the scalars that the YAML of the lockfile has, one by one
requoted.  So no single quotes are left exactly if there are none behind a tag. -/
theorem scalars_encode (hread : l.IsReadable)
    (hkept : ∀ trees, l.trees? = some trees → isKeptRoot trees = true)
    (h : l.encode = .ok text) :
    ∃ yaml, l.yaml? = some yaml ∧ (Tokens.ofText yaml).complete = true ∧
      (Tokens.ofText text.toList).complete = true ∧
      (Tokens.ofText text.toList).scalars =
        Metadata.scalars ++ (Tokens.ofText yaml).scalars.map .requoted ∧
      ((∀ s ∈ (Tokens.ofText text.toList).scalars, s.style ≠ .single) ↔
        ∀ s ∈ (Tokens.ofText yaml).scalars, s.style = .single → s.tagged = false) := by
  obtain ⟨trees, htrees⟩ := exists_trees h
  obtain ⟨hyaml, hyamlScalars⟩ := scalars_yaml hread htrees
  obtain ⟨hfile, hfileScalars⟩ := scalars_file hread htrees (hkept trees htrees) h
  have hrequoted := requotes_entryKinds trees [.blockEnd, .streamEnd] [.blockEnd, .streamEnd] rfl
  rw [hrequoted, ← hyamlScalars] at hfileScalars
  refine ⟨_, yaml?_of_trees? htrees, hyaml, hfile, hfileScalars, ?_⟩
  have hmetadata : ∀ s ∈ Metadata.scalars, s.style ≠ .single := by decide
  rw [hfileScalars, List.forall_mem_append, and_iff_right hmetadata, List.forall_mem_map]
  refine forall₂_congr fun s _ => ?_
  rw [ne_eq, WrittenScalar.style_requoted_eq_single_iff, not_and, Bool.not_eq_true]

/-- The scalars in a file of a block with a text that looks like a number, and of such a text
behind a tag. -/
def quotedScalars : List WrittenScalar :=
  [⟨false, .plain, "a@npm:^1".toList⟩, ⟨false, .plain, "version".toList⟩,
    ⟨false, .double, "1.0".toList⟩, ⟨false, .plain, "bin".toList⟩, ⟨true, .single, "2.10".toList⟩,
    ⟨false, .plain, "conditions".toList⟩, ⟨false, .plain, "it's - so".toList⟩]

/-- The text that looks like a number gets double quotes, but behind the tag it does not. -/
theorem scalars_encode_quoted :
    ∃ text, (ofBlocks .current [⟨"a@npm:^1", quotedEntry⟩]).encode = .ok text ∧
      (Tokens.ofText text.toList).scalars = Metadata.scalars ++ quotedScalars := by
  obtain ⟨l, hl⟩ : ∃ l, l = ofBlocks .current [⟨"a@npm:^1", quotedEntry⟩] := ⟨_, rfl⟩
  rw [← hl]
  have hentries : l.entries = [("a@npm:^1", quotedEntry)] := by
    rw [hl]
    rfl
  have hread : l.IsReadable := by
    have hextra : quotedEntry.extra.pairs = [("bin", .tagged "own" (.string "2.10"))] := rfl
    have htag : IsReadableTag (Value.tagText "own") :=
      ⟨['o', 'w', 'n'], by decide +kernel, by decide, forall_mem_of_all (by decide)⟩
    rw [IsReadable, hentries, List.forall_mem_singleton, Entry.IsReadable, hextra,
      List.forall_mem_singleton]
    exact ⟨htag, trivial⟩
  have hkept : ∀ trees, l.trees? = some trees → isKeptRoot trees = true := by
    have hall : l.trees?.all isKeptRoot = true := by
      rw [trees?, hentries]
      decide +kernel
    intro trees htrees
    rwa [htrees] at hall
  obtain ⟨text, htext⟩ : ∃ text, l.encode = .ok text := by
    rw [encode, writes, yaml?, trees?, hentries]
    exact ⟨_, rfl⟩
  obtain ⟨yaml, hyaml, -, -, hscalars, -⟩ := scalars_encode hread hkept htext
  have hmap : l.yaml?.map (fun yaml => (Tokens.ofText yaml).scalars.map WrittenScalar.requoted) =
      some quotedScalars := by
    rw [yaml?, trees?, hentries]
    decide +kernel
  rw [hyaml, Option.map_some, Option.some.injEq] at hmap
  exact ⟨text, htext, by rw [hscalars, hmap]⟩

/-- An entry with a text of several lines and a further text in an item of a sequence. -/
def nestedEntry : Entry :=
  { version := "1.0",
    extra := .ofList [("bin", .sequence [.mapping
      [(.string "b", .string "x\n"), (.string "c", .string "1")]])] }

-- The layout takes the line behind the block for one of its lines: what follows the header has a
-- text between single quotes, behind no tag.
example : (ofBlocks .current [⟨"a@npm:^1", nestedEntry⟩]).yaml?.any (fun yaml =>
    ⟨false, .single, ['1']⟩ ∈ (Tokens.ofText (Layout.apply yaml)).scalars) = true := by
  decide +kernel

end Lockfile

end LockPrune
