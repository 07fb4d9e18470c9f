import LockPrune.Proofs.Lockfile.Apart
import LockPrune.Proofs.Lockfile.LayoutState
import LockPrune.Proofs.Lockfile.TreeLayout
import LockPrune.Proofs.Lockfile.WrittenTrees

/-!
# The blocks of a file

Every key of a lockfile is written on lines of its own, and the layout goes over all of them in
one pass.  A block comes out as it does in the file of its key alone unless one in front of it
leaves a text between quotes open, or does not end its last line.

## Main definitions

* `Tree.blockText` — the YAML of an entry of the root.
* `Lockfile.tree?`, `Lockfile.blockYaml` — a key with its entry, as a tree and as YAML.
* `Lockfile.IsSettled` — the layout is through with the texts of a lockfile at the end of them.

## Main statements

* `Lockfile.yaml?_restrict` — the YAML of some of the keys.
* `Lockfile.encode_eq_blocks_iff` — when the file of some of the keys is made of the files of
  each.
* `Lockfile.encode_eq_blocks` — it is where nothing misleads the layout.
-/

namespace LockPrune

open Yaml Yaml.Tree Yaml.Scalar

/-! ## The entries of a root -/

namespace Yaml.Tree

/-- The YAML of an entry of the root. -/
def blockText (entry : Tree × Tree) : List Char :=
  closeLine (row .single [] entry)

theorem rows_eq_flatMap (entries : List (Tree × Tree)) :
    rows .single [] entries = entries.flatMap blockText := rfl

/-- A key in front of its colon begins its line. -/
theorem isLeft_spellKey {key : String} (hsimple : (Tree.ofText key).isSimpleKey = true)
    (s : List Char) : Layout.IsLeft (spellKey .single (Tree.ofText key) ++ s) := by
  have hfits := IsSoundScalar.fits (isSound_ofText key) true
  have hword : Layout.IsWord (spellKey .single (Tree.ofText key)) :=
    Layout.isWord_write .single hfits 0
  obtain ⟨c, r, hkey⟩ := List.exists_cons_of_ne_nil hword.ne_nil
  refine ⟨c, r ++ s, by rw [hkey, List.cons_append], ?_, ?_⟩
  · simpa [hkey] using hword.no_space
  · exact (spellKey_line .single hsimple).1 c (by simp [hkey])

theorem isSection_blockText (key : String) (v : Tree) :
    Layout.IsSection (blockText (Tree.ofText key, v)) := by
  refine ⟨?_, endsWith_closeLine _⟩
  rw [blockText, closeLine_eq, row, spellEntry]
  split
  · rename_i hsimple
    rw [List.append_assoc]
    exact isLeft_spellKey hsimple _
  · rw [closeLine_cons (by decide)]
    simp only [List.cons_append]
    exact ⟨'?', _, rfl, by decide, by decide⟩

end Yaml.Tree

/-! ## Keys with their entries -/

namespace Lockfile

variable {l : Lockfile} {key : String} {kept : List String}

/-- A key with the fields of its entry, if they can be written. -/
def tree? (l : Lockfile) (key : String) : Option (Tree × Tree) :=
  (l.entry? key).bind fun e => e.trees?.map fun fields => (Tree.ofText key, .mapping none fields)

/-- The trees of a lockfile are those of its keys. -/
theorem trees?_eq_mapM (l : Lockfile) : l.trees? = l.keys.mapM l.tree? := by
  have hkeys : ∀ keys : List String, (∀ key ∈ keys, key ∈ l.keys) →
      (keys.filterMap fun key => (l.entry? key).map fun e => (key, e)).mapM (fun p =>
        p.2.trees?.map fun fields => (Tree.ofText p.1, Tree.mapping none fields)) =
          keys.mapM l.tree? := by
    intro keys hmem
    induction keys with
    | nil => rfl
    | cons key keys ih =>
      rw [List.forall_mem_cons] at hmem
      obtain ⟨e, he⟩ := Option.isSome_iff_exists.1 (entry?_isSome_iff.2 hmem.1)
      have htree : l.tree? key =
          e.trees?.map fun fields => (Tree.ofText key, Tree.mapping none fields) := by
        rw [tree?, he]
        rfl
      rw [List.filterMap_cons_some (by rw [he]; rfl), List.mapM_cons, List.mapM_cons, ih hmem.2,
        htree]
  rw [trees?, entries_eq_filterMap]
  exact hkeys l.keys fun _ h => h

theorem tree?_restrict (h : key ∈ kept) : (l.restrict kept).tree? key = l.tree? key := by
  rw [tree?, tree?, entry?_restrict h]

/-- The YAML of a key with its entry. -/
def blockYaml (l : Lockfile) (key : String) : List Char :=
  ((l.tree? key).map blockText).getD []

theorem isSection_blockYaml (h : (l.tree? key).isSome = true) :
    Layout.IsSection (l.blockYaml key) := by
  obtain ⟨tree, htree⟩ := Option.isSome_iff_exists.1 h
  rw [blockYaml, htree]
  obtain ⟨e, -, hfields⟩ := Option.bind_eq_some_iff.1 htree
  obtain ⟨fields, -, rfl⟩ := Option.map_eq_some_iff.1 hfields
  exact isSection_blockText key _

theorem exists_mapM_tree? {keys : List String}
    (h : ∀ key ∈ keys, (l.tree? key).isSome = true) :
    ∃ trees, keys.mapM l.tree? = some trees ∧
      trees.flatMap blockText = keys.flatMap l.blockYaml := by
  induction keys with
  | nil => exact ⟨[], rfl, rfl⟩
  | cons key keys ih =>
    rw [List.forall_mem_cons] at h
    obtain ⟨tree, htree⟩ := Option.isSome_iff_exists.1 h.1
    obtain ⟨trees, htrees, hblocks⟩ := ih h.2
    refine ⟨tree :: trees, by rw [List.mapM_cons, htree, htrees]; rfl, ?_⟩
    rw [List.flatMap_cons, List.flatMap_cons, hblocks, blockYaml, htree]
    rfl

theorem isSome_tree?_of_mapM {keys : List String} {trees : List (Tree × Tree)}
    (h : keys.mapM l.tree? = some trees) : ∀ key ∈ keys, (l.tree? key).isSome = true :=
  isSome_mapM_iff.1 (Option.isSome_iff_exists.2 ⟨trees, h⟩)

/-- The YAML of a lockfile is that of its keys, one after the other. -/
theorem yaml?_eq_some_iff {yaml : List Char} :
    l.yaml? = some yaml ↔
      (∀ key ∈ l.keys, (l.tree? key).isSome = true) ∧ yaml = l.keys.flatMap l.blockYaml := by
  have hrows : ∀ trees : List (Tree × Tree),
      (if trees.isEmpty then [] else render trees) = trees.flatMap blockText := by
    intro trees
    cases trees with
    | nil => rfl
    | cons tree trees => exact render_eq_rows (List.cons_ne_nil _ _)
  simp only [yaml?, trees?_eq_mapM, hrows, Option.map_eq_some_iff]
  constructor
  · rintro ⟨trees, htrees, rfl⟩
    have hsome := isSome_tree?_of_mapM htrees
    obtain ⟨trees', htrees', hblocks⟩ := exists_mapM_tree? hsome
    obtain rfl : trees' = trees := Option.some.inj (htrees'.symm.trans htrees)
    exact ⟨hsome, hblocks⟩
  · rintro ⟨hsome, rfl⟩
    exact exists_mapM_tree? hsome

/-- The file with some text behind the header. -/
def file (body : List Char) : String :=
  String.ofList (header.toList ++ body)

theorem file_injective {x y : List Char} (h : file x = file y) : x = y := by
  simpa [file] using congrArg String.toList h

theorem encode_eq_ok_iff {text : String} :
    l.encode = .ok text ↔ ∃ yaml, l.yaml? = some yaml ∧ text = file (Layout.apply yaml) := by
  rw [encode, writes]
  cases l.yaml? with
  | none => simp [Except.map]
  | some yaml => simp [Except.map, file, Layout.apply, eq_comm]

/-! ## Some of the keys -/

theorem blockYaml_restrict (h : key ∈ kept) :
    (l.restrict kept).blockYaml key = l.blockYaml key := by
  rw [blockYaml, blockYaml, tree?_restrict h]

/-- The YAML of some of the keys of a lockfile that can be written. -/
theorem yaml?_restrict (h : ∀ key ∈ l.keys, (l.tree? key).isSome = true) (kept : List String) :
    (l.restrict kept).yaml? = some ((l.restrict kept).keys.flatMap l.blockYaml) := by
  refine yaml?_eq_some_iff.2 ⟨fun key hkey => ?_, ?_⟩
  · obtain ⟨hkept, hkey⟩ := mem_keys_restrict.1 hkey
    rw [tree?_restrict hkept]
    exact h key hkey
  · exact (List.flatMap_congr fun key hkey => blockYaml_restrict (mem_keys_restrict.1 hkey).1).symm

theorem keys_restrict_singleton (h : key ∈ l.keys) : (l.restrict [key]).keys = [key] := by
  rw [keys_restrict (List.nodup_singleton key), List.filter_singleton, block?_isSome_iff.2 h]
  rfl

theorem yaml?_restrict_singleton (h : ∀ key ∈ l.keys, (l.tree? key).isSome = true)
    (hkey : key ∈ l.keys) : (l.restrict [key]).yaml? = some (l.blockYaml key) := by
  rw [yaml?_restrict h, keys_restrict_singleton hkey, List.flatMap_singleton]

/-! ## Blocks on their own -/

/-- At the end of the texts of a lockfile the layout is at the end of a line, and no text between
quotes is open. -/
def IsSettled (l : Lockfile) : Prop :=
  ∀ yaml, l.yaml? = some yaml → Layout.IsSettled yaml

theorem isSettled_restrict_singleton_iff (h : ∀ key ∈ l.keys, (l.tree? key).isSome = true)
    (hkey : key ∈ l.keys) : (l.restrict [key]).IsSettled ↔ Layout.IsSettled (l.blockYaml key) := by
  rw [IsSettled, yaml?_restrict_singleton h hkey]
  simp

/-- The blocks of some keys come out one by one exactly if all of them are settled but the last. -/
theorem apply_flatMap_blockYaml_iff (h : ∀ key ∈ l.keys, (l.tree? key).isSome = true)
    {keys : List String} (hkeys : ∀ key ∈ keys, key ∈ l.keys) :
    Layout.apply (keys.flatMap l.blockYaml) =
        keys.flatMap (fun key => Layout.apply (l.blockYaml key)) ↔
      ∀ key ∈ keys.dropLast, (l.restrict [key]).IsSettled := by
  have hsections : ∀ t ∈ keys.map l.blockYaml, Layout.IsSection t := by
    intro t ht
    obtain ⟨key, hkey, rfl⟩ := List.mem_map.1 ht
    exact isSection_blockYaml (h key (hkeys key hkey))
  have hmap : keys.map (fun key => Layout.apply (l.blockYaml key)) =
      (keys.map l.blockYaml).map Layout.apply := by
    rw [List.map_map]
    rfl
  rw [List.flatMap_def, List.flatMap_def, hmap, Layout.apply_flatten_iff hsections,
    ← List.map_dropLast, List.forall_mem_map]
  refine forall₂_congr fun key hkey => ?_
  rw [isSettled_restrict_singleton_iff h (hkeys key (List.dropLast_subset keys hkey))]

/-- **Blocks are local where no text is left open**: every key has a block that is its whole file
but for the header, and the file of a lockfile, or of any of its keys, is made of their blocks
exactly if each of them but the last ends its line and closes its quotes. -/
theorem encode_eq_blocks_iff {text : String} (h : l.encode = .ok text) :
    ∃ block : String → List Char,
      (∀ key ∈ l.keys, (l.restrict [key]).encode = .ok (file (block key))) ∧
        (text = file (l.keys.flatMap block) ↔
          ∀ key ∈ l.keys.dropLast, (l.restrict [key]).IsSettled) ∧
        ∀ kept : List String, ∃ text', (l.restrict kept).encode = .ok text' ∧
          (text' = file ((l.restrict kept).keys.flatMap block) ↔
            ∀ key ∈ (l.restrict kept).keys.dropLast, (l.restrict [key]).IsSettled) := by
  obtain ⟨yaml, hyaml, rfl⟩ := encode_eq_ok_iff.1 h
  obtain ⟨hsome, rfl⟩ := yaml?_eq_some_iff.1 hyaml
  have hfile : ∀ x y, file x = file y ↔ x = y := fun x y => ⟨file_injective, congrArg file⟩
  refine ⟨fun key => Layout.apply (l.blockYaml key), fun key hkey => ?_, ?_, fun kept => ?_⟩
  · exact encode_eq_ok_iff.2 ⟨_, yaml?_restrict_singleton hsome hkey, rfl⟩
  · rw [hfile, apply_flatMap_blockYaml_iff hsome fun _ hkey => hkey]
  · refine ⟨_, encode_eq_ok_iff.2 ⟨_, yaml?_restrict hsome kept, rfl⟩, ?_⟩
    rw [hfile, apply_flatMap_blockYaml_iff hsome fun _ hkey => (mem_keys_restrict.1 hkey).2]

/-- A lockfile with a quote that is left open in the first of its blocks. -/
def unclosed : Lockfile :=
  ofBlocks .current [⟨"a@1", { version := "1", conditions := "x - \"" }⟩,
    ⟨"b@1", { version := "1" }⟩]

/-- The block that leaves the quote open changes the one behind it, and none in front of it. -/
theorem encode_unclosed_blocks :
    ∃ text, unclosed.encode = .ok text ∧ ∃ block : String → List Char,
      (∀ key ∈ unclosed.keys, (unclosed.restrict [key]).encode = .ok (file (block key))) ∧
        text ≠ file (unclosed.keys.flatMap block) ∧
        (unclosed.restrict ["b@1", "a@1"]).encode = .ok (file (["b@1", "a@1"].flatMap block)) := by
  have hkeys : unclosed.keys = ["a@1", "b@1"] := by decide
  have hsome : ∀ key ∈ unclosed.keys, (unclosed.tree? key).isSome = true := by
    rw [hkeys]
    decide
  have hopen : ¬ Layout.IsSettled (unclosed.blockYaml "a@1") := by
    decide +kernel
  have hsettled : Layout.IsSettled (unclosed.blockYaml "b@1") := by
    decide +kernel
  have hencode : unclosed.encode =
      .ok (file (Layout.apply (unclosed.keys.flatMap unclosed.blockYaml))) :=
    encode_eq_ok_iff.2 ⟨_, yaml?_eq_some_iff.2 ⟨hsome, rfl⟩, rfl⟩
  obtain ⟨block, hblock, hwhole, hkept⟩ := encode_eq_blocks_iff hencode
  have hkeys' : (unclosed.restrict ["b@1", "a@1"]).keys = ["b@1", "a@1"] := by decide
  refine ⟨_, hencode, block, hblock, ?_, ?_⟩
  · rw [Ne, hwhole, hkeys]
    intro hall
    exact hopen ((isSettled_restrict_singleton_iff hsome (by decide)).1 (hall "a@1" (by decide)))
  · obtain ⟨text', htext', hblocks⟩ := hkept ["b@1", "a@1"]
    rw [hkeys'] at hblocks
    rw [htext', hblocks.2]
    intro key hkey
    obtain rfl : key = "b@1" := by simpa using hkey
    exact (isSettled_restrict_singleton_iff hsome (by decide)).2 hsettled

/-! ## Blocks that do not mislead the layout -/

/-- Where nothing misleads the layout, a block is settled. -/
theorem isSettled_blockText {entry : Tree × Tree} (hsection : Layout.IsSection (blockText entry))
    (hsound : EntriesSound [entry]) (hcalm : Layout.isCalmRoot [entry] = true) :
    Layout.IsSettled (blockText entry) := by
  have hleft : Layout.IsLeft ['x'] := ⟨'x', [], rfl, by decide, by decide⟩
  obtain ⟨out, hout⟩ := Layout.exists_apply_eq hleft.startsFlush
  obtain ⟨b, -, hruns⟩ := Layout.keeps_rows hsound hcalm none
  rw [rows_eq_flatMap, List.flatMap_singleton] at hruns
  have hnext := hruns ['x']
  rw [Layout.applyFrom_outside hleft.startsFlush rfl, ← hruns.apply_eq, hout] at hnext
  exact Layout.isSettled_of_apply_append hsection.ends hleft hnext

theorem isCalmRoot_singleton_of_mem {entries : List (Tree × Tree)} {entry : Tree × Tree}
    (hcalm : Layout.isCalmRoot entries = true) (hentry : entry ∈ entries) :
    Layout.isCalmRoot [entry] = true := by
  induction entries with
  | nil => cases hentry
  | cons first entries ih =>
    simp only [Layout.isCalmRoot, entriesCalm, List.all_cons, List.all_nil,
      Bool.and_eq_true] at hcalm ih ⊢
    obtain ⟨⟨hfirst, hcalm⟩, hflat, hflats⟩ := hcalm
    rcases List.mem_cons.1 hentry with rfl | hentry
    · exact ⟨⟨hfirst, trivial⟩, hflat, trivial⟩
    · exact ih ⟨hcalm, hflats⟩ hentry

/-- Where nothing in the entries of a lockfile misleads the layout, all blocks are settled. -/
theorem isSettled_of_isCalmRoot (hread : l.IsReadable) {trees : List (Tree × Tree)}
    (htrees : l.trees? = some trees) (hcalm : Layout.isCalmRoot trees = true)
    (hkey : key ∈ l.keys) : (l.restrict [key]).IsSettled := by
  have hsound := entriesSound_of_trees? hread htrees
  rw [trees?_eq_mapM] at htrees
  have hsome := isSome_tree?_of_mapM htrees
  obtain ⟨tree, hmem, htree⟩ := exists_mem_left (mapM_eq_some_iff.1 htrees).flip hkey
  have hsection := isSection_blockYaml (hsome key hkey)
  rw [isSettled_restrict_singleton_iff hsome hkey]
  rw [blockYaml, htree] at hsection ⊢
  have hsound := entriesSound_iff.1 hsound tree hmem
  exact isSettled_blockText hsection ⟨hsound.1, hsound.2, trivial⟩
    (isCalmRoot_singleton_of_mem hcalm hmem)

/-- The file of a lockfile whose entries do not mislead the layout is made of its blocks. -/
theorem encode_eq_blocks {text : String} (h : l.encode = .ok text) (hread : l.IsReadable)
    {trees : List (Tree × Tree)} (htrees : l.trees? = some trees)
    (hcalm : Layout.isCalmRoot trees = true) :
    text = file (l.keys.flatMap fun key => Layout.apply (l.blockYaml key)) := by
  obtain ⟨yaml, hyaml, rfl⟩ := encode_eq_ok_iff.1 h
  obtain ⟨hsome, rfl⟩ := yaml?_eq_some_iff.1 hyaml
  refine congrArg file ((apply_flatMap_blockYaml_iff hsome fun _ hkey => hkey).2 fun key hkey => ?_)
  exact isSettled_of_isCalmRoot hread htrees hcalm (List.dropLast_subset l.keys hkey)

end Lockfile

end LockPrune
