import LockPrune.Lockfile.Decode
import LockPrune.Proofs.Lockfile.Apart
import LockPrune.Proofs.Lockfile.FieldOrder
import LockPrune.Proofs.Lockfile.LayoutContent
import LockPrune.Proofs.Lockfile.LayoutHeads
import LockPrune.Proofs.Text.Octets

/-!
# Files read back

The file of a lockfile is read as the lockfile with a block for every key.  Four things may be in
the way: a tag that does not read back, a text that misleads the layout, a key that is the one of
the metadata, and a line that looks like a mark of a merge conflict.

## Main definitions

* `Lockfile.IsHeld` — the lockfiles that a file can hold.
* `Lockfile.IsReadFrom` — a block was read from an entry of the root.
* `Lockfile.IsFaithful` — nothing is in the way of reading the file of a lockfile back.
* `Lockfile.ReadsBack` — the file of a lockfile reads back.

## Main statements

* `Lockfile.content?_documentOf_encode`, `Lockfile.entryContents?_rows_of_encode` — what the
  document of a written file says, and its rows.
* `Lockfile.forall₂_of_decodeBlocks` — the blocks of a file are read from the entries of its root.
* `Lockfile.isHeld_of_decode` — a lockfile that is read is one that a file can hold.
* `Lockfile.decode_encode` — the file of a lockfile is read back.
* `Lockfile.IsFaithful.restrict` — nothing is in the way of some of the keys, either.
-/

namespace LockPrune

open Yaml Yaml.Tree

/-! ## The text of a file -/

namespace Metadata

/-- The block of the metadata, as it is written. -/
def tree : Tree × Tree :=
  (.scalar none .plain key, .mapping none
    [(.scalar none .plain "version", .scalar none .plain current.version),
      (.scalar none .plain "cacheKey", .scalar none .plain current.cacheKey)])

theorem isSound_plain {s : String} (hbreak : '\n' ∉ s.toList) (hne : s.toList ≠ []) :
    (Tree.scalar none .plain s).IsSound :=
  ⟨hasSoundTag_none, fun _ => hbreak, fun _ => hne⟩

theorem entriesSound_tree {entries : List (Tree × Tree)} (h : EntriesSound entries) :
    EntriesSound (tree :: entries) := by
  refine ⟨isSound_plain (by decide) (by decide), ⟨hasSoundTag_none, ?_⟩, h⟩
  exact ⟨isSound_plain (by decide) (by decide), isSound_plain (by decide) (by decide),
    isSound_plain (by decide) (by decide), isSound_plain (by decide) (by decide), trivial⟩

/-- The beginning of every file is a comment and the block of the metadata. -/
theorem header_eq : header.toList = headerComment.toList ++ rows .double ['\n'] [tree] := by
  have hblock : ("\n" ++ (key ++ (":\n  version: " ++ (current.version ++ ("\n  cacheKey: " ++
      (current.cacheKey ++ "\n")))))).toList = rows .double ['\n'] [tree] := by
    decide
  rw [← hblock, ← String.toList_append]
  simp only [header, String.append_assoc]

theorem allowsGap_tree {entries : List (Tree × Tree)} (h : AllowsGap .double ['\n'] entries) :
    AllowsGap .double ['\n'] (tree :: entries) := by
  constructor
  · rw [List.forall_mem_cons]
    exact ⟨.inr fun hsimple => absurd hsimple (by decide), h.key⟩
  · right
    cases entries with
    | nil => simp
    | cons entry entries =>
      rw [List.dropLast_cons_of_ne_nil (List.cons_ne_nil _ _), List.forall_mem_cons]
      exact ⟨by decide, h.row.resolve_left (List.cons_ne_nil _ _)⟩

end Metadata

theorem preamble_headerComment : Preamble headerComment.toList := by
  have htext : headerComment.toList =
      '#' :: " This file is generated by running \"yarn install\" inside your project.".toList ++
        '\n' :: ('#' :: " Manual changes might be lost - proceed with caution!".toList ++
          '\n' :: []) := by
    have hlines : headerComment =
        "#" ++ " This file is generated by running \"yarn install\" inside your project." ++ "\n" ++
          ("#" ++ " Manual changes might be lost - proceed with caution!" ++ "\n") := by
      decide
    rw [hlines]
    simp only [String.toList_append]
    rfl
  rw [htext]
  exact .comment (forall_mem_of_all (by decide))
    (.comment (forall_mem_of_all (by decide)) .nil)

namespace Lockfile

variable {l : Lockfile} {text : String}

/-- The YAML of a lockfile is its blocks, one behind the other. -/
theorem yaml?_of_trees? {trees : List (Tree × Tree)} (htrees : l.trees? = some trees) :
    l.yaml? = some (rows .single [] trees) := by
  rw [yaml?, htrees, Option.map_some]
  cases trees with
  | nil => rfl
  | cons entry entries =>
    rw [List.isEmpty_cons, if_neg Bool.false_ne_true, render_eq_rows (List.cons_ne_nil _ _)]

/-- The file of a lockfile: the comment, the metadata and the blocks. -/
theorem toList_of_encode (htags : l.IsReadable) {trees : List (Tree × Tree)}
    (htrees : l.trees? = some trees) (hkept : isKeptRoot trees = true)
    (h : l.encode = .ok text) :
    text.toList = headerComment.toList ++ rows .double ['\n'] (Metadata.tree :: trees) := by
  have hcalm : Layout.isCalmRoot trees = true := by
    rw [isKeptRoot, Bool.and_eq_true, Bool.and_eq_true] at hkept
    exact hkept.1.1
  rw [encode, writes, yaml?_of_trees? htrees] at h
  obtain rfl := Except.ok.inj h
  rw [String.toList_ofList, List.flatten_cons]
  change header.toList ++ Layout.apply _ = _
  rw [Layout.apply_rows (entriesSound_of_trees? htags htrees) hcalm, Metadata.header_eq,
    List.append_assoc]
  rfl

/-- No character of a file is one that a text may not have. -/
theorem isAdmitted_file {trees : List (Tree × Tree)} (hsound : EntriesSound trees) :
    ∀ a ∈ headerComment.toList ++ rows .double ['\n'] (Metadata.tree :: trees),
      isAdmitted a = true := by
  have hcomment : ∀ a ∈ headerComment.toList, Scalar.isPrintable a = true := by
    unfold headerComment
    rw [String.toList_append]
    exact List.forall_mem_append.2 ⟨forall_mem_of_all (by decide), forall_mem_of_all (by decide)⟩
  have hgap : IsClear ['\n'] := forall_mem_of_all (by decide)
  exact fun a ha => isAdmitted_of_isPrintable (List.forall_mem_append.2
    ⟨hcomment, isClear_rows .double hgap (Metadata.entriesSound_tree hsound)⟩ a ha)

/-! ## Reading the blocks -/

variable {d : Document} {depth : Nat} {path : Path} {k : Nat}

/-- A lockfile that a file can hold. -/
def IsHeld (l : Lockfile) : Prop :=
  ∀ p ∈ l.entries, p.2.IsHeld (maxDepth - 2)

end Lockfile

/-- The block of the metadata is read as it was written. -/
theorem Metadata.read_of_content {d : Document} {depth : Nat} {path : Path} {k : Nat} {n : Node}
    (h : n.content? = some tree.2.content) : read d (depth + 1) path n k = .ok (current, k) := by
  rw [tree, Tree.content] at h
  refine Document.mapping_of_content h _ _ fun nodes hnodes => ?_
  obtain ⟨k₁, v₁, rest, rfl, hk₁, hv₁, hrest⟩ := Node.entryContents?_eq_cons hnodes
  obtain ⟨k₂, v₂, rest, rfl, hk₂, hv₂, hrest⟩ := Node.entryContents?_eq_cons hrest
  obtain rfl := Node.entryContents?_eq_nil hrest
  have hfields : readFields d path ⟨none, none⟩ [(k₁, v₁), (k₂, v₂)] k =
      .ok (⟨some current.version, some current.cacheKey⟩, k) := by
    have hother : "cacheKey" ≠ "version" := by decide
    rw [readFields, Reading.bind_of_ok (Document.text_of_content hk₁ _)]
    simp only [if_true, Option.isSome_none, Bool.false_eq_true, if_false]
    rw [Reading.bind_of_ok (Document.text_of_content hv₁ _), readFields,
      Reading.bind_of_ok (Document.text_of_content hk₂ _)]
    simp only [if_neg hother, if_true, Option.isSome_none, Bool.false_eq_true, if_false]
    rw [Reading.bind_of_ok (Document.text_of_content hv₂ _)]
    rfl
  rw [Reading.bind_of_ok hfields]
  rfl

namespace Lockfile

variable {l : Lockfile} {text : String} {d : Document} {depth : Nat} {path : Path} {k : Nat}

/-- The blocks of keys with entries are read as they were written. -/
theorem readBlocks_of_contents {metadata : Metadata} {ps : List (String × Entry)}
    (hheld : ∀ p ∈ ps, p.2.IsHeld (depth + 1)) (htags : ∀ p ∈ ps, p.2.KeepsTags)
    (hreserved : Metadata.key ∉ ps.map Prod.fst) {trees : List (Tree × Tree)}
    (htrees : List.Forall₂ (fun p tree => ∃ fields, p.2.trees? = some fields ∧
      tree = (Tree.ofText p.1, Tree.mapping none fields)) ps trees)
    {nodes : List (Node × Node)} (hnodes : Node.entryContents? nodes = some (entryContents trees)) :
    readBlocks d (depth + 2) path metadata nodes k =
      .ok (metadata, ps.map fun p => ⟨p.1, p.2⟩) := by
  induction htrees generalizing nodes with
  | nil =>
    obtain rfl := Node.entryContents?_eq_nil hnodes
    rfl
  | @cons p tree ps trees hp _ ih =>
    obtain ⟨fields, hfields, rfl⟩ := hp
    rw [List.forall_mem_cons] at hheld htags
    rw [List.map_cons, List.mem_cons, not_or] at hreserved
    obtain ⟨kn, vn, rest, rfl, hkn, hvn, hrest⟩ := Node.entryContents?_eq_cons hnodes
    have hentry : Entry.read d (depth + 2) (path.value kn) vn k = .ok (p.2, k) :=
      Entry.read_of_content hheld.1 htags.1 hfields hvn
    have hblocks := ih hheld.2 htags.2 hreserved.2 hrest
    simp only [readBlocks, Entry.text_of_isText (Node.isText_of_content hkn),
      if_neg (Ne.symm hreserved.1), hentry, hblocks]
    rfl

/-- A whole document is read as the blocks of the mapping that is its root. -/
theorem readDocument_of_mapping (hwhole : d.isWhole = true) {mark : Mark} {anchor : Option Nat}
    {tag : Option Tag} {nodes : List (Node × Node)}
    (hroot : d.root = .mapping mark anchor tag nodes) :
    readDocument d = readBlocks d (maxDepth - 1) .root .current nodes 0 := by
  have hentries : rootEntries d = .ok (maxDepth - 1, .root, nodes, 0) := by
    rw [rootEntries, hroot]
    rfl
  rw [Document.isWhole, Bool.and_eq_true, Option.isNone_iff_eq_none] at hwhole
  simp only [readDocument, hentries, hwhole.1, hwhole.2, if_true]
  cases readBlocks d (maxDepth - 1) .root .current nodes 0 <;> rfl

/-- The document of a file is read as its blocks. -/
theorem readDocument_of_content (hheld : l.IsHeld) (htags : ∀ p ∈ l.entries, p.2.KeepsTags)
    (hreserved : Metadata.key ∉ l.keys) {trees : List (Tree × Tree)}
    (htrees : l.trees? = some trees)
    (hd : d.content? = some (.mapping none (entryContents (Metadata.tree :: trees)))) :
    readDocument d = .ok (.current, l.ownBlocks) := by
  obtain ⟨hwhole, hd⟩ := Document.content?_eq_some_iff.1 hd
  obtain ⟨mark, anchor, nodes, hroot, hnodes⟩ := Node.content?_mapping_iff.1 hd
  obtain ⟨kn, vn, rest, rfl, hkn, hvn, hrest⟩ := Node.entryContents?_eq_cons hnodes
  have hreserved' : Metadata.key ∉ l.entries.map Prod.fst := by rwa [← keys_eq_map_entries]
  have hblocks : readBlocks d (maxDepth - 1) .root .current rest 0 = .ok (.current, l.ownBlocks) :=
    readBlocks_of_contents hheld htags hreserved' (forall₂_of_trees? htrees) hrest
  have hmetadata : Metadata.read d (maxDepth - 1) (Path.value .root kn) vn 0 = .ok (.current, 0) :=
    Metadata.read_of_content hvn
  rw [readDocument_of_mapping hwhole hroot]
  simp only [readBlocks, Document.text_of_content hkn, if_true, hmetadata, hblocks]

/-! ## Lines -/

/-- The lines of a file are those of its comment and of its entries. -/
theorem octetLines_rows (s : List Char) (entries : List (Tree × Tree)) :
    octetLines (Sink.octets (s ++ rows .double ['\n'] entries)) = octetLines (Sink.octets s) ++
      entries.flatMap fun entry =>
        octetLines (Sink.octets (closeLine (row .double ['\n'] entry))) := by
  induction entries generalizing s with
  | nil => simp [rows]
  | cons entry entries ih =>
    have hrows : s ++ rows .double ['\n'] (entry :: entries) =
        s ++ '\n' :: (closeLine (row .double ['\n'] entry) ++ rows .double ['\n'] entries) := by
      simp [rows]
    rw [hrows, octetLines_append, ih, List.flatMap_cons]

/-- The block of the metadata is neither blank nor a comment. -/
theorem isBlankDocument_rows (entries : List (Tree × Tree)) :
    isBlankDocument (Sink.octets (headerComment.toList ++
      rows .double ['\n'] (Metadata.tree :: entries))) = false := by
  have hline : (octetLines (Sink.octets (closeLine (row .double ['\n'] Metadata.tree)))).any
      (fun line => !isBlankLine line) = true := by
    decide
  obtain ⟨line, hmem, hblank⟩ := List.any_eq_true.1 hline
  rw [isBlankDocument, octetLines_rows, List.all_eq_false]
  refine ⟨line, ?_, by simpa using hblank⟩
  rw [List.flatMap_cons]
  exact List.mem_append_right _ (List.mem_append_left _ hmem)

theorem conflictLine?_eq_none_iff {octets : List UInt8} :
    conflictLine? octets = none ↔ ∀ line ∈ octetLines octets, isConflictMark line = false := by
  rw [conflictLine?, Option.map_eq_none_iff, List.findIdx?_eq_none_iff]

/-- No line of the header is a mark of a conflict. -/
theorem conflictLine?_file (body : List Char) :
    conflictLine? (Sink.octets (file body).toList) = none ↔
      conflictLine? (Sink.octets body) = none := by
  have hheader : ∀ line ∈ (commentLines ++ metadataLines).flatMap fun x =>
      octetLines (Sink.octets x), isConflictMark line = false := by
    decide
  rw [file, String.toList_ofList, toList_header, conflictLine?_eq_none_iff, octetLines_flatMap,
    List.forall_mem_append, conflictLine?_eq_none_iff]
  exact and_iff_right hheader

/-! ## Files -/

/-- Nothing is in the way of reading the file of a lockfile back. -/
structure IsFaithful (l : Lockfile) : Prop where
  /-- The tags in fields that are not modelled read back. -/
  keepsTags : ∀ p ∈ l.entries, p.2.KeepsTags
  /-- The layout takes nothing for what it is not. -/
  kept : ∀ trees, l.trees? = some trees → isKeptRoot trees = true
  /-- No key is the one of the metadata. -/
  reserved : Metadata.key ∉ l.keys
  /-- No line looks like a mark of a merge conflict. -/
  unmarked : ∀ text, l.encode = .ok text → conflictLine? (Sink.octets text.toList) = none

/-- Marks of a conflict can only stand behind the header. -/
theorem isFaithful_iff : l.IsFaithful ↔ (∀ p ∈ l.entries, p.2.KeepsTags) ∧
    (∀ trees ∈ l.trees?, isKeptRoot trees = true) ∧ Metadata.key ∉ l.keys ∧
    ∀ yaml ∈ l.yaml?, conflictLine? (Sink.octets (Layout.apply yaml)) = none := by
  constructor
  · refine fun h => ⟨h.keepsTags, h.kept, h.reserved, fun yaml hyaml => ?_⟩
    exact (conflictLine?_file _).1 (h.unmarked _ (encode_eq_ok_iff.2 ⟨yaml, hyaml, rfl⟩))
  · rintro ⟨htags, hkept, hreserved, hunmarked⟩
    refine ⟨htags, hkept, hreserved, fun text htext => ?_⟩
    obtain ⟨yaml, hyaml, rfl⟩ := encode_eq_ok_iff.1 htext
    exact (conflictLine?_file _).2 (hunmarked yaml hyaml)

instance (l : Lockfile) : Decidable l.IsFaithful :=
  decidable_of_iff _ isFaithful_iff.symm

theorem IsFaithful.isReadable (h : l.IsFaithful) : l.IsReadable :=
  fun p hp => (h.keepsTags p hp).isReadable

theorem exists_trees (h : l.encode = .ok text) : ∃ trees, l.trees? = some trees := by
  cases htrees : l.trees? with
  | some trees => exact ⟨trees, rfl⟩
  | none =>
    rw [encode, writes, yaml?, htrees] at h
    cases h

/-- The document of a file says what the trees of the metadata and of the blocks do. -/
theorem content?_documentOf_encode (htags : l.IsReadable) {trees : List (Tree × Tree)}
    (htrees : l.trees? = some trees) (hkept : isKeptRoot trees = true) (h : l.encode = .ok text) :
    (documentOf (Sink.octets text.toList)).content? =
      some (.mapping none (entryContents (Metadata.tree :: trees))) := by
  have hsound := entriesSound_of_trees? htags htrees
  obtain ⟨size, root, hdocument, hcontent⟩ := Document.content_ofText_rows preamble_headerComment
    (by simp) (List.cons_ne_nil _ _) (Metadata.entriesSound_tree hsound)
    (Metadata.allowsGap_tree (allowsGap_of_isKeptRoot hsound hkept)) (isAdmitted_file hsound)
  have hof : documentOf (Sink.octets text.toList) =
      ⟨root, size, none, true, root.anchored.reverse⟩ := by
    rw [documentOf, Sink.fromUTF8?_octets, ← hdocument, ← toList_of_encode htags htrees hkept h]
    exact congrArg Document.ofText String.toList_ofList
  rw [hof]
  exact (Document.content?_eq size _).trans hcontent

/-- The rows of a file say what the trees do, one by one. -/
theorem entryContents?_rows_of_encode (htags : l.IsReadable) {trees : List (Tree × Tree)}
    (htrees : l.trees? = some trees) (hkept : isKeptRoot trees = true) (h : l.encode = .ok text) :
    Node.entryContents? ((documentOf (Sink.octets text.toList)).entriesOf
      (documentOf (Sink.octets text.toList)).root) =
        some (entryContents (Metadata.tree :: trees)) := by
  have hcontent := content?_documentOf_encode htags htrees hkept h
  generalize documentOf (Sink.octets text.toList) = d at hcontent ⊢
  obtain ⟨mark, anchor, nodes, hroot, hnodes⟩ :=
    Node.content?_mapping_iff.1 (Document.content?_eq_some_iff.1 hcontent).2
  rw [hroot]
  exact hnodes

/-- The file of a lockfile is read as the lockfile with a block for every key. -/
theorem decode_encode (hheld : l.IsHeld) (hfaithful : l.IsFaithful) (h : l.encode = .ok text) :
    decode (Sink.octets text.toList) = .ok l.apart := by
  obtain ⟨trees, htrees⟩ := exists_trees h
  have hkept := hfaithful.kept trees htrees
  have hread : readDocument (documentOf (Sink.octets text.toList)) = .ok (.current, l.ownBlocks) :=
    readDocument_of_content hheld hfaithful.keepsTags hfaithful.reserved htrees
      (content?_documentOf_encode hfaithful.isReadable htrees hkept h)
  have hblank : isBlankDocument (Sink.octets text.toList) = false := by
    rw [toList_of_encode hfaithful.isReadable htrees hkept h]
    exact isBlankDocument_rows trees
  rw [decode, decodeBlocks, hfaithful.unmarked text h, hblank, if_neg Bool.false_ne_true]
  simp only [hread]
  rfl

/-- The file of a lockfile reads back: every key gets a block of its own, with the entry that it
had. -/
def ReadsBack (l : Lockfile) : Prop :=
  ∀ text, l.encode = .ok text → decode (Sink.octets text.toList) = .ok l.apart

theorem IsFaithful.readsBack (h : l.IsFaithful) (hheld : l.IsHeld) : l.ReadsBack :=
  fun _ htext => decode_encode hheld h htext

/-! ## Some of the keys -/

theorem entriesCalm_iff {indent : Nat} {entries : List (Tree × Tree)} :
    entriesCalm false indent entries = true ↔
      ∀ entry ∈ entries, entriesCalm false indent [entry] = true := by
  induction entries with
  | nil => simp [entriesCalm]
  | cons entry entries ih =>
    obtain ⟨key, v⟩ := entry
    rw [entriesCalm, Bool.and_eq_true, ih, List.forall_mem_cons]
    simp [entriesCalm]

/-- Nothing misleads the layout in some of the entries. -/
theorem isKeptRoot_of_sublist {entries entries' : List (Tree × Tree)}
    (hsub : entries'.Sublist entries) (h : isKeptRoot entries = true) :
    isKeptRoot entries' = true := by
  simp only [isKeptRoot, Layout.isCalmRoot, Bool.and_eq_true, List.all_eq_true] at h ⊢
  obtain ⟨⟨⟨hcalm, hflat⟩, hkey⟩, hopen⟩ := h
  have hinit : entries'.dropLast.Sublist entries.dropLast := by
    rw [← List.reverse_sublist, ← List.tail_reverse, ← List.tail_reverse]
    exact hsub.reverse.tail
  refine ⟨⟨⟨?_, fun entry he => hflat entry (hsub.subset he)⟩,
    fun entry he => hkey entry (hsub.subset he)⟩, fun entry he => hopen entry (hinit.subset he)⟩
  rw [entriesCalm_iff] at hcalm ⊢
  exact fun entry he => hcalm entry (hsub.subset he)

/-- The results for some of the elements are some of the results. -/
theorem exists_sublist_of_mapM {α β : Type} {f : α → Option β} {xs : List α} {ys : List β}
    (h : xs.mapM f = some ys) (p : α → Bool) :
    ∃ zs, (xs.filter p).mapM f = some zs ∧ zs.Sublist ys := by
  simp only [mapM_eq_some_iff] at h ⊢
  induction h with
  | nil => exact ⟨[], .nil, .slnil⟩
  | @cons x y xs ys hxy _ ih =>
    obtain ⟨zs, hzs, hsub⟩ := ih
    rw [List.filter_cons]
    split
    · exact ⟨y :: zs, .cons hxy hzs, hsub.cons_cons y⟩
    · exact ⟨zs, hzs, hsub.cons y⟩

/-- Some of the keys can be written when all can. -/
theorem exists_trees_restrict (hsorted : l.keys.Pairwise (· < ·)) (keys : KeySet)
    {trees : List (Tree × Tree)} (htrees : l.trees? = some trees) :
    ∃ trees', (l.restrict keys.toList).trees? = some trees' ∧ trees'.Sublist trees := by
  rw [trees?, (entries_restrict hsorted keys).2]
  exact exists_sublist_of_mapM htrees _

theorem exists_encode_restrict (hsorted : l.keys.Pairwise (· < ·)) (keys : KeySet)
    (h : l.encode = .ok text) : ∃ text', (l.restrict keys.toList).encode = .ok text' := by
  obtain ⟨trees, htrees⟩ := exists_trees h
  obtain ⟨trees', htrees', -⟩ := exists_trees_restrict hsorted keys htrees
  rw [encode, writes, yaml?, htrees']
  exact ⟨_, rfl⟩

/-- Nothing is in the way of some of the keys when nothing is in the way of all. -/
theorem IsFaithful.restrict (hsorted : l.keys.Pairwise (· < ·)) (keys : KeySet)
    (h : l.IsFaithful) (hencode : l.encode = .ok text) : (l.restrict keys.toList).IsFaithful := by
  obtain ⟨trees, htrees⟩ := exists_trees hencode
  obtain ⟨trees', htrees', hsub⟩ := exists_trees_restrict hsorted keys htrees
  obtain ⟨hkeys, hentries⟩ := entries_restrict hsorted keys
  have hkept := isKeptRoot_of_sublist hsub (h.kept trees htrees)
  have htags : ∀ p ∈ (l.restrict keys.toList).entries, p.2.KeepsTags := by
    rw [hentries]
    exact fun p hp => h.keepsTags p (List.mem_of_mem_filter hp)
  refine ⟨htags, fun ts hts => ?_, ?_, fun text' htext' => ?_⟩
  · rwa [← Option.some.inj (htrees'.symm.trans hts)]
  · rw [hkeys]
    exact fun hmem => h.reserved (List.mem_of_mem_filter hmem)
  · have hmarks := h.unmarked text hencode
    have hreadable : (l.restrict keys.toList).IsReadable := fun p hp => (htags p hp).isReadable
    rw [toList_of_encode h.isReadable htrees (h.kept trees htrees) hencode,
      conflictLine?_eq_none_iff, octetLines_rows] at hmarks
    rw [toList_of_encode hreadable htrees' hkept htext', conflictLine?_eq_none_iff, octetLines_rows]
    intro line hline
    refine hmarks line ?_
    rcases List.mem_append.1 hline with hline | hline
    · exact List.mem_append_left _ hline
    · obtain ⟨entry, hentry, hline⟩ := List.mem_flatMap.1 hline
      exact List.mem_append_right _
        (List.mem_flatMap.2 ⟨entry, (hsub.cons_cons Metadata.tree).subset hentry, hline⟩)

/-! ## What was read -/

/-- The row is one of a block, and not of the metadata. -/
def isBlockRow (d : Document) (row : Node × Node) : Bool :=
  (d.nameOf? row.1).any (· ≠ Metadata.key)

/-- The block was read from a row of a document, with its entry at a depth. -/
structure IsReadFrom (d : Document) (depth : Nat) (row : Node × Node) (b : Block) : Prop where
  name : d.nameOf? row.1 = some b.key
  key_ne : b.key ≠ Metadata.key
  entry : ∃ path n n', Entry.read d depth path row.2 n = .ok (b.entry, n')

/-- The blocks are read from the rows that are not of the metadata, one by one. -/
theorem forall₂_of_readBlocks {metadata metadata' : Metadata} {nodes : List (Node × Node)}
    {blocks : List Block} (h : readBlocks d depth path metadata nodes k = .ok (metadata', blocks)) :
    List.Forall₂ (IsReadFrom d depth) (nodes.filter (isBlockRow d)) blocks := by
  induction nodes generalizing metadata metadata' blocks k with
  | nil =>
    obtain ⟨-, rfl⟩ := Prod.mk.inj (Except.ok.inj h)
    exact .nil
  | cons node nodes ih =>
    obtain ⟨kn, vn⟩ := node
    rw [readBlocks] at h
    split at h
    · cases h
    · rename_i key n hkey
      have hname := Entry.nameOf?_of_text hkey
      have hrow : isBlockRow d (kn, vn) = decide (key ≠ Metadata.key) := by
        rw [isBlockRow, hname, Option.any_some]
      rw [List.filter_cons, hrow]
      split_ifs at h with hreserved
      · rw [if_neg (by simpa using hreserved)]
        split at h
        · cases h
        · exact ih h
      · rw [if_pos (by simpa using hreserved)]
        split at h
        · cases h
        · rename_i entry n' hentry
          cases hrest : readBlocks d depth path metadata nodes n' with
          | error fault => rw [hrest] at h; cases h
          | ok r =>
            obtain ⟨m, bs⟩ := r
            rw [hrest] at h
            obtain ⟨-, rfl⟩ := Prod.mk.inj (Except.ok.inj h)
            exact .cons ⟨hname, hreserved, _, _, _, hentry⟩ (ih hrest)

/-- The entries of a root stand inside one collection, if there are any. -/
theorem rootEntries_cases {nodes : List (Node × Node)}
    (h : rootEntries d = .ok (depth, path, nodes, k)) :
    nodes = d.entriesOf d.root ∧ (nodes = [] ∨ depth = maxDepth - 1) := by
  rw [rootEntries] at h
  cases hroot : d.mapping "a mapping of lockfile keys to entries"
      (fun depth path entries => pure (depth, path, entries)) maxDepth .root d.root 0 with
  | error fault => rw [hroot] at h; cases h
  | ok r =>
    rw [hroot] at h
    obtain ⟨⟨depth', path', nodes'⟩, k'⟩ := r
    cases h
    rcases Document.mapping_cases hroot with ⟨hnil, _, _, hbody⟩ | ⟨_, _, m, hm, hbody⟩
    · cases hbody
      exact ⟨hnil.symm, .inl rfl⟩
    · cases hbody
      exact ⟨rfl, .inr (by omega)⟩

/-- A document that is read is whole, and its blocks are read from the entries of its root. -/
theorem isWhole_of_readDocument {r : Metadata × List Block} (h : readDocument d = .ok r) :
    d.isWhole = true ∧ ∃ depth path nodes n, rootEntries d = .ok (depth, path, nodes, n) ∧
      readBlocks d depth path .current nodes n = .ok r := by
  rw [readDocument] at h
  split at h
  · cases h
  · rename_i depth path nodes n hroot
    split at h
    · cases h
    · rename_i result hblocks
      split at h
      · cases h
      · rename_i hfault
        split_ifs at h with halone
        obtain rfl := Except.ok.inj h
        exact ⟨by rw [Document.isWhole, hfault, halone]; rfl, depth, path, nodes, n, hroot, hblocks⟩

theorem forall₂_of_readDocument {metadata : Metadata} {blocks : List Block}
    (h : readDocument d = .ok (metadata, blocks)) :
    List.Forall₂ (IsReadFrom d (maxDepth - 1))
      ((d.entriesOf d.root).filter (isBlockRow d)) blocks := by
  obtain ⟨-, depth, path, nodes, n, hroot, hblocks⟩ := isWhole_of_readDocument h
  obtain ⟨rfl, hnil | rfl⟩ := rootEntries_cases hroot
  · rw [hnil] at hblocks ⊢
    obtain ⟨-, rfl⟩ := Prod.mk.inj (Except.ok.inj hblocks)
    exact .nil
  · exact forall₂_of_readBlocks hblocks

/-- A lockfile that is read is that of some blocks. -/
theorem exists_blocks_of_decode {octets : List UInt8} (h : decode octets = .ok l) :
    ∃ metadata blocks, decodeBlocks octets = .ok (metadata, blocks) ∧
      l = ofBlocks metadata blocks := by
  rw [decode] at h
  cases hd : decodeBlocks octets with
  | error e => rw [hd] at h; cases h
  | ok r =>
    obtain ⟨metadata, blocks⟩ := r
    rw [hd] at h
    exact ⟨metadata, blocks, rfl, (Except.ok.inj h).symm⟩

/-- The keys of a lockfile that was read read as one key each. -/
theorem isSingleKey_of_mem_keys_decode {octets : List UInt8} (h : decode octets = .ok l)
    {key : String} (hkey : key ∈ l.keys) : IsSingleKey key := by
  obtain ⟨metadata, blocks, -, rfl⟩ := exists_blocks_of_decode h
  exact isSingleKey_of_isCanonical (isCanonical_of_mem_keys_ofBlocks hkey)

/-- The blocks of a file were read from the rows of its document, if there are any. -/
theorem forall₂_of_decodeBlocks {octets : List UInt8} {metadata : Metadata} {blocks : List Block}
    (h : decodeBlocks octets = .ok (metadata, blocks)) (hne : blocks ≠ []) :
    List.Forall₂ (IsReadFrom (documentOf octets) (maxDepth - 1))
      (((documentOf octets).entriesOf (documentOf octets).root).filter
        (isBlockRow (documentOf octets))) blocks := by
  rw [decodeBlocks] at h
  split at h
  · cases h
  · split_ifs at h
    · obtain ⟨-, rfl⟩ := Prod.mk.inj (Except.ok.inj h)
      exact absurd rfl hne
    · change (readDocument (documentOf octets)).mapError _ = _ at h
      cases hd : readDocument (documentOf octets) with
      | error fault => rw [hd] at h; cases h
      | ok r =>
        rw [hd] at h
        obtain rfl := Except.ok.inj h
        exact forall₂_of_readDocument hd

theorem exists_isReadFrom_of_decodeBlocks {octets : List UInt8} {metadata : Metadata}
    {blocks : List Block} (h : decodeBlocks octets = .ok (metadata, blocks)) {b : Block}
    (hb : b ∈ blocks) : ∃ row, IsReadFrom (documentOf octets) (maxDepth - 1) row b := by
  obtain ⟨row, -, hrow⟩ :=
    exists_mem_left (forall₂_of_decodeBlocks h (List.ne_nil_of_mem hb)) hb
  exact ⟨row, hrow⟩

/-- A lockfile that is read is one that a file can hold. -/
theorem isHeld_of_decode {octets : List UInt8} (h : decode octets = .ok l) : l.IsHeld := by
  obtain ⟨metadata, blocks, hblocks, rfl⟩ := exists_blocks_of_decode h
  intro p hp
  obtain ⟨q, -, rfl⟩ := List.mem_map.1 hp
  obtain ⟨row, hrow⟩ :=
    exists_isReadFrom_of_decodeBlocks hblocks (List.getElem_mem q.2.isLt)
  obtain ⟨path, n, n', hread⟩ := hrow.entry
  exact Entry.isHeld_of_read hread

/-- So are some of its keys. -/
theorem IsHeld.restrict {keys : List String} (h : l.IsHeld) : (l.restrict keys).IsHeld := by
  rintro ⟨key, e⟩ hp
  have hentry := entry?_eq_some_iff.2 hp
  have hkey : key ∈ (l.restrict keys).keys := by
    rw [keys_eq_map_entries]
    exact List.mem_map_of_mem hp
  rw [entry?_restrict (mem_keys_restrict.1 hkey).1] at hentry
  exact h _ (entry?_eq_some_iff.1 hentry)

end Lockfile

end LockPrune
