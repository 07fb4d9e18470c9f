import LockPrune.Proofs.Lockfile.FileReading
import LockPrune.Proofs.Yaml.OneDocument

/-!
# The outcomes of reading a file

Reading a file has four outcomes, and which of them it is depends on the file in this order: a mark
of a merge conflict, wherever it stands; only blank lines and comments; a fault of the text,
wherever it stands; and the first block whose value is not what it has to be.

A value is read in its place: the aliases that were followed for the blocks in front of it count
towards the bound of the document.  But for that it is read as if it stood alone.

## Main definitions

* `IsMarkOfConflict`, `IsBlankOrComment` — lines, as they are told apart.
* `Lockfile.readBlock` — reads the value of a block.
* `Lockfile.IsReadBehind`, `Lockfile.AllRead` — the value of a block is read behind those of other
  blocks, and so is that of every block.

## Main statements

* `Lockfile.readBlocks_isOk_iff`, `Lockfile.readBlocks_error` — the blocks are read if every value
  is, and otherwise the first that is not is to blame.
* `Lockfile.decode_outcomes` — the outcomes of reading a file.
-/

namespace LockPrune

open Yaml

/-! ## Lines -/

namespace Text

variable {α : Type} [DecidableEq α] {last : α} {s t : List α}

theorem dropOneAtEnd_eq_iff :
    dropOneAtEnd last s = t ↔ s = t ++ [last] ∨ s = t ∧ s.getLast? ≠ some last := by
  rw [dropOneAtEnd]
  split
  · rename_i hlast
    obtain ⟨front, rfl⟩ := List.getLast?_eq_some_iff.1 hlast
    rw [List.dropLast_concat]
    constructor
    · rintro rfl
      exact .inl rfl
    · rintro (heq | ⟨-, hne⟩)
      · exact List.append_cancel_right heq
      · exact absurd hlast hne
  · rename_i hlast
    constructor
    · rintro rfl
      exact .inr ⟨rfl, hlast⟩
    · rintro (rfl | ⟨rfl, -⟩)
      · exact absurd List.getLast?_concat hlast
      · rfl

/-- What does not end like a list stands in front of it with or without the end. -/
theorem prefix_dropOneAtEnd_iff (hs : s.getLast? ≠ some last) :
    s <+: dropOneAtEnd last t ↔ s <+: t := by
  rw [dropOneAtEnd]
  split
  · rename_i hlast
    obtain ⟨front, rfl⟩ := List.getLast?_eq_some_iff.1 hlast
    rw [List.dropLast_concat, List.prefix_concat_iff]
    refine (or_iff_right ?_).symm
    rintro rfl
    exact hs List.getLast?_concat
  · rfl

end Text

/-- The line begins with a mark of a merge conflict, or is the mark in its middle, with or without a
carriage return. -/
def IsMarkOfConflict (line : List UInt8) : Prop :=
  List.replicate 7 60 <+: line ∨ List.replicate 7 124 <+: line ∨ List.replicate 7 62 <+: line ∨
    line = List.replicate 7 61 ∨ line = List.replicate 7 61 ++ [13]

/-- Behind its blanks the line has nothing, or a comment. -/
def IsBlankOrComment (line : List UInt8) : Prop :=
  ∃ blanks rest, line = blanks ++ rest ∧ (∀ b ∈ blanks, isBlankOctet b = true) ∧
    (rest = [] ∨ ∃ comment, rest = 35 :: comment)

theorem isConflictMark_iff {line : List UInt8} :
    isConflictMark line = true ↔ IsMarkOfConflict line := by
  have hprefix : ∀ b : UInt8, b ≠ 13 →
      ((List.replicate 7 b).isPrefixOf (Text.dropOneAtEnd 13 line) = true ↔
        List.replicate 7 b <+: line) := by
    intro b hb
    rw [List.isPrefixOf_iff_prefix]
    exact Text.prefix_dropOneAtEnd_iff (by simpa using hb)
  have hmiddle : Text.dropOneAtEnd 13 line = List.replicate 7 61 ↔
      line = List.replicate 7 61 ∨ line = List.replicate 7 61 ++ [13] := by
    rw [Text.dropOneAtEnd_eq_iff, or_comm]
    refine or_congr_left (and_iff_left_of_imp ?_)
    rintro rfl
    decide
  simp only [isConflictMark, IsMarkOfConflict, Bool.or_eq_true, decide_eq_true_iff, or_assoc,
    hmiddle, hprefix 60 (by decide), hprefix 124 (by decide), hprefix 62 (by decide)]

theorem isBlankLine_iff {line : List UInt8} : isBlankLine line = true ↔ IsBlankOrComment line := by
  rw [isBlankLine]
  constructor
  · intro h
    refine ⟨line.takeWhile isBlankOctet, line.dropWhile isBlankOctet,
      List.takeWhile_append_dropWhile.symm, fun b => List.mem_takeWhile_imp, ?_⟩
    cases hrest : line.dropWhile isBlankOctet with
    | nil => exact .inl rfl
    | cons b rest =>
      rw [hrest, decide_eq_true_iff] at h
      exact .inr ⟨rest, by rw [h]⟩
  · rintro ⟨blanks, rest, rfl, hblanks, hrest⟩
    rw [List.dropWhile_append_of_pos hblanks]
    rcases hrest with rfl | ⟨comment, rfl⟩
    · rfl
    · have hbare : isBlankOctet 35 = false := by decide
      rw [List.dropWhile_cons_of_neg (by rw [hbare]; exact Bool.false_ne_true)]
      rfl

theorem conflictLine?_eq_some_iff {contents : List UInt8} {n : Nat} :
    conflictLine? contents = some n ↔
    ∃ before line after, octetLines contents = before ++ line :: after ∧ n = before.length + 1 ∧
      IsMarkOfConflict line ∧ ∀ l ∈ before, ¬ IsMarkOfConflict l := by
  simp only [← isConflictMark_iff, Bool.not_eq_true, conflictLine?, Option.map_eq_some_iff]
  constructor
  · rintro ⟨i, hfind, rfl⟩
    obtain ⟨hi, hmark, hbefore⟩ := List.findIdx?_eq_some_iff_getElem.1 hfind
    refine ⟨(octetLines contents).take i, _, (octetLines contents).drop (i + 1), ?_, ?_, hmark, ?_⟩
    · rw [← List.drop_eq_getElem_cons hi, List.take_append_drop]
    · rw [List.length_take_of_le hi.le]
    · intro l hl
      obtain ⟨j, hj, rfl⟩ := List.mem_take_iff_getElem.1 hl
      simpa using hbefore j (lt_min_iff.1 hj).1
  · rintro ⟨before, line, after, heq, rfl, hmark, hbefore⟩
    refine ⟨before.length, ?_, rfl⟩
    rw [heq, List.findIdx?_append, List.findIdx?_eq_none_iff.2 hbefore, List.findIdx?_cons,
      if_pos hmark, Option.none_or, Option.map_some, Nat.zero_add]

/-! ## Metadata -/

namespace Metadata

variable {d : Document}

theorem isMetered_readFields (path : Path) (a : Draft) (nodes : List (Node × Node)) :
    (readFields d path a nodes).IsMetered d.aliasBound := by
  induction nodes generalizing a with
  | nil => exact Reading.isMetered_pure _
  | cons node nodes ih =>
    obtain ⟨k, v⟩ := node
    refine (Document.isMetered_text _ _ _).bind fun name => ?_
    dsimp only
    split_ifs
    · exact Reading.isMetered_fail _
    · exact (Document.isMetered_text _ _ _).bind fun s => ih _
    · exact Reading.isMetered_fail _
    · exact (Document.isMetered_text _ _ _).bind fun s => ih _
    · exact (Document.isMetered_ignore _).bind fun _ => ih _

theorem isMetered_read (depth : Nat) (path : Path) (node : Node) :
    (read d depth path node).IsMetered d.aliasBound := by
  refine Document.isMetered_mapping (fun _ path nodes => ?_) _ _ _ _
  refine (isMetered_readFields path _ nodes).bind fun a => ?_
  split
  · exact Reading.isMetered_pure _
  · exact Reading.isMetered_fail _

end Metadata

/-! ## Blocks -/

/-- The entries of a mapping. -/
def Yaml.Node.entries? : Node → Option (List (Node × Node))
  | .mapping _ _ _ nodes => some nodes
  | _ => none

namespace Lockfile

variable {d : Document} {depth : Nat} {path : Path} {node : Node × Node}

/-- Reads the value of a block: the metadata under its key, and an entry under any other. -/
def readBlock (d : Document) (depth : Nat) (path : Path) (node : Node × Node) :
    Reading (Metadata ⊕ Entry) :=
  if node.1.scalarText? = some Metadata.key then
    .inl <$> Metadata.read d depth (path.value node.1) node.2
  else .inr <$> Entry.read d depth (path.value node.1) node.2

theorem isMetered_readBlock (node : Node × Node) :
    (readBlock d depth path node).IsMetered d.aliasBound := by
  rw [readBlock]
  split
  · exact (Metadata.isMetered_read _ _ _).map _
  · exact (Entry.isMetered_read _ _).map _

/-- The number of aliases that are followed for the value of a block, if it can be read. -/
def aliasesOf (d : Document) (depth : Nat) (path : Path) (node : Node × Node) : Nat :=
  match readBlock d depth path node 0 with
  | .ok (_, n) => n
  | .error _ => 0

/-- The number of aliases that are followed for the values of blocks. -/
def aliasesOfAll (d : Document) (depth : Nat) (path : Path) (nodes : List (Node × Node)) : Nat :=
  (nodes.map (aliasesOf d depth path)).sum

/-- The value of a block is read behind those of other blocks. -/
def IsReadBehind (d : Document) (depth : Nat) (path : Path) (before : List (Node × Node))
    (node : Node × Node) : Prop :=
  ∃ r, readBlock d depth path node (aliasesOfAll d depth path before) = .ok r

/-- The value of every block is read behind those in front of it. -/
def AllRead (d : Document) (depth : Nat) (path : Path) (nodes : List (Node × Node)) : Prop :=
  ∀ before node after, nodes = before ++ node :: after → IsReadBehind d depth path before node

/-- The count goes on by the aliases of the block. -/
theorem count_of_readBlock {n m : Nat} {r : Metadata ⊕ Entry}
    (h : readBlock d depth path node n = .ok (r, m)) : m = n + aliasesOf d depth path node := by
  obtain ⟨j, hj, rfl, -⟩ := (isMetered_readBlock node n r m).1 h
  rw [aliasesOf, hj]

/-- A value that is read leaves the other blocks to be read, and its block in front of them. -/
theorem readBlocks_of_readBlock {key : String} (hkey : node.1.scalarText? = some key) {n m : Nat}
    {r : Metadata ⊕ Entry} (h : readBlock d depth path node n = .ok (r, m)) (metadata : Metadata) :
    ∃ metadata' front, ∀ nodes, readBlocks d depth path metadata (node :: nodes) n =
      (readBlocks d depth path metadata' nodes m).map fun s => (s.1, front ++ s.2) := by
  obtain ⟨k, v⟩ := node
  rw [readBlock, hkey] at h
  split at h
  · rename_i hreserved
    obtain ⟨metadata', m', hread, heq⟩ := Reading.map_eq_ok_iff.1 h
    obtain ⟨rfl, rfl⟩ := Prod.mk.inj heq
    refine ⟨metadata', [], fun nodes => ?_⟩
    simp only [readBlocks, Document.text_of_scalarText? hkey, if_pos (Option.some.inj hreserved),
      hread]
    cases readBlocks d depth path metadata' nodes m' <;> rfl
  · rename_i hreserved
    obtain ⟨e, m', hread, heq⟩ := Reading.map_eq_ok_iff.1 h
    obtain ⟨rfl, rfl⟩ := Prod.mk.inj heq
    refine ⟨metadata, [⟨key, e⟩], fun nodes => ?_⟩
    simp only [readBlocks, Document.text_of_scalarText? hkey,
      if_neg fun h => hreserved (congrArg some h), hread]
    rfl

/-- A value that is not read puts an end to it. -/
theorem readBlocks_of_not_readBlock {key : String} (hkey : node.1.scalarText? = some key) {n : Nat}
    (h : ¬ ∃ r, readBlock d depth path node n = .ok r) (metadata : Metadata)
    (nodes : List (Node × Node)) :
    ∃ fault, readBlocks d depth path metadata (node :: nodes) n = .error (some key, fault) := by
  obtain ⟨k, v⟩ := node
  rw [readBlock, hkey] at h
  by_cases hreserved : key = Metadata.key
  · rw [if_pos (congrArg some hreserved)] at h
    cases hread : Metadata.read d depth (path.value k) v n with
    | error fault =>
      refine ⟨fault, ?_⟩
      simp only [readBlocks, Document.text_of_scalarText? hkey, if_pos hreserved, hread]
    | ok r => exact absurd ⟨_, Reading.map_eq_ok_iff.2 ⟨r.1, r.2, hread, rfl⟩⟩ h
  · rw [if_neg fun h => hreserved (Option.some.inj h)] at h
    cases hread : Entry.read d depth (path.value k) v n with
    | error fault =>
      refine ⟨fault, ?_⟩
      simp only [readBlocks, Document.text_of_scalarText? hkey, if_neg hreserved, hread]
    | ok r => exact absurd ⟨_, Reading.map_eq_ok_iff.2 ⟨r.1, r.2, hread, rfl⟩⟩ h

/-- What holds of every element behind those in front of it, with the first one apart. -/
theorem forall_split_cons_iff {α : Type} {p : List α → α → Prop} {a : α} {as : List α} :
    (∀ before b after, a :: as = before ++ b :: after → p before b) ↔
      p [] a ∧ ∀ before b after, as = before ++ b :: after → p (a :: before) b := by
  constructor
  · refine fun h => ⟨h [] a as rfl, fun before b after heq => h (a :: before) b after ?_⟩
    rw [heq, List.cons_append]
  · rintro ⟨hfirst, hrest⟩ before b after heq
    rcases List.cons_eq_append_iff.1 heq with ⟨rfl, hnone⟩ | ⟨before, rfl, hsome⟩
    · obtain ⟨rfl, rfl⟩ := List.cons.inj hnone
      exact hfirst
    · exact hrest before b after hsome

/-- The blocks are read exactly if every value is read, behind those in front of it. -/
theorem readBlocks_isOk_iff {nodes : List (Node × Node)}
    (hkeys : ∀ node ∈ nodes, ∃ key, node.1.scalarText? = some key) (metadata : Metadata) (n : Nat) :
    (∃ r, readBlocks d depth path metadata nodes n = .ok r) ↔
      ∀ before node after, nodes = before ++ node :: after →
        ∃ r, readBlock d depth path node (n + aliasesOfAll d depth path before) = .ok r := by
  induction nodes generalizing metadata n with
  | nil => simp [readBlocks]
  | cons node nodes ih =>
    obtain ⟨⟨key, hkey⟩, hkeys⟩ := List.forall_mem_cons.1 hkeys
    rw [forall_split_cons_iff]
    by_cases hread : ∃ r, readBlock d depth path node n = .ok r
    · obtain ⟨⟨r, m⟩, hr⟩ := hread
      obtain ⟨metadata', front, hblocks⟩ := readBlocks_of_readBlock hkey hr metadata
      have hrest : (∃ s, readBlocks d depth path metadata (node :: nodes) n = .ok s) ↔
          ∃ s, readBlocks d depth path metadata' nodes m = .ok s := by
        rw [hblocks]
        cases readBlocks d depth path metadata' nodes m <;> simp [Except.map]
      rw [hrest, ih hkeys, and_iff_right ⟨_, hr⟩, count_of_readBlock hr]
      simp only [aliasesOfAll, List.map_cons, List.sum_cons, Nat.add_assoc]
    · obtain ⟨fault, hfault⟩ := readBlocks_of_not_readBlock hkey hread metadata nodes
      exact iff_of_false (by simp [hfault]) fun h => hread h.1

/-- The first value that is not read puts an end to it. -/
theorem readBlocks_error {before after : List (Node × Node)} {node : Node × Node} {key : String}
    (hkeys : ∀ b ∈ before, ∃ key, b.1.scalarText? = some key) (hkey : node.1.scalarText? = some key)
    {n : Nat} (hbefore : ∀ before' b after', before = before' ++ b :: after' →
      ∃ r, readBlock d depth path b (n + aliasesOfAll d depth path before') = .ok r)
    (hnode : ¬ ∃ r, readBlock d depth path node (n + aliasesOfAll d depth path before) = .ok r)
    (metadata : Metadata) :
    ∃ fault, readBlocks d depth path metadata (before ++ node :: after) n =
      .error (some key, fault) := by
  induction before generalizing metadata n with
  | nil => exact readBlocks_of_not_readBlock hkey hnode metadata after
  | cons b before ih =>
    obtain ⟨⟨key', hkey'⟩, hkeys⟩ := List.forall_mem_cons.1 hkeys
    obtain ⟨⟨⟨r, m⟩, hr⟩, hrest⟩ := forall_split_cons_iff.1 hbefore
    obtain ⟨metadata', front, hblocks⟩ := readBlocks_of_readBlock hkey' hr metadata
    obtain rfl := count_of_readBlock hr
    simp only [aliasesOfAll, List.map_cons, List.sum_cons, List.map_nil, List.sum_nil, Nat.add_zero,
      ← Nat.add_assoc] at hrest hnode hblocks
    obtain ⟨fault, hfault⟩ := ih hkeys hrest hnode metadata'
    exact ⟨fault, by rw [List.cons_append, hblocks, hfault]; rfl⟩

/-- The value of a block is read behind those of others if it is read by itself, and its aliases
with theirs keep the bound. -/
theorem isReadBehind_iff {before : List (Node × Node)} : IsReadBehind d depth path before node ↔
    ∃ r n, readBlock d depth path node 0 = .ok (r, n) ∧
      (n = 0 ∨ aliasesOfAll d depth path before + n ≤ d.aliasBound) :=
  (isMetered_readBlock node).exists_ok_iff _

/-! ## Files -/

variable {contents : List UInt8}

/-- A file is one whole document if it is a text that is one. -/
theorem isWhole_documentOf_iff : (documentOf contents).isWhole = true ↔
    ∃ text, String.fromUTF8? ⟨contents.toArray⟩ = some text ∧
      (Events.ofText text.toList).complete = true ∧
        Events.IsOneDocument (fun _ => False) (Events.ofText text.toList).events := by
  rw [documentOf]
  cases String.fromUTF8? ⟨contents.toArray⟩ with
  | none => exact iff_of_false Bool.false_ne_true (by simp)
  | some text =>
    simp only [Document.isWhole_ofText_iff, Option.some.injEq, exists_eq_left']
    exact (and_iff_right_of_imp Events.complete_of_isOneDocument).symm

theorem decode_of_isBlank (hmark : conflictLine? contents = none)
    (hblank : isBlankDocument contents = true) : decode contents = .ok (ofBlocks .current []) := by
  rw [decode, decodeBlocks, hmark]
  simp only [hblank, if_true]
  rfl

theorem decode_of_not_isBlank (hmark : conflictLine? contents = none)
    (hblank : isBlankDocument contents = false) : decode contents =
      ((readDocument (documentOf contents)).mapError (errorOf (documentOf contents))).map
        fun r => ofBlocks r.1 r.2 := by
  rw [decode, decodeBlocks, hmark]
  simp only [hblank, Bool.false_eq_true, if_false]

/-- A document that is not whole is the fault of the text, whatever else is wrong. -/
theorem exists_malformed (h : d.isWhole = false) :
    ∃ fault, (readDocument d).mapError (errorOf d) = .error (.malformed fault) := by
  cases hread : readDocument d with
  | ok r => exact absurd (isWhole_of_readDocument hread).1 (by simp [h])
  | error f =>
    obtain ⟨key?, fault⟩ := f
    refine ⟨fault, ?_⟩
    cases key? with
    | none => rfl
    | some key => simp [Except.mapError, errorOf, h]

theorem decode_eq_mergeConflict_iff {n : Nat} :
    decode contents = .error (.mergeConflict n) ↔ conflictLine? contents = some n := by
  cases hmark : conflictLine? contents with
  | some line =>
    rw [decode, decodeBlocks, hmark, Option.some.injEq]
    simp [Except.map]
  | none =>
    refine iff_of_false ?_ (by simp)
    cases hblank : isBlankDocument contents with
    | true => simp [decode_of_isBlank hmark hblank]
    | false =>
      rw [decode_of_not_isBlank hmark hblank]
      cases readDocument (documentOf contents) with
      | ok r => simp [Except.mapError, Except.map]
      | error f =>
        obtain ⟨key?, fault⟩ := f
        cases key? with
        | none => simp [Except.mapError, Except.map, errorOf]
        | some key => by_cases hwhole : (documentOf contents).isWhole <;>
            simp [Except.mapError, Except.map, errorOf, hwhole]

/-- The outcome for a whole document with a mapping of scalars at its root. -/
theorem decode_of_mapping (hmark : conflictLine? contents = none)
    (hblank : isBlankDocument contents = false) (hwhole : (documentOf contents).isWhole = true)
    {nodes : List (Node × Node)} (hroot : (documentOf contents).root.entries? = some nodes)
    (hkeys : ∀ node ∈ nodes, ∃ key, node.1.scalarText? = some key) :
    ((∃ l, decode contents = .ok l) ↔ AllRead (documentOf contents) (maxDepth - 1) .root nodes) ∧
    ∀ before node after key, nodes = before ++ node :: after → node.1.scalarText? = some key →
      AllRead (documentOf contents) (maxDepth - 1) .root before →
        ¬ IsReadBehind (documentOf contents) (maxDepth - 1) .root before node →
          ∃ fault, decode contents = .error (.entry key fault) := by
  obtain ⟨mark, anchor, tag, hmapping⟩ : ∃ mark anchor tag,
      (documentOf contents).root = .mapping mark anchor tag nodes := by
    cases hnode : (documentOf contents).root with
    | mapping mark anchor tag nodes' =>
      rw [hnode] at hroot
      obtain rfl := Option.some.inj hroot
      exact ⟨mark, anchor, tag, rfl⟩
    | _ => rw [hnode] at hroot; cases hroot
  rw [decode_of_not_isBlank hmark hblank, readDocument_of_mapping hwhole hmapping]
  simp only [AllRead, IsReadBehind]
  constructor
  · have hread : (∃ r, readBlocks (documentOf contents) (maxDepth - 1) .root .current nodes 0 =
        .ok r) ↔ _ := readBlocks_isOk_iff hkeys .current 0
    simp only [Nat.zero_add] at hread
    rw [← hread]
    cases readBlocks (documentOf contents) (maxDepth - 1) .root .current nodes 0 <;>
      simp [Except.mapError, Except.map]
  · rintro before node after key rfl hkey hbefore hnode
    obtain ⟨fault, hfault⟩ := readBlocks_error (n := 0)
      (fun b hb => hkeys b (List.mem_append_left _ hb)) hkey (by simpa only [Nat.zero_add])
      (by simpa only [Nat.zero_add]) .current
    refine ⟨fault, ?_⟩
    rw [hfault]
    simp [Except.mapError, Except.map, errorOf, hwhole]

/-- **The outcomes of reading a file**: the lines of a file are what stands between its line feeds.
The outcome is a merge conflict on a line exactly if this is the first line that is a mark of one.
In a file without such marks that has only blank lines and comments there are no blocks.  Any other
file that is not one whole document is at fault as a text.  If it is one, with a mapping of scalars
at its root, then it is read exactly if the value of every block is read, the metadata under its key
and an entry under any other, and otherwise the error names the first block whose value is not.
Behind others a value is read if it is read by itself, and if the aliases of all of them keep the
bound. -/
theorem decode_outcomes (contents : List UInt8) :
    ([10].intercalate (octetLines contents) = contents ∧ ∀ line ∈ octetLines contents, 10 ∉ line) ∧
    (∀ n, decode contents = .error (.mergeConflict n) ↔
      ∃ before line after, octetLines contents = before ++ line :: after ∧ n = before.length + 1 ∧
        IsMarkOfConflict line ∧ ∀ l ∈ before, ¬ IsMarkOfConflict l) ∧
    ((documentOf contents).isWhole = true ↔ ∃ text, String.fromUTF8? ⟨contents.toArray⟩ = some text ∧
      (Events.ofText text.toList).complete = true ∧
        Events.IsOneDocument (fun _ => False) (Events.ofText text.toList).events) ∧
    (∀ before node, IsReadBehind (documentOf contents) (maxDepth - 1) .root before node ↔
      ∃ r n, readBlock (documentOf contents) (maxDepth - 1) .root node 0 = .ok (r, n) ∧
        (n = 0 ∨ aliasesOfAll (documentOf contents) (maxDepth - 1) .root before + n ≤
          (documentOf contents).aliasBound)) ∧
    ((∀ line ∈ octetLines contents, ¬ IsMarkOfConflict line) →
      ((∀ line ∈ octetLines contents, IsBlankOrComment line) →
        decode contents = .ok (ofBlocks .current [])) ∧
      ((¬ ∀ line ∈ octetLines contents, IsBlankOrComment line) →
        ((documentOf contents).isWhole = false →
          ∃ fault, decode contents = .error (.malformed fault)) ∧
        ((documentOf contents).isWhole = true →
          ∀ nodes, (documentOf contents).root.entries? = some nodes →
            (∀ node ∈ nodes, ∃ key, node.1.scalarText? = some key) →
              ((∃ l, decode contents = .ok l) ↔
                AllRead (documentOf contents) (maxDepth - 1) .root nodes) ∧
              ∀ before node after key, nodes = before ++ node :: after →
                node.1.scalarText? = some key →
                  AllRead (documentOf contents) (maxDepth - 1) .root before →
                    ¬ IsReadBehind (documentOf contents) (maxDepth - 1) .root before node →
                      ∃ fault, decode contents = .error (.entry key fault)))) := by
  have hunmarked : (∀ line ∈ octetLines contents, ¬ IsMarkOfConflict line) ↔
      conflictLine? contents = none := by
    simp only [conflictLine?_eq_none_iff, ← isConflictMark_iff, Bool.not_eq_true]
  have hblank : (∀ line ∈ octetLines contents, IsBlankOrComment line) ↔
      isBlankDocument contents = true := by
    simp only [isBlankDocument, List.all_eq_true, isBlankLine_iff]
  rw [hunmarked, hblank, Bool.not_eq_true]
  refine ⟨⟨Text.intercalate_splitOn 10 contents, fun line hline => (Text.mem_splitOn hline).1⟩,
    fun n => decode_eq_mergeConflict_iff.trans conflictLine?_eq_some_iff, isWhole_documentOf_iff,
    fun before node => isReadBehind_iff, fun hmark => ⟨decode_of_isBlank hmark, fun hblank =>
      ⟨fun hwhole => ?_, fun hwhole nodes hroot hkeys =>
        decode_of_mapping hmark hblank hwhole hroot hkeys⟩⟩⟩
  obtain ⟨fault, hfault⟩ := exists_malformed hwhole
  exact ⟨fault, by rw [decode_of_not_isBlank hmark hblank, hfault]; rfl⟩

/-- A file with a block that is no entry behind one that is. -/
def incompleteText : String :=
  "a@1:\n  version: 1\nb@1:\n  bin: 2\n"

/-- The second block is to blame, but not with a quote left open behind it. -/
theorem decode_outcomes_incomplete :
    (∃ fault, decode (Sink.octets incompleteText.toList) = .error (.entry "b@1" fault)) ∧
      ∃ fault, decode (Sink.octets (incompleteText ++ "\"").toList) = .error (.malformed fault) := by
  have hmark : ∀ text ∈ [incompleteText, incompleteText ++ "\""],
      ∀ line ∈ octetLines (Sink.octets text.toList), ¬ IsMarkOfConflict line := by
    simp only [← isConflictMark_iff]
    decide
  have hblank : ∀ text ∈ [incompleteText, incompleteText ++ "\""],
      ¬ ∀ line ∈ octetLines (Sink.octets text.toList), IsBlankOrComment line := by
    simp only [← isBlankLine_iff]
    decide
  rw [List.forall_mem_cons, List.forall_mem_singleton] at hmark hblank
  obtain ⟨-, -, -, -, hsound⟩ := decode_outcomes (Sink.octets incompleteText.toList)
  obtain ⟨-, -, -, -, hopen⟩ := decode_outcomes (Sink.octets (incompleteText ++ "\"").toList)
  refine ⟨?_, ((hopen hmark.2).2 hblank.2).1 (by decide +kernel)⟩
  have hdocument : (documentOf (Sink.octets incompleteText.toList)).isWhole = true ∧
      ((documentOf (Sink.octets incompleteText.toList)).root.entries?.any fun nodes =>
        let read := readBlock (documentOf (Sink.octets incompleteText.toList)) (maxDepth - 1) .root
        let aliases :=
          aliasesOfAll (documentOf (Sink.octets incompleteText.toList)) (maxDepth - 1) .root
        decide (nodes.map (fun node => node.1.scalarText?) = [some "a@1", some "b@1"]) &&
          (nodes.take 1).all (fun node => (read node (aliases [])).toOption.isSome) &&
            (nodes.drop 1).all fun node => (read node (aliases (nodes.take 1))).toOption.isNone) =
        true := by
    decide +kernel
  generalize documentOf (Sink.octets incompleteText.toList) = d at hdocument hsound
  obtain ⟨hwhole, hroot⟩ := hdocument
  obtain ⟨nodes, hnodes, hroot⟩ := (Option.any_eq_true _ _).1 hroot
  simp only [Bool.and_eq_true, decide_eq_true_iff, List.map_eq_cons_iff,
    List.map_eq_nil_iff] at hroot
  obtain ⟨⟨⟨a, _, rfl, ha, b, _, rfl, hb, rfl⟩, hread⟩, hunread⟩ := hroot
  simp only [List.take_succ_cons, List.take_zero, List.drop_succ_cons, List.drop_zero,
    List.all_cons, List.all_nil, Bool.and_true, Option.isSome_iff_exists, toOption_eq_some_iff,
    Option.isNone_iff_eq_none] at hread hunread
  refine (((hsound hmark.1).2 hblank.1).2 hwhole [a, b] hnodes ?_).2 [a] b [] "b@1" rfl hb ?_ ?_
  · rw [List.forall_mem_cons, List.forall_mem_singleton]
    exact ⟨⟨_, ha⟩, ⟨_, hb⟩⟩
  · refine forall_split_cons_iff.2 ⟨hread, fun before b after hnil => ?_⟩
    simp at hnil
  · rintro ⟨r, hr⟩
    rw [hr] at hunread
    cases hunread

end Lockfile

end LockPrune
