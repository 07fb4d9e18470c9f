import LockPrune.Proofs.Lockfile.LayoutLines
import LockPrune.Proofs.Yaml.LastLine
import LockPrune.Proofs.Yaml.Characters

/-!
# A tree in the layout of a lockfile

The layout knows no YAML: it takes a quote behind certain marks for the beginning of a text,
and the last characters of a line for the header of a block.  Where the scalars of a tree do
not mislead it, the layout puts double quotes for single ones and an empty line in front of
every line that is not indented, and leaves all else as it is.

## Main definitions

* `Tree.isCalm`, `Tree.itemsCalm`, `Tree.entriesCalm` — nothing in a tree misleads the layout.
* `KeptPart`, `KeptNode` — what is written for an entry or an item, and for a node.

## Main statements

* `Layout.apply_rows` — what the layout makes of the entries of a root.
-/

namespace LockPrune.Yaml

open Scalar Layout

namespace Tree

/-! ## Trees that do not mislead -/

/-- The quotes around a scalar, and no others in it, stand where a scalar may begin.  Behind a
tag none may. -/
def keepsQuotes (tag : Option String) (style : Style) (isKey : Bool) (indent : Nat)
    (text : String) : Bool :=
  (tag.isNone && admitted style isKey text.toList ≠ .plain) ||
    !opensQuote [] (scalarText tag style isKey indent text)

/-- A text without quotes is not taken for the header of a block. -/
def isNoHeader (s : List Char) : Bool :=
  beginsSolid s && !opensBlock s

/-- The header of a block is seen, the lines of the block are told from others, and what
follows the block is not taken for one of its lines. -/
def isSeenBlock (after : Behind) (compact : Bool) (tag : Option String) (s : List Char) : Bool :=
  tag.isNone && !compact && after ≠ .mark && s.all fun c => !isBreak c || c = '\n'

/-- A scalar does not mislead the layout. -/
def isCalmScalar (after : Behind) (compact : Bool) (indent : Nat) (tag : Option String)
    (style : Style) (text : String) : Bool :=
  match admitted style false text.toList with
  | .literal => isSeenBlock after compact tag text.toList
  | .plain => keepsQuotes tag style false (indent + 2) text && isNoHeader text.toList
  | _ => keepsQuotes tag style false (indent + 2) text

/-- A key in front of its colon does not mislead the layout. -/
def isCalmKey : Tree → Bool
  | .scalar tag style text => keepsQuotes tag style true 0 text
  | .sequence .. => true
  | .mapping .. => true

/-- The lines of a collection begin on the line of its mark. -/
def isInline (after : Behind) (tag : Option String) : Bool :=
  after ≠ .key && tag.isNone

mutual

/-- Nothing in a node misleads the layout.  The line of the node may begin to the left of the
collection that the node belongs to. -/
def isCalm (after : Behind) (compact : Bool) (indent : Nat) : Tree → Bool
  | .scalar tag style text => isCalmScalar after compact indent tag style text
  | .sequence tag items =>
    itemsCalm (isInline after tag) (itemIndent after tag.isSome indent) items
  | .mapping tag entries => entriesCalm (isInline after tag) (indent + 2) entries
termination_by structural t => t

/-- Nothing in the items of a sequence misleads the layout. -/
def itemsCalm (compact : Bool) (indent : Nat) : List Tree → Bool
  | [] => true
  | item :: items => item.isCalm .dash compact indent && itemsCalm false indent items
termination_by structural ts => ts

/-- Nothing in the entries of a mapping misleads the layout. -/
def entriesCalm (compact : Bool) (indent : Nat) : List (Tree × Tree) → Bool
  | [] => true
  | (k, v) :: entries =>
    (if k.isSimpleKey then k.isCalmKey && v.isCalm .key compact indent
      else k.isCalm .mark compact indent && v.isCalm .mark false indent) &&
      entriesCalm false indent entries
termination_by structural ts => ts

end

end Tree

end LockPrune.Yaml

namespace LockPrune.Layout

open Yaml Yaml.Scalar Yaml.Tree

/-! ## Scalars -/

theorem not_mem_writeBetween {raw : Char → Bool} {code : Char → List Char} {s : List Char}
    (hs : '\n' ∉ s) (hcode : ∀ c ∈ s, '\n' ∉ code c) (indent : Nat) (fresh : Bool) :
    '\n' ∉ writeBetween raw code indent fresh s := by
  induction s generalizing fresh with
  | nil => cases fresh <;> simp [writeBetween, spaces]
  | cons c s ih =>
    rw [List.mem_cons, not_or] at hs
    have hrest := ih hs.2 fun a ha => hcode a (List.mem_cons_of_mem c ha)
    have hc := hcode c List.mem_cons_self
    rw [writeBetween]
    split
    · simp [hs.1, hrest true]
    · cases fresh <;> simp [hc, hrest false, spaces]

/-- But for a block a scalar stands on one line. -/
theorem not_mem_write {st : Style} {s : List Char} (h : Fits st s) (hst : st ≠ .literal)
    (indent : Nat) : '\n' ∉ Scalar.write st indent s := by
  cases h with
  | plain h hne =>
    exact fun hmem => absurd ((words_of_plainAdmitted h hne).one_line _ hmem) (by decide)
  | single h hline =>
    have hquote : ∀ c ∈ s, '\n' ∉ writeSingleChar c := by
      intro c hc
      have hne : c ≠ '\n' := fun h => hline (h ▸ hc)
      rw [writeSingleChar]
      split
      · decide
      · simpa using Ne.symm hne
    rw [Scalar.write, writeSingle_eq (isQuotable_of_singleAdmitted h hline)]
    have hbetween : '\n' ∉ writeBetween isKept writeSingleChar indent false s :=
      not_mem_writeBetween hline hquote indent false
    simp [hbetween]
  | double =>
    have htext := lineFeed_not_mem_double s
    simp [Scalar.write, htext]
  | literal => exact absurd rfl hst

/-- A scalar on one line, where it may begin. -/
theorem scans_scalar {before : List Char} (hbegin : mayBegin before = true) {tag : Option String}
    {style : Style} {isKey : Bool} {indent : Nat} {text : String}
    (h : Fits (admitted style isKey text.toList) text.toList)
    (hst : admitted style isKey text.toList ≠ .literal)
    (hcalm : keepsQuotes tag style isKey indent text = true) :
    Scans .outside before (scalarText tag style isKey indent text)
      (spellScalar .double tag style isKey indent text) .outside := by
  have hsame : opensQuote [] (scalarText tag style isKey indent text) = false →
      Scans .outside before (scalarText tag style isKey indent text)
        (scalarText tag style isKey indent text) .outside := fun hopens =>
    scans_of_not_opensQuote (opensQuote_of_append [] hopens before)
  simp only [keepsQuotes, Bool.or_eq_true, Bool.and_eq_true, Bool.not_eq_true', decide_eq_true_eq,
    Option.isNone_iff_eq_none] at hcalm
  cases tag with
  | some t =>
    -- behind a tag the scalar keeps its quotes
    have hopens := hcalm.resolve_left (by simp)
    exact hsame hopens
  | none =>
    generalize hadmitted : admitted style isKey text.toList = st at *
    have hsingle :
        scalarText none style isKey indent text = Scalar.write st indent text.toList := by
      rw [scalarText, withTag, hadmitted]
    have hdouble : spellScalar .double none style isKey indent text =
        Quoting.double.write st indent text.toList := by
      rw [spellScalar, withTag, hadmitted]
      rfl
    rw [hsingle] at hsame hcalm ⊢
    rw [hdouble]
    cases h with
    | plain => exact hsame (by simpa using hcalm)
    | single hs hline => exact scans_single hbegin hs hline indent
    | double => exact scans_double hbegin indent _
    | literal => exact absurd rfl hst

/-- A tag is one word. -/
theorem space_not_mem_tagText (tag : String) : ' ' ∉ tagText tag := by
  have hchar : ∀ c, ' ' ∉ tagChar c := by
    intro c
    rw [tagChar]
    split
    · rename_i h
      rw [List.mem_singleton]
      rintro rfl
      exact absurd h (by decide)
    · have hdigit : ∀ v, v < 16 → ' ' ≠ hexDigit v := by decide
      intro hmem
      obtain ⟨octet, -, hmem⟩ := List.mem_flatMap.1 hmem
      rw [List.mem_cons] at hmem
      rcases hmem with hmem | hmem
      · exact absurd hmem (by decide)
      · obtain ⟨v, hv, heq⟩ := exists_of_mem_hexText hmem
        exact hdigit v hv heq
  have hchars : ∀ cs : List Char, ' ' ∉ cs.flatMap tagChar := by
    intro cs hmem
    obtain ⟨c, -, hc⟩ := List.mem_flatMap.1 hmem
    exact hchar c hc
  rw [tagText]
  split
  · simpa using ⟨hchar _, by simpa using hchars _⟩
  · simpa using hchars tag.toList

/-- A tag stays on its line. -/
theorem not_mem_withTag (tag : Option String) {s : List Char} (hs : '\n' ∉ s) :
    '\n' ∉ withTag tag s := by
  cases tag with
  | none => exact hs
  | some t =>
    have ht : '\n' ∉ tagText t := fun hmem => absurd ((tagText_line t).1 _ hmem) (by decide)
    rw [withTag]
    split <;> simp [ht, hs]

/-- No scalar begins in a tag. -/
theorem opensQuote_withTag (tag : Option String) {s : List Char}
    (hs : ∀ before, opensQuote before s = false) (before : List Char) :
    opensQuote before (withTag tag s) = false := by
  cases tag with
  | none => exact hs before
  | some t =>
    obtain ⟨r, hr⟩ := Scanner.exists_tagText t
    have hword := space_not_mem_tagText t
    rw [hr, List.mem_cons, not_or] at hword
    have htag : opensQuote before (tagText t) = false := by
      rw [hr, opensQuote, opensQuote_word hword.2 (by simp) ⟨'!', by simp, by decide⟩]
      simp
    rw [withTag, opensQuote_append, htag, Bool.false_or]
    split
    · rfl
    · rw [opensQuote, hs]
      simp

theorem isWord_withTag {s : List Char} (hs : IsWord s) (tag : Option String) :
    IsWord (withTag tag s) := by
  cases tag with
  | none => exact hs
  | some t =>
    obtain ⟨x, hx⟩ := Scanner.exists_tagText t
    rw [withTag, hx]
    exact ⟨by simp, by simp⟩

theorem isWord_write (q : Quoting) {st : Style} {s : List Char} (h : Fits st s) (indent : Nat) :
    IsWord (q.write st indent s) := by
  cases h with
  | plain h hne =>
    have hword : IsWord s := by
      refine ⟨hne, fun hhead => ?_⟩
      have hbegins := (words_of_plainAdmitted h hne).begins
      rw [hhead] at hbegins
      exact absurd hbegins (by decide)
    cases q <;> exact hword
  | single =>
    cases q <;> exact ⟨List.cons_ne_nil _ _, by simp [Quoting.write, Scalar.write, requote]⟩
  | double => cases q <;> exact ⟨List.cons_ne_nil _ _, by simp [Quoting.write, Scalar.write]⟩
  | literal =>
    cases q <;> exact ⟨List.cons_ne_nil _ _, by simp [Quoting.write, Scalar.write, literalHeader]⟩

/-- A word behind a tag decides the end of the line as it does without one. -/
theorem isNoHeader_withTag (tag : Option String) {s : List Char} (hs : isNoHeader s = true) :
    isNoHeader (withTag tag s) = true := by
  cases tag with
  | none => exact hs
  | some t =>
    obtain ⟨x, hx⟩ := Scanner.exists_tagText t
    rw [isNoHeader, Bool.and_eq_true, Bool.not_eq_true'] at hs ⊢
    have hne : s ≠ [] := by
      rintro rfl
      simp [beginsSolid] at hs
    have htag : withTag (some t) s = tagText t ++ ' ' :: s := by
      rw [withTag, if_neg (by simpa using hne)]
    rw [htag]
    refine ⟨?_, opensBlock_append hs.1 hs.2 _⟩
    rw [hx]
    rfl

/-- What ends with a quote or a bracket is no header. -/
theorem isNoHeader_of_getLast? {s : List Char} (hbegin : beginsSolid s = true) {a : Char}
    (hlast : s.getLast? = some a) (ha : isPlainEnd a = true) : isNoHeader s = true := by
  rw [isNoHeader, hbegin, opensBlock_of_getLast? hlast ha]
  rfl

/-- A scalar on one line is no header. -/
theorem isNoHeader_scalarText {tag : Option String} {style : Style} {isKey : Bool} {indent : Nat}
    {text : String} (h : Fits (admitted style isKey text.toList) text.toList)
    (hst : admitted style isKey text.toList ≠ .literal)
    (hplain : admitted style isKey text.toList = .plain → isNoHeader text.toList = true) :
    isNoHeader (scalarText tag style isKey indent text) = true := by
  rw [scalarText]
  refine isNoHeader_withTag tag ?_
  generalize admitted style isKey text.toList = st at *
  cases h with
  | plain => exact hplain rfl
  | single => exact isNoHeader_of_getLast? rfl (List.getLast?_concat) (by decide)
  | double => exact isNoHeader_of_getLast? rfl (List.getLast?_concat) (by decide)
  | literal => exact absurd rfl hst

/-! ## Nodes and parts -/

/-- What is written for lines, up to a block scalar that they may end with. -/
def Keeps (s : State) (n : Nat) (x out : List Char) : Prop :=
  ∃ b, (∀ j, b = some j → n ≤ j) ∧ Runs s x out ⟨.outside, b⟩

/-- What is written for an item or an entry at a place in a line. -/
def KeptPart (compact : Bool) (n : Nat) (x y : List Char) : Prop :=
  ∀ s z out base, Takes s z out base → '\n' ∉ z → '\r' ∉ z → base ≤ n →
    (compact = false → base = n) → Keeps s n (z ++ closeLine x) (out ++ closeLine y)

/-- The marks that a node stands behind. -/
def IsMarkOf : Behind → Char → Prop
  | .key, c => c = ':'
  | .dash, c => c = '-'
  | .mark, c => c = '?' ∨ c = ':'

theorem IsMarkOf.cases {after : Behind} {c : Char} (h : IsMarkOf after c) :
    c = ':' ∨ c = '-' ∨ c = '?' := by
  cases after with
  | key => exact .inl h
  | dash => exact .inr (.inl h)
  | mark => exact h.elim (fun h => .inr (.inr h)) .inl

/-- What is written for a node behind its mark. -/
def KeptNode (after : Behind) (compact : Bool) (n : Nat) (x y : List Char) : Prop :=
  ∀ s z out base c, Begun s z out base → z.getLast? = some c → IsMarkOf after c →
    '\n' ∉ z → '\r' ∉ z → base ≤ n → (compact = false → base = n) →
    Keeps s n (z ++ closeLine x) (out ++ closeLine y)

theorem Keeps.weaken {s : State} {n m : Nat} {x out : List Char} (h : Keeps s n x out)
    (hm : m ≤ n) : Keeps s m x out := by
  obtain ⟨b, hb, hruns⟩ := h
  exact ⟨b, fun j hj => Nat.le_trans hm (hb j hj), hruns⟩

theorem Keeps.trans {s : State} {n : Nat} {x y out out' : List Char} (h : Keeps s n x out)
    (h' : ∀ b : Option Nat, (∀ j, b = some j → n ≤ j) → Keeps ⟨.outside, b⟩ n y out') :
    Keeps s n (x ++ y) (out ++ out') := by
  obtain ⟨b, hb, hruns⟩ := h
  obtain ⟨b', hb', hruns'⟩ := h' b hb
  exact ⟨b', hb', hruns.trans hruns'⟩

/-- A word ends its line. -/
theorem keptNode_word {x y : List Char} (hx : IsWord x) (hline : '\n' ∉ x) (hreturn : '\r' ∉ x)
    (hheader : isNoHeader x = true) (hend : endsWith isBreak x = false)
    (hend' : endsWith isBreak y = false) (hy : y ≠ [])
    (hscans : ∀ before, mayBegin before = true → Scans .outside before x y .outside)
    (after : Behind) (compact : Bool) (n : Nat) :
        KeptNode after compact n (' ' :: x) (' ' :: y) := by
  intro s z out base c hbegun hlast hc hz hz' _ _
  have htakes := hbegun.takes hlast hc.cases
  have hword := htakes.append x y hx (hscans _ htakes.begins)
  have hopens : opensBlock (z ++ [' '] ++ x) = false := by
    rw [isNoHeader, Bool.and_eq_true, Bool.not_eq_true'] at hheader
    rw [List.append_assoc]
    exact opensBlock_append hheader.1 hheader.2 z
  have hruns := hword.endLine (by simp [hz, hline]) (by simp [hz', hreturn])
  rw [hopens] at hruns
  refine ⟨none, by simp, ?_⟩
  have hclose : closeLine (' ' :: x) = [' '] ++ x ++ ['\n'] := by
    have h := closeLine_append hx.ne_nil [' ']
    rw [closeLine_of_endsWith hend] at h
    simpa using h
  have hclose' : closeLine (' ' :: y) = [' '] ++ y ++ ['\n'] := by
    have h := closeLine_append hy [' ']
    rw [closeLine_of_endsWith hend'] at h
    simpa using h
  rw [hclose, hclose']
  simpa using hruns

/-- A block scalar behind a colon or a dash. -/
theorem keptNode_block {after : Behind} {compact : Bool} {n : Nat} {text : List Char}
    (h : literalAdmitted text = true) (hseen : isSeenBlock after compact none text = true) :
    KeptNode after compact n (' ' :: Scalar.write .literal (n + 2) text)
      (' ' :: Scalar.write .literal (n + 2) text) := by
  intro s z out base c hbegun hlast hc hz hz' _ hbase
  simp only [isSeenBlock, Option.isNone_none, Bool.true_and, Bool.and_eq_true, Bool.not_eq_true',
    decide_eq_true_eq, List.all_eq_true, Bool.or_eq_true] at hseen
  obtain ⟨⟨hcompact, hmark⟩, hbreaks⟩ := hseen
  have hbase := hbase hcompact
  subst hbase
  obtain ⟨r, hr, hchars⟩ := header_chars text
  have hne : text ≠ [] := by
    rintro rfl
    simp [literalAdmitted] at h
  -- the line of the header
  have hheader : '\n' ∉ literalHeader text ∧ '\r' ∉ literalHeader text ∧
      ∀ before, opensQuote before (literalHeader text) = false := by
    rw [hr]
    refine ⟨?_, ?_, fun before => opensQuote_eq_false (fun a ha => ?_) before⟩
    · simpa using fun h => (hchars _ h).2.2.2.2.1 rfl
    · simpa using fun h => (hchars _ h).2.2.2.2.2 rfl
    · rcases List.mem_cons.1 ha with rfl | ha
      · decide
      · exact ⟨(hchars a ha).2.2.1, (hchars a ha).2.2.2.1⟩
  have htakes := hbegun.takes hlast hc.cases
  have hword := htakes.append (literalHeader text) (literalHeader text)
    ⟨by simp [hr], by simp [hr]⟩ (scans_of_not_opensQuote (hheader.2.2 _))
  have hopens : opensBlock (z ++ [' '] ++ literalHeader text) = true := by
    rw [List.append_assoc]
    refine opensBlock_header hlast ?_ text
    cases after with
    | key => exact .inl hc
    | dash => exact .inr hc
    | mark => exact absurd rfl hmark
  have hruns := hword.endLine (by simp [hz, hheader.1]) (by simp [hz', hheader.2.1])
  rw [hopens, if_pos rfl] at hruns
  -- the lines of the block
  have hbody := runs_writeLines (by omega : base < base + 2) (s := text)
    fun a ha hab => by simpa [hab] using hbreaks a ha
  have hend : closeLine (' ' :: Scalar.write .literal (base + 2) text) =
      [' '] ++ literalHeader text ++ ['\n'] ++
          (writeLines (base + 2) true text ++ lineEnd text) := by
    have hcons : ' ' :: Scalar.write .literal (base + 2) text =
        [' '] ++ Scalar.write .literal (base + 2) text := rfl
    rw [hcons, closeLine_append (by simp [Scalar.write]), closeLine_eq,
      Scanner.lineEnd_literal hne]
    simp [Scalar.write]
  refine ⟨some base, fun j hj => by rw [Option.some.inj hj], ?_⟩
  rw [hend]
  simpa using hruns.trans hbody

/-! ## Collections -/

theorem margin_of_pos {n : Nat} (h : 0 < n) : margin n = spaces n := by
  rw [margin, if_neg (by omega)]

/-- A part on a line of its own. -/
theorem KeptPart.line {n : Nat} {x y : List Char} (h : KeptPart false n x y) {b : Option Nat}
    (hb : ∀ j, b = some j → n ≤ j) :
    Keeps ⟨.outside, b⟩ n (spaces n ++ closeLine x) (margin n ++ closeLine y) :=
  h _ _ _ n (takes_spaces hb) (by simp [spaces]) (by simp [spaces]) (Nat.le_refl n) fun _ => rfl

/-- The parts of a collection, one below the other. -/
theorem KeptPart.stack_cons {compact : Bool} {n : Nat} (hn : 0 < n) {x y : List Char}
    {xs ys : List (List Char)} (h : KeptPart compact n x y)
    (hs : KeptPart false n (stack n xs) (stack n ys)) (hxs : xs ≠ []) (hys : ys ≠ [])
    (hxs' : ∀ r ∈ xs, r ≠ []) (hys' : ∀ r ∈ ys, r ≠ []) :
    KeptPart compact n (stack n (x :: xs)) (stack n (y :: ys)) := by
  intro s z out base htakes hz hz' hle hbase
  have hrun := (h s z out base htakes hz hz' hle hbase).trans fun b hb => hs.line hb
  rw [closeLine_stack_cons n x hxs hxs', closeLine_stack_cons n y hys hys']
  rw [margin_of_pos hn] at hrun
  simpa using hrun

/-- A mark in front of a node. -/
theorem KeptNode.mark {after : Behind} {compact : Bool} {n : Nat} {x y : List Char}
    (h : KeptNode after compact n x y) {c : Char} (hc : IsMarkOf after c) :
    KeptPart compact n (c :: x) (c :: y) := by
  intro s z out base htakes hz hz' hle hbase
  have hmark : isBreak c = false ∧ c ≠ ' ' ∧ c ≠ '\x27' ∧ c ≠ '"' ∧ c ≠ '\n' ∧ c ≠ '\r' := by
    rcases hc.cases with rfl | rfl | rfl <;> decide
  have hbegun := htakes.append [c] [c] ⟨by simp, by simpa using hmark.2.1⟩
    (scans_of_not_opensQuote (opensQuote_eq_false (by simp [hmark]) _))
  have hrun := h s (z ++ [c]) (out ++ [c]) base c hbegun (by simp) hc
    (by simp [hz, Ne.symm hmark.2.2.2.2.1]) (by simp [hz', Ne.symm hmark.2.2.2.2.2]) hle hbase
  rw [closeLine_cons hmark.1, closeLine_cons hmark.1]
  simpa using hrun

/-- The parts of a collection below the line of its mark. -/
theorem KeptPart.below {n inner : Nat} {x y : List Char} (h : KeptPart false inner x y)
    (hinner : n ≤ inner) (hpos : 0 < inner) {s : State} {z out : List Char} {base : Nat}
    (hbegun : Begun s z out base) (hz : '\n' ∉ z) (hz' : '\r' ∉ z)
    (hopens : opensBlock z = false) :
    Keeps s n (z ++ '\n' :: (spaces inner ++ closeLine x))
      (out ++ '\n' :: (spaces inner ++ closeLine y)) := by
  have hline := hbegun.endLine hz hz'
  rw [hopens] at hline
  have hend : Keeps s inner (z ++ ['\n']) (out ++ ['\n']) := ⟨none, by simp, hline⟩
  have hrun := hend.trans fun b hb => h.line hb
  rw [margin_of_pos hpos] at hrun
  simpa using hrun.weaken hinner

/-- The parts of a collection behind a mark. -/
theorem keptNode_place {after : Behind} {compact : Bool} {n inner : Nat} {tag : Option String}
    {x y : List Char} (hinner : n ≤ inner) (hpos : 0 < inner)
    (h : KeptPart (isInline after tag) inner x y) (hx : x ≠ []) (hy : y ≠ []) :
    KeptNode after compact n (place after tag inner x) (place after tag inner y) := by
  intro s z out base c hbegun hlast hc hz hz' hle _
  have hplace : ∀ w : List Char, w ≠ [] →
      closeLine (place after tag inner w) = place after tag inner (closeLine w) := by
    intro w hw
    simpa using closeLine_place hw after tag inner []
  rw [hplace x hx, hplace y hy]
  cases tag with
  | none =>
    cases after with
    | key =>
      have hopens : opensBlock z = false := opensBlock_of_getLast? hlast (by
        obtain rfl : c = ':' := hc
        decide)
      simpa [place] using h.below hinner hpos hbegun hz hz' hopens
    | dash =>
      have hrun := h s _ _ base (hbegun.takes hlast hc.cases) (by simp [hz]) (by simp [hz'])
        (Nat.le_trans hle hinner) (by simp [isInline])
      simpa [place] using hrun.weaken hinner
    | mark =>
      have hrun := h s _ _ base (hbegun.takes hlast hc.cases) (by simp [hz]) (by simp [hz'])
        (Nat.le_trans hle hinner) (by simp [isInline])
      simpa [place] using hrun.weaken hinner
  | some t =>
    obtain ⟨r, hr⟩ := Scanner.exists_tagText t
    have htag : '\n' ∉ tagText t := fun hmem => absurd ((tagText_line t).1 _ hmem) (by decide)
    have hscans : ∀ before, Scans .outside before (tagText t) (tagText t) .outside := fun before =>
      scans_of_not_opensQuote (by
        simpa [withTag] using opensQuote_withTag (some t) (s := []) (fun _ => rfl) before)
    have hbegun' := (hbegun.takes hlast hc.cases).append (tagText t) (tagText t)
      ⟨by simp [hr], by simp [hr]⟩ (hscans _)
    have hopens : opensBlock (z ++ [' '] ++ tagText t) = false := by
      rw [List.append_assoc]
      refine opensBlock_append ?_ (opensBlock_of_no_space (space_not_mem_tagText t)) z
      rw [hr]
      rfl
    have hinline : isInline after (some t) = false := by simp [isInline]
    rw [hinline] at h
    have hrun := h.below hinner hpos hbegun' (by simp [hz, htag])
      (by simp [hz', (IsClear.tagText t).not_mem_return]) hopens
    cases after <;> simpa [place] using hrun

/-- An empty collection is a pair of brackets. -/
theorem keptNode_brackets {brackets : List Char}
    (hb : brackets = ['[', ']'] ∨ brackets = ['\x7b', '\x7d']) (tag : Option String)
    (after : Behind) (compact : Bool) (n : Nat) :
    KeptNode after compact n (spaced (withTag tag brackets)) (spaced (withTag tag brackets)) := by
  have hword : IsWord brackets := by
    rcases hb with rfl | rfl <;> exact ⟨by simp, by simp⟩
  have hclear : IsClear brackets := by
    rcases hb with rfl | rfl <;> exact .cons (by decide) (.cons (by decide) .nil)
  have hend : endsWith isBreak brackets = false := by rcases hb with rfl | rfl <;> rfl
  have hheader : isNoHeader brackets = true := by
    rcases hb with rfl | rfl <;> exact isNoHeader_of_getLast? rfl rfl (by decide)
  have hquotes : ∀ before, opensQuote before brackets = false := fun before =>
    opensQuote_eq_false (by rcases hb with rfl | rfl <;> exact forall_mem_of_all (by decide)) before
  have hline : '\n' ∉ brackets := by rcases hb with rfl | rfl <;> decide
  have htagged := isWord_withTag hword tag
  have hends := endsWith_withTag tag hword.ne_nil hend
  have hspaced : spaced (withTag tag brackets) = ' ' :: withTag tag brackets := by
    rw [spaced, if_neg (by simpa using htagged.ne_nil)]
  rw [hspaced]
  exact keptNode_word htagged (not_mem_withTag tag hline) (hclear.withTag tag).not_mem_return
    (isNoHeader_withTag tag hheader) hends hends htagged.ne_nil
    (fun before _ =>
      scans_of_not_opensQuote (opensQuote_withTag tag hquotes before)) after compact n

/-! ## The induction -/

/-- An entry whose key stands in front of its colon. -/
theorem keptPart_simple {compact : Bool} {n : Nat} {k : Tree} (hsimple : k.isSimpleKey = true)
    (hsound : k.IsSound) (hcalm : k.isCalmKey = true) {x y : List Char}
    (h : KeptNode .key compact n x y) :
    KeptPart compact n (spellKey .single k ++ ':' :: x) (spellKey .double k ++ ':' :: y) := by
  intro s z out base htakes hz hz' hle hbase
  obtain ⟨hline, -⟩ := spellKey_line .single hsimple
  have hclear := isClear_spellKey .single hsound
  have hbrackets : ∀ (tag : Option String) (a b : Char), a ≠ ' ' →
      (∀ c ∈ [a, b], c ≠ '\x27' ∧ c ≠ '"') →
      IsWord (withTag tag [a, b]) ∧
        Scans .outside z.reverse (withTag tag [a, b]) (withTag tag [a, b]) .outside := by
    intro tag a b ha hab
    exact ⟨isWord_withTag ⟨by simp, by simpa using ha⟩ tag, scans_of_not_opensQuote
      (opensQuote_withTag tag (fun before => opensQuote_eq_false hab before) _)⟩
  have hkey : IsWord (spellKey .single k) ∧
      Scans .outside z.reverse (spellKey .single k) (spellKey .double k) .outside := by
    match k, hsound, hcalm with
    | .scalar tag style text, hsound, hcalm =>
      have hfits := IsSoundScalar.fits hsound true
      have hst : admitted style true text.toList ≠ .literal := by
        rcases admitted_key style text.toList with h | h | ⟨h, -⟩ <;> simp [h]
      refine ⟨isWord_withTag (isWord_write _ hfits 0) tag, ?_⟩
      rw [spellKey, spellScalar_single]
      exact scans_scalar htakes.begins hfits hst hcalm
    | .sequence tag _, _, _ =>
      exact hbrackets tag '[' ']' (by decide) (forall_mem_of_all (by decide))
    | .mapping tag _, _, _ =>
      exact hbrackets tag '\x7b' '\x7d' (by decide) (forall_mem_of_all (by decide))
  obtain ⟨hword, hscans⟩ := hkey
  have hkey := htakes.append _ _ hword hscans
  have hcolon := hkey.append (y := [':']) (o := [':'])
    (scans_of_not_opensQuote (opensQuote_eq_false (by simp) _)) (by simp) (by simp)
  have hrun := h s _ _ base ':' hcolon (by simp) rfl
    (by
      have hmem : '\n' ∉ spellKey .single k := fun hmem => absurd (hline _ hmem) (by decide)
      simp [hz, hmem])
    (by simp [hz', hclear.not_mem_return]) hle hbase
  rw [closeLine_append (List.cons_ne_nil _ _), closeLine_append (List.cons_ne_nil _ _),
    closeLine_cons (by decide), closeLine_cons (by decide)]
  simpa using hrun

/-- The gap behind a key that is written out: it stands in front of a line that is not
indented. -/
def gapAt (n : Nat) : List Char :=
  if n = 0 then ['\n'] else []

theorem margin_eq (n : Nat) : margin n = gapAt n ++ spaces n := by
  rw [margin, gapAt]
  split
  · rename_i h
    subst h
    rfl
  · rfl

/-- An entry whose key is written out. -/
theorem keptPart_writtenOut {compact : Bool} {n : Nat} {x y x' y' : List Char}
    (hkey : KeptNode .mark compact n x y) (hvalue : KeptNode .mark false n x' y') :
    KeptPart compact n (closeLine ('?' :: x) ++ [] ++ spaces n ++ ':' :: x')
      (closeLine ('?' :: y) ++ gapAt n ++ spaces n ++ ':' :: y') := by
  intro s z out base htakes hz hz' hle hbase
  have hfirst := (hkey.mark (.inl rfl)) s z out base htakes hz hz' hle hbase
  have hrun := hfirst.trans fun b hb => (hvalue.mark (c := ':') (.inr rfl)).line hb
  rw [margin_eq] at hrun
  rw [closeLine_append (List.cons_ne_nil _ _), closeLine_append (List.cons_ne_nil _ _)]
  simpa using hrun

/-- An entry of a mapping. -/
theorem keptPart_entry {compact : Bool} {n : Nat} {k v : Tree} (hsound : k.IsSound)
    (hcalm : (if k.isSimpleKey then k.isCalmKey && v.isCalm .key compact n
      else k.isCalm .mark compact n && v.isCalm .mark false n) = true)
    (hkey : k.isCalm .mark compact n = true →
      KeptNode .mark compact n (spell .single .mark n k) (spell .double .mark n k))
    (hvalue : ∀ after compact, v.isCalm after compact n = true →
      KeptNode after compact n (spell .single after n v) (spell .double after n v)) :
    KeptPart compact n
      (spellEntry .single [] k n (spell .single .mark n k) (spell .single (keyMark k) n v))
      (spellEntry .double (gapAt n) k n (spell .double .mark n k)
          (spell .double (keyMark k) n v)) := by
  cases hsimple : k.isSimpleKey with
  | true =>
    rw [hsimple, if_pos rfl, Bool.and_eq_true] at hcalm
    simp only [spellEntry, keyMark, hsimple, if_true]
    exact keptPart_simple hsimple hsound hcalm.1 (hvalue _ _ hcalm.2)
  | false =>
    rw [hsimple, if_neg (by simp), Bool.and_eq_true] at hcalm
    simp only [spellEntry, keyMark, hsimple, Bool.false_eq_true, if_false]
    exact keptPart_writtenOut (hkey hcalm.1) (hvalue _ _ hcalm.2)

/-- A scalar behind a mark. -/
theorem keptNode_scalar {after : Behind} {compact : Bool} {n : Nat} {tag : Option String}
    {style : Style} {text : String} (h : IsSoundScalar tag style text)
    (hcalm : isCalmScalar after compact n tag style text = true) :
    KeptNode after compact n (spell .single after n (.scalar tag style text))
      (spell .double after n (.scalar tag style text)) := by
  have hfits := h.fits false
  have hspaced : ∀ q, spell q after n (.scalar tag style text) =
      ' ' :: spellScalar q tag style false (n + 2) text := by
    intro q
    have hne := (isWord_withTag (isWord_write (q.behind tag) hfits (n + 2)) tag).ne_nil
    rw [spell, spellScalar, spaced, if_neg (by simpa using hne)]
  rw [hspaced, hspaced]
  by_cases hst : admitted style false text.toList = .literal
  · -- a block
    rw [isCalmScalar, hst] at hcalm
    obtain rfl : tag = none := by
      simp only [isSeenBlock, Bool.and_eq_true, Option.isNone_iff_eq_none] at hcalm
      exact hcalm.1.1.1
    rw [hst] at hfits
    have hliteral : ∀ q : Quoting, spellScalar q none style false (n + 2) text =
        Scalar.write .literal (n + 2) text.toList := by
      intro q
      rw [spellScalar, hst, Quoting.write_literal]
      rfl
    rw [hliteral, hliteral]
    cases hfits with
    | literal hadmitted => exact keptNode_block hadmitted hcalm
  · -- a text on one line
    have hquotes : keepsQuotes tag style false (n + 2) text = true ∧
        (admitted style false text.toList = .plain → isNoHeader text.toList = true) := by
      rw [isCalmScalar] at hcalm
      split at hcalm
      · rename_i hliteral
        exact absurd hliteral hst
      · rw [Bool.and_eq_true] at hcalm
        exact ⟨hcalm.1, fun _ => hcalm.2⟩
      · rename_i hplain
        exact ⟨hcalm, fun h => absurd h hplain⟩
    have hword := isWord_withTag (isWord_write (Quoting.single.behind tag) hfits (n + 2)) tag
    have hword' := isWord_withTag (isWord_write (Quoting.double.behind tag) hfits (n + 2)) tag
    have hend :=
      endsWith_withTag tag (isWord_write (Quoting.single.behind tag) hfits (n + 2)).ne_nil
      (endsWith_write _ hfits hst (n + 2))
    have hend' :=
      endsWith_withTag tag (isWord_write (Quoting.double.behind tag) hfits (n + 2)).ne_nil
      (endsWith_write _ hfits hst (n + 2))
    have hclear := isClear_spellScalar .single h false (n + 2)
    rw [spellScalar_single] at hclear ⊢
    rw [Quoting.single_behind] at hword hend
    exact keptNode_word hword (not_mem_withTag tag (not_mem_write hfits hst (n + 2)))
      hclear.not_mem_return (isNoHeader_scalarText hfits hst hquotes.2) hend hend' hword'.ne_nil
      (fun before hbegin => scans_scalar hbegin hfits hst hquotes.1) after compact n

/-- The lines of a collection are none only if it has no parts. -/
theorem stack_ne_nil {n : Nat} {parts : List (List Char)} (h : parts ≠ [])
    (hparts : ∀ r ∈ parts, r ≠ []) : stack n parts ≠ [] := by
  match parts, h with
  | [r], _ => exact hparts r List.mem_cons_self
  | r :: r' :: rest, _ => simp [stack, closeLine_eq, hparts r List.mem_cons_self]

/-- A collection behind a mark. -/
theorem keptNode_parts {after : Behind} {compact : Bool} {n inner : Nat} {tag : Option String}
    {brackets : List Char} (hb : brackets = ['[', ']'] ∨ brackets = ['\x7b', '\x7d'])
    {xs ys : List (List Char)} (hxy : xs = [] ↔ ys = []) (hinner : n ≤ inner)
    (hpos : xs ≠ [] → 0 < inner) (hxs : ∀ r ∈ xs, r ≠ []) (hys : ∀ r ∈ ys, r ≠ [])
    (h : xs ≠ [] → KeptPart (isInline after tag) inner (stack inner xs) (stack inner ys)) :
    KeptNode after compact n (spellParts after tag inner brackets xs)
      (spellParts after tag inner brackets ys) := by
  by_cases hempty : xs = []
  · rw [hxy.1 hempty, hempty, spellParts]
    exact keptNode_brackets hb tag after compact n
  · have hempty' : ys ≠ [] := fun hnil => hempty (hxy.2 hnil)
    rw [spellParts, spellParts, if_neg (by simpa using hempty), if_neg (by simpa using hempty')]
    exact keptNode_place hinner (hpos hempty) (h hempty) (stack_ne_nil hempty hxs)
      (stack_ne_nil hempty' hys)

mutual

/-- What the layout makes of a node behind its mark. -/
theorem keptNode (t : Tree) (hsound : t.IsSound) (after : Behind) (compact : Bool) (n : Nat)
    (hflat : 0 < n ∨ ∀ tag items, t ≠ .sequence tag items)
    (hcalm : t.isCalm after compact n = true) :
    KeptNode after compact n (spell .single after n t) (spell .double after n t) := by
  match t, hsound with
  | .scalar tag style text, hsound => exact keptNode_scalar hsound hcalm
  | .sequence tag items, hsound =>
    have hn : 0 < n := hflat.resolve_right fun h => h tag items rfl
    have hinner : n ≤ itemIndent after tag.isSome n := by
      rw [itemIndent_eq]
      split <;> omega
    have hitems := keptItems items hsound.2 (isInline after tag) (itemIndent after tag.isSome n)
      (by omega) hcalm
    refine keptNode_parts (.inl rfl) ?_ hinner (fun _ => by omega)
      (spellItems_ne_nil .single _ items)
      (spellItems_ne_nil .double _ items) fun hne => hitems ?_
    · cases items <;> simp [spellItems]
    · rintro rfl
      exact hne rfl
  | .mapping tag entries, hsound =>
    have hentries := keptEntries entries hsound.2 (isInline after tag) (n + 2) (by omega) hcalm
    refine keptNode_parts (.inr rfl) ?_ (by omega) (fun _ => by omega)
      (spellEntries_ne_nil .single _ entries) (spellEntries_ne_nil .double _ entries)
      fun hne => hentries ?_
    · cases entries <;> simp [spellEntries]
    · rintro rfl
      exact hne rfl
termination_by structural t

theorem keptItems (items : List Tree) (hsound : ItemsSound items) (compact : Bool) (n : Nat)
    (hn : 0 < n) (hcalm : itemsCalm compact n items = true) (hne : items ≠ []) :
    KeptPart compact n (stack n (spellItems .single n items))
      (stack n (spellItems .double n items)) := by
  match items, hsound with
  | [], _ => exact absurd rfl hne
  | item :: items, hsound =>
    simp only [itemsCalm, Bool.and_eq_true] at hcalm
    have hitem := (keptNode item hsound.1 .dash compact n (.inl hn) hcalm.1).mark (c := '-') rfl
    have hrest := keptItems items hsound.2 false n hn hcalm.2
    by_cases hitems : items = []
    · subst hitems
      exact hitem
    · refine hitem.stack_cons hn (hrest hitems) ?_ ?_ (spellItems_ne_nil .single n items)
        (spellItems_ne_nil .double n items)
      · cases items with
        | nil => exact absurd rfl hitems
        | cons => simp [spellItems]
      · cases items with
        | nil => exact absurd rfl hitems
        | cons => simp [spellItems]
termination_by structural items

theorem keptEntries (entries : List (Tree × Tree)) (hsound : EntriesSound entries)
    (compact : Bool) (n : Nat) (hn : 0 < n) (hcalm : entriesCalm compact n entries = true)
    (hne : entries ≠ []) :
    KeptPart compact n (stack n (spellEntries .single n entries))
      (stack n (spellEntries .double n entries)) := by
  match entries, hsound with
  | [], _ => exact absurd rfl hne
  | (k, v) :: entries, hsound =>
    simp only [entriesCalm, Bool.and_eq_true] at hcalm
    obtain ⟨hentry, hcalm⟩ := hcalm
    have hgap : gapAt n = [] := if_neg (by omega)
    have hkey := keptNode k hsound.1 .mark compact n (.inl hn)
    have hvalue := fun after compact => keptNode v hsound.2.1 after compact n (.inl hn)
    have hrest := keptEntries entries hsound.2.2 false n hn hcalm
    have hpart := keptPart_entry hsound.1 hentry hkey hvalue
    rw [hgap] at hpart
    by_cases hentries : entries = []
    · subst hentries
      exact hpart
    · refine hpart.stack_cons hn (hrest hentries) ?_ ?_ (spellEntries_ne_nil .single n entries)
        (spellEntries_ne_nil .double n entries)
      · cases entries with
        | nil => exact absurd rfl hentries
        | cons => simp [spellEntries]
      · cases entries with
        | nil => exact absurd rfl hentries
        | cons => simp [spellEntries]
termination_by structural entries

end

/-! ## Roots -/

/-- A sequence would stand as far to the left as the key of the root that it belongs to. -/
def isFlat : Tree → Bool
  | .sequence .. => false
  | _ => true

/-- Nothing in the entries of a root misleads the layout, and no other lines than theirs begin
at the left. -/
def isCalmRoot (entries : List (Tree × Tree)) : Bool :=
  entriesCalm false 0 entries && entries.all fun entry => isFlat entry.1 && isFlat entry.2

theorem keeps_rows {entries : List (Tree × Tree)} (hsound : EntriesSound entries)
    (hcalm : isCalmRoot entries = true) :
    ∀ b : Option Nat, Keeps ⟨.outside, b⟩ 0 (rows .single [] entries)
      (rows .double ['\n'] entries) := by
  induction entries with
  | nil => exact fun b => ⟨b, fun j _ => Nat.zero_le j, .nil _⟩
  | cons entry entries ih =>
    intro b
    obtain ⟨k, v⟩ := entry
    simp only [isCalmRoot, entriesCalm, List.all_cons, Bool.and_eq_true] at hcalm
    obtain ⟨⟨hentry, hcalm⟩, ⟨hk, hv⟩, hflat⟩ := hcalm
    have hnode : ∀ t : Tree, isFlat t = true → 0 < 0 ∨ ∀ tag items, t ≠ .sequence tag items := by
      rintro t ht
      right
      rintro tag items rfl
      cases ht
    have hpart := keptPart_entry hsound.1 hentry
      (keptNode k hsound.1 .mark false 0 (hnode k hk))
      fun after compact => keptNode v hsound.2.1 after compact 0 (hnode v hv)
    have hrest := ih hsound.2.2 (by simp [isCalmRoot, hcalm, hflat])
    have hrun := (hpart.line (b := b) fun j _ => Nat.zero_le j).trans fun b' _ => hrest b'
    simpa [rows, row, margin, gapAt, spaces] using hrun

/-- What the layout makes of the entries of a root that do not mislead it: double quotes stand
where single ones stood, and an empty line in front of every line that is not indented. -/
theorem apply_rows {entries : List (Tree × Tree)} (hsound : EntriesSound entries)
    (hcalm : isCalmRoot entries = true) :
    apply (rows .single [] entries) = rows .double ['\n'] entries := by
  obtain ⟨b, -, hruns⟩ := keeps_rows hsound hcalm none
  exact hruns.apply_eq

end LockPrune.Layout
