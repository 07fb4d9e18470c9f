import LockPrune.Proofs.Yaml.NodeTokens

/-!
# The characters of a written tree

Whatever a tree holds, every character of its text is written as itself: what is not is
written by escapes, or by number in a tag.  In particular the text holds no carriage return.

## Main definitions

* `IsClear` — the characters of a text are written as themselves.

## Main statements

* `Tree.isClear_spell`, `Tree.isClear_rows` — the text of a tree.
-/

namespace LockPrune.Yaml

open Scalar

/-- The characters of a text are written as themselves. -/
def IsClear (s : List Char) : Prop :=
  ∀ c ∈ s, isPrintable c = true

/-- What a tag has written as itself is written so elsewhere. -/
theorem isPrintable_of_isPlainTagChar {c : Char} (h : Tree.isPlainTagChar c = true) :
    isPrintable c = true := by
  have hlist : ∀ a ∈ ";/?:@&=+$,_.~*'()[]".toList, isPrintable a = true :=
    forall_mem_of_all (by decide)
  rw [Tree.isPlainTagChar, Bool.or_eq_true] at h
  rcases h with h | h
  · simp only [isWordChar, Bool.or_eq_true, decide_eq_true_eq] at h
    rcases h with (h | rfl) | rfl
    · have hletters : (decide (65 ≤ c.val ∧ c.val ≤ 90) ||
          (decide (97 ≤ c.val) && decide (c.val ≤ 122)) ||
          (decide (48 ≤ c.val) && decide (c.val ≤ 57))) = true := h
      simp only [Bool.or_eq_true, Bool.and_eq_true, decide_eq_true_eq,
        UInt32.le_iff_toNat_le] at hletters
      have hrange : 0x20 ≤ c.toNat ∧ c.toNat ≤ 0x7E → isPrintable c = true := by
        intro hc
        simp [isPrintable, hc.1, hc.2]
      rcases hletters with (h | h) | h
      · exact hrange ⟨Nat.le_trans (by decide) h.1, Nat.le_trans h.2 (by decide)⟩
      · exact hrange ⟨Nat.le_trans (by decide) h.1, Nat.le_trans h.2 (by decide)⟩
      · exact hrange ⟨Nat.le_trans (by decide) h.1, Nat.le_trans h.2 (by decide)⟩
    · decide
    · decide
  · exact hlist c (List.contains_iff_mem.1 h)

namespace IsClear

theorem nil : IsClear [] := by simp [IsClear]

theorem append {s t : List Char} (hs : IsClear s) (ht : IsClear t) : IsClear (s ++ t) := by
  intro c hc
  rcases List.mem_append.1 hc with hc | hc
  · exact hs c hc
  · exact ht c hc

theorem cons {c : Char} {s : List Char} (hc : isPrintable c = true) (hs : IsClear s) :
    IsClear (c :: s) := by
  intro a ha
  rcases List.mem_cons.1 ha with rfl | ha
  · exact hc
  · exact hs a ha

theorem flatMap {α : Type} {f : α → List Char} {s : List α} (h : ∀ a ∈ s, IsClear (f a)) :
    IsClear (s.flatMap f) := by
  intro c hc
  obtain ⟨a, ha, hc⟩ := List.mem_flatMap.1 hc
  exact h a ha c hc

theorem spaces (n : Nat) : IsClear (spaces n) := by
  intro c hc
  rw [List.eq_of_mem_replicate hc]
  decide

theorem closeLine {s : List Char} (h : IsClear s) : IsClear (Tree.closeLine s) := by
  rw [Tree.closeLine]
  split
  · exact h
  · exact h.append (.cons (by decide) .nil)

theorem not_mem_return {s : List Char} (h : IsClear s) : '\r' ∉ s :=
  fun hmem => absurd (h _ hmem) (by decide)

theorem hexText (k n : Nat) : IsClear (hexText k n) := by
  have hdigit : ∀ v, v < 16 → isPrintable (hexDigit v) = true := by decide
  intro c hc
  obtain ⟨v, hv, rfl⟩ := exists_of_mem_hexText hc
  exact hdigit v hv

theorem escape (c : Char) : IsClear (escape c) := by
  have hletter : ∀ l, escapeLetter? c = some l → isPrintable l = true := by
    intro l h
    unfold escapeLetter? at h
    split at h <;> first | (cases h; decide) | cases h
  rw [Scalar.escape]
  split
  · exact .cons (by decide) (.cons (hletter _ ‹_›) .nil)
  · dsimp only
    split
    · exact .cons (by decide) (.cons (by decide) (.hexText _ _))
    · split
      · exact .cons (by decide) (.cons (by decide) (.hexText _ _))
      · exact .cons (by decide) (.cons (by decide) (.hexText _ _))

theorem writeDoubleChar (c : Char) : IsClear (writeDoubleChar c) := by
  rcases writeDoubleChar_cases c with h | ⟨h, -, -, hprint, -⟩
  · rw [h]
    exact .escape c
  · rw [h]
    exact .cons hprint .nil

theorem writeBetween {raw : Char → Bool} {code : Char → List Char} {s : List Char}
    (hs : IsClear s) (hcode : ∀ c, isPrintable c = true → IsClear (code c)) (indent : Nat)
    (fresh : Bool) : IsClear (writeBetween raw code indent fresh s) := by
  induction s generalizing fresh with
  | nil =>
    rw [Yaml.writeBetween]
    split
    · exact .spaces indent
    · exact .nil
  | cons c s ih =>
    have hc := hs c List.mem_cons_self
    have hrest := ih fun a ha => hs a (List.mem_cons_of_mem c ha)
    rw [Yaml.writeBetween]
    split
    · exact .cons hc (hrest true)
    · refine (IsClear.append ?_ (hcode c hc)).append (hrest false)
      split
      · exact .spaces indent
      · exact .nil

theorem writeLines {s : List Char} (hs : IsClear s) (indent : Nat) (fresh : Bool) :
    IsClear (writeLines indent fresh s) := by
  induction s generalizing fresh with
  | nil => simpa [Scalar.writeLines] using IsClear.nil
  | cons c s ih =>
    have hc := hs c List.mem_cons_self
    have hrest := ih fun a ha => hs a (List.mem_cons_of_mem c ha)
    rw [Scalar.writeLines]
    split
    · exact .cons hc (hrest true)
    · refine IsClear.append ?_ (.cons hc (hrest false))
      split
      · exact .spaces indent
      · exact .nil

/-- The text of a scalar in a style that it admits. -/
theorem write (q : Quoting) {st : Style} {s : List Char} (h : Fits st s) (indent : Nat) :
    IsClear (q.write st indent s) := by
  have hquote : ∀ c, isPrintable c = true → IsClear (writeSingleChar c) := by
    intro c hc
    rw [writeSingleChar]
    split
    · exact .cons (by decide) (.cons (by decide) .nil)
    · exact .cons hc .nil
  have hrequote : ∀ c, isPrintable c = true → IsClear (requoteChar c) := by
    intro c hc
    rw [requoteChar]
    split
    · exact .cons (by decide) (.cons hc .nil)
    · exact .cons hc .nil
  cases h with
  | plain h hne =>
    have hs : IsClear s := (words_of_plainAdmitted h hne).printable
    cases q <;> exact hs
  | single h hline =>
    have hs : IsClear s := (singleAdmitted_iff.1 h).2.1
    cases q with
    | single =>
      rw [Quoting.write_single, Scalar.write, writeSingle_eq (isQuotable_of_singleAdmitted h hline)]
      exact (IsClear.cons (by decide) (hs.writeBetween hquote _ _)).append (.cons (by decide) .nil)
    | double =>
      exact (IsClear.cons (by decide) (hs.writeBetween hrequote _ _)).append
        (.cons (by decide) .nil)
  | double =>
    have hdouble : IsClear (Scalar.write .double indent s) :=
      (IsClear.cons (by decide) (.flatMap fun c _ => .writeDoubleChar c)).append
        (.cons (by decide) .nil)
    cases q <;> exact hdouble
  | literal h =>
    simp only [literalAdmitted, needsEscapes, Bool.not_eq_true', Bool.or_eq_false_iff] at h
    have hs : IsClear s := fun c hc => by simpa using List.any_eq_false.1 h.1.1.2 c hc
    have hheader : IsClear (literalHeader s) := by
      refine .cons (by decide) (IsClear.append ?_ ?_)
      · split
        · exact .cons (by decide) .nil
        · exact .nil
      · split
        · exact .cons (by decide) .nil
        · split
          · exact .cons (by decide) .nil
          · exact .nil
    have hliteral : IsClear (Scalar.write .literal indent s) :=
      hheader.append (.cons (by decide) (hs.writeLines indent true))
    cases q <;> exact hliteral

theorem tagChar (c : Char) : IsClear (Tree.tagChar c) := by
  rw [Tree.tagChar]
  split
  · exact .cons (isPrintable_of_isPlainTagChar ‹_›) .nil
  · exact .flatMap fun octet _ => .cons (by decide) (.hexText 2 octet.toNat)

theorem tagText (tag : String) : IsClear (Tree.tagText tag) := by
  rw [Tree.tagText]
  split
  · exact .cons (by decide) (.flatMap fun c _ => .tagChar c)
  · exact (IsClear.cons (by decide) (.cons (by decide) (.flatMap fun c _ => .tagChar c))).append
      (.cons (by decide) .nil)

theorem withTag (tag : Option String) {s : List Char} (hs : IsClear s) :
    IsClear (Tree.withTag tag s) := by
  cases tag with
  | none => exact hs
  | some t =>
    rw [Tree.withTag]
    refine (IsClear.tagText t).append ?_
    split
    · exact .nil
    · exact .cons (by decide) hs

theorem spaced {s : List Char} (hs : IsClear s) : IsClear (Tree.spaced s) := by
  rw [Tree.spaced]
  split
  · exact .nil
  · exact .cons (by decide) hs

theorem stack (indent : Nat) {parts : List (List Char)} (h : ∀ s ∈ parts, IsClear s) :
    IsClear (Tree.stack indent parts) := by
  induction parts with
  | nil => exact .nil
  | cons s rest ih =>
    have hs := h s List.mem_cons_self
    cases rest with
    | nil => exact hs
    | cons r rest =>
      rw [Tree.stack_cons (List.cons_ne_nil r rest)]
      exact (hs.closeLine.append (.spaces indent)).append
        (ih fun t ht => h t (List.mem_cons_of_mem s ht))

end IsClear

namespace Tree

theorem isClear_spellParts (after : Behind) (tag : Option String) (inner : Nat)
    {brackets : List Char} (hbrackets : IsClear brackets) {parts : List (List Char)}
    (h : ∀ s ∈ parts, IsClear s) : IsClear (spellParts after tag inner brackets parts) := by
  have hlines : IsClear (stack inner parts) := .stack inner h
  have hnext : IsClear ('\n' :: spaces inner ++ stack inner parts) :=
    (IsClear.cons (by decide) (.spaces inner)).append hlines
  rw [spellParts]
  split
  · exact (hbrackets.withTag tag).spaced
  · cases tag with
    | none =>
      cases after with
      | key => exact hnext
      | dash => exact .cons (by decide) hlines
      | mark => exact .cons (by decide) hlines
    | some t =>
      have htag : IsClear (' ' :: tagText t ++ '\n' :: spaces inner ++ stack inner parts) := by
        have h := (IsClear.cons (c := ' ') (by decide) (IsClear.tagText t)).append hnext
        simpa using h
      cases after <;> exact htag

theorem isClear_spellScalar (q : Quoting) {tag : Option String} {style : Style} {text : String}
    (h : IsSoundScalar tag style text) (isKey : Bool) (indent : Nat) :
    IsClear (spellScalar q tag style isKey indent text) :=
  (IsClear.write (q.behind tag) (h.fits isKey) indent).withTag tag

theorem isClear_spellKey (q : Quoting) {k : Tree} (h : k.IsSound) : IsClear (spellKey q k) := by
  match k, h with
  | .scalar tag style text, h => exact isClear_spellScalar q h true 0
  | .sequence tag _, _ => exact IsClear.withTag tag (.cons (by decide) (.cons (by decide) .nil))
  | .mapping tag _, _ => exact IsClear.withTag tag (.cons (by decide) (.cons (by decide) .nil))

theorem isClear_spellEntry (q : Quoting) {gap : List Char} (hgap : IsClear gap) {k : Tree}
    (h : k.IsSound) (indent : Nat) {x y : List Char} (hx : IsClear x) (hy : IsClear y) :
    IsClear (spellEntry q gap k indent x y) := by
  have hvalue : IsClear (':' :: y) := .cons (by decide) hy
  rw [spellEntry]
  split
  · exact (isClear_spellKey q h).append hvalue
  · exact (((IsClear.cons (by decide) hx).closeLine.append hgap).append (.spaces indent)).append
      hvalue

mutual

/-- The text of a tree is clear. -/
theorem isClear_spell (q : Quoting) (t : Tree) (h : t.IsSound) (after : Behind) (indent : Nat) :
    IsClear (spell q after indent t) := by
  match t, h with
  | .scalar tag style text, h => exact (isClear_spellScalar q h false _).spaced
  | .sequence tag items, h =>
    exact isClear_spellParts after tag _ (.cons (by decide) (.cons (by decide) .nil))
      (isClear_spellItems q items h.2 _)
  | .mapping tag entries, h =>
    exact isClear_spellParts after tag _ (.cons (by decide) (.cons (by decide) .nil))
      (isClear_spellEntries q entries h.2 _)
termination_by structural t

theorem isClear_spellItems (q : Quoting) (items : List Tree) (h : ItemsSound items)
    (indent : Nat) : ∀ s ∈ spellItems q indent items, IsClear s := by
  intro s hs
  match items, h with
  | [], _ => cases hs
  | item :: items, h =>
    have hitem := isClear_spell q item h.1 .dash indent
    have hrest := isClear_spellItems q items h.2 indent
    rcases List.mem_cons.1 hs with rfl | hs
    · exact .cons (by decide) hitem
    · exact hrest s hs
termination_by structural items

theorem isClear_spellEntries (q : Quoting) (entries : List (Tree × Tree))
    (h : EntriesSound entries) (indent : Nat) : ∀ s ∈ spellEntries q indent entries, IsClear s := by
  intro s hs
  match entries, h with
  | [], _ => cases hs
  | (k, v) :: entries, h =>
    have hkey := isClear_spell q k h.1 .mark indent
    have hvalue := isClear_spell q v h.2.1 (keyMark k) indent
    have hrest := isClear_spellEntries q entries h.2.2 indent
    rcases List.mem_cons.1 hs with rfl | hs
    · exact isClear_spellEntry q .nil h.1 indent hkey hvalue
    · exact hrest s hs
termination_by structural entries

end

/-- The text of the root is clear. -/
theorem isClear_rows (q : Quoting) {gap : List Char} (hgap : IsClear gap)
    {entries : List (Tree × Tree)} (h : EntriesSound entries) : IsClear (rows q gap entries) := by
  induction entries with
  | nil => exact .nil
  | cons entry entries ih =>
    have hrow : IsClear (row q gap entry) := isClear_spellEntry q hgap h.1 0
      (isClear_spell q entry.1 h.1 .mark 0) (isClear_spell q entry.2 h.2.1 (keyMark entry.1) 0)
    exact (hgap.append hrow.closeLine).append (ih h.2.2)

end Tree

end LockPrune.Yaml
