import LockPrune.Proofs.Yaml.Spelling

/-!
# The text of a key

A key that is written in front of its colon stands on one line, and whatever quotes and
escapes its text needs, it is short enough to be told as a key when the colon comes.

## Main statements

* `write_line` — a text without ends of line stands on one line.
* `Tree.spellKey_line` — so does a key, and it is no longer than a key may be.
-/

namespace LockPrune.Yaml

open Scalar

/-! ## Characters -/

/-- A way of writing characters that keeps them on a line, in at most four times their
octets. -/
def IsLineCode (code : Char → List Char) : Prop :=
  ∀ c, isBreak c = false →
    (∀ a ∈ code c, isBreak a = false) ∧ octetCount (code c) ≤ 4 * c.utf8Size

/-- Characters that are kept on a line, one after the other. -/
theorem flatMap_line {code : Char → List Char} {s : List Char}
    (h : ∀ c ∈ s, (∀ a ∈ code c, isBreak a = false) ∧ octetCount (code c) ≤ 4 * c.utf8Size) :
    (∀ a ∈ s.flatMap code, isBreak a = false) ∧ octetCount (s.flatMap code) ≤ 4 * octetCount s := by
  induction s with
  | nil => simp
  | cons c s ih =>
    obtain ⟨hline, hsize⟩ := ih fun d hd => h d (List.mem_cons_of_mem _ hd)
    obtain ⟨hc, hcsize⟩ := h c List.mem_cons_self
    simp only [List.flatMap_cons, octetCount_append, octetCount_cons]
    refine ⟨fun a ha => ?_, by omega⟩
    rcases List.mem_append.1 ha with ha | ha
    · exact hc a ha
    · exact hline a ha

theorem isLineCode_single : IsLineCode writeSingleChar := by
  intro c hc
  have hpos := c.utf8Size_pos
  rw [writeSingleChar]
  split
  · rename_i h
    subst h
    exact ⟨forall_mem_of_all (by decide), by decide⟩
  · simp [hc]
    omega

theorem isLineCode_requote : IsLineCode requoteChar := by
  intro c hc
  have hpos := c.utf8Size_pos
  have hslash : ('\\').utf8Size = 1 := by decide
  rw [requoteChar]
  split
  · simp [hc, hslash]
    constructor
    · decide
    · omega
  · simp [hc]
    omega

/-- The digits of a number take an octet each. -/
theorem octetCount_hexText (k n : Nat) : octetCount (hexText k n) = k := by
  have hdigit : ∀ v, v < 16 → (hexDigit v).utf8Size = 1 := by decide
  induction k with
  | zero => rfl
  | succ k ih =>
    rw [hexText, octetCount_cons, ih, hdigit _ (Nat.mod_lt _ (by decide))]
    omega

theorem toNat_lt_of_utf8Size {c : Char} :
    (0xFF < c.toNat → 2 ≤ c.utf8Size) ∧ (0xFFFF < c.toNat → c.utf8Size = 4) := by
  constructor
  · intro h
    have hone := mt c.utf8Size_eq_one_iff.1 (by
      rw [UInt32.le_iff_toNat_le]
      show ¬ c.toNat ≤ 127
      omega)
    have hpos := c.utf8Size_pos
    omega
  · intro h
    rw [c.utf8Size_eq_four_iff, UInt32.lt_iff_toNat_lt]
    exact h

theorem octetCount_escape_le (c : Char) : octetCount (escape c) ≤ 4 * c.utf8Size := by
  have hpos := c.utf8Size_pos
  have hletter : ∀ l, escapeLetter? c = some l → l.utf8Size = 1 := by
    intro l h
    unfold escapeLetter? at h
    split at h <;> first | (cases h; decide) | cases h
  have hmarks :
      ('\\').utf8Size = 1 ∧ ('x').utf8Size = 1 ∧ ('u').utf8Size = 1 ∧ ('U').utf8Size = 1 := by
    decide
  obtain ⟨hslash, hx, hu, hU⟩ := hmarks
  rw [escape]
  cases h : escapeLetter? c with
  | some l =>
    simp only [octetCount_cons, octetCount_nil, hslash, hletter l h]
    omega
  | none =>
    dsimp only
    split
    · simp only [octetCount_cons, octetCount_hexText, hslash, hx]
      omega
    · have htwo := toNat_lt_of_utf8Size.1 (Nat.not_le.1 ‹_›)
      split
      · simp only [octetCount_cons, octetCount_hexText, hslash, hu]
        omega
      · have hfour := toNat_lt_of_utf8Size.2 (Nat.not_le.1 ‹_›)
        simp only [octetCount_cons, octetCount_hexText, hslash, hU]
        omega

theorem isLineCode_double : IsLineCode writeDoubleChar := by
  intro c hc
  have hpos := c.utf8Size_pos
  rcases writeDoubleChar_cases c with h | ⟨h, -⟩
  · obtain ⟨e, he, hline, -⟩ := exists_escape c
    have hsize := octetCount_escape_le c
    rw [h]
    refine ⟨fun a ha => ?_, hsize⟩
    rw [he] at ha
    rcases List.mem_cons.1 ha with rfl | ha
    · decide
    · exact hline a ha
  · rw [h]
    simp [hc]
    omega

/-- The ends of line of a text between double quotes are written as escapes. -/
theorem lineFeed_not_mem_double (s : List Char) : '\n' ∉ s.flatMap writeDoubleChar := by
  intro hmem
  obtain ⟨c, -, hc⟩ := List.mem_flatMap.1 hmem
  rcases writeDoubleChar_cases c with h | ⟨h, -, -, -, hbreak⟩
  · obtain ⟨e, he, hline, -⟩ := exists_escape c
    rw [h, he, List.mem_cons] at hc
    rcases hc with hc | hc
    · exact absurd hc (by decide)
    · exact absurd (hline _ hc) (by decide)
  · rw [h, List.mem_singleton] at hc
    rw [← hc] at hbreak
    exact absurd hbreak (by decide)

/-! ## Scalars -/

/-- A text without ends of line, between quotes. -/
theorem writeBetween_line {raw : Char → Bool} {code : Char → List Char} {indent : Nat}
    {s : List Char} (hs : ∀ c ∈ s, raw c = false) :
    writeBetween raw code indent false s = s.flatMap code := by
  have h : writeBetween raw code indent false (s ++ []) = _ := writeBetween_append hs []
  simpa [writeBetween] using h

theorem isKept_eq_false {c : Char} (h : isBreak c = false) : isKept c = false := by
  cases hkept : isKept c with
  | false => rfl
  | true => rw [isBreak_of_isWrittenBreak (isKept_iff.1 hkept).1] at h; cases h

/-- A text between quotes stands on one line if it has no ends of line. -/
theorem between_line (quote : Char) {code : Char → List Char} {s : List Char}
    (hcode : IsLineCode code)
    (hquote : isBreak quote = false ∧ quote.utf8Size = 1) (hs : ∀ c ∈ s, isBreak c = false) :
    (∀ a ∈ quote :: s.flatMap code ++ [quote], isBreak a = false) ∧
      octetCount (quote :: s.flatMap code ++ [quote]) ≤ 4 * octetCount s + 2 := by
  obtain ⟨hline, hsize⟩ := flatMap_line fun c hc => hcode c (hs c hc)
  constructor
  · intro a ha
    simp only [List.cons_append, List.mem_cons, List.mem_append, List.not_mem_nil, or_false] at ha
    rcases ha with rfl | ha | rfl
    · exact hquote.1
    · exact hline a ha
    · exact hquote.1
  · simp only [List.cons_append, octetCount_cons, octetCount_append, octetCount_nil, hquote.2]
    omega

/-- A text without ends of line stands on one line in every style but a block. -/
theorem write_line (q : Quoting) {style : Style} {s : List Char} (indent : Nat)
    (hs : ∀ c ∈ s, isBreak c = false) (hstyle : style = .plain ∨ style = .double ∨
      (style = .single ∧ singleAdmitted s = true)) :
    (∀ a ∈ q.write style indent s, isBreak a = false) ∧
      octetCount (q.write style indent s) ≤ 4 * octetCount s + 2 := by
  have hkept : ∀ c ∈ s, isKept c = false := fun c hc => isKept_eq_false (hs c hc)
  have hdouble : (∀ a ∈ Scalar.write .double indent s, isBreak a = false) ∧
      octetCount (Scalar.write .double indent s) ≤ 4 * octetCount s + 2 :=
    between_line '"' isLineCode_double (by decide) hs
  have hplain : (∀ a ∈ Scalar.write .plain indent s, isBreak a = false) ∧
      octetCount (Scalar.write .plain indent s) ≤ 4 * octetCount s + 2 :=
    ⟨hs, by rw [Scalar.write]; omega⟩
  rcases hstyle with rfl | rfl | ⟨rfl, hadmitted⟩
  · cases q <;> exact hplain
  · cases q <;> exact hdouble
  · cases q with
    | single =>
      have hquotable := isQuotable_of_singleAdmitted hadmitted fun h =>
        absurd (hs _ h) (by decide)
      have h := between_line '\x27' isLineCode_single (by decide) hs
      rwa [Quoting.write_single, Scalar.write, writeSingle_eq hquotable, writeBetween_line hkept]
    | double =>
      have h := between_line '"' isLineCode_requote (by decide) hs
      have heq : Quoting.double.write .single indent s = '"' :: s.flatMap requoteChar ++ ['"'] := by
        show requote indent s = _
        rw [requote, writeBetween_line hkept]
      rwa [heq]

/-! ## Tags -/

namespace Tree

/-- A character of a tag stays on the line, whatever it is. -/
theorem tagChar_line (c : Char) :
    (∀ a ∈ tagChar c, isBreak a = false) ∧ octetCount (tagChar c) ≤ 4 * c.utf8Size := by
  have hpos := c.utf8Size_pos
  by_cases hplain : isPlainTagChar c = true
  · have hbreak : isBreak c = false := by
      cases hb : isBreak c with
      | false => rfl
      | true =>
        simp only [isBreak, Bool.or_eq_true, decide_eq_true_eq] at hb
        rcases hb with (((rfl | rfl) | rfl) | rfl) | rfl <;> exact absurd hplain (by decide)
    rw [tagChar, if_pos hplain]
    simp [hbreak]
    omega
  · have hsize : ∀ os : List UInt8, octetCount (os.flatMap octetText) = 3 * os.length := by
      intro os
      have hpercent : ('%').utf8Size = 1 := by decide
      induction os with
      | nil => rfl
      | cons o os ih =>
        simp only [List.flatMap_cons, octetCount_append, ih, octetText, octetCount_cons,
          octetCount_hexText, hpercent, List.length_cons]
        omega
    have htext : tagChar c = (String.utf8EncodeChar c).flatMap octetText := by
      rw [tagChar, if_neg hplain]
      rfl
    rw [htext, hsize, String.length_utf8EncodeChar]
    refine ⟨fun a ha => ?_, by omega⟩
    obtain ⟨o, -, ha⟩ := List.mem_flatMap.1 ha
    rcases List.mem_cons.1 ha with rfl | ha
    · decide
    · exact isBreak_of_mem_hexText ha

/-- A tag stays on the line. -/
theorem tagText_line (tag : String) :
    (∀ a ∈ tagText tag, isBreak a = false) ∧
      octetCount (tagText tag) ≤ 4 * octetCount tag.toList + 3 := by
  have hmarks : ('!').utf8Size = 1 ∧ ('<').utf8Size = 1 ∧ ('>').utf8Size = 1 := by decide
  obtain ⟨hbang, hopen, hclose⟩ := hmarks
  unfold tagText
  split
  · rename_i a rest heq
    obtain ⟨hline, hsize⟩ := flatMap_line (s := a :: rest) fun c _ => tagChar_line c
    rw [heq]
    refine ⟨fun x hx => ?_, ?_⟩
    · rcases List.mem_cons.1 hx with rfl | hx
      · decide
      · exact hline x hx
    · simp only [octetCount_cons, hbang] at hsize ⊢
      omega
  · obtain ⟨hline, hsize⟩ := flatMap_line (s := tag.toList) fun c _ => tagChar_line c
    refine ⟨fun x hx => ?_, ?_⟩
    · simp only [List.cons_append, List.mem_cons, List.mem_append, List.not_mem_nil, or_false] at hx
      rcases hx with rfl | rfl | hx | rfl
      · decide
      · decide
      · exact hline x hx
      · decide
    · simp only [List.cons_append, octetCount_cons, octetCount_append, octetCount_nil, hbang, hopen,
        hclose]
      omega

/-! ## Keys -/

/-- The octets of a text are those of its characters. -/
theorem octetCount_toList (s : String) : octetCount s.toList = s.utf8ByteSize := by
  obtain ⟨l, rfl⟩ : ∃ l, s = String.ofList l := ⟨s.toList, by simp⟩
  rw [String.toList_ofList, ← String.size_toByteArray, String.toByteArray_ofList]
  induction l with
  | nil => rfl
  | cons c l ih =>
    rw [octetCount_cons, ih, List.utf8Encode_cons, ByteArray.size_append]
    simp [List.utf8Encode]

/-- What a simple key says of its tag and its text. -/
theorem octetCount_tag_le {tag : Option String} {t : String} (h : tag = some t) :
    octetCount t.toList = tagSize tag := by
  subst h
  exact octetCount_toList t

/-- A tag in front of a text stays on its line. -/
theorem withTag_line (tag : Option String) {s : List Char} {n : Nat}
    (hs : ∀ a ∈ s, isBreak a = false) (hsize : octetCount s ≤ n) :
    (∀ a ∈ withTag tag s, isBreak a = false) ∧
      octetCount (withTag tag s) ≤ 4 * tagSize tag + n + 4 := by
  cases tag with
  | none => exact ⟨hs, by simp only [withTag]; omega⟩
  | some t =>
    obtain ⟨hline, htag⟩ := tagText_line t
    rw [octetCount_tag_le (rfl : some t = some t)] at htag
    have hspace : (' ').utf8Size = 1 := by decide
    by_cases hempty : s.isEmpty = true
    · simp only [withTag, hempty, if_true, List.append_nil]
      exact ⟨hline, by omega⟩
    · simp only [withTag, hempty, Bool.false_eq_true, if_false]
      refine ⟨fun a ha => ?_, by simp only [octetCount_append, octetCount_cons, hspace]; omega⟩
      simp only [List.mem_append, List.mem_cons] at ha
      rcases ha with ha | rfl | ha
      · exact hline a ha
      · decide
      · exact hs a ha

/-- The styles that are admitted of a key. -/
theorem admitted_key (style : Style) (s : List Char) :
    admitted style true s = .plain ∨ admitted style true s = .double ∨
      (admitted style true s = .single ∧ singleAdmitted s = true) := by
  have hquotes : (if singleAdmitted s = true then Style.single else Style.double) = .double ∨
      ((if singleAdmitted s = true then Style.single else Style.double) = .single ∧
        singleAdmitted s = true) := by
    by_cases hs : singleAdmitted s = true
    · exact .inr ⟨if_pos hs, hs⟩
    · exact .inl (if_neg hs)
  cases style with
  | plain =>
    simp only [admitted]
    split
    · exact .inl rfl
    · exact .inr hquotes
  | single => exact .inr hquotes
  | double => exact .inr (.inl rfl)
  | literal => simp [admitted]
  | folded => simp [admitted]

/-- A key that is written in front of its colon stands on one line and is short. -/
theorem spellKey_line (q : Quoting) {k : Tree} (hk : k.isSimpleKey = true) :
    (∀ a ∈ spellKey q k, isBreak a = false) ∧ octetCount (spellKey q k) ≤ Scanner.maxKeyLength := by
  have hbrackets : ∀ (tag : Option String) (s : List Char), tagSize tag ≤ maxSimpleKey →
      s = ['[', ']'] ∨ s = ['\x7b', '\x7d'] → (∀ a ∈ withTag tag s, isBreak a = false) ∧
        octetCount (withTag tag s) ≤ Scanner.maxKeyLength := by
    intro tag s htag hs
    have hline : (∀ a ∈ s, isBreak a = false) ∧ octetCount s ≤ 2 := by
      rcases hs with rfl | rfl <;> exact ⟨forall_mem_of_all (by decide), by decide⟩
    obtain ⟨h, hsize⟩ := withTag_line tag hline.1 hline.2
    simp only [maxSimpleKey] at htag
    exact ⟨h, by simp only [Scanner.maxKeyLength]; omega⟩
  match k, hk with
  | .scalar tag style text, hk =>
    simp only [isSimpleKey, Bool.and_eq_true, Bool.not_eq_true'] at hk
    obtain ⟨hline, hsize⟩ := hk
    have hsize : tagSize tag + text.utf8ByteSize ≤ 128 := of_decide_eq_true hsize
    have htext : ∀ a ∈ text.toList, isBreak a = false := by
      intro a ha
      simpa using List.any_eq_false.1 hline a ha
    obtain ⟨hwritten, hlength⟩ := write_line (q.behind tag) 0 htext (admitted_key style text.toList)
    obtain ⟨h, htotal⟩ := withTag_line tag hwritten hlength
    rw [octetCount_toList] at htotal
    exact ⟨h, by simp only [spellKey, spellScalar, Scanner.maxKeyLength]; omega⟩
  | .sequence tag [], hk => exact hbrackets tag _ (by simpa [isSimpleKey] using hk) (.inl rfl)
  | .mapping tag [], hk => exact hbrackets tag _ (by simpa [isSimpleKey] using hk) (.inr rfl)

end Tree

end LockPrune.Yaml
