import LockPrune.Yaml.Event.Grammar
import LockPrune.Yaml.Tree.Layout
import LockPrune.Proofs.Yaml.QuoteStyles

/-!
# Tags read back

A tag is written behind its exclamation mark, with the octets of most characters by number.
Reading puts the same octets together again.  Three marks of flow collections are written as
themselves although they are read in the full form only, so a tag that has one of them does
not read back.

## Main definitions

* `IsReadableTag` — the tags that read back.
* `tagToken` — what a tag reads as.

## Main statements

* `readTag_tagText` — a written tag reads back.
* `fullTag?_tagToken` — what it reads as has the octets of the tag.
-/

namespace LockPrune.Yaml

open Scalar LockPrune.Yaml.Tree

/-! ## Octets by number -/

/-- The first octet of a character tells how many there are, and the others show that they
are not the first. -/
theorem exists_octets (c : Char) :
    ∃ o rest, String.utf8EncodeChar c = o :: rest ∧ octetCount? o = some (rest.length + 1) ∧
      (∀ x ∈ rest, x.toNat / 64 = 2) ∧ (c ≠ '\x00' → o ≠ 0) := by
  have hrange := toNat_range c
  have hval : c.val.toNat = c.toNat := rfl
  have hzero : c ≠ '\x00' → c.toNat ≠ 0 := by
    intro hne h
    apply hne
    rw [← Char.ofNat_toNat c, h]
  have hoctet : ∀ n, (UInt8.ofNat n).toNat = n % 256 := fun n => UInt8.toNat_ofNat'
  -- the first octet from its number, and the others from theirs
  have hfirst : ∀ n k, (n < 128 ∧ k = 1) ∨ (192 ≤ n ∧ n < 224 ∧ k = 2) ∨
      (224 ≤ n ∧ n < 240 ∧ k = 3) ∨ (240 ≤ n ∧ n < 248 ∧ k = 4) →
      octetCount? (UInt8.ofNat n) = some k := by
    intro n k h
    rw [octetCount?, hoctet, Nat.mod_eq_of_lt (by omega)]
    rcases h with ⟨h, rfl⟩ | ⟨h, h', rfl⟩ | ⟨h, h', rfl⟩ | ⟨h, h', rfl⟩
    · rw [if_pos h]
    · rw [if_neg (by omega), if_pos (by omega)]
    · rw [if_neg (by omega), if_neg (by omega), if_pos (by omega)]
    · rw [if_neg (by omega), if_neg (by omega), if_neg (by omega), if_pos (by omega)]
  have hnonzero : ∀ n, n ≠ 0 → n < 256 → UInt8.ofNat n ≠ 0 := by
    intro n hn hlt h
    have h' := congrArg UInt8.toNat h
    rw [hoctet, Nat.mod_eq_of_lt hlt] at h'
    exact hn h'
  have hfurther : ∀ n, 128 ≤ n → n < 192 → (UInt8.ofNat n).toNat / 64 = 2 := by
    intro n hn hlt
    rw [hoctet, Nat.mod_eq_of_lt (by omega)]
    omega
  rw [String.utf8EncodeChar]
  simp only [hval]
  split
  · refine ⟨_, [], rfl, hfirst _ _ (by simp; omega), by simp, fun h => hnonzero _ (hzero h) ?_⟩
    omega
  · split
    · refine ⟨_, _, rfl, hfirst _ _ (by simp; omega), ?_, fun _ => hnonzero _ ?_ ?_⟩
      · simp only [List.mem_singleton]
        rintro x rfl
        exact hfurther _ (by omega) (by omega)
      · omega
      · omega
    · split
      · refine ⟨_, _, rfl, hfirst _ _ (by simp; omega), ?_, fun _ => hnonzero _ ?_ ?_⟩
        · simp only [List.mem_cons, List.not_mem_nil, or_false]
          rintro x (rfl | rfl) <;> exact hfurther _ (by omega) (by omega)
        · omega
        · omega
      · refine ⟨_, _, rfl, hfirst _ _ (by simp; omega), ?_, fun _ => hnonzero _ ?_ ?_⟩
        · simp only [List.mem_cons, List.not_mem_nil, or_false]
          rintro x (rfl | rfl | rfl) <;> exact hfurther _ (by omega) (by omega)
        · omega
        · omega

/-- An octet by number. -/
def octetText (o : UInt8) : List Char :=
  '%' :: hexText 2 o.toNat

/-- An octet by number reads back. -/
theorem readOctet_octetText (o : UInt8) (t : List Char) :
    readOctet (octetText o ++ t) = some o := by
  have hlt : o.toNat < 16 ^ 2 := o.toNat_lt
  have hhex := hexNumber?_hexText hlt
  obtain ⟨a, b, hab⟩ : ∃ a b, hexText 2 o.toNat = [a, b] := ⟨_, _, rfl⟩
  rw [hab] at hhex
  rw [octetText, hab]
  simp [readOctet, hhex]

theorem skip_octetText (o : UInt8) (t : List Char) (m : Mark) :
    (Cursor.mk (octetText o ++ t) m).skip 3 = ⟨t, m.along (octetText o)⟩ := by
  have h := Cursor.skip_append (octetText o) t m
  have hlen : (octetText o).length = 3 := by simp [octetText]
  rwa [hlen] at h

/-- The further octets of a character read back. -/
theorem readFurtherOctets_flatMap {os : List UInt8} (hos : ∀ x ∈ os, x.toNat / 64 = 2)
    (t : List Char) (m : Mark) :
    readFurtherOctets os.length ⟨os.flatMap octetText ++ t, m⟩ =
      some (os, ⟨t, m.along (os.flatMap octetText)⟩) := by
  induction os generalizing m with
  | nil => simp [readFurtherOctets]
  | cons o os ih =>
    have ho : o.toNat / 64 = 2 := hos o List.mem_cons_self
    rw [List.flatMap_cons, List.append_assoc, List.length_cons, readFurtherOctets,
      readOctet_octetText]
    simp only [Option.bind_eq_bind, Option.bind_some, ho, if_true, skip_octetText]
    rw [ih (fun x hx => hos x (List.mem_cons_of_mem _ hx)), Mark.along_append]
    rfl

/-- The octets of a character read back. -/
theorem readOctets_char (c : Char) (t : List Char) (m : Mark) :
    readOctets ⟨(String.utf8EncodeChar c).flatMap octetText ++ t, m⟩ =
      some (String.utf8EncodeChar c,
        ⟨t, m.along ((String.utf8EncodeChar c).flatMap octetText)⟩) := by
  obtain ⟨o, rest, hc, hcount, hrest, -⟩ := exists_octets c
  rw [hc, List.flatMap_cons, List.append_assoc, readOctets, readOctet_octetText]
  simp only [Option.bind_eq_bind, Option.bind_some, hcount, skip_octetText,
    Nat.add_sub_cancel]
  rw [readFurtherOctets_flatMap hrest, Mark.along_append]
  rfl

/-! ## Characters of a tag -/

/-- A character that has no meaning of its own between brackets. -/
def isFlowMark (c : Char) : Bool :=
  c = ',' || c = '[' || c = ']'

/-- What is written as itself reads as itself, the marks of flow collections in the full form
only. -/
theorem isTagChar_of_isPlainTagChar {full : Bool} {c : Char} (h : isPlainTagChar c = true)
    (hflow : full = true ∨ isFlowMark c = false) : isTagChar full c = true ∧ c ≠ '%' := by
  have hpercent : c ≠ '%' := by
    rintro rfl
    exact absurd h (by decide)
  refine ⟨?_, hpercent⟩
  have hlist : ";/?:@&=+$,_.~*'()[]".toList = [';', '/', '?', ':', '@', '&', '=', '+', '$', ',',
    '_', '.', '~', '*', '\x27', '(', ')', '[', ']'] := by decide
  have hlist' : ";/?:@&=+$.%!~*'()".toList = [';', '/', '?', ':', '@', '&', '=', '+', '$', '.',
    '%', '!', '~', '*', '\x27', '(', ')'] := by decide
  rw [isPlainTagChar, hlist] at h
  rw [isTagChar, hlist']
  simp only [List.contains_cons, List.contains_nil, isFlowMark] at *
  grind [isWordChar]

/-- The characters of a tag read back as its octets. -/
theorem readTagOctets_flatMap {full : Bool} {t : List Char}
    (ht : t.head?.any (fun a => a = '%' || isTagChar full a) = false) :
    ∀ (cs : List Char) (n : Nat) (m : Mark), (∀ c ∈ cs, full = true ∨ isFlowMark c = false) →
      cs.length < n →
      readTagOctets full n ⟨cs.flatMap tagChar ++ t, m⟩ =
        some (Tag.octetsOf cs, ⟨t, m.along (cs.flatMap tagChar)⟩) := by
  intro cs
  induction cs with
  | nil =>
    intro n m _ hn
    obtain ⟨n, rfl⟩ : ∃ n', n = n' + 1 := ⟨n - 1, by omega⟩
    cases t with
    | nil => simp [readTagOctets, Tag.octetsOf]
    | cons a t =>
      simp only [List.head?_cons, Option.any_some, Bool.or_eq_false_iff,
        decide_eq_false_iff_not] at ht
      simp [readTagOctets, Tag.octetsOf, ht.1, ht.2]
  | cons c cs ih =>
    intro n m hcs hn
    simp only [List.length_cons] at hn
    obtain ⟨n, rfl⟩ : ∃ n', n = n' + 1 := ⟨n - 1, by omega⟩
    have hrest := fun m' => ih n m' (fun d hd => hcs d (List.mem_cons_of_mem _ hd)) (by omega)
    have hoctets : Tag.octetsOf (c :: cs) = Tag.octetsOf [c] ++ Tag.octetsOf cs := by
      simp [Tag.octetsOf]
    rw [List.flatMap_cons, List.append_assoc, hoctets, Mark.along_append]
    by_cases hplain : isPlainTagChar c = true
    · obtain ⟨htag, hpercent⟩ := isTagChar_of_isPlainTagChar hplain (hcs c List.mem_cons_self)
      have hchar : tagChar c = [c] := by rw [tagChar, if_pos hplain]
      rw [hchar, List.singleton_append, readTagOctets]
      simp only [hpercent, if_false, htag, if_true, Cursor.skip_one]
      rw [hrest]
      rfl
    · have hchar : tagChar c = (String.utf8EncodeChar c).flatMap octetText := by
        rw [tagChar, if_neg hplain]
        rfl
      have hpercent : ∃ x, tagChar c = '%' :: x := by
        obtain ⟨o, rest, hc, -⟩ := exists_octets c
        exact ⟨_, by rw [hchar, hc, List.flatMap_cons, octetText, List.cons_append]⟩
      obtain ⟨x, hx⟩ := hpercent
      have hread := readOctets_char c (cs.flatMap tagChar ++ t) m
      rw [← hchar, hx, List.cons_append] at hread
      rw [hx, List.cons_append, readTagOctets]
      simp only [if_true, hread, Option.bind_eq_bind, Option.bind_some]
      rw [hrest]
      simp [Tag.octetsOf]

/-- A character of a tag begins with itself or with a percent sign. -/
theorem tagChar_cases (c : Char) :
    (isPlainTagChar c = true ∧ tagChar c = [c]) ∨ ∃ x, tagChar c = '%' :: x := by
  by_cases hplain : isPlainTagChar c = true
  · exact .inl ⟨hplain, by rw [tagChar, if_pos hplain]⟩
  · obtain ⟨o, rest, hc, -⟩ := exists_octets c
    exact .inr ⟨_, by rw [tagChar, if_neg hplain, hc, List.flatMap_cons, List.cons_append]⟩

theorem length_le_flatMap_tagChar (cs : List Char) :
    cs.length ≤ (cs.flatMap tagChar).length := by
  induction cs with
  | nil => simp
  | cons c cs ih =>
    rw [List.flatMap_cons, List.length_append, List.length_cons]
    rcases tagChar_cases c with ⟨-, h⟩ | ⟨x, h⟩ <;> simp only [h, List.length_cons] <;> omega

/-- What follows a word of a tag goes on with neither a word nor an exclamation mark. -/
theorem head_flatMap_tagChar {r t : List Char} (hr : r.head?.any isWordChar = false)
    (ht : atStop t = true) :
    (r.flatMap tagChar ++ t).head?.any (fun a => isWordChar a || a = '!' || a = '<') = false := by
  cases r with
  | nil =>
    cases t with
    | nil => rfl
    | cons a t =>
      have ha : (isGap a || isBreak a) = true := ht
      simp only [isGap, isBreak, Bool.or_eq_true, decide_eq_true_eq] at ha
      rw [List.flatMap_nil, List.nil_append, List.head?_cons, Option.any_some]
      rcases ha with (h | h) | (((h | h) | h) | h) | h <;> subst h <;> decide
  | cons c r =>
    simp only [List.head?_cons, Option.any_some] at hr
    rcases tagChar_cases c with ⟨hplain, h⟩ | ⟨x, h⟩
    · have hbang : c ≠ '!' := by
        rintro rfl
        exact absurd hplain (by decide)
      have hangle : c ≠ '<' := by
        rintro rfl
        exact absurd hplain (by decide)
      simp [h, hr, hbang, hangle]
    · rw [List.flatMap_cons, h, List.cons_append, List.cons_append, List.head?_cons,
        Option.any_some]
      decide

/-- A word in a tag is written as it is. -/
theorem flatMap_tagChar_word {w : List Char} (hw : ∀ c ∈ w, isWordChar c = true) :
    w.flatMap tagChar = w := by
  induction w with
  | nil => rfl
  | cons c w ih =>
    have hc : isPlainTagChar c = true := by
      rw [isPlainTagChar, hw c List.mem_cons_self, Bool.true_or]
    rw [List.flatMap_cons, ih fun d hd => hw d (List.mem_cons_of_mem _ hd), tagChar, if_pos hc,
      List.singleton_append]

/-! ## Tags -/

/-- A tag without a zero has the octets of all its characters. -/
theorem upToZero_octetsOf (cs : List Char) (hcs : '\x00' ∉ cs) :
    upToZero (Tag.octetsOf cs) = Tag.octetsOf cs := by
  rw [upToZero, List.takeWhile_eq_self_iff]
  intro o ho
  obtain ⟨c, hc, hoc⟩ := List.mem_flatMap.1 ho
  obtain ⟨o', rest, hchar, -, hrest, hzero⟩ := exists_octets c
  rw [hchar] at hoc
  rcases List.mem_cons.1 hoc with rfl | hoc
  · have hne := hzero fun h => hcs (h ▸ hc)
    simpa using hne
  · have hfurther := hrest o hoc
    have hne : o ≠ 0 := by
      rintro rfl
      exact absurd hfurther (by decide)
    simpa using hne

/-- The tags that read back: those of the document's own, without zeros, and without the
marks of flow collections. -/
def IsReadableTag (tag : String) : Prop :=
  ∃ cs, tag.toList = '!' :: cs ∧ '\x00' ∉ cs ∧ ∀ c ∈ cs, isFlowMark c = false

/-- What a tag reads as: the octets behind its mark, or the mark itself. -/
def tagToken (tag : String) : TagText :=
  match tag.toList with
  | _ :: a :: rest => ⟨['!'], Tag.octetsOf (a :: rest)⟩
  | _ => ⟨[], [33]⟩

/-- A handle is the mark and the word behind it. -/
theorem readHandle_tagText (cs : List Char) {t : List Char} (ht : atStop t = true) (m : Mark) :
    ∃ w r, cs = w ++ r ∧ (∀ c ∈ w, isWordChar c = true) ∧
      readHandle ⟨'!' :: (cs.flatMap tagChar ++ t), m⟩ =
        some ('!' :: w, ⟨r.flatMap tagChar ++ t, m.along ('!' :: w)⟩) := by
  obtain ⟨w, r, rfl, hw, hr⟩ := exists_run isWordChar cs
  refine ⟨w, r, rfl, hw, ?_⟩
  have hhead := head_flatMap_tagChar hr ht
  have hword : (w ++ (r.flatMap tagChar ++ t)).takeWhile isWordChar = w := by
    refine Cursor.takeWhile_prefix hw ?_
    cases h : (r.flatMap tagChar ++ t).head? with
    | none => rfl
    | some a =>
      rw [h] at hhead
      simp only [Option.any_some, Bool.or_eq_false_iff] at hhead
      exact hhead.1.1
  have hbang : atOneOf ['!'] (r.flatMap tagChar ++ t) = false := by
    cases h : r.flatMap tagChar ++ t with
    | nil => rfl
    | cons a x =>
      rw [h] at hhead
      simp only [List.head?_cons, Option.any_some, Bool.or_eq_false_iff,
        decide_eq_false_iff_not] at hhead
      simpa [atOneOf] using hhead.1.2
  rw [List.flatMap_append, flatMap_tagChar_word hw, List.append_assoc, readHandle]
  simp only [Cursor.skip_one, hword, Cursor.skip_append, hbang, Bool.false_eq_true, if_false]
  rw [← Mark.along_append]
  rfl

/-- A tag with something behind its mark reads back. -/
theorem readShortTag_tagText {cs t : List Char} (bound : Nat) {m : Mark} (hne : cs ≠ [])
    (hzero : '\x00' ∉ cs) (hflow : ∀ c ∈ cs, isFlowMark c = false) (ht : atStop t = true)
    (hbound : cs.length < bound) :
    readShortTag bound ⟨'!' :: (cs.flatMap tagChar ++ t), m⟩ =
      some (⟨['!'], Tag.octetsOf cs⟩, ⟨t, m.along ('!' :: cs.flatMap tagChar)⟩) := by
  obtain ⟨w, r, rfl, hw, hread⟩ := readHandle_tagText cs ht m
  have hhandle : (decide (1 < ('!' :: w).length) &&
      decide (('!' :: w).getLast? = some '!')) = false := by
    cases w with
    | nil => rfl
    | cons a w =>
      have hlast : ('!' :: a :: w).getLast? ≠ some '!' := by
        rw [List.getLast?_cons_cons]
        intro h
        have hmem := hw '!' (List.mem_of_getLast? h)
        exact absurd hmem (by decide)
      simp only [hlast, decide_false, Bool.and_false]
  have hstop : t.head?.any (fun a => a = '%' || isTagChar false a) = false := by
    cases t with
    | nil => rfl
    | cons a t =>
      have ha : (isGap a || isBreak a) = true := ht
      simp only [isGap, isBreak, Bool.or_eq_true, decide_eq_true_eq] at ha
      rw [List.head?_cons, Option.any_some]
      rcases ha with (h | h) | (((h | h) | h) | h) | h <;> subst h <;> decide
  have hoctets := readTagOctets_flatMap hstop r bound (m.along ('!' :: w))
    (fun c hc => .inr (hflow c (List.mem_append_right _ hc)))
    (by simp only [List.length_append] at hbound; omega)
  have hsuffix : upToZero (Tag.octetsOf (('!' :: w).drop 1) ++ Tag.octetsOf r) =
      Tag.octetsOf (w ++ r) := by
    rw [← upToZero_octetsOf _ hzero]
    simp [Tag.octetsOf]
  have hnonempty : (Tag.octetsOf (w ++ r)).isEmpty = false := by
    obtain ⟨c, cs, hcs⟩ := List.exists_cons_of_ne_nil hne
    obtain ⟨o, rest, hc, -⟩ := exists_octets c
    rw [hcs, Tag.octetsOf, List.flatMap_cons, hc]
    rfl
  rw [readShortTag, hread]
  simp only [Option.bind_eq_bind, Option.bind_some, hhandle, Bool.false_eq_true, if_false]
  rw [hoctets]
  simp only [Option.bind_some, hsuffix, hnonempty, Bool.false_eq_true, if_false]
  rw [← Mark.along_append, List.flatMap_append, flatMap_tagChar_word hw]
  rfl

/-- A written tag reads back. -/
theorem readTag_tagText {tag : String} {t : List Char} {bound : Nat} {m : Mark}
    (htag : IsReadableTag tag) (ht : atStop t = true) (hbound : (tagText tag).length ≤ bound) :
    readTag false bound ⟨tagText tag ++ t, m⟩ =
      some (tagToken tag, ⟨t, m.along (tagText tag)⟩) := by
  obtain ⟨cs, hcs, hzero, hflow⟩ := htag
  cases cs with
  | nil =>
    -- the mark alone is written in full
    have htext : tagText tag = ['!', '<', '%', '2', '1', '>'] := by
      rw [tagText, hcs]
      decide
    have htoken : tagToken tag = ⟨[], [33]⟩ := by
      rw [tagToken, hcs]
    have hstop : ('>' :: t).head?.any (fun a => a = '%' || isTagChar true a) = false := by
      rw [List.head?_cons, Option.any_some]
      decide
    rw [htext] at hbound ⊢
    have hoctets := readTagOctets_flatMap hstop ['!'] bound (m.along ['!', '<']) (by simp)
      (by simp only [List.length_cons, List.length_nil] at hbound ⊢; omega)
    have hchar : ['!'].flatMap tagChar = ['%', '2', '1'] := by decide
    have hupto : upToZero (Tag.octetsOf ['!']) = [33] := by decide
    have hmark : ¬ (m.along ['!', '<']).along ['%', '2', '1'] = m.along ['!', '<'] := by
      simp [Mark.along]
    have hfour : (m.along ['!', '<']).along ['%', '2', '1', '>'] =
        m.along ['!', '<', '%', '2', '1', '>'] := (Mark.along_append m ['!', '<'] _).symm
    have hthree : ((m.along ['!', '<']).along ['%', '2', '1']).along ['>'] =
        (m.along ['!', '<']).along ['%', '2', '1', '>'] :=
      (Mark.along_append _ ['%', '2', '1'] ['>']).symm
    rw [hchar] at hoctets
    simp only [List.cons_append, List.nil_append] at hoctets
    simp [readTag, readFullTag, Cursor.skip_two, hoctets, hmark, atOneOf, hupto, Cursor.skip_one,
      ht, htoken, hthree, hfour]
  | cons a cs =>
    have htext : tagText tag = '!' :: (a :: cs).flatMap tagChar := by
      rw [tagText, hcs]
      rfl
    have htoken : tagToken tag = ⟨['!'], Tag.octetsOf (a :: cs)⟩ := by
      rw [tagToken, hcs]
    rw [htext] at hbound ⊢
    have hlen := length_le_flatMap_tagChar (a :: cs)
    simp only [List.length_cons] at hbound hlen
    have hread := readShortTag_tagText bound (m := m) (List.cons_ne_nil a cs) hzero
      hflow ht (by simp only [List.length_cons]; omega)
    have hangle : ((a :: cs).flatMap tagChar ++ t).head? ≠ some '<' := by
      rcases tagChar_cases a with ⟨hplain, h⟩ | ⟨x, h⟩
      · have hne : a ≠ '<' := by
          rintro rfl
          exact absurd hplain (by decide)
        simpa [h] using hne
      · simp [h]
    rw [List.cons_append, readTag]
    split
    · rename_i heq
      simp only [List.cons.injEq, true_and] at heq
      exact absurd (by rw [heq]; rfl) hangle
    · rw [hread]
      simp [ht, htoken]

/-- What a tag reads as has the octets of the tag. -/
theorem fullTag?_tagToken {tag : String} {w : Walk} (htag : IsReadableTag tag)
    (hw : w.handles = defaultHandles) : w.fullTag? (tagToken tag) = some (Tag.ofText tag) := by
  obtain ⟨cs, hcs, hzero, -⟩ := htag
  rw [Tag.ofText, hcs]
  cases cs with
  | nil =>
    simp [tagToken, hcs, Walk.fullTag?, Tag.octetsOf]
    decide
  | cons a cs =>
    have hupto := upToZero_octetsOf ('!' :: a :: cs)
      (by
        simp only [List.mem_cons] at hzero ⊢
        rintro (h | h)
        · exact absurd h (by decide)
        · exact hzero h)
    have hoctets : Tag.octetsOf ('!' :: a :: cs) = [33] ++ Tag.octetsOf (a :: cs) := rfl
    rw [hoctets] at hupto
    rw [tagToken, hcs, Walk.fullTag?, hw, hoctets]
    simpa [defaultHandles] using hupto

end LockPrune.Yaml
