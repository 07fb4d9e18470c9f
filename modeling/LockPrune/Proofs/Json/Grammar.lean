import LockPrune.Json.Value
import LockPrune.Proofs.Yaml.NumberReading

/-!
# The grammar of JSON

Which texts are a JSON document, and what they say.  Blanks may stand around every value and on
either side of the marks between values; the characters of a text may be escaped; a number has a
fraction and an exponent or none.  The text of a document is in the grammar whatever the document
holds, if only its doubles have digits.

## Main definitions

* `IsBlank`, `SpellsChar`, `Unsigned` — the blanks, the characters between double quotes, and the
  numbers without their sign.
* `Spells`, `SpellsItems`, `SpellsMembers` — the texts of a value, of items and of members.
* `IsDocument` — a text that is one document.
* `Value.IsSound` — all doubles in a value have digits.

## Main statements

* `isQuoted_quoted` — a text between double quotes.
* `unsigned_positional`, `unsigned_scientific` — the two ways of writing a decimal.
* `spells_textAt` — the text of a value, behind any margin.
-/

namespace LockPrune

namespace Json

open Yaml.Meaning (digits?)

/-! ## Blanks -/

/-- Nothing but blanks. -/
def IsBlank (t : List Char) : Prop :=
  ∀ c ∈ t, c = ' ' ∨ c = '\n' ∨ c = '\r' ∨ c = '\t'

theorem isBlank_nil : IsBlank [] :=
  List.forall_mem_nil _

theorem IsBlank.append {s t : List Char} (hs : IsBlank s) (ht : IsBlank t) : IsBlank (s ++ t) :=
  List.forall_mem_append.2 ⟨hs, ht⟩

/-! ## Numbers -/

/-- Digits, of which the first is not zero unless it is the only one. -/
structure IsWhole (s : List Char) : Prop where
  ne_nil : s ≠ []
  digits : ∀ c ∈ s, c.isDigit = true
  unpadded : s.head? = some '0' → s = ['0']

/-- The digits behind a point, if there is one. -/
inductive IsFraction : List Char → List Char → Prop where
  | absent : IsFraction [] []
  | point {ds : List Char} (hne : ds ≠ []) (hds : ∀ c ∈ ds, c.isDigit = true) :
    IsFraction ('.' :: ds) ds

/-- The exponent behind its mark, if there is one. -/
inductive IsExponent : List Char → Int → Prop where
  | absent : IsExponent [] 0
  | bare {mark : Char} {ds : List Char} {n : Nat} (hmark : mark = 'e' ∨ mark = 'E')
    (h : digits? 10 ds = some n) : IsExponent (mark :: ds) n
  | plus {mark : Char} {ds : List Char} {n : Nat} (hmark : mark = 'e' ∨ mark = 'E')
    (h : digits? 10 ds = some n) : IsExponent (mark :: '+' :: ds) n
  | minus {mark : Char} {ds : List Char} {n : Nat} (hmark : mark = 'e' ∨ mark = 'E')
    (h : digits? 10 ds = some n) : IsExponent (mark :: '-' :: ds) (-n)

/-- A number without a sign, and the decimal that it is. -/
inductive Unsigned : List Char → Decimal → Prop where
  | mk {whole point fraction mark : List Char} {exponent : Int} (hwhole : IsWhole whole)
    (hpoint : IsFraction point fraction) (hmark : IsExponent mark exponent) :
    Unsigned (whole ++ (point ++ mark))
      ⟨Nat.ofDigitChars 10 (whole ++ fraction) 0, exponent - fraction.length⟩

/-- A number that may have a sign. -/
def signed (negative : Bool) (s : List Char) : List Char :=
  if negative then '-' :: s else s

/-! ## Texts -/

/-- The characters with an escape of their own. -/
def escapes : List (Char × Char) :=
  [('"', '"'), ('\\', '\\'), ('/', '/'), ('\x08', 'b'), ('\x0c', 'f'), ('\n', 'n'), ('\r', 'r'),
    ('\t', 't')]

/-- The number of four digits in base sixteen. -/
def Unit16 (ds : List Char) (n : Nat) : Prop :=
  ds.length = 4 ∧ digits? 16 ds = some n

/-- What stands for a character between double quotes: the character, a short escape, or its
number, which is split where it is too large for four digits. -/
inductive SpellsChar : Char → List Char → Prop where
  | plain {c : Char} (hquote : c ≠ '"') (hmark : c ≠ '\\') (hcontrol : 32 ≤ c.toNat) :
    SpellsChar c [c]
  | short {c m : Char} (h : (c, m) ∈ escapes) : SpellsChar c ['\\', m]
  | unit {c : Char} {ds : List Char} (h : Unit16 ds c.toNat) : SpellsChar c ('\\' :: 'u' :: ds)
  | pair {c : Char} {ds ds' : List Char} {n n' : Nat} (h : Unit16 ds (0xd800 + n))
    (h' : Unit16 ds' (0xdc00 + n')) (hn : n < 0x400) (hn' : n' < 0x400)
    (hc : c.toNat = 0x10000 + 0x400 * n + n') :
    SpellsChar c ('\\' :: 'u' :: (ds ++ '\\' :: 'u' :: ds'))

/-- A text between double quotes. -/
def IsQuoted (s : String) (t : List Char) : Prop :=
  ∃ pieces, List.Forall₂ SpellsChar s.toList pieces ∧ t = '"' :: (pieces.flatten ++ ['"'])

/-! ## Values -/

mutual

/-- The texts of a value. -/
inductive Spells : Value → List Char → Prop where
  | null : Spells .null "null".toList
  | bool {b : Bool} : Spells (.bool b) (if b then "true" else "false").toList
  | integer {i : Int} {negative : Bool} {s : List Char} {d : Decimal} (h : Unsigned s d)
    (hi : (if negative then -d.value else d.value) = i) : Spells (.integer i) (signed negative s)
  /-- Of a number with a fraction the nearest double counts. -/
  | float {x : Binary64} {negative : Bool} {s : List Char} {d : Decimal} (h : Unsigned s d)
    (hx : Binary64.ofDecimal negative d.digits d.exponent = x) :
    Spells (.float x) (signed negative s)
  | string {s : String} {t : List Char} (h : IsQuoted s t) : Spells (.string s) t
  | emptyArray {b : List Char} (hb : IsBlank b) : Spells (.array []) ('[' :: (b ++ [']']))
  | array {items : List Value} {t : List Char} (h : SpellsItems items t) :
    Spells (.array items) ('[' :: (t ++ [']']))
  | emptyObject {b : List Char} (hb : IsBlank b) : Spells (.object []) ('\x7b' :: (b ++ ['\x7d']))
  | object {members : List (String × Value)} {t : List Char} (h : SpellsMembers members t) :
    Spells (.object members) ('\x7b' :: (t ++ ['\x7d']))

/-- The texts of items with commas between. -/
inductive SpellsItems : List Value → List Char → Prop where
  | last {v : Value} {b t b' : List Char} (hb : IsBlank b) (h : Spells v t) (hb' : IsBlank b') :
    SpellsItems [v] (b ++ (t ++ b'))
  | cons {v : Value} {vs : List Value} {b t b' rest : List Char} (hb : IsBlank b)
    (h : Spells v t) (hb' : IsBlank b') (hrest : SpellsItems vs rest) :
    SpellsItems (v :: vs) (b ++ (t ++ (b' ++ ',' :: rest)))

/-- The texts of members with commas between. -/
inductive SpellsMembers : List (String × Value) → List Char → Prop where
  | last {name : String} {v : Value} {b₀ n b₁ b₂ t b₃ : List Char} (h₀ : IsBlank b₀)
    (hname : IsQuoted name n) (h₁ : IsBlank b₁) (h₂ : IsBlank b₂) (h : Spells v t)
    (h₃ : IsBlank b₃) :
    SpellsMembers [(name, v)] (b₀ ++ (n ++ (b₁ ++ ':' :: (b₂ ++ (t ++ b₃)))))
  | cons {name : String} {v : Value} {members : List (String × Value)}
    {b₀ n b₁ b₂ t b₃ rest : List Char} (h₀ : IsBlank b₀) (hname : IsQuoted name n)
    (h₁ : IsBlank b₁) (h₂ : IsBlank b₂) (h : Spells v t) (h₃ : IsBlank b₃)
    (hrest : SpellsMembers members rest) :
    SpellsMembers ((name, v) :: members)
      (b₀ ++ (n ++ (b₁ ++ ':' :: (b₂ ++ (t ++ (b₃ ++ ',' :: rest))))))

end

/-- A text that is one document. -/
def IsDocument (v : Value) (t : String) : Prop :=
  ∃ b s b', IsBlank b ∧ Spells v s ∧ IsBlank b' ∧ t.toList = b ++ (s ++ b')

/-! ## What is written for texts -/

/-- Two digits are enough for the number of a control. -/
theorem unit16_hexDigit {n : Nat} (hn : n < 32) :
    Unit16 ['0', '0', hexDigit (n / 16), hexDigit n] n := by
  have hdigits : ∀ k < 32, digits? 16 ['0', '0', hexDigit (k / 16), hexDigit k] = some k := by
    decide
  exact ⟨rfl, hdigits n hn⟩

theorem spellsChar_quotedChar (c : Char) : SpellsChar c (quotedChar c) := by
  rw [quotedChar]
  split_ifs with hself hn hr ht hb hf hcontrol
  · have hcases : c = '"' ∨ c = '\\' := by simpa using hself
    rcases hcases with rfl | rfl <;> exact .short (by decide)
  · exact hn ▸ .short (by decide)
  · exact hr ▸ .short (by decide)
  · exact ht ▸ .short (by decide)
  · exact hb ▸ .short (by decide)
  · exact hf ▸ .short (by decide)
  · exact .unit (unit16_hexDigit hcontrol)
  · have hcases : c ≠ '"' ∧ c ≠ '\\' := by simpa using hself
    exact .plain hcases.1 hcases.2 (Nat.le_of_not_lt hcontrol)

/-- What is written for a text is the text between double quotes. -/
theorem isQuoted_quoted (s : String) : IsQuoted s (quoted s).toList := by
  refine ⟨s.toList.map quotedChar, ?_, ?_⟩
  · rw [List.forall₂_map_right_iff]
    exact List.forall₂_same.2 fun c _ => spellsChar_quotedChar c
  · rw [quoted, String.toList_ofList, List.flatMap_def]
    rfl

/-! ## What is written for numbers -/

theorem isWhole_zero : IsWhole ['0'] :=
  ⟨List.cons_ne_nil _ _, List.forall_mem_singleton.2 rfl, fun _ => rfl⟩

/-- The digits of a decimal other than zero do not begin with zero, nor does any part of them that
stands in front. -/
theorem isWhole_take {d : Decimal} (hd : 0 < d.digits) {n : Nat} (hn : 0 < n) :
    IsWhole (d.digitText.take n) where
  ne_nil := by
    rw [Ne, List.take_eq_nil_iff, not_or]
    exact ⟨by omega, Nat.toDigits_ne_nil⟩
  digits := d.isDigit_of_mem_take n
  unpadded h := by
    rw [List.head?_take, if_neg (by omega)] at h
    exact absurd h (Yaml.Meaning.head_toDigits hd)

/-- So with zeros behind them. -/
theorem isWhole_append_zeros {d : Decimal} (hd : 0 < d.digits) (n : Nat) :
    IsWhole (d.digitText ++ Decimal.zeros n) where
  ne_nil := List.append_ne_nil_of_left_ne_nil Nat.toDigits_ne_nil _
  digits := List.forall_mem_append.2 ⟨d.isDigit_of_mem_digitText, Decimal.isDigit_of_mem_zeros n⟩
  unpadded h := by
    rw [List.head?_append_of_ne_nil d.digitText Nat.toDigits_ne_nil] at h
    exact absurd h (Yaml.Meaning.head_toDigits hd)

/-- A decimal without an exponent has digits on both sides of its point. -/
theorem exists_positional_eq {d : Decimal} (hd : 0 < d.digits) :
    ∃ whole fraction, d.positional = whole ++ Yaml.Meaning.pointed fraction ∧ IsWhole whole ∧
      fraction ≠ [] ∧ ∀ c ∈ fraction, c.isDigit = true := by
  have hpointed : ∀ {fraction : List Char}, fraction ≠ [] →
      '.' :: fraction = Yaml.Meaning.pointed fraction := fun hne => (if_neg hne).symm
  simp only [Decimal.positional]
  split_ifs with hexponent hpoint
  · exact ⟨_, ['0'], rfl, isWhole_append_zeros hd _, List.cons_ne_nil _ _,
      List.forall_mem_singleton.2 rfl⟩
  · have hdrop : d.digitText.drop (d.digitText.length + d.exponent).toNat ≠ [] := by
      rw [Ne, List.drop_eq_nil_iff]
      omega
    exact ⟨_, _, by rw [hpointed hdrop], isWhole_take hd (by omega), hdrop, d.isDigit_of_mem_drop _⟩
  · have hfraction :
        Decimal.zeros (-(d.digitText.length + d.exponent)).toNat ++ d.digitText ≠ [] :=
      List.append_ne_nil_of_right_ne_nil _ Nat.toDigits_ne_nil
    refine ⟨['0'], _, by rw [← hpointed hfraction]; rfl, isWhole_zero, hfraction, ?_⟩
    exact List.forall_mem_append.2 ⟨Decimal.isDigit_of_mem_zeros _, d.isDigit_of_mem_digitText⟩

/-- A decimal without an exponent is spelled as the number that it is. -/
theorem unsigned_positional {d : Decimal} (hd : 0 < d.digits) :
    ∃ d', Unsigned d.positional d' ∧ d'.value = d.value := by
  obtain ⟨whole, fraction, heq, hwhole, hne, hfraction⟩ := exists_positional_eq hd
  obtain ⟨n, k, hdecimal, hvalue⟩ := d.decimal?_positional
  rw [heq, Yaml.Meaning.decimal?_pointed hwhole.ne_nil hwhole.digits hfraction,
    Option.some.injEq, Prod.mk.injEq] at hdecimal
  obtain ⟨rfl, rfl⟩ := hdecimal
  have hunsigned := Unsigned.mk hwhole (.point hne hfraction) .absent
  rw [List.append_nil, zero_sub] at hunsigned
  rw [heq, Yaml.Meaning.pointed, if_neg hne]
  exact ⟨_, hunsigned, hvalue⟩

/-- The exponent of a decimal, every sign of which is written. -/
theorem isExponent_toString (e : Int) :
    IsExponent (('e' :: if e < 0 then [] else ['+']) ++ (toString e).toList) e := by
  have hdigits : ∀ n : Nat, digits? 10 (Nat.toDigits 10 n) = some n :=
    Yaml.Meaning.digits?_toDigits
  rw [Int.toString_eq_repr, Int.repr_eq_if]
  by_cases he : e < 0
  · have hminus : "-".toList = ['-'] := rfl
    have h : IsExponent ('e' :: '-' :: Nat.toDigits 10 (-e).toNat) (-((-e).toNat : Int)) :=
      .minus (.inl rfl) (hdigits _)
    rw [Int.toNat_of_nonneg (by omega), neg_neg] at h
    rw [if_pos he, if_neg (by omega), String.toList_append, Nat.toList_repr, hminus]
    exact h
  · have h : IsExponent ('e' :: '+' :: Nat.toDigits 10 e.toNat) e.toNat :=
      .plus (.inl rfl) (hdigits _)
    rw [Int.toNat_of_nonneg (by omega)] at h
    rw [if_neg he, if_pos (by omega), Nat.toList_repr]
    exact h

/-- A decimal with an exponent is spelled as itself. -/
theorem unsigned_scientific {d : Decimal} (hd : 0 < d.digits) :
    Unsigned (d.scientific ['+']) d := by
  have hpoint : IsFraction (if d.digitText.length = 1 then [] else '.' :: d.digitText.drop 1)
      (d.digitText.drop 1) := by
    by_cases hlength : d.digitText.length = 1
    · have hnil : d.digitText.drop 1 = [] := List.drop_eq_nil_of_le (Nat.le_of_eq hlength)
      rw [if_pos hlength, hnil]
      exact .absent
    · rw [if_neg hlength]
      refine .point ?_ (d.isDigit_of_mem_drop 1)
      have hpos : 0 < d.digitText.length := List.length_pos_iff.2 Nat.toDigits_ne_nil
      rw [Ne, List.drop_eq_nil_iff]
      omega
  have hunsigned := Unsigned.mk (isWhole_take hd Nat.one_pos) hpoint
    (isExponent_toString (d.digitText.length + d.exponent - 1))
  have hpos : 0 < d.digitText.length := List.length_pos_iff.2 Nat.toDigits_ne_nil
  have hexponent : (d.digitText.length : Int) + d.exponent - 1 - (d.digitText.drop 1).length =
      d.exponent := by
    rw [List.length_drop]
    omega
  rw [List.take_append_drop, d.ofDigitChars_digitText, hexponent] at hunsigned
  simpa only [Decimal.scientific, List.append_assoc] using hunsigned

/-- The text of an integer. -/
theorem spells_integer (i : Int) : Spells (.integer i) (toString i).toList := by
  have hwhole : ∀ n : Nat, IsWhole (Nat.toDigits 10 n) := by
    intro n
    rcases Nat.eq_zero_or_pos n with rfl | hn
    · exact isWhole_zero
    · have h := isWhole_append_zeros (d := ⟨n, 0⟩) hn 0
      rwa [Decimal.zeros, List.replicate_zero, List.append_nil] at h
  have hunsigned : ∀ n : Nat, Unsigned (Nat.toDigits 10 n) ⟨n, 0⟩ := by
    intro n
    have h := Unsigned.mk (hwhole n) .absent .absent
    simpa [Nat.ofDigitChars_ten_toDigits] using h
  rw [Int.toString_eq_repr, Int.repr_eq_if]
  by_cases hi : 0 ≤ i
  · have hvalue : (⟨i.toNat, 0⟩ : Decimal).value = i := by
      rw [Decimal.value, zpow_zero, mul_one]
      exact_mod_cast Int.toNat_of_nonneg hi
    have h : Spells (.integer i) (signed false (Nat.toDigits 10 i.toNat)) :=
      .integer (hunsigned i.toNat) hvalue
    rw [if_pos hi, Nat.toList_repr]
    exact h
  · have hvalue : -(⟨(-i).toNat, 0⟩ : Decimal).value = i := by
      rw [Decimal.value, zpow_zero, mul_one, neg_eq_iff_eq_neg]
      exact_mod_cast Int.toNat_of_nonneg (by omega : 0 ≤ -i)
    have hminus : "-".toList = ['-'] := rfl
    have h : Spells (.integer i) (signed true (Nat.toDigits 10 (-i).toNat)) :=
      .integer (hunsigned (-i).toNat) hvalue
    rw [if_neg hi, String.toList_append, Nat.toList_repr, hminus]
    exact h

/-- The text of a double that has digits. -/
theorem spells_numeral {x : Binary64} (hx : x.IsCanonical) (hfinite : x.isFinite = true) :
    Spells (.float x) (numeral x).toList := by
  cases x with
  | finite negative m e =>
    have hd : Binary64.IsDouble m e := hx
    have hsigned : ∀ s d, Unsigned s d →
        Binary64.ofDecimal negative d.digits d.exponent = .finite negative m e →
        Spells (.float (.finite negative m e)) (Binary64.signed negative s).toList := by
      intro s d hs hdouble
      rw [Yaml.Meaning.toList_signed]
      exact .float hs hdouble
    cases m with
    | zero =>
      obtain rfl : e = Binary64.minExponent := hd.normal.resolve_left (by norm_num)
      have hzero := Unsigned.mk isWhole_zero
        (.point (List.cons_ne_nil '0' []) (List.forall_mem_singleton.2 rfl)) .absent
      exact hsigned _ _ hzero rfl
    | succ m =>
      have hround := Decimal.roundsTo_shortest m.succ_pos hd
      have hpos : 0 < (Decimal.shortest (m + 1) e).digits := by
        have hvalue := hround.pos m.succ_pos
        rw [Nat.pos_iff_ne_zero]
        intro hzero
        rw [Decimal.value, hzero, Nat.cast_zero, zero_mul] at hvalue
        exact absurd hvalue (not_le.2 (zpow_pos two_pos (e - 1)))
      have hdouble : ∀ d : Decimal, d.value = (Decimal.shortest (m + 1) e).value →
          Binary64.ofDecimal negative d.digits d.exponent = .finite negative (m + 1) e := by
        intro d hvalue
        rw [← hvalue] at hround
        exact Binary64.ofDecimal_eq m.succ_pos hd hround
      rw [numeral, Binary64.stored]
      · split
        · obtain ⟨d, hd, hvalue⟩ := unsigned_positional hpos
          exact hsigned _ _ hd (hdouble d hvalue)
        · exact hsigned _ _ (unsigned_scientific hpos) (hdouble _ rfl)
      · exact m.succ_ne_zero
  | infinite negative => cases hfinite
  | nan => cases hfinite

/-! ## What is written for values -/

/-- All doubles in a value have digits. -/
inductive Value.IsSound : Value → Prop where
  | null : IsSound .null
  | bool {b : Bool} : IsSound (.bool b)
  | integer {i : Int} : IsSound (.integer i)
  | float {x : Binary64} (hx : x.IsCanonical) (hfinite : x.isFinite = true) : IsSound (.float x)
  | string {s : String} : IsSound (.string s)
  | array {items : List Value} (h : ∀ v ∈ items, IsSound v) : IsSound (.array items)
  | object {members : List (String × Value)} (h : ∀ p ∈ members, IsSound p.2) :
    IsSound (.object members)

theorem isBlank_newline {m : List Char} (hm : IsBlank m) : IsBlank ('\n' :: m) :=
  List.forall_mem_cons.2 ⟨.inr (.inl rfl), hm⟩

theorem isBlank_deeper {margin : String} (h : IsBlank margin.toList) :
    IsBlank (Value.deeper margin).toList := by
  have hstep : IsBlank "  ".toList := by simp [IsBlank]
  rw [Value.deeper, String.toList_append]
  exact h.append hstep

/-- Items on lines of their own, behind blanks and in front of blanks. -/
theorem spellsItems_itemsText {margin : String} (hm : IsBlank margin.toList) {v : Value}
    {vs : List Value} (h : ∀ w ∈ v :: vs, Spells w (w.textAt margin).toList) {b b' : List Char}
    (hb : IsBlank b) (hb' : IsBlank b') :
    SpellsItems (v :: vs)
      (b ++ ((v.textAt margin).toList ++ ((Value.itemsText margin ",\n" vs).toList ++ b'))) := by
  obtain ⟨hv, hvs⟩ := List.forall_mem_cons.1 h
  induction vs generalizing v b with
  | nil => exact .last hb hv hb'
  | cons w vs ih =>
    obtain ⟨hw, hrest⟩ := List.forall_mem_cons.1 hvs
    have hnext := ih hvs (isBlank_newline hm) hw hrest
    have hgap : ",\n".toList = [',', '\n'] := rfl
    have htext : (Value.itemsText margin ",\n" (w :: vs)).toList = ',' :: ('\n' :: margin.toList ++
        ((w.textAt margin).toList ++ (Value.itemsText margin ",\n" vs).toList)) := by
      rw [Value.itemsText]
      simp only [String.toList_append, hgap, List.append_assoc, List.cons_append, List.nil_append]
    have hall := SpellsItems.cons hb hv isBlank_nil hnext
    simpa only [htext, List.nil_append, List.append_assoc, List.cons_append] using hall

/-- Members on lines of their own, behind blanks and in front of blanks. -/
theorem spellsMembers_membersText {margin : String} (hm : IsBlank margin.toList)
    {p : String × Value} {ps : List (String × Value)}
    (h : ∀ q ∈ p :: ps, Spells q.2 (q.2.textAt margin).toList) {b b' : List Char}
    (hb : IsBlank b) (hb' : IsBlank b') :
    SpellsMembers (p :: ps)
      (b ++ ((quoted p.1).toList ++ ':' :: ' ' :: ((p.2.textAt margin).toList ++
        ((Value.membersText margin ",\n" ps).toList ++ b')))) := by
  have hspace : IsBlank [' '] := by simp [IsBlank]
  obtain ⟨hp, hps⟩ := List.forall_mem_cons.1 h
  induction ps generalizing p b with
  | nil =>
    have hall := SpellsMembers.last hb (isQuoted_quoted p.1) isBlank_nil hspace hp hb'
    simpa only [Value.membersText, String.toList_empty, List.nil_append, List.cons_append] using
      hall
  | cons q ps ih =>
    obtain ⟨hq, hrest⟩ := List.forall_mem_cons.1 hps
    have hnext := ih hps (isBlank_newline hm) hq hrest
    have hgap : ",\n".toList = [',', '\n'] := rfl
    have hcolon : ": ".toList = [':', ' '] := rfl
    have htext : (Value.membersText margin ",\n" (q :: ps)).toList =
        ',' :: ('\n' :: margin.toList ++ ((quoted q.1).toList ++ ':' :: ' ' ::
          ((q.2.textAt margin).toList ++ (Value.membersText margin ",\n" ps).toList))) := by
      rw [Value.membersText]
      simp only [String.toList_append, hgap, hcolon, List.append_assoc, List.cons_append,
        List.nil_append]
    have hall := SpellsMembers.cons hb (isQuoted_quoted p.1) isBlank_nil hspace hp isBlank_nil hnext
    simpa only [htext, List.nil_append, List.append_assoc, List.cons_append] using hall

/-- What is written for a value is a text of it, behind any margin. -/
theorem spells_textAt {v : Value} (hv : v.IsSound) {margin : String}
    (hm : IsBlank margin.toList) : Spells v (v.textAt margin).toList := by
  induction hv generalizing margin with
  | null => exact .null
  | bool =>
    rw [Value.textAt]
    exact .bool
  | @integer i => exact spells_integer i
  | float hx hfinite =>
    rw [Value.textAt, if_pos hfinite]
    exact spells_numeral hx hfinite
  | @string s => exact .string (isQuoted_quoted s)
  | @array items h ih =>
    rw [Value.textAt]
    cases items with
    | nil =>
      rw [if_pos List.isEmpty_nil]
      exact .emptyArray isBlank_nil
    | cons v vs =>
      have hdeep := isBlank_deeper hm
      have hitems := spellsItems_itemsText hdeep (fun w hw => ih w hw hdeep)
        (isBlank_newline hdeep) (isBlank_newline hm)
      have hopen : "[".toList = ['['] := rfl
      have hclose : "]".toList = [']'] := rfl
      have hgap : "\n".toList = ['\n'] := rfl
      rw [if_neg (by simp), Value.itemsText]
      simpa only [String.toList_append, hopen, hclose, hgap, List.append_assoc, List.cons_append,
        List.nil_append] using Spells.array hitems
  | @object members h ih =>
    rw [Value.textAt]
    cases members with
    | nil =>
      rw [if_pos List.isEmpty_nil]
      exact .emptyObject isBlank_nil
    | cons p ps =>
      have hdeep := isBlank_deeper hm
      have hmembers := spellsMembers_membersText hdeep (fun q hq => ih q hq hdeep)
        (isBlank_newline hdeep) (isBlank_newline hm)
      have hopen : "\x7b".toList = ['\x7b'] := rfl
      have hclose : "\x7d".toList = ['\x7d'] := rfl
      have hgap : "\n".toList = ['\n'] := rfl
      have hcolon : ": ".toList = [':', ' '] := rfl
      rw [if_neg (by simp), Value.membersText]
      simpa only [String.toList_append, hopen, hclose, hgap, hcolon, List.append_assoc,
        List.cons_append, List.nil_append] using Spells.object hmembers

/-- The text of a document, and a line feed behind it, are one document. -/
theorem isDocument_text {v : Value} (hv : v.IsSound) : IsDocument v (v.text ++ "\n") := by
  refine ⟨[], v.text.toList, ['\n'], isBlank_nil, spells_textAt hv (by simp [IsBlank]),
    isBlank_newline isBlank_nil, ?_⟩
  rw [String.toList_append]
  rfl

end Json

end LockPrune
