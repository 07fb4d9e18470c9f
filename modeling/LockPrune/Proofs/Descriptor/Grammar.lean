import LockPrune.Descriptor
import Mathlib.Data.List.TakeWhile

/-!
# The grammar of descriptors

A descriptor is a name, `@` and a range, and a text may go on behind it with a control character.
The reader takes the longest run of characters everywhere and never goes back.  Nothing is lost by
that: neither `@` nor a slash is a character of a name, and no control character is in a range, so
that a text is cut in one way at most, and what is read is what was written.

## Main definitions

* `IsWord`, `IsRange` — the runs of characters that names and ranges are made of.
* `Spells` — a name, and the package that it is the name of.
* `Parts` — a text is a name, `@`, a range and what follows.

## Main statements

* `readName_eq_some_iff`, `read_eq_ok_iff` — what is read from a text.
* `Parts.unique` — a text is cut in one way at most.
* `read_grammar` — the reader accepts exactly the grammar, and undoes writing.
-/

namespace LockPrune.Descriptor

variable {p : Char → Bool} {s word rest name range : List Char} {ident : Ident} {d : Descriptor}

/-! ## Runs of characters -/

/-- A run of characters of a class, at least one. -/
def IsRun (p : Char → Bool) (word : List Char) : Prop :=
  word ≠ [] ∧ ∀ c ∈ word, p c = true

/-- The characters of the run are looked at, and not all that there are. -/
instance : Decidable (IsRun p word) :=
  decidable_of_iff (word ≠ [] ∧ word.all p = true) (and_congr_right fun _ => List.all_eq_true)

/-- A run does not go on with a character of another class. -/
theorem stops_cons {c : Char} (hc : p c = false) (s : List Char) :
    ∀ a ∈ (c :: s).head?, p a = false := by
  intro a ha
  obtain rfl : c = a := by simpa using ha
  exact hc

/-- A run is read up to the first character of another class. -/
theorem run?_append (hword : IsRun p word) (hrest : ∀ c ∈ rest.head?, p c = false) :
    run? p (word ++ rest) = some (word, rest) := by
  have hstop : rest.takeWhile p = [] ∧ rest.dropWhile p = rest := by
    cases rest with
    | nil => exact ⟨rfl, rfl⟩
    | cons c rest =>
      have hc : ¬ p c = true := by simp [hrest c rfl]
      exact ⟨List.takeWhile_cons_of_neg hc, List.dropWhile_cons_of_neg hc⟩
  have htake : (word ++ rest).takeWhile p = word := by
    rw [List.takeWhile_append_of_pos hword.2, hstop.1, List.append_nil]
  have hdrop : (word ++ rest).dropWhile p = rest := by
    rw [List.dropWhile_append_of_pos hword.2, hstop.2]
  obtain ⟨c, w, rfl⟩ := List.exists_cons_of_ne_nil hword.1
  rw [run?, htake, hdrop]

/-- What is read is the whole run, and the rest is what it stops at. -/
theorem run?_eq_some_iff : run? p s = some (word, rest) ↔
    s = word ++ rest ∧ IsRun p word ∧ ∀ c ∈ rest.head?, p c = false := by
  constructor
  · intro h
    have hword : s.takeWhile p = word ∧ s.dropWhile p = rest ∧ word ≠ [] := by
      rw [run?] at h
      split at h
      · cases h
      · rename_i hne
        obtain ⟨rfl, rfl⟩ := Prod.mk.inj (Option.some.inj h)
        exact ⟨rfl, rfl, hne⟩
    obtain ⟨rfl, rfl, hne⟩ := hword
    refine ⟨List.takeWhile_append_dropWhile.symm, ⟨hne, fun c hc => List.mem_takeWhile_imp hc⟩, ?_⟩
    intro c hc
    have hhead := List.head?_dropWhile_not p s
    rw [Option.mem_def.1 hc] at hhead
    simpa using hhead
  · rintro ⟨rfl, hword, hrest⟩
    exact run?_append hword hrest

/-! ## Names -/

/-- A run of characters of a name. -/
def IsWord : List Char → Prop :=
  IsRun isNameChar

/-- A run of characters of a range. -/
def IsRange : List Char → Prop :=
  IsRun fun c => !isControl c

instance : Decidable (IsWord word) :=
  inferInstanceAs (Decidable (IsRun _ _))

instance : Decidable (IsRange range) :=
  inferInstanceAs (Decidable (IsRun _ _))

/-- A name, and the package that it is the name of: a word, or a scope and a word with a slash
between.  The scope has its `@` in front. -/
inductive Spells : List Char → Ident → Prop where
  | bare {word : List Char} (h : IsWord word) : Spells word ⟨none, .ofList word⟩
  | withScope {scope word : List Char} (hscope : IsWord scope) (hword : IsWord word) :
    Spells ('@' :: (scope ++ '/' :: word)) ⟨some (.ofList ('@' :: scope)), .ofList word⟩

/-- A text is a name. -/
def IsName (name : List Char) : Prop :=
  ∃ ident, Spells name ident

/-- A name is written for its package again. -/
theorem Spells.toList_fullName (h : Spells name ident) : ident.fullName.toList = name := by
  cases h with
  | bare => simp [Ident.fullName]
  | withScope => simp [Ident.fullName]

/-- A word does not begin with `@`. -/
theorem readScoped_of_isWord (hword : IsWord word) (rest : List Char) :
    readScoped (word ++ rest) = none := by
  obtain ⟨c, w, rfl⟩ := List.exists_cons_of_ne_nil hword.1
  have hc : c ≠ '@' := by
    rintro rfl
    exact absurd (hword.2 '@' List.mem_cons_self) (by decide)
  rw [List.cons_append, readScoped]
  rintro r hr
  exact hc (List.cons.inj hr).1

/-- A name is read up to the first character that is in no name. -/
theorem readName_append (hname : Spells name ident)
    (hrest : ∀ c ∈ rest.head?, isNameChar c = false) :
    readName (name ++ rest) = some (ident, rest) := by
  cases hname with
  | bare hword =>
    rw [readName, readScoped_of_isWord hword, run?_append hword hrest]
    rfl
  | @withScope scope word hscope hword =>
    have hscoped : readScoped ('@' :: (scope ++ '/' :: word) ++ rest) =
        some (⟨some (.ofList ('@' :: scope)), .ofList word⟩, rest) := by
      rw [List.cons_append, List.append_assoc, List.cons_append, readScoped,
        run?_append hscope (stops_cons (by decide) _)]
      change Option.map _ (run? isNameChar (word ++ rest)) = _
      rw [run?_append hword hrest]
      rfl
    rw [readName, hscoped]

/-- What is read as a name with a scope is one. -/
theorem exists_of_readScoped (h : readScoped s = some (ident, rest)) :
    ∃ name, s = name ++ rest ∧ Spells name ident ∧ ∀ c ∈ rest.head?, isNameChar c = false := by
  unfold readScoped at h
  split at h
  · split at h
    · rename_i scope behind hfront
      obtain ⟨⟨word, rest'⟩, hback, heq⟩ := Option.map_eq_some_iff.1 h
      obtain ⟨rfl, rfl⟩ := Prod.mk.inj heq
      obtain ⟨rfl, hscope, -⟩ := run?_eq_some_iff.1 hfront
      obtain ⟨rfl, hword, hrest⟩ := run?_eq_some_iff.1 hback
      exact ⟨_, by simp, .withScope hscope hword, hrest⟩
    · cases h
  · cases h

/-- What is read as a name is one, and it ends where the characters of names do. -/
theorem readName_eq_some_iff : readName s = some (ident, rest) ↔
    ∃ name, s = name ++ rest ∧ Spells name ident ∧ ∀ c ∈ rest.head?, isNameChar c = false := by
  constructor
  · intro h
    rw [readName] at h
    split at h
    · rename_i result hscoped
      obtain rfl := Option.some.inj h
      exact exists_of_readScoped hscoped
    · obtain ⟨⟨word, rest'⟩, hfront, heq⟩ := Option.map_eq_some_iff.1 h
      obtain ⟨rfl, rfl⟩ := Prod.mk.inj heq
      obtain ⟨rfl, hword, hrest⟩ := run?_eq_some_iff.1 hfront
      exact ⟨_, rfl, .bare hword, hrest⟩
  · rintro ⟨name, rfl, hname, hrest⟩
    exact readName_append hname hrest

/-- The mark between name and range is in no name. -/
theorem mark_stops (s : List Char) : ∀ c ∈ ('@' :: s).head?, isNameChar c = false :=
  stops_cons (by decide) s

/-- Of two names with a mark behind each that texts begin with, neither is longer. -/
theorem Spells.eq_of_append {name' t : List Char} {ident' : Ident} (hname : Spells name ident)
    (hname' : Spells name' ident') (h : name ++ '@' :: s = name' ++ '@' :: t) :
    name = name' ∧ ident = ident' ∧ s = t := by
  have hread := readName_append hname (mark_stops s)
  rw [h, readName_append hname' (mark_stops t)] at hread
  obtain ⟨rfl, hrest⟩ := Prod.mk.inj (Option.some.inj hread)
  refine ⟨?_, rfl, (List.cons.inj hrest).2.symm⟩
  rw [← hname.toList_fullName, hname'.toList_fullName]

/-! ## Descriptors -/

/-- A text is a name, `@`, a range and what follows: nothing, or something that begins with a
control character. -/
structure Parts (s name range rest : List Char) : Prop where
  eq : s = name ++ '@' :: (range ++ rest)
  isName : IsName name
  isRange : IsRange range
  ends : ∀ c ∈ rest.head?, isControl c = true

/-- The range ends where a control character begins what follows. -/
theorem Parts.stops (h : Parts s name range rest) :
    ∀ c ∈ rest.head?, (!isControl c) = false := fun c hc => by
  rw [h.ends c hc, Bool.not_true]

/-- A text is cut in one way at most. -/
theorem Parts.unique {name' range' rest' : List Char} (h : Parts s name range rest)
    (h' : Parts s name' range' rest') : name = name' ∧ range = range' ∧ rest = rest' := by
  obtain ⟨ident, hname⟩ := h.isName
  obtain ⟨ident', hname'⟩ := h'.isName
  obtain ⟨rfl, -, heq⟩ := hname.eq_of_append hname' (h.eq.symm.trans h'.eq)
  have hread := run?_append h.isRange h.stops
  rw [heq, run?_append h'.isRange h'.stops] at hread
  obtain ⟨rfl, rfl⟩ := Prod.mk.inj (Option.some.inj hread)
  exact ⟨rfl, rfl, rfl⟩

/-- A descriptor is read from a text exactly if the text is its name, its range, and what is
left. -/
theorem read_eq_ok_iff : read s = .ok (d, rest) ↔
    ∃ name range, Parts s name range rest ∧ Spells name d.ident ∧ d.range = .ofList range := by
  constructor
  · intro h
    rw [read] at h
    split at h
    · cases h
    · rename_i ident after hread
      split at h
      · cases h
      · rename_i range behind hback
        obtain ⟨rfl, rfl⟩ := Prod.mk.inj (Except.ok.inj h)
        obtain ⟨name, rfl, hname, -⟩ := readName_eq_some_iff.1 hread
        obtain ⟨rfl, hrange, hends⟩ := run?_eq_some_iff.1 hback
        exact ⟨name, range, ⟨rfl, ⟨_, hname⟩, hrange, by simpa using hends⟩, hname, rfl⟩
    · cases h
  · rintro ⟨name, range, hparts, hname, hrange⟩
    rw [hparts.eq, read, readName_append hname (mark_stops _)]
    simp only [run?_append hparts.isRange hparts.stops, ← hrange]

/-! ## Keys -/

/-- A key is a descriptor if nothing is left of it. -/
theorem ofKey?_eq_some_iff {key : String} :
    ofKey? key = some d ↔ read key.toList = .ok (d, []) := by
  rw [ofKey?]
  split
  · rename_i d' hread
    simp [hread]
  · rename_i hread
    simpa using hread d

/-- A name with a range behind it is the key of its package. -/
theorem ofKey?_ofList (hname : Spells name ident) (hrange : IsRange range) :
    ofKey? (.ofList (name ++ '@' :: range)) = some ⟨ident, .ofList range⟩ := by
  rw [ofKey?_eq_some_iff, String.toList_ofList, read_eq_ok_iff]
  exact ⟨name, range, ⟨by rw [List.append_nil], ⟨ident, hname⟩, hrange, by simp⟩, hname, rfl⟩

/-- **The reader accepts exactly the grammar, and undoes writing.**  A descriptor is read from a
text if and only if the text is a name, `@`, a range and what follows, and there is one way at most
to cut it so; what is read are these parts, the name as a scope and a word if it has a slash.  A key
is a descriptor exactly if nothing follows, and it is then the name, `@` and the range.  Every name
with a range behind it is read as the package that it is the name of, with that range. -/
theorem read_grammar (key : String) :
    ((∃ d rest, read key.toList = .ok (d, rest)) ↔
        ∃ name range rest, Parts key.toList name range rest) ∧
      (∀ name range rest name' range' rest', Parts key.toList name range rest →
        Parts key.toList name' range' rest' → name = name' ∧ range = range' ∧ rest = rest') ∧
      (∀ d rest, read key.toList = .ok (d, rest) →
        Parts key.toList d.ident.fullName.toList d.range.toList rest ∧
          Spells d.ident.fullName.toList d.ident ∧
          ofKey? key = if rest = [] then some d else none) ∧
      (∀ d, ofKey? key = some d →
        read key.toList = .ok (d, []) ∧ d.ident.fullName ++ "@" ++ d.range = key) ∧
      ∀ name ident range, Spells name ident → IsRange range →
        ofKey? (.ofList (name ++ '@' :: range)) = some ⟨ident, .ofList range⟩ := by
  have hparts : ∀ d rest, read key.toList = .ok (d, rest) →
      Parts key.toList d.ident.fullName.toList d.range.toList rest ∧
        Spells d.ident.fullName.toList d.ident := by
    intro d rest h
    obtain ⟨name, range, hparts, hname, hrange⟩ := read_eq_ok_iff.1 h
    rw [hname.toList_fullName, hrange, String.toList_ofList]
    exact ⟨hparts, hname⟩
  refine ⟨⟨?_, ?_⟩, fun _ _ _ _ _ _ => Parts.unique, fun d rest h => ?_, ?_,
    fun _ _ _ => ofKey?_ofList⟩
  · rintro ⟨d, rest, h⟩
    exact ⟨_, _, rest, (hparts d rest h).1⟩
  · rintro ⟨name, range, rest, h⟩
    obtain ⟨ident, hname⟩ := h.isName
    exact ⟨⟨ident, .ofList range⟩, rest, read_eq_ok_iff.2 ⟨name, range, h, hname, rfl⟩⟩
  · refine ⟨(hparts d rest h).1, (hparts d rest h).2, ?_⟩
    rw [ofKey?, h]
    cases rest <;> rfl
  · intro d h
    have hread := ofKey?_eq_some_iff.1 h
    refine ⟨hread, String.toList_inj.1 ?_⟩
    rw [(hparts d [] hread).1.eq]
    simp

/-- A key with a scope and further marks in its range is a descriptor, and so is the beginning of a
text of two lines, which is none itself. -/
theorem read_grammar_scoped :
    ofKey? "@b/c-d@patch:e@1/2" = some ⟨⟨some "@b", "c-d"⟩, "patch:e@1/2"⟩ ∧
      Parts "@b/c-d@patch:e@1/2\n".toList "@b/c-d".toList "patch:e@1/2".toList ['\n'] ∧
      ofKey? "@b/c-d@patch:e@1/2\n" = none := by
  have hname : Spells "@b/c-d".toList ⟨some (.ofList "@b".toList), .ofList "c-d".toList⟩ :=
    .withScope (by decide : IsWord ['b']) (by decide : IsWord ['c', '-', 'd'])
  have hread : read "@b/c-d@patch:e@1/2\n".toList =
      .ok (⟨⟨some "@b", "c-d"⟩, "patch:e@1/2"⟩, ['\n']) := by rfl
  obtain ⟨-, -, hparts, -, hback⟩ := read_grammar "@b/c-d@patch:e@1/2\n"
  obtain ⟨hcut, -, hnone⟩ := hparts _ _ hread
  exact ⟨hback _ _ "patch:e@1/2".toList hname (by decide), hcut, hnone⟩

end LockPrune.Descriptor
