import LockPrune.Proofs.Ordered.Related
import LockPrune.Proofs.Yaml.Scan

/-!
# Handing tokens over early

The scanner hands a token over as soon as nothing can be put in front of it.  A run that
hands over and a run that keeps all its tokens go through the same states, but for the
tokens that the first has handed over already; in the end both have the same tokens.

## Main definitions

* `Scanner.detach` — a state without its first tokens.
* `Scanner.Free` — nothing can be put in front of the first tokens.
* `Scanner.Local` — a move that neither looks at tokens in front nor changes them.

## Main statements

* `Scanner.local_fetch` — a step of the scanner is such a move.
* `Tokens.ofScanner_of_leads` — the tokens of a run that keeps them are those that are handed
  over.
-/

namespace LockPrune.Yaml

namespace Scanner

/-! ## Tokens in front -/

/-- The state without its first `r` tokens. -/
def detach (r : Nat) (s : Scanner) : Scanner :=
  { s with pending := s.pending.drop r, taken := s.taken + r }

/-- Nothing can be put in front of the first `r` tokens any more: the keys that are possible
begin behind them, and no later than at the next token. -/
structure Free (r : Nat) (s : Scanner) : Prop where
  length : r ≤ s.pending.length
  keys : ∀ key ∈ s.key :: s.outerKeys, ∀ k, key = some k →
    s.taken + r ≤ k.number ∧ k.number ≤ s.nextNumber

/-- What a move does that leaves the first `r` tokens as they are. -/
structure Extends (r : Nat) (s s' : Scanner) : Prop where
  free : Free r s'
  front : s'.pending.take r = s.pending.take r
  taken : s'.taken = s.taken
  sublist : s.pending.Sublist s'.pending

theorem Extends.trans {r : Nat} {a b c : Scanner} (h : Extends r a b) (h' : Extends r b c) :
    Extends r a c where
  free := h'.free
  front := h'.front.trans h.front
  taken := h'.taken.trans h.taken
  sublist := h.sublist.trans h'.sublist

/-- Tokens that are added at the end leave those in front as they are, and so do keys that
begin no earlier. -/
theorem extends_of_append {r : Nat} {s s' : Scanner} (h : Free r s) (xs : List Token)
    (hpending : s'.pending = s.pending ++ xs) (htaken : s'.taken = s.taken)
    (hkeys : ∀ key ∈ s'.key :: s'.outerKeys, ∀ k, key = some k →
      key ∈ s.key :: s.outerKeys ∨ k.number = s.nextNumber) : Extends r s s' where
  free :=
    { length := by
        have := h.length
        rw [hpending, List.length_append]
        omega
      keys := by
        intro key hkey k hk
        have hlen := h.length
        simp only [nextNumber, hpending, htaken, List.length_append]
        rcases hkeys key hkey k hk with hold | hnew
        · have hk' := h.keys key hold k hk
          simp only [nextNumber] at hk'
          omega
        · simp only [nextNumber] at hnew
          omega }
  front := by rw [hpending, List.take_append_of_le_length h.length]
  taken := htaken
  sublist := by
    rw [hpending]
    exact List.sublist_append_left _ _

/-! ## Moves -/

/-- What a move makes of a state without its first `r` tokens, against what it makes of the
state with them. -/
def Follows (r : Nat) (s : Scanner) (without whole : Option Scanner) : Prop :=
  without = whole.map (detach r) ∧ ∀ s', whole = some s' → Extends r s s'

theorem follows_none (r : Nat) (s : Scanner) : Follows r s none none :=
  ⟨rfl, fun s' h => by cases h⟩

theorem Follows.ite {r : Nat} {s : Scanner} {p : Prop} [Decidable p] {x y x' y' : Option Scanner}
    (h : Follows r s x y) (h' : Follows r s x' y') :
    Follows r s (if p then x else x') (if p then y else y') := by
  by_cases hp : p
  · simpa [hp] using h
  · simpa [hp] using h'

/-- A move that neither looks at the tokens in front nor changes them. -/
def Local (f : Scanner → Option Scanner) : Prop :=
  ∀ r s, Free r s → Follows r s (f (s.detach r)) (f s)

theorem Local.bind {f g : Scanner → Option Scanner} (hf : Local f) (hg : Local g) :
    Local fun s => (f s).bind g := by
  intro r s hs
  obtain ⟨hcomm, hext⟩ := hf r s hs
  cases h : f s with
  | none => simpa [hcomm, h] using follows_none r s
  | some a =>
    have ha := hext a h
    obtain ⟨hcomm', hext'⟩ := hg r a ha.free
    simp only [hcomm, h, Option.map_some, Option.bind_some]
    exact ⟨hcomm', fun s' hs' => ha.trans (hext' s' hs')⟩

/-- A move that cannot fail. -/
theorem local_some {f : Scanner → Scanner}
    (h : ∀ r s, Free r s → f (s.detach r) = (f s).detach r ∧ Extends r s (f s)) :
    Local fun s => some (f s) := by
  intro r s hs
  obtain ⟨hcomm, hext⟩ := h r s hs
  refine ⟨by simp only [hcomm, Option.map_some], fun s' hs' => ?_⟩
  cases hs'
  exact hext

theorem local_none : Local fun _ => none := by
  intro r s _
  exact follows_none r s

/-- A choice that does not depend on the tokens. -/
theorem local_ite {f g : Scanner → Option Scanner} (p : Scanner → Bool)
    (hp : ∀ r s, p (s.detach r) = p s) (hf : Local f) (hg : Local g) :
    Local fun s => if p s then f s else g s := by
  intro r s hs
  simp only [hp]
  by_cases h : p s = true
  · simp only [h, if_true]
    exact hf r s hs
  · simp only [h, Bool.false_eq_true, if_false]
    exact hg r s hs

/-- A reader that does not depend on the tokens. -/
theorem local_read {α : Type} {f : α → Scanner → Option Scanner} (read : Scanner → Option α)
    (hread : ∀ r s, read (s.detach r) = read s) (hf : ∀ a, Local (f a)) :
    Local fun s => (read s).bind fun a => f a s := by
  intro r s hs
  simp only [hread]
  cases read s with
  | none => exact follows_none r s
  | some a => exact hf a r s hs

/-- A move that adds tokens which do not depend on those before, and keeps the keys or gives
some up. -/
theorem local_of_append {f : Scanner → Scanner} (xs : Scanner → List Token)
    (hcomm : ∀ r s, Free r s → f (s.detach r) = (f s).detach r)
    (hpending : ∀ s, (f s).pending = s.pending ++ xs s) (htaken : ∀ s, (f s).taken = s.taken)
    (hkeys : ∀ s, ∀ key ∈ (f s).key :: (f s).outerKeys, ∀ k, key = some k →
      key ∈ s.key :: s.outerKeys ∨ k.number = s.nextNumber) : Local fun s => some (f s) :=
  local_some fun r s hs =>
    ⟨hcomm r s hs, extends_of_append hs (xs s) (hpending s) (htaken s) (hkeys s)⟩

/-- What is added at the end is added behind what is left. -/
theorem drop_append_of_free {r : Nat} {s : Scanner} (h : Free r s) (xs : List Token) :
    (s.pending ++ xs).drop r = s.pending.drop r ++ xs :=
  List.drop_append_of_le_length h.length

/-- A token is taken. -/
theorem local_take (kind : Scanner → Token.Kind) (c : Scanner → Cursor)
    (hkind : ∀ r s, kind (s.detach r) = kind s) (hc : ∀ r s, c (s.detach r) = c s) :
    Local fun s => some (s.take (kind s) (c s)) :=
  local_of_append (fun s => [⟨kind s, s.cursor.mark, (c s).mark⟩])
    (fun r s hs => by
      simp only [take, hkind, hc]
      simp only [push, detach, drop_append_of_free hs])
    (fun _ => rfl) (fun _ => rfl) (fun s key hkey k hk => .inl hkey)

/-- Moves of the cursor and of what does not concern the tokens. -/
theorem local_quiet {f : Scanner → Scanner} (hcomm : ∀ r s, f (s.detach r) = (f s).detach r)
    (hpending : ∀ s, (f s).pending = s.pending) (htaken : ∀ s, (f s).taken = s.taken)
    (hkeys : ∀ s, ∀ key ∈ (f s).key :: (f s).outerKeys, ∀ k, key = some k →
      key ∈ s.key :: s.outerKeys) : Local fun s => some (f s) :=
  local_of_append (fun _ => []) (fun r s _ => hcomm r s)
    (fun s => by rw [hpending, List.append_nil])
    htaken fun s key hkey k hk => .inl (hkeys s key hkey k hk)

theorem local_allowKey (allowed : Bool) : Local fun s => some (s.allowKey allowed) :=
  local_quiet (fun _ _ => rfl) (fun _ => rfl) (fun _ => rfl) fun _ _ hkey _ _ => hkey

/-- A key that is given up leaves the rest as it is. -/
theorem eq_of_removeKey {s s' : Scanner} (h : s.removeKey = some s') :
    s' = { s with key := none } := by
  cases hkey : s.key with
  | none =>
    simp only [removeKey, hkey, Option.some.injEq] at h
    rw [← h, ← hkey]
  | some k =>
    simp only [removeKey, hkey, Option.ite_none_left_eq_some, Option.some.injEq] at h
    exact h.2.symm

theorem local_removeKey : Local removeKey := by
  intro r s hs
  constructor
  · have hkey : (s.detach r).key = s.key := rfl
    rw [removeKey, removeKey, hkey]
    cases s.key with
    | none => rfl
    | some k => cases hreq : k.required <;> simp [hreq, detach]
  · intro s' h
    obtain rfl := eq_of_removeKey h
    refine extends_of_append hs [] (by simp) rfl fun key hk k hkk => .inl ?_
    rcases List.mem_cons.1 hk with rfl | hk
    · cases hkk
    · exact List.mem_cons_of_mem _ hk

/-- The number of the next token counts the tokens in front. -/
theorem nextNumber_detach {r : Nat} {s : Scanner} (h : r ≤ s.pending.length) :
    (s.detach r).nextNumber = s.nextNumber := by
  simp only [nextNumber, detach, List.length_drop]
  omega

theorem local_saveKey : Local saveKey := by
  intro r s hs
  cases hal : s.keyAllowed with
  | false =>
    have hfalse : (s.detach r).keyAllowed = false := hal
    simp only [saveKey, hal, hfalse, Bool.false_eq_true, if_false]
    refine ⟨rfl, fun s' h => ?_⟩
    cases h
    exact extends_of_append hs [] (by simp) rfl fun key hk k hkk => .inl hk
  | true =>
    have htrue : (s.detach r).keyAllowed = true := hal
    simp only [saveKey, hal, htrue, if_true, (local_removeKey r s hs).1, Option.map_map]
    cases hremove : s.removeKey with
    | none => exact follows_none r s
    | some a =>
      obtain rfl := eq_of_removeKey hremove
      have hnext : ({ s with key := none }.detach r).nextNumber = s.nextNumber :=
        nextNumber_detach hs.length
      simp only [Option.map_some, Function.comp_apply, hnext]
      refine ⟨rfl, fun s' h => ?_⟩
      cases h
      refine extends_of_append hs [] (by simp) rfl fun key hk k hkk => ?_
      rcases List.mem_cons.1 hk with rfl | hk
      · cases hkk
        exact .inr rfl
      · exact .inl (List.mem_cons_of_mem _ hk)

theorem local_closeBlocks (column : Scanner → Int) (hc : ∀ r s, column (s.detach r) = column s) :
    Local fun s => some (s.closeBlocks (column s)) := by
  refine local_some fun r s hs => ?_
  have hflow : (s.detach r).inFlow = s.inFlow := rfl
  rw [hc, closeBlocks, closeBlocks, hflow]
  split
  · exact ⟨rfl, extends_of_append hs [] (by simp) rfl fun key hk k hkk => .inl hk⟩
  · refine ⟨?_, extends_of_append hs _ rfl rfl fun key hk k hkk => .inl hk⟩
    simp only [detach, drop_append_of_free hs]

/-- A block is opened in front of the next token. -/
theorem local_openBlock (kind : Token.Kind) :
    Local fun s => some (s.openBlock s.cursor.column kind s.cursor.mark none) := by
  refine local_some fun r s hs => ?_
  have hflow : (s.detach r).inFlow = s.inFlow := rfl
  have hcursor : (s.detach r).cursor = s.cursor := rfl
  have hindent : (s.detach r).indent = s.indent := rfl
  rw [openBlock, openBlock, hflow, hcursor, hindent]
  split
  · refine ⟨?_, extends_of_append hs _ rfl rfl fun key hk k hkk => .inl hk⟩
    simp only [push, detach, drop_append_of_free hs]
  · exact ⟨rfl, extends_of_append hs [] (by simp) rfl fun key hk k hkk => .inl hk⟩

/-- What stands in front of a place does not see what is put in there. -/
theorem extends_of_insert {r i : Nat} {s s' : Scanner} (h : Free r s) (hi : r ≤ i)
    (xs : List Token) (hpending : s'.pending = s.pending.take i ++ xs ++ s.pending.drop i)
    (htaken : s'.taken = s.taken)
    (hkeys : ∀ key ∈ s'.key :: s'.outerKeys, ∀ k, key = some k → key ∈ s.key :: s.outerKeys) :
    Extends r s s' := by
  have hlen := h.length
  have htake : r ≤ (s.pending.take i).length := by
    rw [List.length_take]
    omega
  refine ⟨⟨?_, fun key hk k hkk => ?_⟩, ?_, htaken, ?_⟩
  · rw [hpending]
    simp only [List.length_append]
    omega
  · have hk' := h.keys key (hkeys key hk k hkk) k hkk
    have hsum : (s.pending.take i).length + (s.pending.drop i).length = s.pending.length := by
      rw [← List.length_append, List.take_append_drop]
    simp only [nextNumber, hpending, htaken, List.length_append] at hk' ⊢
    omega
  · rw [hpending, List.append_assoc, List.take_append_of_le_length htake, List.take_take,
      Nat.min_eq_left hi]
  · rw [hpending]
    conv => lhs; rw [← List.take_append_drop i s.pending]
    exact (List.sublist_append_left _ _).append (List.Sublist.refl _)

/-- What is put in at a place of what is left. -/
theorem drop_insert {r i : Nat} {s : Scanner} (h : Free r s) (hi : r ≤ i) (xs : List Token) :
    (s.pending.take i ++ xs ++ s.pending.drop i).drop r =
      (s.pending.drop r).take (i - r) ++ xs ++ (s.pending.drop r).drop (i - r) := by
  have hlen := h.length
  have htake : r ≤ (s.pending.take i).length := by
    rw [List.length_take]
    omega
  rw [List.append_assoc, List.drop_append_of_le_length htake, List.drop_take, List.drop_drop,
    List.append_assoc]
  congr 3
  omega

theorem local_takeChars (kind : Token.Kind) (n : Nat) : Local fun s => some (s.takeChars kind n) :=
  local_take (fun _ => kind) (fun s => s.cursor.skip n) (fun _ _ => rfl) fun _ _ => rfl

/-- What ends a move that gives up the key: whether a key may begin, and a token. -/
theorem local_mark (allowed : Bool) (kind : Token.Kind) (n : Nat) :
    Local fun s => some ((s.allowKey allowed).takeChars kind n) := by
  have h := (local_allowKey allowed).bind (local_takeChars kind n)
  exact h

/-- A token whose text a reader tells, behind what may begin a key. -/
theorem local_readToken {α : Type} (read : Scanner → Option (α × Cursor))
    (hread : ∀ r s, read (s.detach r) = read s) (kind : α → Token.Kind) (allowed : α → Bool) :
    Local fun s => (read s).bind fun x =>
        some ((s.allowKey (allowed x.1)).take (kind x.1) x.2) := by
  refine local_read read hread fun x => ?_
  have h := (local_allowKey (allowed x.1)).bind
    (local_take (fun _ => kind x.1) (fun _ => x.2) (fun _ _ => rfl) fun _ _ => rfl)
  exact h

/-! ## One kind of token at a time -/

theorem local_fetchEnd : Local fetchEnd := by
  have hmark : Local fun s => some { s with cursor := ⟨s.cursor.rest,
      if s.cursor.column = 0 then s.cursor.mark
      else ⟨s.cursor.mark.offset, s.cursor.mark.line + 1, 0⟩⟩ } :=
    local_quiet (fun _ _ => rfl) (fun _ => rfl) (fun _ => rfl) fun _ _ hkey _ _ => hkey
  have h := hmark.bind ((local_closeBlocks (fun _ => -1) fun _ _ => rfl).bind
    (local_removeKey.bind (local_mark false .streamEnd 0)))
  exact h

theorem local_fetchDirective : Local fetchDirective := by
  have h := (local_closeBlocks (fun _ => -1) fun _ _ => rfl).bind (local_removeKey.bind
    (local_readToken (fun s => readDirective s.bound s.cursor) (fun _ _ => rfl) id fun _ => false))
  exact h

theorem local_fetchDocumentMark (kind : Token.Kind) : Local (fetchDocumentMark · kind) := by
  have h := (local_closeBlocks (fun _ => -1) fun _ _ => rfl).bind (local_removeKey.bind
    (local_mark false kind 3))
  exact h

theorem local_fetchFlowStart (kind : Token.Kind) : Local (fetchFlowStart · kind) := by
  have hkeys : Local fun s => some { s with key := none, outerKeys := s.key :: s.outerKeys } :=
    local_quiet (fun _ _ => rfl) (fun _ => rfl) (fun _ => rfl) fun s key hkey k hk => by
      rcases List.mem_cons.1 hkey with rfl | hkey
      · cases hk
      · exact hkey
  have h := local_saveKey.bind (hkeys.bind (local_mark true kind 1))
  exact h

/-- Behind a closing bracket the key that was possible in front of the opening one is possible
again. -/
def restoreKey (s : Scanner) : Scanner :=
  match s.outerKeys with
  | key :: outerKeys => { s with key := key, outerKeys := outerKeys }
  | [] => s

theorem local_restoreKey : Local fun s => some s.restoreKey := by
  refine local_quiet (fun r s => ?_) (fun s => ?_) (fun s => ?_) fun s key hkey k hk => ?_
  · have houter : (s.detach r).outerKeys = s.outerKeys := rfl
    rw [restoreKey, restoreKey, houter]
    cases s.outerKeys <;> rfl
  · rw [restoreKey]
    split <;> rfl
  · rw [restoreKey]
    split <;> rfl
  · rw [restoreKey] at hkey
    split at hkey
    · rename_i heq
      rw [heq]
      exact List.mem_cons_of_mem _ hkey
    · exact hkey

theorem local_fetchFlowEnd (kind : Token.Kind) : Local (fetchFlowEnd · kind) := by
  have h := local_removeKey.bind (local_restoreKey.bind (local_mark false kind 1))
  exact h

theorem local_fetchFlowEntry : Local fetchFlowEntry := by
  have h := local_removeKey.bind (local_mark true .flowEntry 1)
  exact h

/-- A mark that may stand in a block only where a key may begin. -/
theorem local_blockMark {f : Scanner → Option Scanner} (hf : Local f) :
    Local fun s => if !s.inFlow && !s.keyAllowed then none else f s :=
  local_ite (fun s => !s.inFlow && !s.keyAllowed) (fun _ _ => rfl) local_none hf

theorem local_fetchBlockEntry : Local fetchBlockEntry := by
  have h := local_blockMark ((local_openBlock .blockSequenceStart).bind
    (local_removeKey.bind (local_mark true .blockEntry 1)))
  exact h

/-- The mark of a key or a value, which a key may follow in a block. -/
theorem local_pairMark (kind : Token.Kind) :
    Local fun s => some ((s.allowKey (!s.inFlow)).takeChars kind 1) := by
  have hallow : Local fun s => some (s.allowKey (!s.inFlow)) :=
    local_quiet (fun _ _ => rfl) (fun _ => rfl) (fun _ => rfl) fun _ _ hkey _ _ => hkey
  have h := hallow.bind (local_takeChars kind 1)
  exact h

theorem local_fetchKey : Local fetchKey := by
  have h := local_blockMark ((local_openBlock .blockMappingStart).bind
    (local_removeKey.bind (local_pairMark .key)))
  exact h

/-- What the colon behind a key puts in where the key began: the token of the key, behind that of a
block which it may open.  It is the same without the tokens in front. -/
theorem exists_openBlock_pushAt (s : Scanner) (k : PossibleKey) :
    ∃ xs indent outer, ∀ a : Scanner, a.indent = s.indent → a.outerIndents = s.outerIndents →
      a.outerKeys = s.outerKeys → k.number - a.taken ≤ a.pending.length →
      (a.pushAt k.number .key k.mark).openBlock k.mark.column .blockMappingStart k.mark
          (some k.number) =
        { a with
          indent := indent
          outerIndents := outer
          pending := a.pending.take (k.number - a.taken) ++ xs ++
            a.pending.drop (k.number - a.taken) } := by
  by_cases hopen : (!s.inFlow && s.indent < k.mark.column) = true
  · refine ⟨[⟨.blockMappingStart, k.mark, k.mark⟩, ⟨.key, k.mark, k.mark⟩], k.mark.column,
      s.indent :: s.outerIndents, fun a hindent houter hkeys hlen => ?_⟩
    have hflow : (a.pushAt k.number .key k.mark).inFlow = s.inFlow := by
      simp [inFlow, pushAt, hkeys]
    have hindent' : (a.pushAt k.number .key k.mark).indent = s.indent := hindent
    rw [openBlock, hflow, hindent', if_pos hopen]
    simp [pushAt, houter, Nat.min_eq_left hlen]
  · refine ⟨[⟨.key, k.mark, k.mark⟩], s.indent, s.outerIndents,
      fun a hindent houter hkeys hlen => ?_⟩
    have hflow : (a.pushAt k.number .key k.mark).inFlow = s.inFlow := by
      simp [inFlow, pushAt, hkeys]
    have hindent' : (a.pushAt k.number .key k.mark).indent = s.indent := hindent
    rw [openBlock, hflow, hindent', if_neg hopen]
    simp [pushAt, ← hindent, ← houter]

/-- The colon behind a key: its tokens are put in where the key began. -/
theorem follows_fetchValue {r : Nat} {s : Scanner} {k : PossibleKey} (hs : Free r s)
    (hkey : s.key = some k) : Follows r s (fetchValue (s.detach r)) (fetchValue s) := by
  obtain ⟨hfrom, hto⟩ := hs.keys s.key List.mem_cons_self k hkey
  have hlen := hs.length
  simp only [nextNumber] at hto
  obtain ⟨xs, indent, outer, hput⟩ := exists_openBlock_pushAt s k
  have hvalue : ∀ a : Scanner, a.key = some k → a.indent = s.indent →
      a.outerIndents = s.outerIndents → a.outerKeys = s.outerKeys →
      k.number - a.taken ≤ a.pending.length →
      fetchValue a = some (({ a with
        key := none
        indent := indent
        outerIndents := outer
        pending := a.pending.take (k.number - a.taken) ++ xs ++
          a.pending.drop (k.number - a.taken) }.allowKey false).takeChars .value 1) := by
    intro a ha hindent houter hkeys hle
    rw [fetchValue, ha]
    simp only [hput a hindent houter hkeys hle]
  have hdetach : k.number - (s.detach r).taken ≤ (s.detach r).pending.length := by
    simp only [detach, List.length_drop]
    omega
  have hinsert : Extends r s { s with
      key := none
      indent := indent
      outerIndents := outer
      pending := s.pending.take (k.number - s.taken) ++ xs ++
        s.pending.drop (k.number - s.taken) } :=
    extends_of_insert hs (by omega) xs rfl rfl fun key hk k' hkk => by
      rcases List.mem_cons.1 hk with rfl | hk
      · cases hkk
      · exact List.mem_cons_of_mem _ hk
  obtain ⟨hcomm, hext⟩ := local_mark false .value 1 r _ hinsert.free
  rw [hvalue (s.detach r) hkey rfl rfl rfl hdetach, hvalue s hkey rfl rfl rfl (by omega)]
  refine ⟨?_, fun s' h => hinsert.trans (hext s' h)⟩
  rw [← hcomm]
  simp only [detach, drop_insert hs (by omega : r ≤ k.number - s.taken), Nat.sub_add_eq]

/-- A colon without a key in front may open a block, and one behind a key does what the key needs.
-/
theorem local_fetchValue : Local fetchValue := by
  intro r s hs
  cases hkey : s.key with
  | some k => exact follows_fetchValue hs hkey
  | none =>
    have hvalue : ∀ a : Scanner, a.key = none → fetchValue a =
        if !a.inFlow && !a.keyAllowed then none
        else (some (a.openBlock a.cursor.column .blockMappingStart a.cursor.mark none)).bind
          fun a => some ((a.allowKey (!a.inFlow)).takeChars .value 1) := by
      intro a ha
      rw [fetchValue, ha]
      rfl
    have hdetach : (s.detach r).key = none := hkey
    rw [hvalue _ hdetach, hvalue s hkey]
    have h := local_blockMark ((local_openBlock .blockMappingStart).bind (local_pairMark .value))
    exact h r s hs

theorem local_fetchAnchor (kind : List Char → Token.Kind) : Local (fetchAnchor · kind) := by
  have h := local_saveKey.bind
    (local_readToken (fun s => readAnchorName (s.cursor.skip 1)) (fun _ _ => rfl) kind
      fun _ => false)
  exact h

theorem local_fetchTag : Local fetchTag := by
  have h := local_saveKey.bind
    (local_readToken (fun s => readTag s.inFlow s.bound s.cursor) (fun _ _ => rfl) .tag
      fun _ => false)
  exact h

theorem local_fetchBlockScalar (style : Style) : Local (fetchBlockScalar · style) := by
  have h := local_removeKey.bind
    (local_readToken (fun s => readBlock (style = .folded) s.indent s.bound s.cursor)
      (fun _ _ => rfl) (.scalar style) fun _ => true)
  exact h

theorem local_fetchQuoted (style : Style) : Local (fetchQuoted · style) := by
  have h := local_saveKey.bind
    (local_readToken
      (fun s => (if style = .single then readSingle else readDouble) s.bound s.cursor)
      (fun _ _ => rfl) (.scalar style) fun _ => false)
  exact h

theorem local_fetchPlain : Local fetchPlain := by
  have hread : Local fun s => (readPlain s.inFlow (s.indent + 1) s.bound s.cursor).bind fun p =>
      some ((s.allowKey p.lineEnded).take (.scalar .plain p.text) p.cursor) := by
    refine local_read (fun s => readPlain s.inFlow (s.indent + 1) s.bound s.cursor)
      (fun _ _ => rfl) fun p => ?_
    have h := (local_allowKey p.lineEnded).bind
      (local_take (fun _ => .scalar .plain p.text) (fun _ => p.cursor) (fun _ _ => rfl)
        fun _ _ => rfl)
    exact h
  have h := local_saveKey.bind hread
  exact h

/-! ## A step -/

/-- The next token does not depend on the tokens in front. -/
theorem local_fetchNext : Local fetchNext := by
  intro r s hs
  have hcursor : (s.detach r).cursor = s.cursor := rfl
  have hflow : (s.detach r).inFlow = s.inFlow := rfl
  rw [fetchNext, fetchNext, hcursor, hflow]
  cases s.cursor.rest with
  | nil => exact local_fetchEnd r s hs
  | cons a rest =>
    refine .ite (local_fetchDirective r s hs) ?_
    refine .ite (local_fetchDocumentMark _ r s hs) (.ite (local_fetchDocumentMark _ r s hs) ?_)
    refine .ite (local_fetchFlowStart _ r s hs) (.ite (local_fetchFlowStart _ r s hs) ?_)
    refine .ite (local_fetchFlowEnd _ r s hs) (.ite (local_fetchFlowEnd _ r s hs) ?_)
    refine .ite (local_fetchFlowEntry r s hs) (.ite (local_fetchBlockEntry r s hs) ?_)
    refine .ite (local_fetchKey r s hs) (.ite (local_fetchValue r s hs) ?_)
    refine .ite (local_fetchAnchor _ r s hs) (.ite (local_fetchAnchor _ r s hs) ?_)
    refine .ite (local_fetchTag r s hs) ?_
    refine .ite (local_fetchBlockScalar _ r s hs) (.ite (local_fetchBlockScalar _ r s hs) ?_)
    refine .ite (local_fetchQuoted _ r s hs) (.ite (local_fetchQuoted _ r s hs) ?_)
    exact .ite (local_fetchPlain r s hs) (local_none r s hs)

/-- Going to the next token changes no more than the cursor and whether a key may begin. -/
theorem skipToToken_detach (n r : Nat) (s : Scanner) :
    skipToToken n (s.detach r) = (skipToToken n s).detach r ∧
      (skipToToken n s).pending = s.pending ∧ (skipToToken n s).taken = s.taken ∧
      (skipToToken n s).key = s.key ∧ (skipToToken n s).outerKeys = s.outerKeys := by
  induction n generalizing s with
  | zero => exact ⟨rfl, rfl, rfl, rfl, rfl⟩
  | succ n ih =>
    have hcursor : (s.detach r).cursor = s.cursor := rfl
    have hflow : (s.detach r).inFlow = s.inFlow := rfl
    have hal : (s.detach r).keyAllowed = s.keyAllowed := rfl
    rw [skipToToken, skipToToken, hcursor, hflow, hal]
    generalize Cursor.skipComment _ = c
    cases atBreak c.rest with
    | false => exact ⟨rfl, rfl, rfl, rfl, rfl⟩
    | true => exact ih { s with cursor := c.skipLine, keyAllowed := s.keyAllowed || !s.inFlow }

theorem local_skipToToken : Local fun s => some (skipToToken (s.bound + 1) s) :=
  local_some fun r s hs => by
    obtain ⟨hcomm, hpending, htaken, hkey, houter⟩ := skipToToken_detach (s.bound + 1) r s
    refine ⟨hcomm, extends_of_append hs [] (by simpa using hpending) htaken
      fun key hk k hkk => .inl ?_⟩
    rwa [hkey, houter] at hk

/-- A key that is not stale is the key that was possible. -/
theorem eq_some_of_dropStaleKey {m : Mark} {key : Option PossibleKey} {k : PossibleKey}
    (h : dropStaleKey m key = some (some k)) : key = some k := by
  cases key with
  | none => cases h
  | some k' =>
    rw [dropStaleKey] at h
    split at h
    · split at h <;> cases h
    · exact Option.some.inj h

/-- Keys are given up, and no others come. -/
theorem local_dropStale : Local dropStale := by
  intro r s hs
  constructor
  · simp only [dropStale, detach]
    cases dropStaleKey s.cursor.mark s.key with
    | none => rfl
    | some key => cases s.outerKeys.mapM (dropStaleKey s.cursor.mark) <;> rfl
  · intro s' h
    simp only [dropStale, Option.bind_eq_bind, Option.bind_eq_some_iff, Option.some.injEq] at h
    obtain ⟨key, hkey, keys, hkeys, rfl⟩ := h
    refine extends_of_append hs [] (by simp) rfl fun key' hk k hkk => .inl ?_
    subst hkk
    rcases List.mem_cons.1 hk with rfl | hk
    · exact List.mem_cons.2 (.inl (eq_some_of_dropStaleKey hkey).symm)
    · obtain ⟨key', hmem, hkey'⟩ := exists_mem_left (mapM_eq_some_iff.1 hkeys) hk
      exact List.mem_cons_of_mem _ (eq_some_of_dropStaleKey hkey' ▸ hmem)

theorem local_arrive : Local arrive := by
  have h := local_skipToToken.bind (local_dropStale.bind
    (local_closeBlocks (fun s => s.cursor.column) fun _ _ => rfl))
  exact h

theorem local_advance : Local advance := by
  have h := local_fetchNext.bind local_dropStale
  exact h

/-- A step of the scanner does not depend on the tokens in front. -/
theorem local_fetch : Local fetch := by
  have h := local_arrive.bind local_advance
  intro r s hs
  rw [fetch_eq, fetch_eq]
  exact h r s hs

/-! ## Runs -/

theorem Hops.extends {r : Nat} {a b : Scanner} (h : Hops a b) (ha : Free r a) : Extends r a b := by
  have hlocal := (local_advance.bind local_arrive) r a ha
  exact hlocal.2 b h.1

/-- A run leaves the tokens in front as they are, and only adds others. -/
theorem Leads.extends {r : Nat} {a c : Scanner} (h : Leads a c) (ha : Free r a) :
    Extends r a c := by
  induction h with
  | refl a =>
    exact extends_of_append ha [] (by simp) rfl fun key hk k hkk => .inl hk
  | step hop _ ih => exact (hop.extends ha).trans (ih (hop.extends ha).free)

/-! ## Handing over -/

/-- The tokens that are handed over are the first ones, up to one that a key may still be put
in front of. -/
theorem exists_settled (s : Scanner) (number : Nat) (tokens : List Token) :
    ∃ j, s.settled number tokens = tokens.take j ∧ j ≤ tokens.length ∧
      ∀ i, i < j → s.isAwaited (number + i) = false := by
  induction tokens generalizing number with
  | nil => exact ⟨0, rfl, Nat.le_refl _, fun i hi => absurd hi (Nat.not_lt_zero i)⟩
  | cons token tokens ih =>
    rw [settled]
    by_cases h : s.isAwaited number = true
    · exact ⟨0, by simp [h], Nat.zero_le _, fun i hi => absurd hi (Nat.not_lt_zero i)⟩
    · obtain ⟨j, htake, hj, hawaited⟩ := ih (number + 1)
      refine ⟨j + 1, by simp [h, htake], by simpa using hj, fun i hi => ?_⟩
      cases i with
      | zero => simpa using h
      | succ i =>
        rw [Nat.add_succ, ← Nat.succ_add]
        exact hawaited i (by omega)

/-- Handing over takes away tokens that nothing can be put in front of. -/
theorem exists_handOver {r : Nat} {s : Scanner} (hs : Free r s) :
    ∃ j, (s.detach r).handOver = ((s.pending.drop r).take j, s.detach (r + j)) ∧
      Free (r + j) s := by
  obtain ⟨j, htake, hj, hawaited⟩ :=
    exists_settled (s.detach r) (s.detach r).taken (s.detach r).pending
  have hlen := hs.length
  have hj' : j ≤ s.pending.length - r := by simpa [detach] using hj
  have hready : ((s.pending.drop r).take j).length = j := by
    rw [List.length_take, List.length_drop]
    omega
  refine ⟨j, ?_, by omega, fun key hkey k hk => ?_⟩
  · rw [handOver, htake]
    simp only [detach, hready, List.drop_drop, Nat.add_assoc]
  · have hk' := hs.keys key hkey k hk
    refine ⟨?_, hk'.2⟩
    -- the number of a key is none of those that were handed over
    by_contra hlt
    have hnot := hawaited (k.number - (s.taken + r)) (by omega)
    have hsum : (s.detach r).taken + (k.number - (s.taken + r)) = k.number := by
      simp only [detach]
      omega
    rw [hsum] at hnot
    have hany := List.any_eq_false.1 hnot key hkey
    simp [hk] at hany

/-- Without possible keys every token is handed over. -/
theorem settled_of_no_key {s : Scanner} (hkey : s.key = none) (houter : s.outerKeys = [])
    (number : Nat) (tokens : List Token) : s.settled number tokens = tokens := by
  induction tokens generalizing number with
  | nil => rfl
  | cons token tokens ih =>
    have hawaited : s.isAwaited number = false := by simp [isAwaited, hkey, houter]
    rw [settled, ih]
    simp [hawaited]

end Scanner

namespace Tokens

open Scanner

/-- A run to the end of the text finds the tokens that it would keep. -/
theorem ofScanner_of_leads {a c f : Scanner} {ys : List Token} {token : Token}
    (hleads : Leads a c) (hend : c.advance = some f) (hf : f.pending = ys ++ [token])
    (htoken : token.kind = .streamEnd) (hys : c.pending.length ≤ ys.length) (hkey : f.key = none)
    (houter : f.outerKeys = []) (hc : ∀ x ∈ c.pending, x.kind ≠ .streamEnd) :
    ∀ (fuel r : Nat) (s : Scanner), s.arrive = some a → Free r s → a.cursor.rest.length < fuel →
      ofScanner fuel (s.detach r) = ⟨f.pending.drop r, true⟩ := by
  induction hleads with
  | refl a =>
    intro fuel r s harrive hs hfuel
    obtain ⟨n, rfl⟩ : ∃ n, fuel = n + 1 := ⟨fuel - 1, by omega⟩
    have hfetch : s.fetch = some f := by rw [fetch_eq, harrive, Option.bind_some, hend]
    obtain ⟨hcomm, hext⟩ := local_fetch r s hs
    have hlen := (local_arrive r s hs).2 a harrive
    have hr : r ≤ ys.length := Nat.le_trans hlen.free.length hys
    have hready : (f.detach r).handOver.1 = f.pending.drop r := by
      have hkey' : (f.detach r).key = none := hkey
      have houter' : (f.detach r).outerKeys = [] := houter
      rw [handOver, settled_of_no_key hkey' houter']
      rfl
    have hlast : (f.pending.drop r).getLast? = some token := by
      rw [hf, List.drop_append_of_le_length hr, List.getLast?_concat]
    rw [ofScanner, hcomm, hfetch]
    simp only [Option.map_some]
    rw [hready, hlast]
    simp [htoken]
  | @step a b c hop hrest ih =>
    intro fuel r s harrive hs hfuel
    obtain ⟨n, rfl⟩ : ∃ n, fuel = n + 1 := ⟨fuel - 1, by omega⟩
    obtain ⟨s₁, hadvance, harrive₁⟩ := Option.bind_eq_some_iff.1 hop.1
    have hfetch : s.fetch = some s₁ := by rw [fetch_eq, harrive, Option.bind_some, hadvance]
    obtain ⟨hcomm, hext⟩ := local_fetch r s hs
    have hs₁ := hext s₁ hfetch
    obtain ⟨j, hhand, hfree⟩ := exists_handOver hs₁.free
    -- what is handed over stays as it is, and is not the end of the text
    have hb := (local_arrive (r + j) s₁ hfree).2 b harrive₁
    have hbc := hb.trans (hrest.extends hb.free)
    have hbf := hbc.trans ((local_advance (r + j) c hbc.free).2 f hend)
    have hlast :
        (((s₁.pending.drop r).take j).getLast?.any fun x => x.kind = .streamEnd) = false := by
      cases hlast : ((s₁.pending.drop r).take j).getLast? with
      | none => rfl
      | some x =>
        have hmem : x ∈ s₁.pending :=
          List.mem_of_mem_drop (List.mem_of_mem_take (List.mem_of_getLast? hlast))
        have hne := hc x (hbc.sublist.subset hmem)
        simpa using hne
    have hrun := ih hend hys hc n (r + j) s₁ harrive₁ hfree (by have := hop.2; omega)
    have hfront : (s₁.pending.drop r).take j ++ f.pending.drop (r + j) = f.pending.drop r := by
      have htake : (f.pending.drop r).take j = (s₁.pending.drop r).take j := by
        have h := congrArg (List.drop r) hbf.front
        rwa [List.drop_take, List.drop_take, Nat.add_sub_cancel_left] at h
      rw [← htake, ← List.drop_drop, List.take_append_drop]
    rw [ofScanner, hcomm, hfetch]
    simp only [Option.map_some, hhand, hlast, Bool.false_eq_true, if_false]
    rw [hrun, prepend]
    simp only [hfront]

end Tokens

end LockPrune.Yaml
