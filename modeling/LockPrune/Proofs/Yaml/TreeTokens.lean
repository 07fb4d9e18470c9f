import LockPrune.Proofs.Yaml.NodeTokens

/-!
# The tokens of a tree

The scanner finds the tokens of a tree in the text that the tree is spelled as, in either
kind of quotes.  The proof is by induction on the tree; what an item or an entry is followed
by is either the next one, at the same column, or what follows the collection, to its left.

## Main definitions

* `Tree.ReadsNode`, `Tree.ReadsItems`, `Tree.ReadsEntries` — what is shown of nodes, of the
  items of a sequence and of the entries of a mapping.

## Main statements

* `Tree.readsNode`, `Tree.readsEntries` — the tokens of a sound tree are found.
-/

namespace LockPrune.Yaml

open Scalar Scanner

namespace Tree

/-! ## Beginnings -/

/-- A scalar begins a token. -/
theorem starts_write {st : Style} {s : List Char} (q : Quoting) (h : Fits st s) (indent : Nat)
    (t : List Char) : Starts (q.write st indent s ++ t) := by
  cases h with
  | plain h hne => cases q <;> exact starts_of_plainAdmitted h hne
  | single => cases q <;> rfl
  | double => cases q <;> rfl
  | literal => cases q <;> rfl

theorem write_ne_nil {st : Style} {s : List Char} (q : Quoting) (h : Fits st s) (indent : Nat) :
    q.write st indent s ≠ [] := by
  cases h with
  | plain h hne => cases q <;> exact hne
  | single => cases q <;> exact List.cons_ne_nil _ _
  | double => cases q <;> exact List.cons_ne_nil _ _
  | literal => cases q <;> exact List.cons_ne_nil _ _

/-- A tag in front of what begins a token begins one. -/
theorem starts_withTag {s t : List Char} (hs : Starts (s ++ t)) (tag : Option String) :
    Starts (withTag tag s ++ t) := by
  cases tag with
  | none => exact hs
  | some x =>
    obtain ⟨y, hy⟩ := exists_tagText x
    rw [withTag, hy]
    rfl

theorem withTag_ne_nil {s : List Char} (hs : s ≠ []) (tag : Option String) :
    withTag tag s ≠ [] := by
  cases tag with
  | none => exact hs
  | some x =>
    obtain ⟨y, hy⟩ := exists_tagText x
    rw [withTag, hy]
    simp

/-- Behind a mark no word goes on. -/
theorem atStop_spaced (s t : List Char) : atStop (closeLine (spaced s) ++ t) = true := by
  rw [spaced]
  split
  · rfl
  · rw [closeLine_cons (by decide)]
    rfl

/-- What stands in front of the lines of a collection does not depend on them. -/
theorem exists_place (after : Behind) (tag : Option String) (inner : Nat) :
    ∃ pre, ∀ s, place after tag inner s = pre ++ s := by
  cases tag with
  | none =>
    cases after with
    | key => exact ⟨'\n' :: spaces inner, fun s => rfl⟩
    | dash => exact ⟨[' '], fun s => rfl⟩
    | mark => exact ⟨[' '], fun s => rfl⟩
  | some x =>
    refine ⟨' ' :: tagText x ++ '\n' :: spaces inner, fun s => ?_⟩
    cases after <;> simp [place]

theorem closeLine_place {s : List Char} (hs : s ≠ []) (after : Behind) (tag : Option String)
    (inner : Nat) (t : List Char) :
    closeLine (place after tag inner s) ++ t = place after tag inner (closeLine s ++ t) := by
  obtain ⟨pre, hpre⟩ := exists_place after tag inner
  rw [hpre, hpre, closeLine_append hs, List.append_assoc]

theorem atStop_spell (q : Quoting) (after : Behind) (p : Nat) (t : Tree) (u : List Char) :
    atStop (closeLine (spell q after p t) ++ u) = true := by
  have hplace : ∀ tag inner (s : List Char), atStop (closeLine (place after tag inner s) ++ u) =
      true := by
    intro tag inner s
    cases tag with
    | none => cases after <;> (rw [closeLine_eq]; rfl)
    | some x => cases after <;> (rw [closeLine_eq]; rfl)
  have hparts : ∀ tag inner brackets parts,
      atStop (closeLine (spellParts after tag inner brackets parts) ++ u) = true := by
    intro tag inner brackets parts
    rw [spellParts]
    split
    · exact atStop_spaced _ u
    · exact hplace _ _ _
  cases t with
  | scalar tag style text =>
    rw [spell]
    exact atStop_spaced _ u
  | sequence tag items =>
    rw [spell]
    exact hparts _ _ _ _
  | mapping tag entries =>
    rw [spell]
    exact hparts _ _ _ _

/-! ## Keys -/

/-- The tokens of a key in front of its colon. -/
theorem endsKey_spellKey {b n : Nat} {i : Int} {is : List Int} {t : List Char} (q : Quoting)
    {k : Tree} (hk : k.isSimpleKey = true) (hsound : k.IsSound) (ht : atStop t = true)
    (hb : (spellKey q k).length ≤ b) :
    EndsKey b n i is t (spellKey q k) (keyKinds q k) := by
  match k, hk with
  | .scalar tag style text, hk =>
    have hfits := IsSoundScalar.fits hsound true
    have hbreak : ∀ a ∈ text.toList, isBreak a = false := by
      simp only [isSimpleKey, Bool.and_eq_true, Bool.not_eq_true'] at hk
      intro a ha
      simpa using List.any_eq_false.1 hk.1 a ha
    refine EndsKey.tagged (endsKey_scalar (q.behind tag) hfits hbreak (admitted_key style _) ht ?_)
      (write_ne_nil (q.behind tag) hfits 0) (starts_write (q.behind tag) hfits 0 _) hsound.tag hb
    refine Nat.le_trans ?_ hb
    cases tag with
    | none => exact Nat.le_refl _
    | some x =>
      simp only [spellKey, spellScalar, withTag]
      split
      · rename_i hempty
        rw [List.isEmpty_iff] at hempty
        simp [hempty]
      · simp only [List.length_append, List.length_cons]
        omega
  | .sequence tag [], _ =>
    exact EndsKey.tagged (endsKey_brackets .square) (List.cons_ne_nil _ _) rfl hsound.1 hb
  | .mapping tag [], _ =>
    exact EndsKey.tagged (endsKey_brackets .curly) (List.cons_ne_nil _ _) rfl hsound.1 hb

/-! ## Places -/

/-- The lines of a collection are gone to behind its mark, over its tag. -/
theorem reaches_place {b p inner : Nat} (n : Nat) (is : List Int) (ps : List Token)
    {x : List Char} {m : Mark} (after : Behind) {tag : Option String}
    (htag : HasSoundTag tag) (hx : Starts x)
    (hm : p ≤ m.column) (hmark : after ≠ .key → m.column = p + 1)
    (hinner : inner = p + 2 ∨ (inner = p ∧ (after = .key ∨ tag.isSome = true)))
    (hb : (place after tag inner x).length ≤ b) :
    ∃ toks m', toks.map Token.kind = tagKinds tag ∧ m'.column = inner ∧ ∀ C,
      Leads ⟨b, ⟨x, m'⟩, p, is, true, none, [], ps ++ toks, n⟩ C →
      Reaches ⟨b, ⟨place after tag inner x, m⟩, p, is, decide (after ≠ .key), none, [], ps, n⟩
        C := by
  have hle : p ≤ inner := by omega
  cases tag with
  | none =>
    by_cases hkey : after = .key
    · -- on the next line
      subst hkey
      have hcolumn : (m.past (['\n'] ++ spaces inner)).column = inner :=
        Mark.column_past_line rfl m inner
      refine ⟨[], m.past (['\n'] ++ spaces inner), rfl, hcolumn, fun C hC => ⟨_, ?_, hC⟩⟩
      rw [List.append_nil, ← landed_of_le (b := b) (n := n) (t := x)
        (by rw [hcolumn]; exact_mod_cast hle)]
      have hpos : 0 < b := by
        simp only [place, List.length_cons, List.length_append, List.cons_append] at hb
        omega
      exact arrive_line (g := ['\n']) hx (by simp) hpos rfl (passed_none _) rfl
    · -- on the same line
      have hplace : place after none inner x = spaces 1 ++ x := by
        cases after with
        | key => exact absurd rfl hkey
        | dash => rfl
        | mark => rfl
      have hcolumn : (m.along (spaces 1)).column = inner := by
        have h := hmark hkey
        simp only [Option.isSome_none, Bool.false_eq_true, or_false, hkey, and_false] at hinner
        simp only [Mark.column_along, length_spaces]
        omega
      refine ⟨[], m.along (spaces 1), rfl, hcolumn, fun C hC => ⟨_, ?_, hC⟩⟩
      rw [hplace, List.append_nil, decide_eq_true hkey]
      exact arrive_inline (k := 1) hx (by omega) rfl
  | some t =>
    have hplace : place after (some t) inner x =
        spaces 1 ++ (tagText t ++ '\n' :: (spaces inner ++ x)) := by
      cases after <;> simp [place, spaces]
    have hstarts : Starts (tagText t ++ '\n' :: (spaces inner ++ x)) := by
      obtain ⟨y, hy⟩ := exists_tagText t
      rw [hy]
      rfl
    rw [hplace] at hb ⊢
    simp only [List.length_append, List.length_cons] at hb
    obtain ⟨tok, m', hkind, hcolumn, hleads⟩ := leads_tag_line (b := b) (n := n) (i := p) is
      (m := m.along (spaces 1)) (htag t rfl) hx
      (fun _ => rfl : decide (after ≠ .key) = true → none = none) (passed_none _)
      (fun _ => by simp only [Mark.column_along, length_spaces]; omega)
      (by exact_mod_cast hle) (by omega) (by omega)
    exact ⟨[tok], m', by simp [tagKinds, hkind], hcolumn, fun C hC =>
      ⟨_, arrive_inline (k := 1) hstarts (by omega) rfl, hleads C hC⟩⟩

/-! ## The induction -/

/-- The tokens of a node are found behind a mark, up to the next token to the left. -/
def ReadsNode (q : Quoting) (t : Tree) : Prop :=
  ∀ (after : Behind) (b n p c : Nat) (is : List Int) (ps : List Token) (g next : List Char)
    (m : Mark), p ≤ m.column → (after ≠ .key → m.column = p + 1) → (∀ a ∈ g, a = '\n') →
    (g = [] ∨ endsBlank (spell q after p t) = false) → c ≤ p → Starts next →
    (closeLine (spell q after p t) ++ (g ++ (spaces c ++ next))).length ≤ b →
    ∃ toks m', toks.map Token.kind = kinds q after t ∧ m'.column = c ∧
      Reaches ⟨b, ⟨closeLine (spell q after p t) ++ (g ++ (spaces c ++ next)), m⟩, p, is,
        decide (after ≠ .key), none, [], ps, n⟩ (landed b next m' p is (ps ++ toks) n)

/-- The tokens of lines that begin at a column are found, where a block of the given kind is
open or is opened there. -/
def ReadsLines (block : Token.Kind) (lines : Nat → List (List Char)) (ks : List Token.Kind) :
    Prop :=
  ∀ (b n inner c : Nat) (i : Int) (is is' : List Int) (os ps : List Token) (g next : List Char)
    (m : Mark), m.column = inner → Opens block m i is is' os → (∀ a ∈ g, a = '\n') →
    (g = [] ∨ endsBlank (stack inner (lines inner)) = false) → c ≤ inner → Starts next →
    (closeLine (stack inner (lines inner)) ++ (g ++ (spaces c ++ next))).length ≤ b →
    ∃ toks m', toks.map Token.kind = ks ∧ m'.column = c ∧
      Leads ⟨b, ⟨closeLine (stack inner (lines inner)) ++ (g ++ (spaces c ++ next)), m⟩, i, is,
        true, none, [], ps, n⟩ (landed b next m' inner is' (ps ++ os ++ toks) n)

/-- The tokens of the items of a sequence are found. -/
def ReadsItems (q : Quoting) (items : List Tree) : Prop :=
  items ≠ [] →
    ReadsLines .blockSequenceStart (fun inner => spellItems q inner items) (itemKinds q items)

/-- The tokens of the entries of a mapping are found. -/
def ReadsEntries (q : Quoting) (entries : List (Tree × Tree)) : Prop :=
  entries ≠ [] →
    ReadsLines .blockMappingStart (fun inner => spellEntries q inner entries)
      (entryKinds q entries)

/-! ## Lines -/

/-- The lines of a collection begin a token if the first of them does. -/
theorem starts_stack {y : List Char} (hy : ∀ v, Starts (y ++ v)) (inner : Nat)
    (ys : List (List Char)) (u : List Char) :
    Starts (closeLine (stack inner (y :: ys)) ++ u) := by
  cases ys with
  | nil =>
    rw [stack, closeLine_eq, List.append_assoc]
    exact hy _
  | cons z zs =>
    rw [stack_cons (List.cons_ne_nil z zs), closeLine_eq, closeLine_eq y]
    simp only [List.append_assoc]
    exact hy _

/-- What is shown of single lines holds of more of them. -/
theorem readsLines_cons {block : Token.Kind} {x : Nat → List Char}
    {xs : Nat → List (List Char)} {ks ks' : List Token.Kind}
    (hx : ReadsLines block (fun inner => [x inner]) ks) (hxs : ReadsLines block xs ks')
    (hne : ∀ inner, xs inner ≠ [])
    (hstarts : ∀ inner, ∀ y ∈ xs inner, y ≠ [] ∧ ∀ v, Starts (y ++ v)) :
    ReadsLines block (fun inner => x inner :: xs inner) (ks ++ ks') := by
  intro b n inner c i is is' os ps g next m hm hopen hg hblank hc hnext hb
  simp only at hblank hb ⊢
  have htext := closeLine_stack_cons inner (x inner) (hne inner)
    fun r hr => (hstarts inner r hr).1
  have hfirst : Starts (closeLine (stack inner (xs inner)) ++ (g ++ (spaces c ++ next))) := by
    have hmem := hstarts inner
    match xs inner, hne inner, hmem with
    | y :: ys, _, hmem => exact starts_stack (hmem y List.mem_cons_self).2 inner ys _
  have hblank' : g = [] ∨ endsBlank (stack inner (xs inner)) = false := by
    rw [stack_cons (hne inner)] at hblank
    exact hblank.imp_right endsBlank_of_append
  rw [htext, List.append_assoc, List.append_assoc] at hb ⊢
  -- the first line, up to the second
  obtain ⟨toks, m', hkinds, hm', hleads⟩ := hx b n inner inner i is is' os ps []
    (closeLine (stack inner (xs inner)) ++ (g ++ (spaces c ++ next))) m hm hopen (by simp)
      (.inl rfl)
    (Nat.le_refl inner) hfirst hb
  rw [landed_of_le (by rw [hm'])] at hleads
  -- the further lines, in the block that is open
  have halready : Opens block m' inner is' is' [] := hm' ▸ Opens.already is'
  obtain ⟨toks', m'', hkinds', hm'', hleads'⟩ := hxs b n inner c inner is' is' []
    (ps ++ os ++ toks) g next m' hm' halready hg hblank' hc hnext
    (by simp only [List.length_append] at hb ⊢; omega)
  refine ⟨toks ++ toks', m'', by rw [List.map_append, hkinds, hkinds'], hm'', ?_⟩
  have hrun := hleads.trans hleads'
  simpa [stack] using hrun

/-- An item of a sequence. -/
theorem readsLines_item {q : Quoting} {item : Tree} (h : ReadsNode q item) :
    ReadsLines .blockSequenceStart (fun inner => ['-' :: spell q .dash inner item])
      (.blockEntry :: kinds q .dash item) := by
  intro b n inner c i is is' os ps g next m hm hopen hg hblank hc hnext hb
  simp only [stack] at hblank hb ⊢
  rw [closeLine_cons (by decide), List.cons_append] at hb ⊢
  have hblank' : g = [] ∨ endsBlank (spell q .dash inner item) = false :=
    hblank.imp_right (endsBlank_of_append (s := ['-']))
  subst hm
  obtain ⟨toks, m', hkinds, hm', hreach⟩ := h .dash b n m.column c is'
    (ps ++ os ++ [⟨.blockEntry, m, m.along ['-']⟩]) g next (m.along ['-']) (by simp) (by simp) hg
    hblank' hc hnext (by simp only [List.length_cons] at hb; omega)
  refine ⟨⟨.blockEntry, m, m.along ['-']⟩ :: toks, m', by simp [hkinds], hm', ?_⟩
  refine Leads.of_advance (by simp) (advance_dash hopen (atStop_spell q .dash _ item _)) ?_
  simpa using hreach

/-- An entry of a mapping whose key stands in front of its colon. -/
theorem readsLines_simple {q : Quoting} {k v : Tree} (hk : k.isSimpleKey = true)
    (hsound : k.IsSound) (hv : ReadsNode q v) :
    ReadsLines .blockMappingStart (fun inner => [spellKey q k ++ ':' :: spell q .key inner v])
      (.key :: keyKinds q k ++ .value :: kinds q .key v) := by
  intro b n inner c i is is' os ps g next m hm hopen hg hblank hc hnext hb
  simp only [stack] at hblank hb ⊢
  rw [closeLine_append (List.cons_ne_nil _ _), closeLine_cons (by decide), List.append_assoc,
    List.cons_append] at hb ⊢
  have hblank' : g = [] ∨ endsBlank (spell q .key inner v) = false :=
    hblank.imp_right fun h => endsBlank_of_append (s := [':']) (endsBlank_of_append h)
  have hstop := atStop_spell q .key inner v (g ++ (spaces c ++ next))
  simp only [List.length_append, List.length_cons] at hb
  subst hm
  have hi : i ≤ m.column := by
    cases hopen with
    | already => exact Int.le_refl _
    | fresh _ _ h => exact Int.le_of_lt h
  obtain ⟨-, hoctets⟩ := spellKey_line q hk
  -- the key, up to its colon
  obtain ⟨toks, hkinds, hleads⟩ := endsKey_spellKey (b := b) (n := n) (i := i) q hk hsound hstop
    (by omega) m true none ps ⟨n + ps.length, i = m.column, m⟩ hi (fun _ => rfl) rfl rfl
    (Nat.add_le_add_left hoctets _)
  -- behind the colon the value
  obtain ⟨toks', m', hkinds', hm', hreach⟩ := hv .key b n m.column c is'
    (ps ++ os ++ [⟨.key, m, m⟩] ++ toks ++
      [⟨.value, m.along (spellKey q k), (m.along (spellKey q k)).along [':']⟩]) g next
    ((m.along (spellKey q k)).along [':'])
    (by simp only [Mark.column_along]; omega) (fun h => absurd rfl h) hg hblank' hc hnext
    (by simp only [List.length_append]; omega)
  refine ⟨⟨.key, m, m⟩ :: toks ++
    ⟨.value, m.along (spellKey q k), (m.along (spellKey q k)).along [':']⟩ :: toks', m',
    by simp [hkinds, hkinds'], hm', ?_⟩
  refine hleads _ (Leads.of_advance (by simp) (advance_colon_key hopen rfl hstop) ?_)
  simpa using hreach

/-- An entry of a mapping whose key is written out.  A gap may stand behind the key. -/
theorem readsLines_writtenOut {q : Quoting} {gap : List Char} {k v : Tree} (hk : ReadsNode q k)
    (hv : ReadsNode q v) (hgap : ∀ a ∈ gap, a = '\n')
    (hallows : gap = [] ∨ ∀ inner, endsBlank (spell q .mark inner k) = false) :
    ReadsLines .blockMappingStart (fun inner => [closeLine ('?' :: spell q .mark inner k) ++
      gap ++ spaces inner ++ ':' :: spell q .mark inner v])
      (.key :: kinds q .mark k ++ .value :: kinds q .mark v) := by
  intro b n inner c i is is' os ps g next m hm hopen hg hblank hc hnext hb
  simp only [stack] at hblank hb ⊢
  rw [closeLine_append (List.cons_ne_nil _ _), closeLine_cons (by decide),
    closeLine_cons (by decide)] at hb ⊢
  simp only [List.append_assoc, List.cons_append] at hb ⊢
  have hblank' : g = [] ∨ endsBlank (spell q .mark inner v) = false :=
    hblank.imp_right fun h => endsBlank_of_append (s := [':']) (endsBlank_of_append h)
  have hstop := atStop_spell q .mark inner v (g ++ (spaces c ++ next))
  have hstop' := atStop_spell q .mark inner k
    (gap ++ (spaces inner ++
      ':' :: (closeLine (spell q .mark inner v) ++ (g ++ (spaces c ++ next)))))
  subst hm
  -- the key, up to the colon on the line behind it
  obtain ⟨toks, m', hkinds, hm', hreach⟩ := hk .mark b n m.column m.column is'
    (ps ++ os ++ [⟨.key, m, m.along ['?']⟩]) gap
    (':' :: (closeLine (spell q .mark m.column v) ++ (g ++ (spaces c ++ next)))) (m.along ['?'])
    (by simp) (by simp) hgap (hallows.imp_right fun h => h _) (Nat.le_refl _) rfl
    (by simp only [List.length_cons] at hb; omega)
  rw [landed_of_le (by rw [hm'])] at hreach
  -- behind the colon the value
  obtain ⟨toks', m'', hkinds', hm'', hreach'⟩ := hv .mark b n m.column c is'
    (ps ++ os ++ [⟨.key, m, m.along ['?']⟩] ++ toks ++ [⟨.value, m', m'.along [':']⟩]) g next
    (m'.along [':']) (by simp [hm']) (by simp [hm']) hg hblank' hc hnext
    (by simp only [List.length_append, List.length_cons] at hb ⊢; omega)
  refine ⟨⟨.key, m, m.along ['?']⟩ :: toks ++ ⟨.value, m', m'.along [':']⟩ :: toks', m'',
    by simp [hkinds, hkinds'], hm'', ?_⟩
  refine Leads.of_advance (by simp) (advance_query hopen hstop') (Reaches.trans hreach ?_)
  refine Leads.of_advance (by simp) (advance_colon (by rw [hm']) hstop) ?_
  simpa using hreach'

/-- The gap behind a key that is written out ends no block. -/
def KeyAllowsGap (q : Quoting) (gap : List Char) (k : Tree) : Prop :=
  gap = [] ∨ (k.isSimpleKey = false → ∀ inner, endsBlank (spell q .mark inner k) = false)

/-- An entry of a mapping. -/
theorem readsLines_entry {q : Quoting} {gap : List Char} {k v : Tree} (hsound : k.IsSound)
    (hk : ReadsNode q k) (hv : ReadsNode q v) (hgap : ∀ a ∈ gap, a = '\n')
    (hallows : KeyAllowsGap q gap k) :
    ReadsLines .blockMappingStart
      (fun inner =>
        [spellEntry q gap k inner (spell q .mark inner k) (spell q (keyMark k) inner v)])
      (.key :: (if k.isSimpleKey then keyKinds q k else kinds q .mark k) ++
        .value :: kinds q (keyMark k) v) := by
  by_cases hsimple : k.isSimpleKey = true
  · simp only [spellEntry, keyMark, hsimple, if_true]
    exact readsLines_simple hsimple hsound hv
  · simp only [spellEntry, keyMark, hsimple, Bool.false_eq_true, if_false]
    exact readsLines_writtenOut hk hv hgap (hallows.imp_right fun h => h (by simpa using hsimple))

/-! ## Nodes -/

/-- A scalar behind a mark. -/
theorem readsNode_scalar (q : Quoting) {tag : Option String} {style : Style} {text : String}
    (h : IsSoundScalar tag style text) : ReadsNode q (.scalar tag style text) := by
  intro after b n p c is ps g next m hm hmark hg hblank hc hnext hb
  have hfits := h.fits false
  have hne := write_ne_nil (q.behind tag) hfits (p + 2)
  have htagged := withTag_ne_nil hne tag
  have hstarts := starts_write (q.behind tag) hfits (p + 2)
  have hends := fun hblank hb => endsLine_scalar (b := b) (n := n) (p := p) (c := c) is
    (q.behind tag) hfits hg hblank hc hnext hb
  simp only [spell, spellScalar] at hblank hb ⊢
  generalize (q.behind tag).write (admitted style false text.toList) (p + 2) text.toList = written
    at hne htagged hstarts hends hblank hb ⊢
  -- in front of the scalar stand a blank and perhaps a tag
  have hspaced : spaced (withTag tag written) = [' '] ++ withTag tag written := by
    rw [spaced, if_neg (by simpa using htagged)]
    rfl
  obtain ⟨pre, hpre⟩ : ∃ pre, withTag tag written = pre ++ written := by
    cases tag with
    | none => exact ⟨[], rfl⟩
    | some x =>
      refine ⟨tagText x ++ [' '], ?_⟩
      simp only [withTag]
      rw [if_neg (by simpa using hne)]
      simp
  have hblank' : g = [] ∨ endsBlank written = false := by
    rw [hspaced, hpre] at hblank
    exact hblank.imp_right fun hend => endsBlank_of_append (endsBlank_of_append hend)
  rw [hspaced, closeLine_append htagged] at hb
  have hlen := hb
  rw [hpre, closeLine_append hne] at hlen
  simp only [List.length_append] at hlen
  have hline := hends hblank' (by simp only [List.length_append]; omega)
  have hstarts₁ : Starts (closeLine written ++ (g ++ (spaces c ++ next))) := by
    rw [closeLine_eq, List.append_assoc]
    exact hstarts _
  have htag := hline.tagged hne hstarts₁ h.tag
    (by simp only [List.length_append] at hb ⊢; omega)
  have hstarts₂ : Starts (closeLine (withTag tag written) ++ (g ++ (spaces c ++ next))) := by
    rw [closeLine_eq, List.append_assoc]
    exact starts_withTag (hstarts _) tag
  exact htag.reaches htagged hstarts₂ hm _ ps

/-- A collection without parts is a pair of brackets. -/
theorem reaches_brackets {b n p c : Nat} (is : List Int) (ps : List Token) {al : Bool}
    {g next : List Char} {m : Mark} {tag : Option String} {o d : Char}
    {opening closing : Token.Kind} (hbrackets : Brackets o d opening closing)
    (htag : HasSoundTag tag) (hm : p ≤ m.column) (hg : ∀ a ∈ g, a = '\n') (hnext : Starts next)
    (hb : (closeLine (spaced (withTag tag [o, d])) ++ (g ++ (spaces c ++ next))).length ≤ b) :
    ∃ toks m', toks.map Token.kind = tagKinds tag ++ [opening, closing] ∧ m'.column = c ∧
      Reaches ⟨b, ⟨closeLine (spaced (withTag tag [o, d])) ++ (g ++ (spaces c ++ next)), m⟩, p, is,
        al, none, [], ps, n⟩ (landed b next m' p is (ps ++ toks) n) := by
  have hne : withTag tag [o, d] ≠ [] := withTag_ne_nil (List.cons_ne_nil _ _) tag
  have hend : ∀ u, Starts (o :: u) := by
    intro u
    cases hbrackets <;> rfl
  have hspaced : spaced (withTag tag [o, d]) = [' '] ++ withTag tag [o, d] := by
    rw [spaced, if_neg (by simpa using hne)]
    rfl
  rw [hspaced, closeLine_append hne] at hb
  simp only [List.length_append] at hb
  have hpos : 0 < (closeLine (withTag tag [o, d])).length := by
    rw [closeLine_eq, List.length_append]
    have := List.length_pos_iff.2 hne
    omega
  have hends := endsLine_brackets (b := b) (n := n) (p := p) (c := c) is hbrackets hg hnext
    (by simp only [List.length_append]; omega)
  have hstarts : Starts (closeLine [o, d] ++ (g ++ (spaces c ++ next))) := by
    rw [closeLine_eq]
    exact hend _
  have hstarts' : Starts (closeLine (withTag tag [o, d]) ++ (g ++ (spaces c ++ next))) := by
    rw [closeLine_eq, List.append_assoc]
    exact starts_withTag (hend _) tag
  have htagged := hends.tagged (List.cons_ne_nil _ _) hstarts htag
    (by simp only [List.length_append]; omega)
  exact htagged.reaches hne hstarts' hm _ ps

/-- A collection behind a mark. -/
theorem reaches_parts {b n p c inner : Nat} {is : List Int} {ps : List Token}
    {g next : List Char} {m : Mark} {after : Behind} {tag : Option String} {o d : Char}
    {block opening closing : Token.Kind} {indentless : Bool} (parts : Nat → List (List Char))
    {ks : List Token.Kind} (hbrackets : Brackets o d opening closing) (htag : HasSoundTag tag)
    (hinner : (inner = p + 2 ∧ indentless = false) ∨
      (inner = p ∧ indentless = true ∧ (after = .key ∨ tag.isSome = true)))
    (hempty : parts inner = [] ↔ ks = []) (hlines : parts inner ≠ [] → ReadsLines block parts ks)
    (hstarts : ∀ y ∈ parts inner, y ≠ [] ∧ ∀ v, Starts (y ++ v))
    (hm : p ≤ m.column) (hmark : after ≠ .key → m.column = p + 1) (hg : ∀ a ∈ g, a = '\n')
    (hblank : g = [] ∨ endsBlank (spellParts after tag inner [o, d] (parts inner)) = false)
    (hc : c ≤ p) (hnext : Starts next)
    (hb : (closeLine (spellParts after tag inner [o, d] (parts inner)) ++
      (g ++ (spaces c ++ next))).length ≤ b) :
    ∃ toks m', toks.map Token.kind = tagKinds tag ++ partKinds indentless block opening closing ks ∧
      m'.column = c ∧
      Reaches ⟨b, ⟨closeLine (spellParts after tag inner [o, d] (parts inner)) ++
        (g ++ (spaces c ++ next)), m⟩, p, is, decide (after ≠ .key), none, [], ps, n⟩
        (landed b next m' p is (ps ++ toks) n) := by
  by_cases hparts : parts inner = []
  · -- nothing between brackets
    have hks : ks = [] := hempty.1 hparts
    subst hks
    simp only [hparts, spellParts, List.isEmpty_nil, if_true] at hb ⊢
    exact reaches_brackets is ps hbrackets htag hm hg hnext hb
  · -- lines at the column `inner`
    have hks : ks ≠ [] := fun h => hparts (hempty.2 h)
    have hks' : ks.isEmpty = false := by simpa using hks
    have hparts' : (parts inner).isEmpty = false := by simpa using hparts
    simp only [spellParts, hparts', Bool.false_eq_true, if_false] at hblank hb ⊢
    have hstack : stack inner (parts inner) ≠ [] ∧
        ∀ u, Starts (closeLine (stack inner (parts inner)) ++ u) := by
      obtain ⟨y, ys, hys⟩ := List.exists_cons_of_ne_nil hparts
      have hy := hstarts y (by rw [hys]; exact List.mem_cons_self)
      rw [hys]
      refine ⟨?_, starts_stack hy.2 inner ys⟩
      cases ys with
      | nil => exact hy.1
      | cons z zs => simp [stack, closeLine_eq, hy.1]
    obtain ⟨pre, hpre⟩ := exists_place after tag inner
    have hblank' : g = [] ∨ endsBlank (stack inner (parts inner)) = false := by
      rw [hpre] at hblank
      exact hblank.imp_right endsBlank_of_append
    rw [closeLine_place hstack.1] at hb ⊢
    obtain ⟨toks, m', hkinds, hcolumn, hplace⟩ := reaches_place (b := b) n is ps after
      htag (hstack.2 (g ++ (spaces c ++ next))) hm hmark
      (hinner.imp And.left fun h => ⟨h.1, h.2.2⟩) hb
    have hlen :
        (closeLine (stack inner (parts inner)) ++ (g ++ (spaces c ++ next))).length ≤ b := by
      rw [hpre, List.length_append] at hb
      omega
    rcases hinner with ⟨rfl, rfl⟩ | ⟨rfl, rfl, -⟩
    · -- the collection opens a block of its own, which ends behind it
      have hopen : Opens block m' p is (p :: is) [⟨block, m', m'⟩] :=
        .fresh p is (by rw [hcolumn]; omega)
      obtain ⟨toks', m'', hkinds', hm'', hleads⟩ := hlines hparts b n (p + 2) c p is (p :: is)
        [⟨block, m', m'⟩] (ps ++ toks) g next m' hcolumn hopen hg hblank' (by omega) hnext hlen
      rw [landed_inside (by rw [hm'']; omega)] at hleads
      refine ⟨toks ++ ⟨block, m', m'⟩ :: toks' ++ [⟨.blockEnd, m'', m''⟩], m'', ?_, hm'', ?_⟩
      · simp [partKinds, hks', hkinds, hkinds']
      · have hrun := hplace _ hleads
        simpa using hrun
    · -- the lines stand as far to the left as what they belong to
      have hopen : Opens block m' inner is is [] := hcolumn ▸ .already is
      obtain ⟨toks', m'', hkinds', hm'', hleads⟩ := hlines hparts b n inner c inner is is []
        (ps ++ toks) g next m' hcolumn hopen hg hblank' (by omega) hnext hlen
      refine ⟨toks ++ toks', m'', ?_, hm'', ?_⟩
      · simp [partKinds, hks', hkinds, hkinds']
      · have hrun := hplace _ hleads
        simpa using hrun

/-- The items of a sequence are lines that begin tokens. -/
theorem starts_spellItems (q : Quoting) (inner : Nat) (items : List Tree) :
    ∀ y ∈ spellItems q inner items, y ≠ [] ∧ ∀ v, Starts (y ++ v) := by
  induction items with
  | nil => simp [spellItems]
  | cons item items ih =>
    intro y hy
    rcases List.mem_cons.1 hy with rfl | hy
    · exact ⟨List.cons_ne_nil _ _, fun v => rfl⟩
    · exact ih y hy

/-- An entry of a mapping begins a token. -/
theorem starts_spellEntry (q : Quoting) (gap : List Char) {k : Tree} (h : k.IsSound) (inner : Nat)
    (x y : List Char) : spellEntry q gap k inner x y ≠ [] ∧
      ∀ v, Starts (spellEntry q gap k inner x y ++ v) := by
  rw [spellEntry]
  split
  · rename_i hk
    refine ⟨by simp, fun u => ?_⟩
    rw [List.append_assoc]
    cases k with
    | scalar tag style text =>
      exact starts_withTag (starts_write (q.behind tag) (IsSoundScalar.fits h true) 0 _) tag
    | sequence tag items =>
      cases items with
      | nil => exact starts_withTag (s := ['[', ']']) rfl tag
      | cons => cases hk
    | mapping tag entries =>
      cases entries with
      | nil => exact starts_withTag (s := ['\x7b', '\x7d']) rfl tag
      | cons => cases hk
  · refine ⟨by simp, fun u => ?_⟩
    rw [closeLine_cons (by decide)]
    rfl

/-- The entries of a mapping are lines that begin tokens. -/
theorem starts_spellEntries (q : Quoting) (inner : Nat) {entries : List (Tree × Tree)}
    (h : EntriesSound entries) :
    ∀ y ∈ spellEntries q inner entries, y ≠ [] ∧ ∀ v, Starts (y ++ v) := by
  induction entries with
  | nil => simp [spellEntries]
  | cons entry entries ih =>
    obtain ⟨k, v⟩ := entry
    intro y hy
    rcases List.mem_cons.1 hy with rfl | hy
    · exact starts_spellEntry q [] h.1 inner _ _
    · exact ih h.2.2 y hy

mutual

/-- The tokens of a sound tree are found behind a mark. -/
theorem readsNode (q : Quoting) (t : Tree) (h : t.IsSound) : ReadsNode q t := by
  match t, h with
  | .scalar tag style text, h => exact readsNode_scalar q h
  | .sequence tag items, h =>
    have hitems := readsItems q items h.2
    intro after b n p c is ps g next m hm hmark hg hblank hc hnext hb
    simp only [spell] at hblank hb ⊢
    refine reaches_parts (fun inner => spellItems q inner items) .square h.1 ?_ ?_ ?_
      (starts_spellItems q _ items) hm hmark hg hblank hc hnext hb
    · rw [itemIndent_eq]
      cases after <;> cases tag <;> simp [isIndentless]
    · cases items <;> simp [spellItems, itemKinds]
    · intro hne
      refine hitems ?_
      rintro rfl
      exact hne rfl
  | .mapping tag entries, h =>
    have hentries := readsEntries q entries h.2
    intro after b n p c is ps g next m hm hmark hg hblank hc hnext hb
    simp only [spell] at hblank hb ⊢
    refine reaches_parts (fun inner => spellEntries q inner entries) .curly h.1
      (.inl ⟨rfl, rfl⟩) ?_ ?_ (starts_spellEntries q _ h.2) hm hmark hg hblank hc hnext hb
    · cases entries <;> simp [spellEntries, entryKinds]
    · intro hne
      refine hentries ?_
      rintro rfl
      exact hne rfl
termination_by structural t

/-- The tokens of the items of a sequence are found. -/
theorem readsItems (q : Quoting) (items : List Tree) (h : ItemsSound items) :
    ReadsItems q items := by
  match items, h with
  | [], _ => exact fun hne => absurd rfl hne
  | item :: items, h =>
    have hitem := readsLines_item (readsNode q item h.1)
    have hrest := readsItems q items h.2
    intro _
    by_cases hitems : items = []
    · subst hitems
      simpa [spellItems, itemKinds] using hitem
    · refine readsLines_cons hitem (hrest hitems) (fun inner => ?_) fun inner =>
        starts_spellItems q inner items
      cases items with
      | nil => exact absurd rfl hitems
      | cons => simp [spellItems]
termination_by structural items

/-- The tokens of the entries of a mapping are found. -/
theorem readsEntries (q : Quoting) (entries : List (Tree × Tree)) (h : EntriesSound entries) :
    ReadsEntries q entries := by
  match entries, h with
  | [], _ => exact fun hne => absurd rfl hne
  | (k, v) :: entries, h =>
    have hallows : KeyAllowsGap q [] k := .inl rfl
    have hentry := readsLines_entry h.1 (readsNode q k h.1) (readsNode q v h.2.1) (by simp) hallows
    have hrest := readsEntries q entries h.2.2
    intro _
    by_cases hentries : entries = []
    · subst hentries
      simpa [spellEntries, entryKinds] using hentry
    · have hcons := readsLines_cons hentry (hrest hentries) (fun inner => ?_)
        fun inner => starts_spellEntries q inner h.2.2
      · simpa [spellEntries, entryKinds] using hcons
      · cases entries with
        | nil => exact absurd rfl hentries
        | cons => simp [spellEntries]
termination_by structural entries

end

end Tree

end LockPrune.Yaml
