import LockPrune.Proofs.Yaml.Content
import LockPrune.Proofs.Yaml.TextTokens

/-!
# The document of a text

The tokens of a tree are read as a node that says what the tree says.  So the document of a
text whose tokens are known is known too, up to the places of its nodes.

## Main definitions

* `Builds` — some steps of a walk take the draft of a document to another.
* `IsRead` — tokens of the given kinds are read as a node with a given content.

## Main statements

* `Tree.isRead`, `Tree.itemsRead`, `Tree.entriesRead` — the tokens of a tree.
* `Document.content_ofText_rows` — the document of a text.
-/

namespace LockPrune.Yaml

open Scalar Document

/-! ## Drafts -/

namespace Document.Draft

/-- The draft with one node more, after some events. -/
def grow (p : Draft) (size : Nat) (n : Node) : Draft :=
  { p with size := size }.put n

/-- The draft inside one collection more, after some events. -/
def within (p : Draft) (size : Nat) (o : Open) : Draft :=
  { p with size := size, opened := o :: p.opened }

theorem grow_within (p : Draft) (size size' : Nat) (o : Open) (n : Node) :
    (p.within size o).grow size' n = p.within size' { o with nodes := n :: o.nodes } := rfl

theorem finish_within (p : Draft) (size : Nat) (o : Open) :
    (p.within size o).finish = p.grow (size + 1) o.close := by
  obtain ⟨_, _, opened, _⟩ := p
  cases opened <;> rfl

end Document.Draft

/-! ## Steps of a walk -/

/-- Some steps of a walk take the draft of a document to another. -/
def Builds (n : Nat) (w : Walk) (p : Draft) (w' : Walk) (p' : Draft) : Prop :=
  ∀ fuel, ofEventsFrom p (Events.ofWalk (fuel + n) w).events =
    ofEventsFrom p' (Events.ofWalk fuel w').events

namespace Builds

theorem refl (w : Walk) (p : Draft) : Builds 0 w p w p := fun _ => rfl

theorem trans {n m : Nat} {w w' w'' : Walk} {p p' p'' : Draft} (h : Builds n w p w' p')
    (h' : Builds m w' p' w'' p'') : Builds (m + n) w p w'' p'' := by
  intro fuel
  rw [← h' fuel, ← h (fuel + m), Nat.add_assoc]

theorem scalar {w w' : Walk} {mark : Mark} {tag : Option Tag} {style : Style} {text : List Char}
    (h : w.step = some (.scalar mark ⟨none, tag⟩ style text, w')) (p : Draft) :
    Builds 1 w p w' (p.grow (p.size + 1) (.scalar mark none tag style (String.ofList text))) := by
  intro fuel
  rw [Events.ofWalk, h]
  rfl

theorem sequenceStart {w w' : Walk} {mark : Mark} {tag : Option Tag}
    (h : w.step = some (.sequenceStart mark ⟨none, tag⟩, w')) (p : Draft) :
    Builds 1 w p w' (p.within (p.size + 1) ⟨mark, none, tag, false, []⟩) := by
  intro fuel
  rw [Events.ofWalk, h]
  rfl

theorem mappingStart {w w' : Walk} {mark : Mark} {tag : Option Tag}
    (h : w.step = some (.mappingStart mark ⟨none, tag⟩, w')) (p : Draft) :
    Builds 1 w p w' (p.within (p.size + 1) ⟨mark, none, tag, true, []⟩) := by
  intro fuel
  rw [Events.ofWalk, h]
  rfl

theorem sequenceEnd {w w' : Walk} (h : w.step = some (.sequenceEnd, w')) (p : Draft) (size : Nat)
    (o : Open) : Builds 1 w (p.within size o) w' (p.grow (size + 1) o.close) := by
  intro fuel
  rw [Events.ofWalk, h, ← Draft.finish_within]
  rfl

theorem mappingEnd {w w' : Walk} (h : w.step = some (.mappingEnd, w')) (p : Draft) (size : Nat)
    (o : Open) : Builds 1 w (p.within size o) w' (p.grow (size + 1) o.close) := by
  intro fuel
  rw [Events.ofWalk, h, ← Draft.finish_within]
  rfl

end Builds

/-! ## Nodes -/

/-- What stands behind a node.  A sequence that stands as far to the left as its key is over
when something else comes. -/
def Ends (loose indentless : Bool) (rest : List Token) : Prop :=
  loose = true → indentless = true ∧
    ∃ token more, rest = token :: more ∧ token.kind ≠ .blockEntry

/-- Tokens of the given kinds are read as a node with a given content. -/
def IsRead (kinds : List Token.Kind) (loose : Bool) (c : Content) : Prop :=
  ∀ (toks rest : List Token) (indentless : Bool) (w : Walk) (p : Draft) (place after : Place)
    (outer : List Place), toks.map Token.kind = kinds → Ends loose indentless rest →
    w.step = (Walk.mk (toks ++ rest) place (after :: outer) defaultHandles).node true indentless →
    ∃ n size node, n ≤ 2 * toks.length ∧ node.content? = some c ∧
      Builds n w p ⟨rest, after, outer, defaultHandles⟩ (p.grow size node)

/-- Behind a tag, tokens of the given kinds are read as a node with a given content. -/
def IsContent (kinds : List Token.Kind) (loose : Bool) (c : Option Tag → Content) : Prop :=
  ∀ (toks rest : List Token) (indentless : Bool) (w : Walk) (p : Draft) (place after : Place)
    (outer : List Place) (mark : Mark) (tag : Option Tag), toks.map Token.kind = kinds →
    Ends loose indentless rest →
    w.step = (Walk.mk (toks ++ rest) place (after :: outer) defaultHandles).content true indentless
      mark ⟨none, tag⟩ →
    ∃ n size node, n ≤ 2 * toks.length ∧ node.content? = some (c tag) ∧
      Builds n w p ⟨rest, after, outer, defaultHandles⟩ (p.grow size node)

/-- The first token of a node behind its properties. -/
def opensContent : Token.Kind → Bool
  | .scalar .. => true
  | .flowSequenceStart => true
  | .flowMappingStart => true
  | .blockSequenceStart => true
  | .blockMappingStart => true
  | .blockEntry => true
  | _ => false

/-- Nothing that ends on its own is ended by what follows. -/
theorem IsRead.loosen {kinds : List Token.Kind} {c : Content} (h : IsRead kinds false c)
    (loose : Bool) : IsRead kinds loose c := by
  intro toks rest indentless w p place after outer hkinds _ hstep
  exact h toks rest indentless w p place after outer hkinds (by simp [Ends]) hstep

/-- A node without properties. -/
theorem Walk.node_of_opensContent {token : Token} (h : opensContent token.kind = true)
    (more : List Token) (place : Place) (outer : List Place) (indentless : Bool) :
    (Walk.mk (token :: more) place outer defaultHandles).node true indentless =
      (Walk.mk (token :: more) place outer defaultHandles).content true indentless token.start
        ⟨none, none⟩ := by
  obtain ⟨kind, start, stop⟩ := token
  cases kind <;> simp_all [opensContent, Walk.node, Walk.properties]

/-- A node behind a tag. -/
theorem Walk.node_of_tag {token : Token} (h : opensContent token.kind = true) {tag : String}
    (htag : IsReadableTag tag) (start stop : Mark) (more : List Token) (place : Place)
    (outer : List Place) (indentless : Bool) :
    (Walk.mk (⟨.tag (tagToken tag), start, stop⟩ :: token :: more) place outer
        defaultHandles).node true indentless =
      (Walk.mk (token :: more) place outer defaultHandles).content true indentless start
        ⟨none, some (Tag.ofText tag)⟩ := by
  have hfull := fullTag?_tagToken htag
    (w := Walk.mk (token :: more) place outer defaultHandles) rfl
  obtain ⟨kind, start', stop'⟩ := token
  cases kind <;> simp_all [opensContent, Walk.node, Walk.properties, Walk.skip]

/-- A tag in front of a node. -/
theorem IsContent.tagged {kinds : List Token.Kind} {loose : Bool} {c : Option Tag → Content}
    (h : IsContent kinds loose c) (hopens : kinds.head?.any opensContent = true)
    {tag : Option String} (htag : Tree.HasSoundTag tag) :
    IsRead (Tree.tagKinds tag ++ kinds) loose (c (tag.map Tag.ofText)) := by
  intro toks rest indentless w p place after outer hkinds hends hstep
  cases tag with
  | none =>
    rw [Tree.tagKinds, List.nil_append] at hkinds
    cases toks with
    | nil => simp [← hkinds] at hopens
    | cons token more =>
      have hopen : opensContent token.kind = true := by
        simpa [← hkinds] using hopens
      rw [List.cons_append, Walk.node_of_opensContent hopen] at hstep
      exact h (token :: more) rest indentless w p place after outer token.start none hkinds hends
        hstep
  | some tag =>
    obtain _ | ⟨⟨kind, start, stop⟩, toks⟩ := toks
    · simp [Tree.tagKinds] at hkinds
    simp only [Tree.tagKinds, List.map_cons, List.cons_append, List.nil_append,
      List.cons.injEq] at hkinds
    obtain ⟨rfl, hkinds⟩ := hkinds
    cases toks with
    | nil => simp [← hkinds] at hopens
    | cons token more =>
      have hopen : opensContent token.kind = true := by
        simpa [← hkinds] using hopens
      rw [List.cons_append, List.cons_append, Walk.node_of_tag hopen (htag tag rfl)] at hstep
      obtain ⟨n, size, node, hn, hcontent, hbuilds⟩ := h (token :: more) rest indentless w p place
        after outer start (some (Tag.ofText tag)) hkinds hends hstep
      refine ⟨n, size, node, ?_, hcontent, hbuilds⟩
      simp only [List.length_cons] at hn ⊢
      omega

/-! ## Scalars and brackets -/

theorem isContent_scalar (style : Style) (text : String) :
    IsContent [.scalar style text.toList] false fun tag => .scalar tag (style = .plain) text := by
  intro toks rest indentless w p place after outer mark tag hkinds _ hstep
  match toks, hkinds with
  | [⟨_, start, stop⟩], rfl =>
    have hbuilds := Builds.scalar hstep p
    rw [String.ofList_toList] at hbuilds
    exact ⟨1, p.size + 1, _, by simp, rfl, hbuilds⟩

theorem isContent_brackets :
    IsContent [.flowSequenceStart, .flowSequenceEnd] false fun tag => .sequence tag [] := by
  intro toks rest indentless w p place after outer mark tag hkinds _ hstep
  match toks, hkinds with
  | [⟨_, start, stop⟩, ⟨_, start', stop'⟩], rfl =>
    have hstart := Builds.sequenceStart hstep p
    have hend := Builds.sequenceEnd (w := ⟨⟨.flowSequenceEnd, start', stop'⟩ :: rest,
      .flowEntry true, after :: outer, defaultHandles⟩) rfl p (p.size + 1)
        ⟨mark, none, tag, false, []⟩
    exact ⟨2, p.size + 1 + 1, _, by simp, rfl, hstart.trans hend⟩

theorem isContent_braces :
    IsContent [.flowMappingStart, .flowMappingEnd] false fun tag => .mapping tag [] := by
  intro toks rest indentless w p place after outer mark tag hkinds _ hstep
  match toks, hkinds with
  | [⟨_, start, stop⟩, ⟨_, start', stop'⟩], rfl =>
    have hstart := Builds.mappingStart hstep p
    have hend := Builds.mappingEnd (w := ⟨⟨.flowMappingEnd, start', stop'⟩ :: rest,
      .flowKey true, after :: outer, defaultHandles⟩) rfl p (p.size + 1) ⟨mark, none, tag, true, []⟩
    exact ⟨2, p.size + 1 + 1, _, by simp, rfl, hstart.trans hend⟩

/-! ## Collections -/

/-- What stands in the place of a node is none of the tokens that leave it out. -/
theorem Walk.nodeOrEmpty_of_head {toks : List Token} {kinds ends : List Token.Kind}
    (hkinds : toks.map Token.kind = kinds) (h : kinds.head?.any (fun k => !ends.contains k) = true)
    (rest : List Token) (place after : Place) (outer : List Place) (mark : Mark)
    (indentless : Bool) :
    (Walk.mk (toks ++ rest) place outer defaultHandles).nodeOrEmpty ends after mark true
        indentless =
      (Walk.mk (toks ++ rest) place (after :: outer) defaultHandles).node true indentless := by
  match toks, hkinds with
  | [], rfl => simp at h
  | token :: more, rfl =>
    simp only [List.map_cons, List.head?_cons, Option.any_some] at h
    simp [Walk.nodeOrEmpty, Walk.nextIsNot, Walk.next?, Walk.resumeAt] at h ⊢
    simp [h]

/-- Tokens of the given kinds are read as items with given contents. -/
def ItemsRead (kinds : List Token.Kind) (cs : List Content) : Prop :=
  ∀ (toks rest : List Token) (p : Draft) (size : Nat) (o : Open) (place : Place)
    (outer : List Place), place = .blockEntry ∨ place = .indentlessEntry →
    toks.map Token.kind = kinds →
    ∃ n size' nodes, n + 2 * cs.length ≤ 2 * toks.length ∧ Node.itemContents? nodes = some cs ∧
      Builds n ⟨toks ++ rest, place, outer, defaultHandles⟩ (p.within size o)
        ⟨rest, place, outer, defaultHandles⟩
        (p.within size' { o with nodes := nodes.reverse ++ o.nodes })

theorem itemsRead_nil : ItemsRead [] [] := by
  intro toks rest p size o place outer _ hkinds
  match toks, hkinds with
  | [], _ => exact ⟨0, size, [], by simp, rfl, .refl _ _⟩

theorem itemsRead_cons {kinds more : List Token.Kind} {c : Content} {cs : List Content}
    (h : IsRead kinds false c)
    (hhead : kinds.head?.any (fun k =>
      !([.blockEntry, .key, .value, .blockEnd] : List Token.Kind).contains k) = true)
    (hmore : ItemsRead more cs) : ItemsRead (.blockEntry :: kinds ++ more) (c :: cs) := by
  intro toks rest p size o place outer hplace hkinds
  match toks, hkinds with
  | dash :: toks, hkinds =>
    rw [List.cons_append, List.map_cons, List.cons.injEq, List.map_eq_append_iff] at hkinds
    obtain ⟨hdash, toks, later, rfl, hkinds, hlater⟩ := hkinds
    have hhead' : kinds.head?.any (fun k =>
        !([.blockEntry, .blockEnd] : List Token.Kind).contains k) = true := by
      cases kinds with
      | nil => simp at hhead
      | cons k kinds => simp_all
    obtain ⟨kind, start, stop⟩ := dash
    obtain rfl : kind = .blockEntry := hdash
    have hstep : (Walk.mk (⟨.blockEntry, start, stop⟩ :: (toks ++ (later ++ rest))) place outer
        defaultHandles).step =
          (Walk.mk (toks ++ (later ++ rest)) place (place :: outer) defaultHandles).node true
            false := by
      rcases hplace with rfl | rfl
      · exact Walk.nodeOrEmpty_of_head hkinds hhead' _ _ _ _ _ _
      · exact Walk.nodeOrEmpty_of_head hkinds hhead _ _ _ _ _ _
    obtain ⟨n, size', node, hn, hcontent, hbuilds⟩ := h toks (later ++ rest) false _
      (p.within size o) place place outer hkinds (by simp [Ends]) hstep
    obtain ⟨m, size'', nodes, hm, hcontents, hbuilds'⟩ := hmore later rest p size'
      { o with nodes := node :: o.nodes } place outer hplace hlater
    refine ⟨m + n, size'', node :: nodes, ?_, ?_, ?_⟩
    · simp only [List.length_cons, List.length_append]
      omega
    · rw [Node.itemContents?_cons hcontent, hcontents, Option.map_some]
    · rw [Draft.grow_within] at hbuilds
      simpa using hbuilds.trans hbuilds'

/-- The nodes of a collection stand in reverse until it is over. -/
theorem close_items (mark : Mark) (tag : Option Tag) (nodes : List Node) :
    (Open.mk mark none tag false (nodes.reverse ++ [])).close = .sequence mark none tag nodes := by
  simp [Open.close]

theorem close_entries (mark : Mark) (tag : Option Tag) (nodes : List Node) :
    (Open.mk mark none tag true (nodes.reverse ++ [])).close =
      .mapping mark none tag (Node.pairUp nodes) := by
  simp [Open.close]

/-- The items of a sequence that is further to the right than what it belongs to. -/
theorem isContent_sequence {kinds : List Token.Kind} {cs : List Content}
    (h : ItemsRead kinds cs) :
    IsContent (.blockSequenceStart :: kinds ++ [.blockEnd]) false fun tag => .sequence tag cs := by
  intro toks rest indentless w p place after outer mark tag hkinds _ hstep
  match toks, hkinds with
  | first :: toks, hkinds =>
    rw [List.cons_append, List.map_cons, List.cons.injEq, List.map_eq_append_iff] at hkinds
    obtain ⟨hfirst, toks, later, rfl, hkinds, hlater⟩ := hkinds
    obtain ⟨kind, start, stop⟩ := first
    obtain rfl : kind = .blockSequenceStart := hfirst
    match later, hlater with
    | [⟨_, start', stop'⟩], rfl =>
      rw [List.cons_append, List.append_assoc, List.singleton_append] at hstep
      have hstart := Builds.sequenceStart hstep p
      obtain ⟨n, size, nodes, hn, hcontents, hbuilds⟩ := h toks
        (⟨.blockEnd, start', stop'⟩ :: rest) p (p.size + 1) ⟨mark, none, tag, false, []⟩ .blockEntry
        (after :: outer) (.inl rfl) hkinds
      have hend := Builds.sequenceEnd (w := ⟨⟨.blockEnd, start', stop'⟩ :: rest, .blockEntry,
        after :: outer, defaultHandles⟩) rfl p size ⟨mark, none, tag, false, nodes.reverse ++ []⟩
      rw [close_items] at hend
      refine ⟨1 + n + 1, size + 1, .sequence mark none tag nodes, ?_, ?_,
        hstart.trans (hbuilds.trans hend)⟩
      · simp only [List.length_cons, List.length_append, List.length_nil]
        omega
      · rw [Node.content?, hcontents, Option.map_some]

/-- The items of a sequence that stands as far to the left as what it belongs to. -/
theorem isContent_indentless {kinds : List Token.Kind} {cs : List Content}
    (h : ItemsRead kinds cs) (hdash : kinds.head? = some .blockEntry) (hne : cs ≠ []) :
    IsContent kinds true fun tag => .sequence tag cs := by
  intro toks rest indentless w p place after outer mark tag hkinds hends hstep
  obtain ⟨rfl, token, more, rfl, hover⟩ := hends rfl
  have hlength := List.length_pos_iff.mpr hne
  obtain ⟨n, size, nodes, hn, hcontents, hbuilds⟩ := h toks (token :: more) p (p.size + 1)
    ⟨mark, none, tag, false, []⟩ .indentlessEntry (after :: outer) (.inr rfl) hkinds
  have hstart : Builds 1 w p
      ⟨toks ++ token :: more, .indentlessEntry, after :: outer, defaultHandles⟩
      (p.within (p.size + 1) ⟨mark, none, tag, false, []⟩) := by
    match toks, hkinds with
    | [], hkinds => simp [← hkinds] at hdash
    | ⟨kind, start, stop⟩ :: toks, hkinds =>
      obtain rfl : kind = .blockEntry := by simpa [← hkinds] using hdash
      exact Builds.sequenceStart hstep p
  have hlast : (Walk.mk (token :: more) .indentlessEntry (after :: outer) defaultHandles).step =
      some (.sequenceEnd, ⟨token :: more, after, outer, defaultHandles⟩) := by
    obtain ⟨kind, start, stop⟩ := token
    cases kind <;> simp_all [Walk.step, Walk.indentlessEntry, Walk.resume]
  have hend := Builds.sequenceEnd hlast p size ⟨mark, none, tag, false, nodes.reverse ++ []⟩
  rw [close_items] at hend
  refine ⟨1 + n + 1, size + 1, .sequence mark none tag nodes, by omega, ?_,
    hstart.trans (hbuilds.trans hend)⟩
  rw [Node.content?, hcontents, Option.map_some]

/-- Tokens of the given kinds are read as entries with given contents. -/
def EntriesRead (kinds : List Token.Kind) (cs : List (Content × Content)) : Prop :=
  ∀ (toks rest : List Token) (p : Draft) (size : Nat) (o : Open) (outer : List Place),
    toks.map Token.kind = kinds → (∃ token more, rest = token :: more ∧ token.kind = .blockEnd) →
    ∃ n size' nodes, n ≤ 2 * toks.length ∧
      Node.entryContents? (Node.pairUp nodes) = some cs ∧
      Builds n ⟨toks ++ rest, .blockKey, outer, defaultHandles⟩ (p.within size o)
        ⟨rest, .blockKey, outer, defaultHandles⟩
        (p.within size' { o with nodes := nodes.reverse ++ o.nodes })

theorem entriesRead_nil : EntriesRead [] [] := by
  intro toks rest p size o outer hkinds _
  match toks, hkinds with
  | [], _ => exact ⟨0, size, [], by simp, rfl, .refl _ _⟩

theorem entriesRead_cons {ks vs more : List Token.Kind} {a b : Content}
    {cs : List (Content × Content)} (hkey : IsRead ks true a) (hvalue : IsRead vs true b)
    (hks : ks.head?.any (fun k => !([.key, .value, .blockEnd] : List Token.Kind).contains k) = true)
    (hvs : vs.head?.any (fun k => !([.key, .value, .blockEnd] : List Token.Kind).contains k) = true)
    (hnext : more.head? = none ∨ more.head? = some .key) (hmore : EntriesRead more cs) :
    EntriesRead (.key :: ks ++ .value :: vs ++ more) ((a, b) :: cs) := by
  intro toks rest p size o outer hkinds hrest
  match toks, hkinds with
  | ⟨kind, start, stop⟩ :: toks, hkinds =>
    simp only [List.cons_append, List.append_assoc, List.map_cons, List.cons.injEq,
      List.map_eq_append_iff] at hkinds
    obtain ⟨rfl, keys, later, rfl, hkeys, hlater⟩ := hkinds
    match later, hlater with
    | ⟨kind, start', stop'⟩ :: later, hlater =>
      simp only [List.map_cons, List.cons.injEq, List.map_eq_append_iff] at hlater
      obtain ⟨rfl, values, further, rfl, hvalues, hfurther⟩ := hlater
      have hends : Ends true true (further ++ rest) := by
        intro _
        refine ⟨rfl, ?_⟩
        match further, hfurther with
        | [], _ =>
          obtain ⟨token, others, rfl, htoken⟩ := hrest
          exact ⟨token, others, rfl, by simp [htoken]⟩
        | token :: others, hfurther =>
          refine ⟨token, others ++ rest, rfl, ?_⟩
          rcases hnext with hnext | hnext
          · simp [← hfurther] at hnext
          · simp [← hfurther] at hnext
            simp [hnext]
      -- the key
      have hstep : (Walk.mk (⟨.key, start, stop⟩ :: (keys ++ (⟨.value, start', stop'⟩ ::
          (values ++ (further ++ rest))))) .blockKey outer defaultHandles).step =
            (Walk.mk (keys ++ (⟨.value, start', stop'⟩ :: (values ++ (further ++ rest)))) .blockKey
              (.blockValue :: outer) defaultHandles).node true true :=
        Walk.nodeOrEmpty_of_head hkeys hks _ _ _ _ _ _
      obtain ⟨n, size₁, k, hn, hk, hbuilds⟩ := hkey keys _ true _ (p.within size o) .blockKey
        .blockValue outer hkeys (fun _ => ⟨rfl, _, _, rfl, by simp⟩) hstep
      -- its value
      have hstep' : (Walk.mk (⟨.value, start', stop'⟩ :: (values ++ (further ++ rest))) .blockValue
          outer defaultHandles).step = (Walk.mk (values ++ (further ++ rest)) .blockValue
            (.blockKey :: outer) defaultHandles).node true true :=
        Walk.nodeOrEmpty_of_head hvalues hvs _ _ _ _ _ _
      obtain ⟨n', size₂, v, hn', hv, hbuilds'⟩ := hvalue values _ true _
        (p.within size₁ { o with nodes := k :: o.nodes }) .blockValue .blockKey outer hvalues hends
        hstep'
      -- the entries behind it
      obtain ⟨n'', size₃, nodes, hn'', hcontents, hbuilds''⟩ := hmore further rest p size₂
        { o with nodes := v :: k :: o.nodes } outer hfurther hrest
      refine ⟨n'' + n' + n, size₃, k :: v :: nodes, ?_, ?_, ?_⟩
      · simp only [List.length_cons, List.length_append]
        omega
      · rw [Node.pairUp_cons, Node.entryContents?_cons hk hv, hcontents, Option.map_some]
      · rw [Draft.grow_within] at hbuilds hbuilds'
        simpa using hbuilds.trans (hbuilds'.trans hbuilds'')

/-- The entries of a mapping. -/
theorem isContent_mapping {kinds : List Token.Kind} {cs : List (Content × Content)}
    (h : EntriesRead kinds cs) :
    IsContent (.blockMappingStart :: kinds ++ [.blockEnd]) false fun tag => .mapping tag cs := by
  intro toks rest indentless w p place after outer mark tag hkinds _ hstep
  match toks, hkinds with
  | first :: toks, hkinds =>
    rw [List.cons_append, List.map_cons, List.cons.injEq, List.map_eq_append_iff] at hkinds
    obtain ⟨hfirst, toks, later, rfl, hkinds, hlater⟩ := hkinds
    obtain ⟨kind, start, stop⟩ := first
    obtain rfl : kind = .blockMappingStart := hfirst
    match later, hlater with
    | [⟨_, start', stop'⟩], rfl =>
      rw [List.cons_append, List.append_assoc, List.singleton_append] at hstep
      have hstart := Builds.mappingStart hstep p
      obtain ⟨n, size, nodes, hn, hcontents, hbuilds⟩ := h toks
        (⟨.blockEnd, start', stop'⟩ :: rest) p (p.size + 1) ⟨mark, none, tag, true, []⟩
        (after :: outer) hkinds ⟨_, _, rfl, rfl⟩
      have hend := Builds.mappingEnd (w := ⟨⟨.blockEnd, start', stop'⟩ :: rest, .blockKey,
        after :: outer, defaultHandles⟩) rfl p size ⟨mark, none, tag, true, nodes.reverse ++ []⟩
      rw [close_entries] at hend
      refine ⟨1 + n + 1, size + 1, .mapping mark none tag (Node.pairUp nodes), ?_, ?_,
        hstart.trans (hbuilds.trans hend)⟩
      · simp only [List.length_cons, List.length_append, List.length_nil]
        omega
      · rw [Node.content?, hcontents, Option.map_some]

/-! ## Trees -/

namespace Tree

/-- A node in a mapping is not left out. -/
theorem head_kinds (q : Quoting) (after : Behind) (t : Tree) :
    (kinds q after t).head?.any
      (fun k => !([.key, .value, .blockEnd] : List Token.Kind).contains k) = true := by
  match t with
  | .scalar none .. => simp [kinds, tagKinds, scalarKind]
  | .scalar (some _) .. => simp [kinds, tagKinds]
  | .sequence (some _) _ => simp [kinds, tagKinds]
  | .mapping (some _) _ => simp [kinds, tagKinds]
  | .sequence none [] => simp [kinds, tagKinds, itemKinds, partKinds]
  | .sequence none (_ :: _) =>
    cases after <;> simp [kinds, tagKinds, itemKinds, partKinds, isIndentless]
  | .mapping none [] => simp [kinds, tagKinds, entryKinds, partKinds]
  | .mapping none (_ :: _) => simp [kinds, tagKinds, entryKinds, partKinds]

/-- An item of a sequence is not left out. -/
theorem head_kinds_dash (q : Quoting) (t : Tree) :
    (kinds q .dash t).head?.any
      (fun k => !([.blockEntry, .key, .value, .blockEnd] : List Token.Kind).contains k) = true := by
  match t with
  | .scalar none .. => simp [kinds, tagKinds, scalarKind]
  | .scalar (some _) .. => simp [kinds, tagKinds]
  | .sequence (some _) _ => simp [kinds, tagKinds]
  | .mapping (some _) _ => simp [kinds, tagKinds]
  | .sequence none [] => simp [kinds, tagKinds, itemKinds, partKinds]
  | .sequence none (_ :: _) => simp [kinds, tagKinds, itemKinds, partKinds, isIndentless]
  | .mapping none [] => simp [kinds, tagKinds, entryKinds, partKinds]
  | .mapping none (_ :: _) => simp [kinds, tagKinds, entryKinds, partKinds]

theorem head_keyKinds (q : Quoting) (t : Tree) :
    (keyKinds q t).head?.any
      (fun k => !([.key, .value, .blockEnd] : List Token.Kind).contains k) = true := by
  match t with
  | .scalar none .. => simp [keyKinds, tagKinds, scalarKind]
  | .scalar (some _) .. => simp [keyKinds, tagKinds]
  | .sequence none _ => simp [keyKinds, tagKinds]
  | .sequence (some _) _ => simp [keyKinds, tagKinds]
  | .mapping none _ => simp [keyKinds, tagKinds]
  | .mapping (some _) _ => simp [keyKinds, tagKinds]

theorem isRead_scalar (q : Quoting) {tag : Option String} {style : Style} {text : String}
    (h : IsSoundScalar tag style text) (isKey : Bool) :
    IsRead (tagKinds tag ++ [scalarKind q style isKey text]) false
      (.scalar (tag.map Tag.ofText) (isPlainScalar style text) text) := by
  rw [← quoting_style_admitted q h isKey]
  exact (isContent_scalar _ text).tagged rfl h.tag

/-- A key in front of its colon is read as it is elsewhere. -/
theorem isRead_key (q : Quoting) {k : Tree} (h : k.IsSound) (hsimple : k.isSimpleKey = true) :
    IsRead (keyKinds q k) false k.content := by
  match k, h with
  | .scalar tag style text, h =>
    rw [IsSound] at h
    exact isRead_scalar (q.behind tag) h true
  | .sequence tag [], h =>
    rw [IsSound] at h
    exact isContent_brackets.tagged rfl h.1
  | .mapping tag [], h =>
    rw [IsSound] at h
    exact isContent_braces.tagged rfl h.1
  | .sequence _ (_ :: _), _ => simp [isSimpleKey] at hsimple
  | .mapping _ (_ :: _), _ => simp [isSimpleKey] at hsimple

mutual

/-- The tokens of a tree are read as what the tree says. -/
theorem isRead (q : Quoting) (t : Tree) (h : t.IsSound) (after : Behind) :
    IsRead (kinds q after t) (after ≠ .dash) t.content := by
  match t, h with
  | .scalar tag style text, h =>
    rw [IsSound] at h
    exact (isRead_scalar (q.behind tag) h false).loosen _
  | .sequence tag [], h =>
    rw [IsSound] at h
    exact (isContent_brackets.tagged rfl h.1).loosen _
  | .mapping tag [], h =>
    rw [IsSound] at h
    exact (isContent_braces.tagged rfl h.1).loosen _
  | .sequence tag (item :: items), h =>
    rw [IsSound] at h
    have hitems := itemsRead q (item :: items) h.2
    rw [kinds, content]
    by_cases hindentless : isIndentless after tag.isSome = true
    · have hafter : after ≠ .dash := by
        rintro rfl
        simp [isIndentless] at hindentless
      rw [decide_eq_true hafter, hindentless]
      exact (isContent_indentless hitems rfl (by simp [itemContents])).tagged rfl h.1
    · rw [Bool.not_eq_true] at hindentless
      rw [hindentless]
      exact ((isContent_sequence hitems).tagged rfl h.1).loosen _
  | .mapping tag (entry :: entries), h =>
    rw [IsSound] at h
    have hentries := entriesRead q (entry :: entries) h.2
    rw [kinds, content]
    exact ((isContent_mapping hentries).tagged rfl h.1).loosen _
termination_by structural t

theorem itemsRead (q : Quoting) (items : List Tree) (h : ItemsSound items) :
    ItemsRead (itemKinds q items) (itemContents items) := by
  match items, h with
  | [], _ => exact itemsRead_nil
  | item :: items, h =>
    rw [ItemsSound] at h
    exact itemsRead_cons (isRead q item h.1 .dash) (head_kinds_dash q item) (itemsRead q items h.2)
termination_by structural items

theorem entriesRead (q : Quoting) (entries : List (Tree × Tree)) (h : EntriesSound entries) :
    EntriesRead (entryKinds q entries) (entryContents entries) := by
  match entries, h with
  | [], _ => exact entriesRead_nil
  | (k, v) :: entries, h =>
    rw [EntriesSound] at h
    have hkey :
        IsRead (if k.isSimpleKey then keyKinds q k else kinds q .mark k) true k.content := by
      have hmark := isRead q k h.1 .mark
      split
      case isTrue hsimple => exact (isRead_key q h.1 hsimple).loosen true
      case isFalse => exact hmark
    have hvalue : IsRead (kinds q (keyMark k) v) true v.content := by
      have hv := isRead q v h.2.1 (keyMark k)
      have hafter : keyMark k ≠ .dash := by
        rw [keyMark]
        split <;> simp
      rwa [decide_eq_true hafter] at hv
    have hhead : (if k.isSimpleKey then keyKinds q k else kinds q .mark k).head?.any
        (fun k => !([.key, .value, .blockEnd] : List Token.Kind).contains k) = true := by
      split
      · exact head_keyKinds q k
      · exact head_kinds q .mark k
    have hnext :
        (entryKinds q entries).head? = none ∨ (entryKinds q entries).head? = some .key := by
      cases entries with
      | nil => exact .inl rfl
      | cons => exact .inr rfl
    have hmore := entriesRead q entries h.2.2
    exact entriesRead_cons hkey hvalue hhead (head_kinds q _ v) hnext hmore
termination_by structural entries

end

end Tree

/-! ## Documents -/

/-- The tokens of the root are those of the whole document. -/
theorem Document.ofEventsFrom_ofTokens {kinds : List Token.Kind} {c : Content}
    (h : IsRead kinds false c) (hopens : kinds.head?.any opensContent = true) {first : Token}
    {toks : List Token} (hkinds : toks.map Token.kind = kinds ++ [.streamEnd]) :
    ∃ size root, ofEventsFrom .empty (Events.ofTokens ⟨first :: toks, true⟩).events =
      ⟨root, size, none, true, root.anchored.reverse⟩ ∧ root.content? = some c := by
  rw [List.map_eq_append_iff] at hkinds
  obtain ⟨toks, later, rfl, hkinds, hlater⟩ := hkinds
  match later, hlater with
  | [⟨_, start, stop⟩], rfl =>
    obtain ⟨last, hlast⟩ : ∃ last : Token, last = ⟨.streamEnd, start, stop⟩ := ⟨_, rfl⟩
    rw [← hlast]
    -- the document begins on its own
    have hbegin : Builds 1 ⟨toks ++ [last], .firstDocument, [], []⟩ .empty
        ⟨toks ++ [last], .root, [.documentEnd], defaultHandles⟩ .empty := by
      have hstep : (Walk.mk (toks ++ [last]) .firstDocument [] []).step =
          some (.documentStart, ⟨toks ++ [last], .root, [.documentEnd], defaultHandles⟩) := by
        match toks, hkinds with
        | [], hkinds => simp [← hkinds] at hopens
        | ⟨kind, _, _⟩ :: _, hkinds =>
          cases kind <;> first | rfl | simp [← hkinds, opensContent] at hopens
      intro fuel
      rw [Events.ofWalk, hstep]
      rfl
    obtain ⟨n, size, root, hn, hcontent, hroot⟩ := h toks [last] false
      ⟨toks ++ [last], .root, [.documentEnd], defaultHandles⟩ .empty .root .documentEnd [] hkinds
      (by simp [Ends]) rfl
    have hbuilds := hbegin.trans hroot
    -- nothing but the end of the stream is left
    have hend : ∀ fuel, ofEventsFrom (Draft.empty.grow size root) (Events.ofWalk (fuel + 2)
        ⟨[last], .documentEnd, [], defaultHandles⟩).events =
          ⟨root, size, none, true, root.anchored.reverse⟩ := by
      intro fuel
      subst hlast
      rfl
    refine ⟨size, root, ?_, hcontent⟩
    obtain ⟨fuel, hfuel⟩ : ∃ fuel, 4 * (first :: (toks ++ [last])).length + 4 =
        fuel + 2 + (n + 1) := by
      refine ⟨4 * (first :: (toks ++ [last])).length + 4 - 2 - (n + 1), ?_⟩
      simp only [List.length_cons, List.length_append, List.length_nil]
      omega
    rw [← hend fuel, ← hbuilds (fuel + 2), ← hfuel]
    rfl

/-- The document of a text that consists of comments and of the entries of a mapping, each on
lines of its own, says what the mapping says. -/
theorem Document.content_ofText_rows {q : Quoting} {pre gap : List Char}
    {entries : List (Tree × Tree)} (hpre : Preamble pre) (hgap : ∀ a ∈ gap, a = '\n')
    (hne : entries ≠ []) (hsound : Tree.EntriesSound entries)
    (hallows : Tree.AllowsGap q gap entries)
    (hchars : ∀ a ∈ pre ++ Tree.rows q gap entries, isAdmitted a = true) :
    ∃ size root, Document.ofText (pre ++ Tree.rows q gap entries) =
        ⟨root, size, none, true, root.anchored.reverse⟩ ∧
      root.content? = some (.mapping none (Tree.entryContents entries)) := by
  obtain ⟨toks, htokens, hkinds⟩ := Tokens.ofText_rows hpre hgap hne hsound hallows hchars
  have hread : IsRead (.blockMappingStart :: Tree.entryKinds q entries ++ [.blockEnd]) false
      (.mapping none (Tree.entryContents entries)) :=
    (isContent_mapping (Tree.entriesRead q entries hsound)).tagged rfl
      (by simp [Tree.HasSoundTag] : Tree.HasSoundTag none)
  rw [Document.ofText, Events.ofText, htokens]
  exact Document.ofEventsFrom_ofTokens hread rfl (by simpa using hkinds)

end LockPrune.Yaml
