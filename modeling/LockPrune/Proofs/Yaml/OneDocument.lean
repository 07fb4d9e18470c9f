import LockPrune.Yaml.Node
import Mathlib.Data.List.Basic

/-!
# Texts of one document

A text is one whole document if its events go to its end with no more than one document, and every
alias names an anchor in front of it.  So a fault anywhere in a text, be it behind its first
document, is known from whether the document is whole.

## Main definitions

* `Events.IsOneDocument` — the events of one document.

## Main statements

* `Document.isWhole_ofText_iff` — when a text is one whole document.
* `Events.complete_of_isOneDocument` — the events of one document go to the end of the text.
-/

namespace LockPrune.Yaml

namespace Event

/-- The anchor of a node. -/
def anchor? : Event → Option (List Char)
  | .scalar _ props _ _ => props.anchor
  | .sequenceStart _ props => props.anchor
  | .mappingStart _ props => props.anchor
  | _ => none

/-- The event ends a document or the text. -/
def isEnd : Event → Bool
  | .documentEnd => true
  | .streamEnd _ => true
  | _ => false

end Event

namespace Events

/-- The events are those of one document at most, where some anchors were given before them: behind
its end the text ends, and every alias names an anchor in front of it. -/
def IsOneDocument (given : List Char → Prop) (events : List Event) : Prop :=
  ∃ body ends, events = body ++ ends ∧ (∀ e ∈ body, e.isEnd = false) ∧
    (∃ mark, ends = [.documentEnd, .streamEnd mark] ∨ ∃ rest, ends = .streamEnd mark :: rest) ∧
      ∀ front mark name back, body = front ++ .alias mark name :: back →
        given name ∨ some name ∈ front.map Event.anchor?

variable {given : List Char → Prop} {e : Event} {events : List Event}

theorem not_isOneDocument_nil : ¬ IsOneDocument given [] := by
  rintro ⟨body, ends, heq, -, ⟨mark, hends⟩, -⟩
  obtain ⟨-, rfl⟩ := List.append_eq_nil_iff.1 heq.symm
  rcases hends with hends | ⟨rest, hends⟩ <;> cases hends

theorem isOneDocument_documentEnd_iff :
    IsOneDocument given (.documentEnd :: events) ↔ ∃ mark, events = [.streamEnd mark] := by
  constructor
  · rintro ⟨body, ends, heq, hbody, ⟨mark, hends⟩, -⟩
    cases body with
    | nil =>
      rcases hends with rfl | ⟨rest, rfl⟩
      · exact ⟨mark, (List.cons.inj heq).2⟩
      · cases heq
    | cons b body =>
      obtain ⟨rfl, -⟩ := List.cons.inj heq
      cases hbody _ List.mem_cons_self
  · rintro ⟨mark, rfl⟩
    exact ⟨[], _, rfl, by simp, ⟨mark, .inl rfl⟩, by simp⟩

theorem isOneDocument_streamEnd (mark : Mark) : IsOneDocument given (.streamEnd mark :: events) :=
  ⟨[], _, rfl, by simp, ⟨mark, .inr ⟨events, rfl⟩⟩, by simp⟩

/-- An event inside a document: an alias names what was given, and an anchor is given to the rest.
-/
theorem isOneDocument_cons_iff (he : e.isEnd = false) : IsOneDocument given (e :: events) ↔
    (∀ mark name, e = .alias mark name → given name) ∧
      IsOneDocument (fun name => given name ∨ e.anchor? = some name) events := by
  constructor
  · rintro ⟨body, ends, heq, hbody, hends, haliases⟩
    cases body with
    | nil =>
      obtain ⟨mark, rfl | ⟨rest, rfl⟩⟩ := hends <;>
        (obtain ⟨rfl, -⟩ := List.cons.inj heq; cases he)
    | cons b body =>
      obtain ⟨rfl, rfl⟩ := List.cons.inj heq
      refine ⟨fun mark name heq => ?_, body, ends, rfl, (List.forall_mem_cons.1 hbody).2, hends,
        fun front mark name back hback => ?_⟩
      · simpa using haliases [] mark name body (by rw [heq, List.nil_append])
      · have hname := haliases (e :: front) mark name back (by rw [hback, List.cons_append])
        rwa [List.map_cons, List.mem_cons, eq_comm, ← or_assoc] at hname
  · rintro ⟨hname, body, ends, rfl, hbody, hends, haliases⟩
    refine ⟨e :: body, ends, rfl, List.forall_mem_cons.2 ⟨he, hbody⟩, hends,
      fun front mark name back hback => ?_⟩
    cases front with
    | nil => exact .inl (hname mark name (List.cons.inj hback).1)
    | cons b front =>
      obtain ⟨rfl, hbody⟩ := List.cons.inj hback
      rw [List.map_cons, List.mem_cons, eq_comm, ← or_assoc]
      exact haliases front mark name back hbody

/-- The events of one document go to the end of the text. -/
theorem complete_of_isOneDocument {text : List Char}
    (h : IsOneDocument given (ofText text).events) :
    (ofText text).complete = true := by
  have hwalk :
      ∀ n w mark, Event.streamEnd mark ∈ (ofWalk n w).events → (ofWalk n w).complete = true := by
    intro n
    induction n with
    | zero => exact fun _ _ hmem => absurd hmem List.not_mem_nil
    | succ n ih =>
      intro w mark hmem
      rw [ofWalk] at hmem ⊢
      split at hmem
      · cases hmem
      · rfl
      · rename_i e w' hne hstep
        rcases List.mem_cons.1 hmem with heq | hmem
        · exact absurd heq.symm (hne mark)
        · exact ih w' mark hmem
  obtain ⟨body, ends, heq, -, ⟨mark, hends⟩, -⟩ := h
  refine hwalk _ _ mark ?_
  change Event.streamEnd mark ∈ (ofText text).events
  rw [heq]
  refine List.mem_append_right _ ?_
  rcases hends with rfl | ⟨rest, rfl⟩ <;> simp

end Events

namespace Document

namespace Draft

/-- An anchor of the name was given. -/
def IsGiven (p : Draft) (name : List Char) : Prop :=
  ∃ q ∈ p.names, q.1 = name

theorem isGiven_name (p : Draft) (anchor : Option (List Char)) (name : List Char) :
    (p.name anchor).2.IsGiven name ↔ p.IsGiven name ∨ anchor = some name := by
  cases anchor with
  | none => simp [Draft.name]
  | some a =>
    simp only [IsGiven, Draft.name, List.mem_cons, List.mem_filter, decide_eq_true_iff,
      Option.some.injEq]
    constructor
    · rintro ⟨q, rfl | ⟨hq, -⟩, rfl⟩
      · exact .inr rfl
      · exact .inl ⟨q, hq, rfl⟩
    · rintro (⟨q, hq, rfl⟩ | rfl)
      · by_cases ha : q.1 = a
        · exact ⟨_, .inl rfl, ha.symm⟩
        · exact ⟨q, .inr ⟨hq, ha⟩, rfl⟩
      · exact ⟨_, .inl rfl, rfl⟩

theorem names_put (p : Draft) (n : Node) : (p.put n).names = p.names := by
  rw [put]
  split <;> rfl

theorem names_finish (p : Draft) : p.finish.names = p.names := by
  rw [finish]
  split
  · rfl
  · exact names_put _ _

@[simp] theorem isGiven_put (p : Draft) (n : Node) : (p.put n).IsGiven = p.IsGiven := by
  funext name
  rw [IsGiven, names_put, IsGiven]

@[simp] theorem isGiven_finish (p : Draft) : p.finish.IsGiven = p.IsGiven := by
  funext name
  rw [IsGiven, names_finish, IsGiven]

/-- An event inside the document that is no alias adds its anchor to those that were given. -/
theorem isOneDocument_cons_iff {p p' : Draft} {e : Event} {events : List Event}
    (he : e.isEnd = false) (halias : ∀ mark name, e ≠ .alias mark name)
    (hgiven : ∀ name, p'.IsGiven name ↔ p.IsGiven name ∨ e.anchor? = some name) :
    Events.IsOneDocument p'.IsGiven events ↔ Events.IsOneDocument p.IsGiven (e :: events) := by
  have hsame : p'.IsGiven = fun name => p.IsGiven name ∨ e.anchor? = some name :=
    funext fun name => propext (hgiven name)
  rw [Events.isOneDocument_cons_iff he, hsame]
  exact (and_iff_right fun mark name h => absurd h (halias mark name)).symm

end Draft

theorem isWhole_documentEnd_iff {p : Draft} {events : List Event} :
    (ofEventsFrom p (.documentEnd :: events)).isWhole = true ↔
      ∃ mark, events = [.streamEnd mark] := by
  cases events with
  | nil => simp [ofEventsFrom, isWhole, Draft.document]
  | cons e events =>
    cases events with
    | nil => cases e <;> simp [ofEventsFrom, isWhole, Draft.document]
    | cons e' events => cases e <;> simp [ofEventsFrom, isWhole, Draft.document]

/-- A document is whole if its events are those of one. -/
theorem isWhole_ofEventsFrom_iff {p : Draft} {events : List Event} :
    (ofEventsFrom p events).isWhole = true ↔ Events.IsOneDocument p.IsGiven events := by
  induction events generalizing p with
  | nil =>
    exact iff_of_false (by simp [ofEventsFrom, isWhole, Draft.document])
      Events.not_isOneDocument_nil
  | cons e events ih =>
    cases e with
    | documentStart =>
      rw [ofEventsFrom]
      exact ih.trans (Draft.isOneDocument_cons_iff rfl (by simp) (by simp [Event.anchor?]))
    | documentEnd =>
      rw [isWhole_documentEnd_iff, Events.isOneDocument_documentEnd_iff]
    | streamEnd mark => exact iff_of_true rfl (Events.isOneDocument_streamEnd mark)
    | «alias» mark name =>
      rw [Events.isOneDocument_cons_iff rfl, ofEventsFrom]
      have hgiven : p.IsGiven name ↔ (p.names.find? fun q => q.1 = name).isSome := by
        simp [Draft.IsGiven]
      have hsame : (fun other => p.IsGiven other ∨ (Event.alias mark name).anchor? = some other) =
          p.IsGiven := by
        simp [Event.anchor?]
      rw [hsame]
      cases hname : p.names.find? fun q => q.1 = name with
      | none =>
        rw [hname] at hgiven
        refine iff_of_false (by simp [isWhole, Draft.document]) fun h => ?_
        exact absurd (hgiven.1 (h.1 mark name rfl)) (by simp)
      | some q =>
        rw [hname] at hgiven
        have hall :
            ∀ mark' name', Event.alias mark name = .alias mark' name' → p.IsGiven name' := by
          rintro mark' name' ⟨⟩
          exact hgiven.2 rfl
        have hput : (p.count.put (.alias mark q.2)).IsGiven = p.IsGiven := Draft.isGiven_put _ _
        rw [and_iff_right hall, ← hput]
        exact ih
    | scalar mark props style text =>
      rw [ofEventsFrom]
      refine ih.trans (Draft.isOneDocument_cons_iff rfl (by simp) fun name => ?_)
      rw [Draft.isGiven_put]
      exact Draft.isGiven_name _ _ _
    | sequenceStart mark props =>
      rw [ofEventsFrom]
      exact ih.trans
        (Draft.isOneDocument_cons_iff rfl (by simp) fun name => Draft.isGiven_name p.count _ _)
    | mappingStart mark props =>
      rw [ofEventsFrom]
      exact ih.trans
        (Draft.isOneDocument_cons_iff rfl (by simp) fun name => Draft.isGiven_name p.count _ _)
    | sequenceEnd =>
      rw [ofEventsFrom]
      exact ih.trans (Draft.isOneDocument_cons_iff rfl (by simp) (by simp [Event.anchor?]))
    | mappingEnd =>
      rw [ofEventsFrom]
      exact ih.trans (Draft.isOneDocument_cons_iff rfl (by simp) (by simp [Event.anchor?]))

/-- A text is one whole document if its events are those of one, and nothing was given before. -/
theorem isWhole_ofText_iff {text : List Char} :
    (ofText text).isWhole = true ↔
      Events.IsOneDocument (fun _ => False) (Events.ofText text).events := by
  have hempty : Draft.empty.IsGiven = fun _ => False :=
    funext fun name => propext (iff_of_false (by rintro ⟨q, ⟨⟩, -⟩) id)
  rw [ofText, isWhole_ofEventsFrom_iff, hempty]

end Document

end LockPrune.Yaml
