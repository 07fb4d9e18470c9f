import LockPrune.Lockfile.Encode
import LockPrune.Proofs.Text.Octets

/-!
# Writing to a sink with limited room

A file is written by many small texts, and a sink without room for one of them takes what fits and
ends the writing there.  However the file is cut into texts, what a sink has taken is the beginning
of the file, as long as its room allows.

## Main statements

* `Sink.write_limited`, `Sink.writeAll_limited` — one text, and many, written to a sink with
  limited room.
* `Lockfile.encodeTo_limited` — what becomes of a lockfile that is written to such a sink.
-/

namespace LockPrune

namespace Sink

/-- One text takes up its own room, and is refused if it has not enough. -/
theorem write_limited (n : Nat) (taken bytes : List UInt8) :
    write ⟨some n, taken⟩ bytes =
      (⟨some (n - bytes.length), taken ++ bytes.take n⟩, decide (bytes.length ≤ n)) :=
  rfl

/-- Many texts are taken, or refused, as one. -/
theorem writeAll_limited (n : Nat) (taken : List UInt8) (texts : List (List Char)) :
    writeAll ⟨some n, taken⟩ texts =
      (⟨some (n - (octets texts.flatten).length), taken ++ (octets texts.flatten).take n⟩,
        decide ((octets texts.flatten).length ≤ n)) := by
  induction texts generalizing n taken with
  | nil => simp [writeAll]
  | cons text texts ih =>
    rw [writeAll, write_limited, List.flatten_cons, octets_append, List.length_append,
      List.take_append]
    by_cases hfits : (octets text).length ≤ n
    · -- what is left of the room is for the other texts
      have hall : decide ((octets texts.flatten).length ≤ n - (octets text).length) =
          decide ((octets text).length + (octets texts.flatten).length ≤ n) :=
        decide_eq_decide.2 (by omega)
      rw [decide_eq_true hfits]
      dsimp only
      rw [ih, List.take_of_length_le hfits, List.append_assoc, Nat.sub_sub, hall]
    · -- the room is used up, and the other texts are not tried
      have hroom : n - (octets text).length = 0 := by omega
      have hroom' : n - ((octets text).length + (octets texts.flatten).length) = 0 := by omega
      have hall : ¬ (octets text).length + (octets texts.flatten).length ≤ n := by omega
      rw [decide_eq_false hfits, decide_eq_false hall, hroom, hroom', List.take_zero,
        List.append_nil]

/-- A sink without a limit takes all texts. -/
theorem writeAll_unlimited (taken : List UInt8) (texts : List (List Char)) :
    writeAll ⟨none, taken⟩ texts = (⟨none, taken ++ octets texts.flatten⟩, true) := by
  induction texts generalizing taken with
  | nil => simp [writeAll]
  | cons text texts ih =>
    have hwrite : write ⟨none, taken⟩ (octets text) = (⟨none, taken ++ octets text⟩, true) := rfl
    rw [writeAll, hwrite, List.flatten_cons, octets_append, ← List.append_assoc]
    exact ih _

/-- A sink with limited room takes the beginning of what a sink without a limit takes. -/
theorem taken_writeAll_limited (n : Nat) (texts : List (List Char)) :
    unlimited.writeAll texts = (⟨none, octets texts.flatten⟩, true) ∧
      ((limited n).writeAll texts).1.taken =
        (octets texts.flatten).take (min n (octets texts.flatten).length) ∧
      ((limited n).writeAll texts).2 = decide ((octets texts.flatten).length ≤ n) := by
  refine ⟨writeAll_unlimited [] texts, ?_, ?_⟩
  · rw [limited, writeAll_limited, List.nil_append, ← List.take_eq_take_min]
  · rw [limited, writeAll_limited]

end Sink

namespace Lockfile

variable {l : Lockfile} {yaml : List Char}

/-- A lockfile without a form is not written at all. -/
theorem encodeTo_of_yaml?_eq_none (h : l.yaml? = none) (sink : Sink) :
    l.encodeTo sink = (sink, .error .unwritable) := by
  rw [encodeTo, writes, h]

/-- What becomes of the sink is told by the texts, and the result by whether all were taken. -/
theorem encodeTo_of_yaml?_eq_some (h : l.yaml? = some yaml) (sink : Sink) :
    (l.encodeTo sink).1 = (sink.writeAll (header.toList :: Layout.writes yaml)).1 ∧
      (l.encodeTo sink).2 =
        if (sink.writeAll (header.toList :: Layout.writes yaml)).2 then .ok ()
        else .error (.refused Sink.refusal) := by
  rw [encodeTo, writes, h]
  dsimp only
  rcases sink.writeAll (header.toList :: Layout.writes yaml) with ⟨sink', _ | _⟩ <;>
    exact ⟨rfl, rfl⟩

/-- **A sink that fills up has the beginning of the file.**  If the lockfile has no form nothing at
all is written.  Else a sink without a limit gets the file, and a sink with room for some octets
gets as many of these, from the beginning; the lockfile is written without an error exactly if they
are all.  The same is true of the layout of any text. -/
theorem encodeTo_limited (l : Lockfile) (n : Nat) :
    (l.yaml? = none → l.encodeTo (.limited n) = (.limited n, .error .unwritable)) ∧
      (∀ yaml, l.yaml? = some yaml → ∃ text bytes,
        l.encode = .ok text ∧ bytes = Sink.octets text.toList ∧
          l.encodeTo .unlimited = (⟨none, bytes⟩, .ok ()) ∧
          (l.encodeTo (.limited n)).1.taken = bytes.take (min n bytes.length) ∧
          (l.encodeTo (.limited n)).2 =
            if bytes.length ≤ n then .ok () else .error (.refused Sink.refusal)) ∧
      ∀ yaml : List Char, ∃ bytes, bytes = Sink.octets (Layout.apply yaml) ∧
        Sink.unlimited.writeAll (Layout.writes yaml) = (⟨none, bytes⟩, true) ∧
          ((Sink.limited n).writeAll (Layout.writes yaml)).1.taken =
            bytes.take (min n bytes.length) ∧
          ((Sink.limited n).writeAll (Layout.writes yaml)).2 = decide (bytes.length ≤ n) := by
  refine ⟨fun h => encodeTo_of_yaml?_eq_none h _, fun yaml h => ?_, fun yaml => ?_⟩
  · obtain ⟨hall, htaken, hfits⟩ :=
      Sink.taken_writeAll_limited n (header.toList :: Layout.writes yaml)
    refine ⟨String.ofList (header.toList :: Layout.writes yaml).flatten, _, ?_, rfl, ?_⟩
    · rw [encode, writes, h]
      rfl
    · obtain ⟨hsink, hresult⟩ := encodeTo_of_yaml?_eq_some h (.limited n)
      obtain ⟨hsink', hresult'⟩ := encodeTo_of_yaml?_eq_some h .unlimited
      rw [String.toList_ofList, hsink, htaken, hresult, hfits]
      refine ⟨?_, rfl, ?_⟩
      · rw [hall] at hsink' hresult'
        exact Prod.ext hsink' hresult'
      · simp only [decide_eq_true_eq]
  · exact ⟨_, rfl, Sink.taken_writeAll_limited n (Layout.writes yaml)⟩

/-- A lockfile without a form: its package has a field whose only key is a mapping of one entry. -/
def formless : Lockfile :=
  ofBlocks .current
    [⟨"a@1", { extra := .ofList [("b", .mapping [(.mapping [(.null, .null)], .null)])] }⟩]

/-- A lockfile of two packages, one of them under two keys. -/
def couple : Lockfile :=
  ofBlocks .current [⟨"b@1", { version := "2" }⟩, ⟨"a@1, a@2", { version := "1" }⟩]

/-- The room that the header takes up. -/
def headerRoom : Nat :=
  (Sink.octets header.toList).length

/-- What stands behind the header in the file of the packages, up to the middle of a block. -/
def coupleFront : String :=
  "\nb@1:\n  version: \"2\"\n\na@1:\n  ver"

/-- The rest of the file. -/
def coupleBack : String :=
  "sion: \"1\"\n\na@2:\n  version: \"1\"\n"

theorem encode_couple :
    couple.yaml?.isSome = true ∧ couple.encode = .ok (header ++ coupleFront ++ coupleBack) := by
  have h : couple.yaml?.map Layout.apply = some (coupleFront ++ coupleBack).toList := by
    decide +kernel
  obtain ⟨yaml, hyaml, happly⟩ := Option.map_eq_some_iff.1 h
  have htexts : (header.toList :: Layout.writes yaml).flatten =
      (header ++ coupleFront ++ coupleBack).toList := by
    rw [List.flatten_cons, ← Layout.apply, happly, String.append_assoc, ← String.toList_append]
  refine ⟨by rw [hyaml]; rfl, ?_⟩
  rw [encode, writes, hyaml]
  exact congrArg Except.ok ((congrArg String.ofList htexts).trans String.ofList_toList)

/-- Nothing is written of a lockfile without a form.  Of one with blocks, a sink with room up to the
middle of a block gets what stands there, and a sink with room for the whole file gets it all. -/
theorem encodeTo_limited_couple :
    formless.yaml? = none ∧
      formless.encodeTo (.limited 3) = (.limited 3, .error .unwritable) ∧
      couple.yaml?.isSome = true ∧
      (couple.encodeTo (.limited (headerRoom + 32))).1.taken =
        Sink.octets (header ++ coupleFront).toList ∧
      (couple.encodeTo (.limited (headerRoom + 32))).2 = .error (.refused "sink closed") ∧
      (couple.encodeTo (.limited (headerRoom + 63))).1.taken =
        Sink.octets (header ++ coupleFront ++ coupleBack).toList ∧
      (couple.encodeTo (.limited (headerRoom + 63))).2 = .ok () := by
  have hnone : formless.yaml? = none := rfl
  obtain ⟨hsome, hencode⟩ := encode_couple
  obtain ⟨yaml, hyaml⟩ := Option.isSome_iff_exists.1 hsome
  have hfront : (Sink.octets (header ++ coupleFront).toList).length = headerRoom + 32 := by
    have hbody : (Sink.octets coupleFront.toList).length = 32 := by decide +kernel
    rw [String.toList_append, Sink.octets_append, List.length_append, hbody, headerRoom]
  have hwhole : (Sink.octets (header ++ coupleFront ++ coupleBack).toList).length =
      headerRoom + 63 := by
    have hrest : (Sink.octets coupleBack.toList).length = 31 := by decide +kernel
    rw [String.toList_append, Sink.octets_append, List.length_append, hfront, hrest]
  refine ⟨hnone, (encodeTo_limited formless 3).1 hnone, hsome, ?_⟩
  obtain ⟨text, bytes, htext, rfl, -, htaken, hresult⟩ :=
    (encodeTo_limited couple (headerRoom + 32)).2.1 yaml hyaml
  obtain ⟨text', bytes', htext', rfl, -, htaken', hresult'⟩ :=
    (encodeTo_limited couple (headerRoom + 63)).2.1 yaml hyaml
  obtain rfl := Except.ok.inj (hencode.symm.trans htext)
  obtain rfl := Except.ok.inj (hencode.symm.trans htext')
  refine ⟨?_, ?_, ?_, ?_⟩
  · rw [htaken, ← List.take_eq_take_min, String.toList_append, Sink.octets_append,
      List.take_left' hfront]
  · rw [hresult, hwhole, if_neg (by omega)]
    rfl
  · rw [htaken', ← hwhole, Nat.min_self, List.take_length]
  · rw [hresult', hwhole, if_pos (Nat.le_refl _)]

end Lockfile

end LockPrune
