/-!
# Sinks

What is written goes to a sink, text by text.  A sink may have room for a limited number of
octets; it takes what fits, and refuses the rest.

## Main definitions

* `Sink` — the octets that were taken, and the room that is left.
* `Sink.writeAll` — writes texts until one is refused.
-/

namespace LockPrune

/-- Where text is written to. -/
structure Sink where
  /-- The room that is left, if it is limited. -/
  room : Option Nat
  taken : List UInt8
  deriving DecidableEq, Repr

namespace Sink

/-- A sink without a limit. -/
def unlimited : Sink := ⟨none, []⟩

/-- A sink with room for `n` octets. -/
def limited (n : Nat) : Sink := ⟨some n, []⟩

/-- The reason for which a sink without room refuses a text. -/
def refusal : String := "sink closed"

/-- The octets of a text. -/
def octets (s : List Char) : List UInt8 :=
  s.flatMap String.utf8EncodeChar

/-- Writes octets, and says whether all of them were taken. -/
def write (s : Sink) (bytes : List UInt8) : Sink × Bool :=
  match s.room with
  | none => (⟨none, s.taken ++ bytes⟩, true)
  | some n => (⟨some (n - bytes.length), s.taken ++ bytes.take n⟩, bytes.length ≤ n)

/-- Writes texts one after the other until one is refused, and says whether none was. -/
def writeAll (s : Sink) : List (List Char) → Sink × Bool
  | [] => (s, true)
  | text :: rest =>
    match s.write (octets text) with
    | (s, true) => writeAll s rest
    | (s, false) => (s, false)

end Sink

end LockPrune
