import LockPrune.Lockfile.Decode
import LockPrune.Proofs.Text.Lines
import LockPrune.Sink

/-!
# The octets of a text

The octets of a text are those of its characters, and the text is read back from them.  A line
feed is one octet, so the lines of two texts with a line feed between are the lines of the one and
then those of the other.

## Main statements

* `fromUTF8?_octets` — a text is read back from its octets.
* `octetLines_append`, `octetLines_flatMap` — the lines of two texts, and of many.
-/

namespace LockPrune

namespace Sink

@[simp] theorem octets_nil : octets [] = [] := rfl

@[simp] theorem octets_append (s t : List Char) : octets (s ++ t) = octets s ++ octets t :=
  List.flatMap_append

theorem octets_lineFeed (s : List Char) : octets ('\n' :: s) = 10 :: octets s := rfl

/-- A text is read back from its octets. -/
theorem fromUTF8?_octets (s : List Char) :
    String.fromUTF8? ⟨(octets s).toArray⟩ = some (String.ofList s) := by
  have hbytes : ByteArray.mk (octets s).toArray = (String.ofList s).toByteArray := by
    rw [String.toByteArray_ofList, List.utf8Encode]
    apply ByteArray.ext
    simp [octets]
  rw [hbytes, String.fromUTF8?, dif_pos (String.isValidUTF8 _)]
  rfl

end Sink

/-- The lines of two texts with a line feed between. -/
theorem octetLines_append (s t : List Char) :
    octetLines (Sink.octets (s ++ '\n' :: t)) =
      octetLines (Sink.octets s) ++ octetLines (Sink.octets t) := by
  rw [Sink.octets_append, Sink.octets_lineFeed]
  exact Text.splitOn_append _ _ _

/-- The lines of texts with a line feed behind each, and of what follows. -/
theorem octetLines_flatMap (xs : List (List Char)) (t : List Char) :
    octetLines (Sink.octets (xs.flatMap (· ++ ['\n']) ++ t)) =
      xs.flatMap (fun x => octetLines (Sink.octets x)) ++ octetLines (Sink.octets t) := by
  induction xs with
  | nil => rfl
  | cons x xs ih =>
    rw [List.flatMap_cons, List.append_assoc, List.append_assoc, List.singleton_append,
      octetLines_append, ih, List.flatMap_cons, List.append_assoc]

end LockPrune
