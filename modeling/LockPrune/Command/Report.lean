/-!
# Reports

What a command leaves behind besides files: a code that tells how it went, what it prints,
and what it complains of.

## Main definitions

* `Complaint` — what went wrong, and what is behind it.
* `Report` — the answer of a command.
-/

namespace LockPrune.Command

/-- What went wrong, what is behind it from the nearest cause to the farthest, what may be
done about it, and its code. -/
structure Complaint where
  message : String
  causes : List String := []
  help? : Option String := none
  code? : Option String := none
  deriving DecidableEq, Repr

namespace Complaint

/-- The complaint that `message` went wrong because of what `c` is about. -/
def behind (message : String) (c : Complaint) : Complaint :=
  { c with message := message, causes := c.message :: c.causes }

/-- A line of a complaint. -/
def line (title text : String) : String :=
  title ++ ": " ++ text ++ "\n"

/-- The text of a complaint. -/
def text (c : Complaint) : String :=
  line "Error" c.message ++ line "    Diagnostic severity" "error" ++
    String.join (c.causes.map (line "    Caused by")) ++
    String.join (c.help?.toList.map (line "diagnostic help")) ++
    String.join (c.code?.toList.map (line "diagnostic code"))

end Complaint

/-- The answer of a command: its code, what it prints, and what it complains of. -/
structure Report where
  code : Nat
  output : String := ""
  complaint : String := ""
  deriving DecidableEq, Repr

namespace Report

/-- All went well. -/
def done (output : String) : Report := ⟨0, output, ""⟩

/-- Something was not there. -/
def absent (what : String) : Report := ⟨1, "", what ++ "\n"⟩

/-- Something went wrong. -/
def failed (c : Complaint) : Report := ⟨1, "", c.text⟩

/-- The words of the command were wrong. -/
def misused (text : String) : Report := ⟨2, "", text⟩

/-- The answer has no form. -/
def formless (text : String) : Report := ⟨101, "", text ++ "\n"⟩

end Report

end LockPrune.Command
