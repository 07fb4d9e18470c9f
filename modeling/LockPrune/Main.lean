import LockPrune.Command.Run

/-!
# The program

The command on the files of a machine: it takes the words of the command line, prints the
answer, and ends with its code.
-/

namespace LockPrune.Command

/-- The fault with the number that a machine gives, which may be negated. -/
def FileFault.ofCode (code : UInt32) (details : String) : FileFault :=
  let n := code.toInt32.toInt.natAbs
  let known := [missing, notDirectory, isDirectory, tooLong, notPermitted]
  (known.find? fun f => f.code = n).getD ⟨details, n⟩

/-- The fault that an error of a machine is. -/
def FileFault.ofError : IO.Error → FileFault
  | .noFileOrDirectory _ code details => ofCode code details
  | .permissionDenied _ code details => ofCode code details
  | .inappropriateType _ code details => ofCode code details
  | .illegalOperation code details => ofCode code details
  | .invalidArgument _ code details => ofCode code details
  | .alreadyExists _ code details => ofCode code details
  | .resourceBusy code details => ofCode code details
  | .resourceExhausted _ code details => ofCode code details
  | .hardwareFault code details => ofCode code details
  | .noSuchThing _ code details => ofCode code details
  | .unsupportedOperation code details => ofCode code details
  | .otherError code details => ofCode code details
  | e => ⟨toString e, 0⟩

instance : MonadFiles IO where
  readFile path := do
    try
      let octets ← IO.FS.readBinFile path
      pure (.ok octets.toList)
    catch e => pure (.error (.ofError e))
  writeFile path octets := do
    try
      IO.FS.writeBinFile path ⟨octets.toArray⟩
      pure (.ok ())
    catch e => pure (.error (.ofError e))
  removeFile path := do
    try
      IO.FS.removeFile path
      pure (.ok ())
    catch e => pure (.error (.ofError e))

end LockPrune.Command

open LockPrune.Command in
/-- Does what the words of the command line ask for. -/
def main (words : List String) : IO UInt32 := do
  let settings ← Environment.names.mapM fun name => do
    pure ((← IO.getEnv name).map fun value => (name, value))
  let report : Report ← run ⟨settings.filterMap id⟩ words
  (← IO.getStdout).putStr report.output
  (← IO.getStderr).putStr report.complaint
  pure report.code.toUInt32
