/-
Micheline/Main.lean

The program: reads what its command names, carries the command out, and writes what comes
of it.
-/
import Micheline.CommandLine.Run
import Std.Time.DateTime.Timestamp

open Micheline CommandLine

/-- Why something cannot be read, in the words of the operating system. -/
def readFault : IO.Error → String
  | .noFileOrDirectory _ _ _ => "No such file or directory (os error 2)"
  | .inappropriateType _ _ _ => "Is a directory (os error 21)"
  | .permissionDenied _ _ _ => "Permission denied (os error 13)"
  | .userError _ => "stream did not contain valid UTF-8"
  | e => e.toString

/-- The text that an action reads, or why it cannot read it. -/
def sourceOf (read : IO String) : IO Source := do
  try return .ok (← read)
  catch e => return .error (readFault e)

def main (args : List String) : IO UInt32 := do
  let paths := match Command.parse args with
    | .ok i => i.command.inputs
    | .error _ => []
  let files ← (paths.filter (· ≠ "-")).mapM fun (path : String) => do
    return (path, ← sourceOf (IO.FS.readFile path))
  let stdin ← if "-" ∈ paths then sourceOf (do (← IO.getStdin).readToEnd) else pure (.ok "")
  let now ← Std.Time.Timestamp.now
  let inputs : Inputs := { stdin, file := fun path => (files.lookup path).getD (.ok "") }
  let result := exit now.toSecondsSinceUnixEpoch.val inputs args
  IO.print result.stdout
  if let some failure := result.stderr then IO.eprintln failure.text
  return UInt32.ofNat result.code
