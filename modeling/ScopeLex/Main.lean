import ScopeLex.CommandLine.Reply

/-!
# The program

Reads the file that the command line names and prints the reply.
-/

open ScopeLex.CommandLine in
/-- Analyse the file named by the arguments. -/
def main (args : List String) : IO UInt32 := do
  let content ← match readArguments args with
    | .ok (file, _) => try some <$> IO.FS.readBinFile file catch _ => pure none
    | .error _ => pure none
  let answer := reply args fun _ => content
  IO.print answer.output
  for message in answer.messages do
    IO.eprintln message
  return answer.exitCode.toUInt32
