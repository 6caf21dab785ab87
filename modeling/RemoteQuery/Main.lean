import RemoteQuery.CommandLine

/-!
# The program

Reads the file that the command names, and prints what comes of the command.
-/

namespace RemoteQuery.CommandLine

def readSource (path : String) : IO (Option String) := do
  try return some (← IO.FS.readFile path) catch _ => return none

def execute (args : List String) : IO Outcome := do
  match Usage.ofArguments? args with
  | none => return .badUsage
  | some .printVersion => return .success version
  | some (.run invocation) => return invocation.run (← readSource invocation.path)

end RemoteQuery.CommandLine

def main (args : List String) : IO UInt32 := do
  let outcome ← RemoteQuery.CommandLine.execute args
  IO.print outcome.output
  return outcome.exitCode.toUInt32
