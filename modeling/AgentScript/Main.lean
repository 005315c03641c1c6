import AgentScript.CommandLine

/-! The command line program: files, standard streams and the exit code. -/
namespace AgentScript.CommandLine

def readFile? (path : String) : IO (Option String) := do
  try return some (← IO.FS.readFile path) catch _ => return none

partial def readLines (stream : IO.FS.Stream) (read : String) : IO String := do
  let line ← stream.getLine
  if line.isEmpty then return read else readLines stream (read ++ line)

def readInput? (path : String) : IO (Option String) := do
  if path = "-" then
    try return some (← readLines (← IO.getStdin) "") catch _ => return none
  else readFile? path

def writeFile (path text : String) : IO Bool := do
  try
    IO.FS.writeFile path text
    return true
  catch _ => return false

/-- Prints an outcome and answers the exit code. -/
def finish (o : Outcome) : IO UInt32 := do
  IO.eprint o.stderr
  match o.written with
  | some (path, text) =>
    if !(← writeFile path text) then
      IO.eprint ("ralc: failed to write " ++ path ++ "\n")
      return 2
  | none => pure ()
  IO.print o.stdout
  return o.exit.toUInt32

def runWith (args : List String) : IO UInt32 := do
  match parse args with
  | .error outcome => finish outcome
  | .ok command =>
    let settings ← match command.config with
      | some path => readFile? path
      | none => pure none
    finish (command.run settings (← readInput? command.file))

end AgentScript.CommandLine

def main (args : List String) : IO UInt32 := AgentScript.CommandLine.runWith args
