/-
The program: reads the files, runs the command line, and writes what it says.
-/
import DataflowSynth.CommandLine.Paths
import DataflowSynth.CommandLine.Run

namespace DataflowSynth.CommandLine

/-- The contents of a file, if it can be read. -/
def readIfPresent (path : String) : IO (Option String) := do
  try return some (← IO.FS.readFile path)
  catch _ => return none

/-- Whether the directory of a file is there. -/
def hasDirectory (path : String) : IO Bool := do
  try
    let _ ← IO.FS.realPath (directoryOf path)
    return true
  catch _ => return false

/-- Sends a text to its destination. -/
def perform : Destination × String → IO Unit
  | (.null, _) => pure ()
  | (.stdout, text) => IO.print text
  | (.stderr, text) => IO.eprint text
  | (.file path, text) => IO.FS.writeFile path text

/-- Runs the command line, and gives the exit code. -/
def execute (arguments : List String) : IO UInt32 := do
  let input ← match inputPath? arguments with
    | some path => readIfPresent path
    | none => pure none
  let creatable ← (outputPaths arguments).filterM hasDirectory
  let files : Files := { canCreate := creatable.contains, read := fun _ => input }
  let outcome := run files arguments
  outcome.writes.forM perform
  return outcome.exitCode.toUInt32

end DataflowSynth.CommandLine

def main (arguments : List String) : IO UInt32 := DataflowSynth.CommandLine.execute arguments
