/-
The paths that a run of the command line may touch.
-/
import DataflowSynth.CommandLine.Arguments
import DataflowSynth.Text.Cut

namespace DataflowSynth.CommandLine

/-- The file that is read. -/
def inputPath? (arguments : List String) : Option String :=
  match parse arguments with
  | .ok (.job o) => if o.listPasses then none else o.file
  | _ => none

/-- The files that may be created: the output, and the values of settings. -/
def outputPaths (arguments : List String) : List String :=
  match parse arguments with
  | .ok (.job o) => o.output.text :: o.settings.filterMap fun s => (cut '=' s).map Prod.snd
  | _ => []

/-- The directory that a path leads into. -/
def directoryOf (path : String) : String :=
  match cut '/' (String.ofList path.toList.reverse) with
  | none => "."
  | some (_, front) => if front = "" then "/" else String.ofList front.toList.reverse

end DataflowSynth.CommandLine
