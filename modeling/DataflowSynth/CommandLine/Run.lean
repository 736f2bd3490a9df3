/-
The command line as a function: from arguments and files to what is written and the exit code.
-/
import DataflowSynth.Actor.Loading
import DataflowSynth.CommandLine.Arguments
import DataflowSynth.CommandLine.Help
import DataflowSynth.Json.Writer
import DataflowSynth.Pass.Plan
import DataflowSynth.Procedure.Printer
import DataflowSynth.Text.Plain

namespace DataflowSynth.CommandLine

/-- The files as the command line sees them. -/
structure Files extends Host where
  /-- The contents of a file, if it can be read. -/
  read : String → Option String

/-- What a run of the command line does. -/
structure Outcome where
  /-- Texts and where they go, in order. -/
  writes : List (Destination × String)
  exitCode : UInt8

/-! ### The job -/

/-- The result of a job in the form that was asked for. -/
def result (emit : Emit) : Job.Step String := do
  let j ← Build.look id
  match emit with
  | .text =>
    let design ← Job.onDesign Design.text
    match j.scheduler with
    | some p => return p.text ++ "\n" ++ design
    | none => return design
  | .json =>
    let json := Json.record [
      ("actor", j.actor.toJson),
      ("scheduler", Json.ofOption Procedure.toJson j.scheduler),
      ("tasks", Json.list (j.tasks.keys.map Json.string))]
    return json.pretty ++ "\n"

/-- Runs the passes on the job and sends its result. -/
def compile (host : Host) (o : Options) : Job.Step Unit := do
  Registry.standard.run host ⟨o.passes, o.disabled, o.moves⟩ o.dump
  let text ← result o.emit
  Job.send host o.output text

/-- Loads the actor. -/
def loadActor (text : Option String) : Build Unit Actor := do
  match text with
  | none => Build.fail .missingFile
  | some text =>
    let actor ← Actor.receive (Json.read text)
    let actions := actor.actions.length
    let ports := actor.ports.length
    Build.log .info .commandLine
      s!"loaded {quote actor.name}: {actions} actions over {ports} ports"
    return actor

/-! ### What is written -/

/-- The level of a record in a field of fixed width. -/
def paddedLevel (l : Level) : String := l.text ++ "".pushn ' ' (5 - l.text.length)

/-- A record as a plain line of the log; further lines of its message are indented.  A control
function that the message leaves unfinished runs on into the end of the line. -/
def logLine (r : Record) : String :=
  plain ("[" ++ paddedLevel r.level ++ " " ++ r.source.text ++ "] " ++
    "\n    ".intercalate (r.message.splitOn "\n") ++ "\n")

/-- The texts of a journal; records down to a rank go to the standard error output. -/
def writesOf (rank : Nat) (journal : Journal) : List (Destination × String) :=
  journal.toList.filterMap fun
    | .record r => if r.level.rank ≤ rank then some (.stderr, logLine r) else none
    | .write target text => some (target, text)

/-- The end of a run: an error is reported, and an abort has an exit code of its own. -/
def conclude (writes : List (Destination × String)) : Except Failure Unit → Outcome
  | .ok () => ⟨writes, 0⟩
  | .error (.error e) => ⟨writes ++ [(.stderr, "Error: " ++ e.message ++ "\n")], 1⟩
  | .error (.abort a) => ⟨writes ++ [(.stderr, a.message ++ "\n")], 101⟩

/-- Prints a text that is not the result of a job. -/
def print (host : Host) (text : String) : Build Unit Unit := do
  match ← host.write .stdout text with
  | none => pure ()
  | some reason => Build.abort (.notPrinted reason)

/-! ### Running -/

/-- All that is done is to print a text. -/
def printOnly (host : Host) (text : String) : Outcome :=
  let (done, traced) := (print host text).run { state := () }
  conclude (writesOf 0 traced.journal) done

def runJob (files : Files) (o : Options) : Outcome :=
  if o.listPasses then printOnly files.toHost Registry.standard.help
  else match o.file with
    | none => conclude [] (.error (.error (.refused .noInput)))
    | some path =>
      let (loaded, traced) := (loadActor (files.read path)).run { state := () }
      match loaded with
      | .error e => conclude (writesOf o.logRank traced.journal) (.error e)
      | .ok actor =>
        let job := { Job.new actor with clockDomain := o.clockDomain, settings := o.settings }
        let (done, traced) :=
          (compile files.toHost o).run { state := job, journal := traced.journal }
        conclude (writesOf o.logRank traced.journal) done

/-- Runs the command line on its arguments. -/
def run (files : Files) (arguments : List String) : Outcome :=
  match parse arguments with
  | .error e =>
    ⟨[(.stderr, e.message ++ "\nRun forge --help for more information.\n")], 1⟩
  | .ok .help => printOnly files.toHost (help ++ "\n")
  | .ok (.job o) => runJob files o

end DataflowSynth.CommandLine
