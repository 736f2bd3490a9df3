/-
What a job has to say while it runs: records for the log, and texts for its destinations.

Both go into one journal in the order in which they happen, because both may end up on the
standard error output.
-/
import DataflowSynth.Destination

namespace DataflowSynth

/-- How important a record is. -/
inductive Level where
  | error
  | warn
  | info
  | debug
  | trace
  deriving DecidableEq

namespace Level

/-- Higher for records that matter less. -/
def rank : Level → Nat
  | .error => 1
  | .warn => 2
  | .info => 3
  | .debug => 4
  | .trace => 5

def text : Level → String
  | .error => "ERROR"
  | .warn => "WARN"
  | .info => "INFO"
  | .debug => "DEBUG"
  | .trace => "TRACE"

end Level

/-- The part of the program a record comes from. -/
inductive Source where
  | loading
  | cloning
  | interfaces
  | memories
  | modules
  | plans
  | options
  | preconditions
  | commandLine
  /-- A pass, under its own name. -/
  | pass (name : String)
  deriving DecidableEq

def Source.text : Source → String
  | .loading => "forge_frontend::actor"
  | .cloning => "forge_ir::clone"
  | .interfaces => "forge_ir::design"
  | .memories => "forge_ir::memory"
  | .modules => "forge_ir::module"
  | .plans => "forge_opt::pass_manager"
  | .options => "forge_opt::traversal::construct"
  | .preconditions => "forge_opt::traversal::visitor"
  | .commandLine => "forge::driver"
  | .pass name => name

structure Record where
  level : Level
  source : Source
  message : String
  deriving DecidableEq

/-- Something a job does for others to see. -/
inductive Event where
  | record (r : Record)
  /-- A text is sent to a destination; a file is created with it. -/
  | write (target : Destination) (text : String)
  deriving DecidableEq

abbrev Journal := Array Event

namespace Journal

/-- The records down to a level. -/
def records (j : Journal) (down : Nat) : List Record :=
  j.toList.filterMap fun
    | .record r => if r.level.rank ≤ down then some r else none
    | .write .. => none

/-- The last text that was sent to a file. -/
def file? (j : Journal) (path : String) : Option String :=
  j.toList.foldl (fun last e =>
    match e with
    | .write (.file p) text => if p = path then some text else last
    | _ => last) none

end Journal

end DataflowSynth
