/-
Passes: the stages of a job, and the options they take.
-/
import DataflowSynth.Destination
import DataflowSynth.Job
import DataflowSynth.Text.Cut

namespace DataflowSynth

namespace Pass

/-- The value of an option. -/
inductive Value where
  | flag (on : Bool)
  | stream (target : Destination)
  deriving DecidableEq

namespace Value

def text : Value → String
  | .flag true => "true"
  | .flag false => "false"
  | .stream target => target.text

def flagOfText? : String → Option Value
  | "true" => some (.flag true)
  | "false" => some (.flag false)
  | _ => none

def streamOfText? (s : String) : Option Value := (Destination.ofText? s).map .stream

end Value

/-- An option that a pass takes. -/
structure Declaration where
  name : String
  description : String
  /-- Its kind is the kind of values that the option takes. -/
  default : Value

namespace Declaration

/-- The value that a text stands for. -/
def parse? (o : Declaration) (raw : String) : Option Value :=
  match o.default with
  | .flag _ => Value.flagOfText? raw
  | .stream _ => Value.streamOfText? raw

/-- The value of a setting; without a text the option is switched on. -/
def value? (o : Declaration) : Option String → Option Value
  | none => some (.flag true)
  | some raw => o.parse? raw

end Declaration

end Pass

/-- The stages of a job. -/
inductive Pass where
  /-- Refuses an actor that does not hang together. -/
  | wellFormed
  /-- Lowers the choice among actions. -/
  | actionScheduler
  /-- Builds the design. -/
  | designActor
  /-- Looks for signals that run in a circle. -/
  | designCheck
  deriving DecidableEq

namespace Pass

def name : Pass → String
  | .wellFormed => "well-formed"
  | .actionScheduler => "action-scheduler"
  | .designActor => "design-actor"
  | .designCheck => "design-check"

def description : Pass → String
  | .wellFormed => "Check that the actor is well formed."
  | .actionScheduler => "lower action selection into a `scheduler' procedure"
  | .designActor => "build the design: fifo interfaces, registers, buffers and tasks"
  | .designCheck => "check that every loop in the design passes through a feedback point"

/-- The option of `actionScheduler`. -/
def skipFillBuffer : Declaration where
  name := "skip-fill-buffer"
  description := "ignore fill_buffer flags when dispatching actions"
  default := .flag false

/-- The option of `designCheck`. -/
def orderStream : Declaration where
  name := "order"
  description := "write the component order of every module"
  default := .stream .null

def declarations : Pass → List Declaration
  | .actionScheduler => [skipFillBuffer]
  | .designCheck => [orderStream]
  | .wellFormed | .designActor => []

def all : List Pass := [.wellFormed, .actionScheduler, .designActor, .designCheck]

/-- Why a pass has nothing to do, if it has nothing to do. -/
def idleReason? : Pass → Job → Option String
  | .actionScheduler, j =>
    if j.scheduler.isSome then some "the scheduler is already lowered" else none
  | .designActor, j =>
    if j.scheduler.isNone then some "the scheduler is not lowered"
    else if !j.tasks.isEmpty then some "the design is already built"
    else none
  | .wellFormed, _ | .designCheck, _ => none

end Pass

end DataflowSynth
