/-
Dataflow actors.

An actor reads tokens from input ports and writes tokens to output ports.  What it does is cut
into actions; an action may run when the tokens its pattern names are there, its guard holds and
its outputs have space.  A finite-state machine may restrict which actions are tried when.
-/
import DataflowSynth.Procedure.Basic

namespace DataflowSynth

namespace Actor

/-- A port through which tokens enter or leave. -/
structure Port where
  name : String
  type : DataType
  /-- Capacity in tokens of the circular buffer of the port, if it has one. -/
  buffer : Option UInt32 := none
  deriving DecidableEq

/-- The state variables and locals that keep track of a circular buffer. -/
structure BufferVars where
  count : String
  tmpCount : String
  start : String
  tmpStart : String
  requestSize : String

def BufferVars.ofPort (port : String) : BufferVars where
  count := "cb_" ++ port ++ "_count"
  tmpCount := "cb_" ++ port ++ "_tmp_count"
  start := "cb_" ++ port ++ "_start"
  tmpStart := "cb_" ++ port ++ "_tmp_start"
  requestSize := "cb_" ++ port ++ "_requestSize"

def BufferVars.toList (v : BufferVars) : List String :=
  [v.count, v.tmpCount, v.start, v.tmpStart, v.requestSize]

/-- The variables of the circular buffer of a port, if it has one. -/
def Port.bufferVars? (p : Port) : Option BufferVars :=
  p.buffer.map fun _ => .ofPort p.name

/-- How many tokens an action moves on a port. -/
structure TokenCount where
  port : String
  tokens : UInt32
  deriving DecidableEq

/-- The ports that an action touches, in order. -/
abbrev Pattern := List TokenCount

namespace Pattern

/-- Sets the number of tokens on a port; a port that is not there is added at the end. -/
def push (p : Pattern) (port : String) (tokens : UInt32) : Pattern :=
  match p with
  | [] => [⟨port, tokens⟩]
  | e :: es => if e.port = port then ⟨port, tokens⟩ :: es else e :: push es port tokens

def ports (p : Pattern) : List String := p.map TokenCount.port

def tokens? (p : Pattern) (port : String) : Option UInt32 :=
  (p.find? (·.port = port)).map TokenCount.tokens

end Pattern

/-- A guarded unit of work. -/
structure Action where
  name : String
  inputs : Pattern := []
  outputs : Pattern := []
  peeks : Pattern := []
  /-- The procedure that runs when the action fires. -/
  body : String
  /-- The boolean procedure that allows the action. -/
  guard : String
  /-- Ask for as many tokens as any competing action needs before the body runs. -/
  fillBuffer : Bool := false
  /-- The hardware task of the action, once it is built. -/
  task : Option String := none
  deriving DecidableEq

/-- An action with the names of body and guard that go with its own. -/
def Action.named (name : String) : Action where
  name := name
  body := name ++ "_body"
  guard := "isSchedulable_" ++ name

namespace Action

/-- Lets the action take tokens from an input. -/
def reads (a : Action) (port : String) (tokens : UInt32) : Action :=
  { a with inputs := a.inputs.push port tokens }

/-- Lets the action give tokens to an output. -/
def writes (a : Action) (port : String) (tokens : UInt32) : Action :=
  { a with outputs := a.outputs.push port tokens }

/-- Lets the action look at tokens of an input without taking them. -/
def looksAt (a : Action) (port : String) (tokens : UInt32) : Action :=
  { a with peeks := a.peeks.push port tokens }

end Action

structure Transition where
  source : String
  target : String
  action : String
  deriving DecidableEq

/-- A finite-state machine over the actions.  Its transitions stand in order of priority. -/
structure Fsm where
  initial : String
  states : List String
  transitions : List Transition
  deriving DecidableEq

namespace Fsm

/-- The transitions that leave a state. -/
def outgoing (f : Fsm) (state : String) : List Transition :=
  f.transitions.filter (·.source = state)

/-- Whether some transition runs the action. -/
def governs (f : Fsm) (action : String) : Bool := f.transitions.any (·.action = action)

/-- The state variable that tells whether the machine is in `state`. -/
def stateVar (state : String) : String := "state_" ++ state

end Fsm

end Actor

/-- A dataflow actor.  Its actions stand in order of priority. -/
structure Actor where
  name : String
  inputs : List Actor.Port := []
  outputs : List Actor.Port := []
  stateVars : List Variable := []
  procedures : List Procedure := []
  actions : List Actor.Action := []
  fsm : Option Actor.Fsm := none

namespace Actor

def ports (a : Actor) : List Port := a.inputs ++ a.outputs

def action? (a : Actor) (name : String) : Option Action := a.actions.find? (·.name = name)

def input? (a : Actor) (name : String) : Option Port := a.inputs.find? (·.name = name)

def output? (a : Actor) (name : String) : Option Port := a.outputs.find? (·.name = name)

def procedure? (a : Actor) (name : String) : Option Procedure :=
  a.procedures.find? (·.name = name)

/-- The actions that no transition runs.  Without a machine these are all of them. -/
def actionsOutsideFsm (a : Actor) : List Action :=
  match a.fsm with
  | some fsm => a.actions.filter fun x => !fsm.governs x.name
  | none => a.actions

/-- Records the task of the first action called `name`. -/
def setTask (a : Actor) (name task : String) : Actor :=
  { a with actions := go a.actions }
where
  go : List Action → List Action
    | [] => []
    | x :: xs => if x.name = name then { x with task := some task } :: xs else x :: go xs

end Actor

end DataflowSynth
