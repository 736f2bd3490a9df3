/-
Lowering the choice among actions to a procedure.

The scheduler of an actor stores the initial state and then polls for ever.  In each round it
loads the state of the machine and the fill of the buffers, works out for every action whether it
is due (its guard holds and its tokens are there) and whether it can fire (its outputs have space),
and then runs at most one action:

    <initial stores>
    while true {
      <loads>
      <checks, two blocks for every action>
      <choice>
    }
    return;

Actions are tried in order of priority.  The first that is due keeps the ones after it from being
tried, even if it cannot fire.
-/
import DataflowSynth.Actor.Basic
import DataflowSynth.Error
import DataflowSynth.OrderedMap

namespace DataflowSynth.Scheduler

open Actor

/-! ### State variables -/

/-- The type of token counters and request sizes. -/
def counter : DataType := .uint 32

/-- The variables of the machine: exactly the initial state is set. -/
def fsmVariables (fsm : Fsm) : List Variable :=
  fsm.states.map fun s =>
    { name := Fsm.stateVar s, type := .bool, initial := some (if s = fsm.initial then 1 else 0) }

/-- The variables of the circular buffer of an input. -/
def inputVariables (v : BufferVars) : List Variable :=
  [⟨v.count, counter, none⟩, ⟨v.start, .bool, none⟩, ⟨v.requestSize, counter, none⟩]

/-- The variables of the circular buffer of an output. -/
def outputVariables (v : BufferVars) : List Variable := [⟨v.count, counter, none⟩]

def inputBuffers (a : Actor) : List BufferVars := a.inputs.filterMap Port.bufferVars?

def outputBuffers (a : Actor) : List BufferVars := a.outputs.filterMap Port.bufferVars?

/-- All variables that a scheduler reads or writes. -/
def stateVariables (a : Actor) : List Variable :=
  (a.fsm.map fsmVariables).getD [] ++
    (inputBuffers a).flatMap inputVariables ++ (outputBuffers a).flatMap outputVariables

/-- Adds a variable at the end, unless one has its name. -/
def declare (vs : List Variable) (v : Variable) : List Variable :=
  if vs.any (·.name = v.name) then vs else vs ++ [v]

/-- The actor with all variables that its scheduler reads or writes. -/
def declareState (a : Actor) : Actor :=
  { a with stateVars := (stateVariables a).foldl declare a.stateVars }

/-! ### Parts of a scheduler -/

/-- Instructions with the locals they define. -/
structure Part where
  locals : List Variable := []
  instructions : List Instruction := []

def Part.append (p q : Part) : Part :=
  ⟨p.locals ++ q.locals, p.instructions ++ q.instructions⟩

instance : Append Part := ⟨Part.append⟩

/-- Sets a new boolean local. -/
def flag (name : String) (value : Expr) : Part :=
  ⟨[⟨name, .bool, none⟩], [.assign name value]⟩

/-- Loads a state variable into a new local. -/
def loaded (name : String) (type : DataType) (source : String) : Part :=
  ⟨[⟨name, type, none⟩], [.load name source]⟩

def stateLocal (state : String) : String := "s_" ++ state

def goFlag (a : Action) : String := "actionGo_" ++ a.name

def fireFlag (a : Action) : String := "actionFire_" ++ a.name

/-! ### Start of a run, and of a round -/

/-- The stores that put the machine into its initial state and mark the buffers as new. -/
def initialStores (a : Actor) : List Instruction :=
  (match a.fsm with
    | some fsm => fsm.states.map fun s => .store (Fsm.stateVar s) (.bool (s = fsm.initial))
    | none => []) ++
  (inputBuffers a).map fun v => .store v.start (.bool true)

/-- The locals for the tokens and the start mark of an input. -/
def inputLoads (v : BufferVars) : Part where
  locals := [⟨v.tmpCount, counter, none⟩, ⟨v.tmpStart, .bool, none⟩]
  instructions := [.load v.tmpCount v.count, .load v.tmpStart v.start]

/-- The loads at the start of a round. -/
def loads (a : Actor) : Part :=
  let states := (a.fsm.map Fsm.states).getD []
  let parts :=
    states.map (fun s => loaded (stateLocal s) .bool (Fsm.stateVar s)) ++
    (inputBuffers a).map inputLoads ++
    (outputBuffers a).map fun v => loaded v.tmpCount counter v.count
  parts.foldl Part.append {}

/-! ### Checks of an action -/

/-- Samples the status of a port without a buffer. -/
def statusFlag (a : Action) (port : String) : String := "portStatus_" ++ a.name ++ "_" ++ port

def statusPart (a : Action) (port : String) : Part :=
  let name := statusFlag a port
  ⟨[⟨name, .bool, none⟩], [.portStatus name port]⟩

/-- A check of one port, and the flag that holds its outcome. -/
structure PortCheck where
  flag : String
  part : Part

/-- Whether an input has the tokens of a pattern entry. -/
def tokenCheck (actor : Actor) (a : Action) (e : TokenCount) : Except ActorDefect PortCheck :=
  match actor.input? e.port with
  | none => .error (.unknownInput a.name e.port)
  | some port =>
    match port.bufferVars? with
    | some v =>
      let name := "portTokenAvailability_" ++ a.name ++ "_" ++ port.name
      let enough := .binary .ge (.var v.tmpCount) (.int (Int64.ofNat e.tokens.toNat))
      .ok ⟨name, flag name enough⟩
    | none => .ok ⟨statusFlag a port.name, statusPart a port.name⟩

/-- Whether an output has space; a buffer has space when it is empty. -/
def spaceCheck (actor : Actor) (a : Action) (e : TokenCount) : Except ActorDefect PortCheck :=
  match actor.output? e.port with
  | none => .error (.unknownOutput a.name e.port)
  | some port =>
    match port.bufferVars? with
    | some v =>
      let name := "portSpaceAvailability_" ++ a.name ++ "_" ++ port.name
      .ok ⟨name, flag name (.binary .eq (.var v.tmpCount) (.int 0))⟩
    | none => .ok ⟨statusFlag a port.name, statusPart a port.name⟩

/-- The checks one after the other. -/
def joined (cs : List PortCheck) : Part := (cs.map PortCheck.part).foldl Part.append {}

/-- The conjunction of the flags; there is none of no checks. -/
def allFlags? (cs : List PortCheck) : Option Expr := Expr.all? (cs.map fun c => .var c.flag)

/-- Works out whether an action is due: its guard holds and its tokens are there. -/
def duePart (actor : Actor) (a : Action) : Except ActorDefect Part := do
  let checks ← a.inputs.mapM (tokenCheck actor a)
  let tokens := "tokenAvailability_" ++ a.name
  let result := "return_" ++ a.guard
  let guard : Part := ⟨[⟨result, .bool, none⟩], [.call (some result) a.guard]⟩
  match allFlags? checks with
  | some all =>
    return joined checks ++ flag tokens all ++ guard ++
      flag (goFlag a) (.and (.var result) (.var tokens))
  | none => return guard ++ flag (goFlag a) (.var result)

/-- Works out whether an action can fire: its outputs have space. -/
def firePart (actor : Actor) (a : Action) : Except ActorDefect Part := do
  let checks ← a.outputs.mapM (spaceCheck actor a)
  match allFlags? checks with
  | some all =>
    let space := "spaceAvailability_" ++ a.name
    let checked := joined checks
    return {
      locals := checked.locals ++ [⟨fireFlag a, .bool, none⟩, ⟨space, .bool, none⟩]
      instructions := checked.instructions ++
        [.assign space all, .assign (fireFlag a) (.var space)] }
  | none => return flag (fireFlag a) (.bool true)

/-! ### The choice -/

/-- An action that may be chosen, the change of state that goes with it, and the actions that
compete with it for the tokens of buffered inputs. -/
structure Candidate where
  action : Action
  /-- The states before and after. -/
  move : Option (String × String) := none
  competitors : List Action

/-- The actions that no machine governs compete with each other. -/
def freeCandidates (outside : List Action) : List Candidate :=
  outside.map fun a => { action := a, competitors := outside }

/-- For each buffered input the largest number of tokens that one of the actions reads. -/
def requestSizes (actor : Actor) (competitors : List Action) : OrderedMap String UInt32 :=
  (competitors.flatMap Action.inputs).foldl (fun sizes e =>
    match (actor.input? e.port).bind Port.bufferVars? with
    | some v => sizes.alter v.requestSize fun size => max (size.getD 0) e.tokens
    | none => sizes) ∅

/-- What an action that fills buffers asks for before its body runs. -/
def requestStores (actor : Actor) (skipFill : Bool) (c : Candidate) : List Instruction :=
  if skipFill || !c.action.fillBuffer then []
  else (requestSizes actor c.competitors).entries.map fun (target, size) =>
    .store target (.int (Int64.ofNat size.toNat))

/-- The change of state of the machine.  A state that leads to itself is left alone. -/
def moveStores : Option (String × String) → List Instruction
  | none => []
  | some (source, target) =>
    if source = target then []
    else [.store (Fsm.stateVar target) (.bool true), .store (Fsm.stateVar source) (.bool false)]

/-- What happens when a candidate fires. -/
def firing (actor : Actor) (skipFill : Bool) (c : Candidate) : List Instruction :=
  requestStores actor skipFill c ++ .call none c.action.body :: moveStores c.move

/-- Tries candidates in order: the first that is due fires if it can, and no other is tried. -/
def chain (actor : Actor) (skipFill : Bool) : List Candidate → List Block
  | [] => []
  | c :: cs =>
    [.branch (.var (goFlag c.action))
      [.branch (.var (fireFlag c.action)) [.basic (firing actor skipFill c)] []]
      (chain actor skipFill cs)]

/-- The action of a transition. -/
def transitionAction (actor : Actor) (t : Transition) : Except ActorDefect Action :=
  match actor.action? t.action with
  | some a => .ok a
  | none => .error (.unknownAction t.source t.target t.action)

/-- The candidates in a state: the actions that no machine governs, and then those of the
transitions that leave the state. -/
def stateCandidates (actor : Actor) (fsm : Fsm) (state : String) :
    Except ActorDefect (List Candidate) := do
  let outside := actor.actionsOutsideFsm
  let leaving ← (fsm.outgoing state).mapM fun t => do return (← transitionAction actor t, t)
  let competitors := leaving.map Prod.fst ++ outside
  return freeCandidates outside ++ leaving.map fun (a, t) =>
    { action := a, move := some (t.source, t.target), competitors }

/-- The choice among all actions. -/
def choice (actor : Actor) (skipFill : Bool) : Except ActorDefect (List Block) :=
  match actor.fsm with
  | none => .ok (chain actor skipFill (freeCandidates actor.actionsOutsideFsm))
  | some fsm => do
    let states ← fsm.states.mapM fun s => do
      let candidates ← stateCandidates actor fsm s
      return Block.branch (.var (stateLocal s)) (chain actor skipFill candidates) []
    return [.mutex states]

/-! ### The whole procedure -/

/-- A block of instructions, unless there are none. -/
def basicUnlessEmpty (is : List Instruction) : List Block :=
  if is.isEmpty then [] else [.basic is]

/-- The two checks of an action. -/
def checks (actor : Actor) (a : Action) : Except ActorDefect (List Part) := do
  return [← duePart actor a, ← firePart actor a]

/-- The scheduler of an actor whose state variables are declared.  With `skipFill` no action asks
for more tokens than it needs. -/
def lower (actor : Actor) (skipFill : Bool) : Except ActorDefect Procedure := do
  let loads := loads actor
  let checks := (← actor.actions.mapM (checks actor)).flatten
  let choice ← choice actor skipFill
  let body :=
    basicUnlessEmpty loads.instructions ++ checks.map (fun p => .basic p.instructions) ++ choice
  let locals := loads.locals ++ checks.flatMap Part.locals
  return {
    name := "scheduler"
    returnType := .void
    locals := locals.foldl declare []
    blocks := basicUnlessEmpty (initialStores actor) ++
      [.loop (.bool true) body, .basic [.ret none]] }

end DataflowSynth.Scheduler
