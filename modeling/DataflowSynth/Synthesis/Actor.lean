/-
The design of an actor.

Every port becomes a FIFO interface, every state variable a register and every circular buffer a
memory.  Every action becomes a task that moves its tokens on ports without a buffer, first in and
then out.  One more task samples the ports that the scheduler tests.
-/
import DataflowSynth.Design.Clock
import DataflowSynth.Design.Resource
import DataflowSynth.Design.Task
import DataflowSynth.Job
import DataflowSynth.Synthesis.Block

namespace DataflowSynth.Synthesis

/-- The interfaces of the ports, by name of port. -/
abbrev Interfaces := OrderedMap String FifoId

/-! ### Shared resources -/

def protocolOf (p : Actor.Port) : FifoProtocol :=
  if p.type.isObject then .object
  else if p.buffer.isSome then .circularBuffer
  else .scalar

def signalOf (type : DataType) : Signal := ⟨type.width, type.isSigned⟩

/-- The contents of a circular buffer before the first token: nothing but zero bytes. -/
def emptyBuffer (size width : UInt32) : List LogicalValue :=
  List.replicate size.toNat (.scalar (List.replicate ((width.toNat + 7) / 8) 0))

/-- The interface of a port, and the memory of its buffer. -/
def addPort (direction : Direction) (fifos : Interfaces) (p : Actor.Port) :
    Design.Step Interfaces := do
  let width := p.type.width
  let h ← Design.getFifo { name := p.name, direction, width, protocol := protocolOf p }
  match p.buffer with
  | none => pure ()
  | some size =>
    discard (Design.newMemory ("cb_" ++ p.name ++ "_buffer") width (emptyBuffer size width))
  return fifos.put p.name h

def addVariable (v : Variable) : Design.Step Unit := do
  if v.type.isObject then Build.fail (.unsupported (.objectState v.name))
  Design.addRegister { name := v.name, signal := signalOf v.type, initial := v.initial.getD 0 }

/-- The clock domain, the interfaces, the memories and the registers of an actor. -/
def addResources (clockDomain : String) (actor : Actor) : Design.Step Interfaces := do
  let _ ← Design.clockDomain clockDomain
  let fifos ← actor.inputs.foldlM (addPort .input) ∅
  let fifos ← actor.outputs.foldlM (addPort .output) fifos
  actor.stateVars.forM addVariable
  return fifos

/-! ### Tasks -/

def interfaceOf (fifos : Interfaces) (port : String) : Design.Step FifoId :=
  match fifos.find? port with
  | some h => pure h
  | none => Build.fail (.refused (.noFifo port))

/-- As many steps as `count` says. -/
def times {α : Type} (count : Nat) (f : Nat → Design.Step α) : Design.Step (List α) :=
  (List.range count).mapM f

/-- The reads of a pattern entry.  A port that is not there, or has a buffer, is not read. -/
def readSteps (actor : Actor) (fifos : Interfaces) (e : Actor.TokenCount) :
    Design.Step (List ComponentId) := do
  match actor.input? e.port with
  | none => return []
  | some p =>
    if p.buffer.isSome then return []
    let h ← interfaceOf fifos p.name
    times e.tokens.toNat fun _ => Design.fifoAccess h .read

/-- A write whose token enters the block on a port of its own. -/
def writeStep (block : ComponentId) (h : FifoId) (p : Actor.Port) (token : Nat) :
    Design.Step ComponentId := do
  let write ← Design.fifoAccess h .write
  let signal := signalOf p.type
  Design.wiring do
    let index := (← Netlist.component block).dataPorts.length
    let input ← Netlist.makeDataPort block (p.name ++ "_" ++ Nat.repr token)
    Netlist.setPortSignal input signal
    let b ← Netlist.dataBus block index
    Netlist.setBusSignal b signal
    Netlist.setBus (← Netlist.dataPort write 0) (some b)
  return write

/-- The writes of a pattern entry.  A port that is not there, or has a buffer, is not written. -/
def writeSteps (actor : Actor) (fifos : Interfaces) (block : ComponentId) (e : Actor.TokenCount) :
    Design.Step (List ComponentId) := do
  match actor.output? e.port with
  | none => return []
  | some p =>
    if p.buffer.isSome then return []
    let h ← interfaceOf fifos p.name
    times e.tokens.toNat (writeStep block h p)

/-- Adds a task and connects it to its clock domain. -/
def addClockedTask (clockDomain name : String) (block : ComponentId) : Design.Step TaskId := do
  let t ← Design.addTask name block
  let domain ← Design.clockDomain clockDomain
  Design.connectToDomain (← Design.task t).call domain
  return t

/-- The task of an action, and the number of tokens that it moves. -/
def addActionTask (clockDomain : String) (actor : Actor) (fifos : Interfaces) (a : Actor.Action) :
    Design.Step (TaskId × Nat) := do
  let block ← Design.wiring (Netlist.newModule .block a.body 0)
  let reads ← a.inputs.mapM (readSteps actor fifos)
  let writes ← a.outputs.mapM (writeSteps actor fifos block)
  let steps := reads.flatten ++ writes.flatten
  Design.wiring (sequence block steps)
  return (← addClockedTask clockDomain a.name block, steps.length)

/-! ### The scheduler task -/

/-- The ports that instructions sample. -/
def instructionPorts (is : List Instruction) : List String :=
  is.filterMap fun
    | .portStatus _ port => some port
    | _ => none

/-- The ports that a block samples, as often as it names them. -/
def blockPorts : Block → List String
  | .basic instructions => instructionPorts instructions
  | .branch _ thenBlocks elseBlocks => blocksPorts thenBlocks ++ blocksPorts elseBlocks
  | .loop _ body => blocksPorts body
  | .mutex blocks => blocksPorts blocks
where
  blocksPorts : List Block → List String
    | [] => []
    | b :: bs => blockPorts b ++ blocksPorts bs

/-- Adds a name at the end, unless it is there. -/
def addOnce (names : List String) (name : String) : List String :=
  if names.contains name then names else names ++ [name]

/-- The ports that a procedure samples, in the order of their first use. -/
def sampledPorts (p : Procedure) : List String :=
  (blockPorts.blocksPorts p.blocks).foldl addOnce []

/-- The task that samples the ports that the scheduler tests. -/
def addSchedulerTask (clockDomain : String) (fifos : Interfaces) (ports : List String) :
    Design.Step TaskId := do
  let block ← Design.wiring (Netlist.newModule .block "scheduler_body" 0)
  let probes ← ports.mapM fun p => do Design.fifoAccess (← interfaceOf fifos p) .status
  Design.wiring (parallel block probes)
  addClockedTask clockDomain "scheduler" block

end DataflowSynth.Synthesis
