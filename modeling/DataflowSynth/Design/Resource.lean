/-
What a design shares among its tasks: FIFO interfaces, memories and registers.
-/
import DataflowSynth.Design.Basic
import DataflowSynth.Fifo.Accessor

namespace DataflowSynth.Design

/-! ### FIFO interfaces -/

/-- The interface with a name and a direction.  A name may stand for an input and an output. -/
def fifoNamed? (d : Design) (name : String) (direction : Direction) : Option (FifoId × Fifo) :=
  d.fifos.toList.find? fun (_, f) => f.spec.name = name ∧ f.spec.direction = direction

/-- The pins of a new interface. -/
def addFifoPins (spec : FifoSpec) : Step FifoPins := do
  match spec.direction with
  | .input =>
    let data ← addInputPin (spec.name ++ "_DATA") spec.signal .fifo
    if spec.protocol.isNative then return { data }
    let send ← addInputPin (spec.name ++ "_SEND") .bit .fifo
    let ack ← addOutputPin (spec.name ++ "_ACK") .bit .fifo
    return { data, send := some send, ack := some ack }
  | .output =>
    let data ← addOutputPin (spec.name ++ "_DATA") spec.signal .fifo
    let send ← addOutputPin (spec.name ++ "_SEND") .bit .fifo
    let ack ← addInputPin (spec.name ++ "_ACK") .bit .fifo
    let ready ← addInputPin (spec.name ++ "_RDY") .bit .fifo
    return { data, send := some send, ack := some ack, ready := some ready }

/-- The interface that `spec` asks for.  It is made when it is first asked for, and its width stays
what it was then. -/
def getFifo (spec : FifoSpec) : Step FifoId := do
  if spec.protocol = .object then Build.fail (.unsupported (.objectFifo spec.name))
  match ← Build.look (·.fifoNamed? spec.name spec.direction) with
  | some (h, f) =>
    if f.spec.width ≠ spec.width then
      Build.fail (.fatal (.fifoWidth spec.name f.spec.width spec.width))
    return h
  | none =>
    let pins ← addFifoPins spec
    let h ← Build.look (·.fifos.next)
    Build.change fun d => { d with fifos := d.fifos.push { spec, pins } }
    let what := s!"{spec.direction.text} fifo interface {quote spec.name}"
    Build.log .debug .interfaces s!"created {what} ({spec.protocol.text})"
    return h

def fifo (h : FifoId) : Step Fifo := do
  Build.expect .outOfBounds (← Build.look (·.fifos.get? h))

/-- A new accessor of an interface. -/
def fifoAccess (h : FifoId) (kind : AccessKind) : Step ComponentId := do
  wiring ((← fifo h).access kind)

/-! ### Memories -/

/-- An id that no memory was given before. -/
def nextMemoryId : Step UInt32 := do
  let id ← Build.look (·.nextMemory)
  if id.toNat + 1 < UInt32.size then
    Build.change fun d => { d with nextMemory := id + 1 }
    return id
  else Build.fail (.fatal .memoryIdsExhausted)

def memory? (d : Design) (id : UInt32) : Option Memory := d.memories.find? (·.id = id)

def addMemory (m : Memory) : Step Unit := do
  if m.id = 0 then Build.fail (.fatal .memoryIdReserved)
  if (← Build.look (·.memory? m.id)).isSome then Build.fail (.fatal (.memoryIdInUse m.id))
  Build.change fun d => { d with memories := d.memories ++ [m] }

/-- Adds a memory under an id of its own. -/
def newMemory (name : String) (width : UInt32) (initial : List LogicalValue) : Step UInt32 := do
  let id ← nextMemoryId
  addMemory { id, name, width, initial }
  return id

/-- Takes a memory out of the design, if it is there. -/
def removeMemory (id : UInt32) : Step (Option Memory) := do
  let m ← Build.look (·.memory? id)
  Build.change fun d => { d with memories := d.memories.eraseP (·.id = id) }
  return m

/-! ### Registers -/

/-- Adds a register.  One with the same name gives way to it. -/
def addRegister (r : Register) : Step Unit :=
  Build.change fun d => { d with registers := d.registers.put r.name r }

/-- Takes a register out of the design, if it is there. -/
def removeRegister (name : String) : Step (Option Register) := do
  let r ← Build.look (·.registers.find? name)
  Build.change fun d => { d with registers := d.registers.erase name }
  return r

def addInclude (text : String) : Step Unit :=
  Build.change fun d => { d with includes := d.includes ++ [text] }

end DataflowSynth.Design
