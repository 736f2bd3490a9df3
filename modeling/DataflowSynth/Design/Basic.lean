/-
Designs: a netlist under one root module, and the resources that all of it shares.

A design meets the world at its pins.  An input pin enters the root module as a data port, an
output pin leaves it as a data bus of its default exit.
-/
import DataflowSynth.Fifo.Basic
import DataflowSynth.Memory.LogicalValue
import DataflowSynth.Netlist.Module

namespace DataflowSynth

namespace Design

/-- What a pin is for. -/
inductive PinRole where
  | fifo
  | clock
  | reset
  deriving DecidableEq

/-- The terminal of the root module that stands for a pin. -/
inductive PinLink where
  | port (p : PortId)
  | bus (b : BusId)
  deriving DecidableEq

/-- A signal between a design and the world. -/
structure Pin where
  name : String
  signal : Signal
  role : PinRole
  link : PinLink
  deriving DecidableEq

def Pin.direction (p : Pin) : Direction :=
  match p.link with
  | .port _ => .input
  | .bus _ => .output

/-- A piece of work that can be started on its own. -/
structure Task where
  name : String
  /-- The task module, a child of the root module. -/
  call : ComponentId
  body : ComponentId
  deriving DecidableEq

/-- A state variable. -/
structure Register where
  name : String
  signal : Signal
  initial : Int64
  deriving DecidableEq

/-- The clock, and maybe the reset, that a group of components runs on. -/
structure ClockDomain where
  /-- The clock, or clock and reset with a colon between them. -/
  spec : String
  clock : PinId
  reset : Option PinId
  /-- What brings the reset in step with the clock. -/
  sync : Option ComponentId
  deriving DecidableEq

/-- A memory with its initial contents. -/
structure Memory where
  id : UInt32
  name : String
  /-- Bits of its data port. -/
  width : UInt32
  initial : List LogicalValue

/-- Size in bytes. -/
def Memory.size (m : Memory) : Nat := LogicalValue.size.sizeList m.initial

end Design

structure Design where
  name : String
  netlist : Netlist
  /-- The module that every task is a child of. -/
  root : ComponentId
  tasks : Arena .task Design.Task := ∅
  registers : OrderedMap String Design.Register := ∅
  memories : List Design.Memory := []
  /-- The id of the next memory; none has the id 0. -/
  nextMemory : UInt32 := 1
  pins : Arena .pin Design.Pin := ∅
  fifos : Arena .fifo Fifo := ∅
  domains : OrderedMap String Design.ClockDomain := ∅
  clockPins : OrderedMap String PinId := ∅
  resetPins : OrderedMap String PinId := ∅
  includes : List String := []

namespace Design

/-- A step on a design. -/
abbrev Step := Build Design

/-- A step on the netlist of a design. -/
def wiring {α : Type} (x : Netlist.Step α) : Step α :=
  Build.within (·.netlist) (fun netlist d => { d with netlist }) x

/-- The root module of a new design. -/
def newRoot (name : String) : Netlist.Step ComponentId := do
  let root ← Netlist.newModule .design name 0
  let _ ← Netlist.makeExit root 0 .done
  return root

/-- A design with nothing but its root module. -/
def new (name : String) : Design :=
  let (outcome, traced) := (newRoot name).run { state := {} }
  { name, netlist := traced.state, root := (outcome.toOption).getD ⟨0⟩ }

/-! ### Pins -/

def pin (p : PinId) : Step Pin := do
  Build.expect .outOfBounds (← Build.look (·.pins.get? p))

def addPin (p : Pin) : Step PinId := do
  let h ← Build.look (·.pins.next)
  Build.change fun d => { d with pins := d.pins.push p }
  return h

/-- A pin that the world drives. -/
def addInputPin (name : String) (signal : Signal) (role : PinRole) : Step PinId := do
  let root ← Build.look (·.root)
  let p ← wiring do
    let p ← Netlist.makeDataPort root name
    Netlist.setPortSignal p signal
    Netlist.setBusSignal (← Build.expect .noDesignBus (← Netlist.port p).peer) signal
    Netlist.changePort p fun x => { x with sideband := true }
    return p
  addPin { name, signal, role, link := .port p }

/-- A pin that the design drives. -/
def addOutputPin (name : String) (signal : Signal) (role : PinRole) : Step PinId := do
  let root ← Build.look (·.root)
  let b ← wiring do
    let b ← Netlist.makeDataBus (← Netlist.mainExit root) name
    Netlist.setBusSignal b signal
    Netlist.changeBus b fun x => { x with sideband := true }
    return b
  addPin { name, signal, role, link := .bus b }

/-- The pin with a link, if there is one. -/
def pinWith? (d : Design) (link : PinLink) : Option PinId :=
  (d.pins.toList.find? fun (_, p) => p.link = link).map Prod.fst

/-- The bus inside the root module with the value of an input pin. -/
def pinBus? (p : PinId) : Step (Option BusId) := do
  match ← Build.look (·.pins.get? p) with
  | some { link := .port q, .. } => return (← wiring (Netlist.port q)).peer
  | _ => return none

end Design

end DataflowSynth
