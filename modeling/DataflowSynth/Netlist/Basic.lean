/-
Netlists: components, their terminals, and the arena that holds them.

A component takes signals in on ports and gives signals out on buses.  Its buses are grouped into
exits, one for every way in which it can end, and each exit has a done bus.  A port is driven by
at most one bus.  A module is a component with an interior: its InBuf repeats the module's ports
as buses inside, and for every exit an OutBuf takes in what leaves the module there.

Nothing is ever taken out of the arena; removal only unlinks.
-/
import DataflowSynth.Handle
import DataflowSynth.Naming
import DataflowSynth.OrderedMap

namespace DataflowSynth

/-- Width in bits and signedness of a signal. -/
structure Signal where
  width : UInt32
  signed : Bool
  deriving DecidableEq

namespace Signal

def bit : Signal := ⟨1, false⟩

def text (s : Signal) : String := (if s.signed then "s" else "u") ++ Nat.repr s.width.toNat

end Signal

/-- Number of clock cycles from go to done. -/
structure Latency where
  minClocks : UInt32
  maxClocks : UInt32
  /-- The upper bound is not known; done tells when the component is ready. -/
  unbounded : Bool
  deriving DecidableEq

namespace Latency

def constant (clocks : UInt32) : Latency := ⟨clocks, clocks, false⟩

def atLeast (clocks : UInt32) : Latency := ⟨clocks, clocks, true⟩

def zero : Latency := constant 0

instance : Inhabited Latency := ⟨zero⟩

def isFixed (l : Latency) : Bool := !l.unbounded && l.minClocks = l.maxClocks

def isZero (l : Latency) : Bool := l = zero

def text (l : Latency) : String :=
  if l.unbounded then Nat.repr l.minClocks.toNat ++ "+"
  else if l.minClocks = l.maxClocks then Nat.repr l.minClocks.toNat
  else Nat.repr l.minClocks.toNat ++ ".." ++ Nat.repr l.maxClocks.toNat

end Latency

/-- The ways in which a component can end. -/
inductive ExitKind where
  | done
  | returned
  | exception
  | broken
  | continued
  | sideband
  deriving DecidableEq

def ExitKind.text : ExitKind → String
  | .done => "done"
  | .returned => "return"
  | .exception => "exception"
  | .broken => "break"
  | .continued => "continue"
  | .sideband => "sideband"

/-- What tells an exit from the other exits of its component. -/
structure ExitTag where
  kind : ExitKind
  label : Option String := none
  deriving DecidableEq

namespace ExitTag

/-- The exit that a component has by default. -/
def done : ExitTag := ⟨.done, none⟩

def text (t : ExitTag) : String :=
  match t.label with
  | some label => t.kind.text ++ ":" ++ label
  | none => t.kind.text

end ExitTag

namespace Netlist

inductive PortRole where
  | clock
  | reset
  | go
  | this
  | data
  deriving DecidableEq

/-- A terminal where a component takes a signal in. -/
structure Port where
  name : String
  owner : ComponentId
  role : PortRole
  signal : Option Signal
  /-- The connection is outside the data flow, such as a pin. -/
  sideband : Bool := false
  /-- The bus that drives the port. -/
  bus : Option BusId := none
  /-- Of a module's port, the bus that repeats it inside; of an OutBuf's port, the bus of the
  module that repeats it outside. -/
  peer : Option BusId := none

/-- A new port.  Control signals are single bits; what data looks like is said later. -/
def Port.new (name : String) (owner : ComponentId) (role : PortRole) : Port where
  name := name
  owner := owner
  role := role
  signal := match role with
    | .data | .this => none
    | .clock | .reset | .go => some .bit

inductive BusRole where
  | done
  | data
  | clock
  | reset
  | this
  deriving DecidableEq

/-- A terminal where a component gives a signal out. -/
structure Bus where
  name : String
  owner : ExitId
  role : BusRole
  signal : Option Signal
  sideband : Bool := false
  peer : Option PortId := none
  /-- The ports that the bus drives. -/
  ports : List PortId := []

def Bus.new (name : String) (owner : ExitId) (role : BusRole) : Bus where
  name := name
  owner := owner
  role := role
  signal := match role with
    | .data | .this => none
    | .done | .clock | .reset => some .bit

/-- One way for a component to end, with the buses that then carry its results. -/
structure Exit where
  owner : ComponentId
  tag : ExitTag
  done : BusId
  data : List BusId := []
  /-- The clock, reset and this buses of an InBuf; no other component has any. -/
  control : List BusId := []
  latency : Latency := .zero
  /-- The OutBuf of a module's exit. -/
  peer : Option ComponentId := none

def Exit.buses (x : Exit) : List BusId := x.done :: x.data ++ x.control

inductive DependencyKind where
  | clock
  | reset
  | control
  | data
  deriving DecidableEq

/-- That a port takes its value from a bus. -/
structure Dependency where
  kind : DependencyKind
  bus : BusId
  deriving DecidableEq

/-- How the ports of a component are bound when it is entered from one predecessor. -/
structure Entry where
  owner : ComponentId
  drivingExit : Option ExitId
  dependencies : OrderedMap PortId (List Dependency) := ∅

/-- The dependencies of all ports, in order. -/
def Entry.toList (e : Entry) : List (PortId × Dependency) :=
  e.dependencies.entries.flatMap fun (port, ds) => ds.map fun d => (port, d)

/-- Kinds of flops. -/
inductive RegKind where
  | reg
  /-- With a synchronous reset. -/
  | regR
  /-- With a synchronous reset and set. -/
  | regRS
  deriving DecidableEq

def RegKind.text : RegKind → String
  | .reg => "Reg"
  | .regR => "RegR"
  | .regRS => "RegRS"

/-- Kinds of modules. -/
inductive ModuleKind where
  | block
  | design
  /-- A procedure call in hardware; `body` is its only child. -/
  | task (body : ComponentId)
  | fifoRead
  | fifoWrite
  | actionPortStatus
  /-- How a memory read is carried out. -/
  | memoryReadPhysical
  deriving DecidableEq

def ModuleKind.text : ModuleKind → String
  | .block => "Block"
  | .design => "Design"
  | .task _ => "Task"
  | .fifoRead => "FifoRead"
  | .fifoWrite => "FifoWrite"
  | .actionPortStatus => "ActionPortStatus"
  | .memoryReadPhysical => "MemoryReadPhysical"

inductive ComponentKind where
  | inBuf
  | outBuf
  | reg (kind : RegKind)
  | andGate
  | orGate
  | notGate
  | cast (width : UInt32) (signed : Bool)
  | constant (value : Int64) (width : UInt32)
  | pinRead (pin : PinId)
  | pinWrite (pin : PinId)
  /-- Brings an outside reset in step with its clock. -/
  | globalReset
  /-- A read of a memory; `physical` carries it out, once it is built. -/
  | memoryRead (memory : UInt32) (physical : Option ComponentId)
  | module (kind : ModuleKind)
  deriving DecidableEq

namespace ComponentKind

def isModule : ComponentKind → Bool
  | .module _ => true
  | _ => false

def isBuffer : ComponentKind → Bool
  | .inBuf | .outBuf => true
  | _ => false

def module? : ComponentKind → Option ModuleKind
  | .module kind => some kind
  | _ => none

def text : ComponentKind → String
  | .inBuf => "InBuf"
  | .outBuf => "OutBuf"
  | .reg kind => "Reg(" ++ kind.text ++ ")"
  | .andGate => "And"
  | .orGate => "Or"
  | .notGate => "Not"
  | .cast width signed => "Cast(" ++ (Signal.mk width signed).text ++ ")"
  | .constant value width => s!"Constant({value.toInt}, {width.toNat})"
  | .pinRead pin => "PinRead(" ++ pin.text ++ ")"
  | .pinWrite pin => "PinWrite(" ++ pin.text ++ ")"
  | .globalReset => "GlobalReset"
  | .memoryRead memory _ => s!"MemoryRead(mem{memory.toNat})"
  | .module kind => kind.text

end ComponentKind

/-- What only modules have. -/
structure Interior where
  inBuf : ComponentId
  /-- The children; the InBuf and the OutBufs are not among them. -/
  children : List ComponentId := []
  /-- Children that close a loop on purpose, in ascending order. -/
  feedback : List ComponentId := []

structure Component where
  name : String
  kind : ComponentKind
  owner : Option ComponentId := none
  clock : PortId
  reset : PortId
  go : PortId
  this : Option PortId := none
  dataPorts : List PortId := []
  exits : OrderedMap ExitTag ExitId := ∅
  entries : List EntryId := []
  consumesClock : Bool := false
  consumesReset : Bool := false
  consumesGo : Bool := false
  producesDone : Bool := false
  doneSynchronous : Bool := false
  interior : Option Interior := none

namespace Component

/-- The control ports followed by the data ports. -/
def ports (c : Component) : List PortId :=
  [c.clock, c.reset, c.go] ++ c.this.toList ++ c.dataPorts

def isModule (c : Component) : Bool := c.interior.isSome

/-- The exit that the component has by default. -/
def mainExit? (c : Component) : Option ExitId := c.exits.find? .done

end Component

end Netlist

/-- All components of a design with their terminals. -/
structure Netlist where
  components : Arena .component Netlist.Component := ∅
  ports : Arena .port Netlist.Port := ∅
  buses : Arena .bus Netlist.Bus := ∅
  exits : Arena .exit Netlist.Exit := ∅
  entries : Arena .entry Netlist.Entry := ∅
  names : NameSupply := {}

instance : Inhabited Netlist := ⟨{}⟩

end DataflowSynth
