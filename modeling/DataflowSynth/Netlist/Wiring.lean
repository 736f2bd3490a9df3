/-
Making components and terminals, and connecting them.

The operations keep both ends of every link: the driver of a port and the fan-out of its bus, the
two peers at the boundary of a module, an owner and what it owns.
-/
import DataflowSynth.Build
import DataflowSynth.Netlist.Basic

namespace DataflowSynth.Netlist

/-- A step on a netlist. -/
abbrev Step := Build Netlist

/-! ### Looking at the arena -/

def component (c : ComponentId) : Step Component := do
  Build.expect .outOfBounds (← Build.look (·.components.get? c))

def port (p : PortId) : Step Port := do
  Build.expect .outOfBounds (← Build.look (·.ports.get? p))

def bus (b : BusId) : Step Bus := do
  Build.expect .outOfBounds (← Build.look (·.buses.get? b))

def exit (x : ExitId) : Step Exit := do
  Build.expect .outOfBounds (← Build.look (·.exits.get? x))

def entry (e : EntryId) : Step Entry := do
  Build.expect .outOfBounds (← Build.look (·.entries.get? e))

/-! ### Changing the arena -/

def changeComponent (c : ComponentId) (f : Component → Component) : Step Unit := do
  if ← Build.look (·.components.contains c) then
    Build.change fun n => { n with components := n.components.modify c f }
  else Build.abort .outOfBounds

def changePort (p : PortId) (f : Port → Port) : Step Unit := do
  if ← Build.look (·.ports.contains p) then
    Build.change fun n => { n with ports := n.ports.modify p f }
  else Build.abort .outOfBounds

def changeBus (b : BusId) (f : Bus → Bus) : Step Unit := do
  if ← Build.look (·.buses.contains b) then
    Build.change fun n => { n with buses := n.buses.modify b f }
  else Build.abort .outOfBounds

def changeExit (x : ExitId) (f : Exit → Exit) : Step Unit := do
  if ← Build.look (·.exits.contains x) then
    Build.change fun n => { n with exits := n.exits.modify x f }
  else Build.abort .outOfBounds

def changeEntry (e : EntryId) (f : Entry → Entry) : Step Unit := do
  if ← Build.look (·.entries.contains e) then
    Build.change fun n => { n with entries := n.entries.modify e f }
  else Build.abort .outOfBounds

def addPort (p : Port) : Step PortId := do
  let h ← Build.look (·.ports.next)
  Build.change fun n => { n with ports := n.ports.push p }
  return h

def addBus (b : Bus) : Step BusId := do
  let h ← Build.look (·.buses.next)
  Build.change fun n => { n with buses := n.buses.push b }
  return h

def addExit (x : Exit) : Step ExitId := do
  let h ← Build.look (·.exits.next)
  Build.change fun n => { n with exits := n.exits.push x }
  return h

def addEntry (e : Entry) : Step EntryId := do
  let h ← Build.look (·.entries.next)
  Build.change fun n => { n with entries := n.entries.push e }
  return h

/-- A name for a component that no other component has. -/
def freshName (stem : String) : Step String := do
  let (name, names) ← Build.look (·.names.fresh stem)
  Build.change fun n => { n with names }
  return name

/-! ### Terminals -/

/-- The exit that a component has by default has to be there. -/
def mainExit (c : ComponentId) : Step ExitId := do
  let x ← component c
  Build.expect (.noDoneExit x.name) x.mainExit?

/-- Makes a port and a bus the two sides of a module's boundary.  If one of them does not know its
signal, it takes that of the other. -/
def pair (p : PortId) (b : BusId) : Step Unit := do
  changePort p fun x => { x with peer := some b }
  changeBus b fun x => { x with peer := some p }
  let outer := (← port p).signal
  let inner := (← bus b).signal
  match inner, outer with
  | none, s => changeBus b fun x => { x with signal := s }
  | s, none => changePort p fun x => { x with signal := s }
  | some _, some _ => pure ()

/-- Adds a data bus to an exit.  At a module's exit, its OutBuf gets the port for it. -/
def makeDataBus (x : ExitId) (name : String) : Step BusId := do
  let b ← addBus (.new name x .data)
  changeExit x fun e => { e with data := e.data ++ [b] }
  match (← exit x).peer with
  | none => pure ()
  | some outBuf =>
    let p ← addPort (.new name outBuf .data)
    changeComponent outBuf fun c => { c with dataPorts := c.dataPorts ++ [p] }
    pair p b
  return b

/-- The control signals that an InBuf repeats beside the go of its module. -/
inductive Control where
  | clock
  | reset
  | this

def Control.role : Control → BusRole
  | .clock => .clock
  | .reset => .reset
  | .this => .this

def Control.text : Control → String
  | .clock => "clk"
  | .reset => "reset"
  | .this => "this"

def makeControlBus (x : ExitId) (control : Control) : Step BusId := do
  let b ← addBus (.new control.text x control.role)
  changeExit x fun e => { e with control := e.control ++ [b] }
  return b

/-- Adds a data port to a component.  On a module, the InBuf gets the bus for it. -/
def makeDataPort (c : ComponentId) (name : String) : Step PortId := do
  let p ← addPort (.new name c .data)
  changeComponent c fun x => { x with dataPorts := x.dataPorts ++ [p] }
  match (← component c).interior with
  | none => pure ()
  | some interior =>
    let b ← makeDataBus (← mainExit interior.inBuf) name
    pair p b
  return p

/-- The port on which a component learns which object it works on.  It is made once. -/
def makeThisPort (c : ComponentId) : Step PortId := do
  match (← component c).this with
  | some p => return p
  | none =>
    let p ← addPort (.new "this" c .this)
    changeComponent c fun x => { x with this := some p }
    match (← component c).interior with
    | none => pure ()
    | some interior =>
      let b ← makeControlBus (← mainExit interior.inBuf) .this
      pair p b
    return p

/-- Names with numbers behind them, counted from zero. -/
def numberedNames (stem : String) (count : Nat) : List String :=
  (List.range count).map fun i => stem ++ Nat.repr i

/-- A component with its control ports and `data` data ports.  It is called `stem` or, if that is
taken, `stem` with a number. -/
def newComponent (kind : ComponentKind) (stem : String) (data : Nat) : Step ComponentId := do
  let c ← Build.look (·.components.next)
  let clock ← addPort (.new "clk" c .clock)
  let reset ← addPort (.new "reset" c .reset)
  let go ← addPort (.new "go" c .go)
  let name ← freshName stem
  Build.change fun n =>
    { n with components := n.components.push { name, kind, clock, reset, go } }
  (numberedNames "din" data).forM fun name => discard (makeDataPort c name)
  return c

/-- The OutBuf of a new exit of a module. -/
def makeOutBuf (c : ComponentId) (x : ExitId) : Step Unit := do
  let owner ← component c
  let outBuf ← newComponent .outBuf (owner.name ++ "_outbuf") 0
  changeComponent outBuf fun b => { b with owner := some c }
  pair (← component outBuf).go (← exit x).done
  changeExit x fun e => { e with peer := some outBuf }
  changeComponent outBuf fun b => { b with consumesGo := owner.producesDone }

/-- A new exit with `data` data buses.  No component has two exits with one tag. -/
def makeExit (c : ComponentId) (data : Nat) (tag : ExitTag) : Step ExitId := do
  let owner ← component c
  if owner.exits.contains tag then Build.abort (.duplicateExit tag.text owner.name)
  let x ← Build.look (·.exits.next)
  let done ← addBus (.new "done" x .done)
  let _ ← addExit { owner := c, tag, done }
  changeComponent c fun y => { y with exits := y.exits.put tag x }
  if owner.isModule then makeOutBuf c x
  (numberedNames "dout" data).forM fun name => discard (makeDataBus x name)
  return x

/-! ### Connections -/

/-- Connects a port to a bus, or to none. -/
def setBus (p : PortId) (b : Option BusId) : Step Unit := do
  match (← port p).bus with
  | none => pure ()
  | some old => changeBus old fun x => { x with ports := x.ports.filter (· ≠ p) }
  match b with
  | none => pure ()
  | some new => changeBus new fun x => { x with ports := x.ports ++ [p] }
  changePort p fun x => { x with bus := b }

def setPortSignal (p : PortId) (s : Signal) : Step Unit :=
  changePort p fun x => { x with signal := some s }

def setBusSignal (b : BusId) (s : Signal) : Step Unit :=
  changeBus b fun x => { x with signal := some s }

/-- All buses of all exits of a component. -/
def busesOf (c : ComponentId) : Step (List BusId) := do
  let exits ← (← component c).exits.values.mapM exit
  return exits.flatMap Exit.buses

/-- Takes a component out of all its connections: what drives its ports and what its buses
drive. -/
def disconnect (c : ComponentId) : Step Unit := do
  (← component c).ports.forM fun p => setBus p none
  (← busesOf c).forM fun b => do
    let sinks := (← bus b).ports
    changeBus b fun x => { x with ports := [] }
    sinks.forM fun p => changePort p fun x => { x with bus := none }

/-- Takes an exit, and on a module its OutBuf, off a component.  Tells whether it was there. -/
def removeExit (c : ComponentId) (tag : ExitTag) : Step Bool := do
  match (← component c).exits.find? tag with
  | none => return false
  | some x =>
    changeComponent c fun y => { y with exits := y.exits.erase tag }
    match (← exit x).peer with
    | none => pure ()
    | some outBuf =>
      changeExit x fun e => { e with peer := none }
      disconnect outBuf
      changeComponent outBuf fun b => { b with owner := none }
    return true

/-- The component that gives out a bus. -/
def busOwner (b : BusId) : Step ComponentId := do
  return (← exit (← bus b).owner).owner

/-- The first data bus of the default exit: what a primitive computes. -/
def resultBus (c : ComponentId) : Step BusId := do
  Build.expect .outOfBounds (← exit (← mainExit c)).data.head?

def doneBus (c : ComponentId) : Step BusId := do
  return (← exit (← mainExit c)).done

def dataPort (c : ComponentId) (index : Nat) : Step PortId := do
  Build.expect .outOfBounds (← component c).dataPorts[index]?

/-! ### Entries -/

def makeEntry (c : ComponentId) (drivingExit : Option ExitId) : Step EntryId := do
  let e ← addEntry { owner := c, drivingExit }
  changeComponent c fun x => { x with entries := x.entries ++ [e] }
  return e

/-- Records that in this entry the port takes its value from a bus. -/
def addDependency (e : EntryId) (p : PortId) (d : Dependency) : Step Unit := do
  let _ ← port p
  changeEntry e fun x =>
    { x with dependencies := x.dependencies.alter p fun ds => ds.getD [] ++ [d] }

end DataflowSynth.Netlist
