/-
Primitive components: gates, flops, pin accesses, casts and constants.

Each computes one result, the first data bus of its default exit; a pin write has no result.
-/
import DataflowSynth.Netlist.Wiring

namespace DataflowSynth.Netlist

/-- A component with `inputs` data ports and one result. -/
def newPrimitive (kind : ComponentKind) (stem : String) (inputs : Nat) (result : Signal) :
    Step ComponentId := do
  let c ← newComponent kind stem inputs
  let _ ← makeExit c 1 .done
  setBusSignal (← resultBus c) result
  return c

/-! ### Gates -/

inductive Gate where
  | and
  | or
  | not
  deriving DecidableEq

def Gate.kind : Gate → ComponentKind
  | .and => .andGate
  | .or => .orGate
  | .not => .notGate

/-- A gate with `inputs` inputs of one bit. -/
def newGate (gate : Gate) (stem : String) (inputs : Nat) : Step ComponentId := do
  let c ← newPrimitive gate.kind stem inputs .bit
  (← component c).dataPorts.forM fun p => setPortSignal p .bit
  return c

/-! ### Flops -/

/-- A flop with its data, set and internal reset inputs.  The plain kind has no use for reset. -/
def newReg (kind : RegKind) (stem : String) (signal : Signal) : Step ComponentId := do
  let c ← newPrimitive (.reg kind) stem 0 signal
  setPortSignal (← makeDataPort c "d") signal
  setPortSignal (← makeDataPort c "set") .bit
  setPortSignal (← makeDataPort c "internal_reset") .bit
  changeComponent c fun x => { x with consumesClock := true, consumesReset := kind ≠ .reg }
  return c

/-- The port with the next value of a flop. -/
def regData (c : ComponentId) : Step PortId := dataPort c 0

def regSet (c : ComponentId) : Step PortId := dataPort c 1

def regInternalReset (c : ComponentId) : Step PortId := dataPort c 2

/-! ### Pins, casts and constants -/

/-- Gives out the value of a pin. -/
def newPinRead (pin : PinId) (signal : Signal) : Step ComponentId :=
  newPrimitive (.pinRead pin) "pinRead" 0 signal

/-- Drives a pin with its data port while its go is high. -/
def newPinWrite (pin : PinId) (signal : Signal) : Step ComponentId := do
  let c ← newComponent (.pinWrite pin) "pinWrite" 1
  setPortSignal (← dataPort c 0) signal
  let _ ← makeExit c 0 .done
  changeComponent c fun x => { x with consumesGo := true }
  return c

def newCast (signal : Signal) : Step ComponentId :=
  newPrimitive (.cast signal.width signal.signed) "cast" 1 signal

/-- A constant; it is signed if it is negative. -/
def newConstant (value : Int64) (width : UInt32) : Step ComponentId :=
  newPrimitive (.constant value width) "const" 0 ⟨width, value < 0⟩

end DataflowSynth.Netlist
