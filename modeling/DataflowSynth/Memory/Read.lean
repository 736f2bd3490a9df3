/-
Reads of memories.

A read is first a component of its own, with an address, a size and a result.  Later it is carried
out by a module that talks to the memory beside the data flow, and that module takes over all the
connections of the read.
-/
import DataflowSynth.Netlist.Module
import DataflowSynth.Netlist.Primitive

namespace DataflowSynth.Memory

open Netlist

/-- The marks of a component that works with the clock, waits for go and tells when it is done. -/
def markClocked (c : ComponentId) : Step Unit := do
  setConsumesClock c true
  setConsumesReset c true
  setConsumesGo c true
  setProducesDone c true

/-- A read of a memory. -/
def newRead (memory : UInt32) (signal : Signal) (latency : Latency) : Step ComponentId := do
  let c ← newComponent (.memoryRead memory none) "memRead" 0
  let _ ← makeDataPort c "address"
  let _ ← makeDataPort c "size"
  let x ← makeExit c 1 .done
  changeExit x fun e => { e with latency }
  setBusSignal (← resultBus c) signal
  markClocked c
  return c

/-! ### Taking over connections -/

/-- Lets `target` be driven by what drives `source`, which is then driven by nothing.  A signal that
`source` knows goes to `target`, and to its peer. -/
def takeOverPort (source target : PortId) : Step Unit := do
  match (← port source).signal with
  | none => pure ()
  | some signal =>
    setPortSignal target signal
    match (← port target).peer with
    | none => pure ()
    | some b => setBusSignal b signal
  let driver := (← port source).bus
  setBus source none
  setBus target driver

/-- Lets everything that `source` drives be driven by `target`. -/
def takeOverSinks (source target : BusId) : Step Unit := do
  (← bus source).ports.forM fun p => setBus p (some target)

/-- The port of an OutBuf that takes in what leaves on a bus of its module. -/
def outBufPort (b : BusId) : Step PortId := do
  Build.expect .noOutBufPort (← bus b).peer

/-- A bus beside the data flow that leaves the module with the signal of `driver`. -/
def sideOutput (x : ExitId) (name : String) (driver : BusId) : Step Unit := do
  let b ← makeDataBus x name
  changeBus b fun y => { y with sideband := true }
  setBusSignal b ((← bus driver).signal.getD .bit)
  setBus (← outBufPort b) (some driver)

/-! ### The done signal -/

/-- Holds a request until the memory answers; gives the done signal.  A read without latency is
answered in the cycle of its request.  Any other sets a flop, which an answer or a reset clears; if
the latency may be zero, a request can also be answered in its own cycle. -/
def doneCache (m : ComponentId) (latency : Latency) (go answer : BusId) : Step BusId := do
  let doneAnd ← newGate .and "doneAnd" 2
  addComponent m doneAnd
  let request ← dataPort doneAnd 0
  setBus (← dataPort doneAnd 1) (some answer)
  let done ← resultBus doneAnd
  if latency.isZero then
    setBus request (some go)
    return done
  let clock ← clockBus m
  let reset ← resetBus m
  let flop ← newReg .regRS "done_cache" .bit
  let resetOr ← newGate .or "resetOr" 2
  addComponents m [flop, resetOr]
  addFeedbackPoint m flop
  let held ← resultBus flop
  let clear ← resultBus resetOr
  let x ← component flop
  setBus x.clock (some clock)
  setBus x.reset (some clear)
  setBus (← regInternalReset flop) (some clear)
  setBus (← regSet flop) (some go)
  setBus (← regData flop) (some held)
  setBus (← dataPort resetOr 0) (some done)
  setBus (← dataPort resetOr 1) (some reset)
  if latency.minClocks > 0 then
    setBus request (some held)
  else
    let combOr ← newGate .or "combOr" 2
    addComponent m combOr
    setBus (← dataPort combOr 0) (some held)
    setBus (← dataPort combOr 1) (some go)
    setBus request (some (← resultBus combOr))
  return done

/-! ### Carrying out a read -/

/-- Builds the module that carries out the read `c`. -/
def buildPhysical (c : ComponentId) (memory : UInt32) : Step ComponentId := do
  let latency := (← exit (← mainExit c)).latency
  let m ← newModule .memoryReadPhysical ((← component c).name ++ "_physical") 0
  let addressIn ← makeDataPort m "addressIn"
  let sizeIn ← makeDataPort m "sizeIn"
  let read ← component c
  let x ← component m
  let address ← dataPort c 0
  let size ← dataPort c 1
  takeOverPort address addressIn
  takeOverPort size sizeIn
  takeOverPort read.go x.go
  takeOverPort read.clock x.clock
  takeOverPort read.reset x.reset
  let exit ← makeExit m 0 .done
  changeExit exit fun e => { e with latency }
  let dataOut ← makeDataBus exit "dataOut"
  let result ← resultBus c
  match (← bus result).signal with
  | none => pure ()
  | some signal => setBusSignal dataOut signal
  takeOverSinks result dataOut
  takeOverSinks (← doneBus c) (← doneBus m)
  let sideReady ← makeDataPort m "sideDataReady"
  let sideData ← makeDataPort m "sideDataIn"
  changePort sideReady fun p => { p with sideband := true }
  changePort sideData fun p => { p with sideband := true }
  setPortSignal sideReady .bit
  let go ← goBus m
  let outBuf ← mainOutBuf m
  sideOutput exit "sideAddress" (← dataBus m 0)
  sideOutput exit "sideEnable" go
  sideOutput exit "sideSize" (← dataBus m 1)
  let cast ← newCast ((← bus dataOut).signal.getD .bit)
  addComponent m cast
  setBus (← dataPort cast 0) (some (← dataBus m 3))
  setBus (← outBufPort dataOut) (some (← resultBus cast))
  let done ← doneCache m latency go (← dataBus m 2)
  setBus (← component outBuf).go (some done)
  markClocked m
  changeComponent c fun y => { y with kind := .memoryRead memory (some m) }
  let name := (← component m).name
  Build.log .debug .memories s!"built physical read {quote name} ({latency.text})"
  return m

/-- The module that carries out a read.  It is built once. -/
def makePhysical (c : ComponentId) : Step ComponentId := do
  let x ← component c
  match x.kind with
  | .memoryRead _ (some m) => return m
  | .memoryRead memory none => buildPhysical c memory
  | _ => Build.fail (.refused (.notMemoryRead x.name))

end DataflowSynth.Memory
