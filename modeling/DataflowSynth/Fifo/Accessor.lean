/-
Modules that move a token through a FIFO, or ask whether one could be moved.

An accessor is started by its go for one cycle and waits until the other side is there.  A flop
remembers that it was started, so it is pending from the go on until the handshake takes place:

    pending = flop | go
    done    = pending & ready
    flop'   = pending & !ready

where `ready` is the send pin of an input and the ack pin of an output.
-/
import DataflowSynth.Fifo.Basic
import DataflowSynth.Netlist.Module
import DataflowSynth.Netlist.Primitive

namespace DataflowSynth.Fifo

open Netlist

/-! ### Pieces -/

/-- Connects a data port of a component. -/
def wire (c : ComponentId) (index : Nat) (b : BusId) : Step Unit := do
  setBus (← dataPort c index) (some b)

/-- Connects data ports from `index` on. -/
def wireFrom (c : ComponentId) : (index : Nat) → List BusId → Step Unit
  | _, [] => pure ()
  | index, b :: bs => do
    wire c index b
    wireFrom c (index + 1) bs

/-- A gate inside a module, connected to its inputs; gives the output. -/
def gate (m : ComponentId) (g : Gate) (stem : String) (inputs : List BusId) : Step BusId := do
  let c ← newGate g stem inputs.length
  wireFrom c 0 inputs
  addComponent m c
  resultBus c

/-- A read of a pin inside a module; gives the value. -/
def readPin (m : ComponentId) (pin : PinId) (signal : Signal) : Step BusId := do
  let c ← newPinRead pin signal
  addComponent m c
  resultBus c

/-- A write of a pin inside a module, which drives the pin with `value` while `go` is high. -/
def writePin (m : ComponentId) (pin : PinId) (signal : Signal) (value go : BusId) :
    Step Unit := do
  let c ← newPinWrite pin signal
  addComponent m c
  wire c 0 value
  setBus (← component c).go (some go)

/-- The flop that remembers a request, and the gate that tells whether one is pending.  Gives the
flop and the output of the gate. -/
def pendingLogic (m : ComponentId) (flopStem : String) : Step (ComponentId × BusId) := do
  let clock ← clockBus m
  let reset ← resetBus m
  let go ← goBus m
  let flop ← newReg .regR flopStem .bit
  let x ← component flop
  setBus x.clock (some clock)
  setBus x.reset (some reset)
  setBus (← regInternalReset flop) (some reset)
  let pending ← newGate .or "pending" 2
  wire pending 0 (← resultBus flop)
  wire pending 1 go
  addComponents m [flop, pending]
  addFeedbackPoint m flop
  return (flop, ← resultBus pending)

/-- The marks of an accessor with a handshake: it takes any number of cycles, and its done is in
step with the clock. -/
def markHandshake (m : ComponentId) : Step Unit := do
  changeExit (← mainExit m) fun x => { x with latency := .atLeast 0 }
  setConsumesClock m true
  setConsumesReset m true
  setConsumesGo m true
  setProducesDone m true
  changeComponent m fun x => { x with doneSynchronous := true }

/-! ### Accessors -/

/-- Takes one token from an input.  It is acknowledged in the cycle of done, in which the result is
on the data pin.  Without a handshake done comes at once. -/
def readToken (f : Fifo) : Step ComponentId := do
  let m ← newModule .fifoRead ("fifoRead_" ++ f.name) 0
  let _ ← makeExit m 1 .done
  setBusSignal (← resultBus m) f.spec.signal
  let outBuf ← mainOutBuf m
  let (flop, pending) ← pendingLogic m "fifoReadFlop"
  wire outBuf 0 (← readPin m f.pins.data f.spec.signal)
  let (done, next) ←
    if f.spec.protocol.isNative then pure (pending, pending)
    else do
      let ready ← readPin m (← f.sendPin) .bit
      let done ← gate m .and "doneAnd" [pending, ready]
      writePin m (← f.ackPin) .bit done done
      let notReady ← gate m .not "not" [ready]
      let next ← gate m .and "flopAnd" [notReady, pending]
      pure (done, next)
  setBus (← component outBuf).go (some done)
  setBus (← regData flop) (some next)
  markHandshake m
  return m

/-- Gives one token to an output.  Data and send are driven from go to done. -/
def writeToken (f : Fifo) : Step ComponentId := do
  let m ← newModule .fifoWrite ("fifoWrite_" ++ f.name) 1
  setPortSignal (← dataPort m 0) f.spec.signal
  let data ← dataBus m 0
  setBusSignal data f.spec.signal
  let _ ← makeExit m 0 .done
  let outBuf ← mainOutBuf m
  let (flop, pending) ← pendingLogic m "fifoWriteFlop"
  writePin m f.pins.data f.spec.signal data pending
  writePin m (← f.sendPin) .bit pending pending
  let ready ← readPin m (← f.ackPin) .bit
  let done ← gate m .and "doneAnd" [pending, ready]
  let notReady ← gate m .not "not" [ready]
  let next ← gate m .and "flopAnd" [pending, notReady]
  setBus (← component outBuf).go (some done)
  setBus (← regData flop) (some next)
  markHandshake m
  return m

/-- Tells in the same cycle whether an access would succeed.  A native FIFO cannot tell. -/
def sampleStatus (f : Fifo) : Step ComponentId := do
  match f.statusPin? with
  | none => Build.fail (.unsupported (.nativeStatus f.name))
  | some pin =>
    let m ← newModule .actionPortStatus ("portStatus_" ++ f.name) 0
    let x ← makeExit m 1 .done
    changeExit x fun e => { e with latency := .zero }
    setBusSignal (← resultBus m) .bit
    let status ← readPin m pin .bit
    wire (← mainOutBuf m) 0 status
    return m

/-- The accessor of a kind.  Inputs are read and outputs are written. -/
def access (f : Fifo) (kind : AccessKind) : Step ComponentId :=
  match kind, f.spec.direction with
  | .read, .input => readToken f
  | .write, .output => writeToken f
  | .status, _ => sampleStatus f
  | kind, direction => Build.fail (.refused (.wrongAccess kind direction f.name))

end DataflowSynth.Fifo
