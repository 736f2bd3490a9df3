/-
Blocks: modules that run their children one after the other, or all at once.
-/
import DataflowSynth.Netlist.Module

namespace DataflowSynth.Synthesis

open Netlist

/-- Connects the clock and reset of a child to those of its block, as far as it has use for them. -/
def wireClocks (block c : ComponentId) : Step Unit := do
  let x ← component c
  if x.consumesClock then setBus x.clock (some (← clockBus block))
  if x.consumesReset then setBus x.reset (some (← resetBus block))

/-- Connects the go of a component. -/
def start (c : ComponentId) (go : BusId) : Step Unit := do
  setBus (← component c).go (some go)

/-- Gives a block its exits, those of `children` merged, and lets it be done with `done`. -/
def close (block : ComponentId) (children : List ComponentId) (done : BusId) : Step Unit := do
  if children.isEmpty then discard (makeExit block 0 .done) else mergeExits block children
  start (← mainOutBuf block) done
  let xs ← children.mapM component
  setConsumesClock block (xs.any (·.consumesClock))
  setConsumesReset block (xs.any (·.consumesReset))
  setConsumesGo block true

/-- Starts each step with the done of the one before it, the first with `go`.  Gives the done of the
last step, or `go` if there is none. -/
def startInTurn (block : ComponentId) (go : BusId) (steps : List ComponentId) : Step BusId :=
  steps.foldlM (fun go c => do
    wireClocks block c
    start c go
    doneBus c) go

/-- Lets a block run its steps one after the other. -/
def sequence (block : ComponentId) (steps : List ComponentId) : Step Unit := do
  addComponents block steps
  let done ← startInTurn block (← goBus block) steps
  close block steps.getLast?.toList done
  setProducesDone block (!steps.isEmpty)

/-- Lets a block start all its probes at once.  They take no time, so the block is done when it
starts. -/
def parallel (block : ComponentId) (probes : List ComponentId) : Step Unit := do
  addComponents block probes
  let go ← goBus block
  probes.forM fun c => do
    wireClocks block c
    start c go
  close block probes go

end DataflowSynth.Synthesis
