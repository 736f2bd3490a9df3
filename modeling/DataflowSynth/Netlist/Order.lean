/-
The order in which signals run through the children of a module.

A child comes after the children that drive its ports.  What leaves a feedback point is kept in a
flop, so it says nothing about the order.
-/
import DataflowSynth.Digraph
import DataflowSynth.Netlist.Module

namespace DataflowSynth.Netlist

/-- The component that drives a port, unless it is a feedback point of `m`. -/
def orderingDriver? (m : ComponentId) (p : PortId) : Step (Option ComponentId) := do
  match (← port p).bus with
  | none => return none
  | some b =>
    let driver ← busOwner b
    return if ← isFeedbackPoint m driver then none else some driver

/-- Pairs of a driver and the child of `m` that it drives, port by port. -/
def driverPairs (m : ComponentId) : Step (List (ComponentId × ComponentId)) := do
  let pairs ← (← children m).mapM fun c => do
    let drivers ← (← component c).ports.mapM (orderingDriver? m)
    return (drivers.filterMap id).map fun d => (d, c)
  return pairs.flatten

/-- The graph on `cs` with an edge for every pair of them. -/
def childGraph (cs : List ComponentId) (pairs : List (ComponentId × ComponentId)) :
    Digraph cs.length :=
  pairs.foldl (fun g (d, c) =>
    match cs.finIdxOf? d, cs.finIdxOf? c with
    | some i, some j => g.addEdge (i, j)
    | _, _ => g) {}

/-- The children of a module, each after those that drive it.  There is no such order if signals run
in a circle without a feedback point. -/
def order (m : ComponentId) : Step (List ComponentId) := do
  let cs ← children m
  let g := childGraph cs (← driverPairs m)
  match g.sort with
  | .ok order => return order.map cs.get
  | .error v =>
    let names ← (g.cycleOf v).mapM fun w => do return (← component (cs.get w)).name
    Build.fail (.refused (.combinationalCycle (names.mergeSort fun a b => a ≤ b)))

end DataflowSynth.Netlist
