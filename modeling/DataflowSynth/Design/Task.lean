/-
Tasks: pieces of work under the root module.
-/
import DataflowSynth.Design.Basic

namespace DataflowSynth.Design

open Netlist

/-- Puts `body` into a task module: it is started with the task, and the task is done when it is. -/
def wrapBody (name : String) (body : ComponentId) : Netlist.Step ComponentId := do
  let call ← newModule (.task body) name 0
  addComponent call body
  let x ← component body
  let go ← goBus call
  let clock ← clockBus call
  let reset ← resetBus call
  setBus x.go (some go)
  setBus x.clock (some clock)
  setBus x.reset (some reset)
  mergeExits call [body]
  match (← component body).mainExit? with
  | none => pure ()
  | some x =>
    let outBuf ← component (← mainOutBuf call)
    setBus outBuf.go (some (← exit x).done)
  let x ← component body
  setConsumesClock call x.consumesClock
  setConsumesReset call x.consumesReset
  setConsumesGo call x.consumesGo
  setProducesDone call x.producesDone
  return call

/-- Adds a task that does what `body` does. -/
def addTask (name : String) (body : ComponentId) : Step TaskId := do
  let root ← Build.look (·.root)
  let call ← wiring do
    let call ← wrapBody name body
    addComponent root call
    return call
  let t ← Build.look (·.tasks.next)
  Build.change fun d => { d with tasks := d.tasks.push { name, call, body } }
  return t

def task (t : TaskId) : Step Task := do
  Build.expect .outOfBounds (← Build.look (·.tasks.get? t))

/-- Whether the module of some task has a property. -/
def anyTask (d : Design) (p : Component → Bool) : Bool :=
  d.tasks.values.any fun t => (d.netlist.components.get? t.call).any p

/-- A design needs a clock if some task does. -/
def consumesClock (d : Design) : Bool := d.anyTask (·.consumesClock)

/-- A design needs a reset if some task does. -/
def consumesReset (d : Design) : Bool := d.anyTask (·.consumesReset)

end DataflowSynth.Design
