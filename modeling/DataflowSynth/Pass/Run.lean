/-
What the passes do.
-/
import DataflowSynth.Actor.Validation
import DataflowSynth.Netlist.Order
import DataflowSynth.Pass.Setting
import DataflowSynth.Scheduler.Lowering
import DataflowSynth.Synthesis.Actor
import DataflowSynth.Text.Lines

namespace DataflowSynth.Pass

open Job

/-- A defect of the actor ends the job. -/
def defect {α : Type} (e : Except ActorDefect α) : Job.Step α :=
  Build.ofExcept (e.mapError .malformed)

/-- Says something in the name of a pass. -/
def say (p : Pass) (level : Level) (message : String) : Job.Step Unit :=
  Build.log level (.pass p.name) message

/-! ### Well-formedness -/

/-- Whether an action looks at a buffered input. -/
def readsBuffer (actor : Actor) (a : Actor.Action) : Bool :=
  (a.inputs.ports ++ a.peeks.ports).any fun p => (actor.input? p).any (·.buffer.isSome)

/-- What is odd about the actions, though not wrong.  `bodies` are those of earlier actions. -/
def oddities (actor : Actor) : (bodies : List String) → List Actor.Action → List String
  | _, [] => []
  | bodies, a :: as =>
    (if bodies.contains a.body then
      [s!"body {quote a.body} of action {quote a.name} is shared with another action"] else []) ++
    (if a.fillBuffer && !readsBuffer actor a then
      [s!"action {quote a.name} fills buffers but reads no buffered port"] else []) ++
    oddities actor (a.body :: bodies) as

/-- Refuses an actor that does not hang together, or that declares the procedure that lowering
makes. -/
def checkActor : Job.Step Unit := do
  let actor ← Build.look (·.actor)
  defect actor.validate
  if (actor.procedure? "scheduler").isSome then
    Build.fail (.malformed (.reservedName actor.name))
  (oddities actor [] actor.actions).forM (say .wellFormed .warn)

/-! ### Lowering -/

/-- Declares the state of the scheduler, and makes the scheduler. -/
def lowerActor (skipFill : Bool) : Job.Step Unit := do
  Build.change fun j => { j with actor := Scheduler.declareState j.actor }
  let actor ← Build.look (·.actor)
  let scheduler ← defect (Scheduler.lower actor skipFill)
  let source := s!"{actor.actions.length} actions of {quote actor.name}"
  let target := s!"{quote scheduler.name} with {scheduler.locals.length} locals"
  say .actionScheduler .info s!"lowered {source} into {target}"
  Build.change fun j => { j with scheduler := some scheduler }

/-! ### Building the design -/

/-- Builds the task of an action, and records it. -/
def buildAction (fifos : Synthesis.Interfaces) (a : Actor.Action) : Job.Step Unit := do
  let j ← Build.look id
  let (t, tokens) ← onDesign (Synthesis.addActionTask j.clockDomain j.actor fifos a)
  Build.change fun j => { j with
    tasks := j.tasks.put a.name t
    actor := j.actor.setTask a.name a.name }
  say .designActor .debug s!"task {quote a.name} moves {tokens} tokens"

def buildDesign : Job.Step Unit := do
  let j ← Build.look id
  let fifos ← onDesign (Synthesis.addResources j.clockDomain j.actor)
  j.actor.actions.forM (buildAction fifos)
  let ports := (j.scheduler.map Synthesis.sampledPorts).getD []
  let _ ← onDesign (Synthesis.addSchedulerTask j.clockDomain fifos ports)
  let d ← Build.look (·.design)
  let interface := s!"{d.tasks.size} tasks, {d.pins.size} pins"
  let storage := s!"{d.registers.size} registers, {d.memories.length} memories"
  say .designActor .info s!"built {quote d.name}: {interface}, {storage}"

/-! ### Checking the design -/

/-- A line with a module and its children in order. -/
def orderLine (m : ComponentId) : Job.Step String := do
  let order ← onNetlist (Netlist.order m)
  let name := (← onNetlist (Netlist.component m)).name
  let count := order.length
  say .designCheck .debug s!"{name}: {count} components"
  let names ← order.mapM fun c => do return (← onNetlist (Netlist.component c)).name
  return name ++ ": " ++ ", ".intercalate names

/-- Orders the children of every module, and sends the orders to a destination. -/
def checkDesign (host : Host) (target : Option Destination) : Job.Step Unit := do
  let components ← Build.look (·.design.netlist.components.toList)
  let modules := (components.filter fun (_, c) => c.isModule).map Prod.fst
  let lines ← modules.mapM orderLine
  match target with
  | none => pure ()
  | some target => send host target (unlines lines)

/-! ### Running a pass -/

/-- The work of a pass, with its options read. -/
def work (host : Host) : Pass → Job.Step (Job.Step Unit)
  | .wellFormed => pure checkActor
  | .actionScheduler => do
    let values ← Pass.values .actionScheduler (← Build.look (·.settings))
    return lowerActor (← flagValue skipFillBuffer values)
  | .designActor => pure buildDesign
  | .designCheck => do
    let values ← Pass.values .designCheck (← Build.look (·.settings))
    return checkDesign host (← streamValue orderStream values)

/-- Runs a pass, unless it has nothing to do.  Its options are read in any case. -/
def run (host : Host) (p : Pass) : Job.Step Unit := do
  let work ← p.work host
  match p.idleReason? (← Build.look id) with
  | some reason => Build.log .info .preconditions s!"Skipping {quote p.name}: {reason}"
  | none => work

end DataflowSynth.Pass
