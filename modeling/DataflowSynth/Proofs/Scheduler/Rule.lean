/-
The dispatch rule.

This is what a scheduler is meant to do, said about the actor itself and without a word on how a
scheduler does it.  There is a world, which answers guards, tells the status of ports and sets state
variables; there is one current state of the machine; and in a round the first candidate that is due
fires if it can.  A candidate that is due and cannot fire keeps the ones after it from being tried.

A run is a list of requests.  `Dispatcher.run` serves it with a scheduler and `Machine.run` with the
rule, so that the two can be laid side by side.
-/
import DataflowSynth.Actor.Basic
import DataflowSynth.Scheduler.Dispatch

namespace DataflowSynth

open Actor

namespace Scheduler

/-! ### The world -/

/-- What is known about the world: the last answers of guards, statuses of ports and values of state
variables, as far as any were given. -/
structure World where
  guards : String → Option Bool := fun _ => none
  statuses : String → Option Bool := fun _ => none
  values : String → Option Int64 := fun _ => none

namespace World

/-- How many tokens the circular buffer of a port holds; none if nothing was said about it. -/
def count (w : World) (port : String) : Int :=
  ((w.values (BufferVars.ofPort port).count).getD 0).toInt

/-- Whether an input has the tokens that a pattern entry asks for. -/
def hasTokens (w : World) (actor : Actor) (e : TokenCount) : Bool :=
  match actor.input? e.port with
  | none => false
  | some p =>
    if p.buffer.isSome then (e.tokens.toNat : Int) ≤ w.count p.name
    else w.statuses p.name = some true

/-- Whether the port of a pattern entry can take tokens; a circular buffer can when it is empty. -/
def hasSpace (w : World) (actor : Actor) (e : TokenCount) : Bool :=
  match actor.output? e.port with
  | none => false
  | some p => if p.buffer.isSome then w.count p.name = 0 else w.statuses p.name = some true

/-- An action is due when its guard holds and its tokens are there. -/
def due (w : World) (actor : Actor) (a : Action) : Bool :=
  w.guards a.guard = some true && a.inputs.all (w.hasTokens actor)

/-- An action can fire when its outputs have space. -/
def canFire (w : World) (actor : Actor) (a : Action) : Bool := a.outputs.all (w.hasSpace actor)

/-- The ports without a buffer that the patterns of an action name. -/
def sampled (actor : Actor) (a : Action) : List Port :=
  (a.inputs.filterMap (fun e => actor.input? e.port) ++
    a.outputs.filterMap (fun e => actor.output? e.port)).filter (·.buffer.isNone)

/-- Every guard has an answer, and every port that is sampled has a status. -/
def Complete (w : World) (actor : Actor) : Prop :=
  ∀ a ∈ actor.actions, (w.guards a.guard).isSome ∧
    ∀ p ∈ sampled actor a, (w.statuses p.name).isSome

instance (w : World) (actor : Actor) : Decidable (w.Complete actor) :=
  inferInstanceAs (Decidable (∀ a ∈ actor.actions, (w.guards a.guard).isSome ∧
    ∀ p ∈ sampled actor a, (w.statuses p.name).isSome))

end World

/-! ### The machine -/

/-- The world together with the current state, if the actor has a machine. -/
structure Machine where
  world : World := {}
  current : Option String

namespace Machine

/-- Before the first round the machine is in its initial state. -/
def initial (actor : Actor) : Machine where
  current := actor.fsm.map Fsm.initial

/-- The actions to try, each with the state that it leads to: first those that no transition runs,
then those of the transitions that leave the current state. -/
def candidates (actor : Actor) (current : Option String) : List (Action × Option String) :=
  actor.actionsOutsideFsm.map (fun a => (a, current)) ++
    match actor.fsm, current with
    | some fsm, some s => (fsm.outgoing s).filterMap fun t =>
        (actor.action? t.action).map fun a => (a, some t.target)
    | _, _ => []

/-- One round: what fires, and the machine after it. -/
def step (actor : Actor) (m : Machine) : List String × Machine :=
  match (candidates actor m.current).find? fun c => m.world.due actor c.1 with
  | none => ([], m)
  | some (a, next) =>
    if m.world.canFire actor a then ([a.body], { m with current := next }) else ([], m)

end Machine

/-! ### Runs -/

/-- What can be asked of a scheduler that is being run. -/
inductive Request where
  | setGuard (guard : String) (result : Bool)
  | setStatus (port : String) (status : Bool)
  | setState (var : String) (value : Int64)
  | step

namespace World

/-- The world after a request; a round does not change it. -/
def serve (w : World) : Request → World
  | .setGuard guard result =>
    { w with guards := fun g => if g = guard then some result else w.guards g }
  | .setStatus port status =>
    { w with statuses := fun p => if p = port then some status else w.statuses p }
  | .setState var value =>
    { w with values := fun v => if v = var then some value else w.values v }
  | .step => w

end World

/-- The answers to the rounds of a run, and the machine after it. -/
def Machine.run (actor : Actor) (m : Machine) : List Request → List (List String) × Machine
  | [] => ([], m)
  | .step :: rs =>
    let (fired, m) := m.step actor
    let (answers, m) := run actor m rs
    (fired :: answers, m)
  | r :: rs => run actor { m with world := m.world.serve r } rs

/-- The variables that hold the state of the machine. -/
def machineVars (actor : Actor) : List String :=
  ((actor.fsm.map Fsm.states).getD []).map Fsm.stateVar

/-- A round is asked for in a complete world only, and the variables of the machine are never set. -/
def Request.Fits (actor : Actor) (w : World) : Request → Prop
  | .step => w.Complete actor
  | .setState var _ => var ∉ machineVars actor
  | .setGuard _ _ | .setStatus _ _ => True

instance (actor : Actor) (w : World) : (r : Request) → Decidable (r.Fits actor w)
  | .step => inferInstanceAs (Decidable (w.Complete actor))
  | .setState var _ => inferInstanceAs (Decidable (var ∉ machineVars actor))
  | .setGuard _ _ => .isTrue trivial
  | .setStatus _ _ => .isTrue trivial

/-- Every request of the run fits the world at its time. -/
def Admissible (actor : Actor) (w : World) : List Request → Prop
  | [] => True
  | r :: rs => r.Fits actor w ∧ Admissible actor (w.serve r) rs

def Admissible.decide (actor : Actor) : (w : World) → (rs : List Request) →
    Decidable (Admissible actor w rs)
  | _, [] => .isTrue trivial
  | w, r :: rs => @instDecidableAnd _ _ _ (Admissible.decide actor (w.serve r) rs)

instance (actor : Actor) (w : World) (rs : List Request) : Decidable (Admissible actor w rs) :=
  Admissible.decide actor w rs

end Scheduler

/-- The answers to the rounds of a run, and the dispatcher after it. -/
def Dispatcher.run (d : Dispatcher) :
    List Scheduler.Request → List (Except Failure (List String)) × Dispatcher
  | [] => ([], d)
  | .setGuard guard result :: rs => run (d.setGuard guard result) rs
  | .setStatus port status :: rs => run (d.setStatus port status) rs
  | .setState var value :: rs => run (d.setState var value) rs
  | .step :: rs =>
    let (answer, d) := d.step
    let (answers, d) := run d rs
    (answer :: answers, d)

end DataflowSynth
