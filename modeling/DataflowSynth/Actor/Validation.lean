/-
Checks on an actor.

The checks run in a fixed order and the first defect is reported: the ports, then action by
action, then the finite-state machine.
-/
import DataflowSynth.Actor.Basic
import DataflowSynth.Error

namespace DataflowSynth.Actor

/-- Nothing is wrong, or the first thing that is. -/
abbrev Check := Except ActorDefect Unit

/-- Refuses with `d` unless `p` holds. -/
def ensure (p : Bool) (d : ActorDefect) : Check := if p then .ok () else .error d

/-- Port names differ and buffers hold something.  `seen` are the names of the ports before. -/
def checkPorts (actor : String) : (seen : List String) → List Port → Check
  | _, [] => .ok ()
  | seen, p :: ps => do
    ensure (!seen.contains p.name) (.duplicatePort p.name actor)
    ensure (p.buffer ≠ some 0) (.emptyBuffer p.name)
    checkPorts actor (p.name :: seen) ps

/-- Every name satisfies `known`. -/
def checkNames (known : String → Bool) (defect : String → ActorDefect) : List String → Check
  | [] => .ok ()
  | n :: ns => do
    ensure (known n) (defect n)
    checkNames known defect ns

/-- The guard of an action is there and returns a truth value. -/
def checkGuard (a : Actor) (x : Action) : Check :=
  match a.procedure? x.guard with
  | none => .error (.unknownProcedure x.name x.guard)
  | some guard => ensure (guard.returnType = .bool) (.guardNotBool guard.name x.name)

/-- What an action refers to is there. -/
def checkAction (a : Actor) (x : Action) : Check := do
  checkNames (fun p => (a.input? p).isSome) (.unknownInput x.name)
    (x.inputs.map TokenCount.port ++ x.peeks.map TokenCount.port)
  checkNames (fun p => (a.output? p).isSome) (.unknownOutput x.name)
    (x.outputs.map TokenCount.port)
  ensure (a.procedure? x.body).isSome (.unknownProcedure x.name x.body)
  checkGuard a x

def checkActions (a : Actor) : (seen : List String) → List Action → Check
  | _, [] => .ok ()
  | seen, x :: xs => do
    ensure (!seen.contains x.name) (.duplicateAction x.name)
    checkAction a x
    checkActions a (x.name :: seen) xs

def checkStates : (seen : List String) → List String → Check
  | _, [] => .ok ()
  | seen, s :: ss => do
    ensure (!seen.contains s) (.duplicateState s)
    checkStates (s :: seen) ss

def checkTransitions (states actions : List String) : List Transition → Check
  | [] => .ok ()
  | t :: ts => do
    ensure (states.contains t.source) (.unknownState t.action t.source)
    ensure (states.contains t.target) (.unknownState t.action t.target)
    ensure (actions.contains t.action) (.unknownAction t.source t.target t.action)
    checkTransitions states actions ts

def checkFsm (actions : List String) (f : Fsm) : Check := do
  checkStates [] f.states
  ensure (f.states.contains f.initial) (.unknownInitial f.initial)
  checkTransitions f.states actions f.transitions

/-- Everything that an action or transition refers to exists, and names are used once. -/
def validate (a : Actor) : Check := do
  checkPorts a.name [] a.ports
  checkActions a [] a.actions
  match a.fsm with
  | some f => checkFsm (a.actions.map Action.name) f
  | none => .ok ()

end DataflowSynth.Actor
