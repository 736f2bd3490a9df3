/-
Running a scheduler round by round.

The world is given: results of guards and statuses of ports.  A round runs the body of the dispatch
loop once; the first round runs what stands in front of the loop as well.  Booleans are 0 and 1, and
a state variable that was never stored is 0.
-/
import DataflowSynth.Build
import DataflowSynth.Procedure.Basic
import Std.Data.HashMap

namespace DataflowSynth

/-- Values of locals or state variables. -/
abbrev Valuation := Std.HashMap String Int64

def truth (b : Bool) : Int64 := if b then 1 else 0

def BinaryOp.apply (op : BinaryOp) (l r : Int64) : Int64 :=
  match op with
  | .logicAnd => truth (l ≠ 0 && r ≠ 0)
  | .logicOr => truth (l ≠ 0 || r ≠ 0)
  | .eq => truth (l = r)
  | .ne => truth (l ≠ r)
  | .ge => truth (l ≥ r)
  | .gt => truth (l > r)
  | .le => truth (l ≤ r)
  | .lt => truth (l < r)
  | .plus => l + r
  | .minus => l - r

/-- The value of an expression.  Every local in it must have a value. -/
def Expr.eval (locals : Valuation) : Expr → Except Error Int64
  | .bool b => .ok (truth b)
  | .int i => .ok i
  | .var name =>
    match locals[name]? with
    | some v => .ok v
    | none => .error (.refused (.unassigned name))
  | .not e => do return truth ((← e.eval locals) = 0)
  | .binary op lhs rhs => do return op.apply (← lhs.eval locals) (← rhs.eval locals)

/-- A scheduler that is being run, and the world it runs in. -/
structure Dispatcher where
  scheduler : Procedure
  guards : Std.HashMap String Bool := ∅
  statuses : Std.HashMap String Bool := ∅
  state : Valuation := ∅
  /-- Whether a round has been run. -/
  started : Bool := false

namespace Dispatcher

/-! ### The world -/

/-- Says what a guard returns from now on. -/
def setGuard (d : Dispatcher) (guard : String) (result : Bool) : Dispatcher :=
  { d with guards := d.guards.insert guard result }

/-- Says whether an input has a token, or an output has space, from now on. -/
def setStatus (d : Dispatcher) (port : String) (status : Bool) : Dispatcher :=
  { d with statuses := d.statuses.insert port status }

def setState (d : Dispatcher) (var : String) (value : Int64) : Dispatcher :=
  { d with state := d.state.insert var value }

/-- The value of a state variable, if it was ever set or stored. -/
def value? (d : Dispatcher) (var : String) : Option Int64 := d.state[var]?

/-! ### Rounds -/

/-- What changes during a round. -/
structure Round where
  state : Valuation
  locals : Valuation := ∅
  /-- The procedures that were called for their effect, in order. -/
  fired : List String := []

abbrev Step := Build Round

def eval (e : Expr) : Step Int64 := do Build.ofExcept (e.eval (← Build.look (·.locals)))

def setLocal (name : String) (v : Int64) : Step Unit :=
  Build.change fun r => { r with locals := r.locals.insert name v }

/-- An answer that the world has to give. -/
def demand (answer : Option Bool) (r : Refusal) : Step Bool :=
  match answer with
  | some b => pure b
  | none => Build.fail (.refused r)

def exec (d : Dispatcher) : Instruction → Step Unit
  | .assign target value => do setLocal target (← eval value)
  | .load target source => do setLocal target ((← Build.look (·.state[source]?)).getD 0)
  | .store target value => do
    let v ← eval value
    Build.change fun r => { r with state := r.state.insert target v }
  | .call (some target) procedure => do
    setLocal target (truth (← demand d.guards[procedure]? (.noGuardResult procedure)))
  | .call none procedure => Build.change fun r => { r with fired := r.fired ++ [procedure] }
  | .portStatus target port => do
    setLocal target (truth (← demand d.statuses[port]? (.noPortStatus port)))
  | .ret _ => pure ()

/-- Runs a block.  There is no loop inside a round. -/
def runBlock (d : Dispatcher) : Block → Step Unit
  | .basic instructions => instructions.forM d.exec
  | .branch cond thenBlocks elseBlocks => do
    if (← eval cond) ≠ 0 then runBlocks d thenBlocks else runBlocks d elseBlocks
  | .mutex blocks => runBlocks d blocks
  | .loop _ _ => Build.fail (.unsupported .nestedLoop)
where
  runBlocks (d : Dispatcher) : List Block → Step Unit
    | [] => pure ()
    | b :: bs => do
      runBlock d b
      runBlocks d bs

/-- The blocks in front of the first loop, and the condition and body of the loop. -/
def splitAtLoop? : List Block → Option (List Block × Expr × List Block)
  | [] => none
  | .loop cond body :: _ => some ([], cond, body)
  | b :: bs => (splitAtLoop? bs).map fun (front, cond, body) => (b :: front, cond, body)

/-- One round over given parts of the scheduler. -/
def round (d : Dispatcher) (front : List Block) (cond : Expr) (body : List Block) : Step Unit := do
  if !d.started then runBlock.runBlocks d front
  if (← eval cond) ≠ 0 then runBlock.runBlocks d body

/-- Runs one round and tells which actions fired.  What a failing round stored stays stored. -/
def step (d : Dispatcher) : Except Failure (List String) × Dispatcher :=
  match splitAtLoop? d.scheduler.blocks with
  | none => (.error (.error (.refused (.noDispatchLoop d.scheduler.name))), d)
  | some (front, cond, body) =>
    let (outcome, traced) := (d.round front cond body).run { state := { state := d.state } }
    (outcome.map fun _ => traced.state.fired,
      { d with state := traced.state.state, started := true })

end Dispatcher

end DataflowSynth
