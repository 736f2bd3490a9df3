/-
Which passes there are, and which of them a job runs in which order.

An alias stands for several passes.  A plan is made from the passes to run, the passes to leave out,
and moves `a:b`, each of which puts `b` right behind `a` if it would come before.
-/
import DataflowSynth.Design.Printer
import DataflowSynth.Pass.Run

namespace DataflowSynth

/-- A pass as a registry knows it. -/
structure Registry.Entry where
  name : String
  /-- What the pass does, and the options it takes. -/
  help : String
  run : Host → Job.Step Unit

namespace Pass

def Declaration.help (o : Declaration) : String :=
  "\n  * " ++ o.name ++ ": " ++ o.description ++ " (default: " ++ o.default.text ++ ")"

def help (p : Pass) : String :=
  "- " ++ p.name ++ ": " ++ p.description ++ String.join (p.declarations.map Declaration.help)

def entry (p : Pass) : Registry.Entry := ⟨p.name, p.help, (run · p)⟩

instance : Coe Pass Registry.Entry := ⟨entry⟩

end Pass

/-- The passes and aliases that can be named. -/
structure Registry where
  passes : List Registry.Entry := []
  /-- Aliases with the names of the passes they stand for. -/
  aliases : OrderedMap String (List String) := ∅

namespace Registry

def pass? (r : Registry) (name : String) : Option Entry := r.passes.find? (·.name = name)

def register (r : Registry) (p : Entry) : Except Failure Registry :=
  if (r.pass? p.name).isSome then .error (.error (.refused (.passRegistered p.name)))
  else .ok { r with passes := r.passes ++ [p] }

/-- The passes that a name in an alias stands for. -/
def meaning (r : Registry) (name : String) : Except Failure (List String) :=
  match r.aliases.find? name with
  | some names => .ok names
  | none =>
    if (r.pass? name).isSome then .ok [name] else .error (.abort (.unknownAlias name))

/-- Gives a name to a sequence of passes and earlier aliases. -/
def addAlias (r : Registry) (name : String) (passes : List String) : Except Failure Registry := do
  if r.aliases.contains name then .error (.error (.refused (.aliasRegistered name)))
  let names ← passes.mapM r.meaning
  return { r with aliases := r.aliases.put name names.flatten }

/-- All passes with the usual aliases. -/
def standard : Registry where
  passes := Pass.all.map Pass.entry
  aliases := .ofList [
    ("validate", ["well-formed"]),
    ("lower", ["action-scheduler", "design-actor"]),
    ("all", ["well-formed", "action-scheduler", "design-actor", "design-check"])]

/-! ### Help -/

/-- What is to be said about a pass or an alias. -/
def help? (r : Registry) (name : String) : Option String :=
  match r.pass? name with
  | some p => some p.help
  | none => (r.aliases.find? name).map fun names =>
    quote name ++ " is an alias for pass pipeline:\n" ++
      "\n".intercalate (names.map ("- " ++ ·))

/-- All passes and then all aliases, each in the order of their names. -/
def help (r : Registry) : String :=
  let passes := r.passes.mergeSort fun p q => p.name ≤ q.name
  let aliases := r.aliases.entries.mergeSort fun a b => a.1 ≤ b.1
  "Passes:\n" ++ unlines (passes.map Entry.help) ++ "\nAliases:\n" ++
    unlines (aliases.map fun (name, names) => "- " ++ name ++ ": " ++ ", ".intercalate names)

/-! ### Plans -/

/-- What to run. -/
structure Request where
  passes : List String
  disabled : List String := []
  moves : List String := []

/-- A sequence of passes, some of which are left out. -/
structure Plan where
  passes : List String
  excluded : List String

/-- Names with aliases replaced by what they stand for. -/
def expand (r : Registry) (names : List String) : List String :=
  names.flatMap fun name => (r.aliases.find? name).getD [name]

def checkKnown {σ : Type} (r : Registry) (names : List String) : Build σ Unit :=
  match names.find? fun name => (r.pass? name).isNone with
  | some name => Build.fail (.refused (.unknownPass name))
  | none => pure ()

/-- The two passes of a move. -/
def parseMove {σ : Type} (move : String) : Build σ (Option (String × String)) := do
  let pair := cut ':' move
  if pair.isNone then
    Build.log .warn .plans ("No ':' in " ++ move ++ ". Ignoring this option.")
  return pair

/-- Puts the first `b` right behind the first `a` if it stands before it. -/
def moveBehind (a b : String) (passes : List String) : List String :=
  let i := passes.idxOf a
  let j := passes.idxOf b
  if i > j then (passes.eraseIdx j).insertIdx i b else passes

/-- Carries out a move, if both passes run. -/
def applyMove {σ : Type} (plan : Plan) (move : String × String) : Build σ Plan := do
  let (a, b) := move
  let idle (name : String) : Build σ Unit := Build.log .warn .plans
    ("Pass " ++ name ++ " is not slated to run. Reordering will have no effect.")
  if !(plan.passes.contains a && plan.passes.contains b) then
    idle (a ++ ":" ++ b)
    return plan
  else match [a, b].find? plan.excluded.contains with
    | some name =>
      idle name
      return plan
    | none => return { plan with passes := moveBehind a b plan.passes }

def plan {σ : Type} (r : Registry) (q : Request) : Build σ Plan := do
  let passes := r.expand q.passes
  let excluded := r.expand q.disabled
  let moves := (← q.moves.mapM parseMove).filterMap id
  r.checkKnown (passes ++ excluded)
  r.checkKnown (moves.flatMap fun (a, b) => [a, b])
  moves.foldlM applyMove { passes, excluded }

/-! ### Running a plan -/

def printDesign (host : Host) : Job.Step Unit := do
  Job.send host .stdout (← Job.onDesign Design.text)

/-- What follows a pass that ran.  With `dump` the design is printed.  How long a pass takes is not
measured, so that what is said about a job depends on the job alone. -/
def report (host : Host) (dump : Bool) (name : String) : Job.Step Unit := do
  if dump then printDesign host
  Build.log .info .plans (name ++ ": _ms")

/-- Runs one pass of a plan. -/
def runPass (r : Registry) (host : Host) (dump : Bool) (excluded : List String) (name : String) :
    Job.Step Unit := do
  if excluded.contains name then
    Build.log .info .plans (name ++ ": Ignored")
  else match r.pass? name with
    | none => Build.fail (.refused (.unknownPass name))
    | some p =>
      p.run host
      report host dump name

/-- Makes a plan and runs it. -/
def run (r : Registry) (host : Host) (q : Request) (dump : Bool) : Job.Step Unit := do
  let plan ← r.plan q
  plan.passes.forM (r.runPass host dump plan.excluded)

end Registry

end DataflowSynth
