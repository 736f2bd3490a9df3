/-
Netlists as text.

A component is written on one line with its connected ports and its exits; a module goes on with
its InBuf, its children and its OutBufs, two columns further in.
-/
import DataflowSynth.Netlist.Module
import DataflowSynth.Text.Lines

namespace DataflowSynth.Netlist

/-- A bus after the component that gives it out. -/
def busText (b : BusId) : Step String := do
  let owner ← component (← busOwner b)
  return owner.name ++ "." ++ (← bus b).name

/-- A name with the signal, if that is known. -/
def withSignal (name : String) : Option Signal → String
  | some s => name ++ ": " ++ s.text
  | none => name

/-- A port with what drives it. -/
def portText (p : PortId) : Step String := do
  let x ← port p
  match x.bus with
  | none => return withSignal x.name x.signal
  | some b => return withSignal x.name x.signal ++ " <- " ++ (← busText b)

def exitText (x : ExitId) : Step String := do
  let e ← exit x
  let data ← e.data.mapM bus
  let texts := data.map fun b => withSignal b.name b.signal
  return e.tag.text ++ "[" ++ ", ".intercalate texts ++ "]#" ++ e.latency.text

/-- The line of a component, without its end: control ports only if something drives them. -/
def headText (c : ComponentId) : Step String := do
  let x ← component c
  let ports ← x.ports.filterM fun p => do
    return (← port p).bus.isSome || x.dataPorts.contains p
  let ports ← ports.mapM portText
  let exits ← x.exits.values.mapM exitText
  let feedback ← match x.owner with
    | some owner => isFeedbackPoint owner c
    | none => pure false
  return (if feedback then "@feedback " else "") ++ x.name ++ ": " ++ x.kind.text ++ "(" ++
    ", ".intercalate ports ++ ")" ++
    (if exits.isEmpty then "" else " -> " ++ " ".intercalate exits)

/-- The lines of a component.  `depth` bounds the nesting of modules. -/
def componentLines : (depth : Nat) → (level : Nat) → ComponentId → Step (List String)
  | 0, _, _ => Build.abort .endlessOwnership
  | depth + 1, level, c => do
    let head ← headText c
    match (← component c).interior with
    | none => return [indented level (head ++ ";")]
    | some interior =>
      let parts := interior.inBuf :: interior.children ++ (← outBufs c)
      let lines ← parts.mapM (componentLines depth (level + 2))
      return indented level (head ++ " \x7b") :: lines.flatten ++ [indented level "\x7d"]

/-- The lines of a component from column `level` on. -/
def linesOf (level : Nat) (c : ComponentId) : Step (List String) := do
  componentLines (← Build.look (·.components.size)) level c

def text (level : Nat) (c : ComponentId) : Step String := return unlines (← linesOf level c)

end DataflowSynth.Netlist
