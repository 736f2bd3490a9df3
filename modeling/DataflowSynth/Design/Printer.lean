/-
Designs as text: the shared resources line by line, then the netlist from the root module on.
-/
import DataflowSynth.Design.Basic
import DataflowSynth.Netlist.Printer

namespace DataflowSynth.Design

def Pin.line (p : Pin) : String := s!"  pin {p.name}: {p.direction.text} {p.signal.text};"

def ClockDomain.line (c : ClockDomain) : String := "  domain \"" ++ c.spec ++ "\";"

def Register.line (r : Register) : String :=
  s!"  register {r.name}: {r.signal.text} = {r.initial.toInt};"

def Memory.line (m : Memory) : String :=
  s!"  memory {m.id.toNat} {m.name}: {m.width.toNat} bits, {m.size} bytes;"

/-- A task with the name of its module. -/
def taskLine (t : Task) : Netlist.Step String := do
  let call ← Netlist.component t.call
  return s!"  task {t.name} = {call.name};"

def text : Step String := do
  let d ← Build.look id
  let tasks ← wiring (d.tasks.values.mapM taskLine)
  let netlist ← wiring (Netlist.linesOf 2 d.root)
  return unlines (
    ("design " ++ d.name ++ " \x7b") ::
    d.includes.map (indented 2) ++
    d.pins.values.map Pin.line ++
    d.domains.values.map ClockDomain.line ++
    d.registers.values.map Register.line ++
    d.memories.map Memory.line ++
    tasks ++ netlist ++ ["\x7d"])

end DataflowSynth.Design
