/-
Clocks and resets.

A clock domain is described by the name of its clock, or by clock and reset with a colon between
them.  No pin is clock and reset at once.
-/
import DataflowSynth.Design.Basic
import DataflowSynth.Netlist.Primitive
import DataflowSynth.Text.Cut

namespace DataflowSynth.Design

/-- The clock pin with a name. -/
def clockPin (name : String) : Step PinId := do
  if ← Build.look (·.resetPins.contains name) then Build.fail (.fatal .clockIsReset)
  match ← Build.look (·.clockPins.find? name) with
  | some p => return p
  | none =>
    let p ← addInputPin name .bit .clock
    Build.change fun d => { d with clockPins := d.clockPins.put name p }
    return p

/-- The reset pin with a name, for a domain with the given clock. -/
def resetPin (name clock : String) : Step PinId := do
  if name = clock then Build.fail (.fatal .clockIsReset)
  if ← Build.look (·.clockPins.contains name) then Build.fail (.fatal .clockIsReset)
  match ← Build.look (·.resetPins.find? name) with
  | some p => return p
  | none =>
    let p ← addInputPin name .bit .reset
    Build.change fun d => { d with resetPins := d.resetPins.put name p }
    return p

/-- The component that brings a reset in step with its clock. -/
def addSync (clock reset : PinId) : Step ComponentId := do
  let root ← Build.look (·.root)
  let sync ← wiring do
    let sync ← Netlist.newPrimitive .globalReset "globalReset" 1 .bit
    Netlist.setConsumesClock sync true
    Netlist.addComponent root sync
    return sync
  let clockBus ← pinBus? clock
  let resetBus ← pinBus? reset
  wiring do
    Netlist.setBus (← Netlist.component sync).clock clockBus
    Netlist.setBus (← Netlist.dataPort sync 0) resetBus
  return sync

/-- The names of clock and reset in the description of a domain; an empty reset is none. -/
def parseDomain (spec : String) : String × Option String :=
  match cut ':' spec with
  | some (clock, "") => (clock, none)
  | some (clock, reset) => (clock, some reset)
  | none => (spec, none)

/-- The domain with a description.  Its pins are made when it is first asked for. -/
def clockDomain (spec : String) : Step ClockDomain := do
  match ← Build.look (·.domains.find? spec) with
  | some domain => return domain
  | none =>
    let (clock, reset) := parseDomain spec
    if clock = "" then Build.fail (.fatal (.noClock spec))
    if reset = some clock then Build.fail (.fatal .clockIsReset)
    let clockPin ← clockPin clock
    let domain ← match reset with
      | none => pure { spec, clock := clockPin, reset := none, sync := none }
      | some reset => do
        let resetPin ← resetPin reset clock
        let sync ← addSync clockPin resetPin
        pure { spec, clock := clockPin, reset := some resetPin, sync := some sync }
    Build.change fun d => { d with domains := d.domains.put spec domain }
    return domain

/-- Connects the clock and reset of a component to a domain, as far as it has use for them. -/
def connectToDomain (c : ComponentId) (domain : ClockDomain) : Step Unit := do
  let x ← wiring (Netlist.component c)
  if x.consumesClock then
    let b ← pinBus? domain.clock
    wiring (Netlist.setBus x.clock b)
  if x.consumesReset then
    match domain.sync with
    | none => pure ()
    | some sync => wiring do Netlist.setBus x.reset (some (← Netlist.resultBus sync))

end DataflowSynth.Design
