/-
Listings of what a design shares among its tasks, one thing a line.
-/
import DataflowSynth.Design.Task
import DataflowSynth.Json.Writer
import DataflowSynth.Memory.Document
import DataflowSynth.Netlist.Listing

namespace DataflowSynth.Design

open Netlist (handleOrDash)

def PinRole.text : PinRole → String
  | .fifo => "Fifo"
  | .clock => "Clock"
  | .reset => "Reset"

def PinLink.text : PinLink → String
  | .port p => p.text
  | .bus b => b.text

/-- The bus inside the root module with the value of a pin. -/
def PinLink.inside? (d : Design) : PinLink → Option BusId
  | .port p => (d.netlist.ports.get? p).bind (·.peer)
  | .bus _ => none

/-- A pin with its terminal, the pin of that terminal, and the bus inside. -/
def pinListing (d : Design) (h : PinId) (p : Pin) : String :=
  h.text ++ " " ++ p.name ++ " " ++ p.direction.text ++ " " ++ p.signal.text ++ " " ++
    p.role.text ++ " link=" ++ p.link.text ++ " back=" ++ handleOrDash (d.pinWith? p.link) ++
    " bus=" ++ handleOrDash (p.link.inside? d)

def fifoListing (h : FifoId) (f : Fifo) : String :=
  h.text ++ " " ++ f.name ++ " " ++ f.spec.direction.text ++ " " ++ Nat.repr f.spec.width.toNat ++
    " " ++ f.spec.protocol.text ++ " pins=" ++ ",".intercalate (f.pins.toList.map Handle.text) ++
    " status=" ++ handleOrDash f.statusPin?

def ClockDomain.listing (c : ClockDomain) : String :=
  "domain " ++ c.spec ++ " clock=" ++ c.clock.text ++ " reset=" ++ handleOrDash c.reset ++
    " sync=" ++ handleOrDash c.sync

def Register.listing (r : Register) : String :=
  "register " ++ r.name ++ " " ++ r.signal.text ++ " " ++ toString r.initial.toInt

def Memory.listing (m : Memory) : String :=
  let initial := Json.list (m.initial.map LogicalValue.toJson)
  "memory " ++ Nat.repr m.id.toNat ++ " " ++ m.name ++ " " ++ Nat.repr m.width.toNat ++ " " ++
    Nat.repr m.size ++ " " ++ initial.compact

def taskListing (h : TaskId) (t : Task) : String :=
  h.text ++ " " ++ t.name ++ " call=" ++ t.call.text ++ " body=" ++ t.body.text

def truthText (b : Bool) : String := if b then "true" else "false"

def headListing (d : Design) : String :=
  "design " ++ d.name ++ " " ++ d.root.text ++
    " clock=" ++ truthText d.consumesClock ++ " reset=" ++ truthText d.consumesReset ++
    " pins=" ++ Nat.repr d.pins.size

def listing (d : Design) : List String :=
  d.headListing ::
    d.pins.toList.map (fun (h, p) => d.pinListing h p) ++
    d.fifos.toList.map (fun (h, f) => fifoListing h f) ++
    d.domains.values.map ClockDomain.listing ++
    d.registers.values.map Register.listing ++
    d.memories.map Memory.listing ++
    d.tasks.toList.map (fun (h, t) => taskListing h t) ++
    d.includes.map ("include " ++ ·)

end DataflowSynth.Design
