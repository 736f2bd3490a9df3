/-
Jobs: an actor, and what is built for it.
-/
import DataflowSynth.Actor.Basic
import DataflowSynth.Design.Basic

namespace DataflowSynth

/-- What becomes of a text that does not arrive as a whole. -/
structure Loss where
  /-- How many of its characters arrive. -/
  arrived : Nat
  /-- What the sender is told; what is lost from a buffer may be lost unnoticed. -/
  reason : Option String

/-- What a job may do outside itself. -/
structure Host where
  /-- Whether a file with this path can be created. -/
  canCreate : String → Bool
  /-- What is lost of a text that is sent to a destination once this much has been said. -/
  loss? : Journal → Destination → String → Option Loss := fun _ _ _ => none

/-- Writes a text.  If it does not arrive as a whole, the sender may be told why. -/
def Host.write {σ : Type} (host : Host) (target : Destination) (text : String) :
    Build σ (Option String) := do
  match target.unlessNull.bind (host.loss? (← Build.said) · text) with
  | none =>
    Build.note (.write target text)
    return none
  | some loss =>
    Build.note (.write target (.ofList (text.toList.take loss.arrived)))
    return loss.reason

structure Job where
  actor : Actor
  design : Design
  /-- The lowered scheduler, once there is one. -/
  scheduler : Option Procedure := none
  /-- The tasks of the actions, in the order of the actions. -/
  tasks : OrderedMap String TaskId := ∅
  /-- The clock domain that every task runs on. -/
  clockDomain : String
  /-- Settings of pass options: pass and option with a colon between them, and maybe an equals sign
  and a value. -/
  settings : List String := []

namespace Job

/-- The clock domain of a job that names none. -/
def defaultClockDomain : String := "CLK:RESET"

def new (actor : Actor) : Job where
  actor := actor
  design := .new actor.name
  clockDomain := defaultClockDomain

/-- A step of a job. -/
abbrev Step := Build Job

/-- A step on the design of a job. -/
def onDesign {α : Type} (x : Design.Step α) : Step α :=
  Build.within (·.design) (fun design j => { j with design }) x

/-- A step on the netlist of a job. -/
def onNetlist {α : Type} (x : Netlist.Step α) : Step α := onDesign (Design.wiring x)

/-- A file is created before anything is written to it. -/
def create (host : Host) (target : Destination) : Step Unit :=
  match target with
  | .file path => if host.canCreate path then pure () else Build.fail .missingFile
  | _ => pure ()

/-- Sends a text to a destination. -/
def send (host : Host) (target : Destination) (text : String) : Step Unit := do
  create host target
  match ← host.write target text with
  | none => pure ()
  | some reason => Build.fail (.refused (.unsent reason))

end Job

end DataflowSynth
