/-
What the steps of a design leave alone.

Pins and clocks are made in the netlist, and so are accessors and tasks.  Whoever shows nothing of the
netlist, the pins and the clocks of a design need not know what such a step does in detail.
-/
import DataflowSynth.Design.Clock
import DataflowSynth.Design.Resource
import DataflowSynth.Design.Task
import DataflowSynth.Proofs.Build.Moves

namespace DataflowSynth.Design

open Build

variable {α γ : Type} {g : Design → γ}

theorem keeps_wiring (hg : ∀ n d, g { d with netlist := n } = g d) (x : Netlist.Step α) :
    Keeps g (wiring x) :=
  .within hg x

theorem keeps_pinBus? (hg : ∀ n d, g { d with netlist := n } = g d) (p : PinId) :
    Keeps g (pinBus? p) := by
  refine .bind (.look _) fun o => ?_
  split
  · exact .bind (keeps_wiring hg _) fun _ => .pure _
  · exact .pure _

/-- The part of `connectToDomain` that comes last: a component that takes a reset is given that of
the domain. -/
def connectReset (x : Netlist.Component) (domain : ClockDomain) : Step Unit := do
  if x.consumesReset then
    match domain.sync with
    | none => pure ()
    | some sync => wiring do Netlist.setBus x.reset (some (← Netlist.resultBus sync))

theorem connectToDomain_eq (c : ComponentId) (domain : ClockDomain) : connectToDomain c domain = (do
    let x ← wiring (Netlist.component c)
    if x.consumesClock then
      pinBus? domain.clock >>= fun b => wiring (Netlist.setBus x.clock b) >>= fun _ =>
        connectReset x domain
    else connectReset x domain) :=
  rfl

theorem keeps_connectToDomain (hg : ∀ n d, g { d with netlist := n } = g d) (c : ComponentId)
    (domain : ClockDomain) : Keeps g (connectToDomain c domain) := by
  have hreset : ∀ x : Netlist.Component, Keeps g (connectReset x domain) := by
    intro x
    unfold connectReset
    split
    · split
      · exact .pure _
      · exact keeps_wiring hg _
    · exact .pure _
  rw [connectToDomain_eq]
  refine .bind (keeps_wiring hg _) fun x => ?_
  split
  · exact .bind (keeps_pinBus? hg _) fun _ => .bind (keeps_wiring hg _) fun _ => hreset x
  · exact hreset x

theorem keeps_fifoAccess (hg : ∀ n d, g { d with netlist := n } = g d) (h : FifoId)
    (kind : AccessKind) : Keeps g (fifoAccess h kind) :=
  .bind (.bind (.look _) fun _ => .expect _ _) fun _ => keeps_wiring hg _

theorem keeps_guard {c : Prop} [Decidable c] {e : Error} {y : Step α} (hy : Keeps g y) :
    Keeps g (if c then do (Build.fail e : Step PUnit); y else y) := by
  split
  · exact .bind (.fail e) fun _ => hy
  · exact hy

/-! ### Pins and clocks -/

/-- `g` shows nothing of the netlist, the pins and the clocks. -/
structure Remote (g : Design → γ) : Prop where
  netlist : ∀ n d, g { d with netlist := n } = g d
  pins : ∀ pins d, g { d with pins } = g d
  clockPins : ∀ clockPins d, g { d with clockPins } = g d
  resetPins : ∀ resetPins d, g { d with resetPins } = g d
  domains : ∀ domains d, g { d with domains } = g d

section

variable (hg : Remote g)

include hg

theorem keeps_addPin (p : Pin) : Keeps g (addPin p) :=
  .bind (.look _) fun _ => .bind (.change fun d => hg.pins _ d) fun _ => .pure _

theorem keeps_addInputPin (name : String) (signal : Signal) (role : PinRole) :
    Keeps g (addInputPin name signal role) :=
  .bind (.look _) fun _ => .bind (keeps_wiring hg.netlist _) fun _ => keeps_addPin hg _

theorem keeps_addOutputPin (name : String) (signal : Signal) (role : PinRole) :
    Keeps g (addOutputPin name signal role) :=
  .bind (.look _) fun _ => .bind (keeps_wiring hg.netlist _) fun _ => keeps_addPin hg _

theorem keeps_addFifoPins (spec : FifoSpec) : Keeps g (addFifoPins spec) := by
  unfold addFifoPins
  split
  · refine .bind (keeps_addInputPin hg _ _ _) fun _ => ?_
    split
    · exact .pure _
    · exact .bind (keeps_addInputPin hg _ _ _) fun _ => .bind (keeps_addOutputPin hg _ _ _) fun _ =>
        .pure _
  · exact .bind (keeps_addOutputPin hg _ _ _) fun _ => .bind (keeps_addOutputPin hg _ _ _) fun _ =>
      .bind (keeps_addInputPin hg _ _ _) fun _ => .bind (keeps_addInputPin hg _ _ _) fun _ => .pure _

theorem keeps_getFifo (hfifos : ∀ fifos d, g { d with fifos } = g d) (spec : FifoSpec) :
    Keeps g (getFifo spec) := by
  refine keeps_guard (.bind (.look _) fun o => ?_)
  split
  · exact keeps_guard (.pure _)
  · exact .bind (keeps_addFifoPins hg _) fun _ => .bind (.look _) fun _ =>
      .bind (.change fun d => hfifos _ d) fun _ => .bind (fun _ => rfl) fun _ => .pure _

theorem keeps_namedPin {name : String} {role : PinRole} {known : Design → OrderedMap String PinId}
    {note : PinId → Design → Design} (hnote : ∀ p d, g (note p d) = g d) :
    Keeps g (do
      match ← Build.look fun d => (known d).find? name with
      | some p => return p
      | none =>
        let p ← addInputPin name .bit role
        Build.change (note p)
        return p) := by
  refine .bind (.look _) fun o => ?_
  split
  · exact .pure _
  · exact .bind (keeps_addInputPin hg _ _ _) fun p => .bind (.change (hnote p)) fun _ => .pure _

theorem keeps_clockPin (name : String) : Keeps g (clockPin name) :=
  .bind (.look _) fun _ => keeps_guard (keeps_namedPin hg fun _ d => hg.clockPins _ d)

theorem keeps_resetPin (name clock : String) : Keeps g (resetPin name clock) :=
  keeps_guard (.bind (.look _) fun _ => keeps_guard (keeps_namedPin hg fun _ d => hg.resetPins _ d))

theorem keeps_addSync (clock reset : PinId) : Keeps g (addSync clock reset) :=
  .bind (.look _) fun _ => .bind (keeps_wiring hg.netlist _) fun _ => .bind (keeps_pinBus? hg.netlist _)
    fun _ => .bind (keeps_pinBus? hg.netlist _) fun _ => .bind (keeps_wiring hg.netlist _) fun _ =>
    .pure _

theorem keeps_clockDomain (spec : String) : Keeps g (clockDomain spec) := by
  refine .bind (.look _) fun o => ?_
  have hput : ∀ domain : ClockDomain, Keeps g (do
      Build.change fun d => { d with domains := d.domains.put spec domain }
      return domain) := fun domain => .bind (.change fun d => hg.domains _ d) fun _ => .pure _
  split
  · exact .pure _
  · refine keeps_guard (keeps_guard (.bind (keeps_clockPin hg _) fun clock => ?_))
    split
    · exact .bind (.pure _) fun _ => hput _
    · exact .bind (keeps_resetPin hg _ _) fun _ => .bind (keeps_addSync hg _ _) fun _ => .bind (.pure _)
        fun _ => hput _

end

/-! ### Memories -/

theorem keeps_nextMemoryId (hg : ∀ next d, g { d with nextMemory := next } = g d) :
    Keeps g nextMemoryId := by
  refine .bind (.look _) fun id => ?_
  split
  · exact .bind (.change fun d => hg _ d) fun _ => .pure _
  · exact .fail _

theorem keeps_addMemory (hg : ∀ memories d, g { d with memories } = g d) (m : Memory) :
    Keeps g (addMemory m) :=
  keeps_guard (.bind (.look _) fun _ => keeps_guard (.change fun d => hg _ d))

end DataflowSynth.Design
