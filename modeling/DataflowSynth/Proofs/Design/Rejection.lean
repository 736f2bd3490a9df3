/-
What a rejected request leaves behind.

Interfaces, pins and domains are made when they are first asked for, and a request that conflicts with
an earlier one is refused.  All checks of a single allocator come before it makes anything, so it leaves
the design as it was.  A domain is put together by two allocators.  The second of them can refuse a
reset after the first has made a pin for the clock, and then the pin stays.
-/
import DataflowSynth.Design.Clock
import DataflowSynth.Design.Resource
import DataflowSynth.Proofs.Design.Consistency
import DataflowSynth.Proofs.Netlist.Boundaries
import DataflowSynth.Proofs.Netlist.Holdings

namespace DataflowSynth

/-! ### Steps that refuse nothing -/

namespace Build

variable {σ τ α : Type}

instance : IsPreorder σ fun _ _ => True where
  refl _ := trivial
  trans _ _ _ _ _ := trivial

/-- The step reports no error, though it may be aborted. -/
abbrev Accepts (x : Build σ α) : Prop := Moves (fun _ _ => True) x

theorem Accepts.within {get : σ → τ} {put : τ → σ → σ} {x : Build τ α} (hx : Accepts x) :
    Accepts (Build.within get put x) :=
  fun s => wp_within.mpr (hx ⟨get s.state, s.journal⟩)

end Build

open Build

namespace Netlist

variable {α : Type} {c m : ComponentId} {p : PortId} {b : BusId} {e : ExitId}

theorem accepts_of_moves {R : Netlist → Netlist → Prop} {x : Step α} (hx : Moves R x) : Accepts x :=
  hx.mono fun _ _ _ => trivial

theorem accepts_changeComponent {f : Component → Component} : Accepts (changeComponent c f) :=
  .bind (.look _) fun _ => .ite (.change fun _ => trivial) (.abort _)

theorem accepts_changeExit {f : Exit → Exit} : Accepts (changeExit e f) :=
  .bind (.look _) fun _ => .ite (.change fun _ => trivial) (.abort _)

theorem accepts_addExit {x : Exit} : Accepts (addExit x) :=
  .bind (.look _) fun _ => .bind (.change fun _ => trivial) fun _ => .pure _

theorem accepts_freshName {stem : String} : Accepts (freshName stem) :=
  .bind (.look _) fun _ => .bind (.change fun _ => trivial) fun _ => .pure _

theorem accepts_addPort {y : Port} : Accepts (addPort y) := accepts_of_moves moves_addPort

theorem accepts_newComponent {kind : ComponentKind} {stem : String} {data : Nat} :
    Accepts (newComponent kind stem data) :=
  .bind (.look _) fun _ => .bind accepts_addPort fun _ => .bind accepts_addPort fun _ =>
    .bind accepts_addPort fun _ => .bind accepts_freshName fun _ =>
    .bind (.change fun _ => trivial) fun _ =>
    .bind (.forM fun _ _ => .discard (accepts_of_moves moves_makeDataPort)) fun _ => .pure _

theorem accepts_makeOutBuf : Accepts (makeOutBuf c e) :=
  .bind moves_component fun _ => .bind accepts_newComponent fun _ =>
    .bind accepts_changeComponent fun _ => .bind moves_component fun _ =>
    .bind moves_exit fun _ => .bind (accepts_of_moves moves_pair) fun _ =>
    .bind accepts_changeExit fun _ => accepts_changeComponent

theorem accepts_makeExit {data : Nat} {tag : ExitTag} : Accepts (makeExit c data tag) := by
  refine .bind moves_component fun x => ?_
  have hbuses : ∀ e : ExitId, Accepts (do
      (numberedNames "dout" data).forM fun name => discard (makeDataBus e name)
      return e) := fun e =>
    .bind (.forM fun _ _ => .discard (accepts_of_moves moves_makeDataBus)) fun _ => .pure e
  have hopen : Accepts (do
      let e ← Build.look fun n => n.exits.next
      let done ← addBus (Bus.new "done" e .done)
      let _ ← addExit { owner := c, tag, done }
      changeComponent c fun y => { y with exits := y.exits.put tag e }
      if x.isModule then makeOutBuf c e
      (numberedNames "dout" data).forM fun name => discard (makeDataBus e name)
      return e) := by
    refine .bind (.look _) fun e => .bind (accepts_of_moves moves_addBus) fun _ =>
      .bind accepts_addExit fun _ => .bind accepts_changeComponent fun _ => ?_
    exact .ite (.bind accepts_makeOutBuf fun _ => hbuses e) (hbuses e)
  exact .ite (.bind (.abort _) fun _ => hopen) hopen

theorem accepts_resultBus : Accepts (resultBus c) :=
  .bind moves_mainExit fun _ => .bind moves_exit fun _ => .expect _ _

theorem accepts_newPrimitive {kind : ComponentKind} {stem : String} {inputs : Nat}
    {result : Signal} : Accepts (newPrimitive kind stem inputs result) :=
  .bind accepts_newComponent fun _ => .bind accepts_makeExit fun _ =>
    .bind accepts_resultBus fun _ => .bind (accepts_of_moves moves_changeBus) fun _ => .pure _

end Netlist

namespace Design

open Netlist

/-! ### What only adds -/

theorem accepts_wiring {α : Type} {x : Netlist.Step α} (hx : Accepts x) : Accepts (wiring x) :=
  Accepts.within hx

theorem accepts_addPin (p : Pin) : Accepts (addPin p) :=
  .bind (.look _) fun _ => .bind (.change fun _ => trivial) fun _ => .pure _

theorem accepts_addInputPin {name : String} {signal : Signal} {role : PinRole} :
    Accepts (addInputPin name signal role) := by
  refine .bind (.look _) fun _ => .bind (accepts_wiring ?_) fun _ => accepts_addPin _
  exact .bind (accepts_of_moves moves_makeDataPort) fun _ =>
    .bind (accepts_of_moves moves_changePort) fun _ => .bind moves_port fun _ =>
    .bind (.expect _ _) fun _ => .bind (accepts_of_moves moves_changeBus) fun _ =>
    .bind (accepts_of_moves moves_changePort) fun _ => .pure _

theorem accepts_addOutputPin {name : String} {signal : Signal} {role : PinRole} :
    Accepts (addOutputPin name signal role) := by
  refine .bind (.look _) fun _ => .bind (accepts_wiring ?_) fun _ => accepts_addPin _
  exact .bind moves_mainExit fun _ => .bind (accepts_of_moves moves_makeDataBus) fun _ =>
    .bind (accepts_of_moves moves_changeBus) fun _ =>
    .bind (accepts_of_moves moves_changeBus) fun _ => .pure _

theorem accepts_addFifoPins (spec : FifoSpec) : Accepts (addFifoPins spec) := by
  unfold addFifoPins
  split
  · refine .bind accepts_addInputPin fun _ => ?_
    have hrest : ∀ data : PinId, Accepts (do
        let send ← addInputPin (spec.name ++ "_SEND") .bit .fifo
        let ack ← addOutputPin (spec.name ++ "_ACK") .bit .fifo
        return ({ data, send := some send, ack := some ack } : FifoPins)) := fun _ =>
      .bind accepts_addInputPin fun _ => .bind accepts_addOutputPin fun _ => .pure _
    exact .ite (.pure _) (hrest _)
  · exact .bind accepts_addOutputPin fun _ => .bind accepts_addOutputPin fun _ =>
      .bind accepts_addInputPin fun _ => .bind accepts_addInputPin fun _ => .pure _

theorem accepts_pinBus? (p : PinId) : Accepts (pinBus? p) := by
  refine .bind (.look _) fun x => ?_
  split
  · exact .bind (accepts_wiring Netlist.moves_port) fun _ => .pure _
  · exact .pure _

theorem accepts_addSync (clock reset : PinId) : Accepts (addSync clock reset) := by
  refine .bind (.look _) fun root => .bind (accepts_wiring ?_) fun sync =>
    .bind (accepts_pinBus? _) fun _ => .bind (accepts_pinBus? _) fun _ =>
    .bind (accepts_wiring ?_) fun _ => .pure sync
  · exact .bind accepts_newPrimitive fun _ => .bind accepts_changeComponent fun _ =>
      .bind (accepts_of_moves unseen_addComponent) fun _ => .pure _
  · refine .bind moves_component fun _ => .bind (accepts_of_moves calm_setBus) fun _ => .bind ?_
      fun _ => accepts_of_moves calm_setBus
    exact .bind moves_component fun _ => .expect _ _

/-! ### Requests -/

/-- What can be asked of a design and may be refused. -/
inductive Request where
  | fifo (spec : FifoSpec)
  | clockPin (name : String)
  | resetPin (name clock : String)
  | clockDomain (spec : String)

namespace Request

def run : Request → Step Unit
  | .fifo spec => discard (getFifo spec)
  | .clockPin name => discard (Design.clockPin name)
  | .resetPin name clock => discard (Design.resetPin name clock)
  | .clockDomain spec => discard (Design.clockDomain spec)

/-- The request is for a new domain of a new clock, and its reset has the name of an old clock. -/
def Strands (d : Design) (clock : String) : Request → Prop
  | .clockDomain spec => d.domains.find? spec = none ∧
      ∃ reset, parseDomain spec = (clock, some reset) ∧ clock ≠ "" ∧ reset ≠ clock ∧
        d.resetPins.contains clock = false ∧ d.clockPins.contains clock = false ∧
        d.clockPins.contains reset = true
  | _ => False

theorem Strands.unique {d : Design} {clock clock' : String} {request : Request}
    (h : request.Strands d clock) (h' : request.Strands d clock') : clock = clock' := by
  cases request with
  | clockDomain spec =>
      obtain ⟨-, _, hparse, -⟩ := h
      obtain ⟨-, _, hparse', -⟩ := h'
      exact congrArg Prod.fst (hparse.symm.trans hparse')
  | _ => exact h.elim

theorem Strands.new {d : Design} {clock : String} {request : Request}
    (h : request.Strands d clock) : d.clockPins.contains clock = false := by
  cases request with
  | clockDomain spec =>
      obtain ⟨-, _, -, -, -, -, hnew, -⟩ := h
      exact hnew
  | _ => exact h.elim

end Request

variable {s t : Traced Design}

theorem wp_getFifo_refused (spec : FifoSpec) :
    wp (getFifo spec) (fun _ _ => True) (fun f t => f.Unless (t = s)) s := by
  unfold getFifo
  split
  · exact rfl
  · simp only [wp_bind, wp_look]
    split
    · split
      · exact rfl
      · exact trivial
    · rw [wp_bind]
      refine wp_mono (accepts_addFifoPins spec s) (fun pins t _ => ?_) fun _ _ h => h.mono False.elim
      trivial

theorem keeps_clockPins_addInputPin (name : String) (signal : Signal) (role : PinRole) :
    Keeps Design.clockPins (addInputPin name signal role) := by
  have hput : ∀ (n : Netlist) (d : Design), { d with netlist := n }.clockPins = d.clockPins :=
    fun _ _ => rfl
  have hwiring : ∀ x : Netlist.Step PortId, Keeps Design.clockPins (wiring x) := Keeps.within hput
  exact .bind (.look _) fun _ => .bind (hwiring _) fun _ => .bind (.look _) fun _ =>
    .bind (.change fun _ => rfl) fun _ => .pure _

/-- A clock pin is refused before anything is made, for the name of a reset.  Otherwise it is the one
that was there, or the only one that is new. -/
theorem wp_clockPin_refused (name : String) :
    wp (clockPin name) (fun p t => s.state.resetPins.contains name = false ∧
        (t = s ∧ s.state.clockPins.contains name = true ∨
          s.state.clockPins.contains name = false ∧
            t.state.clockPins = s.state.clockPins.put name p))
      (fun f t => f.Unless (t = s ∧ s.state.resetPins.contains name = true)) s := by
  simp only [clockPin, wp_bind, wp_look]
  split
  · next htaken => exact ⟨rfl, htaken⟩
  · next hfree =>
    have hfree : s.state.resetPins.contains name = false := by simpa using hfree
    simp only [wp_bind, wp_look]
    cases hfind : s.state.clockPins.find? name with
    | some p => exact ⟨hfree, .inl ⟨rfl, by simp [OrderedMap.contains, hfind]⟩⟩
    | none =>
        rw [wp_bind]
        refine wp_mono (wp_and (accepts_addInputPin s) (keeps_clockPins_addInputPin name .bit .clock s))
          (fun p t ht => ?_) fun _ _ h => Failure.Unless.mono h.1 False.elim
        simp only [wp_bind, wp_change, wp_pure]
        exact ⟨hfree, .inr ⟨by simp [OrderedMap.contains, hfind], by rw [ht.2]⟩⟩

/-- A reset pin is refused before anything is made, for the name of a clock. -/
theorem wp_resetPin_refused (name clock : String) :
    wp (resetPin name clock) (fun _ _ => True)
      (fun f t => f.Unless (t = s ∧ (name = clock ∨ s.state.clockPins.contains name = true))) s := by
  unfold resetPin
  split
  · next h => exact ⟨rfl, .inl h⟩
  · simp only [wp_bind, wp_look]
    split
    · next h => exact ⟨rfl, .inr h⟩
    · simp only [wp_bind, wp_look]
      split
      · trivial
      · rw [wp_bind]
        exact wp_mono (accepts_addInputPin s) (fun _ _ _ => trivial) fun _ _ h => h.mono False.elim

/-- A domain is refused before anything is made, or its reset after its clock was made. -/
theorem wp_clockDomain_refused (spec : String) :
    wp (clockDomain spec) (fun _ _ => True)
      (fun f t => f.Unless
        (t = s ∧ (∀ clock, ¬ (Request.clockDomain spec).Strands s.state clock) ∨
          ∃ clock p, (Request.clockDomain spec).Strands s.state clock ∧ clockPin clock s = .ok p t ∧
            t.state.clockPins = s.state.clockPins.put clock p)) s := by
  simp only [clockDomain, wp_bind, wp_look]
  cases hdomain : s.state.domains.find? spec with
  | some domain => trivial
  | none =>
      rcases hparse : parseDomain spec with ⟨clock, reset⟩
      have hstrands : ∀ c, (Request.clockDomain spec).Strands s.state c → c = clock ∧ clock ≠ "" ∧
          reset ≠ some clock ∧ s.state.resetPins.contains clock = false ∧
          s.state.clockPins.contains clock = false := by
        rintro c ⟨-, r, hr, hc, hne, hfree, hnew, -⟩
        obtain ⟨rfl, rfl⟩ := Prod.mk.inj (hparse.symm.trans hr)
        exact ⟨rfl, hc, by simpa using hne, hfree, hnew⟩
      dsimp only
      split
      · next hclock => exact .inl ⟨rfl, fun c hc => (hstrands c hc).2.1 hclock⟩
      · next hclock =>
        split
        · next hsame => exact .inl ⟨rfl, fun c hc => (hstrands c hc).2.2.1 hsame⟩
        · next hreset =>
          rw [wp_bind]
          refine wp_mono (wp_and (wp_clockPin_refused clock) wp_run) (fun p t ht => ?_)
            fun _ _ h => Failure.Unless.mono h.1 fun h => .inl ⟨h.1, fun c hc => ?_⟩
          · obtain ⟨⟨hfree, ht⟩, hrun⟩ := ht
            cases reset with
            | none => trivial
            | some reset =>
                rw [wp_bind]
                refine wp_mono (wp_resetPin_refused reset clock) (fun r u _ => ?_)
                  fun _ u h => Failure.Unless.mono h fun hu => ?_
                · rw [wp_bind]
                  exact wp_mono (accepts_addSync p r u) (fun _ _ _ => trivial)
                    fun _ _ h => Failure.Unless.mono h False.elim
                · obtain ⟨rfl, hu⟩ := hu
                  have hother : reset ≠ clock := fun h => hreset (by rw [h])
                  obtain ⟨rfl, hold⟩ | ⟨hnew, hput⟩ := ht
                  · exact .inl ⟨rfl, fun c hc => by simp [(hstrands c hc).2.2.2.2] at hold⟩
                  · have htaken : s.state.clockPins.contains reset = true := by
                      have htaken := hu.resolve_left hother
                      rwa [hput, OrderedMap.contains, OrderedMap.find?_put_of_ne _ hother] at htaken
                    have hstrand : (Request.clockDomain spec).Strands s.state clock :=
                      ⟨hdomain, reset, hparse, hclock, hother, hfree, hnew, htaken⟩
                    exact .inr ⟨clock, p, hstrand, hrun, hput⟩
          · simp [(hstrands c hc).2.2.2.1] at h

/-! ### Refusals -/

/-- A refused request leaves the design as it was, unless it is for a new domain of a new clock whose
reset has the name of an old clock.  Then the pin of the new clock was made, and nothing else. -/
theorem refused_request {request : Request} {e : Error} (h : request.run s = .error (.error e) t) :
    ((∀ clock, ¬ request.Strands s.state clock) → t = s) ∧
      ∀ clock, request.Strands s.state clock → ∃ p, clockPin clock s = .ok p t ∧
        s.state.clockPins.contains clock = false ∧
        t.state.clockPins = s.state.clockPins.put clock p := by
  have hrun : ∀ {F : Failure → Traced Design → Prop}, wp request.run (fun _ _ => True) F s →
      F (.error e) t := by
    intro F hF
    rwa [wp, h] at hF
  cases request with
  | fifo spec =>
      have ht := hrun (wp_discard.mpr (wp_getFifo_refused spec))
      exact ⟨fun _ => ht, fun _ => False.elim⟩
  | clockPin name =>
      have ht := hrun (wp_discard.mpr (wp_mono (wp_clockPin_refused name) (fun _ _ _ => trivial)
        fun _ _ h => h))
      exact ⟨fun _ => ht.1, fun _ => False.elim⟩
  | resetPin name clock =>
      have ht := hrun (wp_discard.mpr (wp_resetPin_refused name clock))
      exact ⟨fun _ => ht.1, fun _ => False.elim⟩
  | clockDomain spec =>
      obtain ⟨ht, hnone⟩ | ⟨clock, p, hstrands, hpin, hput⟩ :=
        hrun (wp_discard.mpr (wp_clockDomain_refused spec))
      · exact ⟨fun _ => ht, fun clock hclock => (hnone clock hclock).elim⟩
      · refine ⟨fun hnone => (hnone clock hstrands).elim, fun other hother => ?_⟩
        obtain rfl : other = clock := hother.unique hstrands
        exact ⟨p, hpin, hother.new, hput⟩

/-- A refusal that is found by running the request. -/
theorem exists_refused {r : Request} {P : Design → Bool}
    (h : (match r.run s with
      | .error (.error _) t => P t.state
      | _ => false) = true) :
    ∃ e t, r.run s = .error (.error e) t ∧ P t.state = true := by
  split at h
  · next e t hrun => exact ⟨e, t, hrun, h⟩
  · cases h

/-- A design with one clock. -/
def clocked : Traced Design := ((Call.clockDomain "CLK").run.run ⟨Design.new "top", #[]⟩).2

/-- The clock is refused as a reset, and the design stays as it was. -/
theorem refused_request_reset : ∃ t e,
    (Request.resetPin "CLK" "FAST").run clocked = .error (.error e) t ∧ t = clocked := by
  obtain ⟨e, t, hrun, -⟩ := exists_refused (r := .resetPin "CLK" "FAST") (s := clocked)
    (P := fun _ => true) (by decide +kernel)
  exact ⟨t, e, hrun, (refused_request hrun).1 fun _ => id⟩

/-- A domain with the clock as its reset is refused, and the pin of its own clock stays. -/
theorem refused_domain_strands_clock : Reached True clocked.state ∧ ∃ t e,
    (Request.clockDomain "NEW:CLK").run clocked = .error (.error e) t ∧
      clocked.state.pins.size = 1 ∧ t.state.pins.size = 2 ∧
      clocked.state.clockPins.keys = ["CLK"] ∧ t.state.clockPins.keys = ["CLK", "NEW"] := by
  have hleaves : (Call.clockDomain "CLK").run.Leaves (Design.new "top") clocked.state := by
    rw [clocked]
    exact leaves_run (by decide +kernel)
  have hreached : Reached True clocked.state :=
    .call (.clockDomain "CLK") (.new "top") ⟨by simp [Call.refs], by simp [Call.pins]⟩
      (fun _ => trivial) hleaves
  obtain ⟨e, t, hrun, ht⟩ := exists_refused (r := .clockDomain "NEW:CLK") (s := clocked)
    (P := fun d => decide (d.pins.size = 2 ∧ d.clockPins.keys = ["CLK", "NEW"])) (by decide +kernel)
  obtain ⟨hpins, hkeys⟩ := of_decide_eq_true ht
  exact ⟨hreached, t, e, hrun, by decide +kernel, hpins, by decide +kernel, hkeys⟩

end Design

end DataflowSynth
