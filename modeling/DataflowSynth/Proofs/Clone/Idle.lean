/-
Copying a tree connects nothing.

New ports are driven by nothing and new components are entered from nowhere, and it stays like this
until the connections are repeated.  What was there before keeps its drivers and its entries.
-/
import DataflowSynth.Netlist.Copy
import DataflowSynth.Proofs.Netlist.Routine

namespace DataflowSynth.Netlist

open Build

/-- What drives each port, and how each component is entered. -/
structure Hookup where
  driver? : PortId → Option BusId
  entries : ComponentId → List EntryId

def hookup (n : Netlist) : Hookup where
  driver? p := (n.ports.get? p).bind Port.bus
  entries c := ((n.components.get? c).map Component.entries).getD []

/-- Nothing has been connected and nothing entered. -/
def Idle (n n' : Netlist) : Prop := n'.hookup = n.hookup

instance : IsPreorder Netlist Idle where
  refl _ := rfl
  trans _ _ _ h h' := h'.trans h

variable {n : Netlist} {c m o : ComponentId} {p : PortId} {b : BusId} {e : ExitId}

theorem idle_of {n' : Netlist} (hports : ∀ q, n'.hookup.driver? q = n.hookup.driver? q)
    (hentries : ∀ d, n'.hookup.entries d = n.hookup.entries d) : Idle n n' := by
  have hdriver : n'.hookup.driver? = n.hookup.driver? := funext hports
  have hentries : n'.hookup.entries = n.hookup.entries := funext hentries
  show Hookup.mk n'.hookup.driver? n'.hookup.entries = Hookup.mk n.hookup.driver? n.hookup.entries
  rw [hdriver, hentries]

/-! ### Single steps -/

theorem idle_pushPort {y : Port} (hy : y.bus = none) :
    Idle n { n with ports := n.ports.push y } := by
  refine idle_of (fun q => ?_) fun _ => rfl
  simp only [hookup, Arena.get?_push_index]
  split
  · next heq => rw [Arena.get?_of_size_le (Nat.le_of_eq heq.symm)]; exact hy
  · rfl

theorem idle_push {x : Component} (hx : x.entries = []) :
    Idle n { n with components := n.components.push x } := by
  refine idle_of (fun _ => rfl) fun d => ?_
  simp only [hookup, Arena.get?_push_index]
  split
  · next heq => rw [Arena.get?_of_size_le (Nat.le_of_eq heq.symm)]; exact hx
  · rfl

theorem idle_pushBus {z : Bus} : Idle n { n with buses := n.buses.push z } := rfl

theorem idle_pushExit {y : Exit} : Idle n { n with exits := n.exits.push y } := rfl

theorem idle_modify {f : Component → Component} (hf : ∀ x, (f x).entries = x.entries) :
    Idle n { n with components := n.components.modify c f } := by
  refine idle_of (fun _ => rfl) fun d => ?_
  simp only [hookup, Arena.get?_modify]
  split
  · next heq => cases n.components.get? d <;> simp [hf]
  · rfl

theorem idle_withExit {tag : ExitTag} : Idle n (n.withExit c tag) := by
  have hexits : ∀ x : Component,
      ({ x with exits := x.exits.put tag n.exits.next } : Component).entries = x.entries :=
    fun _ => rfl
  exact trans_of Idle idle_pushBus (trans_of Idle idle_pushExit (idle_modify hexits))

theorem idle_modifyPort {f : Port → Port} (hf : ∀ y, (f y).bus = y.bus) :
    Idle n { n with ports := n.ports.modify p f } := by
  refine idle_of (fun q => ?_) fun _ => rfl
  simp only [hookup, Arena.get?_modify]
  split
  · next heq => cases n.ports.get? q <;> simp [hf]
  · rfl

theorem idle_changeComponent {f : Component → Component} (hf : ∀ x, (f x).entries = x.entries) :
    Moves Idle (changeComponent c f) :=
  .bind (.look _) fun _ => .ite (.change fun _ => idle_modify hf) (.abort _)

theorem idle_changePort {f : Port → Port} (hf : ∀ y, (f y).bus = y.bus) :
    Moves Idle (changePort p f) :=
  .bind (.look _) fun _ => .ite (.change fun _ => idle_modifyPort hf) (.abort _)

theorem idle_changeBus {f : Bus → Bus} : Moves Idle (changeBus b f) :=
  .bind (.look _) fun _ => .ite (.change fun _ => rfl) (.abort _)

theorem idle_changeExit {f : Exit → Exit} : Moves Idle (changeExit e f) :=
  .bind (.look _) fun _ => .ite (.change fun _ => rfl) (.abort _)

theorem idle_addPort {y : Port} (hy : y.bus = none) : Moves Idle (addPort y) :=
  .bind (.look _) fun _ => .bind (.change fun _ => idle_pushPort hy) fun _ => .pure _

theorem idle_addBus {z : Bus} : Moves Idle (addBus z) :=
  .bind (.look _) fun _ => .bind (.change fun _ => idle_pushBus) fun _ => .pure _

/-! ### Terminals -/

theorem idle_pair : Moves Idle (pair p b) := by
  refine .bind (idle_changePort fun _ => rfl) fun _ => .bind idle_changeBus fun _ => .bind moves_port
    fun _ => .bind moves_bus fun _ => ?_
  dsimp only
  split
  · exact idle_changeBus
  · exact idle_changePort fun _ => rfl
  · exact .pure ()

theorem idle_makeDataBus {name : String} : Moves Idle (makeDataBus e name) := by
  refine .bind idle_addBus fun d => .bind idle_changeExit fun _ => .bind moves_exit fun y => ?_
  split
  · exact .pure d
  · exact .bind (idle_addPort rfl) fun _ => .bind (idle_changeComponent fun _ => rfl) fun _ =>
      .bind idle_pair fun _ => .pure d

theorem idle_makeControlBus {control : Control} : Moves Idle (makeControlBus e control) :=
  .bind idle_addBus fun _ => .bind idle_changeExit fun _ => .pure _

theorem idle_makeDataPort {name : String} : Moves Idle (makeDataPort c name) := by
  refine .bind (idle_addPort rfl) fun q => .bind (idle_changeComponent fun _ => rfl) fun _ =>
    .bind moves_component fun x => ?_
  split
  · exact .pure q
  · exact .bind moves_mainExit fun _ => .bind idle_makeDataBus fun _ => .bind idle_pair fun _ =>
      .pure q

theorem idle_makeThisPort : Moves Idle (makeThisPort c) := by
  refine .bind moves_component fun x => ?_
  split
  · next q _ => exact .pure q
  refine .bind (idle_addPort rfl) fun q => .bind (idle_changeComponent fun _ => rfl) fun _ =>
    .bind moves_component fun x => ?_
  split
  · exact .pure q
  · exact .bind moves_mainExit fun _ => .bind idle_makeControlBus fun _ => .bind idle_pair fun _ =>
      .pure q

theorem idle_newComponent {kind : ComponentKind} {stem : String} {data : Nat} :
    Moves Idle (newComponent kind stem data) :=
  .bind (.look _) fun _ => .bind (idle_addPort rfl) fun _ => .bind (idle_addPort rfl) fun _ =>
    .bind (idle_addPort rfl) fun _ => .bind (.bind (.look _) fun _ => .bind (.change fun _ => rfl)
    fun _ => .pure _) fun _ => .bind (.change fun _ => idle_push rfl) fun _ =>
    .bind (.forM fun _ _ => .discard idle_makeDataPort) fun _ => .pure _

theorem idle_makeOutBuf : Moves Idle (makeOutBuf c e) :=
  .bind moves_component fun _ => .bind idle_newComponent fun _ =>
    .bind (idle_changeComponent fun _ => rfl) fun _ => .bind moves_component fun _ =>
    .bind moves_exit fun _ => .bind idle_pair fun _ => .bind idle_changeExit fun _ =>
    idle_changeComponent fun _ => rfl

theorem idle_makeExit {data : Nat} {tag : ExitTag} : Moves Idle (makeExit c data tag) := by
  intro s
  by_cases hc : c.index < s.state.components.size
  · obtain ⟨x, hx⟩ := Arena.exists_get? hc
    cases htag : x.exits.contains tag with
    | true => exact (wp_makeExit_taken hx htag data).mpr trivial
    | false =>
        refine (wp_makeExit_free hx htag data).mpr ?_
        have hout : Moves Idle (if x.isModule then makeOutBuf c s.state.exits.next else pure ()) :=
          .ite idle_makeOutBuf (.pure ())
        have hbuses : Moves Idle ((numberedNames "dout" data).forM fun name =>
            discard (makeDataBus s.state.exits.next name)) :=
          .forM fun _ _ => .discard idle_makeDataBus
        refine wp_mono (hout _) (fun _ t ht => ?_) fun _ _ h => h
        refine wp_mono (hbuses t) (fun _ u hu => ?_) fun _ _ h => h
        exact trans_of Idle idle_withExit (trans_of Idle ht hu)
  · have hnone : s.state.components.get? c = none := Arena.get?_of_size_le (Nat.le_of_not_lt hc)
    simp only [makeExit, component, wp_bind, wp_look, hnone, wp_expect_none]
    trivial

theorem idle_makeInBuf : Moves Idle (makeInBuf m) :=
  .bind moves_component fun _ => .bind idle_newComponent fun _ =>
    .bind (idle_changeComponent fun _ => rfl) fun _ => .bind idle_makeExit fun _ =>
    .bind moves_exit fun _ => .bind idle_pair fun _ => .bind idle_makeControlBus fun _ =>
    .bind idle_pair fun _ => .bind idle_makeControlBus fun _ => .bind idle_pair fun _ =>
    .bind (idle_changeComponent fun _ => rfl) fun _ => idle_changeComponent fun _ => rfl

theorem idle_newModule {kind : ModuleKind} {stem : String} {data : Nat} :
    Moves Idle (newModule kind stem data) :=
  .bind idle_newComponent fun _ => .bind idle_makeInBuf fun _ =>
    .bind (.forM fun _ _ => .discard idle_makeDataPort) fun _ => .pure _

/-! ### Copies -/

section

variable {map : Correspondence} {copy : ComponentId}

theorem idle_changeInterior {f : Interior → Interior} : Moves Idle (changeInterior m f) :=
  .bind (.bind moves_component fun _ => .expect _ _) fun _ => idle_changeComponent fun _ => rfl

theorem idle_setConsumesGo {on : Bool} : Moves Idle (setConsumesGo c on) := by
  refine .bind (idle_changeComponent fun _ => rfl) fun _ => .bind moves_component fun x => ?_
  split
  · exact .pure ()
  · exact idle_changeComponent fun _ => rfl

theorem idle_setProducesDone {on : Bool} : Moves Idle (setProducesDone c on) :=
  .bind (idle_changeComponent fun _ => rfl) fun _ => .bind moves_component fun _ => .ite
    (.bind moves_outBufs fun _ => .forM fun _ _ => idle_changeComponent fun _ => rfl) (.pure ())

theorem idle_addComponent : Moves Idle (addComponent m c) := by
  refine .bind moves_component fun x => ?_
  split
  · exact .ite (.bind moves_component fun _ => .abort _) (.pure ())
  · exact .bind (idle_changeComponent fun _ => rfl) fun _ => idle_changeInterior

theorem idle_addFeedbackPoint : Moves Idle (addFeedbackPoint m c) :=
  .bind moves_component fun _ => .ite (.bind moves_component fun _ => .bind (.abort _) fun _ =>
    idle_changeInterior) idle_changeInterior

theorem idle_copyPorts {x : Component} : Moves Idle (copyPorts x copy) := by
  have hdata : Moves Idle (x.dataPorts.forM fun p => do
      discard (makeDataPort copy (← port p).name)) :=
    .forM fun _ _ => .bind moves_port fun _ => .discard idle_makeDataPort
  unfold copyPorts
  split
  · exact .bind (.discard idle_makeThisPort) fun _ => hdata
  · exact hdata

theorem idle_copyShell : Moves Idle (copyShell c) := by
  refine .bind moves_component fun x => .bind ?_ fun copy => .bind idle_copyPorts fun _ => .bind
    (.bind (idle_changeComponent fun _ => rfl) fun _ => .bind (idle_changeComponent fun _ => rfl)
      fun _ => .bind idle_setConsumesGo fun _ => .bind idle_setProducesDone fun _ =>
      idle_changeComponent fun _ => rfl) fun _ => .pure copy
  unfold newLike
  split
  · exact idle_newModule
  · exact idle_newComponent

theorem idle_mapPort {q : PortId} : Moves Idle (mapPort map p q) :=
  .bind moves_port fun _ => .bind (idle_changePort fun _ => rfl) fun _ => .pure _

theorem idle_mapBus {d : BusId} : Moves Idle (mapBus map b d) :=
  .bind moves_bus fun _ => .bind idle_changeBus fun _ => .pure _

theorem idle_mapExit {e' : ExitId} : Moves Idle (mapExit map e e') :=
  .bind moves_exit fun _ => .bind moves_exit fun _ => .foldlM (fun _ _ _ => idle_mapBus) _

theorem idle_mapComponent : Moves Idle (mapComponent map c copy) :=
  .bind moves_component fun _ => .bind moves_component fun _ => .bind
    (.foldlM (fun _ _ _ => idle_mapPort) _) fun _ => .bind moves_component fun _ => .bind
    moves_component fun _ => .foldlM (fun _ _ _ => idle_mapExit) _

theorem idle_mapOutBuf : Moves Idle (mapOutBuf map e) := by
  refine .bind ?_ fun copied => .bind moves_exit fun y => ?_
  · unfold copiedOutBuf?
    split
    · exact .pure _
    · exact .bind moves_exit fun _ => .pure _
  · split
    · exact idle_mapComponent
    · exact .pure _

theorem idle_copyBody {kind : ComponentKind} : Moves Idle (copyBody map kind copy) := by
  unfold copyBody
  split
  · exact .bind (.expect _ _) fun _ => idle_changeComponent fun _ => rfl
  · exact .pure _

theorem idle_copyMarks : Moves Idle (copyMarks map c copy) :=
  .bind moves_component fun _ => .bind moves_inBuf fun _ => .bind moves_inBuf fun _ => .bind
    idle_mapComponent fun _ => .bind (.foldlM (fun _ _ _ => idle_mapOutBuf) _) fun _ => .bind
    (.bind moves_component fun _ => .expect _ _) fun _ => .bind (.forM fun _ _ => .bind (.expect _ _)
    fun _ => idle_addFeedbackPoint) fun _ => .bind idle_copyBody fun _ => .pure _

theorem idle_copyTree {depth : Nat} : Moves Idle (copyTree depth c map) := by
  induction depth generalizing c map with
  | zero => exact .abort _
  | succ depth ih =>
      exact .bind moves_component fun x => .bind idle_copyShell fun copy => .bind
        (.foldlM (fun _ _ _ => .bind ih fun _ => .bind idle_addComponent fun _ => .pure _) _) fun _ =>
        .bind (.forM fun _ _ => .bind moves_exit fun _ => .bind idle_makeExit fun _ => idle_changeExit)
        fun _ => .bind idle_mapComponent fun _ => .ite (.bind idle_copyMarks fun _ => .pure _) (.pure _)

end

/-- A component that was not there before is entered from nowhere. -/
theorem Idle.unentered {n' : Netlist} (h : Idle n n') {x : Component}
    (hx : n'.components.get? c = some x) (hnew : n.components.size ≤ c.index) : x.entries = [] := by
  have heq := congrFun (congrArg Hookup.entries h) c
  simpa only [hookup, hx, Arena.get?_of_size_le hnew, Option.map_some, Option.map_none,
    Option.getD_some, Option.getD_none] using heq

end DataflowSynth.Netlist
