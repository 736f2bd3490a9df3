/-
Terminals that stay.

Nothing that a design makes for itself takes a terminal away.  Components keep their data ports and the
exit that they have by default, and exits keep their data buses, while more of each may come.
-/
import DataflowSynth.Fifo.Accessor
import DataflowSynth.Proofs.Netlist.Outcomes
import DataflowSynth.Proofs.Netlist.Routine

namespace DataflowSynth

open Build

namespace Netlist

/-! ### Spanning -/

/-- The component has the data ports of `x`, and its default exit. -/
structure Component.Spans (x x' : Component) : Prop where
  data : x.dataPorts ⊆ x'.dataPorts
  mainExit : ∀ e, x.mainExit? = some e → x'.mainExit? = some e

/-- Data ports, data buses and default exits are where they were. -/
structure Spans (n n' : Netlist) : Prop where
  ports : n.ports.size ≤ n'.ports.size
  buses : n.buses.size ≤ n'.buses.size
  components : ∀ c x, n.components.get? c = some x →
    ∃ x', n'.components.get? c = some x' ∧ x.Spans x'
  exits : ∀ e y, n.exits.get? e = some y →
    ∃ y', n'.exits.get? e = some y' ∧ y.data ⊆ y'.data

theorem Component.Spans.refl (x : Component) : x.Spans x := ⟨List.Subset.refl _, fun _ h => h⟩

theorem Component.Spans.trans {x y z : Component} (h : x.Spans y) (h' : y.Spans z) : x.Spans z :=
  ⟨List.Subset.trans h.data h'.data, fun e he => h'.mainExit e (h.mainExit e he)⟩

theorem Component.spans_of_shape {x y : Component} (h : y.shape = x.shape) : x.Spans y := by
  have hdata : y.shape.dataPorts = x.shape.dataPorts := congrArg Component.dataPorts h
  have hexits : y.shape.exits = x.shape.exits := congrArg Component.exits h
  simp only [Component.shape] at hdata hexits
  refine ⟨hdata ▸ List.Subset.refl _, fun e he => ?_⟩
  rwa [mainExit?, hexits]

instance : IsPreorder Netlist Spans where
  refl _ := ⟨Nat.le_refl _, Nat.le_refl _, fun _ x hx => ⟨x, hx, .refl x⟩,
    fun _ y hy => ⟨y, hy, List.Subset.refl _⟩⟩
  trans _ _ _ h h' := by
    refine ⟨Nat.le_trans h.ports h'.ports, Nat.le_trans h.buses h'.buses, fun c x hx => ?_, fun e y hy => ?_⟩
    · obtain ⟨x', hx', hspan⟩ := h.components c x hx
      obtain ⟨x'', hx'', hspan'⟩ := h'.components c x' hx'
      exact ⟨x'', hx'', hspan.trans hspan'⟩
    · obtain ⟨y', hy', hsub⟩ := h.exits e y hy
      obtain ⟨y'', hy'', hsub'⟩ := h'.exits e y' hy'
      exact ⟨y'', hy'', List.Subset.trans hsub hsub'⟩

/-! ### Single steps -/

section

variable {c m o : ComponentId} {p : PortId} {b : BusId} {e : ExitId}

theorem spans_of_same {n n' : Netlist} (hports : n.ports.size ≤ n'.ports.size)
    (hbuses : n.buses.size ≤ n'.buses.size) (hcomponents : n'.components = n.components)
    (hexits : n'.exits = n.exits) : Spans n n' :=
  ⟨hports, hbuses, fun _ x hx => ⟨x, hcomponents ▸ hx, .refl x⟩,
    fun _ y hy => ⟨y, hexits ▸ hy, List.Subset.refl _⟩⟩

theorem spans_pushPort {n : Netlist} (y : Port) : Spans n { n with ports := n.ports.push y } :=
  spans_of_same (by simp) (Nat.le_refl _) rfl rfl

theorem spans_pushBus {n : Netlist} (z : Bus) : Spans n { n with buses := n.buses.push z } :=
  spans_of_same (Nat.le_refl _) (by simp) rfl rfl

theorem spans_push {n : Netlist} (x : Component) :
    Spans n { n with components := n.components.push x } := by
  refine ⟨Nat.le_refl _, Nat.le_refl _, fun d y hy => ⟨y, ?_, .refl y⟩,
    fun _ y hy => ⟨y, hy, List.Subset.refl _⟩⟩
  rw [Arena.get?_push_index, if_neg (Nat.ne_of_lt (Arena.lt_of_get? hy)), hy]

theorem spans_pushExit {n : Netlist} (y : Exit) : Spans n { n with exits := n.exits.push y } := by
  refine ⟨Nat.le_refl _, Nat.le_refl _, fun _ x hx => ⟨x, hx, .refl x⟩,
    fun d z hz => ⟨z, ?_, List.Subset.refl _⟩⟩
  rw [Arena.get?_push_index, if_neg (Nat.ne_of_lt (Arena.lt_of_get? hz)), hz]

theorem spans_modify {n : Netlist} {f : Component → Component}
    (hf : ∀ x, n.components.get? c = some x → x.Spans (f x)) :
    Spans n { n with components := n.components.modify c f } := by
  refine ⟨Nat.le_refl _, Nat.le_refl _, fun d x hx => ?_, fun _ y hy => ⟨y, hy, List.Subset.refl _⟩⟩
  by_cases hd : d = c
  · subst hd
    exact ⟨f x, by simp [Arena.get?_modify, hx], hf x hx⟩
  · exact ⟨x, by rwa [Arena.get?_modify_of_ne _ (Ne.symm hd)], .refl x⟩

theorem spans_modifyExit {n : Netlist} {f : Exit → Exit} (hf : ∀ y, y.data ⊆ (f y).data) :
    Spans n { n with exits := n.exits.modify e f } := by
  refine ⟨Nat.le_refl _, Nat.le_refl _, fun _ x hx => ⟨x, hx, .refl x⟩, fun d y hy => ?_⟩
  by_cases hd : d = e
  · subst hd
    exact ⟨f y, by simp [Arena.get?_modify, hy], hf y⟩
  · exact ⟨y, by simpa only [Arena.get?_modify_of_ne _ (Ne.symm hd)], List.Subset.refl _⟩

theorem spans_changeComponent {f : Component → Component} (hf : ∀ x, Component.Spans x (f x)) :
    Moves Spans (changeComponent c f) :=
  .bind (.look _) fun _ => .ite (.change fun _ => spans_modify fun x _ => hf x) (.abort _)

/-- What else there is of a component does not matter. -/
theorem spans_retouch {f : Component → Component}
    (hf : ∀ x, (f x).dataPorts = x.dataPorts ∧ (f x).exits = x.exits) :
    Moves Spans (changeComponent c f) :=
  spans_changeComponent fun x => ⟨(hf x).1 ▸ List.Subset.refl _, fun e he => by
    rwa [Component.mainExit?, (hf x).2]⟩

theorem spans_changeExit {f : Exit → Exit} (hf : ∀ y, y.data ⊆ (f y).data) :
    Moves Spans (changeExit e f) :=
  .bind (.look _) fun _ => .ite (.change fun _ => spans_modifyExit hf) (.abort _)

theorem spans_changePort {f : Port → Port} : Moves Spans (changePort p f) :=
  .bind (.look _) fun _ => .ite (.change fun _ => spans_of_same (by simp) (Nat.le_refl _) rfl rfl)
    (.abort _)

theorem spans_changeBus {f : Bus → Bus} : Moves Spans (changeBus b f) :=
  .bind (.look _) fun _ => .ite (.change fun _ => spans_of_same (Nat.le_refl _) (by simp) rfl rfl)
    (.abort _)

theorem spans_changeEntry {i : EntryId} {f : Entry → Entry} : Moves Spans (changeEntry i f) :=
  .bind (.look _) fun _ => .ite (.change fun _ => spans_of_same (Nat.le_refl _) (Nat.le_refl _) rfl
    rfl) (.abort _)

theorem spans_addPort {y : Port} : Moves Spans (addPort y) :=
  .bind (.look _) fun _ => .bind (.change fun _ => spans_pushPort y) fun _ => .pure _

theorem spans_addBus {z : Bus} : Moves Spans (addBus z) :=
  .bind (.look _) fun _ => .bind (.change fun _ => spans_pushBus z) fun _ => .pure _

theorem spans_freshName {stem : String} : Moves Spans (freshName stem) :=
  .bind (.look _) fun _ => .bind (.change fun _ => spans_of_same (Nat.le_refl _) (Nat.le_refl _) rfl
    rfl) fun _ => .pure _

/-! ### Terminals -/

theorem spans_pair : Moves Spans (pair p b) := by
  refine .bind spans_changePort fun _ => .bind spans_changeBus fun _ => .bind moves_port fun _ =>
    .bind moves_bus fun _ => ?_
  dsimp only
  split
  · exact spans_changeBus
  · exact spans_changePort
  · exact .pure ()

theorem spans_makeDataBus {name : String} : Moves Spans (makeDataBus e name) := by
  refine .bind spans_addBus fun d => .bind (spans_changeExit fun _ => by simp) fun _ =>
    .bind moves_exit fun y => ?_
  split
  · exact .pure d
  · exact .bind spans_addPort fun _ => .bind (spans_changeComponent fun _ =>
      ⟨by simp, fun _ h => h⟩) fun _ => .bind spans_pair fun _ => .pure d

theorem spans_makeControlBus {control : Control} : Moves Spans (makeControlBus e control) :=
  .bind spans_addBus fun _ => .bind (spans_changeExit fun _ => List.Subset.refl _) fun _ => .pure _

theorem spans_makeDataPort {name : String} : Moves Spans (makeDataPort c name) := by
  refine .bind spans_addPort fun q => .bind (spans_changeComponent fun _ =>
    ⟨by simp, fun _ h => h⟩) fun _ => .bind moves_component fun x => ?_
  split
  · exact .pure q
  · exact .bind moves_mainExit fun _ => .bind spans_makeDataBus fun _ => .bind spans_pair fun _ =>
      .pure q

theorem spans_newComponent {kind : ComponentKind} {stem : String} {data : Nat} :
    Moves Spans (newComponent kind stem data) :=
  .bind (.look _) fun _ => .bind spans_addPort fun _ => .bind spans_addPort fun _ =>
    .bind spans_addPort fun _ => .bind spans_freshName fun _ =>
    .bind (.change fun _ => spans_push _) fun _ =>
    .bind (.forM fun _ _ => .discard spans_makeDataPort) fun _ => .pure _

theorem spans_makeOutBuf : Moves Spans (makeOutBuf c e) :=
  .bind moves_component fun _ => .bind spans_newComponent fun _ =>
    .bind (spans_retouch fun _ => ⟨rfl, rfl⟩) fun _ => .bind moves_component fun _ =>
    .bind moves_exit fun _ => .bind spans_pair fun _ =>
    .bind (spans_changeExit fun _ => List.Subset.refl _) fun _ =>
    spans_retouch fun _ => ⟨rfl, rfl⟩

/-- A new exit has a tag of its own, so the default exit is none that was there. -/
theorem spans_withExit {n : Netlist} {x : Component} {tag : ExitTag}
    (hx : n.components.get? c = some x) (htag : x.exits.contains tag = false) :
    Spans n (n.withExit c tag) := by
  refine trans_of Spans (trans_of Spans (spans_pushBus _) (spans_pushExit _))
    (spans_modify fun y hy => ?_)
  · obtain rfl := Option.some.inj (hx.symm.trans hy)
    refine ⟨List.Subset.refl _, fun e he => ?_⟩
    have hne : ExitTag.done ≠ tag := by
      rintro rfl
      simp only [Component.mainExit?] at he
      simp [OrderedMap.contains, he] at htag
    rwa [Component.mainExit?, OrderedMap.find?_put_of_ne _ hne]

theorem spans_makeExit {data : Nat} {tag : ExitTag} : Moves Spans (makeExit c data tag) := by
  intro s
  by_cases hc : c.index < s.state.components.size
  · obtain ⟨x, hx⟩ := Arena.exists_get? hc
    cases htag : x.exits.contains tag with
    | true => exact (wp_makeExit_taken hx htag data).mpr trivial
    | false =>
        refine (wp_makeExit_free hx htag data).mpr ?_
        have hout : Moves Spans (if x.isModule then makeOutBuf c s.state.exits.next else pure ()) :=
          .ite spans_makeOutBuf (.pure ())
        have hbuses : Moves Spans ((numberedNames "dout" data).forM fun name =>
            discard (makeDataBus s.state.exits.next name)) :=
          .forM fun _ _ => .discard spans_makeDataBus
        refine wp_mono (hout _) (fun _ t ht => ?_) fun _ _ h => h
        refine wp_mono (hbuses t) (fun _ u hu => ?_) fun _ _ h => h
        exact trans_of Spans (spans_withExit hx htag) (trans_of Spans ht hu)
  · have hnone : s.state.components.get? c = none := Arena.get?_of_size_le (Nat.le_of_not_lt hc)
    simp only [makeExit, component, wp_bind, wp_look, hnone, wp_expect_none]
    trivial

/-- Wiring takes no terminal away. -/
theorem ignores_spans : Ignores Spans where
  component hf := spans_changeComponent fun x => Component.spans_of_shape (hf x).1
  port := spans_changePort
  bus := spans_changeBus
  entry := spans_changeEntry
  addEntry := .bind (.look _) fun _ => .bind (.change fun _ => spans_of_same (Nat.le_refl _)
    (Nat.le_refl _) rfl rfl) fun _ => .pure _
  makeExit := spans_makeExit

/-! ### New terminals -/

/-- The component takes data in at the port. -/
def Takes (n : Netlist) (c : ComponentId) (p : PortId) : Prop :=
  ∃ x, n.components.get? c = some x ∧ p ∈ x.dataPorts

/-- The component gives data out on the bus when it ends as it does by default. -/
def Gives (n : Netlist) (c : ComponentId) (b : BusId) : Prop :=
  ∃ x e y, n.components.get? c = some x ∧ x.mainExit? = some e ∧ n.exits.get? e = some y ∧ b ∈ y.data

theorem Takes.spans {n n' : Netlist} (h : n.Takes c p) (hw : Spans n n') : n'.Takes c p := by
  obtain ⟨x, hx, hp⟩ := h
  obtain ⟨x', hx', hspan⟩ := hw.components c x hx
  exact ⟨x', hx', hspan.data hp⟩

theorem Gives.spans {n n' : Netlist} (h : n.Gives c b) (hw : Spans n n') : n'.Gives c b := by
  obtain ⟨x, e, y, hx, he, hy, hb⟩ := h
  obtain ⟨x', hx', hspan⟩ := hw.components c x hx
  obtain ⟨y', hy', hsub⟩ := hw.exits e y hy
  exact ⟨x', e, y', hx', hspan.mainExit e he, hy', hsub hb⟩

theorem wp_changeComponent_spans {f : Component → Component} {s : Traced Netlist}
    (hf : ∀ x, Component.Spans x (f x)) :
    wp (changeComponent c f) (fun _ t => Spans s.state t.state ∧
      ∃ x, t.state.components.get? c = some (f x)) (fun e _ => e.Unless False) s :=
  wp_changeComponent_of (fun _ => trivial) fun x hx =>
    ⟨spans_modify fun y _ => hf y, x, (Arena.get?_modify_self ..).trans (congrArg _ hx)⟩

theorem wp_changeExit_spans {f : Exit → Exit} {s : Traced Netlist}
    (hf : ∀ y : Exit, y.data ⊆ (f y).data) :
    wp (changeExit e f) (fun _ t => Spans s.state t.state ∧
      t.state.components = s.state.components ∧ ∃ y, t.state.exits.get? e = some (f y))
      (fun g _ => g.Unless False) s := by
  simp only [changeExit, wp_bind, wp_look]
  split
  · next hin =>
    obtain ⟨y, hy⟩ := Arena.exists_get? (Arena.contains_iff.mp hin)
    exact ⟨spans_modifyExit hf, rfl, y, (Arena.get?_modify_self ..).trans (congrArg _ hy)⟩
  · trivial

theorem wp_makeDataPort_new {name : String} {s : Traced Netlist} :
    wp (makeDataPort c name) (fun p t => p = s.state.ports.next ∧ Spans s.state t.state ∧
      p.index < t.state.ports.size ∧ t.state.Takes c p) (fun f _ => f.Unless False) s := by
  rw [makeDataPort, wp_bind, wp_addPort, wp_bind]
  have hpush := spans_pushPort (n := s.state) (.new name c .data)
  refine wp_mono (wp_changeComponent_spans fun _ => ⟨by simp, fun _ h => h⟩) ?_ fun _ _ h => h
  rintro _ t ⟨ht, x, hx⟩
  -- What comes after the port is for the InBuf of a module.
  refine wp_mono (Build.Returns.bind (R := Spans) (a := s.state.ports.next) moves_component
    (fun y => ?_) t) (fun q u hu => ?_) fun _ _ h => h
  · split
    · exact .pure _
    · exact .bind moves_mainExit fun _ => .bind spans_makeDataBus fun _ => .bind spans_pair fun _ =>
        .pure _
  obtain ⟨rfl, hu⟩ := hu
  refine ⟨rfl, trans_of Spans hpush (trans_of Spans ht hu), Nat.lt_of_lt_of_le ?_
    (trans_of Spans ht hu).ports, Takes.spans ⟨_, hx, by simp⟩ hu⟩
  simp [moved]

theorem wp_makeDataBus_new {name : String} {s : Traced Netlist} :
    wp (do makeDataBus (← mainExit c) name) (fun b t => b = s.state.buses.next ∧
      Spans s.state t.state ∧ b.index < t.state.buses.size ∧ t.state.Gives c b)
      (fun f _ => f.Unless False) s := by
  rw [wp_bind, mainExit, wp_bind]
  refine wp_component_of (fun x hx => wp_expect (fun e he => ?_) trivial) trivial
  rw [makeDataBus, wp_bind, wp_addBus, wp_bind]
  have hpush := spans_pushBus (n := s.state) (.new name e .data)
  refine wp_mono (wp_changeExit_spans fun _ => by simp) ?_ fun _ _ h => h
  rintro _ t ⟨ht, hsame, y, hy⟩
  -- What comes after the bus is for the OutBuf of a module.
  refine wp_mono (Build.Returns.bind (R := Spans) (a := s.state.buses.next) moves_exit
    (fun z => ?_) t) (fun q u hu => ?_) fun _ _ h => h
  · split
    · exact .pure _
    · exact .bind spans_addPort fun _ => .bind (spans_changeComponent fun _ =>
        ⟨by simp, fun _ h => h⟩) fun _ => .bind spans_pair fun _ => .pure _
  obtain ⟨rfl, hu⟩ := hu
  refine ⟨rfl, trans_of Spans hpush (trans_of Spans ht hu), Nat.lt_of_lt_of_le ?_
    (trans_of Spans ht hu).buses, Gives.spans ⟨x, e, _, hsame ▸ hx, he, hy, by simp⟩ hu⟩
  simp [moved]

/-! ### Components -/

theorem spans_newPrimitive {kind : ComponentKind} {stem : String} {inputs : Nat}
    {result : Signal} : Moves Spans (newPrimitive kind stem inputs result) :=
  .bind spans_newComponent fun _ => .bind spans_makeExit fun _ => .bind moves_resultBus fun _ =>
    .bind spans_changeBus fun _ => .pure _

theorem spans_newGate {gate : Gate} {stem : String} {inputs : Nat} :
    Moves Spans (newGate gate stem inputs) :=
  .bind spans_newPrimitive fun _ => .bind moves_component fun _ =>
    .bind (.forM fun _ _ => spans_changePort) fun _ => .pure _

theorem spans_newReg {kind : RegKind} {stem : String} {signal : Signal} :
    Moves Spans (newReg kind stem signal) :=
  .bind spans_newPrimitive fun _ => .bind spans_makeDataPort fun _ => .bind spans_changePort
    fun _ => .bind spans_makeDataPort fun _ => .bind spans_changePort fun _ =>
    .bind spans_makeDataPort fun _ => .bind spans_changePort fun _ =>
    .bind (spans_retouch fun _ => ⟨rfl, rfl⟩) fun _ => .pure _

theorem spans_newPinWrite {pin : PinId} {signal : Signal} :
    Moves Spans (newPinWrite pin signal) :=
  .bind spans_newComponent fun _ => .bind moves_dataPort fun _ => .bind spans_changePort fun _ =>
    .bind spans_makeExit fun _ => .bind (spans_retouch fun _ => ⟨rfl, rfl⟩) fun _ => .pure _

theorem spans_makeInBuf : Moves Spans (makeInBuf m) :=
  .bind moves_component fun _ => .bind spans_newComponent fun _ =>
    .bind (spans_retouch fun _ => ⟨rfl, rfl⟩) fun _ => .bind spans_makeExit fun _ =>
    .bind moves_exit fun _ => .bind spans_pair fun _ => .bind spans_makeControlBus fun _ =>
    .bind spans_pair fun _ => .bind spans_makeControlBus fun _ => .bind spans_pair fun _ =>
    .bind (spans_retouch fun _ => ⟨rfl, rfl⟩) fun _ => spans_retouch fun _ => ⟨rfl, rfl⟩

theorem spans_newModule {kind : ModuleKind} {stem : String} {data : Nat} :
    Moves Spans (newModule kind stem data) :=
  .bind spans_newComponent fun _ => .bind spans_makeInBuf fun _ =>
    .bind (.forM fun _ _ => .discard spans_makeDataPort) fun _ => .pure _

theorem spans_changeInterior {f : Interior → Interior} : Moves Spans (changeInterior m f) :=
  .bind (.bind moves_component fun _ => .expect _ _) fun _ =>
    spans_retouch fun _ => ⟨rfl, rfl⟩

theorem spans_addComponent : Moves Spans (addComponent m c) := by
  refine .bind moves_component fun x => ?_
  split
  · exact .ite (.bind moves_component fun _ => .abort _) (.pure ())
  · exact .bind (spans_retouch fun _ => ⟨rfl, rfl⟩) fun _ => spans_changeInterior

theorem spans_addFeedbackPoint : Moves Spans (addFeedbackPoint m c) :=
  .bind moves_component fun _ => .ite (.bind moves_component fun _ => .bind (.abort _) fun _ =>
    spans_changeInterior) spans_changeInterior

end

end Netlist

/-! ### Accessors -/

namespace Fifo

open Netlist

variable {f : Fifo} {c m : ComponentId}

theorem spans_wire {i : Nat} {b : BusId} : Moves Spans (wire c i b) :=
  .bind moves_dataPort fun _ => ignores_spans.setBus

theorem spans_wireFrom {i : Nat} {bs : List BusId} : Moves Spans (wireFrom c i bs) := by
  induction bs generalizing i with
  | nil => exact .pure ()
  | cons b bs ih => exact .bind spans_wire fun _ => ih

theorem spans_gate {g : Gate} {stem : String} {inputs : List BusId} :
    Moves Spans (gate m g stem inputs) :=
  .bind spans_newGate fun _ => .bind spans_wireFrom fun _ => .bind spans_addComponent fun _ =>
    moves_resultBus

theorem spans_readPin {pin : PinId} {signal : Signal} : Moves Spans (readPin m pin signal) :=
  .bind spans_newPrimitive fun _ => .bind spans_addComponent fun _ => moves_resultBus

theorem spans_writePin {pin : PinId} {signal : Signal} {value go : BusId} :
    Moves Spans (writePin m pin signal value go) :=
  .bind spans_newPinWrite fun _ => .bind spans_addComponent fun _ => .bind spans_wire fun _ =>
    .bind moves_component fun _ => ignores_spans.setBus

theorem spans_pendingLogic {stem : String} : Moves Spans (pendingLogic m stem) :=
  .bind moves_clockBus fun _ => .bind moves_resetBus fun _ => .bind moves_goBus fun _ =>
    .bind spans_newReg fun _ => .bind moves_component fun _ => .bind ignores_spans.setBus fun _ =>
    .bind ignores_spans.setBus fun _ => .bind moves_dataPort fun _ =>
    .bind ignores_spans.setBus fun _ => .bind spans_newGate fun _ => .bind moves_resultBus fun _ =>
    .bind spans_wire fun _ => .bind spans_wire fun _ =>
    .bind (.forM fun _ _ => spans_addComponent) fun _ => .bind spans_addFeedbackPoint fun _ =>
    .bind moves_resultBus fun _ => .pure _

theorem spans_markHandshake : Moves Spans (markHandshake m) :=
  .bind moves_mainExit fun _ => .bind (spans_changeExit fun _ => List.Subset.refl _) fun _ =>
    .bind ignores_spans.setConsumesClock fun _ => .bind ignores_spans.setConsumesReset fun _ =>
    .bind ignores_spans.setConsumesGo fun _ => .bind ignores_spans.setProducesDone fun _ =>
    spans_retouch fun _ => ⟨rfl, rfl⟩

theorem spans_readToken : Moves Spans f.readToken := by
  have hend : ∀ (m outBuf flop : ComponentId) (done next : BusId), Moves Spans (do
      setBus (← component outBuf).go (some done)
      setBus (← regData flop) (some next)
      markHandshake m
      return m) := fun _ _ _ _ _ =>
    .bind moves_component fun _ => .bind ignores_spans.setBus fun _ => .bind moves_dataPort fun _ =>
    .bind ignores_spans.setBus fun _ => .bind spans_markHandshake fun _ => .pure _
  refine .bind spans_newModule fun m => .bind spans_makeExit fun _ => .bind moves_resultBus fun _ =>
    .bind spans_changeBus fun _ => .bind moves_mainOutBuf fun outBuf =>
    .bind spans_pendingLogic fun ⟨flop, pending⟩ => .bind spans_readPin fun _ =>
    .bind spans_wire fun _ => ?_
  split
  · exact .bind (.pure _) fun _ => hend _ _ _ _ _
  · exact .bind (.expect _ _) fun _ => .bind spans_readPin fun _ => .bind spans_gate fun _ =>
      .bind (.expect _ _) fun _ => .bind spans_writePin fun _ => .bind spans_gate fun _ =>
      .bind spans_gate fun _ => .bind (.pure _) fun _ => hend _ _ _ _ _

theorem spans_writeToken : Moves Spans f.writeToken :=
  .bind spans_newModule fun _ => .bind moves_dataPort fun _ => .bind spans_changePort fun _ =>
    .bind (.bind moves_dataPort fun _ => .bind moves_port fun _ => .expect _ _) fun _ =>
    .bind spans_changeBus fun _ => .bind spans_makeExit fun _ => .bind moves_mainOutBuf fun _ =>
    .bind spans_pendingLogic fun _ => .bind spans_writePin fun _ => .bind (.expect _ _) fun _ =>
    .bind spans_writePin fun _ => .bind (.expect _ _) fun _ => .bind spans_readPin fun _ =>
    .bind spans_gate fun _ => .bind spans_gate fun _ => .bind spans_gate fun _ =>
    .bind moves_component fun _ => .bind ignores_spans.setBus fun _ => .bind moves_dataPort fun _ =>
    .bind ignores_spans.setBus fun _ => .bind spans_markHandshake fun _ => .pure _

/-- An accessor is refused before anything is made. -/
theorem wp_access_spans {kind : AccessKind} {s : Traced Netlist} :
    wp (f.access kind) (fun _ t => Spans s.state t.state) (fun e t => e.Unless (t = s)) s := by
  have hmoves : ∀ {x : Step ComponentId}, Moves Spans x →
      wp x (fun _ t => Spans s.state t.state) (fun e t => e.Unless (t = s)) s := fun hx =>
    wp_mono (hx s) (fun _ _ h => h) fun _ _ h => h.mono False.elim
  unfold access
  split
  · exact hmoves spans_readToken
  · exact hmoves spans_writeToken
  · unfold sampleStatus
    split
    · exact rfl
    · exact hmoves (.bind spans_newModule fun _ => .bind spans_makeExit fun _ =>
        .bind (spans_changeExit fun _ => List.Subset.refl _) fun _ => .bind moves_resultBus fun _ =>
        .bind spans_changeBus fun _ => .bind spans_readPin fun _ => .bind moves_mainOutBuf fun _ =>
        .bind spans_wire fun _ => .pure _)
  · exact rfl

end Fifo

end DataflowSynth
