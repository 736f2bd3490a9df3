/-
Steps that do the same under further connections.

Nothing that is built looks at what drives a port or at what a bus drives.  A step `Mirrors` another if it
succeeds above with the same result whenever the other succeeds below, and leaves the netlists as they
were to each other.  This goes through every step that builds, so whatever is known of one below is known
of it above.
-/
import DataflowSynth.Memory.Read
import DataflowSynth.Netlist.Order
import DataflowSynth.Proofs.Netlist.Overlay

namespace DataflowSynth

open Build

namespace Netlist

variable {ω : PortId → Option BusId}

/-- Where `x` succeeds, `y` succeeds with the same result under further connections. -/
def Mirrors {α : Type} (ω : PortId → Option BusId) (x y : Step α) : Prop :=
  ∀ ⦃s t : Traced Netlist⦄, Overlays ω s.state t.state →
    wp x (fun a s' => wp y (fun a' t' => a' = a ∧ Overlays ω s'.state t'.state)
      (fun _ _ => False) t) (fun _ _ => True) s

namespace Mirrors

variable {α β : Type} {x y : Step α}

protected theorem pure (a : α) : Mirrors ω (pure a) (pure a) := fun _ _ h => ⟨rfl, h⟩

theorem abort (a : Abort) (y : Step α) : Mirrors ω (Build.abort a) y := fun _ _ _ => trivial

theorem bind {f g : α → Step β} (hx : Mirrors ω x y) (hf : ∀ a, Mirrors ω (f a) (g a)) :
    Mirrors ω (x >>= f) (y >>= g) := by
  intro s t h
  rw [wp_bind]
  refine wp_mono (hx h) (fun a s' hy => ?_) fun _ _ h => h
  obtain ⟨a', t', hrun, rfl, h'⟩ := exists_of_wp hy
  refine wp_mono (hf a' h') (fun b s'' hg => ?_) fun _ _ h => h
  rw [wp_bind]
  unfold wp
  rw [hrun]
  exact hg

theorem look {f : Netlist → α} (hf : ∀ m n, Overlays ω m n → f n = f m) :
    Mirrors ω (Build.look f) (Build.look f) := fun _ _ h => ⟨hf _ _ h, h⟩

theorem expect (a : Abort) (o : Option α) : Mirrors ω (Build.expect a o) (Build.expect a o) := by
  cases o with
  | none => exact abort a _
  | some x => exact .pure x

theorem change {f : Netlist → Netlist} (hf : ∀ m n, Overlays ω m n → Overlays ω (f m) (f n)) :
    Mirrors ω (Build.change f) (Build.change f) := fun _ _ h => ⟨rfl, hf _ _ h⟩

theorem ite {c : Prop} [Decidable c] {x' y' : Step α} (hx : Mirrors ω x y) (hx' : Mirrors ω x' y') :
    Mirrors ω (if c then x else x') (if c then y else y') := by
  split
  · exact hx
  · exact hx'

theorem discard (hx : Mirrors ω x y) : Mirrors ω (discard x) (discard y) := by
  intro s t h
  rw [wp_discard]
  refine wp_mono (hx h) (fun a s' hy => ?_) fun _ _ h => h
  exact wp_discard.mpr (wp_mono hy (fun _ _ ht => ⟨rfl, ht.2⟩) fun _ _ h => h)

theorem forM {xs : List β} {f g : β → Step Unit} (hf : ∀ b ∈ xs, Mirrors ω (f b) (g b)) :
    Mirrors ω (xs.forM f) (xs.forM g) := by
  induction xs with
  | nil => exact .pure ()
  | cons b xs ih =>
      exact .bind (hf b (by simp)) fun _ => ih fun c hc => hf c (by simp [hc])

theorem mapM {xs : List β} {f g : β → Step α} (hf : ∀ b ∈ xs, Mirrors ω (f b) (g b)) :
    Mirrors ω (xs.mapM f) (xs.mapM g) := by
  induction xs with
  | nil => exact .pure []
  | cons b xs ih =>
      rw [List.mapM_cons, List.mapM_cons]
      exact .bind (hf b (by simp)) fun a =>
        .bind (ih fun c hc => hf c (by simp [hc])) fun as => .pure (a :: as)

theorem findM? {xs : List β} {f g : β → Step Bool} (hf : ∀ b ∈ xs, Mirrors ω (f b) (g b)) :
    Mirrors ω (xs.findM? f) (xs.findM? g) := by
  induction xs with
  | nil => exact .pure none
  | cons b xs ih =>
      refine .bind (hf b (by simp)) fun found => ?_
      cases found with
      | true => exact .pure (some b)
      | false => exact ih fun c hc => hf c (by simp [hc])

/-- What is read of a port has to be the same whatever drives it. -/
theorem bind_port (p : PortId) {f g : Port → Step α}
    (hf : ∀ y d, Mirrors ω (f y) (g (y.drivenBy d))) :
    Mirrors ω (port p >>= f) (port p >>= g) := by
  intro s t h
  rw [wp_bind]
  refine wp_port_of (fun y hy => ?_) trivial
  refine wp_mono (hf y (y.bus.or (ω p)) h) (fun a s' hg => ?_) fun _ _ h => h
  rw [wp_bind, wp_port (by rw [h.ports, hy, Option.map_some])]
  exact hg

/-- What is read of a bus has to be the same whatever it drives. -/
theorem bind_bus (b : BusId) {f g : Bus → Step α}
    (hf : ∀ z ps, Mirrors ω (f z) (g (z.driving ps))) :
    Mirrors ω (bus b >>= f) (bus b >>= g) := by
  intro s t h
  rw [wp_bind]
  refine wp_bus_of (fun z hz => ?_) trivial
  have hsome := h.buses b
  rw [hz, Option.map_some] at hsome
  obtain ⟨z', hz', heq⟩ := Option.map_eq_some_iff.mp hsome
  have hsame : (z.driving []).driving z'.ports = (z'.driving []).driving z'.ports :=
    congrArg (Bus.driving · z'.ports) heq.symm
  refine wp_mono (hf z z'.ports h) (fun a s' hg => ?_) fun _ _ h => h
  rw [wp_bind, wp_bus hz']
  exact (show z.driving z'.ports = z' from hsame) ▸ hg

end Mirrors

/-! ### Looking and changing -/

section

variable {c : ComponentId} {p : PortId} {b : BusId} {e : ExitId} {α : Type}

theorem mirrors_component : Mirrors ω (component c) (component c) :=
  .bind (.look fun _ _ h => by rw [h.components]) fun _ => .expect _ _

theorem mirrors_exit : Mirrors ω (exit e) (exit e) :=
  .bind (.look fun _ _ h => by rw [h.exits]) fun _ => .expect _ _

theorem mirrors_changeComponent {f : Component → Component} :
    Mirrors ω (changeComponent c f) (changeComponent c f) := by
  refine .bind (.look fun _ _ h => by rw [h.components]) fun _ => .ite (.change fun m n h => ?_)
    (.abort _ _)
  exact h.evolve (by rw [h.components]) h.exits h.entries h.names h.ports h.buses (Nat.le_refl _)
    (fun _ => rfl) fun _ => rfl

theorem mirrors_changeExit {f : Exit → Exit} :
    Mirrors ω (changeExit e f) (changeExit e f) := by
  refine .bind (.look fun _ _ h => by rw [h.exits]) fun _ => .ite (.change fun m n h => ?_)
    (.abort _ _)
  exact h.evolve h.components (by rw [h.exits]) h.entries h.names h.ports h.buses (Nat.le_refl _)
    (fun _ => rfl) fun _ => rfl

theorem mirrors_changePort {f : Port → Port} (hf : ∀ y d, f (y.drivenBy d) = (f y).drivenBy d) :
    Mirrors ω (changePort p f) (changePort p f) := by
  refine .bind (.look fun _ _ h => ?_) fun _ => .ite (.change fun m n h => ?_) (.abort _ _)
  · exact congrArg (decide <| p.index < ·) h.size_ports
  have hbus : ∀ y : Port, (f y).bus = y.bus := fun y => by
    have heq := congrArg Port.bus (hf y y.bus)
    exact heq
  refine h.evolve h.components h.exits h.entries h.names (fun q => ?_) h.buses (by simp) (fun q => ?_)
    fun _ => rfl
  · simp only [Arena.get?_modify, h.ports]
    split
    · simp only [Option.map_map, Function.comp_def, hf, hbus]
    · rfl
  · simp only [portDriver?, Arena.get?_modify]
    split
    · cases n.ports.get? q <;> simp [hbus]
    · rfl

theorem mirrors_changeBus {f : Bus → Bus} (hf : ∀ z ps, f (z.driving ps) = (f z).driving ps) :
    Mirrors ω (changeBus b f) (changeBus b f) := by
  refine .bind (.look fun _ _ h => ?_) fun _ => .ite (.change fun m n h => ?_) (.abort _ _)
  · exact congrArg (decide <| b.index < ·) h.size_buses
  have hports : ∀ z : Bus, (f z).ports = z.ports := fun z => by
    have heq := congrArg Bus.ports (hf z z.ports)
    exact heq
  refine h.evolve h.components h.exits h.entries h.names h.ports (fun d => ?_) (Nat.le_refl _)
    (fun _ => rfl) fun d => ?_
  · simp only [Arena.get?_modify]
    split
    · have heq := congrArg (Option.map f) (h.buses d)
      simpa only [Option.map_map, Function.comp_def, hf] using heq
    · exact h.buses d
  · simp only [sinks, Arena.get?_modify]
    split
    · cases n.buses.get? d <;> simp [hports]
    · rfl

theorem mirrors_addPort {y : Port} (hy : y.bus = none) : Mirrors ω (addPort y) (addPort y) := by
  refine .bind (.look fun m n h => ?_) fun q => .bind (.change fun m n h => ?_) fun _ => .pure q
  · exact congrArg Handle.mk h.size_ports
  refine h.evolve h.components h.exits h.entries h.names (fun q => ?_) h.buses (by simp) (fun q => ?_)
    fun _ => rfl
  · simp only [Arena.get?_push_index, h.size_ports]
    split
    · next hq => simp [Port.drivenBy, hy, h.ahead q (Nat.le_of_eq hq.symm)]; cases y; simp_all
    · exact h.ports q
  · simp only [portDriver?, Arena.get?_push_index]
    split
    · next hq => simp [hy, Arena.get?_of_size_le (Nat.le_of_eq hq.symm)]
    · rfl

theorem mirrors_addBus {z : Bus} (hz : z.ports = []) : Mirrors ω (addBus z) (addBus z) := by
  refine .bind (.look fun m n h => ?_) fun d => .bind (.change fun m n h => ?_) fun _ => .pure d
  · exact congrArg Handle.mk h.size_buses
  refine h.evolve h.components h.exits h.entries h.names h.ports (fun d => ?_) (Nat.le_refl _)
    (fun _ => rfl) fun d => ?_
  · simp only [Arena.get?_push_index, h.size_buses]
    split
    · rfl
    · exact h.buses d
  · simp only [sinks, Arena.get?_push_index]
    split
    · next hd => simp [hz, Arena.get?_of_size_le (Nat.le_of_eq hd.symm)]
    · rfl

theorem mirrors_addExit {y : Exit} : Mirrors ω (addExit y) (addExit y) := by
  refine .bind (.look fun m n h => by rw [h.exits]) fun x => .bind (.change fun m n h => ?_) fun _ =>
    .pure x
  exact h.evolve h.components (by rw [h.exits]) h.entries h.names h.ports h.buses (Nat.le_refl _)
    (fun _ => rfl) fun _ => rfl

theorem mirrors_freshName {stem : String} : Mirrors ω (freshName stem) (freshName stem) := by
  refine .bind (.look fun m n h => by rw [h.names]) fun r => .bind (.change fun m n h => ?_) fun _ =>
    .pure r.1
  exact h.evolve h.components h.exits h.entries rfl h.ports h.buses (Nat.le_refl _) (fun _ => rfl)
    fun _ => rfl

theorem wp_changeBus_of {Q : Unit → Traced Netlist → Prop} {F : Failure → Traced Netlist → Prop}
    {s : Traced Netlist} {f : Bus → Bus} (hF : F (.abort .outOfBounds) s)
    (hQ : b.index < s.state.buses.size →
      Q () (moved s { s.state with buses := s.state.buses.modify b f })) :
    wp (changeBus b f) Q F s := by
  by_cases hb : b.index < s.state.buses.size
  · exact (wp_changeBus hb).mpr (hQ hb)
  · have hnot : s.state.buses.contains b = false := by simpa [← Arena.contains_iff] using hb
    simpa [changeBus, hnot] using hF

/-- If a port is connected at all, this is what it does; the buses are the same but for what they
drive. -/
theorem wp_setBus_of {d : Option BusId} {s : Traced Netlist} :
    wp (setBus p d) (fun _ t => p.index < s.state.ports.size ∧
      (∀ b, d = some b → b.index < s.state.buses.size) ∧ ∃ buses : Arena .bus Bus,
        (∀ e, (buses.get? e).map (·.driving []) = (s.state.buses.get? e).map (·.driving [])) ∧
        t = moved s { s.state with
          buses, ports := s.state.ports.modify p fun y => { y with bus := d } })
      (fun _ _ => True) s := by
  by_cases hp : p.index < s.state.ports.size
  · obtain ⟨y, hy⟩ := Arena.exists_get? hp
    have hshown : ∀ e, ((movePort s.state.buses p y.bus d).get? e).map (·.driving []) =
        (s.state.buses.get? e).map (·.driving []) := by
      intro e
      rw [get?_movePort, Option.map_map]
      rfl
    by_cases hold : ∀ b, y.bus = some b → b.index < s.state.buses.size
    · by_cases hd : ∀ b, d = some b → b.index < s.state.buses.size
      · exact (wp_setBus hy hold hd).mpr ⟨hp, hd, _, hshown, rfl⟩
      · obtain ⟨b, rfl, hb⟩ : ∃ b, d = some b ∧ ¬ b.index < s.state.buses.size := by
          simpa using hd
        rw [setBus, wp_bind, wp_port hy]
        cases hbus : y.bus with
        | none =>
            simp only [wp_bind]
            exact wp_changeBus_of trivial fun h => absurd h hb
        | some old =>
            simp only [wp_bind]
            refine (wp_changeBus (hold old hbus)).mpr (wp_changeBus_of trivial fun h => ?_)
            exact absurd (by simpa [moved] using h) hb
    · obtain ⟨old, hbus, hb⟩ : ∃ old, y.bus = some old ∧ ¬ old.index < s.state.buses.size := by
        simpa using hold
      rw [setBus, wp_bind, wp_port hy, hbus]
      simp only [wp_bind]
      exact wp_changeBus_of trivial fun h => absurd h hb
  · rw [setBus, wp_bind]
    exact wp_port_of (fun y hy => absurd (Arena.lt_of_get? hy) hp) trivial

/-- A port is connected below as well. -/
theorem mirrors_setBus : Mirrors ω (setBus p (some b)) (setBus p (some b)) := by
  intro s t h
  refine wp_mono wp_setBus_of ?_ fun _ _ h => h
  rintro _ s' ⟨hp, hb, buses, hbuses, rfl⟩
  have hp' : p.index < t.state.ports.size := by rwa [h.size_ports]
  have hb' : ∀ d, some b = some d → d.index < t.state.buses.size := by
    rw [h.size_buses]
    exact hb
  refine (h.tethered.wp_setBus hp' hb').mpr ⟨rfl, ?_⟩
  refine ⟨h.components, h.exits, h.entries, h.names, fun q => ?_, fun d => ?_, fun q hq => ?_,
    h.tethered.reconnect hp' hb'⟩
  · simp only [state_moved, reconnect, Arena.get?_modify, h.ports]
    split
    · rw [Option.map_map, Option.map_map]
      rfl
    · rfl
  · simp only [state_moved, reconnect, get?_movePort, Option.map_map, hbuses, ← h.buses]
    rfl
  · exact h.ahead q (by simpa [moved] using hq)

theorem mirrors_mainExit : Mirrors ω (mainExit c) (mainExit c) :=
  .bind mirrors_component fun _ => .expect _ _

theorem mirrors_resultBus : Mirrors ω (resultBus c) (resultBus c) :=
  .bind mirrors_mainExit fun _ => .bind mirrors_exit fun _ => .expect _ _

theorem mirrors_doneBus : Mirrors ω (doneBus c) (doneBus c) :=
  .bind mirrors_mainExit fun _ => .bind mirrors_exit fun _ => .pure _

theorem mirrors_dataPort {k : Nat} : Mirrors ω (dataPort c k) (dataPort c k) :=
  .bind mirrors_component fun _ => .expect _ _

theorem mirrors_setPortSignal {signal : Signal} :
    Mirrors ω (setPortSignal p signal) (setPortSignal p signal) :=
  mirrors_changePort fun _ _ => rfl

theorem mirrors_setBusSignal {signal : Signal} :
    Mirrors ω (setBusSignal b signal) (setBusSignal b signal) :=
  mirrors_changeBus fun _ _ => rfl

/-! ### New terminals -/

theorem mirrors_pair : Mirrors ω (pair p b) (pair p b) := by
  refine .bind (mirrors_changePort fun _ _ => rfl) fun _ => .bind (mirrors_changeBus fun _ _ => rfl)
    fun _ => .bind_port p fun y d => .bind_bus b fun z ps => ?_
  simp only [Port.drivenBy, Bus.driving]
  cases z.signal with
  | none => exact mirrors_changeBus fun _ _ => rfl
  | some inner =>
      cases y.signal with
      | none => exact mirrors_changePort fun _ _ => rfl
      | some outer => exact .pure ()

theorem mirrors_makeDataBus {name : String} :
    Mirrors ω (makeDataBus e name) (makeDataBus e name) := by
  refine .bind (mirrors_addBus rfl) fun b => .bind mirrors_changeExit fun _ =>
    .bind mirrors_exit fun y => ?_
  cases y.peer with
  | none => exact .pure b
  | some outBuf =>
      exact .bind (mirrors_addPort rfl) fun _ => .bind mirrors_changeComponent fun _ =>
        .bind mirrors_pair fun _ => .pure b

theorem mirrors_makeControlBus {control : Control} :
    Mirrors ω (makeControlBus e control) (makeControlBus e control) :=
  .bind (mirrors_addBus rfl) fun _ => .bind mirrors_changeExit fun _ => .pure _

theorem mirrors_makeDataPort {name : String} :
    Mirrors ω (makeDataPort c name) (makeDataPort c name) := by
  refine .bind (mirrors_addPort rfl) fun p => .bind mirrors_changeComponent fun _ =>
    .bind mirrors_component fun x => ?_
  cases x.interior with
  | none => exact .pure p
  | some i =>
      exact .bind mirrors_mainExit fun _ => .bind mirrors_makeDataBus fun _ =>
        .bind mirrors_pair fun _ => .pure p

/-! ### New components -/

theorem mirrors_newComponent {kind : ComponentKind} {stem : String} {data : Nat} :
    Mirrors ω (newComponent kind stem data) (newComponent kind stem data) := by
  refine .bind (.look fun _ _ h => by rw [h.components]) fun c => .bind (mirrors_addPort rfl)
    fun clock => .bind (mirrors_addPort rfl) fun reset => .bind (mirrors_addPort rfl) fun go =>
    .bind mirrors_freshName fun name => .bind (.change fun m n h => ?_) fun _ =>
    .bind (.forM fun _ _ => .discard mirrors_makeDataPort) fun _ => .pure c
  exact h.evolve (by rw [h.components]) h.exits h.entries h.names h.ports h.buses (Nat.le_refl _)
    (fun _ => rfl) fun _ => rfl

theorem mirrors_makeOutBuf : Mirrors ω (makeOutBuf c e) (makeOutBuf c e) :=
  .bind mirrors_component fun _ => .bind mirrors_newComponent fun _ =>
    .bind mirrors_changeComponent fun _ => .bind mirrors_component fun _ => .bind mirrors_exit
    fun _ => .bind mirrors_pair fun _ => .bind mirrors_changeExit fun _ => mirrors_changeComponent

theorem mirrors_makeExit {data : Nat} {tag : ExitTag} :
    Mirrors ω (makeExit c data tag) (makeExit c data tag) := by
  have hbuses : ∀ e, Mirrors ω
      (do
        (numberedNames "dout" data).forM fun name => discard (makeDataBus e name)
        return e)
      (do
        (numberedNames "dout" data).forM fun name => discard (makeDataBus e name)
        return e) := fun e =>
    .bind (.forM fun _ _ => .discard mirrors_makeDataBus) fun _ => .pure e
  refine .bind mirrors_component fun x => .ite (.bind (.abort _ _) fun _ => ?_) ?_
  all_goals
    exact .bind (.look fun _ _ h => by rw [h.exits]) fun e => .bind (mirrors_addBus rfl) fun _ =>
      .bind mirrors_addExit fun _ => .bind mirrors_changeComponent fun _ =>
      .ite (.bind mirrors_makeOutBuf fun _ => hbuses e) (hbuses e)

theorem mirrors_newPrimitive {kind : ComponentKind} {stem : String} {inputs : Nat} {result : Signal} :
    Mirrors ω (newPrimitive kind stem inputs result) (newPrimitive kind stem inputs result) :=
  .bind mirrors_newComponent fun _ => .bind mirrors_makeExit fun _ => .bind mirrors_resultBus
    fun _ => .bind mirrors_setBusSignal fun _ => .pure _

theorem mirrors_newGate {g : Gate} {stem : String} {inputs : Nat} :
    Mirrors ω (newGate g stem inputs) (newGate g stem inputs) :=
  .bind mirrors_newPrimitive fun _ => .bind mirrors_component fun _ =>
    .bind (.forM fun _ _ => mirrors_setPortSignal) fun _ => .pure _

theorem mirrors_newReg {kind : RegKind} {stem : String} {signal : Signal} :
    Mirrors ω (newReg kind stem signal) (newReg kind stem signal) :=
  .bind mirrors_newPrimitive fun _ => .bind mirrors_makeDataPort fun _ =>
    .bind mirrors_setPortSignal fun _ => .bind mirrors_makeDataPort fun _ =>
    .bind mirrors_setPortSignal fun _ => .bind mirrors_makeDataPort fun _ =>
    .bind mirrors_setPortSignal fun _ => .bind mirrors_changeComponent fun _ => .pure _

/-! ### Modules -/

variable {m : ComponentId}

theorem mirrors_interior : Mirrors ω (interior m) (interior m) :=
  .bind mirrors_component fun _ => .expect _ _

theorem mirrors_changeInterior {f : Interior → Interior} :
    Mirrors ω (changeInterior m f) (changeInterior m f) :=
  .bind mirrors_interior fun _ => mirrors_changeComponent

theorem mirrors_inBuf : Mirrors ω (inBuf m) (inBuf m) := .bind mirrors_interior fun _ => .pure _

theorem mirrors_makeInBuf : Mirrors ω (makeInBuf m) (makeInBuf m) :=
  .bind mirrors_component fun _ => .bind mirrors_newComponent fun _ =>
    .bind mirrors_changeComponent fun _ => .bind mirrors_makeExit fun _ => .bind mirrors_exit
    fun _ => .bind mirrors_pair fun _ => .bind mirrors_makeControlBus fun _ => .bind mirrors_pair
    fun _ => .bind mirrors_makeControlBus fun _ => .bind mirrors_pair fun _ =>
    .bind mirrors_changeComponent fun _ => mirrors_changeComponent

theorem mirrors_newModule {kind : ModuleKind} {stem : String} {data : Nat} :
    Mirrors ω (newModule kind stem data) (newModule kind stem data) :=
  .bind mirrors_newComponent fun _ => .bind mirrors_makeInBuf fun _ =>
    .bind (.forM fun _ _ => .discard mirrors_makeDataPort) fun _ => .pure _

theorem mirrors_controlBus? {control : Control} :
    Mirrors ω (controlBus? m control) (controlBus? m control) :=
  .bind mirrors_inBuf fun _ => .bind mirrors_mainExit fun _ => .bind mirrors_exit fun _ =>
    .findM? fun b _ => .bind_bus b fun _ _ => .pure _

theorem mirrors_clockBus : Mirrors ω (clockBus m) (clockBus m) :=
  .bind mirrors_controlBus? fun _ => .expect _ _

theorem mirrors_resetBus : Mirrors ω (resetBus m) (resetBus m) :=
  .bind mirrors_controlBus? fun _ => .expect _ _

theorem mirrors_goBus : Mirrors ω (goBus m) (goBus m) :=
  .bind mirrors_inBuf fun _ => mirrors_doneBus

theorem mirrors_dataBus {k : Nat} : Mirrors ω (dataBus m k) (dataBus m k) :=
  .bind mirrors_dataPort fun p => .bind_port p fun _ _ => .expect _ _

theorem mirrors_outBufs : Mirrors ω (outBufs m) (outBufs m) :=
  .bind mirrors_component fun _ => .bind (.mapM fun _ _ => mirrors_exit) fun _ => .pure _

theorem mirrors_mainOutBuf : Mirrors ω (mainOutBuf m) (mainOutBuf m) :=
  .bind mirrors_mainExit fun _ => .bind mirrors_exit fun _ => .expect _ _

theorem mirrors_addComponent : Mirrors ω (addComponent m c) (addComponent m c) := by
  refine .bind mirrors_component fun x => ?_
  cases x.owner with
  | some o => exact .ite (.bind mirrors_component fun _ => .abort _ _) (.pure ())
  | none => exact .bind mirrors_changeComponent fun _ => mirrors_changeInterior

theorem mirrors_addFeedbackPoint : Mirrors ω (addFeedbackPoint m c) (addFeedbackPoint m c) :=
  .bind mirrors_component fun _ => .ite (.bind mirrors_component fun _ => .bind (.abort _ _)
    fun _ => mirrors_changeInterior) mirrors_changeInterior

theorem mirrors_setConsumesGo {on : Bool} : Mirrors ω (setConsumesGo c on) (setConsumesGo c on) := by
  refine .bind mirrors_changeComponent fun _ => .bind mirrors_component fun x => ?_
  cases x.interior with
  | none => exact .pure ()
  | some i => exact mirrors_changeComponent

theorem mirrors_setProducesDone {on : Bool} :
    Mirrors ω (setProducesDone c on) (setProducesDone c on) :=
  .bind mirrors_changeComponent fun _ => .bind mirrors_component fun _ =>
    .ite (.bind mirrors_outBufs fun _ => .forM fun _ _ => mirrors_changeComponent) (.pure ())

end

end Netlist

/-! ### Reads of memories -/

namespace Memory

open Netlist

variable {ω : PortId → Option BusId} {m : ComponentId} {b : BusId} {e : ExitId}

theorem mirrors_markClocked : Mirrors ω (markClocked m) (markClocked m) :=
  .bind mirrors_changeComponent fun _ => .bind mirrors_changeComponent fun _ =>
    .bind mirrors_setConsumesGo fun _ => mirrors_setProducesDone

theorem mirrors_outBufPort : Mirrors ω (outBufPort b) (outBufPort b) :=
  .bind_bus b fun _ _ => .expect _ _

theorem mirrors_sideOutput {name : String} :
    Mirrors ω (sideOutput e name b) (sideOutput e name b) :=
  .bind mirrors_makeDataBus fun _ => .bind (mirrors_changeBus fun _ _ => rfl) fun _ =>
    .bind_bus b fun _ _ => .bind mirrors_setBusSignal fun _ => .bind mirrors_outBufPort fun _ =>
    mirrors_setBus

theorem mirrors_doneCache {latency : Latency} {go answer : BusId} :
    Mirrors ω (doneCache m latency go answer) (doneCache m latency go answer) := by
  refine .bind mirrors_newGate fun doneAnd => .bind mirrors_addComponent fun _ =>
    .bind mirrors_dataPort fun request => .bind mirrors_dataPort fun _ => .bind mirrors_setBus
    fun _ => .bind mirrors_resultBus fun done => .ite (.bind mirrors_setBus fun _ => .pure done) ?_
  refine .bind mirrors_clockBus fun _ => .bind mirrors_resetBus fun _ => .bind mirrors_newReg
    fun flop => .bind mirrors_newGate fun _ => .bind (.forM fun _ _ => mirrors_addComponent) fun _ =>
    .bind mirrors_addFeedbackPoint fun _ => .bind mirrors_resultBus fun _ =>
    .bind mirrors_resultBus fun _ => .bind mirrors_component fun _ => .bind mirrors_setBus fun _ =>
    .bind mirrors_setBus fun _ => .bind mirrors_dataPort fun _ => .bind mirrors_setBus fun _ =>
    .bind mirrors_dataPort fun _ => .bind mirrors_setBus fun _ => .bind mirrors_dataPort fun _ =>
    .bind mirrors_setBus fun _ => .bind mirrors_dataPort fun _ => .bind mirrors_setBus fun _ =>
    .bind mirrors_dataPort fun _ => .bind mirrors_setBus fun _ => ?_
  exact .ite (.bind mirrors_setBus fun _ => .pure done) <| .bind mirrors_newGate fun _ =>
    .bind mirrors_addComponent fun _ => .bind mirrors_dataPort fun _ => .bind mirrors_setBus fun _ =>
    .bind mirrors_dataPort fun _ => .bind mirrors_setBus fun _ => .bind mirrors_resultBus fun _ =>
    .bind mirrors_setBus fun _ => .pure done

end Memory

end DataflowSynth
