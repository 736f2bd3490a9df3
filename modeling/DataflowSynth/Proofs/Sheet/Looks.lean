/-
What is seen of a netlist, and changes that do not show.

The handles that steps look up are all on the sheet, so a lookup succeeds where the sheet shows what
it is for.  Signals, marks, latencies and entries are not on the sheet.
-/
import DataflowSynth.Memory.Read
import DataflowSynth.Proofs.Sheet.Basic

namespace DataflowSynth.Netlist

open Build

variable {Γ : Ground} {σ : Sheet} {c m : ComponentId} {ν μ : Node} {n n' : Netlist}

/-! ### Looking -/

theorem sees_component (hν : σ.node? c = some ν) :
    Sees Γ (component c) σ fun x => x.DrawnAs ν := by
  intro s hs hσ
  subst hσ
  obtain ⟨x, hx, rfl⟩ := drawn hν
  exact (wp_component hx).mpr ⟨rfl, drawnAs_node _ x⟩

theorem sees_port (hν : σ.node? c = some ν) {a : Pad} (ha : a ∈ ν.pads) :
    Sees Γ (port a.port) σ fun y => y.bus = a.driver ∧ y.peer = a.peer := by
  intro s hs hσ
  subst hσ
  obtain ⟨y, hy, -, heq, -⟩ := hs.has_port hν ha
  refine (wp_port hy).mpr ⟨rfl, ?_⟩
  rw [← heq]
  simp [pad, hy]

theorem sees_bus {b : BusId} (hb : σ.Gives b) : Sees Γ (bus b) σ fun _ => True := by
  intro s hs hσ
  subst hσ
  obtain ⟨d, μ, hμ, hmem⟩ := hb
  obtain ⟨z, hz⟩ := Arena.exists_get? (hs.has_bus hμ hmem).2
  exact (wp_bus hz).mpr ⟨rfl, trivial⟩

theorem sees_exit (hν : σ.node? c = some ν) {o : Outlet} (ho : o ∈ ν.outlets) :
    Sees Γ (exit o.exit) σ fun y => o = ⟨o.exit, y.done, y.data, y.control, y.peer⟩ := by
  intro s hs hσ
  subst hσ
  obtain ⟨y, hy, -, heq, -⟩ := hs.has_exit hν ho
  exact (wp_exit hy).mpr ⟨rfl, heq⟩

theorem sees_mainExit (hν : σ.node? c = some ν) {o : Outlet} (ho : ν.outlet? .done = some o) :
    Sees Γ (mainExit c) σ (· = o.exit) :=
  .bind (sees_component hν) fun x hx => .expect (by rw [hx.mainExit?, ho]; rfl) rfl

theorem sees_doneBus (hν : σ.node? c = some ν) {o : Outlet} (ho : ν.outlet? .done = some o) :
    Sees Γ (doneBus c) σ (· = o.done) := by
  refine .bind (sees_mainExit hν ho) fun e he => ?_
  subst he
  exact .bind (sees_exit hν (Node.outlet?_mem ho)) fun y hy => .pure (by rw [hy])

theorem sees_resultBus (hν : σ.node? c = some ν) {o : Outlet} (ho : ν.outlet? .done = some o)
    {b : BusId} (hb : o.data.head? = some b) : Sees Γ (resultBus c) σ (· = b) := by
  refine .bind (sees_mainExit hν ho) fun e he => ?_
  subst he
  refine .bind (sees_exit hν (Node.outlet?_mem ho)) fun y hy => .expect ?_ rfl
  rw [hy] at hb
  exact hb

theorem sees_dataPort (hν : σ.node? c = some ν) {k : Nat} {a : Pad}
    (ha : ν.data[k]? = some a) : Sees Γ (dataPort c k) σ (· = a.port) :=
  .bind (sees_component hν) fun x hx => .expect (by simp [hx.dataPorts, ha]) rfl

section

variable {i : Interior}

theorem sees_interior (hν : σ.node? m = some ν) (hi : ν.interior = some i) :
    Sees Γ (interior m) σ (· = i) :=
  .bind (sees_component hν) fun _ hx => .expect (hx.interior.trans hi) rfl

theorem sees_inBuf (hν : σ.node? m = some ν) (hi : ν.interior = some i) :
    Sees Γ (inBuf m) σ (· = i.inBuf) :=
  .bind (sees_interior hν hi) fun j hj => .pure (by rw [hj])

variable (hν : σ.node? m = some ν) (hi : ν.interior = some i) (hμ : σ.node? i.inBuf = some μ)
  {o : Outlet} (ho : μ.outlet? .done = some o)

include hν hi hμ ho

theorem sees_goBus : Sees Γ (goBus m) σ (· = o.done) :=
  .bind (sees_inBuf hν hi) fun _ h => h ▸ sees_doneBus hμ ho

/-- The control buses of an InBuf have the roles of a clock and a reset, in this order. -/
theorem roles_of_control (hn : Proper Γ n) (hσ : Γ.sheet n = σ) :
    ∃ clock reset rest, o.control = clock :: reset :: rest ∧ n.busRole? clock = some .clock ∧
      n.busRole? reset = some .reset := by
  subst hσ
  obtain ⟨x, hx, rfl⟩ := drawn hν
  obtain ⟨b, e, y, hb, hy, hshaped⟩ :=
    ((hn.shape.components m x hx (le_of_node? hν)).interior i hi).inBuf
  obtain ⟨b', hb', rfl⟩ := drawn hμ
  cases hb.symm.trans hb'
  have hfind : b.exits.find? .done = some e := by simp [OrderedMap.find?, hshaped.exits]
  rw [outlet?_node, hfind, Option.map_some, Option.some.injEq, outlet_of_get? hy] at ho
  subst ho
  have hcontrol := hshaped.control
  rcases hlist : y.control with _ | ⟨clock, _ | ⟨reset, rest⟩⟩
  · simp [hlist, controlRoles] at hcontrol
  · simp [hlist, controlRoles] at hcontrol
  · simp only [hlist, List.map_cons, controlRoles, List.cons_append, List.cons.injEq] at hcontrol
    exact ⟨clock, reset, rest, rfl, hcontrol.1, hcontrol.2.1⟩

/-- The first two control buses have the roles of a clock and a reset. -/
theorem sees_controlBus? {control : Control} {k : Nat}
    (hcontrol : control.role = .clock ∧ k = 0 ∨ control.role = .reset ∧ k = 1) :
    Sees Γ (controlBus? m control) σ fun d => ∃ b, o.control[k]? = some b ∧ d = some b := by
  refine .bind (sees_inBuf hν hi) fun w hw => ?_
  subst hw
  refine .bind (sees_mainExit hμ ho) fun e he => ?_
  subst he
  refine .bind (sees_exit hμ (Node.outlet?_mem ho)) fun y hy => ?_
  have hlist : y.control = o.control := by rw [hy]
  rw [hlist]
  intro s hs hσ
  obtain ⟨clock, reset, rest, heq, hclock, hreset⟩ := roles_of_control hν hi hμ ho hs hσ
  obtain ⟨z, hz, hzrole⟩ := Option.map_eq_some_iff.mp hclock
  obtain ⟨w, hw, hwrole⟩ := Option.map_eq_some_iff.mp hreset
  rw [heq]
  simp only [List.findM?, wp_bind, wp_bus hz, wp_pure, hzrole]
  rcases hcontrol with ⟨hrole, rfl⟩ | ⟨hrole, rfl⟩
  · rw [hrole]
    exact ⟨rfl, clock, rfl, rfl⟩
  · rw [hrole]
    simp only [reduceCtorEq, decide_false, wp_bind, wp_bus hw, wp_pure, hwrole]
    exact ⟨rfl, reset, rfl, rfl⟩

theorem sees_clockBus : Sees Γ (clockBus m) σ fun b => o.control[0]? = some b :=
  .bind (sees_controlBus? hν hi hμ ho (.inl ⟨rfl, rfl⟩)) fun _ ⟨_, hb, hd⟩ => .expect hd hb

theorem sees_resetBus : Sees Γ (resetBus m) σ fun b => o.control[1]? = some b :=
  .bind (sees_controlBus? hν hi hμ ho (.inr ⟨rfl, rfl⟩)) fun _ ⟨_, hb, hd⟩ => .expect hd hb

end

/-- The bus that repeats a data port of a module inside. -/
theorem sees_dataBus (hν : σ.node? m = some ν) {index : Nat} {a : Pad}
    (ha : ν.data[index]? = some a) {b : BusId} (hb : a.peer = some b) :
    Sees Γ (dataBus m index) σ (· = b) := by
  refine .bind (sees_dataPort hν ha) fun p hp => ?_
  subst hp
  refine .bind (sees_port hν (Node.data_mem_pads (List.mem_of_getElem? ha))) fun y hy => ?_
  exact .expect (hy.2.trans hb) rfl

/-- What a bus is repeated by across a boundary. -/
theorem sees_outBufPort (hν : σ.node? c = some ν) {a : Pad} (ha : a ∈ ν.pads) {b : BusId}
    (hb : a.peer = some b) : Sees Γ (Memory.outBufPort b) σ (· = a.port) := by
  intro s hs hσ
  subst hσ
  obtain ⟨y, hy, -, hpad, hnew⟩ := hs.has_port hν ha
  have hpeer : (s.state.ports.get? a.port).bind Port.peer = some b :=
    (congrArg Pad.peer hpad).trans hb
  obtain ⟨z, hz, hback⟩ := Option.bind_eq_some_iff.mp (hs.guarded a.port b hnew hpeer)
  rw [Memory.outBufPort, wp_bind, wp_bus hz, hback]
  exact ⟨rfl, rfl⟩

theorem sees_mainOutBuf (hν : σ.node? m = some ν) {o : Outlet} (ho : ν.outlet? .done = some o)
    {w : ComponentId} (hw : o.outBuf = some w) : Sees Γ (mainOutBuf m) σ (· = w) := by
  refine .bind (sees_mainExit hν ho) fun e he => ?_
  subst he
  refine .bind (sees_exit hν (Node.outlet?_mem ho)) fun y hy => .expect ?_ rfl
  rw [hy] at hw
  exact hw

/-! ### Changes that do not show -/

theorem sheet_congr (hcomponents : n'.components = n.components) (hpads : n'.pad = n.pad)
    (houtlets : n'.outlet = n.outlet) : Γ.sheet n' = Γ.sheet n := by
  unfold Ground.sheet sheetOver node
  rw [hcomponents, hpads, houtlets]

theorem outlet_congr (h : n'.exits = n.exits) : n'.outlet = n.outlet := by
  unfold outlet
  rw [h]

/-- A component is changed, but nothing shows of a port or an exit. -/
theorem sheet_modify (Γ : Ground) (n' : Netlist) {x : Component}
    (hx : n.components.get? c = some x) (hc : Γ.base.components.size ≤ c.index)
    {f : Component → Component} (hcomponents : n'.components = n.components.modify c f)
    (hpads : n'.pad = n.pad) (houtlets : n'.outlet = n.outlet) :
    Γ.sheet n' = (Γ.sheet n).set c (n.node (f x)) := by
  have hnode : n'.node = n.node := by
    funext y
    simp only [node, hpads, houtlets]
  ext : 1
  · rw [size_sheet, hcomponents, Arena.size_modify]
    rfl
  · funext d
    by_cases hd : d = c
    · subst hd
      rw [node?_sheet _ hc, hcomponents, hnode, Arena.get?_modify, if_pos rfl, hx,
        Sheet.node?_set_self]
      rfl
    · rw [Sheet.node?_set_of_ne _ _ hd]
      simp only [sheetOver, hcomponents, hnode, Arena.get?_modify, if_neg hd]

theorem draws_mark {f : Component → Component} (hν : σ.node? c = some ν)
    (hf : ∀ x : Component, x.SameButMarks (f x)) (hnode : ∀ n x, node n (f x) = node n x) :
    Draws Γ (changeComponent c f) σ fun _ τ => τ = σ := by
  have hsafe : Safe Γ.scope [.has (.component c)] (changeComponent c f) fun _ => [] :=
    .guarded (safe_mark (by simp) hf (.inl Γ.scope.open_unguarded)) fun s hs =>
      wp_mono (mutual_of_moves hs.sound.guarded samePeers_changeComponent) (fun _ _ h => h)
        fun _ _ h => h.mono False.elim
  refine .of_safe hsafe (by simpa using Sheet.Tells.component hν) fun s hs hσ => ?_
  subst hσ
  obtain ⟨x, hx, rfl⟩ := drawn hν
  have hsheet := sheet_modify Γ { s.state with components := s.state.components.modify c f }
    hx (le_of_node? hν) rfl rfl rfl
  rw [hnode, Sheet.set_eq_self _ _ hν] at hsheet
  exact (wp_changeComponent (Arena.lt_of_get? hx)).mpr hsheet

theorem draws_changePort {f : Port → Port} (hν : σ.node? c = some ν) {a : Pad} (ha : a ∈ ν.pads)
    (hbus : ∀ y, (f y).bus = y.bus) (hshape : ∀ y, (f y).shape = y.shape) :
    Draws Γ (changePort a.port f) σ fun _ τ => τ = σ := by
  refine .of_safe (K := [.has (.port a.port)]) (safe_changePort (by simp) hbus hshape)
    (by simpa using Sheet.Tells.port hν ha) fun s hs hσ => ?_
  subst hσ
  obtain ⟨y, hy, -⟩ := hs.has_port hν ha
  refine (wp_changePort (Arena.lt_of_get? hy)).mpr (sheet_congr rfl ?_ rfl)
  funext q
  have hbuses : Port.bus ∘ f = Port.bus := funext hbus
  have hpeers : Port.peer ∘ f = Port.peer := funext fun y =>
    (congrArg Port.peer (hshape y) :)
  simp only [pad, state_moved, Arena.get?_modify]
  split
  · simp only [Option.bind_map, hbuses, hpeers]
  · rfl

theorem draws_changeBus {f : Bus → Bus} {b : BusId} (hb : σ.Gives b)
    (hports : ∀ z, (f z).ports = z.ports) (hshape : ∀ z, (f z).shape = z.shape) :
    Draws Γ (changeBus b f) σ fun _ τ => τ = σ := by
  refine .of_safe (K := [.has (.bus b)]) (safe_changeBus (by simp) hports hshape)
    (by simpa using Sheet.Tells.bus hb) fun s hs hσ => ?_
  subst hσ
  obtain ⟨d, μ, hμ, hmem⟩ := hb
  exact (wp_changeBus (hs.has_bus hμ hmem).2).mpr (sheet_congr rfl rfl rfl)

theorem draws_changeExit {f : Exit → Exit} (hν : σ.node? c = some ν) {o : Outlet}
    (ho : o ∈ ν.outlets) (hshape : ∀ y, (f y).shape = y.shape) :
    Draws Γ (changeExit o.exit f) σ fun _ τ => τ = σ := by
  refine .of_safe (K := [.has (.exit o.exit)]) (safe_changeExit (by simp) hshape)
    (by simpa using Sheet.Tells.exit hν ho) fun s hs hσ => ?_
  subst hσ
  obtain ⟨y, hy, -⟩ := hs.has_exit hν ho
  refine (wp_changeExit (Arena.lt_of_get? hy)).mpr (sheet_congr rfl rfl ?_)
  funext e
  simp only [outlet, state_moved, Arena.get?_modify]
  by_cases he : e = o.exit
  · have hsame := hshape y
    simp only [Exit.shape, Exit.mk.injEq] at hsame
    obtain ⟨-, -, hdone, hdata, hcontrol, -, hpeer⟩ := hsame
    simp only [he, if_pos, hy, Option.map_some, hdone, hdata, hcontrol, hpeer]
  · rw [if_neg he]

/-! ### Buffers on the sheet -/

theorem exists_node? (h : Ref.New Γ.base n (.component c)) :
    ∃ ν, (Γ.sheet n).node? c = some ν := by
  obtain ⟨x, hx⟩ := Arena.exists_get? h.2
  exact ⟨n.node x, by rw [node?_sheet n h.1, hx, Option.map_some]⟩

theorem Proper.inBuf_drawn (hn : Proper Γ n) (hν : (Γ.sheet n).node? m = some ν) {i : Interior}
    (hi : ν.interior = some i) : ∃ μ, (Γ.sheet n).node? i.inBuf = some μ := by
  obtain ⟨x, hx, rfl⟩ := drawn hν
  have hlinked := hn.component hx (le_of_node? hν)
  have hrefs := (Component.forall_refs.mp hlinked.refs).2.2.2.2 i hi
  exact exists_node? (Interior.forall_refs.mp hrefs).1

theorem Proper.outBuf_drawn (hn : Proper Γ n) (hν : (Γ.sheet n).node? c = some ν) {o : Outlet}
    (ho : o ∈ ν.outlets) {w : ComponentId} (hw : o.outBuf = some w) :
    ∃ μ, (Γ.sheet n).node? w = some μ := by
  obtain ⟨y, hy, -, heq, hnew⟩ := hn.has_exit hν ho
  rw [heq] at hw
  exact exists_node? ((Exit.forall_refs.mp (hn.linked.exits _ y hy hnew).refs).2.2 w hw)

/-! ### Marks and signals -/

theorem draws_setBusSignal {b : BusId} (hb : σ.Gives b) (signal : Signal) :
    Draws Γ (setBusSignal b signal) σ fun _ τ => τ = σ :=
  draws_changeBus hb (fun _ => rfl) fun _ => rfl

section

variable (hν : σ.node? c = some ν)

include hν

theorem draws_setPortSignal {a : Pad} (ha : a ∈ ν.pads) (signal : Signal) :
    Draws Γ (setPortSignal a.port signal) σ fun _ τ => τ = σ :=
  draws_changePort hν ha (fun _ => rfl) fun _ => rfl

theorem draws_setConsumesClock (on : Bool) :
    Draws Γ (setConsumesClock c on) σ fun _ τ => τ = σ :=
  draws_mark hν (fun _ => ⟨rfl, rfl, rfl, rfl, rfl⟩) fun _ _ => rfl

theorem draws_setConsumesReset (on : Bool) :
    Draws Γ (setConsumesReset c on) σ fun _ τ => τ = σ :=
  draws_mark hν (fun _ => ⟨rfl, rfl, rfl, rfl, rfl⟩) fun _ _ => rfl

theorem draws_setConsumesGo (on : Bool) :
    Draws Γ (setConsumesGo c on) σ fun _ τ => τ = σ := by
  refine .bind (draws_mark hν (fun _ => ⟨rfl, rfl, rfl, rfl, rfl⟩) fun _ _ => rfl) fun _ τ hτ => ?_
  subst hτ
  refine .look (sees_component hν) fun x hx => ?_
  split
  · exact .pure rfl
  · next i hi =>
      refine .of_proper fun n hn hσ => ?_
      subst hσ
      obtain ⟨μ, hμ⟩ := hn.inBuf_drawn hν (hx.interior.symm.trans hi)
      exact draws_mark hμ (fun _ => ⟨rfl, rfl, rfl, rfl, rfl⟩) fun _ _ => rfl

theorem sees_outBufs : Sees Γ (outBufs c) σ fun ws =>
    ∀ w ∈ ws, ∃ o ∈ ν.outlets, o.outBuf = some w := by
  refine .bind (sees_component hν) fun x hx => ?_
  refine .bind (.mapM (R := fun _ y => ∃ o ∈ ν.outlets, o.outBuf = y.peer) fun e he => ?_)
    fun ys hys => .pure fun w hw => ?_
  · obtain ⟨⟨tag, e'⟩, hentry, rfl⟩ := OrderedMap.mem_values.mp he
    rw [hx.exits] at hentry
    obtain ⟨⟨tag, o⟩, ho, heq⟩ := List.mem_map.mp hentry
    cases heq
    have hmem : o ∈ ν.outlets := List.mem_map_of_mem (f := Prod.snd) ho
    intro s hs hσ
    refine wp_mono (sees_exit hν hmem s hs hσ) (fun y t ht => ⟨ht.1, o, hmem, ?_⟩) fun _ _ h => h
    rw [ht.2]
  · obtain ⟨y, hy, hpeer⟩ := List.mem_filterMap.mp hw
    obtain ⟨-, -, o, ho, hout⟩ := hys y hy
    exact ⟨o, ho, hout.trans hpeer⟩

theorem draws_setProducesDone (on : Bool) :
    Draws Γ (setProducesDone c on) σ fun _ τ => τ = σ := by
  refine .bind (draws_mark hν (fun _ => ⟨rfl, rfl, rfl, rfl, rfl⟩) fun _ _ => rfl) fun _ τ hτ => ?_
  subst hτ
  refine .look (sees_component hν) fun x hx => ?_
  split
  · refine .look (sees_outBufs hν) fun ws hws => .forM rfl fun w hw τ hτ => ?_
    subst hτ
    obtain ⟨o, ho, hbuf⟩ := hws w hw
    refine .of_proper fun n hn hσ => ?_
    subst hσ
    obtain ⟨μ, hμ⟩ := hn.outBuf_drawn hν ho hbuf
    exact draws_mark hμ (fun _ => ⟨rfl, rfl, rfl, rfl, rfl⟩) fun _ _ => rfl
  · exact .pure rfl

end

end DataflowSynth.Netlist
