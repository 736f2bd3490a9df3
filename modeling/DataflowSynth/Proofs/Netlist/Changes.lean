/-
Steps that leave the shape alone are safe.

These are the steps that look at the arena, change names, signals, marks and latencies, connect and
disconnect, and enter components from others.  Nothing is asked of what they are aimed at but that it
is there.
-/
import DataflowSynth.Proofs.Netlist.Safe

namespace DataflowSynth.Netlist

open Build

variable {S : Scope} {K : List Fact} {α : Type}

/-! ### Handles found in records -/

@[simp] theorem has_mem_map {r : Ref} {rs : List Ref} : Fact.has r ∈ rs.map .has ↔ r ∈ rs := by
  simp [List.mem_map]

@[simp] theorem Component.clock_mem_ports (x : Component) : x.clock ∈ x.ports := by
  simp [Component.ports]

@[simp] theorem Component.reset_mem_ports (x : Component) : x.reset ∈ x.ports := by
  simp [Component.ports]

@[simp] theorem Component.go_mem_ports (x : Component) : x.go ∈ x.ports := by
  simp [Component.ports]

theorem Component.mem_ports_of_data {x : Component} {p : PortId} (hp : p ∈ x.dataPorts) :
    p ∈ x.ports := by
  simp [Component.ports, hp]

theorem Component.mem_ports_of_this {x : Component} {p : PortId} (hp : x.this = some p) :
    p ∈ x.ports := by
  simp [Component.ports, hp]

section

variable {x : Component} {y : Port} {z : Bus} {w : Exit} {v : Entry}

@[simp] theorem Component.port_mem_refs {p : PortId} : .port p ∈ x.refs ↔ p ∈ x.ports := by
  cases hi : x.interior <;> simp [Component.refs, hi, Interior.refs]

@[simp] theorem Component.exit_mem_refs {e : ExitId} :
    .exit e ∈ x.refs ↔ e ∈ x.exits.values := by
  cases hi : x.interior <;> simp [Component.refs, hi, Interior.refs]

@[simp] theorem Component.entry_mem_refs {e : EntryId} : .entry e ∈ x.refs ↔ e ∈ x.entries := by
  cases hi : x.interior <;> simp [Component.refs, hi, Interior.refs]

@[simp] theorem Component.component_mem_refs {c : ComponentId} : .component c ∈ x.refs ↔
    x.owner = some c ∨
      ∃ i, x.interior = some i ∧ (c = i.inBuf ∨ c ∈ i.children ∨ c ∈ i.feedback) := by
  cases hi : x.interior <;> simp [Component.refs, hi, Interior.refs]

@[simp] theorem Port.component_mem_refs {c : ComponentId} :
    .component c ∈ y.refs ↔ c = y.owner := by
  simp [Port.refs]

@[simp] theorem Port.bus_mem_refs {b : BusId} :
    .bus b ∈ y.refs ↔ y.bus = some b ∨ y.peer = some b := by
  simp [Port.refs]

@[simp] theorem Bus.exit_mem_refs {e : ExitId} : .exit e ∈ z.refs ↔ e = z.owner := by
  simp [Bus.refs]

@[simp] theorem Bus.port_mem_refs {p : PortId} :
    .port p ∈ z.refs ↔ p ∈ z.ports ∨ z.peer = some p := by
  simp [Bus.refs]

@[simp] theorem Exit.component_mem_refs {c : ComponentId} :
    .component c ∈ w.refs ↔ c = w.owner ∨ w.peer = some c := by
  simp [Exit.refs]

@[simp] theorem Exit.bus_mem_refs {b : BusId} : .bus b ∈ w.refs ↔ b ∈ w.buses := by
  simp [Exit.refs]

@[simp] theorem Entry.exit_mem_refs {e : ExitId} : .exit e ∈ v.refs ↔ v.drivingExit = some e := by
  simp [Entry.refs]

@[simp] theorem Exit.done_mem_buses (w : Exit) : w.done ∈ w.buses := by simp [Exit.buses]

theorem Exit.mem_buses_of_data {b : BusId} (hb : b ∈ w.data) : b ∈ w.buses := by
  simp [Exit.buses, hb]

theorem Exit.mem_buses_of_control {b : BusId} (hb : b ∈ w.control) : b ∈ w.buses := by
  simp [Exit.buses, hb]

end

/-! ### Looking -/

section

variable {c : ComponentId} {p : PortId} {b : BusId} {e : ExitId} {i : EntryId}

/-- What a component tells about the handles in it. -/
def Component.facts (c : ComponentId) (x : Component) : List Fact :=
  x.refs.map .has ++ [.fits x.kind, .kinded c x.kind.plain]

@[simp] theorem Component.has_mem_facts {x : Component} {r : Ref} :
    .has r ∈ x.facts c ↔ r ∈ x.refs := by
  simp [Component.facts]

@[simp] theorem Component.fits_mem_facts {x : Component} : .fits x.kind ∈ x.facts c := by
  simp [Component.facts]

@[simp] theorem Component.kinded_mem_facts {x : Component} :
    .kinded c x.kind.plain ∈ x.facts c := by
  simp [Component.facts]

theorem safe_component (hc : .has (.component c) ∈ K) :
    Safe S K (component c) fun x => x.facts c := by
  intro s hs
  refine wp_component_of (fun x hx => ⟨⟨hs.sound, fun f hf => ?_⟩, .refl S _⟩) trivial
  have hl := hs.sound.linked.components c x hx (hs.facts _ hc).1
  simp only [Component.facts, List.mem_append, List.mem_map, List.mem_cons, List.not_mem_nil,
    or_false] at hf
  rcases hf with ⟨r, hr, rfl⟩ | rfl | rfl
  · exact hl.refs r hr
  · exact hl.kind
  · exact ⟨x, hx, rfl⟩

theorem safe_port (hp : .has (.port p) ∈ K) : Safe S K (port p) fun y => y.refs.map .has := by
  intro s hs
  refine wp_port_of (fun y hy => ⟨⟨hs.sound, fun f hf => ?_⟩, .refl S _⟩) trivial
  obtain ⟨r, hr, rfl⟩ := List.mem_map.mp hf
  exact (hs.sound.linked.ports p y hy (hs.facts _ hp).1).refs r hr

theorem safe_bus (hb : .has (.bus b) ∈ K) : Safe S K (bus b) fun z => z.refs.map .has := by
  intro s hs
  refine wp_bus_of (fun z hz => ⟨⟨hs.sound, fun f hf => ?_⟩, .refl S _⟩) trivial
  obtain ⟨r, hr, rfl⟩ := List.mem_map.mp hf
  exact (hs.sound.linked.buses b z hz (hs.facts _ hb).1).refs r hr

theorem safe_exit (he : .has (.exit e) ∈ K) : Safe S K (exit e) fun y => y.refs.map .has := by
  intro s hs
  refine wp_exit_of (fun y hy => ⟨⟨hs.sound, fun f hf => ?_⟩, .refl S _⟩) trivial
  obtain ⟨r, hr, rfl⟩ := List.mem_map.mp hf
  exact (hs.sound.linked.exits e y hy (hs.facts _ he).1).refs r hr

theorem safe_entry (hi : .has (.entry i) ∈ K) : Safe S K (entry i) fun x => x.refs.map .has := by
  intro s hs
  refine wp_entry_of (fun x hx => ⟨⟨hs.sound, fun f hf => ?_⟩, .refl S _⟩) trivial
  obtain ⟨r, hr, rfl⟩ := List.mem_map.mp hf
  exact hs.sound.linked.entries i x hx (hs.facts _ hi).1 r hr

end

/-! ### Changing -/

theorem safe_changeComponent {c : ComponentId} {f : Component → Component}
    (hc : .has (.component c) ∈ K)
    (hlinked : ∀ n x, S.Knows K n → n.components.get? c = some x →
      ComponentLinked S.pins S.base n c x → ComponentLinked S.pins S.base n c (f x))
    (hshape : ∀ n x, S.Knows K n → n.components.get? c = some x → (f x).shape = x.shape)
    (hstance : S.Open ∨ ∀ x, (f x).stance = x.stance) :
    Safe S K (changeComponent c f) fun _ => [] := by
  intro s hs
  have hnew := hs.facts _ hc
  have hsame := sameShape_modifyComponent (fun x hx => hshape _ x hs hx)
  rw [wp_changeComponent hnew.2]
  refine hs.sameShape ?_ ?_ hsame (hstance.elim (fun hopen => hopen _) fun heq => ?_)
  · exact hs.sound.linked.modifyComponent hnew.1 fun x hx => hlinked _ x hs hx
  · refine { Grows.refl s.state with components := ?_ }
    simp
  · exact S.guard.calm ⟨hsame, rfl, fun d => stances_modify (fun x _ => heq x) d⟩ hs.sound.guarded

/-- The components differ in names and marks only. -/
structure Component.SameButMarks (x y : Component) : Prop where
  refs : y.refs = x.refs
  ports : y.ports = x.ports
  entries : y.entries = x.entries
  kind : y.kind = x.kind
  shape : y.shape = x.shape

theorem safe_mark {c : ComponentId} {f : Component → Component} (hc : .has (.component c) ∈ K)
    (hf : ∀ x : Component, x.SameButMarks (f x))
    (hstance : S.Open ∨ ∀ x, (f x).stance = x.stance) :
    Safe S K (changeComponent c f) fun _ => [] := by
  refine safe_changeComponent hc (fun n x _ _ h => ?_) (fun _ x _ _ => (hf x).shape) hstance
  have hexits : (f x).exits = x.exits := (congrArg Component.exits (hf x).shape :)
  refine ⟨?_, ?_, ?_, ?_, ?_⟩
  · rw [(hf x).refs]
    exact h.refs
  · rw [(hf x).kind]
    exact h.kind
  · rw [(hf x).ports]
    exact h.ports
  · rw [hexits]
    exact h.exits
  · rw [(hf x).entries]
    exact h.entries

theorem safe_changePort {p : PortId} {f : Port → Port} (hp : .has (.port p) ∈ K)
    (hbus : ∀ y, (f y).bus = y.bus) (hshape : ∀ y, (f y).shape = y.shape) :
    Safe S K (changePort p f) fun _ => [] := by
  intro s hs
  have hnew := hs.facts _ hp
  have hsame := sameShape_modifyPort (n := s.state) (p := p) fun y _ => hshape y
  rw [wp_changePort hnew.2]
  refine hs.calm ?_ ?_ (hsame.calm rfl rfl)
  · refine hs.sound.linked.modifyPort hnew.1 fun y _ => ⟨?_, hbus y, fun b hb => .inl ?_⟩
    · exact (congrArg Port.owner (hshape y) :)
    · exact (congrArg Port.peer (hshape y)).symm.trans hb
  · refine { Grows.refl s.state with ports := ?_ }
    simp

theorem safe_changeBus {b : BusId} {f : Bus → Bus} (hb : .has (.bus b) ∈ K)
    (hports : ∀ z, (f z).ports = z.ports) (hshape : ∀ z, (f z).shape = z.shape) :
    Safe S K (changeBus b f) fun _ => [] := by
  intro s hs
  have hnew := hs.facts _ hb
  have hsame := sameShape_modifyBus (n := s.state) (b := b) fun z _ => hshape z
  rw [wp_changeBus hnew.2]
  refine hs.calm ?_ ?_ (hsame.calm rfl rfl)
  · refine hs.sound.linked.modifyBus hnew.1 fun z _ => ⟨?_, hports z, fun p hp => .inl ?_⟩
    · exact (congrArg Bus.owner (hshape z) :)
    · exact (congrArg Bus.peer (hshape z)).symm.trans hp
  · refine { Grows.refl s.state with buses := ?_ }
    simp

theorem safe_changeExit {e : ExitId} {f : Exit → Exit} (he : .has (.exit e) ∈ K)
    (hshape : ∀ y, (f y).shape = y.shape) : Safe S K (changeExit e f) fun _ => [] := by
  intro s hs
  have hnew := hs.facts _ he
  have hsame := sameShape_modifyExit (n := s.state) (e := e) fun y _ => hshape y
  rw [wp_changeExit hnew.2]
  refine hs.calm ?_ ?_ (hsame.calm rfl rfl)
  · refine hs.sound.linked.modifyExit hnew.1 fun y _ => ?_
    have heq := hshape y
    simp only [Exit.shape, Exit.mk.injEq] at heq
    obtain ⟨howner, htag, hdone, hdata, hcontrol, -, hpeer⟩ := heq
    have hbuses : (f y).buses = y.buses := by simp only [Exit.buses, hdone, hdata, hcontrol]
    refine ⟨howner, htag, fun h => ⟨?_, ?_⟩⟩
    · rw [Exit.refs, howner, hbuses, hpeer]
      exact h.refs
    · rw [hbuses]
      exact h.buses
  · refine { Grows.refl s.state with exits := ?_ }
    simp

/-! ### Finding terminals -/

section

variable {c : ComponentId}

theorem safe_mainExit (hc : .has (.component c) ∈ K) :
    Safe S K (mainExit c) fun e => [.has (.exit e)] := by
  refine (safe_component hc).bind fun x => Safe.expect fun e he => ?_
  simp [OrderedMap.mem_values_of_find? he]

/-- The exit of a component that is no buffer. -/
theorem safe_mainExit_plain (hc : .has (.component c) ∈ K) (hplain : .plain c ∈ K) :
    Safe S K (mainExit c) fun e => [.has (.exit e), .plainExit e] := by
  intro s hs
  simp only [mainExit, wp_bind]
  refine wp_component_of (fun x hx => wp_expect (fun e he => ⟨⟨hs.sound, ?_⟩, .refl S _⟩) trivial)
    trivial
  have hmem := OrderedMap.mem_values_of_find? he
  have hnew := hs.sound.linked.exit_new hx (hs.facts _ hc).1 hmem
  simp only [List.mem_cons, List.not_mem_nil, or_false, forall_eq_or_imp, forall_eq]
  refine ⟨hnew, hnew, fun hstrict y hy => ?_⟩
  rw [hs.sound.linked.owner_of_listed hx (hs.facts _ hc).1 hmem hy]
  exact (hs.facts _ hplain).2 hstrict

theorem safe_resultBus (hc : .has (.component c) ∈ K) :
    Safe S K (resultBus c) fun b => [.has (.bus b)] := by
  refine (safe_mainExit hc).bind fun e => (safe_exit (by simp)).bind fun y =>
    Safe.expect fun b hb => ?_
  simp [Exit.mem_buses_of_data (List.mem_of_head? hb)]

theorem safe_doneBus (hc : .has (.component c) ∈ K) :
    Safe S K (doneBus c) fun b => [.has (.bus b)] := by
  refine (safe_mainExit hc).bind fun e => (safe_exit (by simp)).bind fun y => .pure ?_
  simp

theorem safe_dataPort (hc : .has (.component c) ∈ K) (index : Nat) :
    Safe S K (dataPort c index) fun p => [.has (.port p)] := by
  refine (safe_component hc).bind fun x => Safe.expect fun p hp => ?_
  simp [Component.mem_ports_of_data (List.mem_of_getElem? hp)]

theorem safe_busesOf (hc : .has (.component c) ∈ K) :
    Safe S K (busesOf c) fun bs => bs.map fun b => .has (.bus b) := by
  refine (safe_component hc).bind fun x => .bind
    (Safe.mapM (P := fun y : Exit => y.refs.map .has) fun e he => safe_exit (by simp [he]))
    fun ys => .pure ?_
  simp only [List.mem_map, List.mem_flatMap, List.mem_append]
  rintro f ⟨b, ⟨y, hy, hb⟩, rfl⟩
  exact .inl ⟨y, hy, _, Exit.bus_mem_refs.mpr hb, rfl⟩

end

/-! ### Looking into modules -/

theorem Safe.anyM {β : Type} {xs : List β} {f : β → Step Bool}
    (hf : ∀ b ∈ xs, Safe S K (f b) fun _ => []) : Safe S K (xs.anyM f) fun _ => [] := by
  induction xs with
  | nil => exact .pure (by simp)
  | cons b xs ih =>
      refine (hf b (by simp)).bind fun found => ?_
      cases found with
      | true => exact .pure (by simp)
      | false => exact ih fun c hc => hf c (by simp [hc])

theorem Safe.findM? {β : Type} {xs : List β} {f : β → Step Bool} {P : β → List Fact}
    (hf : ∀ b ∈ xs, Safe S K (f b) fun _ => []) (hpost : ∀ b ∈ xs, ∀ g ∈ P b, g ∈ K) :
    Safe S K (xs.findM? f) fun o => o.toList.flatMap P := by
  induction xs with
  | nil => exact .pure (by simp)
  | cons b xs ih =>
      refine (hf b (by simp)).bind fun found => ?_
      cases found with
      | true => exact .pure (by simpa using hpost b (by simp))
      | false => exact ih (fun c hc => hf c (by simp [hc])) fun c hc => hpost c (by simp [hc])

section

variable {m : ComponentId}

/-- The components in an interior. -/
def Interior.facts (i : Interior) : List Fact := i.refs.map .has

@[simp] theorem Interior.has_mem_facts {i : Interior} {c : ComponentId} :
    .has (.component c) ∈ i.facts ↔ c = i.inBuf ∨ c ∈ i.children ∨ c ∈ i.feedback := by
  simp [Interior.facts, Interior.refs]

theorem safe_interior (hm : .has (.component m) ∈ K) :
    Safe S K (interior m) fun i => i.facts := by
  refine (safe_component hm).bind fun x => Safe.expect fun i hi f hf => ?_
  simp only [Interior.facts, List.mem_map] at hf
  obtain ⟨r, hr, rfl⟩ := hf
  have hmem : r ∈ x.refs := by simp [Component.refs, hi, hr]
  simp [hmem]

theorem safe_inBuf (hm : .has (.component m) ∈ K) :
    Safe S K (inBuf m) fun b => [.has (.component b)] :=
  (safe_interior hm).bind fun i => .pure (by simp)

theorem safe_children (hm : .has (.component m) ∈ K) :
    Safe S K (children m) fun cs => cs.map fun c => .has (.component c) := by
  refine (safe_interior hm).bind fun i => .pure ?_
  simp +contextual

theorem safe_controlBus? (hm : .has (.component m) ∈ K) (control : Control) :
    Safe S K (controlBus? m control) fun b => b.toList.map fun b => .has (.bus b) := by
  refine (safe_inBuf hm).bind fun b => (safe_mainExit (by simp)).bind fun e =>
    (safe_exit (by simp)).bind fun y => ?_
  refine (Safe.findM? (P := fun b => [.has (.bus b)]) (fun b hb => ?_) fun b hb => ?_).weaken
    (fun _ h => h) fun o f hf => ?_
  · exact (safe_bus (by simp [Exit.mem_buses_of_control hb])).bind fun z => .pure (by simp)
  · simp [Exit.mem_buses_of_control hb]
  · cases o <;> simp_all

theorem safe_controlBus {a : Abort} (hm : .has (.component m) ∈ K) (control : Control) :
    Safe S K (controlBus? m control >>= expect a) fun b => [.has (.bus b)] := by
  refine (safe_controlBus? hm control).bind fun o => Safe.expect fun b hb => ?_
  simp [hb]

theorem safe_clockBus (hm : .has (.component m) ∈ K) :
    Safe S K (clockBus m) fun b => [.has (.bus b)] := safe_controlBus hm .clock

theorem safe_resetBus (hm : .has (.component m) ∈ K) :
    Safe S K (resetBus m) fun b => [.has (.bus b)] := safe_controlBus hm .reset

theorem safe_goBus (hm : .has (.component m) ∈ K) :
    Safe S K (goBus m) fun b => [.has (.bus b)] :=
  (safe_inBuf hm).bind fun b => (safe_doneBus (by simp)).weaken (fun _ h => h) (by simp +contextual)

theorem safe_dataBus (hm : .has (.component m) ∈ K) (index : Nat) :
    Safe S K (dataBus m index) fun b => [.has (.bus b)] := by
  refine (safe_dataPort hm index).bind fun p => (safe_port (by simp)).bind fun y =>
    Safe.expect fun b hb => ?_
  simp [hb]

theorem safe_outBufs (hm : .has (.component m) ∈ K) :
    Safe S K (outBufs m) fun bs => bs.map fun b => .has (.component b) := by
  refine (safe_component hm).bind fun x => .bind
    (Safe.mapM (P := fun y : Exit => y.refs.map .has) fun e he => safe_exit (by simp [he]))
    fun ys => .pure ?_
  simp only [List.mem_map, List.mem_filterMap, List.mem_append, List.mem_flatMap]
  rintro f ⟨b, ⟨y, hy, hb⟩, rfl⟩
  exact .inl ⟨y, hy, _, Exit.component_mem_refs.mpr (.inr hb), rfl⟩

theorem safe_mainOutBuf (hm : .has (.component m) ∈ K) :
    Safe S K (mainOutBuf m) fun b => [.has (.component b)] := by
  refine (safe_mainExit hm).bind fun e => (safe_exit (by simp)).bind fun y =>
    Safe.expect fun b hb => ?_
  simp [hb]

end

/-! ### Signals and marks -/

section

variable {c : ComponentId} {p : PortId} {b : BusId}

theorem safe_setPortSignal (hp : .has (.port p) ∈ K) (signal : Signal) :
    Safe S K (setPortSignal p signal) fun _ => [] :=
  safe_changePort hp (fun _ => rfl) fun _ => rfl

theorem safe_setBusSignal (hb : .has (.bus b) ∈ K) (signal : Signal) :
    Safe S K (setBusSignal b signal) fun _ => [] :=
  safe_changeBus hb (fun _ => rfl) fun _ => rfl

theorem safe_setConsumesClock (hc : .has (.component c) ∈ K) (on : Bool) :
    Safe S K (setConsumesClock c on) fun _ => [] :=
  safe_mark hc (fun _ => ⟨rfl, rfl, rfl, rfl, rfl⟩) (.inr fun _ => rfl)

theorem safe_setConsumesReset (hc : .has (.component c) ∈ K) (on : Bool) :
    Safe S K (setConsumesReset c on) fun _ => [] :=
  safe_mark hc (fun _ => ⟨rfl, rfl, rfl, rfl, rfl⟩) (.inr fun _ => rfl)

theorem safe_setConsumesGo (hc : .has (.component c) ∈ K) (on : Bool)
    (hplain : S.guard.firm → .plain c ∈ K) : Safe S K (setConsumesGo c on) fun _ => [] := by
  refine .guarded (.bind (safe_mark hc (fun _ => ⟨rfl, rfl, rfl, rfl, rfl⟩) (.inl S.open_unguarded))
    fun _ => .bind (safe_component (by simp [hc])) fun x => ?_) fun s hs => ?_
  · cases hi : x.interior with
    | none => exact .pure (by simp)
    | some i =>
        exact safe_mark (by simp [hi]) (fun _ => ⟨rfl, rfl, rfl, rfl, rfl⟩) (.inl S.open_unguarded)
  · exact hs.edit (.consumesGo c on) (by simp [Edit.refs, hc]) fun hstrict hfirm =>
      (hs.facts _ (hplain hfirm)).2 hstrict

theorem safe_setProducesDone (hc : .has (.component c) ∈ K) (on : Bool)
    (hplain : S.guard.firm → .plain c ∈ K) : Safe S K (setProducesDone c on) fun _ => [] := by
  refine .guarded (.bind (safe_mark hc (fun _ => ⟨rfl, rfl, rfl, rfl, rfl⟩) (.inl S.open_unguarded))
    fun _ => .bind (safe_component (by simp [hc])) fun x => ?_) fun s hs => ?_
  · split
    · refine (safe_outBufs (by simp [hc])).bind fun bs => .forM fun b hb => ?_
      exact safe_mark (by simp [hb]) (fun _ => ⟨rfl, rfl, rfl, rfl, rfl⟩) (.inl S.open_unguarded)
    · exact .pure (by simp)
  · exact hs.edit (.producesDone c on) (by simp [Edit.refs, hc]) fun hstrict hfirm =>
      (hs.facts _ (hplain hfirm)).2 hstrict

end

/-! ### Connections -/

theorem wp_setBus {Q : Unit → Traced Netlist → Prop} {F : Failure → Traced Netlist → Prop}
    {s : Traced Netlist} {p : PortId} {y : Port} {new : Option BusId}
    (hy : s.state.ports.get? p = some y)
    (hold : ∀ b, y.bus = some b → b.index < s.state.buses.size)
    (hnew : ∀ b, new = some b → b.index < s.state.buses.size) :
    wp (setBus p new) Q F s ↔ Q () (moved s { s.state with
      buses := movePort s.state.buses p y.bus new
      ports := s.state.ports.modify p fun y => { y with bus := new } }) := by
  have hp := Arena.lt_of_get? hy
  simp only [setBus, wp_bind]
  refine .trans (wp_port hy) ?_
  cases hb : y.bus with
  | none =>
      cases new with
      | none => exact wp_changePort hp
      | some d =>
          simp only [wp_bind]
          exact .trans (wp_changeBus (hnew d rfl)) (wp_changePort hp)
  | some b =>
      simp only [wp_bind]
      refine .trans (wp_changeBus (hold b hb)) ?_
      cases new with
      | none => exact wp_changePort hp
      | some d =>
          simp only [wp_bind]
          refine .trans (wp_changeBus ?_) (wp_changePort hp)
          simpa using hnew d rfl

theorem sameShape_movePort (n : Netlist) (p : PortId) (old new : Option BusId) :
    SameShape n { n with
      buses := movePort n.buses p old new
      ports := n.ports.modify p fun y => { y with bus := new } } where
  components _ := rfl
  ports q := by
    rw [Arena.get?_modify]
    split
    · cases n.ports.get? q <;> rfl
    · rfl
  buses b := by
    rw [get?_movePort]
    cases n.buses.get? b <;> rfl
  exits _ := rfl

theorem safe_setBus {p : PortId} {new : Option BusId} (hp : .has (.port p) ∈ K)
    (hnew : ∀ b, new = some b → .has (.bus b) ∈ K) : Safe S K (setBus p new) fun _ => [] := by
  intro s hs
  have hpnew := hs.facts _ hp
  obtain ⟨y, hy⟩ := Arena.exists_get? hpnew.2
  have hl := hs.sound.linked.ports p y hy hpnew.1
  rw [wp_setBus hy (fun b hb => (hl.refs (.bus b) (by simp [hb])).2) fun b hb =>
    (hs.facts _ (hnew b hb)).2]
  refine hs.calm ?_ ?_ ((sameShape_movePort _ _ _ _).calm rfl rfl)
  · exact hs.sound.linked.rewire hpnew.1 hy fun b hb => hs.facts _ (hnew b hb)
  · refine { Grows.refl s.state with ports := ?_, buses := ?_ }
    · simp
    · simp [size_movePort]

/-- Changing several ports, one after the other. -/
theorem wp_forM_changePort {Q : Unit → Traced Netlist → Prop}
    {F : Failure → Traced Netlist → Prop} {s : Traced Netlist} {ps : List PortId} {f : Port → Port}
    (hps : ∀ p ∈ ps, p.index < s.state.ports.size) :
    wp (ps.forM fun p => changePort p f) Q F s ↔
      Q () (moved s { s.state with ports := s.state.ports.modifyAll ps f }) := by
  induction ps generalizing s with
  | nil => exact Iff.rfl
  | cons p ps ih =>
      show wp (changePort p f >>= fun _ => ps.forM fun p => changePort p f) Q F s ↔ _
      rw [wp_bind, wp_changePort (hps p (by simp)), ih]
      · exact Iff.rfl
      · intro q hq
        simpa using hps q (by simp [hq])

/-- Lets a bus drive nothing. -/
def clear (b : BusId) : Step Unit := do
  let sinks := (← bus b).ports
  changeBus b fun x => { x with ports := [] }
  sinks.forM fun p => changePort p fun x => { x with bus := none }

theorem safe_clear {b : BusId} (hb : .has (.bus b) ∈ K) : Safe S K (clear b) fun _ => [] := by
  intro s hs
  have hnew := hs.facts _ hb
  obtain ⟨z, hz⟩ := Arena.exists_get? hnew.2
  have hl := hs.sound.linked.buses b z hz hnew.1
  have hsinks : ∀ p ∈ z.ports, p.index < s.state.ports.size := fun p hp =>
    (hl.refs (.port p) (by simp [hp])).2
  simp only [clear, wp_bind]
  refine (wp_bus hz).mpr ((wp_changeBus hnew.2).mpr (Iff.mpr (wp_forM_changePort hsinks) ?_))
  refine hs.calm ?_ ?_ ⟨⟨fun _ => rfl, fun p => ?_, fun d => ?_, fun _ => rfl⟩, rfl, fun _ => rfl⟩
  · exact hs.sound.linked.clearBus hnew.1 hz
  · refine { Grows.refl s.state with ports := ?_, buses := ?_ } <;> simp
  · simp only [moved, Arena.get?_modifyAll (f := fun y : Port => { y with bus := none })
      fun _ => rfl]
    split
    · cases s.state.ports.get? p <;> rfl
    · rfl
  · simp only [moved, Arena.get?_modify]
    split
    · cases s.state.buses.get? d <;> rfl
    · rfl

theorem safe_disconnect {c : ComponentId} (hc : .has (.component c) ∈ K) :
    Safe S K (disconnect c) fun _ => [] := by
  refine .bind (safe_component hc) fun x => .bind (.forM fun p hp => ?_) fun _ => ?_
  · exact safe_setBus (by simp [hp]) (by simp)
  · refine .bind (safe_busesOf (by simp [hc])) fun bs => .forM fun b hb => ?_
    exact safe_clear (by simp [hb])

/-! ### Entries -/

theorem safe_makeEntry {c : ComponentId} {drivingExit : Option ExitId}
    (hc : .has (.component c) ∈ K) (hexit : ∀ e, drivingExit = some e → .has (.exit e) ∈ K) :
    Safe S K (makeEntry c drivingExit) fun e => [.has (.entry e)] := by
  intro s hs
  have hnew := hs.facts _ hc
  simp only [makeEntry, wp_bind, wp_addEntry]
  refine Iff.mpr (wp_changeComponent hnew.2) ?_
  change S.Knows _ (s.state.withEntry c { owner := c, drivingExit }) ∧ S.Evolves _ _
  have hlinked : Linked S.pins S.base (s.state.withEntry c { owner := c, drivingExit }) := by
    refine hs.sound.linked.withEntry hnew.1 rfl (Entry.forall_refs.mpr ⟨hnew, fun e he => ?_, ?_⟩)
    · exact hs.facts _ (hexit e he)
    · simp [EmptyCollection.emptyCollection]
  have hshape : SameShape s.state (s.state.withEntry c { owner := c, drivingExit }) :=
    { sameShape_modifyComponent (n := s.state) (c := c)
        (f := fun y => { y with entries := y.entries ++ [s.state.entries.next] })
        fun _ _ => rfl with }
  have hcalm := hs.calm hlinked
    { Grows.refl s.state with
      components := by simp [withEntry]
      entries := by simp [withEntry] } ⟨hshape, rfl, stances_modify fun _ _ => rfl⟩
  refine ⟨⟨hcalm.1.sound, ?_⟩, hcalm.2⟩
  simp only [List.mem_singleton, forall_eq]
  exact ⟨hs.sound.linked.keeps.entries.size, by simp [withEntry]⟩

theorem safe_addDependency {e : EntryId} {p : PortId} {d : Dependency} (he : .has (.entry e) ∈ K)
    (hp : .has (.port p) ∈ K) (hd : .has (.bus d.bus) ∈ K) :
    Safe S K (addDependency e p d) fun _ => [] := by
  refine .bind (safe_port hp) fun y => ?_
  intro s hs
  have hnew := hs.facts (.has (.entry e)) (by simp [he])
  have hport := hs.facts (.has (.port p)) (by simp [hp])
  have hbus := hs.facts (.has (.bus d.bus)) (by simp [hd])
  rw [wp_changeEntry hnew.2]
  refine hs.calm ?_ ?_ ⟨⟨fun _ => rfl, fun _ => rfl, fun _ => rfl, fun _ => rfl⟩, rfl, fun _ => rfl⟩
  · refine hs.sound.linked.modifyEntry hnew.1 fun x hx => ⟨rfl, ?_⟩
    obtain ⟨howner, hexit, hdeps⟩ :=
      (Entry.forall_refs (P := fun r => r ∈ x.refs ∨ r.New S.base s.state)).mp fun r hr => .inl hr
    refine Entry.forall_refs.mpr ⟨howner, hexit, fun q hq => ?_⟩
    rcases OrderedMap.mem_entries_alter hq with hq | ⟨hk, hv⟩ | ⟨ds, hds, rfl⟩
    · exact hdeps q hq
    · rw [hk, hv]
      simpa using ⟨.inr hport, .inr hbus⟩
    · refine ⟨.inr hport, fun b hb => ?_⟩
      rcases List.mem_append.mp hb with hb | hb
      · exact (hdeps _ hds).2 b hb
      · obtain rfl := List.mem_singleton.mp hb
        exact .inr hbus
  · refine { Grows.refl s.state with entries := ?_ }
    simp

theorem safe_hasEntry {o : ComponentId} {e : ExitId} (ho : .has (.component o) ∈ K) :
    Safe S K (hasEntry o e) fun _ => [] := by
  refine .bind (safe_component ho) fun x => .anyM fun i hi => ?_
  exact .bind (safe_entry (by simp [hi])) fun _ => .pure (by simp)

theorem safe_dropEntries {o c : ComponentId} (ho : .has (.component o) ∈ K) :
    Safe S K (dropEntries o c) fun _ => [] := by
  intro s hs
  have hnew := hs.facts _ ho
  obtain ⟨x, hx⟩ := Arena.exists_get? hnew.2
  rw [dropEntries, wp_bind, wp_component hx, wp_bind]
  refine wp_mono (wp_filterM fun e _ => ?_) (fun kept t ht => ?_) fun _ _ h => h
  · rw [wp_bind]
    refine wp_entry_of (fun y _ => ?_) trivial
    cases y.drivingExit with
    | none => rfl
    | some d =>
        rw [wp_bind]
        exact wp_exit_of (fun _ _ => rfl) trivial
  · obtain ⟨rfl, hkept⟩ := ht
    rw [wp_changeComponent hnew.2]
    refine hs.calm ?_ ?_ ⟨sameShape_modifyComponent fun _ _ => rfl, rfl,
      stances_modify fun _ _ => rfl⟩
    · refine hs.sound.linked.modifyComponent hnew.1 fun y hy hl => ?_
      cases hx.symm.trans hy
      obtain ⟨howner, hports, hexits, hentries, hinterior⟩ := Component.forall_refs.mp hl.refs
      exact ⟨Component.forall_refs.mpr ⟨howner, hports, hexits, fun e he => hentries e (hkept e he),
        hinterior⟩, hl.kind, hl.ports, hl.exits, fun e he => hl.entries e (hkept e he)⟩
    · refine { Grows.refl t.state with components := ?_ }
      simp

/-! ### Feedback -/

theorem mem_insertAscending {c d : ComponentId} {cs : List ComponentId} :
    d ∈ insertAscending c cs ↔ d = c ∨ d ∈ cs := by
  induction cs with
  | nil => simp [insertAscending]
  | cons e es ih =>
      simp only [insertAscending]
      split
      · simp
      split
      · next heq => simp [heq]
      · simp [ih, or_left_comm]

theorem ComponentLinked.changeInterior {pins : Nat} {base n : Netlist} {c : ComponentId}
    {x : Component} {f : Interior → Interior} (h : ComponentLinked pins base n c x)
    (hf : ∀ i, (∀ r ∈ i.refs, r.New base n) → ∀ r ∈ (f i).refs, r.New base n) :
    ComponentLinked pins base n c { x with interior := x.interior.map f } := by
  obtain ⟨howner, hports, hexits, hentries, hinterior⟩ := Component.forall_refs.mp h.refs
  refine { h with
    refs := Component.forall_refs.mpr ⟨howner, hports, hexits, hentries, fun j hj => ?_⟩ }
  obtain ⟨i, hi, rfl⟩ := Option.map_eq_some_iff.mp hj
  exact hf i (hinterior i hi)

theorem safe_addFeedbackPoint {m c : ComponentId} (hm : .has (.component m) ∈ K)
    (hc : .has (.component c) ∈ K) : Safe S K (addFeedbackPoint m c) fun _ => [] := by
  refine .guarded (.bind (safe_component hc) fun x => ?_) fun s hs =>
    hs.edit (.feedback m c) (by simp [Edit.refs, hm, hc]) fun _ => trivial
  have hmark : ∀ K', .has (.component m) ∈ K' → .has (.component c) ∈ K' →
      Safe S.unguarded K' (changeInterior m fun i =>
        { i with feedback := insertAscending c i.feedback }) fun _ => [] := by
    intro K' hm hc
    refine .bind (safe_interior hm) fun _ => safe_changeComponent (by simp [hm]) ?_ ?_
      (.inl S.open_unguarded)
    · intro n y hn _ hl
      refine hl.changeInterior fun i hi => Interior.forall_refs.mpr ?_
      obtain ⟨hin, hchildren, hfeedback⟩ := Interior.forall_refs.mp hi
      refine ⟨hin, hchildren, fun d hd => ?_⟩
      rcases mem_insertAscending.mp hd with rfl | hd
      · exact hn.facts (.has (.component d)) (by simp [hc])
      · exact hfeedback d hd
    · intro n y _ _
      cases hi : y.interior <;> simp [Component.shape, hi]
  split
  · exact .bind (safe_component (by simp [hm])) fun _ => .bind (P := fun _ => []) (.abort _)
      fun _ => hmark _ (by simp [hm]) (by simp [hc])
  · exact hmark _ (by simp [hm]) (by simp [hc])

end DataflowSynth.Netlist
