/-
What can be done to a netlist from outside, and which netlists there can be.

A call works on handles of things that are there.  It may be aborted, and nothing is said about what
it leaves then; it may also fail with an error, and the netlist it leaves is used on.
-/
import DataflowSynth.Proofs.Netlist.Builders
import DataflowSynth.Proofs.Netlist.Copies

namespace DataflowSynth

/-- What a step leaves when it is not aborted. -/
def Build.Leaves {σ α : Type} (x : Build σ α) (s t : σ) : Prop :=
  ∃ j j', (∃ a, x ⟨s, j⟩ = .ok a ⟨t, j'⟩) ∨ ∃ e, x ⟨s, j⟩ = .error (.error e) ⟨t, j'⟩

/-- The step ends with this result and leaves this state. -/
def Build.Yields {σ α : Type} (x : Build σ α) (s : σ) (a : α) (t : σ) : Prop :=
  ∃ j j', x ⟨s, j⟩ = .ok a ⟨t, j'⟩

/-- A step that is run to its end. -/
theorem Build.leaves_run {σ : Type} {x : Build σ Unit} {s : σ}
    (hok : (x.run ⟨s, #[]⟩).1.isOk = true) : x.Leaves s (x.run ⟨s, #[]⟩).2.state := by
  refine ⟨#[], (x.run ⟨s, #[]⟩).2.journal, .inl ⟨(), ?_⟩⟩
  unfold Build.run at hok ⊢
  cases hrun : x ⟨s, #[]⟩ with
  | ok a t => rfl
  | error e t => simp [hrun, Except.isOk, Except.toBool] at hok

namespace Netlist

open Build

/-- The handle stands for something. -/
def Ref.In (n : Netlist) : Ref → Prop
  | .component c => c.index < n.components.size
  | .port p => p.index < n.ports.size
  | .bus b => b.index < n.buses.size
  | .exit x => x.index < n.exits.size
  | .entry e => e.index < n.entries.size

instance (n : Netlist) : (r : Ref) → Decidable (r.In n)
  | .component c => inferInstanceAs (Decidable (c.index < n.components.size))
  | .port p => inferInstanceAs (Decidable (p.index < n.ports.size))
  | .bus b => inferInstanceAs (Decidable (b.index < n.buses.size))
  | .exit x => inferInstanceAs (Decidable (x.index < n.exits.size))
  | .entry e => inferInstanceAs (Decidable (e.index < n.entries.size))

/-- Beyond the empty netlist is everything. -/
theorem Ref.new_empty {n : Netlist} {r : Ref} : r.New {} n ↔ r.In n := by
  cases r <;> exact and_iff_right (Nat.zero_le _)

/-! ### Calls -/

/-- The steps on a netlist, with what they are told. -/
inductive Call where
  | newComponent (kind : ComponentKind) (stem : String) (data : Nat)
  | newModule (kind : ModuleKind) (stem : String) (data : Nat)
  | newGate (gate : Gate) (stem : String) (inputs : Nat)
  | newReg (kind : RegKind) (stem : String) (signal : Signal)
  | newPinRead (pin : PinId) (signal : Signal)
  | newPinWrite (pin : PinId) (signal : Signal)
  | newCast (signal : Signal)
  | newConstant (value : Int64) (width : UInt32)
  | makeDataPort (c : ComponentId) (name : String)
  | makeThisPort (c : ComponentId)
  | makeExit (c : ComponentId) (data : Nat) (tag : ExitTag)
  | makeDataBus (x : ExitId) (name : String)
  | removeExit (c : ComponentId) (tag : ExitTag)
  | setBus (p : PortId) (b : Option BusId)
  | setPortSignal (p : PortId) (signal : Signal)
  | setBusSignal (b : BusId) (signal : Signal)
  | setPortSideband (p : PortId) (on : Bool)
  | setBusSideband (b : BusId) (on : Bool)
  | setLatency (x : ExitId) (latency : Latency)
  | setConsumesClock (c : ComponentId) (on : Bool)
  | setConsumesReset (c : ComponentId) (on : Bool)
  | setConsumesGo (c : ComponentId) (on : Bool)
  | setProducesDone (c : ComponentId) (on : Bool)
  | setDoneSynchronous (c : ComponentId) (on : Bool)
  | disconnect (c : ComponentId)
  | makeEntry (c : ComponentId) (drivingExit : Option ExitId)
  | addDependency (e : EntryId) (p : PortId) (d : Dependency)
  | addComponent (m c : ComponentId)
  | addComponents (m : ComponentId) (cs : List ComponentId)
  | removeComponent (m c : ComponentId)
  | replaceComponent (m old new : ComponentId)
  | mergeExits (m : ComponentId) (cs : List ComponentId)
  | addFeedbackPoint (m c : ComponentId)
  | clone (c : ComponentId)
  | readToken (f : Fifo)
  | writeToken (f : Fifo)
  | sampleStatus (f : Fifo)
  | access (f : Fifo) (kind : AccessKind)
  | newRead (memory : UInt32) (signal : Signal) (latency : Latency)
  | makePhysical (c : ComponentId)

namespace Call

def run : Call → Step Unit
  | .newComponent kind stem data => discard (Netlist.newComponent kind stem data)
  | .newModule kind stem data => discard (Netlist.newModule kind stem data)
  | .newGate gate stem inputs => discard (Netlist.newGate gate stem inputs)
  | .newReg kind stem signal => discard (Netlist.newReg kind stem signal)
  | .newPinRead pin signal => discard (Netlist.newPinRead pin signal)
  | .newPinWrite pin signal => discard (Netlist.newPinWrite pin signal)
  | .newCast signal => discard (Netlist.newCast signal)
  | .newConstant value width => discard (Netlist.newConstant value width)
  | .makeDataPort c name => discard (Netlist.makeDataPort c name)
  | .makeThisPort c => discard (Netlist.makeThisPort c)
  | .makeExit c data tag => discard (Netlist.makeExit c data tag)
  | .makeDataBus x name => discard (Netlist.makeDataBus x name)
  | .removeExit c tag => discard (Netlist.removeExit c tag)
  | .setBus p b => Netlist.setBus p b
  | .setPortSignal p signal => Netlist.setPortSignal p signal
  | .setBusSignal b signal => Netlist.setBusSignal b signal
  | .setPortSideband p on => changePort p fun y => { y with sideband := on }
  | .setBusSideband b on => changeBus b fun z => { z with sideband := on }
  | .setLatency x latency => changeExit x fun e => { e with latency }
  | .setConsumesClock c on => Netlist.setConsumesClock c on
  | .setConsumesReset c on => Netlist.setConsumesReset c on
  | .setConsumesGo c on => Netlist.setConsumesGo c on
  | .setProducesDone c on => Netlist.setProducesDone c on
  | .setDoneSynchronous c on => changeComponent c fun x => { x with doneSynchronous := on }
  | .disconnect c => Netlist.disconnect c
  | .makeEntry c drivingExit => discard (Netlist.makeEntry c drivingExit)
  | .addDependency e p d => Netlist.addDependency e p d
  | .addComponent m c => Netlist.addComponent m c
  | .addComponents m cs => Netlist.addComponents m cs
  | .removeComponent m c => discard (Netlist.removeComponent m c)
  | .replaceComponent m old new => discard (Netlist.replaceComponent m old new)
  | .mergeExits m cs => Netlist.mergeExits m cs
  | .addFeedbackPoint m c => Netlist.addFeedbackPoint m c
  | .clone c => discard (Netlist.clone c)
  | .readToken f => discard f.readToken
  | .writeToken f => discard f.writeToken
  | .sampleStatus f => discard f.sampleStatus
  | .access f kind => discard (f.access kind)
  | .newRead memory signal latency => discard (Memory.newRead memory signal latency)
  | .makePhysical c => discard (Memory.makePhysical c)

/-- The handles that a call is told. -/
def refs : Call → List Ref
  | .newComponent kind _ _ => kind.components.map .component
  | .newModule kind _ _ => (ComponentKind.module kind).components.map .component
  | .newGate .. | .newReg .. | .newPinRead .. | .newPinWrite .. | .newCast .. | .newConstant ..
  | .readToken _ | .writeToken _ | .sampleStatus _ | .access .. | .newRead .. => []
  | .makeDataPort c _ | .makeThisPort c | .makeExit c _ _ | .removeExit c _
  | .setConsumesClock c _ | .setConsumesReset c _ | .setConsumesGo c _ | .setProducesDone c _
  | .setDoneSynchronous c _ | .disconnect c | .clone c | .makePhysical c => [.component c]
  | .makeDataBus x _ | .setLatency x _ => [.exit x]
  | .setBus p b => .port p :: b.toList.map .bus
  | .setPortSignal p _ | .setPortSideband p _ => [.port p]
  | .setBusSignal b _ | .setBusSideband b _ => [.bus b]
  | .makeEntry c drivingExit => .component c :: drivingExit.toList.map .exit
  | .addDependency e p d => [.entry e, .port p, .bus d.bus]
  | .addComponent m c | .removeComponent m c | .addFeedbackPoint m c => [.component m, .component c]
  | .addComponents m cs | .mergeExits m cs => .component m :: cs.map .component
  | .replaceComponent m old new => [.component m, .component old, .component new]

def pins : Call → List PinId
  | .newComponent kind _ _ => kind.pins
  | .newPinRead pin _ | .newPinWrite pin _ => [pin]
  | .readToken f | .writeToken f | .sampleStatus f | .access f _ => f.pins.toList
  | _ => []

/-- The component, or the exit, that a call gives terminals or takes them from. -/
def reshaped? : Call → Option Ref
  | .makeDataPort c _ | .makeThisPort c | .makeExit c _ _ | .removeExit c _ | .mergeExits c _ =>
    some (.component c)
  | .makeDataBus x _ => some (.exit x)
  | _ => none

/-- The component whose go and done marks a call sets. -/
def marked? : Call → Option ComponentId
  | .setConsumesGo c _ | .setProducesDone c _ => some c
  | _ => none

/-- Everything that the call is told stands for something; there are so many pins. -/
structure Fits (pins : Nat) (n : Netlist) (call : Call) : Prop where
  refs : ∀ r ∈ call.refs, r.In n
  pins : ∀ p ∈ call.pins, p.index < pins

instance (pins : Nat) (n : Netlist) (call : Call) : Decidable (call.Fits pins n) :=
  decidable_of_iff ((∀ r ∈ call.refs, r.In n) ∧ ∀ p ∈ call.pins, p.index < pins)
    ⟨fun h => ⟨h.1, h.2⟩, fun h => ⟨h.refs, h.pins⟩⟩

/-- The call is not aimed at the terminals of an InBuf or OutBuf. -/
def Spares (n : Netlist) (call : Call) : Prop :=
  match call.reshaped? with
  | some (.component c) => ∀ x, n.components.get? c = some x → x.kind.isBuffer = false
  | some (.exit e) => ∀ y x, n.exits.get? e = some y → n.components.get? y.owner = some x →
      x.kind.isBuffer = false
  | _ => True

/-- The call does not set marks of an InBuf or OutBuf. -/
def SparesMarks (n : Netlist) (call : Call) : Prop :=
  ∀ c, call.marked? = some c → ∀ x, n.components.get? c = some x → x.kind.isBuffer = false

instance (n : Netlist) (call : Call) : Decidable (call.SparesMarks n) :=
  decidable_of_iff (∀ c ∈ call.marked?, ∀ x ∈ n.components.get? c, x.kind.isBuffer = false) Iff.rfl

instance (n : Netlist) (call : Call) : Decidable (call.Spares n) := by
  unfold Spares
  exact match call.reshaped? with
    | some (.component c) =>
        inferInstanceAs (Decidable (∀ x ∈ n.components.get? c, x.kind.isBuffer = false))
    | some (.exit e) => decidable_of_iff
        (∀ y ∈ n.exits.get? e, ∀ x ∈ n.components.get? y.owner, x.kind.isBuffer = false)
        ⟨fun h y x hy hx => h y hy x hx, fun h y hy x hx => h y x hy hx⟩
    | some (.port _) | some (.bus _) | some (.entry _) | none => .isTrue trivial

theorem reshaped_mem_refs (call : Call) {r : Ref} (h : call.reshaped? = some r) :
    r ∈ call.refs := by
  cases call <;> simp_all [reshaped?, refs]

theorem marked_mem_refs (call : Call) {c : ComponentId} (h : call.marked? = some c) :
    .component c ∈ call.refs := by
  cases call <;> simp_all [marked?, refs]

/-- What has to be known before a call. -/
def facts (call : Call) : List Fact :=
  call.refs.map .has ++
    match call.reshaped? with
    | some (.component c) => [.plain c]
    | some (.exit e) => [.plainExit e]
    | _ => []

/-- What has to be known in addition where marks are watched. -/
def marks (call : Call) : List Fact := call.marked?.toList.map .plain

variable {S : Scope}

/-- Results are of no interest once they are dropped. -/
theorem safe_drop {α : Type} {K : List Fact} {x : Step α} {P : α → List Fact} (hx : Safe S K x P) :
    Safe S K (discard x) fun _ => [] :=
  .discard (hx.weaken (fun _ h => h) (by simp))

theorem fitsIn_refs {K : List Fact} {kind : ComponentKind}
    (hrefs : ∀ c ∈ kind.components, .has (.component c) ∈ K)
    (hpins : ∀ p ∈ kind.pins, p.index < S.pins) : kind.FitsIn S K :=
  fun _ hn => ⟨fun c hc => (hn.facts _ (hrefs c hc)).2, hpins⟩

theorem safe_run (hq : ¬ S.quiet) (hmute : ¬ S.mute) (hfitting : S.Fitting) (call : Call)
    (hpins : ∀ p ∈ call.pins, p.index < S.pins) (hfirm : S.guard.firm → call.marked? = none) :
    Safe S call.facts call.run fun _ => [] := by
  cases call with
  | newComponent kind stem data =>
      exact safe_drop (safe_newComponent hq (fitsIn_refs (by simp +contextual [facts, refs]) hpins) stem
        data)
  | newModule kind stem data =>
      exact safe_drop (safe_newModule hq (fitsIn_refs (by simp +contextual [facts, refs])
        (by simp [ComponentKind.pins])) stem data)
  | newGate gate stem inputs => exact safe_drop (safe_newGate hq gate stem inputs)
  | newReg kind stem signal => exact safe_drop (safe_newReg hq kind stem signal)
  | newPinRead pin signal => exact safe_drop (safe_newPinRead hq (hpins pin (by simp [pins])) signal)
  | newPinWrite pin signal =>
      exact safe_drop (safe_newPinWrite hq (hpins pin (by simp [pins])) signal)
  | newCast signal => exact safe_drop (safe_newCast hq signal)
  | newConstant value width => exact safe_drop (safe_newConstant hq value width)
  | makeDataPort c name =>
      exact safe_drop (safe_makeDataPort hq (by simp [facts, refs]) (by simp [facts, reshaped?]) name)
  | makeThisPort c =>
      exact safe_drop (safe_makeThisPort hq (by simp [facts, refs]) (by simp [facts, reshaped?]))
  | makeExit c data tag =>
      exact safe_drop (safe_makeExit hq (by simp [facts, refs]) (by simp [facts, reshaped?]) data tag)
  | makeDataBus x name =>
      exact safe_drop (safe_makeDataBus hq (by simp [facts, refs]) (by simp [facts, reshaped?]) name)
  | removeExit c tag =>
      exact safe_drop (safe_removeExit hq (by simp [facts, refs]) (by simp [facts, reshaped?]) tag)
  | setBus p b => exact safe_setBus (by simp [facts, refs]) (by simp +contextual [facts, refs])
  | setPortSignal p signal => exact safe_setPortSignal (by simp [facts, refs]) signal
  | setBusSignal b signal => exact safe_setBusSignal (by simp [facts, refs]) signal
  | setPortSideband p on =>
      exact safe_changePort (by simp [facts, refs]) (fun _ => rfl) fun _ => rfl
  | setBusSideband b on =>
      exact safe_changeBus (by simp [facts, refs]) (fun _ => rfl) fun _ => rfl
  | setLatency x latency => exact safe_changeExit (by simp [facts, refs]) fun _ => rfl
  | setConsumesClock c on => exact safe_setConsumesClock (by simp [facts, refs]) on
  | setConsumesReset c on => exact safe_setConsumesReset (by simp [facts, refs]) on
  | setConsumesGo c on => 
      exact safe_setConsumesGo (by simp [facts, refs]) on fun h => by cases hfirm h
  | setProducesDone c on => 
      exact safe_setProducesDone (by simp [facts, refs]) on fun h => by cases hfirm h
  | setDoneSynchronous c on =>
      exact safe_mark (by simp [facts, refs]) (fun _ => ⟨rfl, rfl, rfl, rfl, rfl⟩) (.inr fun _ => rfl)
  | disconnect c => exact safe_disconnect (by simp [facts, refs])
  | makeEntry c drivingExit =>
      exact safe_drop (safe_makeEntry (by simp [facts, refs]) (by simp +contextual [facts, refs]))
  | addDependency e p d =>
      exact safe_addDependency (by simp [facts, refs]) (by simp [facts, refs]) (by simp [facts, refs])
  | addComponent m c => exact safe_addComponent hq (by simp [facts, refs]) (by simp [facts, refs])
  | addComponents m cs =>
      exact safe_addComponents hq (by simp [facts, refs]) (by simp +contextual [facts, refs])
  | removeComponent m c =>
      exact safe_drop (safe_removeComponent hq (by simp [facts, refs]) (by simp [facts, refs]))
  | replaceComponent m old new =>
      exact safe_drop (safe_replaceComponent hq (by simp [facts, refs]) (by simp [facts, refs])
        (by simp [facts, refs]))
  | mergeExits m cs =>
      exact safe_mergeExits hq (by simp [facts, refs]) (by simp [facts, reshaped?])
        (by simp +contextual [facts, refs])
  | addFeedbackPoint m c =>
      exact safe_addFeedbackPoint (by simp [facts, refs]) (by simp [facts, refs])
  | clone c => exact safe_drop (safe_clone hq hmute hfitting c)
  | readToken f => exact safe_drop (Fifo.safe_readToken hq hpins)
  | writeToken f => exact safe_drop (Fifo.safe_writeToken hq hpins)
  | sampleStatus f => exact safe_drop (Fifo.safe_sampleStatus hq hpins hmute)
  | access f kind => exact safe_drop (Fifo.safe_access hq hpins hmute kind)
  | newRead memory signal latency => exact safe_drop (Memory.safe_newRead hq memory signal latency)
  | makePhysical c => exact safe_drop (Memory.safe_makePhysical hq hmute (by simp [facts, refs]))

/-- Marks that are watched may be set where no buffer is. -/
theorem safe_run_marks (hq : ¬ S.quiet) (hmute : ¬ S.mute) (hfitting : S.Fitting) (call : Call)
    (hpins : ∀ p ∈ call.pins, p.index < S.pins) :
    Safe S (call.marks ++ call.facts) call.run fun _ => [] := by
  cases hmarked : call.marked? with
  | none =>
      exact (call.safe_run hq hmute hfitting hpins fun _ => hmarked).weaken
        (fun f hf => List.mem_append_right _ hf) (by simp)
  | some c =>
      cases call with
      | setConsumesGo d on =>
          exact safe_setConsumesGo (by simp [facts, refs]) on fun _ => by simp [marks, marked?]
      | setProducesDone d on =>
          exact safe_setProducesDone (by simp [facts, refs]) on fun _ => by simp [marks, marked?]
      | _ => simp [marked?] at hmarked

end Call

/-! ### Netlists that can be reached -/

/-- All of a netlist is watched, with something else. -/
def Scope.guarded {strict : Prop} (G : Guard {} strict) (pins : Nat) : Scope :=
  ⟨pins, {}, strict, False, False, G⟩

/-- All of a netlist is watched. -/
def Scope.whole (strict : Prop) (pins : Nat) : Scope := .guarded (.none {} strict) pins

theorem Scope.fitting_guarded {strict : Prop} (G : Guard {} strict) (pins : Nat) :
    (Scope.guarded G pins).Fitting :=
  fun _ hn c x hx => (hn.linked.components c x hx (Nat.zero_le _)).kind

/-- Only InBufs and OutBufs stand at a boundary. -/
theorem Shaped.isBuffer_kind {base n : Netlist} (h : Shaped base n) {c : ComponentId}
    {x : Component} (hx : n.components.get? c = some x) (hc : IsBuffer base n c) :
    x.kind.isBuffer = true := by
  rcases hc with ⟨m, y, i, hy, hle, hi, rfl⟩ | ⟨e, y, hy, hle, hpeer⟩
  · obtain ⟨b, e, z, hb, -, hshape⟩ := ((h.components m y hy hle).interior i hi).inBuf
    cases hx.symm.trans hb
    simp [hshape.kind, ComponentKind.isBuffer]
  · obtain ⟨b, hb, hshape⟩ := (h.exits e y hy hle).outBuf c hpeer
    cases hx.symm.trans hb
    simp [hshape.kind, ComponentKind.isBuffer]

variable {strict : Prop} {G : Guard {} strict} {pins : Nat} {n n' : Netlist}

/-- Netlists that calls lead to.  If `strict`, none is aimed at the terminals of a buffer. -/
inductive Reached (strict : Prop) (pins : Nat) : Netlist → Prop where
  | empty : Reached strict pins {}
  | call {n n' : Netlist} (call : Call) (before : Reached strict pins n) (fits : call.Fits pins n)
      (spares : strict → call.Spares n) (leaves : call.run.Leaves n n') : Reached strict pins n'

/-- A call that is run to its end. -/
theorem Reached.after (h : Reached strict pins n) (call : Call) (hf : call.Fits pins n)
    (hs : strict → call.Spares n) (hok : (call.run.run ⟨n, #[]⟩).1.isOk = true) :
    Reached strict pins (call.run.run ⟨n, #[]⟩).2.state :=
  .call call h hf hs (Build.leaves_run hok)

theorem Call.Fits.knows {call : Call} (hf : call.Fits pins n) (hs : strict → call.Spares n)
    (hn : (Scope.guarded G pins).Sound n) : (Scope.guarded G pins).Knows call.facts n := by
  refine ⟨hn, fun f hmem => ?_⟩
  have hnew : ∀ r ∈ call.refs, r.New {} n := fun r hr => Ref.new_empty.mpr (hf.refs r hr)
  rcases List.mem_append.mp hmem with hmem | hmem
  · obtain ⟨r, hr, rfl⟩ := List.mem_map.mp hmem
    exact hnew r hr
  · split at hmem
    · next c hc =>
      obtain rfl := List.mem_singleton.mp hmem
      have hin := hnew _ (call.reshaped_mem_refs hc)
      refine ⟨hin, fun hstrict hbuf => ?_⟩
      obtain ⟨x, hx⟩ := Arena.exists_get? hin.2
      have hkind := hs hstrict
      simp only [Spares, hc] at hkind
      exact absurd ((hn.shaped hstrict).isBuffer_kind hx hbuf) (by simp [hkind x hx])
    · next e he =>
      obtain rfl := List.mem_singleton.mp hmem
      have hin := hnew _ (call.reshaped_mem_refs he)
      refine ⟨hin, fun hstrict y hy hbuf => ?_⟩
      have howner := (Exit.forall_refs.mp (hn.linked.exits e y hy hin.1).refs).1
      obtain ⟨x, hx⟩ := Arena.exists_get? howner.2
      have hkind := hs hstrict
      simp only [Spares, he] at hkind
      exact absurd ((hn.shaped hstrict).isBuffer_kind hx hbuf) (by simp [hkind y x hy hx])
    · simp at hmem

theorem Call.Fits.knows_marks {call : Call} (hf : call.Fits pins n) (hs : strict → call.Spares n)
    (hm : call.SparesMarks n) (hn : (Scope.guarded G pins).Sound n) :
    (Scope.guarded G pins).Knows (call.marks ++ call.facts) n := by
  have hknows := hf.knows hs hn
  refine ⟨hn, fun f hmem => ?_⟩
  rcases List.mem_append.mp hmem with hmem | hmem
  · obtain ⟨c, hc, rfl⟩ := List.mem_map.mp hmem
    have hmarked : call.marked? = some c := Option.mem_toList.mp hc
    have hin : Ref.New {} n (.component c) :=
      Ref.new_empty.mpr (hf.refs _ (call.marked_mem_refs hmarked))
    refine ⟨hin, fun hstrict hbuf => ?_⟩
    obtain ⟨x, hx⟩ := Arena.exists_get? hin.2
    exact absurd ((hn.shaped hstrict).isBuffer_kind hx hbuf) (by simp [hm c hmarked x hx])
  · exact hknows.facts f hmem

theorem Call.sound (call : Call) (hf : call.Fits pins n) (hs : strict → call.Spares n)
    (hm : G.firm → call.SparesMarks n) (hn : (Scope.guarded G pins).Sound n)
    (hl : call.run.Leaves n n') : (Scope.guarded G pins).Sound n' := by
  obtain ⟨j, j', hl⟩ := hl
  have hrun : wp call.run (fun _ t => (Scope.guarded G pins).Sound t.state)
      (fun e t => e.Unless ((Scope.guarded G pins).Sound t.state)) ⟨n, j⟩ := by
    have hclose : ∀ {K}, Safe (.guarded G pins) K call.run (fun _ => []) →
        (Scope.guarded G pins).Knows K n → wp call.run
          (fun _ t => (Scope.guarded G pins).Sound t.state)
          (fun e t => e.Unless ((Scope.guarded G pins).Sound t.state)) ⟨n, j⟩ := by
      intro K hsafe hknows
      refine wp_mono (hsafe ⟨n, j⟩ hknows) (fun _ _ h => h.1.sound) fun e t h => ?_
      cases e with
      | abort => trivial
      | error => exact h.2.1
    by_cases hfirm : G.firm
    · exact hclose (call.safe_run_marks id id (Scope.fitting_guarded G pins) hf.pins)
        (hf.knows_marks hs (hm hfirm) hn)
    · exact hclose (call.safe_run id id (Scope.fitting_guarded G pins) hf.pins fun h => absurd h hfirm)
        (hf.knows hs hn)
  unfold wp at hrun
  rcases hl with ⟨a, ha⟩ | ⟨e, he⟩
  · rw [ha] at hrun
    exact hrun
  · rw [he] at hrun
    exact hrun

theorem Reached.guarded (h : Reached strict pins n) (hfirm : ¬ G.firm) (hempty : G.holds {}) :
    (Scope.guarded G pins).Sound n := by
  induction h with
  | empty => exact ⟨.refl pins {}, fun _ => .refl {}, hempty⟩
  | call call _ fits spares leaves ih =>
      exact call.sound fits spares (fun h => absurd h hfirm) ih leaves

theorem Reached.sound (h : Reached strict pins n) : (Scope.whole strict pins).Sound n :=
  h.guarded id trivial

end Netlist

end DataflowSynth
