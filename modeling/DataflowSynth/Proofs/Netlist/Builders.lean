/-
Builders keep links and shapes.

Primitives, the accessors of FIFOs and the modules that read memories are put together from the steps
on terminals, children and connections, and need nothing beyond what these establish.
-/
import DataflowSynth.Fifo.Accessor
import DataflowSynth.Memory.Read
import DataflowSynth.Proofs.Netlist.Children

namespace DataflowSynth.Netlist

open Build

variable {S : Scope} {K : List Fact}

/-! ### Primitives -/

theorem ComponentKind.fitsIn_of_pin {kind : ComponentKind} {pin : PinId} (hpin : pin.index < S.pins)
    (hc : kind.components = []) (hp : kind.pins = [pin]) : kind.FitsIn S K :=
  fun _ _ => ⟨by simp [hc], by simpa [hp]⟩

section

variable (hq : ¬ S.quiet)

include hq

theorem safe_newPrimitive {kind : ComponentKind} (hkind : kind.FitsIn S K) (stem : String)
    (inputs : Nat) (result : Signal) :
    Safe S K (newPrimitive kind stem inputs result) fun c => newFacts c kind :=
  .bind (safe_newComponent hq hkind stem inputs) fun c => .bind
    (safe_makeExit hq (by simp [newFacts]) (by simp [newFacts]) 1 .done) fun _ => .bind
    (safe_resultBus (by simp [newFacts])) fun _ => .bind
    (safe_setBusSignal (by simp) result) fun _ => .pure (by simp +contextual)

theorem safe_newGate (g : Gate) (stem : String) (inputs : Nat) :
    Safe S K (newGate g stem inputs) fun c => newFacts c g.kind := by
  have hkind : g.kind.FitsIn S K :=
    ComponentKind.fitsIn_of_none (by cases g <;> rfl) (by cases g <;> rfl)
  refine .bind (safe_newPrimitive hq hkind stem inputs .bit) fun c => .bind
    (safe_component (by simp [newFacts])) fun x => .bind (.forM fun p hp => ?_) fun _ =>
    .pure (by simp +contextual)
  exact safe_setPortSignal (by simp [Component.mem_ports_of_data hp]) _

theorem safe_newReg (kind : RegKind) (stem : String) (signal : Signal) :
    Safe S K (newReg kind stem signal) fun c => newFacts c (.reg kind) :=
  .bind (safe_newPrimitive hq (ComponentKind.fitsIn_of_none rfl rfl) stem 0 signal) fun c => .bind
    (safe_makeDataPort hq (by simp [newFacts]) (by simp [newFacts]) "d") fun _ => .bind
    (safe_setPortSignal (by simp) signal) fun _ => .bind
    (safe_makeDataPort hq (by simp [newFacts]) (by simp [newFacts]) "set") fun _ => .bind
    (safe_setPortSignal (by simp) .bit) fun _ => .bind
    (safe_makeDataPort hq (by simp [newFacts]) (by simp [newFacts]) "internal_reset") fun _ => .bind
    (safe_setPortSignal (by simp) .bit) fun _ => .bind
    (safe_mark (by simp [newFacts]) (fun _ => ⟨rfl, rfl, rfl, rfl, rfl⟩) (.inr fun _ => rfl)) fun _ =>
    .pure (by simp +contextual)

theorem safe_newPinRead {pin : PinId} (hpin : pin.index < S.pins) (signal : Signal) :
    Safe S K (newPinRead pin signal) fun c => newFacts c (.pinRead pin) :=
  safe_newPrimitive hq (ComponentKind.fitsIn_of_pin hpin rfl rfl) "pinRead" 0 signal

omit hq in
/-- A component that is no module waits for go. -/
theorem safe_wait {c : ComponentId} (kind : ComponentKind) (hc : .has (.component c) ∈ K)
    (hplain : .plain c ∈ K) (hkinded : .kinded c kind ∈ K) (hkind : kind.isModule = false) :
    Safe S K (changeComponent c fun x => { x with consumesGo := true }) fun _ => [] := by
  refine .guarded (safe_mark hc (fun _ => ⟨rfl, rfl, rfl, rfl, rfl⟩) (.inl S.open_unguarded))
    fun s hs => hs.edit (.wait c) (by simp [Edit.refs, hc]) fun hstrict =>
      ⟨(hs.facts _ hplain).2 hstrict, fun x hx => ?_⟩
  obtain ⟨y, hy, hyk⟩ := hs.facts _ hkinded
  cases hx.symm.trans hy
  cases hi : x.interior with
  | none => rfl
  | some i =>
      have hshape := (hs.sound.shaped hstrict).components c x hx (hs.facts _ hc).1
      have hmodule := (hshape.interior i hi).kind
      rw [← isModule_plain, hyk, hkind] at hmodule
      cases hmodule

theorem safe_newPinWrite {pin : PinId} (hpin : pin.index < S.pins) (signal : Signal) :
    Safe S K (newPinWrite pin signal) fun c => newFacts c (.pinWrite pin) :=
  .bind (safe_newComponent hq (ComponentKind.fitsIn_of_pin hpin rfl rfl) "pinWrite" 1) fun c => .bind
    (safe_dataPort (by simp [newFacts]) 0) fun _ => .bind
    (safe_setPortSignal (by simp) signal) fun _ => .bind
    (safe_makeExit hq (by simp [newFacts]) (by simp [newFacts]) 0 .done) fun _ => .bind
    (safe_wait (.pinWrite pin) (by simp [newFacts]) (by simp [newFacts])
      (by simp [newFacts, ComponentKind.plain]) rfl) fun _ =>
    .pure (by simp +contextual)

theorem safe_newCast (signal : Signal) : Safe S K (newCast signal) fun c =>
    newFacts c (.cast signal.width signal.signed) :=
  safe_newPrimitive hq (ComponentKind.fitsIn_of_none rfl rfl) "cast" 1 signal

theorem safe_newConstant (value : Int64) (width : UInt32) :
    Safe S K (newConstant value width) fun c => newFacts c (.constant value width) :=
  safe_newPrimitive hq (ComponentKind.fitsIn_of_none rfl rfl) "const" 0 _

end

end DataflowSynth.Netlist

namespace DataflowSynth.Fifo

open Build Netlist

variable {S : Scope} {K : List Fact}

/-! ### Accessors of FIFOs -/

theorem safe_wire {c : ComponentId} {b : BusId} (hc : .has (.component c) ∈ K)
    (hb : .has (.bus b) ∈ K) (index : Nat) : Safe S K (wire c index b) fun _ => [] :=
  .bind (safe_dataPort hc index) fun _ => safe_setBus (by simp) (by simp [hb])

theorem safe_wireFrom {c : ComponentId} {bs : List BusId} (hc : .has (.component c) ∈ K)
    (hbs : ∀ b ∈ bs, .has (.bus b) ∈ K) (index : Nat) :
    Safe S K (wireFrom c index bs) fun _ => [] := by
  induction bs generalizing index K with
  | nil => exact .pure (by simp)
  | cons b bs ih =>
      refine .bind (safe_wire hc (hbs b (by simp)) index) fun _ => ih (by simp [hc]) ?_ (index + 1)
      intro d hd
      simp [hbs d (by simp [hd])]

theorem safe_markHandshake {m : ComponentId} (hm : .has (.component m) ∈ K)
    (hplain : .plain m ∈ K) : Safe S K (markHandshake m) fun _ => [] :=
  .bind (safe_mainExit hm) fun e => .bind (safe_changeExit (by simp) fun _ => rfl) fun _ => .bind
    (safe_setConsumesClock (by simp [hm]) true) fun _ => .bind
    (safe_setConsumesReset (by simp [hm]) true) fun _ => .bind
    (safe_setConsumesGo (by simp [hm]) true fun _ => by simp [hplain]) fun _ => .bind
    (safe_setProducesDone (by simp [hm]) true fun _ => by simp [hplain]) fun _ =>
    safe_mark (by simp [hm]) (fun _ => ⟨rfl, rfl, rfl, rfl, rfl⟩) (.inr fun _ => rfl)

section

variable (hq : ¬ S.quiet)

include hq

theorem safe_gate {m : ComponentId} {bs : List BusId} (hm : .has (.component m) ∈ K)
    (hbs : ∀ b ∈ bs, .has (.bus b) ∈ K) (g : Gate) (stem : String) :
    Safe S K (gate m g stem bs) fun b => [.has (.bus b)] :=
  .bind (safe_newGate hq g stem bs.length) fun c => .bind
    (safe_wireFrom (by simp [newFacts]) (fun b hb => by simp [hbs b hb]) 0) fun _ => .bind
    (safe_addComponent hq (by simp [hm]) (by simp [newFacts])) fun _ =>
    (safe_resultBus (by simp [newFacts])).weaken (fun _ h => h) (by simp)

theorem safe_readPin {m : ComponentId} {pin : PinId} (hm : .has (.component m) ∈ K)
    (hpin : pin.index < S.pins) (signal : Signal) :
    Safe S K (readPin m pin signal) fun b => [.has (.bus b)] :=
  .bind (safe_newPinRead hq hpin signal) fun c => .bind
    (safe_addComponent hq (by simp [hm]) (by simp [newFacts])) fun _ =>
    (safe_resultBus (by simp [newFacts])).weaken (fun _ h => h) (by simp)

theorem safe_writePin {m : ComponentId} {pin : PinId} {value go : BusId}
    (hm : .has (.component m) ∈ K) (hpin : pin.index < S.pins) (hvalue : .has (.bus value) ∈ K)
    (hgo : .has (.bus go) ∈ K) (signal : Signal) :
    Safe S K (writePin m pin signal value go) fun _ => [] :=
  .bind (safe_newPinWrite hq hpin signal) fun c => .bind
    (safe_addComponent hq (by simp [hm]) (by simp [newFacts])) fun _ => .bind
    (safe_wire (by simp [newFacts]) (by simp [hvalue]) 0) fun _ => .bind
    (safe_component (by simp [newFacts])) fun x => safe_setBus (by simp) (by simp [hgo])

theorem safe_pendingLogic {m : ComponentId} (hm : .has (.component m) ∈ K) (stem : String) :
    Safe S K (pendingLogic m stem) fun r => [.has (.component r.1), .has (.bus r.2)] :=
  .bind (safe_clockBus hm) fun clock => .bind (safe_resetBus (by simp [hm])) fun reset => .bind
    (safe_goBus (by simp [hm])) fun go => .bind (safe_newReg hq .regR stem .bit) fun flop => .bind
    (safe_component (by simp [newFacts])) fun x => .bind
    (safe_setBus (by simp) (by simp)) fun _ => .bind
    (safe_setBus (by simp) (by simp)) fun _ => .bind
    (safe_dataPort (by simp [newFacts]) 2) fun _ => .bind
    (safe_setBus (by simp) (by simp)) fun _ => .bind
    (safe_newGate hq .or "pending" 2) fun pending => .bind
    (safe_resultBus (by simp [newFacts])) fun _ => .bind
    (safe_wire (by simp [newFacts]) (by simp) 0) fun _ => .bind
    (safe_wire (by simp [newFacts]) (by simp) 1) fun _ => .bind
    (safe_addComponents hq (by simp [hm]) (by simp [newFacts])) fun _ => .bind
    (safe_addFeedbackPoint (by simp [hm]) (by simp [newFacts])) fun _ => .bind
    (safe_resultBus (by simp [newFacts])) fun _ => .pure (by simp [newFacts])

omit hq in
/-- How reads and writes end. -/
theorem safe_close {m outBuf flop : ComponentId} {done next : BusId}
    (hm : .has (.component m) ∈ K) (hplain : .plain m ∈ K)
    (hbuf : .has (.component outBuf) ∈ K) (hflop : .has (.component flop) ∈ K) (hdone : .has (.bus done) ∈ K)
    (hnext : .has (.bus next) ∈ K) : Safe S K (do
      setBus (← component outBuf).go (some done)
      setBus (← regData flop) (some next)
      markHandshake m
      return m) fun m => [.has (.component m)] :=
  .bind (safe_component hbuf) fun _ => .bind (safe_setBus (by simp) (by simp [hdone])) fun _ =>
    .bind (safe_dataPort (by simp [hflop]) 0) fun _ => .bind
    (safe_setBus (by simp) (by simp [hnext])) fun _ => .bind
    (safe_markHandshake (by simp [hm]) (by simp [hplain]))
    fun _ => .pure (by simp [hm])

variable {f : Fifo} (hf : ∀ p ∈ f.pins.toList, p.index < S.pins)

include hf

theorem safe_readToken : Safe S K (readToken f) fun m => [.has (.component m)] := by
  refine .bind (safe_newModule hq (ComponentKind.fitsIn_of_none rfl rfl) _ 0) fun m => .bind
    (safe_makeExit hq (by simp [newFacts]) (by simp [newFacts]) 1 .done) fun _ => .bind
    (safe_resultBus (by simp [newFacts])) fun _ => .bind
    (safe_setBusSignal (by simp) _) fun _ => .bind
    (safe_mainOutBuf (by simp [newFacts])) fun outBuf => .bind
    (safe_pendingLogic hq (by simp [newFacts]) _) fun (flop, pending) => .bind
    (safe_readPin hq (by simp [newFacts]) (hf _ (by simp [FifoPins.toList])) _) fun _ => .bind
    (safe_wire (by simp) (by simp) 0) fun _ => ?_
  simp only
  split
  · exact .bind (P := fun r => [.has (.bus r.1), .has (.bus r.2)]) (.pure (by simp)) fun _ =>
      safe_close (by simp [newFacts]) (by simp [newFacts]) (by simp) (by simp) (by simp) (by simp)
  · refine .bind_expect fun send hsend => .bind
      (safe_readPin hq (by simp [newFacts]) (hf send (by simp [FifoPins.toList, hsend])) _)
      fun ready => .bind (safe_gate hq (by simp [newFacts]) (by simp) .and _) fun done =>
      .bind_expect fun ack hack => .bind (safe_writePin hq (by simp [newFacts])
        (hf ack (by simp [FifoPins.toList, hack])) (by simp) (by simp) _) fun _ => .bind
      (safe_gate hq (by simp [newFacts]) (by simp) .not _) fun notReady => .bind
      (safe_gate hq (by simp [newFacts]) (by simp) .and _) fun next => .bind
      (P := fun r => [.has (.bus r.1), .has (.bus r.2)]) (.pure (by simp)) fun _ => ?_
    exact safe_close (by simp [newFacts]) (by simp [newFacts]) (by simp) (by simp) (by simp) (by simp)

theorem safe_writeToken : Safe S K (writeToken f) fun m => [.has (.component m)] :=
  .bind (safe_newModule hq (ComponentKind.fitsIn_of_none rfl rfl) _ 1) fun m => .bind
    (safe_dataPort (by simp [newFacts]) 0) fun _ => .bind
    (safe_setPortSignal (by simp) _) fun _ => .bind
    (safe_dataBus (by simp [newFacts]) 0) fun data => .bind
    (safe_setBusSignal (by simp) _) fun _ => .bind
    (safe_makeExit hq (by simp [newFacts]) (by simp [newFacts]) 0 .done) fun _ => .bind
    (safe_mainOutBuf (by simp [newFacts])) fun outBuf => .bind
    (safe_pendingLogic hq (by simp [newFacts]) _) fun (flop, pending) => .bind
    (safe_writePin hq (by simp [newFacts]) (hf _ (by simp [FifoPins.toList])) (by simp) (by simp) _)
    fun _ => .bind_expect fun send hsend => .bind (safe_writePin hq (by simp [newFacts])
      (hf send (by simp [FifoPins.toList, hsend])) (by simp) (by simp) _) fun _ =>
    .bind_expect fun ack hack => .bind
    (safe_readPin hq (by simp [newFacts]) (hf ack (by simp [FifoPins.toList, hack])) _)
    fun ready => .bind (safe_gate hq (by simp [newFacts]) (by simp) .and _) fun done => .bind
    (safe_gate hq (by simp [newFacts]) (by simp) .not _) fun notReady => .bind
    (safe_gate hq (by simp [newFacts]) (by simp) .and _) fun next =>
    safe_close (by simp [newFacts]) (by simp [newFacts]) (by simp) (by simp) (by simp) (by simp)

theorem safe_sampleStatus (hmute : ¬ S.mute) :
    Safe S K (sampleStatus f) fun m => [.has (.component m)] := by
  have hstatus : ∀ pin, f.statusPin? = some pin → pin ∈ f.pins.toList := by
    intro pin hpin
    simp only [statusPin?] at hpin
    split at hpin <;> simp [FifoPins.toList, hpin]
  simp only [sampleStatus]
  split
  · exact .fail hq hmute _
  · next pin hpin =>
    exact .bind (safe_newModule hq (ComponentKind.fitsIn_of_none rfl rfl) _ 0) fun m => .bind
      (safe_makeExit hq (by simp [newFacts]) (by simp [newFacts]) 1 .done) fun _ => .bind
      (safe_changeExit (by simp) fun _ => rfl) fun _ => .bind
      (safe_resultBus (by simp [newFacts])) fun _ => .bind
      (safe_setBusSignal (by simp) _) fun _ => .bind
      (safe_readPin hq (by simp [newFacts]) (hf pin (hstatus pin hpin)) _) fun _ => .bind
      (safe_mainOutBuf (by simp [newFacts])) fun outBuf => .bind
      (safe_wire (by simp) (by simp) 0) fun _ => .pure (by simp [newFacts])

theorem safe_access (hmute : ¬ S.mute) (kind : AccessKind) :
    Safe S K (access f kind) fun m => [.has (.component m)] := by
  simp only [access]
  split
  · exact safe_readToken hq hf
  · exact safe_writeToken hq hf
  · exact safe_sampleStatus hq hf hmute
  · exact .fail hq hmute _

end

end DataflowSynth.Fifo

namespace DataflowSynth.Memory

open Build Netlist

variable {S : Scope} {K : List Fact}

/-! ### Reads of memories -/

theorem safe_markClocked {c : ComponentId} (hc : .has (.component c) ∈ K) (hplain : .plain c ∈ K) :
    Safe S K (markClocked c) fun _ => [] :=
  .bind (safe_setConsumesClock hc true) fun _ => .bind
    (safe_setConsumesReset (by simp [hc]) true) fun _ => .bind
    (safe_setConsumesGo (by simp [hc]) true fun _ => by simp [hplain]) fun _ =>
    safe_setProducesDone (by simp [hc]) true fun _ => by simp [hplain]

theorem safe_takeOverPort {source target : PortId} (hs : .has (.port source) ∈ K)
    (ht : .has (.port target) ∈ K) : Safe S K (takeOverPort source target) fun _ => [] := by
  have hmove : ∀ {K'}, Fact.has (.port source) ∈ K' → Fact.has (.port target) ∈ K' →
      Safe S K' (do
        let driver := (← port source).bus
        setBus source none
        setBus target driver) fun _ => [] := fun hs ht =>
    .bind (safe_port hs) fun y => .bind (safe_setBus (by simp [hs]) (by simp)) fun _ =>
      safe_setBus (by simp [ht]) (by simp +contextual)
  refine .bind (safe_port hs) fun y => ?_
  cases y.signal with
  | none => exact hmove (by simp [hs]) (by simp [ht])
  | some signal =>
      refine .bind (safe_setPortSignal (by simp [ht]) signal) fun _ => .bind
        (safe_port (by simp [ht])) fun z => ?_
      cases hpeer : z.peer with
      | none => exact hmove (by simp [hs]) (by simp [ht])
      | some b =>
          exact .bind (safe_setBusSignal (by simp [hpeer]) signal) fun _ =>
            hmove (by simp [hs]) (by simp [ht])

theorem safe_takeOverSinks {source target : BusId} (hs : .has (.bus source) ∈ K)
    (ht : .has (.bus target) ∈ K) : Safe S K (takeOverSinks source target) fun _ => [] :=
  .bind (safe_bus hs) fun z => .forM fun p hp =>
    safe_setBus (by simp [hp]) (by simp [ht])

theorem safe_outBufPort {b : BusId} (hb : .has (.bus b) ∈ K) :
    Safe S K (outBufPort b) fun p => [.has (.port p)] :=
  .bind (safe_bus hb) fun z => .expect fun p hp => by simp [hp]

/-- A read is told what carries it out. -/
theorem safe_setPhysical {c m : ComponentId} {memory : UInt32} (hc : .has (.component c) ∈ K)
    (hkind : .kinded c (.memoryRead memory none) ∈ K) (hm : .has (.component m) ∈ K) :
    Safe S K (changeComponent c fun y => { y with kind := .memoryRead memory (some m) })
      fun _ => [] := by
  refine safe_changeComponent hc (fun n x hn _ hl => ?_) (fun n x hn hx => ?_) (.inr fun _ => rfl)
  · refine { hl with kind := ⟨fun d hd => ?_, by simp [ComponentKind.pins]⟩ }
    obtain rfl : d = m := by simpa [ComponentKind.components] using hd
    exact (hn.facts _ hm).2
  · obtain ⟨z, hz, hplain⟩ := hn.facts _ hkind
    cases hx.symm.trans hz
    simp only [Component.shape, hplain]
    rfl

section

variable (hq : ¬ S.quiet)

include hq

theorem safe_newRead (memory : UInt32) (signal : Signal) (latency : Latency) :
    Safe S K (newRead memory signal latency) fun c => newFacts c (.memoryRead memory none) :=
  .bind (safe_newComponent hq (ComponentKind.fitsIn_of_none rfl rfl) "memRead" 0) fun c => .bind
    (safe_makeDataPort hq (by simp [newFacts]) (by simp [newFacts]) _) fun _ => .bind
    (safe_makeDataPort hq (by simp [newFacts]) (by simp [newFacts]) _) fun _ => .bind
    (safe_makeExit hq (by simp [newFacts]) (by simp [newFacts]) 1 .done) fun _ => .bind
    (safe_changeExit (by simp) fun _ => rfl) fun _ => .bind
    (safe_resultBus (by simp [newFacts])) fun _ => .bind
    (safe_setBusSignal (by simp) _) fun _ => .bind
    (safe_markClocked (by simp [newFacts]) (by simp [newFacts]))
    fun _ => .pure (by simp +contextual)

theorem safe_sideOutput {e : ExitId} {driver : BusId} (he : .has (.exit e) ∈ K)
    (hplain : .plainExit e ∈ K) (hdriver : .has (.bus driver) ∈ K) (name : String) :
    Safe S K (sideOutput e name driver) fun _ => [] :=
  .bind (safe_makeDataBus hq he hplain name) fun b => .bind
    (safe_changeBus (by simp) (fun _ => rfl) fun _ => rfl) fun _ => .bind
    (safe_bus (by simp [hdriver])) fun _ => .bind (safe_setBusSignal (by simp) _) fun _ => .bind
    (safe_outBufPort (by simp)) fun _ => safe_setBus (by simp) (by simp [hdriver])

theorem safe_doneCache {m : ComponentId} {go answer : BusId} (hm : .has (.component m) ∈ K)
    (hgo : .has (.bus go) ∈ K) (hanswer : .has (.bus answer) ∈ K) (latency : Latency) :
    Safe S K (doneCache m latency go answer) fun b => [.has (.bus b)] := by
  refine .bind (safe_newGate hq .and "doneAnd" 2) fun doneAnd => .bind
    (safe_addComponent hq (by simp [hm]) (by simp [newFacts])) fun _ => .bind
    (safe_dataPort (by simp [newFacts]) 0) fun request => .bind
    (safe_dataPort (by simp [newFacts]) 1) fun _ => .bind
    (safe_setBus (by simp) (by simp [hanswer])) fun _ => .bind
    (safe_resultBus (by simp [newFacts])) fun done => ?_
  simp only
  split
  · exact .bind (safe_setBus (by simp) (by simp [hgo])) fun _ => .pure (by simp)
  · refine .bind (safe_clockBus (by simp [hm])) fun clock => .bind
      (safe_resetBus (by simp [hm])) fun reset => .bind
      (safe_newReg hq .regRS "done_cache" .bit) fun flop => .bind
      (safe_newGate hq .or "resetOr" 2) fun resetOr => .bind
      (safe_addComponents hq (by simp [hm]) (by simp [newFacts])) fun _ => .bind
      (safe_addFeedbackPoint (by simp [hm]) (by simp [newFacts])) fun _ => .bind
      (safe_resultBus (by simp [newFacts])) fun held => .bind
      (safe_resultBus (by simp [newFacts])) fun clear => .bind
      (safe_component (by simp [newFacts])) fun x => .bind
      (safe_setBus (by simp) (by simp)) fun _ => .bind
      (safe_setBus (by simp) (by simp)) fun _ => .bind
      (safe_dataPort (by simp [newFacts]) 2) fun _ => .bind
      (safe_setBus (by simp) (by simp)) fun _ => .bind
      (safe_dataPort (by simp [newFacts]) 1) fun _ => .bind
      (safe_setBus (by simp) (by simp [hgo])) fun _ => .bind
      (safe_dataPort (by simp [newFacts]) 0) fun _ => .bind
      (safe_setBus (by simp) (by simp)) fun _ => .bind
      (safe_dataPort (by simp [newFacts]) 0) fun _ => .bind
      (safe_setBus (by simp) (by simp)) fun _ => .bind
      (safe_dataPort (by simp [newFacts]) 1) fun _ => .bind
      (safe_setBus (by simp) (by simp)) fun _ => ?_
    split
    · exact .bind (safe_setBus (by simp) (by simp)) fun _ => .pure (by simp)
    · exact .bind (safe_newGate hq .or "combOr" 2) fun combOr => .bind
        (safe_addComponent hq (by simp [hm]) (by simp [newFacts])) fun _ => .bind
        (safe_dataPort (by simp [newFacts]) 0) fun _ => .bind
        (safe_setBus (by simp) (by simp)) fun _ => .bind
        (safe_dataPort (by simp [newFacts]) 1) fun _ => .bind
        (safe_setBus (by simp) (by simp [hgo])) fun _ => .bind
        (safe_resultBus (by simp [newFacts])) fun _ => .bind
        (safe_setBus (by simp) (by simp)) fun _ => .pure (by simp)

/-- The part of a physical read that talks to the memory. -/
theorem safe_talk {c m : ComponentId} {memory : UInt32} {e : ExitId} {dataOut : BusId}
    {result : BusId} (hc : .has (.component c) ∈ K)
    (hkind : .kinded c (.memoryRead memory none) ∈ K) (hm : .has (.component m) ∈ K)
    (hplain : .plain m ∈ K) (he : .has (.exit e) ∈ K) (hexit : .plainExit e ∈ K)
    (hout : .has (.bus dataOut) ∈ K) (hresult : .has (.bus result) ∈ K) (latency : Latency) :
    Safe S K (do
      takeOverSinks result dataOut
      takeOverSinks (← doneBus c) (← doneBus m)
      let sideReady ← makeDataPort m "sideDataReady"
      let sideData ← makeDataPort m "sideDataIn"
      changePort sideReady fun p => { p with sideband := true }
      changePort sideData fun p => { p with sideband := true }
      setPortSignal sideReady .bit
      let go ← goBus m
      let outBuf ← mainOutBuf m
      sideOutput e "sideAddress" (← dataBus m 0)
      sideOutput e "sideEnable" go
      sideOutput e "sideSize" (← dataBus m 1)
      let cast ← newCast ((← bus dataOut).signal.getD .bit)
      addComponent m cast
      setBus (← dataPort cast 0) (some (← dataBus m 3))
      setBus (← outBufPort dataOut) (some (← resultBus cast))
      let done ← doneCache m latency go (← dataBus m 2)
      setBus (← component outBuf).go (some done)
      markClocked m
      changeComponent c fun y => { y with kind := .memoryRead memory (some m) }
      let name := (← component m).name
      Build.log .debug .memories s!"built physical read {quote name} ({latency.text})"
      return m) fun m => [.has (.component m)] :=
  .bind (safe_takeOverSinks hresult hout) fun _ => .bind
    (safe_doneBus (by simp [hc])) fun _ => .bind
    (safe_doneBus (by simp [hm])) fun _ => .bind
    (safe_takeOverSinks (by simp) (by simp)) fun _ => .bind
    (safe_makeDataPort hq (by simp [hm]) (by simp [hplain]) _) fun _ => .bind
    (safe_makeDataPort hq (by simp [hm]) (by simp [hplain]) _) fun _ => .bind
    (safe_changePort (by simp) (fun _ => rfl) fun _ => rfl) fun _ => .bind
    (safe_changePort (by simp) (fun _ => rfl) fun _ => rfl) fun _ => .bind
    (safe_setPortSignal (by simp) _) fun _ => .bind
    (safe_goBus (by simp [hm])) fun go => .bind
    (safe_mainOutBuf (by simp [hm])) fun outBuf => .bind
    (safe_dataBus (by simp [hm]) 0) fun _ => .bind
    (safe_sideOutput hq (by simp [he]) (by simp [hexit]) (by simp) _) fun _ => .bind
    (safe_sideOutput hq (by simp [he]) (by simp [hexit]) (by simp) _) fun _ => .bind
    (safe_dataBus (by simp [hm]) 1) fun _ => .bind
    (safe_sideOutput hq (by simp [he]) (by simp [hexit]) (by simp) _) fun _ => .bind
    (safe_bus (by simp [hout])) fun _ => .bind
    (safe_newCast hq _) fun cast => .bind
    (safe_addComponent hq (by simp [hm]) (by simp [newFacts])) fun _ => .bind
    (safe_dataPort (by simp [newFacts]) 0) fun _ => .bind
    (safe_dataBus (by simp [hm]) 3) fun _ => .bind
    (safe_setBus (by simp) (by simp)) fun _ => .bind
    (safe_outBufPort (by simp [hout])) fun _ => .bind
    (safe_resultBus (by simp [newFacts])) fun _ => .bind
    (safe_setBus (by simp) (by simp)) fun _ => .bind
    (safe_dataBus (by simp [hm]) 2) fun _ => .bind
    (safe_doneCache hq (by simp [hm]) (by simp) (by simp) latency) fun _ => .bind
    (safe_component (by simp)) fun _ => .bind
    (safe_setBus (by simp) (by simp)) fun _ => .bind
    (safe_markClocked (by simp [hm]) (by simp [hplain])) fun _ => .bind
    (safe_setPhysical (by simp [hc]) (by simp [hkind]) (by simp [hm])) fun _ => .bind
    (safe_component (by simp [hm])) fun _ => .bind (.log _ _ _) fun _ => .pure (by simp [hm])

theorem safe_buildPhysical {c : ComponentId} {memory : UInt32} (hc : .has (.component c) ∈ K)
    (hkind : .kinded c (.memoryRead memory none) ∈ K) :
    Safe S K (buildPhysical c memory) fun m => [.has (.component m)] := by
  refine .bind (safe_mainExit hc) fun _ => .bind (safe_exit (by simp)) fun _ => .bind
    (safe_component (by simp [hc])) fun _ => .bind
    (safe_newModule hq (ComponentKind.fitsIn_of_none rfl rfl) _ 0) fun m => .bind
    (safe_makeDataPort hq (by simp [newFacts]) (by simp [newFacts]) _) fun addressIn => .bind
    (safe_makeDataPort hq (by simp [newFacts]) (by simp [newFacts]) _) fun sizeIn => .bind
    (safe_component (by simp [hc])) fun read => .bind
    (safe_component (by simp [newFacts])) fun x => .bind
    (safe_dataPort (by simp [hc]) 0) fun address => .bind
    (safe_dataPort (by simp [hc]) 1) fun size => .bind
    (safe_takeOverPort (by simp) (by simp)) fun _ => .bind
    (safe_takeOverPort (by simp) (by simp)) fun _ => .bind
    (safe_takeOverPort (by simp) (by simp)) fun _ => .bind
    (safe_takeOverPort (by simp) (by simp)) fun _ => .bind
    (safe_takeOverPort (by simp) (by simp)) fun _ => .bind
    (safe_makeExit hq (by simp [newFacts]) (by simp [newFacts]) 0 .done) fun e => .bind
    (safe_changeExit (by simp) fun _ => rfl) fun _ => .bind
    (safe_makeDataBus hq (by simp) (by simp) _) fun dataOut => .bind
    (safe_resultBus (by simp [hc])) fun result => .bind
    (safe_bus (by simp)) fun y => ?_
  cases y.signal with
  | none =>
      exact safe_talk hq (by simp [hc]) (by simp [hkind]) (by simp [newFacts]) (by simp [newFacts])
        (by simp) (by simp) (by simp) (by simp) _
  | some signal =>
      exact .bind (safe_setBusSignal (by simp) signal) fun _ => safe_talk hq (by simp [hc])
        (by simp [hkind]) (by simp [newFacts]) (by simp [newFacts]) (by simp) (by simp) (by simp)
        (by simp) _

theorem safe_makePhysical (hmute : ¬ S.mute) {c : ComponentId} (hc : .has (.component c) ∈ K) :
    Safe S K (makePhysical c) fun _ => [] := by
  refine .bind (safe_component hc) fun x => ?_
  split
  · exact .pure (by simp)
  · next memory hkind =>
    have hread : .kinded c (.memoryRead memory none) ∈ x.facts c := by
      simp [Component.facts, hkind, ComponentKind.plain]
    exact (safe_buildPhysical hq (by simp [hc]) (by simp [hread])).weaken (fun _ h => h) (by simp)
  · exact .fail hq hmute _

end

end DataflowSynth.Memory
