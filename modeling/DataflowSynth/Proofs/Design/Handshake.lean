/-
Accessors in designs.

Whatever calls have led to a design, its interfaces with a handshake have the pins that accessors use:
only `getFifo` makes interfaces, and nothing changes them afterwards.  So accessors can be built for
them, and the circuits that are built move tokens as they should.
-/
import DataflowSynth.Proofs.Circuit.Accessors
import DataflowSynth.Proofs.Design.Consistency
import DataflowSynth.Proofs.Design.Frame

namespace DataflowSynth

open Build

/-! ### Interfaces -/

/-- An interface with a handshake has its pins. -/
structure Fifo.Equipped (f : Fifo) : Prop where
  send : f.pins.send.isSome
  ack : f.pins.ack.isSome
  apart : f.pins.send ≠ some f.pins.data

namespace Design

/-- All interfaces with a handshake have their pins. -/
def Equipped (d : Design) : Prop :=
  ∀ h f, d.fifos.get? h = some f → f.spec.protocol.isNative = false → f.Equipped

section

variable {α : Type} {s : Traced Design}

/-- A pin gets the next handle, and interfaces stay as they are. -/
theorem wp_addPin_next {x : Step α} {link : α → Pin} (hx : Keeps (fun d => (d.pins, d.fifos)) x) :
    wp (x >>= fun a => addPin (link a)) (fun h t => h = ⟨s.state.pins.size⟩ ∧
      t.state.pins.size = s.state.pins.size + 1 ∧ t.state.fifos = s.state.fifos)
      (fun _ t => t.state.fifos = s.state.fifos) s := by
  rw [wp_bind]
  refine wp_mono (hx s) (fun a t ht => ?_) fun _ t ht => congrArg Prod.snd ht
  obtain ⟨hpins, hfifos⟩ := Prod.mk.inj ht
  simp only [addPin, wp_bind, wp_look, wp_change, wp_pure, hpins, hfifos]
  exact ⟨rfl, by simp, trivial⟩

theorem wp_addInputPin_next (name : String) (signal : Signal) (role : PinRole) :
    wp (addInputPin name signal role) (fun h t => h = ⟨s.state.pins.size⟩ ∧
      t.state.pins.size = s.state.pins.size + 1 ∧ t.state.fifos = s.state.fifos)
      (fun _ t => t.state.fifos = s.state.fifos) s := by
  rw [addInputPin, wp_bind, wp_look]
  exact wp_addPin_next (keeps_wiring (fun _ _ => rfl) _)

theorem wp_addOutputPin_next (name : String) (signal : Signal) (role : PinRole) :
    wp (addOutputPin name signal role) (fun h t => h = ⟨s.state.pins.size⟩ ∧
      t.state.pins.size = s.state.pins.size + 1 ∧ t.state.fifos = s.state.fifos)
      (fun _ t => t.state.fifos = s.state.fifos) s := by
  rw [addOutputPin, wp_bind, wp_look]
  exact wp_addPin_next (keeps_wiring (fun _ _ => rfl) _)

/-- The pins of an interface are made one after the other. -/
theorem wp_addFifoPins_next (spec : FifoSpec) : wp (addFifoPins spec)
    (fun pins t => t.state.fifos = s.state.fifos ∧
      t.state.pins.size = s.state.pins.size + pins.toList.length ∧
      pins.toList = (List.range' s.state.pins.size pins.toList.length).map Handle.mk ∧
      (spec.protocol.isNative = false → pins.send.isSome ∧ pins.ack.isSome))
    (fun _ t => t.state.fifos = s.state.fifos) s := by
  rw [addFifoPins]
  split
  · rw [wp_bind]
    refine wp_mono (wp_addInputPin_next ..) ?_ fun _ _ h => h
    rintro data t ⟨hdata, ht, ht'⟩
    split
    · next hnative =>
      exact ⟨ht', ht, by rw [hdata]; rfl, fun h => absurd (hnative.symm.trans h) (by simp)⟩
    · rw [wp_bind]
      refine wp_mono (wp_addInputPin_next ..) ?_ fun _ _ h => h.trans ht'
      rintro send u ⟨hsend, hu, hu'⟩
      rw [wp_bind]
      refine wp_mono (wp_addOutputPin_next ..) ?_ fun _ _ h => h.trans (hu'.trans ht')
      rintro ack v ⟨hack, hv, hv'⟩
      rw [ht] at hu
      rw [hu] at hv
      refine ⟨hv'.trans (hu'.trans ht'), hv, ?_, fun _ => ⟨rfl, rfl⟩⟩
      rw [hdata, hsend, hack, ht, hu]
      rfl
  · rw [wp_bind]
    refine wp_mono (wp_addOutputPin_next ..) ?_ fun _ _ h => h
    rintro data t ⟨hdata, ht, ht'⟩
    rw [wp_bind]
    refine wp_mono (wp_addOutputPin_next ..) ?_ fun _ _ h => h.trans ht'
    rintro send u ⟨hsend, hu, hu'⟩
    rw [wp_bind]
    refine wp_mono (wp_addInputPin_next ..) ?_ fun _ _ h => h.trans (hu'.trans ht')
    rintro ack v ⟨hack, hv, hv'⟩
    rw [wp_bind]
    refine wp_mono (wp_addInputPin_next ..) ?_ fun _ _ h => h.trans (hv'.trans (hu'.trans ht'))
    rintro ready x ⟨hready, hx, hx'⟩
    rw [ht] at hu
    rw [hu] at hv
    rw [hv] at hx
    refine ⟨hx'.trans (hv'.trans (hu'.trans ht')), hx, ?_, fun _ => ⟨rfl, rfl⟩⟩
    rw [hdata, hsend, hack, hready, ht, hu, hv]
    rfl

theorem nodup_pins_next {pins : FifoPins} {k : Nat}
    (h : pins.toList = (List.range' k pins.toList.length).map Handle.mk) : pins.toList.Nodup := by
  rw [h]
  exact (List.nodup_range' ..).map fun i j heq => congrArg Handle.index heq

theorem Equipped.of_fifos {d d' : Design} (h : d.Equipped) (hfifos : d'.fifos = d.fifos) :
    d'.Equipped := by
  unfold Equipped
  rw [hfifos]
  exact h

theorem wp_getFifo_equipped (hs : s.state.Equipped) (spec : FifoSpec) :
    wp (getFifo spec) (fun _ t => t.state.Equipped) (fun _ t => t.state.Equipped) s := by
  unfold getFifo
  split
  · exact hs
  · simp only [wp_bind, wp_look]
    split
    · split
      · exact hs
      · exact hs
    · rw [wp_bind]
      refine wp_mono (wp_addFifoPins_next spec) ?_ fun _ _ ht => hs.of_fifos ht
      rintro pins t ⟨ht, _, hnext, hpins⟩
      simp only [wp_bind, wp_look, wp_change, wp_log, wp_pure]
      intro h f hf hnative
      rcases Arena.get?_push_cases hf with ⟨-, rfl⟩ | hf
      · have hnodup := nodup_pins_next hnext
        refine ⟨(hpins hnative).1, (hpins hnative).2, ?_⟩
        intro (heq : pins.send = some pins.data)
        simp [FifoPins.toList, heq] at hnodup
      · exact hs h f (ht ▸ hf) hnative

/-! ### Other steps leave the interfaces alone -/

/-- A call keeps what shows nothing that the call changes.  Interfaces and the ids of memories are left
to those who watch them. -/
theorem Call.keeps {γ : Type} {g : Design → γ} (hg : Remote g)
    (htasks : ∀ tasks d, g { d with tasks } = g d)
    (hregisters : ∀ registers d, g { d with registers } = g d)
    (hmemories : ∀ memories d, g { d with memories } = g d)
    (hincludes : ∀ includes d, g { d with includes } = g d) (call : Call)
    (hfifo : ∀ spec, call = .getFifo spec → Keeps g (Design.getFifo spec))
    (hid : call = .nextMemoryId ∨ (∃ name width initial, call = .newMemory name width initial) →
      Keeps g Design.nextMemoryId) : Keeps g call.run := by
  cases call with
  | getFifo spec => exact (hfifo spec rfl).discard
  | netlist call => exact keeps_wiring hg.netlist _
  | addInputPin name signal role => exact (keeps_addInputPin hg name signal role).discard
  | addOutputPin name signal role => exact (keeps_addOutputPin hg name signal role).discard
  | fifoAccess h kind => exact (keeps_fifoAccess hg.netlist h kind).discard
  | clockPin name => exact (keeps_clockPin hg name).discard
  | resetPin name clock => exact (keeps_resetPin hg name clock).discard
  | clockDomain spec => exact (keeps_clockDomain hg spec).discard
  | connectToDomain c domain => exact keeps_connectToDomain hg.netlist c domain
  | addTask name body =>
      exact .discard (.bind (.look _) fun _ => .bind (keeps_wiring hg.netlist _)
        fun _ => .bind (.look _) fun _ => .bind (.change fun d => htasks _ d) fun _ => .pure _)
  | nextMemoryId => exact (hid (.inl rfl)).discard
  | addMemory m => exact keeps_addMemory hmemories m
  | newMemory name width initial =>
      exact .discard (.bind (hid (.inr ⟨name, width, initial, rfl⟩)) fun _ =>
        .bind (keeps_addMemory hmemories _) fun _ => .pure _)
  | removeMemory id =>
      exact .discard (.bind (.look _) fun _ => .bind (.change fun d => hmemories _ d) fun _ => .pure _)
  | addRegister r => exact fun s => hregisters _ s.state
  | removeRegister name =>
      exact .discard (.bind (.look _) fun _ => .bind (.change fun d => hregisters _ d) fun _ => .pure _)
  | addInclude text => exact fun s => hincludes _ s.state

theorem remote_fifos : Remote Design.fifos :=
  ⟨fun _ _ => rfl, fun _ _ => rfl, fun _ _ => rfl, fun _ _ => rfl, fun _ _ => rfl⟩

theorem Call.keeps_fifos {call : Call} (h : ∀ spec, call ≠ .getFifo spec) :
    Keeps Design.fifos call.run :=
  call.keeps remote_fifos (fun _ _ => rfl) (fun _ _ => rfl) (fun _ _ => rfl) (fun _ _ => rfl)
    (fun spec hspec => absurd hspec (h spec)) fun _ => keeps_nextMemoryId fun _ _ => rfl

theorem Call.equipped (call : Call) (hs : s.state.Equipped) :
    wp call.run (fun _ t => t.state.Equipped) (fun _ t => t.state.Equipped) s := by
  by_cases hfifo : ∃ spec, call = .getFifo spec
  · obtain ⟨spec, rfl⟩ := hfifo
    exact wp_discard.mpr (wp_getFifo_equipped hs spec)
  · exact wp_mono (keeps_fifos (fun spec h => hfifo ⟨spec, h⟩) s) (fun _ _ ht => hs.of_fifos ht)
      fun _ _ ht => hs.of_fifos ht

end

/-- A call that is run to its end. -/
theorem Reached.after {strict : Prop} {d : Design} (h : Reached strict d) (call : Call)
    (hf : call.Fits d) (hs : strict → call.Spares d)
    (hok : (call.run.run ⟨d, #[]⟩).1.isOk = true) :
    Reached strict (call.run.run ⟨d, #[]⟩).2.state :=
  .call call h hf hs (Build.leaves_run hok)

theorem Reached.equipped {strict : Prop} {d : Design} (h : Reached strict d) : d.Equipped := by
  induction h with
  | new name => exact fun h f hf => absurd hf (by simp [Design.new])
  | call call _ _ _ leaves ih =>
      obtain ⟨j, j', hl⟩ := leaves
      have hrun := call.equipped (s := ⟨_, j⟩) ih
      unfold wp at hrun
      rcases hl with ⟨a, ha⟩ | ⟨e, he⟩
      · rw [ha] at hrun
        exact hrun
      · rw [he] at hrun
        exact hrun

/-! ### Accessors -/

section

variable {d : Design} {h : FifoId} {f : Fifo} {kind : AccessKind}

/-- An accessor that can be drawn beside the netlist of a design. -/
theorem fifoAccess_ok (hf : d.fifos.get? h = some f) {P : ComponentId → Netlist.Sheet → Prop}
    (hdraws : Netlist.Draws ⟨d.pins.size, d.netlist⟩ (f.access kind)
      (Netlist.sheetOver d.netlist d.netlist) P) (journal : Journal) :
    ∃ m t, fifoAccess h kind ⟨d, journal⟩ = .ok m t ∧
      Netlist.Proper ⟨d.pins.size, d.netlist⟩ t.state.netlist ∧
      P m (Netlist.sheetOver d.netlist t.state.netlist) := by
  have hrun : wp (fifoAccess h kind) (fun m t => Netlist.Proper ⟨d.pins.size, d.netlist⟩
      t.state.netlist ∧ P m (Netlist.sheetOver d.netlist t.state.netlist)) (fun _ _ => False)
      ⟨d, journal⟩ := by
    simp only [fifoAccess, fifo, wp_bind, wp_look, hf, wp_expect_some, wiring, wp_within]
    exact hdraws ⟨d.netlist, journal⟩ (Netlist.proper_refl _) rfl
  unfold wp at hrun
  cases hm : fifoAccess h kind ⟨d, journal⟩ with
  | ok m t =>
      rw [hm] at hrun
      exact ⟨m, t, rfl, hrun⟩
  | error e t =>
      rw [hm] at hrun
      exact hrun.elim

end

/-- In every design that calls lead to, an interface with a handshake can be accessed: an input is given
a circuit that takes tokens, and an output one that gives them. -/
theorem fifoAccess_handshake {d : Design} (hd : Reached False d) {h : FifoId} {f : Fifo}
    (hf : d.fifos.get? h = some f) (hshakes : f.spec.protocol.isNative = false) :
    ∃ send ack, f.pins.send = some send ∧ f.pins.ack = some ack ∧
      (f.spec.direction = .input → ∀ journal, ∃ m t, fifoAccess h .read ⟨d, journal⟩ = .ok m t ∧
        t.state.netlist.TakesTokens m f.pins.data send ack) ∧
      (f.spec.direction = .output → ∀ journal, ∃ m t, fifoAccess h .write ⟨d, journal⟩ = .ok m t ∧
        t.state.netlist.GivesTokens m f.pins.data send ack) := by
  have hpins : ∀ p ∈ f.pins.toList, p.index < d.pins.size := hd.sound.fifos h f hf
  have hequipped := hd.equipped h f hf hshakes
  obtain ⟨send, hsend⟩ := Option.isSome_iff_exists.mp hequipped.send
  obtain ⟨ack, hack⟩ := Option.isSome_iff_exists.mp hequipped.ack
  have hbefore := hd.sound.netlist.linked
  refine ⟨send, ack, hsend, hack, fun hdirection journal => ?_, fun hdirection journal => ?_⟩
  · have hdraws := Netlist.draws_readToken (Γ := ⟨d.pins.size, d.netlist⟩)
      (σ := Netlist.sheetOver d.netlist d.netlist) hshakes hpins hsend hack
    have haccess : f.access .read = f.readToken := by simp [Fifo.access, hdirection]
    obtain ⟨m, t, hrun, hproper, rfl, v, token, result, M, νs, -, -, hbox, hparts, hsheet⟩ :=
      fifoAccess_ok hf (haccess ▸ hdraws) journal
    exact ⟨_, t, hrun, Netlist.takesTokens
      ⟨hproper, hbefore, hsheet, Netlist.reader_owners hparts⟩ hbox hparts⟩
  · have hdraws := Netlist.draws_writeToken (Γ := ⟨d.pins.size, d.netlist⟩)
      (σ := Netlist.sheetOver d.netlist d.netlist) hpins hsend hack
    have haccess : f.access .write = f.writeToken := by simp [Fifo.access, hdirection]
    obtain ⟨m, t, hrun, hproper, rfl, v, token, M, νs, -, -, htoken, hbox, hparts, hsheet⟩ :=
      fifoAccess_ok hf (haccess ▸ hdraws) journal
    have hapart : f.pins.data ≠ send := fun h => hequipped.apart (h ▸ hsend)
    exact ⟨_, t, hrun, Netlist.givesTokens
      ⟨hproper, hbefore, hsheet, Netlist.writer_owners hparts⟩ hbox hparts htoken hapart⟩

/-- A design with an input and an output. -/
theorem fifoAccess_handshake_link : ∃ d : Design,
    (∃ m t, fifoAccess ⟨0⟩ .read ⟨d, #[]⟩ = .ok m t ∧
      t.state.netlist.TakesTokens m ⟨0⟩ ⟨1⟩ ⟨2⟩) ∧
    ∃ m t, fifoAccess ⟨1⟩ .write ⟨d, #[]⟩ = .ok m t ∧
      t.state.netlist.GivesTokens m ⟨3⟩ ⟨4⟩ ⟨5⟩ := by
  let input : FifoSpec := ⟨"IN", .input, 8, .scalar⟩
  let output : FifoSpec := ⟨"OUT", .output, 8, .circularBuffer⟩
  have hnew : Reached False (Design.new "top") := .new "top"
  have hinput := hnew.after (.getFifo input)
    ⟨by simp [Call.refs], by simp [Call.pins]⟩ False.elim (by decide +kernel)
  have houtput := hinput.after (.getFifo output) ⟨by simp [Call.refs], by simp [Call.pins]⟩ False.elim
    (by decide +kernel)
  generalize hd : (Build.run _ _).2.state = d at houtput
  have hreads : d.fifos.get? ⟨0⟩ = some ⟨input, ⟨⟨0⟩, some ⟨1⟩, some ⟨2⟩, none⟩⟩ := by
    subst hd
    decide +kernel
  have hwrites : d.fifos.get? ⟨1⟩ = some ⟨output, ⟨⟨3⟩, some ⟨4⟩, some ⟨5⟩, some ⟨6⟩⟩⟩ := by
    subst hd
    decide +kernel
  obtain ⟨_, _, hsend, hack, hread, -⟩ := fifoAccess_handshake houtput hreads rfl
  obtain ⟨_, _, hsend', hack', -, hwrite⟩ := fifoAccess_handshake houtput hwrites rfl
  cases hsend
  cases hack
  cases hsend'
  cases hack'
  exact ⟨d, hread rfl #[], hwrite rfl #[]⟩

end Design

end DataflowSynth
