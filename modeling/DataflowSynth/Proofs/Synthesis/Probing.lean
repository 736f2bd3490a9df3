/-
What the scheduler task does.

The body of the scheduler task is a block with a probe for each port that the scheduler samples, in the
order in which the ports are given.  The probes are all started with the block, and the block is done when
it is started.  Whoever looks at the netlist finds for each port a module with nothing inside but the
component that reads the pin of the port.
-/
import DataflowSynth.Proofs.Sheet.Banks
import DataflowSynth.Proofs.Synthesis.Movement
import DataflowSynth.Proofs.Synthesis.Sampling

namespace DataflowSynth.Synthesis

open Build
open Netlist (Sheet Node Outlet Interior Pad Fixture Bank)

variable {d : Design} {fifos : Interfaces} {block : ComponentId} {fs : List Fixture}
  {s : Traced Design} {F : Failure → Traced Design → Prop}

/-! ### Probes in line -/

/-- The module samples the interface of a port. -/
def Watches (fifos : Interfaces) (d : Design) (port : String) (p : Fixture) : Prop :=
  ∃ h f pin, fifos.find? port = some h ∧ d.fifos.get? h = some f ∧ f.statusPin? = some pin ∧
    p.Samples pin

/-- The block is being built, and its probes stand on the sheet. -/
structure Fitting (d : Design) (block : ComponentId) (fs : List Fixture) (s : Traced Design) : Prop where
  underway : Underway d block (fs.map Fixture.place) s
  fitted : ∃ start, s.state.netlist.sheet.Fitted block start fs
  exits : ∀ f ∈ fs, f.base.outlet.isSome

theorem wp_openBank (hs : s.state.Laid) (stem : String) :
    wp (Design.wiring (Netlist.newModule .block stem 0))
      (fun block t => Fitting s.state block [] t) F s := by
  have hfitted : wp (Design.wiring (Netlist.newModule .block stem 0)) (fun block t =>
      ∃ start, t.state.netlist.sheet.Fitted block start []) F s :=
    Design.wp_wiring hs (Netlist.draws_openFitted stem) fun _ _ _ _ h => h
  exact wp_mono (wp_and (wp_newBlock hs stem) hfitted) (fun _ _ ⟨hu, hf⟩ => ⟨hu, hf, by simp⟩)
    fun _ _ h => h.1

theorem wp_probe (h : Fitting d block fs s) {port : String} {handle : FifoId} {f : Fifo}
    (hfind : fifos.find? port = some handle) (hf : d.fifos.get? handle = some f) :
    wp (Design.fifoAccess handle .status) (fun c t => ∃ p : Fixture, p.place = c ∧
      Watches fifos d port p ∧ Fitting d block (fs ++ [p]) t) F s := by
  obtain ⟨pin, hpin, hstatus⟩ := (h.underway.usable hf).status
  obtain ⟨start, hfitted⟩ := h.fitted
  have hdraws : wp (Design.fifoAccess handle .status) (fun c t => ∃ p : Fixture, p.place = c ∧
      p.Samples pin ∧ t.state.netlist.sheet.Fitted block start (fs ++ [p])) F s := by
    refine wp_fifoAccess h.underway hf ?_
    have hbound : pin.index < s.state.pins.size := by
      obtain ⟨n, heq, -⟩ := h.underway
      rw [heq]
      exact (h.underway.usable hf).pins pin hpin
    exact Design.wp_wiring h.underway.laid (Netlist.draws_fitProbe hfitted hstatus hbound)
      fun _ _ _ _ h => h
  refine wp_mono (wp_and (wp_status h.underway hf) hdraws) ?_ fun _ _ h => h.1
  rintro c t ⟨hu, p, rfl, hsamples, hfitted⟩
  refine ⟨p, rfl, ⟨handle, f, pin, hfind, hf, hstatus, hsamples⟩, by simpa using hu,
    ⟨start, hfitted⟩, fun q hq => ?_⟩
  rcases List.mem_append.mp hq with hq | hq
  · exact h.exits q hq
  · obtain rfl := List.mem_singleton.mp hq
    exact hsamples.hasExit

/-- There is one probe for each port, in the order of the ports. -/
theorem wp_probes {ports : List String} (h : Fitting d block fs s)
    (hports : ∀ p ∈ ports, ∃ h f, fifos.find? p = some h ∧ d.fifos.get? h = some f) :
    wp (ports.mapM fun p => do Design.fifoAccess (← interfaceOf fifos p) .status) (fun cs t =>
      ∃ ps : List Fixture, ps.map Fixture.place = cs ∧ List.Forall₂ (Watches fifos d) ports ps ∧
        Fitting d block (fs ++ ps) t) F s := by
  induction ports generalizing fs s with
  | nil => exact ⟨[], rfl, .nil, by simpa using h⟩
  | cons port ports ih =>
      obtain ⟨handle, f, hfind, hf⟩ := hports port (by simp)
      rw [List.mapM_cons]
      simp only [interfaceOf, hfind, wp_bind, wp_pure]
      refine wp_mono (wp_probe h hfind hf) ?_ fun _ _ h => h
      rintro c t ⟨p, rfl, hwatches, ht⟩
      refine wp_mono (ih ht fun q hq => hports q (by simp [hq])) ?_ fun _ _ h => h
      rintro cs u ⟨ps, rfl, hrest, hu⟩
      exact ⟨p :: ps, rfl, .cons hwatches hrest, by simpa using hu⟩

/-! ### The task -/

/-- The block starts a probe for each of the ports, all at once. -/
def Surveys (fifos : Interfaces) (d : Design) (ports : List String) (block : ComponentId) : Prop :=
  ∃ b : Bank, b.Stands d.netlist.sheet block ∧ List.Forall₂ (Watches fifos d) ports b.fixtures

theorem wp_startBank (h : Fitting d block fs s) :
    wp (Design.wiring (parallel block (fs.map Fixture.place))) (fun _ t => Finished d block t ∧
      ∃ b : Bank, b.fixtures = fs ∧ b.Stands t.state.netlist.sheet block) F s := by
  obtain ⟨start, hfitted⟩ := h.fitted
  have hstands : wp (Design.wiring (parallel block (fs.map Fixture.place))) (fun _ t =>
      ∃ b : Bank, b.fixtures = fs ∧ b.Stands t.state.netlist.sheet block) F s :=
    Design.wp_wiring h.underway.laid (Netlist.draws_startBank hfitted h.exits) fun _ _ _ _ h => h
  exact wp_mono (wp_and (wp_finish h.underway fun σ hσ => Netlist.draws_parallel hσ) hstands)
    (fun _ _ h => h) fun _ _ h => h.1

/-- The body of a new task does what the block did before. -/
theorem surveys_wraps {ports : List String} {n : Netlist} {name : String} {t : TaskId} {d' : Design}
    (hn : Begun d block n) (h : Wraps d n name block t d') {b : Bank} (hstands : b.Stands n.sheet block)
    (hwatches : List.Forall₂ (Watches fifos d) ports b.fixtures) : Surveys fifos d' ports block := by
  obtain ⟨O, hO, -⟩ := hstands.outBuf
  have hbound : b.outBuf.index < n.sheet.size := Netlist.lt_of_node? hO
  have hretains := h.retains
  have hinside : ∀ c, block.index < c.index → c.index < n.sheet.size →
      d'.netlist.sheet.node? c = n.sheet.node? c := fun c hlt hc => h.inside hn hlt hc
  obtain ⟨n', call, rfl⟩ := h.design
  obtain ⟨B, owner, clock, reset, go, hB, hbox⟩ := hstands.node
  exact ⟨b, hstands.frame (hretains B _ hB hbox) fun c hlt hc => hinside c hlt (by omega), hwatches⟩

/-- The task that samples ports can be built, if all of them have interfaces. -/
theorem wp_addSchedulerTask (hs : s.state.Laid) {clockDomain : String}
    {domain : Design.ClockDomain} (hdomain : s.state.domains.find? clockDomain = some domain)
    {ports : List String}
    (hports : ∀ p ∈ ports, ∃ h f, fifos.find? p = some h ∧ s.state.fifos.get? h = some f) :
    wp (addSchedulerTask clockDomain fifos ports) (fun h t => ∃ block,
      Adds s.state "scheduler" block h t.state ∧ Surveys fifos t.state ports block) F s := by
  rw [addSchedulerTask, wp_bind]
  refine wp_mono (wp_openBank hs _) (fun block t₁ h₁ => ?_) fun _ _ h => h
  rw [wp_bind]
  refine wp_mono (wp_probes h₁ hports) ?_ fun _ _ h => h
  rintro _ t₂ ⟨ps, rfl, hwatches, h₂⟩
  rw [wp_bind]
  refine wp_mono (wp_startBank h₂) ?_ fun _ _ h => h
  rintro _ t₃ ⟨⟨n, hn, hbegun, hruns⟩, b, hb, hstands⟩
  refine wp_mono (wp_addClockedTask hn hbegun hruns hdomain _) (fun t t₄ ht => ?_) fun _ _ h => h
  rw [hn] at hstands
  exact ⟨block, ht.adds hbegun hruns, surveys_wraps hbegun ht hstands (hb ▸ hwatches)⟩

/-! ### Ports of an actor -/

theorem mem_directedPorts_of_polledBy {actor : Actor} {a : Actor.Action}
    {port : Direction × Actor.Port} (h : port ∈ polledBy actor a) : port ∈ directedPorts actor := by
  obtain ⟨direction, p⟩ := port
  obtain ⟨-, h⟩ := mem_polledBy_iff.mp h
  cases direction with
  | input =>
      obtain ⟨e, -, hp⟩ := h
      exact List.mem_append_left _ (List.mem_map_of_mem (Actor.mem_inputs_of_input? hp))
  | output =>
      obtain ⟨e, -, hp⟩ := h
      exact List.mem_append_right _ (List.mem_map_of_mem (Actor.mem_outputs_of_output? hp))

/-- Inputs and outputs have names of their own. -/
theorem portName_inj {actor : Actor} (hvalid : Actor.Valid actor) {port port' : Direction × Actor.Port}
    (h : port ∈ directedPorts actor) (h' : port' ∈ directedPorts actor)
    (heq : portName port = portName port') : port = port' := by
  have hnames : (directedPorts actor).map portName = actor.ports.map Actor.Port.name := by
    simp [directedPorts, Actor.ports, portName, Function.comp_def]
  exact List.inj_on_of_nodup_map (hnames ▸ hvalid.ports) h h' heq

/-- What the scheduler of an actor samples is what its actions poll. -/
theorem sampledPorts_eq_polledPorts {actor : Actor} (hvalid : Actor.Valid actor) {skipFill : Bool}
    {p : Procedure} (h : Scheduler.lower actor skipFill = .ok p) :
    sampledPorts p = (polledPorts actor).map portName := by
  rw [sampledPorts_lower h, polledPorts]
  refine eraseDups_map fun port hport port' hport' heq => ?_
  obtain ⟨a, -, ha⟩ := List.mem_flatMap.mp hport
  obtain ⟨a', -, ha'⟩ := List.mem_flatMap.mp hport'
  exact portName_inj hvalid (mem_directedPorts_of_polledBy ha) (mem_directedPorts_of_polledBy ha') heq

/-! ### Reading the task -/

/-- A module reads a pin and hands on what it reads.  `R` reads the pin inside the module, `W` is the
OutBuf, `value` and `exit` are the exits of `R` and of the module. -/
structure ReadsPin (σ : Sheet) (pin : PinId) (c : ComponentId) (M R W : Node) (value exit : Outlet) :
    Prop where
  node : σ.node? c = some M
  kind : M.kind = .module .actionPortStatus
  /-- There is nothing inside but what reads the pin. -/
  inside : ∃ i r, M.interior = some i ∧ i.children = [r] ∧ σ.node? r = some R
  reads : R.kind = .pinRead pin
  gives : R.outlet? .done = some value
  exits : M.outlet? .done = some exit
  outBuf : ∃ w, exit.outBuf = some w ∧ σ.node? w = some W
  drivers : W.data.map Pad.driver = value.data.map some
  results : W.data.map Pad.peer = exit.data.map some

/-- The pin on which the other side of a port tells that it is ready: SEND of an input, and RDY of an
output. -/
def readyPin? (direction : Direction) (pins : FifoPins) : Option PinId :=
  match direction with
  | .input => pins.send
  | .output => pins.ready

/-- A module reads whether the other side of a port is ready. -/
def Probes (d : Design) (port : Direction × Actor.Port) (c : ComponentId) : Prop :=
  ∃ f ∈ d.fifos.values, f.spec = portSpec port.1 port.2 ∧ ∃ pin, readyPin? port.1 f.pins = some pin ∧
    ∃ M R W value exit, ReadsPin d.netlist.sheet pin c M R W value exit

/-- A block probes ports all at once.  `B`, `I` and `O` are the block and its two buffers, `i` is what is
inside the block, `entry` and `exit` are the exits of the InBuf and of the block. -/
structure ProbesAtOnce (d : Design) (block : ComponentId) (ports : List (Direction × Actor.Port))
    (B I O : Node) (i : Interior) (entry exit : Outlet) : Prop where
  node : d.netlist.sheet.node? block = some B
  kind : B.kind = .module .block
  interior : B.interior = some i
  inBuf : d.netlist.sheet.node? i.inBuf = some I
  enters : I.outlet? .done = some entry
  exits : B.outlet? .done = some exit
  outBuf : ∃ w, exit.outBuf = some w ∧ d.netlist.sheet.node? w = some O
  /-- The go of the block enters it by the exit of the InBuf. -/
  repeats : B.go.peer = some entry.done
  /-- There is one probe for each port, and nothing else. -/
  children : List.Forall₂ (Probes d) ports i.children
  nodup : i.children.Nodup
  /-- It starts every probe, and the block is done with it. -/
  starts : ∀ c ∈ i.children, d.netlist.sheet.goDriver? c = some entry.done
  done : O.go.driver = some entry.done ∧ O.go.peer = some exit.done

/-- A probe that stands on the sheet works on its pin. -/
theorem readsPin_stands {σ : Sheet} {p : Fixture} {owner : Option ComponentId} {go : Option BusId}
    (h : p.Stands σ owner go) {pin : PinId} (hp : p.Samples pin) :
    ∃ M R W value exit, ReadsPin σ pin p.place M R W value exit := by
  obtain ⟨place, base, parts⟩ := p
  obtain ⟨inner, e, done, result, status, hbase, hparts⟩ := hp
  dsimp only at hbase hparts
  subst hbase hparts
  obtain ⟨M, clock, reset, hM, hbox⟩ := h.node
  obtain ⟨W, hW, hout : W.OutBuf place done none [(some status, some result)]⟩ := h.parts 1 _ rfl
  obtain ⟨R, hR, hread⟩ := h.parts 2 _ rfl
  obtain ⟨e', done', hexits⟩ := hread.exits
  have hgives : R.outlet? .done = some { exit := e', done := done', data := [status] } := by
    simp [Node.outlet?, hexits]
  refine ⟨M, R, W, _, _, hM, hbox.kind, ⟨_, _, hbox.interior, rfl, hR⟩, hread.kind, hgives,
    hbox.outlet?, ⟨_, rfl, hW⟩, ?_, ?_⟩
  · simpa using congrArg (List.map Prod.fst) hout.data
  · simpa using congrArg (List.map Prod.snd) hout.data

section

variable {ports watched : List (Direction × Actor.Port)}
  (hspecs : d.fifos.values.map Fifo.spec = ports.map fun e => portSpec e.1 e.2)
  (hhandles : ∀ i e, ports[i]? = some e → fifos.find? e.2.name = some ⟨i⟩)

include hspecs hhandles

theorem Watches.probes {port : Direction × Actor.Port} {p : Fixture}
    (h : Watches fifos d (portName port) p) (hport : port ∈ ports) {owner : Option ComponentId}
    {go : Option BusId} (hstands : p.Stands d.netlist.sheet owner go) : Probes d port p.place := by
  obtain ⟨handle, f, pin, hfind, hf, hstatus, hsamples⟩ := h
  obtain ⟨hmem, hspec⟩ := interface_of_port hspecs hhandles hport hfind hf
  refine ⟨f, hmem, hspec, pin, ?_, readsPin_stands hstands hsamples⟩
  rw [← hstatus, Fifo.statusPin?, hspec]
  rfl

/-- What was built probe by probe is found in the netlist. -/
theorem Surveys.probesAtOnce (h : Surveys fifos d (watched.map portName) block)
    (hwatched : ∀ port ∈ watched, port ∈ ports) :
    ∃ B I O i entry exit, ProbesAtOnce d block watched B I O i entry exit := by
  obtain ⟨b, hstands, hwatches⟩ := h
  obtain ⟨B, owner, clock, reset, go, hB, hbox⟩ := hstands.node
  obtain ⟨I, o, hI, hin, hstart⟩ := hstands.inBuf
  obtain ⟨O, hO, hout⟩ := hstands.outBuf
  rw [List.forall₂_map_left_iff] at hwatches
  refine ⟨B, I, O, _, o, _, hB, hbox.kind, hbox.interior, hI, hin.outlet?, hbox.outlet?,
    ⟨_, rfl, hO⟩, hbox.start.trans (by rw [hstart]; rfl), ?_,
    hstands.apart.nodup, fun c hc => ?_, hout.go.trans (by rw [hstart]), hout.done⟩
  · refine List.forall₂_map_right_iff.mpr (List.forall₂_iff_get.mpr
      ⟨hwatches.length_eq, fun i h₁ h₂ => ?_⟩)
    exact (hwatches.get h₁ h₂).probes hspecs hhandles (hwatched _ (List.get_mem _ _))
      (hstands.stands _ (List.get_mem _ _))
  · obtain ⟨p, hp, rfl⟩ := List.mem_map.mp hc
    obtain ⟨M, clock, reset, hM, hx⟩ := (hstands.stands p hp).node
    rw [Sheet.goDriver?, hM, hstart]
    exact hx.go

end

end DataflowSynth.Synthesis
