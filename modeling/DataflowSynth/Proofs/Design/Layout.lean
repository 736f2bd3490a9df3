/-
Designs as they are built.

A design under construction is laid out: its root module has an InBuf that repeats the pins from the
world and an OutBuf for the pins to it, every interface has the pins that accessors use, and signals
run forward on its sheet.  Nothing that a design is built with can go wrong then.
-/
import DataflowSynth.Proofs.Design.Sound
import DataflowSynth.Proofs.Sheet.Blocks

namespace DataflowSynth

open Build
open Netlist (Sheet Node Box Outlet Draws Sees Proper InBufNode)

namespace Netlist

/-! ### Root modules -/

/-- The root module with its two buffers. -/
structure Sheet.Hosts (σ : Sheet) (r : ComponentId) (R : Node) (x : Box) (I : Node) (o : Outlet) :
    Prop where
  node : σ.node? r = some R
  box : R.Encloses x
  outlet : ∃ p w, x.outlet = some p ∧ p.outBuf = some w
  inBuf : σ.node? x.interior.inBuf = some I
  inner : InBufNode r I o
  peers : ∀ a ∈ R.data, ∀ b, a.peer = some b → b ∈ o.data

variable {Γ : Ground} {σ τ : Sheet} {r : ComponentId} {R I : Node} {x : Box} {o : Outlet}

/-- A component that brings a reset in step, with its result. -/
def Sheet.Syncs (σ : Sheet) (c : ComponentId) : Prop :=
  ∃ ν o b, σ.node? c = some ν ∧ ν.kind = .globalReset ∧ ν.interior = none ∧
    ν.exits = [(.done, o)] ∧ o.data.head? = some b

/-- What the InBuf of the root module gives out may drive any component. -/
theorem Sheet.Hosts.reaches (h : σ.Hosts r R x I o) {b : BusId} (hb : b ∈ o.data) (c : ComponentId) :
    σ.Reaches c b :=
  ⟨_, I, h.inBuf, by simp [h.inner.buses, Outlet.buses, hb], .inl h.inner.kind⟩

theorem Sheet.Hosts.inBuf_ne (h : σ.Hosts r R x I o) : x.interior.inBuf ≠ r :=
  (ne_of_kinds h.node h.inBuf h.box.notBuffer (by rw [h.inner.kind]; rfl)).symm

/-- A new root module. -/
theorem draws_newRoot (name : String) : Draws Γ (Design.newRoot name) σ fun r τ =>
    ∃ R x I o, τ.Hosts r R x I o ∧ (σ.Orderly → τ.Orderly) := by
  refine .of_bounded fun hσ => ?_
  refine .bind (draws_newBox (K := []) (ComponentKind.fitsIn_of_none rfl rfl) (by simp) name)
    fun m τ hτ => ?_
  obtain ⟨rfl, M, I, o, hM, hI, rfl⟩ := hτ
  have hτ : (σ.adds [M, I]).Bounded := (hσ.add M).add I
  have hnode : (σ.adds [M, I]).node? σ.next = some M := Sheet.node?_next_adds ..
  have hinner : (σ.adds [M, I]).node? (σ.fresh 1) = some I :=
    Sheet.node?_adds_fresh σ [M, I] (k := 1) (by simp)
  refine .bind (draws_makeExit_box hnode hM rfl) fun e ρ hρ => .pure ?_
  obtain ⟨R, O, done, hR, hO, hρ⟩ := hρ
  have hexited : (σ.adds [M, I]).Exited σ.next _ none ρ := ⟨R, O, e, done, hR, hO, hρ⟩
  have hdata : R.data = [] := by simpa using hR.inputs
  have hroot : ρ.node? σ.next = some R := by
    rw [hρ, Sheet.node?_add_of_ne _ _ (by simpa using hτ.ne_next hnode), Sheet.node?_set_self]
  refine ⟨R, _, I, o, ⟨hroot, hR, ⟨_, _, rfl, rfl⟩, ?_, hI, by simp [hdata]⟩, fun ho =>
    hexited.orderly hnode hτ hM rfl (ho.adds_empty hσ hM hI)⟩
  rw [hexited.same ?_ (hτ _ I hinner), hinner]
  exact (ne_of_kinds hnode hinner hM.notBuffer (by rw [hI.kind]; rfl)).symm

/-- The root module gets a port for a pin. -/
theorem draws_makeInput (h : σ.Hosts r R x I o) (name : String) (signal : Signal) :
    Draws Γ (do
      let p ← makeDataPort r name
      setPortSignal p signal
      setBusSignal (← Build.expect .noDesignBus (← port p).peer) signal
      changePort p fun y => { y with sideband := true }
      return p) σ fun p τ => ∃ R' x' I' o' b, τ.Hosts r R' x' I' o' ∧
        R'.data = R.data ++ [{ port := p, peer := some b }] ∧
        (∀ c ν, σ.node? c = some ν → ν.kind.isBuffer = false → c ≠ r → τ.node? c = some ν) ∧
        (σ.Orderly → τ.Orderly) := by
  refine .bind (draws_makeDataPort_box h.node h.box h.inBuf h.inner name) fun p τ hτ => ?_
  obtain ⟨R', I', b, hR', hI', hdata, rfl⟩ := hτ
  have hnode := Sheet.node?_set_self (σ.set x.interior.inBuf I') r R'
  have hinBuf : ((σ.set x.interior.inBuf I').set r R').node? x.interior.inBuf = some I' := by
    rw [Sheet.node?_set_of_ne _ _ h.inBuf_ne, Sheet.node?_set_self]
  have hpad : ({ port := p, peer := some b } : Pad) ∈ R'.pads :=
    Node.data_mem_pads (by simp [hdata])
  refine .bind (draws_setPortSignal hnode hpad signal) fun _ τ hτ => ?_
  subst hτ
  refine .look (sees_port hnode hpad) fun y hy => ?_
  refine .read (.expect hy.2 rfl) ?_
  refine .bind (draws_setBusSignal (Sheet.gives_of_mem hinBuf (by simp [hI'.buses, Outlet.buses])) _)
    fun _ τ hτ => ?_
  subst hτ
  refine .bind (draws_changePort hnode hpad (fun _ => rfl) fun _ => rfl) fun _ τ hτ => ?_
  subst hτ
  have hframe : ∀ c ν, σ.node? c = some ν → ν.kind.isBuffer = false → c ≠ r →
      ((σ.set x.interior.inBuf I').set r R').node? c = some ν := by
    intro c ν hν hkind hc
    have hne := ne_of_kinds hν h.inBuf hkind (by rw [h.inner.kind]; rfl)
    rw [Sheet.node?_set_of_ne _ _ hc, Sheet.node?_set_of_ne _ _ hne, hν]
  refine .pure ⟨R', _, I', _, b, ⟨hnode, hR', h.outlet, hinBuf, hI', fun a ha d hd => ?_⟩, hdata,
    hframe, fun ho => ?_⟩
  · rw [hdata] at ha
    rcases List.mem_append.mp ha with ha | ha
    · exact List.mem_append_left _ (h.peers a ha d hd)
    · obtain rfl := List.mem_singleton.mp ha
      exact List.mem_append_right _ (by simpa using hd.symm)
  · exact ho.port h.node h.box h.inBuf h.inner hR' hI'

/-- The root module gets a bus for a pin. -/
theorem draws_makeOutput (h : σ.Hosts r R x I o) (name : String) (signal : Signal) :
    Draws Γ (do
      let b ← makeDataBus (← mainExit r) name
      setBusSignal b signal
      changeBus b fun y => { y with sideband := true }
      return b) σ fun _ τ => ∃ R' x', τ.Hosts r R' x' I o ∧ R'.data = R.data ∧
        (∀ c ν, σ.node? c = some ν → ν.kind.isBuffer = false → c ≠ r → τ.node? c = some ν) ∧
        (σ.Orderly → τ.Orderly) := by
  obtain ⟨p, w, hp, hw⟩ := h.outlet
  have hexits : R.exits = [(.done, p)] := by simp [h.box.exits, hp]
  have houtlet : R.outlet? .done = some p := h.box.outlet?.trans hp
  refine .of_proper fun n hn hσ => ?_
  obtain ⟨μ, hμ, hout, -⟩ := (hσ ▸ hn.outBufNode (hσ ▸ h.node) (Node.outlet?_mem houtlet) hw :
    ∃ μ, σ.node? w = some μ ∧ OutBufNode r μ ∧ μ.data.length = p.data.length)
  have hrw := ne_of_kinds h.node hμ h.box.notBuffer (by rw [hout.kind]; rfl)
  have hiw : x.interior.inBuf ≠ w := by
    intro heq
    have hkinds : I = μ := Option.some.inj (h.inBuf.symm.trans (heq ▸ hμ))
    exact absurd (h.inner.kind.symm.trans (hkinds ▸ hout.kind)) (by decide)
  refine .read (sees_mainExit h.node houtlet) ?_
  refine .bind (draws_makeDataBus_module h.node h.box.notBuffer hexits hw hμ name) fun b τ hτ => ?_
  obtain ⟨q, hτ⟩ := hτ
  let R' : Node := { R with exits := [(.done, { p with data := p.data ++ [b] })] }
  have hR' : R'.Encloses { x with outlet := some { p with data := p.data ++ [b] } } :=
    { h.box with exits := rfl }
  have hnode : τ.node? r = some R' := by
    rw [hτ, Sheet.node?_set_of_ne _ _ hrw, Sheet.node?_set_self]
  have hgives : τ.Gives b := Sheet.gives_of_mem hnode
    (by simp [R', Node.buses, Node.outlets, Outlet.buses])
  refine .bind (draws_setBusSignal hgives _) fun _ τ' hτ' => ?_
  subst hτ'
  refine .bind (draws_changeBus hgives (fun _ => rfl) fun _ => rfl) fun _ τ'' hτ'' => ?_
  subst hτ''
  refine .pure ⟨R', _, ⟨hnode, hR', ⟨_, w, rfl, hw⟩, ?_, h.inner, h.peers⟩, rfl,
    fun c ν hν hkind hc => ?_, fun ho => ?_⟩
  · rw [hτ, Sheet.node?_set_of_ne _ _ hiw, Sheet.node?_set_of_ne _ _ h.inBuf_ne]
    exact h.inBuf
  · have hne := ne_of_kinds hν hμ hkind (by rw [hout.kind]; rfl)
    rw [hτ, Sheet.node?_set_of_ne _ _ hne, Sheet.node?_set_of_ne _ _ hc, hν]
  · rw [hτ]
    have hroot : (σ.set r R').Orderly := by
      refine ho.rewire h.node rfl rfl (fun d hd => ?_) fun _ _ hd => .inl hd
      simp only [Node.buses, Node.outlets, hexits, R', List.map_cons, List.map_nil,
        List.flatMap_cons, List.flatMap_nil, Outlet.buses, List.append_nil, List.mem_cons,
        List.mem_append] at hd ⊢
      tauto
    refine hroot.rewire (ν := μ) ?_ rfl rfl (fun _ hd => hd) fun hthrough => ?_
    · rw [Sheet.node?_set_of_ne _ _ hrw.symm, hμ]
    · exact absurd (hout.kind ▸ hthrough) (by decide)

/-- A clock and a reset are connected to a component with a data port. -/
theorem draws_connectSync {c : ComponentId} {ν : Node} (hν : σ.node? c = some ν) {a : Pad}
    (ha : ν.data[0]? = some a) {clock reset : Option BusId}
    (hclock : ∀ d, clock = some d → σ.Reaches c d) (hreset : ∀ d, reset = some d → σ.Reaches c d) :
    Draws Γ (do
      setBus (← component c).clock clock
      setBus (← dataPort c 0) reset) σ fun _ τ => σ.Rewired (· = c) τ := by
  refine .look (sees_component hν) fun x hx => ?_
  rw [hx.clock]
  refine .bind (draws_connect? hν ν.clock_mem_pads hclock) fun _ τ hτ => ?_
  obtain ⟨ν', hν', halike⟩ := hτ.alike c ν hν
  have hport : (ν'.data.map Pad.port)[0]? = some a.port := by
    rw [halike.data, List.getElem?_map, ha]
    rfl
  rw [List.getElem?_map] at hport
  obtain ⟨a', ha', -⟩ := Option.map_eq_some_iff.mp hport
  refine .read (sees_dataPort hν' ha') ?_
  exact (draws_connect? hν' (Node.data_mem_pads (List.mem_of_getElem? ha'))
    fun d hd => (hreset d hd).grow hτ.grows).mono fun _ ρ hρ => hτ.trans hρ

/-- The root module gets a new component that brings a reset in step. -/
theorem draws_newSync (h : σ.Hosts r R x I o) : Draws Γ (do
      let sync ← newPrimitive .globalReset "globalReset" 1 .bit
      setConsumesClock sync true
      addComponent r sync
      return sync) σ fun c τ => c = σ.next ∧ ∃ ν b, ν.Shows {
        kind := .globalReset, owner := some r, inputs := [none], results := [b] } ∧
        τ = (σ.add ν).set r (R.adopt σ.next) := by
  refine .of_bounded fun hσ => ?_
  refine .bind (draws_newPrimitive (K := []) (ComponentKind.fitsIn_of_none rfl rfl) (by simp) rfl _ 1
    .bit) fun c τ hτ => ?_
  obtain ⟨rfl, ν, b, hν, rfl⟩ := hτ
  refine .bind (draws_setConsumesClock (Sheet.node?_add_next ..) true) fun _ τ hτ => ?_
  subst hτ
  refine .bind (draws_adopt h.node h.box.interior hν rfl (hσ.ne_next h.node)) fun _ τ hτ => .pure ?_
  obtain ⟨ν', hν', rfl⟩ := hτ
  exact ⟨rfl, ν', b, hν', rfl⟩

end Netlist

namespace Design

/-! ### Designs under construction -/

/-- What the sheet of a design shows, and what its handles lead to. -/
structure Layout (d : Design) (σ : Sheet) : Prop where
  orderly : σ.Orderly
  root : ∃ R x I o, σ.Hosts d.root R x I o ∧
    ∀ h p q, d.pins.get? h = some p → p.link = .port q → ∃ a ∈ R.data, a.port = q
  fifos : ∀ h f, d.fifos.get? h = some f → f.Usable d.pins.size
  syncs : ∀ spec domain s, d.domains.find? spec = some domain → domain.sync = some s → σ.Syncs s

structure Laid (d : Design) : Prop where
  proper : Proper d.pins.size d.netlist
  layout : d.Layout d.netlist.sheet

theorem Layout.laid {d : Design} {n : Netlist} (h : d.Layout n.sheet) (hn : Proper d.pins.size n) :
    Laid { d with netlist := n } :=
  ⟨hn, h.orderly, h.root, h.fifos, h.syncs⟩

/-- A root module makes a design of a netlist. -/
theorem laid_newRoot {n : Netlist} (hn : Proper { pins := 0 } n) (ho : n.sheet.Orderly) (name : String) : Laid (
    let (outcome, traced) := (newRoot name).run { state := n }
    { name, netlist := traced.state, root := (outcome.toOption).getD ⟨0⟩ }) := by
  have hroot := Netlist.draws_newRoot name ⟨n, #[]⟩ hn rfl
  unfold wp at hroot
  cases hrun : newRoot name ⟨n, #[]⟩ with
  | ok root t =>
      rw [hrun] at hroot
      obtain ⟨hproper, R, x, I, o, hosts, horderly⟩ := hroot
      have heq : (newRoot name).run ⟨n, #[]⟩ = (.ok root, t) := by
        unfold Build.run
        rw [hrun]
      rw [heq]
      exact ⟨hproper, horderly ho, ⟨R, x, I, o, hosts, by simp⟩, by simp, by simp⟩
  | error e t =>
      rw [hrun] at hroot
      exact hroot.elim

/-- A design starts with a root module and nothing else. -/
theorem laid_new (name : String) : (Design.new name).Laid := by
  have hempty : ∀ c ν, ({} : Netlist).sheet.node? c ≠ some ν := fun c ν hν =>
    absurd (Netlist.lt_of_node? hν) (Nat.not_lt_zero _)
  have hproper : Netlist.Proper { pins := 0 } {} := Netlist.proper_refl { pins := 0 }
  exact laid_newRoot hproper
    ⟨fun c ν hν => absurd hν (hempty c ν), fun c ν i hν => absurd hν (hempty c ν)⟩ name

/-- Tasks, registers, memories and the names of pins are not part of the layout. -/
theorem Laid.congr {d d' : Design} (h : d.Laid) (hnetlist : d'.netlist = d.netlist)
    (hroot : d'.root = d.root) (hpins : d'.pins = d.pins) (hfifos : d'.fifos = d.fifos)
    (hdomains : d'.domains = d.domains) : d'.Laid := by
  refine ⟨?_, ?_, ?_, ?_, ?_⟩
  · rw [hpins, hnetlist]
    exact h.proper
  · rw [hnetlist]
    exact h.layout.orderly
  · rw [hnetlist, hroot, hpins]
    exact h.layout.root
  · rw [hpins, hfifos]
    exact h.layout.fifos
  · rw [hnetlist, hdomains]
    exact h.layout.syncs

/-- The root module may have one more child; components without an interior are as before. -/
theorem Layout.grow {d : Design} {σ τ : Sheet} (h : d.Layout σ)
    (hroot : ∀ R, σ.node? d.root = some R →
      τ.node? d.root = some R ∨ ∃ c, τ.node? d.root = some (R.adopt c))
    (hframe : ∀ c ν, σ.node? c = some ν → ν.interior = none → τ.node? c = some ν)
    (ho : τ.Orderly) : d.Layout τ := by
  refine ⟨ho, ?_, h.fifos, fun spec domain s hdomain hs => ?_⟩
  · obtain ⟨R, x, I, o, hosts, hlinks⟩ := h.root
    rcases hroot R hosts.node with hR | ⟨c, hR⟩
    · exact ⟨R, x, I, o, { hosts with
        node := hR
        inBuf := hframe _ I hosts.inBuf hosts.inner.interior }, hlinks⟩
    · exact ⟨R.adopt c, _, I, o, ⟨hR, hosts.box.adopt c, hosts.outlet,
        hframe _ I hosts.inBuf hosts.inner.interior, hosts.inner, hosts.peers⟩, hlinks⟩
  · obtain ⟨ν, o, b, hν, hkind, hi, hrest⟩ := h.syncs spec domain s hdomain hs
    exact ⟨ν, o, b, hframe s ν hν hi, hkind, hi, hrest⟩

section

variable {α : Type} {d : Design} {s : Traced Design} {F : Failure → Traced Design → Prop}

/-- A step on the netlist that is known on sheets. -/
theorem wp_wiring_proper {x : Netlist.Step α} {P : α → Sheet → Prop} {Q : α → Traced Design → Prop}
    (hs : Proper s.state.pins.size s.state.netlist)
    (hx : Draws s.state.pins.size x s.state.netlist.sheet P)
    (hQ : ∀ a n journal, Proper s.state.pins.size n → P a n.sheet →
      Q a ⟨{ s.state with netlist := n }, journal⟩) : wp (wiring x) Q F s :=
  wp_within.mpr (wp_mono (hx ⟨s.state.netlist, s.journal⟩ hs rfl)
    (fun a t ht => hQ a t.state t.journal ht.1 ht.2) fun _ _ h => h.elim)

theorem wp_wiring {x : Netlist.Step α} {P : α → Sheet → Prop} {Q : α → Traced Design → Prop}
    (hs : s.state.Laid) (hx : Draws s.state.pins.size x s.state.netlist.sheet P)
    (hQ : ∀ a n journal, Proper s.state.pins.size n → P a n.sheet →
      Q a ⟨{ s.state with netlist := n }, journal⟩) : wp (wiring x) Q F s :=
  wp_wiring_proper hs.proper hx hQ

end

theorem usable_mono {pins pins' : Nat} {f : Fifo} (h : f.Usable pins) (hle : pins ≤ pins') :
    f.Usable pins' :=
  { h with pins := fun p hp => Nat.lt_of_lt_of_le (h.pins p hp) hle }

/-! ### Pins -/

section

variable {s : Traced Design} {F : Failure → Traced Design → Prop}

/-- The root module has changed for a new pin. -/
theorem Layout.pin {d : Design} {σ τ : Sheet} (hd : d.Layout σ) {R R' : Node} {x x' : Box}
    {I I' : Node} {o o' : Outlet} (hσ : σ.Hosts d.root R x I o)
    (hlinks : ∀ h p q, d.pins.get? h = some p → p.link = .port q → ∃ a ∈ R.data, a.port = q)
    (hτ : τ.Hosts d.root R' x' I' o') (hdata : ∀ a ∈ R.data, a ∈ R'.data) {p : Pin}
    (hp : ∀ q, p.link = .port q → ∃ a ∈ R'.data, a.port = q)
    (hframe : ∀ c ν, σ.node? c = some ν → ν.kind.isBuffer = false → c ≠ d.root →
      τ.node? c = some ν) (horderly : τ.Orderly) (n : Netlist) :
    Layout { d with netlist := n, pins := d.pins.push p } τ := by
  refine ⟨horderly, ⟨R', x', I', o', hτ, fun h q link hq hlink => ?_⟩, fun h f hf => ?_,
    fun spec domain sync hdomain hsync => ?_⟩
  · rcases Arena.get?_push_cases hq with ⟨-, rfl⟩ | hq
    · exact hp link hlink
    · obtain ⟨a, ha, hport⟩ := hlinks h q link hq hlink
      exact ⟨a, hdata a ha, hport⟩
  · exact usable_mono (hd.fifos h f hf) (by simp)
  · obtain ⟨ν, p, b, hν, hkind, hrest⟩ := hd.syncs spec domain sync hdomain hsync
    refine ⟨ν, p, b, hframe sync ν hν (by rw [hkind]; rfl) ?_, hkind, hrest⟩
    rintro rfl
    cases hν.symm.trans hσ.node
    exact absurd (hkind.symm.trans hσ.box.kind) (by simp)

/-- The design has more pins, and maybe another netlist. -/
def Widened (d d' : Design) : Prop :=
  ∃ n pins, d' = { d with netlist := n, pins } ∧ d.pins.size ≤ pins.size ∧ d'.Laid

theorem Widened.trans {d d' d'' : Design} (h : d.Widened d') (h' : d'.Widened d'') :
    d.Widened d'' := by
  obtain ⟨n, pins, rfl, hle, -⟩ := h
  obtain ⟨n', pins', rfl, hle', hlaid⟩ := h'
  exact ⟨n', pins', rfl, Nat.le_trans hle hle', hlaid⟩

theorem Widened.laid {d d' : Design} (h : d.Widened d') : d'.Laid := by
  obtain ⟨n, pins, -, -, hlaid⟩ := h
  exact hlaid

theorem Widened.le {d d' : Design} (h : d.Widened d') : d.pins.size ≤ d'.pins.size := by
  obtain ⟨n, pins, rfl, hle, -⟩ := h
  exact hle

theorem wp_addPin {d : Design} {n : Netlist} {journal : Journal} {p : Pin}
    (hproper : Proper d.pins.size n)
    (hlayout : Layout { d with netlist := n, pins := d.pins.push p } n.sheet) :
    wp (addPin p) (fun h t => d.Widened t.state ∧ h.index < t.state.pins.size) F
      ⟨{ d with netlist := n }, journal⟩ := by
  have hsize : d.pins.size ≤ (d.pins.push p).size := by simp
  simp only [addPin, wp_bind, wp_look, wp_change, wp_pure]
  refine ⟨⟨n, d.pins.push p, rfl, hsize, ?_, hlayout⟩, by simp⟩
  exact ⟨hproper.linked.morePins hsize, hproper.shaped, hproper.guarded⟩

theorem wp_addInputPin (hs : s.state.Laid) (name : String) (signal : Signal) (role : PinRole) :
    wp (addInputPin name signal role)
      (fun h t => s.state.Widened t.state ∧ h.index < t.state.pins.size) F s := by
  obtain ⟨R, x, I, o, hosts, hlinks⟩ := hs.layout.root
  rw [addInputPin, wp_bind, wp_look, wp_bind]
  refine wp_wiring hs (Netlist.draws_makeInput hosts name signal) fun p n journal hproper hp => ?_
  obtain ⟨R', x', I', o', b, hosts', hdata, hframe, horderly⟩ := hp
  refine wp_addPin hproper (hs.layout.pin hosts hlinks hosts' (by simp +contextual [hdata])
    (fun q hq => ?_) hframe (horderly hs.layout.orderly) n)
  cases hq
  exact ⟨{ port := p, peer := some b }, by simp [hdata], rfl⟩

theorem wp_addOutputPin (hs : s.state.Laid) (name : String) (signal : Signal) (role : PinRole) :
    wp (addOutputPin name signal role)
      (fun h t => s.state.Widened t.state ∧ h.index < t.state.pins.size) F s := by
  obtain ⟨R, x, I, o, hosts, hlinks⟩ := hs.layout.root
  rw [addOutputPin, wp_bind, wp_look, wp_bind]
  refine wp_wiring hs (Netlist.draws_makeOutput hosts name signal) fun b n journal hproper hb => ?_
  obtain ⟨R', x', hosts', hdata, hframe, horderly⟩ := hb
  exact wp_addPin hproper (hs.layout.pin hosts hlinks hosts' (by simp [hdata])
    (fun q hq => by cases hq) hframe (horderly hs.layout.orderly) n)

/-! ### Interfaces -/

/-- An interface with a handshake gets all the pins that accessors use. -/
theorem wp_addFifoPins (hs : s.state.Laid) {spec : FifoSpec}
    (hshakes : spec.protocol.isNative = false) :
    wp (addFifoPins spec) (fun pins t => s.state.Widened t.state ∧
      (⟨spec, pins⟩ : Fifo).Usable t.state.pins.size) F s := by
  have hlt : ∀ {h : PinId} {d d' : Design}, d.Widened d' → h.index < d.pins.size →
      h.index < d'.pins.size := fun hw hh => Nat.lt_of_lt_of_le hh hw.le
  rw [addFifoPins]
  split
  · next hinput =>
    rw [wp_bind]
    refine wp_mono (wp_addInputPin hs _ _ _) ?_ fun _ _ h => h
    rintro data t₁ ⟨h₁, hdata⟩
    rw [if_neg (by simp [hshakes]), wp_bind]
    refine wp_mono (wp_addInputPin h₁.laid _ _ _) ?_ fun _ _ h => h
    rintro send t₂ ⟨h₂, hsend⟩
    rw [wp_bind]
    refine wp_mono (wp_addOutputPin h₂.laid _ _ _) ?_ fun _ _ h => h
    rintro ack t₃ ⟨h₃, hack⟩
    refine ⟨h₁.trans (h₂.trans h₃), hshakes, ?_, rfl, rfl, send, ?_, ?_⟩
    · simpa [FifoPins.toList] using ⟨hlt (h₂.trans h₃) hdata, hlt h₃ hsend, hack⟩
    · simp [FifoPins.toList]
    · simp [Fifo.statusPin?, hinput]
  · next houtput =>
    rw [wp_bind]
    refine wp_mono (wp_addOutputPin hs _ _ _) ?_ fun _ _ h => h
    rintro data t₁ ⟨h₁, hdata⟩
    rw [wp_bind]
    refine wp_mono (wp_addOutputPin h₁.laid _ _ _) ?_ fun _ _ h => h
    rintro send t₂ ⟨h₂, hsend⟩
    rw [wp_bind]
    refine wp_mono (wp_addInputPin h₂.laid _ _ _) ?_ fun _ _ h => h
    rintro ack t₃ ⟨h₃, hack⟩
    rw [wp_bind]
    refine wp_mono (wp_addInputPin h₃.laid _ _ _) ?_ fun _ _ h => h
    rintro ready t₄ ⟨h₄, hready⟩
    refine ⟨h₁.trans (h₂.trans (h₃.trans h₄)), hshakes, ?_, rfl, rfl, ready, ?_, ?_⟩
    · simpa [FifoPins.toList] using ⟨hlt (h₂.trans (h₃.trans h₄)) hdata, hlt (h₃.trans h₄) hsend,
        hlt h₄ hack, hready⟩
    · simp [FifoPins.toList]
    · simp [Fifo.statusPin?, houtput]

/-- The design has one more interface. -/
def Serves (d : Design) (spec : FifoSpec) (h : FifoId) (d' : Design) : Prop :=
  ∃ n pins f, d' = { d with netlist := n, pins, fifos := d.fifos.push f } ∧ f.spec = spec ∧
    h = d.fifos.next ∧ d'.Laid

theorem wp_getFifo (hs : s.state.Laid) {spec : FifoSpec} (hshakes : spec.protocol.isNative = false)
    (hnew : s.state.fifoNamed? spec.name spec.direction = none)
    (hF : spec.protocol = .object → ∀ e t, F (.error e) t) :
    wp (getFifo spec) (fun h t => spec.protocol ≠ .object ∧ s.state.Serves spec h t.state) F s := by
  simp only [getFifo]
  split
  · next hobject => exact hF hobject _ s
  · next hplain =>
    simp only [wp_bind, wp_look, hnew]
    refine wp_mono (wp_addFifoPins hs hshakes) ?_ fun _ _ h => h
    rintro pins t ⟨hw, husable⟩
    simp only [wp_change, wp_log, wp_pure]
    refine ⟨hplain, ?_⟩
    obtain ⟨n, pins', heq, hle, hlaid⟩ := hw
    refine ⟨n, pins', ⟨spec, pins⟩, by rw [heq], rfl, by rw [heq], hlaid.proper, ?_⟩
    refine ⟨hlaid.layout.orderly, hlaid.layout.root, fun h f hf => ?_, hlaid.layout.syncs⟩
    rcases Arena.get?_push_cases hf with ⟨-, rfl⟩ | hf
    · exact husable
    · exact hlaid.layout.fifos h f hf

/-! ### Clocks and resets -/

theorem wp_wiring_sees {α : Type} {x : Netlist.Step α} {P : α → Prop} {Q : α → Traced Design → Prop}
    (hs : s.state.Laid) (hx : Sees s.state.pins.size x s.state.netlist.sheet P)
    (hQ : ∀ a, P a → Q a s) : wp (wiring x) Q F s := by
  refine wp_within.mpr (wp_mono (hx ⟨s.state.netlist, s.journal⟩ hs.proper rfl) (fun a t ht => ?_)
    fun _ _ h => h.elim)
  obtain ⟨rfl, ha⟩ := ht
  exact hQ a ha

/-- The value of a pin comes in by the InBuf of the root module. -/
theorem wp_pinBus? (hs : s.state.Laid) (p : PinId) : wp (pinBus? p) (fun b t => t = s ∧
    ∀ d, b = some d → ∀ c, s.state.netlist.sheet.Reaches c d) F s := by
  obtain ⟨R, x, I, o, hosts, hlinks⟩ := hs.layout.root
  rw [pinBus?, wp_bind, wp_look]
  split
  · next pin q hpin =>
    obtain ⟨a, ha, rfl⟩ := hlinks p _ q hpin rfl
    rw [wp_bind]
    refine wp_wiring_sees hs (Netlist.sees_port hosts.node (Node.data_mem_pads ha)) fun y hy => ?_
    exact ⟨rfl, fun d hd c => hosts.reaches (hosts.peers a ha d (hy.2.symm.trans hd)) c⟩
  · exact ⟨rfl, by simp⟩

/-- The root module may run a component that brings a reset in step, whatever drives it. -/
theorem Layout.sync {d : Design} {σ τ : Sheet} (h : d.Layout σ) (hσ : σ.Bounded) {R I ν : Node}
    {x : Box} {o : Outlet} (hosts : σ.Hosts d.root R x I o) {b : BusId}
    (hν : ν.Shows { kind := .globalReset, owner := some d.root, inputs := [none], results := [b] })
    (hτ : ((σ.add ν).set d.root (R.adopt σ.next)).Rewired (· = σ.next) τ) : d.Layout τ := by
  have hne := hσ.ne_next hosts.node
  have hold : ∀ c μ, σ.node? c = some μ → μ.interior = none →
      ((σ.add ν).set d.root (R.adopt σ.next)).node? c = some μ := by
    intro c μ hμ hi
    have hc : c ≠ d.root := by
      rintro rfl
      cases hμ.symm.trans hosts.node
      exact absurd (hosts.box.interior.symm.trans hi) (by simp)
    rw [Sheet.node?_set_of_ne _ _ hc, Sheet.node?_add_of_ne _ _ (hσ.ne_next hμ), hμ]
  have horderly : ((σ.add ν).set d.root (R.adopt σ.next)).Orderly := by
    have hadd : (σ.add ν).Orderly := h.orderly.add hσ
      (fun _ b hb => absurd (hν.mem_drivers.mp hb) (by simp)) (by simp [hν.interior])
    refine hadd.seat (by rw [Sheet.node?_add_of_ne _ _ hne, hosts.node]) hosts.box.interior ?_
    exact ⟨ν, Sheet.node?_add_next .., by rw [hν.kind]; rfl,
      by simp [hν.kind, Netlist.ComponentKind.isReg]⟩
  refine h.grow (fun R' hR' => .inr ⟨σ.next, ?_⟩) (fun c μ hμ hi => ?_) (hτ.orderly horderly)
  · cases hosts.node.symm.trans hR'
    rw [hτ.same _ hne, Sheet.node?_set_self]
  · rw [hτ.same c (hσ.ne_next hμ), hold c μ hμ hi]

theorem wp_addSync (hs : s.state.Laid) (clock reset : PinId) : wp (addSync clock reset)
    (fun sync t => ∃ n, t.state = { s.state with netlist := n } ∧ t.state.Laid ∧
      t.state.netlist.sheet.Syncs sync) F s := by
  obtain ⟨R, x, I, o, hosts, hlinks⟩ := hs.layout.root
  have hσ : s.state.netlist.sheet.Bounded := fun _ _ hν => Netlist.lt_of_node? hν
  rw [addSync, wp_bind, wp_look, wp_bind]
  refine wp_wiring hs (Netlist.draws_newSync hosts) fun sync n journal hproper hsync => ?_
  obtain ⟨rfl, ν, result, hν, hsheet⟩ := hsync
  have hlayout : ∀ τ : Sheet, n.sheet.Rewired (· = s.state.netlist.sheet.next) τ →
      s.state.Layout τ := fun τ hτ => hs.layout.sync hσ hosts hν (hsheet ▸ hτ)
  have hsync : n.sheet.node? s.state.netlist.sheet.next = some ν := by
    rw [hsheet]
    exact Netlist.node?_adopted (hσ.ne_next hosts.node)
  have hlaid : Laid { s.state with netlist := n } := (hlayout _ (.refl _)).laid hproper
  rw [wp_bind]
  refine wp_mono (wp_pinBus? hlaid clock) ?_ fun _ _ h => h
  rintro clockBus t₁ ⟨ht₁, hclock⟩
  rw [ht₁, wp_bind]
  refine wp_mono (wp_pinBus? hlaid reset) ?_ fun _ _ h => h
  rintro resetBus t₂ ⟨ht₂, hreset⟩
  rw [ht₂, wp_bind]
  have hdata : ∃ a, ν.data[0]? = some a := by
    have hlength : ν.data.length = 1 := by simpa using congrArg List.length hν.data
    exact ⟨_, List.getElem?_eq_getElem (by omega)⟩
  obtain ⟨a, ha⟩ := hdata
  refine wp_wiring hlaid (Netlist.draws_connectSync hsync ha (fun d hd => hclock d hd _)
    fun d hd => hreset d hd _) fun _ n' journal' hproper' hrewired => ?_
  obtain ⟨ν', hν', halike⟩ := hrewired.alike _ ν hsync
  obtain ⟨e, done, hexits⟩ := hν.exits
  refine ⟨n', rfl, (hlayout _ hrewired).laid hproper', ν', _, result, hν', halike.kind.trans hν.kind,
    halike.interior.trans hν.interior, halike.exits.trans hexits, rfl⟩

/-- Only what clocks and resets are known by has changed, apart from pins and netlist. -/
def Clocked (d d' : Design) : Prop :=
  ∃ n pins domains clockPins resetPins, d' = { d with
    netlist := n, pins := pins, domains := domains, clockPins := clockPins, resetPins := resetPins } ∧
    d'.Laid

theorem Clocked.trans {d d' d'' : Design} (h : d.Clocked d') (h' : d'.Clocked d'') :
    d.Clocked d'' := by
  obtain ⟨n, pins, domains, clockPins, resetPins, rfl, -⟩ := h
  obtain ⟨n', pins', domains', clockPins', resetPins', rfl, hlaid⟩ := h'
  exact ⟨n', pins', domains', clockPins', resetPins', rfl, hlaid⟩

theorem Clocked.laid {d d' : Design} (h : d.Clocked d') : d'.Laid := by
  obtain ⟨n, pins, domains, clockPins, resetPins, -, hlaid⟩ := h
  exact hlaid

theorem wp_clockPin (hs : s.state.Laid) {name : String} (hreset : s.state.resetPins = ∅)
    (hclock : s.state.clockPins = ∅) : wp (clockPin name) (fun p t => s.state.Clocked t.state ∧
      t.state.resetPins = ∅ ∧ t.state.domains = s.state.domains ∧
      t.state.clockPins = (∅ : OrderedMap String PinId).put name p) F s := by
  simp only [clockPin, wp_bind, wp_look]
  rw [if_neg (by simp [hreset, OrderedMap.contains])]
  simp only [wp_bind, wp_look, hclock, OrderedMap.find?_empty]
  refine wp_mono (wp_addInputPin hs _ _ _) ?_ fun _ _ h => h
  rintro p t ⟨ht, _⟩
  obtain ⟨n, pins, heq, -, hlaid⟩ := ht
  simp only [wp_change, wp_pure]
  refine ⟨?_, by rw [heq]; exact hreset, by rw [heq], by rw [heq, hclock]⟩
  rw [heq]
  exact ⟨n, pins, _, _, _, rfl, (heq ▸ hlaid).congr rfl rfl rfl rfl rfl⟩

theorem wp_resetPin (hs : s.state.Laid) {name clock : String} (hne : name ≠ clock) {p : PinId}
    (hreset : s.state.resetPins = ∅)
    (hclock : s.state.clockPins = (∅ : OrderedMap String PinId).put clock p) :
    wp (resetPin name clock) (fun _ t => s.state.Clocked t.state ∧
      t.state.domains = s.state.domains) F s := by
  have hfree : s.state.clockPins.contains name = false := by
    rw [hclock, OrderedMap.contains, OrderedMap.find?_put_of_ne _ hne]
    rfl
  rw [resetPin, if_neg hne]
  simp only [wp_bind, wp_look]
  rw [if_neg (by simp [hfree])]
  simp only [wp_bind, wp_look, hreset, OrderedMap.find?_empty]
  refine wp_mono (wp_addInputPin hs _ _ _) ?_ fun _ _ h => h
  rintro p t ⟨ht, _⟩
  obtain ⟨n, pins, heq, -, hlaid⟩ := ht
  simp only [wp_change, wp_pure]
  refine ⟨?_, by rw [heq]⟩
  rw [heq]
  exact ⟨n, pins, _, _, _, rfl, (heq ▸ hlaid).congr rfl rfl rfl rfl rfl⟩

/-- The first domain is entered under its specification. -/
theorem wp_enterDomain {d : Design} (hs : d.Clocked s.state) (hnone : s.state.domains = ∅)
    {spec : String} {domain : ClockDomain}
    (hsync : ∀ sync, domain.sync = some sync → s.state.netlist.sheet.Syncs sync) :
    wp (do
      Build.change fun d => { d with domains := d.domains.put spec domain }
      return domain) (fun _ t => d.Clocked t.state ∧
        ∃ domain, t.state.domains.find? spec = some domain) F s := by
  obtain ⟨n, pins, domains, clockPins, resetPins, heq, hlaid⟩ := hs
  simp only [wp_bind, wp_change, wp_pure]
  refine ⟨⟨n, pins, _, clockPins, resetPins, by rw [heq], hlaid.proper, hlaid.layout.orderly,
    hlaid.layout.root, hlaid.layout.fifos, fun name found sync hfound hs => ?_⟩, domain, by simp⟩
  by_cases hname : name = spec
  · rw [hname, OrderedMap.find?_put_self] at hfound
    cases hfound
    exact hsync sync hs
  · rw [OrderedMap.find?_put_of_ne _ hname, hnone] at hfound
    exact absurd hfound (by simp)

/-- The first domain of a design. -/
theorem wp_clockDomain (hs : s.state.Laid) {spec : String} (hdomains : s.state.domains = ∅)
    (hreset : s.state.resetPins = ∅) (hclock : s.state.clockPins = ∅)
    (hF : (parseDomain spec).1 = "" ∨ (parseDomain spec).2 = some (parseDomain spec).1 →
      ∀ e t, F (.error e) t) :
    wp (clockDomain spec) (fun _ t => (parseDomain spec).1 ≠ "" ∧
      (parseDomain spec).2 ≠ some (parseDomain spec).1 ∧ s.state.Clocked t.state ∧
      ∃ domain, t.state.domains.find? spec = some domain) F s := by
  simp only [clockDomain, wp_bind, wp_look, hdomains, OrderedMap.find?_empty]
  by_cases hname : (parseDomain spec).1 = ""
  · rw [if_pos hname]
    exact hF (.inl hname) _ s
  by_cases hboth : (parseDomain spec).2 = some (parseDomain spec).1
  · rw [if_neg hname, if_pos hboth]
    exact hF (.inr hboth) _ s
  rw [if_neg hname, if_neg hboth]
  refine wp_mono (Q := fun _ t => s.state.Clocked t.state ∧
    ∃ domain, t.state.domains.find? spec = some domain) ?_ (fun _ _ h => ⟨hname, hboth, h⟩)
    fun _ _ h => h
  rw [wp_bind]
  refine wp_mono (wp_clockPin hs hreset hclock) ?_ fun _ _ h => h
  rintro clock t ⟨ht, hresets, hdomain, hclocks⟩
  cases hp : (parseDomain spec).2 with
  | none =>
      simp only [pure_bind]
      refine wp_enterDomain ht (hdomain.trans hdomains) fun sync hsync => ?_
      exact absurd hsync (by simp)
  | some reset =>
      have hne : reset ≠ (parseDomain spec).1 := fun heq => hboth (by rw [hp, heq])
      simp only [pure_bind]
      rw [wp_bind]
      refine wp_mono (wp_resetPin ht.laid hne hresets hclocks) ?_ fun _ _ h => h
      rintro reset t₁ ⟨ht₁, hdomain₁⟩
      rw [wp_bind]
      refine wp_mono (wp_addSync ht₁.laid _ _) (fun sync t₂ ht₂ => ?_) fun _ _ h => h
      obtain ⟨n, heq, hlaid, hsync⟩ := ht₂
      have hclocked : t₁.state.Clocked t₂.state := ⟨n, _, _, _, _, heq, hlaid⟩
      refine wp_enterDomain (ht.trans (ht₁.trans hclocked)) ?_ fun sync' hsync' => ?_
      · rw [heq]
        exact hdomain₁.trans (hdomain.trans hdomains)
      · cases hsync'
        exact hsync

/-- A domain that is known is found again. -/
theorem wp_clockDomain_found {spec : String} {domain : ClockDomain}
    (hdomain : s.state.domains.find? spec = some domain) :
    wp (clockDomain spec) (fun found t => t = s ∧ found = domain) F s := by
  simp only [clockDomain, wp_bind, wp_look, hdomain]
  exact ⟨rfl, rfl⟩

/-! ### Tasks -/

/-- Only drivers of a module other than the root have changed. -/
theorem Laid.rewire (hs : s.state.Laid) {c : ComponentId} {ν : Node} {y : Box}
    (hν : s.state.netlist.sheet.node? c = some ν) (hy : ν.Encloses y) (hc : c ≠ s.state.root)
    {n : Netlist} (hproper : Proper s.state.pins.size n)
    (hn : s.state.netlist.sheet.Rewired (· = c) n.sheet) : Laid { s.state with netlist := n } := by
  refine (hs.layout.grow (fun R hR => .inl ?_) (fun e μ hμ hi => ?_)
    (hn.orderly hs.layout.orderly)).laid hproper
  · rw [hn.same _ hc.symm, hR]
  · have hne : e ≠ c := by
      rintro rfl
      cases hμ.symm.trans hν
      exact absurd (hy.interior.symm.trans hi) (by simp)
    rw [hn.same e hne, hμ]

theorem wp_connectToDomain (hs : s.state.Laid) {c : ComponentId} {ν : Node} {y : Box}
    (hν : s.state.netlist.sheet.node? c = some ν) (hy : ν.Encloses y) (hc : c ≠ s.state.root)
    {domain : ClockDomain} (hsync : ∀ sync, domain.sync = some sync →
      s.state.netlist.sheet.Syncs sync ∧ sync.index < c.index) :
    wp (connectToDomain c domain)
      (fun _ t => ∃ n, t.state = { s.state with netlist := n } ∧ t.state.Laid ∧
        s.state.netlist.sheet.Rewired (· = c) n.sheet) F s := by
  rw [connectToDomain_eq, wp_bind]
  refine wp_wiring_sees hs (Netlist.sees_component hν) fun x hx => ?_
  have hreset : ∀ n journal, Proper s.state.pins.size n →
      s.state.netlist.sheet.Rewired (· = c) n.sheet → wp (connectReset x domain)
        (fun _ t => ∃ n, t.state = { s.state with netlist := n } ∧ t.state.Laid ∧
          s.state.netlist.sheet.Rewired (· = c) n.sheet) F
        ⟨{ s.state with netlist := n }, journal⟩ := by
    intro n journal hproper hn
    have hlaid := hs.rewire hν hy hc hproper hn
    obtain ⟨ν', hν', halike⟩ := hn.alike c ν hν
    obtain ⟨a, ha, hport⟩ := halike.pad ν.reset_mem_pads
    rw [connectReset, hx.reset, ← hport]
    split
    · split
      · exact ⟨n, rfl, hlaid, hn⟩
      · next sync hs' =>
        obtain ⟨⟨μ, o, b, hμ, hkind, hi, hexits, hb⟩, hlt⟩ := hsync sync hs'
        obtain ⟨μ', hμ', halike'⟩ := hn.alike sync μ hμ
        have hexits' := halike'.exits.trans hexits
        have hreach : n.sheet.Reaches c b := ⟨sync, μ', hμ', by
          simp [Node.buses, Node.outlets, hexits', Outlet.buses, List.mem_of_mem_head? hb], .inr hlt⟩
        refine wp_wiring (s := ⟨{ s.state with netlist := n }, journal⟩) hlaid
          (.read (Netlist.sees_resultBus hμ' (o := o) (by simp [Node.outlet?, hexits']) hb)
            (Netlist.draws_connect hν' ha hreach)) fun _ n' journal' hproper' hn' => ?_
        exact ⟨n', rfl, hs.rewire hν hy hc hproper' (hn.trans hn'), hn.trans hn'⟩
    · exact ⟨n, rfl, hlaid, hn⟩
  split
  · rw [wp_bind]
    refine wp_mono (wp_pinBus? hs domain.clock) ?_ fun _ _ h => h
    rintro b t ⟨ht, hb⟩
    rw [ht, wp_bind, hx.clock]
    exact wp_wiring hs (Netlist.draws_connect? hν ν.clock_mem_pads fun d hd => hb d hd c)
      fun _ n journal hproper hn => hreset n journal hproper hn
  · exact hreset s.state.netlist s.journal hs.proper (.refl _)

end

end Design

end DataflowSynth
