/-
Cells: components without an interior, and how they are made and connected.

A cell says of a component what matters for the signals that run through it: what drives it, and which
buses it gives out.  The handles of its ports and exits are left open.
-/
import DataflowSynth.Fifo.Accessor
import DataflowSynth.Proofs.Sheet.Children

namespace DataflowSynth.Netlist

open Build

variable {Γ : Ground} {σ : Sheet} {c m : ComponentId} {ν μ : Node} {i : Interior}

/-! ### Cells -/

/-- A component with its drivers and the results that it gives out at its only exit. -/
structure Cell where
  kind : ComponentKind
  owner : Option ComponentId := none
  clock : Option BusId := none
  reset : Option BusId := none
  go : Option BusId := none
  inputs : List (Option BusId) := []
  results : List BusId := []

/-- The node of a cell. -/
structure Node.Shows (ν : Node) (x : Cell) : Prop where
  kind : ν.kind = x.kind
  owner : ν.owner = x.owner
  clock : ν.clock.driver = x.clock
  reset : ν.reset.driver = x.reset
  go : ν.go.driver = x.go
  this : ν.this = none
  data : ν.data.map Pad.driver = x.inputs
  exits : ∃ e done, ν.exits = [(.done, { exit := e, done, data := x.results })]
  interior : ν.interior = none

namespace Node.Shows

variable {x : Cell} (h : ν.Shows x)

include h

theorem mem_buses {b : BusId} (hb : b ∈ x.results) : b ∈ ν.buses := by
  obtain ⟨e, done, he⟩ := h.exits
  simp [Node.buses, outlets, he, Outlet.buses, hb]

theorem outlet? : ∃ o, ν.outlet? .done = some o ∧ o.data = x.results := by
  obtain ⟨e, done, he⟩ := h.exits
  exact ⟨{ exit := e, done, data := x.results }, by simp [Node.outlet?, he], rfl⟩

theorem mem_drivers {b : BusId} : b ∈ ν.drivers ↔
    x.clock = some b ∨ x.reset = some b ∨ x.go = some b ∨ some b ∈ x.inputs := by
  rw [Node.mem_drivers, h.this, h.clock, h.reset, h.go, ← h.data]
  simp

theorem withOwner (m : ComponentId) :
    { ν with owner := some m }.Shows { x with owner := some m } :=
  { h with owner := rfl }

theorem withClock (b : Option BusId) :
    { ν with clock := { ν.clock with driver := b } }.Shows { x with clock := b } :=
  { h with clock := rfl }

theorem withReset (b : Option BusId) :
    { ν with reset := { ν.reset with driver := b } }.Shows { x with reset := b } :=
  { h with reset := rfl }

theorem withGo (b : Option BusId) :
    { ν with go := { ν.go with driver := b } }.Shows { x with go := b } :=
  { h with go := rfl }

theorem withInput {k : Nat} (a : Pad) (b : Option BusId) :
    { ν with data := ν.data.set k { a with driver := b } }.Shows
      { x with inputs := x.inputs.set k b } :=
  { h with data := by simp [List.map_set, h.data] }

end Node.Shows

/-! ### Components with data ports -/

theorem draws_makeDataPorts (names : List String) (hν : σ.node? c = some ν)
    (hkind : ν.kind.isBuffer = false) (hi : ν.interior = none) :
    Draws Γ (names.forM fun name => discard (makeDataPort c name)) σ fun _ τ =>
      ∃ ps : List PortId, ps.length = names.length ∧
        τ = σ.set c { ν with data := ν.data ++ ps.map fun p => { port := p } } := by
  induction names generalizing σ ν with
  | nil => exact .pure ⟨[], rfl, by simp [Sheet.set_eq_self _ _ hν]⟩
  | cons name names ih =>
      refine .bind (.discard (Q := fun _ τ => ∃ p,
        τ = σ.set c { ν with data := ν.data ++ [{ port := p }] })
        ((draws_makeDataPort hν hkind hi name).mono fun p _ hτ => ⟨p, hτ⟩)) fun _ τ hτ => ?_
      obtain ⟨p, rfl⟩ := hτ
      have hself := Sheet.node?_set_self σ c { ν with data := ν.data ++ [{ port := p }] }
      refine (ih hself hkind hi).mono fun _ τ hτ => ?_
      obtain ⟨ps, hlength, rfl⟩ := hτ
      exact ⟨p :: ps, by simp [hlength], by simp⟩

theorem draws_newComponent_data {kind : ComponentKind} {stem : String} {k : Nat}
    {P Q : ComponentId → Sheet → Prop} (h : Draws Γ (newComponent kind stem 0) σ P)
    (hdata : ∀ c τ, P c τ → Draws Γ ((numberedNames "din" k).forM fun name =>
      discard (makeDataPort c name)) τ fun _ => Q c) :
    Draws Γ (newComponent kind stem k) σ Q := by
  intro s hs hσ
  have hshell := (wp_newShell kind stem).mp (h s hs hσ)
  exact (wp_newComponent kind stem k).mpr (hdata _ _ hshell.2 _ hshell.1 rfl)

theorem draws_makeExit_data {k : Nat} {tag : ExitTag} {P Q : ExitId → Sheet → Prop}
    (h : Draws Γ (makeExit c 0 tag) σ P)
    (hdata : ∀ e τ, P e τ → Draws Γ ((numberedNames "dout" k).forM fun name =>
      discard (makeDataBus e name)) τ fun _ => Q e) :
    Draws Γ (makeExit c k tag) σ Q := by
  intro s hs hσ
  rw [wp_makeExit_data]
  exact wp_mono (h s hs hσ) (fun e t ht => hdata e _ ht.2 t ht.1 rfl) fun _ _ h => h

/-- The node of a new component. -/
structure Node.Bare (ν : Node) (kind : ComponentKind) (k : Nat) : Prop where
  kind : ν.kind = kind
  owner : ν.owner = none
  clock : ν.clock.driver = none
  reset : ν.reset.driver = none
  go : ν.go.driver = none
  this : ν.this = none
  data : ν.data.map Pad.driver = List.replicate k none
  exits : ν.exits = []
  interior : ν.interior = none

theorem draws_newComponent {kind : ComponentKind} {K : List Fact}
    (hkind : kind.FitsIn Γ.scope K) (hK : ∀ f ∈ K, σ.Tells f)
    (hbuf : kind.isBuffer = false) (stem : String) (k : Nat) :
    Draws Γ (newComponent kind stem k) σ fun c τ =>
      c = σ.next ∧ ∃ ν, ν.Bare kind k ∧ τ = σ.add ν := by
  refine draws_newComponent_data (draws_newShell hkind hK stem) fun c τ hτ => ?_
  obtain ⟨rfl, clock, reset, go, rfl⟩ := hτ
  have hν := Sheet.node?_add_next σ (.blank kind clock reset go)
  refine (draws_makeDataPorts _ hν hbuf rfl).mono fun _ τ hτ => ?_
  obtain ⟨ps, hlength, rfl⟩ := hτ
  refine ⟨rfl, _, ⟨rfl, rfl, rfl, rfl, rfl, rfl, ?_, rfl, rfl⟩, by simp [Node.blank]; rfl⟩
  have hk : ps.length = k := by simpa [numberedNames] using hlength
  simp [List.eq_replicate_iff, hk]

section

variable (hν : σ.node? c = some ν) (hkind : ν.kind.isBuffer = false) (hexits : ν.exits = [])

include hν hkind hexits

/-- A component gets its first exit, with one result. -/
theorem draws_makeResult (hi : ν.interior = none) (tag : ExitTag) :
    Draws Γ (makeExit c 1 tag) σ fun e τ => ∃ done b,
      τ = σ.set c { ν with exits := [(tag, { exit := e, done, data := [b] })] } := by
  refine draws_makeExit_data (draws_makeExit hν hkind hi hexits tag) fun e τ hτ => ?_
  obtain ⟨done, rfl⟩ := hτ
  refine .forM_singleton (.discard ?_)
  have hself := Sheet.node?_set_self σ c { ν with exits := [(tag, { exit := e, done })] }
  refine (draws_makeDataBus hself hkind rfl rfl _).mono fun b τ hτ => ⟨done, b, ?_⟩
  rw [hτ]
  simp

end

/-! ### Primitives -/

/-- A component with inputs and one result, and nothing connected. -/
theorem draws_newPrimitive {kind : ComponentKind} {K : List Fact}
    (hkind : kind.FitsIn Γ.scope K) (hK : ∀ f ∈ K, σ.Tells f)
    (hbuf : kind.isBuffer = false) (stem : String) (k : Nat) (signal : Signal) :
    Draws Γ (newPrimitive kind stem k signal) σ fun c τ => c = σ.next ∧
      ∃ ν b, ν.Shows { kind, inputs := List.replicate k none, results := [b] } ∧ τ = σ.add ν := by
  refine .bind (draws_newComponent hkind hK hbuf stem k) fun c τ hτ => ?_
  obtain ⟨rfl, ν, hbare, rfl⟩ := hτ
  have hν := Sheet.node?_add_next σ ν
  refine .bind (draws_makeResult hν (by rw [hbare.kind, hbuf]) hbare.exits hbare.interior .done)
    fun e τ hτ => ?_
  obtain ⟨done, b, rfl⟩ := hτ
  rw [Sheet.set_add_next]
  let ν' : Node := { ν with exits := [(.done, { exit := e, done, data := [b] })] }
  have hshows : ν'.Shows { kind, inputs := List.replicate k none, results := [b] } :=
    ⟨hbare.kind, hbare.owner, hbare.clock, hbare.reset, hbare.go, hbare.this, hbare.data,
      ⟨e, done, rfl⟩, hbare.interior⟩
  have hν' := Sheet.node?_add_next σ ν'
  obtain ⟨o, ho, hresults⟩ := hshows.outlet?
  refine .read (sees_resultBus hν' ho (b := b) (by simp [hresults])) ?_
  refine .bind (draws_setBusSignal (Sheet.gives_of_mem hν' (hshows.mem_buses (by simp))) signal)
    fun _ τ hτ => ?_
  exact hτ ▸ .pure ⟨rfl, ν', b, hshows, rfl⟩

/-- Signals do not show. -/
theorem draws_setPortSignals (hν : σ.node? c = some ν) {ps : List PortId}
    (hps : ps = ν.data.map Pad.port) (signal : Signal) :
    Draws Γ (ps.forM fun p => setPortSignal p signal) σ fun _ τ => τ = σ := by
  refine .forM rfl fun p hp τ hτ => ?_
  subst hτ
  rw [hps] at hp
  obtain ⟨a, ha, rfl⟩ := List.mem_map.mp hp
  exact draws_setPortSignal hν (Node.data_mem_pads ha) signal

theorem draws_newGate (g : Gate) (stem : String) (k : Nat) :
    Draws Γ (newGate g stem k) σ fun c τ => c = σ.next ∧
      ∃ ν b, ν.Shows { kind := g.kind, inputs := List.replicate k none, results := [b] } ∧
        τ = σ.add ν := by
  refine .bind (draws_newPrimitive (K := []) (ComponentKind.fitsIn_of_none (by cases g <;> rfl)
    (by cases g <;> rfl)) (by simp) (by cases g <;> rfl) stem k .bit) fun c τ hτ => ?_
  obtain ⟨rfl, ν, b, hshows, rfl⟩ := hτ
  have hν := Sheet.node?_add_next σ ν
  refine .look (sees_component hν) fun x hx => ?_
  refine .bind (draws_setPortSignals hν hx.dataPorts .bit) fun _ τ hτ => ?_
  exact hτ ▸ .pure ⟨rfl, ν, b, hshows, rfl⟩

theorem draws_newPinRead {pin : PinId} (hpin : pin.index < Γ.pins) (signal : Signal) :
    Draws Γ (newPinRead pin signal) σ fun c τ => c = σ.next ∧
      ∃ ν b, ν.Shows { kind := .pinRead pin, results := [b] } ∧ τ = σ.add ν :=
  draws_newPrimitive (K := []) (ComponentKind.fitsIn_of_pin hpin rfl rfl) (by simp) rfl "pinRead" 0
    signal

theorem draws_newPinWrite {pin : PinId} (hpin : pin.index < Γ.pins) (signal : Signal) :
    Draws Γ (newPinWrite pin signal) σ fun c τ => c = σ.next ∧
      ∃ ν, ν.Shows { kind := .pinWrite pin, inputs := [none] } ∧ τ = σ.add ν := by
  refine .bind (draws_newComponent (K := []) (ComponentKind.fitsIn_of_pin hpin rfl rfl) (by simp) rfl
    "pinWrite" 1) fun c τ hτ => ?_
  obtain ⟨rfl, ν, hbare, rfl⟩ := hτ
  have hν := Sheet.node?_add_next σ ν
  have hlength : ν.data.length = 1 := by simpa using congrArg List.length hbare.data
  obtain ⟨a, ha⟩ := List.length_eq_one_iff.mp hlength
  refine .read (sees_dataPort hν (k := 0) (a := a) (by simp [ha])) ?_
  refine .bind (draws_setPortSignal hν (Node.data_mem_pads (by simp [ha])) signal) fun _ τ hτ => ?_
  subst hτ
  refine .bind (draws_makeExit hν (by rw [hbare.kind]; rfl) hbare.interior hbare.exits .done)
    fun e τ hτ => ?_
  obtain ⟨done, rfl⟩ := hτ
  rw [Sheet.set_add_next]
  refine .bind (draws_mark (Sheet.node?_add_next ..) (fun _ => ⟨rfl, rfl, rfl, rfl, rfl⟩)
    fun _ _ => rfl) fun _ τ hτ => ?_
  exact hτ ▸ .pure ⟨rfl, { ν with exits := [(.done, { exit := e, done })] }, ⟨hbare.kind,
    hbare.owner, hbare.clock, hbare.reset, hbare.go, hbare.this, hbare.data, ⟨e, done, rfl⟩,
    hbare.interior⟩, rfl⟩

/-- A cell gets one more input before it goes on. -/
theorem draws_addInput {β : Type} {rest : Step β} {R : β → Sheet → Prop} (hν : σ.node? c = some ν)
    {x : Cell} (hx : ν.Shows x) (hbuf : x.kind.isBuffer = false) (name : String) (signal : Signal)
    (hrest : ∀ ν', ν'.Shows { x with inputs := x.inputs ++ [none] } →
      Draws Γ rest (σ.set c ν') R) :
    Draws Γ (do setPortSignal (← makeDataPort c name) signal; rest) σ R := by
  refine .bind (draws_makeDataPort hν (by rw [hx.kind, hbuf]) hx.interior name) fun p τ hτ => ?_
  subst hτ
  let ν' : Node := { ν with data := ν.data ++ [{ port := p }] }
  have hν' := Sheet.node?_set_self σ c ν'
  refine .bind (draws_setPortSignal hν' (a := { port := p }) (Node.data_mem_pads (by simp [ν'])) signal)
    fun _ τ hτ => hτ ▸ hrest ν' ?_
  exact { hx with data := by simp [ν', hx.data] }

/-- A flop has three inputs. -/
theorem draws_newReg (kind : RegKind) (stem : String) (signal : Signal) :
    Draws Γ (newReg kind stem signal) σ fun c τ => c = σ.next ∧
      ∃ ν b, ν.Shows { kind := .reg kind, inputs := [none, none, none], results := [b] } ∧
        τ = σ.add ν := by
  refine .bind (draws_newPrimitive (K := []) (ComponentKind.fitsIn_of_none rfl rfl) (by simp) rfl stem
    0 signal) fun c τ hτ => ?_
  obtain ⟨rfl, ν, b, hν, rfl⟩ := hτ
  refine draws_addInput (Sheet.node?_add_next ..) hν rfl _ _ fun ν hν => ?_
  rw [Sheet.set_add_next]
  refine draws_addInput (Sheet.node?_add_next ..) hν rfl _ _ fun ν hν => ?_
  rw [Sheet.set_add_next]
  refine draws_addInput (Sheet.node?_add_next ..) hν rfl _ _ fun ν hν => ?_
  rw [Sheet.set_add_next]
  refine .bind (draws_mark (Sheet.node?_add_next ..) (fun _ => ⟨rfl, rfl, rfl, rfl, rfl⟩)
    fun _ _ => rfl) fun _ τ hτ => ?_
  exact hτ ▸ .pure ⟨rfl, ν, b, hν, rfl⟩

/-! ### Connected cells -/

section

variable {x : Cell} (hν : σ.node? c = some ν) (hx : ν.Shows x)

include hν hx

theorem draws_wire {k : Nat} (hk : k < x.inputs.length) {b : BusId} (hb : σ.Gives b) :
    Draws Γ (Fifo.wire c k b) σ fun _ τ =>
      ∃ ν', ν'.Shows { x with inputs := x.inputs.set k (some b) } ∧ ν'.exits = ν.exits ∧
        τ = σ.set c ν' := by
  have hlength : k < ν.data.length := by
    rw [← hx.data, List.length_map] at hk
    exact hk
  have ha : ν.data[k]? = some ν.data[k] := List.getElem?_eq_getElem hlength
  refine .read (sees_dataPort hν ha) ?_
  refine (draws_setData hν (b := some b) (by simpa using hb) ha).mono fun _ τ hτ => ?_
  exact ⟨_, hx.withInput _ (some b), rfl, hτ⟩

end

theorem sees_resultOf {x : Cell} (hν : σ.node? c = some ν) (hx : ν.Shows x) {b : BusId}
    (hb : x.results.head? = some b) : Sees Γ (resultBus c) σ (· = b) := by
  obtain ⟨o, ho, hresults⟩ := hx.outlet?
  exact sees_resultBus hν ho (hresults ▸ hb)

/-- The inputs of a cell are connected, one after the other. -/
theorem draws_wireFrom {bs : List BusId} (hbs : ∀ b ∈ bs, σ.Gives b) {x : Cell}
    {l : List (Option BusId)} (hinputs : x.inputs = l ++ List.replicate bs.length none)
    (hν : σ.node? c = some ν) (hx : ν.Shows x) :
    Draws Γ (Fifo.wireFrom c l.length bs) σ fun _ τ =>
      ∃ ν', ν'.Shows { x with inputs := l ++ bs.map some } ∧ τ = σ.set c ν' := by
  induction bs generalizing σ ν x l with
  | nil =>
      refine .pure ⟨ν, ?_, (Sheet.set_eq_self _ _ hν).symm⟩
      rw [List.map_nil, ← show x.inputs = l ++ [] from hinputs]
      exact hx
  | cons b bs ih =>
      refine .bind (draws_wire hν hx (by simp [hinputs]) (hbs b (by simp))) fun _ τ hτ => ?_
      obtain ⟨ν', hν', hexits, rfl⟩ := hτ
      have hbuses : ν.buses = ν'.buses := by simp only [Node.buses, Node.outlets, hexits]
      have hgives : ∀ d ∈ bs, (σ.set c ν').Gives d := fun d hd =>
        (hbs d (by simp [hd])).set hν (by simp [hbuses])
      have hnext := ih hgives (l := l ++ [some b])
        (by simp [hinputs, List.replicate_succ])
        (Sheet.node?_set_self ..) hν'
      rw [List.length_append] at hnext
      refine hnext.mono fun _ τ hτ => ?_
      simpa using hτ

/-! ### Cells of a module -/

theorem node?_adopted (hne : m ≠ σ.next) : ((σ.add ν).set m μ).node? σ.next = some ν := by
  rw [Sheet.node?_set_of_ne _ _ hne.symm, Sheet.node?_add_next]

section

variable (hμ : σ.node? m = some μ) (hi : μ.interior = some i)

include hμ hi

/-- A new cell becomes a child. -/
theorem draws_adopt {x : Cell} (hx : ν.Shows x) (howner : x.owner = none) (hne : m ≠ σ.next) :
    Draws Γ (addComponent m σ.next) (σ.add ν) fun _ τ => ∃ ν',
      ν'.Shows { x with owner := some m } ∧ τ = (σ.add ν').set m (μ.adopt σ.next) := by
  refine (draws_addComponent (Sheet.node?_add_next ..) (hx.owner.trans howner)
    (by rw [Sheet.node?_add_of_ne _ _ hne, hμ]) hi hne.symm).mono fun _ τ hτ => ?_
  exact ⟨{ ν with owner := some m }, hx.withOwner m, by rw [hτ, Sheet.set_add_next]⟩

theorem draws_gate (g : Gate) (stem : String) {bs : List BusId} (hbs : ∀ b ∈ bs, σ.Gives b) :
    Draws Γ (Fifo.gate m g stem bs) σ fun b τ => ∃ ν,
      ν.Shows { kind := g.kind, owner := some m, inputs := bs.map some, results := [b] } ∧
        τ = (σ.add ν).set m (μ.adopt σ.next) := by
  refine .of_bounded fun hbounded => ?_
  have hne := hbounded.ne_next hμ
  refine .bind (draws_newGate g stem bs.length) fun c τ hτ => ?_
  obtain ⟨rfl, ν, b, hν, rfl⟩ := hτ
  refine .bind (draws_wireFrom (l := []) (fun b hb => (hbs b hb).add hbounded ν) (by simp)
    (Sheet.node?_add_next ..) hν) fun _ τ hτ => ?_
  obtain ⟨ν, hν, rfl⟩ := hτ
  rw [Sheet.set_add_next]
  refine .bind (draws_adopt hμ hi hν rfl hne) fun _ τ hτ => ?_
  obtain ⟨ν, hν, rfl⟩ := hτ
  refine (sees_resultOf (node?_adopted hne) hν rfl).draws.mono fun d τ hτ => ?_
  obtain ⟨rfl, rfl⟩ := hτ
  exact ⟨ν, hν, rfl⟩

theorem draws_readPin {pin : PinId} (hpin : pin.index < Γ.pins) (signal : Signal) :
    Draws Γ (Fifo.readPin m pin signal) σ fun b τ => ∃ ν,
      ν.Shows { kind := .pinRead pin, owner := some m, results := [b] } ∧
        τ = (σ.add ν).set m (μ.adopt σ.next) := by
  refine .of_bounded fun hbounded => ?_
  have hne := hbounded.ne_next hμ
  refine .bind (draws_newPinRead hpin signal) fun c τ hτ => ?_
  obtain ⟨rfl, ν, b, hν, rfl⟩ := hτ
  refine .bind (draws_adopt hμ hi hν rfl hne) fun _ τ hτ => ?_
  obtain ⟨ν, hν, rfl⟩ := hτ
  refine (sees_resultOf (node?_adopted hne) hν rfl).draws.mono fun d τ hτ => ?_
  obtain ⟨rfl, rfl⟩ := hτ
  exact ⟨ν, hν, rfl⟩

theorem draws_writePin {pin : PinId} (hpin : pin.index < Γ.pins) (signal : Signal) {value go : BusId}
    (hvalue : σ.Gives value) (hgo : σ.Gives go) :
    Draws Γ (Fifo.writePin m pin signal value go) σ fun _ τ => ∃ ν,
      ν.Shows { kind := .pinWrite pin, owner := some m, go := some go, inputs := [some value] } ∧
        τ = (σ.add ν).set m (μ.adopt σ.next) := by
  refine .of_bounded fun hbounded => ?_
  have hne := hbounded.ne_next hμ
  refine .bind (draws_newPinWrite hpin signal) fun c τ hτ => ?_
  obtain ⟨rfl, ν, hν, rfl⟩ := hτ
  refine .bind (draws_adopt hμ hi hν rfl hne) fun _ τ hτ => ?_
  obtain ⟨ν, hν, rfl⟩ := hτ
  have hgives : ∀ ξ b, σ.Gives b → ((σ.add ξ).set m (μ.adopt σ.next)).Gives b := by
    intro ξ b hb
    have hm : (σ.add ξ).node? m = some μ := by rw [Sheet.node?_add_of_ne _ _ hne, hμ]
    exact (hb.add hbounded ξ).set hm fun _ h => h
  refine .bind (draws_wire (node?_adopted hne) hν (by simp) (hgives ν value hvalue)) fun _ τ hτ => ?_
  obtain ⟨ν, hν, -, rfl⟩ := hτ
  rw [Sheet.set_next_set_add _ _ _ hne]
  refine .look (sees_component (node?_adopted hne)) fun x hx => ?_
  rw [hx.go]
  refine (draws_setGo (node?_adopted hne) (b := some go) (by simpa using hgives ν go hgo)).mono
    fun _ τ hτ => ?_
  rw [Sheet.set_next_set_add _ _ _ hne] at hτ
  exact ⟨_, hν.withGo (some go), hτ⟩

end

end DataflowSynth.Netlist
