/-
Boxes: modules, and what is built inside them.

A box says of a module what a cell says of other components, and in addition which buffers it has and
which children.  The second half is about new modules, whose interior is built right after them.
-/
import DataflowSynth.Proofs.Sheet.Cells

namespace DataflowSynth.Netlist

open Build

variable {Γ : Ground} {σ : Sheet} {m : ComponentId} {μ : Node} {i : Interior} {β : Type}
  {R : β → Sheet → Prop}

/-! ### Pending requests -/

/-- A new flop is connected to its clock and reset before it is used. -/
theorem draws_clockedFlop {clock reset : BusId} (hclock : σ.Gives clock) (hreset : σ.Gives reset)
    (stem : String) {rest : ComponentId → Step β}
    (hrest : ∀ ν stored, ν.Shows {
        kind := .reg .regR, clock := some clock, reset := some reset,
        inputs := [none, none, some reset], results := [stored] } →
      Draws Γ (rest σ.next) (σ.add ν) R) :
    Draws Γ (do
      let flop ← newReg .regR stem .bit
      let x ← component flop
      setBus x.clock (some clock)
      setBus x.reset (some reset)
      setBus (← regInternalReset flop) (some reset)
      rest flop) σ R := by
  refine .of_bounded fun hbounded => .bind (draws_newReg .regR stem .bit) fun c τ hτ => ?_
  obtain ⟨rfl, ν, stored, hν, rfl⟩ := hτ
  have hself := Sheet.node?_add_next σ
  refine .look (sees_component (hself ν)) fun x hx => ?_
  rw [hx.clock, hx.reset]
  let ν₁ : Node := { ν with clock := { ν.clock with driver := some clock } }
  let ν₂ : Node := { ν₁ with reset := { ν.reset with driver := some reset } }
  have hν₂ : ν₂.Shows _ := (hν.withClock (some clock)).withReset (some reset)
  refine .bind (draws_setClock (hself ν) (by simpa using hclock.add hbounded ν)) fun _ τ hτ => ?_
  obtain rfl : τ = σ.add ν₁ := hτ.trans (Sheet.set_add_next ..)
  refine .bind (draws_setReset (hself ν₁) (by simpa using hreset.add hbounded ν₁)) fun _ τ hτ => ?_
  obtain rfl : τ = σ.add ν₂ := hτ.trans (Sheet.set_add_next ..)
  refine .bind_assoc (.bind (draws_wire (hself ν₂) hν₂ (k := 2) (by simp) (hreset.add hbounded ν₂))
    fun _ τ hτ => ?_)
  obtain ⟨ν₃, hν₃, -, rfl⟩ := hτ
  rw [Sheet.set_add_next]
  exact hrest ν₃ stored hν₃

/-- A gate with two inputs is connected before it is used. -/
theorem draws_connectedGate {a b : BusId} (ha : σ.Gives a) (hb : σ.Gives b) (g : Gate)
    (stem : String) {x : Step BusId} (hx : ∀ ν, Sees Γ x (σ.add ν) (· = a))
    {rest : ComponentId → Step β}
    (hrest : ∀ ν result, ν.Shows {
        kind := g.kind, inputs := [some a, some b], results := [result] } →
      Draws Γ (rest σ.next) (σ.add ν) R) :
    Draws Γ (do
      let c ← newGate g stem 2
      Fifo.wire c 0 (← x)
      Fifo.wire c 1 b
      rest c) σ R := by
  refine .of_bounded fun hbounded => .bind (draws_newGate g stem 2) fun c τ hτ => ?_
  obtain ⟨rfl, ν, result, hν, rfl⟩ := hτ
  have hself := Sheet.node?_add_next σ
  refine .read (hx ν) ?_
  refine .bind (draws_wire (hself ν) hν (k := 0) (by simp) (ha.add hbounded ν)) fun _ τ hτ => ?_
  obtain ⟨ν₁, hν₁, -, rfl⟩ := hτ
  rw [Sheet.set_add_next]
  refine .bind (draws_wire (hself ν₁) hν₁ (k := 1) (by simp) (hb.add hbounded ν₁)) fun _ τ hτ => ?_
  obtain ⟨ν₂, hν₂, -, rfl⟩ := hτ
  rw [Sheet.set_add_next]
  exact hrest ν₂ result hν₂

/-- One of several new components becomes a child. -/
theorem draws_adoptAt (Γ : Ground) (νs : List Node) (hlt : m.index < σ.size)
    (hi : μ.interior = some i) {k : Nat} {ν : Node} (hν : νs[k]? = some ν) (howner : ν.owner = none) :
    Draws Γ (addComponent m (σ.fresh k)) ((σ.set m μ).adds νs) fun _ τ =>
      τ = (σ.set m (μ.adopt (σ.fresh k))).adds (νs.set k { ν with owner := some m }) := by
  obtain ⟨hk, -⟩ := List.getElem?_eq_some_iff.mp hν
  have hne : σ.fresh k ≠ m := by
    rintro rfl
    exact absurd hlt (Nat.not_lt.mpr (Nat.le_add_right _ _))
  have hm : ((σ.set m μ).adds νs).node? m = some μ := by
    rw [Sheet.node?_adds_of_lt (by simpa using hlt), Sheet.node?_set_self]
  refine (draws_addComponent ((Sheet.node?_adds_fresh (σ.set m μ) _ hk).trans hν) howner hm hi hne).mono
    fun _ τ hτ => hτ.trans ?_
  refine (congrArg (Sheet.set · m _) (Sheet.set_adds_fresh (σ.set m μ) _ hk _)).trans ?_
  rw [Sheet.set_adds_of_lt (by simpa using hlt), Sheet.set_set, Sheet.fresh_set]

/-- Two new cells become children, and the first of them a feedback point. -/
theorem draws_adoptLoop (hμ : σ.node? m = some μ) (hlt : m.index < σ.size)
    (hi : μ.interior = some i) {flop gate : Node} {x y : Cell} (hflop : flop.Shows x)
    (hx : x.owner = none) (hgate : gate.Shows y) (hy : y.owner = none) {rest : Step β}
    (hrest : ∀ flop' gate', flop'.Shows { x with owner := some m } →
      gate'.Shows { y with owner := some m } → Draws Γ rest ((σ.adds [flop', gate']).set m
        (((μ.adopt σ.next).adopt (σ.fresh 1)).feedBack σ.next)) R) :
    Draws Γ (do
      addComponents m [σ.next, σ.fresh 1]
      addFeedbackPoint m σ.next
      rest) (σ.adds [flop, gate]) R := by
  let flop' : Node := { flop with owner := some m }
  let gate' : Node := { gate with owner := some m }
  let μ₁ := μ.adopt σ.next
  let μ₂ := μ₁.adopt (σ.fresh 1)
  have hμ₁ : μ₁.interior = some { i with children := i.children ++ [σ.next] } := by
    simp [μ₁, Node.adopt, hi]
  have hself : σ.set m μ = σ := Sheet.set_eq_self _ _ hμ
  have hchildren : Draws Γ (addComponents m [σ.next, σ.fresh 1]) (σ.adds [flop, gate])
      fun _ τ => τ = (σ.set m μ₂).adds [flop', gate'] := by
    have hfirst := draws_adoptAt Γ [flop, gate] (k := 0) hlt hi rfl
      (hflop.owner.trans hx)
    rw [hself] at hfirst
    refine .bind hfirst fun _ τ hτ => .forM_singleton ?_
    subst hτ
    exact draws_adoptAt Γ [flop', gate] (k := 1) hlt hμ₁ rfl (hgate.owner.trans hy)
  have hflop' := Sheet.node?_adds_fresh (σ.set m μ₂) [flop', gate'] (k := 0) (by simp)
  have hm : ((σ.set m μ₂).adds [flop', gate']).node? m = some μ₂ := by
    rw [Sheet.node?_adds_of_lt (by simpa using hlt), Sheet.node?_set_self]
  have hμ₂ : μ₂.interior = some { i with children := i.children ++ [σ.next] ++ [σ.fresh 1] } := by
    simp [μ₂, Node.adopt, hμ₁]
  refine .bind hchildren fun _ τ hτ => ?_
  subst hτ
  refine .bind (draws_addFeedbackPoint hflop' rfl hm hμ₂) fun _ τ hτ => ?_
  rw [Sheet.set_adds_of_lt (by simpa using hlt), Sheet.set_set, ← Sheet.set_adds_of_lt hlt] at hτ
  subst hτ
  exact hrest flop' gate' (hflop.withOwner m) (hgate.withOwner m)

/-- The flop remembers a request, and the gate tells whether one is pending. -/
theorem draws_pendingLogic (hμ : σ.node? m = some μ) (hi : μ.interior = some i) {κ : Node}
    (hκ : σ.node? i.inBuf = some κ) {o : Outlet} (hin : InBufNode m κ o) (stem : String) :
    Draws Γ (Fifo.pendingLogic m stem) σ fun r τ => r.1 = σ.next ∧
      ∃ flop gate, ∃ clock ∈ o.control, ∃ reset ∈ o.control, ∃ stored,
        flop.Shows {
          kind := .reg .regR, owner := some m, clock := some clock, reset := some reset,
          inputs := [none, none, some reset], results := [stored] } ∧
        gate.Shows {
          kind := .orGate, owner := some m, inputs := [some stored, some o.done],
          results := [r.2] } ∧
        τ = (σ.adds [flop, gate]).set m
          (((μ.adopt σ.next).adopt (σ.fresh 1)).feedBack σ.next) := by
  refine .of_bounded fun hbounded => ?_
  have hgives : ∀ b ∈ o.buses, σ.Gives b := fun b hb =>
    Sheet.gives_of_mem hκ (by rw [hin.buses]; exact hb)
  refine .look (sees_clockBus hμ hi hκ hin.outlet?) fun clock hfirst => ?_
  have hclock := List.mem_of_getElem? hfirst
  refine .look (sees_resetBus hμ hi hκ hin.outlet?) fun reset hsecond => ?_
  have hreset := List.mem_of_getElem? hsecond
  refine .read (sees_goBus hμ hi hκ hin.outlet?) ?_
  refine draws_clockedFlop (hgives clock (by simp [Outlet.buses, hclock]))
    (hgives reset (by simp [Outlet.buses, hreset])) stem fun flop stored hflop => ?_
  have hflop' : ∀ ν, ((σ.add flop).add ν).node? σ.next = some flop := fun ν =>
    Sheet.node?_adds_fresh σ [flop, ν] (k := 0) (by simp)
  refine draws_connectedGate (Sheet.gives_of_mem (Sheet.node?_add_next ..) (hflop.mem_buses (by simp)))
    ((hgives o.done (by simp [Outlet.buses])).add hbounded flop) .or "pending"
    (fun ν => sees_resultOf (hflop' ν) hflop rfl) fun gate pending hgate => ?_
  refine draws_adoptLoop hμ (hbounded m μ hμ) hi hflop rfl hgate rfl fun flop gate hflop hgate => ?_
  have hne : σ.fresh 1 ≠ m := by
    rintro rfl
    exact absurd (hbounded _ μ hμ) (Nat.not_lt.mpr (Nat.le_add_right _ _))
  have hgate' : ((σ.adds [flop, gate]).set m
      (((μ.adopt σ.next).adopt (σ.fresh 1)).feedBack σ.next)).node? (σ.fresh 1) = some gate := by
    rw [Sheet.node?_set_of_ne _ _ hne, Sheet.node?_adds_fresh σ _ (by simp)]
    rfl
  refine .read (sees_resultOf hgate' hgate rfl) (.pure ?_)
  exact ⟨rfl, flop, gate, clock, hclock, reset, hreset, stored, hflop, hgate, rfl⟩

/-! ### Boxes -/

/-- A module with its drivers and its only exit, if it has one. -/
structure Box where
  kind : ModuleKind
  owner : Option ComponentId := none
  clock : Option BusId := none
  reset : Option BusId := none
  go : Option BusId := none
  /-- The bus that repeats go inside. -/
  start : BusId
  /-- The driver of each data port, and the bus that repeats it inside. -/
  inputs : List (Option BusId × Option BusId) := []
  outlet : Option Outlet := none
  interior : Interior

/-- The node of a module. -/
structure Node.Encloses (ν : Node) (x : Box) : Prop where
  kind : ν.kind = .module x.kind
  owner : ν.owner = x.owner
  clock : ν.clock.driver = x.clock
  reset : ν.reset.driver = x.reset
  go : ν.go.driver = x.go
  start : ν.go.peer = some x.start
  this : ν.this = none
  inputs : ν.data.map (fun a => (a.driver, a.peer)) = x.inputs
  exits : ν.exits = x.outlet.toList.map fun o => (.done, o)
  interior : ν.interior = some x.interior

namespace Node.Encloses

variable {ν : Node} {x : Box} (h : ν.Encloses x)

include h

theorem notBuffer : ν.kind.isBuffer = false := by rw [h.kind]; rfl

theorem outlet? : ν.outlet? .done = x.outlet := by
  cases ho : x.outlet <;> simp [Node.outlet?, h.exits, ho]

theorem buses {o : Outlet} (ho : x.outlet = some o) : ν.buses = o.buses := by
  simp [Node.buses, outlets, h.exits, ho]

theorem buses_eq {ν' : Node} {x' : Box} (h' : ν'.Encloses x') (ho : x'.outlet = x.outlet) :
    ν'.buses = ν.buses := by
  simp only [Node.buses, outlets, h.exits, h'.exits, ho]

theorem mem_drivers {b : BusId} : b ∈ ν.drivers ↔
    x.clock = some b ∨ x.reset = some b ∨ x.go = some b ∨ some b ∈ x.inputs.map Prod.fst := by
  rw [Node.mem_drivers, h.this, h.clock, h.reset, h.go, ← h.inputs, List.map_map]
  simp

theorem adopt (c : ComponentId) : (ν.adopt c).Encloses
    { x with interior := { x.interior with children := x.interior.children ++ [c] } } :=
  { h with interior := by simp [Node.adopt, h.interior] }

theorem feedBack (c : ComponentId) : (ν.feedBack c).Encloses
    { x with interior := { x.interior with feedback := insertAscending c x.interior.feedback } } :=
  { h with interior := by simp [Node.feedBack, h.interior] }

end Node.Encloses

/-- The node of the OutBuf of an exit that is done on `done`; `data` gives the driver of each port and
the bus that repeats it. -/
structure Node.OutBuf (ν : Node) (m : ComponentId) (done : BusId) (go : Option BusId)
    (data : List (Option BusId × Option BusId)) : Prop where
  kind : ν.kind = .outBuf
  owner : ν.owner = some m
  go : ν.go.driver = go
  done : ν.go.peer = some done
  data : ν.data.map (fun a => (a.driver, a.peer)) = data
  exits : ν.exits = []
  interior : ν.interior = none

section

variable {w : ComponentId} {O : Node} (hO : σ.node? w = some O) {done : BusId} {go : Option BusId}
  {data : List (Option BusId × Option BusId)} (hbuf : O.OutBuf m done go data) {b : BusId}
  (hb : σ.Gives b)

include hO hbuf hb

theorem draws_wire_outBuf {k : Nat} {a : Option BusId × Option BusId} (ha : data[k]? = some a) :
    Draws Γ (Fifo.wire w k b) σ fun _ τ =>
      ∃ O', O'.OutBuf m done go (data.set k (some b, a.2)) ∧ τ = σ.set w O' := by
  rw [← hbuf.data, List.getElem?_map] at ha
  obtain ⟨p, hp, rfl⟩ := Option.map_eq_some_iff.mp ha
  refine .read (sees_dataPort hO hp) ?_
  refine (draws_setData hO (b := some b) (by simpa using hb) hp).mono fun _ τ hτ => ⟨_, ?_, hτ⟩
  exact { hbuf with data := by simp [List.map_set, hbuf.data] }

theorem draws_start_outBuf : Draws Γ (do setBus (← component w).go (some b)) σ fun _ τ =>
    ∃ O', O'.OutBuf m done (some b) data ∧ τ = σ.set w O' := by
  refine .look (sees_component hO) fun y hy => ?_
  rw [hy.go]
  refine (draws_setGo hO (b := some b) (by simpa using hb)).mono fun _ τ hτ => ⟨_, ?_, hτ⟩
  exact { hbuf with go := rfl }

end

theorem draws_newBox {kind : ModuleKind} {K : List Fact}
    (hkind : (ComponentKind.module kind).FitsIn Γ.scope K) (hK : ∀ f ∈ K, σ.Tells f)
    (stem : String) : Draws Γ (newModule kind stem 0) σ fun m τ => m = σ.next ∧
      ∃ M I o, M.Encloses { kind, start := o.done, interior := { inBuf := σ.fresh 1 } } ∧
        InBufNode σ.next I o ∧ τ = σ.adds [M, I] := by
  refine (draws_newModule hkind hK stem).mono fun m τ hτ => ?_
  obtain ⟨rfl, clock, reset, go, clock', reset', go', e, rfl⟩ := hτ
  exact ⟨rfl, _, _, _, ⟨rfl, rfl, rfl, rfl, rfl, rfl, rfl, rfl, rfl, rfl⟩,
    ⟨rfl, rfl, rfl, rfl, rfl, rfl⟩, rfl⟩

/-- A module gets a data port, and its InBuf the bus that repeats it. -/
theorem draws_makeDataPort_box {M : Node} (hM : σ.node? m = some M) {x : Box} (hx : M.Encloses x)
    {I : Node} (hI : σ.node? x.interior.inBuf = some I) {o : Outlet} (hin : InBufNode m I o)
    (name : String) : Draws Γ (makeDataPort m name) σ fun p τ => ∃ M' I' b,
      M'.Encloses { x with inputs := x.inputs ++ [(none, some b)] } ∧
      InBufNode m I' { o with data := o.data ++ [b] } ∧
      M'.data = M.data ++ [{ port := p, peer := some b }] ∧
      τ = (σ.set x.interior.inBuf I').set m M' := by
  refine (draws_makeDataPort_module hM hx.notBuffer hx.interior hI hin name).mono fun p τ hτ => ?_
  obtain ⟨b, rfl⟩ := hτ
  refine ⟨_, _, b, ?_, ?_, rfl, rfl⟩
  · exact { hx with inputs := by simp [hx.inputs] }
  · exact { hin with exits := rfl }

/-- A new module with one data port. -/
theorem draws_newBox_port {kind : ModuleKind} {K : List Fact}
    (hkind : (ComponentKind.module kind).FitsIn Γ.scope K) (hK : ∀ f ∈ K, σ.Tells f)
    (stem : String) : Draws Γ (newModule kind stem 1) σ fun m τ => m = σ.next ∧
      ∃ M I o b, M.Encloses {
          kind, start := o.done, inputs := [(none, some b)], interior := { inBuf := σ.fresh 1 } } ∧
        InBufNode σ.next I o ∧ b ∈ o.data ∧ τ = σ.adds [M, I] := by
  intro s hs hσ
  have hbox := (wp_newModule kind stem 0).mp (draws_newBox hkind hK stem s hs hσ)
  obtain ⟨hproper, hm, M, I, o, hM, hI, hsheet⟩ := hbox
  refine (wp_newModule kind stem 1).mpr ?_
  have hport : Draws Γ ((numberedNames "din" 1).forM fun name =>
      discard (makeDataPort s.state.components.next name)) (σ.adds [M, I]) fun _ τ =>
      s.state.components.next = σ.next ∧ ∃ M I o b, M.Encloses {
          kind, start := o.done, inputs := [(none, some b)], interior := { inBuf := σ.fresh 1 } } ∧
        InBufNode σ.next I o ∧ b ∈ o.data ∧ τ = σ.adds [M, I] := by
    rw [hm]
    refine .forM_singleton (.discard ?_)
    refine (draws_makeDataPort_box (Sheet.node?_next_adds ..) hM
      (Sheet.node?_adds_fresh σ _ (k := 1) (by simp)) hI _).mono fun p τ hτ => ?_
    obtain ⟨M', I', b, hM', hI', -, rfl⟩ := hτ
    refine ⟨rfl, M', I', { o with data := o.data ++ [b] }, b, hM', hI', by simp, ?_⟩
    rw [Sheet.set_adds_fresh σ _ (by simp)]
    exact Sheet.set_next_adds σ M M' [I']
  exact hport _ hproper hsheet

section

variable {M : Node} (hM : σ.node? m = some M) {x : Box} (hx : M.Encloses x) (hnone : x.outlet = none)

include hM hx hnone

theorem draws_makeExit_box : Draws Γ (makeExit m 0 .done) σ fun e τ => ∃ M' O done,
    M'.Encloses { x with outlet := some { exit := e, done, outBuf := some σ.next } } ∧
      O.OutBuf m done none [] ∧ τ = (σ.set m M').add O := by
  have hexits : M.exits = [] := by simp [hx.exits, hnone]
  refine (draws_makeExit_module hM hx.notBuffer hx.interior hexits .done).mono fun e τ hτ => ?_
  obtain ⟨done, clock, reset, go, rfl⟩ := hτ
  refine ⟨_, _, done, ?_, ?_, rfl⟩
  · exact { hx with exits := rfl }
  · exact ⟨rfl, rfl, rfl, rfl, rfl, rfl, rfl⟩

theorem draws_mergeExits_box {cs : List ComponentId} (hne : cs ≠ [])
    (hcs : ∀ c ∈ cs, σ.EndsDone c) : Draws Γ (mergeExits m cs) σ fun _ τ => ∃ M' O e done,
    M'.Encloses { x with outlet := some { exit := e, done, outBuf := some σ.next } } ∧
      O.OutBuf m done none [] ∧ τ = (σ.set m M').add O := by
  have hexits : M.exits = [] := by simp [hx.exits, hnone]
  refine (draws_mergeExits hM hx.notBuffer hx.interior hexits hne hcs).mono fun _ τ hτ => ?_
  obtain ⟨e, done, clock, reset, go, rfl⟩ := hτ
  refine ⟨_, _, e, done, ?_, ?_, rfl⟩
  · exact { hx with exits := rfl }
  · exact ⟨rfl, rfl, rfl, rfl, rfl, rfl, rfl⟩

theorem draws_makeResult_box : Draws Γ (makeExit m 1 .done) σ fun e τ => ∃ M' O done result,
    M'.Encloses
      { x with outlet := some { exit := e, done, data := [result], outBuf := some σ.next } } ∧
      O.OutBuf m done none [(none, some result)] ∧ τ = (σ.set m M').add O := by
  refine .of_bounded fun hbounded => ?_
  have hne := hbounded.ne_next hM
  refine draws_makeExit_data (draws_makeExit_box hM hx hnone) fun e τ hτ => ?_
  obtain ⟨M', O, done, hM', hO, rfl⟩ := hτ
  refine .forM_singleton (.discard ?_)
  have hm : ((σ.set m M').add O).node? m = some M' := by
    rw [Sheet.node?_add_of_ne _ _ (by simpa using hne), Sheet.node?_set_self]
  refine (draws_makeDataBus_module hm hM'.notBuffer hM'.exits rfl (Sheet.node?_add_next ..) _).mono
    fun b τ hτ => ?_
  obtain ⟨p, hτ⟩ := hτ
  let M'' : Node :=
    { M' with exits := [(.done, { exit := e, done, data := [b], outBuf := some σ.next })] }
  let O' : Node := { O with data := O.data ++ [{ port := p, peer := some b }] }
  have hsheet : τ = (σ.set m M'').add O' := by
    rw [hτ]
    refine (Sheet.set_next_set_add (σ.set m M') O _ (by simpa using hne) _).trans ?_
    rw [Sheet.set_add_of_ne _ _ _ (by simpa using hne), Sheet.set_set]
    rfl
  refine ⟨M'', O', done, b, ?_, ?_, hsheet⟩
  · exact { hM' with exits := rfl }
  · exact { hO with data := by simp [O', hO.data] }

end

/-! ### Inside a new module -/

/-- The box with one more child. -/
def Box.adopt (x : Box) (c : ComponentId) : Box :=
  { x with interior := { x.interior with children := x.interior.children ++ [c] } }

section

variable {M : Node} {x : Box} (hM : M.Encloses x) {νs : List Node}

include hM

theorem draws_gate_inside (g : Gate) (stem : String) {bs : List BusId}
    (hbs : ∀ b ∈ bs, (σ.adds (M :: νs)).Gives b) :
    Draws Γ (Fifo.gate σ.next g stem bs) (σ.adds (M :: νs)) fun b τ => ∃ M' ν,
      M'.Encloses (x.adopt (σ.fresh (νs.length + 1))) ∧
      ν.Shows { kind := g.kind, owner := some σ.next, inputs := bs.map some, results := [b] } ∧
        τ = σ.adds (M' :: (νs ++ [ν])) := by
  refine (draws_gate (Sheet.node?_next_adds ..) hM.interior g stem hbs).mono fun b τ hτ => ?_
  obtain ⟨ν, hν, rfl⟩ := hτ
  exact ⟨_, ν, hM.adopt _, hν, by simp⟩

theorem draws_readPin_inside {pin : PinId} (hpin : pin.index < Γ.pins) (signal : Signal) :
    Draws Γ (Fifo.readPin σ.next pin signal) (σ.adds (M :: νs)) fun b τ => ∃ M' ν,
      M'.Encloses (x.adopt (σ.fresh (νs.length + 1))) ∧
      ν.Shows { kind := .pinRead pin, owner := some σ.next, results := [b] } ∧
        τ = σ.adds (M' :: (νs ++ [ν])) := by
  refine (draws_readPin (Sheet.node?_next_adds ..) hM.interior hpin signal).mono fun b τ hτ => ?_
  obtain ⟨ν, hν, rfl⟩ := hτ
  exact ⟨_, ν, hM.adopt _, hν, by simp⟩

theorem draws_writePin_inside {pin : PinId} (hpin : pin.index < Γ.pins) (signal : Signal)
    {value go : BusId} (hvalue : (σ.adds (M :: νs)).Gives value)
    (hgo : (σ.adds (M :: νs)).Gives go) :
    Draws Γ (Fifo.writePin σ.next pin signal value go) (σ.adds (M :: νs)) fun _ τ => ∃ M' ν,
      M'.Encloses (x.adopt (σ.fresh (νs.length + 1))) ∧
      ν.Shows { kind := .pinWrite pin, owner := some σ.next, go := some go, inputs := [some value] } ∧
        τ = σ.adds (M' :: (νs ++ [ν])) := by
  refine (draws_writePin (Sheet.node?_next_adds ..) hM.interior hpin signal hvalue hgo).mono
    fun _ τ hτ => ?_
  obtain ⟨ν, hν, rfl⟩ := hτ
  exact ⟨_, ν, hM.adopt _, hν, by simp⟩

theorem draws_pendingLogic_inside {k : Nat} (hk : x.interior.inBuf = σ.fresh (k + 1)) {I : Node}
    (hI : νs[k]? = some I) {o : Outlet} (hin : InBufNode σ.next I o) (stem : String) :
    Draws Γ (Fifo.pendingLogic σ.next stem) (σ.adds (M :: νs)) fun r τ =>
      r.1 = σ.fresh (νs.length + 1) ∧
      ∃ M' flop gate, ∃ clock ∈ o.control, ∃ reset ∈ o.control, ∃ stored,
        M'.Encloses { x with interior := {
          inBuf := x.interior.inBuf
          children := x.interior.children ++ [σ.fresh (νs.length + 1), σ.fresh (νs.length + 2)]
          feedback := insertAscending (σ.fresh (νs.length + 1)) x.interior.feedback } } ∧
        flop.Shows {
          kind := .reg .regR, owner := some σ.next, clock := some clock, reset := some reset,
          inputs := [none, none, some reset], results := [stored] } ∧
        gate.Shows {
          kind := .orGate, owner := some σ.next, inputs := [some stored, some o.done],
          results := [r.2] } ∧
        τ = σ.adds (M' :: (νs ++ [flop, gate])) := by
  obtain ⟨hlt, -⟩ := List.getElem?_eq_some_iff.mp hI
  have hI' : (σ.adds (M :: νs)).node? x.interior.inBuf = some I := by
    rw [hk, Sheet.node?_adds_fresh σ _ (Nat.succ_lt_succ hlt)]
    exact hI
  refine (draws_pendingLogic (Sheet.node?_next_adds ..) hM.interior hI' hin stem).mono fun r τ hτ => ?_
  obtain ⟨hflop, flop, gate, clock, hclock, reset, hreset, stored, hF, hG, rfl⟩ := hτ
  have hM' := ((hM.adopt (σ.fresh (νs.length + 1))).adopt (σ.fresh (νs.length + 2))).feedBack
    (σ.fresh (νs.length + 1))
  refine ⟨by simpa using hflop, _, flop, gate, clock, hclock, reset, hreset, stored, ?_, hF, hG,
    by simp; rfl⟩
  simpa using hM'

end

theorem draws_markHandshake {M : Node} (hM : σ.node? m = some M) {o : Outlet}
    (ho : M.outlet? .done = some o) :
    Draws Γ (Fifo.markHandshake m) σ fun _ τ => τ = σ := by
  refine .read (sees_mainExit hM ho) ?_
  refine .bind (draws_changeExit hM (Node.outlet?_mem ho) fun _ => rfl) fun _ τ hτ => ?_
  subst hτ
  refine .bind (draws_setConsumesClock hM true) fun _ τ hτ => ?_
  subst hτ
  refine .bind (draws_setConsumesReset hM true) fun _ τ hτ => ?_
  subst hτ
  refine .bind (draws_setConsumesGo hM true) fun _ τ hτ => ?_
  subst hτ
  refine .bind (draws_setProducesDone hM true) fun _ τ hτ => ?_
  subst hτ
  exact draws_mark hM (fun _ => ⟨rfl, rfl, rfl, rfl, rfl⟩) fun _ _ => rfl

end DataflowSynth.Netlist
