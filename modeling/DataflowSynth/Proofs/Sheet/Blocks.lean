/-
Blocks and tasks on sheets.

A block starts its children with its own go or with the done of an earlier child, so on an orderly
sheet it is run in order.  What is said here of a step is how little it changes: which components it
connects, and that the sheet stays orderly.
-/
import DataflowSynth.Design.Task
import DataflowSynth.Proofs.Sheet.Orderly
import DataflowSynth.Synthesis.Block

namespace DataflowSynth.Netlist

open Build

variable {Γ : Ground} {σ τ ρ : Sheet} {c m : ComponentId} {ν μ B : Node} {i : Interior} {b : BusId}
  {P P' : ComponentId → Prop}

/-! ### Connections -/

/-- The same component, but for its owner and its drivers. -/
structure Node.Alike (ν ν' : Node) : Prop where
  kind : ν'.kind = ν.kind
  exits : ν'.exits = ν.exits
  interior : ν'.interior = ν.interior
  ports : ν'.pads.map Pad.port = ν.pads.map Pad.port
  data : ν'.data.map Pad.port = ν.data.map Pad.port

theorem Node.Alike.refl (ν : Node) : ν.Alike ν := ⟨rfl, rfl, rfl, rfl, rfl⟩

theorem Node.Alike.trans {ν' ν'' : Node} (h : ν.Alike ν') (h' : ν'.Alike ν'') : ν.Alike ν'' :=
  ⟨h'.kind.trans h.kind, h'.exits.trans h.exits, h'.interior.trans h.interior,
    h'.ports.trans h.ports, h'.data.trans h.data⟩

theorem Node.Alike.buses {ν' : Node} (h : ν.Alike ν') : ν'.buses = ν.buses := by
  simp only [Node.buses, outlets, h.exits]

theorem Node.Alike.pad {ν' : Node} (h : ν.Alike ν') {a : Pad} (ha : a ∈ ν.pads) :
    ∃ a' ∈ ν'.pads, a'.port = a.port := by
  have hmem : a.port ∈ ν'.pads.map Pad.port := h.ports ▸ List.mem_map_of_mem ha
  exact List.mem_map.mp hmem

/-- Only owners and drivers of components with `P` have changed, and signals still run forward. -/
structure Sheet.Rewired (P : ComponentId → Prop) (σ τ : Sheet) : Prop where
  size : τ.size = σ.size
  same : ∀ c, ¬ P c → τ.node? c = σ.node? c
  alike : ∀ c ν, σ.node? c = some ν → ∃ ν', τ.node? c = some ν' ∧ ν.Alike ν'
  orderly : σ.Orderly → τ.Orderly

namespace Sheet.Rewired

theorem refl (σ : Sheet) : σ.Rewired P σ :=
  ⟨rfl, fun _ _ => rfl, fun _ ν hν => ⟨ν, hν, .refl ν⟩, id⟩

theorem mono (h : σ.Rewired P τ) (hP : ∀ c, P c → P' c) : σ.Rewired P' τ :=
  ⟨h.size, fun c hc => h.same c fun hP' => hc (hP c hP'), h.alike, h.orderly⟩

theorem trans (h : σ.Rewired P τ) (h' : τ.Rewired P ρ) : σ.Rewired P ρ := by
  refine ⟨h'.size.trans h.size, fun c hc => (h'.same c hc).trans (h.same c hc), fun c ν hν => ?_,
    fun ho => h'.orderly (h.orderly ho)⟩
  obtain ⟨ν', hν', halike⟩ := h.alike c ν hν
  obtain ⟨ν'', hν'', halike'⟩ := h'.alike c ν' hν'
  exact ⟨ν'', hν'', halike.trans halike'⟩

theorem endsDone (h : σ.Rewired P τ) (hc : σ.EndsDone c) : τ.EndsDone c := by
  obtain ⟨ν, o, hν, ho⟩ := hc
  obtain ⟨ν', hν', halike⟩ := h.alike c ν hν
  exact ⟨ν', o, hν', halike.exits.trans ho⟩

theorem grows (h : σ.Rewired P τ) : σ.Grows τ := by
  intro c ν hν
  obtain ⟨ν', hν', halike⟩ := h.alike c ν hν
  exact ⟨ν', hν', halike.kind, fun b hb => halike.buses ▸ hb⟩

end Sheet.Rewired

namespace Node

theorem pads_drive (ν : Node) (p : PortId) (b : Option BusId) :
    (ν.drive p b).pads = ν.pads.map (·.drive p b) := by
  cases hthis : ν.this <;> simp [pads, drive, hthis]

theorem alike_drive (ν : Node) (p : PortId) (b : Option BusId) : ν.Alike (ν.drive p b) :=
  ⟨rfl, rfl, rfl, by simp [pads_drive, Function.comp_def], by simp [drive, Function.comp_def]⟩

theorem mem_drivers_drive {p : PortId} {b : Option BusId} {d : BusId}
    (h : d ∈ (ν.drive p b).drivers) : d ∈ ν.drivers ∨ b = some d := by
  obtain ⟨a, ha, hd⟩ := List.mem_filterMap.mp h
  rw [pads_drive] at ha
  obtain ⟨a, hmem, rfl⟩ := List.mem_map.mp ha
  by_cases hp : a.port = p
  · rw [← hp, Pad.drive_self] at hd
    exact .inr hd
  · rw [Pad.drive_of_ne hp] at hd
    exact .inl (List.mem_filterMap.mpr ⟨a, hmem, hd⟩)

end Node

/-- Drivers that are new come from before. -/
theorem Sheet.Rewired.of_set {ν' : Node} (hν : σ.node? c = some ν) (halike : ν.Alike ν')
    (hdrivers : ∀ d ∈ ν'.drivers, d ∈ ν.drivers ∨ σ.Reaches c d) :
    σ.Rewired (· = c) (σ.set c ν') := by
  refine ⟨rfl, fun d hd => Sheet.node?_set_of_ne _ _ hd, fun d μ hμ => ?_, fun ho => ?_⟩
  · by_cases hd : d = c
    · subst hd
      cases hν.symm.trans hμ
      exact ⟨_, Sheet.node?_set_self .., halike⟩
    · exact ⟨μ, by rw [Sheet.node?_set_of_ne _ _ hd, hμ], .refl μ⟩
  · refine ho.rewire hν halike.kind halike.interior (fun d hd => ?_) fun _ d hd => hdrivers d hd
    rwa [halike.buses]

/-- A port is connected to a bus from before, or to none. -/
theorem draws_connect? (hν : σ.node? c = some ν) {a : Pad} (ha : a ∈ ν.pads) {b : Option BusId}
    (hb : ∀ d, b = some d → σ.Reaches c d) :
    Draws Γ (setBus a.port b) σ fun _ τ => σ.Rewired (· = c) τ := by
  refine (draws_setBus hν ha fun d hd => (hb d hd).gives).mono fun _ τ hτ => ?_
  subst hτ
  refine .of_set hν (ν.alike_drive _ _) fun d hd => ?_
  rcases Node.mem_drivers_drive hd with hd | hd
  · exact .inl hd
  · exact .inr (hb d hd)

theorem draws_connect (hν : σ.node? c = some ν) {a : Pad} (ha : a ∈ ν.pads) (hb : σ.Reaches c b) :
    Draws Γ (setBus a.port (some b)) σ fun _ τ => σ.Rewired (· = c) τ :=
  draws_connect? hν ha (by simpa using hb)

section

variable (hB : σ.node? m = some B) (hi : B.interior = some i)

include hB hi

/-- A module has an InBuf. -/
theorem Sees.of_inBuf {α : Type} {x : Step α} {R : α → Prop}
    (h : ∀ I o, σ.node? i.inBuf = some I → InBufNode m I o → Sees Γ x σ R) : Sees Γ x σ R := by
  intro s hs hσ
  subst hσ
  obtain ⟨I, o, hI, hin⟩ := hs.inBufNode hB hi
  exact h I o hI hin s hs rfl

/-- What comes in by the InBuf of a module may drive any component. -/
theorem sees_clockBus_reaches (c : ComponentId) : Sees Γ (clockBus m) σ (σ.Reaches c) :=
  .of_inBuf hB hi fun I o hI hin => (sees_clockBus hB hi hI hin.outlet?).mono fun b hb =>
    ⟨i.inBuf, I, hI, by simp [hin.buses, Outlet.buses, List.mem_of_getElem? hb], .inl hin.kind⟩

theorem sees_resetBus_reaches (c : ComponentId) : Sees Γ (resetBus m) σ (σ.Reaches c) :=
  .of_inBuf hB hi fun I o hI hin => (sees_resetBus hB hi hI hin.outlet?).mono fun b hb =>
    ⟨i.inBuf, I, hI, by simp [hin.buses, Outlet.buses, List.mem_of_getElem? hb], .inl hin.kind⟩

theorem sees_goBus_inBuf : Sees Γ (goBus m) σ fun b =>
    ∃ I, σ.node? i.inBuf = some I ∧ I.kind = .inBuf ∧ b ∈ I.buses :=
  .of_inBuf hB hi fun I o hI hin => (sees_goBus hB hi hI hin.outlet?).mono fun b hb =>
    ⟨I, hI, hin.kind, by simp [hin.buses, Outlet.buses, hb]⟩

theorem sees_goBus_reaches : Sees Γ (goBus m) σ fun b => ∀ c, σ.Reaches c b :=
  (sees_goBus_inBuf hB hi).mono fun _ ⟨I, hI, hkind, hb⟩ _ => ⟨i.inBuf, I, hI, hb, .inl hkind⟩

theorem draws_wireClocks (hν : σ.node? c = some ν) :
    Draws Γ (Synthesis.wireClocks m c) σ fun _ τ => σ.Rewired (· = c) τ := by
  refine .look (sees_component hν) fun x hx => ?_
  rw [hx.clock, hx.reset]
  have hreset : ∀ τ, σ.Rewired (· = c) τ → Draws Γ (do
      if x.consumesReset then setBus ν.reset.port (some (← resetBus m))) τ
      fun _ ρ => σ.Rewired (· = c) ρ := by
    intro τ hτ
    obtain ⟨ν', hν', halike⟩ := hτ.alike c ν hν
    obtain ⟨B', hB', hblock⟩ := hτ.alike m B hB
    obtain ⟨a, ha, hport⟩ := halike.pad ν.reset_mem_pads
    rw [← hport]
    split
    · refine .look (sees_resetBus_reaches hB' (hblock.interior.trans hi) c) fun b hb => ?_
      exact (draws_connect hν' ha hb).mono fun _ ρ hρ => hτ.trans hρ
    · exact .pure hτ
  simp only
  split
  · refine .look (sees_clockBus_reaches hB hi c) fun b hb => ?_
    exact .bind (draws_connect hν ν.clock_mem_pads hb) fun _ τ hτ => hreset τ hτ
  · exact hreset σ (.refl σ)

end

theorem draws_start (hν : σ.node? c = some ν) (hb : σ.Reaches c b) :
    Draws Γ (Synthesis.start c b) σ fun _ τ => σ.Rewired (· = c) τ :=
  .look (sees_component hν) fun _ hx => hx.go ▸ draws_connect hν ν.go_mem_pads hb

/-- Each step is started by the one before it. -/
theorem draws_startInTurn {steps : List ComponentId} (hB : σ.node? m = some B)
    (hi : B.interior = some i) (hsorted : steps.Pairwise (·.index < ·.index))
    (hsteps : ∀ c ∈ steps, σ.EndsDone c) (hgo : ∀ c ∈ steps, σ.Reaches c b) (hgives : σ.Gives b) :
    Draws Γ (Synthesis.startInTurn m b steps) σ fun done τ =>
      σ.Rewired (· ∈ steps) τ ∧ τ.Gives done := by
  induction steps generalizing σ b B with
  | nil => exact .pure ⟨.refl σ, hgives⟩
  | cons c cs ih =>
      obtain ⟨ν, o, hν, ho⟩ := hsteps c (by simp)
      rw [Synthesis.startInTurn, List.foldlM_cons]
      have hfirst : Draws Γ (do
          Synthesis.wireClocks m c
          Synthesis.start c b
          doneBus c) σ fun done τ => σ.Rewired (· = c) τ ∧ done = o.done := by
        refine .bind (draws_wireClocks hB hi hν) fun _ τ hτ => ?_
        obtain ⟨ν', hν', halike⟩ := hτ.alike c ν hν
        refine .bind (draws_start hν' ((hgo c (by simp)).grow hτ.grows)) fun _ ρ hρ => ?_
        obtain ⟨ν'', hν'', halike'⟩ := hρ.alike c ν' hν'
        have hexits := (halike.trans halike').exits.trans ho
        refine (sees_doneBus hν'' (o := o) (by simp [Node.outlet?, hexits])).draws.mono fun d υ hυ => ?_
        exact ⟨hυ.1 ▸ hτ.trans hρ, hυ.2⟩
      refine .bind hfirst fun done τ hτ => ?_
      obtain ⟨hτ, rfl⟩ := hτ
      obtain ⟨B', hB', hblock⟩ := hτ.alike m B hB
      obtain ⟨ν', hν', halike⟩ := hτ.alike c ν hν
      have hdone : o.done ∈ ν'.buses := by
        rw [halike.buses]
        simp [Node.buses, Node.outlets, ho, Outlet.buses]
      obtain ⟨hlt, hsorted⟩ := List.pairwise_cons.mp hsorted
      refine (ih hB' (hblock.interior.trans hi) hsorted (fun d hd => hτ.endsDone (hsteps d (by simp [hd])))
        (fun d hd => ⟨c, ν', hν', hdone, .inr (hlt d hd)⟩) ⟨c, ν', hν', hdone⟩).mono fun e ρ hρ => ?_
      refine ⟨(hτ.mono fun d hd => ?_).trans (hρ.1.mono fun d hd => ?_), hρ.2⟩
      · simp [hd]
      · simp [hd]

/-- Several components are started at once. -/
theorem draws_startAll {probes : List ComponentId} (hB : σ.node? m = some B)
    (hi : B.interior = some i) (hprobes : ∀ c ∈ probes, σ.EndsDone c)
    (hgo : ∀ c ∈ probes, σ.Reaches c b) :
    Draws Γ (probes.forM fun c => do
      Synthesis.wireClocks m c
      Synthesis.start c b) σ fun _ τ => σ.Rewired (· ∈ probes) τ := by
  refine .forM (.refl σ) fun c hc τ hτ => ?_
  obtain ⟨ν, o, hν, -⟩ := hτ.endsDone (hprobes c hc)
  obtain ⟨B', hB', hblock⟩ := hτ.alike m B hB
  have hstep : ∀ {ρ υ : Sheet}, ρ.Rewired (· = c) υ → ρ.Rewired (· ∈ probes) υ := fun h =>
    h.mono fun d hd => hd ▸ hc
  refine .bind (draws_wireClocks hB' (hblock.interior.trans hi) hν) fun _ ρ hρ => ?_
  obtain ⟨ν', hν', -⟩ := hρ.alike c ν hν
  refine (draws_start hν' (((hgo c hc).grow hτ.grows).grow hρ.grows)).mono fun _ υ hυ => ?_
  exact hτ.trans ((hstep hρ).trans (hstep hυ))

/-! ### Children -/

/-- A module gets one more child. -/
theorem Sheet.Orderly.seat (h : σ.Orderly) (hB : σ.node? m = some B) (hi : B.interior = some i)
    (hc : σ.Seats i.feedback c) : (σ.set m (B.adopt c)).Orderly := by
  refine h.set hB rfl (fun _ h => h) (fun _ _ h => .inl h) fun j hj d hd => ?_
  obtain rfl : { i with children := i.children ++ [c] } = j := by simpa [Node.adopt, hi] using hj
  rcases List.mem_append.mp hd with hd | hd
  · exact h.children m B i hB hi d hd
  · exact List.mem_singleton.mp hd ▸ hc

/-- A module becomes a child. -/
theorem Sheet.Orderly.adopt (h : σ.Orderly) (hν : σ.node? c = some ν) {x : Box} (hx : ν.Encloses x)
    (hB : σ.node? m = some B) (hi : B.interior = some i) (hne : c ≠ m) :
    ((σ.set c { ν with owner := some m }).set m (B.adopt c)).Orderly := by
  have howned : (σ.set c { ν with owner := some m }).Orderly :=
    h.rewire hν rfl rfl (fun _ h => h) fun _ _ h => .inl h
  refine howned.seat (by rw [Sheet.node?_set_of_ne _ _ hne.symm, hB]) hi ?_
  exact ⟨_, Sheet.node?_set_self .., hx.notBuffer, by simp [hx.kind, ComponentKind.isReg]⟩

/-- A module gets a data port, and its InBuf the bus that repeats it. -/
theorem Sheet.Orderly.port (h : σ.Orderly) (hB : σ.node? m = some B) {x : Box} (hx : B.Encloses x)
    {I I' B' : Node} (hI : σ.node? x.interior.inBuf = some I) {o : Outlet} (hin : InBufNode m I o)
    (hB' : B'.Encloses { x with inputs := x.inputs ++ [(none, some b)] })
    (hI' : InBufNode m I' { o with data := o.data ++ [b] }) :
    ((σ.set x.interior.inBuf I').set m B').Orderly := by
  have hne := ne_of_kinds hB hI hx.notBuffer (by rw [hin.kind]; rfl)
  have hinner : (σ.set x.interior.inBuf I').Orderly := by
    refine h.rewire hI (hI'.kind.trans hin.kind.symm) (hI'.interior.trans hin.interior.symm)
      (fun d hd => ?_) fun hthrough => ?_
    · rw [hin.buses] at hd
      rw [hI'.buses]
      simp only [Outlet.buses, List.mem_cons, List.mem_append] at hd ⊢
      tauto
    · exact absurd (hin.kind ▸ hthrough) (by decide)
  refine hinner.rewire (ν := B) ?_ (hB'.kind.trans hx.kind.symm)
    (hB'.interior.trans hx.interior.symm) (fun d hd => ?_) fun _ d hd => .inl ?_
  · rw [Sheet.node?_set_of_ne _ _ hne, hB]
  · rw [hx.buses_eq hB' rfl]
    exact hd
  · exact hx.mem_drivers.mpr (by simpa using hB'.mem_drivers.mp hd)

/-- Components become children of a module. -/
theorem draws_addComponents {cs : List ComponentId} (hB : σ.node? m = some B)
    (hi : B.interior = some i) (hnodup : cs.Nodup) (hcs : ∀ c ∈ cs, c ≠ m ∧
      ∃ ν x, σ.node? c = some ν ∧ ν.Encloses x ∧ x.owner = none) :
    Draws Γ (addComponents m cs) σ fun _ τ => τ.size = σ.size ∧
      τ.node? m = some { B with interior := some { i with children := i.children ++ cs } } ∧
      (∀ c, c ≠ m → c ∉ cs → τ.node? c = σ.node? c) ∧
      (∀ c ∈ cs, ∃ ν, σ.node? c = some ν ∧ τ.node? c = some { ν with owner := some m }) ∧
      (σ.Orderly → τ.Orderly) := by
  induction cs generalizing σ B i with
  | nil =>
      refine .pure ⟨rfl, ?_, fun _ _ _ => rfl, by simp, id⟩
      simp [hB, ← hi]
  | cons c cs ih =>
      obtain ⟨hcm, ν, x, hν, hx, howner⟩ := hcs c (by simp)
      obtain ⟨hnot, hnodup⟩ := List.nodup_cons.mp hnodup
      refine .bind (draws_addComponent hν (hx.owner.trans howner) hB hi hcm) fun _ τ hτ => ?_
      have hothers : ∀ d, d ≠ m → d ≠ c → τ.node? d = σ.node? d := fun d hdm hdc => by
        rw [hτ, Sheet.node?_set_of_ne _ _ hdm, Sheet.node?_set_of_ne _ _ hdc]
      have hnode : τ.node? c = some { ν with owner := some m } := by
        rw [hτ, Sheet.node?_set_of_ne _ _ hcm, Sheet.node?_set_self]
      have hm : τ.node? m = some (B.adopt c) := by rw [hτ, Sheet.node?_set_self]
      refine (ih (i := { i with children := i.children ++ [c] }) hm (by simp [Node.adopt, hi]) hnodup
        fun d hd => ?_).mono fun _ ρ hρ => ?_
      · obtain ⟨hdm, hd'⟩ := hcs d (by simp [hd])
        refine ⟨hdm, ?_⟩
        rwa [hothers d hdm fun heq => hnot (heq ▸ hd)]
      obtain ⟨hsize, hroot, hsame, hchildren, horderly⟩ := hρ
      refine ⟨by rw [hsize, hτ]; rfl, by simpa [Node.adopt] using hroot, fun d hdm hd => ?_,
        fun d hd => ?_, fun ho => horderly (hτ ▸ ho.adopt hν hx hB hi hcm)⟩
      · obtain ⟨hdc, hd⟩ : d ≠ c ∧ d ∉ cs := by simpa using hd
        rw [hsame d hdm hd, hothers d hdm hdc]
      · rcases List.mem_cons.mp hd with rfl | hd
        · exact ⟨ν, hν, by rw [hsame d hcm hnot, hnode]⟩
        · obtain ⟨ξ, hξ, hξ'⟩ := hchildren d hd
          have hne : d ≠ c := fun heq => hnot (heq ▸ hd)
          exact ⟨ξ, by rw [← hothers d (hcs d (by simp [hd])).1 hne, hξ], hξ'⟩

/-! ### Exits of blocks -/

/-- The module has got an exit, and `go` starts the OutBuf of the exit. -/
def Sheet.Exited (σ : Sheet) (m : ComponentId) (x : Box) (go : Option BusId) (τ : Sheet) : Prop :=
  ∃ B' O e done, B'.Encloses { x with outlet := some { exit := e, done, outBuf := some σ.next } } ∧
    O.OutBuf m done go [] ∧ τ = (σ.set m B').add O

section

variable {x : Box} (hB : σ.node? m = some B)

include hB

theorem Sheet.Exited.node {go : Option BusId} (hσ : σ.Bounded) (h : σ.Exited m x go τ) :
    ∃ B' e done, τ.node? m = some B' ∧
      B'.Encloses { x with outlet := some { exit := e, done, outBuf := some σ.next } } := by
  obtain ⟨B', O, e, done, hB', -, rfl⟩ := h
  refine ⟨B', e, done, ?_, hB'⟩
  rw [Sheet.node?_add_of_ne _ _ (by simpa using hσ.ne_next hB), Sheet.node?_set_self]

omit hB in
theorem Sheet.Exited.same {go : Option BusId} (h : σ.Exited m x go τ) (hne : c ≠ m)
    (hlt : c.index < σ.size) : τ.node? c = σ.node? c := by
  obtain ⟨B', O, e, done, -, -, rfl⟩ := h
  rw [Sheet.node?_add_of_ne, Sheet.node?_set_of_ne _ _ hne]
  rintro rfl
  exact Nat.lt_irrefl _ hlt

/-- A bus of the module that had no exit is new; the others are still there. -/
theorem Sheet.Exited.grows {go : Option BusId} (hσ : σ.Bounded) (hx : B.Encloses x)
    (hnone : x.outlet = none) (h : σ.Exited m x go τ) : σ.Grows τ := by
  obtain ⟨B', O, e, done, hB', -, rfl⟩ := h
  intro c ν hν
  have hbuses : B.buses = [] := by simp [Node.buses, Node.outlets, hx.exits, hnone]
  obtain ⟨ν', hν', hkind, hkept⟩ := Sheet.Grows.set hB (hB'.kind.trans hx.kind.symm)
    (by simp [hbuses]) c ν hν
  refine ⟨ν', ?_, hkind, hkept⟩
  rw [Sheet.node?_add_of_ne _ _ (by simpa using hσ.ne_next hν), hν']

theorem Sheet.Exited.orderly {go : Option BusId} (hσ : σ.Bounded) (hx : B.Encloses x)
    (hnone : x.outlet = none) (h : σ.Exited m x go τ) (ho : σ.Orderly) : τ.Orderly := by
  obtain ⟨B', O, e, done, hB', hO, rfl⟩ := h
  have hbuses : B.buses = [] := by simp [Node.buses, Node.outlets, hx.exits, hnone]
  have hset : (σ.set m B').Orderly := by
    refine ho.rewire hB (hB'.kind.trans hx.kind.symm) (hB'.interior.trans hx.interior.symm)
      (by simp [hbuses]) fun _ b hb => .inl (hx.mem_drivers.mpr (hB'.mem_drivers.mp hb))
  refine hset.add (hσ.set hB B') (fun hthrough => ?_) (by simp [hO.interior])
  exact absurd (hO.kind ▸ hthrough) (by decide)

theorem sees_newOutBuf (hσ : σ.Bounded) {go : Option BusId} (h : σ.Exited m x go τ) :
    Sees Γ (mainOutBuf m) τ (· = σ.next) := by
  obtain ⟨B', e, done, hm, hB'⟩ := h.node hB hσ
  exact sees_mainOutBuf hm hB'.outlet? rfl

omit hB in
theorem draws_driveExit (Γ : Ground) (h : σ.Exited m x none τ) : ∃ O, τ.node? σ.next = some O ∧
    ∀ done, τ.Gives done →
      Draws Γ (setBus O.go.port (some done)) τ fun _ ρ => σ.Exited m x (some done) ρ := by
  obtain ⟨B', O, e, dn, hB', hO, rfl⟩ := h
  have hnode : ((σ.set m B').add O).node? σ.next = some O := Sheet.node?_add_next ..
  refine ⟨O, hnode, fun done hdone => ?_⟩
  refine (draws_setGo hnode (by simpa using hdone)).mono fun _ ρ hρ => ?_
  refine ⟨B', _, e, dn, hB', ?_, hρ.trans (Sheet.set_add_next ..)⟩
  exact { hO with go := rfl }

end

/-- A module without an exit gets one, and is done with `done`. -/
theorem draws_close {x : Box} (hB : σ.node? m = some B) (hx : B.Encloses x) (hnone : x.outlet = none)
    {cs : List ComponentId} (hcs : ∀ c ∈ cs, σ.EndsDone c) {done : BusId} (hdone : σ.Gives done) :
    Draws Γ (Synthesis.close m cs done) σ fun _ τ => σ.Exited m x (some done) τ := by
  refine .of_bounded fun hσ => ?_
  have hgives : ∀ {τ}, σ.Grows τ → τ.Gives done := fun hg => by
    obtain ⟨d, μ, hμ, hb⟩ := hdone
    obtain ⟨μ', hμ', -, hbuses⟩ := hg d μ hμ
    exact ⟨d, μ', hμ', hbuses _ hb⟩
  have hrest : ∀ τ, σ.Exited m x none τ → Draws Γ (do
      Synthesis.start (← mainOutBuf m) done
      let xs ← cs.mapM component
      setConsumesClock m (xs.any (·.consumesClock))
      setConsumesReset m (xs.any (·.consumesReset))
      setConsumesGo m true) τ fun _ ρ => σ.Exited m x (some done) ρ := by
    intro τ hτ
    have hdone' := hgives (hτ.grows hB hσ hx hnone)
    obtain ⟨O, hO, hdrive⟩ := draws_driveExit Γ hτ
    refine .read (sees_newOutBuf hB hσ hτ) (.bind (.look (sees_component hO) fun y hy =>
      hy.go ▸ hdrive done hdone') fun _ ρ hρ => ?_)
    have hgrows := hρ.grows hB hσ hx hnone
    obtain ⟨B', e, dn, hm, hB'⟩ := hρ.node hB hσ
    refine .look (.mapM (R := fun _ _ => True) fun c hc => ?_) fun xs _ => ?_
    · obtain ⟨ν, o, hν, -⟩ := hcs c hc
      obtain ⟨ν', hν', -⟩ := hgrows c ν hν
      exact (sees_component hν').mono fun _ _ => trivial
    refine .bind (draws_setConsumesClock hm _) fun _ υ hυ => ?_
    subst hυ
    refine .bind (draws_setConsumesReset hm _) fun _ υ hυ => ?_
    subst hυ
    exact (draws_setConsumesGo hm true).mono fun _ υ hυ => hυ ▸ hρ
  simp only [Synthesis.close]
  split
  · refine .bind (.discard ((draws_makeExit_box hB hx hnone).mono fun e τ hτ => ?_)) fun _ τ hτ =>
      hrest τ hτ
    obtain ⟨B', O, done, hB', hO, rfl⟩ := hτ
    exact ⟨B', O, e, done, hB', hO, rfl⟩
  · next hempty =>
    refine .bind (draws_mergeExits_box hB hx hnone (by simpa using hempty) hcs) fun _ τ hτ => ?_
    obtain ⟨B', O, e, done, hB', hO, rfl⟩ := hτ
    exact hrest _ ⟨B', O, e, done, hB', hO, rfl⟩

/-! ### Blocks -/

/-- A module that is ready to be run: it stands in no other, and it can be done. -/
def Sheet.Runs (σ : Sheet) (c : ComponentId) : Prop :=
  ∃ ν x, σ.node? c = some ν ∧ ν.Encloses x ∧ x.owner = none ∧ x.outlet.isSome

/-- A module that stands in no other and has no exit yet. -/
def Sheet.Opens (σ : Sheet) (m : ComponentId) : Prop :=
  ∃ B x, σ.node? m = some B ∧ B.Encloses x ∧ x.owner = none ∧ x.outlet = none ∧
    m.index < x.interior.inBuf.index

/-- A block without an exit, and the modules that it is to run, which come after it. -/
structure Sheet.Site (σ : Sheet) (m : ComponentId) (cs : List ComponentId) : Prop where
  block : σ.Opens m
  sorted : cs.Pairwise (·.index < ·.index)
  behind : ∀ c ∈ cs, m.index < c.index
  runs : ∀ c ∈ cs, σ.Runs c

/-- The modules `cs` are inside `m` now; what came before and is not among them is as before. -/
structure Sheet.Joined (σ : Sheet) (m : ComponentId) (cs : List ComponentId) (τ : Sheet) : Prop where
  block : τ.Opens m
  before : ∀ c, c.index < m.index → c ∉ cs → τ.node? c = σ.node? c
  ends : ∀ c ∈ cs, τ.EndsDone c
  orderly : σ.Orderly → τ.Orderly

/-- In addition `m` is ready to be run. -/
structure Sheet.Completes (σ : Sheet) (m : ComponentId) (cs : List ComponentId) (τ : Sheet) :
    Prop where
  runs : τ.Runs m
  before : ∀ c, c.index < m.index → c ∉ cs → τ.node? c = σ.node? c
  orderly : σ.Orderly → τ.Orderly

section

variable {cs : List ComponentId}

theorem Sheet.Joined.rewire (h : σ.Joined m cs τ) (hm : m ∉ cs) (hρ : τ.Rewired (· ∈ cs) ρ) :
    σ.Joined m cs ρ := by
  refine ⟨?_, fun c hc hcs => (hρ.same c hcs).trans (h.before c hc hcs),
    fun c hc => hρ.endsDone (h.ends c hc), fun ho => hρ.orderly (h.orderly ho)⟩
  obtain ⟨B, x, hB, hrest⟩ := h.block
  exact ⟨B, x, (hρ.same m hm).trans hB, hrest⟩

theorem Sheet.Joined.complete (h : σ.Joined m cs τ) (hτ : τ.Bounded) {x : Box} (hB : τ.node? m = some B)
    (hx : B.Encloses x) (howner : x.owner = none) (hnone : x.outlet = none) {go : Option BusId}
    (hρ : τ.Exited m x go ρ) : σ.Completes m cs ρ := by
  obtain ⟨B', e, dn, hm, hB'⟩ := hρ.node hB hτ
  refine ⟨⟨B', _, hm, hB', howner, rfl⟩, fun c hc hcs => ?_, fun ho =>
    hρ.orderly hB hτ hx hnone (h.orderly ho)⟩
  have hne : c ≠ m := fun heq => Nat.lt_irrefl _ (heq ▸ hc)
  rw [hρ.same hne (Nat.lt_trans hc (hτ m B hB)), h.before c hc hcs]

end

section

variable {cs : List ComponentId} (h : σ.Site m cs)

include h

theorem Sheet.Site.not_mem : m ∉ cs := fun hm => Nat.lt_irrefl _ (h.behind m hm)

theorem draws_join : Draws Γ (addComponents m cs) σ fun _ τ => σ.Joined m cs τ := by
  obtain ⟨B, x, hB, hx, howner, hnone, hbehind⟩ := h.block
  have hnodup : cs.Nodup := h.sorted.imp fun hlt => by
    rintro rfl
    exact Nat.lt_irrefl _ hlt
  refine (draws_addComponents hB hx.interior hnodup fun c hc => ?_).mono fun _ τ hτ => ?_
  · obtain ⟨ν, y, hν, hy, hfree, -⟩ := h.runs c hc
    exact ⟨fun heq => h.not_mem (heq ▸ hc), ν, y, hν, hy, hfree⟩
  obtain ⟨-, hm, hsame, hchildren, horderly⟩ := hτ
  refine ⟨⟨_, { x with interior := { x.interior with children := x.interior.children ++ cs } }, hm,
    { hx with interior := rfl },
    howner, hnone, hbehind⟩, fun c hc hcs => ?_,
    fun c hc => ?_, horderly⟩
  · exact hsame c (fun heq => Nat.lt_irrefl _ (heq ▸ hc)) hcs
  · obtain ⟨ν, y, hν, hy, -, houtlet⟩ := h.runs c hc
    obtain ⟨ν', hν', hnode⟩ := hchildren c hc
    cases hν.symm.trans hν'
    obtain ⟨o, ho⟩ := Option.isSome_iff_exists.mp houtlet
    exact ⟨_, o, hnode, by simp [hy.exits, ho]⟩

/-- Whatever a block runs one after the other, it ends up ready. -/
theorem draws_sequence : Draws Γ (Synthesis.sequence m cs) σ fun _ τ => σ.Completes m cs τ := by
  refine .bind (draws_join h) fun _ τ hτ => ?_
  obtain ⟨B, x, hB, hx, -⟩ := hτ.block
  refine .look (sees_goBus_reaches hB hx.interior) fun go hgo => ?_
  refine .bind (draws_startInTurn hB hx.interior h.sorted hτ.ends (fun c _ => hgo c) (hgo m).gives)
    fun done ρ hρ => ?_
  obtain ⟨B, x, hB, hx, howner, hnone, -⟩ := (hτ.rewire h.not_mem hρ.1).block
  refine .of_bounded fun hbounded => ?_
  have hlast : ∀ c ∈ cs.getLast?.toList, ρ.EndsDone c := fun c hc =>
    hρ.1.endsDone (hτ.ends c (List.mem_of_getLast? (Option.mem_toList.mp hc)))
  refine .bind (draws_close hB hx hnone hlast hρ.2) fun _ υ hυ => ?_
  have hdone := (hτ.rewire h.not_mem hρ.1).complete hbounded hB hx howner hnone hυ
  obtain ⟨ν, y, hν, -⟩ := hdone.runs
  exact (draws_setProducesDone hν _).mono fun _ ω hω => hω ▸ hdone

/-- Whatever a block runs at once, it ends up ready. -/
theorem draws_parallel : Draws Γ (Synthesis.parallel m cs) σ fun _ τ => σ.Completes m cs τ := by
  refine .bind (draws_join h) fun _ τ hτ => ?_
  obtain ⟨B, x, hB, hx, -⟩ := hτ.block
  refine .look (sees_goBus_reaches hB hx.interior) fun go hgo => ?_
  refine .bind (draws_startAll hB hx.interior hτ.ends fun c _ => hgo c) fun _ ρ hρ => ?_
  have hjoined := hτ.rewire h.not_mem hρ
  obtain ⟨B, x, hB, hx, howner, hnone, -⟩ := hjoined.block
  refine .of_bounded fun hbounded => (draws_close hB hx hnone hjoined.ends
    ((hgo m).grow hρ.grows).gives).mono fun _ υ hυ => ?_
  exact hjoined.complete hbounded hB hx howner hnone hυ

end

/-! ### Tokens that enter a block -/

/-- A block gets a data port, and the bus that repeats it drives the data port of a module. -/
theorem draws_enter {y : Box} (hB : σ.node? m = some B) (hy : B.Encloses y) {I : Node}
    (hI : σ.node? y.interior.inBuf = some I) {o : Outlet} (hin : InBufNode m I o) {M : Node}
    (hM : σ.node? c = some M) {x : Box} (hx : M.Encloses x) (hcm : c ≠ m) {token : Option BusId}
    (hinputs : x.inputs = [(none, token)]) (name : String) (signal : Signal) :
    Draws Γ (do
      let index := (← component m).dataPorts.length
      let input ← makeDataPort m name
      setPortSignal input signal
      let b ← dataBus m index
      setBusSignal b signal
      setBus (← dataPort c 0) (some b)) σ fun _ τ => ∃ B' I' M' b,
        B'.Encloses { y with inputs := y.inputs ++ [(none, some b)] } ∧
        InBufNode m I' { o with data := o.data ++ [b] } ∧
        M'.Encloses { x with inputs := [(some b, token)] } ∧
        τ = ((σ.set y.interior.inBuf I').set m B').set c M' ∧ (σ.Orderly → τ.Orderly) := by
  have hmi : m ≠ y.interior.inBuf := ne_of_kinds hB hI hy.notBuffer (by rw [hin.kind]; rfl)
  have hci : c ≠ y.interior.inBuf := ne_of_kinds hM hI hx.notBuffer (by rw [hin.kind]; rfl)
  refine .look (sees_component hB) fun comp hcomp => ?_
  have hindex : comp.dataPorts.length = B.data.length := by simp [hcomp.dataPorts]
  rw [hindex]
  refine .bind (draws_makeDataPort_box hB hy hI hin name) fun p τ hτ => ?_
  obtain ⟨B', I', b, hB', hI', hdata, hτ⟩ := hτ
  have hblock : τ.node? m = some B' := by rw [hτ, Sheet.node?_set_self]
  have hinner : τ.node? y.interior.inBuf = some I' := by
    rw [hτ, Sheet.node?_set_of_ne _ _ hmi.symm, Sheet.node?_set_self]
  have hb : b ∈ I'.buses := by simp [hI'.buses, Outlet.buses]
  have hpad : B'.data[B.data.length]? = some { port := p, peer := some b } := by simp [hdata]
  refine .bind (draws_setPortSignal hblock (Node.data_mem_pads (List.mem_of_getElem? hpad)) signal)
    fun _ υ hυ => ?_
  subst hυ
  refine .read (sees_dataBus hblock hpad rfl) ?_
  refine .bind (draws_setBusSignal (Sheet.gives_of_mem hinner hb) signal) fun _ υ hυ => ?_
  subst hυ
  have hnode : υ.node? c = some M := by
    rw [hτ, Sheet.node?_set_of_ne _ _ hcm, Sheet.node?_set_of_ne _ _ hci, hM]
  obtain ⟨a, ha, hdriver⟩ := List.map_eq_singleton_iff.mp (hx.inputs.trans hinputs)
  have hport : M.data[0]? = some a := by rw [ha]; rfl
  have hpeer : a.peer = token := congrArg Prod.snd hdriver
  let M' : Node := { M with data := M.data.set 0 { a with driver := some b } }
  have hM' : M'.Encloses { x with inputs := [(some b, token)] } :=
    { hx with inputs := by simp [M', ha, hpeer] }
  refine .read (sees_dataPort hnode hport) ?_
  refine (draws_setData hnode (b := some b) (by simpa using Sheet.gives_of_mem hinner hb) hport).mono
    fun _ ρ hρ => ?_
  refine ⟨B', I', M', b, hB', hI', hM', by rw [hρ, hτ], fun ho => ?_⟩
  rw [hρ]
  -- The bus comes from the InBuf of the block, so no module is ordered behind another by it.
  refine (hτ ▸ ho.port hB hy hI hin hB' hI' : υ.Orderly).rewire hnode rfl rfl (fun _ h => h)
    fun _ d hd => ?_
  rw [hM'.mem_drivers] at hd
  rw [hx.mem_drivers, hinputs]
  rcases hd with hd | hd | hd | hd
  · exact .inl (.inl hd)
  · exact .inl (.inr (.inl hd))
  · exact .inl (.inr (.inr (.inl hd)))
  · obtain rfl : d = b := by simpa using hd
    exact .inr ⟨_, I', hinner, hb, .inl hI'.kind⟩

/-! ### Tasks -/

/-- The module is what it was, but for its owner and what starts and clocks it. -/
def Sheet.Retains (σ : Sheet) (c : ComponentId) (τ : Sheet) : Prop :=
  ∀ ν x, σ.node? c = some ν → ν.Encloses x → ∃ ν' owner clock reset go,
    τ.node? c = some ν' ∧ ν'.Encloses { x with owner, clock, reset, go }

theorem Sheet.Retains.same (h : σ.Retains c τ) (hsame : ρ.node? c = τ.node? c) : σ.Retains c ρ := by
  intro ν x hν hx
  rw [hsame]
  exact h ν x hν hx

/-- What starts the component comes from one that was drawn behind `m`. -/
def Sheet.StartsBehind (σ : Sheet) (m c : ComponentId) : Prop :=
  ∃ ν b d μ, σ.node? c = some ν ∧ ν.go.driver = some b ∧ σ.node? d = some μ ∧ b ∈ μ.buses ∧
    m.index < d.index

theorem Sheet.StartsBehind.grow (h : σ.StartsBehind m c) (hsame : τ.node? c = σ.node? c)
    (hg : σ.Grows τ) : τ.StartsBehind m c := by
  obtain ⟨ν, b, d, μ, hν, hb, hμ, hmem, hlt⟩ := h
  obtain ⟨μ', hμ', -, hbuses⟩ := hg d μ hμ
  exact ⟨ν, b, d, μ', hsame.trans hν, hb, hμ', hbuses b hmem, hlt⟩

/-- A new task with its body. -/
theorem draws_newTask {body : ComponentId} (hbody : σ.Runs body) (name : String) {β : Type}
    {rest : ComponentId → Step β} {R : β → Sheet → Prop}
    (hrest : ∀ τ, σ.Joined σ.next [body] τ → σ.Retains body τ → Draws Γ (rest σ.next) τ R) :
    Draws Γ (do
      let call ← newModule (.task body) name 0
      addComponent call body
      rest call) σ R := by
  obtain ⟨ν, x, hν, hx, howner, houtlet⟩ := hbody
  have hkind : (ComponentKind.module (.task body)).FitsIn Γ.scope
      [.has (.component body)] := fun n hn =>
    ⟨by simpa [ComponentKind.components] using (hn.facts (.has (.component body)) (by simp)).2,
      by simp [ComponentKind.pins]⟩
  refine .of_bounded fun hσ => ?_
  refine .bind (draws_newBox hkind (by simpa using .component hν) name) fun call τ hτ => ?_
  obtain ⟨rfl, T, I, o, hT, hI, rfl⟩ := hτ
  have hne := hσ.ne_next hν
  have hbody' : (σ.adds [T, I]).node? body = some ν := by
    rw [Sheet.node?_adds_of_lt (hσ body ν hν), hν]
  refine .bind (draws_addComponent hbody' (hx.owner.trans howner) (Sheet.node?_next_adds ..)
    hT.interior hne) fun _ τ hτ => ?_
  subst hτ
  have hnode : (((σ.adds [T, I]).set body { ν with owner := some σ.next }).set σ.next
      (T.adopt body)).node? body = some { ν with owner := some σ.next } := by
    rw [Sheet.node?_set_of_ne _ _ hne, Sheet.node?_set_self]
  refine hrest _ ⟨⟨_, _, Sheet.node?_set_self .., hT.adopt body, rfl, rfl, by simp⟩,
    fun c hc hcs => ?_, fun c hc => ?_, fun ho => ?_⟩ fun μ y hμ hy => ?_
  · have hcbody : c ≠ body := by simpa using hcs
    have hcnext : c ≠ σ.next := fun heq => Nat.lt_irrefl _ (heq ▸ hc)
    rw [Sheet.node?_set_of_ne _ _ hcnext, Sheet.node?_set_of_ne _ _ hcbody, Sheet.node?_adds_of_lt hc]
  · obtain rfl := List.mem_singleton.mp hc
    obtain ⟨o, ho⟩ := Option.isSome_iff_exists.mp houtlet
    exact ⟨{ ν with owner := some σ.next }, o, hnode, by simp [hx.exits, ho]⟩
  · have hnew : (σ.adds [T, I]).Orderly := ho.adds_empty hσ hT hI
    exact hnew.adopt hbody' hx (Sheet.node?_next_adds ..) hT.interior hne
  · cases hν.symm.trans hμ
    exact ⟨_, some σ.next, y.clock, y.reset, y.go, hnode, { hy with owner := rfl }⟩

/-- The body of a task is connected. -/
theorem draws_connectBody {body call : ComponentId} (h : σ.Joined call [body] τ) (hne : call ≠ body)
    (hbody : σ.Retains body τ) {β : Type} {rest : Step β} {R : β → Sheet → Prop}
    (hrest : ∀ ρ, σ.Joined call [body] ρ → σ.Retains body ρ → ρ.StartsBehind call body →
      Draws Γ rest ρ R) : Draws Γ (do
      let x ← component body
      let go ← goBus call
      let clock ← clockBus call
      let reset ← resetBus call
      setBus x.go (some go)
      setBus x.clock (some clock)
      setBus x.reset (some reset)
      rest) τ R := by
  obtain ⟨ν, o, hν, -⟩ := h.ends body (by simp)
  obtain ⟨T, y, hT, hy, -, -, hbehind⟩ := h.block
  refine .look (sees_component hν) fun x hx => ?_
  refine .look (sees_goBus_inBuf hT hy.interior) fun go ⟨I, hI, hin, hmem⟩ => ?_
  have hgo : τ.Reaches body go := ⟨y.interior.inBuf, I, hI, hmem, .inl hin⟩
  refine .look (sees_clockBus_reaches hT hy.interior body) fun clock hclock => ?_
  refine .look (sees_resetBus_reaches hT hy.interior body) fun reset hreset => ?_
  rw [hx.go, hx.clock, hx.reset]
  refine .bind ((draws_connect hν ν.go_mem_pads hgo).and
    (draws_setGo hν (by simpa using hgo.gives))) fun _ τ₁ ⟨hτ₁, heq₁⟩ => ?_
  subst heq₁
  have hν₁ := Sheet.node?_set_self τ body { ν with go := { ν.go with driver := some go } }
  have hclock₁ := hclock.grow hτ₁.grows
  refine .bind ((draws_connect hν₁ (Node.clock_mem_pads _) hclock₁).and
    (draws_setClock hν₁ (by simpa using hclock₁.gives))) fun _ τ₂ ⟨hτ₂, heq₂⟩ => ?_
  rw [Sheet.set_set] at heq₂
  subst heq₂
  have hν₂ := Sheet.node?_set_self τ body { ν with
    go := { ν.go with driver := some go }, clock := { ν.clock with driver := some clock } }
  have hτ₂ := hτ₁.trans hτ₂
  have hreset₂ := hreset.grow hτ₂.grows
  refine .bind ((draws_connect hν₂ (Node.reset_mem_pads _) hreset₂).and
    (draws_setReset hν₂ (by simpa using hreset₂.gives))) fun _ τ₃ ⟨hτ₃, heq₃⟩ => ?_
  rw [Sheet.set_set] at heq₃
  subst heq₃
  have hτ₃ := hτ₂.trans hτ₃
  refine hrest _ (h.rewire (by simpa using hne) (hτ₃.mono fun c hc => ?_)) (fun μ z hμ hz => ?_) ?_
  · exact List.mem_singleton.mpr hc
  · obtain ⟨μ', owner, _, _, _, hμ', hz'⟩ := hbody μ z hμ hz
    cases hν.symm.trans hμ'
    exact ⟨_, owner, some clock, some reset, some go, Sheet.node?_set_self .., hz'.kind, hz'.owner,
      rfl, rfl, rfl, hz'.start, hz'.this, hz'.inputs, hz'.exits, hz'.interior⟩
  · obtain ⟨I', hI', -, hbuses⟩ := hτ₃.grows _ I hI
    exact ⟨_, go, y.interior.inBuf, I', Sheet.node?_set_self .., rfl, hI', hbuses go hmem, hbehind⟩

/-- A module is put into a task, which then can be run in its place. -/
theorem draws_wrapBody {body : ComponentId} (hbody : σ.Runs body) (name : String) :
    Draws Γ (Design.wrapBody name body) σ fun call τ =>
      call = σ.next ∧ σ.Completes σ.next [body] τ ∧ σ.Retains body τ ∧
        τ.StartsBehind σ.next body := by
  refine .of_bounded fun hσ => draws_newTask hbody name fun τ hτ hkept => ?_
  have hne : body ≠ σ.next := by
    obtain ⟨ν, x, hν, -⟩ := hbody
    exact hσ.ne_next hν
  refine draws_connectBody hτ hne.symm hkept fun ρ hρ hkept hstarts => .of_bounded fun hbounded => ?_
  obtain ⟨T, y, hT, hy, howner, hnone, -⟩ := hρ.block
  obtain ⟨ν, o, hν, ho⟩ := hρ.ends body (by simp)
  refine .bind (draws_mergeExits_box hT hy hnone (by simp) hρ.ends) fun _ υ hυ => ?_
  obtain ⟨M', O', e, done, hM', hO', hυ⟩ := hυ
  have hexited : ρ.Exited σ.next y none υ := ⟨M', O', e, done, hM', hO', hυ⟩
  have hsame : ∀ {go ω}, ρ.Exited σ.next y go ω → ω.node? body = some ν := fun h =>
    (h.same hne (hbounded body ν hν)).trans hν
  have houtlet : ν.outlet? .done = some o := by simp [Node.outlet?, ho]
  have hmarks : ∀ ω, ρ.Exited σ.next y (some o.done) ω → Draws Γ (do
      let x ← component body
      setConsumesClock σ.next x.consumesClock
      setConsumesReset σ.next x.consumesReset
      setConsumesGo σ.next x.consumesGo
      setProducesDone σ.next x.producesDone
      return σ.next) ω fun call τ => call = σ.next ∧ σ.Completes σ.next [body] τ ∧
        σ.Retains body τ ∧ τ.StartsBehind σ.next body := by
    intro ω hω
    obtain ⟨B', e, dn, hm, -⟩ := hω.node hT hbounded
    refine .look (sees_component (hsame hω)) fun x _ => ?_
    refine .bind (draws_setConsumesClock hm _) fun _ ω₁ hω₁ => ?_
    subst hω₁
    refine .bind (draws_setConsumesReset hm _) fun _ ω₁ hω₁ => ?_
    subst hω₁
    refine .bind (draws_setConsumesGo hm _) fun _ ω₁ hω₁ => ?_
    subst hω₁
    refine .bind (draws_setProducesDone hm _) fun _ ω₁ hω₁ => ?_
    subst hω₁
    exact .pure ⟨rfl, hρ.complete hbounded hT hy howner hnone hω,
      hkept.same ((hsame hω).trans hν.symm), hstarts.grow ((hsame hω).trans hν.symm)
        (hω.grows hT hbounded hy hnone)⟩
  obtain ⟨O, hO, hdrive⟩ := draws_driveExit Γ hexited
  refine .look (sees_component (hsame hexited)) fun x hx => ?_
  have hmain : x.mainExit? = some o.exit := by rw [hx.mainExit?, houtlet]; rfl
  simp only [hmain]
  refine .read (sees_newOutBuf hT hbounded hexited) (.look (sees_component hO) fun w hw => ?_)
  refine .look (sees_exit (hsame hexited) (Node.outlet?_mem houtlet)) fun z hz => ?_
  have hdone : z.done = o.done := (congrArg Outlet.done hz).symm
  rw [hw.go, hdone]
  refine .bind (hdrive o.done ?_) fun _ ω hω => hmarks ω hω
  exact Sheet.gives_of_mem (hsame hexited) (by simp [Node.buses, Node.outlets, ho, Outlet.buses])

/-- A module is put into a task of another module. -/
theorem draws_addTask {body r : ComponentId} {R : Node} {x : Box} (hbody : σ.Runs body)
    (hR : σ.node? r = some R) (hx : R.Encloses x) (hne : r ≠ body) (name : String) :
    Draws Γ (do
      let call ← Design.wrapBody name body
      addComponent r call
      return call) σ fun call τ => call = σ.next ∧
        (∃ ν y, τ.node? call = some ν ∧ ν.Encloses y) ∧ τ.node? r = some (R.adopt call) ∧
        (∀ c, c.index < σ.size → c ≠ body → c ≠ r → τ.node? c = σ.node? c) ∧
        σ.Retains body τ ∧ τ.StartsBehind σ.next body ∧ (σ.Orderly → τ.Orderly) := by
  refine .of_bounded fun hσ => .bind (draws_wrapBody hbody name)
    fun call τ ⟨hcall, hτ, hkept, hstarts⟩ => ?_
  subst hcall
  obtain ⟨ν, y, hν, hy, howner, -⟩ := hτ.runs
  have hnext : r ≠ σ.next := hσ.ne_next hR
  have hR' : τ.node? r = some R := by rw [hτ.before r (hσ r R hR) (by simpa using hne), hR]
  have hsame : ∀ {M N : Node}, ((τ.set σ.next M).set r N).node? body = τ.node? body := by
    obtain ⟨μ, z, hμ, -⟩ := hbody
    intro M N
    rw [Sheet.node?_set_of_ne _ _ hne.symm, Sheet.node?_set_of_ne _ _ (hσ.ne_next hμ)]
  refine .bind (draws_addComponent hν (hy.owner.trans howner) hR' hx.interior hnext.symm)
    fun _ ρ hρ => .pure ⟨rfl, ?_, ?_, fun c hc hcb hcr => ?_, hkept.same (hρ ▸ hsame), ?_,
      fun ho => ?_⟩
  · refine ⟨{ ν with owner := some r }, { y with owner := some r }, ?_, ?_⟩
    · rw [hρ, Sheet.node?_set_of_ne _ _ hnext.symm, Sheet.node?_set_self]
    · exact { hy with owner := rfl }
  · rw [hρ, Sheet.node?_set_self]
  · have hcn : c ≠ σ.next := fun heq => Nat.lt_irrefl _ (heq ▸ hc)
    rw [hρ, Sheet.node?_set_of_ne _ _ hcr, Sheet.node?_set_of_ne _ _ hcn,
      hτ.before c hc (by simpa using hcb)]
  · have hR'' : (τ.set σ.next { ν with owner := some r }).node? r = some R := by
      rw [Sheet.node?_set_of_ne _ _ hnext, hR']
    refine hstarts.grow (hρ ▸ hsame) (hρ ▸ Sheet.Grows.trans ?_ (.set hR'' rfl fun _ h => h))
    exact .set hν rfl fun _ h => h
  · exact hρ ▸ (hτ.orderly ho).adopt hν hy hR' hx.interior hnext.symm

end DataflowSynth.Netlist
