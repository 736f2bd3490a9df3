/-
The tasks of a design can always be built.

While a block is built, everything that was there before it stays as it is, and the accessors that the
block is to run come after it, one behind the other.  In such a site the block can be completed, put
into a task and connected to its clock.
-/
import DataflowSynth.Proofs.Actor.Validity
import DataflowSynth.Proofs.Design.Layout
import DataflowSynth.Synthesis.Actor

namespace DataflowSynth

open Build

namespace Netlist

variable {Γ : Ground} {σ τ : Sheet} {c m : ComponentId} {cs : List ComponentId}
  {inputs : List (Option BusId × Option BusId)}

/-! ### Sites -/

/-- A new block. -/
theorem draws_newBlock (stem : String) : Draws Γ (newModule .block stem 0) σ fun m τ =>
    m = σ.next ∧ τ.Site m [] ∧ (∀ c, c.index < m.index → τ.node? c = σ.node? c) ∧
      (σ.Orderly → τ.Orderly) := by
  refine .of_bounded fun hσ => (draws_newBox (K := []) (ComponentKind.fitsIn_of_none rfl rfl) (by simp)
    stem).mono fun m τ hτ => ?_
  obtain ⟨rfl, M, I, o, hM, hI, rfl⟩ := hτ
  refine ⟨rfl, ⟨⟨M, _, Sheet.node?_next_adds .., hM, rfl, rfl, by simp⟩, .nil, by simp, by simp⟩,
    fun c hc => Sheet.node?_adds_of_lt hc _, fun ho => ho.adds_empty hσ hM hI⟩

/-- One more module stands behind those of a site. -/
theorem Sheet.Site.gain (h : σ.Site m cs) (hσ : σ.Bounded) (hτ : σ.Gains inputs c τ) :
    τ.Site m (cs ++ [c]) := by
  obtain ⟨rfl, x, M, νs, hloose, houtlet, -, hM, rfl, -⟩ := hτ
  have hold : ∀ {d ν}, σ.node? d = some ν → (σ.adds (M :: νs)).node? d = some ν := fun hν => by
    rw [Sheet.node?_adds_of_lt (hσ _ _ hν), hν]
  obtain ⟨B, y, hB, hy⟩ := h.block
  refine ⟨⟨B, y, hold hB, hy⟩, List.pairwise_append.mpr ⟨h.sorted, by simp, ?_⟩, ?_, ?_⟩
  · intro d hd e he
    obtain rfl := List.mem_singleton.mp he
    obtain ⟨ν, z, hν, -⟩ := h.runs d hd
    exact hσ d ν hν
  · intro d hd
    rcases List.mem_append.mp hd with hd | hd
    · exact h.behind d hd
    · obtain rfl := List.mem_singleton.mp hd
      exact hσ m B hB
  · intro d hd
    rcases List.mem_append.mp hd with hd | hd
    · obtain ⟨ν, z, hν, hz⟩ := h.runs d hd
      exact ⟨ν, z, hold hν, hz⟩
    · obtain rfl := List.mem_singleton.mp hd
      exact ⟨M, x, Sheet.node?_next_adds .., hM, hloose.owner, houtlet⟩

/-- Some modules of a site have changed, but can be run as before. -/
theorem Sheet.Site.change (h : σ.Site m cs) (hblock : τ.Opens m)
    (hruns : ∀ c ∈ cs, τ.node? c = σ.node? c ∨ τ.Runs c) : τ.Site m cs := by
  refine ⟨hblock, h.sorted, h.behind, fun c hc => ?_⟩
  rcases hruns c hc with hsame | hruns
  · obtain ⟨ν, x, hν, hx⟩ := h.runs c hc
    exact ⟨ν, x, hsame.trans hν, hx⟩
  · exact hruns

/-- The token of a write enters the block on a port of its own. -/
theorem draws_feed (h : σ.Site m cs) (hc : c ∈ cs) {M : Node} {x : Box}
    (hM : σ.node? c = some M) (hx : M.Encloses x) (howner : x.owner = none) (houtlet : x.outlet.isSome)
    {token : Option BusId} (hinputs : x.inputs = [(none, token)]) (name : String) (signal : Signal) :
    Draws Γ (do
      let index := (← component m).dataPorts.length
      let input ← makeDataPort m name
      setPortSignal input signal
      let b ← dataBus m index
      setBusSignal b signal
      setBus (← dataPort c 0) (some b)) σ fun _ τ => τ.Site m cs ∧
        (∀ d, d.index < m.index → τ.node? d = σ.node? d) ∧ (σ.Orderly → τ.Orderly) := by
  obtain ⟨B, y, hB, hy, hfree, hnone, hbehind⟩ := h.block
  refine .of_proper fun n hn hσ => ?_
  obtain ⟨I, o, hI, hin⟩ := (hσ ▸ hn.inBufNode (hσ ▸ hB) hy.interior :
    ∃ I o, σ.node? y.interior.inBuf = some I ∧ InBufNode m I o)
  have hcm : c ≠ m := fun heq => h.not_mem (heq ▸ hc)
  refine (draws_enter hB hy hI hin hM hx hcm hinputs name signal).mono fun _ τ hτ => ?_
  obtain ⟨B', I', M', b, hB', -, hM', hτ, horderly⟩ := hτ
  have hsame : ∀ d, d ≠ c → d ≠ m → d ≠ y.interior.inBuf → τ.node? d = σ.node? d :=
    fun d hdc hdm hdi => by
      rw [hτ, Sheet.node?_set_of_ne _ _ hdc, Sheet.node?_set_of_ne _ _ hdm,
        Sheet.node?_set_of_ne _ _ hdi]
  have hblock : τ.node? m = some B' := by
    rw [hτ, Sheet.node?_set_of_ne _ _ hcm.symm, Sheet.node?_set_self]
  refine ⟨h.change ⟨B', _, hblock, hB', hfree, hnone, hbehind⟩ fun d hd => ?_, fun d hd => ?_, horderly⟩
  · by_cases hdc : d = c
    · exact .inr ⟨M', _, by rw [hτ, hdc, Sheet.node?_set_self], hM', howner, houtlet⟩
    · obtain ⟨ν, z, hν, hz, -⟩ := h.runs d hd
      exact .inl (hsame d hdc (fun heq => h.not_mem (heq ▸ hd))
        (ne_of_kinds hν hI hz.notBuffer (by rw [hin.kind]; rfl)))
  · exact hsame d (fun heq => Nat.lt_asymm hd (heq ▸ h.behind c hc))
      (fun heq => Nat.lt_irrefl _ (heq ▸ hd)) fun heq => Nat.lt_asymm hd (heq ▸ hbehind)

end Netlist

namespace Synthesis

open Netlist (Sheet Node Box Draws Sees Proper)

variable {d : Design} {block : ComponentId} {steps : List ComponentId} {s : Traced Design}
  {F : Failure → Traced Design → Prop}

/-! ### Blocks under construction -/

/-- The netlist of a design to which a block has been added; `d` is the design before. -/
structure Begun (d : Design) (block : ComponentId) (n : Netlist) : Prop where
  laid : d.Laid
  proper : Proper d.pins.size n
  before : ∀ c, c.index < block.index → n.sheet.node? c = d.netlist.sheet.node? c
  new : d.netlist.sheet.size ≤ block.index
  orderly : n.sheet.Orderly

/-- What was there before is still there. -/
theorem Begun.old {n : Netlist} (h : Begun d block n) {c : ComponentId} {ν : Node}
    (hν : d.netlist.sheet.node? c = some ν) : n.sheet.node? c = some ν := by
  rw [h.before c (Nat.lt_of_lt_of_le (Netlist.lt_of_node? hν) h.new), hν]

/-- The block is drawn behind the root module. -/
theorem Begun.root_lt {n : Netlist} (h : Begun d block n) : d.root.index < block.index := by
  obtain ⟨R, x, I, o, hosts, -⟩ := h.laid.layout.root
  exact Nat.lt_of_lt_of_le (Netlist.lt_of_node? hosts.node) h.new

theorem Begun.still_laid {n : Netlist} (h : Begun d block n) : Design.Laid { d with netlist := n } :=
  (h.laid.layout.grow (fun _ hR => .inl (h.old hR)) (fun _ _ hν _ => h.old hν) h.orderly).laid h.proper

/-- The block is being built. -/
structure Building (d : Design) (block : ComponentId) (steps : List ComponentId) (n : Netlist) : Prop
    extends Begun d block n where
  site : n.sheet.Site block steps

/-- Nothing but the netlist has changed since the block was begun. -/
def Underway (d : Design) (block : ComponentId) (steps : List ComponentId) (s : Traced Design) : Prop :=
  ∃ n, s.state = { d with netlist := n } ∧ Building d block steps n

theorem Underway.laid (h : Underway d block steps s) : s.state.Laid := by
  obtain ⟨n, heq, h⟩ := h
  exact heq ▸ h.still_laid

/-- A step on the netlist goes on from what is underway. -/
theorem Underway.wiring {α : Type} {x : Netlist.Step α} {P : Sheet → α → Sheet → Prop}
    {Q : α → Traced Design → Prop} (h : Underway d block steps s)
    (hx : ∀ n, Building d block steps n → Draws d.pins.size x n.sheet (P n.sheet))
    (hQ : ∀ n a n' journal, Building d block steps n → Proper d.pins.size n' →
      P n.sheet a n'.sheet → n.sheet.Bounded → Q a ⟨{ d with netlist := n' }, journal⟩) :
    wp (Design.wiring x) Q F s := by
  have hlaid := h.laid
  obtain ⟨n, heq, h⟩ := h
  obtain ⟨state, journal⟩ := s
  cases heq
  exact Design.wp_wiring hlaid (hx n h) fun a n' journal' hproper ha =>
    hQ n a n' journal' h hproper ha fun _ _ hν => Netlist.lt_of_node? hν

theorem wp_newBlock (hs : s.state.Laid) (stem : String) :
    wp (Design.wiring (Netlist.newModule .block stem 0))
      (fun block t => Underway s.state block [] t) F s := by
  refine Design.wp_wiring hs (Netlist.draws_newBlock stem) fun block n journal hproper hblock =>
    ⟨n, rfl, ?_⟩
  obtain ⟨rfl, hsite, hbefore, horderly⟩ := hblock
  exact ⟨⟨hs, hproper, hbefore, Nat.le_refl _, horderly hs.layout.orderly⟩, hsite⟩

section

variable (h : Underway d block steps s)

include h

/-- The block gets one more module to run. -/
theorem wp_gain {x : Netlist.Step ComponentId} {R : List (Option BusId × Option BusId) → Prop}
    (hx : ∀ σ, Draws d.pins.size x σ fun m τ => ∃ inputs, R inputs ∧ σ.Gains inputs m τ) :
    wp (Design.wiring x) (fun c t => ∃ n M y, t.state = { d with netlist := n } ∧
      Building d block (steps ++ [c]) n ∧ n.sheet.node? c = some M ∧ M.Encloses y ∧
      y.owner = none ∧ y.outlet.isSome ∧ R y.inputs) F s := by
  refine h.wiring (P := fun σ m τ => ∃ inputs, R inputs ∧ σ.Gains inputs m τ) (fun n _ => hx n.sheet)
    fun n c n' journal hn hproper ⟨inputs, hR, hgains⟩ hbounded => ?_
  have hsite := hn.site.gain hbounded hgains
  obtain ⟨rfl, y, M, νs, hloose, houtlet, rfl, hM, hsheet, horderly⟩ := hgains
  obtain ⟨B, z, hB, -⟩ := hn.site.block
  refine ⟨n', M, y, rfl, ⟨⟨hn.laid, hproper, fun c hc => ?_, hn.new, horderly hn.orderly⟩, hsite⟩, ?_,
    hM, hloose.owner, houtlet, hR⟩
  · rw [hsheet, Sheet.node?_adds_of_lt (Nat.lt_trans hc (hbounded _ B hB)), hn.before c hc]
  · rw [hsheet, Sheet.node?_next_adds]

theorem wp_gain_underway {x : Netlist.Step ComponentId}
    {inputs : List (Option BusId × Option BusId)}
    (hx : ∀ σ, Draws d.pins.size x σ fun m τ => σ.Gains inputs m τ) :
    wp (Design.wiring x) (fun c t => Underway d block (steps ++ [c]) t) F s := by
  refine wp_mono (wp_gain h (R := (· = inputs)) fun σ => (hx σ).mono fun m τ hτ => ⟨_, rfl, hτ⟩)
    (fun c t ht => ?_) fun _ _ h => h
  obtain ⟨n, M, y, heq, hn, -⟩ := ht
  exact ⟨n, heq, hn⟩

variable {f : Fifo} {handle : FifoId} (hf : d.fifos.get? handle = some f)

include hf

theorem wp_fifoAccess {kind : AccessKind} {Q : ComponentId → Traced Design → Prop}
    (hQ : wp (Design.wiring (f.access kind)) Q F s) : wp (Design.fifoAccess handle kind) Q F s := by
  have hget : s.state.fifos.get? handle = some f := by
    obtain ⟨n, heq, -⟩ := h
    rw [heq]
    exact hf
  simp only [Design.fifoAccess, Design.fifo, wp_bind, wp_look, hget, wp_expect_some]
  exact hQ

theorem Underway.usable : f.Usable d.pins.size := by
  obtain ⟨n, -, hn⟩ := h
  exact hn.laid.layout.fifos _ f hf

theorem wp_read (hdirection : f.spec.direction = .input) : wp (Design.fifoAccess handle .read)
    (fun c t => Underway d block (steps ++ [c]) t) F s := by
  refine wp_fifoAccess h hf ?_
  simp only [Fifo.access, hdirection]
  exact wp_gain_underway h fun _ => Netlist.draws_reader (h.usable hf)

theorem wp_status : wp (Design.fifoAccess handle .status)
    (fun c t => Underway d block (steps ++ [c]) t) F s :=
  wp_fifoAccess h hf (wp_gain_underway h fun _ => Netlist.draws_probe (h.usable hf))

theorem wp_writeStep (hdirection : f.spec.direction = .output) (p : Actor.Port) (token : Nat) :
    wp (writeStep block handle p token) (fun c t => Underway d block (steps ++ [c]) t) F s := by
  rw [writeStep, wp_bind]
  refine wp_fifoAccess h hf ?_
  simp only [Fifo.access, hdirection]
  refine wp_mono (wp_gain h (R := fun inputs => ∃ token, inputs = [(none, some token)])
    fun σ => (Netlist.draws_writer (h.usable hf)).mono fun m τ hτ => ?_) (fun c t ht => ?_)
    fun _ _ h => h
  · obtain ⟨token, hτ⟩ := hτ
    exact ⟨_, ⟨token, rfl⟩, hτ⟩
  obtain ⟨n, M, y, heq, hn, hM, hy, howner, houtlet, bus, hinputs⟩ := ht
  have hlaid : t.state.Laid := Underway.laid ⟨n, heq, hn⟩
  obtain ⟨state, journal⟩ := t
  cases heq
  rw [wp_bind]
  refine Design.wp_wiring hlaid (Netlist.draws_feed hn.site (by simp) hM hy howner houtlet hinputs _ _)
    ?_
  rintro _ n' journal' hproper ⟨hsite, hbefore, horderly⟩
  exact ⟨n', rfl, ⟨hn.laid, hproper, fun c hc => (hbefore c hc).trans (hn.before c hc), hn.new,
    horderly hn.orderly⟩, hsite⟩

end

/-! ### Interfaces of ports -/

/-- The interfaces of the ports of an actor: inputs are read and outputs are written. -/
structure Equipped (actor : Actor) (fifos : Interfaces) (d : Design) : Prop where
  inputs : ∀ p ∈ actor.inputs, ∃ h f, fifos.find? p.name = some h ∧ d.fifos.get? h = some f ∧
    f.spec.direction = .input
  outputs : ∀ p ∈ actor.outputs, ∃ h f, fifos.find? p.name = some h ∧ d.fifos.get? h = some f ∧
    f.spec.direction = .output

/-! ### Finished blocks -/

/-- The block can be run. -/
def Finished (d : Design) (block : ComponentId) (s : Traced Design) : Prop :=
  ∃ n, s.state = { d with netlist := n } ∧ Begun d block n ∧ n.sheet.Runs block

theorem wp_finish {x : Netlist.Step Unit} (h : Underway d block steps s)
    (hx : ∀ σ, σ.Site block steps → Draws d.pins.size x σ fun _ τ => σ.Completes block steps τ) :
    wp (Design.wiring x) (fun _ t => Finished d block t) F s := by
  refine h.wiring (P := fun σ _ τ => σ.Completes block steps τ) (fun n hn => hx n.sheet hn.site)
    fun n _ n' journal hn hproper hdone _ => ⟨n', rfl, ⟨hn.laid, hproper, fun c hc => ?_, hn.new,
      hdone.orderly hn.orderly⟩, hdone.runs⟩
  have hsteps : c ∉ steps := fun hmem => Nat.lt_asymm hc (hn.site.behind c hmem)
  exact (hdone.before c hc hsteps).trans (hn.before c hc)

/-- The design `d`, with the netlist `n`, has one more task that does what `block` does.  What was there
is as it was, but for the root module, and for what drives the block. -/
structure Wraps (d : Design) (n : Netlist) (name : String) (block : ComponentId) (t : TaskId)
    (d' : Design) : Prop where
  task : t = d.tasks.next
  design : ∃ n' call, d' = { d with netlist := n', tasks := d.tasks.push { name, call, body := block } }
  laid : d'.Laid
  size : n.sheet.size ≤ d'.netlist.sheet.size
  same : ∀ c, c.index < n.sheet.size → c ≠ block → c ≠ d.root →
    d'.netlist.sheet.node? c = n.sheet.node? c
  retains : n.sheet.Retains block d'.netlist.sheet
  starts : d'.netlist.sheet.StartsBehind n.sheet.next block

theorem wp_addClockedTask {n : Netlist} (hs : s.state = { d with netlist := n }) (hn : Begun d block n)
    (hruns : n.sheet.Runs block) {clockDomain : String} {domain : Design.ClockDomain}
    (hdomain : d.domains.find? clockDomain = some domain) (name : String) :
    wp (addClockedTask clockDomain name block) (fun h t => Wraps d n name block h t.state) F s := by
  obtain ⟨state, journal⟩ := s
  cases hs
  obtain ⟨R, x, I, o, hosts, -⟩ := hn.laid.layout.root
  have hroot := hn.old hosts.node
  have hne : d.root ≠ block := fun heq =>
    Nat.lt_irrefl _ (Nat.lt_of_lt_of_le (heq ▸ Netlist.lt_of_node? hosts.node) hn.new)
  rw [addClockedTask, wp_bind, Design.addTask, wp_bind, wp_look, wp_bind]
  refine Design.wp_wiring hn.still_laid (Netlist.draws_addTask hruns hroot hosts.box hne name)
    fun call n' journal' hproper hcall => ?_
  obtain ⟨rfl, ⟨ν, y, hν, hy⟩, hroot', hframe, hretains, hstarts, horderly⟩ := hcall
  obtain ⟨B, z, hB, -⟩ := hruns
  have hblock : block.index < n.sheet.size := Netlist.lt_of_node? hB
  have hsize : d.netlist.sheet.size ≤ n.sheet.size := Nat.le_trans hn.new (Nat.le_of_lt hblock)
  have hlaid : Design.Laid { d with netlist := n' } := by
    refine (hn.laid.layout.grow (fun R' hR' => .inr ⟨n.sheet.next, ?_⟩) (fun c μ hμ hi => ?_)
      (horderly hn.orderly)).laid hproper
    · cases hosts.node.symm.trans hR'
      exact hroot'
    · have hlt : c.index < d.netlist.sheet.size := Netlist.lt_of_node? hμ
      have hcb : c ≠ block := fun heq => Nat.lt_irrefl _ (Nat.lt_of_lt_of_le (heq ▸ hlt) hn.new)
      have hcr : c ≠ d.root := by
        rintro rfl
        cases hμ.symm.trans hosts.node
        exact absurd (hosts.box.interior.symm.trans hi) (by simp)
      rw [hframe c (Nat.lt_of_lt_of_le hlt hsize) hcb hcr, hn.old hμ]
  simp only [wp_bind, wp_look, wp_change, wp_pure]
  refine wp_mono (@Design.wp_clockDomain_found _ F clockDomain domain hdomain) ?_ fun _ _ h => h
  rintro found t ⟨ht, hfound⟩
  subst ht hfound
  simp only [Design.task, wp_bind, wp_look, Arena.get?_push_next, wp_expect_some]
  refine wp_mono (Design.wp_connectToDomain (hlaid.congr rfl rfl rfl rfl rfl) hν hy ?_
    fun sync hsync => ?_) (fun _ t ht => ?_) fun _ _ h => h
  · have hlt : d.root.index < n.sheet.size := Netlist.lt_of_node? hroot
    exact fun heq => Nat.lt_irrefl _ (heq ▸ hlt)
  · refine ⟨hlaid.layout.syncs clockDomain found sync hdomain hsync, ?_⟩
    obtain ⟨μ, o', b, hμ, -⟩ := hn.laid.layout.syncs clockDomain found sync hdomain hsync
    exact Nat.lt_of_lt_of_le (Netlist.lt_of_node? hμ) hsize
  · obtain ⟨n'', heq, hlaid', hrewired⟩ := ht
    have hcall : ∀ c, c.index < n.sheet.size → n''.sheet.node? c = n'.sheet.node? c := fun c hc =>
      hrewired.same c fun h => Nat.lt_irrefl _ (h ▸ hc)
    refine ⟨rfl, ⟨n'', _, heq⟩, hlaid', ?_, fun c hc hcb hcr => ?_, ?_, ?_⟩
    · rw [heq]
      exact Nat.le_of_lt (Nat.lt_of_lt_of_le (Netlist.lt_of_node? hν) (Nat.le_of_eq hrewired.size.symm))
    · rw [heq, hcall c hc, hframe c hc hcb hcr]
    · rw [heq]
      exact hretains.same (hcall block hblock)
    · rw [heq]
      exact hstarts.grow (hcall block hblock) hrewired.grows

/-- What is inside the block is as it was. -/
theorem Wraps.inside {n : Netlist} {name : String} {t : TaskId} {d' : Design}
    (h : Wraps d n name block t d') (hn : Begun d block n) {c : ComponentId}
    (hlt : block.index < c.index) (hc : c.index < n.sheet.size) :
    d'.netlist.sheet.node? c = n.sheet.node? c := by
  have hroot := hn.root_lt
  exact h.same c hc (fun heq => absurd (heq ▸ hlt) (by omega)) fun heq => absurd (heq ▸ hlt) (by omega)

/-- The design has one more task.  What was there is as it was, but for the root module. -/
structure Adds (d : Design) (name : String) (block : ComponentId) (t : TaskId) (d' : Design) :
    Prop where
  task : t = d.tasks.next
  design : ∃ n call, d' = { d with netlist := n, tasks := d.tasks.push { name, call, body := block } }
  laid : d'.Laid
  same : ∀ c, c.index < d.netlist.sheet.size → c ≠ d.root →
    d'.netlist.sheet.node? c = d.netlist.sheet.node? c

theorem Wraps.adds {n : Netlist} {name : String} {t : TaskId} {d' : Design}
    (h : Wraps d n name block t d') (hn : Begun d block n) (hruns : n.sheet.Runs block) :
    Adds d name block t d' := by
  obtain ⟨B, z, hB, -⟩ := hruns
  have hblock : block.index < n.sheet.size := Netlist.lt_of_node? hB
  refine ⟨h.task, h.design, h.laid, fun c hc hroot => ?_⟩
  have hlt : c.index < block.index := Nat.lt_of_lt_of_le hc hn.new
  rw [h.same c (Nat.lt_trans hlt hblock) (fun heq => Nat.lt_irrefl _ (heq ▸ hlt)) hroot,
    hn.before c hlt]

end Synthesis

end DataflowSynth
