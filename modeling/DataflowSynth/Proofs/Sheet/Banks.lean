/-
Blocks that start everything at once.

While a block is open, modules are drawn one behind the other.  Then they are put into it, and the bus
that repeats the go of the block inside starts every one of them.  The same bus starts the OutBuf, so the
block is done when it starts.
-/
import DataflowSynth.Proofs.Sheet.Fixtures

namespace DataflowSynth.Netlist

open Build

variable {Γ : Ground} {σ τ : Sheet} {m : ComponentId} {start : BusId} {fs : List Fixture}

/-! ### Blocks under construction -/

/-- An open block, and the modules that are to stand in it. -/
structure Sheet.Fitted (σ : Sheet) (m : ComponentId) (start : BusId) (fs : List Fixture) : Prop where
  block : ∃ B, σ.node? m = some B ∧
    B.Encloses { kind := .block, start, interior := { inBuf := after m 1 } }
  inBuf : ∃ I o, σ.node? (after m 1) = some I ∧ InBufNode m I o ∧ o.done = start
  stands : ∀ f ∈ fs, f.Stands σ none none
  apart : Apart fs
  behind : ∀ f ∈ fs, m.index + 1 < f.place.index ∧ f.place.index + f.parts.length < σ.size

theorem draws_openFitted (stem : String) : Draws Γ (newModule .block stem 0) σ fun m τ =>
    ∃ start, τ.Fitted m start [] := by
  refine (draws_newBox (K := []) (ComponentKind.fitsIn_of_none rfl rfl) (by simp) stem).mono
    fun m τ hτ => ?_
  obtain ⟨rfl, M, I, o, hM, hI, rfl⟩ := hτ
  refine ⟨o.done, ⟨M, Sheet.node?_next_adds .., hM⟩, ⟨I, o, ?_, hI, rfl⟩, by simp, .nil, by simp⟩
  exact Sheet.node?_adds_fresh σ [M, I] (k := 1) (by simp)

namespace Sheet.Fitted

variable (h : σ.Fitted m start fs)

include h

/-- Nothing of the modules stands where the block or its InBuf stands. -/
theorem not_covers {f : Fixture} (hf : f ∈ fs) : ¬ f.Covers m ∧ ¬ f.Covers (after m 1) := by
  have hlt := (h.behind f hf).1
  have hindex : (after m 1).index = m.index + 1 := rfl
  unfold Fixture.Covers
  omega

theorem places_behind {c : ComponentId} (hc : c ∈ fs.map Fixture.place) : m.index + 1 < c.index := by
  obtain ⟨f, hf, rfl⟩ := List.mem_map.mp hc
  exact (h.behind f hf).1

/-- One more module is drawn. -/
theorem draw (hσ : σ.Bounded) {f : Fixture} (hplace : f.place = σ.next)
    (hbase : f.box none none none none = f.base) {M : Node} {νs : List Node} (hM : M.Encloses f.base)
    (hparts : List.Forall₂ Piece.Of f.parts νs) : (σ.adds (M :: νs)).Fitted m start (fs ++ [f]) := by
  have hold : ∀ {c ν}, σ.node? c = some ν → (σ.adds (M :: νs)).node? c = some ν := fun hν => by
    rw [Sheet.node?_adds_of_lt (hσ _ _ hν), hν]
  obtain ⟨B, hB, hbox⟩ := h.block
  obtain ⟨I, o, hI, hin, hdone⟩ := h.inBuf
  have hnext : σ.size = f.place.index := by rw [hplace, Sheet.index_next]
  have hlength : νs.length = f.parts.length := hparts.length_eq.symm
  refine ⟨⟨B, hold hB, hbox⟩, ⟨I, o, hold hI, hin, hdone⟩, fun g hg => ?_, ?_, fun g hg => ?_⟩
  · rcases List.mem_append.mp hg with hg | hg
    · refine (h.stands g hg).frame fun c hc => Sheet.node?_adds_of_lt ?_ _
      exact Nat.lt_of_le_of_lt hc.2 (h.behind g hg).2
    · obtain rfl := List.mem_singleton.mp hg
      exact Fixture.stands_adds hplace hbase hM hparts
  · refine List.pairwise_append.mpr ⟨h.apart, by simp, fun g hg f' hf' => ?_⟩
    obtain rfl := List.mem_singleton.mp hf'
    exact hnext ▸ (h.behind g hg).2
  · rw [Sheet.size_adds, List.length_cons, hlength]
    rcases List.mem_append.mp hg with hg | hg
    · exact ⟨(h.behind g hg).1, Nat.lt_add_right _ (h.behind g hg).2⟩
    · obtain rfl := List.mem_singleton.mp hg
      have hlt : m.index + 1 < σ.size := hσ (after m 1) I hI
      omega

end Sheet.Fitted

/-! ### Probes -/

/-- The module reads a pin and hands on what it reads. -/
def Fixture.Samples (f : Fixture) (pin : PinId) : Prop :=
  ∃ inner e done result status, f.base = probeBox f.place inner e done result ∧
    f.parts = probeParts f.place pin inner done result status

theorem Fixture.Samples.hasExit {f : Fixture} {pin : PinId} (h : f.Samples pin) :
    f.base.outlet.isSome := by
  obtain ⟨inner, e, done, result, status, hbase, -⟩ := h
  rw [hbase]
  rfl

theorem draws_fitProbe (h : σ.Fitted m start fs) {f : Fifo} {pin : PinId}
    (hstatus : f.statusPin? = some pin) (hpin : pin.index < Γ.pins) :
    Draws Γ (Fifo.sampleStatus f) σ fun c τ => ∃ p : Fixture, p.place = c ∧ p.Samples pin ∧
      τ.Fitted m start (fs ++ [p]) := by
  refine .of_bounded fun hσ => (draws_sampleStatus hstatus hpin).mono fun c τ hτ => ?_
  obtain ⟨rfl, inner, e, done, result, status, M, νs, hM, hparts, rfl⟩ := hτ
  let p : Fixture := ⟨σ.next, probeBox σ.next inner e done result,
    probeParts σ.next pin inner done result status⟩
  exact ⟨p, rfl, ⟨inner, e, done, result, status, rfl, rfl⟩, h.draw hσ (f := p) rfl rfl hM hparts⟩

/-! ### Finished blocks -/

/-- A block with its exit. -/
structure Bank where
  /-- The bus that repeats go inside. -/
  start : BusId
  exit : ExitId
  done : BusId
  outBuf : ComponentId
  fixtures : List Fixture

namespace Bank

variable (b : Bank)

/-- The block with its owner and what drives it. -/
def box (m : ComponentId) (owner : Option ComponentId) (clock reset go : Option BusId) : Box where
  kind := .block
  owner := owner
  clock := clock
  reset := reset
  go := go
  start := b.start
  outlet := some { exit := b.exit, done := b.done, outBuf := some b.outBuf }
  interior := { inBuf := after m 1, children := b.fixtures.map Fixture.place }

/-- The block stands on the sheet with all that it starts. -/
structure Stands (σ : Sheet) (m : ComponentId) : Prop where
  node : ∃ B owner clock reset go, σ.node? m = some B ∧ B.Encloses (b.box m owner clock reset go)
  inBuf : ∃ I o, σ.node? (after m 1) = some I ∧ InBufNode m I o ∧ o.done = b.start
  outBuf : ∃ O, σ.node? b.outBuf = some O ∧ O.OutBuf m b.done (some b.start) []
  stands : ∀ f ∈ b.fixtures, f.Stands σ (some m) (some b.start)
  apart : Apart b.fixtures
  behind : ∀ f ∈ b.fixtures,
    m.index + 1 < f.place.index ∧ f.place.index + f.parts.length < b.outBuf.index
  ahead : m.index + 1 < b.outBuf.index

variable {b}

/-- It stands there as long as only its owner and what drives it are changed. -/
theorem Stands.frame (h : b.Stands σ m)
    (hnode : ∃ B owner clock reset go, τ.node? m = some B ∧ B.Encloses (b.box m owner clock reset go))
    (hsame : ∀ c, m.index < c.index → c.index ≤ b.outBuf.index → τ.node? c = σ.node? c) :
    b.Stands τ m := by
  obtain ⟨I, o, hI, hin⟩ := h.inBuf
  obtain ⟨O, hO, hout⟩ := h.outBuf
  have hahead := h.ahead
  refine ⟨hnode, ⟨I, o, ?_, hin⟩, ⟨O, ?_, hout⟩, fun f hf => (h.stands f hf).frame fun c hc => ?_,
    h.apart, h.behind, hahead⟩
  · rw [hsame (after m 1) (Nat.lt_succ_self _) (Nat.le_of_lt hahead), hI]
  · rw [hsame _ (by omega) (Nat.le_refl _), hO]
  · obtain ⟨hlt, hle⟩ := h.behind f hf
    exact hsame c (Nat.lt_of_lt_of_le (by omega) hc.1) (Nat.le_trans hc.2 (Nat.le_of_lt hle))

end Bank

/-- The block starts its modules at once. -/
theorem draws_startBank (h : σ.Fitted m start fs) (hexits : ∀ f ∈ fs, f.base.outlet.isSome) :
    Draws Γ (Synthesis.parallel m (fs.map Fixture.place)) σ fun _ τ =>
      ∃ b : Bank, b.fixtures = fs ∧ b.Stands τ m := by
  refine .of_bounded fun hσ => ?_
  obtain ⟨B, hB, hbox⟩ := h.block
  obtain ⟨I, o, hI, hin, rfl⟩ := h.inBuf
  have hne : ∀ f ∈ fs, f.place ≠ m := fun f hf heq =>
    (h.not_covers hf).1 (heq ▸ Fixture.covers_place)
  have houter : m ∉ fs.map Fixture.place := fun hmem => by
    have hlt := h.places_behind hmem
    omega
  have hinner : after m 1 ∉ fs.map Fixture.place := fun hmem =>
    Nat.lt_irrefl _ (h.places_behind hmem)
  refine .bind (draws_seat hB hbox.interior h.apart (fun f hf => (h.not_covers hf).1) h.stands)
    fun _ τ hτ => ?_
  obtain ⟨hsize, hm, hsame, hseated⟩ := hτ
  have hI' : τ.node? (after m 1) = some I := (hsame _ (after_ne m 0) hinner).trans hI
  refine .read (sees_goBus hm rfl hI' hin.outlet?) ?_
  refine .bind (draws_startFixtures hm rfl hne h.apart hseated hI'
    (by simp [hin.buses, Outlet.buses]) hinner) fun _ ρ hρ => ?_
  obtain ⟨hstands, hsize', hsame'⟩ := hρ
  have hm' : ρ.node? m = _ := (hsame' m houter).trans hm
  have hI'' : ρ.node? (after m 1) = some I := (hsame' _ hinner).trans hI'
  refine .of_bounded fun hbounded => ?_
  let x : Box := {
    kind := .block, start := o.done
    interior := { inBuf := after m 1, children := fs.map Fixture.place } }
  have hx : Node.Encloses { B with interior := some x.interior } x :=
    { hbox with interior := rfl }
  refine (draws_close hm' (x := x) hx rfl (fun c hc => ?_)
    (Sheet.gives_of_mem hI'' (by simp [hin.buses, Outlet.buses]))).mono fun _ υ hυ => ?_
  · obtain ⟨f, hf, rfl⟩ := List.mem_map.mp hc
    exact (hstands f hf).endsDone (hexits f hf)
  have hothers : ∀ c, c ≠ m → c.index < σ.size → υ.node? c = ρ.node? c := fun c hcm hc =>
    hυ.same hcm (by rw [hsize', hsize]; exact hc)
  have hnext : ρ.next.index = σ.size := hsize'.trans hsize
  have hahead : m.index + 1 < σ.size := hσ (after m 1) I hI
  obtain ⟨B', O, e, done, hB', hO, rfl⟩ := hυ
  let b : Bank := { start := o.done, exit := e, done, outBuf := ρ.next, fixtures := fs }
  refine ⟨b, rfl, ⟨B', none, none, none, none, ?_, hB'⟩, ⟨I, o, ?_, hin, rfl⟩,
    ⟨O, Sheet.node?_add_next .., hO⟩, fun f hf => (hstands f hf).frame fun c hc => ?_,
    h.apart, fun f hf => hnext ▸ h.behind f hf, hnext ▸ hahead⟩
  · rw [Sheet.node?_add_of_ne _ _ (by simpa using hbounded.ne_next hm'), Sheet.node?_set_self]
  · rw [hothers (after m 1) (after_ne m 0) hahead, hI'']
  · exact hothers c (fun heq => (h.not_covers hf).1 (heq ▸ hc))
      (Nat.lt_of_le_of_lt hc.2 (h.behind f hf).2)

end DataflowSynth.Netlist
