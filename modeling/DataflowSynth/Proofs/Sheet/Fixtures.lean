/-
Modules that are drawn as a whole.

An accessor is drawn with everything that is inside it, and what is inside is never changed later.  Only
the module itself is: it gets an owner when it is put into a block, and a clock, a reset and a go when the
block connects it.  So a fixture stands on the sheet for as long as what it covers is left alone, but for
these four.
-/
import DataflowSynth.Proofs.Sheet.Blocks
import Mathlib.Data.List.Pairwise

namespace DataflowSynth.Netlist

open Build

variable {Γ : Ground} {σ τ : Sheet} {c m : ComponentId} {B : Node} {i : Interior} {go : BusId}

/-- A module with what is inside it. -/
structure Fixture where
  place : ComponentId
  /-- The module before it is put anywhere. -/
  base : Box
  /-- What was drawn right after it. -/
  parts : List Piece

namespace Fixture

variable (f : Fixture)

/-- The module with its owner and what drives it. -/
def box (owner : Option ComponentId) (clock reset go : Option BusId) : Box :=
  { f.base with owner, clock, reset, go }

/-- The component is the module or one of its parts. -/
def Covers (c : ComponentId) : Prop :=
  f.place.index ≤ c.index ∧ c.index ≤ f.place.index + f.parts.length

/-- The module stands on the sheet with all its parts. -/
structure Stands (σ : Sheet) (owner : Option ComponentId) (go : Option BusId) : Prop where
  node : ∃ M clock reset, σ.node? f.place = some M ∧ M.Encloses (f.box owner clock reset go)
  parts : ∀ k p, f.parts[k]? = some p → ∃ ν, σ.node? (after f.place (k + 1)) = some ν ∧ p.Of ν

variable {f} {owner : Option ComponentId} {start : Option BusId}

theorem covers_place : f.Covers f.place := ⟨Nat.le_refl _, Nat.le_add_right _ _⟩

theorem covers_part {k : Nat} {p : Piece} (h : f.parts[k]? = some p) :
    f.Covers (after f.place (k + 1)) := by
  obtain ⟨hk, -⟩ := List.getElem?_eq_some_iff.mp h
  exact ⟨Nat.le_add_right _ _, Nat.add_le_add_left hk _⟩

theorem part_ne_place (k : Nat) : after f.place (k + 1) ≠ f.place := by
  intro h
  have hindex : f.place.index + (k + 1) = f.place.index := congrArg Handle.index h
  omega

/-- It stands there as long as nothing of it is changed. -/
theorem Stands.frame (h : f.Stands σ owner start)
    (hsame : ∀ c, f.Covers c → τ.node? c = σ.node? c) : f.Stands τ owner start := by
  refine ⟨?_, fun k p hp => ?_⟩
  · rw [hsame _ covers_place]
    exact h.node
  · rw [hsame _ (covers_part hp)]
    exact h.parts k p hp

/-- Another node is drawn for the module. -/
theorem Stands.redraw {go : Option BusId} (h : f.Stands σ owner start) {owner' : Option ComponentId}
    (clock reset : Option BusId) {M : Node} (hM : M.Encloses (f.box owner' clock reset go)) :
    f.Stands (σ.set f.place M) owner' go := by
  refine ⟨⟨M, clock, reset, Sheet.node?_set_self .., hM⟩, fun k p hp => ?_⟩
  rw [Sheet.node?_set_of_ne _ _ (part_ne_place k)]
  exact h.parts k p hp

theorem Stands.endsDone (h : f.Stands σ owner start) (hexit : f.base.outlet.isSome) :
    σ.EndsDone f.place := by
  obtain ⟨M, clock, reset, hM, hbox⟩ := h.node
  obtain ⟨o, ho⟩ := Option.isSome_iff_exists.mp hexit
  exact ⟨M, o, hM, by simp [hbox.exits, box, ho]⟩

/-- What was just drawn stands there. -/
theorem stands_adds (hplace : f.place = σ.next) (hbase : f.box none none none none = f.base) {M : Node}
    (hM : M.Encloses f.base) {νs : List Node} (hparts : List.Forall₂ Piece.Of f.parts νs) :
    f.Stands (σ.adds (M :: νs)) none none := by
  refine ⟨⟨M, none, none, ?_, hbase.symm ▸ hM⟩, fun k p hp => ?_⟩
  · rw [hplace, Sheet.node?_next_adds]
  · obtain ⟨hk, rfl⟩ := List.getElem?_eq_some_iff.mp hp
    have hk' : k < νs.length := hparts.length_eq ▸ hk
    refine ⟨νs[k], ?_, hparts.get hk hk'⟩
    have hafter : after f.place (k + 1) = σ.fresh (k + 1) := by rw [hplace]; rfl
    rw [hafter, Sheet.node?_adds_fresh σ _ (Nat.succ_lt_succ hk'), List.getElem?_cons_succ,
      List.getElem?_eq_getElem]

end Fixture

/-! ### One behind the other -/

/-- The modules come one behind the other. -/
def Apart (fs : List Fixture) : Prop :=
  fs.Pairwise fun f g => f.place.index + f.parts.length < g.place.index

theorem Apart.not_covers {f : Fixture} {fs : List Fixture} (h : Apart (f :: fs)) {g : Fixture}
    (hg : g ∈ fs) : ¬ f.Covers g.place ∧ ¬ g.Covers f.place := by
  have hlt := (List.pairwise_cons.mp h).1 g hg
  unfold Fixture.Covers
  omega

theorem Apart.nodup {fs : List Fixture} (h : Apart fs) : (fs.map Fixture.place).Nodup := by
  refine List.pairwise_map.mpr (h.imp fun hlt heq => ?_)
  rw [heq] at hlt
  omega

/-- A part of one of them is none of them. -/
theorem Apart.part_notMem {f : Fixture} {fs : List Fixture} (h : Apart fs) (hf : f ∈ fs) {k : Nat}
    {p : Piece} (hp : f.parts[k]? = some p) : after f.place (k + 1) ∉ fs.map Fixture.place := by
  have hapart : ∀ f ∈ fs, ∀ g ∈ fs, f = g ∨ f.place.index + f.parts.length < g.place.index ∨
      g.place.index + g.parts.length < f.place.index :=
    List.Pairwise.forall_of_forall_of_flip (fun f _ => .inl rfl) (h.imp fun hlt => .inr (.inl hlt))
      (h.imp fun hlt => .inr (.inr hlt))
  have hcovers := Fixture.covers_part hp
  intro hmem
  obtain ⟨g, hg, heq⟩ := List.mem_map.mp hmem
  rw [← heq] at hcovers
  rcases hapart f hf g hg with rfl | hlt | hlt
  · exact Fixture.part_ne_place k heq.symm
  · exact Nat.not_le.mpr hlt hcovers.2
  · have hle := hcovers.1
    omega

/-! ### Putting them into a block -/

/-- Modules become children of a block. -/
theorem draws_seat {fs : List Fixture} (hB : σ.node? m = some B) (hi : B.interior = some i)
    (hapart : Apart fs) (hm : ∀ f ∈ fs, ¬ f.Covers m) (hfs : ∀ f ∈ fs, f.Stands σ none none) :
    Draws Γ (addComponents m (fs.map Fixture.place)) σ fun _ τ => τ.size = σ.size ∧
      τ.node? m = some { B with
        interior := some { i with children := i.children ++ fs.map Fixture.place } } ∧
      (∀ c, c ≠ m → c ∉ fs.map Fixture.place → τ.node? c = σ.node? c) ∧
      ∀ f ∈ fs, f.Stands τ (some m) none := by
  refine (draws_addComponents hB hi hapart.nodup fun c hc => ?_).mono fun _ τ hτ => ?_
  · obtain ⟨f, hf, rfl⟩ := List.mem_map.mp hc
    obtain ⟨M, clock, reset, hM, hx⟩ := (hfs f hf).node
    exact ⟨fun heq => hm f hf (heq ▸ Fixture.covers_place), M, _, hM, hx, rfl⟩
  obtain ⟨hsize, hblock, hsame, hchildren, -⟩ := hτ
  refine ⟨hsize, hblock, hsame, fun f hf => ?_⟩
  obtain ⟨M, clock, reset, hM, hx⟩ := (hfs f hf).node
  obtain ⟨M', hM', hnode⟩ := hchildren f.place (List.mem_map_of_mem hf)
  cases hM.symm.trans hM'
  refine ⟨⟨_, clock, reset, hnode, { hx with owner := rfl }⟩, fun k p hp => ?_⟩
  obtain ⟨ν, hν, hof⟩ := (hfs f hf).parts k p hp
  refine ⟨ν, ?_, hof⟩
  rw [hsame _ (fun heq => hm f hf (heq ▸ Fixture.covers_part hp)) (hapart.part_notMem hf hp), hν]

/-! ### Connecting them -/

theorem draws_wireClocks_box (hB : σ.node? m = some B) (hi : B.interior = some i) {M : Node}
    (hM : σ.node? c = some M) (hne : c ≠ m) {x : Box} (hx : M.Encloses x) :
    Draws Γ (Synthesis.wireClocks m c) σ fun _ τ => ∃ M' clock reset,
      M'.Encloses { x with clock, reset } ∧ τ = σ.set c M' := by
  refine .look (sees_component hM) fun y hy => ?_
  rw [hy.clock, hy.reset]
  have hreset : ∀ M' clock, M'.Encloses { x with clock } → M'.reset.port = M.reset.port →
      Draws Γ (do
        if y.consumesReset then setBus M.reset.port (some (← resetBus m))) (σ.set c M')
      fun _ ρ => ∃ M' clock reset, M'.Encloses { x with clock, reset } ∧ ρ = σ.set c M' := by
    intro M' clock hM' hport
    rw [← hport]
    have hB' : (σ.set c M').node? m = some B := by rw [Sheet.node?_set_of_ne _ _ hne.symm, hB]
    split
    · refine .look (sees_resetBus_reaches hB' hi c) fun b hb => ?_
      refine (draws_setReset (Sheet.node?_set_self σ c M') (by simpa using hb.gives)).mono
        fun _ ρ hρ => ⟨_, clock, some b, ?_, hρ.trans (Sheet.set_set ..)⟩
      exact { hM' with reset := rfl }
    · exact .pure ⟨M', clock, x.reset, hM', rfl⟩
  simp only
  split
  · refine .look (sees_clockBus_reaches hB hi c) fun b hb => ?_
    refine .bind (draws_setClock hM (by simpa using hb.gives)) fun _ τ hτ => ?_
    subst hτ
    refine hreset _ (some b) { hx with clock := rfl } rfl
  · have hself : σ = σ.set c M := (Sheet.set_eq_self _ _ hM).symm
    rw [hself]
    simpa using hreset M x.clock hx rfl

/-- A module of a block is connected and started. -/
theorem draws_startFixture {f : Fixture} (hB : σ.node? m = some B) (hi : B.interior = some i)
    (hne : f.place ≠ m) (hf : f.Stands σ (some m) none) (hgo : σ.Gives go) :
    Draws Γ (do
      Synthesis.wireClocks m f.place
      Synthesis.start f.place go) σ fun _ τ => ∃ M, τ = σ.set f.place M ∧
        f.Stands τ (some m) (some go) := by
  obtain ⟨M, clock, reset, hM, hbox⟩ := hf.node
  refine .bind (draws_wireClocks_box hB hi hM hne hbox) fun _ τ hτ => ?_
  obtain ⟨M', clock', reset', hM', rfl⟩ := hτ
  have hnode := Sheet.node?_set_self σ f.place M'
  have hgo' : (σ.set f.place M').Gives go :=
    hgo.set hM fun b hb => by rwa [hbox.buses_eq hM' rfl]
  refine .look (sees_component hnode) fun y hy => ?_
  rw [hy.go]
  refine (draws_setGo hnode (by simpa using hgo')).mono fun _ τ hτ => ?_
  rw [Sheet.set_set] at hτ
  refine ⟨_, hτ, hτ ▸ hf.redraw clock' reset' ?_⟩
  exact { hM' with go := rfl }

/-- Modules of a block are connected, and all of them are started with the same bus. -/
theorem draws_startFixtures {fs : List Fixture} (hB : σ.node? m = some B) (hi : B.interior = some i)
    (hne : ∀ f ∈ fs, f.place ≠ m) (hapart : Apart fs) (hfs : ∀ f ∈ fs, f.Stands σ (some m) none)
    {w : ComponentId} {I : Node} (hI : σ.node? w = some I) (hgo : go ∈ I.buses)
    (hw : w ∉ fs.map Fixture.place) :
    Draws Γ ((fs.map Fixture.place).forM fun c => do
      Synthesis.wireClocks m c
      Synthesis.start c go) σ fun _ τ => (∀ f ∈ fs, f.Stands τ (some m) (some go)) ∧
        τ.size = σ.size ∧ ∀ c, c ∉ fs.map Fixture.place → τ.node? c = σ.node? c := by
  induction fs generalizing σ with
  | nil => exact .pure ⟨by simp, rfl, fun _ _ => rfl⟩
  | cons f fs ih =>
      obtain ⟨hwf, hws⟩ : w ≠ f.place ∧ w ∉ fs.map Fixture.place := by
        rw [List.map_cons, List.mem_cons, not_or] at hw
        exact hw
      rw [List.map_cons]
      refine .bind (draws_startFixture hB hi (hne f (by simp)) (hfs f (by simp))
        (Sheet.gives_of_mem hI hgo)) fun _ τ hτ => ?_
      obtain ⟨M, rfl, hstarted⟩ := hτ
      have hothers : ∀ g ∈ fs, g.Stands (σ.set f.place M) (some m) none := fun g hg =>
        (hfs g (by simp [hg])).frame fun c hc => Sheet.node?_set_of_ne _ _ fun heq =>
          (hapart.not_covers hg).2 (heq ▸ hc)
      have hB' : (σ.set f.place M).node? m = some B := by
        rw [Sheet.node?_set_of_ne _ _ (hne f (by simp)).symm, hB]
      have hI' : (σ.set f.place M).node? w = some I := by rw [Sheet.node?_set_of_ne _ _ hwf, hI]
      refine (ih hB' (fun g hg => hne g (by simp [hg])) (List.pairwise_cons.mp hapart).2 hothers hI'
        hws).mono fun _ ρ hρ => ?_
      obtain ⟨hstands, hsize, hsame⟩ := hρ
      refine ⟨fun g hg => ?_, hsize, fun c hc => ?_⟩
      · rcases List.mem_cons.mp hg with rfl | hg
        · refine hstarted.frame fun c hc => hsame c fun hmem => ?_
          obtain ⟨g', hg', rfl⟩ := List.mem_map.mp hmem
          exact (hapart.not_covers hg').1 hc
        · exact hstands g hg
      · obtain ⟨hcf, hcs⟩ : c ≠ f.place ∧ c ∉ fs.map Fixture.place := by
          rw [List.mem_cons, not_or] at hc
          exact hc
        rw [hsame c hcs, Sheet.node?_set_of_ne _ _ hcf]

end DataflowSynth.Netlist
