/-
Reads that are still to be carried out.

A read is made in a netlist that calls have led to, and more calls follow before it is carried out.
They may connect it, give it more terminals and take its exit off.  But its ports stay where they are,
and so does the result of its exit; all of these were apart when the read was made.
-/
import DataflowSynth.Proofs.Design.Consistency
import DataflowSynth.Proofs.Memory.Physical
import DataflowSynth.Proofs.Netlist.Lasting
import Mathlib.Logic.Relation

namespace DataflowSynth

open Relation

theorem Build.Yields.of_wp {σ α : Type} {x : Build σ α} {s t : σ} {a : α} (h : x.Yields s a t)
    {Q : α → Traced σ → Prop} {F : Failure → Traced σ → Prop} (hwp : ∀ j, wp x Q F ⟨s, j⟩) :
    ∃ j, Q a ⟨t, j⟩ := by
  obtain ⟨j, j', hrun⟩ := h
  have hQ := hwp j
  unfold wp at hQ
  rw [hrun] at hQ
  exact ⟨j', hQ⟩

theorem Build.leaves_of_wp {σ : Type} {x : Build σ Unit} {s t : σ} (j j' : Journal)
    (h : wp x (fun _ u => u = ⟨t, j'⟩) (fun _ _ => False) ⟨s, j⟩) : x.Leaves s t := by
  obtain ⟨⟨⟩, u, hrun, rfl⟩ := exists_of_wp h
  exact ⟨j, j', .inl ⟨(), hrun⟩⟩

theorem Build.Yields.leaves_discard {σ α : Type} {x : Build σ α} {s t : σ} {a : α}
    (h : x.Yields s a t) : (discard x).Leaves s t := by
  obtain ⟨j, j', hrun⟩ := h
  refine leaves_of_wp j j' ?_
  rw [wp_discard, wp, hrun]

theorem Design.yields_wiring {α : Type} {x : Netlist.Step α} {d d' : Design} {a : α}
    (h : (wiring x).Yields d a d') : x.Yields d.netlist a d'.netlist ∧
      (wiring (discard x)).Leaves d d' := by
  obtain ⟨j, j', hrun⟩ := h
  have hwp : Build.wp (wiring x) (fun b u => b = a ∧ u = ⟨d', j'⟩) (fun _ _ => False) ⟨d, j⟩ := by
    rw [Build.wp, hrun]
    exact ⟨rfl, rfl⟩
  rw [wiring, Build.wp_within] at hwp
  refine ⟨?_, Build.leaves_of_wp j j' ?_⟩
  · obtain ⟨b, u, hx, rfl, heq⟩ := Build.exists_of_wp hwp
    obtain ⟨rfl, rfl⟩ := Traced.mk.inj heq
    exact ⟨j, u.journal, hx⟩
  · rw [wiring, Build.wp_within, Build.wp_discard]
    exact Build.wp_mono hwp (fun _ _ h => h.2) fun _ _ h => h

/-! ### Calls on the way -/

/-- Calls lead from one netlist to the other; there are so many pins. -/
def Netlist.LeadsTo (pins : Nat) : Netlist → Netlist → Prop :=
  ReflTransGen fun n n' => ∃ call : Netlist.Call, call.Fits pins n ∧ call.run.Leaves n n'

def Design.LeadsTo : Design → Design → Prop :=
  ReflTransGen fun d d' => ∃ call : Design.Call, call.Fits d ∧ call.run.Leaves d d'

namespace Netlist

variable {G : Guard {} False} {pins : Nat} {n n' : Netlist}

theorem Reached.leadsTo (h : Reached False pins n) (hl : LeadsTo pins n n') : Reached False pins n' := by
  induction hl with
  | refl => exact h
  | tail _ hstep ih =>
      obtain ⟨call, hfits, hleaves⟩ := hstep
      exact .call call ih hfits False.elim hleaves

/-- A guard that holds somewhere on the way holds at the end. -/
theorem LeadsTo.sound (hl : LeadsTo pins n n') (hfirm : ¬ G.firm) (hn : (Scope.guarded G pins).Sound n) :
    (Scope.guarded G pins).Sound n' := by
  induction hl with
  | refl => exact hn
  | tail _ hstep ih =>
      obtain ⟨call, hfits, hleaves⟩ := hstep
      exact call.sound hfits False.elim (fun h => absurd h hfirm) ih hleaves

end Netlist

namespace Design

variable {G : Netlist.Guard {} False} {d d' : Design}

theorem Reached.leadsTo (h : Reached False d) (hl : LeadsTo d d') : Reached False d' := by
  induction hl with
  | refl => exact h
  | tail _ hstep ih =>
      obtain ⟨call, hfits, hleaves⟩ := hstep
      exact .call call ih hfits False.elim hleaves

theorem LeadsTo.sound (hl : LeadsTo d d') (hfirm : ¬ G.firm) (hd : d.Sound G) : d'.Sound G := by
  induction hl with
  | refl => exact hd
  | tail _ hstep ih =>
      obtain ⟨call, hfits, hleaves⟩ := hstep
      exact call.sound hfits False.elim (fun h => absurd h hfirm) ih hleaves

end Design

namespace Memory

open Netlist

variable {Γ : Ground} {σ : Sheet}

/-! ### New reads -/

/-- The node of a new read. -/
structure ReadNode (memory : UInt32) (ν : Node) : Prop where
  kind : ν.kind = .memoryRead memory none
  data : ν.data.length = 2
  exits : ∃ e done result, ν.exits = [(.done, { exit := e, done, data := [result] })]

theorem draws_newRead (memory : UInt32) (signal : Signal) (latency : Latency) :
    Draws Γ (newRead memory signal latency) σ fun c τ =>
      c = σ.next ∧ ∃ ν, ReadNode memory ν ∧ τ = σ.add ν := by
  refine .bind (draws_newComponent (K := []) (ComponentKind.fitsIn_of_none rfl rfl) (by simp) rfl
    "memRead" 0) fun c τ hτ => ?_
  obtain ⟨rfl, ν, hν, rfl⟩ := hτ
  have hself : ∀ μ, (σ.add μ).node? σ.next = some μ := fun μ => Sheet.node?_add_next σ μ
  have hbuf : ν.kind.isBuffer = false := by rw [hν.kind]; rfl
  have hport : ∀ (μ : Node) (name : String) {P : ComponentId → Sheet → Prop} {rest : Step ComponentId},
      μ.kind.isBuffer = false → μ.interior = none →
      (∀ p, Draws Γ rest (σ.add { μ with data := μ.data ++ [{ port := p }] }) P) →
      Draws Γ (do let _ ← makeDataPort σ.next name; rest) (σ.add μ) P := by
    intro μ name P rest hbuf hi hrest
    refine .bind (draws_makeDataPort (hself μ) hbuf hi name) fun p τ hτ => ?_
    rw [Sheet.set_add_next] at hτ
    exact hτ ▸ hrest p
  refine hport ν _ hbuf hν.interior fun p => hport _ _ hbuf hν.interior fun q => ?_
  let ν₂ : Node := { ν with data := (ν.data ++ [{ port := p }]) ++ [{ port := q }] }
  refine .bind (draws_makeResult (hself ν₂) hbuf hν.exits hν.interior .done) fun e τ hτ => ?_
  obtain ⟨done, result, hτ⟩ := hτ
  rw [Sheet.set_add_next] at hτ
  subst hτ
  let o : Outlet := { exit := e, done, data := [result] }
  let μ : Node := { ν₂ with exits := [(.done, o)] }
  have hμ : (σ.add μ).node? σ.next = some μ := hself μ
  have hdata : ν.data = [] := List.map_eq_nil_iff.mp hν.data
  refine .bind (draws_changeExit hμ (o := o) (by simp [μ, Node.outlets]) fun _ => rfl) fun _ τ hτ => ?_
  subst hτ
  refine .read (sees_resultBus hμ (o := o) rfl rfl) ?_
  refine .bind (draws_setBusSignal (Sheet.gives_of_mem hμ ?_) signal) fun _ τ hτ => ?_
  · simp [μ, o, Node.buses, Node.outlets, Outlet.buses]
  subst hτ
  refine .bind (draws_markClocked hμ) fun _ τ hτ => .pure ?_
  subst hτ
  exact ⟨rfl, μ, ⟨hν.kind, by simp [μ, ν₂, hdata], e, done, result, rfl⟩, rfl⟩

/-- The terminals of a read: its ports are apart, and so is its result from its done. -/
structure ReadShape (n : Netlist) (r : Component) (e : ExitId) (y : Exit) (result : BusId) : Prop where
  data : 2 ≤ r.dataPorts.length
  inputs : (readInputs r).Nodup
  mainExit : r.mainExit? = some e
  exit : n.exits.get? e = some y
  first : y.data.head? = some result
  apart : result ≠ y.done

theorem nodup_readInputs {r : Component} (h : r.ports.Nodup) : (readInputs r).Nodup := by
  have hparts : ([r.clock, r.reset, r.go] ++ r.dataPorts).Nodup := by
    refine h.sublist ?_
    rw [Component.ports]
    exact List.Sublist.append (List.sublist_append_left _ _) (List.Sublist.refl _)
  have hsub : (r.dataPorts.take 2).Sublist r.dataPorts := List.take_sublist ..
  have hcontrol : ([r.go] ++ [r.clock, r.reset]).Perm ([r.clock, r.reset] ++ [r.go]) :=
    List.perm_append_comm
  have hperm : (readInputs r).Perm ([r.clock, r.reset, r.go] ++ r.dataPorts.take 2) :=
    List.perm_append_comm.trans (hcontrol.append_right _)
  exact hperm.nodup_iff.mpr (hparts.sublist (List.Sublist.append_left hsub _))

theorem ReadShape.lasts {n n' : Netlist} {r r' : Component} {e : ExitId} {y : Exit} {result : BusId}
    (h : ReadShape n r e y result) (hl : Lasts n n') (hr : r.Lasts r') (he : r'.mainExit? = r.mainExit?) :
    ∃ y', ReadShape n' r' e y' result := by
  obtain ⟨y', hy', hlast⟩ := hl.exits e y h.exit
  obtain ⟨ps, hps⟩ := hr.data
  obtain ⟨bs, hbs⟩ := hlast.data
  have htake : r'.dataPorts.take 2 = r.dataPorts.take 2 := by
    rw [← hps, List.take_append_of_le_length h.data]
  refine ⟨y', ?_, ?_, he.trans h.mainExit, hy', ?_, hlast.done ▸ h.apart⟩
  · exact Nat.le_trans h.data hr.data.length_le
  · rw [readInputs, htake, hr.go, hr.clock, hr.reset]
    exact h.inputs
  · rw [← hbs, List.head?_append, h.first]
    rfl

theorem newRead_shape {n n' : Netlist} {c : ComponentId} {memory : UInt32} {signal : Signal}
    {latency : Latency} (h : (newRead memory signal latency).Yields n c n') :
    ∃ r e y result, n'.components.get? c = some r ∧ ReadShape n' r e y result := by
  let Γ : Ground := { pins := 0, base := n }
  have hdraws : Draws Γ (newRead memory signal latency) (Γ.sheet n) _ :=
    draws_newRead memory signal latency
  obtain ⟨j, hproper, rfl, ν, hν, hsheet⟩ := h.of_wp fun j => hdraws ⟨n, j⟩ (proper_refl Γ) rfl
  have hnode : (Γ.sheet n').node? n.components.next = some ν := by
    rw [hsheet]
    exact Sheet.node?_add_next _ ν
  obtain ⟨r, hr, rfl⟩ := drawn hnode
  have hle : Γ.base.components.size ≤ n.components.next.index := Nat.le_refl _
  have hdrawn := drawnAs_node n' r
  obtain ⟨e, done, result, hexits⟩ := hν.exits
  let o : Outlet := { exit := e, done, data := [result] }
  have ho : o ∈ (n'.node r).outlets := by simp [o, Node.outlets, hexits]
  obtain ⟨y, hy, -, heq, hbound⟩ := hproper.has_exit hnode ho
  obtain ⟨-, hdone, hdata, -⟩ := Outlet.mk.inj heq
  have hnodup := (hproper.shape.exits e y hy hbound).nodup
  refine ⟨r, e, y, result, hr, ?_, ?_, ?_, hy, ?_, ?_⟩
  · simp [hdrawn.dataPorts, hν.data]
  · exact nodup_readInputs (hproper.shape.components _ r hr hle).nodup
  · rw [hdrawn.mainExit?, Node.outlet?, hexits]
    rfl
  · rw [← hdata]
    rfl
  · rintro rfl
    rw [Exit.buses, ← hdata] at hnodup
    simp at hnodup

/-! ### Reads that calls are made beside -/

/-- The read `c` was made in the one netlist, and from there calls lead to the other. -/
inductive ReadSince (c : ComponentId) : Netlist → Netlist → Prop where
  | alone {pins : Nat} {n n₁ n' : Netlist} {memory : UInt32} {signal : Signal} {latency : Latency}
    (reached : Netlist.Reached False pins n) (made : (newRead memory signal latency).Yields n c n₁)
    (leads : Netlist.LeadsTo pins n₁ n') : ReadSince c n₁ n'
  | inDesign {d d₁ d' : Design} {memory : UInt32} {signal : Signal} {latency : Latency}
    (reached : Design.Reached False d)
    (made : (Design.wiring (newRead memory signal latency)).Yields d c d₁)
    (leads : Design.LeadsTo d₁ d') : ReadSince c d₁.netlist d'.netlist

/-- Since the read was made, its terminals have lasted. -/
theorem ReadSince.lasts {c : ComponentId} {n n' : Netlist} (h : ReadSince c n n') :
    Lasts n n' ∧ n'.Reachable ∧
      ∃ r e y result, n.components.get? c = some r ∧ ReadShape n r e y result := by
  cases h with
  | @alone pins n₀ _ _ memory signal latency reached made leads =>
      have hmade : Netlist.Reached False pins n := .call (.newRead memory signal latency) reached
        ⟨by simp [Netlist.Call.refs], by simp [Netlist.Call.pins]⟩ False.elim made.leaves_discard
      have hsound : (Scope.guarded (lasting n) pins).Sound n :=
        ⟨hmade.sound.linked, False.elim, refl_of Lasts n⟩
      exact ⟨(leads.sound id hsound).guarded, .alone (hmade.leadsTo leads), newRead_shape made⟩
  | @inDesign d₀ d d' memory signal latency reached made leads =>
      obtain ⟨hyields, hleaves⟩ := Design.yields_wiring made
      have hmade : Design.Reached False d := .call (.netlist (.newRead memory signal latency)) reached
        ⟨by simp [Design.Call.refs, Netlist.Call.refs], by simp [Design.Call.pins, Netlist.Call.pins]⟩
        False.elim hleaves
      have hsound : d.Sound (lasting d.netlist) := by
        have hplain := hmade.sound
        exact ⟨⟨hplain.netlist.linked, False.elim, refl_of Lasts _⟩, hplain.root, hplain.links,
          hplain.fifos⟩
      exact ⟨(leads.sound id hsound).netlist.guarded, .inDesign (hmade.leadsTo leads),
        newRead_shape hyields⟩

/-- `r` was made as a read, still has the exit that it was made with, and no module carries it out. -/
structure Pending (n : Netlist) (c : ComponentId) (r : Component) : Prop where
  read : n.components.get? c = some r
  made : ∃ n₁ r₁, ReadSince c n₁ n ∧ n₁.components.get? c = some r₁ ∧ r.mainExit? = r₁.mainExit?
  kind : ∃ memory, r.kind = .memoryRead memory none

theorem Pending.shape {n : Netlist} {c : ComponentId} {r : Component} (h : Pending n c r) :
    n.Reachable ∧ ∃ e y result, ReadShape n r e y result := by
  obtain ⟨n₁, r₁, hsince, hr₁, hexit⟩ := h.made
  obtain ⟨hlasts, hreach, r', e, y, result, hr', hshape⟩ := hsince.lasts
  cases hr₁.symm.trans hr'
  obtain ⟨r', hr', hports⟩ := hlasts.components c r₁ hr₁
  cases h.read.symm.trans hr'
  obtain ⟨y', hy'⟩ := hshape.lasts hlasts hports hexit
  exact ⟨hreach, e, y', result, hy'⟩

end Memory

end DataflowSynth
