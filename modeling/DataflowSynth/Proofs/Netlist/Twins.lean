/-
Terminals that repeat each other.

A port that is repeated by a bus on the other side of a boundary is also what that bus is repeated by.
This is a guard that speaks of new ports only: a port and a bus become peers when both of them are new
or the bus is, so nothing that was made before has to be looked at.
-/
import DataflowSynth.Proofs.Netlist.Boundaries

namespace DataflowSynth.Netlist

open Build

namespace Borders.Peers

/-- From the `k`-th port on, a port and the bus that repeats it know each other. -/
def Mutual (k : Nat) (q : Peers) : Prop := ∀ p d, k ≤ p.index → q.1 p = some d → q.2 d = some p

variable {k : Nat} {q : Peers} {p : PortId} {d : BusId}

theorem Mutual.join (h : q.Mutual k) (hd : q.2 d = none) : (q.join p d).Mutual k := by
  intro r b hr hrb
  simp only [Peers.join] at hrb ⊢
  split at hrb
  · next heq =>
    cases hrb
    rw [if_pos rfl, heq]
  · have hb := h r b hr hrb
    have hne : b ≠ d := by
      rintro rfl
      rw [hd] at hb
      cases hb
    rw [if_neg hne, hb]

end Borders.Peers

variable {pins : Nat} {base n n' : Netlist}

/-- The netlist has the same peers. -/
def SamePeers (n n' : Netlist) : Prop := n'.borders.peers = n.borders.peers

instance : IsPreorder Netlist SamePeers where
  refl _ := rfl
  trans _ _ _ h h' := h'.trans h

theorem Calm.samePeers (h : Calm n n') : SamePeers n n' := congrArg Borders.peers h.borders

theorem SameBorders.samePeers (h : SameBorders n n') : SamePeers n n' := congrArg Borders.peers h

/-! ### Steps that make no peers -/

section

variable {c m : ComponentId} {e : ExitId}

theorem samePeers_changeComponent {f : Component → Component} :
    Moves SamePeers (changeComponent c f) :=
  .bind (.look _) fun _ => .ite (.change fun _ => rfl) (.abort _)

theorem samePeers_changeExit {f : Exit → Exit} : Moves SamePeers (changeExit e f) :=
  .bind (.look _) fun _ => .ite (.change fun _ => rfl) (.abort _)

theorem samePeers_removeExit (tag : ExitTag) : Moves SamePeers (removeExit c tag) := by
  refine .bind moves_component fun x => ?_
  split
  · exact .pure _
  · refine .bind samePeers_changeComponent fun _ => .bind moves_exit fun y => ?_
    split
    · exact .pure _
    · exact .bind samePeers_changeExit fun _ => .bind (calm_disconnect.mono fun _ _ => Calm.samePeers)
        fun _ => .bind samePeers_changeComponent fun _ => .pure _

theorem samePeers_setConsumesGo (on : Bool) : Moves SamePeers (setConsumesGo c on) := by
  refine .bind samePeers_changeComponent fun _ => .bind moves_component fun x => ?_
  split
  · exact .pure _
  · exact samePeers_changeComponent

theorem samePeers_setProducesDone (on : Bool) : Moves SamePeers (setProducesDone c on) :=
  .bind samePeers_changeComponent fun _ => .bind moves_component fun _ =>
    .ite (.bind moves_outBufs fun _ => .forM fun _ _ => samePeers_changeComponent) (.pure _)

end

/-! ### Steps that make peers -/

/-- A port and the next bus become peers. -/
theorem mutual_paired {k : Nat} (h : n.borders.peers.Mutual k) (hn : SamePeers n n') {p : PortId}
    (hp : p.index < n'.ports.size) (hb : n.buses.next.index < n'.buses.size) :
    (n'.paired p n.buses.next).borders.peers.Mutual k := by
  rw [borders_paired hp hb, Borders.peers_join, show n'.borders.peers = n.borders.peers from hn]
  exact h.join busPeer?_next

theorem samePeers_withPort {c : ComponentId} {z : Port} (hz : z.peer = none)
    (f : Component → Component) : SamePeers n (n.withPort c z f) :=
  Prod.ext (funext fun p => Arena.bind_get?_push hz p) rfl

theorem samePeers_withDataBus (e : ExitId) (name : String) : SamePeers n (n.withDataBus e name) :=
  Prod.ext rfl (funext fun b => Arena.bind_get?_push rfl b)

theorem samePeers_withInput {c : ComponentId} {e : ExitId} {z : Port} (hz : z.peer = none) {w : Bus}
    (hw : w.peer = none) (f : Component → Component) (g : Exit → Exit) :
    SamePeers n (n.withInput c z f e w g) :=
  Prod.ext (funext fun p => Arena.bind_get?_push hz p) (funext fun b => Arena.bind_get?_push hw b)

section

variable {k : Nat} {s : Traced Netlist} {c : ComponentId} {e : ExitId}
  (h : s.state.borders.peers.Mutual k)

include h

theorem mutual_of_moves {α : Type} {x : Step α} (hx : Moves SamePeers x) :
    wp x (fun _ t => t.state.borders.peers.Mutual k) (fun f _ => f.Unless False) s :=
  wp_mono (hx s) (fun _ t ht => by rw [show t.state.borders.peers = _ from ht]; exact h)
    fun _ _ hf => hf

variable (hs : Shaped base s.state)

include hs

theorem mutual_makeDataBus (he : Ref.New base s.state (.exit e)) (name : String) :
    wp (makeDataBus e name) (fun _ t => t.state.borders.peers.Mutual k) (fun f _ => f.Unless False)
      s := by
  obtain ⟨y, hy⟩ := Arena.exists_get? he.2
  have hbus := samePeers_withDataBus (n := s.state) e name
  cases hpeer : y.peer with
  | none =>
      rw [wp_makeDataBus hy hpeer]
      show (s.state.withDataBus e name).borders.peers.Mutual k
      rw [show (s.state.withDataBus e name).borders.peers = _ from hbus]
      exact h
  | some o =>
      obtain ⟨b, hb, -⟩ := (hs.exits e y hy he.1).outBuf o hpeer
      rw [wp_makeDataBus_outBuf hy hpeer hb]
      exact mutual_paired h (trans_of SamePeers hbus (samePeers_withPort rfl _))
        (by simp [withDataBus, withPort]) (by simp [withDataBus, withPort])

variable (hl : Linked pins base s.state)

include hl

theorem mutual_makeDataPort (hc : Ref.New base s.state (.component c)) (name : String) :
    wp (makeDataPort c name) (fun _ t => t.state.borders.peers.Mutual k) (fun f _ => f.Unless False)
      s := by
  obtain ⟨x, hx⟩ := Arena.exists_get? hc.2
  cases hi : x.interior with
  | none =>
      rw [wp_makeDataPort hx hi]
      show (s.state.withDataPort c name).borders.peers.Mutual k
      rw [show (s.state.withDataPort c name).borders.peers = _ from samePeers_withPort rfl _]
      exact h
  | some i =>
      obtain ⟨b, e, w, hb, hne, he, hw, -, hin⟩ := hs.inBuf hl hx hc.1 hi
      rw [wp_makeDataPort_module hx hi hb hne he hw hin.peer]
      exact mutual_paired h (samePeers_withInput rfl rfl _ _) (by simp [withInput, withPort])
        (by simp [withInput])

theorem mutual_makeThisPort (hc : Ref.New base s.state (.component c)) :
    wp (makeThisPort c) (fun _ t => t.state.borders.peers.Mutual k) (fun f _ => f.Unless False)
      s := by
  obtain ⟨x, hx⟩ := Arena.exists_get? hc.2
  cases hthis : x.this with
  | some p => exact (wp_makeThisPort_some hx hthis).mpr h
  | none =>
  cases hi : x.interior with
  | none =>
      rw [wp_makeThisPort hx hthis hi]
      show (s.state.withThisPort c).borders.peers.Mutual k
      rw [show (s.state.withThisPort c).borders.peers = _ from samePeers_withPort rfl _]
      exact h
  | some i =>
      obtain ⟨b, e, w, hb, hne, he, hw, -, -⟩ := hs.inBuf hl hx hc.1 hi
      rw [wp_makeThisPort_module hx hthis hi hb hne he hw]
      exact mutual_paired h (samePeers_withInput rfl rfl _ _) (by simp [withInput, withPort])
        (by simp [withInput])

omit hs hl in
theorem mutual_makeExit (hc : Ref.New base s.state (.component c)) (tag : ExitTag) :
    wp (makeExit c 0 tag) (fun _ t => t.state.borders.peers.Mutual k) (fun f _ => f.Unless False)
      s := by
  obtain ⟨x, hx⟩ := Arena.exists_get? hc.2
  cases htag : x.exits.contains tag with
  | true => exact (wp_makeExit_taken hx htag 0).mpr trivial
  | false =>
  cases hi : x.interior with
  | none =>
      rw [wp_makeExit hx htag hi]
      show (s.state.withExit c tag).borders.peers.Mutual k
      rw [peers_withExit]
      exact h
  | some i =>
      rw [wp_makeExit_module hx htag hi]
      show (s.state.withModuleExit c x tag).borders.peers.Mutual k
      have hnew : s.state.components.next ≠ c := by
        rintro rfl
        exact Nat.lt_irrefl _ hc.2
      rw [borders_withModuleExit hx hnew]
      exact h.join busPeer?_next

end

theorem mutual_withModule {k : Nat} (h : n.borders.peers.Mutual k) (kind : ModuleKind)
    (stem : String) : (n.withModule kind stem).borders.peers.Mutual k := by
  have hfresh : ∀ j, n.borders.busPeer? ⟨n.buses.size + j⟩ = none := by
    intro j
    have hnone : n.buses.get? ⟨n.buses.size + j⟩ = none := Arena.get?_of_size_le (Nat.le_add_right _ j)
    simp [borders, hnone]
  rw [borders_withModule]
  refine Borders.Peers.Mutual.join (Borders.Peers.Mutual.join (h.join busPeer?_next) ?_) ?_
  · simpa [Borders.Peers.join, Borders.peers, Handle.eq_iff_index] using hfresh 1
  · simpa [Borders.Peers.join, Borders.peers, Handle.eq_iff_index] using hfresh 2

/-! ### The guard -/

/-- A new port and the bus that repeats it know each other. -/
def pairing (base : Netlist) : Guard base True where
  holds n := n.borders.peers.Mutual base.ports.size
  firm := False
  calm h hm := by
    rw [show _ = _ from h.samePeers]
    exact hm
  shell kind stem _ hm := by
    rw [borders_shelled]
    exact hm
  module kind stem _ hm := mutual_withModule hm kind stem
  edit op s hl hstrict hrefs hm := by
    obtain ⟨hs, -⟩ := hstrict trivial
    refine wp_mono (Q := fun _ t => t.state.borders.peers.Mutual base.ports.size)
      (F := fun f _ => f.Unless False) ?_ (fun _ _ h => h) fun f t h => h.mono False.elim
    cases op with
    | dataBus e name =>
        exact wp_discard.mpr (mutual_makeDataBus hm hs (hrefs _ (by simp [Edit.refs])) name)
    | dataPort c name =>
        exact wp_discard.mpr (mutual_makeDataPort hm hs hl (hrefs _ (by simp [Edit.refs])) name)
    | thisPort c =>
        exact wp_discard.mpr (mutual_makeThisPort hm hs hl (hrefs _ (by simp [Edit.refs])))
    | exit c tag =>
        exact wp_discard.mpr (mutual_makeExit hm (hrefs _ (by simp [Edit.refs])) tag)
    | dropExit c tag => exact wp_discard.mpr (mutual_of_moves hm (samePeers_removeExit tag))
    | adopt m c =>
        exact mutual_of_moves hm (unseen_addComponent.mono fun _ _ => SameBorders.samePeers)
    | release m c =>
        exact wp_discard.mpr
          (mutual_of_moves hm (unseen_removeComponent.mono fun _ _ => SameBorders.samePeers))
    | feedback m c =>
        exact mutual_of_moves hm (unseen_addFeedbackPoint.mono fun _ _ => SameBorders.samePeers)
    | consumesGo c on => exact mutual_of_moves hm (samePeers_setConsumesGo on)
    | producesDone c on => exact mutual_of_moves hm (samePeers_setProducesDone on)
    | wait c => exact mutual_of_moves hm samePeers_changeComponent

/-- Nothing new is there yet. -/
theorem pairing_refl (n : Netlist) : (pairing n).holds n := by
  intro p d hp hpeer
  have hnone : n.ports.get? p = none := Arena.get?_of_size_le hp
  simp [Borders.peers, borders, hnone] at hpeer

end DataflowSynth.Netlist
