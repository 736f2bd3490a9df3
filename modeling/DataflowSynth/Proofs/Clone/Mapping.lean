/-
Mapping a component to its copy.

The terminals of the two are gone through side by side.  If they match, that is if they are of the
same roles in the same order, they are twins afterwards.
-/
import DataflowSynth.Proofs.Clone.Twin
import DataflowSynth.Proofs.Netlist.Outcomes

namespace DataflowSynth

/-! ### Many changes at once -/

namespace Arena

variable {j k : HandleKind} {α : Type}

/-- Changes the second of every pair by what the first one stands for. -/
def modifyEach (a : Arena k α) (f : Handle j → α → α) (zs : List (Handle j × Handle k)) : Arena k α :=
  zs.foldl (fun a z => a.modify z.2 (f z.1)) a

variable {f : Handle j → α → α}

@[simp] theorem size_modifyEach (zs : List (Handle j × Handle k)) (a : Arena k α) :
    (a.modifyEach f zs).size = a.size := by
  unfold modifyEach
  induction zs generalizing a with
  | nil => rfl
  | cons z zs ih => simpa using ih (a.modify z.2 (f z.1))

theorem get?_modifyEach_of_notMem {zs : List (Handle j × Handle k)} {h : Handle k}
    (hh : h ∉ zs.map Prod.snd) (a : Arena k α) : (a.modifyEach f zs).get? h = a.get? h := by
  unfold modifyEach
  induction zs generalizing a with
  | nil => rfl
  | cons z zs ih =>
      simp only [List.map_cons, List.mem_cons, not_or] at hh
      rw [List.foldl_cons, ih hh.2, get?_modify, if_neg hh.1]

theorem get?_modifyEach_of_mem {zs : List (Handle j × Handle k)} (hnodup : (zs.map Prod.snd).Nodup)
    {z : Handle j × Handle k} (hz : z ∈ zs) (a : Arena k α) :
    (a.modifyEach f zs).get? z.2 = (a.get? z.2).map (f z.1) := by
  unfold modifyEach
  induction zs generalizing a with
  | nil => simp at hz
  | cons w zs ih =>
      rw [List.map_cons, List.nodup_cons] at hnodup
      rw [List.foldl_cons]
      rcases List.mem_cons.mp hz with rfl | hz
      · exact (get?_modifyEach_of_notMem hnodup.1 _).trans (get?_modify_self _ _ _)
      · have hne : z.2 ≠ w.2 := fun heq => hnodup.1 (heq ▸ List.mem_map_of_mem hz)
        rw [ih hnodup.2 hz, get?_modify, if_neg hne]

theorem Keeps.modifyEach {a b : Arena k α} (hab : a.Keeps b) {zs : List (Handle j × Handle k)}
    (hle : ∀ z ∈ zs, a.size ≤ z.2.index) : a.Keeps (b.modifyEach f zs) := by
  unfold Arena.modifyEach
  induction zs generalizing b with
  | nil => exact hab
  | cons z zs ih => exact ih (hab.modify (hle z (by simp)) _) fun w hw => hle w (by simp [hw])

end Arena

/-- A map that has learnt some pairs. -/
def learn {j k : HandleKind} (m : Std.HashMap (Handle j) (Handle k))
    (zs : List (Handle j × Handle k)) : Std.HashMap (Handle j) (Handle k) :=
  zs.foldl (fun m z => m.insert z.1 z.2) m

section

variable {j k : HandleKind} {zs : List (Handle j × Handle k)}

theorem getElem?_learn_of_notMem {h : Handle j} (hh : h ∉ zs.map Prod.fst)
    (m : Std.HashMap (Handle j) (Handle k)) : (learn m zs)[h]? = m[h]? := by
  unfold learn
  induction zs generalizing m with
  | nil => rfl
  | cons z zs ih =>
      simp only [List.map_cons, List.mem_cons, not_or] at hh
      rw [List.foldl_cons, ih hh.2, Std.HashMap.getElem?_insert, if_neg]
      simpa using Ne.symm hh.1

theorem getElem?_learn_of_mem (hnodup : (zs.map Prod.fst).Nodup) {z : Handle j × Handle k}
    (hz : z ∈ zs) (m : Std.HashMap (Handle j) (Handle k)) : (learn m zs)[z.1]? = some z.2 := by
  unfold learn
  induction zs generalizing m with
  | nil => simp at hz
  | cons w zs ih =>
      rw [List.map_cons, List.nodup_cons] at hnodup
      rw [List.foldl_cons]
      rcases List.mem_cons.mp hz with rfl | hz
      · exact (getElem?_learn_of_notMem hnodup.1 _).trans (by simp)
      · exact ih hnodup.2 hz _

end

namespace Netlist

open Build

/-! ### Names, signals and marks -/

/-- A port with the name, signal and mark of another one. -/
def namePort (n : Netlist) (p : PortId) (y : Port) : Port :=
  match n.ports.get? p with
  | none => y
  | some x => { y with name := x.name, signal := x.signal, sideband := x.sideband }

def nameBus (n : Netlist) (b : BusId) (z : Bus) : Bus :=
  match n.buses.get? b with
  | none => z
  | some x => { z with name := x.name, signal := x.signal, sideband := x.sideband }

variable {n : Netlist} {F : Failure → Traced Netlist → Prop} {s : Traced Netlist}

section

variable {Q : Correspondence → Traced Netlist → Prop}

theorem wp_mapPort {map : Correspondence} {p q : PortId} (hk : n.ports.Keeps s.state.ports)
    (hp : p.index < n.ports.size) (hq : q.index < s.state.ports.size) :
    wp (mapPort map p q) Q F s ↔ Q { map with ports := map.ports.insert p q }
      (moved s { s.state with ports := s.state.ports.modify q (n.namePort p) }) := by
  obtain ⟨x, hx⟩ := Arena.exists_get? hp
  have hname : n.namePort p = fun y =>
      { y with name := x.name, signal := x.signal, sideband := x.sideband } := by
    funext y
    simp only [namePort, hx]
  simp only [mapPort, wp_bind]
  refine .trans (wp_port ((hk.get? p hp).trans hx)) (.trans (wp_changePort hq) ?_)
  rw [hname]
  exact Iff.rfl

theorem wp_mapPorts {zs : List (PortId × PortId)} {map : Correspondence}
    (hk : n.ports.Keeps s.state.ports) (hp : ∀ z ∈ zs, z.1.index < n.ports.size)
    (hq : ∀ z ∈ zs, n.ports.size ≤ z.2.index ∧ z.2.index < s.state.ports.size) :
    wp (zs.foldlM (fun map z => mapPort map z.1 z.2) map) Q F s ↔
      Q { map with ports := learn map.ports zs }
        (moved s { s.state with ports := s.state.ports.modifyEach n.namePort zs }) := by
  induction zs generalizing map s with
  | nil => exact Iff.rfl
  | cons z zs ih =>
      rw [List.foldlM_cons, wp_bind, wp_mapPort hk (hp z (by simp)) (hq z (by simp)).2]
      refine .trans (ih (hk.modify (hq z (by simp)).1 _) (fun w hw => hp w (by simp [hw]))
        fun w hw => ?_) Iff.rfl
      have hw := hq w (by simp [hw])
      exact ⟨hw.1, by simpa using hw.2⟩

theorem wp_mapBus {map : Correspondence} {b c : BusId} (hk : n.buses.Keeps s.state.buses)
    (hb : b.index < n.buses.size) (hc : c.index < s.state.buses.size) :
    wp (mapBus map b c) Q F s ↔ Q { map with buses := map.buses.insert b c }
      (moved s { s.state with buses := s.state.buses.modify c (n.nameBus b) }) := by
  obtain ⟨x, hx⟩ := Arena.exists_get? hb
  have hname : n.nameBus b = fun y =>
      { y with name := x.name, signal := x.signal, sideband := x.sideband } := by
    funext y
    simp only [nameBus, hx]
  simp only [mapBus, wp_bind]
  refine .trans (wp_bus ((hk.get? b hb).trans hx)) (.trans (wp_changeBus hc) ?_)
  rw [hname]
  exact Iff.rfl

theorem wp_mapBuses {zs : List (BusId × BusId)} {map : Correspondence}
    (hk : n.buses.Keeps s.state.buses) (hb : ∀ z ∈ zs, z.1.index < n.buses.size)
    (hc : ∀ z ∈ zs, n.buses.size ≤ z.2.index ∧ z.2.index < s.state.buses.size) :
    wp (zs.foldlM (fun map z => mapBus map z.1 z.2) map) Q F s ↔
      Q { map with buses := learn map.buses zs }
        (moved s { s.state with buses := s.state.buses.modifyEach n.nameBus zs }) := by
  induction zs generalizing map s with
  | nil => exact Iff.rfl
  | cons z zs ih =>
      rw [List.foldlM_cons, wp_bind, wp_mapBus hk (hb z (by simp)) (hc z (by simp)).2]
      refine .trans (ih (hk.modify (hc z (by simp)).1 _) (fun w hw => hb w (by simp [hw]))
        fun w hw => ?_) Iff.rfl
      have hw := hc w (by simp [hw])
      exact ⟨hw.1, by simpa using hw.2⟩

end

/-! ### Exits -/

/-- The buses of two exits, side by side. -/
def busPairs (n t : Netlist) (z : ExitId × ExitId) : List (BusId × BusId) :=
  ((n.exits.get? z.1).elim [] Exit.buses).zip ((t.exits.get? z.2).elim [] Exit.buses)

/-- What a correspondence learns from pairs of exits. -/
def learnExits (n t : Netlist) (map : Correspondence) (es : List (ExitId × ExitId)) :
    Correspondence :=
  { map with exits := learn map.exits es, buses := learn map.buses (es.flatMap (busPairs n t)) }

theorem learnExits_cons {n t : Netlist} {map : Correspondence} {z : ExitId × ExitId}
    {es : List (ExitId × ExitId)} : learnExits n t map (z :: es) =
      learnExits n t { map with
        exits := map.exits.insert z.1 z.2
        buses := learn map.buses (busPairs n t z) } es := by
  simp only [learnExits, learn, List.foldl_cons, List.flatMap_cons, List.foldl_append]

/-- The pairs are of exits of `n` and new ones of `t`. -/
structure PairsFit (n t : Netlist) (es : List (ExitId × ExitId)) : Prop where
  source : ∀ z ∈ es, ∃ y, n.exits.get? z.1 = some y ∧ ∀ b ∈ y.buses, b.index < n.buses.size
  target : ∀ z ∈ es, ∃ y, t.exits.get? z.2 = some y ∧
    ∀ b ∈ y.buses, n.buses.size ≤ b.index ∧ b.index < t.buses.size

theorem PairsFit.mem_busPairs {n t : Netlist} {es : List (ExitId × ExitId)} (h : PairsFit n t es)
    {z : ExitId × ExitId} (hz : z ∈ es) {w : BusId × BusId} (hw : w ∈ busPairs n t z) :
    w.1.index < n.buses.size ∧ n.buses.size ≤ w.2.index ∧ w.2.index < t.buses.size := by
  obtain ⟨y, hy, hb⟩ := h.source z hz
  obtain ⟨y', hy', hb'⟩ := h.target z hz
  obtain ⟨h1, h2⟩ := List.of_mem_zip hw
  rw [hy] at h1
  rw [hy'] at h2
  exact ⟨hb _ h1, hb' _ h2⟩

theorem wp_mapExits {Q : Correspondence → Traced Netlist → Prop} {es : List (ExitId × ExitId)}
    {map : Correspondence} {t : Netlist} (hexits : s.state.exits = t.exits)
    (hsize : s.state.buses.size = t.buses.size) (hk : n.exits.Keeps t.exits)
    (hkb : n.buses.Keeps s.state.buses) (h : PairsFit n t es) :
    wp (es.foldlM (fun map z => mapExit map z.1 z.2) map) Q F s ↔
      Q (learnExits n t map es) (moved s { s.state with
        buses := s.state.buses.modifyEach n.nameBus (es.flatMap (busPairs n t)) }) := by
  induction es generalizing map s with
  | nil => exact Iff.rfl
  | cons z es ih =>
      obtain ⟨y, hy, -⟩ := h.source z (by simp)
      obtain ⟨y', hy', -⟩ := h.target z (by simp)
      have hpairs : y.buses.zip y'.buses = busPairs n t z := by simp [busPairs, hy, hy']
      have hmem := fun w hw => h.mem_busPairs (z := z) (by simp) (w := w) hw
      rw [List.foldlM_cons, wp_bind, learnExits_cons]
      simp only [mapExit, wp_bind]
      refine .trans (wp_exit (hexits ▸ (hk.get? _ (Arena.lt_of_get? hy)).trans hy))
        (.trans (wp_exit (hexits ▸ hy')) ?_)
      rw [hpairs]
      refine .trans (wp_mapBuses hkb (fun w hw => (hmem w hw).1) fun w hw =>
        ⟨(hmem w hw).2.1, hsize ▸ (hmem w hw).2.2⟩) ?_
      refine .trans (ih hexits (by simpa using hsize)
        (hkb.modifyEach fun w hw => (hmem w hw).2.1)
        ⟨fun w hw => h.source w (by simp [hw]), fun w hw => h.target w (by simp [hw])⟩) ?_
      simp only [Arena.modifyEach, List.flatMap_cons, List.foldl_append, moved_moved, state_moved]

end Netlist

end DataflowSynth
