/-
Drawing under further connections.

A module that takes the place of a component is drawn as if nothing else were connected, and then it
takes over what the component was connected to.  The drawing and the connections are kept apart.  A
netlist `Lies` under a sheet and `ω` when it is one with that sheet, in which nothing that was there
before is connected, with the further connections `ω`.  A step that draws changes the sheet alone, and
one that takes over a connection changes `ω` alone.
-/
import DataflowSynth.Proofs.Netlist.Mirrors
import DataflowSynth.Proofs.Sheet.Boxes

namespace DataflowSynth.Netlist

open Build

/-- What is drawn beside a netlist whose connections are not looked at. -/
def Ground.under (pins : Nat) (n : Netlist) : Ground := { pins, base := n.unconnected }

/-- The netlist is one with the sheet `σ`, under the connections `ω`. -/
def Lies (Γ : Ground) (ω : PortId → Option BusId) (σ : Sheet) (n : Netlist) : Prop :=
  ∃ m, Overlays ω m n ∧ Proper Γ m ∧ Γ.sheet m = σ

theorem lies_under {n : Netlist} (h : n.Tethered) (pins : Nat) :
    Lies (.under pins n) n.portDriver? ((Ground.under pins n).sheet n.unconnected) n :=
  ⟨_, overlays_unconnected h, proper_refl (.under pins n), rfl⟩

section

variable {ω : PortId → Option BusId} {m n : Netlist} (h : Overlays ω m n)

include h

theorem Overlays.pad_peer (p : PortId) : (n.pad p).peer = (m.pad p).peer := by
  have hp := h.ports p
  cases hy : m.ports.get? p <;> simp [pad, hp, hy, Port.drivenBy]

/-- What has no further connection looks the same. -/
theorem Overlays.node {x : Component} (hfree : ∀ p ∈ x.ports, ω p = none) : n.node x = m.node x := by
  have hpad : ∀ p ∈ x.ports, n.pad p = m.pad p := by
    intro p hp
    have hdriver : (n.pad p).driver = (m.pad p).driver :=
      (h.portDriver? p).trans (by rw [hfree p hp, Option.or_none]; rfl)
    calc n.pad p = ⟨p, (n.pad p).driver, (n.pad p).peer⟩ := rfl
      _ = m.pad p := by rw [hdriver, h.pad_peer]; rfl
  have hexits : n.outlet = m.outlet := by
    funext e
    simp only [outlet, h.exits]
  have hthis : x.this.map n.pad = x.this.map m.pad :=
    Option.map_congr fun p hp => hpad p (by simp [Component.ports, hp])
  have hdata : x.dataPorts.map n.pad = x.dataPorts.map m.pad :=
    List.map_congr_left fun p hp => hpad p (by simp [Component.ports, hp])
  simp only [Netlist.node, hexits, hthis, hdata, hpad x.clock (by simp), hpad x.reset (by simp),
    hpad x.go (by simp)]

end

/-- In a netlist that lies so the step succeeds, with `Q`. -/
def Builds {α : Type} (Γ : Ground) (x : Step α) (ω : PortId → Option BusId) (σ : Sheet)
    (Q : α → Traced Netlist → Prop) : Prop :=
  ∀ s : Traced Netlist, Lies Γ ω σ s.state → wp x Q (fun _ _ => False) s

namespace Builds

variable {Γ : Ground} {ω : PortId → Option BusId} {σ : Sheet} {α β : Type} {x : Step α}
  {f : α → Step β} {Q : β → Traced Netlist → Prop}

theorem draw {P : α → Sheet → Prop} (hx : Mirrors ω x x) (hd : Draws Γ x σ P)
    (hf : ∀ a τ, P a τ → Builds Γ (f a) ω τ Q) : Builds Γ (x >>= f) ω σ Q := by
  rintro s ⟨m, hover, hm, hσ⟩
  have hboth := wp_mono (wp_and (hx (s := ⟨m, s.journal⟩) hover) (hd ⟨m, s.journal⟩ hm hσ))
    (fun _ _ h => h) fun _ _ h => h.2
  obtain ⟨a, t, -, hrun, hproper, hP⟩ := exists_of_wp hboth
  rw [wp_bind]
  refine wp_mono hrun (fun a' t' ht => ?_) fun _ _ h => h
  obtain ⟨rfl, hover'⟩ := ht
  exact hf _ _ hP t' ⟨t.state, hover', hproper, rfl⟩

theorem look {P : α → Prop} (hx : Mirrors ω x x) (hs : Sees Γ x σ P)
    (hf : ∀ a, P a → Builds Γ (f a) ω σ Q) : Builds Γ (x >>= f) ω σ Q :=
  .draw hx hs.draws fun a _ hτ => hτ.1 ▸ hf a hτ.2

theorem read {v : α} (hx : Mirrors ω x x) (hs : Sees Γ x σ (· = v))
    (hf : Builds Γ (f v) ω σ Q) : Builds Γ (x >>= f) ω σ Q :=
  .look hx hs fun _ ha => ha ▸ hf

end Builds

/-! ### What was there before -/

section

variable {Γ : Ground} {ω : PortId → Option BusId} {σ : Sheet} {n : Netlist} (h : Lies Γ ω σ n)

include h

theorem Lies.component {c : ComponentId} {x : Component} (hx : Γ.base.components.get? c = some x) :
    n.components.get? c = some x := by
  obtain ⟨m, hover, hm, -⟩ := h
  rw [hover.components, hm.linked.keeps.components.get? c (Arena.lt_of_get? hx)]
  exact hx

theorem Lies.exit {e : ExitId} {y : Exit} (hy : Γ.base.exits.get? e = some y) :
    n.exits.get? e = some y := by
  obtain ⟨m, hover, hm, -⟩ := h
  rw [hover.exits, hm.linked.keeps.exits.get? e (Arena.lt_of_get? hy)]
  exact hy

theorem Lies.tethered : n.Tethered := by
  obtain ⟨m, hover, -⟩ := h
  exact hover.tethered

theorem Lies.bus {b : BusId} (hb : b.index < Γ.base.buses.size) :
    ∃ z, n.buses.get? b = some z := by
  obtain ⟨m, hover, hm, -⟩ := h
  refine Arena.exists_get? ?_
  rw [hover.size_buses]
  exact Nat.lt_of_lt_of_le hb hm.linked.keeps.buses.size

theorem Lies.gives {b : BusId} (hb : σ.Gives b) : b.index < n.buses.size := by
  obtain ⟨m, hover, hm, rfl⟩ := h
  obtain ⟨d, μ, hμ, hmem⟩ := hb
  rw [hover.size_buses]
  exact (hm.has_bus hμ hmem).2

/-- A port that was there before is driven as `ω` says. -/
theorem Lies.driver {p : PortId} (hbase : ∀ p, Γ.base.portDriver? p = none)
    (hp : p.index < Γ.base.ports.size) : n.portDriver? p = ω p := by
  obtain ⟨m, hover, hm, -⟩ := h
  have hfree : m.portDriver? p = none := by
    rw [portDriver?, hm.linked.keeps.ports.get? p hp]
    exact hbase p
  rw [hover.portDriver?, hfree, Option.none_or]

end

/-- In every netlist that lies over the ground the step finds `v`, and it changes nothing. -/
def Finds {α : Type} (Γ : Ground) (x : Step α) (v : α) : Prop :=
  ∀ ω σ, ∀ s : Traced Netlist, Lies Γ ω σ s.state → wp x (fun a t => t = s ∧ a = v) (fun _ _ => False) s

section

variable {Γ : Ground} {ω : PortId → Option BusId} {σ : Sheet} {α β : Type} {x : Step α}
  {f : α → Step β} {v : α}

theorem Builds.find {Q : β → Traced Netlist → Prop} (hx : Finds Γ x v)
    (hf : Builds Γ (f v) ω σ Q) : Builds Γ (x >>= f) ω σ Q := by
  intro s hs
  rw [wp_bind]
  refine wp_mono (hx ω σ s hs) (fun a t ht => ?_) fun _ _ h => h
  obtain ⟨rfl, rfl⟩ := ht
  exact hf t hs

theorem Finds.bind {u : β} (hx : Finds Γ x v) (hf : Finds Γ (f v) u) : Finds Γ (x >>= f) u := by
  intro ω σ s hs
  rw [wp_bind]
  refine wp_mono (hx ω σ s hs) (fun a t ht => ?_) fun _ _ h => h
  obtain ⟨rfl, rfl⟩ := ht
  exact hf ω σ t hs

theorem Finds.expect {a : Abort} {o : Option α} (ho : o = some v) : Finds Γ (Build.expect a o) v := by
  subst ho
  exact fun _ _ _ _ => ⟨rfl, rfl⟩

theorem builds_bus {b : BusId} {f : Bus → Step β} {Q : β → Traced Netlist → Prop}
    (hb : b.index < Γ.base.buses.size ∨ σ.Gives b) (hf : ∀ z, Builds Γ (f z) ω σ Q) :
    Builds Γ (bus b >>= f) ω σ Q := by
  intro s hs
  obtain ⟨z, hz⟩ : ∃ z, s.state.buses.get? b = some z :=
    hb.elim hs.bus fun hgives => Arena.exists_get? (hs.gives hgives)
  rw [wp_bind, wp_bus hz]
  exact hf z s hs

variable {c : ComponentId} {x : Component} {e : ExitId} {y : Exit}

theorem finds_component (hx : Γ.base.components.get? c = some x) : Finds Γ (component c) x :=
  fun _ _ _ hs => (wp_component (hs.component hx)).mpr ⟨rfl, rfl⟩

theorem finds_exit (hy : Γ.base.exits.get? e = some y) : Finds Γ (exit e) y :=
  fun _ _ _ hs => (wp_exit (hs.exit hy)).mpr ⟨rfl, rfl⟩

theorem finds_dataPort (hx : Γ.base.components.get? c = some x) {k : Nat} {p : PortId}
    (hp : x.dataPorts[k]? = some p) : Finds Γ (dataPort c k) p :=
  (finds_component hx).bind (.expect hp)

variable (hx : Γ.base.components.get? c = some x) (he : x.mainExit? = some e)

include hx he

theorem finds_mainExit : Finds Γ (mainExit c) e := (finds_component hx).bind (.expect he)

variable (hy : Γ.base.exits.get? e = some y)

include hy

theorem finds_doneBus : Finds Γ (doneBus c) y.done :=
  (finds_mainExit hx he).bind ((finds_exit hy).bind fun _ _ _ _ => ⟨rfl, rfl⟩)

theorem finds_resultBus {b : BusId} (hb : y.data.head? = some b) : Finds Γ (resultBus c) b :=
  (finds_mainExit hx he).bind ((finds_exit hy).bind (.expect hb))

end

/-! ### Connections -/

section

variable {Γ : Ground} {ω : PortId → Option BusId} {σ : Sheet} {α β : Type} {x : Step α}
  {f : α → Step β} {Q : β → Traced Netlist → Prop}

/-- The connections have changed, and the sheet has not. -/
theorem Builds.rewire {ω' : PortId → Option BusId}
    (hx : Builds Γ x ω σ fun _ t => Lies Γ ω' σ t.state) (hf : ∀ a, Builds Γ (f a) ω' σ Q) :
    Builds Γ (x >>= f) ω σ Q := by
  intro s hs
  rw [wp_bind]
  exact wp_mono (hx s hs) (fun a t ht => hf a t ht) fun _ _ h => h

/-- The connections after the second port has got the driver of the first. -/
def handOver (ω : PortId → Option BusId) (e : PortId × PortId) : PortId → Option BusId :=
  Function.update (Function.update ω e.1 none) e.2 (ω e.1)

/-- The connections after the second bus has got all that the first one drove. -/
def redirect (ω : PortId → Option BusId) (e : BusId × BusId) : PortId → Option BusId :=
  fun p => if ω p = some e.1 then some e.2 else ω p

/-- Nothing but what was there before drives anything. -/
def Old (Γ : Ground) (ω : PortId → Option BusId) : Prop :=
  ∀ p b, ω p = some b → b.index < Γ.base.buses.size

theorem Old.handOver (h : Old Γ ω) (e : PortId × PortId) : Old Γ (handOver ω e) := by
  intro p b hp
  simp only [Netlist.handOver, Function.update_apply] at hp
  split at hp
  · exact h e.1 b hp
  · split at hp
    · cases hp
    · exact h p b hp

/-- Nothing that is drawn drives the port. -/
def Sheet.Spares (Γ : Ground) (σ : Sheet) (p : PortId) : Prop :=
  ∀ m, Proper Γ m → Γ.sheet m = σ → p.index < m.ports.size ∧ m.portDriver? p = none

theorem Sheet.spares_pad {c : ComponentId} {ν : Node} (hν : σ.node? c = some ν) {a : Pad}
    (ha : a ∈ ν.pads) (hfree : a.driver = none) : σ.Spares Γ a.port := by
  rintro m hm rfl
  obtain ⟨y, hy, -, hpad, -⟩ := hm.has_port hν ha
  exact ⟨Arena.lt_of_get? hy, (congrArg Pad.driver hpad).trans hfree⟩

theorem builds_connect {p : PortId} (hp : σ.Spares Γ p) {d : Option BusId}
    (hd : ∀ b, d = some b → b.index < Γ.base.buses.size) :
    Builds Γ (setBus p d) ω σ fun _ t => Lies Γ (Function.update ω p d) σ t.state := by
  rintro s hs
  have hbuses : ∀ b, d = some b → b.index < s.state.buses.size := by
    intro b hb
    obtain ⟨z, hz⟩ := hs.bus (hd b hb)
    exact Arena.lt_of_get? hz
  obtain ⟨m, hover, hm, hσ⟩ := hs
  obtain ⟨hlt, hfree⟩ := hp m hm hσ
  have hlt' : p.index < s.state.ports.size := hover.size_ports ▸ hlt
  exact (hover.tethered.wp_setBus hlt' hbuses).mpr
    ⟨m, hover.reconnect hlt' hfree hbuses, hm, hσ⟩

variable (hbase : ∀ p, Γ.base.portDriver? p = none)

include hbase

theorem Sheet.spares_old {p : PortId} (hp : p.index < Γ.base.ports.size) : σ.Spares Γ p := by
  rintro m hm rfl
  refine ⟨Nat.lt_of_lt_of_le hp hm.linked.keeps.ports.size, ?_⟩
  rw [portDriver?, hm.linked.keeps.ports.get? p hp]
  exact hbase p

/-- Nothing that was there before drives anything that is drawn. -/
theorem Proper.not_driver_old {m : Netlist} (hm : Proper Γ m) {p : PortId} {b : BusId}
    (hb : b.index < Γ.base.buses.size) : m.portDriver? p ≠ some b := by
  intro hp
  obtain ⟨y, hy, hbus⟩ := portDriver?_eq_some.mp hp
  rcases Nat.lt_or_ge p.index Γ.base.ports.size with hlt | hge
  · have hfree := (Sheet.spares_old (σ := Γ.sheet m) hbase hlt m hm rfl).2
    rw [hfree] at hp
    cases hp
  · have hnew := (Port.forall_refs.mp (hm.linked.ports p y hy hge).refs).2.1 b hbus
    exact absurd hb (Nat.not_lt_of_le hnew.1)

section

variable {source : PortId} (hsource : source.index < Γ.base.ports.size)

include hsource

theorem Lies.port {n : Netlist} (h : Lies Γ ω σ n) :
    ∃ y, n.ports.get? source = some y ∧ y.bus = ω source := by
  have hdriver := h.driver hbase hsource
  obtain ⟨m, hover, hm, -⟩ := h
  obtain ⟨y, hy⟩ := Arena.exists_get? (a := n.ports) (h := source)
    (hover.size_ports ▸ Nat.lt_of_lt_of_le hsource hm.linked.keeps.ports.size)
  exact ⟨y, hy, by simpa [portDriver?, hy] using hdriver⟩

/-- A port that is drawn takes over the driver of another. -/
theorem builds_takeOverPort {c : ComponentId} {ν : Node} (hν : σ.node? c = some ν) {a : Pad}
    (ha : a ∈ ν.pads) (hfree : a.driver = none) (hpeer : ∀ b, a.peer = some b → σ.Gives b)
    (hold : ∀ b, ω source = some b → b.index < Γ.base.buses.size) :
    Builds Γ (Memory.takeOverPort source a.port) ω σ fun _ t =>
      Lies Γ (handOver ω (source, a.port)) σ t.state := by
  have hmove : Builds Γ (do
      let driver := (← port source).bus
      setBus source none
      setBus a.port driver) ω σ fun _ t =>
      Lies Γ (handOver ω (source, a.port)) σ t.state := by
    intro s hs
    obtain ⟨y, hy, hbus⟩ := hs.port hbase hsource
    rw [wp_bind, wp_port hy, hbus]
    exact Builds.rewire (builds_connect (Sheet.spares_old hbase hsource) (by simp))
      (fun _ => builds_connect (Sheet.spares_pad hν ha hfree) hold) s hs
  intro s hs
  obtain ⟨y, hy, -⟩ := hs.port hbase hsource
  rw [Memory.takeOverPort, wp_bind, wp_port hy]
  cases y.signal with
  | none => exact hmove s hs
  | some signal =>
      refine Builds.draw mirrors_setPortSignal (draws_setPortSignal hν ha signal) (fun _ τ hτ => ?_) s hs
      subst hτ
      rintro t ⟨m, hover, hm, rfl⟩
      obtain ⟨z, hz, -, hpad, -⟩ := hm.has_port hν ha
      have hz' : t.state.ports.get? a.port = some (z.drivenBy (z.bus.or (ω a.port))) := by
        rw [hover.ports, hz, Option.map_some]
      have heq : z.peer = a.peer := by
        have := congrArg Pad.peer hpad
        simpa [pad, hz] using this
      rw [wp_bind, wp_port hz']
      dsimp only [Port.drivenBy]
      rw [heq]
      have hlies : Lies Γ ω (Γ.sheet m) t.state := ⟨m, hover, hm, rfl⟩
      cases hp : a.peer with
      | none => exact hmove t hlies
      | some b =>
          exact Builds.draw mirrors_setBusSignal (draws_setBusSignal (hpeer b hp) signal)
            (fun _ τ hτ => hτ ▸ hmove) t hlies

end

/-- A bus that is drawn takes over what another drives. -/
theorem builds_takeOverSinks {source target : BusId} (hsource : source.index < Γ.base.buses.size)
    (htarget : σ.Gives target) : Builds Γ (Memory.takeOverSinks source target) ω σ fun _ t =>
      Lies Γ (redirect ω (source, target)) σ t.state := by
  intro s hs
  obtain ⟨z, hz⟩ := hs.bus hsource
  have hvalid := hs.gives htarget
  obtain ⟨m, hover, hm, rfl⟩ := hs
  have hmem : ∀ p, p ∈ z.ports ↔ s.state.portDriver? p = some source := by
    intro p
    rw [← hover.tethered.mem_sinks_iff, mem_sinks]
    simp [hz]
  have hfree : ∀ p ∈ z.ports, p.index < s.state.ports.size ∧ m.portDriver? p = none := by
    intro p hp
    have hdriver := (hmem p).mp hp
    obtain ⟨y, hy, -⟩ := portDriver?_eq_some.mp hdriver
    refine ⟨Arena.lt_of_get? hy, ?_⟩
    cases hbelow : m.portDriver? p with
    | none => rfl
    | some b =>
        rw [hover.portDriver?, hbelow, Option.some_or] at hdriver
        exact absurd (hbelow.trans hdriver) (hm.not_driver_old hbase hsource)
  rw [Memory.takeOverSinks, wp_bind, wp_bus hz]
  -- So far the ports in `pre` have been connected to the target.
  refine wp_mono (wp_forM_along
    (I := fun pre t => Overlays (fun p => if p ∈ pre then some target else ω p) m t.state)
    (by simpa using hover) fun pre p post hports t ht => ?_) (fun _ t ht => ?_) fun _ _ h => h
  · obtain ⟨hlt, hbelow⟩ := hfree p (by simp [hports])
    have hlt' : p.index < t.state.ports.size := ht.size_ports ▸ hover.size_ports ▸ hlt
    have hvalid' : ∀ b, some target = some b → b.index < t.state.buses.size := by
      rintro b hb
      cases hb
      exact ht.size_buses ▸ hover.size_buses ▸ hvalid
    refine (ht.tethered.wp_setBus hlt' hvalid').mpr
      ((ht.reconnect hlt' hbelow hvalid').congr fun q _ => ?_)
    by_cases hq : q = p <;> simp [hq]
  · refine ⟨m, ht.congr fun p hbelow => ?_, hm, rfl⟩
    have hdriver : s.state.portDriver? p = ω p := by rw [hover.portDriver?, hbelow, Option.none_or]
    unfold redirect
    by_cases hp : ω p = some source
    · rw [if_pos hp, if_pos ((hmem p).mpr (hdriver.trans hp))]
    · rw [if_neg hp, if_neg fun h => hp (hdriver.symm.trans ((hmem p).mp h))]

end

end DataflowSynth.Netlist
