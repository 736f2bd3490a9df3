/-
Netlists under further connections.

A part that is built into a netlist refers to itself only, until it is connected.  So it can be looked
at in a netlist in which nothing else is connected.  `Overlays` says that a netlist is such a one with
further connections.  Those reach every port that nothing drives below, so a connection that is made
below is the same above; what a bus drives is left to the two sides of every connection, which agree.
-/
import DataflowSynth.Proofs.Netlist.Changes

namespace DataflowSynth

open Build

namespace Arena

variable {k : HandleKind} {α β : Type}

/-- Arenas that have something in the same places are of one size. -/
theorem size_eq_of_isSome {a : Arena k α} {b : Arena k β}
    (h : ∀ h, (a.get? h).isSome = (b.get? h).isSome) : a.size = b.size := by
  have hle : ∀ {α β : Type} {a : Arena k α} {b : Arena k β},
      (∀ h, (a.get? h).isSome = (b.get? h).isSome) → a.size ≤ b.size := by
    intro α β a b h
    refine Nat.le_of_not_lt fun hlt => ?_
    obtain ⟨x, hx⟩ := exists_get? (h := b.next) hlt
    have hnone : b.get? b.next = none := get?_of_size_le (Nat.le_refl _)
    simpa [hx, hnone] using h b.next
  exact Nat.le_antisymm (hle h) (hle fun g => (h g).symm)

/-- The arena with something else in every place. -/
def map (a : Arena k α) (f : α → β) : Arena k β := ⟨a.cells.map f⟩

@[simp] theorem get?_map (a : Arena k α) (f : α → β) (h : Handle k) :
    (a.map f).get? h = (a.get? h).map f := by
  simp [map, get?]

@[simp] theorem size_map (a : Arena k α) (f : α → β) : (a.map f).size = a.size := by
  simp [map, size]

end Arena

namespace Netlist

variable {n n' : Netlist}

/-! ### Drivers and fan-outs -/

/-- What drives a port. -/
def portDriver? (n : Netlist) (p : PortId) : Option BusId := (n.ports.get? p).bind Port.bus

/-- The ports that a bus drives. -/
def sinks (n : Netlist) (b : BusId) : List PortId := ((n.buses.get? b).map Bus.ports).getD []

/-- A port is in the fan-out of the bus that drives it, and in no other. -/
def Tethered (n : Netlist) : Prop :=
  ∀ p b, (∃ y, n.ports.get? p = some y ∧ y.bus = some b) ↔
    ∃ z, n.buses.get? b = some z ∧ p ∈ z.ports

theorem Linked.tethered {pins : Nat} (h : Linked pins {} n) : n.Tethered := by
  intro p b
  constructor
  · rintro ⟨y, hy, hb⟩
    have hl := h.ports p y hy (Nat.zero_le _)
    obtain ⟨z, hz⟩ := Arena.exists_get? ((Port.forall_refs.mp hl.refs).2.1 b hb).2
    exact ⟨z, hz, hl.bus b hb z hz⟩
  · rintro ⟨z, hz, hp⟩
    have hl := h.buses b z hz (Nat.zero_le _)
    obtain ⟨y, hy⟩ := Arena.exists_get? ((Bus.forall_refs.mp hl.refs).2.1 p hp).2
    exact ⟨y, hy, hl.ports p hp y hy⟩

theorem portDriver?_eq_some {p : PortId} {b : BusId} :
    n.portDriver? p = some b ↔ ∃ y, n.ports.get? p = some y ∧ y.bus = some b :=
  Option.bind_eq_some_iff

theorem mem_sinks {p : PortId} {b : BusId} :
    p ∈ n.sinks b ↔ ∃ z, n.buses.get? b = some z ∧ p ∈ z.ports := by
  cases hz : n.buses.get? b <;> simp [sinks, hz]

theorem tethered_iff : n.Tethered ↔ ∀ p b, n.portDriver? p = some b ↔ p ∈ n.sinks b := by
  simp only [Tethered, portDriver?_eq_some, mem_sinks]

theorem Tethered.mem_sinks_iff (h : n.Tethered) {p : PortId} {b : BusId} :
    p ∈ n.sinks b ↔ n.portDriver? p = some b := (tethered_iff.mp h p b).symm

theorem Tethered.congr (h : n.Tethered) (hdrivers : ∀ p, n'.portDriver? p = n.portDriver? p)
    (hsinks : ∀ b, n'.sinks b = n.sinks b) : n'.Tethered :=
  tethered_iff.mpr fun p b => by rw [hdrivers, hsinks, h.mem_sinks_iff]

/-- What drives a port is there. -/
theorem Tethered.lt_of_driver (h : n.Tethered) {p : PortId} {b : BusId}
    (hp : n.portDriver? p = some b) : b.index < n.buses.size := by
  obtain ⟨z, hz, -⟩ := mem_sinks.mp (h.mem_sinks_iff.mpr hp)
  exact Arena.lt_of_get? hz

/-- The netlist with another driver at a port. -/
def reconnect (n : Netlist) (p : PortId) (new : Option BusId) : Netlist :=
  { n with
    buses := movePort n.buses p (n.portDriver? p) new
    ports := n.ports.modify p fun y => { y with bus := new } }

theorem portDriver?_reconnect {p : PortId} (hp : p.index < n.ports.size) (new : Option BusId)
    (q : PortId) : (n.reconnect p new).portDriver? q = if q = p then new else n.portDriver? q := by
  obtain ⟨y, hy⟩ := Arena.exists_get? hp
  by_cases hq : q = p
  · subst hq
    simp [portDriver?, reconnect, Arena.get?_modify, hy]
  · simp [portDriver?, reconnect, Arena.get?_modify, hq]

theorem Tethered.reconnect (h : n.Tethered) {p : PortId} (hp : p.index < n.ports.size)
    {new : Option BusId} (hnew : ∀ b, new = some b → b.index < n.buses.size) :
    (n.reconnect p new).Tethered := by
  refine tethered_iff.mpr fun q b => ?_
  have hsinks : q ∈ (n.reconnect p new).sinks b ↔
      (q ∈ n.sinks b ∧ (n.portDriver? p = some b → q ≠ p)) ∨ (new = some b ∧ q = p) := by
    simp only [sinks, Netlist.reconnect, get?_movePort, Option.map_map]
    cases hz : n.buses.get? b with
    | none =>
        have hne : new ≠ some b := by
          intro heq
          obtain ⟨z, hz'⟩ := Arena.exists_get? (hnew b heq)
          simp [hz] at hz'
        simp [hne]
    | some z => exact Bus.mem_ports_moved
  rw [hsinks, portDriver?_reconnect hp, h.mem_sinks_iff]
  by_cases hq : q = p
  · subst hq
    simp only [if_true, ne_eq, not_true_eq_false, imp_false, and_not_self, false_or, and_true]
  · simp [hq]

theorem Tethered.wp_setBus {Q : Unit → Traced Netlist → Prop}
    {F : Failure → Traced Netlist → Prop} {s : Traced Netlist} (h : s.state.Tethered) {p : PortId}
    (hp : p.index < s.state.ports.size) {new : Option BusId}
    (hnew : ∀ b, new = some b → b.index < s.state.buses.size) :
    wp (setBus p new) Q F s ↔ Q () (moved s (s.state.reconnect p new)) := by
  obtain ⟨y, hy⟩ := Arena.exists_get? hp
  have hdriver : s.state.portDriver? p = y.bus := by simp [portDriver?, hy]
  rw [Netlist.reconnect, hdriver]
  exact Netlist.wp_setBus hy (fun b hb => h.lt_of_driver (hdriver.trans hb)) hnew

/-! ### Overlays -/

def Port.drivenBy (y : Port) (d : Option BusId) : Port := { y with bus := d }

def Bus.driving (z : Bus) (ps : List PortId) : Bus := { z with ports := ps }

/-- `n` is `m` with further connections: `ω` tells what drives the ports that nothing drives in `m`. -/
structure Overlays (ω : PortId → Option BusId) (m n : Netlist) : Prop where
  components : n.components = m.components
  exits : n.exits = m.exits
  entries : n.entries = m.entries
  names : n.names = m.names
  ports : ∀ p, n.ports.get? p = (m.ports.get? p).map fun y => y.drivenBy (y.bus.or (ω p))
  buses : ∀ b, (n.buses.get? b).map (·.driving []) = (m.buses.get? b).map (·.driving [])
  ahead : ∀ p, m.ports.size ≤ p.index → ω p = none
  tethered : n.Tethered

variable {ω : PortId → Option BusId} {m : Netlist}

namespace Overlays

section

variable (h : Overlays ω m n)

include h

theorem size_ports : n.ports.size = m.ports.size :=
  Arena.size_eq_of_isSome fun p => by rw [h.ports, Option.isSome_map]

theorem size_buses : n.buses.size = m.buses.size :=
  Arena.size_eq_of_isSome fun b => by
    simpa using congrArg Option.isSome (h.buses b)

theorem portDriver? (p : PortId) : n.portDriver? p = (m.portDriver? p).or (ω p) := by
  rw [Netlist.portDriver?, h.ports, Netlist.portDriver?]
  cases hy : m.ports.get? p with
  | some y => rfl
  | none =>
      have hle : m.ports.size ≤ p.index := by
        refine Nat.le_of_not_lt fun hlt => ?_
        obtain ⟨y, hy'⟩ := Arena.exists_get? hlt
        simp [hy] at hy'
      simp [h.ahead p hle]

end

/-- Nothing that shows what is connected has changed. -/
theorem evolve (h : Overlays ω m n) {m' : Netlist} (hcomponents : n'.components = m'.components)
    (hexits : n'.exits = m'.exits) (hentries : n'.entries = m'.entries)
    (hnames : n'.names = m'.names)
    (hports : ∀ p, n'.ports.get? p = (m'.ports.get? p).map fun y => y.drivenBy (y.bus.or (ω p)))
    (hbuses : ∀ b, (n'.buses.get? b).map (·.driving []) = (m'.buses.get? b).map (·.driving []))
    (hsize : m.ports.size ≤ m'.ports.size) (hdrivers : ∀ p, n'.portDriver? p = n.portDriver? p)
    (hsinks : ∀ b, n'.sinks b = n.sinks b) : Overlays ω m' n' where
  components := hcomponents
  exits := hexits
  entries := hentries
  names := hnames
  ports := hports
  buses := hbuses
  ahead p hp := h.ahead p (Nat.le_trans hsize hp)
  tethered := h.tethered.congr hdrivers hsinks

/-- A port that nothing drives below gets another driver above. -/
theorem reconnect (h : Overlays ω m n) {p : PortId} (hp : p.index < n.ports.size)
    (hfree : m.portDriver? p = none) {d : Option BusId}
    (hd : ∀ b, d = some b → b.index < n.buses.size) :
    Overlays (Function.update ω p d) m (n.reconnect p d) where
  components := h.components
  exits := h.exits
  entries := h.entries
  names := h.names
  ports q := by
    simp only [Netlist.reconnect, Arena.get?_modify, h.ports]
    by_cases hq : q = p
    · subst hq
      cases hy : m.ports.get? q with
      | none => simp
      | some y =>
          have hnone : y.bus = none := by simpa [Netlist.portDriver?, hy] using hfree
          simp [Port.drivenBy, hnone]
    · rw [if_neg hq, Function.update_of_ne hq]
  buses b := by
    simp only [Netlist.reconnect, get?_movePort, Option.map_map, ← h.buses]
    rfl
  ahead q hq := by
    have hne : q ≠ p := by
      rintro rfl
      rw [h.size_ports] at hp
      exact absurd hp (Nat.not_lt_of_le hq)
    rw [Function.update_of_ne hne, h.ahead q hq]
  tethered := h.tethered.reconnect hp hd

/-- What is said of ports that something drives below does not matter. -/
theorem congr {ω' : PortId → Option BusId} (h : Overlays ω m n)
    (heq : ∀ p, m.portDriver? p = none → ω' p = ω p) : Overlays ω' m n where
  components := h.components
  exits := h.exits
  entries := h.entries
  names := h.names
  ports p := by
    rw [h.ports]
    cases hy : m.ports.get? p with
    | none => rfl
    | some y =>
        cases hbus : y.bus with
        | some b => simp [hbus]
        | none => simp [hbus, heq p (by simp [Netlist.portDriver?, hy, hbus])]
  buses := h.buses
  ahead p hp := by
    rw [heq p (by simp [Netlist.portDriver?, Arena.get?_of_size_le hp]), h.ahead p hp]
  tethered := h.tethered

end Overlays

/-- The netlist with nothing connected. -/
def unconnected (n : Netlist) : Netlist :=
  { n with
    ports := n.ports.map (·.drivenBy none)
    buses := n.buses.map (·.driving []) }

theorem portDriver?_unconnected (n : Netlist) (p : PortId) : n.unconnected.portDriver? p = none := by
  cases hy : n.ports.get? p <;> simp [portDriver?, unconnected, hy, Port.drivenBy]

theorem overlays_unconnected (h : n.Tethered) : Overlays n.portDriver? n.unconnected n where
  components := rfl
  exits := rfl
  entries := rfl
  names := rfl
  ports p := by
    cases hy : n.ports.get? p <;> simp [unconnected, portDriver?, hy, Port.drivenBy]
  buses b := by
    cases hz : n.buses.get? b <;> simp [unconnected, hz, Bus.driving]
  ahead p hp := by
    simp only [unconnected, Arena.size_map] at hp
    simp [portDriver?, Arena.get?_of_size_le hp]
  tethered := h

/-- Connections can be left out of a linked netlist. -/
theorem Linked.unconnected {pins : Nat} (h : Linked pins {} n) : Linked pins {} n.unconnected := by
  have hports : ∀ p y', n.unconnected.ports.get? p = some y' →
      ∃ y, n.ports.get? p = some y ∧ y.drivenBy none = y' := fun p y' hy' => by
    simpa [Netlist.unconnected] using hy'
  have hbuses : ∀ b z', n.unconnected.buses.get? b = some z' →
      ∃ z, n.buses.get? b = some z ∧ z.driving [] = z' := fun b z' hz' => by
    simpa [Netlist.unconnected] using hz'
  have hsame : SameOwners n n.unconnected := by
    refine ⟨⟨Nat.le_refl _, Nat.le_of_eq (Arena.size_map ..).symm,
      Nat.le_of_eq (Arena.size_map ..).symm, Nat.le_refl _, Nat.le_refl _⟩, ?_, ?_, ?_, ?_⟩
    · intro p y y' hy hy'
      obtain ⟨z, hz, rfl⟩ := hports p y' hy'
      cases hy.symm.trans hz
      rfl
    · intro b z z' hz hz'
      obtain ⟨y, hy, rfl⟩ := hbuses b z' hz'
      cases hz.symm.trans hy
      rfl
    · intro e x x' hx hx'
      cases hx.symm.trans hx'
      exact ⟨rfl, rfl⟩
    · intro e x x' hx hx'
      cases hx.symm.trans hx'
      rfl
  have hgrows := hsame.grows
  refine ⟨⟨h.keeps.components, ?_, ?_, h.keeps.exits, h.keeps.entries⟩, ?_, ?_, ?_, ?_, ?_⟩
  · exact ⟨Nat.zero_le _, fun p hp => absurd hp (Nat.not_lt_zero _)⟩
  · exact ⟨Nat.zero_le _, fun b hb => absurd hb (Nat.not_lt_zero _)⟩
  · exact fun c x hx hle => (h.components c x hx hle).transfer hsame
  · intro p y' hy' hle
    obtain ⟨y, hy, rfl⟩ := hports p y' hy'
    obtain ⟨howner, -, hpeer⟩ := Port.forall_refs.mp (h.ports p y hy hle).refs
    exact ⟨Port.forall_refs.mpr ⟨howner.mono hgrows, nofun, fun b hb => (hpeer b hb).mono hgrows⟩, nofun⟩
  · intro b z' hz' hle
    obtain ⟨z, hz, rfl⟩ := hbuses b z' hz'
    obtain ⟨howner, -, hpeer⟩ := Bus.forall_refs.mp (h.buses b z hz hle).refs
    exact ⟨Bus.forall_refs.mpr ⟨howner.mono hgrows, nofun, fun p hp => (hpeer p hp).mono hgrows⟩, nofun,
      .nil⟩
  · exact fun e x hx hle => (h.exits e x hx hle).transfer hsame
  · exact fun e x hx hle r hr => (h.entries e x hx hle r hr).mono hgrows

end Netlist

end DataflowSynth
