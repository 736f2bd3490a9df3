/-
What lies inside a component.

The exits, buses and ports of a component and of all it owns lie inside it.  Once everything has been
copied, the correspondence knows all of them, and different ports have different copies.
-/
import DataflowSynth.Proofs.Clone.Injection

namespace DataflowSynth.Netlist

variable {pins lo hi : Nat} {n t : Netlist} {c d copy : ComponentId} {map : Correspondence}

/-- The exit is one that `c`, or something it owns, has. -/
def ExitInside (n : Netlist) (c : ComponentId) (e : ExitId) : Prop :=
  ∃ d x, Part n c d ∧ n.components.get? d = some x ∧ e ∈ x.exits.values

def BusInside (n : Netlist) (c : ComponentId) (b : BusId) : Prop :=
  ∃ e y, ExitInside n c e ∧ n.exits.get? e = some y ∧ b ∈ y.buses

def PortInside (n : Netlist) (c : ComponentId) (p : PortId) : Prop :=
  ∃ d x, Part n c d ∧ n.components.get? d = some x ∧ p ∈ x.ports

/-- `x` is something that `c` owns. -/
def Within (n : Netlist) (c d : ComponentId) (x : Component) : Prop :=
  Part n c d ∧ d ≠ c ∧ n.components.get? d = some x

/-- What `c` owns is driven and entered from inside. -/
structure Enclosed (n : Netlist) (c : ComponentId) : Prop where
  drivers : ∀ d x, Within n c d x → ∀ p ∈ x.ports, ∀ y, n.ports.get? p = some y →
    ∀ b, y.bus = some b → BusInside n c b
  exits : ∀ d x, Within n c d x → ∀ i ∈ x.entries, ∀ y, n.entries.get? i = some y →
    ∀ e, y.drivingExit = some e → ExitInside n c e
  dependencies : ∀ d x, Within n c d x → ∀ i ∈ x.entries, ∀ y, n.entries.get? i = some y →
    ∀ a ∈ y.toList, BusInside n c a.2.bus

/-- Entries of what `c` owns bind ports inside. -/
def BindsInside (n : Netlist) (c : ComponentId) : Prop :=
  ∀ d x, Within n c d x → ∀ i ∈ x.entries, ∀ y, n.entries.get? i = some y →
    ∀ a ∈ y.toList, PortInside n c a.1

/-! ### What the correspondence knows -/

section

variable (hl : Linked pins n t) (hdone : Done n t map lo hi (Part n c))

include hl hdone

theorem Done.exit {e : ExitId} (he : ExitInside n c e) :
    ∃ e' y y', map.exits[e]? = some e' ∧ Ref.New n t (.exit e') ∧ n.exits.get? e = some y ∧
      t.exits.get? e' = some y' ∧ List.Forall₂ (BusTwin n t map) y.buses y'.buses := by
  obtain ⟨d, x, hd, hx, hmem⟩ := he
  obtain ⟨a, ha, rfl⟩ := OrderedMap.mem_values.mp hmem
  obtain ⟨d', -, -, -, hnew, z, x', hz, hx', htwin⟩ := hdone d hd
  cases hx.symm.trans hz
  obtain ⟨b, hb, -, hmap, y, y', hy, hy', -, hbuses⟩ := exists_of_forall₂ htwin.exits ha
  exact ⟨b.2, y, y', hmap, hl.exit_new hx' hnew.1 (OrderedMap.mem_values.mpr ⟨b, hb, rfl⟩), hy, hy',
    hbuses⟩

theorem Done.bus {b : BusId} (hb : BusInside n c b) :
    ∃ b', map.buses[b]? = some b' ∧ Ref.New n t (.bus b') := by
  obtain ⟨e, y, he, hy, hmem⟩ := hb
  obtain ⟨e', w, y', -, hnew, hw, hy', hbuses⟩ := hdone.exit hl he
  cases hy.symm.trans hw
  obtain ⟨b', hmem', htwin⟩ := exists_of_forall₂ hbuses hmem
  exact ⟨b', htwin.1, (Exit.forall_refs.mp (hl.exits e' y' hy' hnew.1).refs).2.1 b' hmem'⟩

theorem Done.port {p : PortId} (hp : PortInside n c p) :
    ∃ p', map.ports[p]? = some p' ∧ Ref.New n t (.port p') := by
  obtain ⟨d, x, hd, hx, hmem⟩ := hp
  obtain ⟨d', -, -, -, hnew, z, x', hz, hx', htwin⟩ := hdone d hd
  cases hx.symm.trans hz
  obtain ⟨p', hmem', hport⟩ := exists_of_forall₂ htwin.ports hmem
  refine ⟨p', hport.1, ?_⟩
  exact (Component.forall_refs.mp (hl.components d' x' hx' hnew.1).refs).2.1 p' hmem'

/-- Different ports inside have different copies. -/
theorem Done.ports_injective (hs : Shaped n t)
    (hinj : ∀ d₁ d₂ d', Part n c d₁ → Part n c d₂ → map.components.find? d₁ = some d' →
      map.components.find? d₂ = some d' → d₁ = d₂)
    {p₁ p₂ p' : PortId} (h₁ : PortInside n c p₁) (h₂ : PortInside n c p₂)
    (hp₁ : map.ports[p₁]? = some p') (hp₂ : map.ports[p₂]? = some p') : p₁ = p₂ := by
  -- The copy of a port belongs to the copy of its owner.
  have howner : ∀ {d x p}, Part n c d → n.components.get? d = some x → p ∈ x.ports →
      map.ports[p]? = some p' → ∃ d' x', map.components.find? d = some d' ∧
        n.components.size ≤ d'.index ∧ t.components.get? d' = some x' ∧
        List.Forall₂ (PortTwin n t map) x.ports x'.ports ∧
        ∃ y, t.ports.get? p' = some y ∧ y.owner = d' := by
    intro d x p hd hx hp hmap
    obtain ⟨d', hfound, -, -, hnew, z, x', hz, hx', htwin⟩ := hdone d hd
    cases hx.symm.trans hz
    obtain ⟨q, hq, hport⟩ := exists_of_forall₂ htwin.ports hp
    cases hmap.symm.trans hport.1
    obtain ⟨-, _, y', -, hy', -⟩ := hport
    exact ⟨d', x', hfound, hnew.1, hx', htwin.ports, y', hy',
      (hl.components d' x' hx' hnew.1).ports p' hq y' hy'⟩
  obtain ⟨d₁, x₁, hd₁, hx₁, hmem₁⟩ := h₁
  obtain ⟨d₂, x₂, hd₂, hx₂, hmem₂⟩ := h₂
  obtain ⟨d', x', hfound₁, hle, hx', hports, y, hy, hown₁⟩ := howner hd₁ hx₁ hmem₁ hp₁
  obtain ⟨d'', _, hfound₂, -, -, -, y₂, hy₂, hown₂⟩ := howner hd₂ hx₂ hmem₂ hp₂
  cases hy.symm.trans hy₂
  obtain rfl : d' = d'' := hown₁.symm.trans hown₂
  obtain rfl := hinj d₁ d₂ d' hd₁ hd₂ hfound₁ hfound₂
  cases hx₁.symm.trans hx₂
  refine eq_of_forall₂ (P := fun p q => map.ports[p]? = some q) (hports.imp fun _ _ h => h.1)
    (hs.components d' x' hx' hle).nodup (fun _ _ _ hb hb' => Option.some.inj (hb.symm.trans hb'))
    hmem₁ hmem₂ hp₁ hp₂

end

end DataflowSynth.Netlist
