/-
What links a netlist together.

Almost everything in a netlist is written down twice: a port knows the bus that drives it, and the bus
knows its ports; an exit knows its component, and the component its exits.  A netlist is `Linked` when
the two sides agree and every handle in it stands for something.

All of it is said relative to a base, a netlist from which this one has grown.  What the base had has
not changed since, and what is new refers to new things only.  From the empty base this is a statement
about the whole netlist.  From the netlist before some step it is at the same time a frame: the step
has touched nothing that was there.
-/
import DataflowSynth.Netlist.Basic
import DataflowSynth.Proofs.Netlist.Arena
import DataflowSynth.Proofs.OrderedMap

namespace DataflowSynth

namespace Netlist

/-! ### Handles in records -/

/-- A handle of any kind. -/
inductive Ref where
  | component (c : ComponentId)
  | port (p : PortId)
  | bus (b : BusId)
  | exit (x : ExitId)
  | entry (e : EntryId)

def Port.refs (y : Port) : List Ref :=
  .component y.owner :: (y.bus.toList ++ y.peer.toList).map .bus

def Bus.refs (z : Bus) : List Ref := .exit z.owner :: (z.ports ++ z.peer.toList).map .port

def Exit.refs (x : Exit) : List Ref :=
  .component x.owner :: x.buses.map .bus ++ x.peer.toList.map .component

def Entry.refs (e : Entry) : List Ref :=
  .component e.owner :: e.drivingExit.toList.map .exit ++
    e.dependencies.entries.flatMap fun d => .port d.1 :: d.2.map fun d => .bus d.bus

def Interior.refs (i : Interior) : List Ref :=
  (i.inBuf :: i.children ++ i.feedback).map .component

/-- The handles of a component, but for those in its kind. -/
def Component.refs (x : Component) : List Ref :=
  x.owner.toList.map .component ++ x.ports.map .port ++ x.exits.values.map .exit ++
    x.entries.map .entry ++ (x.interior.map Interior.refs).getD []

section

variable {P : Ref → Prop}

theorem Port.forall_refs {y : Port} : (∀ r ∈ y.refs, P r) ↔
    P (.component y.owner) ∧ (∀ b, y.bus = some b → P (.bus b)) ∧
      ∀ b, y.peer = some b → P (.bus b) := by
  simp [refs, or_imp, forall_and]

theorem Bus.forall_refs {z : Bus} : (∀ r ∈ z.refs, P r) ↔
    P (.exit z.owner) ∧ (∀ p ∈ z.ports, P (.port p)) ∧ ∀ p, z.peer = some p → P (.port p) := by
  simp [refs, or_imp, forall_and]

theorem Exit.forall_refs {x : Exit} : (∀ r ∈ x.refs, P r) ↔
    P (.component x.owner) ∧ (∀ b ∈ x.buses, P (.bus b)) ∧
      ∀ c, x.peer = some c → P (.component c) := by
  simp [refs, or_imp, forall_and]

theorem Entry.forall_refs {e : Entry} : (∀ r ∈ e.refs, P r) ↔
    P (.component e.owner) ∧ (∀ x, e.drivingExit = some x → P (.exit x)) ∧
      ∀ d ∈ e.dependencies.entries, P (.port d.1) ∧ ∀ b ∈ d.2, P (.bus b.bus) := by
  simp only [refs, List.cons_append, List.forall_mem_cons, List.forall_mem_append,
    List.forall_mem_map, List.mem_flatMap, Option.mem_toList]
  constructor
  · rintro ⟨howner, hexit, hdeps⟩
    exact ⟨howner, hexit, fun d hd => ⟨hdeps _ ⟨d, hd, by simp⟩, fun b hb =>
      hdeps _ ⟨d, hd, List.mem_cons_of_mem _ (List.mem_map_of_mem hb)⟩⟩⟩
  · rintro ⟨howner, hexit, hdeps⟩
    refine ⟨howner, hexit, ?_⟩
    rintro r ⟨d, hd, hr⟩
    rcases List.mem_cons.mp hr with rfl | hr
    · exact (hdeps d hd).1
    · obtain ⟨b, hb, rfl⟩ := List.mem_map.mp hr
      exact (hdeps d hd).2 b hb

theorem Interior.forall_refs {i : Interior} : (∀ r ∈ i.refs, P r) ↔
    P (.component i.inBuf) ∧ (∀ c ∈ i.children, P (.component c)) ∧
      ∀ c ∈ i.feedback, P (.component c) := by
  simp [refs, or_imp, forall_and]

theorem Component.forall_refs {x : Component} : (∀ r ∈ x.refs, P r) ↔
    (∀ o, x.owner = some o → P (.component o)) ∧ (∀ p ∈ x.ports, P (.port p)) ∧
      (∀ e ∈ x.exits.values, P (.exit e)) ∧ (∀ e ∈ x.entries, P (.entry e)) ∧
      ∀ i, x.interior = some i → ∀ r ∈ i.refs, P r := by
  cases hi : x.interior <;> simp [refs, hi, or_imp, forall_and]

end

/-- The components that a kind names. -/
def ComponentKind.components : ComponentKind → List ComponentId
  | .module (.task body) => [body]
  | .memoryRead _ (some physical) => [physical]
  | _ => []

/-- The pins that a kind names. -/
def ComponentKind.pins : ComponentKind → List PinId
  | .pinRead pin | .pinWrite pin => [pin]
  | _ => []

/-- The kind names components that are there, and pins of a design with so many. -/
structure ComponentKind.Fits (pins : Nat) (n : Netlist) (kind : ComponentKind) : Prop where
  components : ∀ c ∈ kind.components, c.index < n.components.size
  pins : ∀ p ∈ kind.pins, p.index < pins

/-- The handle stands for something that `n` has and `base` has not. -/
def Ref.New (base n : Netlist) : Ref → Prop
  | .component c => base.components.Adds n.components c
  | .port p => base.ports.Adds n.ports p
  | .bus b => base.buses.Adds n.buses b
  | .exit x => base.exits.Adds n.exits x
  | .entry e => base.entries.Adds n.entries e

end Netlist

/-! ### Growth -/

namespace Netlist

/-- Everything in `n` is in `n'` as it was. -/
structure Keeps (n n' : Netlist) : Prop where
  components : n.components.Keeps n'.components
  ports : n.ports.Keeps n'.ports
  buses : n.buses.Keeps n'.buses
  exits : n.exits.Keeps n'.exits
  entries : n.entries.Keeps n'.entries

/-- `n'` has room for everything in `n`. -/
structure Grows (n n' : Netlist) : Prop where
  components : n.components.size ≤ n'.components.size
  ports : n.ports.size ≤ n'.ports.size
  buses : n.buses.size ≤ n'.buses.size
  exits : n.exits.size ≤ n'.exits.size
  entries : n.entries.size ≤ n'.entries.size

variable {pins : Nat} {base n n' n'' : Netlist}

theorem Keeps.refl (n : Netlist) : n.Keeps n := ⟨.refl _, .refl _, .refl _, .refl _, .refl _⟩

theorem Keeps.trans (h : n.Keeps n') (h' : n'.Keeps n'') : n.Keeps n'' :=
  ⟨h.components.trans h'.components, h.ports.trans h'.ports, h.buses.trans h'.buses,
    h.exits.trans h'.exits, h.entries.trans h'.entries⟩

theorem Keeps.grows (h : n.Keeps n') : n.Grows n' :=
  ⟨h.components.size, h.ports.size, h.buses.size, h.exits.size, h.entries.size⟩

theorem Grows.refl (n : Netlist) : n.Grows n := (Keeps.refl n).grows

theorem Grows.trans (h : n.Grows n') (h' : n'.Grows n'') : n.Grows n'' :=
  ⟨Nat.le_trans h.components h'.components, Nat.le_trans h.ports h'.ports,
    Nat.le_trans h.buses h'.buses, Nat.le_trans h.exits h'.exits,
    Nat.le_trans h.entries h'.entries⟩

theorem Ref.New.mono {r : Ref} (h : r.New base n) (hg : n.Grows n') : r.New base n' := by
  cases r with
  | component c => exact ⟨h.1, Nat.lt_of_lt_of_le h.2 hg.components⟩
  | port p => exact ⟨h.1, Nat.lt_of_lt_of_le h.2 hg.ports⟩
  | bus b => exact ⟨h.1, Nat.lt_of_lt_of_le h.2 hg.buses⟩
  | exit x => exact ⟨h.1, Nat.lt_of_lt_of_le h.2 hg.exits⟩
  | entry e => exact ⟨h.1, Nat.lt_of_lt_of_le h.2 hg.entries⟩

theorem Ref.New.rebase {r : Ref} (h : r.New n n') (hg : base.Grows n) : r.New base n' := by
  cases r with
  | component c => exact ⟨Nat.le_trans hg.components h.1, h.2⟩
  | port p => exact ⟨Nat.le_trans hg.ports h.1, h.2⟩
  | bus b => exact ⟨Nat.le_trans hg.buses h.1, h.2⟩
  | exit x => exact ⟨Nat.le_trans hg.exits h.1, h.2⟩
  | entry e => exact ⟨Nat.le_trans hg.entries h.1, h.2⟩

theorem ComponentKind.Fits.mono {kind : ComponentKind} (h : kind.Fits pins n) (hg : n.Grows n') :
    kind.Fits pins n' :=
  ⟨fun c hc => Nat.lt_of_lt_of_le (h.components c hc) hg.components, h.pins⟩

/-! ### Links -/

structure ComponentLinked (pins : Nat) (base n : Netlist) (c : ComponentId) (x : Component) :
    Prop where
  refs : ∀ r ∈ x.refs, r.New base n
  kind : x.kind.Fits pins n
  ports : ∀ p ∈ x.ports, ∀ y, n.ports.get? p = some y → y.owner = c
  exits : ∀ e ∈ x.exits.entries, ∀ y, n.exits.get? e.2 = some y → y.owner = c ∧ y.tag = e.1
  entries : ∀ e ∈ x.entries, ∀ y, n.entries.get? e = some y → y.owner = c

structure PortLinked (base n : Netlist) (p : PortId) (y : Port) : Prop where
  refs : ∀ r ∈ y.refs, r.New base n
  bus : ∀ b, y.bus = some b → ∀ z, n.buses.get? b = some z → p ∈ z.ports

structure BusLinked (base n : Netlist) (b : BusId) (z : Bus) : Prop where
  refs : ∀ r ∈ z.refs, r.New base n
  ports : ∀ p ∈ z.ports, ∀ y, n.ports.get? p = some y → y.bus = some b
  nodup : z.ports.Nodup

structure ExitLinked (base n : Netlist) (e : ExitId) (x : Exit) : Prop where
  refs : ∀ r ∈ x.refs, r.New base n
  buses : ∀ b ∈ x.buses, ∀ z, n.buses.get? b = some z → z.owner = e

/-- The netlist has grown from `base`, and all that is new is linked. -/
structure Linked (pins : Nat) (base n : Netlist) : Prop where
  keeps : base.Keeps n
  components : ∀ c x, n.components.get? c = some x → base.components.size ≤ c.index →
    ComponentLinked pins base n c x
  ports : ∀ p y, n.ports.get? p = some y → base.ports.size ≤ p.index → PortLinked base n p y
  buses : ∀ b z, n.buses.get? b = some z → base.buses.size ≤ b.index → BusLinked base n b z
  exits : ∀ e x, n.exits.get? e = some x → base.exits.size ≤ e.index → ExitLinked base n e x
  entries : ∀ e x, n.entries.get? e = some x → base.entries.size ≤ e.index →
    ∀ r ∈ x.refs, r.New base n

/-- Pins that are added do no harm. -/
theorem Linked.morePins {pins' : Nat} (h : Linked pins base n) (hle : pins ≤ pins') :
    Linked pins' base n :=
  { h with
    components := fun c x hx hc =>
      have hl := h.components c x hx hc
      { hl with kind := ⟨hl.kind.components, fun p hp => Nat.lt_of_lt_of_le (hl.kind.pins p hp) hle⟩ } }

theorem Linked.refl (pins : Nat) (n : Netlist) : Linked pins n n where
  keeps := .refl n
  components _ _ hx hle := absurd hle (Nat.not_le_of_lt (Arena.lt_of_get? hx))
  ports _ _ hx hle := absurd hle (Nat.not_le_of_lt (Arena.lt_of_get? hx))
  buses _ _ hx hle := absurd hle (Nat.not_le_of_lt (Arena.lt_of_get? hx))
  exits _ _ hx hle := absurd hle (Nat.not_le_of_lt (Arena.lt_of_get? hx))
  entries _ _ hx hle := absurd hle (Nat.not_le_of_lt (Arena.lt_of_get? hx))

/-! ### What is referred to is there -/

theorem ComponentLinked.next_not_mem {c : ComponentId} {x : Component}
    (h : ComponentLinked pins base n c x) : n.ports.next ∉ x.ports := by
  intro hmem
  have hlt := ((Component.forall_refs.mp h.refs).2.1 _ hmem).2
  simp at hlt

theorem ExitLinked.next_not_mem {e : ExitId} {y : Exit} (h : ExitLinked base n e y) :
    n.buses.next ∉ y.buses := by
  intro hmem
  have hlt := ((Exit.forall_refs.mp h.refs).2.1 _ hmem).2
  simp at hlt

theorem Linked.outBuf_new (h : Linked pins base n) {e : ExitId} {y : Exit}
    (hy : n.exits.get? e = some y) (he : base.exits.size ≤ e.index) {o : ComponentId}
    (hpeer : y.peer = some o) : Ref.New base n (.component o) :=
  (Exit.forall_refs.mp (h.exits e y hy he).refs).2.2 o hpeer

theorem Linked.go_new (h : Linked pins base n) {c : ComponentId} {x : Component}
    (hx : n.components.get? c = some x) (hc : base.components.size ≤ c.index) :
    Ref.New base n (.port x.go) :=
  (h.components c x hx hc).refs _ (by simp [Component.refs, Component.ports])

/-- The go of an OutBuf is not touched by ports that are added. -/
theorem Linked.go_kept (h : Linked pins base n) {e : ExitId} {y : Exit}
    (hy : n.exits.get? e = some y) (he : base.exits.size ≤ e.index)
    (hk : n.ports.Keeps n'.ports) :
    ∀ o b, y.peer = some o → n.components.get? o = some b →
      n'.ports.get? b.go = n.ports.get? b.go := fun _ _ ho hb =>
  hk.get? _ (h.go_new hb (h.outBuf_new hy he ho).1).2

/-! ### Steps that leave links alone -/

/-- What both have belongs in `n'` to what it belongs to in `n`. -/
structure SameOwners (n n' : Netlist) : Prop where
  grows : n.Grows n'
  ports : ∀ p y y', n.ports.get? p = some y → n'.ports.get? p = some y' → y'.owner = y.owner
  buses : ∀ b z z', n.buses.get? b = some z → n'.buses.get? b = some z' → z'.owner = z.owner
  exits : ∀ e x x', n.exits.get? e = some x → n'.exits.get? e = some x' →
    x'.owner = x.owner ∧ x'.tag = x.tag
  entries : ∀ e x x', n.entries.get? e = some x → n'.entries.get? e = some x' → x'.owner = x.owner

/-- In addition, what is connected in `n` is connected in `n'`. -/
structure SameLinks (n n' : Netlist) : Prop extends SameOwners n n' where
  drivers : ∀ p y y', n.ports.get? p = some y → n'.ports.get? p = some y' → y'.bus = y.bus
  sinks : ∀ b z z', n.buses.get? b = some z → n'.buses.get? b = some z' → z'.ports = z.ports

theorem SameLinks.of_keeps (h : n.Keeps n') : SameLinks n n' where
  grows := h.grows
  ports p y y' hy hy' := by
    rw [h.ports.get? p (Arena.lt_of_get? hy), hy] at hy'
    cases hy'
    rfl
  buses b z z' hz hz' := by
    rw [h.buses.get? b (Arena.lt_of_get? hz), hz] at hz'
    cases hz'
    rfl
  exits e x x' hx hx' := by
    rw [h.exits.get? e (Arena.lt_of_get? hx), hx] at hx'
    cases hx'
    exact ⟨rfl, rfl⟩
  entries e x x' hx hx' := by
    rw [h.entries.get? e (Arena.lt_of_get? hx), hx] at hx'
    cases hx'
    rfl
  drivers p y y' hy hy' := by
    rw [h.ports.get? p (Arena.lt_of_get? hy), hy] at hy'
    cases hy'
    rfl
  sinks b z z' hz hz' := by
    rw [h.buses.get? b (Arena.lt_of_get? hz), hz] at hz'
    cases hz'
    rfl

theorem SameLinks.refl (n : Netlist) : SameLinks n n := .of_keeps (.refl n)

theorem ComponentLinked.transfer {c : ComponentId} {x : Component} (hs : SameOwners n n')
    (h : ComponentLinked pins base n c x) : ComponentLinked pins base n' c x where
  refs r hr := (h.refs r hr).mono hs.grows
  kind := h.kind.mono hs.grows
  ports p hp y' hy' := by
    obtain ⟨y, hy⟩ := Arena.exists_get? (h.refs (.port p) (by simp [Component.refs, hp])).2
    rw [hs.ports p y y' hy hy']
    exact h.ports p hp y hy
  exits e he y' hy' := by
    have hmem : e.2 ∈ x.exits.values := List.mem_map_of_mem he
    obtain ⟨y, hy⟩ := Arena.exists_get? (h.refs (.exit e.2) (by simp [Component.refs, hmem])).2
    rw [(hs.exits e.2 y y' hy hy').1, (hs.exits e.2 y y' hy hy').2]
    exact h.exits e he y hy
  entries e he y' hy' := by
    obtain ⟨y, hy⟩ := Arena.exists_get? (h.refs (.entry e) (by simp [Component.refs, he])).2
    rw [hs.entries e y y' hy hy']
    exact h.entries e he y hy

theorem ExitLinked.transfer {e : ExitId} {x : Exit} (hs : SameOwners n n')
    (h : ExitLinked base n e x) : ExitLinked base n' e x where
  refs r hr := (h.refs r hr).mono hs.grows
  buses b hb z' hz' := by
    obtain ⟨z, hz⟩ := Arena.exists_get? (h.refs (.bus b) (by simp [Exit.refs, hb])).2
    rw [hs.buses b z z' hz hz']
    exact h.buses b hb z hz

section

variable (hs : SameLinks n n')

include hs

theorem PortLinked.transfer {p : PortId} {y : Port} (h : PortLinked base n p y) :
    PortLinked base n' p y where
  refs r hr := (h.refs r hr).mono hs.grows
  bus b hb z' hz' := by
    obtain ⟨z, hz⟩ := Arena.exists_get? (h.refs (.bus b) (by simp [Port.refs, hb])).2
    rw [hs.sinks b z z' hz hz']
    exact h.bus b hb z hz

theorem BusLinked.transfer {b : BusId} {z : Bus} (h : BusLinked base n b z) :
    BusLinked base n' b z where
  refs r hr := (h.refs r hr).mono hs.grows
  ports p hp y' hy' := by
    obtain ⟨y, hy⟩ := Arena.exists_get? (h.refs (.port p) (by simp [Bus.refs, hp])).2
    rw [hs.drivers p y y' hy hy']
    exact h.ports p hp y hy
  nodup := h.nodup

/-- A step that leaves links alone has to answer for what it has made or changed only. -/
theorem Linked.evolve (h : Linked pins base n) (hk : base.Keeps n')
    (hcomponents : ∀ c x, n'.components.get? c = some x → base.components.size ≤ c.index →
      n.components.get? c = some x ∨ ComponentLinked pins base n' c x)
    (hports : ∀ p y, n'.ports.get? p = some y → base.ports.size ≤ p.index →
      n.ports.get? p = some y ∨ PortLinked base n' p y)
    (hbuses : ∀ b z, n'.buses.get? b = some z → base.buses.size ≤ b.index →
      n.buses.get? b = some z ∨ BusLinked base n' b z)
    (hexits : ∀ e x, n'.exits.get? e = some x → base.exits.size ≤ e.index →
      n.exits.get? e = some x ∨ ExitLinked base n' e x)
    (hentries : ∀ e x, n'.entries.get? e = some x → base.entries.size ≤ e.index →
      n.entries.get? e = some x ∨ ∀ r ∈ x.refs, r.New base n') : Linked pins base n' where
  keeps := hk
  components c x hx hle :=
    (hcomponents c x hx hle).elim (fun hx => (h.components c x hx hle).transfer hs.toSameOwners)
      id
  ports p y hy hle := (hports p y hy hle).elim (fun hy => (h.ports p y hy hle).transfer hs) id
  buses b z hz hle := (hbuses b z hz hle).elim (fun hz => (h.buses b z hz hle).transfer hs) id
  exits e x hx hle := (hexits e x hx hle).elim (fun hx => (h.exits e x hx hle).transfer hs.toSameOwners) id
  entries e x hx hle := (hentries e x hx hle).elim
    (fun hx r hr => (h.entries e x hx hle r hr).mono hs.grows) id

end

/-- Growth from a base continues from a linked netlist. -/
theorem Linked.trans (h : Linked pins base n) (h' : Linked pins n n') : Linked pins base n' := by
  have hs := SameLinks.of_keeps h'.keeps
  have hg := h.keeps.grows
  -- A handle is either as old as `n`, and what it stands for has not changed, or new there too.
  refine h.evolve hs (h.keeps.trans h'.keeps) ?_ ?_ ?_ ?_ ?_
  · intro c x hx _
    rcases Nat.lt_or_ge c.index n.components.size with hlt | hge
    · exact .inl (h'.keeps.components.get? c hlt ▸ hx)
    · have hl := h'.components c x hx hge
      exact .inr { hl with refs := fun r hr => (hl.refs r hr).rebase hg }
  · intro p y hy _
    rcases Nat.lt_or_ge p.index n.ports.size with hlt | hge
    · exact .inl (h'.keeps.ports.get? p hlt ▸ hy)
    · have hl := h'.ports p y hy hge
      exact .inr ⟨fun r hr => (hl.refs r hr).rebase hg, hl.bus⟩
  · intro b z hz _
    rcases Nat.lt_or_ge b.index n.buses.size with hlt | hge
    · exact .inl (h'.keeps.buses.get? b hlt ▸ hz)
    · have hl := h'.buses b z hz hge
      exact .inr ⟨fun r hr => (hl.refs r hr).rebase hg, hl.ports, hl.nodup⟩
  · intro e x hx _
    rcases Nat.lt_or_ge e.index n.exits.size with hlt | hge
    · exact .inl (h'.keeps.exits.get? e hlt ▸ hx)
    · have hl := h'.exits e x hx hge
      exact .inr ⟨fun r hr => (hl.refs r hr).rebase hg, hl.buses⟩
  · intro e x hx _
    rcases Nat.lt_or_ge e.index n.entries.size with hlt | hge
    · exact .inl (h'.keeps.entries.get? e hlt ▸ hx)
    · exact .inr fun r hr => (h'.entries e x hx hge r hr).rebase hg

end Netlist

end DataflowSynth
