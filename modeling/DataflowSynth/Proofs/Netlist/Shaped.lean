/-
The shape of components and of their boundaries.

A component has one port for each control signal, ports for data, and exits with different tags.  A
module has an InBuf that repeats its ports as buses and, at every exit, an OutBuf with a port for every
bus of the exit.  All of this depends on what belongs to what and on the roles of terminals, but not on
names, signals, marks or connections; `SameShape` says that two netlists differ in those only.

The shape is not kept by steps that add ports, exits or buses to the InBuf or an OutBuf of a module, as
if it were a component like any other.  As in `Linked`, everything is said about what a netlist has
beyond its base.
-/
import DataflowSynth.Proofs.Netlist.Linked

namespace DataflowSynth.Netlist

/-- `m` is the module `x` with the interior `i`. -/
def IsModule (n : Netlist) (m : ComponentId) (x : Component) (i : Interior) : Prop :=
  n.components.get? m = some x ∧ x.interior = some i

/-! ### Buffers -/

/-- The component is the InBuf of a module. -/
def IsInBuf (base n : Netlist) (c : ComponentId) : Prop :=
  ∃ m x i, n.components.get? m = some x ∧ base.components.size ≤ m.index ∧ x.interior = some i ∧
    i.inBuf = c

/-- The component is the OutBuf of an exit. -/
def IsOutBuf (base n : Netlist) (c : ComponentId) : Prop :=
  ∃ e y, n.exits.get? e = some y ∧ base.exits.size ≤ e.index ∧ y.peer = some c

def IsBuffer (base n : Netlist) (c : ComponentId) : Prop := IsInBuf base n c ∨ IsOutBuf base n c

/-! ### Shapes -/

def portRole? (n : Netlist) (p : PortId) : Option PortRole := (n.ports.get? p).map Port.role

def busRole? (n : Netlist) (b : BusId) : Option BusRole := (n.buses.get? b).map Bus.role

/-- The roles of the control buses of an InBuf. -/
def controlRoles (x : Component) : List BusRole :=
  [.clock, .reset] ++ if x.this.isSome then [.this] else []

/-- `b` is the InBuf of the module `c`, and `y` is its exit `e`. -/
structure InBufShaped (n : Netlist) (c : ComponentId) (x : Component) (b : Component) (e : ExitId)
    (y : Exit) : Prop where
  kind : b.kind = .inBuf
  owner : b.owner = some c
  interior : b.interior = none
  this : b.this = none
  dataPorts : b.dataPorts = []
  exits : b.exits.entries = [(.done, e)]
  peer : y.peer = none
  data : y.data.length = x.dataPorts.length
  control : y.control.map n.busRole? = (controlRoles x).map some

structure InteriorShaped (n : Netlist) (c : ComponentId) (x : Component) (i : Interior) : Prop where
  kind : x.kind.isModule = true
  inBuf : ∃ b e y, n.components.get? i.inBuf = some b ∧ n.exits.get? e = some y ∧
    InBufShaped n c x b e y
  nodup : i.children.Nodup
  children : ∀ d ∈ i.children, ∀ y, n.components.get? d = some y → y.owner = some c
  notInBuf : i.inBuf ∉ i.children

structure ComponentShaped (n : Netlist) (c : ComponentId) (x : Component) : Prop where
  nodup : x.ports.Nodup
  clock : n.portRole? x.clock = some .clock
  reset : n.portRole? x.reset = some .reset
  go : n.portRole? x.go = some .go
  this : ∀ p, x.this = some p → n.portRole? p = some .this
  data : ∀ p ∈ x.dataPorts, n.portRole? p = some .data
  tags : x.exits.keys.Nodup
  outBufs : ∀ e ∈ x.exits.values, ∀ y, n.exits.get? e = some y →
    y.peer.isSome = x.interior.isSome
  interior : ∀ i, x.interior = some i → InteriorShaped n c x i

/-- `b` is the OutBuf of the exit `y`. -/
structure OutBufShaped (n : Netlist) (y : Exit) (b : Component) : Prop where
  kind : b.kind = .outBuf
  owner : b.owner = some y.owner
  interior : b.interior = none
  this : b.this = none
  dataPorts : b.dataPorts.length = y.data.length
  exits : b.exits.entries = []
  go : ∀ g, n.ports.get? b.go = some g → g.peer = some y.done

structure ExitShaped (base n : Netlist) (y : Exit) : Prop where
  nodup : y.buses.Nodup
  done : n.busRole? y.done = some .done
  data : ∀ b ∈ y.data, n.busRole? b = some .data
  control : y.control ≠ [] → IsInBuf base n y.owner
  outBuf : ∀ o, y.peer = some o → ∃ b, n.components.get? o = some b ∧ OutBufShaped n y b
  notChild : ∀ o, y.peer = some o → ∀ x i, n.components.get? y.owner = some x →
    x.interior = some i → o ∉ i.children

/-- Everything beyond the base has its shape, and every port is among those of its owner. -/
structure Shaped (base n : Netlist) : Prop where
  components : ∀ c x, n.components.get? c = some x → base.components.size ≤ c.index →
    ComponentShaped n c x
  exits : ∀ e y, n.exits.get? e = some y → base.exits.size ≤ e.index → ExitShaped base n y
  ports : ∀ p y, n.ports.get? p = some y → base.ports.size ≤ p.index →
    ∃ x, n.components.get? y.owner = some x ∧ p ∈ x.ports

theorem Shaped.refl (n : Netlist) : Shaped n n where
  components _ _ hx hle := absurd hle (Nat.not_le_of_lt (Arena.lt_of_get? hx))
  exits _ _ hx hle := absurd hle (Nat.not_le_of_lt (Arena.lt_of_get? hx))
  ports _ _ hx hle := absurd hle (Nat.not_le_of_lt (Arena.lt_of_get? hx))

/-! ### Steps that leave the shape alone -/

/-- The kind without the components that it names. -/
def ComponentKind.plain : ComponentKind → ComponentKind
  | .module (.task _) => .module (.task default)
  | .memoryRead memory _ => .memoryRead memory none
  | kind => kind

def Component.shape (x : Component) : Component :=
  { x with
    name := "", kind := x.kind.plain, entries := [], consumesClock := false, consumesReset := false,
    consumesGo := false, producesDone := false, doneSynchronous := false,
    interior := x.interior.map fun i => { i with feedback := [] } }

def Port.shape (y : Port) : Port := { y with name := "", signal := none, sideband := false, bus := none }

def Bus.shape (z : Bus) : Bus := { z with name := "", signal := none, sideband := false, ports := [] }

def Exit.shape (x : Exit) : Exit := { x with latency := .zero }

structure SameShape (n n' : Netlist) : Prop where
  components : ∀ c, (n'.components.get? c).map Component.shape =
    (n.components.get? c).map Component.shape
  ports : ∀ p, (n'.ports.get? p).map Port.shape = (n.ports.get? p).map Port.shape
  buses : ∀ b, (n'.buses.get? b).map Bus.shape = (n.buses.get? b).map Bus.shape
  exits : ∀ e, (n'.exits.get? e).map Exit.shape = (n.exits.get? e).map Exit.shape

variable {base n n' n'' : Netlist}

theorem SameShape.refl (n : Netlist) : SameShape n n :=
  ⟨fun _ => rfl, fun _ => rfl, fun _ => rfl, fun _ => rfl⟩

theorem SameShape.symm (h : SameShape n n') : SameShape n' n :=
  ⟨fun c => (h.components c).symm, fun p => (h.ports p).symm, fun b => (h.buses b).symm,
    fun e => (h.exits e).symm⟩

theorem SameShape.trans (h : SameShape n n') (h' : SameShape n' n'') : SameShape n n'' :=
  ⟨fun c => (h'.components c).trans (h.components c), fun p => (h'.ports p).trans (h.ports p),
    fun b => (h'.buses b).trans (h.buses b), fun e => (h'.exits e).trans (h.exits e)⟩

namespace SameShape

variable (h : SameShape n n')

include h

theorem component {c : ComponentId} {x : Component} (hx : n'.components.get? c = some x) :
    ∃ y, n.components.get? c = some y ∧ y.shape = x.shape := by
  have heq := h.components c
  rw [hx] at heq
  exact Option.map_eq_some_iff.mp heq.symm

theorem port {p : PortId} {x : Port} (hx : n'.ports.get? p = some x) :
    ∃ y, n.ports.get? p = some y ∧ y.shape = x.shape := by
  have heq := h.ports p
  rw [hx] at heq
  exact Option.map_eq_some_iff.mp heq.symm

theorem exit {e : ExitId} {x : Exit} (hx : n'.exits.get? e = some x) :
    ∃ y, n.exits.get? e = some y ∧ y.shape = x.shape := by
  have heq := h.exits e
  rw [hx] at heq
  exact Option.map_eq_some_iff.mp heq.symm

theorem portRole? (p : PortId) : n'.portRole? p = n.portRole? p := by
  have heq := congrArg (Option.map Port.role) (h.ports p)
  rw [Option.map_map, Option.map_map] at heq
  exact heq

theorem busRole? (b : BusId) : n'.busRole? b = n.busRole? b := by
  have heq := congrArg (Option.map Bus.role) (h.buses b)
  rw [Option.map_map, Option.map_map] at heq
  exact heq

theorem isInBuf {c : ComponentId} (hc : IsInBuf base n' c) : IsInBuf base n c := by
  obtain ⟨m, x, i, hx, hle, hi, hin⟩ := hc
  obtain ⟨y, hy, heq⟩ := h.component hx
  have hinterior := congrArg Component.interior heq
  simp only [Component.shape, hi, Option.map_some] at hinterior
  obtain ⟨j, hj, hij⟩ := Option.map_eq_some_iff.mp hinterior
  exact ⟨m, y, j, hy, hle, hj, (congrArg Interior.inBuf hij).trans hin⟩

theorem isOutBuf {c : ComponentId} (hc : IsOutBuf base n' c) : IsOutBuf base n c := by
  obtain ⟨e, x, hx, hle, hpeer⟩ := hc
  obtain ⟨y, hy, heq⟩ := h.exit hx
  exact ⟨e, y, hy, hle, (congrArg Exit.peer heq).trans hpeer⟩

theorem isBuffer {c : ComponentId} (hc : IsBuffer base n' c) : IsBuffer base n c :=
  hc.imp h.isInBuf h.isOutBuf

end SameShape

theorem plain_eq_inBuf {k : ComponentKind} : k.plain = .inBuf ↔ k = .inBuf := by
  cases k with
  | module m => cases m <;> simp [ComponentKind.plain]
  | _ => simp [ComponentKind.plain]

theorem plain_eq_outBuf {k : ComponentKind} : k.plain = .outBuf ↔ k = .outBuf := by
  cases k with
  | module m => cases m <;> simp [ComponentKind.plain]
  | _ => simp [ComponentKind.plain]

theorem isModule_plain (k : ComponentKind) : k.plain.isModule = k.isModule := by
  cases k with
  | module m => cases m <;> rfl
  | _ => rfl

/-- What the shape of a component tells about it. -/
structure Component.Alike (x y : Component) : Prop where
  kind : y.kind.plain = x.kind.plain
  owner : y.owner = x.owner
  clock : y.clock = x.clock
  reset : y.reset = x.reset
  go : y.go = x.go
  this : y.this = x.this
  dataPorts : y.dataPorts = x.dataPorts
  exits : y.exits = x.exits
  interior : y.interior.map (fun i => { i with feedback := [] }) =
    x.interior.map fun i => { i with feedback := [] }

theorem Component.alike_of_shape_eq {x y : Component} (h : y.shape = x.shape) : x.Alike y := by
  simp only [Component.shape, Component.mk.injEq] at h
  obtain ⟨-, hkind, howner, hclock, hreset, hgo, hthis, hdata, hexits, -, -, -, -, -, -, hi⟩ := h
  exact ⟨hkind, howner, hclock, hreset, hgo, hthis, hdata, hexits, hi⟩

namespace Component.Alike

variable {x y : Component} (h : x.Alike y)

include h

theorem ports : y.ports = x.ports := by
  simp only [Component.ports, h.clock, h.reset, h.go, h.this, h.dataPorts]

theorem isSome_interior : y.interior.isSome = x.interior.isSome := by
  simpa using congrArg Option.isSome h.interior

theorem interior_eq {i : Interior} (hi : x.interior = some i) :
    ∃ j, y.interior = some j ∧ j.inBuf = i.inBuf ∧ j.children = i.children := by
  have heq := h.interior
  rw [hi] at heq
  obtain ⟨j, hj, hij⟩ := Option.map_eq_some_iff.mp heq
  exact ⟨j, hj, (congrArg Interior.inBuf hij :), (congrArg Interior.children hij :)⟩

theorem interior_none (hi : x.interior = none) : y.interior = none := by
  have heq := h.interior
  rw [hi] at heq
  exact Option.map_eq_none_iff.mp heq

theorem isModule : y.kind.isModule = x.kind.isModule := by
  rw [← isModule_plain, h.kind, isModule_plain]

end Component.Alike

theorem SameShape.alike (h : SameShape n n') {c : ComponentId} {x : Component}
    (hx : n.components.get? c = some x) : ∃ y, n'.components.get? c = some y ∧ x.Alike y := by
  obtain ⟨y, hy, heq⟩ := h.symm.component hx
  exact ⟨y, hy, Component.alike_of_shape_eq heq⟩

section

variable (hs : SameShape n n')

include hs

theorem InteriorShaped.congr {c : ComponentId} {x y : Component} {i j : Interior}
    (h : InteriorShaped n c x i) (hxy : x.Alike y) (hin : j.inBuf = i.inBuf)
    (hchildren : j.children = i.children) : InteriorShaped n' c y j where
  kind := hxy.isModule.trans h.kind
  inBuf := by
    obtain ⟨b, e, z, hb, hz, hshaped⟩ := h.inBuf
    obtain ⟨b', hb', halike⟩ := hs.alike hb
    obtain ⟨z', hz', heq⟩ := hs.symm.exit hz
    have hthis : controlRoles y = controlRoles x := by simp only [controlRoles, hxy.this]
    have hcontrol : z'.control = z.control := (congrArg Exit.control heq :)
    refine ⟨b', e, z', hin ▸ hb', hz', ?_, halike.owner.trans hshaped.owner,
      halike.interior_none hshaped.interior, halike.this.trans hshaped.this,
      halike.dataPorts.trans hshaped.dataPorts, halike.exits ▸ hshaped.exits,
      (congrArg Exit.peer heq).trans hshaped.peer, ?_, ?_⟩
    · exact plain_eq_inBuf.mp (halike.kind.trans (plain_eq_inBuf.mpr hshaped.kind))
    · rw [hxy.dataPorts, show z'.data = z.data from (congrArg Exit.data heq :)]
      exact hshaped.data
    · rw [hthis, hcontrol, ← hshaped.control]
      exact List.map_congr_left fun b _ => hs.busRole? b
  nodup := hchildren ▸ h.nodup
  children d hd y' hy' := by
    obtain ⟨z, hz, heq⟩ := hs.component hy'
    have howner : z.owner = y'.owner := (congrArg Component.owner heq :)
    rw [← howner]
    exact h.children d (hchildren ▸ hd) z hz
  notInBuf := by
    rw [hin, hchildren]
    exact h.notInBuf

theorem ComponentShaped.congr {c : ComponentId} {x y : Component} (h : ComponentShaped n c x)
    (hxy : x.Alike y) : ComponentShaped n' c y where
  nodup := hxy.ports ▸ h.nodup
  clock := by rw [hxy.clock, hs.portRole?, h.clock]
  reset := by rw [hxy.reset, hs.portRole?, h.reset]
  go := by rw [hxy.go, hs.portRole?, h.go]
  this p hp := by rw [hs.portRole?, h.this p (hxy.this ▸ hp)]
  data p hp := by rw [hs.portRole?, h.data p (hxy.dataPorts ▸ hp)]
  tags := hxy.exits ▸ h.tags
  outBufs e he z hz := by
    obtain ⟨z', hz', heq⟩ := hs.exit hz
    rw [hxy.isSome_interior, ← h.outBufs e (hxy.exits ▸ he) z' hz',
      show z'.peer = z.peer from (congrArg Exit.peer heq :)]
  interior j hj := by
    cases hi : x.interior with
    | none =>
        rw [hxy.interior_none hi] at hj
        cases hj
    | some i =>
        obtain ⟨j', hj', hin, hchildren⟩ := hxy.interior_eq hi
        cases hj.symm.trans hj'
        exact (h.interior i hi).congr hs hxy hin hchildren

theorem ExitShaped.congr {y z : Exit} (h : ExitShaped base n y) (heq : z.shape = y.shape) :
    ExitShaped base n' z := by
  simp only [Exit.shape, Exit.mk.injEq] at heq
  obtain ⟨howner, -, hdone, hdata, hcontrol, -, hpeer⟩ := heq
  have hbuses : z.buses = y.buses := by simp only [Exit.buses, hdone, hdata, hcontrol]
  refine ⟨hbuses ▸ h.nodup, ?_, fun b hb => ?_, fun hne => ?_, fun o ho => ?_, ?_⟩
  · rw [hdone, hs.busRole?, h.done]
  · rw [hs.busRole?, h.data b (hdata ▸ hb)]
  · rw [howner]
    exact hs.symm.isInBuf (h.control (hcontrol ▸ hne))
  · obtain ⟨b, hb, hshaped⟩ := h.outBuf o (hpeer ▸ ho)
    obtain ⟨b', hb', halike⟩ := hs.alike hb
    refine ⟨b', hb', ?_, ?_, halike.interior_none hshaped.interior,
      halike.this.trans hshaped.this, ?_, halike.exits ▸ hshaped.exits, fun g hg => ?_⟩
    · exact plain_eq_outBuf.mp (halike.kind.trans (plain_eq_outBuf.mpr hshaped.kind))
    · rw [halike.owner, hshaped.owner, howner]
    · rw [halike.dataPorts, hdata]
      exact hshaped.dataPorts
    · obtain ⟨g', hg', hgeq⟩ := hs.port hg
      rw [← show g'.peer = g.peer from (congrArg Port.peer hgeq :), hdone]
      exact hshaped.go g' (halike.go ▸ hg')
  · intro o ho x i hx hi
    obtain ⟨x', hx', hxeq⟩ := hs.component hx
    obtain ⟨j, hj, -, hchildren⟩ := (Component.alike_of_shape_eq hxeq).interior_eq hi
    rw [← hchildren]
    exact h.notChild o (hpeer ▸ ho) x' j (howner ▸ hx') hj

/-- Netlists of the same shape are both shaped, or neither. -/
theorem Shaped.congr (h : Shaped base n) : Shaped base n' where
  components c x hx hle := by
    obtain ⟨y, hy, heq⟩ := hs.component hx
    exact (h.components c y hy hle).congr hs (Component.alike_of_shape_eq heq.symm)
  exits e z hz hle := by
    obtain ⟨y, hy, heq⟩ := hs.exit hz
    exact (h.exits e y hy hle).congr hs heq.symm
  ports p z hz hle := by
    obtain ⟨y, hy, heq⟩ := hs.port hz
    obtain ⟨x, hx, hmem⟩ := h.ports p y hy hle
    obtain ⟨x', hx', halike⟩ := hs.alike hx
    refine ⟨x', ?_, halike.ports ▸ hmem⟩
    rw [← show y.owner = z.owner from (congrArg Port.owner heq :)]
    exact hx'

end

/-! ### Steps that change the shape elsewhere -/

/-- Terminals keep their roles. -/
structure SameRoles (n n' : Netlist) : Prop where
  ports : ∀ p r, n.portRole? p = some r → n'.portRole? p = some r
  buses : ∀ b r, n.busRole? b = some r → n'.busRole? b = some r

theorem SameRoles.of_keeps (h : n.Keeps n') : SameRoles n n' where
  ports p r hr := by
    obtain ⟨y, hy, rfl⟩ := Option.map_eq_some_iff.mp hr
    rw [Netlist.portRole?, h.ports.get? p (Arena.lt_of_get? hy), hy]
    rfl
  buses b r hr := by
    obtain ⟨z, hz, rfl⟩ := Option.map_eq_some_iff.mp hr
    rw [Netlist.busRole?, h.buses.get? b (Arena.lt_of_get? hz), hz]
    rfl

section

variable (hr : SameRoles n n')

include hr

theorem InBufShaped.frame {c : ComponentId} {x b : Component} {e : ExitId} {y : Exit}
    (h : InBufShaped n c x b e y) : InBufShaped n' c x b e y := by
  refine { h with control := ?_ }
  rw [← h.control]
  refine List.map_congr_left fun d hd => ?_
  have hsome : (n.busRole? d).isSome := by
    have hmem : n.busRole? d ∈ (controlRoles x).map some := h.control ▸ List.mem_map_of_mem hd
    obtain ⟨r, -, hr⟩ := List.mem_map.mp hmem
    rw [← hr]
    rfl
  obtain ⟨r, hr'⟩ := Option.isSome_iff_exists.mp hsome
  rw [hr', hr.buses d r hr']

omit hr in
/-- Of the module itself, an interior depends on the kind and on the ports only. -/
theorem InteriorShaped.of_ports {c : ComponentId} {x x' : Component} {i : Interior}
    (h : InteriorShaped n c x i) (hkind : x'.kind.isModule = x.kind.isModule)
    (hthis : x'.this = x.this) (hdata : x'.dataPorts = x.dataPorts) : InteriorShaped n c x' i := by
  obtain ⟨b, e, y, hb, hy, hin⟩ := h.inBuf
  refine { h with kind := hkind.trans h.kind, inBuf := ⟨b, e, y, hb, hy, ?_⟩ }
  refine { hin with data := ?_, control := ?_ }
  · rw [hdata, hin.data]
  · rw [hin.control, controlRoles, controlRoles, hthis]

/-- The interior is as it was if the step has not touched the InBuf with its exit, nor the owners of
the children. -/
theorem InteriorShaped.frame {c : ComponentId} {x : Component} {i : Interior}
    (h : InteriorShaped n c x i)
    (hin : ∀ b e y, n.components.get? i.inBuf = some b → b.exits.entries = [(.done, e)] →
      n.exits.get? e = some y → n'.components.get? i.inBuf = some b ∧ n'.exits.get? e = some y)
    (hchildren : ∀ d ∈ i.children, ∀ y, n'.components.get? d = some y → y.owner = some c) :
    InteriorShaped n' c x i := by
  obtain ⟨b, e, y, hb, hy, hshaped⟩ := h.inBuf
  obtain ⟨hb', hy'⟩ := hin b e y hb hshaped.exits hy
  exact { h with inBuf := ⟨b, e, y, hb', hy', hshaped.frame hr⟩, children := hchildren }

/-- A component that the step has not touched. -/
theorem ComponentShaped.frame {c : ComponentId} {x : Component} (h : ComponentShaped n c x)
    (hpeers : ∀ e ∈ x.exits.values, ∀ y', n'.exits.get? e = some y' →
      ∃ y, n.exits.get? e = some y ∧ y'.peer = y.peer)
    (hinterior : ∀ i, x.interior = some i → InteriorShaped n' c x i) : ComponentShaped n' c x where
  nodup := h.nodup
  clock := hr.ports _ _ h.clock
  reset := hr.ports _ _ h.reset
  go := hr.ports _ _ h.go
  this p hp := hr.ports _ _ (h.this p hp)
  data p hp := hr.ports _ _ (h.data p hp)
  tags := h.tags
  outBufs e he y' hy' := by
    obtain ⟨y, hy, hpeer⟩ := hpeers e he y' hy'
    rw [hpeer, h.outBufs e he y hy]
  interior := hinterior

/-- An exit that the step has not touched. -/
theorem ExitShaped.frame {y : Exit} (h : ExitShaped base n y)
    (hin : IsInBuf base n y.owner → IsInBuf base n' y.owner)
    (hout : ∀ o b, y.peer = some o → n.components.get? o = some b →
      n'.components.get? o = some b ∧ ∀ g', n'.ports.get? b.go = some g' →
        ∃ g, n.ports.get? b.go = some g ∧ g'.peer = g.peer)
    (hchild : ∀ o, y.peer = some o → ∀ x i, n'.components.get? y.owner = some x →
      x.interior = some i → o ∉ i.children) : ExitShaped base n' y where
  nodup := h.nodup
  done := hr.buses _ _ h.done
  data b hb := hr.buses _ _ (h.data b hb)
  control hne := hin (h.control hne)
  outBuf o ho := by
    obtain ⟨b, hb, hshaped⟩ := h.outBuf o ho
    obtain ⟨hb', hgo⟩ := hout o b ho hb
    refine ⟨b, hb', { hshaped with go := fun g' hg' => ?_ }⟩
    obtain ⟨g, hg, hpeer⟩ := hgo g' hg'
    rw [hpeer]
    exact hshaped.go g hg
  notChild := hchild

end

/-- What the base of a step had keeps its shape. -/
theorem ComponentShaped.keep {pins : Nat} {c : ComponentId} {x : Component} (hk : n.Keeps n')
    (hlinked : ComponentLinked pins base n c x) (h : ComponentShaped n c x) :
    ComponentShaped n' c x := by
  obtain ⟨-, -, hexits, -, hinterior⟩ := Component.forall_refs.mp hlinked.refs
  have hr := SameRoles.of_keeps hk
  refine h.frame hr (fun e he y' hy' => ?_) fun i hi => ?_
  · rw [hk.exits.get? e (hexits e he).2] at hy'
    exact ⟨y', hy', rfl⟩
  · obtain ⟨-, hchildren, -⟩ := Interior.forall_refs.mp (hinterior i hi)
    refine (h.interior i hi).frame hr (fun b e y hb _ hy => ?_) fun d hd y hy => ?_
    · exact ⟨(hk.components.get? _ (Arena.lt_of_get? hb)).trans hb,
        (hk.exits.get? _ (Arena.lt_of_get? hy)).trans hy⟩
    · rw [hk.components.get? d (hchildren d hd).2] at hy
      exact (h.interior i hi).children d hd y hy

theorem IsInBuf.keep (hk : n.Keeps n') {c : ComponentId} (h : IsInBuf base n c) :
    IsInBuf base n' c := by
  obtain ⟨m, x, i, hx, hle, hi, hin⟩ := h
  exact ⟨m, x, i, (hk.components.get? m (Arena.lt_of_get? hx)).trans hx, hle, hi, hin⟩

theorem ExitShaped.keep {e : ExitId} {y : Exit} {pins : Nat} (hl : Linked pins base n)
    (hk : n.Keeps n') (hlinked : ExitLinked base n e y) (h : ExitShaped base n y) :
    ExitShaped base n' y := by
  obtain ⟨howner, -, hpeer⟩ := Exit.forall_refs.mp hlinked.refs
  refine h.frame (.of_keeps hk) (IsInBuf.keep hk) (fun o b ho hb => ?_) fun o ho x i hx hi => ?_
  · refine ⟨(hk.components.get? o (Arena.lt_of_get? hb)).trans hb, fun g hg => ⟨g, ?_, rfl⟩⟩
    rw [hk.ports.get? _ (hl.go_new hb (hpeer o ho).1).2] at hg
    exact hg
  · rw [hk.components.get? _ howner.2] at hx
    exact h.notChild o ho x i hx hi

/-- Growth from a base continues from a shaped netlist. -/
theorem Shaped.trans {pins : Nat} (hl : Linked pins base n) (hl' : Linked pins n n')
    (h : Shaped base n) (h' : Shaped n n') : Shaped base n' := by
  have hk := hl'.keeps
  have hg := hl.keeps.grows
  refine ⟨fun c x hx hle => ?_, fun e y hy hle => ?_, fun p y hy hle => ?_⟩
  · rcases Nat.lt_or_ge c.index n.components.size with hlt | hge
    · rw [hk.components.get? c hlt] at hx
      exact (h.components c x hx hle).keep hk (hl.components c x hx hle)
    · exact h'.components c x hx hge
  · rcases Nat.lt_or_ge e.index n.exits.size with hlt | hge
    · rw [hk.exits.get? e hlt] at hy
      exact (h.exits e y hy hle).keep hl hk (hl.exits e y hy hle)
    · refine { h'.exits e y hy hge with control := fun hne => ?_ }
      obtain ⟨m, x, i, hx, hle, hi, hin⟩ := (h'.exits e y hy hge).control hne
      exact ⟨m, x, i, hx, Nat.le_trans hg.components hle, hi, hin⟩
  · rcases Nat.lt_or_ge p.index n.ports.size with hlt | hge
    · rw [hk.ports.get? p hlt] at hy
      obtain ⟨x, hx, hmem⟩ := h.ports p y hy hle
      exact ⟨x, (hk.components.get? _ (Arena.lt_of_get? hx)).trans hx, hmem⟩
    · exact h'.ports p y hy hge

end DataflowSynth.Netlist
