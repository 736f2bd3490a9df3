/-
What the steps that build a netlist do to its sheet.

Each changes the nodes it is aimed at and adds at most two.  A new terminal is neither driven nor
repeated, so it shows only once it is listed by its component.
-/
import DataflowSynth.Proofs.Sheet.Looks

namespace DataflowSynth

namespace Arena

@[simp] theorem get?_next {k : HandleKind} {α : Type} (a : Arena k α) : a.get? a.next = none :=
  get?_of_size_le (Nat.le_refl _)

end Arena

namespace Netlist

open Build

variable {Γ : Ground} {σ : Sheet} {c m : ComponentId} {ν μ : Node} {n n' : Netlist}

/-! ### Frames -/

theorem node_of_pads {x : Component} (hpads : ∀ p ∈ x.ports, n'.pad p = n.pad p) :
    n'.node x = { n.node x with exits := x.exits.entries.map fun e => (e.1, n'.outlet e.2) } := by
  have hthis : x.this.map n'.pad = x.this.map n.pad := by
    cases ht : x.this with
    | none => rfl
    | some p => exact congrArg some (hpads p (Component.mem_ports_of_this ht))
  have hdata : x.dataPorts.map n'.pad = x.dataPorts.map n.pad :=
    List.map_congr_left fun p hp => hpads p (Component.mem_ports_of_data hp)
  simp only [node, hpads x.clock (by simp), hpads x.reset (by simp), hpads x.go (by simp), hthis,
    hdata]

theorem node_congr {x : Component} (hpads : ∀ p ∈ x.ports, n'.pad p = n.pad p)
    (houtlets : ∀ e ∈ x.exits.values, n'.outlet e = n.outlet e) : n'.node x = n.node x := by
  have hexits : x.exits.entries.map (fun e => (e.1, n'.outlet e.2)) =
      x.exits.entries.map fun e => (e.1, n.outlet e.2) :=
    List.map_congr_left fun e he => by
      rw [houtlets e.2 (OrderedMap.mem_values.mpr ⟨e, he, rfl⟩)]
  rw [node_of_pads hpads, hexits]
  rfl

/-- A component is drawn as before if its record, its ports and its exits are as before. -/
theorem Proper.node?_frame (hn : Proper Γ n) (hc : n'.components.get? c = n.components.get? c)
    (hpads : ∀ p y, n.ports.get? p = some y → y.owner = c → n'.pad p = n.pad p)
    (houtlets : ∀ e y, n.exits.get? e = some y → y.owner = c → n'.outlet e = n.outlet e) :
    (Γ.sheet n').node? c = (Γ.sheet n).node? c := by
  by_cases hle : Γ.base.components.size ≤ c.index
  · rw [node?_sheet _ hle, node?_sheet _ hle, hc]
    cases hx : n.components.get? c with
    | none => rfl
    | some x =>
        refine congrArg some (node_congr (fun p hp => ?_) fun e he => ?_)
        · obtain ⟨y, hy, howner, -⟩ := hn.port hx hle hp
          exact hpads p y hy howner
        · obtain ⟨y, hy, howner, -⟩ := hn.exit hx hle he
          exact houtlets e y hy howner
  · rw [node?_sheet_of_lt _ (Nat.lt_of_not_le hle), node?_sheet_of_lt _ (Nat.lt_of_not_le hle)]

/-- Only one component, with its ports and exits, has changed. -/
theorem Proper.sheet_set (hn : Proper Γ n) (n' : Netlist)
    (hsize : n'.components.size = n.components.size) (hc : Γ.base.components.size ≤ c.index)
    {x' : Component} (hx' : n'.components.get? c = some x')
    (hothers : ∀ d, d ≠ c → n'.components.get? d = n.components.get? d)
    (hpads : ∀ p y, n.ports.get? p = some y → y.owner ≠ c → n'.pad p = n.pad p)
    (houtlets : ∀ e y, n.exits.get? e = some y → y.owner ≠ c → n'.outlet e = n.outlet e) :
    Γ.sheet n' = (Γ.sheet n).set c (n'.node x') := by
  ext : 1
  · exact hsize
  · funext d
    by_cases hd : d = c
    · subst hd
      rw [Sheet.node?_set_self, node?_sheet _ hc, hx', Option.map_some]
    · rw [Sheet.node?_set_of_ne _ _ hd]
      exact hn.node?_frame (hothers d hd) (fun p y hy howner => hpads p y hy (howner ▸ hd))
        fun e y hy howner => houtlets e y hy (howner ▸ hd)

/-! ### Connections -/

def Pad.drive (a : Pad) (p : PortId) (b : Option BusId) : Pad :=
  if a.port = p then { a with driver := b } else a

/-- The node with another driver at one of its ports. -/
def Node.drive (ν : Node) (p : PortId) (b : Option BusId) : Node :=
  { ν with
    clock := ν.clock.drive p b
    reset := ν.reset.drive p b
    go := ν.go.drive p b
    this := ν.this.map (·.drive p b)
    data := ν.data.map (·.drive p b) }

@[simp] theorem Pad.port_drive (a : Pad) (p : PortId) (b : Option BusId) :
    (a.drive p b).port = a.port := by
  unfold drive
  split <;> rfl

@[simp] theorem Pad.peer_drive (a : Pad) (p : PortId) (b : Option BusId) :
    (a.drive p b).peer = a.peer := by
  unfold drive
  split <;> rfl

theorem Pad.drive_self (a : Pad) (b : Option BusId) : a.drive a.port b = { a with driver := b } :=
  if_pos rfl

theorem Pad.drive_of_ne {a : Pad} {p : PortId} (h : a.port ≠ p) (b : Option BusId) :
    a.drive p b = a :=
  if_neg h

/-- The new driver would show at every component, but only one has the port. -/
theorem Proper.sheet_rewire (hn : Proper Γ n) (hν : (Γ.sheet n).node? c = some ν) {a : Pad}
    (ha : a ∈ ν.pads) (b : Option BusId) (hcomponents : n'.components = n.components)
    (hports : n'.ports = n.ports.modify a.port fun y => { y with bus := b })
    (hexits : n'.exits = n.exits) : Γ.sheet n' = (Γ.sheet n).set c (ν.drive a.port b) := by
  obtain ⟨y, hy, howner, -⟩ := hn.has_port hν ha
  have hle := le_of_node? hν
  obtain ⟨x, hx, rfl⟩ := drawn hν
  have houtlet := outlet_congr hexits
  have hpads : n'.pad = fun q => (n.pad q).drive a.port b := by
    funext q
    by_cases hq : q = a.port
    · simp [pad, Pad.drive, hports, Arena.get?_modify, hq, hy]
    · simp [pad, Pad.drive, hports, Arena.get?_modify, hq]
  have hnode : n'.node x = (n.node x).drive a.port b := by
    simp only [node, hpads, houtlet, Node.drive, Option.map_map, List.map_map, Function.comp_def]
  rw [← hnode]
  refine hn.sheet_set n' (by rw [hcomponents]) hle (by rw [hcomponents, hx])
    (fun d _ => by rw [hcomponents])
    (fun p y' hy' hne => ?_) fun e _ _ _ => by rw [houtlet]
  refine (congrFun hpads p).trans (Pad.drive_of_ne (fun heq => hne ?_) b)
  rw [port_pad] at heq
  rw [heq] at hy'
  cases hy.symm.trans hy'
  exact howner

theorem draws_setBus (hν : σ.node? c = some ν) {a : Pad} (ha : a ∈ ν.pads) {b : Option BusId}
    (hb : ∀ d, b = some d → σ.Gives d) :
    Draws Γ (setBus a.port b) σ fun _ τ => τ = σ.set c (ν.drive a.port b) := by
  refine .of_safe (K := .has (.port a.port) :: b.toList.map fun d => .has (.bus d))
    (safe_setBus (by simp) (by simp +contextual)) (fun f hf => ?_) fun s hs hσ => ?_
  · rcases List.mem_cons.mp hf with rfl | hf
    · exact .port hν ha
    · obtain ⟨d, hd, rfl⟩ := List.mem_map.mp hf
      exact .bus (hb d (Option.mem_toList.mp hd))
  · subst hσ
    obtain ⟨y, hy, -, -, hnew⟩ := hs.has_port hν ha
    have hlinked := Port.forall_refs.mp (hs.linked.ports _ y hy hnew).refs
    refine (wp_setBus hy (fun d hd => (hlinked.2.1 d hd).2) fun d hd => ?_).mpr
      (hs.sheet_rewire hν ha b rfl rfl rfl)
    obtain ⟨e, μ, hμ, hmem⟩ := hb d hd
    exact (hs.has_bus hμ hmem).2

/-! ### Single ports -/

theorem map_drive_of_ne {as : List Pad} {p : PortId} (h : ∀ a ∈ as, a.port ≠ p)
    (b : Option BusId) : as.map (·.drive p b) = as :=
  (List.map_congr_left fun a ha => Pad.drive_of_ne (h a ha) b).trans (List.map_id _)

theorem map_drive_getElem {as : List Pad} (h : (as.map Pad.port).Nodup) {k : Nat} {a : Pad}
    (ha : as[k]? = some a) (b : Option BusId) :
    as.map (·.drive a.port b) = as.set k { a with driver := b } := by
  induction as generalizing k with
  | nil => simp at ha
  | cons x as ih =>
      obtain ⟨hx, hrest⟩ := List.nodup_cons.mp h
      cases k with
      | zero =>
          obtain rfl : x = a := by simpa using ha
          rw [List.map_cons, List.set_cons_zero, Pad.drive_self, map_drive_of_ne]
          exact fun y hy heq => hx (heq ▸ List.mem_map_of_mem hy)
      | succ k =>
          have hmem : a ∈ as := List.mem_of_getElem? (by simpa using ha)
          have hne : x.port ≠ a.port := fun heq => hx (heq ▸ List.mem_map_of_mem hmem)
          rw [List.map_cons, List.set_cons_succ, Pad.drive_of_ne hne, ih hrest (by simpa using ha)]

namespace Node

/-- No two ports of the component are the same. -/
structure Apart (ν : Node) : Prop where
  reset_clock : ν.reset.port ≠ ν.clock.port
  go_clock : ν.go.port ≠ ν.clock.port
  go_reset : ν.go.port ≠ ν.reset.port
  clock : ∀ a ∈ ν.this.toList ++ ν.data, a.port ≠ ν.clock.port
  reset : ∀ a ∈ ν.this.toList ++ ν.data, a.port ≠ ν.reset.port
  go : ∀ a ∈ ν.this.toList ++ ν.data, a.port ≠ ν.go.port
  this : ∀ t ∈ ν.this, ∀ a ∈ ν.data, t.port ≠ a.port
  nodup : (ν.data.map Pad.port).Nodup

theorem apart_of_nodup (h : (ν.pads.map Pad.port).Nodup) : ν.Apart := by
  simp only [pads, List.cons_append, List.nil_append, List.map_cons, List.nodup_cons, List.mem_cons,
    List.mem_map, not_or, not_exists, not_and] at h
  obtain ⟨⟨h₁, h₂, h₃⟩, ⟨h₄, h₅⟩, h₆, h₇⟩ := h
  rw [List.map_append, List.nodup_append] at h₇
  refine ⟨Ne.symm h₁, Ne.symm h₂, Ne.symm h₄, h₃, h₅, h₆, fun t ht a ha => ?_, h₇.2.1⟩
  exact h₇.2.2 _ (List.mem_map_of_mem (Option.mem_toList.mpr ht)) _ (List.mem_map_of_mem ha)

variable (h : ν.Apart) (b : Option BusId)

theorem map_this_drive {p : PortId} (hp : ∀ a ∈ ν.this.toList ++ ν.data, a.port ≠ p) :
    ν.this.map (·.drive p b) = ν.this := by
  cases ht : ν.this with
  | none => rfl
  | some a => exact congrArg some (Pad.drive_of_ne (hp a (by simp [ht])) b)

theorem map_data_drive {p : PortId} (hp : ∀ a ∈ ν.this.toList ++ ν.data, a.port ≠ p) :
    ν.data.map (·.drive p b) = ν.data :=
  map_drive_of_ne (fun a ha => hp a (by simp [ha])) b

include h

theorem drive_clock : ν.drive ν.clock.port b = { ν with clock := { ν.clock with driver := b } } := by
  simp only [drive, Pad.drive_self, Pad.drive_of_ne h.reset_clock, Pad.drive_of_ne h.go_clock,
    map_this_drive b h.clock, map_data_drive b h.clock]

theorem drive_reset : ν.drive ν.reset.port b = { ν with reset := { ν.reset with driver := b } } := by
  simp only [drive, Pad.drive_self, Pad.drive_of_ne h.reset_clock.symm, Pad.drive_of_ne h.go_reset,
    map_this_drive b h.reset, map_data_drive b h.reset]

theorem drive_go : ν.drive ν.go.port b = { ν with go := { ν.go with driver := b } } := by
  simp only [drive, Pad.drive_self, Pad.drive_of_ne h.go_clock.symm, Pad.drive_of_ne h.go_reset.symm,
    map_this_drive b h.go, map_data_drive b h.go]

theorem drive_data {k : Nat} {a : Pad} (ha : ν.data[k]? = some a) :
    ν.drive a.port b = { ν with data := ν.data.set k { a with driver := b } } := by
  have hmem : a ∈ ν.data := List.mem_of_getElem? ha
  have hthis : ν.this.map (·.drive a.port b) = ν.this := by
    cases ht : ν.this with
    | none => rfl
    | some t => exact congrArg some (Pad.drive_of_ne (h.this t ht a hmem) b)
  simp only [drive, hthis, map_drive_getElem h.nodup ha, Pad.drive_of_ne (h.clock a (by simp [hmem])).symm,
    Pad.drive_of_ne (h.reset a (by simp [hmem])).symm, Pad.drive_of_ne (h.go a (by simp [hmem])).symm]

end Node

theorem Proper.apart (hn : Proper Γ n) (hν : (Γ.sheet n).node? c = some ν) : ν.Apart := by
  obtain ⟨x, hx, rfl⟩ := drawn hν
  refine Node.apart_of_nodup ?_
  have hports : (n.node x).pads.map Pad.port = x.ports := by
    simp [pads_node, Function.comp_def]
  rw [hports]
  exact (hn.shape.components c x hx (le_of_node? hν)).nodup

section

variable (hν : σ.node? c = some ν) {b : Option BusId} (hb : ∀ d, b = some d → σ.Gives d)

include hν

theorem Draws.of_apart {α : Type} {x : Step α} {Q : α → Sheet → Prop}
    (h : ν.Apart → Draws Γ x σ Q) : Draws Γ x σ Q :=
  .of_proper fun _ hn hσ => h (hn.apart (hσ ▸ hν))

include hb

theorem draws_setClock : Draws Γ (setBus ν.clock.port b) σ fun _ τ =>
    τ = σ.set c { ν with clock := { ν.clock with driver := b } } :=
  .of_apart hν fun h => Node.drive_clock h b ▸ draws_setBus hν ν.clock_mem_pads hb

theorem draws_setReset : Draws Γ (setBus ν.reset.port b) σ fun _ τ =>
    τ = σ.set c { ν with reset := { ν.reset with driver := b } } :=
  .of_apart hν fun h => Node.drive_reset h b ▸ draws_setBus hν ν.reset_mem_pads hb

theorem draws_setGo : Draws Γ (setBus ν.go.port b) σ fun _ τ =>
    τ = σ.set c { ν with go := { ν.go with driver := b } } :=
  .of_apart hν fun h => Node.drive_go h b ▸ draws_setBus hν ν.go_mem_pads hb

theorem draws_setData {k : Nat} {a : Pad} (ha : ν.data[k]? = some a) :
    Draws Γ (setBus a.port b) σ fun _ τ =>
      τ = σ.set c { ν with data := ν.data.set k { a with driver := b } } :=
  .of_apart hν fun h => Node.drive_data h b ha ▸
    draws_setBus hν (Node.data_mem_pads (List.mem_of_getElem? ha)) hb

end

/-! ### New terminals do not show -/

theorem pad_push {y : Port} (hports : n'.ports = n.ports.push y) (hbus : y.bus = none)
    (hpeer : y.peer = none) : n'.pad = n.pad := by
  funext p
  simp only [pad, hports, Arena.get?_push]
  split
  · next heq => simp [heq, hbus, hpeer]
  · rfl

theorem pad_shelled (n : Netlist) (kind : ComponentKind) (stem : String) :
    (n.shelled kind stem).pad = n.pad := by
  have hnew : ∀ p : PortId, n.ports.size ≤ p.index → n.pad p = { port := p } := by
    intro p hp
    simp [pad, Arena.get?_of_size_le hp]
  funext p
  simp only [pad, get?_ports_shelled]
  split
  · exact (hnew p (by omega)).symm
  split
  · exact (hnew p (by omega)).symm
  split
  · exact (hnew p (by omega)).symm
  · rfl

theorem outlet_push {e : ExitId} {y z : Exit} (hexits : n'.exits = n.exits.push z)
    (hy : n.exits.get? e = some y) : n'.outlet e = n.outlet e := by
  have hne : e ≠ n.exits.next := by
    rintro rfl
    simp at hy
  simp only [outlet, hexits, Arena.get?_push, if_neg hne]

theorem outlet_modify {e : ExitId} {f : Exit → Exit} (hexits : n'.exits = n.exits.modify e f)
    {d : ExitId} (hd : d ≠ e) : n'.outlet d = n.outlet d := by
  simp only [outlet, hexits, Arena.get?_modify, if_neg hd]

/-- What the two sides of a boundary show. -/
theorem pad_paired {p : PortId} (hp : p.index < n.ports.size) (b : BusId) (q : PortId) :
    (n.paired p b).pad q = if q = p then { n.pad q with peer := some b } else n.pad q := by
  obtain ⟨y, hy⟩ := Arena.exists_get? hp
  by_cases hq : q = p
  · subst hq
    unfold paired
    split <;> simp [pad, withPair, Arena.get?_modify, hy]
  · simp [pad, get?_ports_paired _ _ _ hq, hq]

/-! ### New components -/

/-- One more component, and nothing else that shows. -/
theorem Proper.sheet_add (hn : Proper Γ n) {x : Component}
    (hcomponents : n'.components = n.components.push x) (hpads : n'.pad = n.pad)
    (houtlets : ∀ e y, n.exits.get? e = some y → n'.outlet e = n.outlet e) :
    Γ.sheet n' = (Γ.sheet n).add (n'.node x) := by
  ext : 1
  · rw [size_sheet, hcomponents, Arena.size_push]
    rfl
  · funext d
    by_cases hd : d = (Γ.sheet n).next
    · subst hd
      rw [Sheet.node?_add_next, node?_sheet _ hn.le_next, hcomponents, next_sheet,
        Arena.get?_push_next, Option.map_some]
    · rw [Sheet.node?_add_of_ne _ _ hd]
      refine hn.node?_frame ?_ (fun p _ _ _ => by rw [hpads]) fun e y hy _ => houtlets e y hy
      rw [hcomponents, Arena.get?_push, if_neg (by simpa using hd)]

theorem draws_newShell {kind : ComponentKind} {K : List Fact}
    (hkind : kind.FitsIn Γ.scope K) (hK : ∀ f ∈ K, σ.Tells f) (stem : String) :
    Draws Γ (newComponent kind stem 0) σ fun c τ =>
      c = σ.next ∧ ∃ clock reset go, τ = σ.add (.blank kind clock reset go) := by
  refine .of_safe (safe_newComponent (fun h => h) hkind stem 0) hK fun s hs hσ => ?_
  subst hσ
  have hpads := pad_shelled s.state kind stem
  have hsheet := hs.sheet_add (components_shelled s.state kind stem) hpads fun _ _ _ => rfl
  refine (wp_newShell kind stem).mpr ⟨rfl, ⟨s.state.ports.size⟩, ⟨s.state.ports.size + 1⟩,
    ⟨s.state.ports.size + 2⟩, hsheet.trans ?_⟩
  have hnew : ∀ k, s.state.pad ⟨s.state.ports.size + k⟩ = { port := ⟨s.state.ports.size + k⟩ } := by
    intro k
    simp [pad, Arena.get?_of_size_le]
  have h0 := hnew 0
  simp only [Nat.add_zero] at h0
  congr 1
  simp [node, shell, Node.blank, hpads, hnew, h0]

/-! ### Data ports and exits of components without an interior -/

section

variable (hν : σ.node? c = some ν) (hkind : ν.kind.isBuffer = false) (hi : ν.interior = none)

include hν hkind hi

theorem draws_makeDataPort (name : String) : Draws Γ (makeDataPort c name) σ fun p τ =>
    τ = σ.set c { ν with data := ν.data ++ [{ port := p }] } := by
  refine .of_safe (K := [.has (.component c), .plain c])
    (safe_makeDataPort (fun h => h) (by simp) (by simp) name)
    (by simpa using ⟨.component hν, .plain hν hkind⟩) fun s hs hσ => ?_
  subst hσ
  obtain ⟨x, hx, rfl⟩ := drawn hν
  have hpads : (s.state.withDataPort c name).pad = s.state.pad := pad_push rfl rfl rfl
  have hsheet := sheet_modify Γ (s.state.withDataPort c name) hx (le_of_node? hν) rfl hpads rfl
  refine (wp_makeDataPort hx hi name).mpr (hsheet.trans ?_)
  simp [node, pad]

/-- A component gets its first exit. -/
theorem draws_makeExit (hexits : ν.exits = []) (tag : ExitTag) :
    Draws Γ (makeExit c 0 tag) σ fun e τ =>
      ∃ done, τ = σ.set c { ν with exits := [(tag, { exit := e, done })] } := by
  refine .of_safe (K := [.has (.component c), .plain c])
    (safe_makeExit (fun h => h) (by simp) (by simp) 0 tag)
    (by simpa using ⟨.component hν, .plain hν hkind⟩) fun s hs hσ => ?_
  subst hσ
  obtain ⟨x, hx, rfl⟩ := drawn hν
  have hnone : x.exits.entries = [] := by simpa [node] using hexits
  have htag : x.exits.contains tag = false := by simp [OrderedMap.contains, OrderedMap.find?, hnone]
  refine (wp_makeExit hx htag hi 0).mpr ⟨s.state.buses.next, ?_⟩
  have hget := get?_withExit_self tag hx
  refine (hs.sheet_set (s.state.withExit c tag) (by simp [withExit]) (le_of_node? hν) hget
    (fun d hd => Arena.get?_modify_of_ne _ (Ne.symm hd) _) (fun _ _ _ _ => rfl)
    fun e y hy _ => outlet_push rfl hy).trans ?_
  have hentries : (x.exits.put tag s.state.exits.next).entries = [(tag, s.state.exits.next)] := by
    rw [OrderedMap.entries_put_of_new htag, hnone]
    rfl
  have houtlet : (s.state.withExit c tag).outlet s.state.exits.next =
      { exit := s.state.exits.next, done := s.state.buses.next } := by
    simp [outlet, withExit]
  congr 1
  simp only [node, hentries, List.map_cons, List.map_nil, houtlet]
  rfl

end

/-- The exit of a component gets one more bus. -/
theorem draws_makeDataBus (hν : σ.node? c = some ν) (hkind : ν.kind.isBuffer = false)
    {tag : ExitTag} {o : Outlet} (hexits : ν.exits = [(tag, o)]) (hout : o.outBuf = none)
    (name : String) : Draws Γ (makeDataBus o.exit name) σ fun b τ =>
      τ = σ.set c { ν with exits := [(tag, { o with data := o.data ++ [b] })] } := by
  have ho : o ∈ ν.outlets := by simp [Node.outlets, hexits]
  refine .of_safe (K := [.has (.exit o.exit), .plainExit o.exit])
    (safe_makeDataBus (fun h => h) (by simp) (by simp) name)
    (by simpa using ⟨.exit hν ho, .plainExit hν hkind ho⟩) fun s hs hσ => ?_
  subst hσ
  obtain ⟨y, hy, howner, heq, -⟩ := hs.has_exit hν ho
  have hle := le_of_node? hν
  obtain ⟨x, hx, rfl⟩ := drawn hν
  have hpeer : y.peer = none := by rw [← hout, heq]
  have hentries : x.exits.entries = [(tag, o.exit)] := by
    rw [(drawnAs_node s.state x).exits, hexits]
    rfl
  refine (wp_makeDataBus hy hpeer name).mpr ?_
  refine (hs.sheet_set (s.state.withDataBus o.exit name) rfl hle hx (fun _ _ => rfl)
    (fun _ _ _ _ => rfl) fun e y' hy' hne => outlet_modify rfl ?_).trans ?_
  · rintro rfl
    cases hy.symm.trans hy'
    exact hne howner
  have houtlet : (s.state.withDataBus o.exit name).outlet o.exit =
      { o with data := o.data ++ [s.state.buses.next] } := by
    rw [heq]
    simp [outlet, withDataBus, Arena.get?_modify, hy]
  congr 1
  simp only [node, hentries, List.map_cons, List.map_nil, houtlet]
  rfl

end Netlist

end DataflowSynth
