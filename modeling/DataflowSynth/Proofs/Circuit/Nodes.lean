/-
Circuits on sheets.

A sheet shows all that a circuit is read from: what drives a component, what it gives out, and which
bus repeats a port across a boundary.  So the rules of a component can be read off its node, and a run
of a module that was drawn as a whole is a run of the nodes that were drawn.
-/
import DataflowSynth.Proofs.Circuit.Basic
import DataflowSynth.Proofs.Sheet.Accessors

namespace DataflowSynth.Netlist

variable {Γ : Ground} {n : Netlist} {w : Signals} {m : ComponentId}

/-! ### The rules of a node -/

def Pad.level (w : Signals) (t : Nat) (a : Pad) : Word :=
  match a.driver with
  | some b => w.bus t b
  | none => w.outside t a.port

theorem Pad.level_of_driver {a : Pad} {b : BusId} (h : a.driver = some b) (t : Nat) :
    a.level w t = w.bus t b := by
  simp only [level, h]

theorem Pad.level_of_none {a : Pad} (h : a.driver = none) (t : Nat) :
    a.level w t = w.outside t a.port := by
  simp only [level, h]

def Node.result? (ν : Node) : Option BusId := (ν.outlet? .done).bind fun o => o.data.head?

theorem result?_node (n : Netlist) (x : Component) : (n.node x).result? = n.result? x := by
  simp only [Node.result?, result?, outlet?_node, Component.mainExit?]
  cases x.exits.find? .done with
  | none => rfl
  | some e =>
    simp only [Option.map_some, Option.bind_some, outlet]
    cases n.exits.get? e <;> rfl

def Node.Computes (w : Signals) (g : Gate) (ν : Node) : Prop :=
  ∀ b ∈ ν.result?, ∀ t k, w.bus t b k = g.eval (ν.data.map fun a => a.level w t k)

def Node.Follows (w : Signals) (ν : Node) : Prop :=
  match ν.kind with
  | .module _ | .outBuf =>
    ∀ a ∈ ν.go :: ν.data, ∀ b, a.peer = some b → ∀ t, w.bus t b = a.level w t
  | .andGate => ν.Computes w .and
  | .orGate => ν.Computes w .or
  | .notGate => ν.Computes w .not
  | .pinRead pin => ∀ b ∈ ν.result?, ∀ t, w.bus t b = w.pin t pin
  | .reg .reg | .reg .regR => ∀ b ∈ ν.result?, (∀ k, w.bus 0 b k = false) ∧
      ∀ a ∈ ν.data.head?, ∀ t, w.bus (t + 1) b = a.level w t
  | _ => True

theorem follows_node (n : Netlist) (w : Signals) (x : Component) :
    (n.node x).Follows w ↔ n.Follows w x := by
  have hkind : (n.node x).kind = x.kind := rfl
  have hpads : (n.node x).go :: (n.node x).data = (x.go :: x.dataPorts).map n.pad := rfl
  have hdata : (n.node x).data = x.dataPorts.map n.pad := rfl
  have hlevel : ∀ t p, n.level w t p = (n.pad p).level w t := fun _ _ => rfl
  have hcomputes : ∀ g, (n.node x).Computes w g ↔ n.Computes w g x := by
    intro g
    simp only [Node.Computes, Computes, result?_node, hdata, List.map_map]
    exact Iff.rfl
  unfold Node.Follows Follows
  rw [hkind, hpads, hdata, result?_node]
  cases x.kind with
  | module | outBuf => simp [Repeats, hlevel, pad]
  | andGate | orGate | notGate => exact hcomputes _
  | reg kind =>
    cases kind with
    | reg | regR => simp [hlevel]
    | regRS => rfl
  | _ => rfl

/-! ### The parts of an accessor -/

section

variable {ν : Node}

theorem Node.Shows.result? {x : Cell} (h : ν.Shows x) : ν.result? = x.results.head? := by
  obtain ⟨o, ho, hdata⟩ := h.outlet?
  simp [Node.result?, ho, hdata]

/-- What arrives at ports that are all driven. -/
theorem levels_of_drivers {as : List Pad} {bs : List BusId}
    (h : as.map Pad.driver = bs.map some) (t : Nat) :
    as.map (Pad.level w t) = bs.map (w.bus t) := by
  induction bs generalizing as with
  | nil => simp_all
  | cons b bs ih =>
    cases as with
    | nil => simp at h
    | cons a as =>
      simp only [List.map_cons, List.cons.injEq] at h ⊢
      exact ⟨Pad.level_of_driver h.1 t, ih h.2⟩

theorem follows_gatePart {g : Gate} {inputs : List BusId} {result : BusId}
    (h : (gatePart m g inputs result).Of ν) :
    ν.Follows w ↔ ∀ t k, w.bus t result k = g.eval (inputs.map fun b => w.bus t b k) := by
  have shows : ν.Shows _ := h
  have computes : ν.Computes w g ↔
      ∀ t k, w.bus t result k = g.eval (inputs.map fun b => w.bus t b k) := by
    have levels : ∀ t k, ν.data.map (fun a => a.level w t k) = inputs.map fun b => w.bus t b k := by
      intro t k
      have words := levels_of_drivers (w := w) shows.data t
      simpa [Function.comp_def] using congrArg (List.map fun v : Word => v k) words
    simp only [Node.Computes, shows.result?, List.head?_cons, Option.mem_def, Option.some.injEq,
      forall_eq', levels]
  have kind : ν.kind = g.kind := shows.kind
  rw [← computes, Node.Follows, kind]
  cases g <;> rfl

theorem follows_readPart {pin : PinId} {result : BusId} (h : (readPart m pin result).Of ν) :
    ν.Follows w ↔ ∀ t, w.bus t result = w.pin t pin := by
  have shows : ν.Shows _ := h
  have kind : ν.kind = .pinRead pin := shows.kind
  rw [Node.Follows, kind]
  simp [shows.result?]

theorem follows_writePart {pin : PinId} {value go : BusId} (h : (writePart m pin value go).Of ν) :
    ν.Follows w := by
  have shows : ν.Shows _ := h
  have kind : ν.kind = .pinWrite pin := shows.kind
  rw [Node.Follows, kind]
  trivial

theorem follows_flopPart {v : Wires} (h : (flopPart m v).Of ν) :
    ν.Follows w ↔ (∀ k, w.bus 0 v.stored k = false) ∧ ∀ t, w.bus (t + 1) v.stored = w.bus t v.hold := by
  have shows : ν.Shows _ := h
  have kind : ν.kind = .reg .regR := shows.kind
  obtain ⟨a, as, data, driver, -⟩ := List.map_eq_cons_iff.mp shows.data
  rw [Node.Follows, kind]
  simp [shows.result?, data, Pad.level_of_driver driver]

theorem Node.follows_boundary (h : (∃ kind, ν.kind = .module kind) ∨ ν.kind = .outBuf) :
    ν.Follows w ↔ ∀ a ∈ ν.go :: ν.data, ∀ b, a.peer = some b → ∀ t, w.bus t b = a.level w t := by
  rcases h with ⟨kind, h⟩ | h
  · rw [Node.Follows, h]
  · rw [Node.Follows, h]

theorem Node.Encloses.follows {x : Box} (h : ν.Encloses x) :
    ν.Follows w ↔ (∀ t, w.bus t x.start = ν.go.level w t) ∧
      ∀ a ∈ ν.data, ∀ b, a.peer = some b → ∀ t, w.bus t b = a.level w t := by
  rw [Node.follows_boundary (.inl ⟨_, h.kind⟩), List.forall_mem_cons, h.start]
  simp

theorem Node.OutBuf.follows {done go : BusId} {data : List (Option BusId × Option BusId)}
    (h : ν.OutBuf m done (some go) data) :
    ν.Follows w ↔ (∀ t, w.bus t done = w.bus t go) ∧
      ∀ a ∈ ν.data, ∀ b, a.peer = some b → ∀ t, w.bus t b = a.level w t := by
  rw [Node.follows_boundary (.inr h.kind), List.forall_mem_cons, h.done]
  simp [Pad.level_of_driver h.go]

theorem InBufNode.follows {o : Outlet} (h : InBufNode m ν o) : ν.Follows w := by
  rw [Node.Follows, h.kind]
  trivial

end

/-! ### Pins that a node drives -/

/-- The node drives the pin with the word. -/
def Node.Drives (w : Signals) (t : Nat) (pin : PinId) (word : Word) (ν : Node) : Prop :=
  ν.kind = .pinWrite pin ∧ ν.go.level w t 0 = true ∧ ∃ a, ν.data = [a] ∧ a.level w t = word

section

variable {ν : Node} {t : Nat} {pin : PinId} {word : Word}

theorem drives_writePart {pin' : PinId} {value go : BusId} (h : (writePart m pin' value go).Of ν) :
    ν.Drives w t pin word ↔ pin' = pin ∧ w.bus t go 0 = true ∧ w.bus t value = word := by
  have shows : ν.Shows _ := h
  obtain ⟨a, hdata, ha⟩ := List.map_eq_singleton_iff.mp shows.data
  rw [Node.Drives, shows.kind, Pad.level_of_driver shows.go, hdata]
  simp [Pad.level_of_driver ha]

/-- Only writes of pins drive pins. -/
theorem Node.not_drives {kind : ComponentKind} (h : ν.kind = kind) (hkind : kind ≠ .pinWrite pin) :
    ¬ ν.Drives w t pin word :=
  fun hdrives => hkind (h.symm.trans hdrives.1)

theorem not_drives_gatePart {g : Gate} {inputs : List BusId} {result : BusId}
    (h : (gatePart m g inputs result).Of ν) : ¬ ν.Drives w t pin word :=
  Node.not_drives (Node.Shows.kind h) (by cases g <;> exact nofun)

theorem not_drives_readPart {pin' : PinId} {result : BusId} (h : (readPart m pin' result).Of ν) :
    ¬ ν.Drives w t pin word :=
  Node.not_drives (Node.Shows.kind h) nofun

theorem not_drives_flopPart {v : Wires} (h : (flopPart m v).Of ν) : ¬ ν.Drives w t pin word :=
  Node.not_drives (Node.Shows.kind h) nofun

theorem Node.Encloses.not_drives {x : Box} (h : ν.Encloses x) : ¬ ν.Drives w t pin word :=
  Node.not_drives h.kind nofun

theorem Node.OutBuf.not_drives {done : BusId} {go : Option BusId}
    {data : List (Option BusId × Option BusId)} (h : ν.OutBuf m done go data) :
    ¬ ν.Drives w t pin word :=
  Node.not_drives h.kind nofun

theorem InBufNode.not_drives {o : Outlet} (h : InBufNode m ν o) : ¬ ν.Drives w t pin word :=
  Node.not_drives h.kind nofun

end

/-! ### Modules from outside -/

theorem started_iff_node {c : ComponentId} {ν : Node} (hν : (Γ.sheet n).node? c = some ν) (t : Nat) :
    n.Started w c t ↔ ν.go.level w t 0 = true := by
  obtain ⟨x, hx, rfl⟩ := drawn hν
  constructor
  · rintro ⟨y, hy, hgo⟩
    cases hx.symm.trans hy
    exact hgo
  · exact fun hgo => ⟨x, hx, hgo⟩

theorem Proper.finished_iff_node (hn : Proper Γ n) {c : ComponentId} {ν : Node}
    (hν : (Γ.sheet n).node? c = some ν) {o : Outlet} (ho : ν.outlet? .done = some o) (t : Nat) :
    n.Finished w c t ↔ w.bus t o.done 0 = true := by
  obtain ⟨x, hx, rfl⟩ := drawn hν
  rw [outlet?_node] at ho
  obtain ⟨e, he, rfl⟩ := Option.map_eq_some_iff.mp ho
  obtain ⟨y, hy, -⟩ := hn.exit hx (le_of_node? hν) (OrderedMap.mem_values_of_find? he)
  have hmain : x.mainExit?.bind n.exits.get? = some y := by
    simp [Component.mainExit?, he, hy]
  rw [outlet_of_get? hy]
  constructor
  · rintro ⟨x', y', hx', hy', hdone⟩
    cases hx.symm.trans hx'
    cases hmain.symm.trans hy'
    exact hdone
  · exact fun hdone => ⟨x, y, hx, hmain, hdone⟩

/-! ### Modules that were drawn as a whole -/

/-- The sheet shows no more than there was, and what was added. -/
theorem Sheet.of_node?_adds {σ : Sheet} {νs : List Node} {c : ComponentId} {ν : Node}
    (h : (σ.adds νs).node? c = some ν) :
    σ.node? c = some ν ∨ ∃ k, νs[k]? = some ν ∧ c = σ.fresh k := by
  induction νs generalizing σ with
  | nil => exact .inl h
  | cons μ νs ih =>
    rcases ih h with h | ⟨k, hk, rfl⟩
    · by_cases hc : c = σ.next
      · subst hc
        rw [node?_add_next] at h
        exact .inr ⟨0, h, rfl⟩
      · rw [node?_add_of_ne _ _ hc] at h
        exact .inl h
    · refine .inr ⟨k + 1, hk, ?_⟩
      simp only [fresh, size_add, Nat.add_comm k, Nat.add_assoc]

/-- All that was added to the ground is a module `M` with what belongs to it. -/
structure Built (Γ : Ground) (n : Netlist) (M : Node) (νs : List Node) : Prop where
  proper : Proper Γ n
  /-- What was there before does not belong to what is new. -/
  before : Linked Γ.pins {} Γ.base
  sheet : Γ.sheet n = (Γ.sheet Γ.base).adds (M :: νs)
  owners : ∀ ν ∈ νs, ν.owner = some (Γ.sheet Γ.base).next

/-- What a part belongs to. -/
def Piece.owner? : Piece → Option ComponentId
  | .inBuf m _ => some m
  | .outBuf m .. => some m
  | .cell x => x.owner

theorem owners_of_parts {ps : List Piece} {νs : List Node} (h : List.Forall₂ Piece.Of ps νs)
    (hps : ∀ p ∈ ps, p.owner? = some m) : ∀ ν ∈ νs, ν.owner = some m := by
  induction h with
  | nil => simp
  | @cons p ν ps νs hp _ ih =>
      obtain ⟨howner, hrest⟩ := List.forall_mem_cons.mp hps
      refine List.forall_mem_cons.mpr ⟨?_, ih hrest⟩
      cases p with
      | inBuf => exact (InBufNode.owner hp).trans howner
      | outBuf => exact (Node.OutBuf.owner hp).trans howner
      | cell => exact (Node.Shows.owner hp).trans howner

/-- The module that was added. -/
abbrev Ground.module (Γ : Ground) : ComponentId := (Γ.sheet Γ.base).next

namespace Built

variable {M : Node} {νs : List Node} (h : Built Γ n M νs)

include h

theorem node? {k : Nat} {ν : Node} (hk : (M :: νs)[k]? = some ν) :
    (Γ.sheet n).node? ((Γ.sheet Γ.base).fresh k) = some ν := by
  obtain ⟨hlt, -⟩ := List.getElem?_eq_some_iff.mp hk
  rw [h.sheet, Sheet.node?_adds_fresh _ _ hlt, hk]

theorem found {k : Nat} {ν : Node} (hk : (M :: νs)[k]? = some ν) :
    ∃ x, n.components.get? ((Γ.sheet Γ.base).fresh k) = some x ∧ n.node x = ν :=
  drawn (h.node? hk)

theorem found_module : ∃ x, n.components.get? Γ.module = some x ∧ n.node x = M :=
  h.found (k := 0) rfl

/-- What is new is one of the nodes. -/
theorem of_new {c : ComponentId} (hle : Γ.base.components.size ≤ c.index) {x : Component}
    (hx : n.components.get? c = some x) :
    ∃ k, (M :: νs)[k]? = some (n.node x) ∧ c = (Γ.sheet Γ.base).fresh k := by
  have hν : (Γ.sheet n).node? c = some (n.node x) := by rw [node?_sheet n hle, hx, Option.map_some]
  rw [h.sheet] at hν
  rcases Sheet.of_node?_adds hν with hold | hnew
  · have hlt : c.index < Γ.base.components.size := lt_of_node? hold
    exact absurd hle (Nat.not_le_of_lt hlt)
  · exact hnew

theorem inside_fresh {k : Nat} {ν : Node} (hk : (M :: νs)[k]? = some ν) :
    n.Inside Γ.module ((Γ.sheet Γ.base).fresh k) := by
  cases k with
  | zero => exact .self
  | succ k =>
    obtain ⟨x, hx, hxν⟩ := h.found hk
    refine .owned hx ?_ .self
    have howner : (n.node x).owner = some Γ.module := by
      rw [hxν]
      exact h.owners ν (List.mem_of_getElem? hk)
    exact howner

/-- Only new components are inside: the owner of an old one is old. -/
theorem new_of_inside {c : ComponentId} (hc : n.Inside Γ.module c) :
    Γ.base.components.size ≤ c.index := by
  induction hc with
  | self => exact Nat.le_refl _
  | @owned c o x found owner inside ih =>
    rcases Nat.lt_or_ge c.index Γ.base.components.size with hlt | hge
    · have hold : Γ.base.components.get? c = some x :=
        (h.proper.linked.keeps.components.get? c hlt).symm.trans found
      have hrefs := (h.before.components c x hold (Nat.zero_le _)).refs
      have howner := (Component.forall_refs.mp hrefs).1 o owner
      exact absurd ih (Nat.not_le_of_lt howner.2)
    · exact hge

theorem runs_iff : n.Runs w Γ.module ↔ ∀ ν ∈ M :: νs, ν.Follows w := by
  constructor
  · intro hruns ν hν
    obtain ⟨k, hk⟩ := List.mem_iff_getElem?.mp hν
    obtain ⟨x, hx, rfl⟩ := h.found hk
    exact (follows_node n w x).mpr (hruns _ x (h.inside_fresh hk) hx)
  · intro hall c x hc hx
    obtain ⟨k, hk, -⟩ := h.of_new (h.new_of_inside hc) hx
    exact (follows_node n w x).mp (hall _ (List.mem_of_getElem? hk))

theorem started_iff (t : Nat) : n.Started w Γ.module t ↔ M.go.level w t 0 = true :=
  started_iff_node (h.node? (k := 0) rfl) t

theorem done_iff {o : Outlet} (ho : M.outlet? .done = some o) (t : Nat) :
    n.Finished w Γ.module t ↔ w.bus t o.done 0 = true :=
  h.proper.finished_iff_node (h.node? (k := 0) rfl) ho t

theorem returns_iff {b : BusId} (hb : M.result? = some b) (t : Nat) (v : Word) :
    n.Returns w Γ.module t v ↔ w.bus t b = v := by
  obtain ⟨x, hx, rfl⟩ := h.found_module
  rw [result?_node] at hb
  constructor
  · rintro ⟨y, b', hy, hb', hv⟩
    cases hx.symm.trans hy
    cases hb.symm.trans hb'
    exact hv
  · exact fun hv => ⟨x, b, hx, hb, hv⟩

theorem given_iff {a : Pad} (ha : M.data = [a]) (t : Nat) (v : Word) :
    n.Given w Γ.module t v ↔ a.level w t = v := by
  obtain ⟨x, hx, rfl⟩ := h.found_module
  obtain ⟨p, hp, rfl⟩ := List.map_eq_singleton_iff.mp ha
  constructor
  · rintro ⟨y, q, hy, hq, hv⟩
    cases hx.symm.trans hy
    cases hp.symm.trans hq
    exact hv
  · exact fun hv => ⟨x, p, hx, hp, hv⟩

/-- The ports of the module are not the same. -/
theorem go_ne_data {a : Pad} (ha : M.data = [a]) : M.go.port ≠ a.port := by
  obtain ⟨x, hx, rfl⟩ := h.found_module
  obtain ⟨p, hp, rfl⟩ := List.map_eq_singleton_iff.mp ha
  have hnodup := (h.proper.shape.components _ x hx (Nat.le_refl _)).nodup
  intro heq
  have hgo : x.go = p := heq
  simp [Component.ports, hp, hgo] at hnodup

theorem drives_iff (t : Nat) (pin : PinId) (v : Word) :
    n.Drives w Γ.module t pin v ↔ ∃ ν ∈ M :: νs, ν.Drives w t pin v := by
  constructor
  · rintro ⟨c, x, p, hc, hx, hkind, hgo, hp, hv⟩
    obtain ⟨k, hk, -⟩ := h.of_new (h.new_of_inside hc) hx
    refine ⟨n.node x, List.mem_of_getElem? hk, hkind, hgo, n.pad p, ?_, hv⟩
    simp [node, hp]
  · rintro ⟨ν, hν, hkind, hgo, a, ha, hv⟩
    obtain ⟨k, hk⟩ := List.mem_iff_getElem?.mp hν
    obtain ⟨x, hx, rfl⟩ := h.found hk
    obtain ⟨p, hp, rfl⟩ := List.map_eq_singleton_iff.mp ha
    exact ⟨_, x, p, h.inside_fresh hk, hx, hkind, hgo, hp, hv⟩

end Built

/-! ### Buses are all different -/

/-- The component that gives out the bus, and what the bus is for. -/
def origin (n : Netlist) (b : BusId) : Option ComponentId × Option BusRole :=
  ((n.buses.get? b).bind fun z => (n.exits.get? z.owner).map Exit.owner, n.busRole? b)

section

variable {c : ComponentId} {ν : Node} {o : Outlet} {b : BusId} (h : Proper Γ n)
  (hν : (Γ.sheet n).node? c = some ν) (ho : o ∈ ν.outlets)

include h hν ho

theorem Proper.origin_fst (hb : b ∈ o.buses) : (n.origin b).1 = some c := by
  obtain ⟨z, hz⟩ := Arena.exists_get? (h.has_bus hν (Node.mem_buses.mpr ⟨o, ho, hb⟩)).2
  obtain ⟨y, hy, rfl, heq, hnew⟩ := h.has_exit hν ho
  rw [heq] at hb
  have howner : z.owner = o.exit := (h.linked.exits _ y hy hnew).buses b hb z hz
  simp [origin, hz, howner, hy]

theorem Proper.origin_done : n.origin o.done = (some c, some .done) := by
  obtain ⟨y, hy, -, heq, hnew⟩ := h.has_exit hν ho
  refine Prod.ext (h.origin_fst hν ho (by simp [Outlet.buses])) ?_
  rw [heq]
  exact (h.shape.exits _ y hy hnew).done

theorem Proper.origin_data (hb : b ∈ o.data) : n.origin b = (some c, some .data) := by
  obtain ⟨y, hy, -, heq, hnew⟩ := h.has_exit hν ho
  refine Prod.ext (h.origin_fst hν ho (by simp [Outlet.buses, hb])) ?_
  rw [heq] at hb
  exact (h.shape.exits _ y hy hnew).data b hb

omit ho in
theorem Proper.origin_result {x : Cell} (hx : ν.Shows x) (hb : b ∈ x.results) :
    n.origin b = (some c, some .data) := by
  obtain ⟨o, ho, hdata⟩ := hx.outlet?
  exact h.origin_data hν (Node.outlet?_mem ho) (hdata ▸ hb)

end

/-- The origin of a bus of the `k`-th component behind `m`. -/
def placed (m : ComponentId) (e : Nat × BusRole) : Option ComponentId × Option BusRole :=
  (some (after m e.1), some e.2)

/-- Buses that come from different places are different. -/
theorem nodup_of_origins {bs : List BusId} {es : List (Nat × BusRole)}
    (h : bs.map n.origin = es.map (placed m)) (hes : es.Nodup) : bs.Nodup := by
  have hinj : Function.Injective (placed m) := by
    rintro ⟨j, r⟩ ⟨k, r'⟩ heq
    simpa [placed, after] using heq
  exact .of_map n.origin (h ▸ hes.map hinj)

/-- The nodes stand one behind the other, the first of them at `m`. -/
def Sheet.Row (σ : Sheet) (m : ComponentId) (νs : List Node) : Prop :=
  ∀ k ν, νs[k]? = some ν → σ.node? (after m k) = some ν

theorem Sheet.Row.tail {σ : Sheet} {m : ComponentId} {ν : Node} {νs : List Node}
    (h : σ.Row m (ν :: νs)) : σ.Row (after m 1) νs := by
  intro k μ hk
  have hplace : after (after m 1) k = after m (k + 1) :=
    Handle.ext_index (by simp [after, Nat.add_comm, Nat.add_left_comm])
  exact hplace ▸ h (k + 1) μ hk

theorem Built.row {M : Node} {νs : List Node} (h : Built Γ n M νs) :
    (Γ.sheet n).Row Γ.module (M :: νs) := fun _ _ hk => h.node? hk

end DataflowSynth.Netlist
