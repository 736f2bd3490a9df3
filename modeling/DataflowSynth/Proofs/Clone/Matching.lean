/-
Components that match become twins.

Two components match when they have as many ports and exits of each sort.  In a shaped netlist the
terminals are then of the same roles in the same order, and mapping one component to the other gives
each terminal its counterpart.
-/
import DataflowSynth.Proofs.Clone.Mapping
import DataflowSynth.Proofs.Netlist.Changes
import Mathlib.Data.List.Nodup

namespace DataflowSynth.Netlist

open Build

variable {pins : Nat} {base n s t : Netlist}

/-! ### Terminals are listed once -/

section

variable (hl : Linked pins base n) {c : ComponentId} {x : Component}
  (hx : n.components.get? c = some x) (hc : base.components.size ≤ c.index)

include hl hx hc

theorem Linked.nodup_exits (htags : x.exits.keys.Nodup) : x.exits.values.Nodup := by
  have hmap : x.exits.values.map (fun e => (n.exits.get? e).map Exit.tag) =
      x.exits.keys.map some := by
    simp only [OrderedMap.values, OrderedMap.keys, List.map_map]
    refine List.map_congr_left fun e he => ?_
    have hmem : e.2 ∈ x.exits.values := OrderedMap.mem_values.mpr ⟨e, he, rfl⟩
    obtain ⟨y, hy⟩ := Arena.exists_get? (hl.exit_new hx hc hmem).2
    simp only [Function.comp_apply, hy, Option.map_some]
    rw [((hl.components c x hx hc).exits e he y hy).2]
  refine List.Nodup.of_map (fun e => (n.exits.get? e).map Exit.tag) ?_
  rw [hmap]
  exact htags.map fun _ _ => Option.some.inj

/-- The buses of all exits of a component. -/
theorem Linked.nodup_buses (hs : Shaped base n) :
    (x.exits.values.flatMap fun e => (n.exits.get? e).elim [] Exit.buses).Nodup := by
  refine List.nodup_flatMap.mpr ⟨fun e he => ?_, ?_⟩
  · obtain ⟨y, hy⟩ := Arena.exists_get? (hl.exit_new hx hc he).2
    simp only [hy, Option.elim_some]
    exact (hs.exits e y hy (hl.exit_new hx hc he).1).nodup
  · refine (hl.nodup_exits hx hc (hs.components c x hx hc).tags).imp_of_mem ?_
    intro e e' he he' hne b hb hb'
    obtain ⟨y, hy⟩ := Arena.exists_get? (hl.exit_new hx hc he).2
    obtain ⟨y', hy'⟩ := Arena.exists_get? (hl.exit_new hx hc he').2
    simp only [hy, Option.elim_some] at hb
    simp only [hy', Option.elim_some] at hb'
    have hlinked := hl.exits e y hy (hl.exit_new hx hc he).1
    have hlinked' := hl.exits e' y' hy' (hl.exit_new hx hc he').1
    obtain ⟨z, hz⟩ := Arena.exists_get? ((Exit.forall_refs.mp hlinked.refs).2.1 b hb).2
    exact hne ((hlinked.buses b hb z hz).symm.trans (hlinked'.buses b hb' z hz))

end

/-! ### Matching components -/

/-- Two exits with as many data buses, and control buses of the same roles. -/
def ExitMatches (n t : Netlist) (e e' : ExitId) : Prop :=
  ∃ y y', n.exits.get? e = some y ∧ t.exits.get? e' = some y' ∧
    y'.data.length = y.data.length ∧ y'.control.map t.busRole? = y.control.map n.busRole?

/-- Two components with as many ports, and exits that match one by one. -/
structure Matches (n t : Netlist) (x x' : Component) : Prop where
  this : x'.this.isSome = x.this.isSome
  data : x'.dataPorts.length = x.dataPorts.length
  exits : List.Forall₂ (fun a b => a.1 = b.1 ∧ ExitMatches n t a.2 b.2) x.exits.entries
    x'.exits.entries

theorem forall₂_of_length {α β : Type} {P : α → β → Prop} {l : List α} {l' : List β}
    (hlength : l'.length = l.length) (h : ∀ a ∈ l, ∀ b ∈ l', P a b) : List.Forall₂ P l l' := by
  rw [List.forall₂_iff_zip]
  exact ⟨hlength.symm, fun hz => h _ (List.of_mem_zip hz).1 _ (List.of_mem_zip hz).2⟩

/-- Two ports of one role. -/
def SamePortRole (n t : Netlist) (p p' : PortId) : Prop :=
  ∃ r, n.portRole? p = some r ∧ t.portRole? p' = some r

def SameBusRole (n t : Netlist) (b b' : BusId) : Prop :=
  ∃ r, n.busRole? b = some r ∧ t.busRole? b' = some r

theorem Matches.ports {c c' : ComponentId} {x x' : Component} (h : Matches n t x x')
    (hx : ComponentShaped n c x) (hx' : ComponentShaped t c' x') :
    List.Forall₂ (SamePortRole n t) x.ports x'.ports := by
  refine List.rel_append (List.rel_append (.cons ⟨_, hx.clock, hx'.clock⟩
    (.cons ⟨_, hx.reset, hx'.reset⟩ (.cons ⟨_, hx.go, hx'.go⟩ .nil))) ?_) ?_
  · have hthis := h.this
    cases hp : x.this with
    | none =>
        obtain hp' : x'.this = none := by simpa [hp] using hthis
        rw [hp']
        exact .nil
    | some p =>
        obtain ⟨p', hp'⟩ := Option.isSome_iff_exists.mp (hthis.trans (by rw [hp]; rfl))
        rw [hp']
        exact .cons ⟨_, hx.this p hp, hx'.this p' hp'⟩ .nil
  · exact forall₂_of_length h.data fun p hp p' hp' => ⟨_, hx.data p hp, hx'.data p' hp'⟩

theorem ExitMatches.buses {e e' : ExitId} {y y' : Exit} (h : ExitMatches n t e e')
    (hn : n.exits.get? e = some y) (ht : t.exits.get? e' = some y') {base base' : Netlist}
    (hl : ExitLinked base n e y) (hy : ExitShaped base n y) (hy' : ExitShaped base' t y') :
    List.Forall₂ (SameBusRole n t) y.buses y'.buses := by
  obtain ⟨z, z', hz, hz', hdata, hcontrol⟩ := h
  cases hn.symm.trans hz
  cases ht.symm.trans hz'
  refine .cons ⟨_, hy.done, hy'.done⟩ (List.rel_append ?_ ?_)
  · exact forall₂_of_length hdata fun b hb b' hb' => ⟨_, hy.data b hb, hy'.data b' hb'⟩
  · have hrel : List.Forall₂ (fun b b' => t.busRole? b' = n.busRole? b) y.control y'.control := by
      rw [← List.forall₂_map_left_iff (f := n.busRole?) (R := fun r b' => t.busRole? b' = r),
        ← List.forall₂_map_right_iff (f := t.busRole?) (R := fun r r' => r' = r), hcontrol]
      exact List.forall₂_refl _
    refine forall₂_imp_mem hrel fun b hb b' _ hrole => ?_
    have hnew := (Exit.forall_refs.mp hl.refs).2.1 b (Exit.mem_buses_of_control hb)
    obtain ⟨z, hz⟩ := Arena.exists_get? hnew.2
    have hsome : n.busRole? b = some z.role := by rw [busRole?, hz]; rfl
    exact ⟨z.role, hsome, hrole.trans hsome⟩

/-! ### Mapping -/

/-- The netlist in which ports and buses are named like their counterparts in `n`. -/
def named (n t : Netlist) (ps : List (PortId × PortId)) (bs : List (BusId × BusId)) : Netlist :=
  { t with ports := t.ports.modifyEach n.namePort ps, buses := t.buses.modifyEach n.nameBus bs }

theorem shape_namePort (n : Netlist) (p : PortId) (y : Port) : (n.namePort p y).shape = y.shape := by
  unfold namePort
  split <;> rfl

theorem shape_nameBus (n : Netlist) (b : BusId) (z : Bus) : (n.nameBus b z).shape = z.shape := by
  unfold nameBus
  split <;> rfl

theorem sameShape_namePorts (n t : Netlist) (ps : List (PortId × PortId)) :
    SameShape t { t with ports := t.ports.modifyEach n.namePort ps } := by
  unfold Arena.modifyEach
  induction ps generalizing t with
  | nil => exact .refl t
  | cons z zs ih => exact (sameShape_modifyPort fun y _ => shape_namePort n z.1 y).trans (ih _)

theorem sameShape_nameBuses (n t : Netlist) (bs : List (BusId × BusId)) :
    SameShape t { t with buses := t.buses.modifyEach n.nameBus bs } := by
  unfold Arena.modifyEach
  induction bs generalizing t with
  | nil => exact .refl t
  | cons z zs ih => exact (sameShape_modifyBus fun y _ => shape_nameBus n z.1 y).trans (ih _)

theorem sameShape_named (n t : Netlist) (ps : List (PortId × PortId)) (bs : List (BusId × BusId)) :
    SameShape t (n.named t ps bs) :=
  (sameShape_namePorts n t ps).trans (sameShape_nameBuses n _ bs)

theorem Linked.namePorts (h : Linked pins base t) {ps : List (PortId × PortId)}
    (hps : ∀ z ∈ ps, base.ports.size ≤ z.2.index) (n : Netlist) :
    Linked pins base { t with ports := t.ports.modifyEach n.namePort ps } := by
  unfold Arena.modifyEach
  induction ps generalizing t with
  | nil => exact h
  | cons z zs ih =>
      refine ih (h.modifyPort (hps z (by simp)) fun y _ => ?_) fun w hw => hps w (by simp [hw])
      unfold namePort
      split <;> exact ⟨rfl, rfl, fun b hb => .inl hb⟩

theorem Linked.nameBuses (h : Linked pins base t) {bs : List (BusId × BusId)}
    (hbs : ∀ z ∈ bs, base.buses.size ≤ z.2.index) (n : Netlist) :
    Linked pins base { t with buses := t.buses.modifyEach n.nameBus bs } := by
  unfold Arena.modifyEach
  induction bs generalizing t with
  | nil => exact h
  | cons z zs ih =>
      refine ih (h.modifyBus (hbs z (by simp)) fun y _ => ?_) fun w hw => hbs w (by simp [hw])
      unfold nameBus
      split <;> exact ⟨rfl, rfl, fun b hb => .inl hb⟩

/-- What a correspondence learns when `x`, the component `c`, is mapped to `x'`, the component
`copy`. -/
def learnComponent (n t : Netlist) (map : Correspondence) (c copy : ComponentId)
    (x x' : Component) : Correspondence :=
  learnExits n t { map with
    components := map.components.put c copy
    ports := learn map.ports (x.ports.zip x'.ports) } (x.exits.values.zip x'.exits.values)

theorem ports_learnComponent (map : Correspondence) :
    (learnComponent n t map c copy x x').ports = learn map.ports (x.ports.zip x'.ports) := by
  rw [learnComponent, learnExits]

/-- The netlist in which the terminals of `x'` are named like those of `x`. -/
def namedLike (n t : Netlist) (x x' : Component) : Netlist :=
  n.named t (x.ports.zip x'.ports) ((x.exits.values.zip x'.exits.values).flatMap (n.busPairs t))

/-- `x` is a component of `n`, which has grown into `s`, and `x'` is one that `t` has beyond `s`. -/
structure Side (pins : Nat) (n s t : Netlist) (c copy : ComponentId) (x x' : Component) : Prop where
  whole : Whole pins n
  before : n.Keeps s
  linked : Linked pins s t
  shaped : Shaped s t
  source : n.components.get? c = some x
  target : t.components.get? copy = some x'
  new : s.components.size ≤ copy.index

namespace Side

variable {c copy : ComponentId} {x x' : Component} (h : Side pins n s t c copy x x')

include h

theorem pairsFit : PairsFit n t (x.exits.values.zip x'.exits.values) where
  source z hz := by
    have hnew := h.whole.linked.exit_new h.source (Nat.zero_le _) (List.of_mem_zip hz).1
    obtain ⟨y, hy⟩ := Arena.exists_get? hnew.2
    have hlinked := h.whole.linked.exits z.1 y hy (Nat.zero_le _)
    exact ⟨y, hy, fun b hb => ((Exit.forall_refs.mp hlinked.refs).2.1 b hb).2⟩
  target z hz := by
    have hnew := h.linked.exit_new h.target h.new (List.of_mem_zip hz).2
    obtain ⟨y, hy⟩ := Arena.exists_get? hnew.2
    have hlinked := h.linked.exits z.2 y hy hnew.1
    refine ⟨y, hy, fun b hb => ?_⟩
    have hb := (Exit.forall_refs.mp hlinked.refs).2.1 b hb
    exact ⟨Nat.le_trans h.before.buses.size hb.1, hb.2⟩

theorem portPairs {z : PortId × PortId} (hz : z ∈ x.ports.zip x'.ports) :
    z.1.index < n.ports.size ∧ s.ports.size ≤ z.2.index ∧ z.2.index < t.ports.size := by
  have hsource := (h.whole.linked.components c x h.source (Nat.zero_le _)).refs
  have htarget := (h.linked.components copy x' h.target h.new).refs
  have h1 := (Component.forall_refs.mp hsource).2.1 _ (List.of_mem_zip hz).1
  have h2 := (Component.forall_refs.mp htarget).2.1 _ (List.of_mem_zip hz).2
  exact ⟨h1.2, h2.1, h2.2⟩

theorem busPairs {z : BusId × BusId}
    (hz : z ∈ (x.exits.values.zip x'.exits.values).flatMap (n.busPairs t)) :
    s.buses.size ≤ z.2.index := by
  obtain ⟨w, hw, hz⟩ := List.mem_flatMap.mp hz
  have hnew := h.linked.exit_new h.target h.new (List.of_mem_zip hw).2
  obtain ⟨y, hy⟩ := Arena.exists_get? hnew.2
  have hmem := (List.of_mem_zip hz).2
  rw [hy] at hmem
  exact ((Exit.forall_refs.mp (h.linked.exits w.2 y hy hnew.1).refs).2.1 z.2 hmem).1

end Side

theorem wp_mapComponent {u : Traced Netlist} {Q : Correspondence → Traced Netlist → Prop}
    {F : Failure → Traced Netlist → Prop} {c copy : ComponentId} {x x' : Component}
    (h : Side pins n s u.state c copy x x') (map : Correspondence) :
    wp (mapComponent map c copy) Q F u ↔
      Q (learnComponent n u.state map c copy x x') (moved u (n.namedLike u.state x x')) := by
  have hk := h.before.trans h.linked.keeps
  have hx : u.state.components.get? c = some x :=
    (hk.components.get? c (Arena.lt_of_get? h.source)).trans h.source
  have hports := fun z (hz : z ∈ x.ports.zip x'.ports) => h.portPairs hz
  simp only [mapComponent, wp_bind]
  refine .trans (wp_component hx) (.trans (wp_component h.target) ?_)
  refine .trans (wp_mapPorts hk.ports (fun z hz => (hports z hz).1) fun z hz =>
    ⟨Nat.le_trans h.before.ports.size (hports z hz).2.1, (hports z hz).2.2⟩) ?_
  refine .trans (wp_component hx) (.trans (wp_component h.target) ?_)
  exact .trans (wp_mapExits (t := u.state) rfl rfl hk.exits hk.buses h.pairsFit) Iff.rfl

/-! ### What mapping leaves -/

/-- What is left when `c` has been mapped to `copy`. -/
structure Mapped (pins : Nat) (n s t t' : Netlist) (map map' : Correspondence)
    (c copy : ComponentId) (x x' : Component) : Prop where
  linked : Linked pins s t'
  grows : t.Grows t'
  shape : SameShape t t'
  components : t'.components = t.components
  exits : t'.exits = t.exits
  spares : Spares (· = copy) t t'
  learns : Correspondence.Extends n (· = c) map map'
  found : map'.components.find? c = some copy
  twins : TerminalTwin n t' map' x x'

namespace Side

variable {c copy : ComponentId} {x x' : Component} (h : Side pins n s t c copy x x')

include h

theorem linked_namedLike : Linked pins s (n.namedLike t x x') :=
  (h.linked.namePorts (fun _ hz => (h.portPairs hz).2.1) n).nameBuses (fun _ hz => h.busPairs hz) n

/-- A port of another component has not been named. -/
theorem port_namedLike {p : PortId} {y : Port} (hy : t.ports.get? p = some y)
    (howner : y.owner ≠ copy) : (n.namedLike t x x').ports.get? p = some y := by
  refine (Arena.get?_modifyEach_of_notMem (fun hmem => howner ?_) _).trans hy
  obtain ⟨z, hz, rfl⟩ := List.mem_map.mp hmem
  exact (h.linked.components copy x' h.target h.new).ports z.2 (List.of_mem_zip hz).2 y hy

theorem bus_namedLike {b : BusId} {z : Bus} {y : Exit} (hz : t.buses.get? b = some z)
    (hy : t.exits.get? z.owner = some y) (howner : y.owner ≠ copy) :
    (n.namedLike t x x').buses.get? b = some z := by
  refine (Arena.get?_modifyEach_of_notMem (fun hmem => howner ?_) _).trans hz
  obtain ⟨w, hw, rfl⟩ := List.mem_map.mp hmem
  obtain ⟨v, hv, hw⟩ := List.mem_flatMap.mp hw
  have hlisted := (List.of_mem_zip hv).2
  have hnew := h.linked.exit_new h.target h.new hlisted
  obtain ⟨y', hy'⟩ := Arena.exists_get? hnew.2
  have hmem := (List.of_mem_zip hw).2
  rw [hy'] at hmem
  have hbus := (h.linked.exits v.2 y' hy' hnew.1).buses w.2 hmem z hz
  rw [hbus, hy'] at hy
  cases hy
  exact h.linked.owner_of_listed h.target h.new hlisted hy'

theorem spares_namedLike : Spares (· = copy) t (n.namedLike t x x') where
  components _ y hy _ := ⟨y, hy, rfl⟩
  ports _ y hy hp := ⟨y, h.port_namedLike hy hp, rfl⟩
  exits _ _ hy _ := hy
  buses _ z _ hz hy hb := ⟨z, h.bus_namedLike hz hy hb, rfl⟩

theorem learns {map : Correspondence} (hmap : map.components.find? c = none) :
    Correspondence.Extends n (· = c) map (learnComponent n t map c copy x x') where
  grows d d' hd := by
    have hne : d ≠ c := by
      rintro rfl
      rw [hmap] at hd
      cases hd
    exact (OrderedMap.find?_put_of_ne _ hne _).trans hd
  components d hd := OrderedMap.find?_put_of_ne _ hd _
  ports p hp := by
    rw [ports_learnComponent]
    refine getElem?_learn_of_notMem (fun hmem => hp ?_) _
    obtain ⟨z, hz, rfl⟩ := List.mem_map.mp hmem
    exact ⟨c, x, rfl, h.source, (List.of_mem_zip hz).1⟩
  exits e he := by
    refine getElem?_learn_of_notMem (fun hmem => he ?_) _
    obtain ⟨z, hz, rfl⟩ := List.mem_map.mp hmem
    exact ⟨c, x, rfl, h.source, (List.of_mem_zip hz).1⟩
  buses b hb := by
    refine getElem?_learn_of_notMem (fun hmem => hb ?_) _
    obtain ⟨w, hw, rfl⟩ := List.mem_map.mp hmem
    obtain ⟨v, hv, hw⟩ := List.mem_flatMap.mp hw
    have hlisted := (List.of_mem_zip hv).1
    obtain ⟨y, hy⟩ := Arena.exists_get?
      (h.whole.linked.exit_new h.source (Nat.zero_le _) hlisted).2
    have hmem := (List.of_mem_zip hw).1
    rw [hy] at hmem
    exact ⟨v.1, y, ⟨c, x, rfl, h.source, hlisted⟩, hy, hmem⟩
  keys hnodup := OrderedMap.keys_nodup_put hnodup _ _

variable (hm : Matches n t x x')

include hm

theorem exitPairs {z : ExitId × ExitId} (hz : z ∈ x.exits.values.zip x'.exits.values) :
    ∃ y y', n.exits.get? z.1 = some y ∧ t.exits.get? z.2 = some y' ∧ y'.tag = y.tag ∧
      List.Forall₂ (SameBusRole n t) y.buses y'.buses := by
  rw [OrderedMap.values, OrderedMap.values, List.zip_map] at hz
  obtain ⟨⟨a, b⟩, hab, rfl⟩ := List.mem_map.mp hz
  obtain ⟨hkey, hmatch⟩ := (List.forall₂_iff_zip.mp hm.exits).2 hab
  obtain ⟨y, y', hy, hy', -⟩ := id hmatch
  obtain ⟨ha, hb⟩ := List.of_mem_zip hab
  have hlinked := h.whole.linked.components c x h.source (Nat.zero_le _)
  have hlinked' := h.linked.components copy x' h.target h.new
  have hnew := h.linked.exit_new h.target h.new (OrderedMap.mem_values.mpr ⟨b, hb, rfl⟩)
  refine ⟨y, y', hy, hy', ?_, ?_⟩
  · rw [(hlinked'.exits b hb y' hy').2, (hlinked.exits a ha y hy).2, hkey]
  · exact hmatch.buses hy hy' (h.whole.linked.exits a.2 y hy (Nat.zero_le _))
      (h.whole.shaped.exits a.2 y hy (Nat.zero_le _)) (h.shaped.exits b.2 y' hy' hnew.1)

omit h in
theorem length_exits : x'.exits.values.length = x.exits.values.length := by
  simp only [OrderedMap.values, List.length_map]
  exact hm.exits.length_eq.symm

theorem map_fst_busPairs :
    ((x.exits.values.zip x'.exits.values).flatMap (n.busPairs t)).map Prod.fst =
      x.exits.values.flatMap fun e => (n.exits.get? e).elim [] Exit.buses := by
  conv_rhs => rw [← List.map_fst_zip (Nat.le_of_eq (length_exits hm).symm)]
  rw [List.map_flatMap, List.flatMap_map]
  refine List.flatMap_congr fun z hz => ?_
  obtain ⟨y, y', hy, hy', -, hbuses⟩ := h.exitPairs hm hz
  simp only [Netlist.busPairs, hy, hy', Option.elim_some]
  exact List.map_fst_zip (Nat.le_of_eq hbuses.length_eq)

theorem map_snd_busPairs :
    ((x.exits.values.zip x'.exits.values).flatMap (n.busPairs t)).map Prod.snd =
      x'.exits.values.flatMap fun e => (t.exits.get? e).elim [] Exit.buses := by
  conv_rhs => rw [← List.map_snd_zip (Nat.le_of_eq (length_exits hm))]
  rw [List.map_flatMap, List.flatMap_map]
  refine List.flatMap_congr fun z hz => ?_
  obtain ⟨y, y', hy, hy', -, hbuses⟩ := h.exitPairs hm hz
  simp only [Netlist.busPairs, hy, hy', Option.elim_some]
  exact List.map_snd_zip (Nat.le_of_eq hbuses.length_eq.symm)

theorem portTwins (map : Correspondence) :
    List.Forall₂ (PortTwin n (n.namedLike t x x') (learnComponent n t map c copy x x')) x.ports
      x'.ports := by
  have hshaped := h.whole.shaped.components c x h.source (Nat.zero_le _)
  have hshaped' := h.shaped.components copy x' h.target h.new
  obtain ⟨hlength, hroles⟩ := List.forall₂_iff_zip.mp (hm.ports hshaped hshaped')
  refine List.forall₂_iff_zip.mpr ⟨hlength, fun {p p'} hz => ⟨?_, ?_⟩⟩
  · rw [ports_learnComponent]
    refine getElem?_learn_of_mem ?_ hz _
    rw [List.map_fst_zip (Nat.le_of_eq hlength)]
    exact hshaped.nodup
  · obtain ⟨r, hr, hr'⟩ := hroles hz
    obtain ⟨y, hy, rfl⟩ := Option.map_eq_some_iff.mp hr
    obtain ⟨y', hy', hrole⟩ := Option.map_eq_some_iff.mp hr'
    refine ⟨y, n.namePort p y', hy, (Arena.get?_modifyEach_of_mem ?_ hz _).trans ?_, ?_⟩
    · rw [List.map_snd_zip (Nat.le_of_eq hlength.symm)]
      exact hshaped'.nodup
    · rw [hy']
      rfl
    · simp only [namePort, hy, hrole, and_self]

theorem exitTwins (map : Correspondence) {z : ExitId × ExitId}
    (hz : z ∈ x.exits.values.zip x'.exits.values) :
    ExitTwin n (n.namedLike t x x') (learnComponent n t map c copy x x') z.1 z.2 := by
  have hshaped := h.whole.shaped.components c x h.source (Nat.zero_le _)
  obtain ⟨y, y', hy, hy', htag, hbuses⟩ := h.exitPairs hm hz
  refine ⟨getElem?_learn_of_mem ?_ hz _, y, y', hy, hy', htag, ?_⟩
  · rw [List.map_fst_zip (Nat.le_of_eq (length_exits hm).symm)]
    exact h.whole.linked.nodup_exits h.source (Nat.zero_le _) hshaped.tags
  obtain ⟨hlength, hroles⟩ := List.forall₂_iff_zip.mp hbuses
  refine List.forall₂_iff_zip.mpr ⟨hlength, fun {b b'} hb => ?_⟩
  have hmem : (b, b') ∈ (x.exits.values.zip x'.exits.values).flatMap (n.busPairs t) := by
    refine List.mem_flatMap.mpr ⟨z, hz, ?_⟩
    simpa only [Netlist.busPairs, hy, hy', Option.elim_some] using hb
  obtain ⟨r, hr, hr'⟩ := hroles hb
  obtain ⟨w, hw, rfl⟩ := Option.map_eq_some_iff.mp hr
  obtain ⟨w', hw', hrole⟩ := Option.map_eq_some_iff.mp hr'
  refine ⟨getElem?_learn_of_mem ?_ hmem _, w, n.nameBus b w', hw,
    (Arena.get?_modifyEach_of_mem ?_ hmem _).trans ?_, ?_⟩
  · rw [h.map_fst_busPairs hm]
    exact h.whole.linked.nodup_buses h.source (Nat.zero_le _) h.whole.shaped
  · rw [h.map_snd_busPairs hm]
    exact h.linked.nodup_buses h.target h.new h.shaped
  · rw [hw']
    rfl
  · simp only [nameBus, hw, hrole, and_self]

/-- Matching components become twins, and nothing else is touched. -/
theorem mapped {map : Correspondence} (hmap : map.components.find? c = none) :
    Mapped pins n s t (n.namedLike t x x') map (learnComponent n t map c copy x x') c copy x x' where
  linked := h.linked_namedLike
  grows := { Grows.refl t with
    ports := by simp [namedLike, named]
    buses := by simp [namedLike, named] }
  shape := sameShape_named n t _ _
  components := rfl
  exits := rfl
  spares := h.spares_namedLike
  learns := h.learns hmap
  found := OrderedMap.find?_put_self _ _ _
  twins := by
    refine ⟨h.portTwins hm map, List.forall₂_iff_zip.mpr ⟨hm.exits.length_eq, fun {a b} hab => ?_⟩⟩
    refine ⟨((List.forall₂_iff_zip.mp hm.exits).2 hab).1, h.exitTwins hm map (z := (a.2, b.2)) ?_⟩
    rw [OrderedMap.values, OrderedMap.values, List.zip_map]
    exact List.mem_map_of_mem (f := Prod.map Prod.snd Prod.snd) hab

end Side

end DataflowSynth.Netlist
