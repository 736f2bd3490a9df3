/-
The children of a module can be put in order exactly if signals do not run in a circle.

The steps that find the drivers of the children only look, and in a netlist that calls have led to
nothing they look at is missing.  So the graph that is sorted has an edge for every pair of children of
which one drives the other, and what is known of sorting carries over.
-/
import DataflowSynth.Netlist.Order
import DataflowSynth.Proofs.Design.Consistency
import DataflowSynth.Proofs.Digraph.Sorting

namespace DataflowSynth.Netlist

open Build Relation

variable {pins : Nat} {n : Netlist} {m c d : ComponentId} {x : Component} {i : Interior}

/-- The component gives out the bus. -/
def GivesOut (n : Netlist) (c : ComponentId) (b : BusId) : Prop :=
  ∃ z e, n.buses.get? b = some z ∧ n.exits.get? z.owner = some e ∧ e.owner = c

/-- A bus of `d` drives the port. -/
def DrivesPort (n : Netlist) (d : ComponentId) (p : PortId) : Prop :=
  ∃ y b, n.ports.get? p = some y ∧ y.bus = some b ∧ n.GivesOut d b

/-- Among the children of a module, a bus of `d` drives some port of `c`, and `d` is no feedback
point. -/
structure Feeds (n : Netlist) (i : Interior) (d c : ComponentId) : Prop where
  driver : d ∈ i.children
  driven : c ∈ i.children
  direct : d ∉ i.feedback
  wire : ∃ y, n.components.get? c = some y ∧ ∃ p ∈ y.ports, n.DrivesPort d p

/-- What drives no feedback point stands before what it drives; then signals do not run in a circle. -/
theorem acyclic_of_rank (rank : ComponentId → Nat)
    (h : ∀ d c, n.Feeds i d c → c ∉ i.feedback → rank d < rank c) (c : ComponentId) :
    ¬ TransGen (n.Feeds i) c c := by
  have hpath : ∀ {d c}, TransGen (n.Feeds i) d c →
      d ∉ i.feedback ∧ (c ∉ i.feedback → rank d < rank c) := by
    intro d c hpath
    induction hpath with
    | single hfeeds => exact ⟨hfeeds.direct, h _ _ hfeeds⟩
    | tail _ hfeeds ih =>
        exact ⟨ih.1, fun hc => (ih.2 hfeeds.direct).trans (h _ _ hfeeds hc)⟩
  intro hcycle
  exact Nat.lt_irrefl _ ((hpath hcycle).2 (hpath hcycle).1)

/-! ### Looking for drivers -/

section

variable {F : Failure → Traced Netlist → Prop} {s : Traced Netlist}

/-- In a linked netlist some component gives out each bus. -/
theorem wp_busOwner (hn : Linked pins {} s.state) {b : BusId} (hb : b.index < s.state.buses.size) :
    wp (busOwner b) (fun d t => t = s ∧ s.state.GivesOut d b) F s := by
  obtain ⟨z, hz⟩ := Arena.exists_get? hb
  have howner := (Bus.forall_refs.mp (hn.buses b z hz (Nat.zero_le _)).refs).1
  obtain ⟨e, he⟩ := Arena.exists_get? howner.2
  rw [busOwner, wp_bind, wp_bus hz, wp_bind, wp_exit he, wp_pure]
  exact ⟨rfl, z, e, hz, he, rfl⟩

theorem GivesOut.unique {b : BusId} (hc : n.GivesOut c b) (hd : n.GivesOut d b) : c = d := by
  obtain ⟨z, e, hz, he, rfl⟩ := hc
  obtain ⟨z', e', hz', he', rfl⟩ := hd
  cases hz.symm.trans hz'
  cases he.symm.trans he'
  rfl

theorem wp_orderingDriver? (hn : Linked pins {} s.state) (hx : s.state.components.get? m = some x)
    (hi : x.interior = some i) {p : PortId} (hp : p.index < s.state.ports.size) :
    wp (orderingDriver? m p) (fun found t => t = s ∧
      ∀ d, found = some d ↔ s.state.DrivesPort d p ∧ d ∉ i.feedback) F s := by
  obtain ⟨y, hy⟩ := Arena.exists_get? hp
  simp only [orderingDriver?, wp_bind, wp_port hy]
  cases hbus : y.bus with
  | none =>
      refine ⟨rfl, fun d => ?_⟩
      constructor
      · intro h
        cases h
      · rintro ⟨⟨y', b, hy', hb, _⟩, _⟩
        cases hy.symm.trans hy'
        rw [hbus] at hb
        cases hb
  | some b =>
      have hb := (Port.forall_refs.mp (hn.ports p y hy (Nat.zero_le _)).refs).2.1 b hbus
      simp only [wp_bind]
      refine wp_mono (wp_busOwner hn hb.2) (fun driver t ht => ?_) fun _ _ h => h
      obtain ⟨rfl, hdriver⟩ := ht
      have hiff : ∀ d, t.state.DrivesPort d p ↔ d = driver := by
        intro d
        constructor
        · rintro ⟨y', b', hy', hb', hd⟩
          cases hy.symm.trans hy'
          cases hbus.symm.trans hb'
          exact hd.unique hdriver
        · rintro rfl
          exact ⟨y, b, hy, hbus, hdriver⟩
      rw [isFeedbackPoint, wp_bind, wp_interior hx hi, wp_pure, wp_pure]
      refine ⟨rfl, fun d => ?_⟩
      simp only [List.contains_iff_mem]
      rw [hiff]
      split
      · next hfeedback =>
          simp only [reduceCtorEq, false_iff, not_and, not_not]
          rintro rfl
          exact hfeedback
      · next hfeedback =>
          rw [Option.some.injEq]
          constructor
          · rintro rfl
            exact ⟨rfl, hfeedback⟩
          · intro h
            exact h.1.symm

/-- The drivers of one child. -/
theorem wp_driversOf (hn : Linked pins {} s.state) (hx : s.state.components.get? m = some x)
    (hi : x.interior = some i) {y : Component} (hy : s.state.components.get? c = some y) :
    wp (y.ports.mapM (orderingDriver? m)) (fun found t => t = s ∧
      ∀ d, some d ∈ found ↔ (∃ p ∈ y.ports, s.state.DrivesPort d p) ∧ d ∉ i.feedback) F s := by
  have hports := (Component.forall_refs.mp (hn.components c y hy (Nat.zero_le _)).refs).2.1
  refine wp_mono (wp_mapM_reads fun p hp => wp_orderingDriver? hn hx hi (hports p hp).2)
    (fun found t ht => ?_) fun _ _ h => h
  obtain ⟨rfl, hfrom, hto⟩ := ht
  refine ⟨rfl, fun d => ?_⟩
  constructor
  · intro hd
    obtain ⟨p, hp, hdriver⟩ := hfrom _ hd
    exact ⟨⟨p, hp, ((hdriver d).mp rfl).1⟩, ((hdriver d).mp rfl).2⟩
  · intro ⟨⟨p, hp, hdriver⟩, hfeedback⟩
    obtain ⟨o, ho, hiff⟩ := hto p hp
    rwa [← (hiff d).mpr ⟨hdriver, hfeedback⟩]

theorem wp_driverPairs (hn : Linked pins {} s.state) (hx : s.state.components.get? m = some x)
    (hi : x.interior = some i) :
    wp (driverPairs m) (fun pairs t => t = s ∧ ∀ d c, (d, c) ∈ pairs ↔ c ∈ i.children ∧
      d ∉ i.feedback ∧ ∃ y, s.state.components.get? c = some y ∧
        ∃ p ∈ y.ports, s.state.DrivesPort d p) F s := by
  have hchildren := (Interior.forall_refs.mp ((Component.forall_refs.mp
    (hn.components m x hx (Nat.zero_le _)).refs).2.2.2.2 i hi)).2.1
  simp only [driverPairs, wp_bind, wp_children hx hi]
  refine wp_mono (wp_mapM_reads (R := fun c pairs => ∀ d e, (d, e) ∈ pairs ↔ e = c ∧
    d ∉ i.feedback ∧ ∃ y, s.state.components.get? c = some y ∧
      ∃ p ∈ y.ports, s.state.DrivesPort d p) fun c hc => ?_) (fun pairs t ht => ?_) fun _ _ h => h
  · obtain ⟨y, hy⟩ := Arena.exists_get? (hchildren c hc).2
    simp only [wp_bind, wp_component hy]
    refine wp_mono (wp_driversOf hn hx hi hy) (fun found t ht => ?_) fun _ _ h => h
    obtain ⟨rfl, hfound⟩ := ht
    refine ⟨rfl, fun d e => ?_⟩
    simp only [List.mem_map, List.mem_filterMap, id_eq, exists_eq_right, Prod.mk.injEq, hfound, hy,
      Option.some.injEq, exists_eq_left']
    constructor
    · rintro ⟨d', ⟨hdriver, hfeedback⟩, rfl, rfl⟩
      exact ⟨rfl, hfeedback, hdriver⟩
    · rintro ⟨rfl, hfeedback, hdriver⟩
      exact ⟨d, ⟨hdriver, hfeedback⟩, rfl, rfl⟩
  · obtain ⟨rfl, hfrom, hto⟩ := ht
    refine ⟨rfl, fun d c => ?_⟩
    rw [List.mem_flatten]
    constructor
    · rintro ⟨ps, hps, hmem⟩
      obtain ⟨c', hc', hiff⟩ := hfrom ps hps
      obtain ⟨rfl, hrest⟩ := (hiff d c).mp hmem
      exact ⟨hc', hrest⟩
    · rintro ⟨hc, hrest⟩
      obtain ⟨ps, hps, hiff⟩ := hto c hc
      exact ⟨ps, hps, (hiff d c).mpr ⟨rfl, hrest⟩⟩

end

/-! ### The graph of children -/

section

variable {cs : List ComponentId} {pairs : List (ComponentId × ComponentId)}

/-- Adds the edge for one pair. -/
def addPair (cs : List ComponentId) (g : Digraph cs.length) (e : ComponentId × ComponentId) :
    Digraph cs.length :=
  match cs.finIdxOf? e.1, cs.finIdxOf? e.2 with
  | some i, some j => g.addEdge (i, j)
  | _, _ => g

theorem edge_addPair {g : Digraph cs.length} {e : ComponentId × ComponentId}
    {u v : Fin cs.length} : (addPair cs g e).Edge u v ↔
      g.Edge u v ∨ cs.finIdxOf? e.1 = some u ∧ cs.finIdxOf? e.2 = some v := by
  unfold addPair
  split
  · next i j hi hj =>
      rw [Digraph.edge_addEdge, hi, hj, Prod.mk.injEq, Option.some.injEq, Option.some.injEq]
      exact or_congr_right (and_congr eq_comm eq_comm)
  · next hno =>
      constructor
      · exact .inl
      · intro h
        rcases h with h | ⟨hu, hv⟩
        · exact h
        · exact (hno u v hu hv).elim

theorem childGraph_eq : childGraph cs pairs = pairs.foldl (addPair cs) {} := rfl

theorem edge_childGraph {u v : Fin cs.length} : (childGraph cs pairs).Edge u v ↔
    ∃ e ∈ pairs, cs.finIdxOf? e.1 = some u ∧ cs.finIdxOf? e.2 = some v := by
  have hfold : ∀ g : Digraph cs.length, (pairs.foldl (addPair cs) g).Edge u v ↔
      g.Edge u v ∨ ∃ e ∈ pairs, cs.finIdxOf? e.1 = some u ∧ cs.finIdxOf? e.2 = some v := by
    induction pairs with
    | nil => simp
    | cons e pairs ih =>
        intro g
        rw [List.foldl_cons, ih, edge_addPair, or_assoc, List.exists_mem_cons_iff]
  rw [childGraph_eq, hfold]
  exact or_iff_right List.not_mem_nil

theorem exists_finIdxOf? (h : c ∈ cs) : ∃ u, cs.finIdxOf? c = some u := by
  cases hu : cs.finIdxOf? c with
  | none => exact absurd h (List.finIdxOf?_eq_none_iff.mp hu)
  | some u => exact ⟨u, rfl⟩

theorem get_of_finIdxOf? {u : Fin cs.length} (h : cs.finIdxOf? c = some u) : cs.get u = c :=
  (List.finIdxOf?_eq_some_iff.mp h).1

end

section

variable {pairs : List (ComponentId × ComponentId)}
  (hpairs : ∀ d c, (d, c) ∈ pairs ↔ c ∈ i.children ∧ d ∉ i.feedback ∧
    ∃ y, n.components.get? c = some y ∧ ∃ p ∈ y.ports, n.DrivesPort d p)

include hpairs

theorem edge_iff_feeds {u v : Fin i.children.length} : (childGraph i.children pairs).Edge u v ↔
    ∃ d c, n.Feeds i d c ∧ i.children.finIdxOf? d = some u ∧ i.children.finIdxOf? c = some v := by
  rw [edge_childGraph]
  constructor
  · intro ⟨⟨d, c⟩, hmem, hu, hv⟩
    obtain ⟨hc, hdirect, hwire⟩ := (hpairs d c).mp hmem
    have hd : d ∈ i.children := by
      rw [← get_of_finIdxOf? (c := d) hu]
      exact List.get_mem ..
    exact ⟨d, c, ⟨hd, hc, hdirect, hwire⟩, hu, hv⟩
  · intro ⟨d, c, hfeeds, hu, hv⟩
    exact ⟨(d, c), (hpairs d c).mpr ⟨hfeeds.driven, hfeeds.direct, hfeeds.wire⟩, hu, hv⟩

theorem transGen_feeds {u v : Fin i.children.length}
    (h : TransGen (childGraph i.children pairs).Edge u v) :
    TransGen (n.Feeds i) (i.children.get u) (i.children.get v) := by
  refine h.lift i.children.get fun u v huv => ?_
  obtain ⟨d, c, hfeeds, hu, hv⟩ := (edge_iff_feeds hpairs).mp huv
  show n.Feeds i (i.children.get u) (i.children.get v)
  rwa [get_of_finIdxOf? hu, get_of_finIdxOf? hv]

theorem transGen_edge (h : TransGen (n.Feeds i) d c) {u v : Fin i.children.length}
    (hu : i.children.finIdxOf? d = some u) (hv : i.children.finIdxOf? c = some v) :
    TransGen (childGraph i.children pairs).Edge u v := by
  induction h generalizing v with
  | single hfeeds => exact .single ((edge_iff_feeds hpairs).mpr ⟨_, _, hfeeds, hu, hv⟩)
  | tail _ hfeeds ih =>
      obtain ⟨w, hw⟩ := exists_finIdxOf? hfeeds.driver
      exact (ih hw).tail ((edge_iff_feeds hpairs).mpr ⟨_, _, hfeeds, hw, hv⟩)

theorem acyclic_childGraph : (childGraph i.children pairs).Acyclic ↔
    ∀ c, ¬ TransGen (n.Feeds i) c c := by
  constructor
  · intro hacyclic c hcycle
    have hc : c ∈ i.children := by
      obtain ⟨_, hfeeds, _⟩ := TransGen.head'_iff.mp hcycle
      exact hfeeds.driver
    obtain ⟨u, hu⟩ := exists_finIdxOf? hc
    exact hacyclic u (transGen_edge hpairs hcycle hu hu)
  · intro hacyclic u hcycle
    exact hacyclic _ (transGen_feeds hpairs hcycle)

theorem sublist_of_feeds {order : List (Fin i.children.length)}
    (horder : (childGraph i.children pairs).Forward order) (h : n.Feeds i d c) :
    [d, c].Sublist (order.map i.children.get) := by
  obtain ⟨u, hu⟩ := exists_finIdxOf? h.driver
  obtain ⟨v, hv⟩ := exists_finIdxOf? h.driven
  have hsub := (horder.sublist ((edge_iff_feeds hpairs).mpr ⟨d, c, h, hu, hv⟩)).map i.children.get
  rwa [List.map_cons, List.map_cons, List.map_nil, get_of_finIdxOf? hu, get_of_finIdxOf? hv] at hsub

end

/-! ### The order of children -/

/-- Either signals do not run in a circle, and the children are listed with every driver in front of
what it feeds; or they do, and that is what is said. -/
theorem wp_order {s : Traced Netlist} (hn : Linked pins {} s.state)
    (hx : s.state.components.get? m = some x) (hi : x.interior = some i) :
    wp (order m)
      (fun order t => t = s ∧ (∀ c, ¬ TransGen (s.state.Feeds i) c c) ∧ order.Perm i.children ∧
        ∀ d c, s.state.Feeds i d c → [d, c].Sublist order)
      (fun e t => t = s ∧ (∃ c, TransGen (s.state.Feeds i) c c) ∧
        ∃ names, e = .error (.refused (.combinationalCycle names))) s := by
  simp only [order, wp_bind, wp_children hx hi]
  refine wp_mono (wp_driverPairs hn hx hi) (fun pairs t ht => ?_) fun _ _ h => h
  obtain ⟨rfl, hpairs⟩ := ht
  cases hsort : (childGraph i.children pairs).sort with
  | ok order =>
      have hforward := Digraph.sort_forward hsort
      refine ⟨rfl, (acyclic_childGraph hpairs).mp hforward.acyclic, ?_, fun d c hfeeds =>
        sublist_of_feeds hpairs hforward hfeeds⟩
      have hperm := hforward.perm.map i.children.get
      rwa [List.map_get_finRange] at hperm
  | error v =>
      have hcycle : ∃ c, TransGen (t.state.Feeds i) c c := by
        by_contra hno
        obtain ⟨order, hok⟩ := Digraph.sort_total
          ((acyclic_childGraph hpairs).mpr fun c hc => hno ⟨c, hc⟩)
        rw [hsort] at hok
        cases hok
      have hchildren := (Interior.forall_refs.mp ((Component.forall_refs.mp
        (hn.components m x hx (Nat.zero_le _)).refs).2.2.2.2 i hi)).2.1
      simp only [wp_bind]
      refine wp_mono (wp_mapM_reads (R := fun _ _ => True) fun w hw => ?_) (fun names t' ht' => ?_)
        fun _ _ h => h
      · obtain ⟨y, hy⟩ := Arena.exists_get? (hchildren (i.children.get w) (List.get_mem ..)).2
        simp only [wp_bind, wp_component hy, wp_pure, and_self]
      · obtain ⟨rfl, -⟩ := ht'
        exact ⟨rfl, hcycle, _, rfl⟩

/-- The children of a module of any netlist that calls lead to are put in order exactly if none of
them feeds itself, directly or through others.  The order then lists each child, and what drives a
child before it. -/
theorem order_sound_complete (hn : n.Reachable) (hx : n.components.get? m = some x)
    (hi : x.interior = some i) (journal : Journal) :
    ((∃ order t, Netlist.order m ⟨n, journal⟩ = .ok order t) ↔ ∀ c, ¬ TransGen (n.Feeds i) c c) ∧
      (∀ order t, Netlist.order m ⟨n, journal⟩ = .ok order t →
        t = ⟨n, journal⟩ ∧ order.Perm i.children ∧ ∀ d c, n.Feeds i d c → [d, c].Sublist order) ∧
      ∀ e t, Netlist.order m ⟨n, journal⟩ = .error e t →
        t = ⟨n, journal⟩ ∧ ∃ names, e = .error (.refused (.combinationalCycle names)) := by
  obtain ⟨pins, hlinked⟩ := hn.linked
  have hwp := wp_order (s := ⟨n, journal⟩) hlinked hx hi
  unfold wp at hwp
  split at hwp
  · next order t hok =>
      obtain ⟨rfl, hacyclic, hperm, hbefore⟩ := hwp
      rw [hok]
      refine ⟨⟨fun _ => hacyclic, fun _ => ⟨order, _, rfl⟩⟩, fun order' t' heq => ?_, fun e t' heq => ?_⟩
      · cases heq
        exact ⟨rfl, hperm, hbefore⟩
      · cases heq
  · next e t herror =>
      obtain ⟨rfl, ⟨c, hcycle⟩, hnames⟩ := hwp
      rw [herror]
      refine ⟨⟨fun h => ?_, fun hacyclic => absurd hcycle (hacyclic c)⟩, fun order t' heq => ?_,
        fun e' t' heq => ?_⟩
      · obtain ⟨_, _, heq⟩ := h
        cases heq
      · cases heq
      · cases heq
        exact ⟨rfl, hnames⟩

/-- A gate that drives its own input stands in no order, until it is made a feedback point. -/
theorem order_sound_complete_loop :
    ∃ looped marked : Netlist,
      (∀ order t, Netlist.order ⟨0⟩ ⟨looped, #[]⟩ ≠ .ok order t) ∧
        ∃ order t, Netlist.order ⟨0⟩ ⟨marked, #[]⟩ = .ok order t ∧ order.Perm [⟨2⟩] := by
  have hempty : Reached False 0 {} := .empty
  have hmodule := hempty.after (.newModule .block "loop" 0) (by decide) False.elim (by decide +kernel)
  have hgate := hmodule.after (.newComponent .andGate "and" 1) (by decide +kernel) False.elim
    (by decide +kernel)
  have hexit := hgate.after (.makeExit ⟨2⟩ 1 .done) (by decide +kernel) False.elim (by decide +kernel)
  have hchild := hexit.after (.addComponent ⟨0⟩ ⟨2⟩) (by decide +kernel) False.elim (by decide +kernel)
  have hloop := hchild.after (.setBus ⟨9⟩ (some ⟨4⟩)) (by decide +kernel) False.elim (by decide +kernel)
  have hmark := hloop.after (.addFeedbackPoint ⟨0⟩ ⟨2⟩) (by decide +kernel) False.elim
    (by decide +kernel)
  -- The terms for the two netlists are large; only these of their parts matter.
  obtain ⟨looped, hlooped, hinterior, hports, hbus, howner, hexit⟩ : ∃ n : Netlist, n.Reachable ∧
      (n.components.get? ⟨0⟩ >>= fun x => x.interior.map fun i => (i.children, i.feedback)) =
        some ([⟨2⟩], []) ∧
      (n.components.get? ⟨2⟩).map (fun y => decide (⟨9⟩ ∈ y.ports)) = some true ∧
      (n.ports.get? ⟨9⟩).map (·.bus) = some (some ⟨4⟩) ∧
      (n.buses.get? ⟨4⟩).map (·.owner) = some ⟨1⟩ ∧ (n.exits.get? ⟨1⟩).map (·.owner) = some ⟨2⟩ :=
    ⟨_, .alone hloop, by decide +kernel, by decide +kernel, by decide +kernel, by decide +kernel,
      by decide +kernel⟩
  obtain ⟨marked, hmarked, hinterior'⟩ : ∃ n : Netlist, n.Reachable ∧
      (n.components.get? ⟨0⟩ >>= fun x => x.interior.map fun i => (i.children, i.feedback)) =
        some ([⟨2⟩], [⟨2⟩]) :=
    ⟨_, .alone hmark, by decide +kernel⟩
  obtain ⟨x, hx, hi⟩ := Option.bind_eq_some_iff.mp hinterior
  obtain ⟨i, hi, hlists⟩ := Option.map_eq_some_iff.mp hi
  obtain ⟨x', hx', hi'⟩ := Option.bind_eq_some_iff.mp hinterior'
  obtain ⟨i', hi', hlists'⟩ := Option.map_eq_some_iff.mp hi'
  obtain ⟨hchildren, hfeedback⟩ := Prod.mk.inj hlists
  obtain ⟨hchildren', hfeedback'⟩ := Prod.mk.inj hlists'
  refine ⟨looped, marked, fun order t hok => ?_, ?_⟩
  · obtain ⟨y, hy, hp⟩ := Option.map_eq_some_iff.mp hports
    obtain ⟨p, hp', hbus⟩ := Option.map_eq_some_iff.mp hbus
    obtain ⟨z, hz, howner⟩ := Option.map_eq_some_iff.mp howner
    obtain ⟨e, he, hgives⟩ := Option.map_eq_some_iff.mp hexit
    have hfeeds : looped.Feeds i ⟨2⟩ ⟨2⟩ :=
      ⟨by simp [hchildren], by simp [hchildren], by simp [hfeedback], y, hy, ⟨9⟩, of_decide_eq_true hp,
        p, ⟨4⟩, hp', hbus, z, e, hz, howner ▸ he, hgives⟩
    exact (order_sound_complete hlooped hx hi #[]).1.mp ⟨order, t, hok⟩ ⟨2⟩ (.single hfeeds)
  · have hspec := order_sound_complete hmarked hx' hi' #[]
    have hacyclic : ∀ c, ¬ TransGen (marked.Feeds i') c c := by
      intro c hcycle
      obtain ⟨_, hfeeds, _⟩ := TransGen.head'_iff.mp hcycle
      apply hfeeds.direct
      rw [hfeedback', ← hchildren']
      exact hfeeds.driver
    obtain ⟨order, t, hok⟩ := hspec.1.mpr hacyclic
    have hperm := (hspec.2.1 order t hok).2.1
    rw [hchildren'] at hperm
    exact ⟨order, t, hok, hperm⟩

end DataflowSynth.Netlist
