/-
What is said about children that have no order.

The sort ends at a child on a cycle, and those that share a cycle with it are reported.  They are what
leads to this child and is led to by it, which is the same for each of them; and as no two components
have the same name, no name is said twice.
-/
import DataflowSynth.Proofs.Design.Ownership
import DataflowSynth.Proofs.Digraph.Cycles
import DataflowSynth.Proofs.Netlist.Names
import DataflowSynth.Proofs.Netlist.Ordering
import Mathlib.Data.String.Basic

namespace DataflowSynth.Netlist

open Build Relation

variable {pins : Nat} {n : Netlist} {m c d : ComponentId} {x : Component} {i : Interior}

/-- The children are all those that lead to each other, and there is a circle among them. -/
structure Loop (n : Netlist) (i : Interior) (cs : List ComponentId) : Prop where
  nodup : cs.Nodup
  connected : ∀ c ∈ cs, ∀ d, d ∈ cs ↔
    d ∈ i.children ∧ ReflTransGen (n.Feeds i) c d ∧ ReflTransGen (n.Feeds i) d c
  circular : ∃ c ∈ cs, TransGen (n.Feeds i) c c
  /-- There are two of them, or one that feeds itself. -/
  several : 2 ≤ cs.length ∨ ∃ c ∈ cs, n.Feeds i c c

/-- All that shares a circle with one child. -/
theorem Loop.of_circle {cs : List ComponentId} (hnodup : cs.Nodup) (hc : c ∈ i.children)
    (hcircle : TransGen (n.Feeds i) c c) (hcs : ∀ d, d ∈ cs ↔
      d ∈ i.children ∧ ReflTransGen (n.Feeds i) c d ∧ ReflTransGen (n.Feeds i) d c) :
    n.Loop i cs where
  nodup := hnodup
  connected d hd e := by
    obtain ⟨-, hto, hback⟩ := (hcs d).mp hd
    rw [hcs]
    constructor
    · rintro ⟨he, hto', hback'⟩
      exact ⟨he, hback.trans hto', hback'.trans hto⟩
    · rintro ⟨he, hto', hback'⟩
      exact ⟨he, hto.trans hto', hback'.trans hback⟩
  circular := ⟨c, (hcs c).mpr ⟨hc, .refl, .refl⟩, hcircle⟩
  several := by
    have hmem : c ∈ cs := (hcs c).mpr ⟨hc, .refl, .refl⟩
    obtain ⟨d, hfeeds, hback⟩ := TransGen.head'_iff.mp hcircle
    by_cases hd : d = c
    · exact .inr ⟨c, hmem, hd ▸ hfeeds⟩
    · have hdmem : d ∈ cs := (hcs d).mpr ⟨hfeeds.driven, .single hfeeds, hback⟩
      have hpair : [d, c].Nodup := by simpa using hd
      exact .inl (hpair.subperm (by simp [hmem, hdmem])).length_le

/-! ### The graph of children -/

section

variable {pairs : List (ComponentId × ComponentId)}
  (hpairs : ∀ d c, (d, c) ∈ pairs ↔ c ∈ i.children ∧ d ∉ i.feedback ∧
    ∃ y, n.components.get? c = some y ∧ ∃ p ∈ y.ports, n.DrivesPort d p)
  (hnodup : i.children.Nodup)

include hpairs hnodup

/-- Paths among children are paths in the graph. -/
theorem reflTransGen_edge_iff {u v : Fin i.children.length} :
    ReflTransGen (childGraph i.children pairs).Edge u v ↔
      ReflTransGen (n.Feeds i) (i.children.get u) (i.children.get v) := by
  have hfind : ∀ w, i.children.finIdxOf? (i.children.get w) = some w := by
    intro w
    obtain ⟨w', hw'⟩ := exists_finIdxOf? (List.get_mem i.children w)
    rw [hw', hnodup.get_inj_iff.mp (get_of_finIdxOf? hw')]
  have hinj : i.children.get u = i.children.get v ↔ v = u := by
    rw [hnodup.get_inj_iff, eq_comm]
  rw [reflTransGen_iff_eq_or_transGen, reflTransGen_iff_eq_or_transGen, eq_comm (a := i.children.get v),
    hinj]
  exact or_congr_right ⟨transGen_feeds hpairs, fun h => transGen_edge hpairs h (hfind u) (hfind v)⟩

/-- The members of a cycle in the graph. -/
theorem loop_cycleOf {v : Fin i.children.length}
    (hcycle : TransGen (childGraph i.children pairs).Edge v v) :
    n.Loop i (((childGraph i.children pairs).cycleOf v).map i.children.get) := by
  refine .of_circle ?_ (List.get_mem i.children v) (transGen_feeds hpairs hcycle) fun d => ?_
  · exact (Digraph.nodup_cycleOf _ v).map fun u w h => hnodup.get_inj_iff.mp h
  · rw [List.mem_map]
    constructor
    · rintro ⟨w, hw, rfl⟩
      rw [Digraph.mem_cycleOf, reflTransGen_edge_iff hpairs hnodup,
        reflTransGen_edge_iff hpairs hnodup] at hw
      exact ⟨List.get_mem i.children w, hw⟩
    · rintro ⟨hd, hpath⟩
      obtain ⟨w, rfl⟩ := List.get_of_mem hd
      refine ⟨w, ?_, rfl⟩
      rwa [Digraph.mem_cycleOf, reflTransGen_edge_iff hpairs hnodup,
        reflTransGen_edge_iff hpairs hnodup]

end

/-! ### The report -/

/-- What is reported are the sorted names of a loop. -/
theorem wp_order_loop {s : Traced Netlist} (hn : Linked pins {} s.state)
    (hx : s.state.components.get? m = some x) (hi : x.interior = some i)
    (hnodup : i.children.Nodup) :
    wp (order m) (fun _ _ => True) (fun e _ => ∃ cs, s.state.Loop i cs ∧
      e = .error (.refused (.combinationalCycle
        ((cs.filterMap fun c => (s.state.components.get? c).map Component.name).mergeSort
          fun a b => a ≤ b)))) s := by
  simp only [order, wp_bind, wp_children hx hi]
  refine wp_mono (wp_driverPairs (F := fun _ _ => False) hn hx hi) (fun pairs t ht => ?_)
    fun _ _ h => h.elim
  obtain ⟨rfl, hpairs⟩ := ht
  cases hsort : (childGraph i.children pairs).sort with
  | ok order => trivial
  | error v =>
      have hchildren := (Interior.forall_refs.mp ((Component.forall_refs.mp
        (hn.components m x hx (Nat.zero_le _)).refs).2.2.2.2 i hi)).2.1
      simp only [wp_bind]
      refine wp_mono (wp_mapM_some (F := fun _ _ => False) (g := fun w =>
        (t.state.components.get? (i.children.get w)).map Component.name) fun w _ => ?_)
        (fun names t' ⟨_, hnames⟩ => ?_) fun _ _ h => h.elim
      · obtain ⟨y, hy⟩ := Arena.exists_get? (hchildren (i.children.get w) (List.get_mem ..)).2
        refine ⟨y.name, by rw [hy, Option.map_some], fun Q => ?_⟩
        simp only [wp_bind, wp_component hy, wp_pure]
      · refine ⟨_, loop_cycleOf hpairs hnodup (Digraph.sort_cycle hsort), ?_⟩
        rw [hnames, List.filterMap_map]
        rfl

/-- A sorted list in which nothing stands twice. -/
theorem ascending_mergeSort {names : List String} (h : names.Nodup) :
    (names.mergeSort fun a b => a ≤ b).Pairwise (· < ·) := by
  have hsorted : (names.mergeSort fun a b => a ≤ b).Pairwise fun a b => decide (a ≤ b) = true :=
    List.pairwise_mergeSort (fun a b c hab hbc => by
      rw [decide_eq_true_eq] at *
      exact String.le_trans hab hbc) (fun a b => by simpa using String.le_total a b) names
  have hnodup := (List.mergeSort_perm names fun a b => a ≤ b).nodup_iff.mpr h
  refine (hsorted.and hnodup).imp fun hab => ?_
  exact lt_of_le_of_ne (of_decide_eq_true hab.1) hab.2

/-- If the children of a module have no order, what is said about it is true, and all of it: the names
in the message are, once each and in ascending order, those of the children of one loop. -/
theorem order_reports_loop (hn : n.Reachable) (hx : n.components.get? m = some x)
    (hi : x.interior = some i) (journal : Journal) {e : Failure} {t : Traced Netlist}
    (h : Netlist.order m ⟨n, journal⟩ = .error e t) :
    ∃ cs names, n.Loop i cs ∧ e = .error (.refused (.combinationalCycle names)) ∧
      names.Pairwise (· < ·) ∧ (∀ name, name ∈ names ↔
        ∃ c ∈ cs, ∃ y, n.components.get? c = some y ∧ y.name = name) ∧
      (Refusal.combinationalCycle names).message =
        "Found combinational cycle through: " ++ ", ".intercalate names := by
  obtain ⟨pins, hlinked⟩ := hn.linked
  have hnodup : i.children.Nodup := hn.owned.accounted.nodup_children ⟨hx, hi⟩
  have hwp := wp_order_loop (s := ⟨n, journal⟩) hlinked hx hi hnodup
  unfold wp at hwp
  rw [h] at hwp
  obtain ⟨cs, hloop, he⟩ := hwp
  refine ⟨cs, _, hloop, he, ascending_mergeSort ?_, fun name => ?_, rfl⟩
  · refine hloop.nodup.filterMap fun c d name hc hd => ?_
    obtain ⟨y, hy, hname⟩ := Option.map_eq_some_iff.mp hc
    obtain ⟨z, hz, hname'⟩ := Option.map_eq_some_iff.mp hd
    exact hn.named.distinct c d y z hy hz (hname.trans hname'.symm)
  · rw [List.mem_mergeSort, List.mem_filterMap]
    simp only [Option.map_eq_some_iff]

/-- Two gates that drive each other are reported together. -/
theorem order_reports_loop_ring : ∃ ring : Netlist, ∃ a b e t names,
    ring.components.get? ⟨2⟩ = some a ∧ ring.components.get? ⟨3⟩ = some b ∧
      Netlist.order ⟨0⟩ ⟨ring, #[]⟩ = .error e t ∧
      e = .error (.refused (.combinationalCycle names)) ∧ names.Pairwise (· < ·) ∧
      ∀ name, name ∈ names ↔ name = a.name ∨ name = b.name := by
  have hempty : Reached False 0 {} := .empty
  have hmodule := hempty.after (.newModule .block "block" 0) (by decide) False.elim (by decide +kernel)
  have ha := hmodule.after (.newGate .not "a" 1) (by decide +kernel) False.elim (by decide +kernel)
  have hb := ha.after (.newGate .not "b" 1) (by decide +kernel) False.elim (by decide +kernel)
  have hchildren := hb.after (.addComponents ⟨0⟩ [⟨2⟩, ⟨3⟩]) (by decide +kernel) False.elim
    (by decide +kernel)
  have hforth := hchildren.after (.setBus ⟨13⟩ (some ⟨4⟩)) (by decide +kernel) False.elim
    (by decide +kernel)
  have hback := hforth.after (.setBus ⟨9⟩ (some ⟨6⟩)) (by decide +kernel) False.elim
    (by decide +kernel)
  -- The term for the netlist is large; only these of its parts matter.
  obtain ⟨ring, hring, hinterior, hgates, hports, hbuses, hexits⟩ : ∃ n : Netlist, n.Reachable ∧
      (n.components.get? ⟨0⟩ >>= fun x => x.interior.map fun i => (i.children, i.feedback)) =
        some ([⟨2⟩, ⟨3⟩], []) ∧
      [⟨2⟩, ⟨3⟩].map (fun c => (n.components.get? c).map Component.dataPorts) =
        [some [⟨9⟩], some [⟨13⟩]] ∧
      [⟨9⟩, ⟨13⟩].map (fun p => (n.ports.get? p).map Port.bus) = [some (some ⟨6⟩), some (some ⟨4⟩)] ∧
      [⟨6⟩, ⟨4⟩].map (fun b => (n.buses.get? b).map Bus.owner) = [some ⟨2⟩, some ⟨1⟩] ∧
      [⟨2⟩, ⟨1⟩].map (fun e => (n.exits.get? e).map Exit.owner) = [some ⟨3⟩, some ⟨2⟩] :=
    ⟨_, .alone hback, by decide +kernel, by decide +kernel, by decide +kernel, by decide +kernel,
      by decide +kernel⟩
  obtain ⟨x, hx, hi⟩ := Option.bind_eq_some_iff.mp hinterior
  obtain ⟨i, hi, hlists⟩ := Option.map_eq_some_iff.mp hi
  obtain ⟨hchildren, hfeedback⟩ := Prod.mk.inj hlists
  simp only [List.map_cons, List.map_nil, List.cons.injEq, Option.map_eq_some_iff, and_true]
    at hgates hports hbuses hexits
  obtain ⟨⟨a, ha, hdata_a⟩, b, hb, hdata_b⟩ := hgates
  obtain ⟨⟨p, hp, hbus_p⟩, q, hq, hbus_q⟩ := hports
  obtain ⟨⟨z, hz, howner_z⟩, w, hw, howner_w⟩ := hbuses
  obtain ⟨⟨e, he, howner_e⟩, f, hf, howner_f⟩ := hexits
  have hab : ring.Feeds i ⟨2⟩ ⟨3⟩ := ⟨by simp [hchildren], by simp [hchildren], by simp [hfeedback],
    b, hb, ⟨13⟩, by simp [Component.ports, hdata_b], q, ⟨4⟩, hq, hbus_q, w, f, hw, howner_w ▸ hf, howner_f⟩
  have hba : ring.Feeds i ⟨3⟩ ⟨2⟩ := ⟨by simp [hchildren], by simp [hchildren], by simp [hfeedback],
    a, ha, ⟨9⟩, by simp [Component.ports, hdata_a], p, ⟨6⟩, hp, hbus_p, z, e, hz, howner_z ▸ he, howner_e⟩
  obtain ⟨pins, hlinked⟩ := hring.linked
  have hwp := wp_order (s := ⟨ring, #[]⟩) hlinked hx hi
  unfold wp at hwp
  cases horder : Netlist.order ⟨0⟩ ⟨ring, #[]⟩ with
  | ok order t =>
      rw [horder] at hwp
      exact absurd (TransGen.tail (.single hab) hba) (hwp.2.1 ⟨2⟩)
  | error failure t =>
      obtain ⟨cs, names, hloop, hfailure, hsorted, hmem, -⟩ :=
        order_reports_loop hring hx hi #[] horder
      have hall : ∀ d, d ∈ cs ↔ d = ⟨2⟩ ∨ d = ⟨3⟩ := by
        obtain ⟨c, hc, -⟩ := hloop.circular
        have hchild := ((hloop.connected c hc c).mp hc).1
        intro d
        rw [hloop.connected c hc d, hchildren]
        rw [hchildren] at hchild
        simp only [List.mem_cons, List.not_mem_nil, or_false] at hchild ⊢
        refine ⟨And.left, fun hd => ⟨hd, ?_⟩⟩
        rcases hchild with rfl | rfl <;> rcases hd with rfl | rfl
        · exact ⟨.refl, .refl⟩
        · exact ⟨.single hab, .single hba⟩
        · exact ⟨.single hba, .single hab⟩
        · exact ⟨.refl, .refl⟩
      refine ⟨ring, a, b, failure, t, names, ha, hb, horder, hfailure, hsorted, fun name => ?_⟩
      rw [hmem]
      simp [hall, ha, hb, eq_comm]

end DataflowSynth.Netlist
