/-
The gates that answer a memory read, as a circuit.

The module that carries out a read is one circuit with three shapes.  In each of them the gate that gives
the done signal lets a request meet an answer; the shapes differ in where the request comes from.  The
rules of the gates and of the flop are read off the parts that were drawn.  They make the flop hold a
request until it is answered, and they can always be followed, since no two parts give out the same bus.
-/
import DataflowSynth.Proofs.Circuit.Accessors
import DataflowSynth.Proofs.Circuit.Requests
import DataflowSynth.Proofs.Memory.TakeOver

namespace DataflowSynth.Memory

open Handshake (Holds)
open Netlist

variable {w : Signals} {m : ComponentId} {latency : Latency} {ν : Node} {νs : List Node}

/-! ### Rules -/

theorem obeys_gatePart {g : Gate} {inputs : List BusId} {result : BusId}
    (h : (gatePart m g inputs result).Of ν) :
    ν.Obeys w ↔ ∀ t k, w.bus t result k = g.eval (inputs.map fun b => w.bus t b k) := by
  have hkind : ν.kind = g.kind := Node.Shows.kind h
  exact (Node.obeys_of_ne (by rw [hkind]; cases g <;> nofun)).trans (follows_gatePart h)

theorem obeys_cacheFlop {v : CacheLines} (h : (cacheFlop m v).Of ν) :
    ν.Obeys w ↔ w.bus 0 v.held 0 = false ∧ ∀ t, w.bus (t + 1) v.held 0 =
      if w.bus t v.clear 0 then false else if w.bus t v.go 0 then true else w.bus t v.held 0 := by
  have hshows : ν.Shows _ := h
  have hkind : ν.kind = .reg .regRS := hshows.kind
  obtain ⟨data, as, hdata, hheld, has⟩ := List.map_eq_cons_iff.mp hshows.data
  obtain ⟨set, bs, rfl, hgo, hbs⟩ := List.map_eq_cons_iff.mp has
  obtain ⟨clear, rfl, hclear⟩ := List.map_eq_singleton_iff.mp hbs
  have hfollows : ν.Follows w := by
    rw [Node.Follows, hkind]
    trivial
  simp [Node.Obeys, hfollows, hkind, Node.Stores, hshows.result?, hdata, Pad.level_of_driver hheld,
    Pad.level_of_driver hgo, Pad.level_of_driver hclear, Pad.level_of_driver hshows.reset]

/-- The request that the done signal waits for. -/
def CacheLines.asked (v : CacheLines) (latency : Latency) : BusId :=
  if latency.isZero then v.go else if latency.minClocks > 0 then v.held else v.request

/-- What the gates and the flop do. -/
structure CacheLines.Rules (v : CacheLines) (latency : Latency) (w : Signals) : Prop where
  done : ∀ t k, w.bus t v.done k = (w.bus t (v.asked latency) k && w.bus t v.ready k)
  begins : ¬ latency.isZero → w.bus 0 v.held 0 = false
  held : ¬ latency.isZero → ∀ t, w.bus (t + 1) v.held 0 =
    if w.bus t v.clear 0 then false else if w.bus t v.go 0 then true else w.bus t v.held 0
  clear : ¬ latency.isZero → ∀ t k, w.bus t v.clear k = (w.bus t v.done k || w.bus t v.reset k)
  request : ¬ latency.isZero → ¬ latency.minClocks > 0 → ∀ t k,
    w.bus t v.request k = (w.bus t v.held k || w.bus t v.go k)

theorem obeys_cacheParts {v : CacheLines} (h : List.Forall₂ Piece.Of (cacheParts m latency v) νs) :
    (∀ ν ∈ νs, ν.Obeys w) ↔ v.Rules latency w := by
  unfold cacheParts at h
  by_cases hzero : latency.isZero
  · rw [if_pos hzero] at h
    obtain _ | ⟨hA, _ | _⟩ := h
    simp only [List.forall_mem_singleton, obeys_gatePart hA, List.map_cons, List.map_nil, Gate.eval_and]
    have hasked : v.asked latency = v.go := if_pos hzero
    exact ⟨fun hdone => ⟨hasked ▸ hdone, absurd hzero, absurd hzero, absurd hzero, absurd hzero⟩,
      fun hrules => hasked ▸ hrules.done⟩
  rw [if_neg hzero] at h
  by_cases hmin : latency.minClocks > 0
  · rw [if_pos hmin] at h
    obtain _ | ⟨hA, _ | ⟨hF, _ | ⟨hW, _ | _⟩⟩⟩ := h
    simp only [List.forall_mem_cons, obeys_gatePart hA, obeys_cacheFlop hF, obeys_gatePart hW,
      List.map_cons, List.map_nil, Gate.eval_and, Gate.eval_or]
    have hasked : v.asked latency = v.held := (if_neg hzero).trans (if_pos hmin)
    constructor
    · rintro ⟨hdone, ⟨hbegins, hheld⟩, hclear, -⟩
      exact ⟨hasked ▸ hdone, fun _ => hbegins, fun _ => hheld, fun _ => hclear,
        fun _ hnot => absurd hmin hnot⟩
    · exact fun hrules => ⟨hasked ▸ hrules.done, ⟨hrules.begins hzero, hrules.held hzero⟩,
        hrules.clear hzero, by simp⟩
  · rw [if_neg hmin] at h
    obtain _ | ⟨hA, _ | ⟨hF, _ | ⟨hW, _ | ⟨hZ, _ | _⟩⟩⟩⟩ := h
    simp only [List.forall_mem_cons, obeys_gatePart hA, obeys_cacheFlop hF, obeys_gatePart hW,
      obeys_gatePart hZ, List.map_cons, List.map_nil, Gate.eval_and, Gate.eval_or]
    have hasked : v.asked latency = v.request := (if_neg hzero).trans (if_neg hmin)
    constructor
    · rintro ⟨hdone, ⟨hbegins, hheld⟩, hclear, hrequest, -⟩
      exact ⟨hasked ▸ hdone, fun _ => hbegins, fun _ => hheld, fun _ => hclear, fun _ _ => hrequest⟩
    · exact fun hrules => ⟨hasked ▸ hrules.done, ⟨hrules.begins hzero, hrules.held hzero⟩,
        hrules.clear hzero, hrules.request hzero hmin, by simp⟩

/-- The flop holds a request until it is answered. -/
theorem CacheLines.Rules.holds {v : CacheLines} (h : v.Rules latency w) (hzero : ¬ latency.isZero)
    (hreset : ∀ t, w.bus t v.reset 0 = false) :
    Holds latency.delay (fun t => w.bus t v.go 0 = true) (fun t => w.bus t v.held 0 = true)
      (fun t => w.bus t v.ready 0 = true) (fun t => w.bus t v.done 0 = true) where
  begins := by simp [h.begins hzero]
  ends t := by
    by_cases hmin : latency.minClocks > 0
    · simp [h.done, asked, hzero, hmin, Latency.delay]
    · simp [h.done, asked, hzero, hmin, Latency.delay, h.request hzero hmin]
  keeps t := by
    rw [h.held hzero, h.clear hzero, hreset, Bool.or_false]
    cases w.bus t v.done 0 <;> cases w.bus t v.go 0 <;> simp

/-- What leaves the module: it is on the first bus inside, and on the second one outside. -/
def ReadLines.leaving (v : ReadLines) : List (BusId × BusId) :=
  [(v.cache.done, v.done), (v.cast, v.dataOut), (v.address, v.sideAddress), (v.cache.go, v.sideEnable),
    (v.size, v.sideSize)]

/-- Ports that are driven inside and repeated outside pass on what drives them. -/
theorem repeats_iff {as : List Pad} (es : List (BusId × BusId))
    (h : as.map (fun a => (a.driver, a.peer)) = es.map fun e => (some e.1, some e.2)) :
    (∀ a ∈ as, ∀ b, a.peer = some b → ∀ t, w.bus t b = a.level w t) ↔
      ∀ e ∈ es, ∀ t, w.bus t e.2 = w.bus t e.1 := by
  induction es generalizing as with
  | nil => simp_all
  | cons e es ih =>
      obtain ⟨a, as, rfl, ha, has⟩ := List.map_eq_cons_iff.mp h
      obtain ⟨hdriver, hpeer⟩ := Prod.mk.inj ha
      simp only [List.forall_mem_cons, ih has, hpeer, Option.some.injEq, forall_eq',
        Pad.level_of_driver hdriver]

theorem obeys_parts {v : ReadLines} {signal : Signal}
    (h : List.Forall₂ Piece.Of (v.parts m signal latency) νs) :
    (∀ ν ∈ νs, ν.Obeys w) ↔ (∀ e ∈ v.leaving, ∀ t, w.bus t e.2 = w.bus t e.1) ∧
      v.cache.Rules latency w := by
  obtain _ | @⟨_, I, _, _, hI, _ | @⟨_, O, _, _, hO, _ | @⟨_, C, _, νs, hC, hcache⟩⟩⟩ := h
  have hI' : I.Obeys w := (Node.obeys_of_ne (by simp [InBufNode.kind hI])).mpr (InBufNode.follows hI)
  have hC' : C.Obeys w := by
    have hkind : C.kind = .cast signal.width signal.signed := Node.Shows.kind hC
    refine (Node.obeys_of_ne (by simp [hkind])).mpr ?_
    rw [Node.Follows, hkind]
    trivial
  have hO' : O.Obeys w ↔ ∀ e ∈ v.leaving, ∀ t, w.bus t e.2 = w.bus t e.1 := by
    rw [Node.obeys_of_ne (by simp [Node.OutBuf.kind hO]), Node.OutBuf.follows hO,
      repeats_iff v.leaving.tail (Node.OutBuf.data hO), ReadLines.leaving, List.forall_mem_cons]
    rfl
  simp only [List.forall_mem_cons, hI', hC', true_and, hO', obeys_cacheParts hcache]

/-! ### Buses that are all different -/

section

variable {Γ : Ground} {n : Netlist} (hn : Proper Γ n)

include hn

theorem nodup_outlet {c : ComponentId} {o : Outlet} (hν : (Γ.sheet n).node? c = some ν)
    (ho : o ∈ ν.outlets) : o.buses.Nodup := by
  obtain ⟨y, hy, -, heq, hle⟩ := hn.has_exit hν ho
  rw [heq]
  exact (hn.shape.exits _ y hy hle).nodup

theorem nodup_piece {c : ComponentId} {p : Piece} (hν : (Γ.sheet n).node? c = some ν) (hp : p.Of ν) :
    p.buses.Nodup := by
  cases p with
  | inBuf m o => exact nodup_outlet hn hν (Node.outlet?_mem (InBufNode.outlet? hp))
  | outBuf => exact .nil
  | cell x =>
      obtain ⟨o, ho, hdata⟩ := Node.Shows.outlet? hp
      have hnodup := nodup_outlet hn hν (Node.outlet?_mem ho)
      rw [Outlet.buses, List.cons_append, List.nodup_cons, List.nodup_append] at hnodup
      exact (hdata ▸ hnodup.2.1 : x.results.Nodup)

/-- Parts that stand in a row give out different buses, each of them where it stands. -/
theorem nodup_row {ps : List Piece} (hparts : List.Forall₂ Piece.Of ps νs)
    (hrow : (Γ.sheet n).Row m νs) : (ps.flatMap Piece.buses).Nodup ∧
      ∀ b ∈ ps.flatMap Piece.buses, ∃ c, m.index ≤ c.index ∧ (n.origin b).1 = some c := by
  induction hparts generalizing m with
  | nil => simp
  | @cons p ν ps νs hp _ ih =>
      have hν : (Γ.sheet n).node? m = some ν := hrow 0 ν rfl
      obtain ⟨hnodup, horigin⟩ := ih hrow.tail
      have hhead : ∀ b ∈ p.buses, (n.origin b).1 = some m := fun b hb => by
        obtain ⟨o, ho, hbo⟩ := Node.mem_buses.mp (hp.mem_buses hb)
        exact hn.origin_fst hν ho hbo
      rw [List.flatMap_cons]
      refine ⟨List.nodup_append.mpr ⟨nodup_piece hn hν hp, hnodup, ?_⟩, fun b hb => ?_⟩
      · rintro b hb _ hb' rfl
        obtain ⟨c, hc, heq⟩ := horigin b hb'
        obtain rfl : m = c := Option.some.inj ((hhead b hb).symm.trans heq)
        exact absurd hc (Nat.not_succ_le_self _)
      · rcases List.mem_append.mp hb with hb | hb
        · exact ⟨m, Nat.le_refl _, hhead b hb⟩
        · obtain ⟨c, hc, heq⟩ := horigin b hb
          exact ⟨c, Nat.le_of_succ_le hc, heq⟩

/-- So are the buses of a module and those of its parts. -/
theorem nodup_module {M : Node} {o : Outlet} {ps : List Piece} (hparts : List.Forall₂ Piece.Of ps νs)
    (hrow : (Γ.sheet n).Row m (M :: νs)) (ho : o ∈ M.outlets) :
    (o.buses ++ ps.flatMap Piece.buses).Nodup := by
  have hM : (Γ.sheet n).node? m = some M := hrow 0 M rfl
  obtain ⟨hnodup, horigin⟩ := nodup_row hn hparts hrow.tail
  refine List.nodup_append.mpr ⟨nodup_outlet hn hM ho, hnodup, ?_⟩
  rintro b hb _ hb' rfl
  obtain ⟨c, hc, heq⟩ := horigin b hb'
  obtain rfl : m = c := Option.some.inj ((hn.origin_fst hM ho hb).symm.trans heq)
  exact absurd hc (Nat.not_succ_le_self _)

end

/-! ### What the buses carry -/

/-- What the flop holds, from the requests and the answers. -/
def heldBit (delay : Nat) (go ready : Nat → Bool) : Nat → Bool
  | 0 => false
  | t + 1 => !((heldBit delay go ready t || (delay = 0 && go t)) && ready t) &&
      (go t || heldBit delay go ready t)

/-- When the memory has answered. -/
def doneBit (latency : Latency) (go ready : Nat → Bool) (t : Nat) : Bool :=
  (if latency.isZero then go t
    else heldBit latency.delay go ready t || (latency.delay = 0 && go t)) && ready t

def CacheLines.values (v : CacheLines) (latency : Latency) (go ready : Nat → Bool) :
    List (BusId × (Nat → Bool)) :=
  let held := heldBit latency.delay go ready
  let done := doneBit latency go ready
  if latency.isZero then [(v.done, done)]
  else if latency.minClocks > 0 then [(v.done, done), (v.held, held), (v.clear, done)]
  else [(v.done, done), (v.held, held), (v.clear, done), (v.request, fun t => held t || go t)]

/-- What the buses of the module carry, if neither addresses nor words do anything. -/
def ReadLines.values (v : ReadLines) (latency : Latency) (go ready : Nat → Bool) :
    List (BusId × (Nat → Bool)) :=
  let low := fun _ => false
  [(v.done, doneBit latency go ready), (v.dataOut, low), (v.sideAddress, low), (v.sideEnable, go),
    (v.sideSize, low), (v.cache.go, go), (v.address, low), (v.size, low), (v.cache.ready, ready),
    (v.word, low), (v.cache.clock, low), (v.cache.reset, low), (v.cast, low)] ++
  v.cache.values latency go ready

theorem ReadLines.fst_values (v : ReadLines) (m : ComponentId) (signal : Signal) (latency : Latency)
    (go ready : Nat → Bool) : (v.values latency go ready).map Prod.fst =
      (v.outer m).buses ++ (v.parts m signal latency).flatMap Piece.buses := by
  unfold ReadLines.values CacheLines.values ReadLines.parts cacheParts
  split
  · rfl
  · split <;> rfl

theorem CacheLines.rules_of_values {v : CacheLines} {go ready : Nat → Bool}
    (h : ∀ e ∈ v.values latency go ready, ∀ t k, w.bus t e.1 k = e.2 t)
    (hgo : ∀ t k, w.bus t v.go k = go t) (hready : ∀ t k, w.bus t v.ready k = ready t)
    (hreset : ∀ t k, w.bus t v.reset k = false) :
    v.Rules latency w ∧ ∀ t k, w.bus t v.done k = doneBit latency go ready t := by
  unfold CacheLines.values at h
  by_cases hzero : latency.isZero
  · simp only [if_pos hzero, List.forall_mem_singleton] at h
    refine ⟨⟨fun t k => ?_, absurd hzero, absurd hzero, absurd hzero, absurd hzero⟩, h⟩
    rw [h, asked, if_pos hzero, hgo, hready, doneBit, if_pos hzero]
  · by_cases hmin : latency.minClocks > 0
    · simp only [if_neg hzero, if_pos hmin, List.forall_mem_cons] at h
      obtain ⟨hdone, hheld, hclear, -⟩ := h
      refine ⟨⟨fun t k => ?_, fun _ => hheld 0 0, fun _ t => ?_, fun _ t k => ?_,
        fun _ hnot => absurd hmin hnot⟩, hdone⟩
      · simp [asked, hzero, hmin, hdone, hheld, hready, doneBit, Latency.delay]
      · simp [hheld, hclear, hgo, heldBit, hzero, hmin, doneBit, Latency.delay]
      · simp [hclear, hdone, hreset]
    · simp only [if_neg hzero, if_neg hmin, List.forall_mem_cons] at h
      obtain ⟨hdone, hheld, hclear, hrequest, -⟩ := h
      refine ⟨⟨fun t k => ?_, fun _ => hheld 0 0, fun _ t => ?_, fun _ t k => ?_,
        fun _ _ t k => ?_⟩, hdone⟩
      · simp [asked, hzero, hmin, hdone, hrequest, hready, doneBit, Latency.delay]
      · simp [hheld, hclear, hgo, heldBit, hzero, hmin, doneBit, Latency.delay]
      · simp [hclear, hdone, hreset]
      · simp [hrequest, hheld, hgo]

/-! ### The module that was built -/

theorem ReadLines.owner_parts {v : ReadLines} {signal : Signal} :
    ∀ p ∈ v.parts m signal latency, p.owner? = some m := by
  unfold ReadLines.parts cacheParts
  split
  · simp [Piece.owner?, gatePart]
  · split <;> simp [Piece.owner?, gatePart, cacheFlop]

section

variable {pins : Nat} {n n' : Netlist} {c : ComponentId} {r : Component} {y : Exit} {result : BusId}
  {memory : UInt32}

/-- The module is read as a circuit where it was drawn, so it does not matter what drives it. -/
theorem Carried.exists_built (hl : Linked pins {} n) (hr : n.components.get? c = some r)
    (K : Carried (.under pins n) n.portDriver? ((Ground.under pins n).sheet n.unconnected) c r y result
      memory n') :
    ∃ m, Built (.under pins n) m (K.lines.module K.ports (Ground.under pins n).module y.latency) K.parts ∧
      (∀ w, n'.RunsInside w (Ground.under pins n).module ↔ m.RunsInside w (Ground.under pins n).module) ∧
      (∀ p, (n'.pad p).peer = (m.pad p).peer) ∧ ∃ x,
        n'.components.get? (Ground.under pins n).module = some x ∧
        m.node x = K.lines.module K.ports (Ground.under pins n).module y.latency := by
  obtain ⟨m, hover, hm, hsheet⟩ := K.lies
  have hM := hsheet ▸ Sheet.node?_next_adds ..
  have built : Built (.under pins n) m _ K.parts :=
    ⟨hm, hl.unconnected, hsheet, owners_of_parts K.shows ReadLines.owner_parts⟩
  obtain ⟨x, hx', -, hnode⟩ := K.found hr hover hM
  have hcomponents : ∀ d, n'.components.get? d = if d = c then (m.components.get? d).map fun x =>
      { x with kind := .memoryRead memory (some (Ground.under pins n).module) }
      else m.components.get? d := by
    intro d
    rw [congrArg Netlist.components K.eq, Arena.get?_modify, hover.components]
    rfl
  refine ⟨m, built, fun w => runsInside_congr (fun d => inside_congr fun d => ?_) fun d hd hne => ?_,
    fun p => ?_, x, hx', hnode⟩
  · rw [hcomponents]
    split
    · rw [Option.map_map]
      rfl
    · rfl
  · have hnew := built.new_of_inside hd
    have hold : d ≠ c := by
      rintro rfl
      exact absurd (Arena.lt_of_get? hr) (Nat.not_lt_of_le hnew)
    refine ⟨by rw [hcomponents, if_neg hold], fun x hx => ?_⟩
    have hlt : (Ground.under pins n).module.index < d.index :=
      Nat.lt_of_le_of_ne hnew fun heq => hne (congrArg Handle.mk heq).symm
    refine (congrArg (·.node x) K.eq).trans (hover.node fun p hp => ?_)
    exact takenOver_behind hl hr hm hM hx hlt hp
  · exact (congrArg (fun n : Netlist => (n.pad p).peer) K.eq).trans (hover.pad_peer p)

end

/-- The module `m` is the circuit with the buses `v`. -/
structure Wired (n : Netlist) (m : ComponentId) (v : ReadLines) (latency : Latency) : Prop where
  runs : ∀ w, n.RunsInside w m ↔
    (∀ e ∈ v.leaving, ∀ t, w.bus t e.2 = w.bus t e.1) ∧ v.cache.Rules latency w
  asked : ∀ w t, n.Asked w m t ↔ w.bus t v.cache.go 0 = true
  told : ∀ w t, n.Told w m t ↔ w.bus t v.cache.ready 0 = true
  resets : ∀ w t, n.Enters w m (fun x => some x.reset) t ↔ w.bus t v.cache.reset 0 = true
  finished : ∀ w t, n.Finished w m t ↔ w.bus t v.done 0 = true
  nodup : ∀ go ready, ((v.values latency go ready).map Prod.fst).Nodup

theorem Carried.wired {pins : Nat} {n n' : Netlist} {c : ComponentId} {r : Component} {e : ExitId}
    {y : Exit} {result : BusId} {memory : UInt32} (hl : Linked pins {} n)
    (hr : n.components.get? c = some r) (h : ReadShape n r e y result)
    (K : Carried (.under pins n) n.portDriver? ((Ground.under pins n).sheet n.unconnected) c r y result
      memory n') : Wired n' (Ground.under pins n).module K.lines y.latency := by
  obtain ⟨m, built, hruns, hpeer, x, hx, hnode⟩ := K.exists_built hl hr
  have hdrawn := hnode ▸ drawnAs_node m x
  have hready : ∃ p, x.dataPorts[2]? = some p ∧ (m.pad p).peer = some K.lines.cache.ready := by
    have hdata : x.dataPorts.map m.pad = (K.lines.module K.ports _ y.latency).data := congrArg Node.data hnode
    have hget := congrArg (·[2]?) hdata
    rw [List.getElem?_map] at hget
    obtain ⟨p, hp, heq⟩ := Option.map_eq_some_iff.mp hget
    exact ⟨p, hp, congrArg Pad.peer heq⟩
  obtain ⟨p, hp, hready⟩ := hready
  have hgo : (m.pad x.go).peer = some K.lines.cache.go := congrArg (fun ν => ν.go.peer) hnode
  have hreset : (m.pad x.reset).peer = some K.lines.cache.reset := congrArg (fun ν => ν.reset.peer) hnode
  obtain ⟨x', y', hx', -, -, hexit, -, hdone, -⟩ := K.takesOver hl hr h
  refine ⟨fun w => ?_, fun w => enters_iff hx rfl ((hpeer _).trans hgo),
    fun w => enters_iff hx hp ((hpeer _).trans hready),
    fun w => enters_iff hx rfl ((hpeer _).trans hreset),
    fun w => hdone ▸ finished_iff hx' hexit, fun go ready => ?_⟩
  · rw [hruns, built.runsInside_iff, obeys_parts K.shows]
  · rw [ReadLines.fst_values K.lines (Ground.under pins n).module K.signal]
    refine nodup_module built.proper K.shows built.row ?_
    simp [ReadLines.module, readModule, Node.outlets]

section

variable {n : Netlist} {v : ReadLines} (h : Wired n m v latency)

include h

theorem Wired.finished_iff (hw : n.RunsInside w m) (t : Nat) :
    n.Finished w m t ↔ w.bus t v.cache.done 0 = true := by
  have hleaves := ((h.runs w).mp hw).1 (v.cache.done, v.done) (by simp [ReadLines.leaving]) t
  rw [h.finished, hleaves]

theorem Wired.low (hw : n.Undisturbed w m) (t : Nat) : w.bus t v.cache.reset 0 = false :=
  Bool.eq_false_of_not_eq_true fun hhigh => hw.reset t ((h.resets w t).mpr hhigh)

theorem Wired.exists_run (go ready : Nat → Bool) : ∃ w, n.Undisturbed w m ∧
    (∀ t, n.Asked w m t ↔ go t = true) ∧ ∀ t, n.Told w m t ↔ ready t = true := by
  let values := (v.values latency go ready).map fun e => (e.1, fun t (_ : Nat) => e.2 t)
  have hfst : values.map Prod.fst = (v.values latency go ready).map Prod.fst := by
    rw [List.map_map]
    rfl
  obtain ⟨bus, hbus, -⟩ := exists_assignment values (hfst ▸ h.nodup go ready)
  let w : Signals := ⟨bus, fun _ _ _ => false, fun _ _ _ => false⟩
  have hvalues : ∀ e ∈ v.values latency go ready, ∀ t k, w.bus t e.1 k = e.2 t := fun e he t k =>
    congrFun (hbus _ (List.mem_map_of_mem he) t) k
  obtain ⟨houter, hcache⟩ := List.forall_mem_append.mp hvalues
  simp only [List.forall_mem_cons] at houter
  obtain ⟨hdone, hout, hsideAddress, hsideEnable, hsideSize, hgo, haddress, hsize, hready, -, -, hreset,
    hcast, -⟩ := houter
  obtain ⟨hrules, hfire⟩ := CacheLines.rules_of_values hcache hgo hready hreset
  refine ⟨w, ⟨(h.runs w).mpr ⟨?_, hrules⟩, fun t => ?_⟩, fun t => ?_, fun t => ?_⟩
  · simp only [ReadLines.leaving, List.forall_mem_cons]
    refine ⟨fun t => funext fun k => ?_, fun t => funext fun k => ?_, fun t => funext fun k => ?_,
      fun t => funext fun k => ?_, fun t => funext fun k => ?_, by simp⟩
    · rw [hdone, hfire]
    · rw [hout, hcast]
    · rw [hsideAddress, haddress]
    · rw [hsideEnable, hgo]
    · rw [hsideSize, hsize]
  · rw [h.resets, hreset]
    simp
  · rw [h.asked, hgo]
  · rw [h.told, hready]

theorem Wired.answersOnce : n.AnswersOnce m latency where
  runs := h.exists_run
  atOnce hzero w hw t := by
    have hdone := ((h.runs w).mp hw.runs).2.done t 0
    rw [h.finished_iff hw.runs, h.asked, h.told, hdone, CacheLines.asked, if_pos hzero, Bool.and_eq_true]
  later hzero w hw hpatient t := by
    have hasked : n.Asked w m = fun t => w.bus t v.cache.go 0 = true := funext fun t =>
      propext (h.asked w t)
    have htold : n.Told w m = fun t => w.bus t v.cache.ready 0 = true := funext fun t =>
      propext (h.told w t)
    have hholds := ((h.runs w).mp hw.runs).2.holds hzero (h.low hw)
    rw [← hasked, ← htold] at hholds
    rw [h.finished_iff hw.runs]
    exact hholds.done_iff latency.delay_le hpatient t

end

/-- Whatever the latency of a read, its module answers every request once. -/
theorem physical_answers {n : Netlist} {c : ComponentId} {r : Component} (h : Pending n c r)
    (j : Journal) : ∃ m t y, makePhysical c ⟨n, j⟩ = .ok m t ∧ r.mainExit?.bind n.exits.get? = some y ∧
      t.state.AnswersOnce m y.latency := by
  obtain ⟨pins, e, y, result, memory, t, _, hl, hshape, rfl, hrun, ⟨K⟩⟩ := h.exists_carried j
  refine ⟨_, t, y, hrun, ?_, (K.wired hl h.read hshape).answersOnce⟩
  rw [hshape.mainExit]
  exact hshape.exit

/-- A read that takes a clock and is connected to itself. -/
theorem physical_answers_circular : ∃ r, Pending circularRead ⟨0⟩ r ∧ ∃ m t,
    makePhysical ⟨0⟩ ⟨circularRead, #[]⟩ = .ok m t ∧ t.state.AnswersOnce m (.constant 1) := by
  obtain ⟨r, hr, -⟩ := pending_circularRead
  obtain ⟨m, t, y, hrun, hy, hanswers⟩ := physical_answers hr #[]
  have hlatency : ((circularRead.components.get? ⟨0⟩).bind fun r =>
      r.mainExit?.bind circularRead.exits.get?).map Exit.latency = some (.constant 1) := by decide +kernel
  rw [hr.read, Option.bind_some, hy] at hlatency
  have hlatency : y.latency = .constant 1 := Option.some.inj hlatency
  exact ⟨r, hr, m, t, hrun, hlatency ▸ hanswers⟩

end DataflowSynth.Memory
