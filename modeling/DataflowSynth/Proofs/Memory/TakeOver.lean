/-
A read hands its connections over.

When a read is carried out, the module that does it stands where the read stood: its five ports have
the drivers of those of the read, and what the result and the done of the read drove is driven by its
own.  A driver of the read may be one of these two buses, since a read may be connected to itself; then
it is exchanged as well.  Nothing else is connected in another way.  Afterwards signals do not run in a
circle inside the module, and to carry the read out again changes nothing.
-/
import DataflowSynth.Proofs.Memory.Pending
import DataflowSynth.Proofs.Sheet.Orderly

namespace DataflowSynth

open Build

/-- A step that is run to its end, with a result. -/
theorem Build.yields_run {σ α : Type} {x : Build σ α} {s : σ} {a : α}
    (h : (x.run ⟨s, #[]⟩).1.toOption = some a) : x.Yields s a (x.run ⟨s, #[]⟩).2.state := by
  refine ⟨#[], (x.run ⟨s, #[]⟩).2.journal, ?_⟩
  unfold Build.run at h ⊢
  cases hrun : x ⟨s, #[]⟩ with
  | ok b t =>
      rw [hrun] at h
      cases h
      rfl
  | error e t =>
      rw [hrun] at h
      cases h

/-! ### Handing over many connections -/

namespace Netlist

variable {ω : PortId → Option BusId} {es : List (PortId × PortId)}

theorem foldl_handOver_of_not_mem {p : PortId} (hsources : p ∉ es.map Prod.fst)
    (htargets : p ∉ es.map Prod.snd) : es.foldl handOver ω p = ω p := by
  induction es generalizing ω with
  | nil => rfl
  | cons e es ih =>
      simp only [List.map_cons, List.mem_cons, not_or] at hsources htargets
      rw [List.foldl_cons, ih hsources.2 htargets.2, handOver, Function.update_of_ne htargets.1,
        Function.update_of_ne hsources.1]

/-- No port gives a driver away twice or gets one twice, and none does both. -/
structure Separate (es : List (PortId × PortId)) : Prop where
  sources : (es.map Prod.fst).Nodup
  targets : (es.map Prod.snd).Nodup
  apart : ∀ e ∈ es, ∀ e' ∈ es, e.1 ≠ e'.2

theorem foldl_handOver_of_mem (h : Separate es) {e : PortId × PortId} (he : e ∈ es) :
    es.foldl handOver ω e.1 = none ∧ es.foldl handOver ω e.2 = ω e.1 := by
  induction es generalizing ω with
  | nil => cases he
  | cons a es ih =>
      obtain ⟨hsource, hsources⟩ := List.nodup_cons.mp h.sources
      obtain ⟨htarget, htargets⟩ := List.nodup_cons.mp h.targets
      rw [List.foldl_cons]
      rcases List.mem_cons.mp he with rfl | hmem
      -- The rest leaves both ports alone.
      · have hsource' : e.1 ∉ es.map Prod.snd := by
          rintro hin
          obtain ⟨e', he', heq⟩ := List.mem_map.mp hin
          exact h.apart e he e' (by simp [he']) heq.symm
        have htarget' : e.2 ∉ es.map Prod.fst := by
          rintro hin
          obtain ⟨e', he', heq⟩ := List.mem_map.mp hin
          exact h.apart e' (by simp [he']) e he heq
        rw [foldl_handOver_of_not_mem hsource hsource', foldl_handOver_of_not_mem htarget' htarget]
        simp [handOver, Function.update_of_ne (h.apart e he e he)]
      · have hrest : Separate es := ⟨hsources, htargets, fun e he e' he' =>
          h.apart e (by simp [he]) e' (by simp [he'])⟩
        have hne : e.1 ≠ a.1 := fun heq => hsource (heq ▸ List.mem_map_of_mem hmem)
        have hne' : e.1 ≠ a.2 := h.apart e he a (by simp)
        obtain ⟨hgone, hmoved⟩ := ih (ω := handOver ω a) hrest hmem
        refine ⟨hgone, ?_⟩
        rw [hmoved, handOver, Function.update_of_ne hne', Function.update_of_ne hne]

theorem redirect_apply (ω : PortId → Option BusId) (e : BusId × BusId) (p : PortId) :
    redirect ω e p = (ω p).map fun b => if b = e.1 then e.2 else b := by
  unfold redirect
  cases ω p with
  | none => rfl
  | some b => by_cases hb : b = e.1 <;> simp [hb]

/-! ### Signals under other connections -/

theorem Overlays.feeds {m n : Netlist} {i : Interior} {d a : ComponentId} (h : Overlays ω m n)
    (hfree : ∀ x, m.components.get? a = some x → ∀ p ∈ x.ports, ω p = none) (hf : n.Feeds i d a) :
    m.Feeds i d a := by
  obtain ⟨x, hx, p, hp, y, b, hy, hbus, z, e, hz, he, howner⟩ := hf.wire
  refine ⟨hf.driver, hf.driven, hf.direct, x, h.components ▸ hx, p, hp, ?_⟩
  have hdriver : m.portDriver? p = some b := by
    have hn := portDriver?_eq_some.mpr ⟨y, hy, hbus⟩
    rwa [h.portDriver?, hfree x (h.components ▸ hx) p hp, Option.or_none] at hn
  obtain ⟨y', hy', hbus'⟩ := portDriver?_eq_some.mp hdriver
  obtain ⟨z', hz', hsame⟩ : ∃ z', m.buses.get? b = some z' ∧ z'.owner = z.owner := by
    have hb := h.buses b
    rw [hz] at hb
    obtain ⟨z', hz', heq⟩ := Option.map_eq_some_iff.mp hb.symm
    exact ⟨z', hz', (congrArg Bus.owner heq :)⟩
  exact ⟨y', b, hy', hbus', z', e, hz', hsame ▸ h.exits ▸ he, howner⟩

theorem feeds_modify {n : Netlist} {i : Interior} {c d a : ComponentId} {f : Component → Component}
    (hf : ∀ x, (f x).ports = x.ports)
    (h : ({ n with components := n.components.modify c f } : Netlist).Feeds i d a) : n.Feeds i d a := by
  obtain ⟨x, hx, p, hp, hdrives⟩ := h.wire
  refine ⟨h.driver, h.driven, h.direct, ?_⟩
  rcases Arena.get?_modify_cases hx with ⟨rfl, z, hz, rfl⟩ | ⟨-, hx⟩
  · exact ⟨z, hz, p, hf z ▸ hp, hdrives⟩
  · exact ⟨x, hx, p, hp, hdrives⟩

/-- The component ends by default with the done `outputs.2` and the result `outputs.1`. -/
def Ends (n : Netlist) (x : Component) (outputs : BusId × BusId) : Prop :=
  ∃ y, x.mainExit?.bind n.exits.get? = some y ∧ y.data.head? = some outputs.1 ∧ y.done = outputs.2

end Netlist

namespace Memory

open Netlist

/-! ### What is taken over -/

/-- The result and the done of the module take the place of those of the read. -/
def exchange (read module : BusId × BusId) (b : BusId) : BusId :=
  if b = read.1 then module.1 else if b = read.2 then module.2 else b

section

variable {ω : PortId → Option BusId} {r : Component} {y : Exit} {result : BusId} {p : ReadPorts}
  {v : ReadLines}

theorem takenOver_eq (hne : v.dataOut ≠ y.done) (q : PortId) : takenOver ω r y result p v q =
    (((readInputs r).zip p.inputs).foldl handOver ω q).map
      (exchange (result, y.done) (v.dataOut, v.done)) := by
  rw [takenOver, redirect_apply, redirect_apply, Option.map_map]
  congr 1
  funext b
  simp only [Function.comp_apply, exchange]
  by_cases hb : b = result
  · rw [if_pos hb, if_pos hb, if_neg hne]
  · rw [if_neg hb, if_neg hb]

/-- A port that is none of those is connected only if it was. -/
theorem takenOver_eq_none {q : PortId} (hsource : q ∉ readInputs r) (htarget : q ∉ p.inputs)
    (hq : ω q = none) : takenOver ω r y result p v q = none := by
  have hsources : q ∉ ((readInputs r).zip p.inputs).map Prod.fst := by
    intro hmem
    obtain ⟨e, he, rfl⟩ := List.mem_map.mp hmem
    exact hsource (List.of_mem_zip he).1
  have htargets : q ∉ ((readInputs r).zip p.inputs).map Prod.snd := by
    intro hmem
    obtain ⟨e, he, rfl⟩ := List.mem_map.mp hmem
    exact htarget (List.of_mem_zip he).2
  rw [takenOver, redirect_apply, redirect_apply, foldl_handOver_of_not_mem hsources htargets, hq]
  rfl

end

/-! ### The order inside -/

/-- Signals run through every part behind the buffers but the flop, which is the fourth.  What drives such
a part comes in from outside or leaves the flop, or a part in front gives it out; the gate that lets a
request pass stands in front of all. -/
def DrivenFromFront (ps : List (Piece × Nat)) : Prop :=
  ∀ e ∈ ps, 2 ≤ e.2 → e.2 ≠ 4 → e.1.kind.isThrough = true ∧ ∀ b ∈ e.1.drivers, ∃ e' ∈ ps, b ∈ e'.1.buses ∧
    (e'.2 = 0 ∨ e'.2 = 4 ∨ e.2 ≠ 6 ∧ (e'.2 = 6 ∨ e'.2 < e.2))

theorem ReadLines.drivenFromFront (v : ReadLines) (m : ComponentId) (signal : Signal) (latency : Latency) :
    DrivenFromFront (v.parts m signal latency).zipIdx := by
  unfold DrivenFromFront ReadLines.parts cacheParts
  split
  · simp [Piece.kind, Piece.drivers, Piece.buses, gatePart, ReadLines.inner, Outlet.buses,
      ComponentKind.isThrough, Gate.kind]
  split <;>
    simp [Piece.kind, Piece.drivers, Piece.buses, gatePart, ReadLines.inner, Outlet.buses,
      ComponentKind.isThrough, cacheFlop, Gate.kind]

/-- The children are all parts behind the buffers. -/
theorem ReadLines.exists_part (v : ReadLines) {m d : ComponentId} (signal : Signal) {latency : Latency}
    (hd : d ∈ (readInterior m latency).children) :
    ∃ k, d = after m (k + 1) ∧ 2 ≤ k ∧ k < (v.parts m signal latency).length := by
  have hchildren : (readInterior m latency).children =
      (List.range' 2 ((v.parts m signal latency).length - 2)).map fun k => after m (k + 1) := by
    unfold readInterior cachedInterior ReadLines.parts cacheParts
    split
    · rfl
    · split <;> rfl
  rw [hchildren] at hd
  obtain ⟨k, hk, rfl⟩ := List.mem_map.mp hd
  rw [List.mem_range'_1] at hk
  exact ⟨k, rfl, hk.1, by omega⟩

theorem flop_feedback {m : ComponentId} {latency : Latency}
    (hd : after m 5 ∈ (readInterior m latency).children) :
    after m 5 ∈ (readInterior m latency).feedback := by
  unfold readInterior cachedInterior at hd ⊢
  split
  · next hzero =>
    simp [hzero, after] at hd
  · simp [insertAscending]

section

variable {Γ : Ground} {σ : Sheet} {m : Netlist} {M : Node} {νs : List Node} {v : ReadLines}
  {signal : Signal} {latency : Latency} (hm : Proper Γ m) (hsheet : Γ.sheet m = σ.adds (M :: νs))
  (hparts : List.Forall₂ Piece.Of (v.parts σ.next signal latency) νs)

include hm hsheet hparts

/-- Signals run from a part to one behind it, but for the gate that lets a request pass. -/
theorem forward_inside {d a : ComponentId} (h : m.Feeds (readInterior σ.next latency) d a)
    (ha : a ∉ (readInterior σ.next latency).feedback) :
    (if d = after σ.next 7 then 0 else d.index) < if a = after σ.next 7 then 0 else a.index := by
  obtain ⟨k, rfl, hk, hlt⟩ := v.exists_part signal h.driven
  have hflop : k ≠ 4 := by
    rintro rfl
    exact ha (flop_feedback h.driven)
  obtain ⟨hthrough, hfront⟩ := v.drivenFromFront σ.next signal latency _
    (List.mk_mem_zipIdx_iff_getElem?.mpr (List.getElem?_eq_getElem hlt)) hk hflop
  obtain ⟨ν, hν, hof⟩ := node?_part (σ := σ) (M := M) hparts (List.getElem?_eq_getElem hlt)
  obtain ⟨b, hb, hgives⟩ := h.driver_drawn (Γ := Γ) (hsheet ▸ hν)
  have hb' := hof.mem_drivers (hof.kind ▸ hthrough) hb
  obtain ⟨⟨q, j⟩, hq, hbuses, hwhere⟩ := hfront b hb'
  obtain ⟨μ, hμ, hof'⟩ := node?_part (σ := σ) (M := M) hparts (List.mk_mem_zipIdx_iff_getElem?.mp hq)
  obtain rfl : σ.fresh (j + 1) = d :=
    (hm.givesOut (hsheet ▸ hμ) (hof'.mem_buses hbuses)).unique hgives
  obtain ⟨j', hj, hj', -⟩ := v.exists_part signal h.driver
  obtain rfl : j = j' := by simpa using (show σ.fresh (j + 1) = σ.fresh (j' + 1) from hj)
  have hfeedback : j ≠ 4 := by
    rintro rfl
    exact h.direct (flop_feedback h.driver)
  show (if σ.fresh (j + 1) = σ.fresh 7 then 0 else (σ.fresh (j + 1)).index) <
    if σ.fresh (k + 1) = σ.fresh 7 then 0 else (σ.fresh (k + 1)).index
  simp only [Sheet.fresh_inj, Sheet.index_fresh]
  split <;> split <;> omega

end

/-! ### Taking over -/

/-- The module `x` of `n'` is connected as the read `r` was in `n`. -/
structure TakesOver (n n' : Netlist) (r x : Component) (read module : BusId × BusId) : Prop where
  /-- What was there before. -/
  drivers : ∀ p, p.index < n.ports.size → n'.portDriver? p =
    if p ∈ readInputs r then none else (n.portDriver? p).map (exchange read module)
  inputs : (readInputs x).map n'.portDriver? =
    (readInputs r).map fun p => (n.portDriver? p).map (exchange read module)
  sinks : n'.sinks read.1 = [] ∧ n'.sinks read.2 = []

theorem exchange_ne (read module : BusId × BusId) (hfirst : module.1 ≠ read.1 ∧ module.1 ≠ read.2)
    (hsecond : module.2 ≠ read.1 ∧ module.2 ≠ read.2) (b : BusId) :
    exchange read module b ≠ read.1 ∧ exchange read module b ≠ read.2 := by
  unfold exchange
  split
  · exact hfirst
  · split
    · exact hsecond
    · exact ⟨‹_›, ‹_›⟩

theorem exists_pad {p : ReadPorts} (v : ReadLines) (d : ComponentId) (latency : Latency) {q : PortId}
    (hq : q ∈ p.inputs) : ∃ a ∈ (v.module p d latency).pads, a.port = q ∧ a.driver = none := by
  simp only [ReadPorts.inputs, List.mem_cons, List.not_mem_nil, or_false] at hq
  rcases hq with rfl | rfl | rfl | rfl | rfl <;> simp [ReadLines.module, readModule, Node.pads]

section

variable {Γ : Ground} {m : Netlist} {d : ComponentId} {p : ReadPorts} {v : ReadLines} {latency : Latency}
  (hm : Proper Γ m) (hM : (Γ.sheet m).node? d = some (v.module p d latency))

include hm hM

/-- The ports of the module are new and free, and no two are the same. -/
theorem inputs_new : (∀ q ∈ p.inputs, Γ.base.ports.size ≤ q.index ∧ m.portDriver? q = none) ∧
    p.inputs.Nodup := by
  refine ⟨fun q hq => ?_, ?_⟩
  · obtain ⟨a, ha, rfl, hfree⟩ := exists_pad v d latency hq
    obtain ⟨z, hz, -, hpad, hle⟩ := hm.has_port hM ha
    exact ⟨hle, (congrArg Pad.driver hpad).trans hfree⟩
  · obtain ⟨x, hx, hnode⟩ := drawn hM
    have hdrawn : x.DrawnAs (v.module p d latency) := hnode ▸ drawnAs_node m x
    have hnodup := nodup_readInputs (hm.shape.components d x hx (le_of_node? hM)).nodup
    rwa [readInputs, hdrawn.dataPorts, hdrawn.go, hdrawn.clock, hdrawn.reset] at hnodup

/-- The buses of the module are new. -/
theorem outputs_new : Γ.base.buses.size ≤ v.dataOut.index ∧ Γ.base.buses.size ≤ v.done.index := by
  have hbuses : ∀ b ∈ [v.dataOut, v.done], b ∈ (v.module p d latency).buses := by
    simp [ReadLines.module, readModule, ReadLines.outer, Node.buses, Node.outlets, Outlet.buses]
  exact ⟨(hm.has_bus hM (hbuses _ (by simp))).1, (hm.has_bus hM (hbuses _ (by simp))).1⟩

end

/-- Every port of a read hands over to one of the module. -/
theorem ReadShape.zip {n : Netlist} {r : Component} {e : ExitId} {y : Exit} {result : BusId}
    (h : ReadShape n r e y result) (p : ReadPorts) :
    ((readInputs r).zip p.inputs).map Prod.fst = readInputs r ∧
      ((readInputs r).zip p.inputs).map Prod.snd = p.inputs := by
  have hlength : (readInputs r).length = p.inputs.length := by
    simp [readInputs, ReadPorts.inputs, h.data]
  exact ⟨List.map_fst_zip hlength.le, List.map_snd_zip hlength.ge⟩

theorem mem_ports_of_readInputs {r : Component} {p : PortId} (h : p ∈ readInputs r) : p ∈ r.ports := by
  simp only [readInputs, List.mem_append, List.mem_cons, List.not_mem_nil, or_false] at h
  rcases h with h | rfl | rfl | rfl
  · exact Component.mem_ports_of_data (List.mem_of_mem_take h)
  all_goals simp

section

variable {pins : Nat} {n n' : Netlist} {σ : Sheet} {c : ComponentId} {r : Component} {e : ExitId}
  {y : Exit} {result : BusId} {memory : UInt32} (hl : Linked pins {} n)
  (hr : n.components.get? c = some r) (h : ReadShape n r e y result)
  (K : Carried (.under pins n) n.portDriver? σ c r y result memory n')

omit hl h in
include hr in
/-- The module is drawn as it should be, and it is not the read. -/
theorem Carried.found (K : Carried (.under pins n) n.portDriver? σ c r y result memory n') {m : Netlist}
    (hover : Overlays (takenOver n.portDriver? r y result K.ports K.lines) m K.drawn)
    (hM : ((Ground.under pins n).sheet m).node? σ.next =
      some (K.lines.module K.ports σ.next y.latency)) :
    ∃ x, n'.components.get? σ.next = some x ∧ m.components.get? σ.next = some x ∧
      m.node x = K.lines.module K.ports σ.next y.latency := by
  obtain ⟨x, hx, hnode⟩ := Netlist.drawn hM
  have hne : c ≠ σ.next := by
    rintro rfl
    exact absurd (Arena.lt_of_get? hr) (Nat.not_lt_of_le (le_of_node? hM))
  refine ⟨x, (congrArg (·.components.get? σ.next) K.eq).trans ?_, hx, hnode⟩
  exact (Arena.get?_modify_of_ne _ hne _).trans (hover.components ▸ hx)

include hl hr h

/-- The terminals of the read were there before. -/
theorem ReadShape.old : (∀ p ∈ readInputs r, p.index < n.ports.size) ∧
    ∀ b ∈ [result, y.done], b.index < n.buses.size := by
  have hports := (Component.forall_refs.mp (hl.components c r hr (Nat.zero_le _)).refs).2.1
  have hbuses := (Exit.forall_refs.mp (hl.exits e y h.exit (Nat.zero_le _)).refs).2.1
  refine ⟨fun p hp => (hports p (mem_ports_of_readInputs hp)).2, fun b hb => (hbuses b ?_).2⟩
  simp only [List.mem_cons, List.not_mem_nil, or_false] at hb
  rcases hb with rfl | rfl <;> simp [Exit.buses, List.mem_of_head? h.first]

section

variable {m : Netlist} (hover : Overlays (takenOver n.portDriver? r y result K.ports K.lines) m K.drawn)
  (hm : Proper (.under pins n) m)
  (hM : ((Ground.under pins n).sheet m).node? σ.next = some (K.lines.module K.ports σ.next y.latency))

include hm hM

theorem Carried.separate : Separate ((readInputs r).zip K.ports.inputs) := by
  obtain ⟨hnew, hnodup⟩ := inputs_new hm hM
  have hports : (Ground.under pins n).base.ports.size = n.ports.size := Arena.size_map ..
  refine ⟨(h.zip K.ports).1.symm ▸ h.inputs, (h.zip K.ports).2.symm ▸ hnodup, ?_⟩
  · intro d hd d' hd' heq
    have hlt := (h.old hl hr).1 _ (List.of_mem_zip hd).1
    have hge := (hnew _ (List.of_mem_zip hd').2).1
    rw [heq] at hlt
    omega

/-- The buses of the module are not those of the read. -/
theorem Carried.outputs_ne : ∀ b ∈ [K.lines.dataOut, K.lines.done], b ≠ result ∧ b ≠ y.done := by
  obtain ⟨hdataOut, hdone⟩ := outputs_new hm hM
  have hbuses : (Ground.under pins n).base.buses.size = n.buses.size := Arena.size_map ..
  obtain ⟨hresult, hdone'⟩ := forall_mem_pair.mp (h.old hl hr).2
  have hne : ∀ b : BusId, n.buses.size ≤ b.index → b ≠ result ∧ b ≠ y.done := by
    intro b hb
    constructor <;> rintro rfl <;> omega
  exact forall_mem_pair.mpr ⟨hne _ (hbuses ▸ hdataOut), hne _ (hbuses ▸ hdone)⟩

include hover

/-- What drives a port was drawn, or it was handed over. -/
theorem Carried.portDriver? (q : PortId) : n'.portDriver? q = (m.portDriver? q).or
    ((((readInputs r).zip K.ports.inputs).foldl handOver n.portDriver? q).map
      (exchange (result, y.done) (K.lines.dataOut, K.lines.done))) := by
  have hne := (forall_mem_pair.mp (K.outputs_ne hl hr h hm hM)).1.2
  have hsame : n'.portDriver? q = K.drawn.portDriver? q := congrArg (·.portDriver? q) K.eq
  rw [hsame, hover.portDriver?, takenOver_eq hne]

/-- The read drives nothing any more. -/
theorem Carried.sinks_old {b : BusId} (hb : b.index < n.buses.size)
    (hexchange : ∀ d, exchange (result, y.done) (K.lines.dataOut, K.lines.done) d ≠ b) :
    n'.sinks b = [] := by
  have hbuses : (Ground.under pins n).base.buses.size = n.buses.size := Arena.size_map ..
  refine (congrArg (·.sinks b) K.eq).trans (List.eq_nil_iff_forall_not_mem.mpr fun q hq => ?_)
  have hq' : n'.portDriver? q = some b :=
    (congrArg (·.portDriver? q) K.eq).trans ((K.lies.tethered.mem_sinks_iff).mp hq)
  rw [K.portDriver? hl hr h hover hm hM] at hq'
  cases hbelow : m.portDriver? q with
  | some d =>
      rw [hbelow, Option.some_or] at hq'
      exact hm.not_driver_old (portDriver?_unconnected n) (hbuses ▸ hb) (hbelow.trans hq')
  | none =>
      rw [hbelow, Option.none_or] at hq'
      obtain ⟨d, -, hd⟩ := Option.map_eq_some_iff.mp hq'
      exact hexchange d hd

/-- What was there before is driven as it was, but for the ports that are handed over. -/
theorem Carried.drivers_old {p : PortId} (hp : p.index < n.ports.size) : n'.portDriver? p =
    if p ∈ readInputs r then none
    else (n.portDriver? p).map (exchange (result, y.done) (K.lines.dataOut, K.lines.done)) := by
  have hports : (Ground.under pins n).base.ports.size = n.ports.size := Arena.size_map ..
  obtain ⟨hsources, htargets⟩ := h.zip K.ports
  have hfree : m.portDriver? p = none := (Sheet.spares_old (σ := (Ground.under pins n).sheet m)
    (portDriver?_unconnected n) (hports ▸ hp) m hm rfl).2
  rw [K.portDriver? hl hr h hover hm hM, hfree, Option.none_or]
  by_cases hin : p ∈ readInputs r
  · obtain ⟨d, hd, rfl⟩ := List.mem_map.mp (hsources ▸ hin)
    rw [if_pos hin, (foldl_handOver_of_mem (K.separate hl hr h hm hM) hd).1]
    rfl
  · have htarget : p ∉ K.ports.inputs := by
      intro hmem
      have hge := ((inputs_new hm hM).1 p hmem).1
      omega
    rw [if_neg hin, foldl_handOver_of_not_mem (by rwa [hsources]) (by rwa [htargets])]

/-- Each port of the module is driven as the port of the read that it takes over was. -/
theorem Carried.drivers_new : K.ports.inputs.map n'.portDriver? = (readInputs r).map fun p =>
    (n.portDriver? p).map (exchange (result, y.done) (K.lines.dataOut, K.lines.done)) := by
  let moved := exchange (result, y.done) (K.lines.dataOut, K.lines.done)
  obtain ⟨hsources, htargets⟩ := h.zip K.ports
  obtain ⟨hnew, -⟩ := inputs_new hm hM
  have hmap : ∀ d ∈ (readInputs r).zip K.ports.inputs,
      n'.portDriver? d.2 = (n.portDriver? d.1).map moved := by
    intro d hd
    rw [K.portDriver? hl hr h hover hm hM, (hnew _ (List.of_mem_zip hd).2).2, Option.none_or,
      (foldl_handOver_of_mem (K.separate hl hr h hm hM) hd).2]
  calc K.ports.inputs.map n'.portDriver?
      = ((readInputs r).zip K.ports.inputs).map (n'.portDriver? ∘ Prod.snd) := by
        rw [← List.map_map, htargets]
    _ = ((readInputs r).zip K.ports.inputs).map ((fun p => (n.portDriver? p).map moved) ∘ Prod.fst) :=
        List.map_congr_left hmap
    _ = (readInputs r).map fun p => (n.portDriver? p).map moved := by
        rw [← List.map_map, hsources]

end

theorem Carried.takesOver : ∃ x y', n'.components.get? σ.next = some x ∧
      x.kind = .module .memoryReadPhysical ∧ x.interior = some (readInterior σ.next y.latency) ∧
      x.mainExit?.bind n'.exits.get? = some y' ∧
      y'.data.head? = some K.lines.dataOut ∧ y'.done = K.lines.done ∧
      TakesOver n n' r x (result, y.done) (K.lines.dataOut, K.lines.done) := by
  obtain ⟨m, hover, hm, hsheet⟩ := K.lies
  have hM : ((Ground.under pins n).sheet m).node? σ.next =
      some (K.lines.module K.ports σ.next y.latency) := hsheet ▸ Sheet.node?_next_adds ..
  obtain ⟨x, hx', -, hnode⟩ := K.found hr hover hM
  have hdrawn : x.DrawnAs (K.lines.module K.ports σ.next y.latency) := hnode ▸ drawnAs_node m x
  have hinputs : readInputs x = K.ports.inputs := by
    rw [readInputs, hdrawn.dataPorts, hdrawn.go, hdrawn.clock, hdrawn.reset]
    rfl
  obtain ⟨hresult, hdone⟩ := forall_mem_pair.mp (h.old hl hr).2
  have houtlet : K.lines.outer σ.next ∈ (K.lines.module K.ports σ.next y.latency).outlets := by
    simp [ReadLines.module, readModule, Node.outlets]
  obtain ⟨y', hy', -, heq, -⟩ := hm.has_exit hM houtlet
  obtain ⟨-, hdone', hdata', -⟩ := Outlet.mk.inj heq
  refine ⟨x, y', hx', hdrawn.kind, hdrawn.interior, ?_, ?_, hdone'.symm, ?_, ?_, ?_⟩
  · rw [hdrawn.mainExit?]
    exact (congrArg (·.exits.get? K.lines.exit) K.eq).trans (hover.exits ▸ hy')
  · rw [← hdata']
    rfl
  · exact fun p hp => K.drivers_old hl hr h hover hm hM hp
  · rw [hinputs]
    exact K.drivers_new hl hr h hover hm hM
  · obtain ⟨hdataOut, hfire⟩ := forall_mem_pair.mp (K.outputs_ne hl hr h hm hM)
    have hne := exchange_ne (result, y.done) (K.lines.dataOut, K.lines.done) hdataOut hfire
    exact ⟨K.sinks_old hl hr h hover hm hM hresult fun d => (hne d).1,
      K.sinks_old hl hr h hover hm hM hdone fun d => (hne d).2⟩

omit h in
/-- What is behind the module is connected as it was drawn. -/
theorem takenOver_behind {m : Netlist} (hm : Proper (.under pins n) m) {d a : ComponentId} {p : ReadPorts}
    {v : ReadLines} {latency : Latency}
    (hM : ((Ground.under pins n).sheet m).node? d = some (v.module p d latency)) {x : Component}
    (hx : m.components.get? a = some x) (hlt : d.index < a.index) {q : PortId} (hq : q ∈ x.ports) :
    takenOver n.portDriver? r y result p v q = none := by
  have hports : (Ground.under pins n).base.ports.size = n.ports.size := Arena.size_map ..
  obtain ⟨z, hz, howner, hle⟩ := hm.port hx ((le_of_node? hM).trans hlt.le) hq
  rw [hports] at hle
  refine takenOver_eq_none (fun hin => ?_) (fun hin => ?_) ?_
  · have hold := ((Component.forall_refs.mp (hl.components c r hr (Nat.zero_le _)).refs).2.1 q
      (mem_ports_of_readInputs hin)).2
    omega
  · obtain ⟨b, hb, rfl, -⟩ := exists_pad v d latency hin
    obtain ⟨z', hz', howner', -⟩ := hm.has_port hM hb
    cases hz.symm.trans hz'
    rw [howner'] at howner
    exact absurd (congrArg Handle.index howner) (Nat.ne_of_lt hlt)
  · rw [portDriver?, Arena.get?_of_size_le hle]
    rfl

omit h in
/-- Inside the module signals do not run in a circle. -/
theorem Carried.acyclic (K : Carried (.under pins n) n.portDriver? σ c r y result memory n')
    (d : ComponentId) : ¬ Relation.TransGen (n'.Feeds (readInterior σ.next y.latency)) d d := by
  obtain ⟨m, hover, hm, hsheet⟩ := K.lies
  have hM := hsheet ▸ Sheet.node?_next_adds σ (K.lines.module K.ports σ.next y.latency) K.parts
  refine acyclic_of_rank (fun d => if d = after σ.next 7 then 0 else d.index) (fun d a hfeeds ha => ?_) d
  refine forward_inside hm hsheet K.shows (hover.feeds (fun x hx p hp => ?_) ?_) ha
  · obtain ⟨k, rfl, -⟩ := K.lines.exists_part K.signal hfeeds.driven
    exact takenOver_behind hl hr hm hM hx (Nat.lt_add_of_pos_right (Nat.succ_pos k)) hp
  · refine feeds_modify (c := c) (f := fun x =>
      { x with kind := .memoryRead memory (some σ.next) }) (fun _ => rfl) ?_
    exact K.eq ▸ hfeeds

end

section

variable {n : Netlist} {c : ComponentId} {r : Component} (h : Pending n c r) (j : Journal)

include h

theorem Pending.exists_carried : ∃ pins e y result memory t σ, Linked pins {} n ∧
    ReadShape n r e y result ∧ σ = (Ground.under pins n).sheet n.unconnected ∧
    makePhysical c ⟨n, j⟩ = .ok σ.next t ∧
    Nonempty (Carried (.under pins n) n.portDriver? σ c r y result memory t.state) := by
  obtain ⟨hreach, e, y, result, hshape⟩ := h.shape
  obtain ⟨pins, hl⟩ := hreach.linked
  obtain ⟨memory, hkind⟩ := h.kind
  let Γ : Ground := .under pins n
  have hold : Old Γ n.portDriver? := fun p b hp =>
    (Arena.size_map ..).symm ▸ hl.tethered.lt_of_driver hp
  have hports : ∀ p ∈ r.ports, p.index < Γ.base.ports.size := fun p hp =>
    (Arena.size_map ..).symm ▸
      ((Component.forall_refs.mp (hl.components c r h.read (Nat.zero_le _)).refs).2.1 p hp).2
  have hbuses : ∀ b ∈ y.buses, b.index < Γ.base.buses.size := fun b hb =>
    (Arena.size_map ..).symm ▸
      ((Exit.forall_refs.mp (hl.exits e y hshape.exit (Nat.zero_le _)).refs).2.1 b hb).2
  obtain ⟨a, s, ps, hdata⟩ : ∃ a s ps, r.dataPorts = a :: s :: ps := by
    have hlength := hshape.data
    match hps : r.dataPorts with
    | [] | [_] => simp [hps] at hlength
    | a :: s :: ps => exact ⟨a, s, ps, rfl⟩
  have hbuild := builds_physical (portDriver?_unconnected n) hold h.read hports hdata hshape.mainExit
    hshape.exit hshape.first hbuses memory ⟨n, j⟩ (lies_under hl.tethered pins)
  have hrun : wp (makePhysical c) (fun m t => m = (Γ.sheet n.unconnected).next ∧ Nonempty (Carried Γ
      n.portDriver? (Γ.sheet n.unconnected) c r y result memory t.state)) (fun _ _ => False) ⟨n, j⟩ := by
    rw [makePhysical, wp_bind, wp_component h.read, hkind]
    exact hbuild
  obtain ⟨m, t, hrun, rfl, hcarried⟩ := exists_of_wp hrun
  exact ⟨pins, e, y, result, memory, t, _, hl, hshape, rfl, hrun, hcarried⟩

/-- A read hands its connections over, all of them and no other, and nothing is wrong with the module
that it hands them to. -/
theorem physical_takes_over : ∃ m t x read module, makePhysical c ⟨n, j⟩ = .ok m t ∧
    n.Ends r read ∧ t.state.components.get? m = some x ∧ x.kind = .module .memoryReadPhysical ∧
    t.state.Ends x module ∧ TakesOver n t.state r x read module ∧
    (∃ order, Netlist.order m t = .ok order t) ∧ makePhysical c t = .ok m t := by
  obtain ⟨pins, e, y, result, memory, t, σ, hl, hshape, -, hrun, ⟨K⟩⟩ := h.exists_carried j
  obtain ⟨x, y', hx, hkind, hi, hexit, hfirst, hdone, htakes⟩ := K.takesOver hl h.read hshape
  have hsound : (Scope.whole False pins).Sound t.state := by
    refine Call.sound (n := n) (.makePhysical c) ⟨?_, by simp [Call.pins]⟩ False.elim False.elim
      ⟨hl, False.elim, trivial⟩ (Yields.leaves_discard ⟨j, t.journal, hrun⟩)
    simpa [Call.refs, Ref.In] using Arena.lt_of_get? h.read
  refine ⟨σ.next, t, x, (result, y.done), (K.lines.dataOut, K.lines.done), hrun, ?_, hx, hkind,
    ⟨y', hexit, hfirst, hdone⟩, htakes, ?_, ?_⟩
  · exact ⟨y, by rw [hshape.mainExit]; exact hshape.exit, hshape.first, rfl⟩
  · have horder : wp (Netlist.order σ.next) (fun _ u => u = t) (fun _ _ => False) t := by
      refine wp_mono (wp_order hsound.linked hx hi) (fun _ _ h => h.1) fun _ _ hcyclic => ?_
      obtain ⟨-, ⟨d, hd⟩, -⟩ := hcyclic
      exact K.acyclic hl h.read d hd
    obtain ⟨order, _, horder, rfl⟩ := exists_of_wp horder
    exact ⟨order, horder⟩
  · have hread : t.state.components.get? c = some { r with kind := .memoryRead memory (some σ.next) } := by
      have hdrawn : K.drawn.components.get? c = some r := K.lies.component h.read
      rw [congrArg Netlist.components K.eq, Arena.get?_modify_self, hdrawn]
      rfl
    have hagain : wp (makePhysical c) (fun m u => m = σ.next ∧ u = t) (fun _ _ => False) t := by
      rw [makePhysical, wp_bind, wp_component hread]
      exact ⟨rfl, rfl⟩
    obtain ⟨_, _, hagain, rfl, rfl⟩ := exists_of_wp hagain
    exact hagain

end

/-- A netlist with a read and nothing else. -/
def soleRead : Netlist := ((newRead 0 .bit (.constant 1)).run ⟨{}, #[]⟩).2.state

/-- The netlist after a port has been connected. -/
def driven (n : Netlist) (p : PortId) (b : BusId) : Netlist := ((setBus p (some b)).run ⟨n, #[]⟩).2.state

/-- The result of the read is its own address, and its done starts it again. -/
def circularRead : Netlist := driven (driven soleRead ⟨3⟩ ⟨1⟩) ⟨2⟩ ⟨0⟩

theorem leadsTo_driven {n : Netlist} {p : PortId} {b : BusId}
    (hfits : (Call.setBus p (some b)).Fits 0 n) (hok : ((setBus p (some b)).run ⟨n, #[]⟩).1.isOk = true) :
    LeadsTo 0 n (driven n p b) :=
  .single ⟨.setBus p (some b), hfits, Build.leaves_run hok⟩

theorem pending_circularRead : ∃ r, Pending circularRead ⟨0⟩ r ∧
    (readInputs r).map circularRead.portDriver? = [some ⟨1⟩, none, some ⟨0⟩, none, none] := by
  have hmade : (newRead 0 .bit (.constant 1)).Yields {} ⟨0⟩ soleRead := Build.yields_run (by decide +kernel)
  have hleads : LeadsTo 0 soleRead circularRead :=
    (leadsTo_driven (by decide +kernel) (by decide +kernel)).trans
      (leadsTo_driven (by decide +kernel) (by decide +kernel))
  have hdrivers : (circularRead.components.get? ⟨0⟩).map
      (fun r => (readInputs r).map circularRead.portDriver?) =
        some [some ⟨1⟩, none, some ⟨0⟩, none, none] := by decide +kernel
  obtain ⟨r, hr, hdrivers⟩ := Option.map_eq_some_iff.mp hdrivers
  have hkind : (circularRead.components.get? ⟨0⟩).map Component.kind = some (.memoryRead 0 none) := by
    decide +kernel
  have hexit : (circularRead.components.get? ⟨0⟩).bind Component.mainExit? =
      (soleRead.components.get? ⟨0⟩).bind Component.mainExit? := by decide +kernel
  obtain ⟨r₁, hr₁⟩ := Option.isSome_iff_exists.mp
    (by decide +kernel : (soleRead.components.get? ⟨0⟩).isSome = true)
  rw [hr, hr₁] at hexit
  rw [hr] at hkind
  exact ⟨r, ⟨hr, ⟨soleRead, r₁, .alone .empty hmade hleads, hr₁, hexit⟩,
    0, Option.some.inj hkind⟩, hdrivers⟩

/-- The module that takes over is connected to itself in its turn. -/
theorem physical_takes_over_circular : ∃ r, Pending circularRead ⟨0⟩ r ∧
    ∃ m t x module, makePhysical ⟨0⟩ ⟨circularRead, #[]⟩ = .ok m t ∧ t.state.components.get? m = some x ∧
      t.state.Ends x module ∧
      (readInputs x).map t.state.portDriver? = [some module.1, none, some module.2, none, none] := by
  obtain ⟨r, hr, hdrivers⟩ := pending_circularRead
  obtain ⟨m, t, x, read, module, hrun, hread, hx, -, hmodule, htakes, -⟩ := physical_takes_over hr #[]
  refine ⟨r, hr, m, t, x, module, hrun, hx, hmodule, ?_⟩
  have hends : ((circularRead.components.get? ⟨0⟩).bind fun r =>
      r.mainExit?.bind circularRead.exits.get?).map (fun y => (y.data.head?, y.done)) =
        some (some ⟨1⟩, ⟨0⟩) := by decide +kernel
  obtain ⟨y, hy, hfirst, hdone⟩ := hread
  rw [hr.read, Option.bind_some, hy, Option.map_some, hfirst, hdone] at hends
  obtain rfl : read = (⟨1⟩, ⟨0⟩) := by simpa [Prod.ext_iff] using hends
  rw [htakes.inputs, ← Function.comp_def, ← List.map_map, hdrivers]
  simp [exchange]

end Memory

end DataflowSynth
