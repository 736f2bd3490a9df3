/-
Sheets on which signals run forward.

Components are drawn in the order in which signals run through them: what drives a component is drawn
before it, or comes into the module by its InBuf.  Only a flop may be driven by what is drawn later,
and a flop among the children of a module is a feedback point.  So no module of such a sheet has a
circle without a feedback point.
-/
import DataflowSynth.Proofs.Netlist.Ordering
import DataflowSynth.Proofs.Sheet.Accessors

namespace DataflowSynth

/-- The interface has the pins that accessors use. -/
structure Fifo.Usable (pins : Nat) (f : Fifo) : Prop where
  shakes : f.spec.protocol.isNative = false
  pins : ∀ p ∈ f.pins.toList, p.index < pins
  send : f.pins.send.isSome
  ack : f.pins.ack.isSome
  status : ∃ p ∈ f.pins.toList, f.statusPin? = some p

namespace Netlist

open Build Relation

variable {Γ : Ground} {σ τ : Sheet} {c m : ComponentId} {ν ν' μ : Node} {i : Interior} {b : BusId}

/-- Components that signals run through within a cycle. -/
def ComponentKind.isThrough : ComponentKind → Bool
  | .inBuf | .outBuf | .reg _ => false
  | _ => true

/-- Children that a module need not know as feedback points. -/
def ComponentKind.isReg : ComponentKind → Bool
  | .reg _ => true
  | _ => false

namespace Sheet

/-- The bus is given out before `c`, or by an InBuf. -/
def Reaches (σ : Sheet) (c : ComponentId) (b : BusId) : Prop :=
  ∃ d μ, σ.node? d = some μ ∧ b ∈ μ.buses ∧ (μ.kind = .inBuf ∨ d.index < c.index)

/-- The component may be a child of a module with these feedback points. -/
def Seats (σ : Sheet) (feedback : List ComponentId) (c : ComponentId) : Prop :=
  ∃ ν, σ.node? c = some ν ∧ ν.kind.isBuffer = false ∧ (ν.kind.isReg = true → c ∈ feedback)

structure Orderly (σ : Sheet) : Prop where
  drivers : ∀ c ν, σ.node? c = some ν → ν.kind.isThrough = true → ∀ b ∈ ν.drivers, σ.Reaches c b
  children : ∀ m ν i, σ.node? m = some ν → ν.interior = some i → ∀ c ∈ i.children, σ.Seats i.feedback c

/-! ### Growing sheets -/

/-- Every component is still there, of its kind and with its buses. -/
def Grows (σ τ : Sheet) : Prop :=
  ∀ c ν, σ.node? c = some ν → ∃ ν', τ.node? c = some ν' ∧ ν'.kind = ν.kind ∧ ∀ b ∈ ν.buses, b ∈ ν'.buses

theorem Grows.trans {ρ : Sheet} (h : σ.Grows τ) (h' : τ.Grows ρ) : σ.Grows ρ := by
  intro c ν hν
  obtain ⟨ν', hν', hkind, hbuses⟩ := h c ν hν
  obtain ⟨ν'', hν'', hkind', hbuses'⟩ := h' c ν' hν'
  exact ⟨ν'', hν'', hkind'.trans hkind, fun b hb => hbuses' b (hbuses b hb)⟩

theorem Grows.set (hν : σ.node? c = some ν) (hkind : ν'.kind = ν.kind)
    (hbuses : ∀ b ∈ ν.buses, b ∈ ν'.buses) : σ.Grows (σ.set c ν') := by
  intro d μ hμ
  by_cases hd : d = c
  · subst hd
    cases hν.symm.trans hμ
    exact ⟨ν', node?_set_self .., hkind, hbuses⟩
  · exact ⟨μ, by rw [node?_set_of_ne _ _ hd, hμ], rfl, fun _ h => h⟩

theorem Grows.adds (hσ : σ.Bounded) (νs : List Node) : σ.Grows (σ.adds νs) := fun c ν hν =>
  ⟨ν, by rw [node?_adds_of_lt (hσ c ν hν), hν], rfl, fun _ h => h⟩

theorem Reaches.grow (h : σ.Reaches c b) (hg : σ.Grows τ) : τ.Reaches c b := by
  obtain ⟨d, μ, hμ, hb, hd⟩ := h
  obtain ⟨μ', hμ', hkind, hbuses⟩ := hg d μ hμ
  exact ⟨d, μ', hμ', hbuses b hb, hkind ▸ hd⟩

theorem Seats.grow {feedback : List ComponentId} (h : σ.Seats feedback c) (hg : σ.Grows τ) :
    τ.Seats feedback c := by
  obtain ⟨ν, hν, hbuf, hreg⟩ := h
  obtain ⟨ν', hν', hkind, -⟩ := hg c ν hν
  exact ⟨ν', hν', hkind ▸ hbuf, hkind ▸ hreg⟩

theorem Reaches.gives (h : σ.Reaches c b) : σ.Gives b := by
  obtain ⟨d, μ, hμ, hb, -⟩ := h
  exact ⟨d, μ, hμ, hb⟩

/-- A component is changed, but what it holds stays. -/
theorem Orderly.set (h : σ.Orderly) (hν : σ.node? c = some ν) (hkind : ν'.kind = ν.kind)
    (hbuses : ∀ b ∈ ν.buses, b ∈ ν'.buses)
    (hdrivers : ν.kind.isThrough = true → ∀ b ∈ ν'.drivers, b ∈ ν.drivers ∨ σ.Reaches c b)
    (hchildren : ∀ i', ν'.interior = some i' → ∀ d ∈ i'.children, σ.Seats i'.feedback d) :
    (σ.set c ν').Orderly := by
  have hg := Grows.set hν hkind hbuses
  refine ⟨fun d μ hμ hthrough b hb => ?_, fun d μ i hμ hi e he => ?_⟩
  · by_cases hd : d = c
    · subst hd
      cases (node?_set_self σ d ν').symm.trans hμ
      rcases hdrivers (hkind ▸ hthrough) b hb with hb | hb
      · exact (h.drivers d ν hν (hkind ▸ hthrough) b hb).grow hg
      · exact hb.grow hg
    · rw [node?_set_of_ne _ _ hd] at hμ
      exact (h.drivers d μ hμ hthrough b hb).grow hg
  · by_cases hd : d = c
    · subst hd
      cases (node?_set_self σ d ν').symm.trans hμ
      exact (hchildren i hi e he).grow hg
    · rw [node?_set_of_ne _ _ hd] at hμ
      exact (h.children d μ i hμ hi e he).grow hg

/-- The terminals of a component are changed. -/
theorem Orderly.rewire (h : σ.Orderly) (hν : σ.node? c = some ν) (hkind : ν'.kind = ν.kind)
    (hinterior : ν'.interior = ν.interior) (hbuses : ∀ b ∈ ν.buses, b ∈ ν'.buses)
    (hdrivers : ν.kind.isThrough = true → ∀ b ∈ ν'.drivers, b ∈ ν.drivers ∨ σ.Reaches c b) :
    (σ.set c ν').Orderly :=
  h.set hν hkind hbuses hdrivers fun i hi => h.children c ν i hν (hinterior ▸ hi)

theorem Orderly.add (h : σ.Orderly) (hσ : σ.Bounded)
    (hdrivers : ν.kind.isThrough = true → ∀ b ∈ ν.drivers, σ.Gives b)
    (hchildren : ∀ i, ν.interior = some i → ∀ c ∈ i.children, σ.Seats i.feedback c) :
    (σ.add ν).Orderly := by
  have hg : σ.Grows (σ.add ν) := Grows.adds hσ [ν]
  refine ⟨fun d μ hμ hthrough b hb => ?_, fun d μ i hμ hi e he => ?_⟩
  · by_cases hd : d = σ.next
    · subst hd
      cases (node?_add_next σ ν).symm.trans hμ
      obtain ⟨e, ξ, hξ, hbξ⟩ := hdrivers hthrough b hb
      exact Reaches.grow ⟨e, ξ, hξ, hbξ, .inr (hσ e ξ hξ)⟩ hg
    · rw [node?_add_of_ne _ _ hd] at hμ
      exact (h.drivers d μ hμ hthrough b hb).grow hg
  · by_cases hd : d = σ.next
    · subst hd
      cases (node?_add_next σ ν).symm.trans hμ
      exact (hchildren i hi e he).grow hg
    · rw [node?_add_of_ne _ _ hd] at hμ
      exact (h.children d μ i hμ hi e he).grow hg

end Sheet

/-! ### No circles -/

section

variable {n : Netlist} (hn : Proper Γ n)

include hn

theorem Proper.givesOut (hμ : (Γ.sheet n).node? c = some μ) (hb : b ∈ μ.buses) : n.GivesOut c b := by
  obtain ⟨o, ho, hbo⟩ := Node.mem_buses.mp hb
  obtain ⟨y, hy, howner, heq, hnew⟩ := hn.has_exit hμ ho
  obtain ⟨z, hz⟩ := Arena.exists_get? (hn.has_bus hμ hb).2
  rw [heq] at hbo
  have hlinked := hn.linked.exits _ y hy hnew
  exact ⟨z, y, hz, by rw [hlinked.buses b hbo z hz, hy], howner⟩

omit hn in
/-- What feeds a component gives out one of the buses that drive its node. -/
theorem Feeds.driver_drawn (hν : (Γ.sheet n).node? c = some ν) {d : ComponentId} (h : n.Feeds i d c) :
    ∃ b ∈ ν.drivers, n.GivesOut d b := by
  obtain ⟨y, hy, p, hp, y', b, hy', hbus, hgives⟩ := h.wire
  obtain ⟨x, hx, rfl⟩ := drawn hν
  cases hy.symm.trans hx
  refine ⟨b, List.mem_filterMap.mpr ⟨n.pad p, ?_, by simp [pad, hy', hbus]⟩, hgives⟩
  rw [pads_node]
  exact List.mem_map_of_mem hp

/-- Among the children of a module signals run forward, but for what drives a feedback point. -/
theorem Proper.forward (ho : (Γ.sheet n).Orderly) (hν : (Γ.sheet n).node? m = some ν)
    (hi : ν.interior = some i) {d : ComponentId} (hfeeds : n.Feeds i d c) (hc : c ∉ i.feedback) :
    d.index < c.index := by
  obtain ⟨μ, hμ, hbuf, hreg⟩ := ho.children m ν i hν hi c hfeeds.driven
  obtain ⟨b, hdriver, hgives⟩ := hfeeds.driver_drawn hμ
  have hthrough : μ.kind.isThrough = true := by
    revert hbuf hreg
    cases μ.kind <;> simp [ComponentKind.isBuffer, ComponentKind.isReg, ComponentKind.isThrough, hc]
  obtain ⟨e, ξ, hξ, hbξ, hkind | hlt⟩ := ho.drivers c _ hμ hthrough b hdriver
  · obtain rfl := (hn.givesOut hξ hbξ).unique hgives
    obtain ⟨ξ', hξ', hbuf', -⟩ := ho.children m ν i hν hi e hfeeds.driver
    cases hξ.symm.trans hξ'
    rw [hkind] at hbuf'
    exact absurd hbuf' (by decide)
  · exact (hn.givesOut hξ hbξ).unique hgives ▸ hlt

theorem Proper.acyclic (ho : (Γ.sheet n).Orderly) (hν : (Γ.sheet n).node? m = some ν)
    (hi : ν.interior = some i) (c : ComponentId) : ¬ TransGen (n.Feeds i) c c :=
  acyclic_of_rank Handle.index (fun _ _ hfeeds hc => hn.forward ho hν hi hfeeds hc) c

end

/-- Every module of an orderly sheet can be put in order. -/
theorem sees_order {pins : Nat} (ho : σ.Orderly) (hν : σ.node? m = some ν)
    (hi : ν.interior = some i) : Sees pins (order m) σ fun order => order.Perm i.children := by
  intro s hs hσ
  subst hσ
  obtain ⟨x, hx, rfl⟩ := drawn hν
  refine wp_mono (wp_order hs.linked hx hi) (fun order t ht => ⟨ht.1, ht.2.2.1⟩) fun e t ht => ?_
  obtain ⟨-, ⟨c, hc⟩, -⟩ := ht
  exact hs.acyclic ho hν hi c hc

/-! ### Accessors -/

/-- The buses that drive a part. -/
def Piece.drivers : Piece → List BusId
  | .cell x => x.clock.toList ++ x.reset.toList ++ x.go.toList ++ x.inputs.filterMap id
  | _ => []

/-- The buses that others may use. -/
def Piece.buses : Piece → List BusId
  | .inBuf _ o => o.buses
  | .outBuf .. => []
  | .cell x => x.results

def Piece.kind : Piece → ComponentKind
  | .inBuf .. => .inBuf
  | .outBuf .. => .outBuf
  | .cell x => x.kind

section

variable {p : Piece} (hp : p.Of ν)

include hp

theorem Piece.Of.kind : ν.kind = p.kind := by
  cases p with
  | inBuf => exact InBufNode.kind hp
  | outBuf => exact Node.OutBuf.kind hp
  | cell => exact Node.Shows.kind hp

theorem Piece.Of.interior : ν.interior = none := by
  cases p with
  | inBuf => exact InBufNode.interior hp
  | outBuf => exact Node.OutBuf.interior hp
  | cell => exact Node.Shows.interior hp

theorem Piece.Of.mem_buses (hb : b ∈ p.buses) : b ∈ ν.buses := by
  cases p with
  | inBuf => exact (InBufNode.buses hp).symm ▸ hb
  | outBuf => exact absurd hb (by simp [Piece.buses])
  | cell => exact Node.Shows.mem_buses hp hb

theorem Piece.Of.mem_drivers (hthrough : ν.kind.isThrough = true) (hb : b ∈ ν.drivers) :
    b ∈ p.drivers := by
  cases p with
  | inBuf => exact absurd (InBufNode.kind hp ▸ hthrough) (by decide)
  | outBuf => exact absurd (Node.OutBuf.kind hp ▸ hthrough) (by decide)
  | cell x =>
      have hx := (Node.Shows.mem_drivers hp).mp hb
      simp only [Piece.drivers, List.mem_append, Option.mem_toList, List.mem_filterMap, id]
      rcases hx with h | h | h | h
      · exact .inl (.inl (.inl h))
      · exact .inl (.inl (.inr h))
      · exact .inl (.inr h)
      · exact .inr ⟨_, h, rfl⟩

end

/-- The parts are listed in the order in which signals run through them. -/
def Forwards : (given : List BusId) → List Piece → Prop
  | _, [] => True
  | given, p :: ps =>
    (p.kind.isThrough = true → ∀ b ∈ p.drivers, b ∈ given) ∧ Forwards (given ++ p.buses) ps

theorem Sheet.Orderly.adds_parts {ps : List Piece} {νs : List Node} (hps : List.Forall₂ Piece.Of ps νs)
    {given : List BusId} (hforwards : Forwards given ps) (h : σ.Orderly) (hσ : σ.Bounded)
    (hgiven : ∀ b ∈ given, σ.Gives b) : (σ.adds νs).Orderly := by
  induction hps generalizing σ given with
  | nil => exact h
  | @cons p ν ps νs hp _ ih =>
      refine ih hforwards.2 (h.add hσ (fun hthrough b hb => ?_) fun i hi => ?_) (hσ.add ν)
        fun b hb => ?_
      · exact hgiven b (hforwards.1 (hp.kind ▸ hthrough) b (hp.mem_drivers hthrough hb))
      · rw [hp.interior] at hi
        exact absurd hi (by simp)
      · rcases List.mem_append.mp hb with hb | hb
        · exact (hgiven b hb).add hσ ν
        · exact Sheet.gives_of_mem (Sheet.node?_add_next σ ν) (hp.mem_buses hb)

/-- A module that stands in no other and that nothing drives. -/
structure Box.Loose (x : Box) : Prop where
  owner : x.owner = none
  clock : x.clock = none
  reset : x.reset = none
  go : x.go = none
  inputs : ∀ a ∈ x.inputs, a.1 = none

theorem Node.Encloses.not_mem_drivers {M : Node} {x : Box} (hM : M.Encloses x) (hx : x.Loose)
    (b : BusId) : b ∉ M.drivers := by
  rw [hM.mem_drivers, hx.clock, hx.reset, hx.go]
  rintro (h | h | h | h)
  · simp at h
  · simp at h
  · simp at h
  · obtain ⟨a, ha, heq⟩ := List.mem_map.mp h
    simp [hx.inputs a ha] at heq

section

variable {M : Node} {ps : List Piece} {νs : List Node} (hps : List.Forall₂ Piece.Of ps νs)

include hps

theorem node?_part {k : Nat} {p : Piece} (hp : ps[k]? = some p) :
    ∃ ν, (σ.adds (M :: νs)).node? (σ.fresh (k + 1)) = some ν ∧ p.Of ν := by
  obtain ⟨hk, rfl⟩ := List.getElem?_eq_some_iff.mp hp
  have hlength := hps.length_eq
  refine ⟨νs[k], ?_, hps.get hk (hlength ▸ hk)⟩
  rw [Sheet.node?_adds_fresh σ _ (Nat.succ_lt_succ (hlength ▸ hk)), List.getElem?_cons_succ,
    List.getElem?_eq_getElem]

theorem seats_part {k : Nat} {p : Piece} (hp : ps[k]? = some p) (hbuf : p.kind.isBuffer = false)
    {feedback : List ComponentId} (hreg : p.kind.isReg = true → σ.fresh (k + 1) ∈ feedback) :
    (σ.adds (M :: νs)).Seats feedback (σ.fresh (k + 1)) := by
  obtain ⟨ν, hν, hof⟩ := node?_part (M := M) hps hp
  exact ⟨ν, hν, hof.kind ▸ hbuf, hof.kind ▸ hreg⟩

/-- A new module and what is inside it. -/
theorem Sheet.Orderly.adds_box (h : σ.Orderly) (hσ : σ.Bounded) {x : Box} (hM : M.Encloses x)
    (hx : x.Loose) (hforwards : Forwards [] ps)
    (hchildren : ∀ c ∈ x.interior.children, (σ.adds (M :: νs)).Seats x.interior.feedback c) :
    (σ.adds (M :: νs)).Orderly := by
  -- The children come after the module, so it is drawn without them at first.
  let M₀ : Node := { M with interior := none }
  have h₀ : (σ.add M₀).Orderly := h.add hσ
    (fun _ b hb => absurd hb (hM.not_mem_drivers hx b)) (by simp [M₀])
  have h₁ : ((σ.add M₀).adds νs).Orderly :=
    Sheet.Orderly.adds_parts hps hforwards h₀ (hσ.add M₀) (by simp)
  have heq : (σ.adds (M₀ :: νs)).set σ.next M = σ.adds (M :: νs) := Sheet.set_next_adds ..
  rw [← heq]
  refine h₁.set (Sheet.node?_next_adds ..) rfl (fun _ h => h) (fun _ _ h => .inl h) fun i hi c hc => ?_
  obtain rfl : x.interior = i := by simpa [hM.interior] using hi
  obtain ⟨ν, hν, hbuf, hreg⟩ := hchildren c hc
  by_cases hcn : c = σ.next
  · subst hcn
    cases (Sheet.node?_next_adds σ M νs).symm.trans hν
    exact ⟨M₀, Sheet.node?_next_adds .., hbuf, hreg⟩
  · rw [← heq, Sheet.node?_set_of_ne _ _ hcn] at hν
    exact ⟨ν, hν, hbuf, hreg⟩

/-- The children of an accessor with a handshake stand behind its buffers, and the flop is the first
of them. -/
theorem seats_handshake (hlength : ps.length = 10)
    (hcells : ∀ p ∈ ps.drop 2, p.kind.isBuffer = false)
    (hgates : ∀ p ∈ ps.drop 3, p.kind.isReg = false) :
    ∀ c ∈ (handshakeInterior σ.next).children,
      (σ.adds (M :: νs)).Seats (handshakeInterior σ.next).feedback c := by
  intro c hc
  obtain ⟨j, hj, rfl⟩ := List.mem_map.mp hc
  have hlt : j + 2 < ps.length := by
    have := List.mem_range.mp hj
    omega
  have hp : ps[j + 2]? = some ps[j + 2] := List.getElem?_eq_getElem hlt
  refine seats_part hps hp (hcells _ ?_) fun hreg => ?_
  · exact List.mem_drop_iff_getElem.mpr ⟨j, by omega, by congr 1; omega⟩
  · cases j with
    | zero => exact List.mem_singleton.mpr rfl
    | succ j =>
        have hmem : ps[j + 1 + 2] ∈ ps.drop 3 :=
          List.mem_drop_iff_getElem.mpr ⟨j, by omega, by congr 1; omega⟩
        exact absurd hreg (by simp [hgates _ hmem])

end

/-- A new module with nothing but its InBuf. -/
theorem Sheet.Orderly.adds_empty {M I : Node} {kind : ModuleKind} {o : Outlet} (h : σ.Orderly)
    (hσ : σ.Bounded)
    (hM : M.Encloses { kind, start := o.done, interior := { inBuf := σ.fresh 1 } })
    (hI : InBufNode σ.next I o) : (σ.adds [M, I]).Orderly := by
  have hps : List.Forall₂ Piece.Of [.inBuf σ.next o] [I] := .cons hI .nil
  exact h.adds_box hps hσ hM ⟨rfl, rfl, rfl, rfl, by simp⟩ (by simp [Forwards, Piece.drivers])
    (by simp)

/-- One more module that can be run, with what is inside it. -/
def Sheet.Gains (σ : Sheet) (inputs : List (Option BusId × Option BusId)) (m : ComponentId)
    (τ : Sheet) : Prop :=
  m = σ.next ∧ ∃ x M νs, x.Loose ∧ x.outlet.isSome ∧ x.inputs = inputs ∧ M.Encloses x ∧
    τ = σ.adds (M :: νs) ∧ (σ.Orderly → τ.Orderly)

section

variable {f : Fifo} (hf : f.Usable Γ.pins)

include hf

theorem draws_reader : Draws Γ (Fifo.readToken f) σ fun m τ => σ.Gains [] m τ := by
  obtain ⟨send, hsend⟩ := Option.isSome_iff_exists.mp hf.send
  obtain ⟨ack, hack⟩ := Option.isSome_iff_exists.mp hf.ack
  refine .of_bounded fun hσ => (draws_readToken hf.shakes hf.pins hsend hack).mono fun m τ hτ => ?_
  obtain ⟨rfl, w, token, result, M, νs, hclock, hreset, hM, hps, rfl⟩ := hτ
  have hloose : (readerBox σ.next w result).Loose := ⟨rfl, rfl, rfl, rfl, by simp [readerBox]⟩
  refine ⟨rfl, _, M, νs, hloose, rfl, rfl, hM, rfl, fun h => h.adds_box hps hσ hM hloose ?_ ?_⟩
  · simp [readerParts, flopPart, gatePart, readPart, writePart, Forwards, Piece.kind, Piece.drivers,
      Piece.buses, Outlet.buses, ComponentKind.isThrough, Gate.kind]
  · exact seats_handshake hps rfl (by simp [readerParts, flopPart, gatePart, readPart, writePart,
      Piece.kind, ComponentKind.isBuffer, Gate.kind]) (by simp [readerParts, gatePart, readPart,
      writePart, Piece.kind, ComponentKind.isReg, Gate.kind])

theorem draws_writer : Draws Γ (Fifo.writeToken f) σ fun m τ =>
    ∃ token, σ.Gains [(none, some token)] m τ := by
  obtain ⟨send, hsend⟩ := Option.isSome_iff_exists.mp hf.send
  obtain ⟨ack, hack⟩ := Option.isSome_iff_exists.mp hf.ack
  refine .of_bounded fun hσ => (draws_writeToken hf.pins hsend hack).mono fun m τ hτ => ?_
  obtain ⟨rfl, w, token, M, νs, hclock, hreset, htoken, hM, hps, rfl⟩ := hτ
  have hloose : (writerBox σ.next w token).Loose := ⟨rfl, rfl, rfl, rfl, by simp [writerBox]⟩
  refine ⟨token, rfl, _, M, νs, hloose, rfl, rfl, hM, rfl, fun h => h.adds_box hps hσ hM hloose ?_ ?_⟩
  · simp [writerParts, flopPart, gatePart, readPart, writePart, Forwards, Piece.kind, Piece.drivers,
      Piece.buses, Outlet.buses, ComponentKind.isThrough, Gate.kind, htoken]
  · exact seats_handshake hps rfl (by simp [writerParts, flopPart, gatePart, readPart, writePart,
      Piece.kind, ComponentKind.isBuffer, Gate.kind]) (by simp [writerParts, gatePart, readPart,
      writePart, Piece.kind, ComponentKind.isReg, Gate.kind])

theorem draws_probe : Draws Γ (Fifo.sampleStatus f) σ fun m τ => σ.Gains [] m τ := by
  obtain ⟨pin, hpin, hstatus⟩ := hf.status
  refine .of_bounded fun hσ => (draws_sampleStatus hstatus (hf.pins pin hpin)).mono fun m τ hτ => ?_
  obtain ⟨rfl, inner, e, done, result, status, M, νs, hM, hps, rfl⟩ := hτ
  have hloose : (probeBox σ.next inner e done result).Loose :=
    ⟨rfl, rfl, rfl, rfl, by simp [probeBox]⟩
  refine ⟨rfl, _, M, νs, hloose, rfl, rfl, hM, rfl, fun h => h.adds_box hps hσ hM hloose ?_ ?_⟩
  · simp [probeParts, readPart, Forwards, Piece.kind, Piece.drivers, ComponentKind.isThrough]
  · exact List.forall_mem_singleton.mpr (seats_part hps (k := 2) rfl rfl (by
      simp [readPart, Piece.kind, ComponentKind.isReg]))

end

end Netlist

end DataflowSynth
