/-
Blocks as circuits.

A block that moves tokens contains its two buffers and its accessors with their parts, and nothing else.
What all of them do together is a relay: the first accessor is started with the block, each of the others
with the done of the one before it, and the block is done with the last one.
-/
import DataflowSynth.Proofs.Circuit.Accessors
import DataflowSynth.Proofs.Circuit.Relay
import DataflowSynth.Proofs.Clone.Tree
import DataflowSynth.Proofs.Sheet.Turns

namespace DataflowSynth.Netlist

open Handshake (Relay Stage)

/-! ### Modules with all their parts -/

section

variable (n : Netlist) (w : Signals) (m : ComponentId)

/-- The module, and everything that it contains, does what it should, from a cycle on in which registers
are zero. -/
def PartsRun : Prop := ∀ c x, Part n m c → n.components.get? c = some x → n.Follows w x

/-- Something that the module contains drives the pin high. -/
def PartsRaise (t : Nat) (pin : PinId) : Prop :=
  ∃ c x p, Part n m c ∧ n.components.get? c = some x ∧ x.kind = .pinWrite pin ∧
    n.level w t x.go 0 = true ∧ x.dataPorts = [p] ∧ n.level w t p 0 = true

end

variable {n : Netlist} {w : Signals} {m c d : ComponentId} {σ : Sheet} {u : Turn} {go last : BusId}
  {owner : Option ComponentId} {start : Option BusId} {t : Nat} {pin : PinId}

theorem node?_eq_some {ν : Node} :
    n.sheet.node? c = some ν ↔ ∃ x, n.components.get? c = some x ∧ n.node x = ν := by
  rw [node?_sheet n (Nat.zero_le _), Option.map_eq_some_iff]

theorem partsRun_iff :
    n.PartsRun w m ↔ ∀ c ν, Part n m c → n.sheet.node? c = some ν → ν.Follows w := by
  constructor
  · rintro h c ν hc hν
    obtain ⟨x, hx, rfl⟩ := node?_eq_some.mp hν
    exact (follows_node n w x).mpr (h c x hc hx)
  · rintro h c x hc hx
    exact (follows_node n w x).mp (h c _ hc (node?_eq_some.mpr ⟨x, hx, rfl⟩))

theorem partsRaise_iff : n.PartsRaise w m t pin ↔
    ∃ c ν v, Part n m c ∧ n.sheet.node? c = some ν ∧ ν.Drives w t pin v ∧ v 0 = true := by
  constructor
  · rintro ⟨c, x, p, hc, hx, hkind, hgo, hp, hv⟩
    refine ⟨c, n.node x, _, hc, node?_eq_some.mpr ⟨x, hx, rfl⟩, ⟨hkind, hgo, n.pad p, ?_, rfl⟩, hv⟩
    simp [node, hp]
  · rintro ⟨c, ν, v, hc, hν, ⟨hkind, hgo, a, ha, rfl⟩, hv⟩
    obtain ⟨x, hx, rfl⟩ := node?_eq_some.mp hν
    obtain ⟨p, hp, rfl⟩ := List.map_eq_singleton_iff.mp ha
    exact ⟨c, x, p, hc, hx, hkind, hgo, hp, hv⟩

/-- What a module contains directly is seen on the sheet. -/
theorem kid_iff : Kid n c d ↔ ∃ ν i, n.sheet.node? c = some ν ∧ ν.interior = some i ∧
    (d ∈ i.children ∨ d = i.inBuf ∨ ∃ o ∈ ν.outlets, o.outBuf = some d) := by
  have houtlets : ∀ x : Component, (∃ o ∈ (n.node x).outlets, o.outBuf = some d) ↔
      ∃ e ∈ x.exits.values, ∃ y, n.exits.get? e = some y ∧ y.peer = some d := by
    intro x
    have hmaps : (n.node x).outlets = x.exits.values.map n.outlet := by
      simp [Node.outlets, node, OrderedMap.values, Function.comp_def]
    have houtBuf : ∀ e, (n.outlet e).outBuf = some d ↔ ∃ y, n.exits.get? e = some y ∧ y.peer = some d := by
      intro e
      unfold outlet
      cases n.exits.get? e <;> simp
    simp [hmaps, houtBuf]
  constructor
  · rintro ⟨x, i, hx, hi, hd⟩
    exact ⟨n.node x, i, node?_eq_some.mpr ⟨x, hx, rfl⟩, hi, by rw [houtlets]; exact hd⟩
  · rintro ⟨ν, i, hν, hi, hd⟩
    obtain ⟨x, hx, rfl⟩ := node?_eq_some.mp hν
    rw [houtlets] at hd
    exact ⟨x, i, hx, hi, hd⟩

/-! ### The parts of a turn -/

/-- Things that are there for each element of a list make a list. -/
theorem exists_list {α β : Type} {P : Nat → α → β → Prop} (xs : List α)
    (h : ∀ k x, xs[k]? = some x → ∃ y, P k x y) :
    ∃ ys : List β, ys.length = xs.length ∧
      ∀ k x y, xs[k]? = some x → ys[k]? = some y → P k x y := by
  induction xs generalizing P with
  | nil => exact ⟨[], rfl, by simp⟩
  | cons x xs ih =>
      obtain ⟨y, hy⟩ := h 0 x rfl
      obtain ⟨ys, hlength, hys⟩ := ih fun k z hz => h (k + 1) z (by simpa using hz)
      refine ⟨y :: ys, by simp [hlength], fun k a b ha hb => ?_⟩
      cases k with
      | zero =>
          obtain rfl : x = a := by simpa using ha
          obtain rfl : y = b := by simpa using hb
          exact hy
      | succ k => exact hys k a b (by simpa using ha) (by simpa using hb)

namespace Turn

theorem covers_iff : u.Covers c ↔ ∃ k ≤ 10, c = after u.place k := by
  constructor
  · rintro ⟨hle, hge⟩
    refine ⟨c.index - u.place.index, by omega, ?_⟩
    show c = ⟨u.place.index + (c.index - u.place.index)⟩
    rw [Nat.add_sub_cancel' hle]
  · rintro ⟨k, hk, rfl⟩
    exact ⟨Nat.le_add_right _ _, Nat.add_le_add_left hk _⟩

/-- The nodes of a turn: the accessor and its parts. -/
theorem Stands.nodes (h : u.Stands σ owner start) : ∃ M clock reset νs,
    σ.Row u.place (M :: νs) ∧ M.Encloses (u.box owner clock reset start) ∧
      List.Forall₂ Piece.Of u.parts νs ∧ ∀ ν, ν ∈ M :: νs ↔ ∃ c, u.Covers c ∧ σ.node? c = some ν := by
  obtain ⟨M, clock, reset, hM, hbox⟩ := h.node
  obtain ⟨νs, hlength, hνs⟩ := exists_list u.parts h.parts
  have hpiece : ∀ {k ν}, νs[k]? = some ν → ∃ p, u.parts[k]? = some p ∧
      σ.node? (after u.place (k + 1)) = some ν ∧ p.Of ν := by
    intro k ν hν
    have hk : k < u.parts.length := hlength ▸ (List.getElem?_eq_some_iff.mp hν).1
    exact ⟨_, List.getElem?_eq_getElem hk, hνs k _ ν (List.getElem?_eq_getElem hk) hν⟩
  refine ⟨M, clock, reset, νs, fun k ν hk => ?_, hbox, ?_, fun ν => ?_⟩
  · cases k with
    | zero => exact Option.some.inj hk ▸ hM
    | succ k =>
        obtain ⟨p, -, hν, -⟩ := hpiece hk
        exact hν
  · refine List.forall₂_iff_get.mpr ⟨hlength.symm, fun k h₁ h₂ => ?_⟩
    exact (hνs k _ _ (List.getElem?_eq_getElem h₁) (List.getElem?_eq_getElem h₂)).2
  · rw [List.mem_cons, List.mem_iff_getElem?]
    constructor
    · rintro (rfl | ⟨k, hk⟩)
      · exact ⟨u.place, covers_place, hM⟩
      · obtain ⟨p, hp, hν, -⟩ := hpiece hk
        exact ⟨_, covers_part hp, hν⟩
    · rintro ⟨c, hc, hν⟩
      obtain ⟨k, hk, rfl⟩ := covers_iff.mp hc
      cases k with
      | zero => exact .inl (Option.some.inj (hν.symm.trans hM))
      | succ k =>
          have hk' : k < νs.length := by
            rw [hlength, u.length_parts]
            exact hk
          obtain ⟨p, hp, hμ, -⟩ := hpiece (List.getElem?_eq_getElem hk')
          exact .inr ⟨k, (List.getElem?_eq_getElem hk').trans (hμ.symm.trans hν)⟩

/-! ### The rules of a turn -/

/-- The pin that the accessor waits for. -/
def ready (u : Turn) : PinId :=
  match u.move with
  | .take l => l.send
  | .give l => l.ack

/-- What the buses of the accessor carry when it is started by `go`. -/
def Rules (w : Signals) (u : Turn) (go : BusId) : Prop :=
  u.wires.Waits w (w.bus · go) u.ready ∧
    match u.move with
    | .take l => (∀ t, w.bus t u.token = w.pin t l.data) ∧ ∀ t, w.bus t u.result = w.bus t u.token
    | .give _ => ∀ b, u.feed = some b → ∀ t, w.bus t u.token = w.bus t b

theorem Stands.follows_iff (h : u.Stands σ owner (some go)) (hfed : u.Fed) :
    (∀ c ν, u.Covers c → σ.node? c = some ν → ν.Follows w) ↔ u.Rules w go := by
  obtain ⟨M, clock, reset, νs, -, hbox, hparts, hnodes⟩ := h.nodes
  have hall : (∀ c ν, u.Covers c → σ.node? c = some ν → ν.Follows w) ↔
      ∀ ν ∈ M :: νs, ν.Follows w :=
    ⟨fun hall ν hν => (hnodes ν).mp hν |>.elim fun c hc => hall c ν hc.1 hc.2,
      fun hall c ν hc hν => hall ν ((hnodes ν).mpr ⟨c, hc, hν⟩)⟩
  have hgo : M.go.level w = (w.bus · go) := funext fun t => Pad.level_of_driver hbox.go t
  rw [hall]
  unfold Turn.parts at hparts
  unfold Fed at hfed
  unfold Rules ready
  cases hmove : u.move with
  | take l =>
      simp only [hmove] at hparts
      rw [reader_follows hbox (by simp [box, base, hmove, readerBox])
        (by simp [box, base, hmove, readerBox]) hparts, hgo]
  | give l =>
      simp only [hmove] at hparts hfed
      obtain ⟨b, hb⟩ := Option.isSome_iff_exists.mp hfed.1
      obtain ⟨a, ha, heq⟩ := List.map_eq_singleton_iff.mp
        (hbox.inputs.trans (by simp [box, base, hmove, writerBox, hb] : _ = [(some b, some u.token)]))
      rw [writer_follows hbox (by simp [box, base, hmove, writerBox]) ha (congrArg Prod.snd heq) hparts,
        hgo]
      simp [hb, Pad.level_of_driver (congrArg Prod.fst heq)]

/-- What the accessor drives. -/
def Drives (w : Signals) (u : Turn) (t : Nat) (pin : PinId) (word : Word) : Prop :=
  match u.move with
  | .take l => l.ack = pin ∧ w.bus t u.wires.fire 0 = true ∧ w.bus t u.wires.fire = word
  | .give l => l.data = pin ∧ w.bus t u.wires.pending 0 = true ∧ w.bus t u.token = word ∨
      l.send = pin ∧ w.bus t u.wires.pending 0 = true ∧ w.bus t u.wires.pending = word

theorem Stands.drives_iff (h : u.Stands σ owner start) {word : Word} :
    (∃ c ν, u.Covers c ∧ σ.node? c = some ν ∧ ν.Drives w t pin word) ↔ u.Drives w t pin word := by
  obtain ⟨M, clock, reset, νs, -, hbox, hparts, hnodes⟩ := h.nodes
  have hany : (∃ c ν, u.Covers c ∧ σ.node? c = some ν ∧ ν.Drives w t pin word) ↔
      ∃ ν ∈ νs, ν.Drives w t pin word := by
    constructor
    · rintro ⟨c, ν, hc, hν, hdrives⟩
      rcases List.mem_cons.mp ((hnodes ν).mpr ⟨c, hc, hν⟩) with rfl | hmem
      · exact absurd hdrives hbox.not_drives
      · exact ⟨ν, hmem, hdrives⟩
    · rintro ⟨ν, hν, hdrives⟩
      obtain ⟨c, hc, hnode⟩ := (hnodes ν).mp (List.mem_cons_of_mem _ hν)
      exact ⟨c, ν, hc, hnode, hdrives⟩
  rw [hany]
  unfold Turn.parts at hparts
  unfold Drives
  cases hmove : u.move with
  | take l =>
      simp only [hmove] at hparts
      exact reader_parts_drive hparts t pin word
  | give l =>
      simp only [hmove] at hparts
      exact writer_parts_drive hparts t pin word

/-- The accessor as a stage of a relay. -/
def stage (w : Signals) (u : Turn) : Stage where
  stored t := w.bus t u.wires.stored 0 = true
  pending t := w.bus t u.wires.pending 0 = true
  ready t := w.pin t u.ready 0 = true
  done t := w.bus t u.done 0 = true

end Turn

/-- The rules of turns one after the other, the first of them started by `go`. -/
def RulesInTurn (w : Signals) : (go : BusId) → List Turn → Prop
  | _, [] => True
  | go, u :: us => u.Rules w go ∧ RulesInTurn w u.done us

theorem Sheet.InTurn.follows_iff {us : List Turn} (h : σ.InTurn m go us last) (hfed : ∀ u ∈ us, u.Fed) :
    (∀ u ∈ us, ∀ c ν, u.Covers c → σ.node? c = some ν → ν.Follows w) ↔ RulesInTurn w go us := by
  induction us generalizing go with
  | nil => simp [RulesInTurn]
  | cons u us ih =>
      obtain ⟨hu, hus⟩ := List.forall_mem_cons.mp hfed
      rw [List.forall_mem_cons, h.1.follows_iff hu, ih h.2 hus]
      rfl

theorem RulesInTurn.relay {us : List Turn} (hrules : RulesInTurn w go us) (h : σ.InTurn m go us last) :
    Relay (fun t => w.bus t go 0 = true) (us.map (Turn.stage w)) fun t => w.bus t last 0 = true := by
  induction us generalizing go with
  | nil =>
      obtain rfl : last = go := h
      rfl
  | cons u us ih => exact ⟨hrules.1.1.handshake, ih hrules.2 h.2⟩

/-! ### The parts of a block -/

theorem Turn.interior_box (u : Turn) (owner : Option ComponentId) (clock reset go : Option BusId) :
    (u.box owner clock reset go).interior = handshakeInterior u.place := by
  unfold box base
  split <;> rfl

theorem Turn.outBuf_box (u : Turn) (owner : Option ComponentId) (clock reset go : Option BusId) :
    ∃ o, (u.box owner clock reset go).outlet = some o ∧ o.outBuf = some (after u.place 2) := by
  unfold box base
  split <;> exact ⟨_, rfl, rfl⟩

/-- An accessor contains its parts. -/
theorem Turn.Stands.kid_iff (h : u.Stands n.sheet owner start) :
    Kid n u.place d ↔ ∃ k < 10, d = after u.place (k + 1) := by
  obtain ⟨M, clock, reset, hM, hbox⟩ := h.node
  obtain ⟨o, ho, hout⟩ := u.outBuf_box owner clock reset start
  have hinterior := hbox.interior.trans (congrArg some (u.interior_box owner clock reset start))
  have houtlets : M.outlets = [o] := by simp [Node.outlets, hbox.exits, ho]
  rw [Netlist.kid_iff]
  constructor
  · rintro ⟨ν, i, hν, hi, hd⟩
    cases hν.symm.trans hM
    cases hi.symm.trans hinterior
    rcases hd with hd | rfl | ⟨p, hp, hd⟩
    · obtain ⟨k, hk, rfl⟩ := List.mem_map.mp hd
      exact ⟨k + 2, by have := List.mem_range.mp hk; omega, rfl⟩
    · exact ⟨0, by omega, rfl⟩
    · obtain rfl : p = o := by simpa [houtlets] using hp
      cases hout.symm.trans hd
      exact ⟨1, by omega, rfl⟩
  · rintro ⟨k, hk, rfl⟩
    refine ⟨M, _, hM, hinterior, ?_⟩
    rcases k with _ | _ | k
    · exact .inr (.inl rfl)
    · exact .inr (.inr ⟨o, by simp [houtlets], hout⟩)
    · exact .inl (List.mem_map.mpr ⟨k, List.mem_range.mpr (by omega), rfl⟩)

/-- Nothing but its parts is contained in an accessor. -/
theorem Turn.Stands.covers_kid (h : u.Stands n.sheet owner start) (hc : u.Covers c) (hd : Kid n c d) :
    u.Covers d := by
  obtain ⟨k, hk, rfl⟩ := covers_iff.mp hc
  cases k with
  | zero =>
      obtain ⟨j, hj, rfl⟩ := h.kid_iff.mp hd
      exact covers_iff.mpr ⟨j + 1, hj, rfl⟩
  | succ k =>
      have hpart := List.getElem?_eq_getElem (l := u.parts) (i := k) (by rw [u.length_parts]; omega)
      obtain ⟨ν, hν, hof⟩ := h.parts k _ hpart
      obtain ⟨μ, i, hμ, hi, -⟩ := Netlist.kid_iff.mp hd
      cases hν.symm.trans hμ
      exact absurd (hof.interior.symm.trans hi) (by simp)

theorem Turn.Stands.part (h : u.Stands n.sheet owner start) (hu : Part n m u.place) (hd : u.Covers d) :
    Part n m d := by
  obtain ⟨k, hk, rfl⟩ := covers_iff.mp hd
  cases k with
  | zero => exact hu
  | succ k => exact .kid hu (h.kid_iff.mpr ⟨k, hk, rfl⟩)

section

variable {b : Body} (h : b.Stands n.sheet m)

include h

theorem Body.Stands.part_iff : Part n m c ↔
    c = m ∨ c = after m 1 ∨ c = b.outBuf ∨ ∃ u ∈ b.turns, u.Covers c := by
  obtain ⟨B, owner, clock, reset, go, hB, hbox⟩ := h.node
  obtain ⟨I, o, hI, hin, -⟩ := h.inBuf
  obtain ⟨O, last, hO, hout, hturns⟩ := h.outBuf
  have hkid : ∀ {d}, (∃ u ∈ b.turns, d = u.place) ∨ d = after m 1 ∨ d = b.outBuf → Kid n m d := by
    intro d hd
    refine kid_iff.mpr ⟨B, _, hB, hbox.interior, ?_⟩
    rcases hd with ⟨u, hu, rfl⟩ | rfl | rfl
    · exact .inl (List.mem_map_of_mem hu)
    · exact .inr (.inl rfl)
    · exact .inr (.inr ⟨_, Node.outlet?_mem hbox.outlet?, rfl⟩)
  constructor
  · intro hpart
    induction hpart with
    | self => exact .inl rfl
    | @kid a d hbefore hstep ih =>
        obtain ⟨ν, i, hν, hi, hd⟩ := kid_iff.mp hstep
        rcases ih with rfl | rfl | rfl | ⟨u, hu, hcovers⟩
        · cases hν.symm.trans hB
          cases hi.symm.trans hbox.interior
          have houtlets : B.outlets = [{ exit := b.exit, done := b.done, outBuf := some b.outBuf }] := by
            simp [Node.outlets, hbox.exits, Body.box]
          rcases hd with hd | rfl | ⟨p, hp, hd⟩
          · obtain ⟨u, hu, rfl⟩ := List.mem_map.mp hd
            exact .inr (.inr (.inr ⟨u, hu, Turn.covers_place⟩))
          · exact .inr (.inl rfl)
          · rw [houtlets, List.mem_singleton] at hp
            rw [hp] at hd
            cases hd
            exact .inr (.inr (.inl rfl))
        · cases hν.symm.trans hI
          exact absurd (hin.interior.symm.trans hi) (by simp)
        · cases hν.symm.trans hO
          exact absurd (hout.interior.symm.trans hi) (by simp)
        · obtain ⟨go, hu'⟩ := hturns.stands hu
          exact .inr (.inr (.inr ⟨u, hu, hu'.covers_kid hcovers hstep⟩))
  · rintro (rfl | rfl | rfl | ⟨u, hu, hcovers⟩)
    · exact .self
    · exact .kid .self (hkid (.inr (.inl rfl)))
    · exact .kid .self (hkid (.inr (.inr rfl)))
    · obtain ⟨go, hu'⟩ := hturns.stands hu
      exact hu'.part (.kid .self (hkid (.inl ⟨u, hu, rfl⟩))) hcovers

/-- The rules of a block: what starts it, what it is given, when it is done, and its turns. -/
theorem Body.Stands.run_iff (hfed : ∀ u ∈ b.turns, u.Fed) : ∃ B last, n.sheet.node? m = some B ∧
    B.outlet? .done = some { exit := b.exit, done := b.done, outBuf := some b.outBuf } ∧
    (∀ a ∈ B.data, a.driver = none ∧ ∃ f ∈ feeds b.turns, a.peer = some f) ∧
    n.sheet.InTurn m b.start b.turns last ∧
    ∀ w, n.PartsRun w m ↔ (∀ t, w.bus t b.start = B.go.level w t) ∧
      (∀ a ∈ B.data, ∀ f, a.peer = some f → ∀ t, w.bus t f = a.level w t) ∧
      (∀ t, w.bus t b.done = w.bus t last) ∧ RulesInTurn w b.start b.turns := by
  obtain ⟨B, owner, clock, reset, go, hB, hbox⟩ := h.node
  obtain ⟨I, o, hI, hin, -⟩ := h.inBuf
  obtain ⟨O, last, hO, hout, hturns⟩ := h.outBuf
  have hopen : ∀ a ∈ B.data, a.driver = none ∧ ∃ f ∈ feeds b.turns, a.peer = some f := by
    intro a ha
    have hinput : (a.driver, a.peer) ∈ (b.box m owner clock reset go).inputs :=
      hbox.inputs ▸ List.mem_map_of_mem ha
    obtain ⟨f, hf, heq⟩ := List.mem_map.mp hinput
    exact ⟨(congrArg Prod.fst heq).symm, f, hf, (congrArg Prod.snd heq).symm⟩
  refine ⟨B, last, hB, hbox.outlet?, hopen, hturns, fun w => ?_⟩
  have hblock : B.Follows w ↔ _ := hbox.follows
  have hexit : O.Follows w ↔ _ := hout.follows
  have hnone : O.data = [] := by simpa using hout.data
  simp only [hnone, List.not_mem_nil, false_imp_iff, implies_true, and_true] at hexit
  rw [partsRun_iff, ← hturns.follows_iff hfed]
  constructor
  · intro hruns
    obtain ⟨hstart, hdata⟩ := hblock.mp (hruns m B .self hB)
    exact ⟨hstart, hdata, hexit.mp (hruns _ O (h.part_iff.mpr (.inr (.inr (.inl rfl)))) hO),
      fun u hu c ν hc hν => hruns c ν (h.part_iff.mpr (.inr (.inr (.inr ⟨u, hu, hc⟩)))) hν⟩
  · rintro ⟨hstart, hdata, hdone, hrest⟩ c ν hc hν
    rcases h.part_iff.mp hc with rfl | rfl | rfl | ⟨u, hu, hcovers⟩
    · cases hν.symm.trans hB
      exact hblock.mpr ⟨hstart, hdata⟩
    · cases hν.symm.trans hI
      exact hin.follows
    · cases hν.symm.trans hO
      exact hexit.mpr hdone
    · exact hrest u hu c ν hcovers hν

/-- Only the accessors of a block drive pins. -/
theorem Body.Stands.raise_iff :
    n.PartsRaise w m t pin ↔ ∃ u ∈ b.turns, ∃ v, u.Drives w t pin v ∧ v 0 = true := by
  obtain ⟨B, owner, clock, reset, go, hB, hbox⟩ := h.node
  obtain ⟨I, o, hI, hin, -⟩ := h.inBuf
  obtain ⟨O, last, hO, hout, hturns⟩ := h.outBuf
  rw [partsRaise_iff]
  constructor
  · rintro ⟨c, ν, v, hc, hν, hdrives, hv⟩
    rcases h.part_iff.mp hc with rfl | rfl | rfl | ⟨u, hu, hcovers⟩
    · cases hν.symm.trans hB
      exact absurd hdrives hbox.not_drives
    · cases hν.symm.trans hI
      exact absurd hdrives hin.not_drives
    · cases hν.symm.trans hO
      exact absurd hdrives hout.not_drives
    · obtain ⟨go, hu'⟩ := hturns.stands hu
      exact ⟨u, hu, v, hu'.drives_iff.mp ⟨c, ν, hcovers, hν, hdrives⟩, hv⟩
  · rintro ⟨u, hu, v, hdrives, hv⟩
    obtain ⟨go, hu'⟩ := hturns.stands hu
    obtain ⟨c, ν, hcovers, hν, hdrives⟩ := hu'.drives_iff.mpr hdrives
    exact ⟨c, ν, v, h.part_iff.mpr (.inr (.inr (.inr ⟨u, hu, hcovers⟩))), hν, hdrives, hv⟩

end

end DataflowSynth.Netlist
