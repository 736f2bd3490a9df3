/-
Tokens that move through a block.

A token passes through an interface in a cycle in which the block drives the ack pin of an input high,
or in which it drives the send pin of an output high and the ack pin tells that it is taken.  If no
other interface shares these pins, this happens whenever one of the accessors on the interface is done.

Accessors on the same interface that come one directly after the other are done in the same cycle, as
each of them is started when the one before it is done and finds the other side ready.  So they move
one token all together.
-/
import DataflowSynth.Proofs.Circuit.Runs

namespace DataflowSynth.Netlist

open Handshake (AtMostOnce Relay cycles)

variable {pinCount : Nat} {n : Netlist} {w : Signals} {m : ComponentId} {b : Body} {u : Turn} {mv : Move}
  {l : Link} {t : Nat} {pin : PinId} {go last : BusId}

/-- The pins of an interface. -/
def Move.pins : Move → List PinId
  | .take l | .give l => [l.data, l.send, l.ack]

/-- Two moves are the same, or they have no pin in common. -/
def Move.Apart (mv mv' : Move) : Prop := mv = mv' ∨ mv.pins.Disjoint mv'.pins

/-- A token passes in the cycle. -/
def Passes (n : Netlist) (w : Signals) (m : ComponentId) (t : Nat) : Move → Prop
  | .take l => n.PartsRaise w m t l.ack
  | .give l => n.PartsRaise w m t l.send ∧ w.pin t l.ack 0 = true

/-! ### Accessors -/

namespace Turn

/-- The accessor drives the pin high. -/
def Raises (w : Signals) (u : Turn) (t : Nat) (pin : PinId) : Prop :=
  ∃ v, u.Drives w t pin v ∧ v 0 = true

theorem Raises.mem_pins (h : u.Raises w t pin) : pin ∈ u.move.pins := by
  obtain ⟨v, h, -⟩ := h
  unfold Drives at h
  cases hmove : u.move with
  | take l =>
      simp only [hmove] at h
      simp [Move.pins, h.1]
  | give l =>
      simp only [hmove] at h
      rcases h with ⟨rfl, -⟩ | ⟨rfl, -⟩ <;> simp [Move.pins]

theorem Rules.raises_ack (h : u.Rules w go) (hmove : u.move = .take l) :
    u.Raises w t l.ack ↔ (u.stage w).done t := by
  have hdone : (u.stage w).done t ↔ w.bus t u.wires.fire 0 = true := by
    rw [← h.1.done]
    rfl
  simp only [Raises, Drives, hmove, true_and, hdone]
  exact ⟨fun ⟨_, ⟨h, _⟩, _⟩ => h, fun h => ⟨_, ⟨h, rfl⟩, h⟩⟩

theorem Rules.raises_send (h : u.Rules w go) (hmove : u.move = .give l) (hne : l.data ≠ l.send) :
    u.Raises w t l.send ∧ w.pin t l.ack 0 = true ↔ (u.stage w).done t := by
  have hready : (u.stage w).ready t ↔ w.pin t l.ack 0 = true := by
    simp only [stage, ready, hmove]
  have hdone : (u.stage w).done t ↔ (u.stage w).pending t ∧ (u.stage w).ready t :=
    h.1.handshake.ends t
  rw [← hready, hdone]
  simp only [Raises, Drives, hmove, hne, false_and, false_or, true_and, stage]
  exact and_congr_left' ⟨fun ⟨_, ⟨h, _⟩, _⟩ => h, fun h => ⟨_, ⟨h, rfl⟩, h⟩⟩

end Turn

theorem RulesInTurn.of_mem {us : List Turn} (h : RulesInTurn w go us) (hu : u ∈ us) :
    ∃ go, u.Rules w go := by
  induction us generalizing go with
  | nil => exact absurd hu List.not_mem_nil
  | cons v us ih =>
      rcases List.mem_cons.mp hu with rfl | hu
      · exact ⟨go, h.1⟩
      · exact ih h.2 hu

/-! ### Blocks -/

section

variable (h : b.Stands n.sheet m) (hfed : ∀ u ∈ b.turns, u.Fed) (hrun : n.PartsRun w m)

include h hfed hrun

/-- A block starts its accessors one after the other. -/
theorem Body.Stands.relay (hn : Proper pinCount n) :
    Relay (n.Started w m) (b.turns.map (Turn.stage w)) (n.Finished w m) := by
  obtain ⟨B, last, hB, hdone, -, hturns, hruns⟩ := h.run_iff hfed
  obtain ⟨hstart, -, hend, hrules⟩ := (hruns w).mp hrun
  have hstarted : n.Started w m = fun t => w.bus t b.start 0 = true := by
    funext t
    rw [hstart, started_iff_node (Γ := { pins := pinCount }) hB]
  have hfinished : n.Finished w m = fun t => w.bus t last 0 = true := by
    funext t
    rw [← hend, hn.finished_iff_node hB hdone]
  rw [hstarted, hfinished]
  exact hrules.relay hturns

/-- A token passes through an interface whenever an accessor on it is done. -/
theorem Body.Stands.passes_iff (hpins : mv.pins.Nodup) (hapart : ∀ u ∈ b.turns, u.move.Apart mv) :
    n.Passes w m t mv ↔ ∃ u ∈ b.turns.filter (·.move = mv), (u.stage w).done t := by
  obtain ⟨B, last, -, -, -, -, hruns⟩ := h.run_iff hfed
  obtain ⟨-, -, -, hrules⟩ := (hruns w).mp hrun
  have hraise : ∀ pin ∈ mv.pins, n.PartsRaise w m t pin ↔
      ∃ u ∈ b.turns.filter (·.move = mv), u.Raises w t pin := by
    intro pin hpin
    rw [h.raise_iff]
    constructor
    · rintro ⟨u, hu, hraises⟩
      rcases hapart u hu with heq | hdisjoint
      · exact ⟨u, List.mem_filter.mpr ⟨hu, decide_eq_true heq⟩, hraises⟩
      · exact absurd hpin (hdisjoint (Turn.Raises.mem_pins hraises))
    · rintro ⟨u, hu, hraises⟩
      exact ⟨u, (List.mem_filter.mp hu).1, hraises⟩
  have hmem : ∀ u ∈ b.turns.filter (·.move = mv), u.move = mv ∧ ∃ go, u.Rules w go := fun u hu =>
    ⟨of_decide_eq_true (List.mem_filter.mp hu).2, hrules.of_mem (List.mem_filter.mp hu).1⟩
  cases mv with
  | take l =>
      rw [Passes, hraise _ (by simp [Move.pins])]
      refine exists_congr fun u => and_congr_right fun hu => ?_
      obtain ⟨hmove, go, hrule⟩ := hmem u hu
      exact hrule.raises_ack hmove
  | give l =>
      have hne : l.data ≠ l.send := by
        simp only [Move.pins, List.nodup_cons, List.mem_cons, not_or] at hpins
        exact hpins.1.1
      rw [Passes, hraise _ (by simp [Move.pins]), ← exists_and_right]
      refine exists_congr fun u => ?_
      rw [and_assoc]
      refine and_congr_right fun hu => ?_
      obtain ⟨hmove, go, hrule⟩ := hmem u hu
      exact hrule.raises_send hmove hne

/-- When a block that was started once is done, tokens have passed through an interface in no more
cycles than there are accessors on it, but in one at least. -/
theorem Body.Stands.cycles_passes (hn : Proper pinCount n) (hgo : AtMostOnce (n.Started w m))
    (hpins : mv.pins.Nodup) (hapart : ∀ u ∈ b.turns, u.move.Apart mv) (ht : n.Finished w m t) :
    cycles (n.Passes w m · mv) t ≤ b.turns.countP (·.move = mv) ∧
      (0 < b.turns.countP (·.move = mv) → 0 < cycles (n.Passes w m · mv) t) := by
  have hpasses : (n.Passes w m · mv) = fun r => ∃ u ∈ b.turns.filter (·.move = mv), (u.stage w).done r :=
    funext fun r => propext (h.passes_iff hfed hrun hpins hapart)
  rw [hpasses, List.countP_eq_length_filter]
  exact (h.relay hfed hrun hn).cycles_done hgo ht (List.filter_sublist.subset)

/-- If the accessors on an interface come one directly after the other, one token passes. -/
theorem Body.Stands.cycles_passes_one (hn : Proper pinCount n) (hgo : AtMostOnce (n.Started w m))
    (hpins : mv.pins.Nodup) (hapart : ∀ u ∈ b.turns, u.move.Apart mv)
    {us vs rest : List Turn} (hsplit : b.turns = us ++ vs ++ rest) (hus : ∀ u ∈ us, u.move ≠ mv)
    (hvs : ∀ u ∈ vs, u.move = mv) (hrest : ∀ u ∈ rest, u.move ≠ mv) :
    cycles (n.Passes w m · mv) t ≤ 1 := by
  have hfilter : b.turns.filter (·.move = mv) = vs := by
    have hbefore : us.filter (·.move = mv) = [] := List.filter_eq_nil_iff.mpr (by simpa using hus)
    have hself : vs.filter (·.move = mv) = vs := List.filter_eq_self.mpr (by simpa using hvs)
    have hafter : rest.filter (·.move = mv) = [] := List.filter_eq_nil_iff.mpr (by simpa using hrest)
    rw [hsplit, List.filter_append, List.filter_append, hbefore, hself, hafter, List.nil_append,
      List.append_nil]
  have hrelay := h.relay hfed hrun hn
  rw [hsplit, List.map_append, List.map_append] at hrelay
  obtain ⟨later, hrelay, -⟩ := hrelay.drop
  obtain ⟨mid, hbefore, hrelay⟩ := hrelay.drop
  have hmid := (hbefore.once hgo).1
  refine AtMostOnce.cycles_le (fun r s hr hs => ?_) t
  simp only [h.passes_iff hfed hrun hpins hapart, hfilter] at hr hs
  obtain ⟨u, hu, hr⟩ := hr
  obtain ⟨v, hv, hs⟩ := hs
  cases vs with
  | nil => exact absurd hu List.not_mem_nil
  | cons x xs =>
      have hready : ∀ y ∈ xs.map (Turn.stage w), y.ready = (x.stage w).ready := by
        intro y hy
        obtain ⟨z, hz, rfl⟩ := List.mem_map.mp hy
        have hmove : z.move = x.move := (hvs z (by simp [hz])).trans (hvs x (by simp)).symm
        simp only [Turn.stage, Turn.ready, hmove]
      have hfirst : ∀ y ∈ x :: xs, ∀ q, (y.stage w).done q → (x.stage w).done q := by
        intro y hy q hq
        rcases List.mem_cons.mp hy with rfl | hy
        · exact hq
        · exact (hrelay.together hmid hready (List.mem_map_of_mem hy) q).mp hq
      exact hrelay.1.once hmid r s (hfirst u hu r hr) (hfirst v hv s hs)

end

end DataflowSynth.Netlist
