/-
A netlist read as a synchronous circuit.

Every bus carries something in every cycle.  Gates combine what drives them within the cycle, a read of
a pin passes on what is on the pin, a register gives out what it was given in the cycle before, and
what drives a port at a boundary comes out of the bus that repeats the port on the other side.  What
all buses carry is a run of a module if everything inside it follows these rules.

The clock is what makes the cycles, and resets are low, so neither is read.  Ports that no bus drives
are left to the surroundings, and so are the pins.  Casts, constants and what else a block computes with
are not read either; their buses carry anything.
-/
import DataflowSynth.Netlist.Primitive
import Mathlib.Data.Nat.Count

namespace DataflowSynth

/-! ### Requests that wait -/

namespace Handshake

variable {go stored pending ready done : Nat → Prop}

/-- A request is open: it was made in this cycle or before, and it has not been served since. -/
def Open (go done : Nat → Prop) (t : Nat) : Prop :=
  ∃ s ≤ t, go s ∧ ∀ r, s ≤ r → r < t → ¬ done r

theorem open_succ (t : Nat) : Open go done (t + 1) ↔ go (t + 1) ∨ Open go done t ∧ ¬ done t := by
  constructor
  · rintro ⟨s, hs, hgo, hnot⟩
    rcases Nat.lt_or_ge t s with hlt | hle
    · obtain rfl : s = t + 1 := by omega
      exact .inl hgo
    · exact .inr ⟨⟨s, hle, hgo, fun r hsr hrt => hnot r hsr (by omega)⟩, hnot t hle (by omega)⟩
  · rintro (hgo | ⟨⟨s, hs, hgo, hnot⟩, hdone⟩)
    · exact ⟨t + 1, Nat.le_refl _, hgo, fun r hr hrt => absurd hrt (by omega)⟩
    · refine ⟨s, by omega, hgo, fun r hsr hrt => ?_⟩
      rcases Nat.lt_or_ge r t with hlt | hge
      · exact hnot r hsr hlt
      · obtain rfl : r = t := by omega
        exact hdone

/-- The signals of a circuit that remembers a request until the other side is ready. -/
structure Waits (go stored pending ready done : Nat → Prop) : Prop where
  begins : ¬ stored 0
  waits : ∀ t, pending t ↔ stored t ∨ go t
  ends : ∀ t, done t ↔ pending t ∧ ready t
  keeps : ∀ t, stored (t + 1) ↔ pending t ∧ ¬ ready t

namespace Waits

variable (h : Waits go stored pending ready done)

include h

theorem pending_iff (t : Nat) : pending t ↔ Open go done t := by
  induction t with
  | zero =>
    rw [h.waits]
    constructor
    · rintro (hs | hgo)
      · exact absurd hs h.begins
      · exact ⟨0, Nat.le_refl 0, hgo, fun r _ hr => absurd hr (Nat.not_lt_zero r)⟩
    · rintro ⟨s, hs, hgo, -⟩
      obtain rfl : s = 0 := by omega
      exact .inr hgo
  | succ t ih =>
    have kept : stored (t + 1) ↔ Open go done t ∧ ¬ done t := by
      rw [h.keeps, ← ih, h.ends]
      tauto
    rw [h.waits, kept, open_succ, or_comm]

theorem done_iff (t : Nat) : done t ↔ ready t ∧ Open go done t := by
  rw [h.ends, h.pending_iff, and_comm]

open Classical in
/-- No more requests are served than were made: one that is still stored has not been served. -/
theorem count_done_le (t : Nat) : Nat.count done t ≤ Nat.count go t := by
  have invariant : ∀ t, Nat.count done t + (if stored t then 1 else 0) ≤ Nat.count go t := by
    intro t
    induction t with
    | zero => simp [h.begins]
    | succ t ih =>
      rw [Nat.count_succ, Nat.count_succ]
      have hp := h.waits t
      have hd := h.ends t
      have hs := h.keeps t
      by_cases hready : ready t <;> by_cases hgo : go t <;> by_cases hstored : stored t <;>
        simp_all <;> omega
  exact Nat.le_trans (Nat.le_add_right _ _) (invariant t)

end Waits

end Handshake

/-! ### Circuits -/

namespace Netlist

/-- What a bus carries in a cycle, line by line.  A signal of one bit is on line zero. -/
abbrev Word := Nat → Bool

/-- What is carried in every cycle. -/
structure Signals where
  bus : Nat → BusId → Word
  pin : Nat → PinId → Word
  /-- What is put on ports that no bus drives. -/
  outside : Nat → PortId → Word

variable (n : Netlist) (w : Signals)

/-- What arrives at a port. -/
def level (t : Nat) (p : PortId) : Word :=
  match (n.ports.get? p).bind Port.bus with
  | some b => w.bus t b
  | none => w.outside t p

/-- The bus on which a primitive gives out its result. -/
def result? (x : Component) : Option BusId :=
  (x.mainExit?.bind n.exits.get?).bind fun y => y.data.head?

/-- What drives the port comes out of the bus that repeats it. -/
def Repeats (p : PortId) : Prop :=
  ∀ b, (n.ports.get? p).bind Port.peer = some b → ∀ t, w.bus t b = n.level w t p

/-- What a gate makes of what arrives at its inputs. -/
def Gate.eval : Gate → List Bool → Bool
  | .and, vs => vs.all id
  | .or, vs => vs.any id
  | .not, vs => vs.all (!·)

/-- Line by line, the component gives out what the gate makes of its inputs. -/
def Computes (g : Gate) (x : Component) : Prop :=
  ∀ b ∈ n.result? x, ∀ t k, w.bus t b k = g.eval (x.dataPorts.map fun p => n.level w t p k)

/-- The component does what its kind says. -/
def Follows (x : Component) : Prop :=
  match x.kind with
  | .module _ | .outBuf => ∀ p ∈ x.go :: x.dataPorts, n.Repeats w p
  | .andGate => n.Computes w .and x
  | .orGate => n.Computes w .or x
  | .notGate => n.Computes w .not x
  | .pinRead pin => ∀ b ∈ n.result? x, ∀ t, w.bus t b = w.pin t pin
  | .reg .reg | .reg .regR => ∀ b ∈ n.result? x, (∀ k, w.bus 0 b k = false) ∧
      ∀ p ∈ x.dataPorts.head?, ∀ t, w.bus (t + 1) b = n.level w t p
  | _ => True

/-- The component is the module, or it belongs to something inside the module. -/
inductive Inside (m : ComponentId) : ComponentId → Prop where
  | self : Inside m m
  | owned {c o : ComponentId} {x : Component} (found : n.components.get? c = some x)
      (owner : x.owner = some o) (inside : Inside m o) : Inside m c

/-- Everything inside the module does what it should, from a cycle on in which registers are zero. -/
def Runs (m : ComponentId) : Prop :=
  ∀ c x, n.Inside m c → n.components.get? c = some x → n.Follows w x

/-! ### What is seen from outside -/

variable (m : ComponentId) (t : Nat)

/-- The module is started. -/
def Started : Prop := ∃ x, n.components.get? m = some x ∧ n.level w t x.go 0 = true

/-- The module is done. -/
def Finished : Prop :=
  ∃ x y, n.components.get? m = some x ∧ x.mainExit?.bind n.exits.get? = some y ∧
    w.bus t y.done 0 = true

/-- The module gives out the word. -/
def Returns (v : Word) : Prop :=
  ∃ x b, n.components.get? m = some x ∧ n.result? x = some b ∧ w.bus t b = v

/-- The module is given the word. -/
def Given (v : Word) : Prop :=
  ∃ x p, n.components.get? m = some x ∧ x.dataPorts = [p] ∧ n.level w t p = v

/-- Something inside the module drives the pin with the word. -/
def Drives (pin : PinId) (v : Word) : Prop :=
  ∃ c x p, n.Inside m c ∧ n.components.get? c = some x ∧ x.kind = .pinWrite pin ∧
    n.level w t x.go 0 = true ∧ x.dataPorts = [p] ∧ n.level w t p = v

/-- Something inside the module drives the pin high. -/
def Raises (pin : PinId) : Prop := ∃ v, n.Drives w m t pin v ∧ v 0 = true

end Netlist

end DataflowSynth
