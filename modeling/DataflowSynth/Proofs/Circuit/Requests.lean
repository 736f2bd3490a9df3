/-
Requests that are answered once.

A circuit holds a request in a flop until it is answered.  An answer may count in the cycle of the
request already, or from the next cycle on.  As long as nobody asks again before the answer, every request
is answered in the first cycle in which it can be, and the circuit is done in no other.

The module around such a circuit is looked at apart from what drives it: what comes in is on the buses
that repeat its ports inside, and may be anything there.  So it does not matter whether the module is
connected to itself.  In addition to the other rules, flops with set and reset now have theirs.
-/
import DataflowSynth.Proofs.Circuit.Nodes

namespace DataflowSynth

namespace Handshake

variable {delay : Nat} {go held ready done : Nat → Prop}

/-- `t` is the first cycle from `s` on in which it happens. -/
def First (p : Nat → Prop) (s t : Nat) : Prop := s ≤ t ∧ p t ∧ ∀ r, s ≤ r → r < t → ¬ p r

/-- After a request there is no other before it is answered, and none in the cycle in which it is. -/
def Patient (go : Nat → Prop) (answered : Nat → Nat → Prop) : Prop :=
  ∀ s u, go s → s < u → (∀ t, answered s t → u ≤ t) → ¬ go u

/-- The signals of a circuit that holds requests; an answer counts from `delay` cycles after the request
on. -/
structure Holds (delay : Nat) (go held ready done : Nat → Prop) : Prop where
  begins : ¬ held 0
  ends : ∀ t, done t ↔ (held t ∨ delay = 0 ∧ go t) ∧ ready t
  keeps : ∀ t, held (t + 1) ↔ (held t ∨ go t) ∧ ¬ done t

namespace Holds

variable (h : Holds delay go held ready done) (hdelay : delay ≤ 1)
  (hpatient : Patient go fun s => First ready (s + delay))

include h hdelay hpatient

/-- The flop holds the requests that have not been answered. -/
theorem held_iff (t : Nat) :
    held t ↔ ∃ s < t, go s ∧ ∀ r, s + delay ≤ r → r < t → ¬ ready r := by
  induction t with
  | zero => simpa using h.begins
  | succ t ih =>
      rw [h.keeps]
      constructor
      · rintro ⟨hasked, hdone⟩
        have hready : held t ∨ delay = 0 ∧ go t → ¬ ready t := fun hwaits hready =>
          hdone ((h.ends t).mpr ⟨hwaits, hready⟩)
        rcases hasked with hheld | hgo
        · obtain ⟨s, hs, hgo, hnot⟩ := ih.mp hheld
          refine ⟨s, by omega, hgo, fun r hsr hrt => ?_⟩
          rcases Nat.lt_succ_iff_lt_or_eq.mp hrt with hlt | rfl
          · exact hnot r hsr hlt
          · exact hready (.inl hheld)
        · refine ⟨t, by omega, hgo, fun r htr hrt => ?_⟩
          obtain ⟨rfl, rfl⟩ : r = t ∧ delay = 0 := by omega
          exact hready (.inr ⟨rfl, hgo⟩)
      · rintro ⟨s, hs, hgo, hnot⟩
        rcases Nat.lt_succ_iff_lt_or_eq.mp hs with hlt | rfl
        · have hready : ¬ ready t := hnot t (by omega) (by omega)
          have hheld : held t := ih.mpr ⟨s, hlt, hgo, fun r hsr hrt => hnot r hsr (by omega)⟩
          exact ⟨.inl hheld, fun hdone => hready ((h.ends t).mp hdone).2⟩
        · refine ⟨.inr hgo, fun hdone => ?_⟩
          obtain ⟨hwaits, hready⟩ := (h.ends s).mp hdone
          rcases Nat.eq_zero_or_pos delay with hzero | hpos
          · exact hnot s (by omega) (by omega) hready
          -- The request that is answered here is an earlier one, and this one came too early.
          · obtain ⟨s', hs', hgo', hnot'⟩ := ih.mp (hwaits.resolve_right (by omega))
            refine hpatient s' s hgo' hs' (fun t ht => Nat.le_of_not_lt fun hlt => ?_) hgo
            exact hnot' t ht.1 hlt ht.2.1

theorem done_iff (t : Nat) : done t ↔ ∃ s, go s ∧ First ready (s + delay) t := by
  rw [h.ends]
  constructor
  · rintro ⟨hheld | ⟨rfl, hgo⟩, hready⟩
    · obtain ⟨s, hs, hgo, hnot⟩ := (h.held_iff hdelay hpatient t).mp hheld
      exact ⟨s, hgo, by omega, hready, hnot⟩
    · exact ⟨t, hgo, Nat.le_refl t, hready, fun r htr hrt => absurd htr (Nat.not_le_of_lt hrt)⟩
  · rintro ⟨s, hgo, hle, hready, hnot⟩
    refine ⟨?_, hready⟩
    rcases Nat.lt_or_ge s t with hlt | hge
    · exact .inl ((h.held_iff hdelay hpatient t).mpr ⟨s, hlt, hgo, hnot⟩)
    · obtain ⟨rfl, rfl⟩ : s = t ∧ delay = 0 := by omega
      exact .inr ⟨rfl, hgo⟩

end Holds

end Handshake

/-- An answer to a read counts from so many cycles after the request on. -/
def Latency.delay (l : Latency) : Nat := if l.minClocks > 0 then 1 else 0

theorem Latency.delay_le (l : Latency) : l.delay ≤ 1 := by
  unfold delay
  split <;> decide

namespace Netlist

open Handshake (First Patient)

variable {n n' : Netlist} {w : Signals} {m : ComponentId}

/-! ### Flops with set and reset -/

/-- A flop of one bit starts low; a reset by one of its two inputs makes it low again, else a set makes it
high, and else it takes its data. -/
def Stores (n : Netlist) (w : Signals) (x : Component) : Prop :=
  ∀ data set clear, x.dataPorts = [data, set, clear] → ∀ b ∈ n.result? x,
    w.bus 0 b 0 = false ∧ ∀ t, w.bus (t + 1) b 0 =
      if n.level w t x.reset 0 || n.level w t clear 0 then false
      else if n.level w t set 0 then true
      else n.level w t data 0

/-- The component does what its kind says, flops with set and reset included. -/
def Obeys (n : Netlist) (w : Signals) (x : Component) : Prop :=
  n.Follows w x ∧ (x.kind = .reg .regRS → n.Stores w x)

/-- Everything inside the module does what it should, whatever comes in. -/
def RunsInside (n : Netlist) (w : Signals) (m : ComponentId) : Prop :=
  ∀ c x, n.Inside m c → c ≠ m → n.components.get? c = some x → n.Obeys w x

def Node.Stores (w : Signals) (ν : Node) : Prop :=
  ∀ data set clear, ν.data = [data, set, clear] → ∀ b ∈ ν.result?,
    w.bus 0 b 0 = false ∧ ∀ t, w.bus (t + 1) b 0 =
      if ν.reset.level w t 0 || clear.level w t 0 then false
      else if set.level w t 0 then true
      else data.level w t 0

def Node.Obeys (w : Signals) (ν : Node) : Prop :=
  ν.Follows w ∧ (ν.kind = .reg .regRS → ν.Stores w)

theorem stores_node (n : Netlist) (w : Signals) (x : Component) :
    (n.node x).Stores w ↔ n.Stores w x := by
  have hdata : (n.node x).data = x.dataPorts.map n.pad := rfl
  have hreset : (n.node x).reset = n.pad x.reset := rfl
  unfold Node.Stores Stores
  rw [result?_node, hdata, hreset]
  constructor
  · intro h data set clear hports
    exact h _ _ _ (by rw [hports]; rfl)
  · intro h data set clear hpads
    obtain ⟨p, ps, hports, rfl, hps⟩ := List.map_eq_cons_iff.mp hpads
    obtain ⟨q, qs, rfl, rfl, hqs⟩ := List.map_eq_cons_iff.mp hps
    obtain ⟨r, rfl, rfl⟩ := List.map_eq_singleton_iff.mp hqs
    exact h _ _ _ hports

theorem obeys_node (n : Netlist) (w : Signals) (x : Component) :
    (n.node x).Obeys w ↔ n.Obeys w x :=
  and_congr (follows_node n w x) (imp_congr_right fun _ => stores_node n w x)

theorem Node.obeys_of_ne {ν : Node} (h : ν.kind ≠ .reg .regRS) : ν.Obeys w ↔ ν.Follows w :=
  and_iff_left fun heq => absurd heq h

/-! ### Inside a module -/

theorem inside_congr {c : ComponentId} (h : ∀ c, (n'.components.get? c).map Component.owner =
    (n.components.get? c).map Component.owner) : n'.Inside m c ↔ n.Inside m c := by
  have hgo : ∀ {n n' : Netlist} {c}, (∀ c, (n'.components.get? c).map Component.owner =
      (n.components.get? c).map Component.owner) → n'.Inside m c → n.Inside m c := by
    intro n n' c h hc
    induction hc with
    | self => exact .self
    | @owned c o x' found owner _ ih =>
        have hsame := h c
        rw [found, Option.map_some] at hsame
        obtain ⟨x, hx, heq⟩ := Option.map_eq_some_iff.mp hsame.symm
        exact .owned hx (heq.trans owner) ih
  exact ⟨hgo h, hgo fun c => (h c).symm⟩

/-- Two netlists in which the same is inside the module run in the same way. -/
theorem runsInside_congr (hinside : ∀ c, n'.Inside m c ↔ n.Inside m c)
    (hsame : ∀ c, n.Inside m c → c ≠ m → n'.components.get? c = n.components.get? c ∧
      ∀ x, n.components.get? c = some x → n'.node x = n.node x) :
    n'.RunsInside w m ↔ n.RunsInside w m := by
  have hobeys : ∀ c x, n.Inside m c → c ≠ m → n.components.get? c = some x →
      (n'.Obeys w x ↔ n.Obeys w x) := by
    intro c x hc hne hx
    rw [← obeys_node n', ← obeys_node n, (hsame c hc hne).2 x hx]
  constructor
  · intro hruns c x hc hne hx
    exact (hobeys c x hc hne hx).mp (hruns c x ((hinside c).mpr hc) hne ((hsame c hc hne).1.trans hx))
  · intro hruns c x hc hne hx
    have hc' := (hinside c).mp hc
    have hx' := (hsame c hc' hne).1.symm.trans hx
    exact (hobeys c x hc' hne hx').mpr (hruns c x hc' hne hx')

theorem Built.runsInside_iff {Γ : Ground} {M : Node} {νs : List Node} (h : Built Γ n M νs) :
    n.RunsInside w Γ.module ↔ ∀ ν ∈ νs, ν.Obeys w := by
  have hfresh : ∀ k, (Γ.sheet Γ.base).fresh k = Γ.module ↔ k = 0 := fun k =>
    Sheet.fresh_inj (j := k) (k := 0)
  constructor
  · intro hruns ν hν
    obtain ⟨k, hk⟩ := List.mem_iff_getElem?.mp hν
    have hk' : (M :: νs)[k + 1]? = some ν := hk
    obtain ⟨x, hx, rfl⟩ := h.found hk'
    have hne : (Γ.sheet Γ.base).fresh (k + 1) ≠ Γ.module := fun heq =>
      Nat.succ_ne_zero k ((hfresh _).mp heq)
    exact (obeys_node n w x).mpr (hruns _ x (h.inside_fresh hk') hne hx)
  · intro hall c x hc hne hx
    obtain ⟨k, hk, rfl⟩ := h.of_new (h.new_of_inside hc) hx
    cases k with
    | zero => exact absurd ((hfresh 0).mpr rfl) hne
    | succ k => exact (obeys_node n w x).mp (hall _ (List.mem_of_getElem? hk))

/-! ### Modules that answer -/

/-- What comes into the module by a port is high. -/
def Enters (n : Netlist) (w : Signals) (m : ComponentId) (port? : Component → Option PortId) (t : Nat) :
    Prop :=
  ∃ x p b, n.components.get? m = some x ∧ port? x = some p ∧
    (n.ports.get? p).bind Port.peer = some b ∧ w.bus t b 0 = true

theorem enters_iff {port? : Component → Option PortId} {x : Component}
    (hx : n.components.get? m = some x) {p : PortId} (hp : port? x = some p) {b : BusId}
    (hb : (n.pad p).peer = some b) (t : Nat) : n.Enters w m port? t ↔ w.bus t b 0 = true := by
  constructor
  · rintro ⟨x', p', b', hx', hp', hb', hhigh⟩
    cases hx.symm.trans hx'
    cases hp.symm.trans hp'
    cases Option.some.inj (hb.symm.trans hb')
    exact hhigh
  · exact fun hhigh => ⟨x, p, b, hx, hp, hb, hhigh⟩

theorem finished_iff {x : Component} (hx : n.components.get? m = some x) {y : Exit}
    (hy : x.mainExit?.bind n.exits.get? = some y) (t : Nat) :
    n.Finished w m t ↔ w.bus t y.done 0 = true := by
  constructor
  · rintro ⟨x', y', hx', hy', hhigh⟩
    cases hx.symm.trans hx'
    cases hy.symm.trans hy'
    exact hhigh
  · exact fun hhigh => ⟨x, y, hx, hy, hhigh⟩

section

variable (n : Netlist) (w : Signals) (m : ComponentId)

/-- The module is asked. -/
def Asked (t : Nat) : Prop := n.Enters w m (fun x => some x.go) t

/-- The third data port of the module tells that the memory answers. -/
def Told (t : Nat) : Prop := n.Enters w m (fun x => x.dataPorts[2]?) t

/-- Everything inside the module does what it should, and it is never reset. -/
structure Undisturbed : Prop where
  runs : n.RunsInside w m
  reset : ∀ t, ¬ n.Enters w m (fun x => some x.reset) t

/-- A request that was made in the cycle `s` is answered in the cycle `t`. -/
def AnsweredIn (latency : Latency) (s t : Nat) : Prop := First (n.Told w m) (s + latency.delay) t

/-- The module that reads a memory with this latency answers each request once. -/
structure AnswersOnce (latency : Latency) : Prop where
  /-- Whenever it is asked and the memory answers, the circuit goes on. -/
  runs : ∀ go ready : Nat → Bool, ∃ w, n.Undisturbed w m ∧
    (∀ t, n.Asked w m t ↔ go t = true) ∧ ∀ t, n.Told w m t ↔ ready t = true
  /-- Without latency the answer is passed on. -/
  atOnce : latency.isZero → ∀ w, n.Undisturbed w m → ∀ t,
    n.Finished w m t ↔ n.Asked w m t ∧ n.Told w m t
  /-- Else it is done in the cycles in which a request is answered, and in no other. -/
  later : ¬ latency.isZero → ∀ w, n.Undisturbed w m →
    Patient (n.Asked w m) (n.AnsweredIn w m latency) →
    ∀ t, n.Finished w m t ↔ ∃ s, n.Asked w m s ∧ n.AnsweredIn w m latency s t

end

end Netlist

end DataflowSynth
