/-
Handshakes one after the other.

In a relay the first stage is started from outside, and each of the others when the one before it is
done.  A stage is done in the very cycle in which it is started if its other side is ready then, so a
signal may run through several stages in one cycle.
-/
import DataflowSynth.Proofs.Circuit.Basic
import Mathlib.Data.Finset.Card

namespace DataflowSynth.Handshake

variable {go last stored pending ready done : Nat → Prop}

/-! ### Once at most -/

/-- It happens in no more than one cycle. -/
def AtMostOnce (p : Nat → Prop) : Prop := ∀ s t, p s → p t → s = t

/-- Nothing is served that was not asked for before. -/
theorem Waits.asked (h : Waits go stored pending ready done) {t : Nat} (ht : done t) :
    ∃ r ≤ t, go r := by
  obtain ⟨-, r, hr, hgo, -⟩ := (h.done_iff t).mp ht
  exact ⟨r, hr, hgo⟩

/-- What is asked for once is served once. -/
theorem Waits.once (h : Waits go stored pending ready done) (hgo : AtMostOnce go) :
    AtMostOnce done := by
  have hnot : ∀ s t, s < t → done s → ¬ done t := by
    intro s t hlt hs ht
    obtain ⟨-, r, -, hr, hopen⟩ := (h.done_iff t).mp ht
    obtain ⟨r', hle, hr'⟩ := h.asked hs
    exact hopen s (hgo r r' hr hr' ▸ hle) hlt hs
  intro s t hs ht
  rcases Nat.lt_trichotomy s t with hlt | rfl | hlt
  · exact absurd ht (hnot s t hlt hs)
  · rfl
  · exact absurd hs (hnot t s hlt ht)

/-- A request is served at once if the other side is ready. -/
theorem Waits.at_once (h : Waits go stored pending ready done) {t : Nat} (hgo : go t)
    (hready : ready t) : done t :=
  (h.ends t).mpr ⟨(h.waits t).mpr (.inr hgo), hready⟩

/-! ### Counting cycles -/

open Classical in
/-- The cycles up to `t` in which it happens. -/
noncomputable def cyclesOf (p : Nat → Prop) (t : Nat) : Finset Nat := (Finset.range (t + 1)).filter p

/-- How often it happens up to `t`. -/
noncomputable def cycles (p : Nat → Prop) (t : Nat) : Nat := (cyclesOf p t).card

theorem mem_cyclesOf {p : Nat → Prop} {r t : Nat} : r ∈ cyclesOf p t ↔ r ≤ t ∧ p r := by
  simp only [cyclesOf, Finset.mem_filter, Finset.mem_range, Nat.lt_succ_iff]

theorem cycles_pos {p : Nat → Prop} {r t : Nat} (hr : p r) (hle : r ≤ t) : 0 < cycles p t :=
  Finset.card_pos.mpr ⟨r, mem_cyclesOf.mpr ⟨hle, hr⟩⟩

theorem AtMostOnce.cycles_le {p : Nat → Prop} (h : AtMostOnce p) (t : Nat) : cycles p t ≤ 1 :=
  Finset.card_le_one.mpr fun r hr s hs => h r s (mem_cyclesOf.mp hr).2 (mem_cyclesOf.mp hs).2

/-- Things that each happen once happen in no more cycles than there are things. -/
theorem cycles_exists_le {α : Type} {P : α → Nat → Prop} (xs : List α)
    (h : ∀ x ∈ xs, AtMostOnce (P x)) (t : Nat) : cycles (fun r => ∃ x ∈ xs, P x r) t ≤ xs.length := by
  induction xs with
  | nil => simp [cycles, cyclesOf]
  | cons x xs ih =>
      have hone : (cyclesOf (P x) t).card ≤ 1 := (h x (by simp)).cycles_le t
      have hrest : (cyclesOf (fun r => ∃ y ∈ xs, P y r) t).card ≤ xs.length :=
        ih fun y hy => h y (by simp [hy])
      have hsub : cyclesOf (fun r => ∃ y ∈ x :: xs, P y r) t ⊆
          cyclesOf (P x) t ∪ cyclesOf (fun r => ∃ y ∈ xs, P y r) t := by
        intro r hr
        obtain ⟨hle, hr⟩ := mem_cyclesOf.mp hr
        rw [Finset.mem_union, mem_cyclesOf, mem_cyclesOf]
        rcases List.exists_mem_cons_iff .. |>.mp hr with hr | hr
        · exact .inl ⟨hle, hr⟩
        · exact .inr ⟨hle, hr⟩
      have hcard := Finset.card_le_card hsub
      have hunion := Finset.card_union_le (cyclesOf (P x) t) (cyclesOf (fun r => ∃ y ∈ xs, P y r) t)
      rw [List.length_cons]
      show (cyclesOf _ t).card ≤ _
      omega

/-! ### Relays -/

/-- What a stage remembers, whether its request is open, whether the other side is ready, and whether
the request is served. -/
structure Stage where
  stored : Nat → Prop
  pending : Nat → Prop
  ready : Nat → Prop
  done : Nat → Prop

/-- The stages are started one after the other; `last` is the done of the last one. -/
def Relay : (go : Nat → Prop) → List Stage → (last : Nat → Prop) → Prop
  | go, [], last => last = go
  | go, s :: ss, last => Waits go s.stored s.pending s.ready s.done ∧ Relay s.done ss last

namespace Relay

variable {ss : List Stage}

theorem once (h : Relay go ss last) (hgo : AtMostOnce go) :
    AtMostOnce last ∧ ∀ s ∈ ss, AtMostOnce s.done := by
  induction ss generalizing go with
  | nil =>
      obtain rfl : last = go := h
      exact ⟨hgo, by simp⟩
  | cons s ss ih =>
      have hs := h.1.once hgo
      obtain ⟨hlast, hrest⟩ := ih h.2 hs
      exact ⟨hlast, List.forall_mem_cons.mpr ⟨hs, hrest⟩⟩

/-- The last stage is done after all others. -/
theorem passed (h : Relay go ss last) {t : Nat} (ht : last t) :
    (∃ r ≤ t, go r) ∧ ∀ s ∈ ss, ∃ r ≤ t, s.done r := by
  induction ss generalizing go with
  | nil =>
      obtain rfl : last = go := h
      exact ⟨⟨t, Nat.le_refl t, ht⟩, by simp⟩
  | cons s ss ih =>
      obtain ⟨⟨r, hr, hs⟩, hrest⟩ := ih h.2
      obtain ⟨q, hq, hgo⟩ := h.1.asked hs
      exact ⟨⟨q, Nat.le_trans hq hr, hgo⟩, List.forall_mem_cons.mpr ⟨⟨r, hr, hs⟩, hrest⟩⟩

/-- If every side is ready, a request runs through all stages in one cycle. -/
theorem at_once (h : Relay go ss last) {t : Nat} (hgo : go t) (hready : ∀ s ∈ ss, s.ready t) :
    last t := by
  induction ss generalizing go with
  | nil =>
      obtain rfl : last = go := h
      exact hgo
  | cons s ss ih =>
      exact ih h.2 (h.1.at_once hgo (hready s (by simp))) fun r hr => hready r (by simp [hr])

/-- When a relay that was started once is through, some of its stages were done in no more cycles than
there are such stages, but in one at least. -/
theorem cycles_done {α : Type} {us vs : List α} {stage : α → Stage}
    (h : Relay go (us.map stage) last) (hgo : AtMostOnce go) {t : Nat} (ht : last t) (hvs : vs ⊆ us) :
    cycles (fun r => ∃ v ∈ vs, (stage v).done r) t ≤ vs.length ∧
      (0 < vs.length → 0 < cycles (fun r => ∃ v ∈ vs, (stage v).done r) t) := by
  have hmem : ∀ v ∈ vs, stage v ∈ us.map stage := fun v hv => List.mem_map_of_mem (hvs hv)
  refine ⟨cycles_exists_le vs (fun v hv => (h.once hgo).2 _ (hmem v hv)) t, fun hpos => ?_⟩
  obtain ⟨v, hv⟩ := List.exists_mem_of_length_pos hpos
  obtain ⟨r, hr, hdone⟩ := (h.passed ht).2 _ (hmem v hv)
  exact cycles_pos (p := fun r => ∃ v ∈ vs, (stage v).done r) ⟨v, hv, hdone⟩ hr

/-- Stages that come one directly after the other and wait for the same are done together. -/
theorem together {s : Stage} (h : Relay go (s :: ss) last) (hgo : AtMostOnce go)
    (hready : ∀ u ∈ ss, u.ready = s.ready) {u : Stage} (hu : u ∈ ss) (t : Nat) :
    u.done t ↔ s.done t := by
  induction ss generalizing go s with
  | nil => exact absurd hu List.not_mem_nil
  | cons s' ss ih =>
      obtain ⟨hfirst, hrest⟩ := List.forall_mem_cons.mp hready
      have hdone := h.1.once hgo
      have hnext : ∀ r, s.done r → s'.done r := fun r hr =>
        h.2.1.at_once hr (hfirst ▸ ((h.1.ends r).mp hr).2)
      have hsame : s'.done t ↔ s.done t := by
        refine ⟨fun ht => ?_, hnext t⟩
        obtain ⟨r, -, hr⟩ := h.2.1.asked ht
        exact h.2.1.once hdone r t (hnext r hr) ht ▸ hr
      rcases List.mem_cons.mp hu with rfl | hu
      · exact hsame
      · exact (ih h.2 hdone (fun v hv => (hrest v hv).trans hfirst.symm) hu).trans hsame

/-- What comes behind a relay does not matter for it. -/
theorem drop {ss' : List Stage} (h : Relay go (ss ++ ss') last) :
    ∃ mid, Relay go ss mid ∧ Relay mid ss' last := by
  induction ss generalizing go with
  | nil => exact ⟨go, rfl, h⟩
  | cons s ss ih =>
      obtain ⟨mid, hss, hss'⟩ := ih h.2
      exact ⟨mid, ⟨h.1, hss⟩, hss'⟩

end Relay

end DataflowSynth.Handshake
