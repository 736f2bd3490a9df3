/-
Who owns what, in all netlists.

The three accounts of ownership agree whatever calls lead to.  Feedback points are another matter: a
buffer of a module is owned by it like a child, and is let through as a feedback point.
-/
import DataflowSynth.Proofs.Design.Consistency
import DataflowSynth.Proofs.Netlist.Ownership

namespace DataflowSynth

namespace Netlist

theorem owned_empty : (holdings {}).Owned := by
  have hat : ∀ m s d, ¬ (holdings {}).At m s d := by
    intro m s d
    cases s <;> simp [Holdings.At, holdings]
  exact {
    owns := fun m s d hd => absurd hd (hat m s d)
    placed := by simp [holdings]
    single := fun m s _ d hd => absurd hd (hat m s d)
    buffers := fun m s d hd => absurd hd (hat m s d)
    modules := fun m s d hd => absurd hd (hat m s d)
    origin := by simp [holdings]
    tags := by simp [holdings]
    nodup := by simp [holdings]
    ascending := by simp [holdings]
    feedback := by simp [holdings] }

/-- The ownership of a netlist that calls lead to. -/
theorem Reachable.owned {n : Netlist} (h : n.Reachable) : n.holdings.Owned := by
  cases h with
  | alone reached => exact (reached.guarded (G := ownership) id owned_empty).guarded
  | inDesign reached => exact (reached.guarded (G := ownership) id owned_empty).netlist.guarded

/-- `c` is the OutBuf of an exit that `x` has. -/
def IsOutBufOf (n : Netlist) (x : Component) (c : ComponentId) : Prop :=
  ∃ e ∈ x.exits.values, ∃ y, n.exits.get? e = some y ∧ y.peer = some c

/-- One of three statements holds, and no other. -/
def ExactlyOne (p q r : Prop) : Prop := (p ∧ ¬ q ∧ ¬ r) ∨ (¬ p ∧ q ∧ ¬ r) ∨ (¬ p ∧ ¬ q ∧ r)

/-- What the accounts of ownership say about each other. -/
structure Accounted (n : Netlist) : Prop where
  /-- A component is owned by the module where it has its one place. -/
  owner_iff : ∀ {c y m x i}, n.components.get? c = some y → n.IsModule m x i →
    (y.owner = some m ↔
      ExactlyOne (i.children.count c = 1) (c = i.inBuf) (n.IsOutBufOf x c))
  /-- Only modules own anything. -/
  owner_module : ∀ {c y m}, n.components.get? c = some y → y.owner = some m →
    ∃ x i, n.IsModule m x i
  nodup_children : ∀ {m x i}, n.IsModule m x i → i.children.Nodup
  one_parent : ∀ {c m x i m' x' i'}, n.IsModule m x i → n.IsModule m' x' i' →
    c ∈ i.children → c ∈ i'.children → m = m'
  inBuf_no_child : ∀ {m x i m' x' i'}, n.IsModule m x i → n.IsModule m' x' i' →
    i.inBuf ∉ i'.children
  outBuf_no_child : ∀ {c m x i m' x' i'}, n.IsModule m x i → n.IsModule m' x' i' →
    n.IsOutBufOf x c → c ∉ i'.children
  /-- A feedback point that is no buffer is a child. -/
  feedback : ∀ {c y m x i}, n.IsModule m x i → c ∈ i.feedback → n.components.get? c = some y →
    c ∈ i.children ∨ y.kind = .inBuf ∨ y.kind = .outBuf

namespace Holdings

theorem Placed.owner_iff {h : Holdings} (hp : h.Placed) (m c : ComponentId) :
    h.owner? c = some m ↔
      ExactlyOne (h.At m .child c) (h.At m .inBuf c) (∃ e, h.At m (.outBuf e) c) := by
  have hsingle : ∀ {s s'}, h.At m s c → h.At m s' c → s = s' := fun hs hs' =>
    hp.single m _ _ c hs hs'
  constructor
  · intro howner
    obtain ⟨s, hs⟩ := hp.placed m c howner
    -- The slot that `c` stands in rules the other two out.
    cases s with
    | child => exact .inl ⟨hs, fun h => (nomatch hsingle hs h), fun ⟨_, h⟩ => (nomatch hsingle hs h)⟩
    | inBuf =>
        exact .inr (.inl ⟨fun h => (nomatch hsingle hs h), hs, fun ⟨_, h⟩ => (nomatch hsingle hs h)⟩)
    | outBuf e =>
        exact .inr (.inr ⟨fun h => (nomatch hsingle hs h), fun h => (nomatch hsingle hs h), e, hs⟩)
  · rintro (⟨hs, -, -⟩ | ⟨-, hs, -⟩ | ⟨-, -, e, hs⟩) <;> exact hp.owns m _ c hs

variable {n : Netlist} {c m : ComponentId} {x y : Component} {i : Interior}

theorem at_child (hm : n.IsModule m x i) : n.holdings.At m .child c ↔ c ∈ i.children := by
  simp [At, holdings, hm.1, hm.2]

theorem at_inBuf (hm : n.IsModule m x i) : n.holdings.At m .inBuf c ↔ c = i.inBuf := by
  simp [At, holdings, hm.1, hm.2, eq_comm]

theorem at_outBuf (hm : n.IsModule m x i) :
    (∃ e, n.holdings.At m (.outBuf e) c) ↔ n.IsOutBufOf x c := by
  simp only [At, holdings, hm.1, IsOutBufOf, OrderedMap.mem_values]
  constructor
  · rintro ⟨e, ⟨t, ht⟩, hpeer⟩
    obtain ⟨y, hy, hpeer⟩ := Option.bind_eq_some_iff.mp hpeer
    exact ⟨e, ⟨(t, e), ht, rfl⟩, y, hy, hpeer⟩
  · rintro ⟨e, ⟨⟨t, e'⟩, ht, rfl⟩, y, hy, hpeer⟩
    exact ⟨e', ⟨t, ht⟩, Option.bind_eq_some_iff.mpr ⟨y, hy, hpeer⟩⟩

theorem interior?_eq (hm : n.IsModule m x i) : n.holdings.interior? m = some i := by
  simp [holdings, hm.1, hm.2]

theorem owner?_eq (hy : n.components.get? c = some y) : n.holdings.owner? c = y.owner := by
  simp [holdings, hy]

theorem Owned.accounted (ho : n.holdings.Owned) : n.Accounted := by
  have hnodup : ∀ {m x i}, n.IsModule m x i → i.children.Nodup := fun hm =>
    ho.nodup _ _ (interior?_eq hm)
  -- Two places of one component are the same.
  have hplace : ∀ {m s m' s' c}, n.holdings.At m s c → n.holdings.At m' s' c → m = m' ∧ s = s' := by
    intro m s m' s' c hs hs'
    obtain rfl := Option.some.inj ((ho.owns m s c hs).symm.trans (ho.owns m' s' c hs'))
    exact ⟨rfl, ho.single m s s' c hs hs'⟩
  refine ⟨fun {c y m x i} hy hm => ?_, fun {c y m} hy howner => ?_, hnodup,
    fun hm hm' hc hc' => (hplace ((at_child hm).mpr hc) ((at_child hm').mpr hc')).1,
    fun {m x i m' x' i'} hm hm' hc => ?_, fun hm hm' hout hc => ?_, fun hm hc hy => ?_⟩
  · have hcount : i.children.count c = 1 ↔ c ∈ i.children :=
      ⟨fun h => List.count_pos_iff.mp (by omega), List.count_eq_one_of_mem (hnodup hm)⟩
    rw [← owner?_eq hy, ho.owner_iff, at_child hm, at_inBuf hm, at_outBuf hm, hcount]
  · rw [← owner?_eq hy] at howner
    obtain ⟨s, hs⟩ := ho.placed m c howner
    obtain ⟨i, hi⟩ := Option.isSome_iff_exists.mp (ho.modules m s c hs)
    obtain ⟨x, hx, hi⟩ := Option.bind_eq_some_iff.mp hi
    exact ⟨x, i, hx, hi⟩
  · have hin : n.holdings.At m .inBuf i.inBuf := (at_inBuf hm).mpr rfl
    cases (hplace hin ((at_child hm').mpr hc)).2
  · obtain ⟨e, hout⟩ := (at_outBuf hm).mpr hout
    cases (hplace hout ((at_child hm').mpr hc)).2
  · refine (ho.feedback _ _ _ (interior?_eq hm) hc).imp id fun hkind => ?_
    simpa [IsBufferKind, holdings, hy, plain_eq_inBuf, plain_eq_outBuf] using hkind

end Holdings

/-- A component is owned by the module where it stands, in one place, whatever was done before; and
what closes a loop in a module is a child of it or a buffer. -/
theorem owner_iff_place {n : Netlist} (hn : n.Reachable) : n.Accounted := hn.owned.accounted

/-- A module with a child, which it lets go, and an exit. -/
theorem owner_iff_place_block :
    ∃ n : Netlist, n.Accounted ∧ (n.components.get? ⟨2⟩).map Component.owner = some none ∧
      (n.components.get? ⟨3⟩).map Component.owner = some (some ⟨0⟩) := by
  have hempty : Netlist.Reached False 0 {} := .empty
  have hmodule := hempty.after (.newModule .block "m" 0) (by decide) False.elim (by decide +kernel)
  have hgate := hmodule.after (.newComponent .andGate "and" 2) (by decide +kernel) False.elim
    (by decide +kernel)
  have hchild := hgate.after (.addComponent ⟨0⟩ ⟨2⟩) (by decide +kernel) False.elim
    (by decide +kernel)
  have hexit := hchild.after (.makeExit ⟨0⟩ 0 .done) (by decide +kernel) False.elim
    (by decide +kernel)
  have hgone := hexit.after (.removeComponent ⟨0⟩ ⟨2⟩) (by decide +kernel) False.elim
    (by decide +kernel)
  exact ⟨_, owner_iff_place (.alone hgone), by decide +kernel, by decide +kernel⟩

/-- The InBuf of a module is taken for a feedback point, though it is no child. -/
theorem feedback_not_child :
    ¬ ∀ n : Netlist, n.Reachable → ∀ m x i, n.IsModule m x i → ∀ c ∈ i.feedback,
      c ∈ i.children := by
  intro hall
  have hempty : Netlist.Reached False 0 {} := .empty
  have hmodule := hempty.after (.newModule .block "m" 0) (by decide) False.elim (by decide +kernel)
  have hmarked := hmodule.after (.addFeedbackPoint ⟨0⟩ ⟨1⟩) (by decide +kernel) False.elim
    (by decide +kernel)
  generalize hn : (Build.run _ _).2.state = n at hmarked
  have hlists : ((n.components.get? ⟨0⟩).bind Component.interior).map
      (fun i => (i.feedback, i.children)) = some ([⟨1⟩], []) := by
    subst hn
    decide +kernel
  obtain ⟨i, hi, heq⟩ := Option.map_eq_some_iff.mp hlists
  obtain ⟨x, hx, hi⟩ := Option.bind_eq_some_iff.mp hi
  obtain ⟨hfeedback, hchildren⟩ := Prod.mk.inj heq
  have hchild := hall n (.alone hmarked) ⟨0⟩ x i ⟨hx, hi⟩ ⟨1⟩ (by simp [hfeedback])
  simp [hchildren] at hchild

end Netlist

end DataflowSynth
