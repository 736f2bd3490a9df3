/-
Cloning after an exit has been removed.

The OutBuf of the exit goes, and with it its ports; the exit goes, and with it its buses.  All else in
the tree is as it was: the modules, their children, their marks, what drives the ports and what the
entries name.  So a component that could be cloned before still can be, unless something inside names
the exit or its OutBuf.
-/
import DataflowSynth.Proofs.Clone.Isomorphism
import DataflowSynth.Proofs.Design.Withdrawal
import DataflowSynth.Proofs.Netlist.Overlay

namespace DataflowSynth.Netlist

open Build Relation

variable {pins : Nat} {n n' : Netlist} {a c d m : ComponentId} {x y : Component} {tag : ExitTag}
  {e : ExitId} {w : Exit} {ps : List PortId}

/-! ### When a component can be cloned -/

/-- A module is no InBuf. -/
theorem Whole.not_isInBuf (hw : Whole pins n) {i : Interior} (hx : n.components.get? c = some x)
    (hi : x.interior = some i) : ¬ IsInBuf {} n c := by
  intro hin
  rw [hw.shaped.interior_of_isBuffer (.inl hin) hx] at hi
  cases hi

/-- The check passes exactly on a tree of modules with nothing in it that may not be copied. -/
theorem wp_checkCopyable_iff (hl : Linked pins {} n) (hlt : c.index < n.components.size)
    (journal : Journal) : wp (checkCopyable n.components.size c)
      (fun _ t => t = ⟨n, journal⟩ ∧ n.ModuleTree c ∧ ∀ d, n.Descendant c d → ¬ n.Uncopyable d)
      (fun _ _ => ¬ (n.ModuleTree c ∧ ∀ d, n.Descendant c d → ¬ n.Uncopyable d)) ⟨n, journal⟩ := by
  have hcheck := wp_iff (s := ⟨n, journal⟩)
    (P := n.ModuleTree c ∧ ∀ d, n.Descendant c d → ¬ n.Uncopyable d)
    (fun hall => wp_mono (wp_checkCopyable hl hlt hall.1 (nestedBy_of_acc
      (fun m d => hl.child_lt) hall.1.finite hlt)) (fun _ _ h => h)
      fun _ _ ⟨_, ⟨d, hd, hbad⟩, _⟩ => hall.2 d hd hbad)
    (wp_mono checkCopyable_needs (fun _ _ h => h.2) fun _ _ h => h)
  exact wp_mono hcheck (fun _ t h => ⟨h.1.1, h.2⟩) fun _ _ h => h

/-- A clone is made of what can be duplicated only, and its refusal shows that this one cannot: by an
abort, if the check has nothing against it. -/
theorem wp_clone (hw : Whole pins n) (hlt : c.index < n.components.size) (hplain : ¬ IsInBuf {} n c)
    (journal : Journal) : wp (clone c) (fun _ _ => Duplicable n c)
      (fun f _ => ¬ Duplicable n c ∧ (n.ModuleTree c → (∀ d, n.Descendant c d → ¬ n.Uncopyable d) →
        ∃ a, f = .abort a)) ⟨n, journal⟩ := by
  rw [clone, cloneWith_eq, wp_bind, wp_look, wp_bind]
  refine wp_mono (wp_checkCopyable_iff hw.linked hlt journal) (fun _ t hpassed => ?_) ?_
  · obtain ⟨rfl, htree, hcopyable⟩ := hpassed
    refine wp_mono (wp_and (copyWith_spec hw hlt (htree.cloneable hw hplain))
      (wp_copy hw.linked _ c)) ?_ ?_
    · rintro _ _ ⟨⟨-, hmarked, henclosed, hbinds⟩, -⟩
      exact ⟨htree, hcopyable, hmarked, henclosed, hbinds⟩
    · rintro _ _ ⟨hnot, habort⟩
      exact ⟨fun hall => hnot ⟨hall.marked, hall.enclosed, hall.binds⟩, fun _ _ => habort⟩
  · exact fun _ _ hnot => ⟨fun hall => hnot ⟨hall.tree, hall.copyable⟩,
      fun htree hcopyable => absurd ⟨htree, hcopyable⟩ hnot⟩

/-- A component that is no InBuf is cloned exactly if it can be. -/
theorem clone_ok_iff (hw : Whole pins n) (hlt : c.index < n.components.size)
    (hplain : ¬ IsInBuf {} n c) (journal : Journal) :
    (∃ r t, clone c ⟨n, journal⟩ = .ok r t) ↔ Duplicable n c :=
  have hspec := wp_clone hw hlt hplain journal
  ⟨fun ⟨_, _, hrun⟩ => of_wp_ok hspec hrun, (ok_or_error_of_wp hspec).1⟩

theorem SelfContained.duplicable (h : SelfContained n c) (hc : Coherent n c) (hw : Whole pins n)
    (hlt : c.index < n.components.size) : Duplicable n c where
  tree := h.moduleTree
  copyable d hd := h.copyable d hd.part
  marked := markedTo_of_forall (hw.nested h.finite hlt) fun _ K hd => h.markable hc K hd
  enclosed := h.enclosed
  binds := hc.binds

/-! ### What is left -/

/-- The bus is one of the exit. -/
def BusAt (n : Netlist) (e : ExitId) (b : BusId) : Prop :=
  ∃ w, n.exits.get? e = some w ∧ b ∈ w.buses

@[simp] theorem Component.kind_bereft (x : Component) (c : ComponentId) (tag : ExitTag)
    (o? : Option ComponentId) (d : ComponentId) : (x.bereft c tag o? d).kind = x.kind := rfl

@[simp] theorem Component.interior_bereft (x : Component) (c : ComponentId) (tag : ExitTag)
    (o? : Option ComponentId) (d : ComponentId) : (x.bereft c tag o? d).interior = x.interior := rfl

@[simp] theorem Component.ports_bereft (x : Component) (c : ComponentId) (tag : ExitTag)
    (o? : Option ComponentId) (d : ComponentId) : (x.bereft c tag o? d).ports = x.ports := rfl

@[simp] theorem Component.entries_bereft (x : Component) (c : ComponentId) (tag : ExitTag)
    (o? : Option ComponentId) (d : ComponentId) : (x.bereft c tag o? d).entries = x.entries := rfl

/-- The exit `e` of `c` has been taken off, in a netlist in which everything has its shape. -/
structure Removal (pins : Nat) (n : Netlist) (c : ComponentId) (y : Component) (tag : ExitTag)
    (e : ExitId) (w : Exit) (ps : List PortId) (n' : Netlist) : Prop
    extends TakenOff n c tag e w ps n' where
  whole : Whole pins n
  source : n.components.get? c = some y
  found : y.exits.find? tag = some e
  current : n.exits.get? e = some w

namespace Removal

variable (h : Removal pins n c y tag e w ps n')

include h

theorem size_eq : n'.components.size = n.components.size :=
  Arena.size_eq_of_isSome fun d => by rw [h.components, Option.isSome_map]

theorem component (hx : n.components.get? d = some x) :
    n'.components.get? d = some (x.bereft c tag w.peer d) := by
  rw [h.components, hx, Option.map_some]

theorem exists_component {x' : Component} (hx : n'.components.get? d = some x') :
    ∃ x, n.components.get? d = some x ∧ x' = x.bereft c tag w.peer d := by
  rw [h.components] at hx
  obtain ⟨x, hx, heq⟩ := Option.map_eq_some_iff.mp hx
  exact ⟨x, hx, heq.symm⟩

theorem exits_of_ne {f : ExitId} (hf : f ≠ e) : n'.exits.get? f = n.exits.get? f := by
  rw [h.exits]
  simp [hf]

/-- Every component has the exits that it had, but for the one. -/
theorem mem_values (hx : n.components.get? d = some x) {f : ExitId} :
    f ∈ (x.bereft c tag w.peer d).exits.values ↔ f ∈ x.exits.values ∧ f ≠ e := by
  have hshaped := h.whole.shaped.components d x hx (Nat.zero_le _)
  by_cases hd : d = c
  · subst hd
    cases h.source.symm.trans hx
    simp only [Component.bereft, if_true]
    refine ⟨fun hf => ⟨OrderedMap.mem_values_erase hf, ?_⟩, fun hf =>
      OrderedMap.mem_values_erase_of_ne hshaped.tags h.found hf.1 hf.2⟩
    rintro rfl
    have hnodup := h.whole.linked.nodup_exits hx (Nat.zero_le _) hshaped.tags
    exact OrderedMap.not_mem_values_erase hnodup h.found hf
  · simp only [Component.bereft, if_neg hd]
    refine ⟨fun hf => ⟨hf, ?_⟩, And.left⟩
    rintro rfl
    have howner := h.whole.linked.owner_of_listed h.source (Nat.zero_le _)
      (OrderedMap.mem_values_of_find? h.found) h.current
    exact hd ((h.whole.linked.owner_of_listed hx (Nat.zero_le _) hf h.current).symm.trans howner)

/-! ### The OutBuf -/

theorem outBuf (ho : n.OutBufAt e d) : IsOutBuf {} n d ∧ ∃ z, n.components.get? d = some z ∧
    z.interior = none ∧ z.exits.entries = [] := by
  obtain ⟨v, hv, hpeer⟩ := ho
  obtain ⟨z, hz, hout⟩ := (h.whole.shaped.exits e v hv (Nat.zero_le _)).outBuf d hpeer
  exact ⟨⟨e, v, hv, Nat.zero_le _, hpeer⟩, z, hz, hout.interior, hout.exits⟩

/-- What is a module is not the OutBuf. -/
theorem not_outBufAt {i : Interior} (hx : n.components.get? d = some x) (hi : x.interior = some i) :
    ¬ n.OutBufAt e d := by
  intro ho
  obtain ⟨-, z, hz, hflat, -⟩ := h.outBuf ho
  cases hx.symm.trans hz
  rw [hi] at hflat
  cases hflat

theorem mem_cut {p : PortId} {v : Port} (hv : n.ports.get? p = some v) :
    p ∈ ps ↔ n.PortAt e p := by
  rw [h.cut p v hv]
  constructor
  · rintro ⟨o, z, ho, hz, hp | ⟨b, -, f, hf, -⟩⟩
    · exact ⟨o, z, ⟨w, h.current, ho⟩, hz, hp⟩
    · -- An OutBuf has no exits.
      obtain ⟨-, z', hz', -, hexits⟩ := h.outBuf ⟨w, h.current, ho⟩
      cases hz.symm.trans hz'
      simp [OrderedMap.values, hexits] at hf
  · rintro ⟨o, z, ho, hz, hp⟩
    exact ⟨o, z, (outBufAt_iff h.current).mp ho, hz, .inl hp⟩

/-! ### The tree -/

theorem child_eq : n'.Child = n.Child := by
  funext a d
  refine propext ⟨?_, ?_⟩
  · rintro ⟨x', i, hx', hkind, hi, hd⟩
    obtain ⟨x, hx, rfl⟩ := h.exists_component hx'
    exact ⟨x, i, hx, hkind, hi, hd⟩
  · rintro ⟨x, i, hx, hkind, hi, hd⟩
    exact ⟨_, i, h.component hx, hkind, hi, hd⟩

theorem descendant_eq : n'.Descendant = n.Descendant := congrArg ReflTransGen h.child_eq

theorem uncopyable_iff : n'.Uncopyable d ↔ n.Uncopyable d := by
  constructor
  · rintro ⟨x', hx', hbad⟩
    obtain ⟨x, hx, rfl⟩ := h.exists_component hx'
    exact ⟨x, hx, hbad⟩
  · rintro ⟨x, hx, hbad⟩
    exact ⟨_, h.component hx, hbad⟩

theorem moduleTree (hm : n.ModuleTree m) : n'.ModuleTree m where
  finite := h.child_eq ▸ hm.finite
  modules d x' hd hx' hkind := by
    obtain ⟨x, hx, rfl⟩ := h.exists_component hx'
    exact hm.modules d x (h.descendant_eq ▸ hd) hx hkind

/-- A module owns what it owned, but for the OutBuf. -/
theorem kid_iff : Kid n' a d ↔ Kid n a d ∧ ¬ n.OutBufAt e d := by
  constructor
  · rintro ⟨x', i, hx', hi, hk⟩
    obtain ⟨x, hx, rfl⟩ := h.exists_component hx'
    refine ⟨⟨x, i, hx, hi, hk.imp id (Or.imp id ?_)⟩, fun ho => ?_⟩
    · rintro ⟨f, hf, v, hv, hpeer⟩
      obtain ⟨hf, hne⟩ := (h.mem_values hx).mp hf
      exact ⟨f, hf, v, h.exits_of_ne hne ▸ hv, hpeer⟩
    · obtain ⟨hout, -⟩ := h.outBuf ho
      rcases hk with hd | rfl | ⟨f, hf, v, hv, hpeer⟩
      · exact h.whole.shaped.not_isBuffer_of_child hx (Nat.zero_le _) hi hd (.inr hout)
      · exact h.whole.shaped.not_isOutBuf ⟨a, x, i, hx, Nat.zero_le _, hi, rfl⟩ hout
      · obtain ⟨-, hne⟩ := (h.mem_values hx).mp hf
        rw [h.exits_of_ne hne] at hv
        obtain ⟨u, hu, hpeer'⟩ := ho
        exact hne (h.whole.shaped.outBuf_inj h.whole.linked hv (Nat.zero_le _) hpeer hu
          (Nat.zero_le _) hpeer')
  · rintro ⟨⟨x, i, hx, hi, hk⟩, ho⟩
    refine ⟨_, i, h.component hx, hi, hk.imp id (Or.imp id ?_)⟩
    rintro ⟨f, hf, v, hv, hpeer⟩
    have hne : f ≠ e := by
      rintro rfl
      exact ho ⟨v, hv, hpeer⟩
    exact ⟨f, (h.mem_values hx).mpr ⟨hf, hne⟩, v, (h.exits_of_ne hne).trans hv, hpeer⟩

theorem part_iff (ha : ¬ n.OutBufAt e a) : Part n' a d ↔ Part n a d ∧ ¬ n.OutBufAt e d := by
  constructor
  · intro hpart
    induction hpart with
    | self => exact ⟨.self, ha⟩
    | kid _ hkid ih =>
        obtain ⟨hkid, ho⟩ := h.kid_iff.mp hkid
        exact ⟨ih.1.kid hkid, ho⟩
  · rintro ⟨hpart, ho⟩
    induction hpart with
    | self => exact .self
    | kid _ hkid ih =>
        obtain ⟨x, i, hx, hi, -⟩ := id hkid
        exact (ih (h.not_outBufAt hx hi)).kid (h.kid_iff.mpr ⟨hkid, ho⟩)

/-! ### The marks -/

end Removal

/-- Nothing that is marked in the component is the OutBuf of the exit. -/
structure Unmarks (n : Netlist) (e : ExitId) (d : ComponentId) : Prop where
  feedback : ∀ x i, n.components.get? d = some x → x.interior = some i → ∀ o ∈ i.feedback,
    ¬ n.OutBufAt e o
  body : ∀ x body, n.components.get? d = some x → x.kind = .module (.task body) →
    ¬ n.OutBufAt e body

namespace Removal

variable (h : Removal pins n c y tag e w ps n') {K : ComponentId → Prop}

include h

theorem markable_iff (hd : ¬ n.OutBufAt e d) (hmark : Markable n K d) :
    Markable n' (fun f => K f ∧ ¬ n.OutBufAt e f) d ↔ n.Unmarks e d := by
  constructor
  · intro hmark'
    refine ⟨fun x i hx hi o ho => ?_, fun x body hx hkind => ?_⟩
    · exact (h.kid_iff.mp (hmark'.feedback _ i (h.component hx) hi o ho)).2
    · exact (hmark'.body _ body (h.component hx) hkind).elim And.right fun hpart =>
        ((h.part_iff hd).mp hpart).2
  · intro hun
    refine ⟨fun x' i hx' hi o ho => ?_, fun x' body hx' hkind => ?_⟩
    · obtain ⟨x, hx, rfl⟩ := h.exists_component hx'
      exact h.kid_iff.mpr ⟨hmark.feedback x i hx hi o ho, hun.feedback x i hx hi o ho⟩
    · obtain ⟨x, hx, rfl⟩ := h.exists_component hx'
      have hnot := hun.body x body hx hkind
      exact (hmark.body x body hx hkind).imp (fun hK => ⟨hK, hnot⟩) fun hpart =>
        (h.part_iff hd).mpr ⟨hpart, hnot⟩

theorem inOrder_iff {G G' : (ComponentId → Prop) → ComponentId → Prop} {P : ComponentId → Prop}
    {ds : List ComponentId} (hds : ∀ d ∈ ds, ¬ n.OutBufAt e d)
    (hG : ∀ d ∈ ds, ∀ K, G K d → (G' (fun f => K f ∧ ¬ n.OutBufAt e f) d ↔ P d))
    (hall : InOrder n G K ds) :
    InOrder n' G' (fun f => K f ∧ ¬ n.OutBufAt e f) ds ↔ ∀ d ∈ ds, P d := by
  induction ds generalizing K with
  | nil => exact ⟨fun _ => by simp, fun _ => trivial⟩
  | cons d ds ih =>
      have hlater : (fun f => (K f ∧ ¬ n.OutBufAt e f) ∨ Part n' d f) =
          fun f => (K f ∨ Part n d f) ∧ ¬ n.OutBufAt e f := by
        funext f
        rw [h.part_iff (hds d (by simp)), ← or_and_right]
      rw [List.forall_mem_cons, ← hG d (by simp) K hall.1,
        ← ih (fun f hf => hds f (by simp [hf])) (fun f hf => hG f (by simp [hf])) hall.2, ← hlater]
      rfl

/-- A tree that was marked as it should be still is, unless the OutBuf is marked in it. -/
theorem markedTo_iff {depth : Nat} (hlt : m.index < n.components.size) (hm : ¬ n.OutBufAt e m)
    (hmarked : MarkedTo n depth K m) : MarkedTo n' depth (fun f => K f ∧ ¬ n.OutBufAt e f) m ↔
      ∀ d, n.Descendant m d → n.Unmarks e d := by
  induction depth generalizing m K with
  | zero => exact hmarked.elim
  | succ depth ih =>
      obtain ⟨x, hx⟩ := Arena.exists_get? hlt
      have hchild : ∀ {k}, k ∈ x.children ↔ Child n m k := by
        intro k
        rw [Component.mem_children]
        constructor
        · rintro ⟨i, hi, hk⟩
          have hinterior := (h.whole.shaped.components m x hx (Nat.zero_le _)).interior i hi
          exact ⟨x, i, hx, hinterior.kind, hi, hk⟩
        · rintro ⟨z, i, hz, -, hi, hk⟩
          cases hx.symm.trans hz
          exact ⟨i, hi, hk⟩
      have hds : ∀ k ∈ x.children, ¬ n.OutBufAt e k := by
        intro k hk ho
        obtain ⟨z, i, hz, -, hi, hk⟩ := hchild.mp hk
        exact h.whole.shaped.not_isBuffer_of_child hz (Nat.zero_le _) hi hk (.inr (h.outBuf ho).1)
      have hkids := h.inOrder_iff (P := fun k => ∀ d, n.Descendant k d → n.Unmarks e d) hds
        (fun k hk _ hK => ih (h.whole.linked.child_lt (hchild.mp hk)) (hds k hk) hK) (hmarked.2 x hx)
      rw [MarkedTo, h.markable_iff hm hmarked.1]
      constructor
      · rintro ⟨hself, hrest⟩ d hd
        rcases ReflTransGen.cases_head hd with rfl | ⟨k, hk, hkd⟩
        · exact hself
        · exact hkids.mp (hrest (x.bereft c tag w.peer m) (h.component hx)) k (hchild.mpr hk) d hkd
      · refine fun hall => ⟨hall m .refl, fun x' hx' => ?_⟩
        cases (h.component hx).symm.trans hx'
        exact hkids.mpr fun k hk d hd => hall d (hd.head (hchild.mp hk))

/-! ### The connections -/

/-- A port belongs to one component only. -/
theorem portAt_iff {p : PortId} (hx : n.components.get? d = some x) (hp : p ∈ x.ports) :
    n.PortAt e p ↔ n.OutBufAt e d := by
  refine ⟨fun ⟨o, z, ho, hz, hpz⟩ => ?_, fun ho => ⟨d, x, ho, hx, hp⟩⟩
  have hlx := h.whole.linked.components d x hx (Nat.zero_le _)
  obtain ⟨v, hv⟩ := Arena.exists_get? ((Component.forall_refs.mp hlx.refs).2.1 p hp).2
  obtain rfl : d = o := (hlx.ports p hp v hv).symm.trans
    ((h.whole.linked.components o z hz (Nat.zero_le _)).ports p hpz v hv)
  exact ho

section

variable (hm : ¬ n.OutBufAt e m)

include hm

theorem exitInside_iff {f : ExitId} : ExitInside n' m f ↔ ExitInside n m f ∧ f ≠ e := by
  constructor
  · rintro ⟨d, x', hd, hx', hf⟩
    obtain ⟨x, hx, rfl⟩ := h.exists_component hx'
    obtain ⟨hf, hne⟩ := (h.mem_values hx).mp hf
    exact ⟨⟨d, x, ((h.part_iff hm).mp hd).1, hx, hf⟩, hne⟩
  · rintro ⟨⟨d, x, hd, hx, hf⟩, hne⟩
    refine ⟨d, _, (h.part_iff hm).mpr ⟨hd, fun ho => ?_⟩, h.component hx,
      (h.mem_values hx).mpr ⟨hf, hne⟩⟩
    obtain ⟨-, z, hz, -, hexits⟩ := h.outBuf ho
    cases hx.symm.trans hz
    simp [OrderedMap.values, hexits] at hf

theorem busInside_iff {b : BusId} : BusInside n' m b ↔ BusInside n m b ∧ ¬ n.BusAt e b := by
  constructor
  · rintro ⟨f, v, hf, hv, hb⟩
    obtain ⟨hf, hne⟩ := (h.exitInside_iff hm).mp hf
    rw [h.exits_of_ne hne] at hv
    refine ⟨⟨f, v, hf, hv, hb⟩, fun ⟨u, hu, hbu⟩ => hne ?_⟩
    -- A bus belongs to one exit only.
    have hlv := h.whole.linked.exits f v hv (Nat.zero_le _)
    obtain ⟨z, hz⟩ := Arena.exists_get? ((Exit.forall_refs.mp hlv.refs).2.1 b hb).2
    exact (hlv.buses b hb z hz).symm.trans
      ((h.whole.linked.exits e u hu (Nat.zero_le _)).buses b hbu z hz)
  · rintro ⟨⟨f, v, hf, hv, hb⟩, hnot⟩
    have hne : f ≠ e := by
      rintro rfl
      exact hnot ⟨v, hv, hb⟩
    exact ⟨f, v, (h.exitInside_iff hm).mpr ⟨hf, hne⟩, (h.exits_of_ne hne).trans hv, hb⟩

theorem portInside_iff {p : PortId} : PortInside n' m p ↔ PortInside n m p ∧ ¬ n.PortAt e p := by
  constructor
  · rintro ⟨d, x', hd, hx', hp⟩
    obtain ⟨x, hx, rfl⟩ := h.exists_component hx'
    obtain ⟨hd, ho⟩ := (h.part_iff hm).mp hd
    exact ⟨⟨d, x, hd, hx, hp⟩, mt (h.portAt_iff hx hp).mp ho⟩
  · rintro ⟨⟨d, x, hd, hx, hp⟩, hnot⟩
    exact ⟨d, _, (h.part_iff hm).mpr ⟨hd, mt (h.portAt_iff hx hp).mpr hnot⟩, h.component hx, hp⟩

theorem within_iff {x' : Component} : Within n' m d x' ↔
    ∃ x, Within n m d x ∧ ¬ n.OutBufAt e d ∧ x' = x.bereft c tag w.peer d := by
  constructor
  · rintro ⟨hd, hne, hx'⟩
    obtain ⟨x, hx, heq⟩ := h.exists_component hx'
    obtain ⟨hd, ho⟩ := (h.part_iff hm).mp hd
    exact ⟨x, ⟨hd, hne, hx⟩, ho, heq⟩
  · rintro ⟨x, ⟨hd, hne, hx⟩, ho, rfl⟩
    exact ⟨(h.part_iff hm).mpr ⟨hd, ho⟩, hne, h.component hx⟩

end

end Removal

/-- The entry is driven by the exit, depends on one of its buses, or binds a port of its OutBuf. -/
def Involves (n : Netlist) (e : ExitId) (v : Entry) : Prop :=
  v.drivingExit = some e ∨ ∃ a ∈ v.toList, n.PortAt e a.1 ∨ n.BusAt e a.2.bus

/-- Nothing that `m` owns needs the exit or its OutBuf, but for the OutBuf. -/
structure Unneeded (n : Netlist) (m : ComponentId) (e : ExitId) : Prop where
  ports : ∀ d x, Within n m d x → ¬ n.OutBufAt e d → ∀ p ∈ x.ports, ¬ n.ExitDrives e p
  entries : ∀ d x, Within n m d x → ¬ n.OutBufAt e d → ∀ i ∈ x.entries, ∀ v,
    n.entries.get? i = some v → ¬ n.Involves e v
  marks : ∀ d, n.Descendant m d → n.Unmarks e d

namespace Removal

variable (h : Removal pins n c y tag e w ps n') (hm : ¬ n.OutBufAt e m)

include h hm

theorem enclosed (henclosed : Enclosed n m) (hun : n.Unneeded m e) : Enclosed n' m where
  drivers d x' hx' p hp v' hv' b hb := by
    obtain ⟨x, hx, ho, rfl⟩ := (h.within_iff hm).mp hx'
    rw [h.ports] at hv'
    obtain ⟨v, hv, rfl⟩ := Option.map_eq_some_iff.mp hv'
    split at hb
    · cases hb
    · refine (h.busInside_iff hm).mpr ⟨henclosed.drivers d x hx p hp v hv b hb, ?_⟩
      rintro ⟨u, hu, hbu⟩
      exact hun.ports d x hx ho p hp ⟨v, b, u, hv, hb, hu, hbu⟩
  exits d x' hx' i hi v hv f hf := by
    obtain ⟨x, hx, ho, rfl⟩ := (h.within_iff hm).mp hx'
    rw [h.entries] at hv
    refine (h.exitInside_iff hm).mpr ⟨henclosed.exits d x hx i hi v hv f hf, ?_⟩
    rintro rfl
    exact hun.entries d x hx ho i hi v hv (.inl hf)
  dependencies d x' hx' i hi v hv a ha := by
    obtain ⟨x, hx, ho, rfl⟩ := (h.within_iff hm).mp hx'
    rw [h.entries] at hv
    exact (h.busInside_iff hm).mpr ⟨henclosed.dependencies d x hx i hi v hv a ha, fun hbus =>
      hun.entries d x hx ho i hi v hv (.inr ⟨a, ha, .inr hbus⟩)⟩

theorem bindsInside (hbinds : BindsInside n m) (hun : n.Unneeded m e) : BindsInside n' m := by
  intro d x' hx' i hi v hv a ha
  obtain ⟨x, hx, ho, rfl⟩ := (h.within_iff hm).mp hx'
  rw [h.entries] at hv
  exact (h.portInside_iff hm).mpr ⟨hbinds d x hx i hi v hv a ha, fun hport =>
    hun.entries d x hx ho i hi v hv (.inr ⟨a, ha, .inl hport⟩)⟩

theorem unneeded (henclosed : Enclosed n' m) (hbinds : BindsInside n' m)
    (hmarks : ∀ d, n.Descendant m d → n.Unmarks e d) : n.Unneeded m e where
  ports d x hx ho p hp hdrives := by
    obtain ⟨v, b, u, hv, hb, hu, hmem⟩ := hdrives
    have hcut : p ∉ ps := mt (h.mem_cut hv).mp (mt (h.portAt_iff hx.2.2 hp).mp ho)
    have hv' : n'.ports.get? p = some v := by rw [h.ports, hv, Option.map_some, if_neg hcut]
    have hx' := (h.within_iff hm).mpr ⟨x, hx, ho, rfl⟩
    exact ((h.busInside_iff hm).mp (henclosed.drivers d _ hx' p hp v hv' b hb)).2 ⟨u, hu, hmem⟩
  entries d x hx ho i hi v hv hin := by
    have hx' := (h.within_iff hm).mpr ⟨x, hx, ho, rfl⟩
    rw [← h.entries] at hv
    rcases hin with hexit | ⟨a, ha, hport | hbus⟩
    · exact ((h.exitInside_iff hm).mp (henclosed.exits d _ hx' i hi v hv e hexit)).2 rfl
    · exact ((h.portInside_iff hm).mp (hbinds d _ hx' i hi v hv a ha)).2 hport
    · exact ((h.busInside_iff hm).mp (henclosed.dependencies d _ hx' i hi v hv a ha)).2 hbus
  marks := hmarks

/-- What could be cloned still can be, if nothing in it needs the exit. -/
theorem duplicable_iff (hlt : m.index < n.components.size) (hdup : n.Duplicable m) :
    n'.Duplicable m ↔ n.Unneeded m e := by
  have hmarked := h.markedTo_iff hlt hm hdup.marked
  simp only [false_and, ← h.size_eq] at hmarked
  constructor
  · exact fun hdup' => h.unneeded hm hdup'.enclosed hdup'.binds (hmarked.mp hdup'.marked)
  · exact fun hun => ⟨h.moduleTree hdup.tree, fun d hd => mt h.uncopyable_iff.mp
      (hdup.copyable d (h.descendant_eq ▸ hd)), hmarked.mpr hun.marks,
      h.enclosed hm hdup.enclosed hun, h.bindsInside hm hdup.binds hun⟩

end Removal

/-! ### Removing an exit -/

/-- Removing an exit of what is no buffer leaves everything in its shape. -/
theorem whole_of_removeExit {done : Bool} {said : Journal} {t : Traced Netlist} (hw : Whole pins n)
    (hlt : c.index < n.components.size) (hplain : ¬ IsBuffer {} n c)
    (hrun : removeExit c tag ⟨n, said⟩ = .ok done t) : Whole pins t.state := by
  have hnew : Ref.New {} n (.component c) := ⟨Nat.zero_le _, hlt⟩
  have hknows : (Scope.beyond pins {}).Knows [.has (.component c), .plain c] n :=
    ⟨⟨hw.linked, fun _ => hw.shaped, trivial⟩, List.forall_mem_cons.mpr ⟨hnew,
      List.forall_mem_singleton.mpr ⟨hnew, fun _ => hplain⟩⟩⟩
  have hsafe : Safe (.beyond pins {}) [.has (.component c), .plain c] (removeExit c tag)
      fun _ => [] := safe_removeExit id (by simp) (by simp) tag
  obtain ⟨hknows', -⟩ := of_wp_ok (hsafe ⟨n, said⟩ hknows) hrun
  exact ⟨hknows'.sound.linked, hknows'.sound.shaped trivial⟩

section

variable {said said' : Journal} (h : Removal pins n c y tag e w ps n')
  (hrun : removeExit c tag ⟨n, said⟩ = .ok true ⟨n', said'⟩) {i : Interior} (hm : n.IsModule m x i)
  (hc : c ∈ i.children)

include h hrun hm hc

/-- The module around the component can be cloned as before if nothing in it needs the exit. -/
theorem Removal.wp_clone (hdup : n.Duplicable m) : wp (clone m) (fun _ _ => n.Unneeded m e)
    (fun f _ => ¬ n.Unneeded m e ∧ ∃ a, f = .abort a) ⟨n', said'⟩ := by
  have hplain := h.whole.shaped.not_isBuffer_of_child hm.1 (Nat.zero_le _) hm.2 hc
  have hwhole := whole_of_removeExit h.whole (Arena.lt_of_get? h.source) hplain hrun
  have hx := h.component hm.1
  have hiff := h.duplicable_iff (h.not_outBufAt hm.1 hm.2) (Arena.lt_of_get? hm.1) hdup
  refine wp_mono (Netlist.wp_clone hwhole (Arena.lt_of_get? hx) (hwhole.not_isInBuf hx hm.2) said')
    (fun _ _ hdup' => hiff.mp hdup') fun f _ hf => ⟨fun hun => hf.1 (hiff.mpr hun), ?_⟩
  exact hf.2 (h.moduleTree hdup.tree) fun d hd =>
    mt h.uncopyable_iff.mp (hdup.copyable d (h.descendant_eq ▸ hd))

theorem Removal.clone_iff (hdup : n.Duplicable m) :
    (n.Unneeded m e → ∃ r t, clone m ⟨n', said'⟩ = .ok r t) ∧
      (¬ n.Unneeded m e → ∃ a t, clone m ⟨n', said'⟩ = .error (.abort a) t) := by
  obtain ⟨hok, herror⟩ := ok_or_error_of_wp (h.wp_clone hrun hm hc hdup)
  refine ⟨hok, fun hnot => ?_⟩
  obtain ⟨_, t, hrun', a, rfl⟩ := herror hnot
  exact ⟨a, t, hrun'⟩

end

/-- Removing an exit cuts off its OutBuf and leaves alone what the exit drives.  Afterwards no port is
driven by the exit if none was but those of the OutBuf, and no OutBuf is entered by it if no other one
was.  A module with the component among its children can be cloned as before if nothing in it needs the
exit or its OutBuf; else the clone is aborted. -/
theorem removeExit_unlinks (hn : n.Reachable) (hy : n.components.get? c = some y)
    (he : y.exits.find? tag = some e) (said : Journal) :
    ∃ n' said', removeExit c tag ⟨n, said⟩ = .ok true ⟨n', said'⟩ ∧ n.Withdrawn c y tag e n' ∧
      ((∀ p, ¬ n'.ExitDrives e p) ↔ ∀ p, n.ExitDrives e p → n.PortAt e p) ∧
      ((∀ o, n'.CurrentOutBuf o → ¬ n'.ExitEnters e o) ↔
        ∀ o, n.CurrentOutBuf o → ¬ n.OutBufAt e o → ¬ n.ExitEnters e o) ∧
      (n.WellMade → ∀ m x i r t, n.IsModule m x i → c ∈ i.children →
        clone m ⟨n, said⟩ = .ok r t →
        (n.Unneeded m e → ∃ r' t', clone m ⟨n', said'⟩ = .ok r' t') ∧
          (¬ n.Unneeded m e → ∃ a t', clone m ⟨n', said'⟩ = .error (.abort a) t')) := by
  obtain ⟨n', said', w, ps, hrun, hw, htaken⟩ := removeExit_takes hn hy he said
  have hwithdrawn := htaken.withdrawn hn hy he hw
  refine ⟨n', said', hrun, hwithdrawn, ?_, ?_, fun hmade m x i r t hm hc hclone => ?_⟩
  · simp only [hwithdrawn.drives]
    grind
  · simp only [hwithdrawn.outBufs, hwithdrawn.enters]
    grind
  · obtain ⟨pins, hwhole⟩ := hmade.whole
    have hdup := (clone_ok_iff hwhole (Arena.lt_of_get? hm.1) (hwhole.not_isInBuf hm.1 hm.2) said).mp
      ⟨r, t, hclone⟩
    exact Removal.clone_iff ⟨htaken, hwhole, hy, he, hw⟩ hrun hm hc hdup

/-! ### Two inverters -/

theorem Reached.loosen {strict : Prop} (h : Reached strict pins n) : Reached False pins n := by
  induction h with
  | empty => exact .empty
  | call call _ fits _ leaves ih => exact .call call ih fits False.elim leaves

/-- A block with two inverters, the first of which drives the second.  The block has the exit of the
first. -/
structure InRow (n : Netlist) : Prop where
  reached : Reached True 0 n
  kids : ∀ m x, n.components.get? m = some x →
    x.kids n = if m = ⟨0⟩ then [⟨1⟩, ⟨2⟩, ⟨3⟩, ⟨4⟩] else []
  block : ∃ x i, n.IsModule ⟨0⟩ x i ∧ ⟨2⟩ ∈ i.children ∧ ⟨3⟩ ∈ i.children
  inBuf : ∃ y ∈ n.components.get? ⟨1⟩, ⟨0⟩ ∈ y.exits.values
  first : ∃ y ∈ n.components.get? ⟨2⟩, y.exits.find? .done = some ⟨1⟩
  second : ∃ y ∈ n.components.get? ⟨3⟩, y.exits.find? .done = some ⟨2⟩ ∧ ⟨13⟩ ∈ y.ports
  outBuf : ∃ y ∈ n.components.get? ⟨4⟩, ⟨0⟩ ∈ y.entries ∧
    ∀ p ∈ [⟨14⟩, ⟨15⟩, ⟨16⟩], p ∈ y.ports
  current : ∃ x ∈ n.components.get? ⟨0⟩, ∃ e ∈ x.exits.values, ∃ w ∈ n.exits.get? e, w.peer = some ⟨4⟩
  control : ∃ w ∈ n.exits.get? ⟨0⟩, w.buses = [⟨0⟩, ⟨1⟩, ⟨2⟩]
  result : ∃ w ∈ n.exits.get? ⟨1⟩, w.peer = none ∧ w.buses = [⟨3⟩, ⟨4⟩]
  unused : ∃ w ∈ n.exits.get? ⟨2⟩, w.peer = none ∧ w.buses = [⟨5⟩, ⟨6⟩]
  driven : ∃ v ∈ n.ports.get? ⟨13⟩, v.bus = some ⟨4⟩
  drivers : ∀ p v, n.ports.get? p = some v → ∀ b ∈ v.bus, b = ⟨4⟩
  entered : (n.entries.get? ⟨0⟩).isSome = true
  entries : ∀ i v, n.entries.get? i = some v → v.drivingExit = some ⟨1⟩ ∧
    v.toList.map (fun a => (a.1, a.2.bus)) = [(⟨14⟩, ⟨1⟩), (⟨15⟩, ⟨2⟩), (⟨16⟩, ⟨3⟩)]
  kinds : ∀ d x, n.components.get? d = some x →
    x.kind ∈ [.module .block, .inBuf, .outBuf, .notGate] ∧ x.kind.isModule = x.interior.isSome
  feedback : ∀ d x, n.components.get? d = some x → ∀ i ∈ x.interior, i.feedback = []

theorem exists_inRow : ∃ n : Netlist, n.InRow := by
  have hempty : Reached True 0 {} := .empty
  have hblock := hempty.after (.newModule .block "m" 0) (by decide) (fun _ => by decide +kernel)
    (by decide +kernel)
  have hfirst := hblock.after (.newGate .not "a" 1) (by decide +kernel)
    (fun _ => by decide +kernel) (by decide +kernel)
  have hsecond := hfirst.after (.newGate .not "b" 1) (by decide +kernel)
    (fun _ => by decide +kernel) (by decide +kernel)
  have hchildren := hsecond.after (.addComponents ⟨0⟩ [⟨2⟩, ⟨3⟩]) (by decide +kernel)
    (fun _ => by decide +kernel) (by decide +kernel)
  have hdriven := hchildren.after (.setBus ⟨13⟩ (some ⟨4⟩)) (by decide +kernel)
    (fun _ => by decide +kernel) (by decide +kernel)
  have hmerged := hdriven.after (.mergeExits ⟨0⟩ [⟨2⟩]) (by decide +kernel)
    (fun _ => by decide +kernel) (by decide +kernel)
  generalize hn : (Build.run (Call.run (.mergeExits ⟨0⟩ [⟨2⟩])) _).2.state = n at hmerged
  obtain ⟨x, hx, i, hi, hmem⟩ : ∃ x ∈ n.components.get? ⟨0⟩, ∃ i ∈ x.interior,
      ⟨2⟩ ∈ i.children ∧ ⟨3⟩ ∈ i.children := by
    rw [← hn]
    decide +kernel
  refine ⟨n, hmerged, ?_, ⟨x, i, ⟨hx, hi⟩, hmem⟩, ?_, ?_, ?_, ?_, ?_, ?_, ?_, ?_, ?_, ?_, ?_, ?_, ?_, ?_⟩
  all_goals
    rw [← hn]
    decide +kernel

namespace InRow

variable (h : n.InRow)

include h

theorem part : ∀ d ∈ [⟨1⟩, ⟨2⟩, ⟨3⟩, ⟨4⟩], Part n ⟨0⟩ d := by
  obtain ⟨x, i, hm, -⟩ := h.block
  exact fun d hd => .kid .self ((kid_iff_mem_kids hm.1).mpr (by rwa [h.kids _ x hm.1]))

theorem exitInside : ExitInside n ⟨0⟩ ⟨0⟩ ∧ ExitInside n ⟨0⟩ ⟨1⟩ := by
  obtain ⟨y, hy, hlisted⟩ := h.inBuf
  obtain ⟨z, hz, he⟩ := h.first
  exact ⟨⟨⟨1⟩, y, h.part _ (by simp), hy, hlisted⟩,
    ⟨⟨2⟩, z, h.part _ (by simp), hz, OrderedMap.mem_values_of_find? he⟩⟩

theorem busInside : ∀ b ∈ [⟨1⟩, ⟨2⟩, ⟨3⟩, ⟨4⟩], BusInside n ⟨0⟩ b := by
  obtain ⟨w, hw, hbuses⟩ := h.control
  obtain ⟨w', hw', -, hbuses'⟩ := h.result
  have hfirst : ∀ b ∈ w.buses, BusInside n ⟨0⟩ b := fun b hb => ⟨⟨0⟩, w, h.exitInside.1, hw, hb⟩
  have hsecond : ∀ b ∈ w'.buses, BusInside n ⟨0⟩ b := fun b hb => ⟨⟨1⟩, w', h.exitInside.2, hw', hb⟩
  simp only [hbuses, hbuses', List.forall_mem_cons] at hfirst hsecond ⊢
  exact ⟨hfirst.2.1, hfirst.2.2.1, hsecond⟩

theorem depends {i : EntryId} {v : Entry} (hv : n.entries.get? i = some v)
    {a : PortId × Dependency} (ha : a ∈ v.toList) :
    a.1 ∈ [⟨14⟩, ⟨15⟩, ⟨16⟩] ∧ a.2.bus ∈ [⟨1⟩, ⟨2⟩, ⟨3⟩] := by
  have hmem := List.mem_map_of_mem (f := fun a => (a.1, a.2.bus)) ha
  rw [(h.entries i v hv).2] at hmem
  simp only [List.mem_cons, Prod.mk.injEq, List.not_mem_nil, or_false] at hmem
  rcases hmem with ⟨hp, hb⟩ | ⟨hp, hb⟩ | ⟨hp, hb⟩ <;> simp [hp, hb]

theorem selfContained : SelfContained n ⟨0⟩ := by
  refine .of_block h.kids (by decide) h.kinds ⟨fun d x hx p hp v hv b hb => ?_,
    fun d x hx i hi v hv e he => ?_, fun d x hx i hi v hv a ha => ?_⟩
  · exact h.busInside b (by simp [h.drivers p v hv b hb])
  · cases (h.entries i v hv).1.symm.trans he
    exact h.exitInside.2
  · exact h.busInside _ (by have := (h.depends hv ha).2; grind)

theorem coherent : Coherent n ⟨0⟩ := by
  refine ⟨fun d x i hd hx hi point hpoint => ?_, fun d x hx i hi v hv a ha => ?_, fun hin => ?_⟩
  · simp [h.feedback d x hx i hi] at hpoint
  · obtain ⟨y, hy, -, hports⟩ := h.outBuf
    exact ⟨⟨4⟩, y, h.part _ (by simp), hy, hports _ (h.depends hv ha).1⟩
  · obtain ⟨m, z, j, hz, -, hj, heq⟩ := hin
    have hkid : Kid n m ⟨0⟩ := ⟨z, j, hz, hj, .inr (.inl heq.symm)⟩
    exact absurd (Kid.of_kids h.kids hkid).2 (by decide)

theorem whole : ∃ pins, Whole pins n := (WellMade.alone h.reached).whole

theorem duplicable : n.Duplicable ⟨0⟩ := by
  obtain ⟨pins, hwhole⟩ := h.whole
  obtain ⟨x, i, hm, -⟩ := h.block
  exact h.selfContained.duplicable h.coherent hwhole (Arena.lt_of_get? hm.1)

theorem clone_ok : ∃ r t, clone ⟨0⟩ ⟨n, #[]⟩ = .ok r t := by
  obtain ⟨pins, hwhole⟩ := h.whole
  obtain ⟨x, i, hm, -⟩ := h.block
  exact (clone_ok_iff hwhole (Arena.lt_of_get? hm.1) (hwhole.not_isInBuf hm.1 hm.2) #[]).mpr
    h.duplicable

/-- The exit of the first inverter drives the second, and the OutBuf is entered by it. -/
theorem exitDrives : n.ExitDrives ⟨1⟩ ⟨13⟩ := by
  obtain ⟨v, hv, hb⟩ := h.driven
  obtain ⟨w, hw, -, hbuses⟩ := h.result
  exact ⟨v, ⟨4⟩, w, hv, hb, hw, by simp [hbuses]⟩

theorem exitEnters : n.CurrentOutBuf ⟨4⟩ ∧ n.ExitEnters ⟨1⟩ ⟨4⟩ := by
  obtain ⟨x, hx, e, he, w, hw, hpeer⟩ := h.current
  obtain ⟨y, hy, hentry, -⟩ := h.outBuf
  obtain ⟨v, hv⟩ := Option.isSome_iff_exists.mp h.entered
  exact ⟨⟨⟨0⟩, x, hx, e, he, w, hw, hpeer⟩, y, hy, ⟨0⟩, hentry, v, hv, (h.entries _ v hv).1⟩

theorem not_outBufAt (o : ComponentId) : ¬ n.OutBufAt ⟨1⟩ o ∧ ¬ n.OutBufAt ⟨2⟩ o := by
  obtain ⟨w, hw, hpeer, -⟩ := h.result
  obtain ⟨w', hw', hpeer', -⟩ := h.unused
  simp [outBufAt_iff hw, outBufAt_iff hw', hpeer, hpeer']

/-- Nothing needs the exit of the second inverter. -/
theorem undriven (p : PortId) : ¬ n.ExitDrives ⟨2⟩ p := by
  rintro ⟨v, b, w, hv, hb, hw, hmem⟩
  obtain ⟨w', hw', -, hbuses⟩ := h.unused
  cases hw.symm.trans hw'
  simp [hbuses, h.drivers p v hv b hb] at hmem

theorem unentered (d : ComponentId) : ¬ n.ExitEnters ⟨2⟩ d := by
  rintro ⟨z, -, i, -, v, hv, he⟩
  simp [(h.entries i v hv).1] at he

theorem uninvolved {i : EntryId} {v : Entry} (hv : n.entries.get? i = some v) :
    ¬ n.Involves ⟨2⟩ v := by
  rintro (hexit | ⟨a, ha, ⟨o, _, ho, _⟩ | ⟨w, hw, hmem⟩⟩)
  · simp [(h.entries i v hv).1] at hexit
  · exact (h.not_outBufAt o).2 ho
  · obtain ⟨w', hw', -, hbuses⟩ := h.unused
    cases hw.symm.trans hw'
    have hb := (h.depends hv ha).2
    rw [hbuses] at hmem
    grind

theorem unneeded : n.Unneeded ⟨0⟩ ⟨2⟩ where
  ports _ _ _ _ p _ := h.undriven p
  entries _ _ _ _ _ _ _ hv := h.uninvolved hv
  marks _ _ := ⟨fun _ _ _ _ o _ => (h.not_outBufAt o).2, fun _ body _ _ => (h.not_outBufAt body).2⟩

/-- The second inverter needs the exit of the first. -/
theorem needed : ¬ n.Unneeded ⟨0⟩ ⟨1⟩ := by
  intro hun
  obtain ⟨y, hy, -, hport⟩ := h.second
  exact hun.ports ⟨3⟩ y ⟨h.part _ (by simp), by decide, hy⟩ (h.not_outBufAt _).1 ⟨13⟩ hport
    h.exitDrives

end InRow

/-- Nothing misses the exit of the second inverter. -/
theorem removeExit_unlinks_last : ∃ (n n' : Netlist) (said' : Journal), n.InRow ∧
    removeExit ⟨3⟩ .done ⟨n, #[]⟩ = .ok true ⟨n', said'⟩ ∧ (∀ p, ¬ n'.ExitDrives ⟨2⟩ p) ∧
    (∀ o, n'.CurrentOutBuf o → ¬ n'.ExitEnters ⟨2⟩ o) ∧ (∃ r t, clone ⟨0⟩ ⟨n, #[]⟩ = .ok r t) ∧
    ∃ r t, clone ⟨0⟩ ⟨n', said'⟩ = .ok r t := by
  obtain ⟨n, h⟩ := exists_inRow
  obtain ⟨x, i, hm, -, hchild⟩ := h.block
  obtain ⟨y, hy, he, -⟩ := h.second
  obtain ⟨r, t, hclone⟩ := h.clone_ok
  obtain ⟨n', said', hrun, -, hports, houtBufs, hmodules⟩ :=
    removeExit_unlinks (.alone h.reached.loosen) hy he #[]
  exact ⟨n, n', said', h, hrun, hports.mpr fun p hp => absurd hp (h.undriven p),
    houtBufs.mpr fun o _ _ => h.unentered o, ⟨r, t, hclone⟩,
    (hmodules (.alone h.reached) ⟨0⟩ x i r t hm hchild hclone).1 h.unneeded⟩

/-- The second inverter stays connected to the exit that the first has lost, and the OutBuf of the block
to its entry.  The block, which could be cloned before, cannot be any more. -/
theorem removeExit_dangling : ∃ (n n' : Netlist) (said' : Journal), n.InRow ∧
    removeExit ⟨2⟩ .done ⟨n, #[]⟩ = .ok true ⟨n', said'⟩ ∧ n'.ExitDrives ⟨1⟩ ⟨13⟩ ∧
    (n'.CurrentOutBuf ⟨4⟩ ∧ n'.ExitEnters ⟨1⟩ ⟨4⟩) ∧ (∃ r t, clone ⟨0⟩ ⟨n, #[]⟩ = .ok r t) ∧
    ∃ a t, clone ⟨0⟩ ⟨n', said'⟩ = .error (.abort a) t := by
  obtain ⟨n, h⟩ := exists_inRow
  obtain ⟨x, i, hm, hchild, -⟩ := h.block
  obtain ⟨y, hy, he⟩ := h.first
  obtain ⟨pins, hwhole⟩ := h.whole
  obtain ⟨n', said', w, ps, hrun, hw, htaken⟩ := removeExit_takes (.alone h.reached.loosen) hy he #[]
  have hremoval : Removal pins n ⟨2⟩ y .done ⟨1⟩ w ps n' := ⟨htaken, hwhole, hy, he, hw⟩
  have hwithdrawn := htaken.withdrawn (.alone h.reached.loosen) hy he hw
  refine ⟨n, n', said', h, hrun, (hwithdrawn.drives _).mpr ⟨h.exitDrives, ?_⟩,
    ⟨(hwithdrawn.outBufs _).mpr ⟨h.exitEnters.1, (h.not_outBufAt _).1⟩,
      (hwithdrawn.enters _).mpr h.exitEnters.2⟩, h.clone_ok,
    (hremoval.clone_iff hrun hm hchild h.duplicable).2 h.needed⟩
  rintro ⟨o, _, ho, -⟩
  exact (h.not_outBufAt o).1 ho

end DataflowSynth.Netlist
