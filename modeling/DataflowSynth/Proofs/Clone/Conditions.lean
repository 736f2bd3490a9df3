/-
What cloning asks of a component.

A clone is made only if nothing stands in its way: the check goes through the whole tree, every lookup
in the correspondence finds something, and the copy of a module owns the copies of what the module
marks.  The correspondence knows nothing but the tree and its terminals, so where a lookup has gone
well, what was looked up lies inside.
-/
import DataflowSynth.Proofs.Clone.Connections
import DataflowSynth.Proofs.Clone.Deep
import DataflowSynth.Proofs.Clone.Frame

namespace DataflowSynth.Netlist

open Build Relation

variable {pins : Nat} {n : Netlist} {u : Traced Netlist} {c d m copy : ComponentId} {x : Component}
  {map : Correspondence}

/-! ### The tree -/

theorem ModuleTree.of_child (hx : n.components.get? c = some x)
    (hmodule : x.kind.isModule = true → x.interior.isSome = true)
    (h : ∀ d, Child n c d → n.ModuleTree d) : n.ModuleTree c where
  finite := ⟨c, fun d hd => (h d hd).finite⟩
  modules d y hd hy hkind := by
    rcases ReflTransGen.cases_head hd with rfl | ⟨e, he, hed⟩
    · cases hx.symm.trans hy
      exact hmodule hkind
    · exact (h e he).modules d y hed hy hkind

/-- The check goes through the whole tree before it gives its consent. -/
theorem checkCopyable_needs {depth : Nat} : wp (checkCopyable depth c)
    (fun _ t => t = u ∧ u.state.ModuleTree c ∧ ∀ d, u.state.Descendant c d → ¬ u.state.Uncopyable d)
    (fun _ _ => True) u := by
  induction depth generalizing c with
  | zero => trivial
  | succ depth ih =>
      rw [checkCopyable, wp_bind]
      refine wp_component_of (fun x hx => ?_) trivial
      split
      · trivial
      · trivial
      · next kind hdesign hkind =>
        rw [wp_bind]
        simp only [children, interior, wp_bind, wp_pure]
        refine (wp_component hx).mpr (wp_expect (fun i hi => ?_) trivial)
        refine wp_mono (wp_forM_reads fun d _ => ih (c := d)) (fun _ t hread => ?_)
          fun _ _ h => h
        obtain ⟨ht, hall⟩ := hread
        have hmem : ∀ d, Child u.state c d → d ∈ i.children := fun d =>
          mem_children_of_child hx hi
        refine ⟨ht, .of_child hx (fun _ => by rw [hi]; rfl) fun d hd => (hall d (hmem d hd)).1,
          copyable_of_child ?_ fun d hd => (hall d (hmem d hd)).2⟩
        rw [uncopyable_iff hx, hkind]
        simpa using fun heq => hdesign heq
      · next hdesign hread hmodule =>
        have hflat := isModule_eq_false hmodule
        refine ⟨rfl, .of_child hx (by simp [hflat]) fun d hd =>
          absurd hd (not_child_of_not_isModule hx hflat), copyable_of_child ?_ fun d hd =>
          absurd hd (not_child_of_not_isModule hx hflat)⟩
        rw [uncopyable_iff hx]
        rintro (hbad | ⟨memory, physical, hbad⟩)
        · exact hdesign hbad
        · exact hread memory physical hbad

section

variable (hw : Whole pins n)

include hw

/-- Besides its children a module owns its buffers, which own nothing. -/
theorem Whole.child_or_buffer (hkid : Kid n m d) : Child n m d ∨
    ∃ y, n.components.get? d = some y ∧ y.kind.isModule = false ∧ y.interior = none := by
  obtain ⟨x, i, hx, hi, hk⟩ := hkid
  have hinterior := (hw.shaped.components m x hx (Nat.zero_le _)).interior i hi
  rcases hk with hk | rfl | ⟨e, -, w, hw', hpeer⟩
  · exact .inl ⟨x, i, hx, hinterior.kind, hi, hk⟩
  · obtain ⟨y, _, _, hy, -, hin⟩ := hinterior.inBuf
    exact .inr ⟨y, hy, by rw [hin.kind]; rfl, hin.interior⟩
  · obtain ⟨y, hy, hout⟩ := (hw.shaped.exits e w hw' (Nat.zero_le _)).outBuf d hpeer
    exact .inr ⟨y, hy, by rw [hout.kind]; rfl, hout.interior⟩

theorem Whole.finite_of_acc (h : Acc (fun d m => Child n m d) c) : Finite n c := by
  induction h with
  | intro c _ ih =>
      refine ⟨c, fun d hd => ?_⟩
      rcases hw.child_or_buffer hd with hchild | ⟨y, hy, -, hi⟩
      · exact ih d hchild
      · refine ⟨d, fun e he => ?_⟩
        obtain ⟨z, j, hz, hj, -⟩ := he
        cases hy.symm.trans hz
        rw [hi] at hj
        cases hj

/-- What a component owns are its descendants and their buffers. -/
theorem Whole.descendant_or_buffer (hpart : Part n c d) : n.Descendant c d ∨
    ∃ y, n.components.get? d = some y ∧ y.kind.isModule = false ∧ y.interior = none := by
  induction hpart with
  | self => exact .inl .refl
  | @kid m d _ hkid ih =>
      rcases hw.child_or_buffer hkid with hchild | hbuf
      · rcases ih with hm | ⟨y, hy, -, hi⟩
        · exact .inl (hm.tail hchild)
        · obtain ⟨z, j, hz, -, hj, -⟩ := hchild
          cases hy.symm.trans hz
          rw [hi] at hj
          cases hj
      · exact .inr hbuf

theorem ModuleTree.cloneable (h : n.ModuleTree c) (hplain : ¬ IsInBuf {} n c) : Cloneable n c where
  finite := hw.finite_of_acc h.finite
  modules d x hd hx hkind := by
    rcases hw.descendant_or_buffer hd with hd | ⟨y, hy, hflat, -⟩
    · exact h.modules d x hd hx hkind
    · cases hx.symm.trans hy
      rw [hflat] at hkind
      cases hkind
  plain := hplain

end

/-! ### The connections -/

section

variable (hlearns : Correspondence.Extends n (Part n c) {} map)

include hlearns

/-- The correspondence knows no exits but those inside. -/
theorem Correspondence.Extends.exitInside {e e' : ExitId} (he : map.exits[e]? = some e') :
    ExitInside n c e := by
  by_contra hnot
  rw [hlearns.exits e hnot] at he
  exact absurd (he.symm.trans Std.HashMap.getElem?_empty) (by simp)

theorem Correspondence.Extends.portInside {p p' : PortId} (hp : map.ports[p]? = some p') :
    PortInside n c p := by
  by_contra hnot
  rw [hlearns.ports p hnot] at hp
  exact absurd (hp.symm.trans Std.HashMap.getElem?_empty) (by simp)

theorem Correspondence.Extends.busInside {b b' : BusId} (hb : map.buses[b]? = some b') :
    BusInside n c b := by
  by_contra hnot
  rw [hlearns.buses b hnot] at hb
  exact absurd (hb.symm.trans Std.HashMap.getElem?_empty) (by simp)

end

/-- What the entry names lies inside `c`. -/
structure EntryInside (n : Netlist) (c : ComponentId) (y : Entry) : Prop where
  exit : ∀ e, y.drivingExit = some e → ExitInside n c e
  ports : ∀ a ∈ y.toList, PortInside n c a.1
  buses : ∀ a ∈ y.toList, BusInside n c a.2.bus

theorem copyEntry_needs {i : EntryId} (hlearns : Correspondence.Extends n (Part n c) {} map) :
    wp (copyEntry map copy i) (fun map' _ => (∃ k, map' = { map with entries := k }) ∧
      ∀ y, u.state.entries.get? i = some y → EntryInside n c y) (fun _ _ => True) u := by
  rw [copyEntry, wp_bind]
  refine wp_entry_of (fun y hy => ?_) trivial
  rw [wp_bind]
  have hexit : wp (copiedExit? map y.drivingExit)
      (fun _ _ => ∀ e, y.drivingExit = some e → ExitInside n c e) (fun _ _ => True) u := by
    cases hdriving : y.drivingExit with
    | none => exact fun e he => by cases he
    | some e =>
        rw [copiedExit?, wp_bind]
        refine wp_expect (fun e' he' => ?_) trivial
        rintro f ⟨⟩
        exact hlearns.exitInside he'
  refine wp_mono hexit (fun o t hexits => ?_) fun _ _ h => h
  rw [wp_bind]
  refine wp_of_forall (fun copied t => ?_) fun _ _ => trivial
  rw [wp_bind]
  refine wp_mono (wp_forM_each (I := fun _ => True) (R := fun a : PortId × Dependency =>
    PortInside n c a.1 ∧ BusInside n c a.2.bus) trivial fun a _ t _ => ?_)
    (fun _ _ hdone => ⟨⟨_, rfl⟩, fun z hz => ?_⟩) fun _ _ h => h
  · rw [wp_bind]
    refine wp_expect (fun p' hp' => ?_) trivial
    rw [wp_bind]
    refine wp_expect (fun b' hb' => wp_of_forall (fun _ _ => ⟨trivial, ?_⟩) fun _ _ => trivial) trivial
    exact ⟨hlearns.portInside hp', hlearns.busInside hb'⟩
  · cases hy.symm.trans hz
    exact ⟨hexits, fun a ha => (hdone.2 a ha).1, fun a ha => (hdone.2 a ha).2⟩

theorem copyConnection_needs {p : PortId} (hlearns : Correspondence.Extends n (Part n c) {} map) :
    wp (copyConnection map p) (fun _ _ => ∀ y, u.state.ports.get? p = some y →
      ∀ b, y.bus = some b → BusInside n c b) (fun _ _ => True) u := by
  rw [copyConnection, wp_bind]
  refine wp_port_of (fun y hy => ?_) trivial
  have hself : ∀ {z}, u.state.ports.get? p = some z → z = y := fun hz =>
    Option.some.inj (hz.symm.trans hy)
  split
  · next hnone =>
    intro z hz b hb
    rw [hself hz, hnone] at hb
    cases hb
  · next b hsome =>
    rw [wp_bind]
    refine wp_of_forall (fun _ t => ?_) fun _ _ => trivial
    rw [wp_bind]
    refine wp_expect (fun b' hb' => wp_of_forall (fun _ _ => ?_) fun _ _ => trivial) trivial
    intro z hz b₂ hb₂
    rw [hself hz, hsome] at hb₂
    cases hb₂
    exact hlearns.busInside hb'

section

variable (hlearns : Correspondence.Extends n (Part n c) {} map)

include hlearns

theorem copyEntries_needs {is : List EntryId} {k : Std.HashMap EntryId EntryId}
    (hknown : (Scope.beyond pins n).Knows (.has (.component copy) :: map.facts) u.state) :
    wp (is.foldlM (fun map i => copyEntry map copy i) { map with entries := k })
      (fun map' t => ((Scope.beyond pins n).Knows (.has (.component copy) :: map.facts) t.state ∧
        ∃ k, map' = { map with entries := k }) ∧
        ∀ i ∈ is, ∀ y, n.entries.get? i = some y → EntryInside n c y) (fun _ _ => True) u := by
  refine wp_foldlM_each ⟨hknown, k, rfl⟩ fun i hi map' t ⟨ht, k', hk'⟩ => ?_
  subst hk'
  refine wp_mono ((safe_copyEntry (m := { map with entries := k' }) ?_ (by simp) i).along ht
    (copyEntry_needs (hlearns.withEntries k'))) (fun map'' v ⟨hv, _, ⟨k'', hk''⟩, hin⟩ => ?_)
    fun _ _ h => h
  · exact List.mem_cons_of_mem _ (List.mem_singleton.mpr rfl)
  · refine ⟨⟨hv.mono (by simp +contextual), k'', hk''⟩, fun y hy => hin y ?_⟩
    exact (ht.sound.linked.keeps.entries.get? i (Arena.lt_of_get? hy)).trans hy

theorem copyPorts_needs {ps : List PortId}
    (hknown : (Scope.beyond pins n).Knows map.facts u.state) :
    wp (ps.forM (copyConnection map)) (fun _ t => (Scope.beyond pins n).Knows map.facts t.state ∧
      ∀ p ∈ ps, ∀ y, n.ports.get? p = some y → ∀ b, y.bus = some b → BusInside n c b)
      (fun _ _ => True) u := by
  refine wp_forM_each (I := fun t => (Scope.beyond pins n).Knows map.facts t.state) hknown
    fun p hp t ht => ?_
  refine wp_mono ((safe_copyConnection (List.mem_singleton.mpr rfl) p).along ht
    (copyConnection_needs hlearns)) (fun _ v ⟨hv, _, hin⟩ => ?_) fun _ _ h => h
  refine ⟨hv.mono (by simp [Correspondence.facts]), fun y hy => hin y ?_⟩
  exact (ht.sound.linked.keeps.ports.get? p (Arena.lt_of_get? hy)).trans hy

end

/-- The connections are repeated only if everything inside is driven and entered from inside. -/
theorem copyConnections_needs (h : TreeCopied pins n n u.state {} map c copy)
    (hknown : (Scope.beyond pins n).Knows map.facts u.state) :
    wp (copyConnections c map) (fun _ _ => Enclosed n c ∧ BindsInside n c) (fun _ _ => True) u := by
  have hsource : ∀ {t : Traced Netlist} {d x}, n.components.get? d = some x →
      (Scope.beyond pins n).Knows map.facts t.state → t.state.components.get? d = some x :=
    fun hx ht => (ht.sound.linked.keeps.components.get? _ (Arena.lt_of_get? hx)).trans hx
  rw [copyConnections_eq, wp_bind]
  -- The entries.
  refine wp_mono (wp_foldlM_each (I := fun map' t => (Scope.beyond pins n).Knows map.facts t.state ∧
      ∃ k, map' = { map with entries := k })
    (R := fun z : ComponentId × ComponentId => ∀ x, n.components.get? z.1 = some x →
      ∀ i ∈ x.entries, ∀ y, n.entries.get? i = some y → EntryInside n c y) ⟨hknown, _, rfl⟩
    fun z hz map' t ⟨ht, k, hk⟩ => ?_) (fun map' t ⟨⟨ht, k, hk⟩, hentries⟩ => ?_) fun _ _ h => h
  · subst hk
    rw [wp_bind]
    refine wp_component_of (fun x hx => ?_) trivial
    have hcopy : (Scope.beyond pins n).Knows (.has (.component z.2) :: map.facts) t.state := by
      refine ⟨ht.sound, List.forall_mem_cons.mpr ⟨?_, ht.facts⟩⟩
      exact ht.facts (.all map.Names) (List.mem_singleton.mpr rfl) (.component z.2)
        ⟨z, (List.mem_filter.mp hz).1, rfl⟩
    refine wp_mono (copyEntries_needs h.learns hcopy) (fun map'' v ⟨⟨hv, hk⟩, hin⟩ => ?_)
      fun _ _ h => h
    refine ⟨⟨hv.mono fun f hf => List.mem_cons_of_mem _ hf, hk⟩, fun y hy => ?_⟩
    cases hx.symm.trans (hsource hy ht)
    exact hin
  subst hk
  -- The drivers.
  rw [wp_bind]
  refine wp_mono (wp_forM_each (I := fun t => (Scope.beyond pins n).Knows map.facts t.state)
    (R := fun z : ComponentId × ComponentId => ∀ x, n.components.get? z.1 = some x →
      ∀ p ∈ x.ports, ∀ y, n.ports.get? p = some y → ∀ b, y.bus = some b → BusInside n c b) ht
    fun z hz t ht => ?_) (fun _ v ⟨_, hports⟩ => ?_) fun _ _ h => h
  · rw [wp_bind]
    refine wp_component_of (fun x hx => ?_) trivial
    refine wp_mono (copyPorts_needs (h.learns.withEntries k) ht)
      (fun _ v ⟨hv, hin⟩ => ⟨hv, fun y hy => ?_⟩) fun _ _ h => h
    cases hx.symm.trans (hsource hy ht)
    exact hin
  have hinside : ∀ {d x}, Within n c d x → ∃ z ∈ map.inside c, z.1 = d := fun {d x} hx => by
    obtain ⟨d', hd, -⟩ := h.done d hx.1
    exact ⟨(d, d'), h.mem_inside.mpr ⟨hd, hx.2.1⟩, rfl⟩
  have hentry : ∀ {d x}, Within n c d x → ∀ i ∈ x.entries, ∀ y, n.entries.get? i = some y →
      EntryInside n c y := fun hx => by
    obtain ⟨z, hz, rfl⟩ := hinside hx
    exact hentries z hz _ hx.2.2
  refine ⟨⟨fun d x hx => ?_, fun d x hx i hi y hy => (hentry hx i hi y hy).exit,
    fun d x hx i hi y hy => (hentry hx i hi y hy).buses⟩,
    fun d x hx i hi y hy => (hentry hx i hi y hy).ports⟩
  obtain ⟨z, hz, rfl⟩ := hinside hx
  exact hports z hz x hx.2.2

/-! ### Everything -/

/-- What is asked of a component that is no InBuf for it to be cloned. -/
structure Duplicable (n : Netlist) (c : ComponentId) : Prop where
  tree : n.ModuleTree c
  copyable : ∀ d, n.Descendant c d → ¬ n.Uncopyable d
  marked : MarkedTo n n.components.size (fun _ => False) c
  enclosed : Enclosed n c
  binds : BindsInside n c

end DataflowSynth.Netlist
