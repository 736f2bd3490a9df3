/-
Adding and removing children and exits keeps links and shapes.

What is removed is taken out of its connections on the way.  That leaves the shape alone, so it does not
matter for the shape at which moment it is done.
-/
import DataflowSynth.Proofs.Netlist.Terminals

namespace DataflowSynth.Netlist

open Build

variable {S : Scope} {K : List Fact} {α : Type} {pins : Nat} {base n n' : Netlist}

/-! ### Links -/

theorem ComponentLinked.eraseExit {c : ComponentId} {x : Component}
    (h : ComponentLinked pins base n c x) (tag : ExitTag) :
    ComponentLinked pins base n c { x with exits := x.exits.erase tag } := by
  obtain ⟨howner, hports, hexits, hentries, hinterior⟩ := Component.forall_refs.mp h.refs
  exact ⟨Component.forall_refs.mpr ⟨howner, hports,
    fun d hd => hexits d (OrderedMap.mem_values_erase hd), hentries, hinterior⟩, h.kind,
    h.ports, fun d hd => h.exits d (OrderedMap.mem_entries_erase hd), h.entries⟩

section

variable (hS : S.Loose)

include hS

theorem loose_changeInterior {m : ComponentId} {f : Interior → Interior}
    (hm : .has (.component m) ∈ K)
    (hf : ∀ n i, S.Knows K n → (∀ r ∈ i.refs, r.New S.base n) → ∀ r ∈ (f i).refs, r.New S.base n) :
    Safe S K (changeInterior m f) fun _ => [] := by
  refine .bind (safe_interior hm) fun _ => loose_changeComponent hS (by simp [hm]) ?_ fun _ => rfl
  intro n x hn _ hl
  exact hl.changeInterior fun i hi => hf n i (hn.mono (by simp +contextual)) hi

theorem loose_dropOwner {c : ComponentId} (hc : .has (.component c) ∈ K) :
    Safe S K (changeComponent c fun x => { x with owner := none }) fun _ => [] := by
  refine loose_changeComponent hS hc (fun n x _ _ hl => ?_) fun _ => rfl
  obtain ⟨-, hports, hexits, hentries, hinterior⟩ := Component.forall_refs.mp hl.refs
  exact { hl with refs := Component.forall_refs.mpr ⟨by simp, hports, hexits, hentries, hinterior⟩ }

theorem loose_addComponent {m c : ComponentId} (hm : .has (.component m) ∈ K)
    (hc : .has (.component c) ∈ K) : Safe S K (addComponent m c) fun _ => [] := by
  refine .bind (safe_component hc) fun x => ?_
  cases howner : x.owner with
  | some o =>
      simp only
      split
      · exact .bind (safe_component (by simp [howner])) fun _ => .abort _
      · exact .pure (by simp)
  | none =>
      refine .bind (loose_setOwner hS (by simp [hc]) (by simp [hm])) fun _ =>
        loose_changeInterior hS (by simp [hm]) fun n i hn hi => ?_
      obtain ⟨hin, hchildren, hfeedback⟩ := Interior.forall_refs.mp hi
      refine Interior.forall_refs.mpr ⟨hin, fun d hd => ?_, hfeedback⟩
      rcases List.mem_append.mp hd with hd | hd
      · exact hchildren d hd
      · exact hn.facts (.has (.component d)) (by simp [hc, List.mem_singleton.mp hd])

theorem loose_removeComponent {m c : ComponentId} (hm : .has (.component m) ∈ K)
    (hc : .has (.component c) ∈ K) : Safe S K (removeComponent m c) fun _ => [] := by
  refine .bind (safe_children hm) fun cs => ?_
  split
  · refine .bind (loose_changeInterior hS (by simp [hm]) fun n i hn hi => ?_) fun _ => .bind
      (safe_outBufs (by simp [hm])) fun bs => .bind
      (.forM fun b hb => safe_dropEntries (by simp [hb])) fun _ => .bind
      (safe_disconnect (by simp [hc])) fun _ => .bind
      (loose_dropOwner hS (by simp [hc])) fun _ => .pure (by simp)
    obtain ⟨hin, hchildren, hfeedback⟩ := Interior.forall_refs.mp hi
    exact Interior.forall_refs.mpr ⟨hin, fun d hd => hchildren d (List.mem_of_mem_erase hd),
      fun d hd => hfeedback d (List.mem_of_mem_erase hd)⟩
  · exact .pure (by simp)

theorem loose_removeExit {c : ComponentId} (hc : .has (.component c) ∈ K) (tag : ExitTag) :
    Safe S K (removeExit c tag) fun _ => [] := by
  refine .bind (safe_component hc) fun x => ?_
  cases he : x.exits.find? tag with
  | none => exact .pure (by simp)
  | some e =>
      have hmem := OrderedMap.mem_values_of_find? he
      refine .bind (loose_changeComponent hS (by simp [hc]) (fun n z _ _ hl => ?_) fun _ => rfl)
        fun _ => .bind (safe_exit (by simp [hmem])) fun y => ?_
      · exact hl.eraseExit tag
      · cases hpeer : y.peer with
        | none => exact .pure (by simp)
        | some o =>
            refine .bind (loose_changeExit hS (by simp [hmem]) (fun n z _ _ => ⟨rfl, rfl,
              fun hl => ?_⟩) fun _ => rfl) fun _ => .bind
              (safe_disconnect (by simp [hpeer])) fun _ => .bind
              (loose_dropOwner hS (by simp [hpeer])) fun _ => .pure (by simp)
            obtain ⟨howner, hbuses, -⟩ := Exit.forall_refs.mp hl.refs
            exact ⟨Exit.forall_refs.mpr ⟨howner, hbuses, by simp⟩, hl.buses⟩

end

/-! ### Shapes -/

theorem get?_rechild {c m : ComponentId} {owner : Option ComponentId} {f : Interior → Interior}
    (d : ComponentId) :
    ((n.components.modify c fun x => { x with owner }).modify m fun x =>
      { x with interior := x.interior.map f }).get? d =
      (n.components.get? d).map (rechild c m owner f d) := by
  simp only [Arena.get?_modify]
  cases n.components.get? d with
  | none => simp
  | some x =>
      by_cases hm : d = m
      · by_cases hc : d = c
        · simp only [rechild, if_pos hm, if_pos hc, Option.map_some]
        · simp only [rechild, if_pos hm, if_neg hc, Option.map_some]
      · by_cases hc : d = c
        · simp only [rechild, if_neg hm, if_pos hc, Option.map_some]
        · simp only [rechild, if_neg hm, if_neg hc, Option.map_some]

/-- The order of the two changes does not matter. -/
theorem get?_rechild_comm {c m : ComponentId} {owner : Option ComponentId}
    {f : Interior → Interior} (d : ComponentId) :
    ((n.components.modify m fun x => { x with interior := x.interior.map f }).modify c fun x =>
      { x with owner }).get? d = (n.components.get? d).map (rechild c m owner f d) := by
  rw [← get?_rechild]
  simp only [Arena.get?_modify]
  by_cases hm : d = m
  · by_cases hc : d = c
    · simp only [if_pos hm, if_pos hc, Option.map_map]
      rfl
    · simp only [if_pos hm, if_neg hc]
  · simp only [if_neg hm]

theorem buffers_of_rechild {c m : ComponentId} {owner : Option ComponentId}
    {f : Interior → Interior} (hf : ∀ i, (f i).inBuf = i.inBuf)
    (hcomponents : ∀ d, n'.components.get? d = (n.components.get? d).map (rechild c m owner f d))
    (hexits : n'.exits = n.exits) (d : ComponentId) (hlt : d.index < n.components.size)
    (hd : IsBuffer base n' d) : IsBuffer base n d := by
  refine buffers_of_back (fun k x' i' hx' hi' => .inl ?_) (fun e y o hy hpeer => .inl ?_) d hlt hd
  · obtain ⟨x, hx, rfl⟩ := exists_of_rechild hcomponents hx'
    by_cases heq : k = m
    · simp only [rechild, heq, if_true] at hi'
      obtain ⟨i, hi, rfl⟩ := Option.map_eq_some_iff.mp hi'
      exact ⟨x, i, hx, hi, (hf i).symm⟩
    · simp only [rechild, heq, if_false] at hi'
      exact ⟨x, i', hx, hi', rfl⟩
  · exact ⟨y, hexits ▸ hy, hpeer⟩

/-- A component without an owner is no child. -/
theorem Shaped.not_child_of_owner (h : Shaped base n) {c m : ComponentId} {x y : Component}
    {i : Interior} (hx : n.components.get? c = some x) (howner : x.owner = none)
    (hy : n.components.get? m = some y) (hm : base.components.size ≤ m.index)
    (hi : y.interior = some i) : c ∉ i.children := by
  intro hmem
  have hchild := ((h.components m y hy hm).interior i hi).children c hmem x hx
  rw [howner] at hchild
  cases hchild

theorem wp_changeInterior {Q : Unit → Traced Netlist → Prop} {F : Failure → Traced Netlist → Prop}
    {s : Traced Netlist} {m : ComponentId} {x : Component} {f : Interior → Interior}
    (hx : s.state.components.get? m = some x)
    (hQ : ∀ i, x.interior = some i → Q () (moved s { s.state with
      components := s.state.components.modify m fun x => { x with interior := x.interior.map f } }))
    (hF : F (.abort (.notAModule x.name)) s) : wp (changeInterior m f) Q F s := by
  simp only [changeInterior, interior, wp_bind]
  refine (wp_component hx).mpr (wp_expect (fun i hi => ?_) hF)
  exact (wp_changeComponent (Arena.lt_of_get? hx)).mpr (hQ i hi)

theorem safe_addComponent {m c : ComponentId} (hq : ¬ S.quiet) (hm : .has (.component m) ∈ K)
    (hc : .has (.component c) ∈ K) : Safe S K (addComponent m c) fun _ => [] := by
  refine .guarded (.structural S.open_unguarded hq (loose_addComponent S.loose_loose hm hc)
    fun hstrict s hs => ?_) fun s hs => hs.edit (.adopt m c) (by simp [Edit.refs, hm, hc])
    fun _ => trivial
  have hsh := hs.sound.shaped hstrict
  have hmnew := hs.facts _ hm
  have hcnew := hs.facts _ hc
  obtain ⟨x, hx⟩ := Arena.exists_get? hcnew.2
  rw [addComponent, wp_bind, wp_component hx]
  cases howner : x.owner with
  | some o =>
      simp only
      split
      · rw [wp_bind]
        exact wp_component_of (fun _ _ => trivial) trivial
      · exact ⟨hsh, fun _ _ h => h, by simp⟩
  | none =>
      rw [wp_bind]
      refine Iff.mpr (wp_changeComponent hcnew.2) ?_
      obtain ⟨y, hy⟩ := Arena.exists_get? (a := s.state.components.modify c fun x =>
        { x with owner := some m }) (h := m) (by simpa using hmnew.2)
      refine wp_changeInterior hy (fun j hj => ?_) trivial
      obtain ⟨z, i, hz, hi⟩ : ∃ z i, s.state.components.get? m = some z ∧ z.interior = some i := by
        rcases Arena.get?_modify_cases hy with ⟨rfl, z, hz, rfl⟩ | ⟨-, hz⟩
        · exact ⟨z, j, hz, hj⟩
        · exact ⟨y, j, hz, hj⟩
      have hchild := hsh.not_child_of_owner hx howner hz hmnew.1 hi
      refine ⟨hsh.rechild (f := fun i => { i with children := i.children ++ [c] }) (fun _ => rfl)
        get?_rechild hz hmnew.1 hi (hsh.not_isBuffer_of_owner hx howner) rfl rfl rfl ?_
        (fun k hk => ?_) ?_, ?_, by simp⟩
      · refine List.nodup_append.mpr ⟨((hsh.components m z hz hmnew.1).interior i hi).nodup,
          by simp, ?_⟩
        rintro a ha b hb rfl
        exact hchild (List.mem_singleton.mp hb ▸ ha)
      · rcases List.mem_append.mp hk with hk | hk
        · exact .inr ⟨fun heq => hchild (heq ▸ hk), hk⟩
        · exact .inl ⟨List.mem_singleton.mp hk, rfl⟩
      · intro d v k hv hle _ hk
        exact hsh.not_child_of_owner hx howner hv hle hk
      · exact buffers_of_rechild (f := fun i => { i with children := i.children ++ [c] })
          (fun _ => rfl) get?_rechild rfl

theorem safe_addComponents {m : ComponentId} {cs : List ComponentId} (hq : ¬ S.quiet)
    (hm : .has (.component m) ∈ K) (hcs : ∀ c ∈ cs, .has (.component c) ∈ K) :
    Safe S K (addComponents m cs) fun _ => [] :=
  .forM fun c hc => safe_addComponent hq hm (hcs c hc)

/-! ### Removal -/

/-- The same scope, but the shape has to stay as it is. -/
def Scope.calm (S : Scope) : Scope :=
  { S with strict := False, quiet := True, guard := .none S.base False }

/-- A step that is safe where nothing but connections may change. -/
theorem Safe.calmly {x : Step α} {P : α → List Fact} (hx : Safe S.calm K x P)
    {t : Traced Netlist} (ht : S.calm.Knows K t.state) :
    wp x (fun a u => S.calm.Knows (P a ++ K) u.state ∧ SameShape t.state u.state)
      (fun e _ => Aborted e) t := by
  refine wp_mono (hx t ht) (fun a u hu => ⟨ht.evolve hu.1 hu.2, hu.2.shape trivial⟩) ?_
  rintro (_ | a) u hu
  · exact absurd trivial hu.1.1
  · trivial

theorem SameShape.setOwner (h : SameShape n n') (c : ComponentId) (owner : Option ComponentId) :
    SameShape { n with components := n.components.modify c fun x => { x with owner } }
      { n' with components := n'.components.modify c fun x => { x with owner } } where
  components d := by
    have heq := congrArg (Option.map fun x : Component => { x with owner }) (h.components d)
    simp only [Option.map_map] at heq
    simp only [Arena.get?_modify]
    split
    · rw [Option.map_map, Option.map_map]
      exact heq
    · exact h.components d
  ports := h.ports
  buses := h.buses
  exits := h.exits

theorem Reshaped.congr {P : List Fact} {n₁ n₂ : Netlist} (h : Reshaped base n n₁ P)
    (hs : SameShape n₁ n₂) (hP : ∀ f ∈ P, f.Proper base n₂) : Reshaped base n n₂ P :=
  ⟨h.shaped.congr hs, fun c hlt hc => h.buffers c hlt (hs.isBuffer hc), hP⟩

theorem reshaped_removeChild (h : Shaped base n) {m c : ComponentId} {x : Component}
    {i : Interior} (hx : n.components.get? m = some x) (hm : base.components.size ≤ m.index)
    (hi : x.interior = some i) (hc : c ∈ i.children) (hcnew : c.index < n.components.size) :
    Reshaped base n { n with
      components := (n.components.modify m fun x => { x with interior := x.interior.map fun i =>
        { i with children := i.children.erase c, feedback := i.feedback.erase c } }).modify c fun x =>
          { x with owner := none } } [] := by
  have hint := (h.components m x hx hm).interior i hi
  refine ⟨h.rechild (f := fun i => { i with
    children := i.children.erase c, feedback := i.feedback.erase c }) (fun _ => rfl)
    get?_rechild_comm hx hm hi (h.not_isBuffer_of_child hx hm hi hc) rfl rfl rfl
    (hint.nodup.erase c) (fun k hk => .inr ?_) ?_, ?_, by simp⟩
  · exact ⟨fun heq => absurd (heq ▸ hk) hint.nodup.not_mem_erase, List.mem_of_mem_erase hk⟩
  · intro d v j hv hle hne hj hmem
    obtain ⟨y, hy⟩ := Arena.exists_get? hcnew
    have hown := hint.children c hc y hy
    have hown' := ((h.components d v hv hle).interior j hj).children c hmem y hy
    exact hne (Option.some.inj (hown'.symm.trans hown))
  · exact buffers_of_rechild (f := fun i => { i with
      children := i.children.erase c, feedback := i.feedback.erase c }) (fun _ => rfl)
      get?_rechild_comm rfl

theorem safe_removeComponent {m c : ComponentId} (hq : ¬ S.quiet) (hm : .has (.component m) ∈ K)
    (hc : .has (.component c) ∈ K) : Safe S K (removeComponent m c) fun _ => [] := by
  refine .guarded (.structural S.open_unguarded hq (loose_removeComponent S.loose_loose hm hc)
    fun hstrict s hs => ?_) fun s hs => wp_discard.mp (hs.edit (.release m c)
    (by simp [Edit.refs, hm, hc]) fun _ => trivial)
  have hl := hs.sound.linked
  have hsh := hs.sound.shaped hstrict
  have hmnew := hs.facts _ hm
  have hcnew := hs.facts _ hc
  obtain ⟨x, hx⟩ := Arena.exists_get? hmnew.2
  simp only [removeComponent, children, interior, wp_bind]
  refine (wp_component hx).mpr (wp_expect (fun i hi => ?_) trivial)
  simp only [wp_pure]
  split
  · next hmem =>
    have hchild : c ∈ i.children := by simpa using hmem
    rw [wp_bind]
    refine wp_changeInterior hx (fun _ _ => ?_) trivial
    have hknows : S.calm.Knows [.has (.component m), .has (.component c)] { s.state with
        components := s.state.components.modify m fun x => { x with interior := x.interior.map fun i =>
          { i with children := i.children.erase c, feedback := i.feedback.erase c } } } := by
      refine ⟨⟨hl.modifyComponent hmnew.1 fun y _ hy => hy.changeInterior fun j hj => ?_,
        False.elim, trivial⟩, ?_⟩
      · obtain ⟨hin, hchildren, hfeedback⟩ := Interior.forall_refs.mp hj
        exact Interior.forall_refs.mpr ⟨hin, fun d hd => hchildren d (List.mem_of_mem_erase hd),
          fun d hd => hfeedback d (List.mem_of_mem_erase hd)⟩
      · simp only [List.mem_cons, List.not_mem_nil, or_false, forall_eq_or_imp, forall_eq]
        exact ⟨⟨hmnew.1, by simpa using hmnew.2⟩, hcnew.1, by simpa using hcnew.2⟩
    have hunlink : Safe S.calm [.has (.component m), .has (.component c)]
        (do (← outBufs m).forM fun b => dropEntries b c; disconnect c) fun _ => [] := by
      refine .bind (safe_outBufs (by simp)) fun bs => .bind (.forM fun b hb => ?_) fun _ =>
        safe_disconnect (by simp)
      exact safe_dropEntries (by simp [hb])
    have hrun := hunlink.calmly (t := moved s _) hknows
    simp only [wp_bind] at hrun ⊢
    refine wp_mono hrun (fun bs t ht => wp_mono ht (fun _ u hu => wp_mono hu ?_ fun _ _ h => h)
      fun _ _ h => h) fun _ _ h => h
    rintro - v ⟨hv, hshape⟩
    refine (wp_changeComponent (hv.facts (.has (.component c)) (by simp)).2).mpr ?_
    exact (reshaped_removeChild hsh hx hmnew.1 hi hchild hcnew.2).congr (hshape.setOwner c none)
      (by simp)
  · exact ⟨hsh, fun _ _ h => h, by simp⟩

theorem Linked.eraseExit (h : Linked pins base n) {c : ComponentId}
    (hc : base.components.size ≤ c.index) (tag : ExitTag) : Linked pins base { n with
      components := n.components.modify c fun x => { x with exits := x.exits.erase tag } } :=
  h.modifyComponent hc fun _ _ hl => hl.eraseExit tag

/-- An exit that has been taken off is listed nowhere: its owner and its tag tell where it was. -/
theorem Linked.not_listed_eraseExit (h : Linked pins base n) {c : ComponentId} {x : Component}
    {tag : ExitTag} {e : ExitId} {y : Exit} (hx : n.components.get? c = some x)
    (hc : base.components.size ≤ c.index) (he : x.exits.find? tag = some e)
    (hy : n.exits.get? e = some y) (d : ComponentId) (v : Component)
    (hv : (n.components.modify c fun x => { x with exits := x.exits.erase tag }).get? d = some v)
    (hd : base.components.size ≤ d.index) : e ∉ v.exits.values := by
  intro hmem
  obtain ⟨howner, htag⟩ :=
    (h.components c x hx hc).exits (tag, e) (OrderedMap.mem_entries_of_find? he) y hy
  rcases Arena.get?_modify_cases hv with ⟨rfl, z, hz, rfl⟩ | ⟨hne, hv⟩
  · cases hx.symm.trans hz
    obtain ⟨te, hte, rfl⟩ := OrderedMap.mem_values.mp hmem
    have hkey : te.1 ≠ tag := by simpa [OrderedMap.erase] using (List.mem_filter.mp hte).2
    have hlisted := (h.components d x hx hc).exits te (OrderedMap.mem_entries_erase hte) y hy
    exact hkey (hlisted.2.symm.trans htag)
  · exact hne ((h.owner_of_listed hv hd hmem hy).symm.trans howner)

theorem buffers_of_dropOutBuf {e : ExitId} {o d : ComponentId}
    (hd : IsBuffer base { n with
      exits := n.exits.modify e fun y => { y with peer := none }
      components := n.components.modify o fun b => { b with owner := none } } d) :
    IsBuffer base n d := by
  rcases hd with ⟨m, x', i, hx', hm, hi, rfl⟩ | ⟨k, y', hy', hk, hpeer⟩
  · rcases Arena.get?_modify_cases hx' with ⟨rfl, x, hx, rfl⟩ | ⟨-, hx⟩
    · exact .inl ⟨m, x, i, hx, hm, hi, rfl⟩
    · exact .inl ⟨m, x', i, hx, hm, hi, rfl⟩
  · rcases Arena.get?_modify_cases hy' with ⟨rfl, y, hy, rfl⟩ | ⟨-, hy⟩
    · cases hpeer
    · exact .inr ⟨k, y', hy, hk, hpeer⟩

theorem safe_removeExit {c : ComponentId} (hq : ¬ S.quiet) (hc : .has (.component c) ∈ K)
    (hplain : .plain c ∈ K) (tag : ExitTag) : Safe S K (removeExit c tag) fun _ => [] := by
  refine .guarded (.structural S.open_unguarded hq (loose_removeExit S.loose_loose hc tag)
    fun hstrict s hs => ?_) fun s hs => wp_discard.mp (hs.edit (.dropExit c tag)
    (by simp [Edit.refs, hc]) (hs.facts _ hplain).2)
  have hl := hs.sound.linked
  have hsh := hs.sound.shaped hstrict
  have hnew := hs.facts _ hc
  have hbuf := (hs.facts _ hplain).2 hstrict
  obtain ⟨x, hx⟩ := Arena.exists_get? hnew.2
  simp only [removeExit, wp_bind]
  refine (wp_component hx).mpr ?_
  cases he : x.exits.find? tag with
  | none => exact ⟨hsh, fun _ _ h => h, by simp⟩
  | some e =>
      have hmem := OrderedMap.mem_values_of_find? he
      have henew := hl.exit_new hx hnew.1 hmem
      obtain ⟨y, hy⟩ := Arena.exists_get? henew.2
      simp only [wp_bind]
      refine (wp_changeComponent hnew.2).mpr (Iff.mpr (wp_exit hy) ?_)
      have herased := hsh.eraseExit hbuf tag
      have hbuffers : ∀ d, d.index < s.state.components.size → IsBuffer S.base { s.state with
          components := s.state.components.modify c fun x =>
            { x with exits := x.exits.erase tag } } d → IsBuffer S.base s.state d :=
        buffers_of_back (inBufs_modify fun _ => rfl) fun _ z _ hz hp => .inl ⟨z, hz, hp⟩
      cases hpeer : y.peer with
      | none => exact ⟨herased, hbuffers, by simp⟩
      | some o =>
          have hlinked := hl.eraseExit hnew.1 tag
          have hdropped := herased.dropOutBuf hlinked hy henew.1 hpeer
            (hl.not_listed_eraseExit hx hnew.1 he hy)
          have hpeernew := (Exit.forall_refs.mp (hl.exits e y hy henew.1).refs).2.2 o hpeer
          have hpeerless := hlinked.modifyExit henew.1 (f := fun y => { y with peer := none })
            fun z _ => ⟨rfl, rfl, fun hz => ?_⟩
          · simp only [wp_bind]
            refine Iff.mpr (wp_changeExit henew.2) ?_
            have hrun := (safe_disconnect (S := S.calm) (K := [.has (.component o)]) (c := o)
              (by simp)).calmly (t := moved s _) ⟨⟨hpeerless, False.elim, trivial⟩, by
                simpa using ⟨hpeernew.1, by simpa using hpeernew.2⟩⟩
            refine wp_mono hrun ?_ fun _ _ h => h
            rintro - v ⟨hv, hshape⟩
            refine (wp_changeComponent (hv.facts (.has (.component o)) (by simp)).2).mpr ?_
            refine Reshaped.congr ⟨hdropped, fun d hlt hd => hbuffers d hlt ?_, by simp⟩
              (hshape.setOwner o none) (by simp)
            exact buffers_of_dropOutBuf hd
          · obtain ⟨howner, hbuses, -⟩ := Exit.forall_refs.mp hz.refs
            exact ⟨Exit.forall_refs.mpr ⟨howner, hbuses, by simp⟩, hz.buses⟩

/-! ### Replacement and merging -/

/-- A task whose body is replaced calls the new one. -/
theorem safe_recall {m old new : ComponentId} (hm : .has (.component m) ∈ K)
    (hnew : .has (.component new) ∈ K) : Safe S K (changeComponent m fun c =>
      match c.kind with
      | .module (.task body) =>
        if body = old then { c with kind := .module (.task new) } else c
      | _ => c) fun _ => [] := by
  refine safe_changeComponent hm (fun n x hn _ hl => ?_) (fun n x _ _ => ?_) (.inr fun x => ?_)
  · split
    · split
      · refine { hl with kind := ⟨fun c hc => ?_, by simp [ComponentKind.pins]⟩ }
        obtain rfl : c = new := by simpa [ComponentKind.components] using hc
        exact (hn.facts _ hnew).2
      · exact hl
    · exact hl
  · split
    · next hkind =>
      split
      · simp [Component.shape, hkind, ComponentKind.plain]
      · rfl
    · rfl
  · split
    · split <;> rfl
    · rfl

theorem safe_replaceComponent {m old new : ComponentId} (hq : ¬ S.quiet)
    (hm : .has (.component m) ∈ K) (hold : .has (.component old) ∈ K)
    (hnew : .has (.component new) ∈ K) : Safe S K (replaceComponent m old new) fun _ => [] := by
  refine .bind (safe_component hm) fun x => ?_
  have hswap : ∀ {K'}, (∀ f ∈ K, f ∈ K') → Safe S K' (do
      if ← removeComponent m old then
        addComponent m new
        changeComponent m fun c =>
          match c.kind with
          | .module (.task body) =>
            if body = old then { c with kind := .module (.task new) } else c
          | _ => c
        return true
      else return false) fun _ => [] := by
    intro K' hK
    refine .bind (safe_removeComponent hq (hK _ hm) (hK _ hold)) fun was => ?_
    cases was with
    | true =>
        exact .bind (safe_addComponent hq (by simp [hK _ hm]) (by simp [hK _ hnew])) fun _ => .bind
          (safe_recall (by simp [hK _ hm]) (by simp [hK _ hnew])) fun _ => .pure (by simp)
    | false => exact .pure (by simp)
  cases x.kind.module? with
  | none => exact .bind (P := fun _ => []) (.abort _) fun _ => hswap (by simp +contextual)
  | some kind =>
      simp only
      split
      · exact .bind (P := fun _ => []) (.abort _) fun _ => hswap (by simp +contextual)
      · exact hswap (by simp +contextual)

/-- The exits that have been gathered. -/
def gatheredFacts (byTag : OrderedMap ExitTag (List ExitId)) : List Fact :=
  byTag.entries.flatMap fun e => e.2.map fun x => .has (.exit x)

theorem mem_gatheredFacts {byTag : OrderedMap ExitTag (List ExitId)} {f : Fact} :
    f ∈ gatheredFacts byTag ↔ ∃ e ∈ byTag.entries, ∃ x ∈ e.2, .has (.exit x) = f := by
  simp [gatheredFacts]

theorem mem_gatheredFacts_alter {byTag : OrderedMap ExitTag (List ExitId)} {tag : ExitTag}
    {x : ExitId} {f : Fact}
    (hf : f ∈ gatheredFacts (byTag.alter tag fun xs => xs.getD [] ++ [x])) :
    f ∈ gatheredFacts byTag ∨ f = .has (.exit x) := by
  obtain ⟨e, he, z, hz, rfl⟩ := mem_gatheredFacts.mp hf
  rcases OrderedMap.mem_entries_alter he with he | ⟨-, hv⟩ | ⟨xs, hxs, rfl⟩
  · exact .inl (mem_gatheredFacts.mpr ⟨e, he, z, hz, rfl⟩)
  · rw [hv] at hz
    exact .inr (by simpa using hz)
  · rcases List.mem_append.mp hz with hz | hz
    · exact .inl (mem_gatheredFacts.mpr ⟨_, hxs, z, hz, rfl⟩)
    · exact .inr (by simpa using hz)

theorem safe_exitsByTag {cs : List ComponentId} (hcs : ∀ c ∈ cs, .has (.component c) ∈ K) :
    Safe S K (exitsByTag cs) gatheredFacts := by
  refine .foldlM (by simp [gatheredFacts]) fun c hc byTag => ?_
  refine .bind (safe_component (by simp [hcs c hc])) fun x => ?_
  refine .foldlM (by simp +contextual) fun e he byTag' => ?_
  refine .bind (safe_exit (by simp [he])) fun y => .pure fun f hf => ?_
  rcases mem_gatheredFacts_alter hf with hf | rfl
  · simp [hf]
  · simp [he]

theorem safe_enterOutBuf {o : ComponentId} {clock reset : BusId} {e : ExitId}
    (ho : .has (.component o) ∈ K) (hclock : .has (.bus clock) ∈ K) (hreset : .has (.bus reset) ∈ K)
    (he : .has (.exit e) ∈ K) : Safe S K (enterOutBuf o clock reset e) fun _ => [] := by
  refine .bind (safe_hasEntry ho) fun found => ?_
  split
  · refine .bind (safe_makeEntry (by simp [ho]) (by simp [he])) fun i => .bind
      (safe_exit (by simp [he])) fun y => .bind (safe_component (by simp [ho])) fun b => .bind
      (safe_addDependency (by simp) (by simp) (by simp [hclock])) fun _ => .bind
      (safe_addDependency (by simp) (by simp) (by simp [hreset])) fun _ =>
      safe_addDependency (by simp) (by simp) (by simp)
  · exact .pure (by simp)

theorem safe_mergeExits {m : ComponentId} {cs : List ComponentId} (hq : ¬ S.quiet)
    (hm : .has (.component m) ∈ K) (hplain : .plain m ∈ K)
    (hcs : ∀ c ∈ cs, .has (.component c) ∈ K) : Safe S K (mergeExits m cs) fun _ => [] := by
  refine .bind (safe_exitsByTag hcs) fun byTag => .bind (safe_clockBus (by simp [hm])) fun clock =>
    .bind (safe_resetBus (by simp [hm])) fun reset => .forM fun e he => ?_
  have hgathered : ∀ x ∈ e.2, Fact.has (.exit x) ∈ gatheredFacts byTag := fun x hx =>
    mem_gatheredFacts.mpr ⟨e, he, x, hx, rfl⟩
  have henter : ∀ {K'} d, Fact.has (.exit d) ∈ K' → .has (.component m) ∈ K' →
      .has (.bus clock) ∈ K' → .has (.bus reset) ∈ K' → (∀ f ∈ gatheredFacts byTag, f ∈ K') →
      Safe S K' (do
        let outBuf ← Build.expect .noOutBuf (← exit d).peer
        e.2.forM (enterOutBuf outBuf clock reset)
        let name := (← component m).name
        Build.log .trace .modules s!"merged {e.1.text} exits into {quote name}") fun _ => [] := by
    intro K' d hd hm hclock hreset hK
    refine .bind (safe_exit hd) fun y => .bind (P := fun o => [.has (.component o)])
      (.expect fun o ho => by simp [ho]) fun o => .bind (.forM fun z hz => ?_) fun _ => .bind
      (safe_component (by simp [hm])) fun _ => .log _ _ _
    exact safe_enterOutBuf (by simp) (by simp [hclock]) (by simp [hreset])
      (by simp [hK _ (hgathered z hz)])
  refine .bind (safe_component (by simp [hm])) fun x => ?_
  cases hfind : x.exits.find? e.1 with
  | some d =>
      have hd := OrderedMap.mem_values_of_find? hfind
      exact .bind (P := fun z => [.has (.exit z)]) (.pure (by simp [hd])) fun z => henter z
        (by simp) (by simp [hm]) (by simp) (by simp) (by simp +contextual)
  | none =>
      exact .bind (safe_makeExit hq (by simp [hm]) (by simp [hplain]) 0 e.1) fun d => henter d
        (by simp) (by simp [hm]) (by simp) (by simp) (by simp +contextual)

end DataflowSynth.Netlist
