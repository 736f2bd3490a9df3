/-
The children of a copy.

The children of a module are copied one after the other, each with all it owns, and put into the copy.
What has been copied stays as it is: copying the next child only adds to the netlist, and putting it
into the copy touches nothing but the copy and the owner of the child.
-/
import DataflowSynth.Proofs.Clone.Exits

namespace DataflowSynth.Netlist

open Build

variable {pins : Nat} {n t t' : Netlist} {s : Traced Netlist} {c d m copy : ComponentId}
  {x x' : Component} {map map' : Correspondence}

/-! ### What has been copied -/

/-- Everything in `D` has been copied, to components from the number `lo` up to `hi`. -/
def Done (n t : Netlist) (map : Correspondence) (lo hi : Nat) (D : ComponentId → Prop) : Prop :=
  ∀ d, D d → ∃ d', map.components.find? d = some d' ∧ lo ≤ d'.index ∧ d'.index < hi ∧
    Copied n t map d d'

namespace Done

variable {D D' : ComponentId → Prop} {lo hi lo' hi' : Nat}

theorem widen (h : Done n t map lo hi D) (hlo : lo' ≤ lo) (hhi : hi ≤ hi') :
    Done n t map lo' hi' D := by
  intro d hd
  obtain ⟨d', hfind, hge, hlt, hcopied⟩ := h d hd
  exact ⟨d', hfind, Nat.le_trans hlo hge, Nat.lt_of_lt_of_le hlt hhi, hcopied⟩

theorem restrict (h : Done n t map lo hi D) (hD : ∀ d, D' d → D d) : Done n t map lo hi D' :=
  fun d hd => h d (hD d hd)

theorem or (h : Done n t map lo hi D) (h' : Done n t map lo hi D') :
    Done n t map lo hi fun d => D d ∨ D' d :=
  fun d hd => hd.elim (h d) (h' d)

/-- What has been copied stays so while other components are changed and learnt about. -/
theorem mono {R R' : ComponentId → Prop} (h : Done n t map lo hi D) (hn : Linked pins {} n)
    (ht : Linked pins n t) (hgrows : t.Grows t') (hs : Spares R' t t')
    (hR' : ∀ d' : ComponentId, lo ≤ d'.index → d'.index < hi → ¬ R' d')
    (he : Correspondence.Extends n R map map') (hR : ∀ d, D d → ¬ R d) :
    Done n t' map' lo hi D := by
  intro d hd
  obtain ⟨d', hfind, hge, hlt, hcopied⟩ := h d hd
  exact ⟨d', he.grows d d' hfind, hge, hlt,
    hcopied.mono hn ht hgrows hs (hR' d' hge hlt) he (hR d hd)⟩

end Done

/-- `c` and all it owns have been copied to what `t` has beyond `s`. -/
structure TreeCopied (pins : Nat) (n s t : Netlist) (map map' : Correspondence)
    (c copy : ComponentId) : Prop where
  linked : Linked pins s t
  shaped : Shaped s t
  learns : Correspondence.Extends n (Part n c) map map'
  found : map'.components.find? c = some copy
  owner : ∃ x', t.components.get? copy = some x' ∧ x'.owner = none
  done : Done n t map' s.components.size t.components.size (Part n c)

/-! ### What has been copied before -/

/-- The correspondence knows a copy of the component. -/
def Correspondence.Has (map : Correspondence) (e : ComponentId) : Prop :=
  ∃ e', map.components.find? e = some e'

/-- All copies that the correspondence knows are new. -/
def Correspondence.Anew (n t : Netlist) (map : Correspondence) : Prop :=
  ∀ e e', map.components.find? e = some e' → Ref.New n t (.component e')

theorem Correspondence.has_empty : Correspondence.Has {} = fun _ => False := by
  funext e
  refine propext ⟨?_, False.elim⟩
  rintro ⟨_, he⟩
  cases he

theorem Correspondence.anew_empty (n t : Netlist) : Correspondence.Anew n t {} := by
  intro _ _ he
  cases he

theorem Correspondence.Anew.mono (h : map.Anew n t) (hgrows : t.Grows t') : map.Anew n t' :=
  fun e e' he => (h e e' he).mono hgrows

/-- What is found afterwards was found before, or has been learnt. -/
theorem Correspondence.Extends.found {R : ComponentId → Prop} {d' : ComponentId}
    (h : Extends n R map map') (hd : map'.components.find? d = some d') :
    map.components.find? d = some d' ∨ R d := by
  by_cases hR : R d
  · exact .inr hR
  · exact .inl ((h.components d hR).symm.trans hd)

section

variable {lo hi : Nat} {D : ComponentId → Prop} (h : Done n t map' lo hi D)
  (hlearns : Correspondence.Extends n D map map')

include h hlearns

/-- Afterwards exactly what has been copied is known in addition. -/
theorem Done.has_eq : map'.Has = fun e => map.Has e ∨ D e := by
  funext e
  refine propext ⟨fun ⟨e', he'⟩ => (hlearns.found he').imp_left fun he => ⟨e', he⟩, ?_⟩
  · rintro (⟨e', he'⟩ | hD)
    · exact ⟨e', hlearns.grows e e' he'⟩
    · obtain ⟨e', he', -⟩ := h e hD
      exact ⟨e', he'⟩

theorem Done.anew (hlo : n.components.size ≤ lo) (hhi : hi ≤ t.components.size)
    (hmap : map.Anew n t) : map'.Anew n t := by
  intro e e' he'
  rcases hlearns.found he' with hold | hD
  · exact hmap e e' hold
  · obtain ⟨e'', hfind, hge, hlt, -⟩ := h e hD
    cases he'.symm.trans hfind
    exact ⟨Nat.le_trans hlo hge, Nat.lt_of_lt_of_le hlt hhi⟩

end

/-- Each of the components, which are copied one after the other, is as `G` asks for, given what is
known when its turn comes. -/
def InOrder (n : Netlist) (G : (ComponentId → Prop) → ComponentId → Prop) :
    (ComponentId → Prop) → List ComponentId → Prop
  | _, [] => True
  | K, d :: ds => G K d ∧ InOrder n G (fun e => K e ∨ Part n d e) ds

theorem InOrder.of_forall {G : (ComponentId → Prop) → ComponentId → Prop} {K : ComponentId → Prop}
    {ds : List ComponentId} (h : ∀ d ∈ ds, ∀ K, G K d) : InOrder n G K ds := by
  induction ds generalizing K with
  | nil => trivial
  | cons d ds ih => exact ⟨h d (by simp) K, ih fun e he => h e (by simp [he])⟩

/-! ### Putting a child into its module -/

theorem addComponent_ok {y : Component} {i : Interior} (hc : s.state.components.get? c = some x)
    (howner : x.owner = none) (hm : s.state.components.get? m = some y) (hi : y.interior = some i)
    (hne : m ≠ c) :
    wp (addComponent m c) (fun _ t => Spares (· = m) s.state t.state ∧
      t.state.components.get? m = some { y with
        interior := y.interior.map fun i => { i with children := i.children ++ [c] } })
      Never s := by
  have hm' : (s.state.components.modify c fun x => { x with owner := some m }).get? m = some y := by
    rw [Arena.get?_modify_of_ne _ hne.symm, hm]
  rw [addComponent, wp_bind, wp_component hc]
  simp only [howner, wp_bind]
  refine Iff.mpr (wp_changeComponent (Arena.lt_of_get? hc)) ?_
  simp only [changeInterior, interior, wp_bind]
  refine (wp_component hm').mpr ?_
  simp only [hi, wp_expect_some]
  refine (wp_changeComponent (Arena.lt_of_get? hm')).mpr ⟨⟨fun d z hz hd => ?_,
    fun p z hz _ => ⟨z, hz, rfl⟩, fun _ _ hz _ => hz, fun b z _ hz _ _ => ⟨z, hz, rfl⟩⟩, ?_⟩
  · refine ⟨rechild c m (some m) (fun i => { i with children := i.children ++ [c] }) d z,
      (get?_rechild d).trans (congrArg _ hz), ?_⟩
    simp only [rechild, if_neg hd, Component.still]
  · refine (Arena.get?_modify_self _ _ _).trans ((congrArg _ hm').trans ?_)
    simp only [Option.map_some, hi]

/-! ### All children -/

/-- The children of a component, which has none if it is no module. -/
def Component.children (x : Component) : List ComponentId :=
  (x.interior.map Interior.children).getD []

theorem Component.mem_children : d ∈ x.children ↔ ∃ i, x.interior = some i ∧ d ∈ i.children := by
  unfold children
  cases x.interior <;> simp

theorem kid_of_mem_children (hx : n.components.get? c = some x) (hd : d ∈ x.children) :
    Kid n c d := by
  obtain ⟨i, hi, hd⟩ := Component.mem_children.mp hd
  exact ⟨x, i, hx, hi, .inl hd⟩

theorem Whole.nodup_children (hw : Whole pins n) (hx : n.components.get? c = some x) :
    x.children.Nodup := by
  unfold Component.children
  cases hi : x.interior with
  | none => simp
  | some i =>
      simpa using ((hw.shaped.components c x hx (Nat.zero_le _)).interior i hi).nodup

/-- The module with more children. -/
def Component.withChildren (x : Component) (ds : List ComponentId) : Component :=
  { x with interior := x.interior.map fun i => { i with children := i.children ++ ds } }

theorem Component.withChildren_nil (x : Component) : x.withChildren [] = x := by
  unfold withChildren
  cases h : x.interior <;> simp [← h]

theorem Component.withChildren_withChildren (x : Component) (ds ds' : List ComponentId) :
    (x.withChildren ds).withChildren ds' = x.withChildren (ds ++ ds') := by
  unfold withChildren
  cases h : x.interior <;> simp

/-- The children `ds` have been copied and put into `copy`, which was `x'`. -/
structure ChildrenCopied (pins : Nat) (n base s t : Netlist) (map map' : Correspondence)
    (copy : ComponentId) (x' : Component) (ds : List ComponentId) : Prop where
  knows : (Scope.beyond pins base).Knows (draftFacts copy) t
  grows : s.Grows t
  spares : Spares (· = copy) s t
  learns : Correspondence.Extends n (fun e => ∃ d ∈ ds, Part n d e) map map'
  copied : ∃ ds', t.components.get? copy = some (x'.withChildren ds') ∧
    List.Forall₂ (fun d d' => map'.components.find? d = some d') ds ds'
  done : Done n t map' s.components.size t.components.size fun e => ∃ d ∈ ds, Part n d e

/-- More children are copied after those that have been. -/
theorem ChildrenCopied.append {base s t u : Netlist} {map₁ : Correspondence} {y : Component}
    {ds ds' : List ComponentId} (hw : Whole pins n) (hn : Linked pins n base)
    (hx' : s.components.get? copy = some x') (hy : t.components.get? copy = some y)
    (h : ChildrenCopied pins n base s t map map₁ copy x' ds)
    (h' : ChildrenCopied pins n base t u map₁ map' copy y ds')
    (hdisjoint : ∀ e, (∃ d ∈ ds, Part n d e) → ¬ ∃ d ∈ ds', Part n d e) :
    ChildrenCopied pins n base s u map map' copy x' (ds ++ ds') where
  knows := h'.knows
  grows := h.grows.trans h'.grows
  spares := h.spares.trans h'.spares
  learns := (h.learns.mono fun _ ⟨d, hd, he⟩ => ⟨d, List.mem_append_left _ hd, he⟩).trans
    (h'.learns.mono fun _ ⟨d, hd, he⟩ => ⟨d, List.mem_append_right _ hd, he⟩)
  copied := by
    obtain ⟨es, hes, hrel⟩ := h.copied
    obtain ⟨es', hes', hrel'⟩ := h'.copied
    cases hy.symm.trans hes
    refine ⟨es ++ es', ?_, ?_⟩
    · rw [hes', Component.withChildren_withChildren]
    · exact List.rel_append (hrel.imp fun _ _ => h'.learns.grows _ _) hrel'
  done := by
    have hearly := h.done.mono hw.linked (hn.trans h.knows.sound.linked) h'.grows h'.spares
      (fun e hle _ heq => absurd (heq ▸ hle) (Nat.not_le_of_lt (Arena.lt_of_get? hx')))
      h'.learns hdisjoint
    refine ((hearly.widen (Nat.le_refl _) h'.grows.components).or
      (h'.done.widen h.grows.components (Nat.le_refl _))).restrict ?_
    rintro e ⟨d, hd, he⟩
    exact (List.mem_append.mp hd).imp (fun hd => ⟨d, hd, he⟩) fun hd => ⟨d, hd, he⟩

/-- A child that can be copied, or is not as it should be, is put into the copy of its module. -/
theorem copyChild_spec (hw : Whole pins n) {base : Netlist} (hn : Linked pins n base)
    {depth : Nat} {good : Prop}
    (hd : wp (copyTree depth d map)
      (fun r t => TreeCopied pins n s.state t.state map r.2 d r.1 ∧ good) (fun _ _ => ¬ good) s)
    (hs : (Scope.beyond pins base).Knows (draftFacts copy) s.state)
    (hx' : s.state.components.get? copy = some x') (hi : x'.interior.isSome = true) :
    wp (do
        let (child, map) ← copyTree depth d map
        addComponent copy child
        return map)
      (fun map' t => ChildrenCopied pins n base s.state t.state map map' copy x' [d] ∧ good)
      (fun _ _ => ¬ good) s := by
  have hlt := Arena.lt_of_get? hx'
  rw [wp_bind]
  refine wp_mono hd (fun r t hr => ?_) fun _ _ h => h
  obtain ⟨d', map₁⟩ := r
  obtain ⟨ht, hgood⟩ := hr
  obtain ⟨y, hy, howner⟩ := ht.owner
  obtain ⟨d'', hfind, hge, -, -⟩ := ht.done d .self
  cases ht.found.symm.trans hfind
  have hcopy := (ht.linked.keeps.components.get? copy hlt).trans hx'
  have hne : copy ≠ d' := fun heq => absurd (heq ▸ hge) (Nat.not_le_of_lt hlt)
  obtain ⟨i', hi'⟩ := Option.isSome_iff_exists.mp hi
  obtain ⟨hsound, hevolves⟩ := hs.grow id ht.linked ht.shaped trivial
  have hnew : Ref.New base t.state (.component d') :=
    ⟨Nat.le_trans hs.sound.linked.keeps.components.size hge, Arena.lt_of_get? hy⟩
  have hknows : (Scope.beyond pins base).Knows (.has (.component d') :: draftFacts copy)
      t.state := by
    refine ⟨hsound, List.forall_mem_cons.mpr ⟨hnew, fun f hf => ?_⟩⟩
    exact hs.sound.holds_mono hevolves (hs.facts f hf)
  rw [wp_bind]
  refine wp_mono ((safe_addComponent id (by simp [draftFacts]) (by simp)).along hknows
    (addComponent_ok hy howner hcopy hi' hne)) (fun _ u hu => ?_) fun _ _ h => h.elim
  obtain ⟨hknows', hevolves', hspares, hcopy'⟩ := hu
  have hdone := ht.done.mono hw.linked ((hn.trans hs.sound.linked).trans ht.linked) hevolves'.grows
    hspares (fun e hle _ heq => absurd (heq ▸ hle) (Nat.not_le_of_lt hlt))
    (.refl n (fun _ => False) map₁) fun _ _ h => h
  refine (wp_pure map₁).mpr ⟨⟨hknows'.mono (by simp +contextual),
    hevolves.grows.trans hevolves'.grows, (Spares.of_keeps ht.linked.keeps _).trans hspares,
    ht.learns.mono fun e he => ⟨d, by simp, he⟩, ⟨[d'], hcopy', .cons ht.found .nil⟩, ?_⟩, hgood⟩
  refine (hdone.widen (Nat.le_refl _) hevolves'.grows.components).restrict ?_
  simp

/-- If each child can be copied or is not as it should be, then so can all children, one after the
other. -/
theorem copyChildren_spec (hw : Whole pins n) (hc : Finite n c) {base : Netlist}
    (hn : Linked pins n base) {depth : Nat} {ds : List ComponentId} (hkids : ∀ d ∈ ds, Kid n c d)
    (hnodup : ds.Nodup) {G : (ComponentId → Prop) → ComponentId → Prop}
    (ih : ∀ d ∈ ds, ∀ (u : Traced Netlist) (map : Correspondence), Linked pins n u.state →
      map.Anew n u.state → (∀ e, Part n d e → map.components.find? e = none) →
      wp (copyTree depth d map)
        (fun r t => TreeCopied pins n u.state t.state map r.2 d r.1 ∧ G map.Has d)
        (fun _ _ => ¬ G map.Has d) u)
    (hs : (Scope.beyond pins base).Knows (draftFacts copy) s.state)
    (hx' : s.state.components.get? copy = some x') (hi : ∀ d ∈ ds, x'.interior.isSome = true)
    (hanew : map.Anew n s.state)
    (hmap : ∀ d ∈ ds, ∀ e, Part n d e → map.components.find? e = none) :
    wp (ds.foldlM (fun map child => do
        let (child, map) ← copyTree depth child map
        addComponent copy child
        return map) map)
      (fun map' t => ChildrenCopied pins n base s.state t.state map map' copy x' ds ∧
        InOrder n G map.Has ds) (fun _ _ => ¬ InOrder n G map.Has ds) s := by
  induction ds generalizing s x' map with
  | nil =>
      exact ⟨⟨hs, .refl _, .refl _ _, .refl _ _ _, ⟨[], by rw [x'.withChildren_nil, hx'], .nil⟩,
        fun e he => by simp at he⟩, trivial⟩
  | cons d ds ihds =>
      rw [List.nodup_cons] at hnodup
      have hkid := hkids d (by simp)
      -- What `d` owns is not owned by the children that come after it.
      have hdisjoint : ∀ e, Part n d e → ¬ ∃ d₂ ∈ ds, Part n d₂ e := by
        rintro e he ⟨d₂, hd₂, he₂⟩
        cases hw.kids_disjoint hc hkid (hkids d₂ (by simp [hd₂])) he he₂
        exact hnodup.1 hd₂
      rw [List.foldlM_cons, wp_bind]
      refine wp_mono (copyChild_spec hw hn (ih d (by simp) s map (hn.trans hs.sound.linked) hanew
        (hmap d (by simp))) hs hx' (hi d (by simp))) (fun map₁ t ht => ?_)
        fun _ _ h => fun hall => h hall.1
      obtain ⟨ht, hfirst⟩ := ht
      obtain ⟨es, hy, -⟩ := ht.copied
      have hknown : map₁.Has = fun e => map.Has e ∨ Part n d e := by
        simpa using ht.done.has_eq ht.learns
      have hsize := (hn.trans hs.sound.linked).keeps.components.size
      refine wp_mono (ihds (fun e he => hkids e (by simp [he])) hnodup.2
        (fun e he => ih e (by simp [he])) ht.knows hy (fun e he => ?_)
        (ht.done.anew ht.learns hsize (Nat.le_refl _) (hanew.mono ht.grows)) fun d₂ hd₂ e he => ?_)
        (fun map' v hv => ?_) fun _ _ h => fun hall => h (hknown ▸ hall.2)
      · simpa [Component.withChildren] using hi e (by simp [he])
      · rw [ht.learns.components e ?_]
        · exact hmap d₂ (by simp [hd₂]) e he
        · simpa using fun hpart => hdisjoint e hpart ⟨d₂, hd₂, he⟩
      · exact ⟨ht.append hw hn hx' hy hv.1 (by simpa using hdisjoint), hfirst, hknown ▸ hv.2⟩

end DataflowSynth.Netlist
