/-
Copying a component with all it owns.

The recursion follows the tree: first the shell, then the children with all they own, then the exits,
and at the end the terminals and the marks.  When the component has been copied, so has everything in
its tree.  Nothing can go wrong on the way but the marks.
-/
import DataflowSynth.Proofs.Clone.Marks

namespace DataflowSynth.Netlist

open Build

variable {pins lo hi : Nat} {n s t t' : Netlist} {u : Traced Netlist} {c d copy : ComponentId}
  {x x' : Component} {map map' map₀ : Correspondence} {ds ds' : List ComponentId}

/-! ### Drafts -/

theorem Draft.withChildren (h : Draft x x' ds) (ds' : List ComponentId) :
    Draft x (x'.withChildren ds') (ds ++ ds') where
  kind := h.kind
  owner := h.owner
  this := h.this
  data := h.data
  flags := ⟨h.flags.consumesClock, h.flags.consumesReset, h.flags.consumesGo,
    h.flags.producesDone, h.flags.doneSynchronous⟩
  interior := by
    have hrel := h.interior
    unfold Component.withChildren
    generalize x.interior = o, x'.interior = o' at hrel
    cases hrel with
    | none => exact .none
    | some hab => exact .some ⟨congrArg (· ++ ds') hab.1, hab.2⟩

theorem Draft.withExits (h : Draft x x' ds) (exits : OrderedMap ExitTag ExitId) :
    Draft x { x' with exits } ds :=
  ⟨h.kind, h.owner, h.this, h.data, ⟨h.flags.consumesClock, h.flags.consumesReset,
    h.flags.consumesGo, h.flags.producesDone, h.flags.doneSynchronous⟩, h.interior⟩

theorem Draft.isSome_interior (h : Draft x x' ds) : x'.interior.isSome = x.interior.isSome := by
  have hrel := h.interior
  generalize x.interior = o, x'.interior = o' at hrel
  cases hrel with
  | none => rfl
  | some => rfl

/-- The children of a draft correspond to those of the module. -/
theorem Draft.forall₂_children {P : ComponentId → ComponentId → Prop} (h : Draft x x' ds)
    (hds : List.Forall₂ P x.children ds) :
    Draft x x' x'.children ∧ List.Forall₂ P x.children x'.children := by
  suffices heq : x'.children = ds from ⟨heq ▸ h, heq ▸ hds⟩
  have hrel := h.interior
  unfold Component.children at hds ⊢
  cases hi : x.interior with
  | none =>
      obtain hi' : x'.interior = none := by simpa [hi] using h.isSome_interior
      rw [hi] at hds
      rw [hi']
      exact (List.forall₂_nil_left_iff.mp hds).symm
  | some i =>
      obtain ⟨i', hi'⟩ := Option.isSome_iff_exists.mp (h.isSome_interior.trans (by rw [hi]; rfl))
      rw [hi, hi'] at hrel
      rw [hi']
      cases hrel with
      | some hab => exact hab.1

/-! ### Terminals -/

theorem Equipped.control_eq_nil (h : Equipped pins lo hi n s t map c copy x x') {e : ExitId}
    {y : Exit} (he : e ∈ x.exits.values) (hy : n.exits.get? e = some y) : y.control = [] := by
  by_contra hne
  have howner := h.whole.linked.owner_of_listed h.source (Nat.zero_le _) he hy
  exact h.plain (howner ▸ (h.whole.shaped.exits e y hy (Nat.zero_le _)).control hne)

theorem Equipped.control_eq_nil' (h : Equipped pins lo hi n s t map c copy x x') {e : ExitId}
    {y : Exit} (he : e ∈ x'.exits.values) (hy : t.exits.get? e = some y) : y.control = [] := by
  by_contra hne
  have howner := h.linked.owner_of_listed h.target h.new he hy
  have hnew := (h.linked.exit_new h.target h.new he).1
  exact h.plain' (howner ▸ (h.shaped.exits e y hy hnew).control hne)

theorem Equipped.matches (h : Equipped pins lo hi n s t map c copy x x') : Matches n t x x' where
  this := h.draft.this
  data := h.draft.data
  exits := by
    refine forall₂_imp_mem h.exits fun a ha b hb hab => ?_
    obtain ⟨htag, y, y', hy, hy', hdata, -⟩ := hab
    refine ⟨htag, y, y', hy, hy', hdata, ?_⟩
    rw [h.control_eq_nil (OrderedMap.mem_values.mpr ⟨a, ha, rfl⟩) hy,
      h.control_eq_nil' (OrderedMap.mem_values.mpr ⟨b, hb, rfl⟩) hy']
    rfl

/-- Mapping the component pairs the terminals and disturbs nothing. -/
theorem Equipped.paired (h : Equipped pins lo hi n s t map c copy x x') (hns : Linked pins n s)
    (hc : Finite n c) (hm : Mapped pins n s t t' map map' c copy x x') :
    Paired pins lo hi n s t' map' c copy x x' where
  toSide := h.toSide.after hm
  draft := h.draft
  exits := h.exits.imp fun _ _ hab => ⟨hab.1, hab.2.mono (by rw [hm.exits]; exact .refl _)
    (Nat.le_refl _)⟩
  children := h.children.imp fun _ _ hd => hm.learns.grows _ _ hd
  done := by
    refine h.done.mono h.whole.linked (hns.trans h.linked) hm.grows hm.spares
      (fun d' hle _ heq => absurd hle (Nat.not_le_of_lt (heq ▸ h.early.1))) hm.learns ?_
    rintro e ⟨d, hd, hpart⟩ rfl
    exact hc.not_part (kid_of_mem_children h.source hd) hpart
  early := h.early
  range := ⟨h.range.1, Nat.le_trans h.range.2 hm.grows.components⟩
  plain := h.plain
  plain' := fun hin => h.plain' (hm.shape.isInBuf hin)
  twins := hm.twins
  found := hm.found

/-- A component without interior is complete. -/
theorem Paired.treeCopied (h : Paired pins lo hi n s t map c copy x x') (hi : x.interior = none)
    (hkind : x.kind.isModule = false)
    (hlearns : Correspondence.Extends n (Part n c) map₀ map) :
    TreeCopied pins n s t map₀ map c copy where
  linked := h.linked
  shaped := h.shaped
  learns := hlearns
  found := h.found
  owner := ⟨x', h.target, h.draft.owner⟩
  done d hd := by
    obtain rfl := hd.eq_of_flat h.source hi
    have hi' : x'.interior = none := by simpa [hi] using h.draft.isSome_interior
    refine ⟨copy, h.found, h.new, Arena.lt_of_get? h.target, h.new_target, x, x', h.source, h.target,
      h.twins, ?_, fun _ => h.draft.flags, fun _ => ?_, ?_, h.peers_flat hi hi' h.twins.exits⟩
    · rw [h.draft.kind]
      cases hk : x.kind with
      | module => simp [hk, ComponentKind.isModule] at hkind
      | _ => rfl
    · refine h.exits.imp fun a b hab => ?_
      obtain ⟨-, w, w', hw, hw', -, hlatency, -⟩ := hab
      exact ⟨w, w', hw, hw', hlatency⟩
    · rw [hi, hi']
      exact .none

/-! ### The whole tree -/

/-- What is asked of a component for it to be copied with all it owns: the tree is finite, every module
in it has an interior.  An InBuf is no component like others, since nothing else has its control
buses. -/
structure Cloneable (n : Netlist) (c : ComponentId) : Prop where
  finite : Finite n c
  modules : ∀ d x, Part n c d → n.components.get? d = some x → x.kind.isModule = true →
    x.interior.isSome = true
  plain : ¬ IsInBuf {} n c

theorem Whole.not_isInBuf_child (hw : Whole pins n) {i : Interior}
    (hx : n.components.get? c = some x) (hi : x.interior = some i) (hd : d ∈ i.children) :
    ¬ IsInBuf {} n d := by
  rintro ⟨m, y, j, hy, -, hj, rfl⟩
  cases hw.kid_inj ⟨x, i, hx, hi, .inl hd⟩ ⟨y, j, hy, hj, .inr (.inl rfl)⟩
  cases hx.symm.trans hy
  cases hi.symm.trans hj
  exact ((hw.shaped.components c x hx (Nat.zero_le _)).interior i hi).notInBuf hd

theorem Cloneable.child (h : Cloneable n c) (hw : Whole pins n)
    (hx : n.components.get? c = some x) (hd : d ∈ x.children) : Cloneable n d := by
  have hkid := kid_of_mem_children hx hd
  have hpart : ∀ {e}, Part n d e → Part n c e := (Part.self.kid hkid).trans
  obtain ⟨i, hi, hd⟩ := Component.mem_children.mp hd
  exact ⟨h.finite.inv hkid, fun e y he => h.modules e y (hpart he), hw.not_isInBuf_child hx hi hd⟩

theorem Cloneable.isModule_eq (h : Cloneable n c) (hw : Whole pins n)
    (hx : n.components.get? c = some x) : x.kind.isModule = x.interior.isSome := by
  cases hi : x.interior with
  | none =>
      by_contra hne
      have hmodule : x.kind.isModule = true := by simpa using hne
      simpa [hi] using h.modules c x .self hx hmodule
  | some i => exact ((hw.shaped.components c x hx (Nat.zero_le _)).interior i hi).kind

/-- After its shell, the children and the exits, the copy lacks nothing but names and marks. -/
theorem Draft.equipped {t₁ t₂ t₃ : Netlist} {x₁ : Component} {es' : List (ExitTag × ExitId)}
    (hw : Whole pins n) (hns : Linked pins n s) (hx : n.components.get? c = some x)
    (hplain : ¬ IsInBuf {} n c) (hdraft : Draft x x₁ [])
    (hknows : (Scope.beyond pins s).Knows (draftFacts copy) t₁)
    (hx₁ : t₁.components.get? copy = some x₁)
    (hchildren : ChildrenCopied pins n s t₁ t₂ map₀ map copy x₁ x.children)
    (hds : List.Forall₂ (fun d d' => map.components.find? d = some d') x.children ds')
    (hknows₃ : (Scope.beyond pins s).Knows (draftFacts copy) t₃) (hgrow : ExitsGrow copy t₂ t₃)
    (hx₃ : t₃.components.get? copy = some { x₁.withChildren ds' with exits := ⟨es'⟩ })
    (hes : List.Forall₂ (fun a b => a.1 = b.1 ∧ ExitDraft t₂.components.size n t₃ a.2 b.2)
      x.exits.entries es') :
    Equipped pins t₁.components.size t₂.components.size n s t₃ map c copy x
      { x₁.withChildren ds' with exits := ⟨es'⟩ } := by
  have hfull : Draft x { x₁.withChildren ds' with exits := ⟨es'⟩ } ds' :=
    (hdraft.withChildren ds').withExits ⟨es'⟩
  obtain ⟨hdraft', hds'⟩ := hfull.forall₂_children hds
  have hnew := (hknows₃.facts (.has (.component copy)) (by simp [draftFacts])).1
  have hearly := Arena.lt_of_get? hx₁
  refine ⟨⟨hw, hns.keeps, hknows₃.sound.linked, hknows₃.sound.shaped trivial, hx, hx₃, hnew⟩,
    hdraft', hes, hds', ?_, ⟨hearly, fun i' hi' => ?_⟩,
    ⟨hknows.sound.linked.keeps.components.size, hgrow.grows.components⟩, hplain, fun hin => ?_⟩
  · exact hchildren.done.mono hw.linked (hns.trans hchildren.knows.sound.linked) hgrow.grows
      hgrow.spares (fun d' hle _ heq => absurd hle (Nat.not_le_of_lt (heq ▸ hearly)))
      (.refl n (fun _ => False) map) fun _ _ h => h
  · obtain ⟨i₁, hi₁, rfl⟩ := Option.map_eq_some_iff.mp hi'
    have hcopy := (hknows.facts (.has (.component copy)) (by simp [draftFacts])).1
    exact (hknows.sound.linked.inBuf_new hx₁ hcopy hi₁).2
  · exact (hknows₃.facts (.plain copy) (by simp [draftFacts])).2 trivial (.inl hin)

/-- A copy that has its children and its exits gets the counterparts of its terminals and its marks.
Then it is complete, or the marks are not as they should be. -/
theorem Equipped.finish_spec
    (h : Equipped pins lo hi n s u.state map c copy x x') (hns : Linked pins n s)
    (hc : Cloneable n c) (hanew : map₀.Anew n s)
    (hlearns : Correspondence.Extends n (fun e => ∃ d ∈ x.children, Part n d e) map₀ map)
    (hmap : ∀ e, Part n c e → map₀.components.find? e = none) :
    wp (do
        let map ← mapComponent map c copy
        if x.isModule then return (copy, ← copyMarks map c copy) else return (copy, map))
      (fun r v => TreeCopied pins n s v.state map₀ r.2 c r.1 ∧ Markable n map₀.Has c)
      (fun _ _ => ¬ Markable n map₀.Has c) u := by
  have hw := h.whole
  -- What is owned by the component, but by none of its children, has no counterpart yet.
  have hfresh : ∀ e, Part n c e → (∀ d ∈ x.children, ¬ Part n d e) →
      map.components.find? e = none := by
    intro e he hnot
    refine (hlearns.components e ?_).trans (hmap e he)
    rintro ⟨d, hd, hpart⟩
    exact hnot d hd hpart
  rw [wp_bind]
  refine wp_mono (mapComponent_ok h.toSide h.matches (hfresh c .self fun d hd =>
    hc.finite.not_part (kid_of_mem_children h.source hd))) (fun map₁ t ht => ?_) fun _ _ h => h.elim
  have hpaired := h.paired hns hc.finite ht
  have hparts : ∀ e, (∃ d ∈ x.children, Part n d e) → Part n c e := by
    rintro e ⟨d, hd, hpart⟩
    exact (Part.self.kid (kid_of_mem_children h.source hd)).trans hpart
  have hlearns₁ : Correspondence.Extends n (Part n c) map₀ map₁ :=
    (hlearns.mono hparts).trans (ht.learns.mono fun e he => he ▸ .self)
  cases hi : x.interior with
  | none =>
      rw [if_neg (by simp [Component.isModule, hi])]
      have hflat : x.kind.isModule = false := by simpa [hi] using hc.isModule_eq hw h.source
      refine ⟨hpaired.treeCopied hi hflat hlearns₁, fun y j hy hj => ?_, fun y body hy hbody => ?_⟩
      · cases h.source.symm.trans hy
        simp [hi] at hj
      · cases h.source.symm.trans hy
        simp [hbody, ComponentKind.isModule] at hflat
  | some i =>
      obtain ⟨i', hi'⟩ := Option.isSome_iff_exists.mp
        (h.draft.isSome_interior.trans (by rw [hi]; rfl))
      rw [if_pos (by simp [Component.isModule, hi]), wp_bind]
      refine wp_mono (copyMarks_spec hns hc.finite ⟨hpaired, hi, hi', fun b hb => ?_⟩ hanew hlearns₁)
        (fun _ _ hmarks => hmarks) fun _ _ hnot => hnot
      rw [ht.learns.components b (hb.ne hw.linked hw.shaped h.source (Nat.zero_le _) hi)]
      refine hfresh b (.kid .self (hb.kid h.source hi)) fun d hd => ?_
      exact hb.not_part h.source hi hw hc.finite (by simpa [Component.children, hi] using hd)

/-- The components in the tree of `c` are marked as they should be to be copied one after the other,
when `K` has been copied before.  `depth` bounds the nesting. -/
def MarkedTo (n : Netlist) : (depth : Nat) → (ComponentId → Prop) → ComponentId → Prop
  | 0, _, _ => False
  | depth + 1, K, c => Markable n K c ∧
    ∀ x, n.components.get? c = some x → InOrder n (MarkedTo n depth) K x.children

/-- Copying a component makes copies of all it owns, or there is something wrong with the marks. -/
theorem copyTree_spec (hw : Whole pins n) {depth : Nat} (hc : Cloneable n c)
    (hlt : c.index < n.components.size) (hdepth : NestedBy (Kid n) depth c)
    (hnu : Linked pins n u.state) (hanew : map.Anew n u.state)
    (hmap : ∀ e, Part n c e → map.components.find? e = none) :
    wp (copyTree depth c map)
      (fun r v => TreeCopied pins n u.state v.state map r.2 c r.1 ∧ MarkedTo n depth map.Has c)
      (fun _ _ => ¬ MarkedTo n depth map.Has c) u := by
  induction depth generalizing c u map with
  | zero => exact hdepth.elim
  | succ depth ih =>
      obtain ⟨x, hx⟩ := Arena.exists_get? hlt
      have hlinked := hw.linked.components c x hx (Nat.zero_le _)
      have hshaped := hw.shaped.components c x hx (Nat.zero_le _)
      have hxu := (hnu.keeps.components.get? c hlt).trans hx
      have hkid : ∀ d ∈ x.children, Kid n c d := fun d hd => kid_of_mem_children hx hd
      rw [copyTree, wp_bind]
      refine (wp_component hxu).mpr ?_
      -- The shell.
      rw [wp_bind]
      refine wp_mono (copyShell_ok hnu.keeps hx (hlinked.kind.mono hnu.keeps.grows)
        (hc.isModule_eq hw hx) fun p hp => ?_) (fun copy t₁ ht₁ => ?_) fun _ _ h => h.elim
      · exact ((Component.forall_refs.mp hlinked.refs).2.1 p (by simp [Component.ports, hp])).2
      obtain ⟨hknows₁, x₁, hx₁, hexits₁, hdraft₁⟩ := ht₁
      -- The children.
      rw [wp_bind]
      refine wp_mono (copyChildren_spec (G := MarkedTo n depth) hw hc.finite hnu hkid
        (hw.nodup_children hx) (fun d hd w map' hw' hanew' hmap' => ih (hc.child hw hx hd)
          (hw.part_lt (.kid .self (hkid d hd)) hlt) (hdepth d (hkid d hd)) hw' hanew' hmap')
        hknows₁ hx₁ (fun d hd => ?_) (hanew.mono hknows₁.sound.linked.keeps.grows)
        fun d hd e he => hmap e ((Part.self.kid (hkid d hd)).trans he)) (fun map₂ t₂ hmap₂ => ?_)
        fun _ _ hnot hmarked => hnot (hmarked.2 x hx)
      · obtain ⟨i, hi, -⟩ := Component.mem_children.mp hd
        rw [hdraft₁.isSome_interior, hi]
        rfl
      obtain ⟨ht₂, hinside⟩ := hmap₂
      obtain ⟨ds', hx₂, hds'⟩ := ht₂.copied
      -- The exits.
      have hnone : (x₁.withChildren ds').exits = ∅ := hexits₁
      have htags : (x.exits.entries.map Prod.fst).Nodup := hshaped.tags
      rw [wp_bind]
      refine wp_mono (copyExits_ok hnu.keeps ht₂.knows hx₂ htags
        fun a ha => ⟨by rw [hnone]; rfl, ?_⟩) (fun _ t₃ ht₃ => ?_) fun _ _ h => h.elim
      · have hnew := hw.linked.exit_new hx (Nat.zero_le _) (OrderedMap.mem_values.mpr ⟨a, ha, rfl⟩)
        obtain ⟨y, hy⟩ := Arena.exists_get? hnew.2
        exact ⟨y, hy, (hlinked.exits a ha y hy).2⟩
      obtain ⟨hknows₃, hgrow, es', hx₃, hes⟩ := ht₃
      rw [hnone, OrderedMap.entries_empty, List.nil_append] at hx₃
      -- The terminals and the marks.
      have hequipped := hdraft₁.equipped hw hnu hx hc.plain hknows₁ hx₁ ht₂ hds' hknows₃
        hgrow hx₃ hes
      refine wp_mono (hequipped.finish_spec hnu hc hanew ht₂.learns hmap)
        (fun r v hv => ⟨hv.1, hv.2, fun y hy => ?_⟩) fun _ _ hnot hmarked => hnot hmarked.1
      cases hx.symm.trans hy
      exact hinside

/-- The marks of a tree are as they should be if all marks in it are. -/
theorem markedTo_of_forall {depth : Nat} {K : ComponentId → Prop}
    (hdepth : NestedBy (Kid n) depth c) (h : ∀ d K, Part n c d → Markable n K d) :
    MarkedTo n depth K c := by
  induction depth generalizing c K with
  | zero => exact hdepth.elim
  | succ depth ih =>
      refine ⟨h c K .self, fun x hx => .of_forall fun d hd K => ?_⟩
      have hkid := kid_of_mem_children hx hd
      exact ih (hdepth d hkid) fun e K he => h e K ((Part.self.kid hkid).trans he)

end DataflowSynth.Netlist
