/-
Copies of different components are different.

A copy stands in its module as the component stands in its own, and it knows its owner.  So if two
components had one copy, their owners would have one copy too, and going up like this ends at the root,
whose copy has no owner.
-/
import DataflowSynth.Proofs.Clone.Buffers

namespace DataflowSynth.Netlist

variable {pins lo hi : Nat} {base n t : Netlist} {c d m copy : ComponentId} {x x' : Component}
  {map : Correspondence}

/-- If everything has one counterpart and the counterparts are different, then so is what they are
counterparts of. -/
theorem eq_of_forall₂ {α β : Type} {P : α → β → Prop} {l : List α} {l' : List β}
    (h : List.Forall₂ P l l') (hnodup : l'.Nodup) (hP : ∀ a b b', P a b → P a b' → b = b')
    {a₁ a₂ : α} {b : β} (h₁ : a₁ ∈ l) (h₂ : a₂ ∈ l) (hb₁ : P a₁ b) (hb₂ : P a₂ b) : a₁ = a₂ := by
  induction h with
  | nil => simp at h₁
  | @cons a b' l l' hab hrest ih =>
      rw [List.nodup_cons] at hnodup
      have hlater : ∀ {e}, e ∈ l → P e b → b ≠ b' := by
        rintro e he hb rfl
        obtain ⟨b₂, hmem, hb₂⟩ := exists_of_forall₂ hrest he
        exact hnodup.1 (hP e _ _ hb hb₂ ▸ hmem)
      rcases List.mem_cons.mp h₁ with heq₁ | hmem₁ <;> rcases List.mem_cons.mp h₂ with heq₂ | hmem₂
      · exact heq₁.trans heq₂.symm
      · exact absurd (hP _ _ _ hb₁ (heq₁ ▸ hab)) (hlater hmem₂ hb₂)
      · exact absurd (hP _ _ _ hb₂ (heq₂ ▸ hab)) (hlater hmem₁ hb₁)
      · exact ih hnodup.2 hmem₁ hmem₂

/-! ### What a module owns, in order -/

/-- The OutBufs of the exits of a component. -/
def Component.outBufs (n : Netlist) (x : Component) : List ComponentId :=
  x.exits.values.filterMap fun e => (n.exits.get? e).bind Exit.peer

/-- Everything that a component owns. -/
def Component.kids (n : Netlist) (x : Component) : List ComponentId :=
  (x.interior.map fun i => i.inBuf :: (i.children ++ x.outBufs n)).getD []

theorem mem_outBufs : d ∈ x.outBufs n ↔ Peers n x.exits.values d := by
  simp only [Component.outBufs, List.mem_filterMap, Option.bind_eq_some_iff, Peers]

theorem kid_iff_mem_kids (hx : n.components.get? m = some x) : Kid n m d ↔ d ∈ x.kids n := by
  unfold Kid Component.kids
  cases hi : x.interior with
  | none => simp [hx, hi]
  | some i =>
      simp only [hx, Option.some.injEq, exists_and_left, exists_eq_left', hi, Option.map_some,
        Option.getD_some, List.mem_cons, List.mem_append, mem_outBufs, Peers]
      tauto

section

variable (hl : Linked pins base n) (hs : Shaped base n) (hx : n.components.get? m = some x)
  (hm : base.components.size ≤ m.index)

include hl hs hx hm

theorem nodup_outBufs : (x.outBufs n).Nodup := by
  have hnodup := hl.nodup_exits hx hm (hs.components m x hx hm).tags
  refine List.pairwise_filterMap.mpr (hnodup.imp_of_mem fun he he' hne o ho o' ho' => ?_)
  obtain ⟨y, hy, hpeer⟩ := Option.bind_eq_some_iff.mp ho
  obtain ⟨y', hy', hpeer'⟩ := Option.bind_eq_some_iff.mp ho'
  rintro rfl
  exact hne (hs.outBuf_inj hl hy (hl.exit_new hx hm he).1 hpeer hy' (hl.exit_new hx hm he').1 hpeer')

theorem nodup_kids : (x.kids n).Nodup := by
  unfold Component.kids
  cases hi : x.interior with
  | none => exact List.nodup_nil
  | some i =>
      have hinterior := (hs.components m x hx hm).interior i hi
      refine List.nodup_cons.mpr ⟨fun hmem => ?_, List.nodup_append.mpr ⟨hinterior.nodup,
        nodup_outBufs hl hs hx hm, fun d hd d' hd' => ?_⟩⟩
      · rcases List.mem_append.mp hmem with hmem | hmem
        · exact hinterior.notInBuf hmem
        · exact hs.inBuf_not_peer hl hx hm hi (mem_outBufs.mp hmem)
      · rintro rfl
        obtain ⟨e, he, y, hy, hpeer⟩ := mem_outBufs.mp hd'
        have howner := hl.owner_of_listed hx hm he hy
        exact (hs.exits e y hy (hl.exit_new hx hm he).1).notChild d hpeer x i (howner ▸ hx) hi hd

end

/-! ### Copies -/

/-- What a component owns is copied in order. -/
theorem Twin.kids (h : Twin n t map x x') :
    List.Forall₂ (fun d d' => map.components.find? d = some d') (x.kids n) (x'.kids t) := by
  have hvalues : List.Forall₂ (PeerTwin n t map) x.exits.values x'.exits.values :=
    List.forall₂_map_left_iff.mpr (List.forall₂_map_right_iff.mpr h.peers)
  have houts : List.Forall₂ (fun d d' => map.components.find? d = some d') (x.outBufs n)
      (x'.outBufs t) := by
    refine List.rel_filterMap (fun e e' he => ?_) hvalues
    obtain ⟨y, y', hy, hy', hrel⟩ := he
    rwa [hy, hy']
  have hrel := h.interior
  unfold Component.kids
  generalize x.interior = o, x'.interior = o' at hrel
  cases hrel with
  | none => exact .nil
  | some hi => exact .cons hi.inBuf (List.rel_append hi.children houts)

/-- The copy of what a component owns is owned by its copy. -/
theorem Copied.owner {m' d' : ComponentId} (h : Copied n t map m m') (hl : Linked pins base t)
    (hs : Shaped base t) (hnew : base.components.size ≤ m'.index) (hkid : Kid n m d)
    (hd : map.components.find? d = some d') : ∃ y, t.components.get? d' = some y ∧ y.owner = some m' := by
  obtain ⟨-, x, x', hx, hx', htwin⟩ := h
  obtain ⟨d₂, hmem, hd₂⟩ := exists_of_forall₂ htwin.kids ((kid_iff_mem_kids hx).mp hkid)
  cases hd.symm.trans hd₂
  exact (((kid_iff_mem_kids hx').mpr hmem).owned hl hs hnew).2

section

variable (hl : Linked pins n t) (hs : Shaped n t) (hdone : Done n t map lo hi (Part n c))

include hl hs hdone

theorem Done.owner {d' : ComponentId} (hm : Part n c m) (hkid : Kid n m d)
    (hd : map.components.find? d = some d') :
    ∃ m' y, map.components.find? m = some m' ∧ t.components.get? d' = some y ∧ y.owner = some m' := by
  obtain ⟨m', hm', -, -, hcopied⟩ := hdone m hm
  obtain ⟨y, hy, howner⟩ := hcopied.owner hl hs hcopied.new.1 hkid hd
  exact ⟨m', y, hm', hy, howner⟩

/-- What one component owns is copied to different components. -/
theorem Done.kids_injective {d₁ d₂ d' : ComponentId} (hm : Part n c m) (h₁ : Kid n m d₁)
    (h₂ : Kid n m d₂) (hd₁ : map.components.find? d₁ = some d')
    (hd₂ : map.components.find? d₂ = some d') : d₁ = d₂ := by
  obtain ⟨m', -, -, -, hnew, x, x', hx, hx', htwin⟩ := hdone m hm
  exact eq_of_forall₂ htwin.kids (nodup_kids hl hs hx' hnew.1)
    (fun a b b' hb hb' => Option.some.inj (hb.symm.trans hb')) ((kid_iff_mem_kids hx).mp h₁)
    ((kid_iff_mem_kids hx).mp h₂) hd₁ hd₂

/-- What has been copied has been copied to different components. -/
theorem Done.injective {r : Component} (hfound : map.components.find? c = some copy)
    (hr : t.components.get? copy = some r) (hroot : r.owner = none) {d₁ d₂ d' : ComponentId}
    (h₁ : Part n c d₁) (h₂ : Part n c d₂) (hd₁ : map.components.find? d₁ = some d')
    (hd₂ : map.components.find? d₂ = some d') : d₁ = d₂ := by
  -- Nothing that is owned has the copy of the root.
  have hne : ∀ {m d}, Part n c m → Kid n m d → map.components.find? d ≠ some copy := by
    intro m d hm hkid hd
    obtain ⟨m', y, -, hy, howner⟩ := hdone.owner hl hs hm hkid hd
    cases hr.symm.trans hy
    rw [hroot] at howner
    cases howner
  induction h₁ generalizing d₂ d' with
  | self =>
      cases hfound.symm.trans hd₁
      cases h₂ with
      | self => rfl
      | kid hm hkid => exact absurd hd₂ (hne hm hkid)
  | @kid m d₁ hm hkid ih =>
      cases h₂ with
      | self =>
          cases hfound.symm.trans hd₂
          exact absurd hd₁ (hne hm hkid)
      | @kid m₂ _ hm₂ hkid₂ =>
          obtain ⟨m', y, hm', hy, howner⟩ := hdone.owner hl hs hm hkid hd₁
          obtain ⟨m₂', y₂, hm₂', hy₂, howner₂⟩ := hdone.owner hl hs hm₂ hkid₂ hd₂
          cases hy.symm.trans hy₂
          cases howner.symm.trans howner₂
          obtain rfl := ih hm₂ hm' hm₂'
          exact hdone.kids_injective hl hs hm hkid hkid₂ hd₁ hd₂

end

end DataflowSynth.Netlist
