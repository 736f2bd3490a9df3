/-
What a component is, whose it is and what it holds.

Most steps leave all of that alone, for every component that was there before.  Only children coming
and going change it, and the exchange of the body of a task, and each of these changes little.
-/
import DataflowSynth.Proofs.Netlist.Routine

namespace DataflowSynth

open Build

namespace Netlist

/-! ### Standings -/

/-- What is told of a component here. -/
structure Standing where
  kind : ComponentKind
  owner : Option ComponentId
  /-- Of a module, what stands in it. -/
  children : Option (List ComponentId)

def Component.standing (x : Component) : Standing :=
  ⟨x.kind, x.owner, x.interior.map (·.children)⟩

def standing? (n : Netlist) (c : ComponentId) : Option Standing :=
  (n.components.get? c).map Component.standing

/-- All that was there is as it was. -/
def Rests (n n' : Netlist) : Prop := ∀ c v, n.standing? c = some v → n'.standing? c = some v

instance : IsPreorder Netlist Rests where
  refl _ _ _ h := h
  trans _ _ _ h h' c v hv := h' c v (h c v hv)

theorem standing_of_shape {x y : Component} (hshape : y.shape = x.shape) (hkind : y.kind = x.kind) :
    y.standing = x.standing := by
  have howner := congrArg Component.owner hshape
  have hinterior := congrArg (fun z => z.interior.map (·.children)) hshape
  simp only [Component.shape, Option.map_map] at howner hinterior
  simp only [Component.standing, hkind, howner]
  exact congrArg _ hinterior

theorem standing?_eq {n : Netlist} {c : ComponentId} {x : Component}
    (hx : n.components.get? c = some x) : n.standing? c = some x.standing := by
  rw [standing?, hx, Option.map_some]

theorem exists_of_standing? {n : Netlist} {c : ComponentId} {v : Standing}
    (hv : n.standing? c = some v) : ∃ x, n.components.get? c = some x ∧ x.standing = v :=
  Option.map_eq_some_iff.mp hv

theorem lt_of_standing? {n : Netlist} {c : ComponentId} {v : Standing}
    (hv : n.standing? c = some v) : c.index < n.components.size := by
  obtain ⟨x, hx, -⟩ := exists_of_standing? hv
  exact Arena.lt_of_get? hx

theorem standing?_of_components {n n' : Netlist} (h : n'.components = n.components) :
    n'.standing? = n.standing? := by
  funext c
  rw [standing?, h, standing?]

/-- A change of one component is a change of its standing. -/
theorem standing?_modify {n : Netlist} {c : ComponentId} {f : Component → Component}
    {g : Standing → Standing} (hf : ∀ x, (f x).standing = g x.standing) (d : ComponentId) :
    standing? { n with components := n.components.modify c f } d =
      if d = c then (n.standing? d).map g else n.standing? d := by
  simp only [standing?, Arena.get?_modify]
  split
  · simp only [Option.map_map]
    exact congrFun (congrArg Option.map (funext hf)) _
  · rfl

/-- A component that is new disturbs nobody. -/
theorem rests_of_get? {n n' : Netlist}
    (h : ∀ d, d.index < n.components.size → n'.components.get? d = n.components.get? d) :
    Rests n n' := by
  intro c v hv
  rw [standing?, h c (lt_of_standing? hv)]
  exact hv

/-! ### Steps that disturb nobody -/

section

variable {c : ComponentId} {p : PortId} {b : BusId}

theorem rests_changeComponent {f : Component → Component} (hf : ∀ x, (f x).standing = x.standing) :
    Moves Rests (changeComponent c f) := by
  refine .bind (.look _) fun _ => .ite (.change fun n d v hv => ?_) (.abort _)
  rw [standing?_modify (g := id) hf]
  simpa using hv

theorem rests_change {f : Netlist → Netlist} (hf : ∀ n, (f n).components = n.components) :
    Moves Rests (Build.change f) := by
  refine .change fun n d v hv => ?_
  rw [standing?_of_components (hf n)]
  exact hv

theorem rests_changePort {f : Port → Port} : Moves Rests (changePort p f) :=
  .bind (.look _) fun _ => .ite (rests_change fun _ => rfl) (.abort _)

theorem rests_changeBus {f : Bus → Bus} : Moves Rests (changeBus b f) :=
  .bind (.look _) fun _ => .ite (rests_change fun _ => rfl) (.abort _)

theorem rests_changeEntry {i : EntryId} {f : Entry → Entry} : Moves Rests (changeEntry i f) :=
  .bind (.look _) fun _ => .ite (rests_change fun _ => rfl) (.abort _)

/-- The OutBuf that a module gets with an exit is new. -/
theorem rests_makeExit {tag : ExitTag} : Moves Rests (makeExit c 0 tag) := by
  intro s
  by_cases hc : c.index < s.state.components.size
  · obtain ⟨x, hx⟩ := Arena.exists_get? hc
    have hexit : Rests s.state (s.state.withExit c tag) := by
      intro d v hv
      have hsame := standing?_modify (n := s.state) (c := c) (g := id)
        (f := fun y => { y with exits := y.exits.put tag s.state.exits.next }) (fun _ => rfl) d
      rw [Option.map_id, id, ite_self] at hsame
      exact hsame.trans hv
    cases htag : x.exits.contains tag with
    | true => exact (wp_makeExit_taken hx htag 0).mpr trivial
    | false =>
        cases hi : x.interior with
        | none => exact (wp_makeExit hx htag hi 0).mpr hexit
        | some i =>
            refine (wp_makeExit_module hx htag hi 0).mpr (trans_of Rests hexit (rests_of_get? ?_))
            intro d hd
            refine (get?_withOutBuf _ _ _ _ _ d).trans (if_neg ?_)
            rintro rfl
            exact Nat.lt_irrefl _ hd
  · have hnone : s.state.components.get? c = none := Arena.get?_of_size_le (Nat.le_of_not_lt hc)
    simp only [makeExit, component, wp_bind, wp_look, hnone, wp_expect_none]
    trivial

/-- The wiring of a task disturbs nobody. -/
theorem ignores_rests : Ignores Rests where
  component hf := rests_changeComponent fun x => standing_of_shape (hf x).1 (hf x).2.1
  port := rests_changePort
  bus := rests_changeBus
  entry := rests_changeEntry
  addEntry := .bind (.look _) fun _ => .bind (rests_change fun _ => rfl) fun _ => .pure _
  makeExit := rests_makeExit

end

/-! ### Children -/

namespace Standing

/-- How things stand once `m` has taken `c` in. -/
def adopted (m c d : ComponentId) (v : Standing) : Standing where
  kind := v.kind
  owner := if d = c then some m else v.owner
  children := if d = m then v.children.map (· ++ [c]) else v.children

/-- How things stand once `m` has let `c` go. -/
def released (m c d : ComponentId) (v : Standing) : Standing where
  kind := v.kind
  owner := if d = c then none else v.owner
  children := if d = m then v.children.map (·.erase c) else v.children

end Standing

section

variable {c m : ComponentId} {s : Traced Netlist}

theorem wp_changeStanding {f : Component → Component} {g : Standing → Standing}
    (hf : ∀ x, (f x).standing = g x.standing) :
    wp (changeComponent c f) (fun _ t => t.state.standing? = fun d =>
      if d = c then (s.state.standing? d).map g else s.state.standing? d)
      (fun e _ => e.Unless False) s := by
  refine wp_changeComponent_of (fun _ => trivial) fun x hx => ?_
  funext d
  exact standing?_modify hf d

theorem wp_changeInteriorStanding {f : Interior → Interior}
    {g : List ComponentId → List ComponentId} (hf : ∀ i, (f i).children = g i.children) :
    wp (changeInterior m f) (fun _ t =>
      (∃ v cs, s.state.standing? m = some v ∧ v.children = some cs) ∧ t.state.standing? = fun d =>
        if d = m then (s.state.standing? d).map fun v => { v with children := v.children.map g }
        else s.state.standing? d) (fun e _ => e.Unless False) s := by
  simp only [changeInterior, interior, wp_bind]
  refine wp_component_of (fun x hx => wp_expect (fun i hi => ?_) trivial) trivial
  refine wp_mono (wp_changeStanding (g := fun v => { v with children := v.children.map g })
    fun y => ?_) (fun _ t ht => ⟨⟨_, i.children, standing?_eq hx, ?_⟩, ht⟩) fun _ _ h => h
  rotate_left
  · rw [Component.standing, hi, Option.map_some]
  cases hy : y.interior with
  | none => simp [Component.standing, hy]
  | some j => simp [Component.standing, hy, hf]

/-- A component that is taken in was in the module before, or nowhere. -/
theorem wp_addComponent_standing : wp (addComponent m c) (fun _ t =>
    ∃ v, s.state.standing? c = some v ∧ (v.owner = some m ∧ t.state = s.state ∨
      v.owner = none ∧ (∃ w cs, s.state.standing? m = some w ∧ w.children = some cs) ∧
        ∀ d w, s.state.standing? d = some w → t.state.standing? d = some (w.adopted m c d)))
    (fun e _ => e.Unless False) s := by
  simp only [addComponent, wp_bind]
  refine wp_component_of (fun x hx => ?_) trivial
  split
  · next o howner =>
    split
    · simp only [wp_bind]
      exact wp_component_of (fun _ _ => trivial) trivial
    · next hsame =>
      exact ⟨_, standing?_eq hx, .inl ⟨by simpa [Component.standing, howner] using hsame, rfl⟩⟩
  · next hfree =>
    simp only [wp_bind]
    refine wp_mono (wp_changeStanding (g := fun v => { v with owner := some m }) fun _ => rfl)
      (fun _ t ht => ?_) fun _ _ h => h
    refine wp_mono (wp_changeInteriorStanding (g := (· ++ [c])) fun _ => rfl) (fun _ u hu => ?_)
      fun _ _ h => h
    obtain ⟨⟨w, cs, hw, hcs⟩, hu⟩ := hu
    refine ⟨_, standing?_eq hx, .inr ⟨hfree, ?_, fun d w hw => ?_⟩⟩
    · simp only [ht] at hw
      split at hw
      · obtain ⟨w', hw', rfl⟩ := Option.map_eq_some_iff.mp hw
        exact ⟨w', cs, hw', hcs⟩
      · exact ⟨w, cs, hw, hcs⟩
    rw [hu, ht]
    simp only [hw, Standing.adopted]
    split <;> split <;> simp

/-- What is let go was a child.  Its connections are gone with it, but nobody else has moved. -/
theorem wp_removeComponent_standing : wp (removeComponent m c) (fun done t =>
    (done = false ∧ t.state = s.state) ∨ (done = true ∧
      (∃ v cs, s.state.standing? m = some v ∧ v.children = some cs ∧ c ∈ cs) ∧
      ∀ d w, s.state.standing? d = some w → t.state.standing? d = some (w.released m c d)))
    (fun e _ => e.Unless False) s := by
  simp only [removeComponent, children, interior, wp_bind]
  refine wp_component_of (fun x hx => wp_expect (fun i hi => ?_) trivial) trivial
  simp only [wp_pure]
  split
  · next hmem =>
    simp only [wp_bind]
    refine wp_mono (wp_changeInteriorStanding (g := (·.erase c)) fun _ => rfl) ?_ fun _ _ h => h
    rintro _ t ⟨_, ht⟩
    refine wp_mono (moves_outBufs (R := Rests) t) (fun os u hu => ?_) fun _ _ h => h
    refine wp_mono (Moves.forM (fun o _ => ignores_rests.dropEntries) u) (fun _ v hv => ?_) fun _ _ h => h
    refine wp_mono (ignores_rests.disconnect v) (fun _ w hw => ?_) fun _ _ h => h
    refine wp_mono (wp_changeStanding (g := fun v => { v with owner := none }) fun _ => rfl)
      (fun _ r hr => ?_) fun _ _ h => h
    refine .inr ⟨rfl, ⟨_, _, standing?_eq hx, by rw [Component.standing, hi, Option.map_some],
      List.contains_iff_mem.mp hmem⟩, fun d y hy => ?_⟩
    have hrest := trans_of Rests hu (trans_of Rests hv hw) d
    rw [ht] at hrest
    rw [hr]
    by_cases hdm : d = m
    · simp only [hdm, if_true] at hrest hy ⊢
      rw [hrest _ (by rw [hy, Option.map_some])]
      simp only [Standing.released, if_true]
      split <;> rfl
    · simp only [hdm, if_false] at hrest ⊢
      rw [hrest _ hy]
      simp only [Standing.released, hdm, if_false]
      split <;> rfl
  · exact .inl ⟨rfl, rfl⟩

/-- The kind of a module in which `new` is put in the place of `old`. -/
def ComponentKind.recalled (old new : ComponentId) : ComponentKind → ComponentKind
  | .module (.task body) => if body = old then .module (.task new) else .module (.task body)
  | kind => kind

/-- `new` stands in `m` in the place of `old`, or is a buffer.  `f` is what becomes of the kind of
`m`. -/
structure Refilled (m old new : ComponentId) (f : ComponentKind → ComponentKind) (n n' : Netlist) :
    Prop where
  others : ∀ d w, d ≠ m → n.standing? d = some w →
    ∃ w', n'.standing? d = some w' ∧ w'.kind = w.kind ∧ w'.children = w.children
  module : ∃ v cs v' cs', n.standing? m = some v ∧ v.children = some cs ∧ old ∈ cs ∧
    n'.standing? m = some v' ∧ v'.children = some cs' ∧ v'.kind = f v.kind ∧
    (∀ c ∈ cs', c ∈ cs ∧ c ≠ old ∨ c = new) ∧ (∀ c ∈ cs, c ≠ old → c ∈ cs') ∧
    (new ∈ cs' ∨ ∃ w, n.standing? new = some w ∧ w.kind.isBuffer = true)

theorem Holdings.Owned.place {n : Netlist} (ho : n.holdings.Owned) {w : Standing}
    (hw : n.standing? c = some w) (howner : w.owner = some m) :
    (∃ v cs, n.standing? m = some v ∧ v.children = some cs ∧ c ∈ cs) ∨ w.kind.isBuffer = true := by
  obtain ⟨x, hx, rfl⟩ := exists_of_standing? hw
  obtain ⟨slot, hslot⟩ := ho.placed m c (by simpa [holdings, hx, Component.standing] using howner)
  by_cases hchild : slot = .child
  · subst hchild
    obtain ⟨i, hi, hmem⟩ := hslot
    obtain ⟨y, hy, hi⟩ := Option.bind_eq_some_iff.mp hi
    exact .inl ⟨_, _, standing?_eq hy, by rw [Component.standing, hi, Option.map_some], hmem⟩
  · right
    rcases ho.buffers m slot c hslot hchild with hkind | hkind <;>
      simp only [holdings, hx, Option.map_some, Option.some.injEq, plain_eq_inBuf,
        plain_eq_outBuf] at hkind <;> simp [Component.standing, hkind, ComponentKind.isBuffer]

theorem Holdings.Owned.nodup_children {n : Netlist} (ho : n.holdings.Owned) {v : Standing}
    {cs : List ComponentId} (hv : n.standing? m = some v) (hcs : v.children = some cs) : cs.Nodup := by
  obtain ⟨x, hx, rfl⟩ := exists_of_standing? hv
  obtain ⟨i, hi, rfl⟩ := Option.map_eq_some_iff.mp hcs
  exact ho.nodup m i (by simp [holdings, hx, hi])

/-- Letting the old one go and taking the new one in. -/
theorem refilled_of_released {old new : ComponentId} {n n' n'' : Netlist} (ho : n.holdings.Owned)
    (ho' : n'.holdings.Owned) {v u : Standing} {cs : List ComponentId}
    (hv : n.standing? m = some v) (hcs : v.children = some cs) (hmem : old ∈ cs)
    (hu : n.standing? new = some u)
    (hout : ∀ d w, n.standing? d = some w → n'.standing? d = some (w.released m old d))
    (hin : ∃ w, n'.standing? new = some w ∧ (w.owner = some m ∧ n'' = n' ∨
      w.owner = none ∧ (∃ w cs, n'.standing? m = some w ∧ w.children = some cs) ∧
        ∀ d w, n'.standing? d = some w → n''.standing? d = some (w.adopted m new d))) :
    Refilled m old new id n n'' := by
  have hnodup := ho.nodup_children hv hcs
  have hleft : (v.released m old m).children = some (cs.erase old) := by
    simp [Standing.released, hcs]
  have hvn := hout m v hv
  obtain ⟨w, hw, ⟨howner, rfl⟩ | ⟨-, -, hput⟩⟩ := hin
  · -- The new one was in `m` all along.
    obtain rfl := Option.some.inj (hw.symm.trans (hout new u hu))
    refine ⟨fun d w hdm hw => ⟨_, hout d w hw, rfl, if_neg hdm⟩, v, cs, _, cs.erase old, hv, hcs,
      hmem, hvn, hleft, rfl, fun c hc => .inl (hnodup.mem_erase_iff.mp hc).symm,
      fun c hc hne => hnodup.mem_erase_iff.mpr ⟨hne, hc⟩, ?_⟩
    refine (ho'.place (hout new u hu) howner).imp (fun hplace => ?_) fun h => ⟨u, hu, h⟩
    obtain ⟨v', cs', hv', hcs', hnew⟩ := hplace
    obtain rfl := Option.some.inj (hv'.symm.trans hvn)
    obtain rfl := Option.some.inj (hleft.symm.trans hcs')
    exact hnew
  · refine ⟨fun d w hdm hw => ⟨_, hput d _ (hout d w hw), rfl, (if_neg hdm).trans (if_neg hdm)⟩, v,
      cs, _, cs.erase old ++ [new], hv, hcs, hmem, hput m _ hvn, ?_, rfl, fun c hc => ?_,
      fun c hc hne => ?_, .inl (by simp)⟩
    · simp [Standing.adopted, hleft]
    · exact (List.mem_append.mp hc).imp (fun hc => (hnodup.mem_erase_iff.mp hc).symm)
        List.mem_singleton.mp
    · exact List.mem_append_left _ (hnodup.mem_erase_iff.mpr ⟨hne, hc⟩)

/-- A replacement does nothing, or it puts the new component in the place of the old one. -/
theorem wp_replaceComponent_standing {old new : ComponentId} (ho : s.state.holdings.Owned)
    (hnew : new.index < s.state.components.size) :
    wp (replaceComponent m old new) (fun done t =>
      (done = false ∧ t.state = s.state) ∨
        (done = true ∧ Refilled m old new (·.recalled old new) s.state t.state))
      (fun e _ => e.Unless False) s := by
  obtain ⟨x, hx⟩ := Arena.exists_get? hnew
  have hswap : wp (do
      if ← removeComponent m old then
        addComponent m new
        changeComponent m fun c =>
          match c.kind with
          | .module (.task body) =>
            if body = old then { c with kind := .module (.task new) } else c
          | _ => c
        return true
      else return false) (fun done t => (done = false ∧ t.state = s.state) ∨
        (done = true ∧ Refilled m old new (·.recalled old new) s.state t.state))
      (fun e _ => e.Unless False) s := by
    rw [wp_bind]
    refine wp_mono (wp_and wp_removeComponent_standing (edited_removeComponent m old))
      (fun done t ht => ?_) fun _ _ h => h.1
    obtain ⟨⟨rfl, ht⟩ | ⟨rfl, ⟨v, cs, hv, hcs, hmem⟩, ht⟩, hedited⟩ := ht
    · exact .inl ⟨rfl, ht⟩
    have ho' := ho.edited hedited
    rw [if_pos rfl, wp_bind]
    refine wp_mono wp_addComponent_standing (fun _ r hr => ?_) fun _ _ h => h
    obtain ⟨hothers, v, cs, v', cs', hv, hcs, hmem, hv', hcs', hkind, hlists⟩ :=
      refilled_of_released ho ho' hv hcs hmem (standing?_eq hx) ht hr
    rw [wp_bind]
    refine wp_mono (wp_changeStanding (g := fun v => { v with kind := v.kind.recalled old new })
      fun y => ?_) (fun _ q hq => .inr ⟨rfl, fun d w hdm hw => ?_, v, cs,
        { v' with kind := v.kind.recalled old new }, cs', hv, hcs, hmem, ?_, hcs', rfl, hlists⟩)
      fun _ _ h => h
    · simp only [Component.standing, ComponentKind.recalled]
      split
      · next hbody => split <;> simp only [hbody]
      · rfl
    · rw [hq]
      simp only [hdm, if_false]
      exact hothers d w hdm hw
    · rw [hq]
      simp [hv', hkind]
  simp only [replaceComponent, wp_bind]
  refine wp_component_of (fun y _ => ?_) trivial
  cases y.kind.module? with
  | none => simp only [wp_bind]; trivial
  | some kind =>
      dsimp only
      split
      · simp only [wp_bind]
        trivial
      · simp only [wp_bind] at hswap ⊢
        exact hswap

/-- A new module stands nowhere and holds nothing. -/
theorem wp_newModule_standing (kind : ModuleKind) (stem : String)
    {F : Failure → Traced Netlist → Prop} :
    wp (newModule kind stem 0) (fun m t => m = s.state.components.next ∧ Rests s.state t.state ∧
      t.state.standing? m = some ⟨.module kind, none, some []⟩) F s := by
  refine (wp_newModule kind stem 0).mpr ⟨rfl, rests_of_get? fun d hd => ?_, ?_⟩
  · refine (get?_withModule _ _ _ d).trans ?_
    rw [if_neg (by omega), if_neg (by omega)]
  · refine (standing?_eq ((get?_withModule _ _ _ _).trans (if_pos rfl))).trans ?_
    simp [Component.standing, newModuleComponent, shell]

end

end Netlist

end DataflowSynth
