/-
Steps that change the shape of a netlist keep it shaped.

A step is described by what it leaves in the arena, so that it does not matter in which order its parts
were made.  The common argument is that whatever refers to a changed record is known: only a module
refers to its InBuf, only an exit to its OutBuf, and only an owner to its children.
-/
import DataflowSynth.Proofs.Netlist.Links
import DataflowSynth.Proofs.Netlist.Shaped

namespace DataflowSynth.Netlist

variable {pins : Nat} {base n n' : Netlist}

/-! ### New components -/

/-- A component that has only its control ports. -/
theorem Shaped.withShell (n : Netlist) (kind : ComponentKind) (name : String)
    (names : NameSupply) : Shaped n (n.withShell kind name names) where
  components c x hx hle := by
    rcases Arena.get?_push_cases hx with ⟨rfl, rfl⟩ | hx
    · refine ⟨?_, ?_, ?_, ?_, by simp, by simp, by simp, by simp, by simp⟩
      · simp [Component.ports, Handle.eq_iff_index, Nat.add_assoc]
      all_goals simp [portRole?, Netlist.withShell, Arena.get?_push_index, Port.new, Nat.add_assoc]
    · exact absurd hle (Nat.not_le_of_lt (Arena.lt_of_get? hx))
  exits e y hy hle := absurd hle (Nat.not_le_of_lt (Arena.lt_of_get? hy))
  ports p y hy hle := by
    have howner : y.owner = n.components.next ∧ p.index < n.ports.size + 3 := by
      have hlt : p.index < n.ports.size + 1 + 1 + 1 := by
        simpa only [Netlist.withShell, Arena.size_push] using Arena.lt_of_get? hy
      refine ⟨?_, hlt⟩
      rcases Arena.get?_push_cases hy with ⟨-, rfl⟩ | hy
      · rfl
      rcases Arena.get?_push_cases hy with ⟨-, rfl⟩ | hy
      · rfl
      rcases Arena.get?_push_cases hy with ⟨-, rfl⟩ | hy
      · rfl
      · exact absurd hle (Nat.not_le_of_lt (Arena.lt_of_get? hy))
    refine ⟨_, howner.1 ▸ Arena.get?_push_next _ _, ?_⟩
    simp [Component.ports, Handle.eq_iff_index]
    omega

/-! ### Who refers to whom -/

section

variable (hl : Linked pins base n)

include hl

theorem Linked.inBuf_new {m : ComponentId} {x : Component} {i : Interior}
    (hx : n.components.get? m = some x) (hm : base.components.size ≤ m.index)
    (hi : x.interior = some i) : Ref.New base n (.component i.inBuf) := by
  obtain ⟨-, -, -, -, hinterior⟩ := Component.forall_refs.mp (hl.components m x hx hm).refs
  exact (Interior.forall_refs.mp (hinterior i hi)).1

theorem Linked.child_new {m : ComponentId} {x : Component} {i : Interior}
    (hx : n.components.get? m = some x) (hm : base.components.size ≤ m.index)
    (hi : x.interior = some i) {d : ComponentId} (hd : d ∈ i.children) :
    Ref.New base n (.component d) := by
  obtain ⟨-, -, -, -, hinterior⟩ := Component.forall_refs.mp (hl.components m x hx hm).refs
  exact (Interior.forall_refs.mp (hinterior i hi)).2.1 d hd

theorem Linked.exit_new {c : ComponentId} {x : Component} (hx : n.components.get? c = some x)
    (hc : base.components.size ≤ c.index) {e : ExitId} (he : e ∈ x.exits.values) :
    Ref.New base n (.exit e) :=
  (Component.forall_refs.mp (hl.components c x hx hc).refs).2.2.1 e he

theorem Linked.owner_of_listed {c : ComponentId} {x : Component}
    (hx : n.components.get? c = some x) (hc : base.components.size ≤ c.index) {e : ExitId} {y : Exit}
    (he : e ∈ x.exits.values) (hy : n.exits.get? e = some y) : y.owner = c := by
  obtain ⟨te, hte, rfl⟩ := OrderedMap.mem_values.mp he
  exact ((hl.components c x hx hc).exits te hte y hy).1

/-- The exit of an InBuf belongs to the InBuf. -/
theorem Linked.owner_of_inBufExit {m : ComponentId} {x b : Component} {i : Interior} {e : ExitId}
    {y : Exit} (hx : n.components.get? m = some x) (hm : base.components.size ≤ m.index)
    (hi : x.interior = some i) (hb : n.components.get? i.inBuf = some b)
    (hexits : b.exits.entries = [(.done, e)]) (hy : n.exits.get? e = some y) :
    y.owner = i.inBuf := by
  exact hl.owner_of_listed hb (hl.inBuf_new hx hm hi).1 (OrderedMap.mem_values_singleton hexits) hy

variable (h : Shaped base n)

include h

omit hl in
/-- No two modules share an InBuf. -/
theorem Shaped.inBuf_inj {m m' : ComponentId} {x x' : Component} {i i' : Interior}
    (hx : n.components.get? m = some x) (hm : base.components.size ≤ m.index)
    (hi : x.interior = some i) (hx' : n.components.get? m' = some x')
    (hm' : base.components.size ≤ m'.index) (hi' : x'.interior = some i')
    (heq : i.inBuf = i'.inBuf) : m = m' := by
  obtain ⟨b, _, _, hb, _, hshaped⟩ := ((h.components m x hx hm).interior i hi).inBuf
  obtain ⟨b', _, _, hb', _, hshaped'⟩ := ((h.components m' x' hx' hm').interior i' hi').inBuf
  rw [heq, hb'] at hb
  cases hb
  exact Option.some.inj (hshaped.owner.symm.trans hshaped'.owner)

/-- No two exits share an OutBuf: its go repeats one done bus only. -/
theorem Shaped.outBuf_inj {e e' : ExitId} {y y' : Exit} {o : ComponentId}
    (hy : n.exits.get? e = some y) (he : base.exits.size ≤ e.index) (hpeer : y.peer = some o)
    (hy' : n.exits.get? e' = some y') (he' : base.exits.size ≤ e'.index)
    (hpeer' : y'.peer = some o) : e = e' := by
  obtain ⟨b, hb, hshaped⟩ := (h.exits e y hy he).outBuf o hpeer
  obtain ⟨b', hb', hshaped'⟩ := (h.exits e' y' hy' he').outBuf o hpeer'
  cases hb.symm.trans hb'
  obtain ⟨g, hg⟩ := Arena.exists_get? (hl.go_new hb (hl.outBuf_new hy he hpeer).1).2
  have hdone : y.done = y'.done :=
    Option.some.inj ((hshaped.go g hg).symm.trans (hshaped'.go g hg))
  have hbus := (Exit.forall_refs.mp (hl.exits e y hy he).refs).2.1 y.done (by simp [Exit.buses])
  obtain ⟨z, hz⟩ := Arena.exists_get? hbus.2
  rw [← (hl.exits e y hy he).buses y.done (by simp [Exit.buses]) z hz,
    ← (hl.exits e' y' hy' he').buses y'.done (by simp [Exit.buses]) z (hdone ▸ hz)]

omit hl in
/-- A buffer has nothing inside. -/
theorem Shaped.interior_of_isBuffer {c : ComponentId} {x : Component} (hc : IsBuffer base n c)
    (hx : n.components.get? c = some x) : x.interior = none := by
  rcases hc with ⟨m, y, i, hy, hm, hi, rfl⟩ | ⟨e, y, hy, he, hpeer⟩
  · obtain ⟨b, _, _, hb, _, hshaped⟩ := ((h.components m y hy hm).interior i hi).inBuf
    cases hx.symm.trans hb
    exact hshaped.interior
  · obtain ⟨b, hb, hshaped⟩ := (h.exits e y hy he).outBuf c hpeer
    cases hx.symm.trans hb
    exact hshaped.interior

omit hl in
/-- A component is not at once InBuf and OutBuf. -/
theorem Shaped.not_isOutBuf {c : ComponentId} (hc : IsInBuf base n c) : ¬ IsOutBuf base n c := by
  rintro ⟨e, y, hy, he, hpeer⟩
  obtain ⟨m, x, i, hx, hm, hi, rfl⟩ := hc
  obtain ⟨b, _, _, hb, _, hshaped⟩ := ((h.components m x hx hm).interior i hi).inBuf
  obtain ⟨b', hb', hshaped'⟩ := (h.exits e y hy he).outBuf _ hpeer
  cases hb.symm.trans hb'
  exact absurd (hshaped.kind.symm.trans hshaped'.kind) (by simp)

end

/-- The InBuf of a module is another component. -/
theorem InBufShaped.ne_module {m : ComponentId} {x b : Component} {i : Interior} {e : ExitId}
    {y : Exit} (h : InBufShaped n m x b e y) (hx : n.components.get? m = some x)
    (hi : x.interior = some i) (hb : n.components.get? i.inBuf = some b) : i.inBuf ≠ m := by
  intro heq
  rw [heq, hx] at hb
  cases hb
  rw [h.interior] at hi
  cases hi

/-! ### Changes of one component -/

section

variable {c : ComponentId} {f : Component → Component}

/-- Changing a component inside does not take the InBuf from a module. -/
theorem IsInBuf.modify {d : ComponentId} (hcomponents : n'.components = n.components.modify c f)
    (hf : ∀ x, (f x).interior = x.interior) (h : IsInBuf base n d) : IsInBuf base n' d := by
  obtain ⟨m, x, i, hx, hle, hi, hin⟩ := h
  by_cases heq : m = c
  · subst heq
    refine ⟨m, f x, i, ?_, hle, (hf x).trans hi, hin⟩
    rw [hcomponents, Arena.get?_modify_self, hx]
    rfl
  · refine ⟨m, x, i, ?_, hle, hi, hin⟩
    rw [hcomponents, Arena.get?_modify_of_ne _ (Ne.symm heq)]
    exact hx

/-- Children stay with their module while no owner changes. -/
theorem InteriorShaped.children_modify {m : ComponentId} {x : Component} {i : Interior}
    (h : InteriorShaped n m x i) (hf : ∀ x, (f x).owner = x.owner) :
    ∀ d ∈ i.children, ∀ y, (n.components.modify c f).get? d = some y → y.owner = some m := by
  intro d hd y hy
  rcases Arena.get?_modify_cases hy with ⟨rfl, z, hz, rfl⟩ | ⟨-, hy⟩
  · rw [hf]
    exact h.children d hd z hz
  · exact h.children d hd y hy

/-- An interior is not touched by the change of a component other than its InBuf. -/
theorem InteriorShaped.modify {m : ComponentId} {x : Component} {i : Interior}
    (h : InteriorShaped n m x i) (hr : SameRoles n n')
    (hcomponents : n'.components = n.components.modify c f)
    (hexits : ∀ b e y, n.components.get? i.inBuf = some b → b.exits.entries = [(.done, e)] →
      n.exits.get? e = some y → n'.exits.get? e = some y)
    (hne : i.inBuf ≠ c) (hf : ∀ x, (f x).owner = x.owner) : InteriorShaped n' m x i := by
  refine h.frame hr (fun b e y hb hentries hy => ⟨?_, hexits b e y hb hentries hy⟩)
    (hcomponents ▸ h.children_modify hf)
  rw [hcomponents, Arena.get?_modify_of_ne _ hne.symm]
  exact hb

/-- An OutBuf does not become a child while no children are added. -/
theorem ExitShaped.notChild_modify {y : Exit} (h : ExitShaped base n y)
    (hf : ∀ x, (f x).interior = x.interior) :
    ∀ o, y.peer = some o → ∀ x i, (n.components.modify c f).get? y.owner = some x →
      x.interior = some i → o ∉ i.children := by
  intro o ho x i hx hi
  rcases Arena.get?_modify_cases hx with ⟨heq, z, hz, rfl⟩ | ⟨-, hx⟩
  · exact h.notChild o ho z i (heq ▸ hz) ((hf z).symm.trans hi)
  · exact h.notChild o ho x i hx hi

/-- An exit is not touched by the change of a component other than its OutBuf. -/
theorem ExitShaped.modify {y : Exit} (h : ExitShaped base n y) (hr : SameRoles n n')
    (hcomponents : n'.components = n.components.modify c f)
    (hgo : ∀ o b, y.peer = some o → n.components.get? o = some b →
      n'.ports.get? b.go = n.ports.get? b.go)
    (hne : ∀ o, y.peer = some o → o ≠ c) (hf : ∀ x, (f x).interior = x.interior) :
    ExitShaped base n' y := by
  refine h.frame hr (IsInBuf.modify hcomponents hf)
    (fun o b ho hb => ⟨?_, fun g hg => ⟨g, hgo o b ho hb ▸ hg, rfl⟩⟩)
    (hcomponents ▸ h.notChild_modify hf)
  rw [hcomponents, Arena.get?_modify_of_ne _ (hne o ho).symm]
  exact hb

/-- A port stays listed while its owner loses none. -/
theorem listed_modify {d : ComponentId} {p : PortId}
    (hf : ∀ x, n.components.get? c = some x → p ∈ x.ports → p ∈ (f x).ports)
    (h : ∃ x, n.components.get? d = some x ∧ p ∈ x.ports) :
    ∃ x, (n.components.modify c f).get? d = some x ∧ p ∈ x.ports := by
  obtain ⟨x, hx, hmem⟩ := h
  by_cases heq : d = c
  · subst heq
    exact ⟨_, (Arena.get?_modify_self _ _ _).trans (congrArg _ hx), hf x hx hmem⟩
  · exact ⟨x, (Arena.get?_modify_of_ne _ (Ne.symm heq) _).trans hx, hmem⟩

end

/-! ### Data buses -/

/-- The netlist with a new data bus at an exit. -/
def withDataBus (n : Netlist) (e : ExitId) (name : String) : Netlist :=
  { n with
    buses := n.buses.push (.new name e .data)
    exits := n.exits.modify e fun y => { y with data := y.data ++ [n.buses.next] } }

/-- The netlist with a new data port at a component. -/
def withDataPort (n : Netlist) (c : ComponentId) (name : String) : Netlist :=
  { n with
    ports := n.ports.push (.new name c .data)
    components := n.components.modify c fun x => { x with dataPorts := x.dataPorts ++ [n.ports.next] } }

theorem sameRoles_push {n n' : Netlist} (hports : n.ports.Keeps n'.ports)
    (hbuses : n.buses.Keeps n'.buses) : SameRoles n n' where
  ports p r hr := by
    obtain ⟨y, hy, rfl⟩ := Option.map_eq_some_iff.mp hr
    rw [portRole?, hports.get? p (Arena.lt_of_get? hy), hy]
    rfl
  buses b r hr := by
    obtain ⟨z, hz, rfl⟩ := Option.map_eq_some_iff.mp hr
    rw [busRole?, hbuses.get? b (Arena.lt_of_get? hz), hz]
    rfl

/-- The exit with a new data bus has different buses, all in their roles. -/
theorem nodup_buses_push {e : ExitId} {y : Exit} (hlinked : ExitLinked base n e y)
    (h : y.buses.Nodup) : ({ y with data := y.data ++ [n.buses.next] } : Exit).buses.Nodup := by
  have hperm : ({ y with data := y.data ++ [n.buses.next] } : Exit).buses.Perm
      (n.buses.next :: y.buses) := by
    simp only [Exit.buses, List.cons_append, List.append_assoc]
    refine (List.Perm.cons _ ?_).trans (List.Perm.swap _ _ _)
    exact List.perm_middle
  exact hperm.nodup_iff.mpr (List.nodup_cons.mpr ⟨hlinked.next_not_mem, h⟩)

/-- An exit with one more data bus, if its buffer has one more port. -/
theorem ExitShaped.addData {e : ExitId} {y : Exit} (h : ExitShaped base n y)
    (hlinked : ExitLinked base n e y) (hr : SameRoles n n')
    (hrole : n'.busRole? n.buses.next = some .data)
    (hin : IsInBuf base n y.owner → IsInBuf base n' y.owner)
    (hout : ∀ o, y.peer = some o → ∃ b, n'.components.get? o = some b ∧
      OutBufShaped n' { y with data := y.data ++ [n.buses.next] } b)
    (hchild : ∀ o, y.peer = some o → ∀ x i, n'.components.get? y.owner = some x →
      x.interior = some i → o ∉ i.children) :
    ExitShaped base n' { y with data := y.data ++ [n.buses.next] } where
  nodup := nodup_buses_push hlinked h.nodup
  done := hr.buses _ _ h.done
  data b hb := by
    rcases List.mem_append.mp hb with hb | hb
    · exact hr.buses _ _ (h.data b hb)
    · obtain rfl := List.mem_singleton.mp hb
      exact hrole
  control hne := hin (h.control hne)
  outBuf := hout
  notChild := hchild

theorem ports_addData (x : Component) (q : PortId) :
    ({ x with dataPorts := x.dataPorts ++ [q] } : Component).ports = x.ports ++ [q] := by
  simp [Component.ports]

/-- A component with one more data port, if its interior is as it should be. -/
theorem ComponentShaped.addData {c : ComponentId} {x : Component} (h : ComponentShaped n c x)
    (hlinked : ComponentLinked pins base n c x) (hr : SameRoles n n')
    (hrole : n'.portRole? n.ports.next = some .data)
    (hpeers : ∀ e ∈ x.exits.values, ∀ y', n'.exits.get? e = some y' →
      ∃ y, n.exits.get? e = some y ∧ y'.peer = y.peer)
    (hinterior : ∀ i, x.interior = some i →
      InteriorShaped n' c { x with dataPorts := x.dataPorts ++ [n.ports.next] } i) :
    ComponentShaped n' c { x with dataPorts := x.dataPorts ++ [n.ports.next] } where
  nodup := by
    rw [ports_addData]
    refine List.nodup_append.mpr ⟨h.nodup, by simp, ?_⟩
    rintro p hp q hq rfl
    exact hlinked.next_not_mem (List.mem_singleton.mp hq ▸ hp)
  clock := hr.ports _ _ h.clock
  reset := hr.ports _ _ h.reset
  go := hr.ports _ _ h.go
  this p hp := hr.ports _ _ (h.this p hp)
  data p hp := by
    rcases List.mem_append.mp hp with hp | hp
    · exact hr.ports _ _ (h.data p hp)
    · obtain rfl := List.mem_singleton.mp hp
      exact hrole
  tags := h.tags
  outBufs e he y' hy' := by
    obtain ⟨y, hy, hpeer⟩ := hpeers e he y' hy'
    rw [hpeer, h.outBufs e he y hy]
  interior := hinterior

/-- The exits keep their peers when one of them is given a bus. -/
theorem peers_withDataBus {e e' : ExitId} (name : String) {y' : Exit}
    (hy' : (n.withDataBus e name).exits.get? e' = some y') :
    ∃ y, n.exits.get? e' = some y ∧ y'.peer = y.peer := by
  rcases Arena.get?_modify_cases hy' with ⟨rfl, y, hy, rfl⟩ | ⟨-, hy⟩
  · exact ⟨y, hy, rfl⟩
  · exact ⟨y', hy, rfl⟩

/-- A data bus at an exit without a buffer on either side. -/
theorem Shaped.withDataBus (hl : Linked pins base n) (h : Shaped base n) {e : ExitId} {y : Exit}
    (hy : n.exits.get? e = some y) (he : base.exits.size ≤ e.index) (hpeer : y.peer = none)
    (howner : ¬ IsInBuf base n y.owner) (name : String) : Shaped base (n.withDataBus e name) := by
  have hr : SameRoles n (n.withDataBus e name) := sameRoles_push (.refl _) ((Arena.Keeps.refl _).push _)
  refine ⟨fun c x hx hle => ?_, fun e' y' hy' hle => ?_, h.ports⟩
  · have hs := h.components c x hx hle
    refine hs.frame hr (fun e' _ y' hy' => peers_withDataBus name hy') fun i hi => ?_
    refine (hs.interior i hi).frame hr (fun b e' y' hb hexits hy' => ⟨hb, ?_⟩)
      (hs.interior i hi).children
    have hne : e ≠ e' := by
      rintro rfl
      cases hy.symm.trans hy'
      exact howner ⟨c, x, i, hx, hle, hi, (hl.owner_of_inBufExit hx hle hi hb hexits hy).symm⟩
    exact (Arena.get?_modify_of_ne _ hne _).trans hy'
  · rcases Arena.get?_modify_cases hy' with ⟨rfl, z, hz, rfl⟩ | ⟨-, hy'⟩
    · cases hy.symm.trans hz
      refine (h.exits e' y hy he).addData (hl.exits e' y hy he) hr ?_ id ?_ ?_
      · simp [busRole?, Netlist.withDataBus, Bus.new]
      · simp [hpeer]
      · simp [hpeer]
    · exact (h.exits e' y' hy' hle).frame hr id (fun o b _ hb => ⟨hb, fun g hg => ⟨g, hg, rfl⟩⟩)
        (h.exits e' y' hy' hle).notChild

/-- A data bus at an exit of a module, with the port of the OutBuf for it. -/
theorem Shaped.withOutput (hl : Linked pins base n) (h : Shaped base n) {e : ExitId} {y : Exit}
    {o : ComponentId} (hy : n.exits.get? e = some y) (he : base.exits.size ≤ e.index)
    (hpeer : y.peer = some o) (howner : ¬ IsInBuf base n y.owner) (name : String) :
    Shaped base ((n.withDataBus e name).withDataPort o name) := by
  have hr : SameRoles n ((n.withDataBus e name).withDataPort o name) :=
    sameRoles_push ((Arena.Keeps.refl _).push _) ((Arena.Keeps.refl _).push _)
  have hk : n.ports.Keeps ((n.withDataBus e name).withDataPort o name).ports :=
    (Arena.Keeps.refl _).push _
  obtain ⟨b, hb, hout⟩ := (h.exits e y hy he).outBuf o hpeer
  refine ⟨fun c x hx hle => ?_, fun e' y' hy' hle => ?_, fun p z hz hle => ?_⟩
  · rcases Arena.get?_modify_cases hx with ⟨rfl, z, hz, rfl⟩ | ⟨-, hx⟩
    · cases hb.symm.trans hz
      refine (h.components c b hb hle).addData (hl.components c b hb hle) hr ?_
        (fun e' _ y' hy' => peers_withDataBus name hy') ?_
      · simp [portRole?, Netlist.withDataPort, Netlist.withDataBus, Port.new]
      · simp [hout.interior]
    · have hs := h.components c x hx hle
      refine hs.frame hr (fun e' _ y' hy' => peers_withDataBus name hy') fun i hi => ?_
      refine (hs.interior i hi).modify hr rfl (fun d e' y' hd hexits hy' => ?_) ?_ fun _ => rfl
      · have hne : e ≠ e' := by
          rintro rfl
          cases hy.symm.trans hy'
          exact howner ⟨c, x, i, hx, hle, hi, (hl.owner_of_inBufExit hx hle hi hd hexits hy).symm⟩
        exact (Arena.get?_modify_of_ne _ hne _).trans hy'
      · exact fun heq => h.not_isOutBuf ⟨c, x, i, hx, hle, hi, heq⟩ ⟨e, y, hy, he, hpeer⟩
  · rcases Arena.get?_modify_cases hy' with ⟨rfl, z, hz, rfl⟩ | ⟨hne, hy'⟩
    · cases hy.symm.trans hz
      have hs := h.exits e' y hy he
      refine hs.addData (hl.exits e' y hy he) hr ?_ (IsInBuf.modify rfl fun _ => rfl)
        (fun d hd => ?_) (hs.notChild_modify fun _ => rfl)
      · simp [busRole?, Netlist.withDataPort, Netlist.withDataBus, Bus.new]
      · obtain rfl : o = d := Option.some.inj (hpeer.symm.trans hd)
        refine ⟨_, (Arena.get?_modify_self _ _ _).trans (congrArg _ hb),
          { hout with dataPorts := ?_, go := fun g hg => hout.go g ?_ }⟩
        · simp [hout.dataPorts]
        · exact (hl.go_kept hy he hk o b hpeer hb).symm.trans hg
    · refine (h.exits e' y' hy' hle).modify hr rfl (hl.go_kept hy' hle hk) (fun d hd heq => ?_)
        fun _ => rfl
      exact hne (h.outBuf_inj hl hy' hle (heq ▸ hd) hy he hpeer)
  · rcases Arena.get?_push_cases hz with ⟨rfl, rfl⟩ | hz
    · refine ⟨_, (Arena.get?_modify_self _ _ _).trans (congrArg _ hb), ?_⟩
      simp [Component.ports]
    · refine listed_modify (fun x _ hmem => ?_) (h.ports p z hz hle)
      rw [ports_addData]
      exact List.mem_append_left _ hmem

/-! ### Ports -/

/-- The netlist after a component has been given a port. -/
def withPort (n : Netlist) (c : ComponentId) (y : Port) (f : Component → Component) : Netlist :=
  { n with ports := n.ports.push y, components := n.components.modify c f }

section

variable {c : ComponentId} {x : Component} {y : Port} {f : Component → Component}

/-- Every port is still listed by its owner. -/
theorem listed_withPort (h : Shaped base n) (hx : n.components.get? c = some x) (hy : y.owner = c)
    (hports : ∀ p ∈ x.ports, p ∈ (f x).ports) (hnew : n.ports.next ∈ (f x).ports) {p : PortId}
    {z : Port} (hz : (n.withPort c y f).ports.get? p = some z) (hle : base.ports.size ≤ p.index) :
    ∃ x, (n.withPort c y f).components.get? z.owner = some x ∧ p ∈ x.ports := by
  rcases Arena.get?_push_cases hz with ⟨rfl, rfl⟩ | hz
  · rw [hy]
    exact ⟨_, (Arena.get?_modify_self _ _ _).trans (congrArg _ hx), hnew⟩
  · refine listed_modify (fun w hw hmem => ?_) (h.ports p z hz hle)
    cases hx.symm.trans hw
    exact hports p hmem

/-- A port at a component that is no buffer. -/
theorem Shaped.withPort (hl : Linked pins base n) (h : Shaped base n)
    (hx : n.components.get? c = some x) (hbuf : ¬ IsBuffer base n c) (hy : y.owner = c)
    (hf : ∀ x, (f x).interior = x.interior) (howner : ∀ x, (f x).owner = x.owner)
    (hports : ∀ p ∈ x.ports, p ∈ (f x).ports) (hnew : n.ports.next ∈ (f x).ports)
    (hshaped : ComponentShaped (n.withPort c y f) c (f x)) : Shaped base (n.withPort c y f) := by
  have hr : SameRoles n (n.withPort c y f) := sameRoles_push ((Arena.Keeps.refl _).push _) (.refl _)
  refine ⟨fun d w hw hle => ?_, fun e z hz hle => ?_, fun p z hz hle =>
    listed_withPort h hx hy hports hnew hz hle⟩
  · rcases Arena.get?_modify_cases hw with ⟨rfl, v, hv, rfl⟩ | ⟨-, hw⟩
    · cases hx.symm.trans hv
      exact hshaped
    · have hs := h.components d w hw hle
      refine hs.frame hr (fun e _ z hz => ⟨z, hz, rfl⟩) fun i hi => ?_
      exact (hs.interior i hi).modify hr rfl (fun _ _ _ _ _ hz => hz)
        (fun heq => hbuf (.inl ⟨d, w, i, hw, hle, hi, heq⟩)) howner
  · exact (h.exits e z hz hle).modify hr rfl (hl.go_kept hz hle ((Arena.Keeps.refl _).push _))
      (fun o ho heq => hbuf (.inr ⟨e, z, hz, hle, heq ▸ ho⟩)) hf

/-- The netlist after a module has been given a port, and its InBuf the bus for it. -/
def withInput (n : Netlist) (c : ComponentId) (y : Port) (f : Component → Component) (e : ExitId)
    (z : Bus) (g : Exit → Exit) : Netlist :=
  { n.withPort c y f with buses := n.buses.push z, exits := n.exits.modify e g }

/-- A port at a module, with the bus of the InBuf for it. -/
theorem Shaped.withInput (hl : Linked pins base n) (h : Shaped base n)
    (hx : n.components.get? c = some x) (hc : base.components.size ≤ c.index) {i : Interior}
    (hi : x.interior = some i) {b : Component} {e : ExitId} {w : Exit}
    (hb : n.components.get? i.inBuf = some b) (hexits : b.exits.entries = [(.done, e)])
    (hw : n.exits.get? e = some w) (hy : y.owner = c)
    (hf : ∀ x, (f x).interior = x.interior) (howner : ∀ x, (f x).owner = x.owner)
    (hports : ∀ p ∈ x.ports, p ∈ (f x).ports) (hnew : n.ports.next ∈ (f x).ports) {z : Bus}
    {g : Exit → Exit} (hg : ∀ w, (g w).peer = w.peer)
    (hshaped : ComponentShaped (n.withInput c y f e z g) c (f x))
    (hexit : ExitShaped base (n.withInput c y f e z g) (g w)) :
    Shaped base (n.withInput c y f e z g) := by
  have hr : SameRoles n (n.withInput c y f e z g) :=
    sameRoles_push ((Arena.Keeps.refl _).push _) ((Arena.Keeps.refl _).push _)
  have hbuf : ¬ IsBuffer base n c := by
    intro hbuf
    rw [h.interior_of_isBuffer hbuf hx] at hi
    cases hi
  refine ⟨fun d v hv hle => ?_, fun e' w' hw' hle => ?_, fun p z hz hle =>
    listed_withPort h hx hy hports hnew hz hle⟩
  · rcases Arena.get?_modify_cases hv with ⟨rfl, u, hu, rfl⟩ | ⟨hne, hv⟩
    · cases hx.symm.trans hu
      exact hshaped
    · have hs := h.components d v hv hle
      refine hs.frame hr (fun e' _ w' hw' => ?_) fun j hj => ?_
      · rcases Arena.get?_modify_cases hw' with ⟨rfl, u, hu, rfl⟩ | ⟨-, hw'⟩
        · exact ⟨u, hu, hg u⟩
        · exact ⟨w', hw', rfl⟩
      · refine (hs.interior j hj).modify hr rfl (fun b' e' w' hb' hexits' hw' => ?_)
          (fun heq => hbuf (.inl ⟨d, v, j, hv, hle, hj, heq⟩)) howner
        -- The exit of another InBuf is another exit, because no two modules share an InBuf.
        have hne' : e ≠ e' := by
          rintro rfl
          cases hw.symm.trans hw'
          refine hne (h.inBuf_inj hv hle hj hx hc hi ?_)
          rw [← hl.owner_of_inBufExit hv hle hj hb' hexits' hw,
            hl.owner_of_inBufExit hx hc hi hb hexits hw]
        exact (Arena.get?_modify_of_ne _ hne' _).trans hw'
  · rcases Arena.get?_modify_cases hw' with ⟨rfl, u, hu, rfl⟩ | ⟨-, hw'⟩
    · cases hw.symm.trans hu
      exact hexit
    · exact (h.exits e' w' hw' hle).modify hr rfl
        (hl.go_kept hw' hle ((Arena.Keeps.refl _).push _))
        (fun o ho heq => hbuf (.inr ⟨e', w', hw', hle, heq ▸ ho⟩)) hf

end

/-! #### Data ports -/

/-- The netlist with a new data port at a module, and the data bus of its InBuf for it. -/
def withDataInput (n : Netlist) (c : ComponentId) (e : ExitId) (name : String) : Netlist :=
  (n.withDataPort c name).withDataBus e name

theorem Shaped.withDataPort (hl : Linked pins base n) (h : Shaped base n) {c : ComponentId}
    {x : Component} (hx : n.components.get? c = some x) (hc : base.components.size ≤ c.index)
    (hbuf : ¬ IsBuffer base n c) (hi : x.interior = none) (name : String) :
    Shaped base (n.withDataPort c name) := by
  refine h.withPort hl hx hbuf rfl (fun _ => rfl) (fun _ => rfl)
    (fun p hp => ports_addData x _ ▸ List.mem_append_left _ hp) ?_ ?_
  · simp [Component.ports]
  · refine (h.components c x hx hc).addData (hl.components c x hx hc)
      (sameRoles_push ((Arena.Keeps.refl _).push _) (.refl _)) ?_ (fun e _ z hz => ⟨z, hz, rfl⟩) ?_
    · simp [portRole?, Netlist.withPort, Port.new]
    · simp [hi]

theorem Shaped.withDataInput (hl : Linked pins base n) (h : Shaped base n) {c : ComponentId}
    {x : Component} (hx : n.components.get? c = some x) (hc : base.components.size ≤ c.index)
    {i : Interior} (hi : x.interior = some i) {b : Component} {e : ExitId} {w : Exit}
    (hb : n.components.get? i.inBuf = some b) (hw : n.exits.get? e = some w)
    (hin : InBufShaped n c x b e w) (name : String) : Shaped base (n.withDataInput c e name) := by
  have hr : SameRoles n (n.withDataInput c e name) :=
    sameRoles_push ((Arena.Keeps.refl _).push _) ((Arena.Keeps.refl _).push _)
  have hs := h.components c x hx hc
  have he := hl.exit_new hb (hl.inBuf_new hx hc hi).1 (OrderedMap.mem_values_singleton hin.exits)
  have hne := hin.ne_module hx hi hb
  refine Shaped.withInput (y := .new name c .data) (z := .new name e .data)
    (f := fun x => { x with dataPorts := x.dataPorts ++ [n.ports.next] })
    (g := fun y => { y with data := y.data ++ [n.buses.next] })
    hl h hx hc hi hb hin.exits hw rfl (fun _ => rfl) (fun _ => rfl)
    (fun p hp => ports_addData x _ ▸ List.mem_append_left _ hp) ?_ (fun _ => rfl) ?_ ?_
  · simp [Component.ports]
  · refine hs.addData (hl.components c x hx hc) hr ?_
      (fun e' _ y' hy' => peers_withDataBus name hy') fun j hj => ?_
    · simp [portRole?, Netlist.withInput, Netlist.withPort, Port.new]
    · obtain rfl : i = j := Option.some.inj (hi.symm.trans hj)
      have hs' := hs.interior i hi
      refine { hs' with inBuf := ?_, children := hs'.children_modify fun _ => rfl }
      refine ⟨b, e, _, (Arena.get?_modify_of_ne _ hne.symm _).trans hb,
        (Arena.get?_modify_self _ _ _).trans (congrArg _ hw), ?_⟩
      refine { hin.frame hr with data := ?_ }
      simp [hin.data]
  · refine (h.exits e w hw he.1).addData (hl.exits e w hw he.1) hr ?_
      (IsInBuf.modify rfl fun _ => rfl) ?_ ?_
    · simp [busRole?, Netlist.withInput, Bus.new]
    · simp [hin.peer]
    · simp [hin.peer]

/-! #### This ports -/

/-- The netlist with the port on which a component learns which object it works on. -/
def withThisPort (n : Netlist) (c : ComponentId) : Netlist :=
  n.withPort c (.new "this" c .this) fun x => { x with this := some n.ports.next }

/-- In addition, the bus of the InBuf for it. -/
def withThisInput (n : Netlist) (c : ComponentId) (e : ExitId) : Netlist :=
  n.withInput c (.new "this" c .this) (fun x => { x with this := some n.ports.next }) e
    (.new "this" e .this) fun y => { y with control := y.control ++ [n.buses.next] }

theorem ports_addThis {x : Component} (hthis : x.this = none) (q : PortId) :
    ({ x with this := some q } : Component).ports.Perm (q :: x.ports) := by
  simp only [Component.ports, hthis, Option.toList_none, Option.toList_some, List.append_nil,
    List.append_assoc]
  exact List.perm_middle

theorem ComponentShaped.addThis {c : ComponentId} {x : Component} (h : ComponentShaped n c x)
    (hlinked : ComponentLinked pins base n c x) (hthis : x.this = none) (hr : SameRoles n n')
    (hrole : n'.portRole? n.ports.next = some .this)
    (hpeers : ∀ e ∈ x.exits.values, ∀ y', n'.exits.get? e = some y' →
      ∃ y, n.exits.get? e = some y ∧ y'.peer = y.peer)
    (hinterior : ∀ i, x.interior = some i →
      InteriorShaped n' c { x with this := some n.ports.next } i) :
    ComponentShaped n' c { x with this := some n.ports.next } where
  nodup := (ports_addThis hthis _).nodup_iff.mpr
    (List.nodup_cons.mpr ⟨hlinked.next_not_mem, h.nodup⟩)
  clock := hr.ports _ _ h.clock
  reset := hr.ports _ _ h.reset
  go := hr.ports _ _ h.go
  this p hp := by
    obtain rfl := Option.some.inj hp
    exact hrole
  data p hp := hr.ports _ _ (h.data p hp)
  tags := h.tags
  outBufs e he y' hy' := by
    obtain ⟨y, hy, hpeer⟩ := hpeers e he y' hy'
    rw [hpeer, h.outBufs e he y hy]
  interior := hinterior

theorem Shaped.withThisPort (hl : Linked pins base n) (h : Shaped base n) {c : ComponentId}
    {x : Component} (hx : n.components.get? c = some x) (hc : base.components.size ≤ c.index)
    (hbuf : ¬ IsBuffer base n c) (hthis : x.this = none) (hi : x.interior = none) :
    Shaped base (n.withThisPort c) := by
  have hperm := ports_addThis hthis n.ports.next
  refine h.withPort hl hx hbuf rfl (fun _ => rfl) (fun _ => rfl)
    (fun p hp => hperm.mem_iff.mpr (List.mem_cons_of_mem _ hp)) (hperm.mem_iff.mpr (by simp)) ?_
  refine (h.components c x hx hc).addThis (hl.components c x hx hc) hthis
    (sameRoles_push ((Arena.Keeps.refl _).push _) (.refl _)) ?_ (fun e _ z hz => ⟨z, hz, rfl⟩) ?_
  · simp [portRole?, Netlist.withPort, Port.new]
  · simp [hi]

theorem Shaped.withThisInput (hl : Linked pins base n) (h : Shaped base n) {c : ComponentId}
    {x : Component} (hx : n.components.get? c = some x) (hc : base.components.size ≤ c.index)
    (hthis : x.this = none) {i : Interior} (hi : x.interior = some i) {b : Component} {e : ExitId}
    {w : Exit} (hb : n.components.get? i.inBuf = some b) (hw : n.exits.get? e = some w)
    (hin : InBufShaped n c x b e w) : Shaped base (n.withThisInput c e) := by
  have hr : SameRoles n (n.withThisInput c e) :=
    sameRoles_push ((Arena.Keeps.refl _).push _) ((Arena.Keeps.refl _).push _)
  have hs := h.components c x hx hc
  have he := hl.exit_new hb (hl.inBuf_new hx hc hi).1 (OrderedMap.mem_values_singleton hin.exits)
  have hrole : (n.withThisInput c e).busRole? n.buses.next = some .this := by
    simp [busRole?, Netlist.withThisInput, Netlist.withInput, Bus.new]
  have hne := hin.ne_module hx hi hb
  have hperm := ports_addThis hthis n.ports.next
  refine Shaped.withInput (f := fun x => { x with this := some n.ports.next }) hl h hx hc hi hb
    hin.exits hw rfl (fun _ => rfl) (fun _ => rfl)
    (fun p hp => hperm.mem_iff.mpr (List.mem_cons_of_mem _ hp)) (hperm.mem_iff.mpr (by simp))
    (fun _ => rfl) ?_ ?_
  · refine hs.addThis (hl.components c x hx hc) hthis hr ?_ (fun e' _ y' hy' => ?_) fun j hj => ?_
    · simp [portRole?, Netlist.withInput, Netlist.withPort, Port.new]
    · rcases Arena.get?_modify_cases hy' with ⟨rfl, y, hy, rfl⟩ | ⟨-, hy⟩
      · exact ⟨y, hy, rfl⟩
      · exact ⟨y', hy, rfl⟩
    · obtain rfl : i = j := Option.some.inj (hi.symm.trans hj)
      have hs' := hs.interior i hi
      refine { hs' with inBuf := ?_, children := hs'.children_modify fun _ => rfl }
      refine ⟨b, e, _, (Arena.get?_modify_of_ne _ hne.symm _).trans hb,
        (Arena.get?_modify_self _ _ _).trans (congrArg _ hw), ?_⟩
      refine { hin.frame hr with control := ?_ }
      show (w.control ++ [n.buses.next]).map (n.withThisInput c e).busRole? = _
      rw [List.map_append, (hin.frame hr).control]
      simp [controlRoles, hthis, hrole]
  · have hexit := h.exits e w hw he.1
    have hlinked := hl.exits e w hw he.1
    refine ⟨?_, hr.buses _ _ hexit.done, fun d hd => hr.buses _ _ (hexit.data d hd), fun _ => ?_,
      by simp [hin.peer], by simp [hin.peer]⟩
    · have hbuses : ({ w with control := w.control ++ [n.buses.next] } : Exit).buses =
          w.buses ++ [n.buses.next] := by
        simp [Exit.buses]
      rw [hbuses]
      refine List.nodup_append.mpr ⟨hexit.nodup, by simp, ?_⟩
      rintro p hp q hq rfl
      exact hlinked.next_not_mem (List.mem_singleton.mp hq ▸ hp)
    · refine IsInBuf.modify rfl (fun _ => rfl) ⟨c, x, i, hx, hc, hi, ?_⟩
      exact (hl.owner_of_inBufExit hx hc hi hb hin.exits hw).symm

/-! ### Peers -/

/-- The netlist in which a port and a bus are the two sides of a boundary. -/
def withPair (n : Netlist) (p : PortId) (b : BusId) : Netlist :=
  { n with
    ports := n.ports.modify p fun y => { y with peer := some b }
    buses := n.buses.modify b fun z => { z with peer := some p } }

/-- Any port can be given a peer, but for the go of an OutBuf. -/
theorem Shaped.withPair (h : Shaped base n) {p : PortId} (b : BusId)
    (hgo : ∀ e y o c, n.exits.get? e = some y → base.exits.size ≤ e.index → y.peer = some o →
      n.components.get? o = some c → c.go ≠ p) : Shaped base (n.withPair p b) := by
  have hr : SameRoles n (n.withPair p b) := by
    refine ⟨fun q r hq => ?_, fun d r hd => ?_⟩
    · obtain ⟨y, hy, rfl⟩ := Option.map_eq_some_iff.mp hq
      simp only [portRole?, Netlist.withPair, Arena.get?_modify, hy]
      split <;> rfl
    · obtain ⟨z, hz, rfl⟩ := Option.map_eq_some_iff.mp hd
      simp only [busRole?, Netlist.withPair, Arena.get?_modify, hz]
      split <;> rfl
  refine ⟨fun c x hx hle => ?_, fun e y hy hle => ?_, fun q y hy hle => ?_⟩
  · have hs := h.components c x hx hle
    exact hs.frame hr (fun e _ y hy => ⟨y, hy, rfl⟩) fun i hi =>
      (hs.interior i hi).frame hr (fun b e y hb _ hy => ⟨hb, hy⟩) (hs.interior i hi).children
  · refine (h.exits e y hy hle).frame hr id (fun o c ho hc => ⟨hc, fun g hg => ?_⟩)
      (h.exits e y hy hle).notChild
    rcases Arena.get?_modify_cases hg with ⟨heq, -⟩ | ⟨-, hg⟩
    · exact absurd heq (hgo e y o c hy hle ho hc)
    · exact ⟨g, hg, rfl⟩
  · rcases Arena.get?_modify_cases hy with ⟨rfl, z, hz, rfl⟩ | ⟨-, hy⟩
    · exact h.ports q z hz hle
    · exact h.ports q y hy hle

/-! ### Exits -/

/-- What is left by a step that gives `c` an exit, and maybe the exit an OutBuf. -/
structure ExitAdded (n n' : Netlist) (c : ComponentId) (x : Component) (tag : ExitTag) (w : Exit) :
    Prop where
  others : ∀ d, d ≠ c → d.index < n.components.size → n'.components.get? d = n.components.get? d
  self : n'.components.get? c = some { x with exits := x.exits.put tag n.exits.next }
  exits : n.exits.Keeps n'.exits
  exit : n'.exits.get? n.exits.next = some w
  only : ∀ e y, n'.exits.get? e = some y → n.exits.size ≤ e.index → e = n.exits.next
  ports : n.ports.Keeps n'.ports
  buses : n.buses.Keeps n'.buses
  owner : w.owner = c
  done : n'.busRole? w.done = some .done
  data : w.data = []
  control : w.control = []
  peer : w.peer.isSome = x.interior.isSome
  outBuf : ∀ o, w.peer = some o → n.components.size ≤ o.index ∧
    ∃ b, n'.components.get? o = some b ∧ ComponentShaped n' o b ∧ OutBufShaped n' w b
  made : ∀ d y, n'.components.get? d = some y → n.components.size ≤ d.index → w.peer = some d
  listed : ∀ p y, n'.ports.get? p = some y → n.ports.size ≤ p.index →
    ∃ b, n'.components.get? y.owner = some b ∧ p ∈ b.ports

section

variable {c : ComponentId} {x : Component} {tag : ExitTag} {w : Exit}
  (ha : ExitAdded n n' c x tag w)

include ha

/-- A component that was there has the owner and the interior it had. -/
theorem ExitAdded.back (hx : n.components.get? c = some x) {d : ComponentId} {v : Component}
    (hd : d.index < n.components.size) (hv : n'.components.get? d = some v) :
    ∃ u, n.components.get? d = some u ∧ v.owner = u.owner ∧ v.interior = u.interior := by
  by_cases heq : d = c
  · subst heq
    rw [ha.self] at hv
    cases hv
    exact ⟨x, hx, rfl, rfl⟩
  · rw [ha.others d heq hd] at hv
    exact ⟨v, hv, rfl, rfl⟩

theorem ExitAdded.isInBuf (hx : n.components.get? c = some x) {d : ComponentId}
    (h : IsInBuf base n d) : IsInBuf base n' d := by
  obtain ⟨m, v, i, hv, hle, hi, hin⟩ := h
  by_cases heq : m = c
  · subst heq
    cases hx.symm.trans hv
    exact ⟨m, _, i, ha.self, hle, hi, hin⟩
  · exact ⟨m, v, i, (ha.others m heq (Arena.lt_of_get? hv)).trans hv, hle, hi, hin⟩

theorem ExitAdded.interior (hl : Linked pins base n) (h : Shaped base n)
    (hx : n.components.get? c = some x) (hbuf : ¬ IsBuffer base n c) {d : ComponentId}
    {v : Component} (hv : n.components.get? d = some v) (hle : base.components.size ≤ d.index)
    {i : Interior} (hi : v.interior = some i) : InteriorShaped n' d v i := by
  have hs := (h.components d v hv hle).interior i hi
  refine hs.frame (sameRoles_push ha.ports ha.buses) (fun b e y hb _ hy => ⟨?_, ?_⟩)
    fun k hk u hu => ?_
  · have hne : i.inBuf ≠ c := fun heq => hbuf (.inl ⟨d, v, i, hv, hle, hi, heq⟩)
    exact (ha.others _ hne (Arena.lt_of_get? hb)).trans hb
  · exact (ha.exits.get? e (Arena.lt_of_get? hy)).trans hy
  · obtain ⟨t, ht, howner, -⟩ := ha.back hx (hl.child_new hv hle hi hk).2 hu
    rw [howner]
    exact hs.children k hk t ht

/-- The component that the exit was added to. -/
theorem ExitAdded.componentShaped (hl : Linked pins base n) (h : Shaped base n)
    (hx : n.components.get? c = some x) (hc : base.components.size ≤ c.index)
    (hbuf : ¬ IsBuffer base n c) :
    ComponentShaped n' c { x with exits := x.exits.put tag n.exits.next } := by
  have hr := sameRoles_push ha.ports ha.buses
  have hs := h.components c x hx hc
  refine ⟨hs.nodup, hr.ports _ _ hs.clock, hr.ports _ _ hs.reset, hr.ports _ _ hs.go,
    fun p hp => hr.ports _ _ (hs.this p hp), fun p hp => hr.ports _ _ (hs.data p hp),
    OrderedMap.keys_nodup_put hs.tags _ _, fun e he y hy => ?_, fun i hi => ?_⟩
  · rcases OrderedMap.mem_values_put he with he | rfl
    · rw [ha.exits.get? e (hl.exit_new hx hc he).2] at hy
      exact hs.outBufs e he y hy
    · cases ha.exit.symm.trans hy
      exact ha.peer
  · exact (ha.interior hl h hx hbuf hx hc hi).of_ports rfl rfl rfl

/-- The exit that was added. -/
theorem ExitAdded.exitShaped (hl : Linked pins base n) (hx : n.components.get? c = some x)
    (hc : base.components.size ≤ c.index) : ExitShaped base n' w := by
  refine ⟨by simp [Exit.buses, ha.data, ha.control], ha.done, by simp [ha.data],
    fun hne => absurd ha.control hne, fun o ho => ?_, fun o ho v i hv hi hmem => ?_⟩
  · obtain ⟨-, b, hb, -, hout⟩ := ha.outBuf o ho
    exact ⟨b, hb, hout⟩
  · -- The OutBuf is new, and the children of the module are not.
    rw [ha.owner] at hv
    obtain ⟨u, hu, -, hinterior⟩ := ha.back hx (Arena.lt_of_get? hx) hv
    have hlt := (hl.child_new hu hc (hinterior.symm.trans hi) hmem).2
    exact absurd (ha.outBuf o ho).1 (Nat.not_le_of_lt hlt)

/-- An exit that was there. -/
theorem ExitAdded.exit_old (hl : Linked pins base n) (h : Shaped base n)
    (hx : n.components.get? c = some x) (hbuf : ¬ IsBuffer base n c) {e : ExitId} {y : Exit}
    (hy : n.exits.get? e = some y) (hle : base.exits.size ≤ e.index) : ExitShaped base n' y := by
  have hs := h.exits e y hy hle
  have howner := (Exit.forall_refs.mp (hl.exits e y hy hle).refs).1
  refine hs.frame (sameRoles_push ha.ports ha.buses) (ha.isInBuf hx)
    (fun o b ho hb => ⟨?_, fun g hg => ⟨g, ?_, rfl⟩⟩) fun o ho v i hv hi => ?_
  · have hne : o ≠ c := fun heq => hbuf (.inr ⟨e, y, hy, hle, heq ▸ ho⟩)
    exact (ha.others o hne (Arena.lt_of_get? hb)).trans hb
  · exact (hl.go_kept hy hle ha.ports o b ho hb).symm.trans hg
  · obtain ⟨u, hu, -, hinterior⟩ := ha.back hx howner.2 hv
    exact hs.notChild o ho u i hu (hinterior.symm.trans hi)

theorem Shaped.addExit (hl : Linked pins base n) (h : Shaped base n)
    (hx : n.components.get? c = some x) (hc : base.components.size ≤ c.index)
    (hbuf : ¬ IsBuffer base n c) : Shaped base n' := by
  have hr := sameRoles_push ha.ports ha.buses
  refine ⟨fun d v hv hle => ?_, fun e y hy hle => ?_, fun p y hy hle => ?_⟩
  · by_cases heq : d = c
    · subst heq
      cases ha.self.symm.trans hv
      exact ha.componentShaped hl h hx hle hbuf
    rcases Nat.lt_or_ge d.index n.components.size with hlt | hge
    · rw [ha.others d heq hlt] at hv
      refine (h.components d v hv hle).frame hr (fun e he y hy => ⟨y, ?_, rfl⟩)
        fun i hi => ha.interior hl h hx hbuf hv hle hi
      rw [ha.exits.get? e (hl.exit_new hv hle he).2] at hy
      exact hy
    · obtain ⟨-, b, hb, hshaped, -⟩ := ha.outBuf d (ha.made d v hv hge)
      cases hv.symm.trans hb
      exact hshaped
  · rcases Nat.lt_or_ge e.index n.exits.size with hlt | hge
    · rw [ha.exits.get? e hlt] at hy
      exact ha.exit_old hl h hx hbuf hy hle
    · obtain rfl := ha.only e y hy hge
      cases ha.exit.symm.trans hy
      exact ha.exitShaped hl hx hc
  · rcases Nat.lt_or_ge p.index n.ports.size with hlt | hge
    · rw [ha.ports.get? p hlt] at hy
      obtain ⟨v, hv, hmem⟩ := h.ports p y hy hle
      by_cases heq : y.owner = c
      · rw [heq] at hv ⊢
        cases hx.symm.trans hv
        exact ⟨_, ha.self, hmem⟩
      · exact ⟨v, (ha.others _ heq (Arena.lt_of_get? hv)).trans hv, hmem⟩
    · exact ha.listed p y hy hge

end

/-- A component that is no buffer can lose an exit; if the exit has an OutBuf, that one goes next. -/
theorem Shaped.eraseExit (h : Shaped base n) {c : ComponentId}
    (hbuf : ¬ IsBuffer base n c) (tag : ExitTag) :
    Shaped base { n with
      components := n.components.modify c fun x => { x with exits := x.exits.erase tag } } := by
  have hr : SameRoles n { n with
      components := n.components.modify c fun x => { x with exits := x.exits.erase tag } } :=
    sameRoles_push (.refl _) (.refl _)
  have hinterior : ∀ {d v i}, n.components.get? d = some v → base.components.size ≤ d.index →
      v.interior = some i → InteriorShaped { n with
        components := n.components.modify c fun x => { x with exits := x.exits.erase tag } } d v i := by
    intro d v i hv hle hi
    exact ((h.components d v hv hle).interior i hi).modify hr rfl (fun _ _ _ _ _ hy => hy)
      (fun heq => hbuf (.inl ⟨d, v, i, hv, hle, hi, heq⟩)) fun _ => rfl
  refine ⟨fun d v hv hle => ?_, fun e y hy hle => ?_, fun p y hy hle => ?_⟩
  · rcases Arena.get?_modify_cases hv with ⟨rfl, u, hu, rfl⟩ | ⟨-, hv⟩
    · have hs := h.components d u hu hle
      refine ⟨hs.nodup, hs.clock, hs.reset, hs.go, hs.this, hs.data, ?_, fun e he y hy => ?_,
        fun i hi => (hinterior hu hle hi).of_ports rfl rfl rfl⟩
      · exact hs.tags.sublist (List.filter_sublist.map _)
      · exact hs.outBufs e (OrderedMap.mem_values_erase he) y hy
    · exact (h.components d v hv hle).frame hr (fun e _ y hy => ⟨y, hy, rfl⟩)
        fun i hi => hinterior hv hle hi
  · exact (h.exits e y hy hle).modify hr rfl (fun _ _ _ _ => rfl)
      (fun o ho heq => hbuf (.inr ⟨e, y, hy, hle, heq ▸ ho⟩)) fun _ => rfl
  · exact listed_modify (fun _ _ hmem => hmem) (h.ports p y hy hle)

/-- The OutBuf of an exit that no component lists is let go. -/
theorem Shaped.dropOutBuf (hl : Linked pins base n) (h : Shaped base n) {e : ExitId} {y : Exit}
    {o : ComponentId} (hy : n.exits.get? e = some y) (he : base.exits.size ≤ e.index)
    (hpeer : y.peer = some o)
    (hlisted : ∀ d v, n.components.get? d = some v → base.components.size ≤ d.index →
      e ∉ v.exits.values) :
    Shaped base { n with
      exits := n.exits.modify e fun y => { y with peer := none }
      components := n.components.modify o fun b => { b with owner := none } } := by
  have hr : SameRoles n { n with
      exits := n.exits.modify e fun y => { y with peer := none }
      components := n.components.modify o fun b => { b with owner := none } } :=
    sameRoles_push (.refl _) (.refl _)
  obtain ⟨b, hb, hout⟩ := (h.exits e y hy he).outBuf o hpeer
  have hpeers : ∀ {d v}, n.components.get? d = some v → base.components.size ≤ d.index →
      ∀ e' ∈ v.exits.values, ∀ y',
        (n.exits.modify e fun y => { y with peer := none }).get? e' = some y' →
        ∃ z, n.exits.get? e' = some z ∧ y'.peer = z.peer := by
    intro d v hv hle e' he' y' hy'
    rcases Arena.get?_modify_cases hy' with ⟨rfl, -⟩ | ⟨-, hy'⟩
    · exact absurd he' (hlisted d v hv hle)
    · exact ⟨y', hy', rfl⟩
  have hinterior : ∀ {d v i}, n.components.get? d = some v → base.components.size ≤ d.index →
      v.interior = some i → InteriorShaped { n with
        exits := n.exits.modify e fun y => { y with peer := none }
        components := n.components.modify o fun b => { b with owner := none } } d v i := by
    intro d v i hv hle hi
    have hs := (h.components d v hv hle).interior i hi
    refine hs.frame hr (fun b' e' y' hb' hexits hy' => ⟨?_, ?_⟩) fun k hk u hu => ?_
    · have hne : o ≠ i.inBuf := fun heq =>
        h.not_isOutBuf ⟨d, v, i, hv, hle, hi, rfl⟩ ⟨e, y, hy, he, heq ▸ hpeer⟩
      exact (Arena.get?_modify_of_ne _ hne _).trans hb'
    · have hne : e ≠ e' := by
        rintro rfl
        exact hlisted _ b' hb' (hl.inBuf_new hv hle hi).1 (OrderedMap.mem_values_singleton hexits)
      exact (Arena.get?_modify_of_ne _ hne _).trans hy'
    · -- The OutBuf is no child: it would be one of the owner of its exit.
      rcases Arena.get?_modify_cases hu with ⟨rfl, t, ht, rfl⟩ | ⟨-, hu⟩
      · cases hb.symm.trans ht
        have hown := Option.some.inj ((hs.children k hk b hb).symm.trans hout.owner)
        exact absurd hk ((h.exits e y hy he).notChild k hpeer v i (hown ▸ hv) hi)
      · exact hs.children k hk u hu
  refine ⟨fun d v hv hle => ?_, fun e' y' hy' hle => ?_, fun p z hz hle => ?_⟩
  · rcases Arena.get?_modify_cases hv with ⟨rfl, u, hu, rfl⟩ | ⟨-, hv⟩
    · have hs := h.components d u hu hle
      refine { hs.frame hr (hpeers hu hle) fun i hi => hinterior hu hle hi with
        interior := fun i hi => (hinterior hu hle hi).of_ports rfl rfl rfl }
    · exact (h.components d v hv hle).frame hr (hpeers hv hle) fun i hi => hinterior hv hle hi
  · rcases Arena.get?_modify_cases hy' with ⟨rfl, z, hz, rfl⟩ | ⟨hne, hy'⟩
    · have hs := h.exits e' z hz hle
      exact ⟨hs.nodup, hs.done, hs.data, fun hc => IsInBuf.modify rfl (fun _ => rfl) (hs.control hc),
        by simp, by simp⟩
    · refine (h.exits e' y' hy' hle).modify hr rfl (fun _ _ _ _ => rfl) (fun k hk heq => ?_)
        fun _ => rfl
      exact hne (h.outBuf_inj hl hy' hle (heq ▸ hk) hy he hpeer)
  · exact listed_modify (fun _ _ hmem => hmem) (h.ports p z hz hle)

/-! ### Children -/

/-- What is left by a step that gives `c` another owner and `m` other children. -/
def rechild (c m : ComponentId) (owner : Option ComponentId) (f : Interior → Interior)
    (d : ComponentId) (v : Component) : Component :=
  { v with
    owner := if d = c then owner else v.owner
    interior := if d = m then v.interior.map f else v.interior }

section

variable {c m : ComponentId} {x : Component} {i : Interior} {owner : Option ComponentId}
  {f : Interior → Interior} (hin : ∀ j, (f j).inBuf = j.inBuf)
  (hcomponents : ∀ d, n'.components.get? d =
    (n.components.get? d).map (Netlist.rechild c m owner f d))

include hcomponents

theorem exists_of_rechild {d : ComponentId} {v : Component} (hv : n'.components.get? d = some v) :
    ∃ u, n.components.get? d = some u ∧ v = Netlist.rechild c m owner f d u := by
  rw [hcomponents] at hv
  obtain ⟨u, hu, rfl⟩ := Option.map_eq_some_iff.mp hv
  exact ⟨u, hu, rfl⟩

/-- A buffer is neither `c`, which is none, nor `m`, which has an interior. -/
theorem Shaped.buffer_rechild (h : Shaped base n) (hx : n.components.get? m = some x)
    (hi : x.interior = some i) (hbuf : ¬ IsBuffer base n c) {k : ComponentId} {v : Component}
    (hk : IsBuffer base n k) (hv : n.components.get? k = some v) :
    n'.components.get? k = some v := by
  have hc : k ≠ c := fun heq => hbuf (heq ▸ hk)
  have hm : k ≠ m := by
    rintro rfl
    rw [h.interior_of_isBuffer hk hx] at hi
    cases hi
  rw [hcomponents, hv]
  simp [Netlist.rechild, hc, hm]

include hin

theorem IsInBuf.rechild {d : ComponentId} (h : IsInBuf base n d) : IsInBuf base n' d := by
  obtain ⟨k, v, j, hv, hle, hj, rfl⟩ := h
  by_cases heq : k = m
  · refine ⟨k, _, f j, by rw [hcomponents, hv]; rfl, hle, ?_, hin j⟩
    simp [Netlist.rechild, heq, hj]
  · refine ⟨k, _, j, by rw [hcomponents, hv]; rfl, hle, ?_, rfl⟩
    simp [Netlist.rechild, heq, hj]

/-- The interior of the module itself, if `c` is its child exactly in case that it is the owner. -/
theorem Shaped.interior_rechild (h : Shaped base n) (hx : n.components.get? m = some x)
    (hm : base.components.size ≤ m.index) (hi : x.interior = some i)
    (hbuf : ¬ IsBuffer base n c) (hr : SameRoles n n') (hexits : n'.exits = n.exits)
    (hnodup : (f i).children.Nodup)
    (hchildren : ∀ k ∈ (f i).children, k = c ∧ owner = some m ∨ k ≠ c ∧ k ∈ i.children) :
    InteriorShaped n' m x (f i) := by
  have hs := (h.components m x hx hm).interior i hi
  obtain ⟨b, e, y, hb, hy, hshaped⟩ := hs.inBuf
  refine ⟨hs.kind, ⟨b, e, y, ?_, hexits ▸ hy, hshaped.frame hr⟩, hnodup, fun k hk v hv => ?_,
    fun hmem => ?_⟩
  · rw [hin]
    exact h.buffer_rechild hcomponents hx hi hbuf (.inl ⟨m, x, i, hx, hm, hi, rfl⟩) hb
  · obtain ⟨t, ht, rfl⟩ := exists_of_rechild hcomponents hv
    rcases hchildren k hk with ⟨rfl, howner⟩ | ⟨hne, hmem⟩
    · simp [Netlist.rechild, howner]
    · simp only [Netlist.rechild, if_neg hne]
      exact hs.children k hmem t ht
  · rw [hin] at hmem
    rcases hchildren _ hmem with ⟨heq, -⟩ | ⟨-, hmem⟩
    · exact hbuf (.inl ⟨m, x, i, hx, hm, hi, heq⟩)
    · exact hs.notInBuf hmem

theorem Shaped.rechild (h : Shaped base n) (hx : n.components.get? m = some x)
    (hm : base.components.size ≤ m.index) (hi : x.interior = some i)
    (hbuf : ¬ IsBuffer base n c) (hports : n'.ports = n.ports) (hbuses : n'.buses = n.buses)
    (hexits : n'.exits = n.exits) (hnodup : (f i).children.Nodup)
    (hchildren : ∀ k ∈ (f i).children, k = c ∧ owner = some m ∨ k ≠ c ∧ k ∈ i.children)
    (helse : ∀ d v j, n.components.get? d = some v → base.components.size ≤ d.index → d ≠ m →
      v.interior = some j → c ∉ j.children) : Shaped base n' := by
  have hr : SameRoles n n' := sameRoles_push (hports ▸ .refl _) (hbuses ▸ .refl _)
  refine ⟨fun d v hv hle => ?_, fun e y hy hle => ?_, fun p y hy hle => ?_⟩
  · obtain ⟨u, hu, rfl⟩ := exists_of_rechild hcomponents hv
    have hs := h.components d u hu hle
    refine ⟨hs.nodup, hr.ports _ _ hs.clock, hr.ports _ _ hs.reset, hr.ports _ _ hs.go,
      fun p hp => hr.ports _ _ (hs.this p hp), fun p hp => hr.ports _ _ (hs.data p hp), hs.tags,
      fun e he y hy => ?_, fun j hj => ?_⟩
    · rw [hexits] at hy
      rw [hs.outBufs e he y hy]
      simp only [Netlist.rechild]
      split <;> simp
    by_cases heq : d = m
    · subst heq
      cases hx.symm.trans hu
      obtain rfl : f i = j := by
        simpa [Netlist.rechild, hi] using hj
      exact (h.interior_rechild hin hcomponents hx hle hi hbuf hr hexits hnodup hchildren).of_ports
        rfl rfl rfl
    · have hj' : u.interior = some j := by simpa [Netlist.rechild, heq] using hj
      have hsj := hs.interior j hj'
      refine (hsj.frame hr (fun b e y hb _ hy => ⟨?_, hexits ▸ hy⟩)
        fun k hk v hv => ?_).of_ports rfl rfl rfl
      · exact h.buffer_rechild hcomponents hx hi hbuf (.inl ⟨d, u, j, hu, hle, hj', rfl⟩) hb
      · obtain ⟨t, ht, rfl⟩ := exists_of_rechild hcomponents hv
        have hne : k ≠ c := fun hkc => helse d u j hu hle heq hj' (hkc ▸ hk)
        simp only [Netlist.rechild, if_neg hne]
        exact hsj.children k hk t ht
  · rw [hexits] at hy
    have hs := h.exits e y hy hle
    refine hs.frame hr (IsInBuf.rechild hin hcomponents) (fun o b ho hb =>
      ⟨h.buffer_rechild hcomponents hx hi hbuf (.inr ⟨e, y, hy, hle, ho⟩) hb,
        fun g hg => ⟨g, hports ▸ hg, rfl⟩⟩) fun o ho v j hv hj hmem => ?_
    obtain ⟨u, hu, rfl⟩ := exists_of_rechild hcomponents hv
    by_cases heq : y.owner = m
    · rw [heq] at hu
      cases hx.symm.trans hu
      obtain rfl : f i = j := by simpa [Netlist.rechild, heq, hi] using hj
      rcases hchildren o hmem with ⟨rfl, -⟩ | ⟨-, hmem⟩
      · exact hbuf (.inr ⟨e, y, hy, hle, ho⟩)
      · exact hs.notChild o ho x i (heq ▸ hx) hi hmem
    · exact hs.notChild o ho u j hu (by simpa [Netlist.rechild, heq] using hj) hmem
  · rw [hports] at hy
    obtain ⟨v, hv, hmem⟩ := h.ports p y hy hle
    refine ⟨Netlist.rechild c m owner f y.owner v, by rw [hcomponents, hv]; rfl, ?_⟩
    exact hmem

end

/-- A component with an owner of its own is no buffer. -/
theorem Shaped.not_isBuffer_of_owner (h : Shaped base n) {c : ComponentId} {x : Component}
    (hx : n.components.get? c = some x) (howner : x.owner = none) : ¬ IsBuffer base n c := by
  rintro (⟨m, y, i, hy, hm, hi, rfl⟩ | ⟨e, y, hy, he, hpeer⟩)
  · obtain ⟨b, _, _, hb, _, hshaped⟩ := ((h.components m y hy hm).interior i hi).inBuf
    cases hx.symm.trans hb
    rw [hshaped.owner] at howner
    cases howner
  · obtain ⟨b, hb, hshaped⟩ := (h.exits e y hy he).outBuf c hpeer
    cases hx.symm.trans hb
    rw [hshaped.owner] at howner
    cases howner

/-- A child is no buffer. -/
theorem Shaped.not_isBuffer_of_child (h : Shaped base n)
    {m c : ComponentId} {x : Component} {i : Interior} (hx : n.components.get? m = some x)
    (hm : base.components.size ≤ m.index) (hi : x.interior = some i) (hc : c ∈ i.children) :
    ¬ IsBuffer base n c := by
  have hs := (h.components m x hx hm).interior i hi
  rintro (⟨m', y, j, hy, hm', hj, rfl⟩ | ⟨e, y, hy, he, hpeer⟩)
  · obtain ⟨b, _, _, hb, _, hshaped⟩ := ((h.components m' y hy hm').interior j hj).inBuf
    have hmm : m = m' :=
      Option.some.inj ((hs.children _ hc b hb).symm.trans hshaped.owner)
    subst hmm
    cases hx.symm.trans hy
    cases hi.symm.trans hj
    exact hs.notInBuf hc
  · obtain ⟨b, hb, hshaped⟩ := (h.exits e y hy he).outBuf c hpeer
    have hmy : m = y.owner :=
      Option.some.inj ((hs.children _ hc b hb).symm.trans hshaped.owner)
    exact (h.exits e y hy he).notChild c hpeer x i (hmy ▸ hx) hi hc

end DataflowSynth.Netlist
