/-
Taking an exit off a component.

On a module the exit goes together with its OutBuf, and the OutBuf is cut off from everything.  Nothing
is done about the exit itself: the ports that its buses drive stay driven, and the entries that it
drives stay where they are.  So whether anything still hangs on the exit afterwards is decided before.
-/
import DataflowSynth.Proofs.Design.Detaching
import DataflowSynth.Proofs.Design.Merging

namespace DataflowSynth.Netlist

open Build

variable {pins : Nat} {n n' : Netlist} {s : Traced Netlist} {c d o : ComponentId} {x y z : Component}
  {tag : ExitTag} {e : ExitId} {w : Exit} {ps : List PortId}

/-! ### What hangs on an exit -/

/-- One of the buses of the exit drives the port. -/
def ExitDrives (n : Netlist) (e : ExitId) (p : PortId) : Prop :=
  ∃ v b w, n.ports.get? p = some v ∧ v.bus = some b ∧ n.exits.get? e = some w ∧ b ∈ w.buses

/-- The component has an entry that the exit drives. -/
def ExitEnters (n : Netlist) (e : ExitId) (d : ComponentId) : Prop :=
  ∃ x, n.components.get? d = some x ∧ ∃ i ∈ x.entries, ∃ v, n.entries.get? i = some v ∧
    v.drivingExit = some e

/-- The component is the OutBuf of an exit that some component has. -/
def CurrentOutBuf (n : Netlist) (o : ComponentId) : Prop :=
  ∃ d x, n.components.get? d = some x ∧ n.IsOutBufOf x o

/-- The component is the OutBuf of the exit. -/
def OutBufAt (n : Netlist) (e : ExitId) (o : ComponentId) : Prop :=
  ∃ w, n.exits.get? e = some w ∧ w.peer = some o

/-- The port is one of the OutBuf of the exit. -/
def PortAt (n : Netlist) (e : ExitId) (p : PortId) : Prop :=
  ∃ o z, n.OutBufAt e o ∧ n.components.get? o = some z ∧ p ∈ z.ports

/-! ### The exit and its OutBuf -/

/-- What a component `z` with handle `d` is after `c` has lost its exit `tag` with the OutBuf `o?`. -/
def Component.bereft (z : Component) (c : ComponentId) (tag : ExitTag) (o? : Option ComponentId)
    (d : ComponentId) : Component :=
  { z with
    exits := if d = c then z.exits.erase tag else z.exits
    owner := if some d = o? then none else z.owner }

/-- The netlist after the exit `e`, which is `w`, has been taken off `c`, where it was called `tag`. -/
structure TakenOff (n : Netlist) (c : ComponentId) (tag : ExitTag) (e : ExitId) (w : Exit)
    (ps : List PortId) (n' : Netlist) : Prop where
  cut : ∀ p v, n.ports.get? p = some v →
    (p ∈ ps ↔ ∃ o z, w.peer = some o ∧ n.components.get? o = some z ∧
      (p ∈ z.ports ∨ ∃ b, v.bus = some b ∧ n.Emits z b))
  components : ∀ d, n'.components.get? d = (n.components.get? d).map (·.bereft c tag w.peer d)
  ports : ∀ p, n'.ports.get? p =
    (n.ports.get? p).map fun v => if p ∈ ps then { v with bus := none } else v
  buses : ∀ b, n'.buses.get? b =
    (n.buses.get? b).map fun v => { v with ports := v.ports.filter (· ∉ ps) }
  exits : ∀ f, n'.exits.get? f =
    (n.exits.get? f).map fun v => if f = e then { v with peer := none } else v
  entries : n'.entries = n.entries

section

variable (hy : n.components.get? c = some y) (he : y.exits.find? tag = some e)
  (hw : n.exits.get? e = some w)

include hy he hw

/-- The OutBuf of an exit that a component has stands in the component. -/
theorem at_outBuf (ho : w.peer = some o) : n.holdings.At c (.outBuf e) o :=
  ⟨⟨tag, by simpa [holdings, hy] using OrderedMap.mem_entries_of_find? he⟩,
    by simp [holdings, hw, ho]⟩

theorem Reachable.outBuf_ne (hn : n.Reachable) (ho : w.peer = some o) : o ≠ c := by
  have hat := at_outBuf hy he hw ho
  obtain ⟨i, hi⟩ := Option.isSome_iff_exists.mp (hn.owned.modules c _ o hat)
  have hm : n.IsModule c y i := ⟨hy, by simpa [holdings, hy] using hi⟩
  exact hn.docked.ne_of_at hn.owned hm hat (by simp)

end

/-- The exit is no longer among those of `c`, and has no OutBuf. -/
def struck (n : Netlist) (c : ComponentId) (tag : ExitTag) (e : ExitId) : Netlist :=
  { n with
    components := n.components.modify c fun y => { y with exits := y.exits.erase tag }
    exits := n.exits.modify e fun v => { v with peer := none } }

theorem get?_struck (n : Netlist) (c : ComponentId) (tag : ExitTag) (e : ExitId) (d : ComponentId) :
    (n.struck c tag e).components.get? d = (n.components.get? d).map (·.bereft c tag none d) := by
  simp only [struck, Arena.get?_modify, Component.bereft, reduceCtorEq, if_false]
  split
  · rfl
  · simp

theorem get?_exits_struck (n : Netlist) (c : ComponentId) (tag : ExitTag) (e f : ExitId) :
    (n.struck c tag e).exits.get? f =
      (n.exits.get? f).map fun v => if f = e then { v with peer := none } else v := by
  simp only [struck, Arena.get?_modify]
  split
  · rfl
  · simp

theorem emits_struck (b : BusId) : (n.struck c tag e).Emits z b ↔ n.Emits z b := by
  simp only [Emits, get?_exits_struck, Option.map_eq_some_iff]
  refine exists_congr fun f => and_congr_right fun _ => ?_
  constructor
  · rintro ⟨_, ⟨v, hv, rfl⟩, hb⟩
    refine ⟨v, hv, ?_⟩
    split at hb <;> exact hb
  · rintro ⟨v, hv, hb⟩
    refine ⟨_, ⟨v, hv, rfl⟩, ?_⟩
    split <;> exact hb

theorem ExitsStand.struck (h : n.ExitsStand z) : (n.struck c tag e).ExitsStand z := by
  intro f hf
  obtain ⟨v, hv, hbuses⟩ := h f hf
  refine ⟨_, by rw [get?_exits_struck, hv, Option.map_some], fun b hb => hbuses b ?_⟩
  split at hb <;> exact hb

theorem wp_removeExit (hl : Linked pins {} s.state) (hy : s.state.components.get? c = some y)
    (he : y.exits.find? tag = some e) (hw : s.state.exits.get? e = some w)
    (hne : ∀ o, w.peer = some o → o ≠ c) :
    wp (removeExit c tag) (fun done t => done = true ∧
      ∃ ps, TakenOff s.state c tag e w ps t.state) (fun _ _ => False) s := by
  simp only [removeExit, wp_bind]
  refine (wp_component hy).mpr ?_
  rw [he]
  simp only [wp_bind]
  refine (wp_changeComponent (Arena.lt_of_get? hy)).mpr (Iff.mpr (wp_exit hw) ?_)
  cases ho : w.peer with
  | none =>
      refine ⟨rfl, [], by simp [ho], fun d => ?_, by simp, by simp, fun f => ?_, rfl⟩
      · rw [ho]
        exact get?_struck s.state c tag e d
      · cases hf : s.state.exits.get? f with
        | none => exact hf
        | some v =>
            refine hf.trans (congrArg some ?_)
            split
            · next heq =>
              subst heq
              cases hw.symm.trans hf
              rw [← ho]
            · rfl
  | some o =>
      simp only [wp_bind]
      have hrefs := Exit.forall_refs.mp (hl.exits e w hw (Nat.zero_le _)).refs
      obtain ⟨z, hz⟩ := Arena.exists_get? (hrefs.2.2 o ho).2
      have hz' : (s.state.struck c tag e).components.get? o = some z := by
        rw [get?_struck, hz, Option.map_some, Component.bereft, if_neg (hne o ho),
          if_neg (by simp)]
      have hports := (Component.forall_refs.mp (hl.components o z hz (Nat.zero_le _)).refs).2.1
      refine Iff.mpr (wp_changeExit (Arena.lt_of_get? hw)) ?_
      refine wp_mono (wp_disconnect (s := moved s (s.state.struck c tag e)) hl.tethered hz'
        (fun p hp => Arena.exists_get? (hports p hp).2) (hl.exitsStand hz).struck)
        ?_ fun _ _ h => h
      rintro _ t ⟨ps, ht, hps⟩
      rw [state_moved] at ht hps
      refine (wp_changeComponent ?_).mpr ⟨rfl, ps, ?_⟩
      · rw [ht.components]
        exact Arena.lt_of_get? hz'
      refine ⟨fun p v hv => ?_, fun d => ?_, ht.ports, ht.buses, fun f => ?_, ht.entries⟩
      · simp only [hps p v hv, emits_struck]
        refine ⟨fun h => ⟨o, z, ho, hz, h⟩, ?_⟩
        rintro ⟨o', z', ho', hz', h⟩
        cases ho.symm.trans ho'
        cases hz.symm.trans hz'
        exact h
      · simp only [state_moved, Arena.get?_modify, ht.components, get?_struck]
        cases s.state.components.get? d with
        | none => simp
        | some x => by_cases hd : d = o <;> simp [hd, ho, Component.bereft]
      · simp only [state_moved, ht.exits, get?_exits_struck]

/-! ### What hangs on the exit afterwards -/

theorem outBufAt_iff (hw : n.exits.get? e = some w) : n.OutBufAt e o ↔ w.peer = some o := by
  simp [OutBufAt, hw]

theorem TakenOff.enters_iff (h : TakenOff n c tag e w ps n') : n'.ExitEnters e d ↔ n.ExitEnters e d := by
  simp only [ExitEnters, h.components, h.entries, Option.map_eq_some_iff]
  constructor
  · rintro ⟨_, ⟨x, hx, rfl⟩, hi⟩
    exact ⟨x, hx, hi⟩
  · rintro ⟨x, hx, hi⟩
    exact ⟨_, ⟨x, hx, rfl⟩, hi⟩

section

variable (h : TakenOff n c tag e w ps n') (hw : n.exits.get? e = some w)

include h hw

theorem TakenOff.exit : n'.exits.get? e = some { w with peer := none } := by
  rw [h.exits, hw, Option.map_some, if_pos rfl]

variable (hy : n.components.get? c = some y) (he : y.exits.find? tag = some e)

include hy he

/-- The buses of the exit are none of its OutBuf. -/
theorem TakenOff.not_emits (hl : Linked pins {} n) (hne : ∀ o, w.peer = some o → o ≠ c)
    {b : BusId} (hb : b ∈ w.buses) (ho : w.peer = some o) (hz : n.components.get? o = some z) :
    ¬ n.Emits z b := by
  rintro ⟨f, hf, v, hv, hbv⟩
  have hlw := hl.exits e w hw (Nat.zero_le _)
  have hlv := hl.exits f v hv (Nat.zero_le _)
  obtain ⟨u, hu⟩ := Arena.exists_get? ((Exit.forall_refs.mp hlw.refs).2.1 b hb).2
  obtain rfl : f = e := (hlv.buses b hbv u hu).symm.trans (hlw.buses b hb u hu)
  have howner := hl.owner_of_listed hz (Nat.zero_le _) hf hw
  have howner' := hl.owner_of_listed hy (Nat.zero_le _) (OrderedMap.mem_values_of_find? he) hw
  exact hne o ho (howner.symm.trans howner')

theorem TakenOff.drives_iff (hl : Linked pins {} n) (hne : ∀ o, w.peer = some o → o ≠ c)
    (p : PortId) : n'.ExitDrives e p ↔ n.ExitDrives e p ∧ ¬ n.PortAt e p := by
  constructor
  · rintro ⟨v', b, w', hv', hb, hw', hmem⟩
    cases (h.exit hw).symm.trans hw'
    rw [h.ports] at hv'
    obtain ⟨v, hv, rfl⟩ := Option.map_eq_some_iff.mp hv'
    split at hb
    · cases hb
    · next hp =>
      refine ⟨⟨v, b, w, hv, hb, hw, hmem⟩, fun ⟨o, z, ho, hz, hpz⟩ => hp ?_⟩
      exact (h.cut p v hv).mpr ⟨o, z, (outBufAt_iff hw).mp ho, hz, .inl hpz⟩
  · rintro ⟨⟨v, b, w', hv, hb, hw', hmem⟩, hnot⟩
    cases hw.symm.trans hw'
    refine ⟨v, b, _, ?_, hb, h.exit hw, hmem⟩
    rw [h.ports, hv, Option.map_some, if_neg fun hp => ?_]
    obtain ⟨o, z, ho, hz, hpz | ⟨b', hb', hemits⟩⟩ := (h.cut p v hv).mp hp
    · exact hnot ⟨o, z, (outBufAt_iff hw).mpr ho, hz, hpz⟩
    · cases hb.symm.trans hb'
      exact h.not_emits hw hy he hl hne hmem ho hz hemits

theorem TakenOff.currentOutBuf_iff (hn : n.holdings.Owned) (o : ComponentId) :
    n'.CurrentOutBuf o ↔ n.CurrentOutBuf o ∧ ¬ n.OutBufAt e o := by
  have hat : ∀ {d x f v}, n.components.get? d = some x → f ∈ x.exits.values →
      n.exits.get? f = some v → v.peer = some o → n.holdings.At d (.outBuf f) o := by
    intro d x f v hx hf hv ho
    obtain ⟨a, ha, rfl⟩ := OrderedMap.mem_values.mp hf
    exact ⟨⟨a.1, by simpa [holdings, hx] using ha⟩, by simp [holdings, hv, ho]⟩
  constructor
  · rintro ⟨d, x', hx', f, hf, v', hv', ho⟩
    rw [h.components] at hx'
    rw [h.exits] at hv'
    obtain ⟨x, hx, rfl⟩ := Option.map_eq_some_iff.mp hx'
    obtain ⟨v, hv, rfl⟩ := Option.map_eq_some_iff.mp hv'
    split at ho
    · cases ho
    · next hfe =>
      have hlisted : f ∈ x.exits.values := by
        simp only [Component.bereft] at hf
        split at hf
        · exact OrderedMap.mem_values_erase hf
        · exact hf
      refine ⟨⟨d, x, hx, f, hlisted, v, hv, ho⟩, fun hoe => hfe ?_⟩
      -- An OutBuf stands in one place only.
      have hthere := hat hx hlisted hv ho
      have hhere := at_outBuf hy he hw ((outBufAt_iff hw).mp hoe)
      obtain rfl : d = c := Option.some.inj ((hn.owns _ _ _ hthere).symm.trans (hn.owns _ _ _ hhere))
      exact Holdings.Slot.outBuf.inj (hn.single d _ _ o hthere hhere)
  · rintro ⟨⟨d, x, hx, f, hf, v, hv, ho⟩, hnot⟩
    have hfe : f ≠ e := by
      rintro rfl
      exact hnot ⟨v, hv, ho⟩
    refine ⟨d, _, by rw [h.components, hx, Option.map_some], f, ?_, v, ?_, ho⟩
    · simp only [Component.bereft]
      split
      · next hd =>
        subst hd
        cases hx.symm.trans hy
        have hkeys : y.exits.keys.Nodup := by simpa [holdings, hy, OrderedMap.keys] using hn.tags d
        exact OrderedMap.mem_values_erase_of_ne hkeys he hf hfe
      · exact hf
    · rw [h.exits, hv, Option.map_some, if_neg hfe]

end

/-! ### The whole step -/

theorem removeExit_takes (hn : n.Reachable) (hy : n.components.get? c = some y)
    (he : y.exits.find? tag = some e) (said : Journal) :
    ∃ n' said' w ps, removeExit c tag ⟨n, said⟩ = .ok true ⟨n', said'⟩ ∧
      n.exits.get? e = some w ∧ TakenOff n c tag e w ps n' := by
  obtain ⟨pins, hl⟩ := hn.linked
  obtain ⟨w, hw, -⟩ := hn.owned.exit hy (OrderedMap.mem_entries_of_find? he)
  obtain ⟨_, ⟨n', said'⟩, hrun, rfl, ps, hps⟩ := exists_of_wp (wp_removeExit (s := ⟨n, said⟩) hl hy he
    hw fun o ho => hn.outBuf_ne hy he hw ho)
  exact ⟨n', said', w, ps, hrun, hw, hps⟩

/-- What there is after the exit `e` has been taken off the component `c`, which was `y`. -/
structure Withdrawn (n : Netlist) (c : ComponentId) (y : Component) (tag : ExitTag) (e : ExitId)
    (n' : Netlist) : Prop where
  /-- The component has its other exits. -/
  exits : ∃ y', n'.components.get? c = some y' ∧ y'.exits = y.exits.erase tag
  /-- The OutBuf stands in no component, and nothing drives it. -/
  outBuf : ∀ o, n.OutBufAt e o → ¬ n'.CurrentOutBuf o ∧ ∃ z, n'.components.get? o = some z ∧
    z.owner = none ∧ ∀ p ∈ z.ports, n'.portDriver? p = none
  /-- The exit drives all ports that it drove, but for those of the OutBuf. -/
  drives : ∀ p, n'.ExitDrives e p ↔ n.ExitDrives e p ∧ ¬ n.PortAt e p
  /-- It drives all entries that it drove. -/
  enters : ∀ d, n'.ExitEnters e d ↔ n.ExitEnters e d
  outBufs : ∀ o, n'.CurrentOutBuf o ↔ n.CurrentOutBuf o ∧ ¬ n.OutBufAt e o

theorem TakenOff.withdrawn (h : TakenOff n c tag e w ps n') (hn : n.Reachable)
    (hy : n.components.get? c = some y) (he : y.exits.find? tag = some e)
    (hw : n.exits.get? e = some w) : n.Withdrawn c y tag e n' := by
  obtain ⟨pins, hl⟩ := hn.linked
  have hne := fun o ho => hn.outBuf_ne hy he hw (o := o) ho
  have houtBufs := h.currentOutBuf_iff hw hy he hn.owned
  refine ⟨⟨_, by rw [h.components, hy, Option.map_some], ?_⟩, fun o ho => ⟨fun hcur => ?_, ?_⟩,
    h.drives_iff hw hy he hl hne, fun _ => h.enters_iff, houtBufs⟩
  · simp [Component.bereft]
  · exact ((houtBufs o).mp hcur).2 ho
  · have hpeer := (outBufAt_iff hw).mp ho
    have hrefs := Exit.forall_refs.mp (hl.exits e w hw (Nat.zero_le _)).refs
    obtain ⟨z, hz⟩ := Arena.exists_get? (hrefs.2.2 o hpeer).2
    refine ⟨_, by rw [h.components, hz, Option.map_some], by simp [Component.bereft, hpeer],
      fun p hp => ?_⟩
    rw [portDriver?, h.ports]
    cases hv : n.ports.get? p with
    | none => rfl
    | some v => simp [(h.cut p v hv).mpr ⟨o, z, hpeer, hz, .inl hp⟩]

end DataflowSynth.Netlist
