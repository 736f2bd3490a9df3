/-
The entries of a copy.

The copy of an entry is driven by the copy of the exit, and its dependencies are copies of the
dependencies one by one.  They are grouped by ports again, so that their order is the same at every
port.
-/
import DataflowSynth.Proofs.Clone.Inside

namespace DataflowSynth.Netlist

open Build

variable {n s t v : Netlist} {u : Traced Netlist} {copy d : ComponentId} {map : Correspondence}
  {i : EntryId} {y : Entry} {x : Component}

/-! ### Dependencies -/

/-- The entry with another dependency. -/
def Entry.depend (y : Entry) (a : PortId × Dependency) : Entry :=
  { y with dependencies := y.dependencies.alter a.1 fun ds => ds.getD [] ++ [a.2] }

/-- The dependencies of one port. -/
theorem Entry.filter_toList (h : y.dependencies.keys.Nodup) (p : PortId) :
    (y.toList.filter fun a => a.1 = p) = ((y.dependencies.find? p).getD []).map (p, ·) := by
  unfold Entry.toList OrderedMap.find?
  unfold OrderedMap.keys at h
  generalize y.dependencies.entries = es at h ⊢
  induction es with
  | nil => rfl
  | cons e es ih =>
      rw [List.map_cons, List.nodup_cons] at h
      rw [List.flatMap_cons, List.filter_append, List.filter_map, ih h.2]
      by_cases heq : e.1 = p
      · -- The other keys are different, so nothing follows.
        have hnone : (es.find? fun e => e.1 = p) = none := by
          refine List.find?_eq_none.mpr fun a ha hap => h.1 ?_
          exact List.mem_map.mpr ⟨a, ha, (of_decide_eq_true hap).trans heq.symm⟩
        simp [heq, hnone, Function.comp_def]
      · simp [heq, Function.comp_def]

theorem Entry.filter_depend (h : y.dependencies.keys.Nodup) (a : PortId × Dependency) (p : PortId) :
    ((y.depend a).toList.filter fun b => b.1 = p) =
      (y.toList.filter fun b => b.1 = p) ++ [a].filter fun b => b.1 = p := by
  rw [Entry.filter_toList (OrderedMap.keys_nodup_alter h _ _), Entry.filter_toList h, Entry.depend,
    OrderedMap.find?_alter]
  by_cases heq : a.1 = p
  · subst heq
    simp
  · simp [heq, Ne.symm heq]

/-- What an entry has at each port after it was given some dependencies. -/
theorem Entry.filter_foldl_depend (h : y.dependencies.keys.Nodup) (l : List (PortId × Dependency))
    (p : PortId) : ((l.foldl Entry.depend y).toList.filter fun b => b.1 = p) =
      (y.toList.filter fun b => b.1 = p) ++ l.filter fun b => b.1 = p := by
  induction l generalizing y with
  | nil => simp
  | cons a l ih =>
      rw [List.foldl_cons, ih (OrderedMap.keys_nodup_alter h _ _), Entry.filter_depend h,
        List.append_assoc, ← List.filter_append, List.singleton_append]

/-! ### Twins -/

def DependencyTwin (map : Correspondence) (a a' : PortId × Dependency) : Prop :=
  map.ports[a.1]? = some a'.1 ∧ a'.2.kind = a.2.kind ∧ map.buses[a.2.bus]? = some a'.2.bus

/-- Two entries with twin dependencies, in the same order at each port. -/
def EntryTwin (n t : Netlist) (map : Correspondence) (i i' : EntryId) : Prop :=
  ∃ y y', n.entries.get? i = some y ∧ t.entries.get? i' = some y' ∧
    Option.Rel (fun e e' => map.exits[e]? = some e') y.drivingExit y'.drivingExit ∧
    ∃ l, List.Forall₂ (DependencyTwin map) y.toList l ∧
      ∀ p, (y'.toList.filter fun a => a.1 = p) = l.filter fun a => a.1 = p

theorem EntryTwin.mono {i i' : EntryId} (h : EntryTwin n t map i i') (hk : t.entries.Keeps v.entries) :
    EntryTwin n v map i i' := by
  obtain ⟨y, y', hy, hy', hrest⟩ := h
  exact ⟨y, y', hy, (hk.get? i' (Arena.lt_of_get? hy')).trans hy', hrest⟩

/-- What an entry names has copies. -/
structure EntryKnown (t : Netlist) (map : Correspondence) (y : Entry) : Prop where
  exit : ∀ e, y.drivingExit = some e → ∃ e', map.exits[e]? = some e'
  ports : ∀ a ∈ y.toList, ∃ p, map.ports[a.1]? = some p ∧ p.index < t.ports.size
  buses : ∀ a ∈ y.toList, ∃ b, map.buses[a.2.bus]? = some b

/-! ### One entry -/

/-- Nothing has changed but one entry. -/
structure Rebound (s t : Netlist) (i : EntryId) : Prop where
  components : t.components = s.components
  ports : t.ports = s.ports
  buses : t.buses = s.buses
  exits : t.exits = s.exits
  size : t.entries.size = s.entries.size
  entries : ∀ j, j ≠ i → t.entries.get? j = s.entries.get? j

theorem copyDependencies_ok {l : List (PortId × Dependency)}
    (hports : ∀ a ∈ l, ∃ p, map.ports[a.1]? = some p ∧ p.index < u.state.ports.size)
    (hbuses : ∀ a ∈ l, ∃ b, map.buses[a.2.bus]? = some b)
    (hy : u.state.entries.get? i = some y) :
    wp (l.forM fun (p, d) => do addDependency i (← map.port p) ⟨d.kind, ← map.bus d.bus⟩)
      (fun _ w => Rebound u.state w.state i ∧ ∃ l', List.Forall₂ (DependencyTwin map) l l' ∧
        w.state.entries.get? i = some (l'.foldl Entry.depend y)) Never u := by
  induction l generalizing u y with
  | nil => exact ⟨⟨rfl, rfl, rfl, rfl, rfl, fun _ _ => rfl⟩, [], .nil, hy⟩
  | cons a l ih =>
      obtain ⟨p, hp, hlt⟩ := hports a (by simp)
      obtain ⟨b, hb⟩ := hbuses a (by simp)
      obtain ⟨z, hz⟩ := Arena.exists_get? hlt
      rw [wp_forM_cons]
      simp only [Correspondence.port, Correspondence.bus, hp, hb, wp_bind, wp_expect_some,
        addDependency]
      refine (wp_port hz).mpr ((wp_changeEntry (Arena.lt_of_get? hy)).mpr ?_)
      refine wp_mono (ih (y := y.depend (p, ⟨a.2.kind, b⟩)) (fun a ha => hports a (by simp [ha]))
        (fun a ha => hbuses a (by simp [ha])) ?_) (fun _ w h => ?_) fun _ _ h => h
      · exact (Arena.get?_modify_self ..).trans (congrArg _ hy)
      · obtain ⟨hw, l', htwins, hlast⟩ := h
        refine ⟨⟨hw.components, hw.ports, hw.buses, hw.exits, ?_, fun j hj => ?_⟩,
          (p, ⟨a.2.kind, b⟩) :: l', .cons ⟨hp, rfl, hb⟩ htwins, hlast⟩
        · exact hw.size.trans (by simp)
        · refine (hw.entries j hj).trans ?_
          simp only [moved, Arena.get?_modify, if_neg hj]

/-- The component has been entered in some more ways, and nothing else has changed. -/
structure Entered (s t : Netlist) (copy : ComponentId) (es : List EntryId) : Prop where
  size : t.components.size = s.components.size
  components : ∀ d, t.components.get? d = if d = copy
    then (s.components.get? d).map fun x => { x with entries := x.entries ++ es }
    else s.components.get? d
  ports : t.ports = s.ports
  buses : t.buses = s.buses
  exits : t.exits = s.exits
  entries : s.entries.Keeps t.entries

theorem Entered.refl (s : Netlist) (copy : ComponentId) : Entered s s copy [] where
  size := rfl
  components d := by simp
  ports := rfl
  buses := rfl
  exits := rfl
  entries := .refl _

theorem Entered.trans {es es' : List EntryId} (h : Entered s t copy es)
    (h' : Entered t v copy es') : Entered s v copy (es ++ es') where
  size := h'.size.trans h.size
  components d := by
    rw [h'.components, h.components]
    split
    · simp [Option.map_map, Function.comp_def]
    · rfl
  ports := h'.ports.trans h.ports
  buses := h'.buses.trans h.buses
  exits := h'.exits.trans h.exits
  entries := h.entries.trans h'.entries

theorem copyEntry_ok (hn : n.entries.Keeps u.state.entries) (hy : n.entries.get? i = some y)
    (hknown : EntryKnown u.state map y) (hcopy : copy.index < u.state.components.size) :
    wp (copyEntry map copy i)
      (fun map' w => (∃ k, map' = { map with entries := k }) ∧
        ∃ i', Entered u.state w.state copy [i'] ∧ EntryTwin n w.state map i i') Never u := by
  have hyu := (hn.get? i (Arena.lt_of_get? hy)).trans hy
  rw [copyEntry, wp_bind]
  refine (wp_entry hyu).mpr ?_
  -- The driving exit.
  obtain ⟨o, ho, hrel⟩ : ∃ o, wp (copiedExit? map y.drivingExit) (fun o' w => o = o' ∧ u = w)
      Never u ∧ Option.Rel (fun e e' => map.exits[e]? = some e') y.drivingExit o := by
    cases hexit : y.drivingExit with
    | none => exact ⟨none, ⟨rfl, rfl⟩, .none⟩
    | some e =>
        obtain ⟨e', he⟩ := hknown.exit e hexit
        refine ⟨some e', ?_, .some he⟩
        rw [copiedExit?, Correspondence.exit, he]
        exact ⟨rfl, rfl⟩
  rw [wp_bind]
  refine wp_mono ho ?_ fun _ _ h => h
  rintro o' w ⟨ho', hw⟩
  subst ho' hw
  -- The entry itself.
  simp only [makeEntry, wp_bind, wp_addEntry]
  refine Iff.mpr (wp_changeComponent hcopy) ?_
  rw [wp_pure]
  refine wp_mono (copyDependencies_ok (y := { owner := copy, drivingExit := o })
    (fun a ha => hknown.ports a ha) hknown.buses ?_) (fun _ w h => ?_) fun _ _ h => h
  · exact Arena.get?_push_next ..
  obtain ⟨hw, l, htwins, hlast⟩ := h
  have hadded : w.state.entries.size = u.state.entries.size + 1 := hw.size.trans (by simp [moved])
  refine ⟨⟨_, rfl⟩, u.state.entries.next, ⟨?_, fun d => ?_, hw.ports, hw.buses, hw.exits,
    by omega, fun j hj => ?_⟩, y, _, hy, hlast, ?_, l, htwins, fun p => ?_⟩
  · rw [hw.components]
    simp [moved]
  · rw [hw.components]
    exact Arena.get?_modify ..
  · have hne : j ≠ u.state.entries.next := fun heq => by simp [heq] at hj
    rw [hw.entries j hne]
    simp only [moved, Arena.get?_push, if_neg hne]
  · have hexit : ∀ (l : List (PortId × Dependency)) (z : Entry),
        (l.foldl Entry.depend z).drivingExit = z.drivingExit := fun l z => by
      induction l generalizing z with
      | nil => rfl
      | cons a l ih => exact ih (z.depend a)
    rw [hexit]
    exact hrel
  · rw [Entry.filter_foldl_depend (by simp [OrderedMap.keys, EmptyCollection.emptyCollection])]
    simp [Entry.toList, EmptyCollection.emptyCollection]

/-! ### All entries -/

theorem EntryKnown.mono (h : EntryKnown s map y) (hports : t.ports = s.ports) :
    EntryKnown t map y :=
  ⟨h.exit, fun a ha => hports ▸ h.ports a ha, h.buses⟩

theorem copyEntries_ok {is : List EntryId} (hn : n.entries.Keeps u.state.entries)
    (hknown : ∀ i ∈ is, ∃ y, n.entries.get? i = some y ∧ EntryKnown u.state map y)
    (hcopy : copy.index < u.state.components.size) :
    wp (is.foldlM (fun map i => copyEntry map copy i) map)
      (fun map' w => (∃ k, map' = { map with entries := k }) ∧
        ∃ is', Entered u.state w.state copy is' ∧ List.Forall₂ (EntryTwin n w.state map) is is')
      Never u := by
  induction is generalizing u map with
  | nil => exact ⟨⟨_, rfl⟩, [], .refl _ _, .nil⟩
  | cons i is ih =>
      obtain ⟨y, hy, hi⟩ := hknown i (by simp)
      rw [List.foldlM_cons, wp_bind]
      refine wp_mono (copyEntry_ok hn hy hi hcopy) (fun map' w ⟨⟨k, hmap⟩, i', hw, htwin⟩ => ?_)
        fun _ _ h => h
      subst hmap
      refine wp_mono (ih (hn.trans hw.entries) (fun j hj => ?_) (hw.size ▸ hcopy))
        (fun map' v ⟨⟨k', hmap⟩, is', hv, htwins⟩ => ?_) fun _ _ h => h
      · obtain ⟨z, hz, hj⟩ := hknown j (by simp [hj])
        have hj := hj.mono hw.ports
        exact ⟨z, hz, hj.exit, hj.ports, hj.buses⟩
      · subst hmap
        exact ⟨⟨k', rfl⟩, i' :: is', hw.trans hv, .cons (htwin.mono hv.entries) htwins⟩

/-- Every copy in the list has been entered as its source is, and nothing else has changed. -/
structure AllEntered (n s t : Netlist) (map : Correspondence)
    (zs : List (ComponentId × ComponentId)) : Prop where
  size : t.components.size = s.components.size
  others : ∀ d, d ∉ zs.map Prod.snd → t.components.get? d = s.components.get? d
  copies : ∀ z ∈ zs, ∀ x x', n.components.get? z.1 = some x → s.components.get? z.2 = some x' →
    ∃ is, t.components.get? z.2 = some { x' with entries := x'.entries ++ is } ∧
      List.Forall₂ (EntryTwin n t map) x.entries is
  ports : t.ports = s.ports
  buses : t.buses = s.buses
  exits : t.exits = s.exits
  entries : s.entries.Keeps t.entries

theorem copyAllEntries_ok {zs : List (ComponentId × ComponentId)} (hn : n.Keeps u.state)
    (hnodup : (zs.map Prod.snd).Nodup)
    (hzs : ∀ z ∈ zs, ∃ x, n.components.get? z.1 = some x ∧ n.components.size ≤ z.2.index ∧
      z.2.index < u.state.components.size ∧
      ∀ i ∈ x.entries, ∃ y, n.entries.get? i = some y ∧ EntryKnown u.state map y) :
    wp (zs.foldlM (fun map (c, copy) => do
        (← component c).entries.foldlM (fun map i => copyEntry map copy i) map) map)
      (fun map' w => (∃ k, map' = { map with entries := k }) ∧ AllEntered n u.state w.state map zs)
      Never u := by
  induction zs generalizing u map with
  | nil => exact ⟨⟨_, rfl⟩, rfl, fun _ _ => rfl, by simp, rfl, rfl, rfl, .refl _⟩
  | cons z zs ih =>
      obtain ⟨x, hx, hle, hlt, hknown⟩ := hzs z (by simp)
      rw [List.map_cons, List.nodup_cons] at hnodup
      rw [List.foldlM_cons, wp_bind, wp_bind]
      refine (wp_component ((hn.components.get? _ (Arena.lt_of_get? hx)).trans hx)).mpr ?_
      refine wp_mono (copyEntries_ok hn.entries hknown hlt)
        (fun map' w ⟨⟨k, hmap⟩, is, hw, htwins⟩ => ?_) fun _ _ h => h
      subst hmap
      have hnw : n.Keeps w.state := by
        refine ⟨⟨hw.size ▸ hn.components.size, fun d hd => ?_⟩, hw.ports ▸ hn.ports,
          hw.buses ▸ hn.buses, hw.exits ▸ hn.exits, hn.entries.trans hw.entries⟩
        have hne : d ≠ z.2 := by
          rintro rfl
          exact absurd hle (Nat.not_le_of_lt hd)
        rw [hw.components, if_neg hne]
        exact hn.components.get? d hd
      refine wp_mono (ih hnw hnodup.2 fun z' hz' => ?_)
        (fun map' v ⟨⟨k', hmap⟩, hv⟩ => ?_) fun _ _ h => h
      · obtain ⟨x', hx', hle', hlt', hknown'⟩ := hzs z' (by simp [hz'])
        refine ⟨x', hx', hle', hw.size ▸ hlt', fun i hi => ?_⟩
        obtain ⟨y, hy, hi⟩ := hknown' i hi
        have hi := hi.mono hw.ports
        exact ⟨y, hy, hi.exit, hi.ports, hi.buses⟩
      · subst hmap
        refine ⟨⟨k', rfl⟩, hv.size.trans hw.size, fun d hd => ?_, fun z' hz' x₁ x' hx₁ hx' => ?_,
          hv.ports.trans hw.ports, hv.buses.trans hw.buses, hv.exits.trans hw.exits,
          hw.entries.trans hv.entries⟩
        · simp only [List.map_cons, List.mem_cons, not_or] at hd
          rw [hv.others d hd.2, hw.components, if_neg hd.1]
        · rcases List.mem_cons.mp hz' with rfl | hz'
          · cases hx.symm.trans hx₁
            refine ⟨is, ?_, htwins.imp fun _ _ h => h.mono hv.entries⟩
            rw [hv.others _ hnodup.1, hw.components, if_pos rfl, hx']
            rfl
          · have hne : z'.2 ≠ z.2 := fun heq => hnodup.1 (heq ▸ List.mem_map_of_mem hz')
            exact hv.copies z' hz' x₁ x' hx₁ (by rw [hw.components, if_neg hne, hx'])

end DataflowSynth.Netlist
