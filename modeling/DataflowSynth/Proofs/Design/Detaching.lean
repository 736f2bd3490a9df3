/-
Letting a child go.

A child that is taken out of a module leaves nothing behind: it is in no list of the module, it is wired
to nothing, and no OutBuf is entered from it.  That takes changes all over the netlist, and each of them
is told here exactly, so that it can be read off what has stayed as it was.  All wires that are cut are
one list of ports.  They lose their drivers, and fan-outs lose them; since the two sides of a connection
agree in every netlist, that is the same as if the wires had been cut one after the other.
-/
import DataflowSynth.Proofs.Design.Ownership
import DataflowSynth.Proofs.Netlist.Overlay

namespace DataflowSynth

open Build

namespace Netlist

variable {pins : Nat} {n n' n'' : Netlist} {s : Traced Netlist}

/-! ### Cutting wires -/

/-- Some ports have lost their drivers, and nothing else has changed. -/
structure Unplugged (ps : List PortId) (n n' : Netlist) : Prop where
  components : n'.components = n.components
  exits : n'.exits = n.exits
  entries : n'.entries = n.entries
  ports : ∀ p, n'.ports.get? p =
    (n.ports.get? p).map fun y => if p ∈ ps then { y with bus := none } else y
  buses : ∀ b, n'.buses.get? b =
    (n.buses.get? b).map fun z => { z with ports := z.ports.filter (· ∉ ps) }

variable {ps qs : List PortId}

theorem Unplugged.nil (n : Netlist) : Unplugged [] n n := by
  refine ⟨rfl, rfl, rfl, fun p => ?_, fun b => ?_⟩ <;> simp

theorem Unplugged.trans (h : Unplugged ps n n') (h' : Unplugged qs n' n'') :
    Unplugged (ps ++ qs) n n'' where
  components := h'.components.trans h.components
  exits := h'.exits.trans h.exits
  entries := h'.entries.trans h.entries
  ports p := by
    rw [h'.ports, h.ports, Option.map_map]
    congr 1
    funext y
    by_cases hp : p ∈ ps <;> by_cases hq : p ∈ qs <;> simp [hp, hq]
  buses b := by
    rw [h'.buses, h.buses, Option.map_map]
    congr 1
    funext z
    simp [List.filter_filter, Bool.and_comm]

theorem Unplugged.tethered (h : Unplugged ps n n') (hw : n.Tethered) : n'.Tethered := by
  intro p b
  simp only [h.ports, h.buses, Option.map_eq_some_iff]
  constructor
  · rintro ⟨_, ⟨y, hy, rfl⟩, hb⟩
    split at hb
    · cases hb
    · next hp =>
      obtain ⟨z, hz, hmem⟩ := (hw p b).mp ⟨y, hy, hb⟩
      exact ⟨_, ⟨z, hz, rfl⟩, by simp [hmem, hp]⟩
  · rintro ⟨_, ⟨z, hz, rfl⟩, hmem⟩
    obtain ⟨hmem, hp⟩ := List.mem_filter.mp hmem
    obtain ⟨y, hy, hb⟩ := (hw p b).mpr ⟨z, hz, hmem⟩
    exact ⟨_, ⟨y, hy, rfl⟩, by rw [if_neg (by simpa using hp)]; exact hb⟩

theorem wp_setBus_none (hw : s.state.Tethered) {p : PortId} {y : Port}
    (hy : s.state.ports.get? p = some y) :
    wp (setBus p none) (fun _ t => Unplugged [p] s.state t.state) (fun _ _ => False) s := by
  have hold : ∀ b, y.bus = some b → b.index < s.state.buses.size := fun b hb => by
    obtain ⟨z, hz, -⟩ := (hw p b).mp ⟨y, hy, hb⟩
    exact Arena.lt_of_get? hz
  refine (wp_setBus hy hold (by simp)).mpr ⟨rfl, rfl, rfl, fun q => ?_, fun b => ?_⟩
  · simp only [state_moved, Arena.get?_modify, List.mem_singleton]
    split
    · rfl
    · simp
  · simp only [state_moved, get?_movePort]
    cases hz : s.state.buses.get? b with
    | none => rfl
    | some z =>
        simp only [Option.map_some, Bus.moved, reduceCtorEq, if_false, List.append_nil,
          List.mem_singleton, decide_not, ne_eq]
        split
        · rfl
        · next hne =>
          -- A bus that does not drive the port has not had it in its fan-out.
          have hnot : p ∉ z.ports := by
            intro hmem
            obtain ⟨y', hy', hb⟩ := (hw p b).mpr ⟨z, hz, hmem⟩
            cases hy.symm.trans hy'
            exact hne hb
          rw [List.filter_eq_self.mpr]
          intro q hq
          have hqp : q ≠ p := fun heq => hnot (heq ▸ hq)
          simp [hqp]

theorem wp_unplugAll (hw : s.state.Tethered)
    (hps : ∀ p ∈ ps, ∃ y, s.state.ports.get? p = some y) :
    wp (ps.forM fun p => setBus p none) (fun _ t => Unplugged ps s.state t.state)
      (fun _ _ => False) s := by
  induction ps generalizing s with
  | nil => exact .nil _
  | cons p ps ih =>
      obtain ⟨⟨y, hy⟩, hps⟩ := List.forall_mem_cons.mp hps
      rw [wp_forM_cons]
      refine wp_mono (wp_setBus_none hw hy) (fun _ t ht => ?_) fun _ _ h => h
      refine wp_mono (ih (ht.tethered hw) fun q hq => ?_) (fun _ u hu => ht.trans hu) fun _ _ h => h
      obtain ⟨x, hx⟩ := hps q hq
      exact ⟨_, by rw [ht.ports, hx, Option.map_some]⟩

/-- A bus that drives nothing any more. -/
theorem wp_clear (hw : s.state.Tethered) {b : BusId} {z : Bus} (hz : s.state.buses.get? b = some z) :
    wp (clear b) (fun _ t => Unplugged z.ports s.state t.state) (fun _ _ => False) s := by
  have hsinks : ∀ p ∈ z.ports, p.index < s.state.ports.size := fun p hp => by
    obtain ⟨y, hy, -⟩ := (hw p b).mpr ⟨z, hz, hp⟩
    exact Arena.lt_of_get? hy
  simp only [clear, wp_bind]
  refine (wp_bus hz).mpr ((wp_changeBus (Arena.lt_of_get? hz)).mpr
    (Iff.mpr (wp_forM_changePort hsinks) ?_))
  refine ⟨rfl, rfl, rfl, fun p => ?_, fun d => ?_⟩
  · simp only [state_moved, Arena.get?_modifyAll (f := fun y : Port => { y with bus := none })
      fun _ => rfl]
    split
    · rfl
    · simp
  · simp only [state_moved, Arena.get?_modify]
    split
    · next hd =>
      rw [hd, hz]
      simp
    · next hd =>
      cases hx : s.state.buses.get? d with
      | none => rfl
      | some x =>
          -- No port is driven by two buses.
          have hapart : ∀ p ∈ x.ports, p ∉ z.ports := by
            intro p hp hp'
            obtain ⟨y, hy, hb⟩ := (hw p d).mpr ⟨x, hx, hp⟩
            obtain ⟨y', hy', hb'⟩ := (hw p b).mpr ⟨z, hz, hp'⟩
            cases hy.symm.trans hy'
            exact hd (Option.some.inj (hb.symm.trans hb'))
          rw [Option.map_some, List.filter_eq_self.mpr fun p hp => by simpa using hapart p hp]

theorem wp_clearAll (hw : s.state.Tethered) {bs : List BusId}
    (hbs : ∀ b ∈ bs, ∃ z, s.state.buses.get? b = some z) :
    wp (bs.forM clear) (fun _ t => ∃ ps, Unplugged ps s.state t.state ∧
      ∀ p y, s.state.ports.get? p = some y → (p ∈ ps ↔ ∃ b ∈ bs, y.bus = some b))
      (fun _ _ => False) s := by
  induction bs generalizing s with
  | nil => exact ⟨[], .nil _, by simp⟩
  | cons b bs ih =>
      obtain ⟨⟨z, hz⟩, hbs⟩ := List.forall_mem_cons.mp hbs
      rw [wp_forM_cons]
      refine wp_mono (wp_clear hw hz) (fun _ t ht => ?_) fun _ _ h => h
      refine wp_mono (ih (ht.tethered hw) fun d hd => ?_) (fun _ u ⟨qs, hu, hqs⟩ => ?_) fun _ _ h => h
      · obtain ⟨x, hx⟩ := hbs d hd
        exact ⟨_, by rw [ht.buses, hx, Option.map_some]⟩
      · refine ⟨z.ports ++ qs, ht.trans hu, fun p y hy => ?_⟩
        have hfirst : p ∈ z.ports ↔ y.bus = some b := by
          have hboth := hw p b
          simpa [hy, hz] using hboth.symm
        have hrest := hqs p _ (by rw [ht.ports, hy, Option.map_some])
        rw [List.mem_append, hrest]
        simp only [List.exists_mem_cons_iff, ← hfirst]
        by_cases hp : p ∈ z.ports <;> simp [hp]

variable {c m : ComponentId} {x : Component}

/-- One of the exits that the component has gives out the bus. -/
def Emits (n : Netlist) (x : Component) (b : BusId) : Prop :=
  ∃ e ∈ x.exits.values, ∃ y, n.exits.get? e = some y ∧ b ∈ y.buses

/-- The exits of a component are there, with their buses. -/
def ExitsStand (n : Netlist) (x : Component) : Prop :=
  ∀ e ∈ x.exits.values, ∃ y, n.exits.get? e = some y ∧ ∀ b ∈ y.buses, ∃ z, n.buses.get? b = some z

theorem Linked.exitsStand (h : Linked pins {} n) (hx : n.components.get? c = some x) :
    n.ExitsStand x := by
  intro e he
  have hc := h.components c x hx (Nat.zero_le _)
  obtain ⟨y, hy⟩ := Arena.exists_get? ((Component.forall_refs.mp hc.refs).2.2.1 e he).2
  have hl := h.exits e y hy (Nat.zero_le _)
  exact ⟨y, hy, fun b hb => Arena.exists_get? ((Exit.forall_refs.mp hl.refs).2.1 b hb).2⟩

theorem Unplugged.exitsStand (h : Unplugged ps n n') (hx : n.ExitsStand x) : n'.ExitsStand x := by
  intro e he
  obtain ⟨y, hy, hbuses⟩ := hx e he
  refine ⟨y, by rw [h.exits, hy], fun b hb => ?_⟩
  obtain ⟨z, hz⟩ := hbuses b hb
  exact ⟨_, by rw [h.buses, hz, Option.map_some]⟩

theorem wp_busesOf (hx : s.state.components.get? c = some x) (hexits : s.state.ExitsStand x) :
    wp (busesOf c) (fun bs t => t = s ∧ ∀ b, b ∈ bs ↔ s.state.Emits x b)
      (fun _ _ => False) s := by
  simp only [busesOf, wp_bind]
  refine (wp_component hx).mpr (wp_mono (wp_mapM_some (g := s.state.exits.get?) fun e he => ?_)
    (fun ys t h => ⟨h.1, fun b => ?_⟩) fun _ _ h => h)
  · obtain ⟨y, hy, -⟩ := hexits e he
    exact ⟨y, hy, fun Q => wp_exit hy⟩
  · rw [h.2]
    simp only [List.mem_flatMap, List.mem_filterMap, Emits]
    constructor
    · rintro ⟨y, ⟨e, he, hy⟩, hb⟩
      exact ⟨e, he, y, hy, hb⟩
    · rintro ⟨e, he, y, hy, hb⟩
      exact ⟨y, ⟨e, he, hy⟩, hb⟩

/-- What a disconnected component is cut off from: the drivers of its ports, and the ports that its
buses drive. -/
theorem wp_disconnect (hw : s.state.Tethered) (hx : s.state.components.get? c = some x)
    (hports : ∀ p ∈ x.ports, ∃ y, s.state.ports.get? p = some y) (hexits : s.state.ExitsStand x) :
    wp (disconnect c) (fun _ t => ∃ ps, Unplugged ps s.state t.state ∧
      ∀ p y, s.state.ports.get? p = some y →
        (p ∈ ps ↔ p ∈ x.ports ∨ ∃ b, y.bus = some b ∧ s.state.Emits x b))
      (fun _ _ => False) s := by
  simp only [disconnect, wp_bind]
  refine (wp_component hx).mpr (wp_mono (wp_unplugAll hw hports) (fun _ t ht => ?_) fun _ _ h => h)
  have htexits := ht.exitsStand hexits
  refine wp_mono (wp_busesOf (by rw [ht.components, hx]) htexits) ?_ fun _ _ h => h
  rintro bs u ⟨hu, hbs⟩
  subst hu
  have hgives : ∀ b, b ∈ bs ↔ s.state.Emits x b := fun b => by
    rw [hbs]
    simp only [Emits, ht.exits]
  refine wp_mono (wp_clearAll (ht.tethered hw) fun b hb => ?_) (fun _ v h => ?_) fun _ _ h => h
  · obtain ⟨e, he, y, hy, hmem⟩ := (hbs b).mp hb
    obtain ⟨y', hy', hbuses⟩ := htexits e he
    cases hy.symm.trans hy'
    exact hbuses b hmem
  · obtain ⟨qs, hv, hqs⟩ := h
    refine ⟨x.ports ++ qs, ht.trans hv, fun p y hy => ?_⟩
    have hrest := hqs p _ (by rw [ht.ports, hy, Option.map_some])
    rw [List.mem_append, hrest]
    by_cases hp : p ∈ x.ports <;> simp [hp, hgives, and_comm]

/-! ### Entries -/

/-- The component from which an entry is entered. -/
def entrySource? (n : Netlist) (e : EntryId) : Option ComponentId :=
  (((n.entries.get? e).bind Entry.drivingExit).bind n.exits.get?).map Exit.owner

/-- OutBufs have lost their entries from `c`, and nothing else has changed. -/
structure Pruned (os : List ComponentId) (c : ComponentId) (n n' : Netlist) : Prop where
  components : ∀ d, n'.components.get? d = (n.components.get? d).map fun y =>
    if d ∈ os then { y with entries := y.entries.filter (n.entrySource? · ≠ some c) } else y
  ports : n'.ports = n.ports
  buses : n'.buses = n.buses
  exits : n'.exits = n.exits
  entries : n'.entries = n.entries

theorem Pruned.nil (c : ComponentId) (n : Netlist) : Pruned [] c n n :=
  ⟨fun d => by simp, rfl, rfl, rfl, rfl⟩

theorem Pruned.cons {o : ComponentId} {os : List ComponentId} (h : Pruned [o] c n n')
    (h' : Pruned os c n' n'') : Pruned (o :: os) c n n'' where
  components d := by
    have hsource : n'.entrySource? = n.entrySource? := by
      unfold entrySource?
      rw [h.exits, h.entries]
    rw [h'.components, h.components, Option.map_map, hsource]
    congr 1
    funext y
    -- An entry that is kept is kept again.
    by_cases ho : d = o <;> by_cases hos : d ∈ os <;> simp [ho, hos, List.filter_filter]
  ports := h'.ports.trans h.ports
  buses := h'.buses.trans h.buses
  exits := h'.exits.trans h.exits
  entries := h'.entries.trans h.entries

/-- The entries of all components are there, with the exits that drive them. -/
def EntriesStand (n : Netlist) : Prop :=
  ∀ d y, n.components.get? d = some y → ∀ e ∈ y.entries, ∃ w, n.entries.get? e = some w ∧
    ∀ x, w.drivingExit = some x → ∃ z, n.exits.get? x = some z

theorem Linked.entriesStand (h : Linked pins {} n) : n.EntriesStand := by
  intro d y hy e he
  have hc := h.components d y hy (Nat.zero_le _)
  obtain ⟨w, hw⟩ := Arena.exists_get? ((Component.forall_refs.mp hc.refs).2.2.2.1 e he).2
  have hrefs := Entry.forall_refs.mp (h.entries e w hw (Nat.zero_le _))
  exact ⟨w, hw, fun x hx => Arena.exists_get? (hrefs.2.1 x hx).2⟩

theorem Pruned.entriesStand {os : List ComponentId} (h : Pruned os c n n') (hn : n.EntriesStand) :
    n'.EntriesStand := by
  intro d y hy e he
  rw [h.components] at hy
  obtain ⟨x, hx, rfl⟩ := Option.map_eq_some_iff.mp hy
  rw [h.entries, h.exits]
  refine hn d x hx e ?_
  split at he
  · exact (List.mem_filter.mp he).1
  · exact he

theorem wp_dropEntries {o : ComponentId} {y : Component} (hy : s.state.components.get? o = some y)
    (hstand : s.state.EntriesStand) :
    wp (dropEntries o c) (fun _ t => Pruned [o] c s.state t.state) (fun _ _ => False) s := by
  simp only [dropEntries, wp_bind]
  refine (wp_component hy).mpr (wp_mono (wp_filterM_eq (g := (s.state.entrySource? · ≠ some c))
    fun e he => ?_) (fun kept t ⟨ht, hkept⟩ => ?_) fun _ _ h => h)
  · obtain ⟨w, hw, hexit⟩ := hstand o y hy e he
    rw [wp_bind]
    refine (wp_entry hw).mpr ?_
    cases hd : w.drivingExit with
    | none => exact ⟨rfl, by simp [entrySource?, hw, hd]⟩
    | some x =>
        obtain ⟨z, hz⟩ := hexit x hd
        simp only [wp_bind]
        refine (wp_exit hz).mpr ⟨rfl, ?_⟩
        simp [entrySource?, hw, hd, hz]
  · subst ht hkept
    refine (wp_changeComponent (Arena.lt_of_get? hy)).mpr ⟨fun d => ?_, rfl, rfl, rfl, rfl⟩
    simp only [state_moved, Arena.get?_modify, List.mem_singleton]
    split
    · next hd => simp [hd, hy]
    · simp

theorem wp_dropAll {os : List ComponentId} (hos : ∀ o ∈ os, ∃ y, s.state.components.get? o = some y)
    (hstand : s.state.EntriesStand) :
    wp (os.forM fun o => dropEntries o c) (fun _ t => Pruned os c s.state t.state)
      (fun _ _ => False) s := by
  induction os generalizing s with
  | nil => exact .nil c _
  | cons o os ih =>
      obtain ⟨⟨y, hy⟩, hos⟩ := List.forall_mem_cons.mp hos
      rw [wp_forM_cons]
      refine wp_mono (wp_dropEntries hy hstand) (fun _ t ht => ?_) fun _ _ h => h
      refine wp_mono (ih (fun d hd => ?_) (ht.entriesStand hstand)) (fun _ u hu => ht.cons hu)
        fun _ _ h => h
      obtain ⟨x, hx⟩ := hos d hd
      exact ⟨_, by rw [ht.components, hx, Option.map_some]⟩

theorem wp_outBufs (hx : s.state.components.get? m = some x) (hexits : s.state.ExitsStand x) :
    wp (outBufs m) (fun os t => t = s ∧ ∀ o, o ∈ os ↔ s.state.IsOutBufOf x o)
      (fun _ _ => False) s := by
  simp only [outBufs, wp_bind]
  refine (wp_component hx).mpr (wp_mono (wp_mapM_some (g := s.state.exits.get?) fun e he => ?_)
    (fun ys t h => ⟨h.1, fun o => ?_⟩) fun _ _ h => h)
  · obtain ⟨y, hy, -⟩ := hexits e he
    exact ⟨y, hy, fun Q => wp_exit hy⟩
  · rw [h.2]
    simp only [List.mem_filterMap, IsOutBufOf]
    constructor
    · rintro ⟨y, ⟨e, he, hy⟩, ho⟩
      exact ⟨e, he, y, hy, ho⟩
    · rintro ⟨e, he, y, hy, ho⟩
      exact ⟨y, ⟨e, he, hy⟩, ho⟩

/-! ### The whole removal -/

/-- A module without a child. -/
def Interior.without (i : Interior) (c : ComponentId) : Interior :=
  { i with children := i.children.erase c, feedback := i.feedback.erase c }

/-- What a component `z` with handle `d` is after `c` has been let go by `m`, whose OutBufs are
`os`. -/
def Component.afterwards (z : Component) (n : Netlist) (m c : ComponentId) (os : List ComponentId)
    (d : ComponentId) : Component :=
  { z with
    owner := if d = c then none else z.owner
    entries := if d ∈ os then z.entries.filter (n.entrySource? · ≠ some c) else z.entries
    interior := if d = m then z.interior.map (·.without c) else z.interior }

/-- The netlist after `m`, which is `x`, has let go of `c`, which is `y`. -/
structure LetsGo (n : Netlist) (m c : ComponentId) (x y : Component) (os : List ComponentId)
    (ps : List PortId) (n' : Netlist) : Prop where
  outBufs : ∀ o, o ∈ os ↔ n.IsOutBufOf x o
  cut : ∀ p w, n.ports.get? p = some w →
    (p ∈ ps ↔ p ∈ y.ports ∨ ∃ b, w.bus = some b ∧ n.Emits y b)
  components : ∀ d, n'.components.get? d =
    (n.components.get? d).map (·.afterwards n m c os d)
  ports : ∀ p, n'.ports.get? p =
    (n.ports.get? p).map fun w => if p ∈ ps then { w with bus := none } else w
  buses : ∀ b, n'.buses.get? b =
    (n.buses.get? b).map fun z => { z with ports := z.ports.filter (· ∉ ps) }
  exits : n'.exits = n.exits
  entries : n'.entries = n.entries

variable {i : Interior} {y : Component}

/-- The module `m` no longer lists the child `c`. -/
def unlisted (n : Netlist) (m c : ComponentId) : Netlist :=
  { n with
    components := n.components.modify m fun z =>
      { z with interior := z.interior.map (·.without c) } }

theorem get?_unlisted (n : Netlist) (m c d : ComponentId) :
    (n.unlisted m c).components.get? d = (n.components.get? d).map fun z =>
      { z with interior := if d = m then z.interior.map (·.without c) else z.interior } := by
  simp only [unlisted, Arena.get?_modify]
  split
  · rfl
  · simp

theorem EntriesStand.unlisted (h : n.EntriesStand) : (n.unlisted m c).EntriesStand := by
  intro d z hz
  rw [get?_unlisted] at hz
  obtain ⟨w, hw, rfl⟩ := Option.map_eq_some_iff.mp hz
  exact h d w hw

section

variable {os : List ComponentId} (hu : Pruned os c (n.unlisted m c) s.state)
  (hy : n.components.get? c = some y)

include hu hy

/-- The child still has its terminals when it is disconnected. -/
theorem Pruned.child : ∃ y', s.state.components.get? c = some y' ∧ y'.ports = y.ports ∧
    y'.exits = y.exits := by
  refine ⟨_, by rw [hu.components, get?_unlisted, hy, Option.map_some, Option.map_some], ?_⟩
  split <;> exact ⟨rfl, rfl⟩

theorem wp_disconnect_pruned (hl : Linked pins {} n) :
    wp (disconnect c) (fun _ v => ∃ ps, Unplugged ps s.state v.state ∧
      ∀ p w, n.ports.get? p = some w → (p ∈ ps ↔ p ∈ y.ports ∨ ∃ b, w.bus = some b ∧ n.Emits y b))
      (fun _ _ => False) s := by
  obtain ⟨y', hy', hports, hexits⟩ := hu.child hy
  have hwired : s.state.Tethered := by
    unfold Tethered
    rw [hu.ports, hu.buses]
    exact hl.tethered
  have hstand : s.state.ExitsStand y' := by
    unfold ExitsStand
    rw [hu.exits, hu.buses, hexits]
    exact hl.exitsStand hy
  have hgives : ∀ b, s.state.Emits y' b ↔ n.Emits y b := by
    intro b
    simp only [Emits, hu.exits, hexits]
    rfl
  have hthere : ∀ p ∈ y'.ports, ∃ w, s.state.ports.get? p = some w := by
    intro p hp
    have hrefs := Component.forall_refs.mp (hl.components c y hy (Nat.zero_le _)).refs
    rw [hu.ports]
    exact Arena.exists_get? (hrefs.2.1 p (hports ▸ hp)).2
  refine wp_mono (wp_disconnect hwired hy' hthere hstand) (fun _ v ⟨ps, hv, hps⟩ =>
    ⟨ps, hv, fun p w hw => ?_⟩) fun _ _ h => h
  rw [hps p w (by rw [hu.ports]; exact hw), hports]
  simp only [hgives]

/-- Unlisted, pruned, unplugged and without an owner, the child has been let go. -/
theorem Pruned.letsGo {ps : List PortId} (hv : Unplugged ps s.state n')
    (hos : ∀ o, o ∈ os ↔ n.IsOutBufOf x o)
    (hps : ∀ p w, n.ports.get? p = some w →
      (p ∈ ps ↔ p ∈ y.ports ∨ ∃ b, w.bus = some b ∧ n.Emits y b)) :
    n.LetsGo m c x y os ps
      { n' with components := n'.components.modify c fun z => { z with owner := none } } where
  outBufs := hos
  cut := hps
  components d := by
    have hsource : (n.unlisted m c).entrySource? = n.entrySource? := rfl
    simp only [Arena.get?_modify, hv.components, hu.components, get?_unlisted, hsource,
      Option.map_map]
    cases n.components.get? d with
    | none => simp
    | some z =>
        by_cases hd : d = c
        · subst hd
          by_cases ho : d ∈ os <;> simp [Component.afterwards, ho]
        · by_cases ho : d ∈ os <;> simp [Component.afterwards, hd, ho]
  ports p := by
    rw [hv.ports, hu.ports]
    rfl
  buses b := by
    rw [hv.buses, hu.buses]
    rfl
  exits := hv.exits.trans hu.exits
  entries := hv.entries.trans hu.entries

end

theorem wp_removeComponent_child (hl : Linked pins {} s.state) (hm : s.state.IsModule m x i)
    (hc : c ∈ i.children) (hy : s.state.components.get? c = some y) :
    wp (removeComponent m c) (fun done t => done = true ∧
      ∃ os ps, s.state.LetsGo m c x y os ps t.state) (fun _ _ => False) s := by
  obtain ⟨hx, hi⟩ := hm
  simp only [removeComponent, wp_bind]
  refine (wp_children hx hi).mpr ?_
  rw [if_pos (by simpa using hc)]
  simp only [wp_bind, changeInterior]
  refine (wp_interior hx hi).mpr ((wp_changeComponent (Arena.lt_of_get? hx)).mpr ?_)
  have hx' : (s.state.unlisted m c).components.get? m =
      some { x with interior := x.interior.map (·.without c) } := by
    rw [get?_unlisted, hx, Option.map_some, if_pos rfl]
  have hexits : s.state.ExitsStand x := hl.exitsStand hx
  refine wp_mono (wp_outBufs (s := moved s (s.state.unlisted m c)) hx' hexits) ?_ fun _ _ h => h
  rintro os t ⟨ht, hos⟩
  subst ht
  have hpeers : ∀ o ∈ os, ∃ z, (s.state.unlisted m c).components.get? o = some z := by
    intro o ho
    obtain ⟨e, he, z, hz, hpeer⟩ := (hos o).mp ho
    have hl := hl.exits e z hz (Nat.zero_le _)
    obtain ⟨w, hw⟩ := Arena.exists_get? ((Exit.forall_refs.mp hl.refs).2.2 o hpeer).2
    exact ⟨_, by rw [get?_unlisted, hw, Option.map_some]⟩
  refine wp_mono (wp_dropAll (c := c) hpeers hl.entriesStand.unlisted) (fun _ u hu => ?_)
    fun _ _ h => h
  refine wp_mono (wp_disconnect_pruned hu hy hl) ?_ fun _ _ h => h
  rintro _ v ⟨ps, hv, hps⟩
  obtain ⟨y', hy', -⟩ := hu.child hy
  refine (wp_changeComponent ?_).mpr ⟨rfl, os, ps, hu.letsGo hy hv hos hps⟩
  rw [hv.components]
  exact Arena.lt_of_get? hy'

/-- What there is after `m`, a module `x` with the interior `i`, has let go of its child `c`. -/
structure Detached (n : Netlist) (m c : ComponentId) (x : Component) (i : Interior) (n' : Netlist) :
    Prop where
  free : ∃ y, n'.components.get? c = some y ∧ y.owner = none
  /-- The lists of the module are without `c`, and otherwise in order. -/
  module : ∃ x', n'.IsModule m x' (i.without c) ∧ c ∉ (i.without c).children ∧
    c ∉ (i.without c).feedback
  undriven : ∀ y, n'.components.get? c = some y → ∀ p ∈ y.ports, ∀ w, n'.ports.get? p = some w →
    w.bus = none
  undriving : ∀ y, n'.components.get? c = some y → ∀ p w b, n'.ports.get? p = some w →
    w.bus = some b → ¬ n'.Emits y b
  /-- OutBufs keep those entries, in order, that are not entered from `c`. -/
  outBufs : ∀ o z, n.IsOutBufOf x o → n.components.get? o = some z →
    ∃ z', n'.components.get? o = some z' ∧
      z'.entries = z.entries.filter (n.entrySource? · ≠ some c) ∧
      ∀ e ∈ z'.entries, n'.entrySource? e ≠ some c
  /-- Other connections stay. -/
  drivers : ∀ y p w, n.components.get? c = some y → n.ports.get? p = some w → p ∉ y.ports →
    (∀ b, w.bus = some b → ¬ n.Emits y b) → n'.ports.get? p = some w
  fanOuts : ∀ y b z, n.components.get? c = some y → n.buses.get? b = some z → ¬ n.Emits y b →
    n'.buses.get? b = some { z with ports := z.ports.filter (· ∉ y.ports) }
  /-- The terminals of all components stay, and nobody else loses the owner. -/
  terminals : ∀ d z, n.components.get? d = some z → ∃ z', n'.components.get? d = some z' ∧
    z'.kind = z.kind ∧ z'.ports = z.ports ∧ z'.exits = z.exits ∧ (d ≠ c → z'.owner = z.owner)
  others : ∀ d, d ≠ m → d ≠ c → ¬ n.IsOutBufOf x d →
    n'.components.get? d = n.components.get? d
  exits : n'.exits = n.exits
  entries : n'.entries = n.entries

section

variable {os : List ComponentId} {ps : List PortId} (h : n.LetsGo m c x y os ps n')

include h

theorem LetsGo.entrySource?_eq : n'.entrySource? = n.entrySource? := by
  unfold entrySource?
  rw [h.exits, h.entries]

variable {y' : Component} (hy : n.components.get? c = some y) (hy' : n'.components.get? c = some y')

include hy hy'

theorem LetsGo.ports_eq : y'.ports = y.ports := by
  rw [h.components, hy, Option.map_some, Option.some.injEq] at hy'
  rw [← hy']
  rfl

theorem LetsGo.emits_iff {b : BusId} : n'.Emits y' b ↔ n.Emits y b := by
  rw [h.components, hy, Option.map_some, Option.some.injEq] at hy'
  simp only [Emits, h.exits, ← hy', Component.afterwards]

end

theorem LetsGo.detached {os : List ComponentId} {ps : List PortId} (h : n.LetsGo m c x y os ps n')
    (hw : n.Tethered) (ho : n.holdings.Owned) (hm : n.IsModule m x i)
    (hy : n.components.get? c = some y) : n.Detached m c x i n' := by
  constructor
  case free => exact ⟨_, by rw [h.components, hy, Option.map_some], by simp [Component.afterwards]⟩
  case module =>
    have hinterior := Holdings.interior?_eq hm
    have hchildren := ho.nodup m i hinterior
    have hfeedback : i.feedback.Nodup :=
      (ho.ascending m i hinterior).imp fun hlt heq => by simp [heq] at hlt
    refine ⟨_, ⟨by rw [h.components, hm.1, Option.map_some], ?_⟩, hchildren.not_mem_erase,
      hfeedback.not_mem_erase⟩
    simp [Component.afterwards, hm.2]
  case undriven =>
    intro y' hy' p hp w hw
    rw [h.ports] at hw
    obtain ⟨v, hv, rfl⟩ := Option.map_eq_some_iff.mp hw
    rw [if_pos ((h.cut p v hv).mpr (.inl (h.ports_eq hy hy' ▸ hp)))]
  case undriving =>
    intro y' hy' p w b hw hb hout
    rw [h.ports] at hw
    obtain ⟨v, hv, rfl⟩ := Option.map_eq_some_iff.mp hw
    split at hb
    · cases hb
    · next hp => exact hp ((h.cut p v hv).mpr (.inr ⟨b, hb, (h.emits_iff hy hy').mp hout⟩))
  case outBufs =>
    intro o z ho hz
    refine ⟨_, by rw [h.components, hz, Option.map_some], ?_, fun e he => ?_⟩
    · simp [Component.afterwards, (h.outBufs o).mpr ho]
    · rw [h.entrySource?_eq]
      simp only [Component.afterwards, (h.outBufs o).mpr ho, if_true] at he
      simpa using (List.mem_filter.mp he).2
  case drivers =>
    intro y' p w hy' hp hnot hdriver
    cases hy.symm.trans hy'
    rw [h.ports, hp, Option.map_some, if_neg fun hmem => ?_]
    rcases (h.cut p w hp).mp hmem with hmem | ⟨b, hb, hout⟩
    · exact hnot hmem
    · exact hdriver b hb hout
  case fanOuts =>
    intro y' b z hy' hz hout
    cases hy.symm.trans hy'
    rw [h.buses, hz, Option.map_some]
    congr 2
    refine List.filter_congr fun p hp => ?_
    obtain ⟨w, hw, hb⟩ := (hw p b).mpr ⟨z, hz, hp⟩
    simp [h.cut p w hw, hb, hout]
  case terminals =>
    intro d z hz
    exact ⟨z.afterwards n m c os d, by rw [h.components, hz, Option.map_some], rfl, rfl, rfl,
      fun hd => if_neg hd⟩
  case others =>
    intro d hdm hdc hdo
    rw [h.components]
    cases hz : n.components.get? d with
    | none => rfl
    | some z => simp [Component.afterwards, hdm, hdc, (h.outBufs d).not.mpr hdo]
  case exits => exact h.exits
  case entries => exact h.entries

/-- A child that is let go is detached completely, and nothing else is; what is no child stays. -/
theorem removeComponent_detaches (hn : n.Reachable) (hm : n.IsModule m x i) (c : ComponentId)
    (said : Journal) :
    (c ∉ i.children → removeComponent m c ⟨n, said⟩ = .ok false ⟨n, said⟩) ∧
      (c ∈ i.children → ∃ n' said', removeComponent m c ⟨n, said⟩ = .ok true ⟨n', said'⟩ ∧
        n.Detached m c x i n') := by
  obtain ⟨pins, hl⟩ := hn.linked
  constructor
  · intro hc
    have hstays : wp (removeComponent m c) (fun done t => done = false ∧ t = ⟨n, said⟩)
        (fun _ _ => False) ⟨n, said⟩ := by
      simp only [removeComponent, wp_bind]
      refine (wp_children hm.1 hm.2).mpr ?_
      rw [if_neg (by simpa using hc)]
      exact ⟨rfl, rfl⟩
    obtain ⟨_, _, hrun, rfl, rfl⟩ := exists_of_wp hstays
    exact hrun
  · intro hc
    have hrefs := Interior.forall_refs.mp
      ((Component.forall_refs.mp (hl.components m x hm.1 (Nat.zero_le _)).refs).2.2.2.2 i hm.2)
    obtain ⟨y, hy⟩ := Arena.exists_get? (hrefs.2.1 c hc).2
    obtain ⟨_, ⟨n', said'⟩, hrun, rfl, os, ps, hletsGo⟩ :=
      exists_of_wp (wp_removeComponent_child (s := ⟨n, said⟩) hl hm hc hy)
    exact ⟨n', said', hrun, hletsGo.detached hl.tethered hn.owned hm hy⟩

/-- A gate is let go that drives itself, closes a loop and has an entry at the exit of the module. -/
theorem removeComponent_detaches_gate :
    ∃ (n n' : Netlist) (x y : Component) (i : Interior) (said' : Journal),
      removeComponent ⟨0⟩ ⟨2⟩ ⟨n, #[]⟩ = .ok true ⟨n', said'⟩ ∧ n.Detached ⟨0⟩ ⟨2⟩ x i n' ∧
        n.components.get? ⟨3⟩ = some y ∧ y.entries.map n.entrySource? = [some ⟨2⟩] := by
  have hempty : Netlist.Reached False 0 {} := .empty
  have hmodule := hempty.after (.newModule .block "m" 0) (by decide) False.elim (by decide +kernel)
  have hgate := hmodule.after (.newComponent .andGate "and" 2) (by decide +kernel) False.elim
    (by decide +kernel)
  have hchild := hgate.after (.addComponent ⟨0⟩ ⟨2⟩) (by decide +kernel) False.elim
    (by decide +kernel)
  have hexit := hchild.after (.makeExit ⟨2⟩ 1 .done) (by decide +kernel) False.elim
    (by decide +kernel)
  have hwired := hexit.after (.setBus ⟨9⟩ (some ⟨4⟩)) (by decide +kernel) False.elim
    (by decide +kernel)
  have hmerged := hwired.after (.mergeExits ⟨0⟩ [⟨2⟩]) (by decide +kernel) False.elim
    (by decide +kernel)
  have hmarked := hmerged.after (.addFeedbackPoint ⟨0⟩ ⟨2⟩) (by decide +kernel) False.elim
    (by decide +kernel)
  generalize hn : (Build.run _ _).2.state = n at hmarked
  have hlists : ((n.components.get? ⟨0⟩).bind Component.interior).map Interior.children = some [⟨2⟩] ∧
      (n.components.get? ⟨3⟩).map (fun y => y.entries.map n.entrySource?) = some [some ⟨2⟩] := by
    subst hn
    decide +kernel
  obtain ⟨i, hi, hchildren⟩ := Option.map_eq_some_iff.mp hlists.1
  obtain ⟨x, hx, hi⟩ := Option.bind_eq_some_iff.mp hi
  obtain ⟨y, hy, hentries⟩ := Option.map_eq_some_iff.mp hlists.2
  obtain ⟨n', said', hrun, hdetached⟩ := (removeComponent_detaches (.alone hmarked) ⟨hx, hi⟩ ⟨2⟩
    #[]).2 (by simp [hchildren])
  exact ⟨n, n', x, y, i, said', hrun, hdetached, hy, hentries⟩

end Netlist

end DataflowSynth
