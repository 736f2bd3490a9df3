/-
Boundaries stay true to their modules.

Each step that gives a component terminals, takes an exit off it or marks it is described by what it does
to the borders; all others leave them alone.  Whether a step is aimed at a buffer is known from the shape
of the netlist, and so is that boundaries have nothing in common.
-/
import DataflowSynth.Proofs.Netlist.Borders
import DataflowSynth.Proofs.Netlist.Terminals

namespace DataflowSynth.Netlist

open Build

/-! ### Borders of netlists -/

variable {pins : Nat} {n n' : Netlist}

theorem Calm.borders (hc : Calm n n') : n'.borders = n.borders := by
  have hfaces : ∀ c, (n'.components.get? c).map Component.face =
      (n.components.get? c).map Component.face := by
    intro c
    have hstance := hc.stances c
    cases hx : n.components.get? c with
    | none =>
        have hnone := hc.components c
        rw [hx, Option.map_none, Option.map_eq_none_iff] at hnone
        rw [hnone]
    | some x =>
        obtain ⟨y, hy, halike⟩ := hc.toSameShape.alike hx
        rw [hx, hy, Option.map_some, Option.map_some, Option.some.injEq] at hstance
        simp only [Component.stance, Prod.mk.injEq] at hstance
        have hin := congrArg (Option.map Interior.inBuf) halike.interior
        simp only [Option.map_map, Function.comp_def] at hin
        simp [hy, Component.face, halike.clock, halike.reset, halike.go, halike.this,
          halike.dataPorts, halike.exits, hin, hstance.2.1, hstance.2.2.1]
  have houtlets : ∀ e, (n'.exits.get? e).map Exit.outlet = (n.exits.get? e).map Exit.outlet := by
    intro e
    have heq := congrArg (Option.map Exit.outlet) (hc.exits e)
    rw [Option.map_map, Option.map_map] at heq
    exact heq
  have hports : ∀ p, (n'.ports.get? p).bind Port.peer = (n.ports.get? p).bind Port.peer := by
    intro p
    have heq := congrArg (Option.bind · Port.peer) (hc.ports p)
    simp only [Option.bind_map] at heq
    exact heq
  have hbuses : ∀ b, (n'.buses.get? b).bind Bus.peer = (n.buses.get? b).bind Bus.peer := by
    intro b
    have heq := congrArg (Option.bind · Bus.peer) (hc.buses b)
    simp only [Option.bind_map] at heq
    exact heq
  simp only [Netlist.borders, hfaces, houtlets, hports, hbuses]

section

variable {κ : HandleKind} {α β : Type} {a : Arena κ α} {h : Handle κ} {x : α}

theorem Arena.bind_get?_push {f : α → Option β} (hx : f x = none) (d : Handle κ) :
    ((a.push x).get? d).bind f = (a.get? d).bind f := by
  rw [Arena.get?_push]
  split
  · next heq =>
    have hnone : a.get? a.next = none := Arena.get?_of_size_le (by simp)
    rw [heq, hnone]
    exact hx
  · rfl

theorem Arena.map_get?_push {f : α → β} (d : Handle κ) :
    ((a.push x).get? d).map f = if d = a.next then some (f x) else (a.get? d).map f := by
  rw [Arena.get?_push]
  split <;> rfl

theorem Arena.map_get?_modify {f : α → β} {g : α → α} (hx : a.get? h = some x) (d : Handle κ) :
    ((a.modify h g).get? d).map f = if d = h then some (f (g x)) else (a.get? d).map f := by
  rw [Arena.get?_modify]
  split
  · next heq =>
    rw [heq, hx]
    rfl
  · rfl

end

section

variable {c m : ComponentId} {x : Component} {e : ExitId} {y : Exit} {p : PortId} {b : BusId}

theorem borders_paired (hp : p.index < n.ports.size) (hb : b.index < n.buses.size) :
    (n.paired p b).borders = n.borders.join p b := by
  have hcalm : Calm (n.withPair p b) (n.paired p b) :=
    (sameShape_paired n p b).calm (by simp [withPair]) (by simp [withPair])
  obtain ⟨y, hy⟩ := Arena.exists_get? hp
  obtain ⟨z, hz⟩ := Arena.exists_get? hb
  rw [hcalm.borders]
  simp only [borders, Borders.join, withPair, Arena.get?_modify, Borders.mk.injEq, true_and]
  constructor <;> funext d <;> split
  · next heq => simp [heq, hy]
  · rfl
  · next heq => simp [heq, hz]
  · rfl

theorem borders_changed (hx : n.components.get? c = some x) (f : Component → Component) :
    borders { n with components := n.components.modify c f } = n.borders.reface c (f x).face := by
  simp only [borders, Borders.reface, Arena.map_get?_modify hx]

theorem borders_changedExit (hy : n.exits.get? e = some y) (g : Exit → Exit) :
    borders { n with exits := n.exits.modify e g } = n.borders.reoutlet e (g y).outlet := by
  simp only [borders, Borders.reoutlet, Arena.map_get?_modify hy]

theorem borders_changedBoth (hx : n.components.get? c = some x) (hy : n.exits.get? e = some y)
    (f : Component → Component) (g : Exit → Exit) :
    borders { n with components := n.components.modify c f, exits := n.exits.modify e g } =
      (n.borders.reface c (f x).face).reoutlet e (g y).outlet := by
  simp only [borders, Borders.reface, Borders.reoutlet, Arena.map_get?_modify hx,
    Arena.map_get?_modify hy]

theorem borders_shelled (n : Netlist) (kind : ComponentKind) (stem : String) :
    (n.shelled kind stem).borders = n.borders.reface n.components.next n.newFace := by
  simp only [borders, Borders.reface, components_shelled, exits_shelled, buses_shelled,
    Arena.map_get?_push, Borders.mk.injEq, true_and, and_true]
  simp only [shelled, withShell]
  refine ⟨rfl, funext fun p => ?_⟩
  rw [Arena.bind_get?_push rfl, Arena.bind_get?_push rfl, Arena.bind_get?_push rfl]

theorem borders_withDataBus (hy : n.exits.get? e = some y) (name : String) :
    (n.withDataBus e name).borders =
      n.borders.reoutlet e { y.outlet with data := y.data ++ [n.buses.next] } := by
  simp only [borders, Borders.reoutlet, withDataBus, Arena.map_get?_modify hy, Borders.mk.injEq,
    true_and]
  refine ⟨rfl, funext fun b => ?_⟩
  exact Arena.bind_get?_push rfl b

theorem borders_withPort (hx : n.components.get? c = some x) {z : Port} (hz : z.peer = none)
    (f : Component → Component) : (n.withPort c z f).borders = n.borders.reface c (f x).face := by
  simp only [borders, Borders.reface, withPort, Arena.map_get?_modify hx, Borders.mk.injEq,
    true_and, and_true]
  exact funext fun b => Arena.bind_get?_push hz b

theorem borders_withInput (hx : n.components.get? c = some x) (hy : n.exits.get? e = some y)
    {z : Port} (hz : z.peer = none) {w : Bus} (hw : w.peer = none) (f : Component → Component)
    (g : Exit → Exit) : (n.withInput c z f e w g).borders =
      (n.borders.reface c (f x).face).reoutlet e (g y).outlet := by
  simp only [borders, Borders.reface, Borders.reoutlet, withInput, withPort,
    Arena.map_get?_modify hx, Arena.map_get?_modify hy, Borders.mk.injEq, true_and]
  exact ⟨funext fun p => Arena.bind_get?_push hz p, funext fun b => Arena.bind_get?_push hw b⟩

theorem borders_withExit (hx : n.components.get? c = some x) (tag : ExitTag) :
    (n.withExit c tag).borders =
      (n.borders.reoutlet n.exits.next (.bare n.buses.next none)).reface c
        { x.face with exits := (x.exits.put tag n.exits.next).entries } := by
  simp only [borders, Borders.reface, Borders.reoutlet, withExit,
    Arena.map_get?_modify hx, Arena.map_get?_push, Borders.mk.injEq, true_and]
  exact ⟨rfl, rfl, funext fun b => Arena.bind_get?_push rfl b⟩

theorem borders_withOutBuf (hy : n.exits.get? e = some y) (hb : b.index < n.buses.size)
    (c : ComponentId) (x : Component) : (n.withOutBuf c x e b).borders =
      ((n.borders.reface n.components.next { n.newFace with
        consumesGo := x.producesDone }).reoutlet e
        { y.outlet with outBuf := some n.components.next }).join ⟨n.ports.size + 2⟩ b := by
  have hbuffered : (n.buffered .outBuf (x.name ++ "_outbuf") c).borders =
      n.borders.reface n.components.next n.newFace := by
    refine (borders_changed (get?_shelled_next n .outBuf (x.name ++ "_outbuf")) _).trans ?_
    rw [borders_shelled]
    exact Borders.reface_self (by simp [Borders.reface, Component.face, shell, newFace])
  have hpaired := borders_paired (n := n.buffered .outBuf (x.name ++ "_outbuf") c)
    (Arena.lt_of_get? (get?_go_shelled n .outBuf (x.name ++ "_outbuf"))) hb
  rw [hbuffered] at hpaired
  have hb' : ((n.buffered .outBuf (x.name ++ "_outbuf") c).paired ⟨n.ports.size + 2⟩ b).components.get?
      n.components.next = some { n.shell .outBuf (x.name ++ "_outbuf") with owner := some c } := by
    simp
  have hy' : ((n.buffered .outBuf (x.name ++ "_outbuf") c).paired ⟨n.ports.size + 2⟩ b).exits.get? e =
      some y := by
    simpa [buffered] using hy
  generalize hn : (n.buffered .outBuf (x.name ++ "_outbuf") c).paired ⟨n.ports.size + 2⟩ b = n'
    at hpaired hb' hy'
  have hout := borders_changedBoth hb' hy' (fun b => { b with consumesGo := x.producesDone })
    fun y => { y with peer := some n.components.next }
  rw [hpaired] at hout
  rw [withOutBuf, hn]
  refine hout.trans (Borders.ext (funext fun d => ?_) rfl rfl rfl)
  simp only [Borders.join, Borders.reoutlet, Borders.reface]
  split <;> rfl

theorem peers_withExit (n : Netlist) (c : ComponentId) (tag : ExitTag) :
    (n.withExit c tag).borders.peers = n.borders.peers :=
  Prod.ext rfl (funext fun b => Arena.bind_get?_push rfl b)

theorem peers_withControl (hp : p.index < n.ports.size) (e : ExitId) (control : Control) :
    (n.withControl e control p).borders.peers = n.borders.peers.join p n.buses.next := by
  have hpaired := borders_paired (n := n.withControlBus e control) (p := p) (b := n.buses.next) hp
    (by simp [withControlBus])
  have hpeers : (n.withControlBus e control).borders.peers = n.borders.peers :=
    Prod.ext rfl (funext fun b => Arena.bind_get?_push rfl b)
  rw [withControl, hpaired, Borders.peers_join, hpeers]

/-- The three ports of a module are repeated by the buses of its InBuf. -/
theorem peers_withInBuf (hgo : x.go.index < n.ports.size) (hclock : x.clock.index < n.ports.size)
    (hreset : x.reset.index < n.ports.size) (m : ComponentId) :
    (n.withInBuf m x).borders.peers = ((n.borders.peers.join x.go n.buses.next).join x.clock
      ⟨n.buses.size + 1⟩).join x.reset ⟨n.buses.size + 2⟩ := by
  have hsize : n.ports.size ≤ (n.buffered .inBuf (x.name ++ "_inbuf") m).ports.size :=
    (keeps_shelled n .inBuf (x.name ++ "_inbuf")).ports.size
  have hshelled : (n.shelled .inBuf (x.name ++ "_inbuf")).borders.peers = n.borders.peers := by
    rw [borders_shelled]
    rfl
  have hpeers : (n.buffered .inBuf (x.name ++ "_inbuf") m).borders.peers = n.borders.peers := hshelled
  have hbuses : (n.buffered .inBuf (x.name ++ "_inbuf") m).buses = n.buses := rfl
  show (n.withInBufBuses m x).borders.peers = _
  rw [withInBufBuses]
  generalize n.buffered .inBuf (x.name ++ "_inbuf") m = n' at hsize hpeers hbuses
  have hgone := borders_paired (n := n'.withExit n.components.next .done) (p := x.go)
    (b := n'.buses.next) (Nat.lt_of_lt_of_le hgo hsize) (by simp [withExit])
  have hnext : ((n'.withExit n.components.next .done).paired x.go n'.buses.next).buses.next =
      ⟨n.buses.size + 1⟩ := by
    simp [Handle.eq_iff_index, withExit, hbuses]
  rw [peers_withControl, peers_withControl, hgone, Borders.peers_join, peers_withExit, hpeers, hnext,
    hbuses]
  · congr 1
    simp [Handle.eq_iff_index, withExit, hbuses]
  · simp only [size_ports_paired, withExit]
    exact Nat.lt_of_lt_of_le hclock hsize
  · simp only [withControl, withControlBus, size_ports_paired, withExit]
    exact Nat.lt_of_lt_of_le hreset hsize

/-- A new module, its InBuf and the exit of that. -/
theorem borders_withModule (n : Netlist) (kind : ModuleKind) (stem : String) :
    (n.withModule kind stem).borders =
      (((((n.borders.join ⟨n.ports.size + 2⟩ n.buses.next).join ⟨n.ports.size⟩
        ⟨n.buses.size + 1⟩).join ⟨n.ports.size + 1⟩ ⟨n.buses.size + 2⟩).reface
        ⟨n.components.size + 1⟩
        { (n.shelled (.module kind) stem).newFace with exits := [(.done, n.exits.next)] }).reoutlet
        n.exits.next
        { Opening.bare n.buses.next none with
          control := [⟨n.buses.size + 1⟩, ⟨n.buses.size + 2⟩] }).reface n.components.next
        { n.newFace with inBuf := some ⟨n.components.size + 1⟩ } := by
  have hput : (OrderedMap.put ∅ ExitTag.done n.exits.next).entries = [(.done, n.exits.next)] :=
    OrderedMap.entries_put_of_new rfl
  have hshelled : (n.shelled (.module kind) stem).borders.peers = n.borders.peers := by
    rw [borders_shelled]
    rfl
  have hsize : (n.shelled (.module kind) stem).ports.size = n.ports.size + 3 := by
    simp [shelled, withShell]
  have hpeers := peers_withInBuf (n := n.shelled (.module kind) stem) (x := n.shell (.module kind) stem)
    (by simp [shell, hsize]) (by simp [shell, hsize]) (by simp [shell, hsize]) n.components.next
  rw [hshelled] at hpeers
  refine Borders.ext (funext fun d => ?_) (funext fun d => ?_) (congrArg Prod.fst hpeers)
    (congrArg Prod.snd hpeers)
  · simp only [borders, Borders.join, Borders.reoutlet, Borders.reface, get?_withModule,
      Handle.eq_iff_index, Arena.next_index]
    split
    · rfl
    · split
      · simp [newInBuf, Component.face, shell, newFace, hput]
      · rfl
  · simp only [borders, Borders.join, Borders.reoutlet, Borders.reface, get?_exits_withModule]
    split <;> rfl

theorem borders_withModuleExit (hx : n.components.get? c = some x) (hc : n.components.next ≠ c)
    (tag : ExitTag) : (n.withModuleExit c x tag).borders =
      (((n.borders.reface n.components.next
        { n.newFace with consumesGo := x.producesDone }).reoutlet n.exits.next
        (.bare n.buses.next (some n.components.next))).join ⟨n.ports.size + 2⟩ n.buses.next).reface c
        { x.face with exits := (x.exits.put tag n.exits.next).entries } := by
  rw [withModuleExit, borders_withOutBuf (Arena.get?_push_next _ _) (by simp [withExit]),
    borders_withExit hx, next_components_withExit]
  refine Borders.ext (funext fun d => ?_) (funext fun d => ?_) rfl rfl
  · simp only [Borders.join, Borders.reoutlet, Borders.reface]
    by_cases hd : d = c
    · simp [hd, hc.symm]
    · simp only [hd, if_false]
      rfl
  · simp only [Borders.join, Borders.reoutlet, Borders.reface]
    split <;> rfl

end

/-! ### Shapes and borders -/

section

variable {c m : ComponentId} {x : Component} {i : Interior} {e : ExitId} {y : Exit}

theorem face?_of_get? (hx : n.components.get? c = some x) :
    n.borders.face? c = some x.face := by
  simp [borders, hx]

theorem outlet?_of_get? (hy : n.exits.get? e = some y) :
    n.borders.outlet? e = some y.outlet := by
  simp [borders, hy]

theorem face?_eq_some {v : Face} (hv : n.borders.face? c = some v) :
    ∃ x, n.components.get? c = some x ∧ x.face = v := Option.map_eq_some_iff.mp hv

theorem outlet?_eq_some {v : Opening} (hv : n.borders.outlet? e = some v) :
    ∃ y, n.exits.get? e = some y ∧ y.outlet = v := Option.map_eq_some_iff.mp hv

theorem Component.inBuf_face {k : ComponentId} (hk : x.face.inBuf = some k) :
    ∃ i, x.interior = some i ∧ i.inBuf = k := Option.map_eq_some_iff.mp hk

theorem Component.lists_face : x.face.Lists e ↔ e ∈ x.exits.values := Iff.rfl

theorem inner_of_not_isBuffer (hc : ¬ IsBuffer {} n c) : n.borders.Inner c where
  inBuf m v hv hk := by
    obtain ⟨x, hx, rfl⟩ := face?_eq_some hv
    obtain ⟨i, hi, hin⟩ := Component.inBuf_face hk
    exact hc (.inl ⟨m, x, i, hx, Nat.zero_le _, hi, hin⟩)
  outBuf e v hv ho := by
    obtain ⟨y, hy, rfl⟩ := outlet?_eq_some hv
    exact hc (.inr ⟨e, y, hy, Nat.zero_le _, ho⟩)

theorem Shaped.apart (hl : Linked pins {} n) (h : Shaped {} n) : n.borders.Apart where
  inBuf_inj hv hv' hk hk' := by
    obtain ⟨x, hx, rfl⟩ := face?_eq_some hv
    obtain ⟨x', hx', rfl⟩ := face?_eq_some hv'
    obtain ⟨i, hi, hin⟩ := Component.inBuf_face hk
    obtain ⟨i', hi', hin'⟩ := Component.inBuf_face hk'
    exact h.inBuf_inj hx (Nat.zero_le _) hi hx' (Nat.zero_le _) hi' (hin.trans hin'.symm)
  outBuf_inj hv hv' ho ho' := by
    obtain ⟨y, hy, rfl⟩ := outlet?_eq_some hv
    obtain ⟨y', hy', rfl⟩ := outlet?_eq_some hv'
    exact h.outBuf_inj hl hy (Nat.zero_le _) ho hy' (Nat.zero_le _) ho'
  lists_inj hv hv' he he' := by
    obtain ⟨x, hx, rfl⟩ := face?_eq_some hv
    obtain ⟨x', hx', rfl⟩ := face?_eq_some hv'
    obtain ⟨y, hy⟩ := Arena.exists_get? (hl.exit_new hx (Nat.zero_le _) he).2
    rw [← hl.owner_of_listed hx (Nat.zero_le _) he hy, hl.owner_of_listed hx' (Nat.zero_le _) he' hy]
  single hv hk hw he he' := by
    obtain ⟨x, hx, rfl⟩ := face?_eq_some hv
    obtain ⟨i, hi, rfl⟩ := Component.inBuf_face hk
    obtain ⟨b, hb, rfl⟩ := face?_eq_some hw
    obtain ⟨b', e, y, hb', -, hin⟩ := ((h.components _ x hx (Nat.zero_le _)).interior i hi).inBuf
    cases hb.symm.trans hb'
    simp only [Face.Lists, Component.face, hin.exits, List.map_cons, List.map_nil,
      List.mem_singleton] at he he'
    rw [he, he']
  inBuf_none hv hk hw := by
    obtain ⟨x, hx, rfl⟩ := face?_eq_some hv
    obtain ⟨i, hi, rfl⟩ := Component.inBuf_face hk
    obtain ⟨b, hb, rfl⟩ := face?_eq_some hw
    have hnone := h.interior_of_isBuffer (.inl ⟨_, x, i, hx, Nat.zero_le _, hi, rfl⟩) hb
    simp [Component.face, hnone]
  outBuf_none hv ho hw := by
    obtain ⟨y, hy, rfl⟩ := outlet?_eq_some hv
    obtain ⟨b, hb, rfl⟩ := face?_eq_some hw
    have hnone := h.interior_of_isBuffer (.inr ⟨_, y, hy, Nat.zero_le _, ho⟩) hb
    simp [Component.face, hnone]
  disjoint hv hk hw ho := by
    obtain ⟨x, hx, rfl⟩ := face?_eq_some hv
    obtain ⟨i, hi, hin⟩ := Component.inBuf_face hk
    obtain ⟨y, hy, rfl⟩ := outlet?_eq_some hw
    exact h.not_isOutBuf ⟨_, x, i, hx, Nat.zero_le _, hi, hin⟩ ⟨_, y, hy, Nat.zero_le _, ho⟩

/-- What has not been made yet stands nowhere. -/
theorem Linked.inner_next (hl : Linked pins {} n) (hc : n.components.size ≤ c.index) :
    n.borders.Inner c := by
  refine inner_of_not_isBuffer ?_
  rintro (⟨m, x, i, hx, hle, hi, rfl⟩ | ⟨e, y, hy, hle, ho⟩)
  · exact absurd (hl.inBuf_new hx hle hi).2 (Nat.not_lt.mpr hc)
  · exact absurd ((Exit.forall_refs.mp (hl.exits e y hy hle).refs).2.2 c ho).2 (Nat.not_lt.mpr hc)

theorem Linked.not_lists_next (hl : Linked pins {} n) {v : Face}
    (hv : n.borders.face? c = some v) : ¬ v.Lists n.exits.next := by
  obtain ⟨x, hx, rfl⟩ := face?_eq_some hv
  intro he
  have hlt := (hl.exit_new hx (Nat.zero_le _) he).2
  simp at hlt

theorem portPeer?_next : n.borders.portPeer? n.ports.next = none := by
  have hnone : n.ports.get? n.ports.next = none := Arena.get?_of_size_le (by simp)
  simp [borders, hnone]

theorem busPeer?_next : n.borders.busPeer? n.buses.next = none := by
  have hnone : n.buses.get? n.buses.next = none := Arena.get?_of_size_le (by simp)
  simp [borders, hnone]

end

/-! ### Single steps -/

section

variable {s : Traced Netlist} {c : ComponentId} {e : ExitId} {Q : Unit → Traced Netlist → Prop}
  {F : Failure → Traced Netlist → Prop} (hF : ∀ a, F (.abort a) s)

include hF

theorem wp_refaced {f : Component → Component} {g : Face → Face}
    (hfg : ∀ x, (f x).face = g x.face)
    (hQ : ∀ t v, s.state.borders.face? c = some v →
      t.state.borders = s.state.borders.reface c (g v) → Q () t) :
    wp (changeComponent c f) Q F s := by
  by_cases hc : c.index < s.state.components.size
  · obtain ⟨x, hx⟩ := Arena.exists_get? hc
    refine (wp_changeComponent hc).mpr (hQ _ x.face (face?_of_get? hx) ?_)
    rw [← hfg]
    exact borders_changed hx f
  · have hcontains : s.state.components.contains c = false := by
      simpa [← Arena.contains_iff] using hc
    simp only [changeComponent, wp_bind, wp_look, hcontains, Bool.false_eq_true, if_false, wp_abort]
    exact hF _

/-- A change that does not show. -/
theorem wp_unseen {f : Component → Component} (hf : ∀ x, (f x).face = x.face)
    (hQ : ∀ t : Traced Netlist, t.state.borders = s.state.borders → Q () t) :
    wp (changeComponent c f) Q F s := by
  exact wp_refaced hF (g := id) hf fun t v hv ht => hQ t (ht.trans (Borders.reface_self hv))

omit hF in
theorem wp_reoutlet {y : Exit} (hy : s.state.exits.get? e = some y) {g : Exit → Exit}
    (hQ : ∀ t : Traced Netlist,
      t.state.borders = s.state.borders.reoutlet e (g y).outlet → Q () t) :
    wp (changeExit e g) Q F s := by
  exact (wp_changeExit (Arena.lt_of_get? hy)).mpr (hQ _ (borders_changedExit hy g))

end

/-! ### Edits -/

section

variable {s : Traced Netlist} {c m : ComponentId} {e : ExitId} (hl : Linked pins {} s.state)
  (hs : Shaped {} s.state) (hm : s.state.borders.Mirrored)

include hl hs hm

theorem mirrored_makeDataBus (he : e.index < s.state.exits.size)
    (hbuf : ∀ y, s.state.exits.get? e = some y → ¬ IsBuffer {} s.state y.owner) (name : String) :
    wp (makeDataBus e name) (fun _ t => t.state.borders.Mirrored) (fun f _ => f.Unless False) s := by
  have ha := hs.apart hl
  obtain ⟨y, hy⟩ := Arena.exists_get? he
  -- The exit is none of an InBuf.
  have hlisted : ∀ {m x k b}, s.state.borders.face? m = some x → x.inBuf = some k →
      s.state.borders.face? k = some b → ¬ b.Lists e := by
    intro m v k w hv hk hw hlists
    obtain ⟨x, hx, rfl⟩ := face?_eq_some hv
    obtain ⟨i, hi, rfl⟩ := Component.inBuf_face hk
    obtain ⟨b, hb, rfl⟩ := face?_eq_some hw
    refine hbuf y hy (.inl ⟨m, x, i, hx, Nat.zero_le _, hi, ?_⟩)
    exact (hl.owner_of_listed hb (Nat.zero_le _) hlists hy).symm
  cases hpeer : y.peer with
  | none =>
      rw [wp_makeDataBus hy hpeer]
      show (s.state.withDataBus e name).borders.Mirrored
      rw [borders_withDataBus hy]
      exact hm.reoutlet _ hlisted fun _ _ _ => hpeer
  | some o =>
      obtain ⟨b, hb, hout⟩ := (hs.exits e y hy (Nat.zero_le _)).outBuf o hpeer
      rw [wp_makeDataBus_outBuf hy hpeer hb]
      show (borders (((s.state.withDataBus e name).withDataPort o name).paired _ _)).Mirrored
      have hport : s.state.borders.portPeer? s.state.ports.next = none := portPeer?_next
      have hbus : s.state.borders.busPeer? s.state.buses.next = none := busPeer?_next
      rw [borders_paired (by simp [withDataBus, withDataPort]) (by simp [withDataBus, withDataPort])]
      have hdata : ((s.state.withDataBus e name).withDataPort o name).borders = _ :=
        borders_withPort (n := s.state.withDataBus e name) hb rfl _
      rw [hdata, borders_withDataBus hy]
      refine hm.reoutput ha (outlet?_of_get? hy) hpeer (face?_of_get? hb) rfl rfl
        (fun m x k hx hk v hv => hlisted hx hk hv) hport hbus fun hw => ?_
      have hg := hm.gathered hw
      have hgrow := Borders.grows_join hport hbus
      refine ⟨hgrow.buses _ _ hg.go, ?_, hg.mark⟩
      refine List.rel_append (hg.data.imp fun d p => hgrow.buses d p) ?_
      simp [Borders.join, withDataBus]

omit hm in
/-- The InBuf of a module with its exit. -/
theorem entrance_of_module {x : Component} {i : Interior} (hx : s.state.components.get? c = some x)
    (hi : x.interior = some i) : ∃ b e w, s.state.components.get? i.inBuf = some b ∧
      i.inBuf ≠ c ∧ b.mainExit? = some e ∧ s.state.exits.get? e = some w ∧ w.peer = none ∧
      s.state.borders.Entrance c x.face i.inBuf b.face e w.outlet := by
  obtain ⟨b, e, w, hb, hne, he, hw, -, hin⟩ := hs.inBuf hl hx (Nat.zero_le _) hi
  refine ⟨b, e, w, hb, hne, he, hw, hin.peer, face?_of_get? hx, by simp [Component.face, hi],
    face?_of_get? hb, ?_, outlet?_of_get? hw⟩
  simp [Face.Lists, Component.face, hin.exits]

theorem mirrored_makeDataPort (hc : c.index < s.state.components.size)
    (hbuf : ¬ IsBuffer {} s.state c) (name : String) :
    wp (makeDataPort c name) (fun _ t => t.state.borders.Mirrored) (fun f _ => f.Unless False) s := by
  obtain ⟨x, hx⟩ := Arena.exists_get? hc
  cases hi : x.interior with
  | none =>
      rw [wp_makeDataPort hx hi]
      show (borders (s.state.withPort c _ _)).Mirrored
      rw [borders_withPort hx rfl]
      exact hm.reface_plain (inner_of_not_isBuffer hbuf) (by simp [Component.face, hi])
  | some i =>
      obtain ⟨b, e, w, hb, hne, he, hw, hpeer, hin⟩ := entrance_of_module hl hs hx hi
      have hport : s.state.borders.portPeer? s.state.ports.next = none := portPeer?_next
      have hbus : s.state.borders.busPeer? s.state.buses.next = none := busPeer?_next
      rw [wp_makeDataPort_module hx hi hb hne he hw hpeer]
      show (borders ((s.state.withInput c _ _ e _ _).paired _ _)).Mirrored
      rw [borders_paired (by simp [withInput, withPort]) (by simp [withInput]),
        borders_withInput hx hw rfl rfl]
      have hr := hm.repeated hin
      have hgrow := Borders.grows_join hport hbus
      refine hm.reinput (hs.apart hl) hin rfl rfl rfl hport hbus ⟨?_, ?_, ?_, hr.mark⟩
      · exact hgrow.ports _ _ hr.go
      · exact hr.control.imp fun p d => hgrow.ports p d
      · refine List.rel_append (hr.data.imp fun p d => hgrow.ports p d) ?_
        simp [Borders.join, withDataPort]

theorem mirrored_makeThisPort (hc : c.index < s.state.components.size)
    (hbuf : ¬ IsBuffer {} s.state c) :
    wp (makeThisPort c) (fun _ t => t.state.borders.Mirrored) (fun f _ => f.Unless False) s := by
  obtain ⟨x, hx⟩ := Arena.exists_get? hc
  cases hthis : x.this with
  | some p =>
      rw [wp_makeThisPort_some hx hthis]
      exact hm
  | none =>
  cases hi : x.interior with
  | none =>
      rw [wp_makeThisPort hx hthis hi]
      show (borders (s.state.withPort c _ _)).Mirrored
      rw [borders_withPort hx rfl]
      exact hm.reface_plain (inner_of_not_isBuffer hbuf) (by simp [Component.face, hi])
  | some i =>
      obtain ⟨b, e, w, hb, hne, he, hw, hpeer, hin⟩ := entrance_of_module hl hs hx hi
      have hport : s.state.borders.portPeer? s.state.ports.next = none := portPeer?_next
      have hbus : s.state.borders.busPeer? s.state.buses.next = none := busPeer?_next
      rw [wp_makeThisPort_module hx hthis hi hb hne he hw]
      show (borders ((s.state.withInput c _ _ e _ _).paired _ _)).Mirrored
      rw [borders_paired (by simp [withInput, withPort]) (by simp [withInput]),
        borders_withInput hx hw rfl rfl]
      have hr := hm.repeated hin
      have hgrow := Borders.grows_join hport hbus
      refine hm.reinput (hs.apart hl) hin rfl rfl rfl hport hbus ⟨?_, ?_, ?_, hr.mark⟩
      · exact hgrow.ports _ _ hr.go
      · have hcontrols : ({ x with this := some s.state.ports.next } : Component).face.controls =
            x.face.controls ++ [s.state.ports.next] := by
          simp [Face.controls, Component.face, hthis]
        rw [hcontrols]
        refine List.rel_append (hr.control.imp fun p d => hgrow.ports p d) ?_
        simp [Borders.join]
      · exact hr.data.imp fun p d => hgrow.ports p d

omit hs in
theorem mirrored_makeExit (hc : c.index < s.state.components.size)
    (hbuf : ¬ IsBuffer {} s.state c) (tag : ExitTag) :
    wp (makeExit c 0 tag) (fun _ t => t.state.borders.Mirrored) (fun f _ => f.Unless False) s := by
  obtain ⟨x, hx⟩ := Arena.exists_get? hc
  have hinner := inner_of_not_isBuffer hbuf
  cases htag : x.exits.contains tag with
  | true => exact (wp_makeExit_taken hx htag 0).mpr trivial
  | false =>
  cases hi : x.interior with
  | none =>
      rw [wp_makeExit hx htag hi]
      show (s.state.withExit c tag).borders.Mirrored
      rw [borders_withExit hx]
      have hmade := hm.reoutlet (e := s.state.exits.next) (.bare s.state.buses.next none)
        (fun _ _ hb => hl.not_lists_next hb) fun _ _ _ => rfl
      refine hmade.reface_plain ⟨hinner.inBuf, fun e y hy => ?_⟩ (by simp [Component.face, hi])
      simp only [Borders.reoutlet] at hy
      split at hy
      · cases hy
        simp [Opening.bare]
      · exact hinner.outBuf e y hy
  | some i =>
      rw [wp_makeExit_module hx htag hi]
      show (s.state.withModuleExit c x tag).borders.Mirrored
      have hport : s.state.borders.portPeer? ⟨s.state.ports.size + 2⟩ = none := by
        have hnone : s.state.ports.get? ⟨s.state.ports.size + 2⟩ = none :=
          Arena.get?_of_size_le (Nat.le_add_right _ 2)
        simp [borders, hnone]
      have hbus : s.state.borders.busPeer? s.state.buses.next = none := busPeer?_next
      have hnew : s.state.components.next ≠ c := by
        rintro rfl
        simp at hc
      rw [borders_withModuleExit hx hnew]
      refine hm.addExit hinner (face?_of_get? hx) (hl.inner_next (by simp)) hnew
        (fun hv => hl.not_lists_next hv) rfl (by simp [Face.Lists, newFace]) rfl hport hbus
        ⟨?_, ?_, rfl⟩ _ fun e' he' => ?_
      · simp [Borders.join, Opening.bare, newFace]
      · exact .nil
      · exact OrderedMap.mem_values_put he'

theorem mirrored_removeExit (hbuf : ¬ IsBuffer {} s.state c) (tag : ExitTag) :
    wp (removeExit c tag) (fun _ t => t.state.borders.Mirrored) (fun f _ => f.Unless False) s := by
  have ha := hs.apart hl
  have hinner := inner_of_not_isBuffer hbuf
  simp only [removeExit, wp_bind]
  refine wp_component_of (fun x hx => ?_) trivial
  split
  · exact hm
  · next e he =>
    have hlists : x.face.Lists e := OrderedMap.mem_values_of_find? he
    simp only [wp_bind]
    refine wp_refaced (fun _ => trivial)
      (g := fun v => { v with exits := v.exits.filter (·.1 ≠ tag) }) (fun _ => rfl)
      fun t v hv ht => ?_
    cases (face?_of_get? hx).symm.trans hv
    have herased := hm.relist hinner hv (x.face.exits.filter (·.1 ≠ tag))
      fun _ e he hnot => absurd (OrderedMap.mem_values_erase (m := x.exits) (k := tag) he) hnot
    rw [← ht] at herased
    refine wp_exit_of (fun y hy => ?_) trivial
    split
    · exact herased
    · next o ho =>
      simp only [wp_bind]
      refine wp_reoutlet hy fun u hu => ?_
      have hdropped : u.state.borders.Mirrored := by
        rw [hu]
        refine herased.reoutlet _ (fun {m w k b} hw hk hb hlist => ?_) fun _ _ _ => rfl
        -- The exit is one of `c`, which is no InBuf.
        rw [ht] at hw hb
        have hkc : k ≠ c := by
          rintro rfl
          by_cases hmk : m = k
          · simp only [Borders.reface, hmk, if_pos, Option.some.injEq] at hw
            subst hw
            exact hinner.inBuf k x.face hv hk
          · simp only [Borders.reface, if_neg hmk] at hw
            exact hinner.inBuf m w hw hk
        simp only [Borders.reface, if_neg hkc] at hb
        exact hkc (ha.lists_inj hb hv hlist hlists)
      refine wp_mono (calm_disconnect u) (fun _ r hr => ?_) fun _ _ h => h
      refine wp_unseen (fun _ => trivial) (fun _ => rfl) fun q hq => ?_
      show q.state.borders.Mirrored
      rw [hq, hr.borders]
      exact hdropped

theorem mirrored_setConsumesGo (hbuf : ¬ IsBuffer {} s.state c) (on : Bool) :
    wp (setConsumesGo c on) (fun _ t => t.state.borders.Mirrored) (fun f _ => f.Unless False) s := by
  simp only [setConsumesGo, wp_bind]
  refine wp_refaced (fun _ => trivial) (g := fun v => { v with consumesGo := on }) (fun _ => rfl)
    fun t v hv ht => ?_
  refine wp_component_of (fun x hx => ?_) trivial
  have hface : x.face = { v with consumesGo := on } := by
    have heq := (face?_of_get? hx).symm.trans (congrArg (Borders.face? · c) ht)
    simpa [Borders.reface] using heq
  have hinBuf : x.interior.map Interior.inBuf = v.inBuf := congrArg Face.inBuf hface
  split
  · next hi =>
    rw [hi] at hinBuf
    show t.state.borders.Mirrored
    rw [ht]
    exact hm.reface_plain (inner_of_not_isBuffer hbuf) hinBuf.symm
  · next i hi =>
    rw [hi] at hinBuf
    refine wp_refaced (fun _ => trivial) (g := fun w => { w with producesDone := on }) (fun _ => rfl)
      fun u w hw hu => ?_
    have hinner := (hs.apart hl).inner hv (by simp [← hinBuf])
    have hne : i.inBuf ≠ c := fun heq => hinner.inBuf c v hv (heq ▸ hinBuf.symm)
    rw [ht] at hw
    simp only [Borders.reface, if_neg hne] at hw
    rw [hu, ht]
    exact hm.markInput (hs.apart hl) hv hinBuf.symm hw on

omit hl hs hm in
theorem wp_await (os : List ComponentId) (on : Bool) (s : Traced Netlist) :
    wp (os.forM fun o => changeComponent o fun b => { b with consumesGo := on })
      (fun _ t => t.state.borders = s.state.borders.awaiting os on) (fun f _ => f.Unless False)
      s := by
  induction os generalizing s with
  | nil => simp [Borders.awaiting]
  | cons o os ih =>
      rw [wp_forM_cons]
      refine wp_refaced (fun _ => trivial) (g := fun v => { v with consumesGo := on })
        (fun _ => rfl) fun t v hv ht => ?_
      refine wp_mono (ih t) (fun _ u hu => ?_) fun _ _ h => h
      rw [hu, ht]
      simp only [Borders.awaiting, Borders.reface, Borders.mk.injEq, and_true, List.mem_cons]
      funext d
      by_cases hd : d = o
      · subst hd
        by_cases hmem : d ∈ os <;> simp [hv, hmem]
      · simp [hd]

theorem mirrored_setProducesDone (hbuf : ¬ IsBuffer {} s.state c) (on : Bool) :
    wp (setProducesDone c on) (fun _ t => t.state.borders.Mirrored) (fun f _ => f.Unless False)
      s := by
  simp only [setProducesDone, wp_bind]
  refine wp_refaced (fun _ => trivial) (g := fun v => { v with producesDone := on }) (fun _ => rfl)
    fun t v hv ht => ?_
  refine wp_component_of (fun x hx => ?_) trivial
  have hface : x.face = { v with producesDone := on } := by
    have heq := (face?_of_get? hx).symm.trans (congrArg (Borders.face? · c) ht)
    simpa [Borders.reface] using heq
  have hinBuf : x.interior.map Interior.inBuf = v.inBuf := congrArg Face.inBuf hface
  split
  · next hmodule =>
    have hin : v.inBuf ≠ none := by
      rw [← hinBuf]
      simpa [Component.isModule, Option.isSome_iff_ne_none] using hmodule
    simp only [outBufs, wp_bind, wp_pure]
    refine (wp_component hx).mpr ?_
    refine wp_mono (wp_mapM_reads (R := fun e y => t.state.exits.get? e = some y) fun e _ =>
      wp_exit_of (fun y hy => ⟨rfl, hy⟩) trivial) (fun ys u hu => ?_) fun _ _ h => h
    obtain ⟨rfl, hys, hxs⟩ := hu
    refine wp_mono (wp_await _ on u) (fun _ r hr => ?_) fun _ _ h => h
    rw [hr, ht]
    refine hm.markOutputs (hs.apart hl) hv hin (fun o => ?_) on
    have houtlet : u.state.borders.outlet? = s.state.borders.outlet? := by
      rw [ht]
      rfl
    have hlists : ∀ e, v.Lists e ↔ e ∈ x.exits.values := fun e => by
      rw [← Component.lists_face, hface]
      rfl
    simp only [List.mem_filterMap, hlists, ← houtlet]
    constructor
    · rintro ⟨y, hy, ho⟩
      obtain ⟨e, he, hget⟩ := hys y hy
      exact ⟨e, y.outlet, he, outlet?_of_get? hget, ho⟩
    · rintro ⟨e, w, he, hw, ho⟩
      obtain ⟨y, hy, hget⟩ := hxs e he
      cases (outlet?_of_get? hget).symm.trans hw
      exact ⟨y, hy, ho⟩
  · next hmodule =>
    show t.state.borders.Mirrored
    rw [ht]
    refine hm.reface_plain (inner_of_not_isBuffer hbuf) ?_
    show v.inBuf = none
    rw [← hinBuf]
    simpa [Component.isModule] using hmodule

end

theorem mirrored_withModule (hl : Linked pins {} n) (hm : n.borders.Mirrored) (kind : ModuleKind)
    (stem : String) : (n.withModule kind stem).borders.Mirrored := by
  have hport : ∀ i, n.ports.size ≤ i → n.borders.portPeer? ⟨i⟩ = none := by
    intro i hi
    have hnone : n.ports.get? ⟨i⟩ = none := Arena.get?_of_size_le hi
    simp [borders, hnone]
  have hbus : ∀ i, n.buses.size ≤ i → n.borders.busPeer? ⟨i⟩ = none := by
    intro i hi
    have hnone : n.buses.get? ⟨i⟩ = none := Arena.get?_of_size_le hi
    simp [borders, hnone]
  have hgo := hm.join (hport (n.ports.size + 2) (by omega)) (d := n.buses.next)
    (hbus n.buses.size (by omega))
  have hclock := hgo.join (p := ⟨n.ports.size⟩) (d := ⟨n.buses.size + 1⟩)
    (by simp [Borders.join, Handle.eq_iff_index, hport])
    (by simp [Borders.join, Handle.eq_iff_index, hbus])
  have hreset := hclock.join (p := ⟨n.ports.size + 1⟩) (d := ⟨n.buses.size + 2⟩)
    (by simp [Borders.join, Handle.eq_iff_index, hport])
    (by simp [Borders.join, Handle.eq_iff_index, hbus])
  have hinner : ∀ {c : ComponentId}, n.components.size ≤ c.index → n.borders.Inner c :=
    fun hc => hl.inner_next hc
  rw [borders_withModule]
  refine hreset.addModule ⟨(hinner (by simp)).inBuf, (hinner (by simp)).outBuf⟩
    ⟨(hinner (by simp)).inBuf, (hinner (by simp)).outBuf⟩ (by simp [Handle.eq_iff_index])
    (fun hv => hl.not_lists_next hv) rfl (fun e' he' => ?_) rfl rfl rfl ⟨?_, ?_, .nil, rfl⟩
  · simpa [Face.Lists] using he'
  · simp [Borders.join, newFace, Handle.eq_iff_index, Opening.bare]
  · simp [Borders.join, newFace, Handle.eq_iff_index, Face.controls]

/-! ### Children -/

/-- Nothing at a boundary has changed. -/
def SameBorders (n n' : Netlist) : Prop := n'.borders = n.borders

instance : IsPreorder Netlist SameBorders where
  refl _ := rfl
  trans _ _ _ h h' := h'.trans h

section

variable {c m : ComponentId}

theorem unseen_changeComponent {f : Component → Component} (hf : ∀ x, (f x).face = x.face) :
    Moves SameBorders (changeComponent c f) := by
  intro s
  exact wp_unseen (fun _ => trivial) hf fun _ ht => ht

theorem unseen_changeInterior {f : Interior → Interior} (hf : ∀ i, (f i).inBuf = i.inBuf) :
    Moves SameBorders (changeInterior m f) := by
  refine .bind (.bind moves_component fun _ => .expect _ _) fun _ => unseen_changeComponent fun x => ?_
  cases hi : x.interior with
  | none => simp [Component.face, hi]
  | some i => simp [Component.face, hi, hf]

theorem unseen_addComponent : Moves SameBorders (addComponent m c) := by
  refine .bind moves_component fun x => ?_
  cases x.owner with
  | some o => exact .ite (.bind moves_component fun _ => .abort _) (.pure ())
  | none =>
      exact .bind (unseen_changeComponent fun _ => rfl) fun _ => unseen_changeInterior fun _ => rfl

theorem unseen_removeComponent : Moves SameBorders (removeComponent m c) := by
  refine .bind (.bind (.bind moves_component fun _ => .expect _ _) fun _ => .pure _) fun cs =>
    .ite ?_ (.pure false)
  refine .bind (unseen_changeInterior fun _ => rfl) fun _ => .bind moves_outBufs fun os => .bind
    (.forM fun o _ => calm_dropEntries.mono fun _ _ => Calm.borders) fun _ => .bind
    (calm_disconnect.mono fun _ _ => Calm.borders) fun _ => .bind
    (unseen_changeComponent fun _ => rfl) fun _ => .pure true

theorem unseen_addFeedbackPoint : Moves SameBorders (addFeedbackPoint m c) := by
  refine .bind moves_component fun x => .ite (.bind moves_component fun _ => ?_)
    (unseen_changeInterior fun _ => rfl)
  exact .bind (.abort _) fun _ => unseen_changeInterior fun _ => rfl

end

/-- Boundaries mirror their modules, whatever is done elsewhere. -/
def mirroring : Guard {} True where
  holds n := n.borders.Mirrored
  firm := True
  calm h hm := by
    rw [h.borders]
    exact hm
  shell {_ n} kind stem hl hm := by
    rw [borders_shelled]
    exact hm.reface_plain (hl.inner_next (by simp)) rfl
  module kind stem hl hm := mirrored_withModule hl hm kind stem
  edit op s hl hstrict hrefs hm := by
    obtain ⟨hs, hspares⟩ := hstrict trivial
    have hmoves : ∀ {α : Type} {x : Step α}, Moves SameBorders x →
        wp x (fun _ t => t.state.borders.Mirrored) (fun f _ => f.Unless False) s := by
      intro α x hx
      refine wp_mono (hx s) (fun _ t ht => ?_) fun _ _ h => h
      rw [ht]
      exact hm
    refine wp_mono (Q := fun _ t => t.state.borders.Mirrored) (F := fun f _ => f.Unless False) ?_
      (fun _ _ h => h) fun f t h => h.mono False.elim
    cases op with
    | dataBus e name =>
        have he : Ref.New {} s.state (.exit e) := hrefs _ (by simp [Edit.refs])
        exact wp_discard.mpr (mirrored_makeDataBus hl hs hm he.2 hspares name)
    | dataPort c name =>
        have hc : Ref.New {} s.state (.component c) := hrefs _ (by simp [Edit.refs])
        exact wp_discard.mpr (mirrored_makeDataPort hl hs hm hc.2 hspares name)
    | thisPort c =>
        have hc : Ref.New {} s.state (.component c) := hrefs _ (by simp [Edit.refs])
        exact wp_discard.mpr (mirrored_makeThisPort hl hs hm hc.2 hspares)
    | exit c tag =>
        have hc : Ref.New {} s.state (.component c) := hrefs _ (by simp [Edit.refs])
        exact wp_discard.mpr (mirrored_makeExit hl hm hc.2 hspares tag)
    | dropExit c tag => exact wp_discard.mpr (mirrored_removeExit hl hs hm hspares tag)
    | adopt m c => exact hmoves unseen_addComponent
    | release m c => exact wp_discard.mpr (hmoves unseen_removeComponent)
    | feedback m c => exact hmoves unseen_addFeedbackPoint
    | consumesGo c on => exact mirrored_setConsumesGo hl hs hm (hspares trivial) on
    | producesDone c on => exact mirrored_setProducesDone hl hs hm (hspares trivial) on
    | wait c =>
        refine wp_refaced (fun _ => trivial) (g := fun v => { v with consumesGo := true })
          (fun _ => rfl) fun t v hv ht => ?_
        obtain ⟨x, hx, rfl⟩ := face?_eq_some hv
        rw [ht]
        refine hm.reface_plain (inner_of_not_isBuffer hspares.1) ?_
        simp [Component.face, hspares.2 x hx]

end DataflowSynth.Netlist
