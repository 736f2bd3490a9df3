/-
What the steps on modules do to a sheet.

A terminal of a module is made together with the terminal of its buffer that repeats it, so two nodes
change at once.
-/
import DataflowSynth.Proofs.Sheet.Steps

namespace DataflowSynth.Netlist

open Build

variable {Γ : Ground} {σ : Sheet} {c m : ComponentId} {ν μ : Node} {n n' : Netlist} {i : Interior}

/-! ### Buffers -/

/-- The node of an InBuf. -/
structure InBufNode (m : ComponentId) (μ : Node) (o : Outlet) : Prop where
  kind : μ.kind = .inBuf
  owner : μ.owner = some m
  data : μ.data = []
  exits : μ.exits = [(.done, o)]
  outBuf : o.outBuf = none
  interior : μ.interior = none

theorem InBufNode.outlet? {m : ComponentId} {μ : Node} {o : Outlet} (h : InBufNode m μ o) :
    μ.outlet? .done = some o := by
  simp [Node.outlet?, h.exits]

theorem InBufNode.buses {m : ComponentId} {μ : Node} {o : Outlet} (h : InBufNode m μ o) :
    μ.buses = o.buses := by
  simp [Node.buses, Node.outlets, h.exits]

theorem Proper.inBufNode (hn : Proper Γ n) (hν : (Γ.sheet n).node? m = some ν)
    (hi : ν.interior = some i) : ∃ μ o, (Γ.sheet n).node? i.inBuf = some μ ∧ InBufNode m μ o := by
  obtain ⟨μ, hμ⟩ := hn.inBuf_drawn hν hi
  obtain ⟨x, hx, rfl⟩ := drawn hν
  obtain ⟨b, e, y, hb, hy, hin⟩ :=
    ((hn.shape.components m x hx (le_of_node? hν)).interior i hi).inBuf
  refine ⟨n.node b, n.outlet e, by rw [node?_sheet _ (le_of_node? hμ), hb, Option.map_some],
    hin.kind, hin.owner, ?_, ?_, ?_, hin.interior⟩
  · simp [node, hin.dataPorts]
  · simp [node, hin.exits]
  · rw [outlet_of_get? hy, hin.peer]

/-- The node of an OutBuf. -/
structure OutBufNode (m : ComponentId) (μ : Node) : Prop where
  kind : μ.kind = .outBuf
  owner : μ.owner = some m
  exits : μ.exits = []
  interior : μ.interior = none

theorem Proper.outBufNode (hn : Proper Γ n) (hν : (Γ.sheet n).node? m = some ν) {o : Outlet}
    (ho : o ∈ ν.outlets) {w : ComponentId} (hw : o.outBuf = some w) :
    ∃ μ, (Γ.sheet n).node? w = some μ ∧ OutBufNode m μ ∧ μ.data.length = o.data.length := by
  obtain ⟨μ, hμ⟩ := hn.outBuf_drawn hν ho hw
  obtain ⟨y, hy, howner, heq, hnew⟩ := hn.has_exit hν ho
  rw [heq] at hw
  obtain ⟨b, hb, hout⟩ := (hn.shape.exits _ y hy hnew).outBuf w hw
  refine ⟨n.node b, by rw [node?_sheet _ (le_of_node? hμ), hb, Option.map_some],
    ⟨hout.kind, howner ▸ hout.owner, ?_, hout.interior⟩, ?_⟩
  · simp [node, hout.exits]
  · rw [heq]
    simpa [node] using hout.dataPorts

theorem ne_of_kinds {c d : ComponentId} (hν : σ.node? c = some ν) (hμ : σ.node? d = some μ)
    (h : ν.kind.isBuffer = false) (h' : μ.kind.isBuffer = true) : c ≠ d := by
  rintro rfl
  cases hν.symm.trans hμ
  exact absurd (h.symm.trans h') (by simp)

/-! ### Terminals -/

/-- A new port of `w` and a new bus of `c` are the two sides of a boundary. -/
theorem Proper.sheet_terminal (hn : Proper Γ n) {w : ComponentId} (hν : (Γ.sheet n).node? c = some ν)
    (hμ : (Γ.sheet n).node? w = some μ) (hne : c ≠ w) {tag : ExitTag} {o : Outlet}
    (hexit : ν.exits = [(tag, o)])
    (hcomponents : n'.components = n.components.modify w fun x =>
      { x with dataPorts := x.dataPorts ++ [n.ports.next] })
    (hexits : n'.exits = n.exits.modify o.exit fun y => { y with data := y.data ++ [n.buses.next] })
    (hpads : ∀ q, n'.pad q = if q = n.ports.next then { n.pad q with peer := some n.buses.next }
      else n.pad q) :
    Γ.sheet n' = ((Γ.sheet n).set c
      { ν with exits := [(tag, { o with data := o.data ++ [n.buses.next] })] }).set w
      { μ with data := μ.data ++ [{ port := n.ports.next, peer := some n.buses.next }] } := by
  have ho : o ∈ ν.outlets := by simp [Node.outlets, hexit]
  obtain ⟨y, hy, howner, heq, -⟩ := hn.has_exit hν ho
  have hold : ∀ q z, n.ports.get? q = some z → n'.pad q = n.pad q := by
    intro q z hz
    have hq : q ≠ n.ports.next := by
      rintro rfl
      simp at hz
    rw [hpads, if_neg hq]
  have helse : ∀ e z, n.exits.get? e = some z → z.owner ≠ c → n'.outlet e = n.outlet e := by
    intro e z hz hzc
    refine outlet_modify hexits ?_
    rintro rfl
    cases hy.symm.trans hz
    exact hzc howner
  have hlec := le_of_node? hν
  have hlew := le_of_node? hμ
  obtain ⟨x, hx, rfl⟩ := drawn hν
  obtain ⟨b, hb, rfl⟩ := drawn hμ
  refine Sheet.eq_set_set _ _ _ ?_ ?_ ?_ fun d hdc hdw => ?_
  · rw [size_sheet, hcomponents, Arena.size_modify]
    rfl
  · have hentries : x.exits.entries = [(tag, o.exit)] := by
      rw [(drawnAs_node n x).exits, hexit]
      rfl
    have houtlet : n'.outlet o.exit = { o with data := o.data ++ [n.buses.next] } := by
      rw [heq]
      simp [outlet, hexits, Arena.get?_modify, hy]
    rw [node?_sheet _ hlec, hcomponents, Arena.get?_modify_of_ne _ hne.symm, hx, Option.map_some,
      node_of_pads fun p hp => ?_, hentries, List.map_cons, List.map_nil, houtlet]
    obtain ⟨z, hz, -⟩ := hn.port hx hlec hp
    exact hold p z hz
  · have hnode : n'.node b = n.node b := by
      refine node_congr (fun p hp => ?_) fun e he => ?_
      · obtain ⟨z, hz, -⟩ := hn.port hb hlew hp
        exact hold p z hz
      · obtain ⟨z, hz, hzw, -⟩ := hn.exit hb hlew he
        exact helse e z hz (by rw [hzw]; exact hne.symm)
    have hdata : b.dataPorts.map n'.pad = b.dataPorts.map n.pad := (congrArg Node.data hnode :)
    rw [node?_sheet _ hlew, hcomponents, Arena.get?_modify_self, hb, Option.map_some, Option.map_some]
    show some { n'.node b with data := (b.dataPorts ++ [n.ports.next]).map n'.pad } = _
    rw [hnode, List.map_append, hdata, List.map_cons, List.map_nil, hpads, if_pos rfl]
    simp [node, pad]
  · refine hn.node?_frame ?_ (fun p z hz _ => hold p z hz) fun e z hz hzd =>
      helse e z hz (by rw [hzd]; exact hdc)
    rw [hcomponents, Arena.get?_modify_of_ne _ (Ne.symm hdw)]

/-- A new exit of a module, and its OutBuf. -/
theorem Proper.sheet_withModuleExit (hn : Proper Γ n) {x : Component}
    (hx : n.components.get? m = some x) (hle : Γ.base.components.size ≤ m.index)
    (hi : x.interior = some i) (hnone : x.exits.entries = []) (tag : ExitTag) :
    Γ.sheet (n.withModuleExit m x tag) =
      ((Γ.sheet n).set m { n.node x with exits := [(tag,
        { exit := n.exits.next, done := n.buses.next, outBuf := some n.components.next })] }).add
        { Node.blank .outBuf ⟨n.ports.size⟩ ⟨n.ports.size + 1⟩ ⟨n.ports.size + 2⟩ with
          owner := some m, go := { port := ⟨n.ports.size + 2⟩, peer := some n.buses.next } } := by
  have hadded := exitAdded_withModuleExit hx hi tag
  have hpads : ∀ q, (n.withModuleExit m x tag).pad q = if q = ⟨n.ports.size + 2⟩ then
      { n.pad q with peer := some n.buses.next } else n.pad q := by
    intro q
    have hports : (n.withModuleExit m x tag).pad q = (((n.withExit m tag).buffered .outBuf
        (x.name ++ "_outbuf") m).paired ⟨n.ports.size + 2⟩ n.buses.next).pad q := rfl
    rw [hports, pad_paired (by simp [buffered, shelled, withShell, withExit]),
      show ((n.withExit m tag).buffered .outBuf (x.name ++ "_outbuf") m).pad = n.pad from
        pad_shelled (n.withExit m tag) .outBuf (x.name ++ "_outbuf")]
  have hold : ∀ q z, n.ports.get? q = some z → (n.withModuleExit m x tag).pad q = n.pad q := by
    intro q z hz
    have hlt := Arena.lt_of_get? hz
    have hq : q ≠ ⟨n.ports.size + 2⟩ := by
      rintro rfl
      exact absurd hlt (Nat.not_lt.mpr (Nat.le_add_right _ _))
    rw [hpads, if_neg hq]
  have houtlets : ∀ e z, n.exits.get? e = some z →
      (n.withModuleExit m x tag).outlet e = n.outlet e := by
    intro e z hz
    simp only [outlet, hadded.exits.get? e (Arena.lt_of_get? hz)]
  refine Sheet.eq_set_add _ _ _ ?_ ?_ ?_ fun d hdm hdn => ?_
  · simp [withModuleExit, withOutBuf, buffered, components_shelled, withExit]
  · have hentries : (x.exits.put tag n.exits.next).entries = [(tag, n.exits.next)] := by
      rw [OrderedMap.entries_put_of_new (by simp [OrderedMap.contains, OrderedMap.find?, hnone]), hnone]
      rfl
    rw [node?_sheet _ hle, hadded.self, Option.map_some, node_of_pads fun p hp => ?_]
    · simp only [hentries, List.map_cons, List.map_nil, outlet_of_get? hadded.exit]
      rfl
    · obtain ⟨z, hz, -⟩ := hn.port hx hle hp
      exact hold p z hz
  · have hfresh : ∀ k, n.pad ⟨n.ports.size + k⟩ = { port := ⟨n.ports.size + k⟩ } := by
      intro k
      simp [pad, Arena.get?_of_size_le]
    rw [node?_sheet _ hn.le_next, next_sheet]
    refine (congrArg (Option.map _) (get?_withModuleExit_next n m x tag)).trans ?_
    have h0 := hfresh 0
    simp only [Nat.add_zero] at h0
    simp [node, newOutBuf, shell, Node.blank, hpads, hfresh, h0, withExit]
  · refine hn.node?_frame ?_ (fun p z hz _ => hold p z hz) fun e z hz _ => houtlets e z hz
    by_cases hlt : d.index < n.components.size
    · exact hadded.others d hdm hlt
    · rw [Arena.get?_of_size_le (Nat.le_of_not_lt hlt)]
      cases hd : (n.withModuleExit m x tag).components.get? d with
      | none => rfl
      | some y =>
          have hmade := hadded.made d y hd (Nat.le_of_not_lt hlt)
          exact absurd (Option.some.inj hmade).symm hdn

section

variable (hν : σ.node? m = some ν) (hkind : ν.kind.isBuffer = false)

include hν hkind

/-- The exit of a module gets one more bus, and its OutBuf the port for it. -/
theorem draws_makeDataBus_module {tag : ExitTag} {o : Outlet} (hexits : ν.exits = [(tag, o)])
    {w : ComponentId} (hout : o.outBuf = some w) (hμ : σ.node? w = some μ) (name : String) :
    Draws Γ (makeDataBus o.exit name) σ fun b τ => ∃ p,
      τ = (σ.set m { ν with exits := [(tag, { o with data := o.data ++ [b] })] }).set w
        { μ with data := μ.data ++ [{ port := p, peer := some b }] } := by
  have ho : o ∈ ν.outlets := by simp [Node.outlets, hexits]
  refine .of_safe (K := [.has (.exit o.exit), .plainExit o.exit])
    (safe_makeDataBus (fun h => h) (by simp) (by simp) name)
    (by simpa using ⟨.exit hν ho, .plainExit hν hkind ho⟩) fun s hs hσ => ?_
  subst hσ
  obtain ⟨y, hy, -, heq, -⟩ := hs.has_exit hν ho
  obtain ⟨μ', hμ', hshape, -⟩ := hs.outBufNode hν ho hout
  cases hμ.symm.trans hμ'
  have hne : m ≠ w := ne_of_kinds hν hμ hkind (by rw [hshape.kind]; rfl)
  obtain ⟨b, hb, -⟩ := drawn hμ
  refine (wp_makeDataBus_outBuf hy (by rw [← hout, heq]) hb name).mpr ⟨s.state.ports.next, ?_⟩
  refine hs.sheet_terminal hν hμ hne hexits ?_ ?_ fun q => ?_
  · rw [state_moved, components_paired]
    rfl
  · rw [state_moved, exits_paired]
    rfl
  · rw [state_moved, pad_paired (by simp [withDataPort, withDataBus]),
      show ((s.state.withDataBus o.exit name).withDataPort w name).pad = s.state.pad from
        pad_push rfl rfl rfl]

/-- A module gets one more port, and its InBuf the bus for it. -/
theorem draws_makeDataPort_module (hi : ν.interior = some i) {o : Outlet}
    (hμ : σ.node? i.inBuf = some μ) (hin : InBufNode m μ o) (name : String) :
    Draws Γ (makeDataPort m name) σ fun p τ => ∃ b,
      τ = (σ.set i.inBuf { μ with exits := [(.done, { o with data := o.data ++ [b] })] }).set m
        { ν with data := ν.data ++ [{ port := p, peer := some b }] } := by
  refine .of_safe (K := [.has (.component m), .plain m])
    (safe_makeDataPort (fun h => h) (by simp) (by simp) name)
    (by simpa using ⟨.component hν, .plain hν hkind⟩) fun s hs hσ => ?_
  subst hσ
  have hne : m ≠ i.inBuf := ne_of_kinds hν hμ hkind (by rw [hin.kind]; rfl)
  obtain ⟨w, hw, -, heq, -⟩ := hs.has_exit hμ (Node.outlet?_mem hin.outlet?)
  obtain ⟨x, hx, hxν⟩ := drawn hν
  obtain ⟨b, hb, hbμ⟩ := drawn hμ
  have hmain : b.mainExit? = some o.exit := by
    rw [(drawnAs_node s.state b).mainExit?, hbμ, hin.outlet?]
    rfl
  have hinterior : x.interior = some i := by
    rw [← hi, ← hxν]
    rfl
  refine (wp_makeDataPort_module hx hinterior hb hne.symm hmain hw (by rw [← hin.outBuf, heq])
    name).mpr ⟨s.state.buses.next, ?_⟩
  refine hs.sheet_terminal hμ hν hne.symm hin.exits ?_ ?_ fun q => ?_
  · rw [state_moved, components_paired]
    rfl
  · rw [state_moved, exits_paired]
    rfl
  · rw [state_moved, pad_paired (by simp [withDataInput, withDataPort, withDataBus]),
      show (s.state.withDataInput m o.exit name).pad = s.state.pad from pad_push rfl rfl rfl]

/-- A module gets its first exit, with an OutBuf. -/
theorem draws_makeExit_module (hi : ν.interior = some i) (hexits : ν.exits = []) (tag : ExitTag) :
    Draws Γ (makeExit m 0 tag) σ fun e τ => ∃ done clock reset go,
      τ = (σ.set m { ν with exits := [(tag, { exit := e, done, outBuf := some σ.next })] }).add
        { Node.blank .outBuf clock reset go with
          owner := some m, go := { port := go, peer := some done } } := by
  refine .of_safe (K := [.has (.component m), .plain m])
    (safe_makeExit (fun h => h) (by simp) (by simp) 0 tag)
    (by simpa using ⟨.component hν, .plain hν hkind⟩) fun s hs hσ => ?_
  subst hσ
  obtain ⟨x, hx, rfl⟩ := drawn hν
  have hnone : x.exits.entries = [] := by simpa [node] using hexits
  have htag : x.exits.contains tag = false := by simp [OrderedMap.contains, OrderedMap.find?, hnone]
  refine (wp_makeExit_module hx htag hi 0).mpr ⟨s.state.buses.next, ⟨s.state.ports.size⟩,
    ⟨s.state.ports.size + 1⟩, ⟨s.state.ports.size + 2⟩, ?_⟩
  exact hs.sheet_withModuleExit hx (le_of_node? hν) hi hnone tag

end

/-! ### New modules -/

theorem pad_withControl {e : ExitId} {p : PortId} (hp : p.index < n.ports.size) (control : Control)
    (q : PortId) : (n.withControl e control p).pad q =
      if q = p then { n.pad q with peer := some n.buses.next } else n.pad q :=
  pad_paired (n := n.withControlBus e control) hp n.buses.next q

/-- The InBuf repeats the control ports of its module. -/
theorem pad_withInBuf {x : Component} (hports : ∀ p ∈ x.ports, p.index < n.ports.size) (q : PortId) :
    (n.withInBuf m x).pad q =
      if q = x.reset then { n.pad q with peer := some ⟨n.buses.size + 2⟩ }
      else if q = x.clock then { n.pad q with peer := some ⟨n.buses.size + 1⟩ }
      else if q = x.go then { n.pad q with peer := some n.buses.next }
      else n.pad q := by
  let n₁ := (n.buffered .inBuf (x.name ++ "_inbuf") m).withExit n.components.next .done
  let n₂ := n₁.paired x.go n.buses.next
  let n₃ := n₂.withControl n.exits.next .clock x.clock
  have hlt : ∀ p ∈ x.ports, p.index < n₁.ports.size := by
    intro p hp
    have := hports p hp
    simp only [n₁, withExit, buffered, shelled, withShell, Arena.size_push]
    omega
  have h₁ : n₁.pad = n.pad := pad_shelled n .inBuf (x.name ++ "_inbuf")
  have hclock : n₂.buses.next = ⟨n.buses.size + 1⟩ :=
    Handle.ext_index (by simp [n₂, n₁, withExit, buffered])
  have hreset : n₃.buses.next = ⟨n.buses.size + 2⟩ :=
    Handle.ext_index (by simp [n₃, n₂, n₁, withExit, buffered])
  have h₂ := pad_paired (hlt x.go (by simp)) n.buses.next q
  have h₃ := pad_withControl (n := n₂) (e := n.exits.next)
    (by simpa [n₂] using hlt x.clock (by simp)) .clock q
  have h₄ : (n.withInBuf m x).pad q = _ := pad_withControl (n := n₃) (e := n.exits.next)
    (by simpa [n₃, n₂, withControl, withControlBus] using hlt x.reset (by simp)) .reset q
  rw [h₄, show n₃.pad q = _ from h₃, show n₂.pad q = _ from h₂, h₁, hclock, hreset]
  repeat' split
  all_goals rfl

/-- The node of a new module. -/
def Node.newModule (kind : ModuleKind) (clock reset go : PortId × BusId) (inBuf : ComponentId) :
    Node where
  kind := .module kind
  clock := { port := clock.1, peer := some clock.2 }
  reset := { port := reset.1, peer := some reset.2 }
  go := { port := go.1, peer := some go.2 }
  interior := some { inBuf }

/-- The node of its InBuf. -/
def Node.newInBuf (m : ComponentId) (clock reset go : PortId) (o : Outlet) : Node :=
  { blank .inBuf clock reset go with owner := some m, exits := [(.done, o)] }

theorem Proper.sheet_withModule (hn : Proper Γ n) (kind : ModuleKind) (stem : String) :
    ∃ clock reset go clock' reset' go' e, Γ.sheet (n.withModule kind stem) = (Γ.sheet n).adds
      [.newModule kind clock reset go ((Γ.sheet n).fresh 1),
        .newInBuf ((Γ.sheet n).fresh 0) clock' reset' go'
          { exit := e, done := go.2, control := [clock.2, reset.2] }] := by
  refine ⟨(⟨n.ports.size⟩, ⟨n.buses.size + 1⟩), (⟨n.ports.size + 1⟩, ⟨n.buses.size + 2⟩),
    (⟨n.ports.size + 2⟩, n.buses.next), ⟨n.ports.size + 3⟩, ⟨n.ports.size + 4⟩, ⟨n.ports.size + 5⟩,
    n.exits.next, ?_⟩
  have hpads : ∀ q, (n.withModule kind stem).pad q =
      if q = ⟨n.ports.size + 1⟩ then { n.pad q with peer := some ⟨n.buses.size + 2⟩ }
      else if q = ⟨n.ports.size⟩ then { n.pad q with peer := some ⟨n.buses.size + 1⟩ }
      else if q = ⟨n.ports.size + 2⟩ then { n.pad q with peer := some n.buses.next }
      else n.pad q := by
    intro q
    rw [← pad_shelled n (.module kind) stem]
    refine pad_withInBuf (n := n.shelled (.module kind) stem) (fun p hp => ?_) q
    obtain rfl | rfl | rfl : p = ⟨n.ports.size⟩ ∨ p = ⟨n.ports.size + 1⟩ ∨ p = ⟨n.ports.size + 2⟩ := by
      simpa [Component.ports, shell] using hp
    all_goals
      simp only [shelled, withShell, Arena.size_push]
      omega
  have hold : ∀ q z, n.ports.get? q = some z → (n.withModule kind stem).pad q = n.pad q := by
    intro q z hz
    have hlt := Arena.lt_of_get? hz
    rw [hpads, if_neg, if_neg, if_neg]
    all_goals
      rintro rfl
      simp at hlt
      try omega
  have hfresh : ∀ k, n.pad ⟨n.ports.size + k⟩ = { port := ⟨n.ports.size + k⟩ } := by
    intro k
    simp [pad, Arena.get?_of_size_le]
  have hfresh₀ : n.pad ⟨n.ports.size⟩ = { port := ⟨n.ports.size⟩ } := hfresh 0
  refine Sheet.eq_adds ?_ (fun k hk => ?_) fun d hd => ?_
  · simp [withModule, withInBuf, withInBufBuses, withExit, buffered, components_shelled]
  · obtain rfl | rfl : k = 0 ∨ k = 1 := by
      simp only [List.length_cons, List.length_nil] at hk
      omega
    · rw [node?_sheet _ (hn.le_fresh 0), get?_withModule, if_pos (by simp)]
      simp [node, newModuleComponent, shell, Node.newModule, hpads, hfresh, hfresh₀, Sheet.fresh]
    · rw [node?_sheet _ (hn.le_fresh 1), get?_withModule, if_neg (by simp), if_pos (by simp)]
      have hports : (n.shelled (.module kind) stem).ports.size = n.ports.size + 3 := by
        simp [shelled, withShell]
      have hexit := get?_exits_withModule n kind stem n.exits.next
      rw [if_pos rfl] at hexit
      have hentries : (OrderedMap.put ∅ ExitTag.done n.exits.next).entries =
          [(ExitTag.done, n.exits.next)] := rfl
      have hself : (Γ.sheet n).fresh 0 = n.components.next := rfl
      simp [node, newInBuf, shell, Node.newInBuf, Node.blank, hpads, hfresh, hself, hports,
        outlet_of_get? hexit, hentries, newInBufExit, Nat.add_assoc]
  · refine hn.node?_frame ?_ (fun p z hz _ => hold p z hz) fun e z hz _ => ?_
    · rw [get?_withModule, if_neg, if_neg]
      · intro heq
        exact hd 1 (by simp) (Handle.ext_index heq)
      · intro heq
        exact hd 0 (by simp) (Handle.ext_index heq)
    · have hne : e ≠ n.exits.next := by
        rintro rfl
        simp at hz
      simp only [outlet, get?_exits_withModule, if_neg hne]

/-- A new module has an InBuf, and no data ports. -/
theorem draws_newModule {kind : ModuleKind} {K : List Fact}
    (hkind : (ComponentKind.module kind).FitsIn Γ.scope K) (hK : ∀ f ∈ K, σ.Tells f)
    (stem : String) : Draws Γ (newModule kind stem 0) σ fun m τ =>
      m = σ.fresh 0 ∧ ∃ clock reset go clock' reset' go' e, τ = σ.adds
        [.newModule kind clock reset go (σ.fresh 1),
          .newInBuf (σ.fresh 0) clock' reset' go'
            { exit := e, done := go.2, control := [clock.2, reset.2] }] := by
  refine .of_safe (safe_newModule (fun h => h) hkind stem 0) hK fun s hs hσ => ?_
  subst hσ
  exact (wp_newModule kind stem 0).mpr ⟨rfl, hs.sheet_withModule kind stem⟩

end DataflowSynth.Netlist
