/-
The module that carries out a memory read.

The module is drawn beside the netlist of the read: what is connected to the read is not looked at while
it is drawn, and is laid over the drawing.  Each of the five input ports of the read hands its driver
over to a port of the module, and the two buses of the read hand over what they drive.  So what comes
out is a sheet, which is the same for every read, and the connections of before with five ports and two
buses exchanged.
-/
import DataflowSynth.Proofs.Memory.DoneCache
import DataflowSynth.Proofs.Sheet.Overlaid

namespace DataflowSynth.Memory

open Build Netlist

/-! ### What is drawn -/

/-- The buses of the module. -/
structure ReadLines where
  cache : CacheLines
  /-- The exit of the InBuf. -/
  entry : ExitId
  exit : ExitId
  address : BusId
  size : BusId
  word : BusId
  done : BusId
  dataOut : BusId
  sideAddress : BusId
  sideEnable : BusId
  sideSize : BusId
  cast : BusId

/-- The input ports of the module. -/
structure ReadPorts where
  clock : PortId
  reset : PortId
  go : PortId
  address : PortId
  size : PortId
  ready : PortId
  word : PortId

/-- What comes in by the InBuf. -/
def ReadLines.inner (v : ReadLines) : Outlet where
  exit := v.entry
  done := v.cache.go
  data := [v.address, v.size, v.cache.ready, v.word]
  control := [v.cache.clock, v.cache.reset]

def ReadLines.outer (v : ReadLines) (m : ComponentId) : Outlet where
  exit := v.exit
  done := v.done
  data := [v.dataOut, v.sideAddress, v.sideEnable, v.sideSize]
  outBuf := some (after m 2)

/-- The node of the module: each input port is repeated inside. -/
def readModule (clock reset go : PortId × BusId) (inputs : List (PortId × BusId))
    (outlet : Option Outlet) (i : Interior) : Node where
  kind := .module .memoryReadPhysical
  clock := { port := clock.1, peer := some clock.2 }
  reset := { port := reset.1, peer := some reset.2 }
  go := { port := go.1, peer := some go.2 }
  data := inputs.map fun a => { port := a.1, peer := some a.2 }
  exits := outlet.toList.map fun o => (.done, o)
  interior := some i

/-- The node of its OutBuf. -/
def readBuffer (m : ComponentId) (clock reset go : PortId) (done : BusId) (start : Option BusId)
    (data : List Pad) : Node :=
  { Node.blank .outBuf clock reset go with
    owner := some m, go := { port := go, driver := start, peer := some done }, data }

/-- The children come after the two buffers, and the first of them is the cast. -/
def readInterior (m : ComponentId) (latency : Latency) : Interior :=
  cachedInterior m latency { inBuf := after m 1, children := [after m 3] }

/-- The module with all that it has. -/
def ReadLines.module (v : ReadLines) (p : ReadPorts) (m : ComponentId) (latency : Latency) : Node :=
  readModule (p.clock, v.cache.clock) (p.reset, v.cache.reset) (p.go, v.cache.go)
    [(p.address, v.address), (p.size, v.size), (p.ready, v.cache.ready), (p.word, v.word)]
    (some (v.outer m)) (readInterior m latency)

/-- What is inside the module; the word of the memory leaves it through the cast. -/
def ReadLines.parts (v : ReadLines) (m : ComponentId) (signal : Signal) (latency : Latency) :
    List Piece :=
  [.inBuf m v.inner,
    .outBuf m v.done (some v.cache.done) [(some v.cast, some v.dataOut),
      (some v.address, some v.sideAddress), (some v.cache.go, some v.sideEnable),
      (some v.size, some v.sideSize)],
    .cell {
      kind := .cast signal.width signal.signed, owner := some m, inputs := [some v.word]
      results := [v.cast] }] ++ cacheParts m latency v.cache

/-! ### What is taken over -/

/-- The ports by which a read is connected. -/
def readInputs (r : Component) : List PortId := r.dataPorts.take 2 ++ [r.go, r.clock, r.reset]

/-- The ports by which the module is, in the same order. -/
def ReadPorts.inputs (p : ReadPorts) : List PortId := [p.address, p.size, p.go, p.clock, p.reset]

/-- The connections of a read with the exit `y` when they have been taken over. -/
def takenOver (ω : PortId → Option BusId) (r : Component) (y : Exit) (result : BusId) (p : ReadPorts)
    (v : ReadLines) : PortId → Option BusId :=
  redirect (redirect (((readInputs r).zip p.inputs).foldl handOver ω) (result, v.dataOut))
    (y.done, v.done)

section

variable {Γ : Ground} {σ : Sheet} {M ν O : Node} {i : Interior} {νs : List Node} {k : Nat} {b : BusId}
  {o : Outlet}

/-! ### Terminals of a new module -/

/-- A new module gets a data port, and its InBuf the bus that repeats it. -/
theorem draws_portNew {I : Node} (hM : M.kind.isBuffer = false) (hi : M.interior = some i)
    (hin : i.inBuf = σ.fresh 1) (hI : InBufNode σ.next I o) (name : String) :
    Draws Γ (makeDataPort σ.next name) (σ.adds (M :: I :: νs)) fun p τ => ∃ b,
      τ = σ.adds ({ M with data := M.data ++ [{ port := p, peer := some b }] } ::
        { I with exits := [(.done, { o with data := o.data ++ [b] })] } :: νs) := by
  have hI' : (σ.adds (M :: I :: νs)).node? i.inBuf = some I := by
    rw [hin]
    exact Sheet.node?_adds_fresh σ _ (k := 1) (by simp)
  refine (draws_makeDataPort_module (Sheet.node?_next_adds ..) hM hi hI' hI name).mono
    fun p τ hτ => ?_
  obtain ⟨b, rfl⟩ := hτ
  refine ⟨b, ?_⟩
  rw [hin, Sheet.set_adds_fresh σ _ (by simp)]
  exact Sheet.set_next_adds ..

/-- A new module gets its exit, with an OutBuf behind what is there. -/
theorem draws_exitNew (hM : M.kind.isBuffer = false) (hi : M.interior = some i)
    (hexits : M.exits = []) : Draws Γ (makeExit σ.next 0 .done) (σ.adds (M :: νs)) fun e τ =>
      ∃ done clock reset go, τ = σ.adds ({ M with
        exits := [(.done, { exit := e, done, outBuf := some (σ.fresh (νs.length + 1)) })] } ::
        (νs ++ [readBuffer σ.next clock reset go done none []])) := by
  refine (draws_makeExit_module (Sheet.node?_next_adds ..) hM hi hexits .done).mono fun e τ hτ => ?_
  obtain ⟨done, clock, reset, go, rfl⟩ := hτ
  refine ⟨done, clock, reset, go, ?_⟩
  rw [Sheet.set_next_adds, Sheet.add_adds, Sheet.next_adds]
  rfl

/-- The exit gets a data bus, and the OutBuf the port that it is repeated by. -/
theorem draws_busNew (hM : M.kind.isBuffer = false) (hexits : M.exits = [(.done, o)])
    (hout : o.outBuf = some (σ.fresh (k + 1))) (hO : νs[k]? = some O) (name : String) :
    Draws Γ (makeDataBus o.exit name) (σ.adds (M :: νs)) fun b τ => ∃ p,
      τ = σ.adds ({ M with exits := [(.done, { o with data := o.data ++ [b] })] } ::
        νs.set k { O with data := O.data ++ [{ port := p, peer := some b }] }) := by
  obtain ⟨hk, -⟩ := List.getElem?_eq_some_iff.mp hO
  have hO' : (σ.adds (M :: νs)).node? (σ.fresh (k + 1)) = some O :=
    (Sheet.node?_adds_fresh σ _ (by simpa using hk)).trans hO
  refine (draws_makeDataBus_module (Sheet.node?_next_adds ..) hM hexits hout hO' name).mono
    fun b τ hτ => ?_
  obtain ⟨p, rfl⟩ := hτ
  refine ⟨p, ?_⟩
  rw [Sheet.set_next_adds, Sheet.set_adds_fresh σ _ (by simpa using hk), List.set_cons_succ]

/-- The exit gets a bus beside the data flow. -/
theorem draws_sideOutput (hM : M.kind.isBuffer = false) (hexits : M.exits = [(.done, o)])
    (hout : o.outBuf = some (σ.fresh (k + 1))) (hO : νs[k]? = some O) (name : String)
    {driver : BusId} (hdriver : ∀ M O, (σ.adds (M :: νs.set k O)).Gives driver) :
    Draws Γ (sideOutput o.exit name driver) (σ.adds (M :: νs)) fun _ τ => ∃ b p,
      τ = σ.adds ({ M with exits := [(.done, { o with data := o.data ++ [b] })] } ::
        νs.set k { O with data := O.data ++
          [{ port := p, driver := some driver, peer := some b }] }) := by
  obtain ⟨hk, -⟩ := List.getElem?_eq_some_iff.mp hO
  refine .bind (draws_busNew hM hexits hout hO name) fun b τ hτ => ?_
  obtain ⟨p, rfl⟩ := hτ
  have hb : ∀ νs, (σ.adds ({ M with exits := [(.done, { o with data := o.data ++ [b] })] } ::
      νs)).Gives b := fun νs => Sheet.gives_adds (k := 0) rfl (by
    simp [Node.buses, Node.outlets, Outlet.buses])
  refine .bind (draws_changeBus (hb _) (fun _ => rfl) fun _ => rfl) fun _ τ hτ => ?_
  subst hτ
  refine .look (sees_bus (hdriver _ _)) fun z _ => ?_
  refine .bind (draws_setBusSignal (hb _) _) fun _ τ hτ => ?_
  subst hτ
  let a : Pad := { port := p, peer := some b }
  have hget : (νs.set k { O with data := O.data ++ [a] })[k]? =
      some { O with data := O.data ++ [a] } := by simp [hk]
  have ha : ({ O with data := O.data ++ [a] } : Node).data[O.data.length]? = some a := by simp
  refine .read (sees_outBufPort ((Sheet.node?_adds_fresh σ _ (k := k + 1) (by simpa using hk)).trans
    hget) (a := a) (Node.data_mem_pads (List.mem_of_getElem? ha)) rfl) ?_
  refine (draws_driveNew (k := k + 1) hget ha (hdriver _ _)).mono fun _ τ hτ => ⟨b, p, ?_⟩
  rw [hτ, List.set_cons_succ, List.set_set]
  simp [a]

theorem draws_markClocked {c : ComponentId} (hν : σ.node? c = some ν) :
    Draws Γ (markClocked c) σ fun _ τ => τ = σ := by
  refine .bind (draws_setConsumesClock hν true) fun _ τ hτ => ?_
  subst hτ
  refine .bind (draws_setConsumesReset hν true) fun _ τ hτ => ?_
  subst hτ
  refine .bind (draws_setConsumesGo hν true) fun _ τ hτ => ?_
  subst hτ
  exact draws_setProducesDone hν true

end

/-! ### Building -/

section

variable {Γ : Ground} {ω : PortId → Option BusId} {σ : Sheet} {β : Type}
  {Q : β → Traced Netlist → Prop} {clock reset go : PortId × BusId} {inputs : List (PortId × BusId)}
  {i : Interior} {ck rs g : PortId}

/-- One more input port of the module is repeated by its InBuf. -/
theorem builds_input {data control : List BusId} {entry : ExitId} {outlet : Option Outlet}
    {νs : List Node} (name : String) {rest : PortId → Step β}
    (hrest : ∀ a, Builds Γ (rest a.1) ω
      (σ.adds (readModule clock reset go (inputs ++ [a]) outlet { inBuf := after σ.next 1 } ::
        .newInBuf σ.next ck rs g ⟨entry, go.2, data ++ [a.2], control, none⟩ :: νs)) Q) :
    Builds Γ (do let p ← makeDataPort σ.next name; rest p) ω
      (σ.adds (readModule clock reset go inputs outlet { inBuf := after σ.next 1 } ::
        .newInBuf σ.next ck rs g ⟨entry, go.2, data, control, none⟩ :: νs)) Q := by
  refine .draw mirrors_makeDataPort (draws_portNew rfl rfl rfl ⟨rfl, rfl, rfl, rfl, rfl, rfl⟩ _)
    fun p τ hτ => ?_
  obtain ⟨b, rfl⟩ := hτ
  simpa [readModule, Node.newInBuf] using hrest (p, b)

/-- The module with the ports for the address and the size. -/
theorem builds_shell (stem : String) {rest : ComponentId → PortId → PortId → Step β}
    (hrest : ∀ clock reset go address size entry ck rs g, Builds Γ (rest σ.next address.1 size.1) ω
      (σ.adds [readModule clock reset go [address, size] none { inBuf := after σ.next 1 },
        .newInBuf σ.next ck rs g ⟨entry, go.2, [address.2, size.2], [clock.2, reset.2], none⟩]) Q) :
    Builds Γ (do
      let m ← newModule .memoryReadPhysical stem 0
      let addressIn ← makeDataPort m "addressIn"
      let sizeIn ← makeDataPort m "sizeIn"
      rest m addressIn sizeIn) ω σ Q := by
  refine .draw mirrors_newModule (draws_newModule (K := []) (ComponentKind.fitsIn_of_none rfl rfl)
    (by simp) stem) fun m τ hτ => ?_
  obtain ⟨rfl, clock, reset, go, ck, rs, g, entry, rfl⟩ := hτ
  change Builds Γ _ ω (σ.adds [readModule clock reset go [] none { inBuf := after σ.next 1 },
    .newInBuf σ.next ck rs g ⟨entry, go.2, [], [clock.2, reset.2], none⟩]) Q
  exact builds_input _ fun address => builds_input _ fun size =>
    hrest clock reset go address size entry ck rs g

/-- The module takes over the ports of the read. -/
theorem builds_takeOverPorts (hbase : ∀ p, Γ.base.portDriver? p = none) (hold : Old Γ ω)
    {c : ComponentId} {r : Component} (hr : Γ.base.components.get? c = some r)
    (hports : ∀ p ∈ r.ports, p.index < Γ.base.ports.size) {a s : PortId} {ps : List PortId}
    (hdata : r.dataPorts = a :: s :: ps) {address size : PortId × BusId} {νs : List Node}
    {o : Outlet} (hI : νs.head? = some (.newInBuf σ.next ck rs g o))
    (hpeers : ∀ b ∈ [address.2, size.2, go.2, clock.2, reset.2], b ∈ o.buses) {rest : Step β}
    (hrest : Builds Γ rest ([(a, address.1), (s, size.1), (r.go, go.1), (r.clock, clock.1),
        (r.reset, reset.1)].foldl handOver ω)
      (σ.adds (readModule clock reset go [address, size] none i :: νs)) Q) :
    Builds Γ (do
      let read ← component c
      let x ← component σ.next
      let addressOf ← dataPort c 0
      let sizeOf ← dataPort c 1
      takeOverPort addressOf address.1
      takeOverPort sizeOf size.1
      takeOverPort read.go x.go
      takeOverPort read.clock x.clock
      takeOverPort read.reset x.reset
      rest) ω (σ.adds (readModule clock reset go [address, size] none i :: νs)) Q := by
  let M := readModule clock reset go [address, size] none i
  have hM : (σ.adds (M :: νs)).node? σ.next = some M := Sheet.node?_next_adds ..
  have hgives : ∀ b ∈ [address.2, size.2, go.2, clock.2, reset.2], (σ.adds (M :: νs)).Gives b := by
    intro b hb
    refine Sheet.gives_adds (k := 1) (ν := .newInBuf σ.next ck rs g o) ?_ ?_
    · rw [List.getElem?_cons_succ, ← List.head?_eq_getElem?, hI]
    · simpa [Node.buses, Node.outlets, Node.newInBuf] using hpeers b hb
  -- Every port of the module may take over any of the read, as often as one likes.
  have hmove : ∀ {ω : PortId → Option BusId} (_ : Old Γ ω) {p : PortId} (_ : p ∈ r.ports)
      (d : PortId × BusId) (_ : ({ port := d.1, peer := some d.2 } : Pad) ∈ M.pads)
      (_ : d.2 ∈ [address.2, size.2, go.2, clock.2, reset.2]) {rest : Step β}
      (_ : Builds Γ rest (handOver ω (p, d.1)) (σ.adds (M :: νs)) Q),
      Builds Γ (do takeOverPort p d.1; rest) ω (σ.adds (M :: νs)) Q := by
    intro ω hω p hp d hd hmem rest hrest
    have hpeer : ∀ b, some d.2 = some b → (σ.adds (M :: νs)).Gives b := by
      rintro b ⟨⟩
      exact hgives _ hmem
    have htake := builds_takeOverPort (ω := ω) hbase (hports p hp) hM hd rfl hpeer (hω p)
    exact htake.rewire fun _ => hrest
  refine .find (finds_component hr) (.look mirrors_component (sees_component hM) fun x hx => ?_)
  rw [hx.go, hx.clock, hx.reset]
  refine .find (finds_dataPort hr (by rw [hdata]; rfl)) ?_
  refine .find (finds_dataPort hr (by rw [hdata]; rfl)) ?_
  have hports' : a ∈ r.ports ∧ s ∈ r.ports :=
    ⟨Component.mem_ports_of_data (by simp [hdata]), Component.mem_ports_of_data (by simp [hdata])⟩
  refine hmove hold hports'.1 address (by simp [M, readModule, Node.pads]) (by simp) ?_
  refine hmove (hold.handOver _) hports'.2 size (by simp [M, readModule, Node.pads]) (by simp) ?_
  refine hmove ((hold.handOver _).handOver _) (by simp) go (by simp [M, readModule, Node.pads])
    (by simp) ?_
  refine hmove (((hold.handOver _).handOver _).handOver _) (by simp) clock
    (by simp [M, readModule, Node.pads]) (by simp) ?_
  exact hmove ((((hold.handOver _).handOver _).handOver _).handOver _) (by simp) reset
    (by simp [M, readModule, Node.pads]) (by simp) hrest

/-- The module gets its exit, which takes over the buses of the read. -/
theorem builds_takeOverBuses (hbase : ∀ p, Γ.base.portDriver? p = none) {c : ComponentId}
    {r : Component} (hr : Γ.base.components.get? c = some r) {e : ExitId} (he : r.mainExit? = some e)
    {y : Exit} (hy : Γ.base.exits.get? e = some y) {result : BusId} (hresult : y.data.head? = some result)
    (hbuses : ∀ b ∈ y.buses, b.index < Γ.base.buses.size) {I : Node} (latency : Latency)
    {rest : ExitId → BusId → Step β}
    (hrest : ∀ e done dataOut ck rs g q, Builds Γ (rest e dataOut)
      (redirect (redirect ω (result, dataOut)) (y.done, done))
      (σ.adds [readModule clock reset go inputs (some ⟨e, done, [dataOut], [], some (after σ.next 2)⟩) i,
        I, readBuffer σ.next ck rs g done none [{ port := q, peer := some dataOut }]]) Q) :
    Builds Γ (do
      let exit ← makeExit σ.next 0 .done
      changeExit exit fun e => { e with latency }
      let dataOut ← makeDataBus exit "dataOut"
      let result ← resultBus c
      match (← bus result).signal with
      | none => pure ()
      | some signal => setBusSignal dataOut signal
      takeOverSinks result dataOut
      takeOverSinks (← doneBus c) (← doneBus σ.next)
      rest exit dataOut) ω (σ.adds [readModule clock reset go inputs none i, I]) Q := by
  refine .draw mirrors_makeExit (draws_exitNew rfl rfl rfl) fun e τ hτ => ?_
  obtain ⟨done, ck, rs, g, hτ⟩ := hτ
  let o : Outlet := { exit := e, done, outBuf := some (after σ.next 2) }
  obtain rfl : τ = σ.adds [readModule clock reset go inputs (some o) i, I,
    readBuffer σ.next ck rs g done none []] := hτ
  refine .draw mirrors_changeExit (draws_changeExit (Sheet.node?_next_adds ..) (o := o)
    (by simp [Node.outlets, readModule]) fun _ => rfl) fun _ τ hτ => ?_
  subst hτ
  refine .draw mirrors_makeDataBus (draws_busNew (o := o) (k := 1) rfl rfl rfl rfl _)
    fun dataOut τ hτ => ?_
  obtain ⟨q, hτ⟩ := hτ
  let o' : Outlet := ⟨e, done, [dataOut], [], some (after σ.next 2)⟩
  let M := readModule clock reset go inputs (some o') i
  obtain rfl : τ = σ.adds [M, I,
    readBuffer σ.next ck rs g done none [{ port := q, peer := some dataOut }]] := hτ
  have hgives : ∀ b ∈ o'.buses, ∀ νs, (σ.adds (M :: νs)).Gives b := fun b hb νs =>
    Sheet.gives_adds (k := 0) rfl (by simpa [M, readModule, Node.buses, Node.outlets] using hb)
  refine .find (finds_resultBus hr he hy hresult) ?_
  have hold : result.index < Γ.base.buses.size :=
    hbuses result (by simp [Exit.buses, List.mem_of_head? hresult])
  refine builds_bus (.inl hold) fun z => ?_
  have hmove : Builds Γ (do
      takeOverSinks result dataOut
      takeOverSinks (← doneBus c) (← doneBus σ.next)
      rest e dataOut) ω (σ.adds [M, I,
        readBuffer σ.next ck rs g done none [{ port := q, peer := some dataOut }]]) Q := by
    refine .rewire (builds_takeOverSinks hbase hold (hgives dataOut (by simp [o', Outlet.buses]) _))
      fun _ => ?_
    refine .find (finds_doneBus hr he hy) ?_
    refine .read mirrors_doneBus (sees_doneBus (Sheet.node?_next_adds ..) (o := o') rfl) ?_
    exact .rewire (builds_takeOverSinks hbase (hbuses y.done (by simp [Exit.buses]))
      (hgives done (by simp [o', Outlet.buses]) _)) fun _ => hrest e done dataOut ck rs g q
  cases z.signal with
  | none => exact hmove
  | some signal =>
      refine .draw mirrors_setBusSignal (draws_setBusSignal (hgives dataOut
        (by simp [o', Outlet.buses]) _) signal) fun _ τ hτ => ?_
      subst hτ
      exact hmove

/-- Two inputs of the module stand beside the data flow. -/
theorem builds_sideInputs {data control : List BusId} {entry : ExitId} {o : Outlet} {O : Node}
    {rest : Step β}
    (hrest : ∀ ready word, Builds Γ rest ω
      (σ.adds [readModule clock reset go (inputs ++ [ready, word]) (some o)
          { inBuf := after σ.next 1 },
        .newInBuf σ.next ck rs g ⟨entry, go.2, data ++ [ready.2, word.2], control, none⟩, O]) Q) :
    Builds Γ (do
      let sideReady ← makeDataPort σ.next "sideDataReady"
      let sideData ← makeDataPort σ.next "sideDataIn"
      changePort sideReady fun p => { p with sideband := true }
      changePort sideData fun p => { p with sideband := true }
      setPortSignal sideReady .bit
      rest) ω (σ.adds [readModule clock reset go inputs (some o) { inBuf := after σ.next 1 },
        .newInBuf σ.next ck rs g ⟨entry, go.2, data, control, none⟩, O]) Q := by
  refine builds_input _ fun ready => builds_input _ fun word => ?_
  rw [List.append_assoc, List.append_assoc]
  let M := readModule clock reset go (inputs ++ [ready, word]) (some o) { inBuf := after σ.next 1 }
  have hM : ∀ νs, (σ.adds (M :: νs)).node? σ.next = some M := fun _ => Sheet.node?_next_adds ..
  have hpads : ∀ d ∈ [ready, word], ({ port := d.1, peer := some d.2 } : Pad) ∈ M.pads :=
    fun d hd => Node.data_mem_pads (List.mem_map_of_mem (List.mem_append_right _ hd))
  have hready := hpads ready (by simp)
  have hword := hpads word (by simp)
  refine .draw (mirrors_changePort fun _ _ => rfl)
    (draws_changePort (hM _) hready (fun _ => rfl) fun _ => rfl) fun _ τ hτ => ?_
  subst hτ
  refine .draw (mirrors_changePort fun _ _ => rfl)
    (draws_changePort (hM _) hword (fun _ => rfl) fun _ => rfl) fun _ τ hτ => ?_
  subst hτ
  refine .draw mirrors_setPortSignal (draws_setPortSignal (hM _) hready _) fun _ τ hτ => ?_
  subst hτ
  exact hrest ready word

/-- One more bus leaves the module beside the data flow. -/
theorem builds_sideOutput {data control outs : List BusId} {entry e : ExitId} {done : BusId}
    {ck' rs' g' : PortId} {as : List Pad} {driver : BusId} (hdriver : driver ∈ go.2 :: data)
    (name : String) {rest : Step β}
    (hrest : ∀ b q, Builds Γ rest ω
      (σ.adds [readModule clock reset go inputs
          (some ⟨e, done, outs ++ [b], [], some (after σ.next 2)⟩) i,
        .newInBuf σ.next ck rs g ⟨entry, go.2, data, control, none⟩,
        readBuffer σ.next ck' rs' g' done none
          (as ++ [{ port := q, driver := some driver, peer := some b }])]) Q) :
    Builds Γ (do sideOutput e name driver; rest) ω
      (σ.adds [readModule clock reset go inputs
          (some ⟨e, done, outs, [], some (after σ.next 2)⟩) i,
        .newInBuf σ.next ck rs g ⟨entry, go.2, data, control, none⟩,
        readBuffer σ.next ck' rs' g' done none as]) Q := by
  let o : Outlet := ⟨e, done, outs, [], some (after σ.next 2)⟩
  have hgives : ∀ M νs, (σ.adds (M ::
      .newInBuf σ.next ck rs g ⟨entry, go.2, data, control, none⟩ :: νs)).Gives driver := by
    intro M νs
    refine Sheet.gives_adds (k := 1) rfl ?_
    rw [InBufNode.buses ⟨rfl, rfl, rfl, rfl, rfl, rfl⟩]
    exact List.mem_append_left _ hdriver
  refine .draw mirrors_sideOutput (draws_sideOutput (o := o) (k := 1) rfl rfl rfl rfl name
    fun _ _ => hgives _ _) fun _ τ hτ => ?_
  obtain ⟨b, q, rfl⟩ := hτ
  exact hrest b q

/-- The module is connected to the memory beside the data flow. -/
theorem builds_sidebands {address size : PortId × BusId} {entry e : ExitId} {done dataOut : BusId}
    {control : List BusId} {ck' rs' g' : PortId} {a : Pad} {rest : BusId → ComponentId → Step β}
    (hrest : ∀ ready word sideAddress sideEnable sideSize q₁ q₂ q₃, Builds Γ (rest go.2 (σ.fresh 2)) ω
      (σ.adds [readModule clock reset go [address, size, ready, word] (some ⟨e, done,
          [dataOut, sideAddress, sideEnable, sideSize], [], some (after σ.next 2)⟩)
          { inBuf := after σ.next 1 },
        .newInBuf σ.next ck rs g
          ⟨entry, go.2, [address.2, size.2, ready.2, word.2], control, none⟩,
        readBuffer σ.next ck' rs' g' done none [a,
          { port := q₁, driver := some address.2, peer := some sideAddress },
          { port := q₂, driver := some go.2, peer := some sideEnable },
          { port := q₃, driver := some size.2, peer := some sideSize }]]) Q) :
    Builds Γ (do
      let sideReady ← makeDataPort σ.next "sideDataReady"
      let sideData ← makeDataPort σ.next "sideDataIn"
      changePort sideReady fun p => { p with sideband := true }
      changePort sideData fun p => { p with sideband := true }
      setPortSignal sideReady .bit
      let go ← goBus σ.next
      let outBuf ← mainOutBuf σ.next
      sideOutput e "sideAddress" (← dataBus σ.next 0)
      sideOutput e "sideEnable" go
      sideOutput e "sideSize" (← dataBus σ.next 1)
      rest go outBuf) ω (σ.adds [readModule clock reset go [address, size]
        (some ⟨e, done, [dataOut], [], some (after σ.next 2)⟩) { inBuf := after σ.next 1 },
      .newInBuf σ.next ck rs g ⟨entry, go.2, [address.2, size.2], control, none⟩,
      readBuffer σ.next ck' rs' g' done none [a]]) Q := by
  refine builds_sideInputs fun ready word => ?_
  let inputs := [address, size, ready, word]
  let M := fun data => readModule clock reset go inputs
    (some ⟨e, done, data, [], some (after σ.next 2)⟩) { inBuf := after σ.next 1 }
  have hM : ∀ data νs, (σ.adds (M data :: νs)).node? σ.next = some (M data) :=
    fun _ _ => Sheet.node?_next_adds ..
  have hpad : ∀ (k : Nat) (d : PortId × BusId), inputs[k]? = some d → ∀ outs,
      (M outs).data[k]? = some ({ port := d.1, peer := some d.2 } : Pad) := by
    intro k d hd outs
    simp [M, readModule, hd]
  refine .read mirrors_goBus (sees_goBus (hM ..) rfl
    (Sheet.node?_adds_fresh σ _ (k := 1) (by simp)) rfl) ?_
  refine .read mirrors_mainOutBuf (sees_mainOutBuf (hM ..) rfl rfl) ?_
  refine .read mirrors_dataBus (sees_dataBus (hM ..) (hpad 0 address rfl _) rfl) ?_
  refine builds_sideOutput (by simp) _ fun sideAddress q₁ => ?_
  refine builds_sideOutput (by simp) _ fun sideEnable q₂ => ?_
  refine .read mirrors_dataBus (sees_dataBus (hM ..) (hpad 1 size rfl _) rfl) ?_
  refine builds_sideOutput (by simp) _ fun sideSize q₃ => ?_
  exact hrest ready word sideAddress sideEnable sideSize q₁ q₂ q₃

/-- The word of the memory leaves the module through a cast. -/
theorem builds_cast {M I O : Node} (hi : M.interior = some i) {p a : Pad}
    (hp : M.data[3]? = some p) {word dataOut : BusId} (hword : p.peer = some word)
    (hgives : ∀ M νs, (σ.adds (M :: I :: νs)).Gives word) (ha : O.data[0]? = some a)
    (hout : a.peer = some dataOut) (hdata : dataOut ∈ M.buses) {rest : Step β}
    (hrest : ∀ (signal : Signal) C cast, C.Shows {
        kind := .cast signal.width signal.signed, owner := some σ.next
        inputs := [some word], results := [cast] } →
      Builds Γ rest ω (σ.adds [{ M with
          interior := some { i with children := i.children ++ [σ.fresh 3] } }, I,
        { O with data := O.data.set 0 { a with driver := some cast } }, C]) Q) :
    Builds Γ (do
      let cast ← newCast ((← bus dataOut).signal.getD .bit)
      addComponent σ.next cast
      setBus (← dataPort cast 0) (some (← dataBus σ.next 3))
      setBus (← outBufPort dataOut) (some (← resultBus cast))
      rest) ω (σ.adds [M, I, O]) Q := by
  have hO : ∀ M C, (σ.adds [M, I, O, C]).node? (σ.fresh 2) = some O := fun M C =>
    Sheet.node?_adds_fresh σ _ (k := 2) (by simp)
  have hC : ∀ M C, (σ.adds [M, I, O, C]).node? (σ.fresh 3) = some C := fun M C =>
    Sheet.node?_adds_fresh σ _ (k := 3) (by simp)
  refine builds_bus (.inr (Sheet.gives_adds (k := 0) rfl hdata)) fun z => ?_
  refine .draw mirrors_newPrimitive (draws_newPrimitive (K := [])
    (ComponentKind.fitsIn_of_none rfl rfl) (by simp) rfl "cast" 1 _) fun c τ hτ => ?_
  obtain ⟨rfl, C, cast, hshows, rfl⟩ := hτ
  simp only [Sheet.add_adds, Sheet.next_adds, List.cons_append, List.nil_append, List.length_cons,
    List.length_nil, Nat.zero_add, Nat.reduceAdd]
  refine .draw mirrors_addComponent (draws_adoptNew (k := 2) [I, O, C] hi rfl hshows.owner)
    fun _ τ hτ => ?_
  subst hτ
  let M' : Node := { M with interior := some { i with children := i.children ++ [σ.fresh 3] } }
  have hshows := hshows.withOwner σ.next
  have hdata₀ : C.data.map Pad.driver = [none] := hshows.data
  obtain ⟨d, hd, -⟩ := List.map_eq_singleton_iff.mp hdata₀
  refine .read mirrors_dataPort (sees_dataPort (hC ..) (k := 0) (a := d) (by simp [hd])) ?_
  refine .read mirrors_dataBus (sees_dataBus (ν := M') (Sheet.node?_next_adds ..) hp hword) ?_
  refine .draw mirrors_setBus (draws_driveNew (k := 3) (j := 0) rfl (a := d) (by simp [hd])
    (hgives _ _)) fun _ τ hτ => ?_
  subst hτ
  have hshows := hshows.withInput (k := 0) d (some word)
  refine .read mirrors_outBufPort (sees_outBufPort (hO ..)
    (Node.data_mem_pads (List.mem_of_getElem? ha)) hout) ?_
  refine .read mirrors_resultBus (sees_resultOf (hC ..) hshows rfl) ?_
  refine .draw mirrors_setBus (draws_driveNew (k := 2) (j := 0) rfl ha
    (Sheet.gives_adds (k := 3) rfl (hshows.mem_buses (by simp)))) fun _ τ hτ => ?_
  subst hτ
  exact hrest _ _ cast hshows

/-- At the end the done signal of the module starts its OutBuf. -/
theorem builds_done {M I O C : Node} (hi : M.interior = some i)
    (hin : i.inBuf = σ.fresh 1) {o : Outlet} (hI : InBufNode σ.next I o) {p : Pad}
    (hp : M.data[2]? = some p) {ready : BusId} (hpeer : p.peer = some ready) (hready : ready ∈ o.data)
    {clock reset : BusId} (hcontrol : o.control = [clock, reset]) (latency : Latency) {rest : Step β}
    (hrest : ∀ v νs, v.go = o.done → v.ready = ready → v.clock = clock → v.reset = reset →
      List.Forall₂ Piece.Of (cacheParts σ.next latency v) νs →
      Builds Γ rest ω (σ.adds ({ M with interior := some (cachedInterior σ.next latency i) } ::
        I :: { O with go := { O.go with driver := some v.done } } :: C :: νs)) Q) :
    Builds Γ (do
      let done ← doneCache σ.next latency o.done (← dataBus σ.next 2)
      setBus (← component (σ.fresh 2)).go (some done)
      markClocked σ.next
      rest) ω (σ.adds [M, I, O, C]) Q := by
  refine .read mirrors_dataBus (sees_dataBus (Sheet.node?_next_adds ..) hp hpeer) ?_
  refine .draw mirrors_doneCache (draws_doneCache hi hin hI latency hready ⟨_, _, hcontrol⟩)
    fun done τ hτ => ?_
  obtain ⟨v, νs, hgo, hready, hvc, rfl, hparts, rfl⟩ := hτ
  obtain ⟨hclock, hreset⟩ : v.clock = clock ∧ v.reset = reset := by
    rw [hcontrol] at hvc
    simpa [eq_comm] using hvc
  let M' : Node := { M with interior := some (cachedInterior σ.next latency i) }
  let O' : Node := { O with go := { O.go with driver := some v.done } }
  have hO : (σ.adds (M' :: I :: O :: C :: νs)).node? (σ.fresh 2) = some O :=
    Sheet.node?_adds_fresh σ _ (k := 2) (by simp)
  have hdone : (σ.adds (M' :: I :: O :: C :: νs)).Gives v.done := by
    obtain ⟨request, ps, heq⟩ := cacheParts_eq_cons σ.next latency v
    obtain ⟨A, νs', hA, -, rfl⟩ := List.forall₂_cons_left_iff.mp (heq ▸ hparts)
    exact Sheet.gives_adds (k := 4) rfl (Node.Shows.mem_buses hA (by simp))
  refine .look mirrors_component (sees_component hO) fun x hx => ?_
  rw [hx.go]
  refine .draw mirrors_setBus (draws_setGo hO (b := some v.done) (by simpa using hdone))
    fun _ τ hτ => ?_
  rw [Sheet.set_adds_fresh σ _ (by simp)] at hτ
  obtain rfl : τ = σ.adds (M' :: I :: O' :: C :: νs) := hτ
  refine .draw mirrors_markClocked (draws_markClocked (Sheet.node?_next_adds ..)) fun _ τ hτ => ?_
  subst hτ
  exact hrest v νs hgo hready hclock hreset hparts

/-- The netlist in which the module stands for the read. -/
structure Carried (Γ : Ground) (ω : PortId → Option BusId) (σ : Sheet) (c : ComponentId) (r : Component)
    (y : Exit) (result : BusId) (memory : UInt32) (n : Netlist) where
  lines : ReadLines
  ports : ReadPorts
  signal : Signal
  parts : List Node
  /-- The netlist before the read knows the module. -/
  drawn : Netlist
  shows : List.Forall₂ Piece.Of (lines.parts σ.next signal y.latency) parts
  lies : Lies Γ (takenOver ω r y result ports lines)
    (σ.adds (lines.module ports σ.next y.latency :: parts)) drawn
  eq : n = { drawn with components := drawn.components.modify c fun x =>
    { x with kind := .memoryRead memory (some σ.next) } }

theorem builds_physical (hbase : ∀ p, Γ.base.portDriver? p = none) (hold : Old Γ ω) {c : ComponentId}
    {r : Component} (hr : Γ.base.components.get? c = some r)
    (hports : ∀ p ∈ r.ports, p.index < Γ.base.ports.size) {a s : PortId} {ps : List PortId}
    (hdata : r.dataPorts = a :: s :: ps) {e : ExitId} (he : r.mainExit? = some e) {y : Exit}
    (hy : Γ.base.exits.get? e = some y) {result : BusId} (hresult : y.data.head? = some result)
    (hbuses : ∀ b ∈ y.buses, b.index < Γ.base.buses.size) (memory : UInt32) :
    Builds Γ (buildPhysical c memory) ω σ fun m t => m = σ.next ∧
      Nonempty (Carried Γ ω σ c r y result memory t.state) := by
  refine .find (finds_mainExit hr he) (.find (finds_exit hy) (.find (finds_component hr) ?_))
  refine builds_shell _ fun clock reset go address size entry ck rs g => ?_
  refine builds_takeOverPorts hbase hold hr hports hdata rfl
    (by simp [Outlet.buses]) ?_
  refine builds_takeOverBuses hbase hr he hy hresult hbuses y.latency
    fun e done dataOut ck' rs' g' q => ?_
  refine builds_sidebands fun ready word sideAddress sideEnable sideSize q₁ q₂ q₃ => ?_
  let o : Outlet :=
    ⟨entry, go.2, [address.2, size.2, ready.2, word.2], [clock.2, reset.2], none⟩
  have hI : InBufNode σ.next (.newInBuf σ.next ck rs g o) o := ⟨rfl, rfl, rfl, rfl, rfl, rfl⟩
  refine builds_cast (p := { port := word.1, peer := some word.2 })
    (a := { port := q, peer := some dataOut }) rfl rfl rfl (fun M νs => Sheet.gives_adds (k := 1) rfl
      (by simp [hI.buses, o, Outlet.buses])) rfl rfl
    (by simp [readModule, Node.buses, Node.outlets, Outlet.buses]) fun signal C cast hC => ?_
  refine builds_done (p := { port := ready.1, peer := some ready.2 }) rfl rfl hI rfl rfl
    (by simp [o]) rfl y.latency fun v νs hgo hready hclock hreset hparts => ?_
  obtain ⟨vgo, vready, vclock, vreset, fire, held, clear, request⟩ := v
  obtain ⟨rfl, rfl, rfl, rfl⟩ : vgo = go.2 ∧ vready = ready.2 ∧ vclock = clock.2 ∧ vreset = reset.2 :=
    ⟨hgo, hready, hclock, hreset⟩
  let v : CacheLines := ⟨go.2, ready.2, clock.2, reset.2, fire, held, clear, request⟩
  let lines : ReadLines := ⟨v, entry, e, address.2, size.2, word.2, done, dataOut, sideAddress,
    sideEnable, sideSize, cast⟩
  let inputs : ReadPorts := ⟨clock.1, reset.1, go.1, address.1, size.1, ready.1, word.1⟩
  let O := readBuffer σ.next ck' rs' g' done (some v.done) [
    { port := q, driver := some cast, peer := some dataOut },
    { port := q₁, driver := some address.2, peer := some sideAddress },
    { port := q₂, driver := some go.2, peer := some sideEnable },
    { port := q₃, driver := some size.2, peer := some sideSize }]
  have hO : O.OutBuf σ.next done (some v.done) _ := ⟨rfl, rfl, rfl, rfl, rfl, rfl, rfl⟩
  have hshows : List.Forall₂ Piece.Of (lines.parts σ.next signal y.latency)
      (.newInBuf σ.next ck rs g o :: O :: C :: νs) := .cons hI (.cons hO (.cons hC hparts))
  intro t ht
  have hlies : Lies Γ (takenOver ω r y result inputs lines) (σ.adds
      (lines.module inputs σ.next y.latency :: .newInBuf σ.next ck rs g o :: O :: C :: νs)) t.state := by
    have hzip : (readInputs r).zip inputs.inputs = [(a, address.1), (s, size.1), (r.go, go.1),
        (r.clock, clock.1), (r.reset, reset.1)] := by
      rw [readInputs, hdata]
      rfl
    rw [takenOver, hzip]
    exact ht
  -- The rest is said of the read, which has not been drawn.
  have hread := ht.component hr
  obtain ⟨x, hx⟩ : ∃ x, t.state.components.get? σ.next = some x ∧ σ.next ≠ c := by
    obtain ⟨m, hover, hm, hsheet⟩ := hlies
    have hM : (Γ.sheet m).node? σ.next = some _ := hsheet ▸ Sheet.node?_next_adds ..
    obtain ⟨x, hx, -⟩ := drawn hM
    refine ⟨x, by rw [hover.components, hx], fun heq => ?_⟩
    exact absurd (Arena.lt_of_get? hr) (Nat.not_lt_of_le (heq ▸ le_of_node? hM))
  rw [wp_bind, wp_changeComponent (Arena.lt_of_get? hread), wp_bind]
  refine (wp_component (x := x) ?_).mpr ⟨rfl, ⟨{
    lines, ports := inputs, signal, parts := _, drawn := t.state, shows := hshows, lies := hlies
    eq := rfl }⟩⟩
  rw [state_moved, Arena.get?_modify_of_ne _ (Ne.symm hx.2), hx.1]

end

end DataflowSynth.Memory
