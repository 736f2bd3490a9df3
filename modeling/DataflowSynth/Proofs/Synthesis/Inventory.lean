/-
The resources of an actor, one by one.

A design gets an interface for each port, in the order of the ports, a memory for each buffer and a
register for each state variable.  Where these were made is of no interest here, so the netlist, the
pins and the clocks are left out of sight.
-/
import DataflowSynth.Proofs.Design.Frame
import DataflowSynth.Proofs.Design.Handshake
import DataflowSynth.Proofs.OrderedMap
import DataflowSynth.Proofs.Synthesis.Resources

namespace DataflowSynth

theorem getElem?_concat_cases {α : Type} {xs : List α} {x y : α} {i : Nat}
    (h : (xs ++ [x])[i]? = some y) : xs[i]? = some y ∨ i = xs.length ∧ y = x := by
  rw [List.getElem?_append] at h
  split at h
  · exact .inl h
  · next hi =>
    obtain ⟨hi', rfl⟩ := List.getElem?_eq_some_iff.mp h
    rw [List.length_singleton] at hi'
    exact .inr ⟨by omega, List.getElem_singleton _⟩

namespace Synthesis

open Build

variable {s : Traced Design} {ports : List (Direction × Actor.Port)} {fifos : Interfaces} {d : Design}

/-! ### What is in stock -/

/-- What the interface of a port is asked for by. -/
def portSpec (direction : Direction) (p : Actor.Port) : FifoSpec where
  name := p.name
  direction := direction
  width := p.type.width
  protocol := protocolOf p

/-- The bytes that the buffer of a port takes, if it has one. -/
def bufferBytes? (p : Actor.Port) : Option Nat :=
  p.buffer.map fun size => size.toNat * ((p.type.width.toNat + 7) / 8)

/-- What a design has besides its netlist, its pins and its clocks. -/
def stock (d : Design) : Arena .fifo Fifo × List Design.Memory × UInt32 ×
    OrderedMap String Design.Register × Arena .task Design.Task :=
  (d.fifos, d.memories, d.nextMemory, d.registers, d.tasks)

theorem remote_stock : Design.Remote stock :=
  ⟨fun _ _ => rfl, fun _ _ => rfl, fun _ _ => rfl, fun _ _ => rfl, fun _ _ => rfl⟩

/-- The design has what the ports need, and nothing else. -/
structure Stocked (ports : List (Direction × Actor.Port)) (fifos : Interfaces) (d : Design) :
    Prop where
  specs : d.fifos.values.map Fifo.spec = ports.map fun e => portSpec e.1 e.2
  handles : ∀ i e, ports[i]? = some e → fifos.find? e.2.name = some ⟨i⟩
  ids : d.memories.map (·.id.toNat) = List.range' 1 d.memories.length
  sizes : d.memories.map Design.Memory.size = ports.filterMap (bufferBytes? ·.2)
  next : d.nextMemory.toNat = d.memories.length + 1
  registers : d.registers = ∅
  tasks : d.tasks = ∅

theorem Stocked.congr {d' : Design} (h : Stocked ports fifos d) (heq : stock d' = stock d) :
    Stocked ports fifos d' := by
  simp only [stock, Prod.mk.injEq] at heq
  obtain ⟨hfifos, hmemories, hnext, hregisters, htasks⟩ := heq
  exact ⟨hfifos ▸ h.specs, h.handles, hmemories ▸ h.ids, hmemories ▸ h.sizes, hnext ▸ hmemories ▸ h.next,
    hregisters.trans h.registers, htasks.trans h.tasks⟩

theorem stocked_bare (h : Bare d) : Stocked [] ∅ d := by
  refine ⟨?_, by simp, ?_, ?_, ?_, h.registers, h.tasks⟩
  · rw [h.fifos]
    rfl
  · rw [h.memories]
    rfl
  · rw [h.memories]
    rfl
  · rw [h.next, h.memories]
    rfl

/-! ### Interfaces -/

theorem wp_getFifo_new {spec : FifoSpec} (hnew : s.state.fifoNamed? spec.name spec.direction = none) :
    wp (Design.getFifo spec) (fun h t => h = s.state.fifos.next ∧ ∃ d pins, stock d = stock s.state ∧
      t.state = { d with fifos := d.fifos.push { spec, pins } }) (fun _ _ => True) s := by
  simp only [Design.getFifo]
  split
  · trivial
  · simp only [wp_bind, wp_look, hnew]
    refine (Design.keeps_addFifoPins remote_stock spec).wp_anyway fun pins t ht => ?_
    simp only [wp_change, wp_log, wp_pure]
    exact ⟨congrArg (fun x => x.1.next) ht, t.state, pins, ht, rfl⟩

/-- Where an interface of another name is found, no further one is. -/
theorem Stocked.getFifo (h : Stocked ports fifos d) {direction : Direction} {p : Actor.Port}
    (hnew : ∀ e ∈ ports, e.2.name ≠ p.name) : d.fifoNamed? p.name direction = none := by
  refine Design.fifoNamed?_eq_none (fun f hf heq => ?_) direction
  have hspec : f.spec ∈ ports.map fun e => portSpec e.1 e.2 := h.specs ▸ List.mem_map_of_mem hf
  obtain ⟨e, he, hspec⟩ := List.mem_map.mp hspec
  exact hnew e he (by rw [← heq, ← hspec]; rfl)

/-! ### Memories -/

theorem wp_newMemory_next (name : String) (width : UInt32) (initial : List LogicalValue) :
    wp (Design.newMemory name width initial) (fun _ t => s.state.nextMemory.toNat + 1 < UInt32.size ∧
      t.state = { s.state with
        nextMemory := s.state.nextMemory + 1
        memories := s.state.memories ++ [{ id := s.state.nextMemory, name, width, initial }] })
      (fun _ _ => True) s := by
  simp only [Design.newMemory, Design.nextMemoryId, wp_bind, wp_look]
  split
  · next hroom =>
    simp only [Design.addMemory, wp_bind, wp_change, wp_pure]
    split
    · trivial
    · simp only [wp_bind, wp_look]
      split
      · trivial
      · exact ⟨hroom, rfl⟩
  · trivial

theorem sizeList_replicate (v : LogicalValue) (count : Nat) :
    LogicalValue.size.sizeList (List.replicate count v) = count * v.size := by
  induction count with
  | zero => simp [LogicalValue.size.sizeList]
  | succ count ih =>
      rw [List.replicate_succ, LogicalValue.size.sizeList, ih, Nat.succ_mul, Nat.add_comm]

theorem sizeList_emptyBuffer (size width : UInt32) :
    LogicalValue.size.sizeList (emptyBuffer size width) = size.toNat * ((width.toNat + 7) / 8) := by
  rw [emptyBuffer, sizeList_replicate, LogicalValue.size, List.length_replicate]

/-! ### Ports -/

/-- One more port has got its interface. -/
theorem Stocked.interface (h : Stocked ports fifos d) {direction : Direction} {p : Actor.Port}
    (hnew : ∀ e ∈ ports, e.2.name ≠ p.name) (pins : FifoPins) {memories : List Design.Memory}
    {next : UInt32} (hids : memories.map (·.id.toNat) = List.range' 1 memories.length)
    (hsizes : memories.map Design.Memory.size =
      ports.filterMap (bufferBytes? ·.2) ++ (bufferBytes? p).toList)
    (hnext : next.toNat = memories.length + 1) :
    Stocked (ports ++ [(direction, p)]) (fifos.put p.name d.fifos.next)
      { d with fifos := d.fifos.push ⟨portSpec direction p, pins⟩, memories, nextMemory := next } := by
  have hlength : d.fifos.size = ports.length := by
    have hlength := congrArg List.length h.specs
    simpa [Arena.values, Arena.size] using hlength
  refine ⟨by simp [Arena.values_push, h.specs], fun i e he => ?_, hids, ?_, hnext, h.registers, h.tasks⟩
  · rcases getElem?_concat_cases he with he | ⟨rfl, rfl⟩
    · rw [OrderedMap.find?_put_of_ne _ (hnew e (List.mem_of_getElem? he)), h.handles i e he]
    · rw [OrderedMap.find?_put_self, ← hlength]
      rfl
  · rw [hsizes, List.filterMap_append]
    cases hp : bufferBytes? p <;> simp [hp]

theorem wp_addPort_stocked (h : Stocked ports fifos s.state) {p : Actor.Port}
    (hnew : ∀ e ∈ ports, e.2.name ≠ p.name) (direction : Direction) :
    wp (addPort direction fifos p)
      (fun fifos t => Stocked (ports ++ [(direction, p)]) fifos t.state) (fun _ _ => True) s := by
  simp only [addPort, wp_bind]
  refine wp_mono (wp_getFifo_new (h.getFifo hnew)) ?_ fun _ _ h => h
  rintro handle t ⟨hh, d, pins, hstock, ht⟩
  have hd : Stocked ports fifos d := h.congr hstock
  have hnext : handle = d.fifos.next := hh.trans (congrArg (fun x => x.1.next) hstock).symm
  cases hbuffer : p.buffer with
  | none =>
      simp only [wp_pure]
      rw [ht, hnext]
      refine hd.interface hnew pins hd.ids ?_ hd.next
      simp [bufferBytes?, hbuffer, hd.sizes]
  | some size =>
      simp only [wp_bind, wp_discard]
      refine wp_mono (wp_newMemory_next _ _ _) ?_ fun _ _ h => h
      rintro _ u ⟨hroom, hu⟩
      rw [wp_pure, hu, hnext]
      rw [ht] at hroom ⊢
      refine hd.interface hnew pins ?_ ?_ ?_
      · simp [hd.ids, hd.next, List.range'_concat, Nat.add_comm]
      · simp [hd.sizes, bufferBytes?, hbuffer, Design.Memory.size, sizeList_emptyBuffer]
      · have hsucc : (d.nextMemory + 1).toNat = d.nextMemory.toNat + 1 := by
          rw [UInt32.toNat_add]
          exact Nat.mod_eq_of_lt hroom
        simp [hsucc, hd.next]

theorem wp_addPorts_stocked (direction : Direction) {ps : List Actor.Port}
    (h : Stocked ports fifos s.state)
    (hnodup : ((ports.map Prod.snd ++ ps).map Actor.Port.name).Nodup) :
    wp (ps.foldlM (addPort direction) fifos)
      (fun fifos t => Stocked (ports ++ ps.map fun p => (direction, p)) fifos t.state)
      (fun _ _ => True) s := by
  induction ps generalizing ports fifos s with
  | nil => simpa using h
  | cons p ps ih =>
      have hsplit : ports ++ (p :: ps).map (fun p => (direction, p)) =
          (ports ++ [(direction, p)]) ++ ps.map fun p => (direction, p) := by simp
      rw [hsplit, List.foldlM_cons, wp_bind]
      refine wp_mono (wp_addPort_stocked h (name_ne_of_nodup hnodup) direction)
        (fun fifos t ht => ?_) fun _ _ h => h
      exact ih ht (by simpa using hnodup)

/-! ### Registers -/

/-- There is one register for each name of a variable. -/
structure Registered (vs : List Variable) (rs : OrderedMap String Design.Register) : Prop where
  keys : rs.values.map Design.Register.name = rs.keys
  nodup : rs.keys.Nodup
  mem_iff : ∀ name, name ∈ rs.keys ↔ name ∈ vs.map Variable.name

theorem Registered.put {vs : List Variable} {rs : OrderedMap String Design.Register}
    (h : Registered vs rs) (r : Design.Register) {v : Variable} (hname : r.name = v.name) :
    Registered (vs ++ [v]) (rs.put r.name r) := by
  refine ⟨?_, ?_, fun name => ?_⟩
  · have hfilter : ((rs.entries.filter fun e => e.1 ≠ r.name).map Prod.snd).map Design.Register.name =
        (rs.entries.filter fun e => e.1 ≠ r.name).map Prod.fst := by
      have hkeys : ∀ e ∈ rs.entries, e.2.name = e.1 := by
        have hmaps := h.keys
        simp only [OrderedMap.values, OrderedMap.keys, List.map_map] at hmaps
        exact List.map_inj_left.mp hmaps
      rw [List.map_map]
      exact List.map_inj_left.mpr fun e he => hkeys e (List.mem_filter.mp he).1
    simp only [OrderedMap.values, OrderedMap.keys, OrderedMap.put, OrderedMap.erase, List.map_append,
      hfilter, List.map_cons, List.map_nil]
  · rw [OrderedMap.keys_put, List.nodup_append]
    refine ⟨h.nodup.filter _, by simp, fun a ha b hb => ?_⟩
    rw [List.mem_singleton.mp hb]
    exact of_decide_eq_true (List.mem_filter.mp ha).2
  · rw [OrderedMap.keys_put, List.mem_append, List.mem_filter, h.mem_iff, List.map_append,
      List.mem_append, List.map_singleton, hname]
    by_cases heq : name = v.name <;> simp [heq]

theorem wp_addVariables_registered {vs ws : List Variable} (h : Registered ws s.state.registers) :
    wp (vs.forM addVariable) (fun _ t => ∃ registers, t.state = { s.state with registers } ∧
      Registered (ws ++ vs) registers) (fun _ _ => True) s := by
  induction vs generalizing ws s with
  | nil => exact ⟨s.state.registers, rfl, by simpa using h⟩
  | cons v vs ih =>
      rw [wp_forM_cons]
      simp only [addVariable]
      split
      · trivial
      · rw [Design.addRegister, wp_change]
        have hput : Registered (ws ++ [v]) _ := h.put ⟨v.name, signalOf v.type, v.initial.getD 0⟩ rfl
        refine wp_mono (ih hput) (fun _ t ht => ?_) fun _ _ h => h
        simpa using ht

/-! ### Pins -/

/-- No two interfaces share a pin. -/
structure Separate (d : Design) : Prop where
  nodup : (d.fifos.values.flatMap fun f => f.pins.toList).Nodup
  made : ∀ f ∈ d.fifos.values, ∀ p ∈ f.pins.toList, p.index < d.pins.size

theorem Separate.congr {d' : Design} (h : Separate d) (heq : (d'.pins, d'.fifos) = (d.pins, d.fifos)) :
    Separate d' := by
  obtain ⟨hpins, hfifos⟩ := Prod.mk.inj heq
  exact ⟨hfifos ▸ h.nodup, by rw [hfifos, hpins]; exact h.made⟩

/-- The pins of a new interface are new. -/
theorem wp_getFifo_separate (h : Separate s.state) (spec : FifoSpec) :
    wp (Design.getFifo spec) (fun _ t => Separate t.state) (fun _ _ => True) s := by
  simp only [Design.getFifo]
  split
  · trivial
  · rw [wp_bind, wp_look]
    split
    · split
      · trivial
      · exact h
    · rw [wp_bind]
      refine wp_mono (Design.wp_addFifoPins_next spec) ?_ fun _ _ _ => trivial
      rintro pins t ⟨hfifos, hsize, hnext, _⟩
      simp only [wp_bind, wp_look, wp_change, wp_log, wp_pure]
      have hnew : ∀ p ∈ pins.toList, s.state.pins.size ≤ p.index ∧ p.index < t.state.pins.size := by
        intro p hp
        rw [hnext] at hp
        obtain ⟨k, hk, rfl⟩ := List.mem_map.mp hp
        rw [hsize]
        simpa [List.mem_range'_1] using hk
      refine ⟨?_, fun f hf p hp => ?_⟩
      · simp only [Arena.values_push, List.flatMap_append, List.flatMap_singleton, hfifos]
        refine List.nodup_append.mpr ⟨h.nodup, Design.nodup_pins_next hnext, fun p hp q hq heq => ?_⟩
        obtain ⟨f, hf, hp⟩ := List.mem_flatMap.mp hp
        have hlt := h.made f hf p hp
        have hle := (hnew q hq).1
        rw [heq] at hlt
        omega
      · simp only [Arena.values_push, hfifos, List.mem_append, List.mem_singleton] at hf
        rcases hf with hf | rfl
        · have hlt := h.made f hf p hp
          show p.index < t.state.pins.size
          omega
        · exact (hnew p hp).2

theorem wp_addPort_separate (h : Separate s.state) (direction : Direction) (p : Actor.Port) :
    wp (addPort direction fifos p) (fun _ t => Separate t.state) (fun _ _ => True) s := by
  rw [addPort, wp_bind]
  refine wp_mono (wp_getFifo_separate h _) (fun handle t ht => ?_) fun _ _ h => h
  split
  · exact ht
  · simp only [wp_bind, wp_discard]
    exact wp_mono (wp_newMemory_next _ _ _) (fun _ u h => ht.congr (by rw [h.2])) fun _ _ h => h

theorem wp_addResources_separate (hs : Bare s.state) (clockDomain : String) (actor : Actor) :
    wp (addResources clockDomain actor) (fun _ t => Separate t.state) (fun _ _ => True) s := by
  have hports : ∀ (direction : Direction) (ps : List Actor.Port) (fifos : Interfaces) (t : Traced Design),
      Separate t.state → wp (ps.foldlM (addPort direction) fifos) (fun _ u => Separate u.state)
        (fun _ _ => True) t := fun direction ps fifos t ht =>
    wp_foldlM (I := fun _ u => Separate u.state) ht fun p _ fifos u hu =>
      wp_addPort_separate hu direction p
  rw [addResources, wp_bind]
  refine (Design.keeps_clockDomain Design.remote_fifos _).wp_anyway fun _ t₁ h₁ => ?_
  have hempty : t₁.state.fifos.values = [] := by
    rw [h₁, hs.fifos]
    rfl
  rw [wp_bind]
  refine wp_mono (hports .input _ _ t₁ ⟨by simp [hempty], by simp [hempty]⟩) (fun fifos t₂ h₂ => ?_)
    fun _ _ h => h
  rw [wp_bind]
  refine wp_mono (hports .output _ _ t₂ h₂) (fun fifos t₃ h₃ => ?_) fun _ _ h => h
  rw [wp_bind]
  refine wp_forM (I := fun u => Separate u.state) h₃ fun v _ u hu => ?_
  simp only [addVariable]
  split
  · trivial
  · rw [Design.addRegister, wp_change]
    exact hu.congr rfl

/-! ### All resources -/

/-- The ports of an actor, the inputs first. -/
def directedPorts (actor : Actor) : List (Direction × Actor.Port) :=
  actor.inputs.map (fun p => (.input, p)) ++ actor.outputs.map fun p => (.output, p)

/-- The design has the resources of the actor, and nothing else. -/
def Supplied (actor : Actor) (fifos : Interfaces) (d : Design) : Prop :=
  ∃ d' registers, Stocked (directedPorts actor) fifos d' ∧ Registered actor.stateVars registers ∧
    d = { d' with registers }

/-- Once the ports of an actor have their resources, its state variables get theirs. -/
theorem wp_addResources_stocked (hs : Bare s.state) {actor : Actor} (hvalid : Actor.Valid actor)
    (clockDomain : String) {Q : Interfaces → Traced Design → Prop}
    (hvariables : ∀ fifos t, Stocked (directedPorts actor) fifos t.state →
      wp (actor.stateVars.forM addVariable) (fun _ u => Q fifos u) (fun _ _ => True) t) :
    wp (addResources clockDomain actor) Q (fun _ _ => True) s := by
  have hinputs : (actor.inputs.map fun p => (Direction.input, p)).map Prod.snd = actor.inputs := by
    simp [Function.comp_def]
  have hnodup := hvalid.ports
  rw [addResources, wp_bind]
  refine (Design.keeps_clockDomain remote_stock _).wp_anyway fun _ t₁ h₁ => ?_
  have hempty : Stocked [] ∅ t₁.state := (stocked_bare hs).congr h₁
  rw [wp_bind]
  refine wp_mono (wp_addPorts_stocked .input hempty ?_) (fun fifos t₂ h₂ => ?_) fun _ _ h => h
  · exact (List.nodup_append.mp (by simpa [Actor.ports] using hnodup)).1
  rw [wp_bind]
  refine wp_mono (wp_addPorts_stocked .output h₂ ?_) (fun fifos t₃ h₃ => ?_) fun _ _ h => h
  · rw [List.nil_append, hinputs]
    exact hnodup
  rw [wp_bind]
  exact wp_mono (hvariables fifos t₃ h₃) (fun _ _ h => h) fun _ _ h => h

theorem wp_addResources_supplied (hs : Bare s.state) {actor : Actor} (hvalid : Actor.Valid actor)
    (clockDomain : String) :
    wp (addResources clockDomain actor) (fun fifos t => Supplied actor fifos t.state)
      (fun _ _ => True) s := by
  refine wp_addResources_stocked hs hvalid clockDomain fun fifos t ht => ?_
  have hnone : Registered [] t.state.registers := by
    rw [ht.registers]
    exact ⟨rfl, List.nodup_nil, by simp⟩
  exact wp_mono (wp_addVariables_registered hnone)
    (fun _ u ⟨registers, hu, hregisters⟩ => ⟨t.state, registers, ht, hregisters, hu⟩) fun _ _ h => h

/-- Memories are numbered, so there are not more of them than numbers. -/
theorem Supplied.room {actor : Actor} (h : Supplied actor fifos d) :
    (actor.ports.filter (·.buffer.isSome)).length + 1 < UInt32.size := by
  obtain ⟨d', registers, hstocked, -⟩ := h
  have hports : (directedPorts actor).map Prod.snd = actor.ports := by
    simp [directedPorts, Actor.ports, Function.comp_def]
  have hcount : ((directedPorts actor).filterMap (bufferBytes? ·.2)).length =
      (actor.ports.filter (·.buffer.isSome)).length := by
    rw [← hports, List.filter_map, List.length_map, List.length_filterMap_eq_countP,
      List.countP_eq_length_filter]
    simp [bufferBytes?, Function.comp_def]
  have hlength := congrArg List.length hstocked.sizes
  rw [List.length_map, hcount] at hlength
  have hnext := hstocked.next
  have hlt := d'.nextMemory.toNat_lt_size
  omega

/-- The resources are there, and tasks can be built on them. -/
theorem wp_addResources_equipped (hs : Bare s.state) {actor : Actor} (hvalid : Actor.Valid actor)
    (clockDomain : String) :
    wp (addResources clockDomain actor) (fun fifos t => t.state.Laid ∧ Equipped actor fifos t.state ∧
      (∃ domain, t.state.domains.find? clockDomain = some domain) ∧ Supplied actor fifos t.state ∧
      Separate t.state) (fun _ _ => True) s := by
  have hsupplied := wp_mono (wp_and (wp_addResources_supplied hs hvalid clockDomain)
    (wp_addResources_separate hs clockDomain actor)) (fun _ _ h => h) fun _ _ _ => trivial
  by_cases hroom : (actor.ports.filter (·.buffer.isSome)).length + 1 < UInt32.size
  · have hadded : wp (addResources clockDomain actor) _ (fun _ _ => True) s :=
      wp_addResources hs hvalid hroom (fun _ _ _ => trivial) fun _ _ _ => trivial
    exact wp_mono (wp_and hadded hsupplied)
      (fun _ _ ⟨⟨hlaid, hequipped, hdomain, _⟩, h⟩ => ⟨hlaid, hequipped, hdomain, h⟩) fun _ _ _ => trivial
  · exact wp_mono hsupplied (fun _ _ h => absurd h.1.room hroom) fun _ _ h => h

end Synthesis

end DataflowSynth
