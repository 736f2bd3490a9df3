/-
The resources of an actor can be added to a new design, unless there is an object among them.

The ports are added one after the other.  Each has a name of its own, so its interface is always new,
and ids of memories are given out in order, so no id is given out twice.
-/
import DataflowSynth.Proofs.Synthesis.Tasks

namespace DataflowSynth

open Build

theorem Arena.values_push {k : HandleKind} {α : Type} (a : Arena k α) (x : α) :
    (a.push x).values = a.values ++ [x] := by
  simp [push, values]

/-- An interface is new if no other has its name. -/
theorem Design.fifoNamed?_eq_none {d : Design} {name : String}
    (h : ∀ f ∈ d.fifos.values, f.spec.name ≠ name) (direction : Direction) :
    d.fifoNamed? name direction = none := by
  rw [fifoNamed?, List.find?_eq_none]
  rintro ⟨handle, f⟩ hf
  simp [h f (List.of_mem_zip hf).2]

namespace Synthesis

variable {d : Design} {s : Traced Design} {F : Failure → Traced Design → Prop}

/-! ### Memories -/

/-- The memories that ids were given out for. -/
structure Numbered (d : Design) (count : Nat) : Prop where
  next : d.nextMemory.toNat = count + 1
  ids : ∀ m ∈ d.memories, m.id.toNat < d.nextMemory.toNat

theorem wp_newMemory {count : Nat} (hs : Numbered s.state count) (hroom : count + 2 < UInt32.size)
    (name : String) (width : UInt32) (initial : List LogicalValue) :
    wp (Design.newMemory name width initial) (fun _ t => ∃ next memories,
      t.state = { s.state with nextMemory := next, memories } ∧ Numbered t.state (count + 1)) F s := by
  have hnext := hs.next
  have hlt : s.state.nextMemory.toNat + 1 < UInt32.size := by omega
  have hzero : s.state.nextMemory ≠ 0 := by
    intro hzero
    rw [hzero] at hnext
    exact absurd hnext (by simp)
  have hfree : s.state.memories.find? (·.id = s.state.nextMemory) = none := by
    rw [List.find?_eq_none]
    intro m hm heq
    exact Nat.lt_irrefl _ (of_decide_eq_true heq ▸ hs.ids m hm)
  have hsucc : (s.state.nextMemory + 1).toNat = count + 2 := by
    rw [UInt32.toNat_add, hnext]
    exact Nat.mod_eq_of_lt hroom
  simp only [Design.newMemory, Design.nextMemoryId, wp_bind, wp_look]
  rw [if_pos hlt]
  simp only [Design.addMemory, Design.memory?, wp_bind, wp_change, wp_pure]
  rw [if_neg hzero]
  simp only [wp_bind, wp_look, hfree, Option.isSome_none, Bool.false_eq_true, if_false, wp_change]
  refine ⟨_, _, rfl, hsucc, fun m hm => ?_⟩
  rw [hsucc]
  rcases List.mem_append.mp hm with hm | hm
  · exact Nat.lt_trans (hs.ids m hm) (by omega)
  · rw [List.mem_singleton.mp hm]
    show s.state.nextMemory.toNat < count + 2
    omega

/-! ### Ports -/

/-- No port is without a handshake. -/
theorem isNative_protocolOf (p : Actor.Port) : (protocolOf p).isNative = false := by
  unfold protocolOf
  split
  · rfl
  · split <;> rfl

theorem protocolOf_eq_object_iff {p : Actor.Port} :
    protocolOf p = .object ↔ p.type.isObject = true := by
  unfold protocolOf
  split
  · next hobject => exact iff_of_true rfl hobject
  · next hplain => split <;> simp [hplain]

/-- The number of ports with a buffer. -/
def buffered (ports : List (Direction × Actor.Port)) : Nat :=
  (ports.filter fun e => e.2.buffer.isSome).length

theorem buffered_append (ports ports' : List (Direction × Actor.Port)) :
    buffered (ports ++ ports') = buffered ports + buffered ports' := by
  simp [buffered]

/-- Some ports have been added to the design `d`. -/
structure Furnished (d : Design) (ports : List (Direction × Actor.Port)) (fifos : Interfaces)
    (d' : Design) : Prop where
  laid : d'.Laid
  domains : d'.domains = d.domains
  found : ∀ e ∈ ports, ∃ h f, fifos.find? e.2.name = some h ∧ d'.fifos.get? h = some f ∧
    f.spec.direction = e.1
  names : ∀ f ∈ d'.fifos.values, ∃ e ∈ ports, e.2.name = f.spec.name
  numbered : Numbered d' (buffered ports)
  plain : ∀ e ∈ ports, e.2.type.isObject = false

/-- The interface of one more port has been added. -/
theorem Furnished.add {d' d'' : Design} {ports : List (Direction × Actor.Port)} {fifos : Interfaces}
    (h : Furnished d ports fifos d') {p : Actor.Port} (hnew : ∀ e ∈ ports, e.2.name ≠ p.name) {f : Fifo}
    (hname : p.name = f.spec.name) (hplain : p.type.isObject = false) (hlaid : d''.Laid)
    (hdomains : d''.domains = d'.domains) (hfifos : d''.fifos = d'.fifos.push f)
    (hnumbered : Numbered d'' (buffered (ports ++ [(f.spec.direction, p)]))) :
    Furnished d (ports ++ [(f.spec.direction, p)]) (fifos.put p.name d'.fifos.next) d'' := by
  refine ⟨hlaid, hdomains.trans h.domains, fun e he => ?_, fun g hg => ?_, hnumbered, fun e he => ?_⟩
  · rw [hfifos]
    rcases List.mem_append.mp he with he | he
    · obtain ⟨k, g, hfind, hget, hdirection⟩ := h.found e he
      refine ⟨k, g, ?_, ?_, hdirection⟩
      · rw [OrderedMap.find?_put_of_ne _ (hnew e he), hfind]
      · rw [Arena.get?_push_of_contains, hget]
        exact Arena.contains_iff.mpr (Arena.lt_of_get? hget)
    · rw [List.mem_singleton.mp he]
      exact ⟨_, f, OrderedMap.find?_put_self .., Arena.get?_push_next .., rfl⟩
  · rw [hfifos, Arena.values_push] at hg
    rcases List.mem_append.mp hg with hg | hg
    · obtain ⟨e, he, hname⟩ := h.names g hg
      exact ⟨e, by simp [he], hname⟩
    · rw [List.mem_singleton.mp hg]
      exact ⟨(f.spec.direction, p), by simp, hname⟩
  · rcases List.mem_append.mp he with he | he
    · exact h.plain e he
    · rw [List.mem_singleton.mp he]
      exact hplain

theorem wp_addPort {ports : List (Direction × Actor.Port)} {fifos : Interfaces}
    (h : Furnished d ports fifos s.state) {p : Actor.Port} (hnew : ∀ e ∈ ports, e.2.name ≠ p.name)
    {direction : Direction} (hroom : buffered (ports ++ [(direction, p)]) + 1 < UInt32.size)
    (hF : p.type.isObject = true → ∀ e t, F (.error e) t) :
    wp (addPort direction fifos p)
      (fun fifos t => Furnished d (ports ++ [(direction, p)]) fifos t.state) F s := by
  have hnone : s.state.fifoNamed? p.name direction = none := by
    refine Design.fifoNamed?_eq_none (fun f hf heq => ?_) direction
    obtain ⟨e, he, hname⟩ := h.names f hf
    exact hnew e he (hname.trans heq)
  simp only [addPort, wp_bind]
  refine wp_mono (Design.wp_getFifo h.laid (isNative_protocolOf p) hnone fun ho =>
    hF (protocolOf_eq_object_iff.mp ho)) ?_ fun _ _ h => h
  rintro handle t ⟨hplain, hserves⟩
  obtain ⟨n, pins, f, ht, hspec, rfl, hlaid⟩ := hserves
  have htype : p.type.isObject = false :=
    Bool.eq_false_iff.mpr fun htrue => hplain (protocolOf_eq_object_iff.mpr htrue)
  have hname : p.name = f.spec.name := by rw [hspec]
  obtain rfl : direction = f.spec.direction := by rw [hspec]
  have hnumbered : Numbered t.state (buffered ports) := by
    rw [ht]
    exact ⟨h.numbered.next, h.numbered.ids⟩
  rw [buffered_append] at hroom
  cases hbuffer : p.buffer with
  | none =>
      have hcount : buffered [(f.spec.direction, p)] = 0 := by simp [buffered, hbuffer]
      simp only [wp_pure]
      refine h.add hnew hname htype hlaid (by rw [ht]) (by rw [ht]) ?_
      rwa [buffered_append, hcount]
  | some size =>
      have hcount : buffered [(f.spec.direction, p)] = 1 := by simp [buffered, hbuffer]
      simp only [wp_bind, wp_discard]
      refine wp_mono (wp_newMemory hnumbered (by omega) _ _ _) ?_ fun _ _ h => h
      rintro _ u ⟨next, memories, hu, hids⟩
      rw [wp_pure]
      refine h.add hnew hname htype ?_ (by rw [hu, ht]) (by rw [hu, ht]) ?_
      · rw [hu]
        exact hlaid.congr rfl rfl rfl rfl rfl
      · rwa [buffered_append, hcount]

/-- A port comes after others of other names. -/
theorem name_ne_of_nodup {ports : List (Direction × Actor.Port)} {p : Actor.Port}
    {ps : List Actor.Port} (h : ((ports.map Prod.snd ++ p :: ps).map Actor.Port.name).Nodup) :
    ∀ e ∈ ports, e.2.name ≠ p.name := by
  intro e he heq
  rw [List.map_append, List.nodup_append] at h
  exact h.2.2 e.2.name (by simpa using ⟨e.1, e.2, he, rfl⟩) p.name (by simp) heq

theorem wp_addPorts (direction : Direction) {ps : List Actor.Port}
    {ports : List (Direction × Actor.Port)} {fifos : Interfaces} (h : Furnished d ports fifos s.state)
    (hnodup : ((ports.map Prod.snd ++ ps).map Actor.Port.name).Nodup)
    (hroom : buffered (ports ++ ps.map fun p => (direction, p)) + 1 < UInt32.size)
    (hF : ∀ p ∈ ps, p.type.isObject = true → ∀ e t, F (.error e) t) :
    wp (ps.foldlM (addPort direction) fifos)
      (fun fifos t => Furnished d (ports ++ ps.map fun p => (direction, p)) fifos t.state) F s := by
  induction ps generalizing ports fifos s with
  | nil => simpa using h
  | cons p ps ih =>
      have hsplit : ports ++ (p :: ps).map (fun p => (direction, p)) =
          (ports ++ [(direction, p)]) ++ ps.map fun p => (direction, p) := by simp
      rw [hsplit] at hroom ⊢
      have hnew := name_ne_of_nodup hnodup
      have hone : buffered (ports ++ [(direction, p)]) + 1 < UInt32.size := by
        rw [buffered_append] at hroom
        omega
      rw [List.foldlM_cons, wp_bind]
      refine wp_mono (wp_addPort h hnew hone (hF p (by simp))) (fun fifos t ht => ?_) fun _ _ h => h
      exact ih ht (by simpa using hnodup) hroom fun q hq => hF q (by simp [hq])

/-! ### All resources -/

theorem wp_addVariables {vs : List Variable} {I : Design → Prop} (hs : I s.state)
    (hI : ∀ d registers, I d → I { d with registers })
    (hF : ∀ v ∈ vs, v.type.isObject = true → ∀ e t, F (.error e) t) :
    wp (vs.forM addVariable) (fun _ t => I t.state ∧ ∀ v ∈ vs, v.type.isObject = false) F s := by
  refine wp_forM_each (I := fun t => I t.state) hs fun v hv t ht => ?_
  simp only [addVariable]
  split
  · next hobject => exact hF v hv hobject _ t
  · next hplain =>
    exact ⟨hI t.state _ ht, Bool.eq_false_iff.mpr hplain⟩

/-- A new design: nothing is shared yet. -/
structure Bare (d : Design) : Prop where
  laid : d.Laid
  domains : d.domains = ∅
  clockPins : d.clockPins = ∅
  resetPins : d.resetPins = ∅
  fifos : d.fifos = ∅
  memories : d.memories = []
  next : d.nextMemory = 1
  registers : d.registers = ∅
  tasks : d.tasks = ∅

theorem bare_new (name : String) : Bare (Design.new name) := by
  have hlaid := Design.laid_new name
  unfold Design.new at hlaid ⊢
  generalize (Design.newRoot name).run { state := {} } = traced at hlaid ⊢
  exact ⟨hlaid, rfl, rfl, rfl, rfl, rfl, rfl, rfl, rfl⟩

/-- No value of the actor is an object. -/
structure Plain (actor : Actor) : Prop where
  ports : ∀ p ∈ actor.ports, p.type.isObject = false
  stateVars : ∀ v ∈ actor.stateVars, v.type.isObject = false

/-- A domain alone furnishes no port. -/
theorem Bare.furnished {d' : Design} (hd : Bare d) (h : d.Clocked d') : Furnished d' [] ∅ d' := by
  have hlaid := h.laid
  obtain ⟨n, pins, domains, clockPins, resetPins, rfl, -⟩ := h
  refine ⟨hlaid, rfl, by simp, fun f hf => ?_, ⟨by simp [hd.next, buffered], by simp [hd.memories]⟩,
    by simp⟩
  have hnone : f ∈ d.fifos.values := hf
  rw [hd.fifos] at hnone
  exact absurd hnone (by simp [Arena.values, EmptyCollection.emptyCollection])

theorem Furnished.withRegisters {d' : Design} {ports : List (Direction × Actor.Port)}
    {fifos : Interfaces} (h : Furnished d ports fifos d') (registers : OrderedMap String Design.Register) :
    Furnished d ports fifos { d' with registers } :=
  { h with
    laid := h.laid.congr rfl rfl rfl rfl rfl
    numbered := ⟨h.numbered.next, h.numbered.ids⟩ }

theorem wp_addResources (hs : Bare s.state) {actor : Actor} (hvalid : Actor.Valid actor)
    (hroom : (actor.ports.filter (·.buffer.isSome)).length + 1 < UInt32.size) {clockDomain : String}
    (hclock : (Design.parseDomain clockDomain).1 = "" ∨
      (Design.parseDomain clockDomain).2 = some (Design.parseDomain clockDomain).1 →
      ∀ e t, F (.error e) t)
    (hobjects : ¬ Plain actor → ∀ e t, F (.error e) t) :
    wp (addResources clockDomain actor) (fun fifos t => t.state.Laid ∧ Equipped actor fifos t.state ∧
      (∃ domain, t.state.domains.find? clockDomain = some domain) ∧ Plain actor ∧
      (Design.parseDomain clockDomain).1 ≠ "" ∧
      (Design.parseDomain clockDomain).2 ≠ some (Design.parseDomain clockDomain).1) F s := by
  have hport : ∀ p ∈ actor.ports, p.type.isObject = true → ∀ e t, F (.error e) t := by
    intro p hp htrue
    exact hobjects fun hplain => Bool.eq_false_iff.mp (hplain.ports p hp) htrue
  have hvariable : ∀ v ∈ actor.stateVars, v.type.isObject = true → ∀ e t, F (.error e) t := by
    intro v hv htrue
    exact hobjects fun hplain => Bool.eq_false_iff.mp (hplain.stateVars v hv) htrue
  let inputs := actor.inputs.map fun p => (Direction.input, p)
  let ports := inputs ++ actor.outputs.map fun p => (Direction.output, p)
  have hports : ports.map Prod.snd = actor.ports := by
    simp [ports, inputs, Actor.ports, Function.comp_def]
  have hcount : buffered ports + 1 < UInt32.size := by
    rw [← hports, List.filter_map, List.length_map] at hroom
    exact hroom
  have hnodup : ((inputs.map Prod.snd ++ actor.outputs).map Actor.Port.name).Nodup := by
    have hinputs : inputs.map Prod.snd = actor.inputs := by simp [inputs, Function.comp_def]
    rw [hinputs]
    exact hvalid.ports
  rw [addResources, wp_bind]
  refine wp_mono (Design.wp_clockDomain hs.laid hs.domains hs.resetPins hs.clockPins hclock)
    ?_ fun _ _ h => h
  rintro _ t₁ ⟨hname, hdiffer, hclocked, hdomain⟩
  rw [wp_bind]
  refine wp_mono (wp_addPorts .input (hs.furnished hclocked) ?_ ?_
    fun p hp => hport p (by simp [Actor.ports, hp])) (fun fifos t₂ h₂ => ?_) fun _ _ h => h
  · exact (List.nodup_append.mp (by simpa [Actor.ports] using hvalid.ports)).1
  · rw [buffered_append] at hcount
    exact Nat.lt_of_le_of_lt (Nat.succ_le_succ (Nat.le_add_right ..)) hcount
  rw [wp_bind]
  refine wp_mono (wp_addPorts .output h₂ hnodup hcount
    fun p hp => hport p (by simp [Actor.ports, hp])) (fun fifos t₃ h₃ => ?_) fun _ _ h => h
  rw [wp_bind]
  refine wp_mono (wp_addVariables (I := Furnished t₁.state ports fifos) h₃
    (fun _ registers hd => hd.withRegisters registers) hvariable) (fun _ t₄ h => ?_) fun _ _ h => h
  obtain ⟨h₄, hvars⟩ := h
  refine ⟨h₄.laid, ⟨fun p hp => ?_, fun p hp => ?_⟩, ?_, ⟨fun p hp => ?_, hvars⟩, hname, hdiffer⟩
  · exact h₄.found (.input, p) (by simp [ports, inputs, hp])
  · exact h₄.found (.output, p) (by simp [ports, hp])
  · rw [h₄.domains]
    exact hdomain
  · rw [← hports] at hp
    obtain ⟨e, he, rfl⟩ := List.mem_map.mp hp
    exact h₄.plain e he

end Synthesis

end DataflowSynth
