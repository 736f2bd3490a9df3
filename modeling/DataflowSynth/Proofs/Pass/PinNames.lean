/-
The names of the pins of a design.

A pin for a token signal is named after its port, with a suffix; clock and reset are named by whoever
asks for the design.  Only the former are kept apart: ports have different names, and no two suffixes
end alike.  The clock and the reset may have the name of a token signal, and nothing objects to it.
-/
import DataflowSynth.Proofs.Pass.Outfit

namespace DataflowSynth

open Build

namespace Design

/-- The names of pins, in the order in which they were made. -/
def pinNames (pins : Arena .pin Pin) : List String := pins.values.map Pin.name

@[simp] theorem pinNames_push (pins : Arena .pin Pin) (p : Pin) :
    pinNames (pins.push p) = pinNames pins ++ [p.name] := by
  simp [pinNames, Arena.values_push]

/-- What the pins of an interface end in. -/
def pinSuffixes : Direction → List String
  | .input => ["_DATA", "_SEND", "_ACK"]
  | .output => ["_DATA", "_SEND", "_ACK", "_RDY"]

/-- The names of the pins of an interface with a handshake. -/
def fifoPinNames (direction : Direction) (name : String) : List String :=
  (pinSuffixes direction).map (name ++ ·)

/-- The names of the pins of a clock domain. -/
def domainPinNames (spec : String) : List String :=
  (parseDomain spec).1 :: (parseDomain spec).2.toList

/-- The design `d'` is `d` with more pins, which have these names, and with another netlist. -/
def Pinned (d : Design) (names : List String) (d' : Design) : Prop :=
  ∃ n pins, d' = { d with netlist := n, pins } ∧ pinNames pins = pinNames d.pins ++ names

theorem Pinned.trans {d d' d'' : Design} {names names' : List String} (h : d.Pinned names d')
    (h' : d'.Pinned names' d'') : d.Pinned (names ++ names') d'' := by
  obtain ⟨n, pins, rfl, hpins⟩ := h
  obtain ⟨n', pins', rfl, hpins'⟩ := h'
  exact ⟨n', pins', rfl, by rw [hpins', hpins, List.append_assoc]⟩

section

variable {s : Traced Design}

/-- A pin is added behind a step that looks at nothing but the netlist. -/
theorem wp_addPin_pinned {α : Type} (x : Netlist.Step α) (pin : α → Pin) {name : String}
    (hname : ∀ a, (pin a).name = name) :
    wp (wiring x >>= fun a => addPin (pin a)) (fun _ t => s.state.Pinned [name] t.state)
      (fun _ _ => True) s := by
  rw [wp_bind, wiring, wp_within]
  refine wp_of_forall (fun a t => ?_) fun _ _ => trivial
  simp only [addPin, wp_bind, wp_look, wp_change, wp_pure]
  exact ⟨t.state, _, rfl, by rw [pinNames_push, hname]⟩

theorem wp_addInputPin_pinned (name : String) (signal : Signal) (role : PinRole) :
    wp (addInputPin name signal role) (fun _ t => s.state.Pinned [name] t.state) (fun _ _ => True)
      s := by
  rw [addInputPin, wp_bind, wp_look]
  exact wp_addPin_pinned _ _ fun _ => rfl

theorem wp_addOutputPin_pinned (name : String) (signal : Signal) (role : PinRole) :
    wp (addOutputPin name signal role) (fun _ t => s.state.Pinned [name] t.state) (fun _ _ => True)
      s := by
  rw [addOutputPin, wp_bind, wp_look]
  exact wp_addPin_pinned _ _ fun _ => rfl

theorem wp_addFifoPins_pinned {spec : FifoSpec} (hshakes : spec.protocol.isNative = false) :
    wp (addFifoPins spec)
      (fun _ t => s.state.Pinned (fifoPinNames spec.direction spec.name) t.state)
      (fun _ _ => True) s := by
  simp only [addFifoPins, fifoPinNames]
  cases spec.direction with
  | input =>
      simp only [hshakes, Bool.false_eq_true, if_false, wp_bind, wp_pure]
      refine wp_mono (wp_addInputPin_pinned ..) (fun _ t ht => ?_) fun _ _ h => h
      refine wp_mono (wp_addInputPin_pinned ..) (fun _ u hu => ?_) fun _ _ h => h
      refine wp_mono (wp_addOutputPin_pinned ..) (fun _ v hv => ?_) fun _ _ h => h
      exact ht.trans (hu.trans hv)
  | output =>
      simp only [wp_bind, wp_pure]
      refine wp_mono (wp_addOutputPin_pinned ..) (fun _ t ht => ?_) fun _ _ h => h
      refine wp_mono (wp_addOutputPin_pinned ..) (fun _ u hu => ?_) fun _ _ h => h
      refine wp_mono (wp_addInputPin_pinned ..) (fun _ v hv => ?_) fun _ _ h => h
      refine wp_mono (wp_addInputPin_pinned ..) (fun _ w hw => ?_) fun _ _ h => h
      exact ht.trans (hu.trans (hv.trans hw))

/-- A clock that is neither a clock nor a reset yet gets a pin of its name. -/
theorem wp_clockPin_pinned {name : String} (hnew : s.state.clockPins.find? name = none) :
    wp (clockPin name) (fun _ t => pinNames t.state.pins = pinNames s.state.pins ++ [name] ∧
      t.state.resetPins = s.state.resetPins) (fun _ _ => True) s := by
  simp only [clockPin, wp_bind, wp_look]
  split
  · trivial
  · simp only [wp_bind, wp_look, hnew]
    refine wp_mono (wp_addInputPin_pinned ..) ?_ fun _ _ h => h
    rintro p t ⟨n, pins, ht, hpins⟩
    simp only [wp_change, wp_pure, ht]
    exact ⟨hpins, trivial⟩

theorem wp_resetPin_pinned {name clock : String} (hnew : s.state.resetPins.find? name = none) :
    wp (resetPin name clock) (fun _ t => pinNames t.state.pins = pinNames s.state.pins ++ [name])
      (fun _ _ => True) s := by
  simp only [resetPin]
  split
  · trivial
  · simp only [wp_bind, wp_look]
    split
    · trivial
    · simp only [wp_bind, wp_look, hnew]
      refine wp_mono (wp_addInputPin_pinned ..) ?_ fun _ _ h => h
      rintro p t ⟨n, pins, ht, hpins⟩
      simp only [wp_change, wp_pure, ht]
      exact hpins

theorem keeps_pins_addSync (clock reset : PinId) : Keeps Design.pins (addSync clock reset) :=
  .bind (.look _) fun _ => .bind (keeps_wiring (fun _ _ => rfl) _) fun _ => .bind
    (keeps_pinBus? (fun _ _ => rfl) _) fun _ => .bind (keeps_pinBus? (fun _ _ => rfl) _) fun _ =>
    .bind (keeps_wiring (fun _ _ => rfl) _) fun _ => .pure _

/-- The first domain of a design gets a pin for its clock and one for its reset, of another name. -/
theorem wp_clockDomain_pinned (hdomains : s.state.domains = ∅) (hclock : s.state.clockPins = ∅)
    (hreset : s.state.resetPins = ∅) (spec : String) :
    wp (clockDomain spec) (fun _ t => pinNames t.state.pins =
      pinNames s.state.pins ++ domainPinNames spec ∧ (domainPinNames spec).Nodup)
      (fun _ _ => True) s := by
  simp only [clockDomain, wp_bind, wp_look, hdomains, OrderedMap.find?_empty, domainPinNames]
  generalize parseDomain spec = names
  obtain ⟨clock, reset⟩ := names
  simp only
  split
  · trivial
  split
  · trivial
  next hdiffer =>
  simp only [wp_bind]
  refine wp_mono (wp_clockPin_pinned (by rw [hclock]; rfl)) (fun p t ⟨ht, hresets⟩ => ?_) fun _ _ h => h
  cases reset with
  | none => exact ⟨ht, List.nodup_singleton _⟩
  | some reset =>
      have hnodup : [clock, reset].Nodup := by simpa [eq_comm] using hdiffer
      simp only [wp_bind, wp_pure, wp_change]
      refine wp_mono (wp_resetPin_pinned (by rw [hresets, hreset]; rfl)) (fun q u hu => ?_)
        fun _ _ h => h
      refine (keeps_pins_addSync p q).wp_anyway fun _ v hv => ?_
      refine ⟨?_, hnodup⟩
      rw [hv, hu, ht, List.append_assoc]
      rfl

/-- An interface with a name and a direction of its own gets pins. -/
theorem wp_getFifo_pinned {spec : FifoSpec} (hshakes : spec.protocol.isNative = false)
    (hnew : s.state.fifoNamed? spec.name spec.direction = none) :
    wp (getFifo spec) (fun _ t => pinNames t.state.pins =
      pinNames s.state.pins ++ fifoPinNames spec.direction spec.name) (fun _ _ => True) s := by
  simp only [getFifo]
  split
  · trivial
  · simp only [wp_bind, wp_look, hnew]
    refine wp_mono (wp_addFifoPins_pinned hshakes) ?_ fun _ _ h => h
    rintro pins t ⟨n, ps, ht, hpins⟩
    simp only [wp_change, wp_log, wp_pure, ht]
    exact hpins

theorem keeps_pins_newMemory (name : String) (width : UInt32) (initial : List LogicalValue) :
    Keeps Design.pins (newMemory name width initial) :=
  .bind (keeps_nextMemoryId fun _ _ => rfl) fun _ =>
    .bind (keeps_addMemory (fun _ _ => rfl) _) fun _ => .pure _

end

theorem pins_new (name : String) : (Design.new name).pins = ∅ := by
  unfold Design.new
  rfl

end Design

namespace Synthesis

open Design

variable {s : Traced Design} {ports : List (Direction × Actor.Port)} {fifos : Interfaces}

theorem wp_addPort_pinned (h : Stocked ports fifos s.state) {p : Actor.Port}
    (hnew : ∀ e ∈ ports, e.2.name ≠ p.name) (direction : Direction) :
    wp (addPort direction fifos p) (fun _ t => pinNames t.state.pins =
      pinNames s.state.pins ++ fifoPinNames direction p.name) (fun _ _ => True) s := by
  rw [addPort, wp_bind]
  refine wp_mono (wp_getFifo_pinned (isNative_protocolOf p) (h.getFifo hnew)) (fun handle t ht => ?_)
    fun _ _ h => h
  split
  · exact ht
  · rw [wp_bind]
    refine (keeps_pins_newMemory _ _ _).discard.wp_anyway fun _ u hu => ?_
    rw [wp_pure, hu, ht]

theorem wp_addPorts_pinned (direction : Direction) {ps : List Actor.Port}
    (h : Stocked ports fifos s.state)
    (hnodup : ((ports.map Prod.snd ++ ps).map Actor.Port.name).Nodup) :
    wp (ps.foldlM (addPort direction) fifos) (fun _ t => pinNames t.state.pins =
      pinNames s.state.pins ++ ps.flatMap fun p => fifoPinNames direction p.name)
      (fun _ _ => True) s := by
  induction ps generalizing ports fifos s with
  | nil => simp
  | cons p ps ih =>
      have hnew := name_ne_of_nodup hnodup
      rw [List.foldlM_cons, wp_bind]
      refine wp_mono (wp_and (wp_addPort_stocked h hnew direction) (wp_addPort_pinned h hnew direction))
        (fun fifos t ⟨hstocked, ht⟩ => ?_) fun _ _ _ => trivial
      refine wp_mono (ih hstocked (by simpa using hnodup)) (fun _ u hu => ?_) fun _ _ h => h
      rw [hu, ht, List.append_assoc, List.flatMap_cons]

/-- The names of the pins of a design, as the actor and the clock domain give them. -/
def designPinNames (actor : Actor) (clockDomain : String) : List String :=
  domainPinNames clockDomain ++
    (directedPorts actor).flatMap fun e => fifoPinNames e.1 e.2.name

theorem wp_addResources_pinned (hs : Bare s.state) (hpins : s.state.pins = ∅) {actor : Actor}
    (hvalid : Actor.Valid actor) (clockDomain : String) :
    wp (addResources clockDomain actor) (fun _ t =>
      pinNames t.state.pins = designPinNames actor clockDomain ∧ (domainPinNames clockDomain).Nodup)
      (fun _ _ => True) s := by
  have hinputs : (actor.inputs.map fun p => (Direction.input, p)).map Prod.snd = actor.inputs := by
    simp [Function.comp_def]
  have hnodup := hvalid.ports
  rw [addResources, wp_bind]
  have hdomain := wp_mono (keeps_clockDomain remote_stock clockDomain s) (fun _ _ h => h)
    fun _ _ _ => (trivial : True)
  refine wp_mono (wp_and hdomain (wp_clockDomain_pinned hs.domains hs.clockPins hs.resetPins clockDomain))
    ?_ fun _ _ _ => trivial
  rintro _ t₁ ⟨h₁, hp₁, hdiffer⟩
  have hempty : Stocked [] ∅ t₁.state := (stocked_bare hs).congr h₁
  have hfirst := (List.nodup_append.mp (by simpa [Actor.ports] using hnodup)).1
  rw [wp_bind]
  refine wp_mono (wp_and (wp_addPorts_stocked .input hempty hfirst)
    (wp_addPorts_pinned .input hempty hfirst)) ?_ fun _ _ _ => trivial
  rintro fifos t₂ ⟨h₂, hp₂⟩
  rw [wp_bind]
  refine wp_mono (wp_addPorts_pinned .output h₂ ?_) (fun fifos t₃ hp₃ => ?_) fun _ _ h => h
  · rw [List.nil_append, hinputs]
    exact hnodup
  have hkeeps : Keeps Design.pins (actor.stateVars.forM addVariable) :=
    .forM fun v => keeps_guard fun _ => rfl
  rw [wp_bind]
  refine hkeeps.wp_anyway fun _ t₄ h₄ => ?_
  have hnone : pinNames (∅ : Arena .pin Pin) = [] := rfl
  refine ⟨?_, hdiffer⟩
  rw [h₄, hp₃, hp₂, hp₁, hpins, hnone, designPinNames, directedPorts, List.flatMap_append,
    List.flatMap_map, List.flatMap_map, List.nil_append, List.append_assoc]

/-! ### Names that differ -/

/-- No suffix is the end of another, not even in its last letter. -/
theorem pinSuffixes_apart : ∀ s ∈ pinSuffixes .output, ∀ s' ∈ pinSuffixes .output,
    s.toList.getLast? = s'.toList.getLast? → s = s' := by
  decide +kernel

theorem pinSuffixes_output {direction : Direction} {s : String} (h : s ∈ pinSuffixes direction) :
    s ∈ pinSuffixes .output := by
  cases direction with
  | input => exact (by decide : ∀ s ∈ pinSuffixes .input, s ∈ pinSuffixes .output) s h
  | output => exact h

/-- The name of a pin tells the port and the signal. -/
theorem append_suffix_inj {name name' s s' : String} (hs : s ∈ pinSuffixes .output)
    (hs' : s' ∈ pinSuffixes .output) (h : name ++ s = name' ++ s') : name = name' ∧ s = s' := by
  have hends : ∀ s ∈ pinSuffixes .output, s.toList.getLast?.isSome := by decide +kernel
  have hlists : name.toList ++ s.toList = name'.toList ++ s'.toList := by
    simpa using congrArg String.toList h
  have hlast := congrArg List.getLast? hlists
  obtain ⟨c, hc⟩ := Option.isSome_iff_exists.mp (hends s hs)
  obtain ⟨c', hc'⟩ := Option.isSome_iff_exists.mp (hends s' hs')
  rw [List.getLast?_append, List.getLast?_append, hc, hc', Option.some_or, Option.some_or] at hlast
  obtain rfl := pinSuffixes_apart s hs s' hs' (by rw [hc, hc', hlast])
  exact ⟨String.toList_inj.mp (List.append_cancel_right hlists), rfl⟩

theorem mem_fifoPinNames {direction : Direction} {name pin : String}
    (h : pin ∈ fifoPinNames direction name) : ∃ s ∈ pinSuffixes .output, name ++ s = pin := by
  obtain ⟨s, hs, rfl⟩ := List.mem_map.mp h
  exact ⟨s, pinSuffixes_output hs, rfl⟩

theorem nodup_fifoPinNames (direction : Direction) (name : String) :
    (fifoPinNames direction name).Nodup := by
  have hsuffixes : (pinSuffixes direction).Nodup := by cases direction <;> decide
  refine hsuffixes.map_on fun s hs s' hs' heq => ?_
  exact (append_suffix_inj (pinSuffixes_output hs) (pinSuffixes_output hs') heq).2

/-- Ports of different names have pins of different names. -/
theorem nodup_portPinNames {ports : List (Direction × Actor.Port)}
    (h : (ports.map fun e => e.2.name).Nodup) :
    (ports.flatMap fun e => fifoPinNames e.1 e.2.name).Nodup := by
  refine List.nodup_flatMap.mpr ⟨fun e _ => nodup_fifoPinNames _ _, ?_⟩
  refine (List.pairwise_map.mp h).imp fun {e e'} hne pin hpin hpin' => hne ?_
  obtain ⟨s, hs, rfl⟩ := mem_fifoPinNames hpin
  obtain ⟨s', hs', heq⟩ := mem_fifoPinNames hpin'
  exact (append_suffix_inj hs' hs heq).1.symm

/-- Only the clock and the reset may share a name with another pin. -/
theorem nodup_designPinNames_iff {actor : Actor} (hvalid : Actor.Valid actor) {clockDomain : String}
    (hdomain : (domainPinNames clockDomain).Nodup) : (designPinNames actor clockDomain).Nodup ↔
      ∀ name ∈ domainPinNames clockDomain, ∀ e ∈ directedPorts actor,
        name ∉ fifoPinNames e.1 e.2.name := by
  have hnames : ((directedPorts actor).map fun e => e.2.name).Nodup := by
    simpa [directedPorts, Actor.ports, Function.comp_def] using hvalid.ports
  rw [designPinNames, List.nodup_append]
  constructor
  · rintro ⟨-, -, hapart⟩ name hname e he hmem
    exact hapart name hname name (List.mem_flatMap.mpr ⟨e, he, hmem⟩) rfl
  · refine fun hapart => ⟨hdomain, nodup_portPinNames hnames, fun name hname pin hpin => ?_⟩
    rintro rfl
    obtain ⟨e, he, hmem⟩ := List.mem_flatMap.mp hpin
    exact hapart name hname e he hmem

end Synthesis

namespace Pass

open Synthesis

variable {s : Traced Job}

theorem wp_run_all_pinned (host : Host) (h : Fresh s.state) (hpins : s.state.design.pins = ∅) :
    wp (Registry.standard.run host { passes := ["all"] } false) (fun _ t =>
      Actor.Valid s.state.actor ∧
      Design.pinNames t.state.design.pins = designPinNames s.state.actor s.state.clockDomain ∧
      (Design.domainPinNames s.state.clockDomain).Nodup) (fun _ _ => True) s := by
  refine wp_run_all_shows (g := Design.pins) (R := fun pins => _ ∧ Design.pinNames pins = _ ∧ _)
    (fun _ _ _ => rfl) host h fun hvalid journal => ?_
  exact wp_mono (wp_addResources_pinned (s := ⟨s.state.design, journal⟩) h.design hpins
    (valid_declareState hvalid) s.state.clockDomain) (fun _ _ ht => ⟨hvalid, ht⟩) fun _ _ h => h

theorem pinNames_run_all (host : Host) (actor : Actor) (clockDomain : String) (journal : Journal)
    {t : Traced Job} (h : Registry.standard.run host { passes := ["all"] } false
      ⟨{ Job.new actor with clockDomain }, journal⟩ = .ok () t) :
    Actor.Valid actor ∧ Design.pinNames t.state.design.pins = designPinNames actor clockDomain ∧
      (Design.domainPinNames clockDomain).Nodup := by
  have hrun := wp_run_all_pinned (s := ⟨{ Job.new actor with clockDomain }, journal⟩) host
    (fresh_new actor clockDomain) (Design.pins_new actor.name)
  exact of_wp_ok hrun h

/-- The pins of the design that all passes build have the names that the actor and the clock domain
give them: first clock and reset, and then for each port its name with a suffix for each signal.  No
two of them are equal, unless the clock or the reset is named like a signal of a port. -/
theorem run_all_pin_names (host : Host) (actor : Actor) (clockDomain : String) (journal : Journal)
    {t : Traced Job} (h : Registry.standard.run host { passes := ["all"] } false
      ⟨{ Job.new actor with clockDomain }, journal⟩ = .ok () t) :
    Design.pinNames t.state.design.pins = Design.domainPinNames clockDomain ++
      (directedPorts actor).flatMap (fun e => Design.fifoPinNames e.1 e.2.name) ∧
    ((Design.pinNames t.state.design.pins).Nodup ↔
      ∀ name ∈ Design.domainPinNames clockDomain, ∀ e ∈ directedPorts actor,
        name ∉ Design.fifoPinNames e.1 e.2.name) := by
  obtain ⟨hvalid, hnames, hdomain⟩ := pinNames_run_all host actor clockDomain journal h
  refine ⟨hnames, ?_⟩
  rw [hnames]
  exact nodup_designPinNames_iff hvalid hdomain

theorem run_all_pin_names_halver : ∃ t, Registry.standard.run .closed { passes := ["all"] }
      false ⟨{ Job.new halver with clockDomain := "CLK:RESET" }, #[]⟩ = .ok () t ∧
    (Design.pinNames t.state.design.pins).Nodup := by
  obtain ⟨t, ht⟩ := exists_run_all .closed supported_halver (by decide) #[]
  refine ⟨t, ht, (run_all_pin_names .closed halver "CLK:RESET" #[] ht).2.mpr ?_⟩
  decide +kernel

/-- A clock may be called like the data of an input: two signals are shorted. -/
theorem pin_names_clash : ∃ t, Registry.standard.run .closed { passes := ["all"] } false
      ⟨{ Job.new halver with clockDomain := "IN_DATA:RESET" }, #[]⟩ = .ok () t ∧
    ¬ (Design.pinNames t.state.design.pins).Nodup := by
  have hsupported : Supported halver "IN_DATA:RESET" :=
    ⟨by decide +kernel, by decide, by decide, by decide, by decide +kernel, by decide +kernel⟩
  obtain ⟨t, ht⟩ := exists_run_all .closed hsupported (by decide) #[]
  refine ⟨t, ht, ?_⟩
  rw [(pinNames_run_all .closed halver "IN_DATA:RESET" #[] ht).2.1]
  decide +kernel

end Pass

end DataflowSynth
