/-
What the checks on an actor establish.

Each check walks a list and stops at the first defect, carrying along the names it has seen.  Read
off its outcome, it says that the names differ from one another and from the ones seen before, and
that what they refer to is there.  Everything that is built from an actor rests on `Valid`, the sum
of these facts.
-/
import DataflowSynth.Actor.Validation

namespace DataflowSynth.Actor

theorem bind_eq_ok_iff {x : Check} {f : Unit → Check} :
    (x >>= f) = .ok () ↔ x = .ok () ∧ f () = .ok () := by
  cases x <;> simp [bind, Except.bind]

theorem ensure_eq_ok_iff {p : Bool} {d : ActorDefect} : ensure p d = .ok () ↔ p = true := by
  cases p <;> simp [ensure]

/-! ### Walks that remember names -/

theorem checkPorts_eq_ok_iff (actor : String) (ps : List Port) :
    ∀ seen : List String, checkPorts actor seen ps = .ok () ↔
      (ps.map Port.name).Nodup ∧ (∀ p ∈ ps, p.name ∉ seen) ∧ ∀ p ∈ ps, p.buffer ≠ some 0 := by
  induction ps with
  | nil => intro seen; simp [checkPorts]
  | cons p ps ih =>
      intro seen
      simp only [checkPorts, bind_eq_ok_iff, ensure_eq_ok_iff, ih, List.map_cons, List.nodup_cons,
        List.forall_mem_cons]
      constructor
      · rintro ⟨hseen, hbuffer, hnodup, hrest, hbuffers⟩
        refine ⟨⟨?_, hnodup⟩, ⟨by simpa using hseen, fun q hq hmem => ?_⟩,
          by simpa using hbuffer, hbuffers⟩
        · intro hmem
          obtain ⟨q, hq, heq⟩ := List.mem_map.mp hmem
          exact hrest q hq (by simp [heq])
        · exact hrest q hq (List.mem_cons_of_mem _ hmem)
      · rintro ⟨⟨hp, hnodup⟩, ⟨hseen, hrest⟩, hbuffer, hbuffers⟩
        refine ⟨by simpa using hseen, by simpa using hbuffer, hnodup, fun q hq hmem => ?_, hbuffers⟩
        rcases List.mem_cons.mp hmem with heq | hmem
        · exact hp (heq ▸ List.mem_map_of_mem hq)
        · exact hrest q hq hmem

theorem checkStates_eq_ok_iff (states : List String) :
    ∀ seen : List String, checkStates seen states = .ok () ↔
      states.Nodup ∧ ∀ s ∈ states, s ∉ seen := by
  induction states with
  | nil => intro seen; simp [checkStates]
  | cons s states ih =>
      intro seen
      simp only [checkStates, bind_eq_ok_iff, ensure_eq_ok_iff, ih, List.nodup_cons,
        List.forall_mem_cons]
      constructor
      · rintro ⟨hseen, hnodup, hrest⟩
        exact ⟨⟨fun hmem => hrest s hmem (by simp), hnodup⟩, by simpa using hseen,
          fun t ht hmem => hrest t ht (List.mem_cons_of_mem _ hmem)⟩
      · rintro ⟨⟨hs, hnodup⟩, hseen, hrest⟩
        refine ⟨by simpa using hseen, hnodup, fun t ht hmem => ?_⟩
        rcases List.mem_cons.mp hmem with rfl | hmem
        · exact hs ht
        · exact hrest t ht hmem

theorem checkActions_eq_ok_iff (a : Actor) (xs : List Action) :
    ∀ seen : List String, checkActions a seen xs = .ok () ↔
      (xs.map Action.name).Nodup ∧ (∀ x ∈ xs, x.name ∉ seen) ∧
        ∀ x ∈ xs, checkAction a x = .ok () := by
  induction xs with
  | nil => intro seen; simp [checkActions]
  | cons x xs ih =>
      intro seen
      simp only [checkActions, bind_eq_ok_iff, ensure_eq_ok_iff, ih, List.map_cons,
        List.nodup_cons, List.forall_mem_cons]
      constructor
      · rintro ⟨hseen, hx, hnodup, hrest, hxs⟩
        refine ⟨⟨?_, hnodup⟩, ⟨by simpa using hseen, fun y hy hmem => ?_⟩, hx, hxs⟩
        · intro hmem
          obtain ⟨y, hy, heq⟩ := List.mem_map.mp hmem
          exact hrest y hy (by simp [heq])
        · exact hrest y hy (List.mem_cons_of_mem _ hmem)
      · rintro ⟨⟨hname, hnodup⟩, ⟨hseen, hrest⟩, hx, hxs⟩
        refine ⟨by simpa using hseen, hx, hnodup, fun y hy hmem => ?_, hxs⟩
        rcases List.mem_cons.mp hmem with heq | hmem
        · exact hname (heq ▸ List.mem_map_of_mem hy)
        · exact hrest y hy hmem

/-! ### References -/

theorem checkNames_eq_ok_iff (known : String → Bool) (defect : String → ActorDefect)
    (ns : List String) : checkNames known defect ns = .ok () ↔ ∀ n ∈ ns, known n = true := by
  induction ns with
  | nil => simp [checkNames]
  | cons n ns ih => simp [checkNames, bind_eq_ok_iff, ensure_eq_ok_iff, ih]

theorem checkGuard_eq_ok_iff (a : Actor) (x : Action) :
    checkGuard a x = .ok () ↔ ∃ p, a.procedure? x.guard = some p ∧ p.returnType = .bool := by
  unfold checkGuard
  cases a.procedure? x.guard with
  | none => simp
  | some p => simp [ensure_eq_ok_iff]

/-- What an action refers to is there. -/
structure ActionValid (a : Actor) (x : Action) : Prop where
  inputs : ∀ e ∈ x.inputs, (a.input? e.port).isSome
  peeks : ∀ e ∈ x.peeks, (a.input? e.port).isSome
  outputs : ∀ e ∈ x.outputs, (a.output? e.port).isSome
  body : (a.procedure? x.body).isSome
  guard : ∃ p, a.procedure? x.guard = some p ∧ p.returnType = .bool

theorem checkAction_eq_ok_iff (a : Actor) (x : Action) :
    checkAction a x = .ok () ↔ ActionValid a x := by
  simp only [checkAction, bind_eq_ok_iff, checkNames_eq_ok_iff, ensure_eq_ok_iff,
    checkGuard_eq_ok_iff, List.forall_mem_append, List.forall_mem_map]
  constructor
  · rintro ⟨⟨hin, hpeek⟩, hout, hbody, hguard⟩
    exact ⟨hin, hpeek, hout, hbody, hguard⟩
  · intro h
    exact ⟨⟨h.inputs, h.peeks⟩, h.outputs, h.body, h.guard⟩

/-- A transition leads from a state to a state, and its action is there. -/
structure TransitionValid (states actions : List String) (t : Transition) : Prop where
  source : t.source ∈ states
  target : t.target ∈ states
  action : t.action ∈ actions

theorem checkTransitions_eq_ok_iff (states actions : List String) (ts : List Transition) :
    checkTransitions states actions ts = .ok () ↔ ∀ t ∈ ts, TransitionValid states actions t := by
  induction ts with
  | nil => simp [checkTransitions]
  | cons t ts ih =>
      simp only [checkTransitions, bind_eq_ok_iff, ensure_eq_ok_iff, ih, List.forall_mem_cons,
        List.contains_iff_mem]
      constructor
      · rintro ⟨hsource, htarget, haction, hrest⟩
        exact ⟨⟨hsource, htarget, haction⟩, hrest⟩
      · rintro ⟨h, hrest⟩
        exact ⟨h.source, h.target, h.action, hrest⟩

/-- The states differ, and the machine starts in one of them. -/
structure FsmValid (actions : List String) (f : Fsm) : Prop where
  states : f.states.Nodup
  initial : f.initial ∈ f.states
  transitions : ∀ t ∈ f.transitions, TransitionValid f.states actions t

theorem checkFsm_eq_ok_iff (actions : List String) (f : Fsm) :
    checkFsm actions f = .ok () ↔ FsmValid actions f := by
  simp only [checkFsm, bind_eq_ok_iff, checkStates_eq_ok_iff, ensure_eq_ok_iff,
    checkTransitions_eq_ok_iff, List.contains_iff_mem]
  constructor
  · rintro ⟨⟨hstates, -⟩, hinitial, htransitions⟩
    exact ⟨hstates, hinitial, htransitions⟩
  · intro h
    exact ⟨⟨h.states, by simp⟩, h.initial, h.transitions⟩

/-! ### The actor -/

/-- Everything that an action or transition refers to exists, and names are used once. -/
structure Valid (a : Actor) : Prop where
  ports : (a.ports.map Port.name).Nodup
  buffers : ∀ p ∈ a.ports, p.buffer ≠ some 0
  names : (a.actions.map Action.name).Nodup
  actions : ∀ x ∈ a.actions, ActionValid a x
  fsm : ∀ f ∈ a.fsm, FsmValid (a.actions.map Action.name) f

theorem checks_eq_ok_iff (a : Actor) : a.validate = .ok () ↔ Valid a := by
  simp only [validate, bind_eq_ok_iff, checkPorts_eq_ok_iff, checkActions_eq_ok_iff,
    checkAction_eq_ok_iff]
  constructor
  · rintro ⟨⟨hports, -, hbuffers⟩, ⟨hnames, -, hactions⟩, hfsm⟩
    refine ⟨hports, hbuffers, hnames, hactions, fun f hf => ?_⟩
    rw [Option.mem_def.mp hf] at hfsm
    exact (checkFsm_eq_ok_iff _ f).mp hfsm
  · intro h
    refine ⟨⟨h.ports, by simp, h.buffers⟩, ⟨h.names, by simp, h.actions⟩, ?_⟩
    cases hfsm : a.fsm with
    | none => rfl
    | some f => exact (checkFsm_eq_ok_iff _ f).mpr (h.fsm f hfsm)

/-! ### Looking things up in a valid actor -/

/-- In a list without repeated names, everything is found under its own name. -/
theorem find?_name_of_nodup {α : Type} {name : α → String} {xs : List α}
    (h : (xs.map name).Nodup) {x : α} (hx : x ∈ xs) :
    xs.find? (fun y => name y = name x) = some x := by
  induction xs with
  | nil => simp at hx
  | cons y ys ih =>
      rw [List.map_cons, List.nodup_cons] at h
      rcases List.mem_cons.mp hx with rfl | hmem
      · simp
      · have hne : name y ≠ name x := fun heq => h.1 (heq ▸ List.mem_map_of_mem hmem)
        rw [List.find?_cons_of_neg (by simpa using hne)]
        exact ih h.2 hmem

namespace Valid

variable {a : Actor}

/-- An action is found under its name. -/
theorem action?_name (h : Valid a) {x : Action} (hx : x ∈ a.actions) :
    a.action? x.name = some x :=
  find?_name_of_nodup h.names hx

/-- The action of a transition is there. -/
theorem action?_transition (h : Valid a) {f : Fsm} (hf : a.fsm = some f) {t : Transition}
    (ht : t ∈ f.transitions) : ∃ x ∈ a.actions, a.action? t.action = some x := by
  obtain ⟨x, hx, hname⟩ := List.mem_map.mp ((h.fsm f hf).transitions t ht).action
  exact ⟨x, hx, hname ▸ h.action?_name hx⟩

end Valid

theorem name_of_input? {a : Actor} {name : String} {p : Port} (h : a.input? name = some p) :
    p.name = name := by
  simpa using List.find?_some h

theorem mem_inputs_of_input? {a : Actor} {name : String} {p : Port}
    (h : a.input? name = some p) : p ∈ a.inputs :=
  List.mem_of_find?_eq_some h

theorem name_of_output? {a : Actor} {name : String} {p : Port} (h : a.output? name = some p) :
    p.name = name := by
  simpa using List.find?_some h

theorem mem_outputs_of_output? {a : Actor} {name : String} {p : Port}
    (h : a.output? name = some p) : p ∈ a.outputs :=
  List.mem_of_find?_eq_some h

end DataflowSynth.Actor
