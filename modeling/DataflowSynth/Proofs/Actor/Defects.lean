/-
What an actor is refused for.

The checks stop at the first defect that they meet, and what they say of it is true: a name that is said
to be declared twice stands in its list twice, and what is said to be unknown is declared nowhere.  The
other way round, an actor with such a defect is not valid.  So the actors that are accepted are those
that have none.
-/
import DataflowSynth.Pass.Run
import DataflowSynth.Proofs.Actor.Validity
import Mathlib.Data.List.Duplicate

namespace DataflowSynth.Actor

variable {a : Actor} {d : ActorDefect}

/-- The actor has the defect.  That a name is reserved is no matter of these checks. -/
def Has (a : Actor) : ActorDefect → Prop
  | .duplicatePort port name => name = a.name ∧ List.Duplicate port (a.ports.map Port.name)
  | .emptyBuffer port => ∃ p ∈ a.ports, p.name = port ∧ p.buffer = some 0
  | .duplicateAction action => List.Duplicate action (a.actions.map Action.name)
  | .unknownInput action port => ∃ x ∈ a.actions, x.name = action ∧
      port ∈ x.inputs.ports ++ x.peeks.ports ∧ port ∉ a.inputs.map Port.name
  | .unknownOutput action port => ∃ x ∈ a.actions, x.name = action ∧
      port ∈ x.outputs.ports ∧ port ∉ a.outputs.map Port.name
  | .unknownProcedure action procedure => ∃ x ∈ a.actions, x.name = action ∧
      (procedure = x.body ∨ procedure = x.guard) ∧ procedure ∉ a.procedures.map Procedure.name
  | .guardNotBool guard action => ∃ x ∈ a.actions, x.name = action ∧ x.guard = guard ∧
      ∃ p, a.procedure? guard = some p ∧ p.returnType ≠ .bool
  | .duplicateState state => ∃ f, a.fsm = some f ∧ List.Duplicate state f.states
  | .unknownInitial state => ∃ f, a.fsm = some f ∧ f.initial = state ∧ state ∉ f.states
  | .unknownState action state => ∃ f, a.fsm = some f ∧ ∃ t ∈ f.transitions, t.action = action ∧
      (state = t.source ∨ state = t.target) ∧ state ∉ f.states
  | .unknownAction source target action => ∃ f, a.fsm = some f ∧
      ⟨source, target, action⟩ ∈ f.transitions ∧ action ∉ a.actions.map Action.name
  | .reservedName _ => False

theorem bind_eq_error_iff {x : Check} {f : Unit → Check} :
    (x >>= f) = .error d ↔ x = .error d ∨ x = .ok () ∧ f () = .error d := by
  cases x <;> simp [bind, Except.bind]

theorem ensure_eq_error_iff {p : Bool} {d' : ActorDefect} :
    ensure p d' = .error d ↔ p = false ∧ d' = d := by
  cases p <;> simp [ensure]

/-- A look-up by name finds something just if the name is declared. -/
theorem isSome_find?_name {α : Type} (name : α → String) (xs : List α) (n : String) :
    (xs.find? fun y => name y = n).isSome = true ↔ n ∈ xs.map name := by
  simp [List.find?_isSome]

/-! ### Names that are met again -/

/-- The name is in the list, and then once more or among those seen before. -/
def Repeats (seen names : List String) (n : String) : Prop :=
  (n ∈ seen ∧ n ∈ names) ∨ List.Duplicate n names

theorem Repeats.cons {seen names : List String} {m n : String} (h : Repeats (m :: seen) names n) :
    Repeats seen (m :: names) n := by
  rcases h with ⟨hseen, hn⟩ | htwice
  · rcases List.mem_cons.mp hseen with rfl | hseen
    · exact .inr (List.Mem.duplicate_cons_self hn)
    · exact .inl ⟨hseen, List.mem_cons_of_mem m hn⟩
  · exact .inr (htwice.duplicate_cons m)

theorem Repeats.duplicate {names : List String} {n : String} (h : Repeats [] names n) :
    List.Duplicate n names :=
  h.resolve_left fun hseen => List.not_mem_nil hseen.1

theorem checkPorts_error {actor : String} {ps : List Port} {seen : List String}
    (h : checkPorts actor seen ps = .error d) :
    (∃ n, d = .duplicatePort n actor ∧ Repeats seen (ps.map Port.name) n) ∨
      ∃ p ∈ ps, d = .emptyBuffer p.name ∧ p.buffer = some 0 := by
  induction ps generalizing seen with
  | nil => cases h
  | cons p ps ih =>
      simp only [checkPorts, bind_eq_error_iff, ensure_eq_error_iff] at h
      rcases h with ⟨hseen, rfl⟩ | ⟨-, ⟨hempty, rfl⟩ | ⟨-, hrest⟩⟩
      · exact .inl ⟨p.name, rfl, .inl ⟨by simpa using hseen, by simp⟩⟩
      · exact .inr ⟨p, by simp, rfl, by simpa using hempty⟩
      · rcases ih hrest with ⟨n, hd, hn⟩ | ⟨q, hq, hd⟩
        · exact .inl ⟨n, hd, hn.cons⟩
        · exact .inr ⟨q, List.mem_cons_of_mem p hq, hd⟩

theorem checkStates_error {states seen : List String} (h : checkStates seen states = .error d) :
    ∃ n, d = .duplicateState n ∧ Repeats seen states n := by
  induction states generalizing seen with
  | nil => cases h
  | cons s states ih =>
      simp only [checkStates, bind_eq_error_iff, ensure_eq_error_iff] at h
      rcases h with ⟨hseen, rfl⟩ | ⟨-, hrest⟩
      · exact ⟨s, rfl, .inl ⟨by simpa using hseen, by simp⟩⟩
      · obtain ⟨n, hd, hn⟩ := ih hrest
        exact ⟨n, hd, hn.cons⟩

theorem checkActions_error {xs : List Action} {seen : List String}
    (h : checkActions a seen xs = .error d) :
    (∃ n, d = .duplicateAction n ∧ Repeats seen (xs.map Action.name) n) ∨
      ∃ x ∈ xs, checkAction a x = .error d := by
  induction xs generalizing seen with
  | nil => cases h
  | cons x xs ih =>
      simp only [checkActions, bind_eq_error_iff, ensure_eq_error_iff] at h
      rcases h with ⟨hseen, rfl⟩ | ⟨-, hx | ⟨-, hrest⟩⟩
      · exact .inl ⟨x.name, rfl, .inl ⟨by simpa using hseen, by simp⟩⟩
      · exact .inr ⟨x, by simp, hx⟩
      · rcases ih hrest with ⟨n, hd, hn⟩ | ⟨y, hy, hd⟩
        · exact .inl ⟨n, hd, hn.cons⟩
        · exact .inr ⟨y, List.mem_cons_of_mem x hy, hd⟩

/-! ### Names that are not declared -/

theorem checkNames_error {known : String → Bool} {defect : String → ActorDefect} {ns : List String}
    (h : checkNames known defect ns = .error d) : ∃ n ∈ ns, known n = false ∧ d = defect n := by
  induction ns with
  | nil => cases h
  | cons n ns ih =>
      simp only [checkNames, bind_eq_error_iff, ensure_eq_error_iff] at h
      rcases h with ⟨hunknown, rfl⟩ | ⟨-, hrest⟩
      · exact ⟨n, by simp, hunknown, rfl⟩
      · obtain ⟨m, hm, hd⟩ := ih hrest
        exact ⟨m, List.mem_cons_of_mem n hm, hd⟩

theorem checkGuard_error {x : Action} (hx : x ∈ a.actions) (h : checkGuard a x = .error d) :
    a.Has d := by
  unfold checkGuard at h
  split at h
  · next hnone =>
    cases h
    refine ⟨x, hx, rfl, .inr rfl, fun hdeclared => ?_⟩
    have hfound := (isSome_find?_name Procedure.name a.procedures x.guard).mpr hdeclared
    exact absurd (hnone ▸ hfound : (none : Option Procedure).isSome = true) nofun
  · next p hp =>
    obtain ⟨hbool, rfl⟩ := ensure_eq_error_iff.mp h
    have hfound := List.find?_some hp
    have hname : p.name = x.guard := of_decide_eq_true hfound
    exact ⟨x, hx, rfl, hname.symm, p, hname ▸ hp, of_decide_eq_false hbool⟩

theorem checkAction_error {x : Action} (hx : x ∈ a.actions) (h : checkAction a x = .error d) :
    a.Has d := by
  simp only [checkAction, bind_eq_error_iff, ensure_eq_error_iff] at h
  rcases h with hreads | ⟨-, hwrites | ⟨-, ⟨hbody, rfl⟩ | ⟨-, hguard⟩⟩⟩
  · obtain ⟨n, hn, hunknown, rfl⟩ := checkNames_error hreads
    exact ⟨x, hx, rfl, hn, fun hdeclared => Bool.noConfusion
      (hunknown.symm.trans ((isSome_find?_name Port.name a.inputs n).mpr hdeclared))⟩
  · obtain ⟨n, hn, hunknown, rfl⟩ := checkNames_error hwrites
    exact ⟨x, hx, rfl, hn, fun hdeclared => Bool.noConfusion
      (hunknown.symm.trans ((isSome_find?_name Port.name a.outputs n).mpr hdeclared))⟩
  · exact ⟨x, hx, rfl, .inl rfl, fun hdeclared => Bool.noConfusion
      (hbody.symm.trans ((isSome_find?_name Procedure.name a.procedures x.body).mpr hdeclared))⟩
  · exact checkGuard_error hx hguard

theorem checkTransitions_error {f : Fsm} (hf : a.fsm = some f) {ts : List Transition}
    (hts : ∀ t ∈ ts, t ∈ f.transitions)
    (h : checkTransitions f.states (a.actions.map Action.name) ts = .error d) : a.Has d := by
  induction ts with
  | nil => cases h
  | cons t ts ih =>
      obtain ⟨ht, hrest⟩ := List.forall_mem_cons.mp hts
      simp only [checkTransitions, bind_eq_error_iff, ensure_eq_error_iff] at h
      rcases h with ⟨hsource, rfl⟩ | ⟨-, ⟨htarget, rfl⟩ | ⟨-, ⟨haction, rfl⟩ | ⟨-, hothers⟩⟩⟩
      · exact ⟨f, hf, t, ht, rfl, .inl rfl, by simpa using hsource⟩
      · exact ⟨f, hf, t, ht, rfl, .inr rfl, by simpa using htarget⟩
      · exact ⟨f, hf, ht, by simpa using haction⟩
      · exact ih hrest hothers

theorem checkFsm_error {f : Fsm} (hf : a.fsm = some f)
    (h : checkFsm (a.actions.map Action.name) f = .error d) : a.Has d := by
  simp only [checkFsm, bind_eq_error_iff, ensure_eq_error_iff] at h
  rcases h with hstates | ⟨-, ⟨hinitial, rfl⟩ | ⟨-, htransitions⟩⟩
  · obtain ⟨n, rfl, hn⟩ := checkStates_error hstates
    exact ⟨f, hf, hn.duplicate⟩
  · exact ⟨f, hf, rfl, by simpa using hinitial⟩
  · exact checkTransitions_error hf (fun _ ht => ht) htransitions

/-! ### The actor -/

/-- What the checks report is the case. -/
theorem has_of_validate_error (h : a.validate = .error d) : a.Has d := by
  simp only [validate, bind_eq_error_iff] at h
  rcases h with hports | ⟨-, hactions | ⟨-, hfsm⟩⟩
  · rcases checkPorts_error hports with ⟨n, rfl, hn⟩ | ⟨p, hp, rfl, hempty⟩
    · exact ⟨rfl, hn.duplicate⟩
    · exact ⟨p, hp, rfl, hempty⟩
  · rcases checkActions_error hactions with ⟨n, rfl, hn⟩ | ⟨x, hx, herror⟩
    · exact hn.duplicate
    · exact checkAction_error hx herror
  · split at hfsm
    · next f hf => exact checkFsm_error hf hfsm
    · cases hfsm

theorem Valid.not_has (h : Valid a) (d : ActorDefect) : ¬ a.Has d := by
  have htwice : ∀ {names : List String} {n : String}, names.Nodup → ¬ List.Duplicate n names :=
    fun hnodup => List.nodup_iff_forall_not_duplicate.mp hnodup _
  cases d with
  | duplicatePort port name => exact fun hhas => htwice h.ports hhas.2
  | emptyBuffer port =>
      rintro ⟨p, hp, -, hempty⟩
      exact h.buffers p hp hempty
  | duplicateAction action => exact htwice h.names
  | unknownInput action port =>
      rintro ⟨x, hx, -, hport, hunknown⟩
      refine hunknown ((isSome_find?_name Port.name a.inputs port).mp ?_)
      rcases List.mem_append.mp hport with hport | hport
      · obtain ⟨e, he, rfl⟩ := List.mem_map.mp hport
        exact (h.actions x hx).inputs e he
      · obtain ⟨e, he, rfl⟩ := List.mem_map.mp hport
        exact (h.actions x hx).peeks e he
  | unknownOutput action port =>
      rintro ⟨x, hx, -, hport, hunknown⟩
      obtain ⟨e, he, rfl⟩ := List.mem_map.mp hport
      exact hunknown ((isSome_find?_name Port.name a.outputs e.port).mp
        ((h.actions x hx).outputs e he))
  | unknownProcedure action procedure =>
      rintro ⟨x, hx, -, hwhich, hunknown⟩
      refine hunknown ((isSome_find?_name Procedure.name a.procedures procedure).mp ?_)
      rcases hwhich with rfl | rfl
      · exact (h.actions x hx).body
      · obtain ⟨p, hp, -⟩ := (h.actions x hx).guard
        exact Option.isSome_of_eq_some hp
  | guardNotBool guard action =>
      rintro ⟨x, hx, -, rfl, p, hp, hbool⟩
      obtain ⟨q, hq, hreturns⟩ := (h.actions x hx).guard
      obtain rfl := Option.some.inj (hp.symm.trans hq)
      exact hbool hreturns
  | duplicateState state =>
      rintro ⟨f, hf, hstate⟩
      exact htwice (h.fsm f hf).states hstate
  | unknownInitial state =>
      rintro ⟨f, hf, rfl, hunknown⟩
      exact hunknown (h.fsm f hf).initial
  | unknownState action state =>
      rintro ⟨f, hf, t, ht, -, hwhich, hunknown⟩
      have htransition := (h.fsm f hf).transitions t ht
      rcases hwhich with rfl | rfl
      · exact hunknown htransition.source
      · exact hunknown htransition.target
  | unknownAction source target action =>
      rintro ⟨f, hf, ht, hunknown⟩
      exact hunknown ((h.fsm f hf).transitions _ ht).action
  | reservedName actor => exact id

/-- The checks accept exactly the valid actors, which are those without a defect.  A job with any other
is refused as malformed, for a defect that its actor has, and nothing is done to it. -/
theorem validate_sound_complete (a : Actor) :
    (a.validate = .ok () ↔ Valid a) ∧ (Valid a ↔ ∀ d, ¬ a.Has d) ∧
      ∀ d, a.validate = .error d → a.Has d ∧ ∀ s : Traced Job, s.state.actor = a →
        Pass.checkActor s = .error (.error (.malformed d)) s := by
  refine ⟨checks_eq_ok_iff a, ⟨Valid.not_has, fun hnone => ?_⟩, fun d hd =>
    ⟨has_of_validate_error hd, fun s hs => ?_⟩⟩
  · cases hvalidate : a.validate with
    | ok _ => exact (checks_eq_ok_iff a).mp hvalidate
    | error d => exact absurd (has_of_validate_error hvalidate) (hnone d)
  · rw [Pass.checkActor, Build.bind_apply, Build.look_apply, hs]
    simp only [Build.bind_apply, hd]
    rfl

end DataflowSynth.Actor
