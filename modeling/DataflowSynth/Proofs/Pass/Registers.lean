/-
State variables from the actor to the registers.

The design has a register for each name of a state variable, and it is made from the last declaration
of the name.  So the register of a variable that the scheduler accesses is the one that the scheduler
expects, as long as the actor itself does not declare the name.
-/
import DataflowSynth.Proofs.Pass.Outfit
import DataflowSynth.Proofs.Scheduler.StateVars

namespace DataflowSynth

open Build Scheduler

namespace Synthesis

/-- The register of a state variable. -/
def registerOf (v : Variable) : Design.Register :=
  { name := v.name, signal := signalOf v.type, initial := v.initial.getD 0 }

variable {s : Traced Design}

/-- The last declaration of a name decides. -/
theorem wp_addVariables_last (vs : List Variable) :
    wp (vs.forM addVariable) (fun _ t => ∀ name, t.state.registers.find? name =
      ((declaredAs vs name).getLast?.map registerOf).or (s.state.registers.find? name))
      (fun _ _ => True) s := by
  induction vs generalizing s with
  | nil => exact fun name => rfl
  | cons v vs ih =>
      rw [wp_forM_cons]
      simp only [addVariable]
      split
      · trivial
      · rw [Design.addRegister, wp_change]
        refine wp_mono ih (fun _ t ht name => ?_) fun _ _ h => h
        rw [ht name]
        by_cases hname : v.name = name
        · subst hname
          rw [OrderedMap.find?_put_self]
          simp only [declaredAs, List.filter_cons, decide_true, if_true]
          rw [List.getLast?_cons]
          cases (vs.filter (·.name = v.name)).getLast? <;> rfl
        · rw [OrderedMap.find?_put_of_ne _ (Ne.symm hname)]
          simp [declaredAs, hname]

theorem wp_addResources_registers (hs : Bare s.state) {actor : Actor} (hvalid : Actor.Valid actor)
    (clockDomain : String) :
    wp (addResources clockDomain actor) (fun _ t => ∀ name, t.state.registers.find? name =
      (declaredAs actor.stateVars name).getLast?.map registerOf) (fun _ _ => True) s := by
  refine wp_addResources_stocked hs hvalid clockDomain fun fifos t ht => ?_
  refine wp_mono (wp_addVariables_last actor.stateVars) (fun _ u hu name => ?_) fun _ _ h => h
  rw [hu name, ht.registers, OrderedMap.find?_empty, Option.or_none]

end Synthesis

namespace Pass

open Synthesis

variable {s : Traced Job}

/-- Lowered jobs are built with the last declarations of their state variables. -/
theorem wp_run_buildDesign_registers (host : Host) (hdesign : Bare s.state.design)
    (htasks : s.state.tasks.isEmpty = true) (hvalid : Actor.Valid s.state.actor) {p : Procedure}
    (hscheduler : s.state.scheduler = some p) {skipFill : Bool}
    (hlower : lower s.state.actor skipFill = .ok p) :
    wp (Pass.run host .designActor) (fun _ t => ∀ name, t.state.design.registers.find? name =
      (declaredAs s.state.actor.stateVars name).getLast?.map registerOf) (fun _ _ => True) s := by
  refine wp_run_buildDesign hscheduler htasks ?_
  let last (registers : OrderedMap String Design.Register) : Prop := ∀ name,
    registers.find? name = (declaredAs s.state.actor.stateVars name).getLast?.map registerOf
  have hresources := wp_addResources_registers (s := ⟨s.state.design, s.journal⟩) hdesign hvalid
    s.state.clockDomain
  exact wp_buildDesign_shows (g := Design.registers) (R := last) (fun _ _ _ => rfl) hdesign hvalid
    hscheduler hlower hresources

/-! ### From the actor to the registers -/

/-- Every state variable that the scheduler accesses is one that lowering generates.  If the actor does
not declare its name, the lowered actor declares it exactly once, with the generated type and initial
value.  Otherwise the declarations that the actor brings along stay as they are, and no other is added.
The register that is built for the variable is that of its last declaration. -/
theorem accessed_declared (host : Host) (actor : Actor) (clockDomain : String) (settings : List String)
    (journal : Journal) {s t : Traced Job}
    (hcheck : Pass.run host .wellFormed ⟨{ Job.new actor with clockDomain, settings }, journal⟩ =
      .ok () s)
    (hlower : Pass.run host .actionScheduler s = .ok () t) :
    ∃ scheduler, t.state.scheduler = some scheduler ∧ ∀ v ∈ scheduler.accessed,
      ∃ g, Generated actor g ∧ g.name = v ∧
        declaredAs t.state.actor.stateVars v =
          (if declaredAs actor.stateVars v = [] then [g] else declaredAs actor.stateVars v) ∧
        ∀ u, Pass.run host .designActor t = .ok () u →
          u.state.design.registers.find? v =
            (declaredAs t.state.actor.stateVars v).getLast?.map registerOf := by
  have hs : wp (Pass.run host .wellFormed) _ _
      ⟨{ Job.new actor with clockDomain, settings }, journal⟩ := wp_run_checkActor_first
  obtain ⟨hs, hchecked⟩ := of_wp_ok hs hcheck
  have ht := wp_run_lowerActor_settings (s := s) host (hs ▸ hchecked.valid) (by rw [hs]; rfl)
  obtain ⟨skipFill, p, hp, ht⟩ := of_wp_ok ht hlower
  rw [hs] at hp ht
  have hregisters : ∀ u, Pass.run host .designActor t = .ok () u → ∀ name,
      u.state.design.registers.find? name =
        (declaredAs t.state.actor.stateVars name).getLast?.map registerOf := by
    intro u hu
    have hbuilt := wp_run_buildDesign_registers (s := t) host (by rw [ht]; exact bare_new actor.name)
      (by rw [ht]; rfl) (by rw [ht]; exact valid_declareState hchecked.valid) (by rw [ht])
      (by rw [ht]; exact hp)
    exact of_wp_ok hbuilt hu
  refine ⟨p, by rw [ht], fun v hv => ?_⟩
  rw [lower_declareState] at hp
  obtain ⟨g, hg, rfl⟩ := generated_of_accessed hchecked.valid hp hv
  refine ⟨g, hg, rfl, ?_, fun u hu => hregisters u hu g.name⟩
  rw [ht]
  exact hg.declaredAs

/-- The passes up to the design end well for what can be built. -/
theorem exists_runs (host : Host) {actor : Actor} {clockDomain : String}
    (h : Supported actor clockDomain)
    (hroom : (actor.ports.filter (·.buffer.isSome)).length + 1 < UInt32.size) :
    ∃ s t u p, Pass.run host .wellFormed ⟨{ Job.new actor with clockDomain, settings := [] }, #[]⟩ =
        .ok () s ∧
      Pass.run host .actionScheduler s = .ok () t ∧ Pass.run host .designActor t = .ok () u ∧
      t.state = { Job.new actor with
        clockDomain, actor := declareState actor, scheduler := some p, settings := [] } ∧
      lower (declareState actor) false = .ok p := by
  have hchecked : wp (Pass.run host .wellFormed)
      (fun _ t => t.state = { Job.new actor with clockDomain, settings := [] } ∧ Actor.Valid actor)
      (fun _ _ => False) ⟨{ Job.new actor with clockDomain, settings := [] }, #[]⟩ := by
    have hcheck : wp checkActor _ (Refused actor clockDomain)
        ⟨{ Job.new actor with clockDomain, settings := [] }, #[]⟩ := wp_checkActor
    refine wp_run_checkActor (wp_mono hcheck (fun _ _ ht => ⟨ht.1, ht.2.1⟩) fun f t hf => ?_)
    cases f with
    | abort a => exact hf
    | error e => exact hf h
  obtain ⟨_, s, hs, hjob, hvalid⟩ := exists_of_wp hchecked
  have hlowered : wp (Pass.run host .actionScheduler) _ (fun _ _ => False) s :=
    wp_run_lowerActor (by rw [hjob]) (by rw [hjob]; rfl) (wp_lowerActor (by rw [hjob]; exact hvalid) false)
  obtain ⟨_, t, ht, p, hp, hjob'⟩ := exists_of_wp hlowered
  rw [hjob] at hp hjob'
  have hplain : Plain (declareState actor) := h.plain
  have hbuilt : wp (Pass.run host .designActor) _ (fun _ _ => False) t :=
    wp_run_buildDesign (by rw [hjob']) (by rw [hjob']; rfl) (wp_buildDesign
      (by rw [hjob']; exact bare_new actor.name) (by rw [hjob']; exact valid_declareState hvalid)
      (by rw [hjob']; exact hroom) (by rw [hjob']) (by rw [hjob']; exact hp)
      (by rw [hjob']; exact fun hclock => (hclock.elim h.clock h.reset).elim)
      (by rw [hjob']; exact fun hnot => (hnot hplain).elim))
  obtain ⟨_, u, hu, -⟩ := exists_of_wp hbuilt
  exact ⟨s, t, u, p, hs, ht, hu, hjob', hp⟩

/-- A scheduler accesses a variable, as far as it can be made at all. -/
theorem mem_accessed {actor : Actor} {skipFill : Bool} {p : Procedure} {v : String}
    (hp : lower actor skipFill = .ok p)
    (h : (lower actor skipFill).toOption.any (v ∈ ·.accessed) = true) : v ∈ p.accessed := by
  rw [hp] at h
  exact of_decide_eq_true h

theorem accessed_declared_relay : ∃ t u : Traced Job, ∃ p, t.state.scheduler = some p ∧
    "state_full" ∈ p.accessed ∧
    declaredAs t.state.actor.stateVars "state_full" = [⟨"state_full", .bool, some 0⟩] ∧
    u.state.design.registers.find? "state_full" = some ⟨"state_full", ⟨1, false⟩, 0⟩ := by
  have hsupported : Supported relay "CLK:RESET" :=
    ⟨rfl, by decide, by decide, by decide, by decide +kernel, by decide +kernel⟩
  obtain ⟨s, t, u, p, hs, ht, hu, hjob, hp⟩ := exists_runs .closed hsupported (by decide)
  have hmem : "state_full" ∈ p.accessed := mem_accessed hp (by decide +kernel)
  obtain ⟨p', hp', hdeclared⟩ := accessed_declared .closed relay "CLK:RESET" [] #[] hs ht
  obtain rfl : p = p' := by
    rw [hjob] at hp'
    exact Option.some.inj hp'
  obtain ⟨g, -, -, -, hregister⟩ := hdeclared _ hmem
  have hvars : declaredAs t.state.actor.stateVars "state_full" = [⟨"state_full", .bool, some 0⟩] := by
    have hactor : t.state.actor = declareState relay := by rw [hjob]
    rw [hactor]
    decide +kernel
  refine ⟨t, u, p, hp', hmem, hvars, ?_⟩
  rw [hregister u hu, hvars]
  rfl

/-- An actor that declares the variable of a state itself, and differently. -/
def squatter : Actor where
  name := "squatter"
  stateVars := [{ name := "state_A", type := .int 8, initial := some 5 }]
  fsm := some { initial := "A", states := ["A"], transitions := [] }

/-- The variable of the initial state may be a number that is neither true nor false. -/
theorem accessed_declared_otherwise : ∃ s t u p,
    Pass.run .closed .wellFormed
      ⟨{ Job.new squatter with clockDomain := "CLK:RESET", settings := [] }, #[]⟩ = .ok () s ∧
    Pass.run .closed .actionScheduler s = .ok () t ∧
    Pass.run .closed .designActor t = .ok () u ∧
    t.state.scheduler = some p ∧ "state_A" ∈ p.accessed ∧
    declaredAs t.state.actor.stateVars "state_A" = [⟨"state_A", .int 8, some 5⟩] ∧
    u.state.design.registers.find? "state_A" = some ⟨"state_A", ⟨8, true⟩, 5⟩ := by
  have hsupported : Supported squatter "CLK:RESET" :=
    ⟨rfl, by decide, by decide, by decide, by decide +kernel, by decide +kernel⟩
  obtain ⟨s, t, u, p, hs, ht, hu, hjob, hp⟩ := exists_runs .closed hsupported (by decide)
  have hvars : declaredAs t.state.actor.stateVars "state_A" = [⟨"state_A", .int 8, some 5⟩] := by
    have hactor : t.state.actor = declareState squatter := by rw [hjob]
    rw [hactor]
    decide +kernel
  have hregisters := wp_run_buildDesign_registers (s := t) .closed
    (by rw [hjob]; exact bare_new _) (by rw [hjob]; rfl)
    (by rw [hjob]; exact valid_declareState ((Actor.checks_eq_ok_iff _).mp hsupported.valid))
    (by rw [hjob]) (by rw [hjob]; exact hp)
  refine ⟨s, t, u, p, hs, ht, hu, by rw [hjob], mem_accessed hp (by decide +kernel), hvars, ?_⟩
  rw [of_wp_ok hregisters hu "state_A", hvars]
  rfl

end Pass

end DataflowSynth
