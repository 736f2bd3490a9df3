/-
The encoding of the machine is kept by every round, whether it fails or not.

A round can only fail in the checks, when a guard or a port has no answer, and the checks set nothing
but locals.  So a round that fails has changed no state variable, and when the choice begins, every
flag that it tests has a value.  From there at most one candidate fires, and what it stores moves the
one mark of the machine from one state to another.

What the flags say does not matter for this, so nothing is asked of the patterns of actions.
-/
import DataflowSynth.Proofs.Build.Outcome
import DataflowSynth.Proofs.Scheduler.Refinement

namespace DataflowSynth

open Build

/-- The local that an instruction sets, if it does nothing else. -/
def Instruction.sets? : Instruction → Option String
  | .assign target _ | .call (some target) _ | .portStatus target _ => some target
  | .load _ _ | .store _ _ | .call none _ | .ret _ => none

namespace Dispatcher

variable {d : Dispatcher} {s : Traced Round} {r r' r'' : Round}

theorem Runs.unique {x : Step Unit} (h : Runs x r r') (h' : Runs x r r'') : r' = r'' := by
  have heq := (h #[]).symm.trans (h' #[])
  cases heq
  rfl

theorem Runs.wp_iff {x : Step Unit} {Q : Unit → Traced Round → Prop}
    {F : Failure → Traced Round → Prop} {j : Journal} (h : Runs x r r') :
    wp x Q F ⟨r, j⟩ ↔ Q () ⟨r', j⟩ := by
  unfold wp
  rw [h j]

/-! ### Instructions that set locals -/

/-- The two points of a round have the same state variables and effects. -/
structure SameEffects (r r' : Round) : Prop where
  state : r'.state = r.state
  fired : r'.fired = r.fired

/-- In addition only the targets have changed, and now have values. -/
structure SetsOnly (targets : List String) (r r' : Round) : Prop extends SameEffects r r' where
  others : ∀ v, v ∉ targets → r'.locals[v]? = r.locals[v]?
  assigned : ∀ v, r.locals[v]?.isSome ∨ v ∈ targets → r'.locals[v]?.isSome

theorem SameEffects.trans (h : SameEffects r r') (h' : SameEffects r' r'') : SameEffects r r'' :=
  ⟨h'.state.trans h.state, h'.fired.trans h.fired⟩

theorem SetsOnly.refl (r : Round) : SetsOnly [] r r :=
  { state := rfl, fired := rfl, others := fun _ _ => rfl, assigned := by simp }

theorem SetsOnly.trans {vs ws : List String} (h : SetsOnly vs r r') (h' : SetsOnly ws r' r'') :
    SetsOnly (vs ++ ws) r r'' where
  toSameEffects := h.toSameEffects.trans h'.toSameEffects
  others v hv := by
    rw [List.mem_append, not_or] at hv
    rw [h'.others v hv.2, h.others v hv.1]
  assigned v hv := by
    apply h'.assigned
    rw [List.mem_append, ← or_assoc] at hv
    exact hv.imp_left (h.assigned v)

theorem setsOnly_insert (r : Round) (v : String) (x : Int64) :
    SetsOnly [v] r { r with locals := r.locals.insert v x } where
  state := rfl
  fired := rfl
  others w hw := by
    rw [List.mem_singleton] at hw
    exact (Scheduler.insert_decides r.locals v x).2 w hw
  assigned w hw := by
    rw [List.mem_singleton] at hw
    show (r.locals.insert v x)[w]?.isSome
    by_cases heq : w = v
    · rw [heq, (Scheduler.insert_decides r.locals v x).1]
      rfl
    · rw [(Scheduler.insert_decides r.locals v x).2 w heq]
      exact hw.resolve_right heq

theorem wp_eval {Q : Int64 → Traced Round → Prop} {F : Failure → Traced Round → Prop} {e : Expr}
    (hok : ∀ x, Q x s) (herror : ∀ x, F x s) : wp (eval e) Q F s := by
  rw [eval, wp_bind, wp_look]
  cases e.eval s.state.locals with
  | ok x => exact hok x
  | error x => exact herror (.error x)

theorem wp_demand {Q : Bool → Traced Round → Prop} {F : Failure → Traced Round → Prop}
    {answer : Option Bool} {refusal : Refusal} (hok : ∀ x, Q x s) (herror : ∀ x, F x s) :
    wp (demand answer refusal) Q F s := by
  cases answer with
  | some x => exact hok x
  | none => exact herror _

/-- Such an instruction may fail, but then it has done nothing. -/
theorem wp_exec_sets {i : Instruction} {v : String} (hi : i.sets? = some v) :
    wp (d.exec i) (fun _ t => SetsOnly [v] s.state t.state)
      (fun _ t => SameEffects s.state t.state) s := by
  have hsame : ∀ x : Failure, (fun (_ : Failure) (t : Traced Round) =>
      SameEffects s.state t.state) x s := fun _ => ⟨rfl, rfl⟩
  cases i with
  | assign target value =>
      cases hi
      rw [exec, wp_bind]
      exact wp_eval (fun x => setsOnly_insert s.state v x) hsame
  | call target procedure =>
      cases target with
      | none => cases hi
      | some target =>
          cases hi
          rw [exec, wp_bind]
          exact wp_demand (fun x => setsOnly_insert s.state v (truth x)) hsame
  | portStatus target port =>
      cases hi
      rw [exec, wp_bind]
      exact wp_demand (fun x => setsOnly_insert s.state v (truth x)) hsame
  | load target source => cases hi
  | store target value => cases hi
  | ret value => cases hi

theorem wp_instructions_set {is : List Instruction} (his : ∀ i ∈ is, i.sets?.isSome) :
    wp (is.forM d.exec) (fun _ t => SetsOnly (is.filterMap Instruction.sets?) s.state t.state)
      (fun _ t => SameEffects s.state t.state) s := by
  induction is generalizing s with
  | nil => exact SetsOnly.refl s.state
  | cons i is ih =>
      obtain ⟨v, hv⟩ := Option.isSome_iff_exists.mp (his i (by simp))
      rw [wp_forM_cons]
      refine wp_mono (wp_exec_sets hv) (fun _ t ht => ?_) fun _ _ h => h
      refine wp_mono (ih fun i' hi' => his i' (by simp [hi'])) (fun _ u hu => ?_) fun _ u hu => ?_
      · rw [List.filterMap_cons_some hv]
        exact ht.trans hu
      · exact ht.toSameEffects.trans hu

theorem runBlocks_basics (iss : List (List Instruction)) :
    runBlock.runBlocks d (iss.map .basic) = iss.flatten.forM d.exec := by
  induction iss with
  | nil => rfl
  | cons is iss ih =>
      rw [List.map_cons, runBlock.runBlocks, runBlock, ih]
      show _ = forM (is ++ iss.flatten) d.exec
      rw [List.forM_append]
      rfl

end Dispatcher

namespace Scheduler

open Actor Dispatcher

variable {actor : Actor} {d : Dispatcher} {a : Action} {skipFill : Bool}

/-! ### The checks set locals -/

theorem mapM_ok {ε α β : Type} {f : α → Except ε β} {xs : List α} {ys : List β}
    (h : xs.mapM f = .ok ys) :
    (∀ y ∈ ys, ∃ x ∈ xs, f x = .ok y) ∧ ∀ x ∈ xs, ∃ y ∈ ys, f x = .ok y := by
  induction xs generalizing ys with
  | nil =>
      cases h
      simp
  | cons x xs ih =>
      rw [List.mapM_cons] at h
      cases hx : f x with
      | error e =>
          rw [hx] at h
          cases h
      | ok y =>
          cases hxs : xs.mapM f with
          | error e =>
              rw [hx, hxs] at h
              cases h
          | ok zs =>
              rw [hx, hxs] at h
              cases h
              obtain ⟨hfrom, hto⟩ := ih hxs
              refine ⟨List.forall_mem_cons.mpr ⟨⟨x, by simp, hx⟩, fun z hz => ?_⟩,
                List.forall_mem_cons.mpr ⟨⟨y, by simp, hx⟩, fun z hz => ?_⟩⟩
              · obtain ⟨w, hw, heq⟩ := hfrom z hz
                exact ⟨w, by simp [hw], heq⟩
              · obtain ⟨w, hw, heq⟩ := hto z hz
                exact ⟨w, by simp [hw], heq⟩

/-- The instructions set locals of the checks of an action, and nothing else. -/
def ChecksOnly (a : Action) (is : List Instruction) : Prop :=
  ∀ i ∈ is, ∃ v, i.sets? = some v ∧ CheckLocal a v

theorem ChecksOnly.append {is js : List Instruction} (his : ChecksOnly a is) (hjs : ChecksOnly a js) :
    ChecksOnly a (is ++ js) :=
  List.forall_mem_append.mpr ⟨his, hjs⟩

theorem ChecksOnly.single {i : Instruction} {v : String} (hi : i.sets? = some v)
    (hv : CheckLocal a v) : ChecksOnly a [i] :=
  List.forall_mem_singleton.mpr ⟨v, hi, hv⟩

theorem tokenCheck_checks {e : TokenCount} {c : PortCheck} (h : tokenCheck actor a e = .ok c) :
    ChecksOnly a c.part.instructions := by
  unfold tokenCheck at h
  split at h
  · cases h
  · split at h
    · cases h
      exact .single rfl (.port (.inl rfl))
    · cases h
      exact .single rfl (.port (.inr (.inr rfl)))

theorem spaceCheck_checks {e : TokenCount} {c : PortCheck} (h : spaceCheck actor a e = .ok c) :
    ChecksOnly a c.part.instructions := by
  unfold spaceCheck at h
  split at h
  · cases h
  · split at h
    · cases h
      exact .single rfl (.port (.inr (.inl rfl)))
    · cases h
      exact .single rfl (.port (.inr (.inr rfl)))

theorem joined_checks {cs : List PortCheck} (h : ∀ c ∈ cs, ChecksOnly a c.part.instructions) :
    ChecksOnly a (joined cs).instructions := by
  intro i hi
  rw [joined_instructions, List.mem_flatMap] at hi
  obtain ⟨c, hc, hi⟩ := hi
  exact h c hc i hi

theorem duePart_checks {p : Part} (h : duePart actor a = .ok p) :
    ChecksOnly a p.instructions ∧ goFlag a ∈ p.instructions.filterMap Instruction.sets? := by
  unfold duePart at h
  cases hcs : a.inputs.mapM (tokenCheck actor a) with
  | error e =>
      rw [hcs] at h
      cases h
  | ok cs =>
      rw [hcs] at h
      have hjoined : ChecksOnly a (joined cs).instructions := joined_checks fun c hc => by
        obtain ⟨e, -, he⟩ := (mapM_ok hcs).1 c hc
        exact tokenCheck_checks he
      have hguard : ChecksOnly a [.call (some ("return_" ++ a.guard)) a.guard] := .single rfl .guard
      have hgo : ∀ x, ChecksOnly a [.assign (goFlag a) x] := fun x => .single rfl .go
      cases hall : allFlags? cs with
      | none =>
          simp only [bind, Except.bind, hall] at h
          cases h
          exact ⟨hguard.append (hgo _), List.mem_filterMap.mpr ⟨.assign (goFlag a) _,
            List.mem_append_right _ (List.mem_singleton_self _), rfl⟩⟩
      | some all =>
          simp only [bind, Except.bind, hall] at h
          cases h
          exact ⟨((hjoined.append (.single rfl .allTokens)).append hguard).append (hgo _),
            List.mem_filterMap.mpr ⟨.assign (goFlag a) _,
              List.mem_append_right _ (List.mem_singleton_self _), rfl⟩⟩

theorem firePart_checks {p : Part} (h : firePart actor a = .ok p) :
    ChecksOnly a p.instructions ∧ fireFlag a ∈ p.instructions.filterMap Instruction.sets? := by
  unfold firePart at h
  cases hcs : a.outputs.mapM (spaceCheck actor a) with
  | error e =>
      rw [hcs] at h
      cases h
  | ok cs =>
      rw [hcs] at h
      have hjoined : ChecksOnly a (joined cs).instructions := joined_checks fun c hc => by
        obtain ⟨e, -, he⟩ := (mapM_ok hcs).1 c hc
        exact spaceCheck_checks he
      have hfire : ∀ x, ChecksOnly a [.assign (fireFlag a) x] := fun x => .single rfl .fire
      cases hall : allFlags? cs with
      | none =>
          simp only [bind, Except.bind, hall] at h
          cases h
          exact ⟨hfire _, List.mem_filterMap.mpr ⟨_, List.mem_singleton_self _, rfl⟩⟩
      | some all =>
          simp only [bind, Except.bind, hall] at h
          cases h
          have hlast : ChecksOnly a [.assign ("spaceAvailability_" ++ a.name) all,
              .assign (fireFlag a) (.var ("spaceAvailability_" ++ a.name))] :=
            ChecksOnly.append (.single rfl .allSpace) (hfire _)
          exact ⟨hjoined.append hlast, List.mem_filterMap.mpr ⟨.assign (fireFlag a) _,
            List.mem_append_right _ (List.mem_cons_of_mem _ (List.mem_singleton_self _)), rfl⟩⟩

/-- The two checks of an action set locals of its own, among them its two flags. -/
theorem checks_ok {ps : List Part} (h : checks actor a = .ok ps) :
    ChecksOnly a (ps.flatMap Part.instructions) ∧
      goFlag a ∈ (ps.flatMap Part.instructions).filterMap Instruction.sets? ∧
      fireFlag a ∈ (ps.flatMap Part.instructions).filterMap Instruction.sets? := by
  unfold checks at h
  cases hdue : duePart actor a with
  | error e =>
      rw [hdue] at h
      cases h
  | ok due =>
      cases hfire : firePart actor a with
      | error e =>
          rw [hdue, hfire] at h
          cases h
      | ok fire =>
          rw [hdue, hfire] at h
          cases h
          obtain ⟨hdueOnly, hgo⟩ := duePart_checks hdue
          obtain ⟨hfireOnly, hcan⟩ := firePart_checks hfire
          simp only [List.flatMap_cons, List.flatMap_nil, List.append_nil, List.filterMap_append,
            List.mem_append]
          exact ⟨hdueOnly.append hfireOnly, .inl hgo, .inr hcan⟩

/-- The flags that the choice tests have values. -/
def HasFlags (actor : Actor) (locals : Valuation) : Prop :=
  ∀ a ∈ actor.actions, locals[goFlag a]?.isSome ∧ locals[fireFlag a]?.isSome

/-- The checks of all actions, whether one of them fails or not. -/
theorem wp_checks {parts : List (List Part)} (hparts : actor.actions.mapM (checks actor) = .ok parts)
    (s : Traced Round) :
    wp (runBlock.runBlocks d (parts.flatten.map fun p => .basic p.instructions))
      (fun _ t => SameEffects s.state t.state ∧ HasFlags actor t.state.locals ∧
        ∀ v, t.state.locals[stateLocal v]? = s.state.locals[stateLocal v]?)
      (fun _ t => SameEffects s.state t.state) s := by
  have hmem : ∀ i ∈ (parts.flatten.map Part.instructions).flatten,
      ∃ a ∈ actor.actions, ∃ v, i.sets? = some v ∧ CheckLocal a v := by
    intro i hi
    simp only [List.mem_flatten, List.mem_map] at hi
    obtain ⟨_, ⟨p, ⟨ps, hps, hp⟩, rfl⟩, hi⟩ := hi
    obtain ⟨a, ha, hchecks⟩ := (mapM_ok hparts).1 ps hps
    exact ⟨a, ha, (checks_ok hchecks).1 i (List.mem_flatMap.mpr ⟨p, hp, hi⟩)⟩
  have hsub : ∀ ps ∈ parts, ∀ v ∈ (ps.flatMap Part.instructions).filterMap Instruction.sets?,
      v ∈ (parts.flatten.map Part.instructions).flatten.filterMap Instruction.sets? := by
    intro ps hps v hv
    obtain ⟨i, hi, hv⟩ := List.mem_filterMap.mp hv
    obtain ⟨p, hp, hi⟩ := List.mem_flatMap.mp hi
    refine List.mem_filterMap.mpr ⟨i, List.mem_flatten.mpr ⟨p.instructions, ?_, hi⟩, hv⟩
    exact List.mem_map_of_mem (List.mem_flatten.mpr ⟨ps, hps, hp⟩)
  have hblocks : parts.flatten.map (fun p => Block.basic p.instructions) =
      (parts.flatten.map Part.instructions).map .basic := by
    rw [List.map_map]
    rfl
  rw [hblocks, runBlocks_basics]
  refine wp_mono (wp_instructions_set fun i hi => ?_) (fun _ t ht => ?_) fun _ _ h => h
  · obtain ⟨a, -, v, hv, -⟩ := hmem i hi
    rw [hv]
    rfl
  · refine ⟨ht.toSameEffects, fun a ha => ?_, fun v => ht.others _ fun hv => ?_⟩
    · obtain ⟨ps, hps, hchecks⟩ := (mapM_ok hparts).2 a ha
      obtain ⟨-, hgo, hcan⟩ := checks_ok hchecks
      exact ⟨ht.assigned _ (.inr (hsub ps hps _ hgo)), ht.assigned _ (.inr (hsub ps hps _ hcan))⟩
    · obtain ⟨i, hi, hset⟩ := List.mem_filterMap.mp hv
      obtain ⟨a, -, w, hw, hlocal⟩ := hmem i hi
      rw [hw] at hset
      exact hlocal.ne_stateLocal v (Option.some.inj hset)

/-! ### The choice fires at most once -/

/-- Whatever the flags say, a chain fires one of its candidates or none. -/
theorem chain_ends {cs : List Candidate} {r : Round} {P : Round → Prop}
    (hflags : ∀ c ∈ cs, r.locals[goFlag c.action]?.isSome ∧ r.locals[fireFlag c.action]?.isSome)
    (hstay : P r)
    (hfire : ∀ c ∈ cs, ∃ s, Runs ((firing actor skipFill c).forM d.exec) r s ∧ P s) :
    ∃ s, Runs (runBlock.runBlocks d (chain actor skipFill cs)) r s ∧ P s := by
  induction cs with
  | nil => exact ⟨r, runs_blocks_nil r, hstay⟩
  | cons c cs ih =>
      obtain ⟨hgo, hcan⟩ := hflags c (by simp)
      obtain ⟨go, hgo⟩ := Option.isSome_iff_exists.mp hgo
      obtain ⟨can, hcan⟩ := Option.isSome_iff_exists.mp hcan
      suffices hbranch : ∃ s, Runs (runBlock.runBlocks d (if go ≠ 0 then
          [.branch (.var (fireFlag c.action)) [.basic (firing actor skipFill c)] []]
          else chain actor skipFill cs)) r s ∧ P s by
        obtain ⟨s, hruns, hs⟩ := hbranch
        exact ⟨s, runs_blocks_cons (runs_branch (eval_var hgo) hruns) (runs_blocks_nil s), hs⟩
      split
      · suffices hbody : ∃ s, Runs (runBlock.runBlocks d (if can ≠ 0 then
            [.basic (firing actor skipFill c)] else [])) r s ∧ P s by
          obtain ⟨s, hruns, hs⟩ := hbody
          exact ⟨s, runs_blocks_cons (runs_branch (eval_var hcan) hruns) (runs_blocks_nil s), hs⟩
        split
        · obtain ⟨s, hruns, hs⟩ := hfire c (by simp)
          exact ⟨s, runs_blocks_cons (runs_basic hruns) (runs_blocks_nil s), hs⟩
        · exact ⟨r, runs_blocks_nil r, hstay⟩
      · exact ih (fun c' hc' => hflags c' (by simp [hc'])) fun c' hc' => hfire c' (by simp [hc'])

/-- Between the two points of a round at most one action has fired, and the variables of the machine
and the request sizes are all that can have changed. -/
structure FiresOnce (actor : Actor) (r s : Round) : Prop where
  locals : s.locals = r.locals
  fired : s.fired = r.fired ∨ ∃ body, s.fired = r.fired ++ [body]
  current : ∃ current, Encodes actor current s.state
  others : ∀ v, v ∉ rewritten actor → s.state[v]? = r.state[v]?

theorem choice_ends (hv : Valid actor) {fsm : Fsm} (hfsm : actor.fsm = some fsm)
    {blocks : List Block} (hblocks : choice actor skipFill = .ok blocks) {current : Option String}
    {r : Round} (hflags : HasFlags actor r.locals) (htested : Tested actor current r.locals)
    (hcurrent : Encodes actor current r.state) :
    ∃ s, Runs (runBlock.runBlocks d blocks) r s ∧ FiresOnce actor r s := by
  obtain ⟨candidates, hlists, hchoice⟩ := choice_eq hv hfsm skipFill
  obtain rfl := Except.ok.inj (hblocks.symm.trans hchoice)
  obtain ⟨here, hhere, rfl, -⟩ := hcurrent fsm hfsm
  obtain ⟨s, hruns, hs⟩ : ∃ s, Runs (runBlock.runBlocks d
      (chain actor skipFill (candidates here))) r s ∧ FiresOnce actor r s := by
    refine chain_ends (fun c hc => hflags _ ((hlists here).actions c hc))
      ⟨rfl, .inl rfl, ⟨_, hcurrent⟩, fun _ _ => rfl⟩ fun c hc => ?_
    obtain ⟨state, hfiring, hnext, hframe⟩ := firing_run ((hlists here).leaves c hc) hcurrent
    exact ⟨_, hfiring, rfl, .inr ⟨_, rfl⟩, ⟨_, hnext⟩, hframe⟩
  refine ⟨s, runs_blocks_cons (runs_mutex ?_) (runs_blocks_nil s), hs⟩
  refine stateBlocks_run (hv.fsm fsm hfsm).states hhere hs.locals (fun t ht => ?_) hruns
  simpa using htested fsm hfsm t ht

/-! ### The start of a run -/

/-- What is stored before the first round. -/
def initialValues (actor : Actor) : List (String × Bool) :=
  (match actor.fsm with
    | some fsm => fsm.states.map fun s => (Fsm.stateVar s, decide (s = fsm.initial))
    | none => []) ++
  (inputBuffers actor).map fun v => (v.start, true)

/-- The state variables with the initial values stored. -/
def initialized (actor : Actor) (state : Valuation) : Valuation :=
  (initialValues actor).foldl (fun state e => state.insert e.1 (truth e.2)) state

theorem runs_boolStores (es : List (String × Bool)) (r : Round) :
    Runs ((es.map fun e => Instruction.store e.1 (.bool e.2)).forM d.exec) r
      { r with state := es.foldl (fun state e => state.insert e.1 (truth e.2)) r.state } := by
  induction es generalizing r with
  | nil => exact runs_nil r
  | cons e es ih => exact runs_cons (runs_store rfl) (ih _)

theorem initialStores_runs (actor : Actor) (d : Dispatcher) (r : Round) :
    Runs ((initialStores actor).forM d.exec) r { r with state := initialized actor r.state } := by
  have heq : initialStores actor =
      (initialValues actor).map fun e => Instruction.store e.1 (.bool e.2) := by
    unfold initialStores initialValues
    cases actor.fsm <;> simp [Function.comp_def]
  rw [heq]
  exact runs_boolStores (initialValues actor) r

theorem initialized_encodes (hv : Valid actor) (state : Valuation) :
    Encodes actor (actor.fsm.map Fsm.initial) (initialized actor state) := by
  let d : Dispatcher := { scheduler := { name := "" } }
  obtain ⟨state', hruns, hencodes, -⟩ := initialStores_run hv d { state }
  have heq := (initialStores_runs actor d { state }).unique hruns
  have hstate : initialized actor state = state' := congrArg Round.state heq
  rwa [hstate]

/-! ### Rounds -/

/-- The body of the loop.  It fails before anything is stored, or fires at most one action. -/
theorem wp_body (hv : Valid actor) {fsm : Fsm} (hfsm : actor.fsm = some fsm)
    {parts : List (List Part)} (hparts : actor.actions.mapM (checks actor) = .ok parts)
    {blocks : List Block} (hblocks : choice actor skipFill = .ok blocks) {current : Option String}
    {r : Round} (hcurrent : Encodes actor current r.state) (j : Journal) :
    wp (runBlock.runBlocks d (basicUnlessEmpty (loads actor).instructions ++
        parts.flatten.map (fun p => .basic p.instructions) ++ blocks))
      (fun _ t => (t.state.fired = r.fired ∨ ∃ body, t.state.fired = r.fired ++ [body]) ∧
        (∃ current, Encodes actor current t.state.state) ∧
        ∀ v, v ∉ rewritten actor → t.state.state[v]? = r.state[v]?)
      (fun _ t => t.state.state = r.state) ⟨r, j⟩ := by
  obtain ⟨locals, hloads, -, htested⟩ := loads_run (d := d)
    (w := { values := fun v => r.state[v]? }) (fun _ _ => rfl) hcurrent
  rw [runBlocks_append, runBlocks_append, wp_bind, wp_bind, hloads.wp_iff]
  refine wp_mono (wp_checks hparts _) (fun _ t ht => ?_) fun _ t ht => ht.state
  obtain ⟨⟨hstate, hfired⟩, hflags, hlocals⟩ := ht
  have htested' : Tested actor current t.state.locals := by
    intro fsm' hfsm' s hs
    rw [hlocals]
    exact htested fsm' hfsm' s hs
  have hcurrent' : Encodes actor current t.state.state := by
    rw [hstate]
    exact hcurrent
  obtain ⟨s, hruns, hs⟩ := choice_ends (d := d) hv hfsm hblocks hflags htested' hcurrent'
  obtain ⟨t, j⟩ := t
  rw [hruns.wp_iff]
  refine ⟨?_, hs.current, fun v hv => ?_⟩
  · rw [← show t.fired = r.fired from hfired]
    exact hs.fired
  · rw [← show t.state = r.state from hstate]
    exact hs.others v hv

/-- The values that the loop of a round starts with. -/
def roundStart (actor : Actor) (d : Dispatcher) : Valuation :=
  if d.started then d.state else initialized actor d.state

/-- The dispatcher runs the scheduler of the actor, and since the first round its variables encode a
state of the machine. -/
structure Keeps (actor : Actor) (skipFill : Bool) (d : Dispatcher) : Prop where
  scheduler : lower actor skipFill = .ok d.scheduler
  current : d.started = true → ∃ current, Encodes actor current d.state

/-- What a round answers and what it leaves. -/
structure RoundKeeps (actor : Actor) (skipFill : Bool) (d : Dispatcher) : Prop where
  keeps : Keeps actor skipFill d.step.2
  started : d.step.2.started = true
  ok : ∀ fired, d.step.1 = .ok fired → fired.length ≤ 1 ∧
    ∀ v, v ∉ rewritten actor → d.step.2.state[v]? = (roundStart actor d)[v]?
  error : ∀ e, d.step.1 = .error e → d.step.2.state = roundStart actor d

/-- The parts of a scheduler. -/
theorem lower_parts {p : Procedure} (h : lower actor skipFill = .ok p) :
    ∃ parts blocks, actor.actions.mapM (checks actor) = .ok parts ∧
      choice actor skipFill = .ok blocks ∧
      splitAtLoop? p.blocks = some (basicUnlessEmpty (initialStores actor), .bool true,
        basicUnlessEmpty (loads actor).instructions ++
          parts.flatten.map (fun p => .basic p.instructions) ++ blocks) := by
  cases hparts : actor.actions.mapM (checks actor) with
  | error e =>
      simp only [lower, hparts, bind, Except.bind] at h
      cases h
  | ok parts =>
      cases hblocks : choice actor skipFill with
      | error e =>
          simp only [lower, hparts, hblocks, bind, Except.bind] at h
          cases h
      | ok blocks =>
          obtain ⟨p', hp', hsplit⟩ := lower_eq hparts hblocks
          obtain rfl := Except.ok.inj (h.symm.trans hp')
          exact ⟨parts, blocks, rfl, rfl, hsplit⟩

/-- The body of the loop runs from the values that the round starts with. -/
theorem wp_round {front body : List Block} {Q : Unit → Traced Round → Prop}
    {F : Failure → Traced Round → Prop} {j : Journal}
    (hfront : Runs (runBlock.runBlocks d front) { state := d.state }
      { state := initialized actor d.state })
    (hbody : wp (runBlock.runBlocks d body) Q F ⟨{ state := roundStart actor d }, j⟩) :
    wp (d.round front (.bool true) body) Q F ⟨{ state := d.state }, j⟩ := by
  unfold Dispatcher.round
  unfold roundStart at hbody
  cases hstarted : d.started with
  | true =>
      rw [hstarted, if_pos rfl] at hbody
      exact hbody
  | false =>
      rw [hstarted, if_neg Bool.false_ne_true] at hbody
      show wp (runBlock.runBlocks d front >>= fun _ => _) Q F _
      rw [wp_bind, hfront.wp_iff]
      exact hbody

theorem step_keeps (hv : Valid actor) {fsm : Fsm} (hfsm : actor.fsm = some fsm)
    (h : Keeps actor skipFill d) : RoundKeeps actor skipFill d := by
  obtain ⟨parts, blocks, hparts, hblocks, hsplit⟩ := lower_parts h.scheduler
  obtain ⟨current, hcurrent⟩ : ∃ current, Encodes actor current (roundStart actor d) := by
    unfold roundStart
    split
    · next hstarted => exact h.current hstarted
    · exact ⟨_, initialized_encodes hv d.state⟩
  have hround := wp_round (runs_basicUnlessEmpty (initialStores_runs actor d _))
    (wp_body (d := d) hv hfsm hparts hblocks (r := { state := roundStart actor d }) hcurrent #[])
  unfold wp at hround
  split at hround
  · next t hrun =>
      obtain ⟨hfired, hencodes, hothers⟩ := hround
      have hstep : d.step =
          (.ok t.state.fired, { d with state := t.state.state, started := true }) := by
        simp only [step, hsplit, Build.run, hrun]
        rfl
      refine ⟨?_, by rw [hstep], fun fired hok => ?_, fun e herror => ?_⟩
      · rw [hstep]
        exact ⟨h.scheduler, fun _ => hencodes⟩
      · rw [hstep] at hok ⊢
        cases hok
        refine ⟨?_, hothers⟩
        rcases hfired with hfired | ⟨body, hfired⟩ <;> rw [hfired] <;> simp
      · rw [hstep] at herror
        cases herror
  · next e t hrun =>
      have hstate : t.state.state = roundStart actor d := hround
      have hstep : d.step =
          (.error e, { d with state := t.state.state, started := true }) := by
        simp only [step, hsplit, Build.run, hrun]
        rfl
      refine ⟨?_, by rw [hstep], fun fired hok => ?_, fun e' _ => ?_⟩
      · rw [hstep, hstate]
        exact ⟨h.scheduler, fun _ => ⟨current, hcurrent⟩⟩
      · rw [hstep] at hok
        cases hok
      · rw [hstep]
        exact hstate

/-! ### Runs -/

/-- Once a round has been asked for, the variables of the machine are not set from outside. -/
def Permitted (actor : Actor) : (started : Bool) → List Request → Prop
  | _, [] => True
  | _, .step :: rs => Permitted actor true rs
  | started, .setState var _ :: rs =>
    (started = true → var ∉ machineVars actor) ∧ Permitted actor started rs
  | started, .setGuard _ _ :: rs | started, .setStatus _ _ :: rs => Permitted actor started rs

def Permitted.decide (actor : Actor) : (started : Bool) → (rs : List Request) →
    Decidable (Permitted actor started rs)
  | _, [] => .isTrue trivial
  | _, .step :: rs => Permitted.decide actor true rs
  | started, .setState _ _ :: rs => @instDecidableAnd _ _ _ (Permitted.decide actor started rs)
  | started, .setGuard _ _ :: rs | started, .setStatus _ _ :: rs => Permitted.decide actor started rs

instance (actor : Actor) (started : Bool) (rs : List Request) :
    Decidable (Permitted actor started rs) :=
  Permitted.decide actor started rs

theorem run_keeps (hv : Valid actor) {fsm : Fsm} (hfsm : actor.fsm = some fsm) (rs : List Request) :
    ∀ {d : Dispatcher}, Keeps actor skipFill d → Permitted actor d.started rs →
      Keeps actor skipFill (d.run rs).2 ∧
        ((d.run rs).2.started = true ↔ d.started = true ∨ .step ∈ rs) := by
  induction rs with
  | nil =>
      intro d h _
      exact ⟨h, by simp [Dispatcher.run]⟩
  | cons r rs ih =>
      intro d h hrs
      cases r with
      | setGuard guard result =>
          simpa [Dispatcher.run, setGuard] using
            ih (d := d.setGuard guard result) ⟨h.scheduler, h.current⟩ hrs
      | setStatus port status =>
          simpa [Dispatcher.run, setStatus] using
            ih (d := d.setStatus port status) ⟨h.scheduler, h.current⟩ hrs
      | setState var value =>
          have hset : Keeps actor skipFill (d.setState var value) := by
            refine ⟨h.scheduler, fun hstarted => ?_⟩
            obtain ⟨current, hcurrent⟩ := h.current hstarted
            exact ⟨current, hcurrent.insert (hrs.1 hstarted) value⟩
          simpa [Dispatcher.run, setState] using ih hset hrs.2
      | step =>
          have hround := step_keeps hv hfsm h
          obtain ⟨hend, hstarted⟩ := ih hround.keeps (hround.started ▸ hrs)
          refine ⟨hend, ?_⟩
          simp only [Dispatcher.run, hstarted, hround.started]
          simp

/-- The machine of a valid actor stays encoded.  Let a run ask for rounds whenever it likes, with or
without answers of guards and ports, and not set the variables of the machine once the first round
was asked for.  Then from the first round on, failed or not, exactly one variable of a state is set.
A round that is asked for next fires at most one action and writes only what rounds write; if it
fails, it leaves all variables as they were, but for the initial values if it is the first. -/
theorem encoding_one_hot (actor : Actor) (fsm : Fsm) (skipFill : Bool)
    (hvalid : actor.validate = .ok ()) (hfsm : actor.fsm = some fsm) :
    ∃ p, lower (declareState actor) skipFill = .ok p ∧ ∀ rs, Permitted actor false rs →
      let d := (Dispatcher.run { scheduler := p } rs).2
      (d.started = true ↔ .step ∈ rs) ∧
      (.step ∈ rs → ∃ s ∈ fsm.states, OneHot fsm.states s d.state) ∧
      (∃ s ∈ fsm.states, OneHot fsm.states s d.step.2.state) ∧
      (∀ fired, d.step.1 = .ok fired → fired.length ≤ 1 ∧
        ∀ v, v ∉ rewritten actor → d.step.2.state[v]? = (roundStart actor d)[v]?) ∧
      ∀ e, d.step.1 = .error e → d.step.2.state = roundStart actor d := by
  have hv := (checks_eq_ok_iff actor).mp hvalid
  obtain ⟨p, hp⟩ := lower_total hv skipFill
  refine ⟨p, (lower_declareState actor skipFill).trans hp, fun rs hrs => ?_⟩
  have hstart : Keeps actor skipFill { scheduler := p } := ⟨hp, by simp⟩
  obtain ⟨hkeeps, hstarted⟩ := run_keeps hv hfsm rs hstart hrs
  have hone : ∀ d', Keeps actor skipFill d' → d'.started = true →
      ∃ s ∈ fsm.states, OneHot fsm.states s d'.state := by
    intro d' h' hstarted'
    obtain ⟨current, hcurrent⟩ := h'.current hstarted'
    obtain ⟨s, hs, -, hhot⟩ := hcurrent fsm hfsm
    exact ⟨s, hs, hhot⟩
  have hround := step_keeps hv hfsm hkeeps
  have hiff : (Dispatcher.run { scheduler := p } rs).2.started = true ↔ .step ∈ rs := by
    rw [hstarted]
    simp
  exact ⟨hiff, fun hstep => hone _ hkeeps (hiff.mpr hstep), hone _ hround.keeps hround.started,
    hround.ok, hround.error⟩

/-- A round for which nothing is known fails and leaves the machine in its initial state. -/
theorem encoding_one_hot_relay :
    relay.validate = .ok () ∧ Permitted relay false [.setState "state_full" 7, .step, .step] ∧
      ∃ p, lower (declareState relay) true = .ok p ∧
        ∃ s ∈ ["empty", "full"], OneHot ["empty", "full"] s
          (Dispatcher.run { scheduler := p } [.setState "state_full" 7, .step, .step]).2.state := by
  have hvalid : relay.validate = .ok () := rfl
  have hpermitted : Permitted relay false [.setState "state_full" 7, .step, .step] := by decide
  obtain ⟨p, hp, hruns⟩ := encoding_one_hot relay _ true hvalid rfl
  exact ⟨hvalid, hpermitted, p, hp, (hruns _ hpermitted).2.1 (by simp)⟩

end Scheduler

end DataflowSynth
