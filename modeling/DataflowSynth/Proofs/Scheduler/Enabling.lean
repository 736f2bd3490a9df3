/-
What a round fires, whatever the values of the variables are.

The variables of the machine can be set from outside, and then several states may be marked at once, or
none.  The chains of all states stand in one round, and each of those that are marked fires what the
dispatch rule says for its state.  A round that ends has been given all answers that it asked for, so
this accounts for every round that does not fail.

An action has one flag for each port.  If its input pattern lists a buffered port twice, the flag is
that of the last entry, and the others are not looked at.
-/
import DataflowSynth.Proofs.Scheduler.Encoding

namespace DataflowSynth

/-- What a dispatcher knows of the world before a round. -/
def Dispatcher.world (d : Dispatcher) : Scheduler.World where
  guards g := d.guards[g]?
  statuses p := d.statuses[p]?
  values v := d.state[v]?

namespace Scheduler

open Actor Build Dispatcher

variable {actor : Actor} {d : Dispatcher} {w : World} {a : Action} {skipFill : Bool}

theorem sees_world (d : Dispatcher) : Sees d d.world := ⟨fun _ => rfl, fun _ => rfl⟩

theorem world_setGuard (guard : String) (result : Bool) :
    (d.setGuard guard result).world = d.world.serve (.setGuard guard result) := by
  simp only [world, setGuard, World.serve, getElem?_insert_eq_ite]

theorem world_setState (var : String) (value : Int64) :
    (d.setState var value).world = d.world.serve (.setState var value) := by
  simp only [world, setState, World.serve, getElem?_insert_eq_ite]

/-! ### Answers that a round asks for -/

/-- The world answers what an instruction asks it, if anything. -/
def Answered (d : Dispatcher) : Instruction → Prop
  | .call (some _) guard => d.guards[guard]?.isSome
  | .portStatus _ port => d.statuses[port]?.isSome
  | _ => True

/-- An instruction that is run has its answer. -/
theorem wp_exec_answered (i : Instruction) (s : Traced Round) :
    wp (d.exec i) (fun _ _ => Answered d i) (fun _ _ => True) s := by
  cases i with
  | call target procedure =>
      cases target with
      | none => trivial
      | some target =>
          rw [exec, wp_bind]
          cases hanswer : d.guards[procedure]? with
          | none => trivial
          | some b => exact Option.isSome_iff_exists.mpr ⟨b, hanswer⟩
  | portStatus target port =>
      rw [exec, wp_bind]
      cases hanswer : d.statuses[port]? with
      | none => trivial
      | some b => exact Option.isSome_iff_exists.mpr ⟨b, hanswer⟩
  | _ => exact wp_of_forall (fun _ _ => trivial) fun _ _ => trivial

theorem wp_instructions_answered (is : List Instruction) (s : Traced Round) :
    wp (is.forM d.exec) (fun _ _ => ∀ i ∈ is, Answered d i) (fun _ _ => True) s := by
  refine wp_mono (wp_forM_each (I := fun _ => True) trivial fun i _ t _ => ?_)
    (fun _ _ h => h.2) fun _ _ h => h
  exact wp_mono (wp_exec_answered i t) (fun _ _ h => ⟨trivial, h⟩) fun _ _ h => h

/-- The checks of a list are all made, whether or not there are flags to join. -/
theorem mem_joined {f : TokenCount → Except ActorDefect PortCheck} {es : Pattern}
    {cs : List PortCheck} (hcs : es.mapM f = .ok cs) {e : TokenCount} (he : e ∈ es) :
    ∃ c, f e = .ok c ∧ c ∈ cs ∧ ∀ i ∈ c.part.instructions, i ∈ (joined cs).instructions := by
  obtain ⟨c, hc, hok⟩ := (mapM_ok hcs).2 e he
  refine ⟨c, hok, hc, fun i hi => ?_⟩
  rw [joined_instructions]
  exact List.mem_flatMap.mpr ⟨c, hc, hi⟩

theorem duePart_asks {p : Part} (h : duePart actor a = .ok p) :
    (∃ target, .call (some target) a.guard ∈ p.instructions) ∧
      ∀ e ∈ a.inputs, ∃ c, tokenCheck actor a e = .ok c ∧
        ∀ i ∈ c.part.instructions, i ∈ p.instructions := by
  unfold duePart at h
  cases hcs : a.inputs.mapM (tokenCheck actor a) with
  | error e =>
      rw [hcs] at h
      cases h
  | ok cs =>
      rw [hcs] at h
      cases hall : allFlags? cs with
      | none =>
          simp only [bind, Except.bind, hall] at h
          cases h
          refine ⟨⟨_, List.mem_append_left _ (List.mem_singleton_self _)⟩, fun e he => ?_⟩
          obtain ⟨c, -, hc, -⟩ := mem_joined hcs he
          rw [allFlags?_eq_none_iff.mp hall] at hc
          cases hc
      | some all =>
          simp only [bind, Except.bind, hall] at h
          cases h
          refine ⟨⟨_, List.mem_append_left _ (List.mem_append_right _ (List.mem_singleton_self _))⟩,
            fun e he => ?_⟩
          obtain ⟨c, hok, -, hmem⟩ := mem_joined hcs he
          exact ⟨c, hok, fun i hi => List.mem_append_left _ (List.mem_append_left _
            (List.mem_append_left _ (hmem i hi)))⟩

theorem firePart_asks {p : Part} (h : firePart actor a = .ok p) :
    ∀ e ∈ a.outputs, ∃ c, spaceCheck actor a e = .ok c ∧
      ∀ i ∈ c.part.instructions, i ∈ p.instructions := by
  unfold firePart at h
  cases hcs : a.outputs.mapM (spaceCheck actor a) with
  | error e =>
      rw [hcs] at h
      cases h
  | ok cs =>
      rw [hcs] at h
      intro e he
      obtain ⟨c, hok, hc, hmem⟩ := mem_joined hcs he
      cases hall : allFlags? cs with
      | none =>
          rw [allFlags?_eq_none_iff.mp hall] at hc
          cases hc
      | some all =>
          simp only [bind, Except.bind, hall] at h
          cases h
          exact ⟨c, hok, fun i hi => List.mem_append_left _ (hmem i hi)⟩

/-- The checks of an action ask for its guard, and for the status of the ports that it samples. -/
theorem checks_ask {ps : List Part} (h : checks actor a = .ok ps) :
    (∃ target, .call (some target) a.guard ∈ ps.flatMap Part.instructions) ∧
      ∀ p ∈ World.sampled actor a,
        ∃ target, .portStatus target p.name ∈ ps.flatMap Part.instructions := by
  obtain ⟨due, fire, hdue, hfire, rfl⟩ : ∃ due fire, duePart actor a = .ok due ∧
      firePart actor a = .ok fire ∧ ps = [due, fire] := by
    unfold checks at h
    cases hdue : duePart actor a <;> cases hfire : firePart actor a <;> rw [hdue, hfire] at h <;>
      cases h
    exact ⟨_, _, rfl, rfl, rfl⟩
  obtain ⟨⟨target, hguard⟩, hinputs⟩ := duePart_asks hdue
  have houtputs := firePart_asks hfire
  simp only [List.flatMap_cons, List.flatMap_nil, List.append_nil, List.mem_append]
  refine ⟨⟨target, .inl hguard⟩, fun p hp => ?_⟩
  obtain ⟨hp, hnone⟩ := List.mem_filter.mp hp
  have hvars : p.bufferVars? = none := by simpa [Port.bufferVars?] using hnone
  rcases List.mem_append.mp hp with hp | hp
  · obtain ⟨e, he, hport⟩ := List.mem_filterMap.mp hp
    obtain ⟨c, hok, hmem⟩ := hinputs e he
    simp only [tokenCheck, hport, hvars, Except.ok.injEq] at hok
    subst hok
    exact ⟨_, .inl (hmem _ (List.mem_singleton_self _))⟩
  · obtain ⟨e, he, hport⟩ := List.mem_filterMap.mp hp
    obtain ⟨c, hok, hmem⟩ := houtputs e he
    simp only [spaceCheck, hport, hvars, Except.ok.injEq] at hok
    subst hok
    exact ⟨_, .inr (hmem _ (List.mem_singleton_self _))⟩

/-- The checks of all actions go through in a complete world only. -/
theorem wp_checks_complete {parts : List (List Part)}
    (hparts : actor.actions.mapM (checks actor) = .ok parts) (s : Traced Round) :
    wp (runBlock.runBlocks d (parts.flatten.map fun p => .basic p.instructions))
      (fun _ _ => d.world.Complete actor) (fun _ _ => True) s := by
  have hblocks : parts.flatten.map (fun p => Block.basic p.instructions) =
      (parts.flatten.map Part.instructions).map .basic := by
    rw [List.map_map]
    rfl
  rw [hblocks, runBlocks_basics]
  refine wp_mono (wp_instructions_answered _ s) (fun _ _ hall a ha => ?_) fun _ _ h => h
  obtain ⟨ps, hps, hchecks⟩ := (mapM_ok hparts).2 a ha
  have hanswered : ∀ i ∈ ps.flatMap Part.instructions, Answered d i := by
    intro i hi
    obtain ⟨p, hp, hi⟩ := List.mem_flatMap.mp hi
    refine hall i (List.mem_flatten.mpr ⟨p.instructions, ?_, hi⟩)
    exact List.mem_map_of_mem (List.mem_flatten.mpr ⟨ps, hps, hp⟩)
  obtain ⟨⟨_, hguard⟩, hports⟩ := checks_ask hchecks
  refine ⟨hanswered _ hguard, fun p hp => ?_⟩
  obtain ⟨_, hport⟩ := hports p hp
  exact hanswered _ hport

/-! ### The chains of marked states -/

theorem firing_runs (d : Dispatcher) (actor : Actor) (skipFill : Bool) (c : Candidate) (r : Round) :
    ∃ state, Runs ((firing actor skipFill c).forM d.exec) r
      { r with state, fired := r.fired ++ [c.action.body] } := by
  obtain ⟨state, hrequests, -⟩ := requestStores_run d actor skipFill c r
  have hmove : ∀ (move : Option (String × String)) (r : Round),
      ∃ state, Runs ((moveStores move).forM d.exec) r { r with state } := by
    intro move r
    cases move with
    | none => exact ⟨r.state, runs_nil r⟩
    | some move =>
        rw [moveStores]
        split
        · exact ⟨r.state, runs_nil r⟩
        · exact ⟨_, runs_cons (runs_store rfl) (runs_cons (runs_store rfl) (runs_nil _))⟩
  obtain ⟨state', hmoved⟩ := hmove c.move { r with state, fired := r.fired ++ [c.action.body] }
  exact ⟨state', runs_append hrequests (runs_cons (runs_call _ _) hmoved)⟩

/-- The first of the actions that is due, as its flags tell it, if it can fire. -/
def firstDue (w : World) (actor : Actor) (as : List Action) : Option Action :=
  (as.find? fun a => w.due actor (settled a)).filter (w.canFire actor)

theorem chain_fires (d : Dispatcher) (skipFill : Bool) {cs : List Candidate} {r : Round}
    (hflagged : ∀ c ∈ cs, Flagged actor w r.locals (settled c.action)) :
    ∃ state, Runs (runBlock.runBlocks d (chain actor skipFill cs)) r { r with
      state
      fired := r.fired ++ (firstDue w actor (cs.map Candidate.action)).toList.map Action.body } := by
  induction cs with
  | nil => exact ⟨r.state, by simpa [firstDue, chain] using runs_blocks_nil r⟩
  | cons c cs ih =>
      obtain ⟨hgo, hfire⟩ := hflagged c (by simp)
      suffices hbranch : ∃ state, Runs (runBlock.runBlocks d
          (if truth (w.due actor (settled c.action)) ≠ 0 then
            [.branch (.var (fireFlag c.action)) [.basic (firing actor skipFill c)] []]
            else chain actor skipFill cs)) r { r with
          state
          fired := r.fired ++
            (firstDue w actor ((c :: cs).map Candidate.action)).toList.map Action.body } by
        obtain ⟨state, hruns⟩ := hbranch
        exact ⟨state, runs_blocks_cons (runs_branch (eval_var hgo) hruns) (runs_blocks_nil _)⟩
      simp only [truth_ne_zero, firstDue, List.map_cons, List.find?_cons]
      cases hdue : w.due actor (settled c.action) with
      | false => exact ih fun c' hc' => hflagged c' (by simp [hc'])
      | true =>
          have hfire : r.locals[fireFlag c.action]? = some (truth (w.canFire actor c.action)) := hfire
          cases hcan : w.canFire actor c.action with
          | false =>
              refine ⟨r.state, runs_blocks_cons (runs_branch (eval_var hfire) ?_)
                (runs_blocks_nil _)⟩
              simpa [hcan, truth, Option.filter] using runs_blocks_nil r
          | true =>
              obtain ⟨state, hruns⟩ := firing_runs d actor skipFill c r
              refine ⟨state, runs_blocks_cons (runs_branch (eval_var hfire) ?_) (runs_blocks_nil _)⟩
              rw [if_pos (by simp [hcan, truth])]
              simpa [hcan, Option.filter] using runs_blocks_cons (runs_basic hruns) (runs_blocks_nil _)

/-- The chains stand one behind the other, and each that is marked fires what its state fires. -/
theorem stateBlocks_fire (d : Dispatcher) (skipFill : Bool)
    {candidates : String → List Candidate} {mark : String → Int64} {states : List String} {r : Round}
    (hflagged : ∀ s ∈ states, ∀ c ∈ candidates s, Flagged actor w r.locals (settled c.action))
    (hmark : ∀ s ∈ states, r.locals[stateLocal s]? = some (mark s)) :
    ∃ state, Runs (runBlock.runBlocks d (states.map (stateBlock actor skipFill candidates))) r
      { r with
        state
        fired := r.fired ++ ((states.filter fun s => mark s ≠ 0).flatMap fun s =>
          (firstDue w actor ((candidates s).map Candidate.action)).toList).map Action.body } := by
  induction states generalizing r with
  | nil => exact ⟨r.state, by simpa using runs_blocks_nil r⟩
  | cons s states ih =>
      have htest := hmark s (by simp)
      by_cases hzero : mark s = 0
      · obtain ⟨state, hruns⟩ := ih (fun t ht => hflagged t (by simp [ht]))
          fun t ht => hmark t (by simp [ht])
        refine ⟨state, runs_blocks_cons (runs_branch (eval_var htest) ?_)
          (by simpa [hzero] using hruns)⟩
        simpa [hzero] using runs_blocks_nil r
      · obtain ⟨state, hchain⟩ := chain_fires d skipFill (hflagged s (by simp))
        obtain ⟨state', hruns⟩ := ih (r := { r with
            state
            fired := r.fired ++ (firstDue w actor ((candidates s).map Candidate.action)).toList.map
              Action.body })
          (fun t ht => hflagged t (by simp [ht])) fun t ht => hmark t (by simp [ht])
        refine ⟨state', runs_blocks_cons (runs_branch (eval_var htest) ?_)
          (by simpa [hzero] using hruns)⟩
        simpa [hzero] using hchain

/-- The states whose chains are run; without a machine there is one chain for all actions. -/
def marked (actor : Actor) (state : Valuation) : List (Option String) :=
  match actor.fsm with
  | none => [none]
  | some fsm => (fsm.states.filter fun s => state[Fsm.stateVar s]?.getD 0 ≠ 0).map some

/-- What may be tried in a state. -/
def tried (actor : Actor) (current : Option String) : List Action :=
  (Machine.candidates actor current).map Prod.fst

/-- What a round fires: in each state that is marked the first action that is due, if it can. -/
def firings (w : World) (actor : Actor) (state : Valuation) : List Action :=
  (marked actor state).flatMap fun current => (firstDue w actor (tried actor current)).toList

theorem Lists.tried {current : Option String} {cs : List Candidate} (h : Lists actor current cs) :
    cs.map Candidate.action = Scheduler.tried actor current := by
  rw [Scheduler.tried, ← h.order, List.map_map]
  rfl

theorem choice_fires (hv : Valid actor) {blocks : List Block}
    (hblocks : choice actor skipFill = .ok blocks) {state : Valuation} {r : Round}
    (hflagged : ∀ a ∈ actor.actions, Flagged actor w r.locals (settled a))
    (htested : ∀ fsm ∈ actor.fsm, ∀ s ∈ fsm.states,
      r.locals[stateLocal s]? = some (state[Fsm.stateVar s]?.getD 0)) :
    ∃ end', Runs (runBlock.runBlocks d blocks) r { r with
      state := end', fired := r.fired ++ (firings w actor state).map Action.body } := by
  unfold firings marked
  cases hfsm : actor.fsm with
  | none =>
      have hlists := freeCandidates_lists hfsm none
      simp only [choice, hfsm, Except.ok.injEq] at hblocks
      subst hblocks
      obtain ⟨end', hruns⟩ := chain_fires d skipFill
        fun c hc => hflagged _ (hlists.actions c hc)
      rw [hlists.tried] at hruns
      exact ⟨end', by simpa using hruns⟩
  | some fsm =>
      obtain ⟨candidates, hlists, hchoice⟩ := choice_eq hv hfsm skipFill
      obtain rfl := Except.ok.inj (hblocks.symm.trans hchoice)
      obtain ⟨end', hruns⟩ := stateBlocks_fire d skipFill
        (fun s _ c hc => hflagged _ ((hlists s).actions c hc)) (htested fsm hfsm)
      refine ⟨end', runs_blocks_cons (runs_mutex hruns) ?_⟩
      simpa [(hlists _).tried, List.flatMap_map] using runs_blocks_nil _

/-! ### Rounds -/

/-- The loads, whatever the values of the variables are. -/
theorem loads_runs (d : Dispatcher) (actor : Actor) (r : Round) :
    ∃ locals, Runs (runBlock.runBlocks d (basicUnlessEmpty (loads actor).instructions)) r
        { r with locals } ∧
      ∀ l ∈ loadPairs actor, locals[l.1]? = some (r.state[l.2]?.getD 0) := by
  obtain ⟨locals, hsets, hloaded, -⟩ :=
    sets_loads (d := d) (loadPairs actor) (fun l hl k hk => loadPairs_source hl hk) r
  rw [← loads_instructions] at hsets
  exact ⟨locals, runs_basicUnlessEmpty hsets, hloaded⟩

/-- The stores before the first round leave the fill of buffers alone. -/
theorem roundStart_count (hv : Valid actor) (d : Dispatcher) (port : String) :
    (roundStart actor d)[(BufferVars.ofPort port).count]? =
      d.world.values (BufferVars.ofPort port).count := by
  unfold roundStart
  split
  · rfl
  · obtain ⟨state, hruns, -, hframe⟩ := initialStores_run hv d { state := d.state }
    have hstate := congrArg Round.state ((initialStores_runs actor d _).unique hruns)
    rw [show initialized actor d.state = state from hstate]
    exact hframe _ (count_notMem_written port)

/-- A round that ends was given all the answers that it asked for. -/
theorem complete_of_step (h : lower actor skipFill = .ok d.scheduler) {fired : List String}
    (hok : d.step.1 = .ok fired) : d.world.Complete actor := by
  obtain ⟨parts, blocks, hparts, -, hsplit⟩ := lower_parts h
  have hbody : wp (runBlock.runBlocks d (basicUnlessEmpty (loads actor).instructions ++
      parts.flatten.map (fun p => .basic p.instructions) ++ blocks))
      (fun _ _ => d.world.Complete actor) (fun _ _ => True)
      ⟨{ state := roundStart actor d }, #[]⟩ := by
    obtain ⟨locals, hloads, -⟩ := loads_runs d actor { state := roundStart actor d }
    rw [runBlocks_append, runBlocks_append, wp_bind, wp_bind, hloads.wp_iff]
    refine wp_mono (wp_checks_complete hparts _) (fun _ t ht => ?_) fun _ _ h => h
    exact wp_of_forall (fun _ _ => ht) fun _ _ => trivial
  have hround := wp_round (runs_basicUnlessEmpty (initialStores_runs actor d _)) hbody
  unfold wp at hround
  split at hround
  · exact hround
  · next e t hrun =>
    simp only [step, hsplit, Build.run, hrun] at hok
    cases hok

/-- In a complete world a round comes to its choice with the flags of all actions set and the states
loaded, and it is what the choice makes of it. -/
theorem choice_begins (hv : Valid actor) (h : lower actor skipFill = .ok d.scheduler)
    (hw : d.world.Complete actor) :
    ∃ blocks locals, choice actor skipFill = .ok blocks ∧
      (∀ a ∈ actor.actions, Flagged actor d.world locals (settled a)) ∧
      (∀ fsm ∈ actor.fsm, ∀ s ∈ fsm.states,
        locals[stateLocal s]? = some ((roundStart actor d)[Fsm.stateVar s]?.getD 0)) ∧
      ∀ s, Runs (runBlock.runBlocks d blocks) { state := roundStart actor d, locals } s →
        d.step = (.ok s.fired, { d with state := s.state, started := true }) := by
  obtain ⟨parts, hparts, hchecks⟩ := allChecks_run (sees_world d) actor.actions
    (fun a ha => checkable_of_complete hv hw ha) hv.names
  obtain ⟨blocks, hblocks, -⟩ := choice_run hv skipFill
  obtain ⟨p, hp, hsplit⟩ := lower_eq hparts hblocks
  obtain rfl : d.scheduler = p := Except.ok.inj (h.symm.trans hp)
  have hfront : if d.started then ({ state := roundStart actor d } : Round) = { state := d.state }
      else Runs (runBlock.runBlocks d (basicUnlessEmpty (initialStores actor)))
        { state := d.state } { state := roundStart actor d } := by
    unfold roundStart
    split
    · rfl
    · exact runs_basicUnlessEmpty (initialStores_runs actor d _)
  obtain ⟨l, hloads, hloaded⟩ := loads_runs d actor { state := roundStart actor d }
  have hcounts : Loaded actor d.world l := by
    intro p hp hbuffer
    rw [hloaded _ (tmpCount_mem_loadPairs hp hbuffer), roundStart_count hv]
  obtain ⟨l', hruns, hflagged, hframe⟩ :=
    hchecks { state := roundStart actor d, locals := l } hcounts
  refine ⟨blocks, l', hblocks, hflagged, fun fsm hfsm s hs => ?_, fun s hchosen => ?_⟩
  · rw [hframe _ fun a _ hlocal => hlocal.ne_stateLocal s rfl]
    exact hloaded _ (stateLocal_mem_loadPairs hfsm hs)
  · exact step_of_runs hsplit hfront (runs_blocks_append (runs_blocks_append hloads hruns) hchosen)

/-- A round fires in each state that is marked what the dispatch rule says for it, as far as the flags
tell. -/
theorem step_fires (hv : Valid actor) (h : lower actor skipFill = .ok d.scheduler)
    (hw : d.world.Complete actor) :
    d.step.1 = .ok ((firings d.world actor (roundStart actor d)).map Action.body) := by
  obtain ⟨blocks, locals, hblocks, hflagged, htested, hstep⟩ := choice_begins hv h hw
  obtain ⟨state, hchosen⟩ := choice_fires (d := d) hv hblocks
    (r := { state := roundStart actor d, locals }) hflagged htested
  rw [hstep _ hchosen]
  rfl

/-! ### Runs -/

theorem step_scheduler (d : Dispatcher) : d.step.2.scheduler = d.scheduler := by
  unfold Dispatcher.step
  split <;> rfl

theorem run_scheduler (rs : List Request) : ∀ d : Dispatcher, (d.run rs).2.scheduler = d.scheduler := by
  induction rs with
  | nil => exact fun _ => rfl
  | cons r rs ih =>
      intro d
      cases r with
      | step => exact (ih d.step.2).trans (step_scheduler d)
      | _ => exact ih _

/-- No later entry of the pattern asks for less from the same buffer. -/
def Lasting (actor : Actor) (es : Pattern) (e : TokenCount) : Prop :=
  ∀ p ∈ actor.input? e.port, p.buffer.isSome → e.tokens ≤ (lastEntry es e).tokens

theorem Lasting.hasTokens {es : Pattern} {e : TokenCount} (h : Lasting actor es e)
    (htokens : w.hasTokens actor (lastEntry es e) = true) : w.hasTokens actor e = true := by
  rw [World.hasTokens, lastEntry_port] at htokens
  rw [World.hasTokens]
  cases hport : actor.input? e.port with
  | none => simp [hport] at htokens
  | some p =>
      simp only [hport] at htokens ⊢
      cases hbuffer : p.buffer with
      | none => simpa [hbuffer] using htokens
      | some size =>
          have hle := UInt32.le_iff_toNat_le.mp (h p hport (by simp [hbuffer]))
          simp only [hbuffer, Option.isSome_some, if_true, decide_eq_true_eq] at htokens ⊢
          omega

theorem mem_firings {state : Valuation} (h : a ∈ firings w actor state) :
    (∃ current ∈ marked actor state, a ∈ tried actor current) ∧
      w.due actor (settled a) = true ∧ w.canFire actor a = true := by
  obtain ⟨current, hcurrent, ha⟩ := List.mem_flatMap.mp h
  obtain ⟨hfind, hcan⟩ := Option.filter_eq_some_iff.mp (Option.mem_toList.mp ha)
  have hdue := @List.find?_some _ _ _ _ hfind
  exact ⟨⟨current, hcurrent, List.mem_of_find?_eq_some hfind⟩, hdue, hcan⟩

/-- An action fires only when its guard holds, its outputs have space and its tokens are there.  Let a
run ask for whatever it likes and set any variable, and let the round after it end.  What that round
fires are bodies of actions that may be tried in a state that is marked, and before the round the guard
of each of them held, each port of its output pattern had space and each entry of its input pattern had
its tokens, unless a later entry asks for fewer tokens from the same buffer. -/
theorem fired_enabled (actor : Actor) (skipFill : Bool) (hvalid : actor.validate = .ok ()) :
    ∃ p, lower (declareState actor) skipFill = .ok p ∧ ∀ rs fired,
      let d := (Dispatcher.run { scheduler := p } rs).2
      d.step.1 = .ok fired → ∃ as : List Action, fired = as.map Action.body ∧ ∀ a ∈ as,
        (∃ current ∈ marked actor (roundStart actor d), a ∈ tried actor current) ∧
        d.world.guards a.guard = some true ∧
        (∀ e ∈ a.inputs, Lasting actor a.inputs e → d.world.hasTokens actor e = true) ∧
        ∀ e ∈ a.outputs, d.world.hasSpace actor e = true := by
  have hv := (checks_eq_ok_iff actor).mp hvalid
  obtain ⟨p, hp⟩ := lower_total hv skipFill
  refine ⟨p, (lower_declareState actor skipFill).trans hp, fun rs fired => ?_⟩
  intro d hok
  have hscheduler : lower actor skipFill = .ok d.scheduler := by rw [hp, run_scheduler]
  have hfires := step_fires hv hscheduler (complete_of_step hscheduler hok)
  refine ⟨firings d.world actor (roundStart actor d), ?_, fun a ha => ?_⟩
  · exact Except.ok.inj (hok.symm.trans hfires)
  · obtain ⟨hcurrent, hdue, hcan⟩ := mem_firings ha
    obtain ⟨hguard, htokens⟩ : d.world.guards a.guard = some true ∧
        ∀ e ∈ a.inputs, d.world.hasTokens actor (lastEntry a.inputs e) = true := by
      obtain ⟨hguard, hinputs⟩ := Bool.and_eq_true_iff.mp hdue
      exact ⟨of_decide_eq_true hguard, by simpa [settled] using hinputs⟩
    refine ⟨hcurrent, hguard, fun e he hlasting => hlasting.hasTokens (htokens e he), ?_⟩
    exact List.all_eq_true.mp hcan

/-- One action that asks for tokens of a buffer twice, in the order that is given. -/
def greedy (first second : UInt32) : Actor where
  name := "greedy"
  inputs := [{ name := "IN", type := .int 8, buffer := some 4 }]
  procedures := [{ name := "take_body" }, { name := "isSchedulable_take", returnType := .bool }]
  actions := [{ (Action.named "take") with inputs := [⟨"IN", first⟩, ⟨"IN", second⟩] }]

/-- What the guard and the buffer of the action are told. -/
def greedyRequests (count : Int64) : List Request :=
  [.setGuard "isSchedulable_take" true, .setState "cb_IN_count" count]

theorem greedy_step {first second : UInt32} (count : Int64) {p : Procedure}
    (hvalid : (greedy first second).validate = .ok ())
    (hp : lower (declareState (greedy first second)) false = .ok p) :
    let d := (Dispatcher.run { scheduler := p } (greedyRequests count)).2
    let w := (greedyRequests count).foldl World.serve {}
    d.world = w ∧ (w.Complete (greedy first second) →
      d.step.1 = .ok ((firings w (greedy first second) ∅).map Action.body)) := by
  intro d w
  have hempty : ({ scheduler := p } : Dispatcher).world = {} := by simp [world]
  have hworld : d.world = w := by
    show ((Dispatcher.setGuard { scheduler := p } _ _).setState _ _).world = w
    rw [world_setState, world_setGuard, hempty]
    rfl
  rw [lower_declareState] at hp
  have hscheduler : lower (greedy first second) false = .ok d.scheduler := by
    rw [hp, run_scheduler]
  refine ⟨hworld, fun hw => ?_⟩
  rw [step_fires ((checks_eq_ok_iff _).mp hvalid) hscheduler (hworld ▸ hw), hworld]
  rfl

/-- With two tokens in the buffer the action fires, if it asks for one token first and then for two. -/
theorem fired_enabled_greedy :
    (greedy 1 2).validate = .ok () ∧ ∃ p, lower (declareState (greedy 1 2)) false = .ok p ∧
      let d := (Dispatcher.run { scheduler := p } (greedyRequests 2)).2
      d.step.1 = .ok ["take_body"] ∧ ∃ as : List Action, ["take_body"] = as.map Action.body ∧
        ∀ a ∈ as, d.world.guards a.guard = some true ∧
          ∀ e ∈ a.inputs, d.world.hasTokens (greedy 1 2) e = true := by
  have hvalid : (greedy 1 2).validate = .ok () := rfl
  obtain ⟨p, hp, hfired⟩ := fired_enabled (greedy 1 2) false hvalid
  obtain ⟨-, hstep⟩ := greedy_step 2 hvalid hp
  have hok := hstep (by decide)
  obtain ⟨as, has, henabled⟩ := hfired _ _ hok
  refine ⟨hvalid, p, hp, hok, as, has, fun a ha => ?_⟩
  obtain ⟨⟨current, -, htried⟩, hguard, htokens, -⟩ := henabled a ha
  have hmem : a ∈ (greedy 1 2).actions := by
    simpa [tried, Machine.candidates, greedy, actionsOutsideFsm] using htried
  refine ⟨hguard, fun e he => htokens e he fun q _ _ => ?_⟩
  exact (by decide : ∀ a ∈ (greedy 1 2).actions, ∀ e ∈ a.inputs,
    e.tokens ≤ (lastEntry a.inputs e).tokens) a hmem e he

/-- If it asks for three tokens first and then for one, it fires with one. -/
theorem greedy_fires_short :
    (greedy 3 1).validate = .ok () ∧ ∃ p, lower (declareState (greedy 3 1)) false = .ok p ∧
      let d := (Dispatcher.run { scheduler := p } (greedyRequests 1)).2
      d.step.1 = .ok ["take_body"] ∧
        ∀ a ∈ (greedy 3 1).actions, ∃ e ∈ a.inputs, d.world.hasTokens (greedy 3 1) e = false := by
  have hvalid : (greedy 3 1).validate = .ok () := rfl
  obtain ⟨p, hp⟩ := lower_total ((checks_eq_ok_iff _).mp hvalid) false
  rw [← lower_declareState] at hp
  obtain ⟨hworld, hstep⟩ := greedy_step 1 hvalid hp
  refine ⟨hvalid, p, hp, hstep (by decide), ?_⟩
  rw [hworld]
  decide

end Scheduler

end DataflowSynth
