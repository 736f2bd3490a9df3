/-
The choice of a round follows the dispatch rule.

A chain of candidates runs the first one that is due, if it can fire.  With a machine there is one
chain for every state, and all of them stand in the same round, one behind the other.  Only that of
the current state does anything: the tests read locals that were loaded before any of the chains
ran, so a change of state in one chain is not seen by the next.
-/
import DataflowSynth.Proofs.OrderedMap
import DataflowSynth.Proofs.Scheduler.Checks

namespace DataflowSynth.Scheduler

open Actor Dispatcher

variable {actor : Actor} {d : Dispatcher} {w : World} {skipFill : Bool}

/-! ### Variables that a scheduler writes -/

/-- All variables that the scheduler of an actor may store. -/
def written (actor : Actor) : List String :=
  machineVars actor ++ (inputBuffers actor).map BufferVars.start ++
    (inputBuffers actor).map BufferVars.requestSize

/-- The variables that are stored after the start as well. -/
def rewritten (actor : Actor) : List String :=
  machineVars actor ++ (inputBuffers actor).map BufferVars.requestSize

theorem mem_written_of_rewritten {v : String} (h : v ∈ rewritten actor) : v ∈ written actor := by
  rcases List.mem_append.mp h with h | h
  · exact List.mem_append_left _ (List.mem_append_left _ h)
  · exact List.mem_append_right _ h

theorem eq_ofPort_of_mem_inputBuffers {v : BufferVars} (h : v ∈ inputBuffers actor) :
    ∃ p, v = BufferVars.ofPort p := by
  obtain ⟨p, -, hp⟩ := List.mem_filterMap.mp h
  obtain ⟨-, -, rfl⟩ := Option.map_eq_some_iff.mp hp
  exact ⟨p.name, rfl⟩

theorem eq_ofPort_of_mem_outputBuffers {v : BufferVars} (h : v ∈ outputBuffers actor) :
    ∃ p, v = BufferVars.ofPort p := by
  obtain ⟨p, -, hp⟩ := List.mem_filterMap.mp h
  obtain ⟨-, -, rfl⟩ := Option.map_eq_some_iff.mp hp
  exact ⟨p.name, rfl⟩

/-- The fill of a buffer is never stored. -/
theorem count_notMem_written (port : String) : (BufferVars.ofPort port).count ∉ written actor := by
  intro h
  rcases List.mem_append.mp h with h | h
  · rcases List.mem_append.mp h with h | h
    · obtain ⟨s, -, heq⟩ := List.mem_map.mp h
      exact stateVar_ne_count s port heq
    · obtain ⟨v, hv, heq⟩ := List.mem_map.mp h
      obtain ⟨p, rfl⟩ := eq_ofPort_of_mem_inputBuffers hv
      exact count_ne_start port p heq.symm
  · obtain ⟨v, hv, heq⟩ := List.mem_map.mp h
    obtain ⟨p, rfl⟩ := eq_ofPort_of_mem_inputBuffers hv
    exact count_ne_requestSize port p heq.symm

/-- Exactly the variable of the current state is set. -/
def OneHot (states : List String) (current : String) (state : Valuation) : Prop :=
  ∀ s ∈ states, state[Fsm.stateVar s]? = some (truth (s = current))

/-! ### Firing -/

theorem keys_requestSizes (competitors : List Action) {v : String}
    (h : v ∈ (requestSizes actor competitors).keys) :
    v ∈ (inputBuffers actor).map BufferVars.requestSize := by
  -- The invariant of the fold: all keys are request sizes of inputs.
  refine List.foldlRecOn (motive := fun sizes : OrderedMap String UInt32 =>
    ∀ x ∈ sizes.keys, x ∈ (inputBuffers actor).map BufferVars.requestSize) _ _
    (fun x hx => absurd hx (by simp)) (fun sizes hsizes e _ => ?_) v h
  cases hvars : (actor.input? e.port).bind Port.bufferVars? with
  | none => exact hsizes
  | some vars =>
      intro x hx
      rcases OrderedMap.keys_alter _ hx with hx | rfl
      · exact hsizes x hx
      · obtain ⟨p, hp, hpv⟩ := Option.bind_eq_some_iff.mp hvars
        exact List.mem_map_of_mem
          (List.mem_filterMap.mpr ⟨p, mem_inputs_of_input? hp, hpv⟩)

theorem requestStores_run (d : Dispatcher) (actor : Actor) (skipFill : Bool) (c : Candidate)
    (r : Round) :
    ∃ state, Runs ((requestStores actor skipFill c).forM d.exec) r { r with state } ∧
      ∀ v, v ∉ (inputBuffers actor).map BufferVars.requestSize → state[v]? = r.state[v]? := by
  unfold requestStores
  split
  · exact ⟨r.state, runs_nil r, fun _ _ => rfl⟩
  · let ss : List (String × Expr) := (requestSizes actor c.competitors).entries.map fun e =>
      (e.1, .int (Int64.ofNat e.2.toNat))
    let value : Expr → Int64
      | .int i => i
      | _ => 0
    have hvalue : ∀ s ∈ ss, ∀ locals, s.2.eval locals = .ok (value s.2) := by
      intro s hs locals
      obtain ⟨e, -, rfl⟩ := List.mem_map.mp hs
      rfl
    obtain ⟨state, hruns, -, hframe⟩ := runs_stores (d := d) ss value hvalue r
    refine ⟨state, ?_, fun v hv => hframe v fun hmem => hv ?_⟩
    · simpa [ss, Function.comp_def] using hruns
    · refine keys_requestSizes c.competitors ?_
      simpa [ss, OrderedMap.keys, Function.comp_def] using hmem

/-- A move from the current state makes its target the current state. -/
theorem moveStores_run {states : List String} {source : String} (target : String) {r : Round}
    (hhot : OneHot states source r.state) :
    ∃ state, Runs ((moveStores (some (source, target))).forM d.exec) r { r with state } ∧
      OneHot states target state ∧
      ∀ v, v ≠ Fsm.stateVar source → v ≠ Fsm.stateVar target → state[v]? = r.state[v]? := by
  unfold moveStores
  by_cases heq : source = target
  · subst heq
    simp only [if_pos]
    exact ⟨r.state, runs_nil r, hhot, fun _ _ _ => rfl⟩
  · simp only [if_neg heq]
    refine ⟨_, runs_cons (runs_store rfl) (runs_cons (runs_store rfl) (runs_nil _)), ?_, ?_⟩
    · intro s hs
      by_cases hsource : s = source
      · subst hsource
        rw [(insert_decides _ _ _).1, decide_eq_false heq]
      rw [(insert_decides _ _ _).2 _ fun h => hsource (stateVar_inj.mp h)]
      by_cases htarget : s = target
      · subst htarget
        rw [(insert_decides _ _ _).1, decide_eq_true rfl]
      · rw [(insert_decides _ _ _).2 _ fun h => htarget (stateVar_inj.mp h), hhot s hs,
          decide_eq_false hsource, decide_eq_false htarget]
    · intro v hs ht
      rw [(insert_decides _ _ _).2 v hs, (insert_decides _ _ _).2 v ht]

/-- The state variables say which state is current, if there is a machine. -/
def Encodes (actor : Actor) (current : Option String) (state : Valuation) : Prop :=
  ∀ fsm ∈ actor.fsm, ∃ s ∈ fsm.states, current = some s ∧ OneHot fsm.states s state

/-- The state that is current after a candidate has fired. -/
def Candidate.next (c : Candidate) (current : Option String) : Option String :=
  match c.move with
  | none => current
  | some (_, target) => some target

/-- A candidate may be chosen in a state: it moves the machine, if at all, from that state to a
state. -/
def Candidate.Leaves (c : Candidate) (actor : Actor) (current : Option String) : Prop :=
  ∀ source target, c.move = some (source, target) →
    ∃ fsm ∈ actor.fsm, current = some source ∧ target ∈ fsm.states

theorem stateVar_mem_machineVars {fsm : Fsm} (hfsm : fsm ∈ actor.fsm) {s : String}
    (hs : s ∈ fsm.states) : Fsm.stateVar s ∈ machineVars actor := by
  simpa [machineVars, Option.mem_def.mp hfsm] using ⟨s, hs, rfl⟩

theorem stateVar_mem_rewritten {fsm : Fsm} (hfsm : fsm ∈ actor.fsm) {s : String}
    (hs : s ∈ fsm.states) : Fsm.stateVar s ∈ rewritten actor :=
  List.mem_append_left _ (stateVar_mem_machineVars hfsm hs)

/-- Other variables may be set without harm. -/
theorem Encodes.insert {current : Option String} {state : Valuation} {var : String}
    (h : Encodes actor current state) (hvar : var ∉ machineVars actor) (value : Int64) :
    Encodes actor current (state.insert var value) := by
  intro fsm hfsm
  obtain ⟨s, hs, heq, hhot⟩ := h fsm hfsm
  refine ⟨s, hs, heq, fun t ht => ?_⟩
  have hne : Fsm.stateVar t ≠ var := by
    intro heq
    rw [← heq] at hvar
    exact hvar (stateVar_mem_machineVars hfsm ht)
  rw [(insert_decides _ _ _).2 _ hne]
  exact hhot t ht

/-- A candidate that fires runs its body once and moves the machine. -/
theorem firing_run {c : Candidate} {current : Option String} {r : Round}
    (hleaves : c.Leaves actor current) (hcurrent : Encodes actor current r.state) :
    ∃ state, Runs ((firing actor skipFill c).forM d.exec) r
        { r with state, fired := r.fired ++ [c.action.body] } ∧
      Encodes actor (c.next current) state ∧
      ∀ v, v ∉ rewritten actor → state[v]? = r.state[v]? := by
  obtain ⟨st, hrequests, hframe⟩ :=
    requestStores_run d actor skipFill c r
  have hframe' : ∀ v, v ∉ rewritten actor → st[v]? = r.state[v]? :=
    fun v hv => hframe v fun h => hv (List.mem_append_right _ h)
  have hcurrent' : Encodes actor current st := by
    intro fsm hfsm
    obtain ⟨s, hs, heq, hhot⟩ := hcurrent fsm hfsm
    refine ⟨s, hs, heq, fun t ht => ?_⟩
    rw [hframe _ fun h => ?_]
    · exact hhot t ht
    · obtain ⟨v, hv, heq⟩ := List.mem_map.mp h
      obtain ⟨p, rfl⟩ := eq_ofPort_of_mem_inputBuffers hv
      exact stateVar_ne_requestSize t p heq.symm
  cases hmove : c.move with
  | none =>
      refine ⟨st, ?_, by simpa [Candidate.next, hmove] using hcurrent', hframe'⟩
      refine runs_append hrequests (runs_cons (runs_call _ _) ?_)
      rw [hmove]
      exact runs_nil _
  | some move =>
      obtain ⟨source, target⟩ := move
      obtain ⟨fsm, hfsm, rfl, htarget⟩ := hleaves source target hmove
      obtain ⟨s, hs, heq, hhot⟩ := hcurrent' fsm hfsm
      obtain rfl : source = s := Option.some.inj heq
      obtain ⟨st', hmoved, hhot', hframe''⟩ := moveStores_run (d := d) target
        (r := { r with state := st, fired := r.fired ++ [c.action.body] }) hhot
      refine ⟨st', ?_, ?_, fun v hv => ?_⟩
      · refine runs_append hrequests (runs_cons (runs_call _ _) ?_)
        rw [hmove]
        exact hmoved
      · intro fsm' hfsm'
        obtain rfl : fsm = fsm' := Option.mem_unique hfsm hfsm'
        exact ⟨target, htarget, by simp [Candidate.next, hmove], hhot'⟩
      · rw [hframe'' v (fun h => hv (h ▸ stateVar_mem_rewritten hfsm hs))
          fun h => hv (h ▸ stateVar_mem_rewritten hfsm htarget)]
        exact hframe' v hv

/-! ### Chains -/

/-- The first candidate that is due leads from `r` to `s` if it can fire; else nothing happens. -/
def Chosen (d : Dispatcher) (actor : Actor) (w : World) (skipFill : Bool) (cs : List Candidate)
    (r s : Round) : Prop :=
  match cs.find? fun c => w.due actor c.action with
  | none => s = r
  | some c =>
    if w.canFire actor c.action then Runs ((firing actor skipFill c).forM d.exec) r s else s = r

theorem chain_run {cs : List Candidate} {r s : Round}
    (hflagged : ∀ c ∈ cs, Flagged actor w r.locals c.action)
    (hchosen : Chosen d actor w skipFill cs r s) :
    Runs (runBlock.runBlocks d (chain actor skipFill cs)) r s := by
  induction cs with
  | nil =>
      rw [show s = r from hchosen]
      exact runs_blocks_nil r
  | cons c cs ih =>
      obtain ⟨hgo, hfire⟩ := hflagged c (by simp)
      refine runs_blocks_cons (runs_branch (eval_var hgo) ?_) (runs_blocks_nil _)
      simp only [truth_ne_zero]
      unfold Chosen at hchosen
      cases hdue : w.due actor c.action with
      | false =>
          simp only [List.find?_cons, hdue] at hchosen
          exact ih (fun c' hc' => hflagged c' (by simp [hc'])) hchosen
      | true =>
          simp only [List.find?_cons, hdue] at hchosen
          refine runs_blocks_cons (runs_branch (eval_var hfire) ?_) (runs_blocks_nil _)
          simp only [truth_ne_zero]
          split at hchosen
          · next hcan =>
            rw [if_pos hcan]
            exact runs_blocks_cons (runs_basic hchosen) (runs_blocks_nil _)
          · next hcan =>
            rw [if_neg hcan, hchosen]
            exact runs_blocks_nil r

/-! ### The chains of all states -/

/-- The chain of one state, behind its test. -/
def stateBlock (actor : Actor) (skipFill : Bool) (candidates : String → List Candidate)
    (s : String) : Block :=
  .branch (.var (stateLocal s)) (chain actor skipFill (candidates s)) []

/-- Only the chain of the current state does anything. -/
theorem stateBlocks_run {candidates : String → List Candidate} {current : String}
    {states : List String} (hnodup : states.Nodup) (hcurrent : current ∈ states) {r s : Round}
    (hlocals : s.locals = r.locals)
    (htest : ∀ t ∈ states, r.locals[stateLocal t]? = some (truth (t = current)))
    (hchain : Runs (runBlock.runBlocks d (chain actor skipFill (candidates current))) r s) :
    Runs (runBlock.runBlocks d (states.map (stateBlock actor skipFill candidates))) r s := by
  -- The chain of any other state is skipped, before the current one and after it.
  have hskip : ∀ (ts : List String) (r' : Round), (∀ t ∈ ts, t ≠ current) →
      (∀ t ∈ ts, r'.locals[stateLocal t]? = some (truth (t = current))) →
      Runs (runBlock.runBlocks d (ts.map (stateBlock actor skipFill candidates))) r' r' := by
    intro ts
    induction ts with
    | nil => intro r' _ _; exact runs_blocks_nil r'
    | cons t ts ih =>
        intro r' hne htest
        refine runs_blocks_cons (runs_branch (eval_var (htest t (by simp))) ?_)
          (ih r' (fun u hu => hne u (by simp [hu])) fun u hu => htest u (by simp [hu]))
        rw [decide_eq_false (hne t (by simp))]
        exact runs_blocks_nil r'
  obtain ⟨before, after, rfl⟩ := List.append_of_mem hcurrent
  have hsplit := List.nodup_append.mp hnodup
  rw [List.map_append, List.map_cons]
  refine runs_blocks_append (hskip before r ?_ fun t ht => htest t (by simp [ht])) ?_
  · exact fun t ht heq => hsplit.2.2 t ht current (by simp) heq
  have hblock : Runs (d.runBlock (stateBlock actor skipFill candidates current)) r s := by
    refine runs_branch (eval_var (htest current (by simp))) ?_
    rw [decide_eq_true rfl]
    exact hchain
  refine runs_blocks_cons hblock (hskip after s ?_ fun t ht => ?_)
  · rintro t ht rfl
    exact (List.nodup_cons.mp hsplit.2.1).1 ht
  · rw [hlocals]
    exact htest t (by simp [ht])

/-! ### Candidates -/

/-- The candidates of a chain are those of the dispatch rule, in the same order. -/
structure Lists (actor : Actor) (current : Option String) (cs : List Candidate) : Prop where
  actions : ∀ c ∈ cs, c.action ∈ actor.actions
  leaves : ∀ c ∈ cs, c.Leaves actor current
  order : cs.map (fun c => (c.action, c.next current)) = Machine.candidates actor current

theorem mem_actions_of_outside {a : Action} (h : a ∈ actor.actionsOutsideFsm) :
    a ∈ actor.actions := by
  unfold actionsOutsideFsm at h
  split at h
  · exact (List.mem_filter.mp h).1
  · exact h

/-- Without a machine all actions are candidates. -/
theorem freeCandidates_lists (hfsm : actor.fsm = none) (current : Option String) :
    Lists actor current (freeCandidates actor.actionsOutsideFsm) where
  actions c hc := by
    obtain ⟨a, ha, rfl⟩ := List.mem_map.mp hc
    exact mem_actions_of_outside ha
  leaves c hc source target hmove := by
    obtain ⟨a, ha, rfl⟩ := List.mem_map.mp hc
    cases hmove
  order := by
    simp [freeCandidates, Machine.candidates, hfsm, Candidate.next, Function.comp_def]

theorem mapM_eq_ok_filterMap {ε α β : Type} {f : α → Except ε β} {g : α → Option β} {xs : List α}
    (h : ∀ x ∈ xs, ∃ y, f x = .ok y ∧ g x = some y) : xs.mapM f = .ok (xs.filterMap g) := by
  induction xs with
  | nil => rfl
  | cons x xs ih =>
      obtain ⟨y, hf, hg⟩ := h x (by simp)
      rw [List.mapM_cons, hf, ih fun z hz => h z (by simp [hz]), List.filterMap_cons_some hg]
      rfl

/-- In a state of the machine the actions of the transitions that leave it come last. -/
theorem stateCandidates_lists (hv : Valid actor) {fsm : Fsm} (hfsm : actor.fsm = some fsm)
    (state : String) :
    ∃ cs, stateCandidates actor fsm state = .ok cs ∧ Lists actor (some state) cs := by
  let leaving : List (Action × Transition) :=
    (fsm.outgoing state).filterMap fun t => (actor.action? t.action).map fun a => (a, t)
  have houtgoing : ∀ t ∈ fsm.outgoing state, t ∈ fsm.transitions ∧ t.source = state := by
    intro t ht
    simpa [Fsm.outgoing] using ht
  have hleaving : (fsm.outgoing state).mapM (fun t => do
      return (← transitionAction actor t, t)) = Except.ok leaving := by
    refine mapM_eq_ok_filterMap fun t ht => ?_
    obtain ⟨a, -, ha⟩ := hv.action?_transition hfsm (houtgoing t ht).1
    exact ⟨(a, t), by simp only [transitionAction, ha]; rfl, by simp [ha]⟩
  have hmem : ∀ x ∈ leaving, x.1 ∈ actor.actions ∧ x.2 ∈ fsm.outgoing state := by
    intro x hx
    obtain ⟨t, ht, hat⟩ := List.mem_filterMap.mp hx
    obtain ⟨a, ha, rfl⟩ := Option.map_eq_some_iff.mp hat
    exact ⟨List.mem_of_find?_eq_some ha, ht⟩
  refine ⟨freeCandidates actor.actionsOutsideFsm ++ leaving.map fun x =>
    { action := x.1, move := some (x.2.source, x.2.target),
      competitors := leaving.map Prod.fst ++ actor.actionsOutsideFsm }, ?_, ?_, ?_, ?_⟩
  · simp only [stateCandidates, hleaving]
    rfl
  · intro c hc
    rcases List.mem_append.mp hc with hc | hc
    · obtain ⟨a, ha, rfl⟩ := List.mem_map.mp hc
      exact mem_actions_of_outside ha
    · obtain ⟨x, hx, rfl⟩ := List.mem_map.mp hc
      exact (hmem x hx).1
  · intro c hc source target hmove
    rcases List.mem_append.mp hc with hc | hc
    · obtain ⟨a, ha, rfl⟩ := List.mem_map.mp hc
      cases hmove
    · obtain ⟨x, hx, rfl⟩ := List.mem_map.mp hc
      obtain ⟨ht, hsource⟩ := houtgoing _ (hmem x hx).2
      cases hmove
      exact ⟨fsm, hfsm, by rw [hsource], ((hv.fsm fsm hfsm).transitions _ ht).target⟩
  · simp [freeCandidates, Machine.candidates, hfsm, Candidate.next, leaving, Function.comp_def,
      List.map_filterMap]

/-! ### The choice -/

/-- What a chain does is what the dispatch rule says. -/
theorem chosen_step {current : Option String} {cs : List Candidate}
    (hlists : Lists actor current cs) {r : Round} (hcurrent : Encodes actor current r.state) :
    ∃ state, Chosen d actor w skipFill cs r
        { r with state, fired := r.fired ++ (Machine.step actor ⟨w, current⟩).1 } ∧
      Encodes actor (Machine.step actor ⟨w, current⟩).2.current state ∧
      ∀ v, v ∉ written actor → state[v]? = r.state[v]? := by
  have hstay : Chosen d actor w skipFill cs r { r with state := r.state, fired := r.fired ++ [] } ↔
      Chosen d actor w skipFill cs r r := by
    rw [List.append_nil]
  have hfind : (Machine.candidates actor current).find? (fun c => w.due actor c.1) =
      (cs.find? fun c => w.due actor c.action).map fun c => (c.action, c.next current) := by
    rw [← hlists.order, List.find?_map]
    rfl
  unfold Machine.step
  rw [hfind]
  cases hc : cs.find? fun c => w.due actor c.action with
  | none =>
      refine ⟨r.state, hstay.mpr ?_, hcurrent, fun _ _ => rfl⟩
      simp [Chosen, hc]
  | some c =>
      have hmem := List.mem_of_find?_eq_some hc
      simp only [Option.map_some]
      cases hcan : w.canFire actor c.action with
      | false =>
          refine ⟨r.state, hstay.mpr ?_, hcurrent, fun _ _ => rfl⟩
          simp [Chosen, hc, hcan]
      | true =>
          obtain ⟨state, hruns, hnext, hframe⟩ :=
            firing_run (d := d) (hlists.leaves c hmem) hcurrent
          refine ⟨state, ?_, hnext, fun v hv => hframe v fun h => hv (mem_written_of_rewritten h)⟩
          simpa [Chosen, hc, hcan] using hruns

/-- The locals that were loaded for the states say which one is current. -/
def Tested (actor : Actor) (current : Option String) (locals : Valuation) : Prop :=
  ∀ fsm ∈ actor.fsm, ∀ s ∈ fsm.states,
    locals[stateLocal s]? = some (truth (some s = current))

/-- With a machine the choice is one chain for every state. -/
theorem choice_of_stateCandidates {fsm : Fsm} (hfsm : actor.fsm = some fsm) (skipFill : Bool)
    {candidates : String → List Candidate}
    (hcandidates : ∀ s, stateCandidates actor fsm s = .ok (candidates s)) :
    choice actor skipFill =
      .ok [.mutex (fsm.states.map (stateBlock actor skipFill candidates))] := by
  have hmap : fsm.states.mapM (fun s => do
      let candidates ← stateCandidates actor fsm s
      return Block.branch (.var (stateLocal s)) (chain actor skipFill candidates) []) =
      Except.ok (fsm.states.map (stateBlock actor skipFill candidates)) := by
    refine mapM_eq_ok_map fun s _ => ?_
    rw [hcandidates]
    rfl
  simp only [choice, hfsm, hmap]
  rfl

theorem choice_eq (hv : Valid actor) {fsm : Fsm} (hfsm : actor.fsm = some fsm) (skipFill : Bool) :
    ∃ candidates : String → List Candidate, (∀ s, Lists actor (some s) (candidates s)) ∧
      choice actor skipFill =
        .ok [.mutex (fsm.states.map (stateBlock actor skipFill candidates))] := by
  choose candidates hcandidates hlists using stateCandidates_lists hv hfsm
  exact ⟨candidates, hlists, choice_of_stateCandidates hfsm skipFill hcandidates⟩

/-- The choice of a round is the step of the dispatch rule. -/
theorem choice_run (hv : Valid actor) (skipFill : Bool) :
    ∃ blocks, choice actor skipFill = .ok blocks ∧
      ∀ (d : Dispatcher) (w : World) (current : Option String) (r : Round),
        (∀ a ∈ actor.actions, Flagged actor w r.locals a) → Tested actor current r.locals →
        Encodes actor current r.state → ∃ state,
          Runs (runBlock.runBlocks d blocks) r
            { r with state, fired := r.fired ++ (Machine.step actor ⟨w, current⟩).1 } ∧
          Encodes actor (Machine.step actor ⟨w, current⟩).2.current state ∧
          ∀ v, v ∉ written actor → state[v]? = r.state[v]? := by
  cases hfsm : actor.fsm with
  | none =>
      refine ⟨chain actor skipFill (freeCandidates actor.actionsOutsideFsm),
        by simp only [choice, hfsm], ?_⟩
      intro d w current r hflagged _ hcurrent
      have hlists := freeCandidates_lists hfsm current
      obtain ⟨state, hchosen, hnext, hframe⟩ := chosen_step hlists hcurrent
      exact ⟨state, chain_run (fun c hc => hflagged _ (hlists.actions c hc)) hchosen, hnext, hframe⟩
  | some fsm =>
      obtain ⟨candidates, hlists, hchoice⟩ := choice_eq hv hfsm skipFill
      refine ⟨[.mutex (fsm.states.map (stateBlock actor skipFill candidates))], hchoice, ?_⟩
      intro d w current r hflagged htested hcurrent
      obtain ⟨s, hs, rfl, -⟩ := hcurrent fsm hfsm
      obtain ⟨state, hchosen, hnext, hframe⟩ := chosen_step (hlists s) hcurrent
      refine ⟨state, ?_, hnext, hframe⟩
      refine runs_blocks_cons (runs_mutex ?_) (runs_blocks_nil _)
      refine stateBlocks_run (hv.fsm fsm hfsm).states hs rfl (fun t ht => ?_)
        (chain_run (fun c hc => hflagged _ ((hlists s).actions c hc)) hchosen)
      simpa using htested fsm hfsm t ht

end DataflowSynth.Scheduler
