/-
A lowered scheduler does what the dispatch rule says.

The two sides are related by `Follows`: the dispatcher sees the world of the machine, its variables
encode the current state once the first round has begun, and every variable that the scheduler does
not write has the value that the world gave it.  One round keeps the relation and fires what the rule
fires (`follows_step`), and so do whole runs (`run_follows`).
-/
import DataflowSynth.Proofs.Scheduler.Choice

namespace DataflowSynth.Scheduler

open Actor Dispatcher

variable {actor : Actor} {d : Dispatcher} {m : Machine}

/-! ### The start of a run -/

/-- The stores before the first round put the machine into its initial state. -/
theorem initialStores_run (hv : Valid actor) (d : Dispatcher) (r : Round) :
    ∃ state, Runs ((initialStores actor).forM d.exec) r { r with state } ∧
      Encodes actor (actor.fsm.map Fsm.initial) state ∧
      ∀ v, v ∉ written actor → state[v]? = r.state[v]? := by
  let value : Expr → Int64
    | .bool b => truth b
    | _ => 0
  let starts : List (String × Expr) := (inputBuffers actor).map fun v => (v.start, .bool true)
  have hstarts : ∀ r : Round, ∃ state,
      Runs (((inputBuffers actor).map fun v => Instruction.store v.start (.bool true)).forM d.exec)
        r { r with state } ∧
      ∀ v, v ∉ (inputBuffers actor).map BufferVars.start → state[v]? = r.state[v]? := by
    intro r
    have hvalue : ∀ s ∈ starts, ∀ locals, s.2.eval locals = .ok (value s.2) := by
      intro s hs locals
      obtain ⟨v, -, rfl⟩ := List.mem_map.mp hs
      rfl
    obtain ⟨state, hruns, -, hframe⟩ := runs_stores (d := d) starts value hvalue r
    simp only [starts, List.map_map, Function.comp_def] at hruns hframe
    exact ⟨state, hruns, hframe⟩
  unfold initialStores
  cases hfsm : actor.fsm with
  | none =>
      obtain ⟨state, hruns, hframe⟩ := hstarts r
      refine ⟨state, hruns, by simp [Encodes, hfsm], fun v hv => hframe v fun h => hv ?_⟩
      exact List.mem_append_left _ (List.mem_append_right _ h)
  | some fsm =>
      let states : List (String × Expr) :=
        fsm.states.map fun s => (Fsm.stateVar s, .bool (s = fsm.initial))
      have hvalue : ∀ s ∈ states, ∀ locals, s.2.eval locals = .ok (value s.2) := by
        intro s hs locals
        obtain ⟨t, -, rfl⟩ := List.mem_map.mp hs
        rfl
      obtain ⟨st, hruns, hstored, hframe⟩ := runs_stores (d := d) states value hvalue r
      simp only [states, List.map_map, Function.comp_def] at hruns hframe
      simp only [states, value, List.forall_mem_map] at hstored
      obtain ⟨state, hruns', hframe'⟩ := hstarts { r with state := st }
      refine ⟨state, runs_append hruns hruns', ?_, fun v hv => ?_⟩
      · intro fsm' hfsm'
        obtain rfl : fsm = fsm' := Option.some.inj (hfsm.symm.trans hfsm')
        refine ⟨fsm.initial, (hv.fsm fsm hfsm).initial, rfl, fun s hs => ?_⟩
        rw [hframe' _ fun h => ?_]
        · refine hstored (fun s _ t _ heq => ?_) s hs
          rw [stateVar_inj.mp heq]
        · obtain ⟨v, hmem, heq⟩ := List.mem_map.mp h
          obtain ⟨p, rfl⟩ := eq_ofPort_of_mem_inputBuffers hmem
          exact stateVar_ne_start s p heq.symm
      · rw [hframe' v fun h => hv (List.mem_append_left _ (List.mem_append_right _ h)),
          hframe v fun h => ?_]
        obtain ⟨s, hs, rfl⟩ := List.mem_map.mp h
        exact hv (mem_written_of_rewritten (stateVar_mem_rewritten hfsm hs))

/-! ### The start of a round -/

/-- Which local is loaded from which variable. -/
def loadPairs (actor : Actor) : List (String × String) :=
  ((actor.fsm.map Fsm.states).getD []).map (fun s => (stateLocal s, Fsm.stateVar s)) ++
    (inputBuffers actor).flatMap (fun v => [(v.tmpCount, v.count), (v.tmpStart, v.start)]) ++
    (outputBuffers actor).map fun v => (v.tmpCount, v.count)

theorem loads_instructions (actor : Actor) :
    (loads actor).instructions = (loadPairs actor).map fun l => .load l.1 l.2 := by
  simp only [loads, loadPairs, foldl_append_instructions, List.nil_append, List.flatMap_append,
    List.flatMap_map, List.map_append, List.map_map, List.map_flatMap, Function.comp_def, loaded,
    ← List.map_eq_flatMap]
  rfl

/-- Every pair that is loaded is one of three kinds. -/
theorem mem_loadPairs {l : String × String} (h : l ∈ loadPairs actor) :
    (∃ s, l = (stateLocal s, Fsm.stateVar s)) ∨
      (∃ p, l = ((BufferVars.ofPort p).tmpCount, (BufferVars.ofPort p).count)) ∨
      ∃ p, l = ((BufferVars.ofPort p).tmpStart, (BufferVars.ofPort p).start) := by
  rcases List.mem_append.mp h with h | h
  · rcases List.mem_append.mp h with h | h
    · obtain ⟨s, -, rfl⟩ := List.mem_map.mp h
      exact .inl ⟨s, rfl⟩
    · obtain ⟨v, hv, hl⟩ := List.mem_flatMap.mp h
      obtain ⟨p, rfl⟩ := eq_ofPort_of_mem_inputBuffers hv
      simp only [List.mem_cons, List.not_mem_nil, or_false] at hl
      rcases hl with rfl | rfl
      · exact .inr (.inl ⟨p, rfl⟩)
      · exact .inr (.inr ⟨p, rfl⟩)
  · obtain ⟨v, hv, rfl⟩ := List.mem_map.mp h
    obtain ⟨p, rfl⟩ := eq_ofPort_of_mem_outputBuffers hv
    exact .inr (.inl ⟨p, rfl⟩)

/-- A local is loaded from one variable only. -/
theorem loadPairs_source {l k : String × String} (hl : l ∈ loadPairs actor)
    (hk : k ∈ loadPairs actor) (heq : l.1 = k.1) : l.2 = k.2 := by
  rcases mem_loadPairs hl with ⟨s, rfl⟩ | ⟨p, rfl⟩ | ⟨p, rfl⟩ <;>
    rcases mem_loadPairs hk with ⟨t, rfl⟩ | ⟨q, rfl⟩ | ⟨q, rfl⟩
  · rw [stateLocal_inj.mp heq]
  · exact absurd heq (stateLocal_ne_tmpCount s q)
  · exact absurd heq (stateLocal_ne_tmpStart s q)
  · exact absurd heq.symm (stateLocal_ne_tmpCount t p)
  · rw [tmpCount_inj.mp heq]
  · exact absurd heq (tmpCount_ne_tmpStart p q)
  · exact absurd heq.symm (stateLocal_ne_tmpStart t p)
  · exact absurd heq.symm (tmpCount_ne_tmpStart q p)
  · rw [tmpStart_inj.mp heq]

theorem stateLocal_mem_loadPairs {fsm : Fsm} (hfsm : fsm ∈ actor.fsm) {s : String}
    (hs : s ∈ fsm.states) : (stateLocal s, Fsm.stateVar s) ∈ loadPairs actor := by
  refine List.mem_append_left _ (List.mem_append_left _ ?_)
  simpa [Option.mem_def.mp hfsm] using ⟨s, hs, rfl, rfl⟩

theorem tmpCount_mem_loadPairs {p : Port} (hp : p ∈ actor.ports) (hbuffer : p.buffer.isSome) :
    ((BufferVars.ofPort p.name).tmpCount, (BufferVars.ofPort p.name).count) ∈ loadPairs actor := by
  obtain ⟨size, hsize⟩ := Option.isSome_iff_exists.mp hbuffer
  have hvars : p.bufferVars? = some (BufferVars.ofPort p.name) := by simp [Port.bufferVars?, hsize]
  rcases List.mem_append.mp hp with hin | hout
  · refine List.mem_append_left _ (List.mem_append_right _ (List.mem_flatMap.mpr ?_))
    exact ⟨_, List.mem_filterMap.mpr ⟨p, hin, hvars⟩, by simp⟩
  · exact List.mem_append_right _
      (List.mem_map.mpr ⟨_, List.mem_filterMap.mpr ⟨p, hout, hvars⟩, rfl⟩)

/-- The loads make the state of the machine and the fill of the buffers known to the round. -/
theorem loads_run {w : World} {current : Option String} {r : Round}
    (hvalues : ∀ v, v ∉ written actor → r.state[v]? = w.values v)
    (hcurrent : Encodes actor current r.state) :
    ∃ locals, Runs (runBlock.runBlocks d (basicUnlessEmpty (loads actor).instructions)) r
        { r with locals } ∧
      Loaded actor w locals ∧ Tested actor current locals := by
  obtain ⟨locals, hsets, hloaded, -⟩ :=
    sets_loads (d := d) (loadPairs actor) (fun l hl k hk => loadPairs_source hl hk) r
  rw [← loads_instructions] at hsets
  refine ⟨locals, runs_basicUnlessEmpty hsets, fun p hp hbuffer => ?_, fun fsm hfsm s hs => ?_⟩
  · rw [hloaded _ (tmpCount_mem_loadPairs hp hbuffer), hvalues _ (count_notMem_written p.name)]
  · obtain ⟨t, -, rfl, hhot⟩ := hcurrent fsm hfsm
    rw [hloaded _ (stateLocal_mem_loadPairs hfsm hs), hhot s hs]
    simp

/-! ### Lowering succeeds -/

theorem mapM_total {ε α β : Type} {f : α → Except ε β} {xs : List α}
    (h : ∀ x ∈ xs, ∃ y, f x = .ok y) : ∃ ys, xs.mapM f = .ok ys := by
  induction xs with
  | nil => exact ⟨[], rfl⟩
  | cons x xs ih =>
      obtain ⟨y, hy⟩ := h x (by simp)
      obtain ⟨ys, hys⟩ := ih fun z hz => h z (by simp [hz])
      exact ⟨y :: ys, by rw [List.mapM_cons, hy, hys]; rfl⟩

theorem duePart_total {a : Action} (h : ∀ e ∈ a.inputs, (actor.input? e.port).isSome) :
    ∃ part, duePart actor a = .ok part := by
  have hchecks : ∀ e ∈ a.inputs, ∃ c, tokenCheck actor a e = .ok c := by
    intro e he
    obtain ⟨port, hport⟩ := Option.isSome_iff_exists.mp (h e he)
    simp only [tokenCheck, hport]
    split <;> exact ⟨_, rfl⟩
  obtain ⟨cs, hcs⟩ := mapM_total hchecks
  unfold duePart
  rw [hcs]
  cases hall : allFlags? cs with
  | none => exact ⟨_, by simp only [bind, Except.bind, hall]; rfl⟩
  | some all => exact ⟨_, by simp only [bind, Except.bind, hall]; rfl⟩

theorem firePart_total {a : Action} (h : ∀ e ∈ a.outputs, (actor.output? e.port).isSome) :
    ∃ part, firePart actor a = .ok part := by
  have hchecks : ∀ e ∈ a.outputs, ∃ c, spaceCheck actor a e = .ok c := by
    intro e he
    obtain ⟨port, hport⟩ := Option.isSome_iff_exists.mp (h e he)
    simp only [spaceCheck, hport]
    split <;> exact ⟨_, rfl⟩
  obtain ⟨cs, hcs⟩ := mapM_total hchecks
  unfold firePart
  rw [hcs]
  cases hall : allFlags? cs with
  | none => exact ⟨_, by simp only [bind, Except.bind, hall]; rfl⟩
  | some all => exact ⟨_, by simp only [bind, Except.bind, hall]; rfl⟩

theorem chain_declareState (actor : Actor) (skipFill : Bool) (cs : List Candidate) :
    chain (declareState actor) skipFill cs = chain actor skipFill cs := by
  induction cs with
  | nil => rfl
  | cons c cs ih =>
      rw [chain, chain, ih]
      rfl

/-- Declared variables do not matter for a scheduler. -/
theorem lower_declareState (actor : Actor) (skipFill : Bool) :
    lower (declareState actor) skipFill = lower actor skipFill := by
  have hchoice : choice (declareState actor) skipFill = choice actor skipFill := by
    unfold choice
    simp only [chain_declareState]
    rfl
  unfold lower
  rw [hchoice]
  rfl

/-- The two parts of a scheduler: what its first round starts with, and the body of its loop. -/
theorem lower_eq {parts : List (List Part)} {blocks : List Block} {skipFill : Bool}
    (hparts : actor.actions.mapM (checks actor) = .ok parts)
    (hblocks : choice actor skipFill = .ok blocks) :
    ∃ p, lower actor skipFill = .ok p ∧
      splitAtLoop? p.blocks = some (basicUnlessEmpty (initialStores actor), .bool true,
        basicUnlessEmpty (loads actor).instructions ++
          parts.flatten.map (fun p => .basic p.instructions) ++ blocks) := by
  refine ⟨_, by simp only [lower, hparts, hblocks, bind, Except.bind, pure, Except.pure]; rfl, ?_⟩
  exact splitAtLoop?_basicUnlessEmpty _ _ _ _

/-- Every valid actor has a scheduler. -/
theorem lower_total (hv : Valid actor) (skipFill : Bool) : ∃ p, lower actor skipFill = .ok p := by
  have hchecks : ∀ a ∈ actor.actions, ∃ parts, checks actor a = .ok parts := by
    intro a ha
    obtain ⟨due, hdue⟩ := duePart_total (hv.actions a ha).inputs
    obtain ⟨fire, hfire⟩ := firePart_total (hv.actions a ha).outputs
    exact ⟨[due, fire], by rw [checks, hdue, hfire]; rfl⟩
  obtain ⟨parts, hparts⟩ := mapM_total hchecks
  obtain ⟨blocks, hblocks, -⟩ := choice_run hv skipFill
  obtain ⟨p, hp, -⟩ := lower_eq hparts hblocks
  exact ⟨p, hp⟩

/-! ### One round -/

/-- The dispatcher runs the scheduler of the actor and has come as far as the machine. -/
structure Follows (actor : Actor) (skipFill : Bool) (d : Dispatcher) (m : Machine) : Prop where
  scheduler : lower actor skipFill = .ok d.scheduler
  sees : Sees d m.world
  values : ∀ v, v ∉ written actor → d.state[v]? = m.world.values v
  current : if d.started then Encodes actor m.current d.state
    else m.current = actor.fsm.map Fsm.initial

/-- No action lists a port twice in one pattern. -/
def PortsOnce (actor : Actor) : Prop :=
  ∀ a ∈ actor.actions, a.inputs.ports.Nodup ∧ a.outputs.ports.Nodup

theorem checkable_of_complete {w : World} (hv : Valid actor) (hw : w.Complete actor) {a : Action}
    (ha : a ∈ actor.actions) : Checkable actor w a where
  inputs := (hv.actions a ha).inputs
  outputs := (hv.actions a ha).outputs
  guard := (hw a ha).1
  statuses := (hw a ha).2

/-- The front of the first round, or nothing in a later one, leaves the machine in its state. -/
theorem front_run {skipFill : Bool} (hv : Valid actor) (h : Follows actor skipFill d m) :
    ∃ r : Round, (if d.started then r = { state := d.state }
        else Runs (runBlock.runBlocks d (basicUnlessEmpty (initialStores actor)))
          { state := d.state } r) ∧
      r.fired = [] ∧ Encodes actor m.current r.state ∧
      ∀ v, v ∉ written actor → r.state[v]? = m.world.values v := by
  have hcurrent := h.current
  cases hstarted : d.started with
  | true =>
      rw [hstarted, if_pos rfl] at hcurrent
      exact ⟨{ state := d.state }, by simp, rfl, hcurrent, h.values⟩
  | false =>
      rw [hstarted, if_neg (by simp)] at hcurrent
      obtain ⟨state, hruns, hencodes, hframe⟩ := initialStores_run hv d { state := d.state }
      refine ⟨{ state }, by simpa using runs_basicUnlessEmpty hruns, rfl, hcurrent ▸ hencodes, ?_⟩
      exact fun v hv => (hframe v hv).trans (h.values v hv)

theorem Machine.step_world (m : Machine) (actor : Actor) : (m.step actor).2.world = m.world := by
  unfold step
  split
  · rfl
  · split <;> rfl

/-- A round does what the dispatch rule says. -/
theorem follows_step {skipFill : Bool} (hv : Valid actor) (hports : PortsOnce actor)
    (hw : m.world.Complete actor) (h : Follows actor skipFill d m) :
    d.step.1 = .ok (m.step actor).1 ∧ Follows actor skipFill d.step.2 (m.step actor).2 ∧
      d.step.2.started = true := by
  obtain ⟨parts, hparts, hchecks⟩ := allChecks_run h.sees actor.actions
    (fun a ha => checkable_of_complete hv hw ha) hv.names
  obtain ⟨blocks, hblocks, hchoice⟩ := choice_run hv skipFill
  obtain ⟨p, hp, hsplit⟩ := lower_eq hparts hblocks
  obtain rfl : d.scheduler = p := Except.ok.inj (h.scheduler.symm.trans hp)
  obtain ⟨r, hfront, hfired, hcurrent, hvalues⟩ := front_run hv h
  obtain ⟨l, hloads, hloaded, htested⟩ := loads_run (d := d) hvalues hcurrent
  obtain ⟨l', hruns, hflagged, hframe⟩ := hchecks { r with locals := l } hloaded
  have hflagged' : ∀ a ∈ actor.actions, Flagged actor m.world l' a := fun a ha =>
    settled_of_nodup (hports a ha).1 ▸ hflagged a ha
  have htested' : Tested actor m.current l' := by
    intro fsm hfsm s hs
    rw [hframe _ fun a _ hlocal => hlocal.ne_stateLocal s rfl]
    exact htested fsm hfsm s hs
  obtain ⟨state, hchosen, hnext, hkept⟩ :=
    hchoice d m.world m.current { r with locals := l' } hflagged' htested' hcurrent
  have hstep := step_of_runs hsplit hfront
    (runs_blocks_append (runs_blocks_append hloads hruns) hchosen)
  have hworld := m.step_world actor
  rw [hstep]
  refine ⟨by rw [hfired]; rfl, ⟨h.scheduler, ?_, ?_, ?_⟩, rfl⟩
  · rw [hworld]
    exact ⟨h.sees.guards, h.sees.statuses⟩
  · intro v hv
    rw [hworld]
    exact (hkept v hv).trans (hvalues v hv)
  · rw [if_pos rfl]
    exact hnext

/-! ### Runs -/

theorem getElem?_insert_eq_ite {α : Type} (xs : Std.HashMap String α) (k : String) (x : α)
    (v : String) : (xs.insert k x)[v]? = if v = k then some x else xs[v]? := by
  by_cases h : v = k
  · simp [h]
  · simp [Std.HashMap.getElem?_insert, h, Ne.symm h]

theorem follows_setGuard {skipFill : Bool} (h : Follows actor skipFill d m) (guard : String)
    (result : Bool) :
    Follows actor skipFill (d.setGuard guard result)
      { m with world := m.world.serve (.setGuard guard result) } where
  scheduler := h.scheduler
  sees := by
    refine ⟨fun g => ?_, h.sees.statuses⟩
    simp only [setGuard, World.serve, getElem?_insert_eq_ite, h.sees.guards]
  values := h.values
  current := h.current

theorem follows_setStatus {skipFill : Bool} (h : Follows actor skipFill d m) (port : String)
    (status : Bool) :
    Follows actor skipFill (d.setStatus port status)
      { m with world := m.world.serve (.setStatus port status) } where
  scheduler := h.scheduler
  sees := by
    refine ⟨h.sees.guards, fun p => ?_⟩
    simp only [setStatus, World.serve, getElem?_insert_eq_ite, h.sees.statuses]
  values := h.values
  current := h.current

theorem follows_setState {skipFill : Bool} (h : Follows actor skipFill d m) {var : String}
    (hvar : var ∉ machineVars actor) (value : Int64) :
    Follows actor skipFill (d.setState var value)
      { m with world := m.world.serve (.setState var value) } where
  scheduler := h.scheduler
  sees := ⟨h.sees.guards, h.sees.statuses⟩
  values v hv := by
    simp only [setState, World.serve, getElem?_insert_eq_ite, h.values v hv]
  current := by
    have hcurrent := h.current
    cases hstarted : d.started with
    | false => simpa [setState, hstarted] using hcurrent
    | true =>
        rw [hstarted, if_pos rfl] at hcurrent
        simp only [setState, hstarted, if_pos]
        exact hcurrent.insert hvar value

/-- A run with the scheduler answers as the dispatch rule does, and ends where the rule ends. -/
theorem run_follows {skipFill : Bool} (hv : Valid actor) (hports : PortsOnce actor)
    (rs : List Request) :
    ∀ {d : Dispatcher} {m : Machine}, Follows actor skipFill d m → Admissible actor m.world rs →
      (d.run rs).1 = (m.run actor rs).1.map .ok ∧
        Follows actor skipFill (d.run rs).2 (m.run actor rs).2 ∧
        ((d.run rs).2.started = true ↔ d.started = true ∨ .step ∈ rs) := by
  induction rs with
  | nil => intro d m h _; exact ⟨rfl, h, by simp [Dispatcher.run]⟩
  | cons r rs ih =>
      intro d m h hrs
      obtain ⟨hr, hrs⟩ := hrs
      cases r with
      | setGuard guard result =>
          simpa [Dispatcher.run, Machine.run, setGuard] using
            ih (follows_setGuard h guard result) hrs
      | setStatus port status =>
          simpa [Dispatcher.run, Machine.run, setStatus] using
            ih (follows_setStatus h port status) hrs
      | setState var value =>
          simpa [Dispatcher.run, Machine.run, setState] using
            ih (follows_setState h hr value) hrs
      | step =>
          obtain ⟨hanswer, hfollows, hstarted⟩ := follows_step hv hports hr h
          have hworld : (m.step actor).2.world = m.world := m.step_world actor
          obtain ⟨hanswers, hend, hagain⟩ := ih hfollows (hworld ▸ hrs)
          refine ⟨?_, hend, ?_⟩
          · simp only [Dispatcher.run, Machine.run, List.map_cons, hanswer, hanswers]
          · simp only [Dispatcher.run, hagain, hstarted]
            simp

/-! ### The whole -/

/-- A scheduler refines the dispatch rule.  Every valid actor whose patterns list a port once has a
scheduler.  Started anew and asked for any admissible run, it answers every round without failing and
with what the rule fires.  After the run exactly the variable of the current state is set, unless no
round was run, and a variable that the scheduler does not write has the value it was given last. -/
theorem lower_refines_rule (actor : Actor) (skipFill : Bool) (hvalid : actor.validate = .ok ())
    (hports : PortsOnce actor) :
    ∃ p, lower (declareState actor) skipFill = .ok p ∧ ∀ rs, Admissible actor {} rs →
      let run := Dispatcher.run { scheduler := p } rs
      let rule := (Machine.initial actor).run actor rs
      run.1 = rule.1.map .ok ∧
      (.step ∈ rs → Encodes actor rule.2.current run.2.state) ∧
      ∀ v, v ∉ written actor → run.2.value? v = rule.2.world.values v := by
  have hv := (checks_eq_ok_iff actor).mp hvalid
  obtain ⟨p, hp⟩ := lower_total hv skipFill
  refine ⟨p, (lower_declareState actor skipFill).trans hp, fun rs hrs => ?_⟩
  have hstart : Follows actor skipFill { scheduler := p } (Machine.initial actor) :=
    ⟨hp, ⟨by simp [Machine.initial], by simp [Machine.initial]⟩, by simp [Machine.initial],
      by simp [Machine.initial]⟩
  obtain ⟨hanswers, hfollows, hstarted⟩ := run_follows hv hports rs hstart hrs
  refine ⟨hanswers, fun hstep => ?_, hfollows.values⟩
  have hcurrent := hfollows.current
  rwa [if_pos (hstarted.mpr (.inr hstep))] at hcurrent

/-- Takes two tokens from a buffer, gives one away, and starts again. -/
def relay : Actor where
  name := "relay"
  inputs := [{ name := "IN", type := .int 8, buffer := some 4 }]
  outputs := [{ name := "OUT", type := .int 8 }]
  procedures := [{ name := "take_body" }, { name := "give_body" },
    { name := "isSchedulable_take", returnType := .bool },
    { name := "isSchedulable_give", returnType := .bool }]
  actions := [(Action.named "give").writes "OUT" 1, (Action.named "take").reads "IN" 2]
  fsm := some {
    initial := "empty", states := ["empty", "full"],
    transitions := [⟨"empty", "full", "take"⟩, ⟨"full", "empty", "give"⟩] }

/-- Too few tokens in the first round, no space in the third. -/
def relayRequests : List Request :=
  [.setGuard "isSchedulable_take" true, .setGuard "isSchedulable_give" true,
    .setStatus "OUT" false, .setState "cb_IN_count" 1, .step, .setState "cb_IN_count" 2, .step,
    .step, .setStatus "OUT" true, .step]

theorem lower_refines_rule_relay :
    relay.validate = .ok () ∧ PortsOnce relay ∧ Admissible relay {} relayRequests ∧
      ∃ p, lower (declareState relay) false = .ok p ∧
        (Dispatcher.run { scheduler := p } relayRequests).1 =
          [.ok [], .ok ["take_body"], .ok [], .ok ["give_body"]] := by
  have hvalid : relay.validate = .ok () := rfl
  have hports : PortsOnce relay := by unfold PortsOnce; decide
  have hadmissible : Admissible relay {} relayRequests := by decide
  have hrule : ((Machine.initial relay).run relay relayRequests).1 =
      [[], ["take_body"], [], ["give_body"]] := by decide
  obtain ⟨p, hp, hruns⟩ := lower_refines_rule relay false hvalid hports
  refine ⟨hvalid, hports, hadmissible, p, hp, (hruns _ hadmissible).1.trans ?_⟩
  rw [hrule]
  rfl

end DataflowSynth.Scheduler
