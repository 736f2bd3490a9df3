/-
What the pipeline builds.

The actions of an actor are built one after the other.  Between two of them the actions so far have
their tasks and the others have not, and the design has the resources that it had at the beginning.
Once the scheduler task is added, nothing is left to be built, and what is in the design is what the
actor describes.
-/
import DataflowSynth.Proofs.Pass.Repeat
import DataflowSynth.Proofs.Synthesis.Movement

namespace DataflowSynth

open Build Synthesis

/-! ### Recorded tasks -/

/-- The action with its own task. -/
def Actor.Action.tasked (a : Actor.Action) : Actor.Action := { a with task := some a.name }

theorem Actor.setTask_go_append {a : Actor.Action} {xs ys : List Actor.Action} {task : String}
    (h : a.name ∉ xs.map Actor.Action.name) :
    Actor.setTask.go a.name task (xs ++ a :: ys) = xs ++ { a with task := some task } :: ys := by
  induction xs with
  | nil => simp [Actor.setTask.go]
  | cons x xs ih =>
      rw [List.map_cons, List.mem_cons, not_or] at h
      rw [List.cons_append, Actor.setTask.go, if_neg (Ne.symm h.1), ih h.2, List.cons_append]

namespace Pass

variable {s : Traced Job} {fifos : Interfaces} {F : Failure → Traced Job → Prop}

/-! ### Building action by action -/

/-- The actions with the tasks that are numbered in their order. -/
def numbered (as : List Actor.Action) : List (String × TaskId) :=
  as.zipIdx.map fun (a, i) => (a.name, ⟨i⟩)

theorem numbered_concat (as : List Actor.Action) (a : Actor.Action) :
    numbered (as ++ [a]) = numbered as ++ [(a.name, ⟨as.length⟩)] := by
  simp [numbered, List.zipIdx_append]

theorem keys_numbered (as : List Actor.Action) :
    (numbered as).map Prod.fst = as.map Actor.Action.name := by
  rw [numbered, List.map_map]
  exact (List.map_map (f := Prod.fst) (g := Actor.Action.name)).symm.trans (by rw [List.zipIdx_map_fst])

/-- What a design has besides its netlist and its tasks. -/
def supplies (d : Design) : Arena .fifo Fifo × List Design.Memory × OrderedMap String Design.Register :=
  (d.fifos, d.memories, d.registers)

/-- The actions `xs` of the job `j₀` have been built, and `ys` have not. -/
structure Halfway (fifos : Interfaces) (j₀ : Job) (xs ys : List Actor.Action) (j : Job) : Prop where
  ready : Ready fifos j
  clock : j.clockDomain = j₀.clockDomain
  supplies : supplies j.design = supplies j₀.design
  actor : j.actor = { j₀.actor with actions := xs.map Actor.Action.tasked ++ ys }
  recorded : j.tasks.entries = numbered xs
  names : j.design.tasks.values.map Design.Task.name = xs.map Actor.Action.name
  bodies : ∀ i a, xs[i]? = some a → ∃ t, j.design.tasks.get? ⟨i⟩ = some t ∧
    Performs fifos j.design (tokensOf j₀.actor a) t.body

theorem Halfway.size {j₀ j : Job} {xs ys : List Actor.Action} (h : Halfway fifos j₀ xs ys j) :
    j.design.tasks.size = xs.length := by
  have hlength := congrArg List.length h.names
  simpa [Arena.values, Arena.size] using hlength

/-- The tasks that were there do what they did. -/
theorem get?_adds {d d' : Design} {name : String} {block : ComponentId} {t : TaskId}
    (hd : Adds d name block t d') {i : Nat} {task : Design.Task} (h : d.tasks.get? ⟨i⟩ = some task) :
    d'.tasks.get? ⟨i⟩ = some task := by
  obtain ⟨n, call, rfl⟩ := hd.design
  rw [Arena.get?_push_of_contains (Arena.contains_iff.mpr (Arena.lt_of_get? h)), h]

theorem names_adds {d d' : Design} {name : String} {block : ComponentId} {t : TaskId}
    (hd : Adds d name block t d') :
    d'.tasks.values.map Design.Task.name = d.tasks.values.map Design.Task.name ++ [name] := by
  obtain ⟨n, call, rfl⟩ := hd.design
  simp [Arena.values_push]

theorem supplies_adds {d d' : Design} {name : String} {block : ComponentId} {t : TaskId}
    (hd : Adds d name block t d') : supplies d' = supplies d := by
  obtain ⟨n, call, rfl⟩ := hd.design
  rfl

theorem wp_buildAction_halfway {j₀ : Job} {xs ys : List Actor.Action} {a : Actor.Action}
    (h : Halfway fifos j₀ xs (a :: ys) s.state) (hnew : a.name ∉ xs.map Actor.Action.name) :
    wp (buildAction fifos a) (fun _ t => Halfway fifos j₀ (xs ++ [a]) ys t.state) F s := by
  obtain ⟨domain, hdomain⟩ := h.ready.domain
  rw [buildAction, wp_bind, wp_look, wp_bind]
  refine wp_onDesign (wp_mono (wp_addActionTask (s := ⟨s.state.design, s.journal⟩) h.ready.laid hdomain
    h.ready.equipped a) ?_ fun _ _ h => h)
  rintro r t ⟨block, hadds, hperforms⟩
  simp only [wp_bind, wp_change]
  refine wp_say fun _ => ?_
  have hready := h.ready.adds hadds
  have hnext : r.1 = ⟨xs.length⟩ := by
    rw [hadds.task, ← h.size]
    rfl
  have hfree : s.state.tasks.contains a.name = false := by
    rw [Bool.eq_false_iff]
    intro hc
    rw [OrderedMap.contains_iff, OrderedMap.keys, h.recorded, keys_numbered] at hc
    exact hnew hc
  have hnames : a.name ∉ (xs.map Actor.Action.tasked).map Actor.Action.name := by
    rw [List.map_map]
    exact hnew
  refine ⟨⟨hready.laid, ⟨hready.equipped.inputs, hready.equipped.outputs⟩, hready.domain⟩, h.clock,
    (supplies_adds hadds).trans h.supplies, ?_, ?_, ?_, fun i b hb => ?_⟩
  · show s.state.actor.setTask a.name a.name = _
    rw [Actor.setTask, h.actor]
    simp only [Actor.setTask_go_append hnames]
    simp [Actor.Action.tasked]
  · show (s.state.tasks.put a.name r.1).entries = _
    rw [OrderedMap.entries_put_of_new hfree, h.recorded, hnext, numbered_concat]
  · show t.state.tasks.values.map Design.Task.name = _
    rw [names_adds hadds, h.names, List.map_append]
    rfl
  · show ∃ task, t.state.tasks.get? ⟨i⟩ = some task ∧
      Performs fifos t.state (tokensOf j₀.actor b) task.body
    rcases getElem?_concat_cases hb with hb | ⟨rfl, rfl⟩
    · obtain ⟨task, htask, hbody⟩ := h.bodies i b hb
      exact ⟨task, get?_adds hadds htask, hbody.adds hadds⟩
    · have htokens : tokensOf s.state.actor b = tokensOf j₀.actor b := by rw [h.actor]; rfl
      obtain ⟨n, call, heq⟩ := hadds.design
      refine ⟨⟨b.name, call, block⟩, ?_, htokens ▸ hperforms⟩
      rw [heq, ← hnext, hadds.task]
      exact Arena.get?_push_next ..

theorem wp_buildActions_halfway {j₀ : Job} {xs ys : List Actor.Action}
    (h : Halfway fifos j₀ xs ys s.state) (hnodup : ((xs ++ ys).map Actor.Action.name).Nodup) :
    wp (ys.forM (buildAction fifos)) (fun _ t => Halfway fifos j₀ (xs ++ ys) [] t.state) F s := by
  induction ys generalizing xs s with
  | nil => simpa using h
  | cons a ys ih =>
      have hsplit : xs ++ a :: ys = (xs ++ [a]) ++ ys := by simp
      have hnew : a.name ∉ xs.map Actor.Action.name := by
        rw [List.map_append, List.nodup_append] at hnodup
        exact fun hmem => hnodup.2.2 _ hmem a.name (by simp) rfl
      rw [wp_forM_cons]
      refine wp_mono (wp_buildAction_halfway h hnew) (fun _ t ht => ?_) fun _ _ h => h
      rw [hsplit] at hnodup ⊢
      exact ih ht hnodup

/-! ### The whole design -/

/-- The job has the design that an actor describes, and nothing else. -/
structure Realizes (actor : Actor) (j : Job) : Prop where
  /-- Every action has the task of its own name. -/
  actions : j.actor = { actor with actions := actor.actions.map Actor.Action.tasked }
  /-- There is an interface for each input and then for each output. -/
  interfaces : j.design.fifos.values.map Fifo.spec =
    (directedPorts actor).map fun e => portSpec e.1 e.2
  /-- The memories are numbered from one on. -/
  memoryIds : j.design.memories.map (·.id.toNat) = List.range' 1 j.design.memories.length
  /-- There is a memory for each port with a buffer, as large as the buffer. -/
  memorySizes : j.design.memories.map Design.Memory.size =
    (directedPorts actor).filterMap (bufferBytes? ·.2)
  /-- There is one register for each name of a state variable. -/
  registers_nodup : (j.design.registers.values.map Design.Register.name).Nodup
  mem_registers_iff : ∀ name, name ∈ j.design.registers.values.map Design.Register.name ↔
    name ∈ actor.stateVars.map Variable.name
  /-- There is a task for each action, and one more. -/
  tasks : j.design.tasks.values.map Design.Task.name =
    actor.actions.map Actor.Action.name ++ ["scheduler"]
  recorded : j.tasks.entries = actor.actions.zipIdx.map fun (a, i) => (a.name, ⟨i⟩)
  /-- The task of an action moves its tokens. -/
  bodies : ∀ i a, actor.actions[i]? = some a → ∃ t, j.design.tasks.get? ⟨i⟩ = some t ∧
    ∃ B I O inside entry exit, MovesInTurn j.design t.body (tokensOf actor a) B I O inside entry exit

/-- The interfaces have pins of their own, and the tasks of the actions work on them. -/
structure Staffed (fifos : Interfaces) (actor : Actor) (d : Design) : Prop where
  laid : d.Laid
  specs : d.fifos.values.map Fifo.spec = (directedPorts actor).map fun e => portSpec e.1 e.2
  handles : ∀ i e, (directedPorts actor)[i]? = some e → fifos.find? e.2.name = some ⟨i⟩
  pins : (d.fifos.values.flatMap fun f => f.pins.toList).Nodup
  bodies : ∀ i a, actor.actions[i]? = some a → ∃ t, d.tasks.get? ⟨i⟩ = some t ∧
    Performs fifos d (tokensOf actor a) t.body

/-- The task after those of the actions probes ports. -/
def Probed (fifos : Interfaces) (actor : Actor) (ports : List String) (d : Design) : Prop :=
  ∃ t, d.tasks.get? ⟨actor.actions.length⟩ = some t ∧ t.name = "scheduler" ∧
    Surveys fifos d ports t.body

section

variable {j₀ j : Job} {block : ComponentId} {t : TaskId} {d : Design}
  (h : Halfway fifos j₀ j₀.actor.actions [] j) (hsupplied : Supplied j₀.actor fifos j₀.design)
  (hd : Adds j.design "scheduler" block t d)

include h hsupplied hd

/-- The actions are built, and the scheduler task is added. -/
theorem staffed_halfway (hpins : Separate j₀.design) : Staffed fifos j₀.actor d := by
  obtain ⟨d', registers, hstocked, -, hdesign⟩ := hsupplied
  have hsame : supplies d = supplies j₀.design := (supplies_adds hd).trans h.supplies
  have hfifos : d.fifos = j₀.design.fifos := congrArg Prod.fst hsame
  refine ⟨hd.laid, ?_, hstocked.handles, hfifos ▸ hpins.nodup, fun i a ha => ?_⟩
  · rw [hfifos, hdesign]
    exact hstocked.specs
  · obtain ⟨task, htask, hbody⟩ := h.bodies i a ha
    exact ⟨task, get?_adds hd htask, hbody.adds hd⟩

theorem realizes_halfway (hstaffed : Staffed fifos j₀.actor d) :
    Realizes j₀.actor { j with design := d } := by
  obtain ⟨d', registers, hstocked, hregistered, hdesign⟩ := hsupplied
  have hsame : supplies d = supplies j₀.design := (supplies_adds hd).trans h.supplies
  simp only [supplies, hdesign, Prod.mk.injEq] at hsame
  obtain ⟨-, hmemories, hregisters⟩ := hsame
  refine ⟨?_, hstaffed.specs, ?_, ?_, ?_, fun name => ?_, ?_, h.recorded, fun i a ha => ?_⟩
  · rw [h.actor]
    simp
  · show d.memories.map _ = List.range' 1 d.memories.length
    rw [hmemories]
    exact hstocked.ids
  · show d.memories.map _ = _
    rw [hmemories]
    exact hstocked.sizes
  · show (d.registers.values.map _).Nodup
    rw [hregisters, hregistered.keys]
    exact hregistered.nodup
  · show name ∈ d.registers.values.map _ ↔ _
    rw [hregisters, hregistered.keys]
    exact hregistered.mem_iff name
  · show d.tasks.values.map _ = _
    rw [names_adds hd, h.names]
  · obtain ⟨task, htask, hbody⟩ := hstaffed.bodies i a ha
    exact ⟨task, htask, hbody.movesInTurn hstaffed.specs hstaffed.handles fun token htoken =>
      mem_directedPorts_of_tokensOf htoken⟩

omit hsupplied in
theorem probed_halfway {ports : List String} (hblock : Surveys fifos d ports block) :
    Probed fifos j₀.actor ports d := by
  have hnext : j.design.tasks.next = ⟨j₀.actor.actions.length⟩ := congrArg Handle.mk h.size
  obtain ⟨n, call, rfl⟩ := hd.design
  exact ⟨⟨"scheduler", call, block⟩, hnext ▸ Arena.get?_push_next .., rfl, hblock⟩

end

theorem wp_buildDesign_realizes (hdesign : Bare s.state.design) (hvalid : Actor.Valid s.state.actor)
    (htasks : s.state.tasks = ∅) {scheduler : Procedure} (hscheduler : s.state.scheduler = some scheduler)
    {skipFill : Bool} (hlower : Scheduler.lower s.state.actor skipFill = .ok scheduler) :
    wp buildDesign (fun _ t => Realizes s.state.actor t.state ∧
      ∃ fifos, Staffed fifos s.state.actor t.state.design ∧
        Probed fifos s.state.actor (sampledPorts scheduler) t.state.design) (fun _ _ => True) s := by
  rw [buildDesign, wp_bind, wp_look, wp_bind]
  refine wp_onDesign (wp_mono (wp_addResources_equipped (s := ⟨s.state.design, s.journal⟩) hdesign hvalid
    s.state.clockDomain) ?_ fun _ _ h => h)
  rintro fifos t ⟨hlaid, hequipped, hdomain, hsupplied, hpins⟩
  have hstart : Halfway fifos { s.state with design := t.state } [] s.state.actor.actions
      { s.state with design := t.state } := by
    obtain ⟨d, registers, hstocked, -, heq⟩ := hsupplied
    refine ⟨⟨hlaid, hequipped, hdomain⟩, rfl, rfl, rfl, ?_, ?_, by simp⟩
    · rw [htasks]
      rfl
    · rw [heq]
      show d.tasks.values.map _ = _
      rw [hstocked.tasks]
      rfl
  rw [wp_bind]
  refine wp_mono (wp_buildActions_halfway (s := ⟨_, _⟩) hstart hvalid.names) (fun _ u hu => ?_)
    fun _ _ h => h
  obtain ⟨domain, hdomain⟩ := hu.ready.domain
  rw [hu.clock] at hdomain
  have hsampled : ∀ p ∈ (s.state.scheduler.map sampledPorts).getD [],
      ∃ h f, fifos.find? p = some h ∧ u.state.design.fifos.get? h = some f := by
    rw [hscheduler]
    intro p hp
    obtain ⟨q, hq, rfl⟩ := exists_port_of_mem_sampledPorts hlower p hp
    refine hu.ready.interface ?_
    rw [hu.actor]
    exact hq
  simp only [wp_bind]
  refine wp_onDesign (wp_mono (wp_addSchedulerTask (s := ⟨u.state.design, u.journal⟩) hu.ready.laid
    hdomain hsampled) ?_ fun _ _ h => h)
  rintro _ v ⟨block, hv, hblock⟩
  simp only [wp_look]
  refine wp_say fun _ => ?_
  have hstaffed := staffed_halfway hu hsupplied hv hpins
  have hrealizes := realizes_halfway hu hsupplied hv hstaffed
  simp only [id, hscheduler, Option.map_some, Option.getD_some] at hblock
  exact ⟨hrealizes, fifos, hstaffed, probed_halfway hu hv hblock⟩

/-! ### The whole pipeline -/

theorem wp_run_all_realizes (host : Host) (h : Fresh s.state) :
    wp (Registry.standard.run host { passes := ["all"] } false)
      (fun _ t => Realizes (Scheduler.declareState s.state.actor) t.state ∧
        ∃ fifos, Staffed fifos (Scheduler.declareState s.state.actor) t.state.design)
      (fun _ _ => True) s := by
  let lowered := Scheduler.declareState s.state.actor
  refine wp_run_all (I := fun j => j = s.state ∧ Checked s.state.actor)
    (J := fun j => ∃ p, Scheduler.lower lowered false = .ok p ∧ Actor.Valid lowered ∧
      j = { s.state with actor := lowered, scheduler := some p })
    (K := fun j => (Realizes lowered j ∧ ∃ fifos, Staffed fifos lowered j.design) ∧ j.settings = [])
    (L := fun j => Realizes lowered j ∧ ∃ fifos, Staffed fifos lowered j.design)
    wp_run_checkActor_first ?_ ?_ ?_
  · rintro ⟨_, journal⟩ ⟨rfl, hchecked⟩
    refine wp_run_lowerActor h.settings h.scheduler
      (wp_mono (wp_lowerActor (s := ⟨s.state, journal⟩) hchecked.valid false)
        (fun _ t ⟨p, hp, ht⟩ => ?_) fun _ _ h => h)
    exact ⟨p, hp, valid_declareState hchecked.valid, ht⟩
  · rintro ⟨_, journal⟩ ⟨p, hp, hvalid, rfl⟩
    refine wp_run_buildDesign rfl (by rw [h.tasks]; rfl) ?_
    let j : Job := { s.state with actor := lowered, scheduler := some p }
    refine wp_mono (wp_and (wp_buildDesign_realizes (s := ⟨j, journal⟩) h.design hvalid h.tasks rfl hp)
      (keeps_buildDesign _)) ?_ fun _ _ _ => trivial
    rintro _ u ⟨⟨hu, fifos, hstaffed, -⟩, hterms⟩
    exact ⟨⟨hu, fifos, hstaffed⟩, (congrArg (fun x => x.2.2.2) hterms).trans h.settings⟩
  · rintro t ⟨hrealizes, hsettings⟩
    refine wp_run_checkDesign hsettings (wp_mono (looks_checkDesign host).wp_again
      (fun _ u ⟨hu, _⟩ => ?_) fun _ _ _ => trivial)
    rw [hu]
    exact hrealizes

/-- The design that is built is the one that the actor describes.  Whenever all passes run for a new
job, the design has the interfaces, memories and registers of the lowered actor and a task for each
action and for the scheduler, every action is recorded with its own task, and the body of that task
moves the tokens of the action one after the other: first those it takes and then those it gives. -/
theorem run_all_realizes (host : Host) (actor : Actor) (clockDomain : String) (journal : Journal)
    {t : Traced Job} (h : Registry.standard.run host { passes := ["all"] } false
      ⟨{ Job.new actor with clockDomain }, journal⟩ = .ok () t) :
    Realizes (Scheduler.declareState actor) t.state := by
  have hrun := wp_run_all_realizes (s := ⟨{ Job.new actor with clockDomain }, journal⟩) host
    (fresh_new actor clockDomain)
  exact (of_wp_ok hrun h).1

theorem run_all_realizes_halver : ∃ t, Registry.standard.run .closed { passes := ["all"] } false
      ⟨{ Job.new halver with clockDomain := "CLK:RESET" }, #[]⟩ = .ok () t ∧
    Realizes (Scheduler.declareState halver) t.state := by
  obtain ⟨t, ht⟩ := exists_run_all .closed supported_halver (by decide) #[]
  exact ⟨t, ht, run_all_realizes .closed halver "CLK:RESET" #[] ht⟩

end Pass

end DataflowSynth
