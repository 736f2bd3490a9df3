/-
Running the pipeline again.

A pass that adds something is idle once its mark is set: the scheduler is there, or an action has its
task.  The other two passes only look, so what they find does not change when they look again.  The mark
of the design is missing if the actor has no actions, and then the design is built once more on top of
the first one.
-/
import DataflowSynth.Proofs.Design.Frame
import DataflowSynth.Proofs.Pass.Pipeline

namespace DataflowSynth

/-! ### Steps that only look -/

namespace Build

variable {σ τ α β : Type}

/-- The step leaves the state alone, and what it comes to depends on the state and not on the
journal. -/
def Looks (x : Build σ α) : Prop :=
  ∀ n, (∃ a, ∀ j, ∃ j', x ⟨n, j⟩ = .ok a ⟨n, j'⟩) ∨ ∃ e, ∀ j, ∃ j', x ⟨n, j⟩ = .error e ⟨n, j'⟩

namespace Looks

variable {x : Build σ α}

protected theorem pure (a : α) : Looks (pure a : Build σ α) := fun _ => .inl ⟨a, fun j => ⟨j, rfl⟩⟩

theorem look (f : σ → α) : Looks (Build.look f) := fun n => .inl ⟨f n, fun j => ⟨j, rfl⟩⟩

theorem fail (e : Error) : Looks (Build.fail e : Build σ α) :=
  fun _ => .inr ⟨.error e, fun j => ⟨j, rfl⟩⟩

theorem expect (a : Abort) (o : Option α) : Looks (Build.expect a o : Build σ α) := by
  cases o with
  | none => exact fun _ => .inr ⟨.abort a, fun j => ⟨j, rfl⟩⟩
  | some x => exact .pure x

theorem log (level : Level) (source : Source) (message : String) :
    Looks (Build.log level source message : Build σ Unit) :=
  fun _ => .inl ⟨(), fun _ => ⟨_, rfl⟩⟩

theorem bind {f : α → Build σ β} (hx : Looks x) (hf : ∀ a, Looks (f a)) : Looks (x >>= f) := by
  intro n
  rcases hx n with ⟨a, hx⟩ | ⟨e, hx⟩
  · rcases hf a n with ⟨b, hf⟩ | ⟨e, hf⟩
    · refine .inl ⟨b, fun j => ?_⟩
      obtain ⟨j₁, hj₁⟩ := hx j
      obtain ⟨j₂, hj₂⟩ := hf j₁
      exact ⟨j₂, by rw [bind_apply, hj₁]; exact hj₂⟩
    · refine .inr ⟨e, fun j => ?_⟩
      obtain ⟨j₁, hj₁⟩ := hx j
      obtain ⟨j₂, hj₂⟩ := hf j₁
      exact ⟨j₂, by rw [bind_apply, hj₁]; exact hj₂⟩
  · refine .inr ⟨e, fun j => ?_⟩
    obtain ⟨j₁, hj₁⟩ := hx j
    exact ⟨j₁, by rw [bind_apply, hj₁]⟩

theorem mapM {xs : List β} {f : β → Build σ α} (hf : ∀ b, Looks (f b)) : Looks (xs.mapM f) := by
  induction xs with
  | nil => exact .pure []
  | cons b xs ih =>
      rw [List.mapM_cons]
      exact .bind (hf b) fun a => .bind ih fun as => .pure (a :: as)

theorem within (get : σ → τ) (put : τ → σ → σ) {x : Build τ α} (hput : ∀ n, put (get n) n = n)
    (hx : Looks x) : Looks (Build.within get put x) := by
  intro n
  rcases hx (get n) with ⟨a, hx⟩ | ⟨e, hx⟩
  · refine .inl ⟨a, fun j => ?_⟩
    obtain ⟨j', hj⟩ := hx j
    exact ⟨j', by rw [Build.within, hj]; simp [hput]⟩
  · refine .inr ⟨e, fun j => ?_⟩
    obtain ⟨j', hj⟩ := hx j
    exact ⟨j', by rw [Build.within, hj]; simp [hput]⟩

theorem keeps (hx : Looks x) : Keeps id x := by
  intro s
  rcases hx s.state with ⟨a, ha⟩ | ⟨e, he⟩
  · obtain ⟨j, hj⟩ := ha s.journal
    rw [wp, hj]
  · obtain ⟨j, hj⟩ := he s.journal
    rw [wp, hj]

/-- What went well once goes well again. -/
theorem wp_again (hx : Looks x) {s : Traced σ} : wp x (fun _ t => t.state = s.state ∧
    ∀ j F, wp x (fun _ u => u.state = s.state) F ⟨s.state, j⟩) (fun _ _ => True) s := by
  rcases hx s.state with ⟨a, hx⟩ | ⟨e, hx⟩
  · have hagain : ∀ j F, wp x (fun _ u => u.state = s.state) F ⟨s.state, j⟩ := by
      intro j F
      obtain ⟨j', hj⟩ := hx j
      rw [wp, hj]
    obtain ⟨j', hj⟩ := hx s.journal
    rw [wp, hj]
    exact ⟨rfl, hagain⟩
  · obtain ⟨j', hj⟩ := hx s.journal
    rw [wp, hj]
    trivial

end Looks

end Build

open Build Synthesis

namespace Netlist

variable {m c : ComponentId} {p : PortId} {b : BusId}

theorem looks_component : Looks (component c) := .bind (.look _) fun _ => .expect _ _

theorem looks_port : Looks (port p) := .bind (.look _) fun _ => .expect _ _

theorem looks_interior : Looks (interior m) := .bind looks_component fun _ => .expect _ _

theorem looks_busOwner : Looks (busOwner b) :=
  .bind (.bind (.look _) fun _ => .expect _ _) fun _ =>
    .bind (.bind (.look _) fun _ => .expect _ _) fun _ => .pure _

theorem looks_orderingDriver? : Looks (orderingDriver? m p) := by
  refine .bind looks_port fun y => ?_
  split
  · exact .pure none
  · exact .bind looks_busOwner fun _ => .bind (.bind looks_interior fun _ => .pure _) fun _ => .pure _

theorem looks_order : Looks (order m) := by
  refine .bind (.bind looks_interior fun _ => .pure _) fun cs => .bind ?_ fun pairs => ?_
  · refine .bind (.bind looks_interior fun _ => .pure _) fun _ => .bind (.mapM fun c => ?_) fun _ =>
      .pure _
    exact .bind looks_component fun _ => .bind (.mapM fun _ => looks_orderingDriver?) fun _ => .pure _
  · dsimp only
    split
    · exact .pure _
    · exact .bind (.mapM fun _ => .bind looks_component fun _ => .pure _) fun _ => .fail _

end Netlist

namespace Pass

variable {s : Traced Job} {host : Host} {F : Failure → Traced Job → Prop}

theorem looks_onNetlist {α : Type} {x : Netlist.Step α} (hx : Looks x) : Looks (Job.onNetlist x) := by
  have hdesign : Looks (Design.wiring x) :=
    .within _ (fun netlist (d : Design) => { d with netlist }) (fun _ => rfl) hx
  exact .within _ (fun design (j : Job) => { j with design }) (fun _ => rfl) hdesign

theorem looks_orderLine (m : ComponentId) : Looks (orderLine m) :=
  .bind (looks_onNetlist Netlist.looks_order) fun _ =>
    .bind (looks_onNetlist Netlist.looks_component) fun _ => .bind (.log _ _ _) fun _ =>
    .bind (.mapM fun _ => .bind (looks_onNetlist Netlist.looks_component) fun _ => .pure _) fun _ =>
    .pure _

theorem looks_checkDesign (host : Host) : Looks (checkDesign host none) :=
  .bind (.look _) fun _ => .bind (.mapM looks_orderLine) fun _ => .pure ()

/-! ### What is recorded -/

theorem names_setTask (a : Actor) (name task : String) :
    (a.setTask name task).actions.map Actor.Action.name = a.actions.map Actor.Action.name := by
  have hgo : ∀ xs, (Actor.setTask.go name task xs).map Actor.Action.name =
      xs.map Actor.Action.name := by
    intro xs
    induction xs with
    | nil => rfl
    | cons x xs ih =>
        rw [Actor.setTask.go]
        split
        · rfl
        · simp [ih]
  exact hgo a.actions

theorem mem_setTask {a : Actor} {name task : String} {x : Actor.Action}
    (h : x ∈ (a.setTask name task).actions) : ∃ y ∈ a.actions, x = { y with task := x.task } := by
  have hgo : ∀ xs, x ∈ Actor.setTask.go name task xs → ∃ y ∈ xs, x = { y with task := x.task } := by
    intro xs
    induction xs with
    | nil => exact fun h => absurd h List.not_mem_nil
    | cons y ys ih =>
        rw [Actor.setTask.go]
        intro h
        split at h
        · rcases List.mem_cons.mp h with rfl | h
          · exact ⟨y, List.mem_cons_self, rfl⟩
          · exact ⟨x, List.mem_cons_of_mem _ h, rfl⟩
        · rcases List.mem_cons.mp h with rfl | h
          · exact ⟨x, List.mem_cons_self, rfl⟩
          · obtain ⟨z, hz, heq⟩ := ih h
            exact ⟨z, List.mem_cons_of_mem _ hz, heq⟩
  exact hgo a.actions h

/-- Validity is not about tasks. -/
theorem valid_setTask {a : Actor} (h : Actor.Valid a) (name task : String) :
    Actor.Valid (a.setTask name task) where
  ports := h.ports
  buffers := h.buffers
  names := names_setTask a name task ▸ h.names
  actions x hx := by
    obtain ⟨y, hy, heq⟩ := mem_setTask hx
    rw [heq]
    exact { h.actions y hy with }
  fsm := names_setTask a name task ▸ h.fsm

/-- An actor that passes the first check. -/
structure Checked (actor : Actor) : Prop where
  valid : Actor.Valid actor
  unreserved : ∀ p ∈ actor.procedures, p.name ≠ "scheduler"

/-- A step on the design is all the same to the rest of a job. -/
theorem wp_onDesign_of_forall {α : Type} {x : Design.Step α} {Q : α → Traced Job → Prop}
    (h : ∀ a d journal, Q a ⟨{ s.state with design := d }, journal⟩) :
    wp (Job.onDesign x) Q (fun _ _ => True) s :=
  wp_onDesign (wp_of_forall (fun a t => h a t.state t.journal) fun _ _ => trivial)

theorem wp_buildAction_records {fifos : Interfaces} (h : Checked s.state.actor) (a : Actor.Action) :
    wp (buildAction fifos a) (fun _ t => Checked t.state.actor ∧ t.state.tasks.isEmpty = false)
      (fun _ _ => True) s := by
  rw [buildAction, wp_bind, wp_look, wp_bind]
  refine wp_onDesign_of_forall fun r d journal => ?_
  simp only [wp_bind, wp_change]
  refine wp_say fun _ => ⟨⟨valid_setTask h.valid _ _, h.unreserved⟩, ?_⟩
  simp [OrderedMap.put, OrderedMap.isEmpty]

/-- Once an action has its task, the design counts as built. -/
theorem wp_buildActions_records {fifos : Interfaces} (h : Checked s.state.actor)
    {as : List Actor.Action} (has : as ≠ []) :
    wp (as.forM (buildAction fifos))
      (fun _ t => Checked t.state.actor ∧ t.state.tasks.isEmpty = false) (fun _ _ => True) s := by
  obtain ⟨a, as, rfl⟩ := List.exists_cons_of_ne_nil has
  rw [wp_forM_cons]
  refine wp_mono (wp_buildAction_records h a) (fun _ t ht => ?_) fun _ _ h => h
  exact wp_forM (I := fun t : Traced Job => Checked t.state.actor ∧ t.state.tasks.isEmpty = false) ht
    fun b _ u hu => wp_buildAction_records hu.1 b

theorem wp_buildDesign_records (h : Checked s.state.actor) (hactions : s.state.actor.actions ≠ []) :
    wp buildDesign (fun _ t => Checked t.state.actor ∧ t.state.tasks.isEmpty = false)
      (fun _ _ => True) s := by
  rw [buildDesign, wp_bind, wp_look, wp_bind]
  refine wp_onDesign_of_forall fun fifos d journal => ?_
  rw [wp_bind]
  refine wp_mono (wp_buildActions_records (s := ⟨{ s.state with design := d }, journal⟩) h hactions)
    (fun _ t ht => ?_) fun _ _ h => h
  rw [wp_bind]
  refine wp_onDesign_of_forall fun _ _ _ => ?_
  rw [wp_bind, wp_look]
  exact wp_say fun _ => ht

/-! ### Idle passes -/

theorem wp_run_idle_lower (hsettings : s.state.settings = []) (hscheduler : s.state.scheduler.isSome) :
    wp (Pass.run host .actionScheduler) (fun _ t => t.state = s.state) F s := by
  have hvalue : (flagValue skipFillBuffer (defaults .actionScheduler) : Job.Step Bool) = pure false :=
    rfl
  simp only [Pass.run, work, wp_bind, wp_look, hsettings, values_nil, wp_pure, hvalue, idleReason?,
    id, hscheduler, if_true, wp_log]

theorem wp_run_idle_build (hscheduler : s.state.scheduler.isSome)
    (htasks : s.state.tasks.isEmpty = false) :
    wp (Pass.run host .designActor) (fun _ t => t.state = s.state) F s := by
  have hnone : s.state.scheduler.isNone = false := by simp [hscheduler]
  simp only [Pass.run, work, wp_bind, wp_look, wp_pure, idleReason?, id, hnone, htasks,
    Bool.not_false, Bool.false_eq_true, if_false, if_true, wp_log]

/-! ### Two runs -/

/-- The passes run one after the other. -/
theorem wp_run_all {I J K L : Job → Prop}
    (hcheck : wp (Pass.run host .wellFormed) (fun _ t => I t.state) F s)
    (hlower : ∀ t, I t.state → wp (Pass.run host .actionScheduler) (fun _ t => J t.state) F t)
    (hbuild : ∀ t, J t.state → wp (Pass.run host .designActor) (fun _ t => K t.state) F t)
    (horder : ∀ t, K t.state → wp (Pass.run host .designCheck) (fun _ t => L t.state) F t) :
    wp (Registry.standard.run host { passes := ["all"] } false) (fun _ t => L t.state) F s := by
  rw [Registry.run, wp_bind]
  refine wp_plan_all ?_
  show wp ((Pass.all.map name).forM (Registry.standard.runPass host false [])) _ _ s
  simp only [Pass.all, List.map_cons, List.map_nil, wp_forM_cons]
  refine wp_mono (wp_runPass hcheck) (fun _ t ht => ?_) fun _ _ h => h
  refine wp_mono (wp_runPass (hlower t ht)) (fun _ t ht => ?_) fun _ _ h => h
  refine wp_mono (wp_runPass (hbuild t ht)) (fun _ t ht => ?_) fun _ _ h => h
  exact wp_mono (wp_runPass (horder t ht)) (fun _ _ ht => ht) fun _ _ h => h

/-- What no further run changes: the marks are set, and the passes that only look find nothing. -/
structure Finished (host : Host) (j : Job) : Prop where
  checked : Checked j.actor
  scheduler : j.scheduler.isSome
  tasks : j.tasks.isEmpty = false
  settings : j.settings = []
  orders : ∀ journal F, wp (checkDesign host none) (fun _ t => t.state = j) F ⟨j, journal⟩

theorem wp_checkActor_again (h : Checked s.state.actor) :
    wp checkActor (fun _ t => t.state = s.state) F s := by
  have hvalid : s.state.actor.validate = .ok () := (Actor.checks_eq_ok_iff _).mpr h.valid
  have hfree : (s.state.actor.procedure? "scheduler").isSome = false := by
    rw [Option.isSome_eq_false_iff, Option.isNone_iff_eq_none, Actor.procedure?, List.find?_eq_none]
    exact fun p hp => by simpa using h.unreserved p hp
  rw [checkActor, wp_bind, wp_look, wp_bind, hvalid]
  refine wp_defect (fun _ _ => ?_) fun _ hbad => ?_
  · rw [hfree]
    exact wp_forM rfl fun _ _ _ ht => wp_say fun _ => ht
  · cases hbad

theorem Finished.wp_run_all (h : Finished host s.state) :
    wp (Registry.standard.run host { passes := ["all"] } false) (fun _ t => t.state = s.state) F s := by
  refine Pass.wp_run_all (I := (· = s.state)) (J := (· = s.state)) (K := (· = s.state))
    (L := (· = s.state)) (wp_run_checkActor (wp_checkActor_again h.checked)) ?_ ?_ ?_
  all_goals
    rintro ⟨j, journal⟩ hj
    obtain rfl : j = s.state := hj
  · exact wp_run_idle_lower h.settings h.scheduler
  · exact wp_run_idle_build h.scheduler h.tasks
  · exact wp_run_checkDesign h.settings (h.orders journal F)

theorem wp_run_checkActor_first : wp (Pass.run host .wellFormed)
    (fun _ t => t.state = s.state ∧ Checked s.state.actor) (fun _ _ => True) s := by
  have hcheck : wp checkActor _ (Refused s.state.actor s.state.clockDomain) s := wp_checkActor
  exact wp_run_checkActor (wp_mono hcheck (fun _ t ht => ⟨ht.1, ht.2.1, ht.2.2⟩) fun _ _ _ => trivial)

theorem wp_run_lowerActor_first (h : Fresh s.state) (hchecked : Checked s.state.actor) :
    wp (Pass.run host .actionScheduler) (fun _ t => ∃ p, t.state = { s.state with
      actor := Scheduler.declareState s.state.actor, scheduler := some p }) (fun _ _ => True) s :=
  wp_run_lowerActor h.settings h.scheduler (wp_mono (wp_lowerActor hchecked.valid false)
    (fun _ _ ⟨p, _, ht⟩ => ⟨p, ht⟩) fun _ _ h => h)

/-- The first run sets the marks, if there is an action to set them. -/
theorem wp_run_all_finished (host : Host) (h : Fresh s.state)
    (hactions : s.state.actor.actions ≠ []) :
    wp (Registry.standard.run host { passes := ["all"] } false) (fun _ t => Finished host t.state)
      (fun _ _ => True) s := by
  let marked (j : Job) : Prop := Checked j.actor ∧ j.scheduler.isSome ∧ j.settings = []
  refine wp_run_all (I := fun j => j = s.state ∧ Checked s.state.actor)
    (J := fun j => marked j ∧ j.tasks = ∅ ∧ j.actor.actions ≠ [])
    (K := fun j => marked j ∧ j.tasks.isEmpty = false) wp_run_checkActor_first ?_ ?_ ?_
  · rintro ⟨_, journal⟩ ⟨rfl, hchecked⟩
    refine wp_mono (wp_run_lowerActor_first h hchecked) (fun _ t ⟨p, ht⟩ => ?_) fun _ _ h => h
    rw [ht]
    exact ⟨⟨⟨valid_declareState hchecked.valid, hchecked.unreserved⟩, rfl, h.settings⟩, h.tasks,
      hactions⟩
  · rintro t ⟨⟨hchecked, hscheduler, hsettings⟩, htasks, hactions⟩
    obtain ⟨p, hp⟩ := Option.isSome_iff_exists.mp hscheduler
    refine wp_run_buildDesign hp (by rw [htasks]; rfl) ?_
    refine wp_mono (wp_and (wp_buildDesign_records hchecked hactions) (keeps_buildDesign t))
      (fun _ u ⟨hu, hterms⟩ => ?_) fun _ _ _ => trivial
    have hscheduler' : u.state.scheduler = t.state.scheduler := congrArg (fun x => x.2.1) hterms
    have hsettings' : u.state.settings = t.state.settings := congrArg (fun x => x.2.2.2) hterms
    exact ⟨⟨hu.1, hscheduler' ▸ hscheduler, hsettings'.trans hsettings⟩, hu.2⟩
  · rintro t ⟨⟨hchecked, hscheduler, hsettings⟩, htasks⟩
    refine wp_run_checkDesign hsettings (wp_mono (looks_checkDesign host).wp_again
      (fun _ u ⟨hu, hagain⟩ => ?_) fun _ _ _ => trivial)
    rw [hu]
    exact ⟨hchecked, hscheduler, htasks, hsettings, hagain⟩

/-- Whoever ran all passes for an actor with an action may run them again: they end well, and the job
stays as it is, with its actor, its scheduler, its tasks and its whole design. -/
theorem run_all_again (host : Host) (actor : Actor) (clockDomain : String) (journal : Journal)
    (hactions : actor.actions ≠ []) {t : Traced Job}
    (h : Registry.standard.run host { passes := ["all"] } false
      ⟨{ Job.new actor with clockDomain }, journal⟩ = .ok () t) :
    ∃ u, Registry.standard.run host { passes := ["all"] } false t = .ok () u ∧ u.state = t.state := by
  have hfirst := wp_run_all_finished (s := ⟨{ Job.new actor with clockDomain }, journal⟩) host
    (fresh_new actor clockDomain) hactions
  obtain ⟨_, u, hu, hsame⟩ := exists_of_wp (of_wp_ok hfirst h).wp_run_all
  exact ⟨u, hu, hsame⟩

/-- An actor with an action that moves nothing. -/
def ticker : Actor where
  name := "ticker"
  procedures := [{ name := "tick" }, { name := "may", returnType := .bool }]
  actions := [{ name := "tick", body := "tick", guard := "may" }]

theorem run_all_again_ticker : ∃ t u, Registry.standard.run .closed { passes := ["all"] } false
      ⟨{ Job.new ticker with clockDomain := "CLK:RESET" }, #[]⟩ = .ok () t ∧
    Registry.standard.run .closed { passes := ["all"] } false t = .ok () u ∧
      u.state = t.state := by
  have hsupported : Supported ticker "CLK:RESET" :=
    ⟨by decide +kernel, by decide, by decide, by decide, by decide +kernel, by decide +kernel⟩
  obtain ⟨t, ht⟩ := exists_run_all .closed hsupported (by decide) #[]
  obtain ⟨u, hu, heq⟩ := run_all_again .closed ticker "CLK:RESET" #[] (by simp [ticker]) ht
  exact ⟨t, u, ht, hu, heq⟩

/-! ### Actors without actions -/

section

variable {s : Traced Design}

theorem remote_tasks : Design.Remote Design.tasks :=
  ⟨fun _ _ => rfl, fun _ _ => rfl, fun _ _ => rfl, fun _ _ => rfl, fun _ _ => rfl⟩

theorem keeps_tasks_getFifo (spec : FifoSpec) : Keeps Design.tasks (Design.getFifo spec) := by
  refine Design.keeps_guard (.bind (.look _) fun o => ?_)
  split
  · exact Design.keeps_guard (.pure _)
  · exact .bind (Design.keeps_addFifoPins remote_tasks spec) fun _ => .bind (.look _) fun _ =>
      .bind (.change fun _ => rfl) fun _ => .bind (fun _ => rfl) fun _ => .pure _

theorem keeps_tasks_addPort (direction : Direction) (fifos : Interfaces) (p : Actor.Port) :
    Keeps Design.tasks (addPort direction fifos p) := by
  refine .bind (keeps_tasks_getFifo _) fun h => ?_
  split
  · exact .pure _
  · refine .bind (.discard (.bind (Design.keeps_nextMemoryId fun _ _ => rfl) fun _ =>
      .bind (Design.keeps_addMemory (fun _ _ => rfl) _) fun _ => .pure _)) fun _ => .pure _

theorem keeps_tasks_addResources (clockDomain : String) (actor : Actor) :
    Keeps Design.tasks (addResources clockDomain actor) :=
  .bind (Design.keeps_clockDomain remote_tasks _) fun _ =>
    .bind (.foldlM (keeps_tasks_addPort .input) _) fun _ =>
    .bind (.foldlM (keeps_tasks_addPort .output) _) fun _ =>
    .bind (.forM fun _ => Design.keeps_guard (.change fun _ => rfl)) fun _ => .pure _

theorem wp_addClockedTask_adds (clockDomain name : String) (block : ComponentId) :
    wp (addClockedTask clockDomain name block)
      (fun _ t => t.state.tasks.size = s.state.tasks.size + 1) (fun _ _ => True) s := by
  simp only [addClockedTask, Design.addTask, Design.task, wp_bind, wp_look]
  refine (Design.keeps_wiring (fun _ _ => rfl) _).wp_anyway (g := Design.tasks) fun call t ht => ?_
  simp only [wp_change, wp_pure]
  refine (Design.keeps_clockDomain remote_tasks _).wp_anyway fun domain u hu => ?_
  refine (Keeps.expect _ _).wp_anyway (g := Design.tasks) fun task v hv => ?_
  refine (Design.keeps_connectToDomain (fun _ _ => rfl) _ _).wp_anyway (g := Design.tasks)
    fun _ w hw => ?_
  rw [hw, hv, hu, ← ht]
  simp

/-- The task of the scheduler is always a new one. -/
theorem wp_addSchedulerTask_adds (clockDomain : String) (fifos : Interfaces) (ports : List String) :
    wp (addSchedulerTask clockDomain fifos ports)
      (fun _ t => t.state.tasks.size = s.state.tasks.size + 1) (fun _ _ => True) s := by
  have hprobe : ∀ port, Keeps Design.tasks (do
      Design.fifoAccess (← interfaceOf fifos port) .status) := by
    intro port
    refine .bind ?_ fun h => Design.keeps_fifoAccess (fun _ _ => rfl) h _
    unfold interfaceOf
    split
    · exact .pure _
    · exact .fail _
  simp only [addSchedulerTask, wp_bind]
  refine (Design.keeps_wiring (fun _ _ => rfl) _).wp_anyway (g := Design.tasks) fun block t ht => ?_
  refine (Keeps.mapM hprobe).wp_anyway fun probes u hu => ?_
  refine (Design.keeps_wiring (fun _ _ => rfl) _).wp_anyway (g := Design.tasks) fun _ v hv => ?_
  rw [← ht, ← hu, ← hv]
  exact wp_addClockedTask_adds clockDomain "scheduler" block

end

/-- The scheduler is lowered, but nothing marks the design as built. -/
structure Unmarked (j : Job) : Prop where
  actions : j.actor.actions = []
  scheduler : j.scheduler.isSome
  tasks : j.tasks = ∅
  settings : j.settings = []

theorem wp_buildDesign_unmarked (h : Unmarked s.state) :
    wp buildDesign (fun _ t => Unmarked t.state ∧
      t.state.design.tasks.size = s.state.design.tasks.size + 1) (fun _ _ => True) s := by
  rw [buildDesign, wp_bind, wp_look, wp_bind]
  refine wp_onDesign ((keeps_tasks_addResources _ _).wp_anyway fun fifos t ht => ?_)
  simp only [id, h.actions, wp_bind]
  refine wp_onDesign (wp_mono (wp_addSchedulerTask_adds _ _ _) (fun _ u hu => ?_) fun _ _ h => h)
  rw [wp_look]
  exact wp_say fun _ => ⟨⟨h.actions, h.scheduler, h.tasks, h.settings⟩, hu.trans (by rw [ht])⟩

theorem Unmarked.wp_run_buildDesign (h : Unmarked s.state) :
    wp (Pass.run host .designActor) (fun _ t => Unmarked t.state ∧
      t.state.design.tasks.size = s.state.design.tasks.size + 1) (fun _ _ => True) s := by
  obtain ⟨p, hp⟩ := Option.isSome_iff_exists.mp h.scheduler
  exact Pass.wp_run_buildDesign hp (by rw [h.tasks]; rfl) (wp_buildDesign_unmarked h)

theorem Unmarked.wp_run_checkDesign (h : Unmarked s.state) :
    wp (Pass.run host .designCheck) (fun _ t => t.state = s.state) (fun _ _ => True) s :=
  Pass.wp_run_checkDesign h.settings (wp_mono (looks_checkDesign host).wp_again (fun _ _ h => h.1)
    fun _ _ h => h)

/-- Without actions the first run leaves no mark. -/
theorem wp_run_all_unmarked (host : Host) (h : Fresh s.state) (hactions : s.state.actor.actions = []) :
    wp (Registry.standard.run host { passes := ["all"] } false) (fun _ t => Unmarked t.state)
      (fun _ _ => True) s := by
  refine wp_run_all (I := fun j => j = s.state ∧ Checked s.state.actor) (J := Unmarked)
    (K := Unmarked) wp_run_checkActor_first ?_ ?_ ?_
  · rintro ⟨_, journal⟩ ⟨rfl, hchecked⟩
    refine wp_mono (wp_run_lowerActor_first h hchecked) (fun _ t ⟨p, ht⟩ => ?_) fun _ _ h => h
    rw [ht]
    exact ⟨hactions, rfl, h.tasks, h.settings⟩
  · exact fun t ht => wp_mono ht.wp_run_buildDesign (fun _ _ h => h.1) fun _ _ h => h
  · exact fun t ht => wp_mono ht.wp_run_checkDesign (fun _ _ heq => heq ▸ ht) fun _ _ h => h

/-- So the second run builds the design once more. -/
theorem Unmarked.wp_run_all (host : Host) (h : Unmarked s.state) :
    wp (Registry.standard.run host { passes := ["all"] } false)
      (fun _ t => t.state.design.tasks.size = s.state.design.tasks.size + 1) (fun _ _ => True) s := by
  have hcheck : wp checkActor _ (Refused s.state.actor s.state.clockDomain) s := wp_checkActor
  refine Pass.wp_run_all (I := (· = s.state)) (J := (· = s.state)) (K := fun j => Unmarked j ∧
    j.design.tasks.size = s.state.design.tasks.size + 1)
    (L := fun j => j.design.tasks.size = s.state.design.tasks.size + 1)
    (wp_run_checkActor (wp_mono hcheck (fun _ _ h => h.1) fun _ _ _ => trivial)) ?_ ?_ ?_
  · rintro ⟨_, journal⟩ rfl
    exact wp_run_idle_lower h.settings h.scheduler
  · rintro ⟨_, journal⟩ rfl
    exact Unmarked.wp_run_buildDesign (s := ⟨s.state, journal⟩) h
  · rintro t ⟨ht, hsize⟩
    exact wp_mono ht.wp_run_checkDesign (fun _ _ heq => heq ▸ hsize) fun _ _ h => h

theorem run_all_again_changes (host : Host) {actor : Actor} (hactions : actor.actions = [])
    {clockDomain : String} {journal : Journal} {t u : Traced Job}
    (h : Registry.standard.run host { passes := ["all"] } false
      ⟨{ Job.new actor with clockDomain }, journal⟩ = .ok () t)
    (hagain : Registry.standard.run host { passes := ["all"] } false t = .ok () u) :
    u.state ≠ t.state := by
  have hfirst := wp_run_all_unmarked (s := ⟨{ Job.new actor with clockDomain }, journal⟩) host
    (fresh_new _ _) hactions
  have hsize : u.state.design.tasks.size = t.state.design.tasks.size + 1 :=
    of_wp_ok ((of_wp_ok hfirst h).wp_run_all host) hagain
  intro heq
  rw [heq] at hsize
  omega

/-- An actor without actions runs through, and it does not stay as it is when it is run again. -/
theorem run_all_again_idle : ∃ t, Registry.standard.run .closed { passes := ["all"] } false
      ⟨{ Job.new { name := "idle" } with clockDomain := "CLK:RESET" }, #[]⟩ = .ok () t ∧
    ¬ ∃ u, Registry.standard.run .closed { passes := ["all"] } false t = .ok () u ∧
      u.state = t.state := by
  have hsupported : Supported { name := "idle" } "CLK:RESET" :=
    ⟨rfl, by simp, by simp [Actor.ports], by simp, by decide +kernel, by decide +kernel⟩
  obtain ⟨t, ht⟩ := exists_run_all .closed hsupported (by decide) #[]
  refine ⟨t, ht, ?_⟩
  rintro ⟨u, hu, heq⟩
  exact run_all_again_changes _ rfl ht hu heq

end Pass

end DataflowSynth
