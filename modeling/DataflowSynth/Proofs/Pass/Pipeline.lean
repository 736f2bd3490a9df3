/-
The whole pipeline.

What a pass relies on was checked by an earlier one or follows from how the design was built.  So the
pipeline ends well for every actor that can be built at all, and for others it ends with an error and
never in the middle of a step.
-/
import DataflowSynth.Pass.Plan
import DataflowSynth.Proofs.Pass.Options
import DataflowSynth.Proofs.Scheduler.Refinement
import DataflowSynth.Proofs.Synthesis.Probing

namespace DataflowSynth.Pass

open Build Synthesis

/-- What can be built. -/
structure Supported (actor : Actor) (clockDomain : String) : Prop where
  valid : actor.validate = .ok ()
  unreserved : ∀ p ∈ actor.procedures, p.name ≠ "scheduler"
  ports : ∀ p ∈ actor.ports, p.type.isObject = false
  stateVars : ∀ v ∈ actor.stateVars, v.type.isObject = false
  clock : (Design.parseDomain clockDomain).1 ≠ ""
  reset : (Design.parseDomain clockDomain).2 ≠ some (Design.parseDomain clockDomain).1

/-- The step was refused, and rightly so. -/
def Refused {σ : Type} (actor : Actor) (clockDomain : String) : Failure → Traced σ → Prop
  | .abort _, _ => False
  | .error _, _ => ¬ Supported actor clockDomain

variable {actor : Actor} {clockDomain : String} {s : Traced Job} {host : Host}

/-! ### Checking the actor -/

theorem wp_defect {α : Type} {e : Except ActorDefect α} {Q : α → Traced Job → Prop}
    {F : Failure → Traced Job → Prop} (hok : ∀ x, e = .ok x → Q x s)
    (hbad : ∀ d, e = .error d → F (.error (.malformed d)) s) : wp (defect e) Q F s := by
  cases e with
  | ok x => exact hok x rfl
  | error d => exact hbad d rfl

theorem wp_say {p : Pass} {level : Level} {message : String} {Q : Unit → Traced Job → Prop}
    {F : Failure → Traced Job → Prop} (h : ∀ journal, Q () ⟨s.state, journal⟩) :
    wp (say p level message) Q F s := h _

theorem wp_checkActor : wp checkActor
    (fun _ t => t.state = s.state ∧ Actor.Valid s.state.actor ∧
      ∀ p ∈ s.state.actor.procedures, p.name ≠ "scheduler")
    (Refused s.state.actor clockDomain) s := by
  rw [checkActor, wp_bind, wp_look, wp_bind]
  refine wp_defect (fun _ hok => ?_) fun d hbad hsupported => ?_
  · have hvalid := (Actor.checks_eq_ok_iff _).mp hok
    have hsaid : ∀ messages : List String, wp (messages.forM (say .wellFormed .warn))
        (fun _ t => t.state = s.state) (Refused s.state.actor clockDomain) s := fun messages =>
      wp_forM rfl fun _ _ _ ht => wp_say fun _ => ht
    split
    · next hreserved =>
      intro hsupported
      obtain ⟨p, hp⟩ := Option.isSome_iff_exists.mp hreserved
      have hname := List.find?_some hp
      exact hsupported.unreserved p (List.mem_of_find?_eq_some hp) (of_decide_eq_true hname)
    · next hfree =>
      refine wp_mono (hsaid _) (fun _ t ht => ⟨ht, hvalid, fun p hp heq => hfree ?_⟩) fun _ _ h => h
      exact List.find?_isSome.mpr ⟨p, hp, by simp [heq]⟩
  · exact absurd (hsupported.valid.symm.trans hbad) nofun

/-! ### Lowering -/

/-- Validity is not about state variables. -/
theorem valid_declareState (h : Actor.Valid actor) : Actor.Valid (Scheduler.declareState actor) :=
  { h with actions := fun x hx => { h.actions x hx with } }

theorem wp_lowerActor (hvalid : Actor.Valid s.state.actor) (skipFill : Bool)
    {F : Failure → Traced Job → Prop} :
    wp (lowerActor skipFill) (fun _ t => ∃ p,
      Scheduler.lower (Scheduler.declareState s.state.actor) skipFill = .ok p ∧ t.state = { s.state with
        actor := Scheduler.declareState s.state.actor, scheduler := some p }) F s := by
  obtain ⟨p, hp⟩ := Scheduler.lower_total (valid_declareState hvalid) skipFill
  simp only [lowerActor, wp_bind, wp_change, wp_look]
  refine wp_defect (fun q hq => ?_) fun d hbad => absurd (hp.symm.trans hbad) (by simp)
  exact wp_say fun _ => ⟨q, hq, rfl⟩

/-- The variables of a scheduler are no objects. -/
theorem isObject_stateVariables {v : Variable} (h : v ∈ Scheduler.stateVariables actor) :
    v.type.isObject = false := by
  simp only [Scheduler.stateVariables, List.mem_append, List.mem_flatMap] at h
  rcases h with (h | ⟨b, -, h⟩) | ⟨b, -, h⟩
  · cases hfsm : actor.fsm with
    | none => simp [hfsm] at h
    | some fsm =>
        obtain ⟨state, -, rfl⟩ := List.mem_map.mp (by simpa [hfsm, Scheduler.fsmVariables] using h)
        rfl
  · simp only [Scheduler.inputVariables, List.mem_cons, List.not_mem_nil, or_false] at h
    rcases h with rfl | rfl | rfl <;> rfl
  · obtain rfl := List.mem_singleton.mp h
    rfl

theorem mem_declare {vs : List Variable} {v w : Variable} (h : v ∈ vs) :
    v ∈ Scheduler.declare vs w := by
  unfold Scheduler.declare
  split
  · exact h
  · exact List.mem_append_left _ h

theorem mem_of_mem_declare {vs : List Variable} {v w : Variable} (h : v ∈ Scheduler.declare vs w) :
    v ∈ vs ∨ v = w := by
  unfold Scheduler.declare at h
  split at h
  · exact .inl h
  · simpa using h

theorem stateVars_declareState {v : Variable} (h : v ∈ (Scheduler.declareState actor).stateVars) :
    v ∈ actor.stateVars ∨ v ∈ Scheduler.stateVariables actor := by
  have hall : ∀ (ws vs : List Variable), v ∈ ws.foldl Scheduler.declare vs → v ∈ vs ∨ v ∈ ws := by
    intro ws
    induction ws with
    | nil => exact fun vs h => .inl h
    | cons w ws ih =>
        intro vs h
        rcases ih _ h with h | h
        · rcases mem_of_mem_declare h with h | rfl
          · exact .inl h
          · exact .inr List.mem_cons_self
        · exact .inr (List.mem_cons_of_mem _ h)
  exact hall _ _ h

theorem Supported.plain (h : Supported actor clockDomain) :
    Plain (Scheduler.declareState actor) where
  ports := h.ports
  stateVars v hv := by
    rcases stateVars_declareState hv with hv | hv
    · exact h.stateVars v hv
    · exact isObject_stateVariables hv

theorem plain_declareState (h : Plain (Scheduler.declareState actor)) : Plain actor where
  ports := h.ports
  stateVars v hv := by
    have hall : ∀ (ws vs : List Variable), v ∈ vs → v ∈ ws.foldl Scheduler.declare vs := by
      intro ws
      induction ws with
      | nil => exact fun vs h => h
      | cons w ws ih => exact fun vs h => ih _ (mem_declare h)
    exact h.stateVars v (hall _ _ hv)

/-! ### Building the design -/

theorem wp_onDesign {α : Type} {x : Design.Step α} {Q : α → Traced Job → Prop}
    {F : Failure → Traced Job → Prop}
    (h : wp x (fun a t => Q a ⟨{ s.state with design := t.state }, t.journal⟩)
      (fun e t => F e ⟨{ s.state with design := t.state }, t.journal⟩) ⟨s.state.design, s.journal⟩) :
    wp (Job.onDesign x) Q F s :=
  wp_within.mpr h

/-- What the tasks of a job are built on. -/
structure Ready (fifos : Interfaces) (j : Job) : Prop where
  laid : j.design.Laid
  equipped : Equipped j.actor fifos j.design
  domain : ∃ domain, j.design.domains.find? j.clockDomain = some domain

theorem Ready.adds {fifos : Interfaces} {j : Job} (h : Ready fifos j) {name : String}
    {block : ComponentId} {t : TaskId} {d : Design} (hd : Adds j.design name block t d) :
    Ready fifos { j with design := d } := by
  have hlaid := hd.laid
  obtain ⟨n, call, rfl⟩ := hd.design
  exact ⟨hlaid, ⟨h.equipped.inputs, h.equipped.outputs⟩, h.domain⟩

variable {F : Failure → Traced Job → Prop}

/-- What building a design leaves alone. -/
def terms (j : Job) : List Actor.Port × Option Procedure × String × List String :=
  (j.actor.ports, j.scheduler, j.clockDomain, j.settings)

theorem keeps_onDesign {α : Type} (x : Design.Step α) : Build.Keeps terms (Job.onDesign x) := by
  have hput : ∀ (d : Design) (j : Job), terms { j with design := d } = terms j := fun _ _ => rfl
  exact Keeps.within hput x

theorem keeps_say (p : Pass) (level : Level) (message : String) :
    Build.Keeps terms (say p level message) := fun _ => rfl

theorem keeps_buildAction (fifos : Interfaces) (a : Actor.Action) :
    Build.Keeps terms (buildAction fifos a) :=
  .bind (.look _) fun _ => .bind (keeps_onDesign _) fun _ => .bind (.change fun _ => rfl) fun _ =>
    keeps_say _ _ _

theorem keeps_buildDesign : Build.Keeps terms buildDesign :=
  .bind (.look _) fun _ => .bind (keeps_onDesign _) fun fifos =>
    .bind (.forM fun a => keeps_buildAction fifos a) fun _ => .bind (keeps_onDesign _) fun _ =>
    .bind (.look _) fun _ => keeps_say _ _ _

theorem wp_buildAction {fifos : Interfaces} (h : Ready fifos s.state) (a : Actor.Action) :
    wp (buildAction fifos a) (fun _ t => Ready fifos t.state) F s := by
  obtain ⟨domain, hdomain⟩ := h.domain
  rw [buildAction, wp_bind, wp_look, wp_bind]
  refine wp_onDesign (wp_mono (wp_addActionTask (s := ⟨s.state.design, s.journal⟩) h.laid hdomain
    h.equipped a) (fun r t ⟨block, ht, _⟩ => ?_) fun _ _ h => h)
  simp only [wp_bind, wp_change]
  refine wp_say fun _ => ?_
  have hready := h.adds ht
  exact ⟨hready.laid, ⟨hready.equipped.inputs, hready.equipped.outputs⟩, hready.domain⟩

/-- The design is still ready after the tasks of actions, and is for the same ports and clock. -/
theorem wp_buildActions {fifos : Interfaces} (h : Ready fifos s.state) (as : List Actor.Action) :
    wp (as.forM (buildAction fifos))
      (fun _ t => Ready fifos t.state ∧ terms t.state = terms s.state) F s :=
  wp_forM (I := fun t => Ready fifos t.state ∧ terms t.state = terms s.state) ⟨h, rfl⟩
    fun a _ t ⟨ht, hterms⟩ => by
      have hkeeps := wp_mono (keeps_buildAction fifos a t) (fun _ _ h => h)
        fun _ _ _ => (trivial : True)
      exact wp_mono (wp_and (wp_buildAction ht a (F := F)) hkeeps)
        (fun _ _ hu => ⟨hu.1, hu.2.trans hterms⟩) fun _ _ h => h.1

/-- The interfaces that were made for an actor with these ports. -/
theorem Ready.interface {fifos : Interfaces} {j : Job} (h : Ready fifos j) {q : Actor.Port}
    (hq : q ∈ j.actor.ports) :
    ∃ handle f, fifos.find? q.name = some handle ∧ j.design.fifos.get? handle = some f := by
  rcases List.mem_append.mp hq with hq | hq
  · obtain ⟨handle, f, hfind, hf, -⟩ := h.equipped.inputs q hq
    exact ⟨handle, f, hfind, hf⟩
  · obtain ⟨handle, f, hfind, hf, -⟩ := h.equipped.outputs q hq
    exact ⟨handle, f, hfind, hf⟩

theorem wp_buildDesign (hdesign : Bare s.state.design) (hvalid : Actor.Valid s.state.actor)
    (hroom : (s.state.actor.ports.filter (·.buffer.isSome)).length + 1 < UInt32.size)
    {scheduler : Procedure} (hscheduler : s.state.scheduler = some scheduler) {skipFill : Bool}
    (hlower : Scheduler.lower s.state.actor skipFill = .ok scheduler)
    (hclock : (Design.parseDomain s.state.clockDomain).1 = "" ∨
      (Design.parseDomain s.state.clockDomain).2 = some (Design.parseDomain s.state.clockDomain).1 →
      ∀ e t, F (.error e) t)
    (hobjects : ¬ Plain s.state.actor → ∀ e t, F (.error e) t) :
    wp buildDesign (fun _ t => t.state.design.Laid ∧ Plain s.state.actor ∧
      (Design.parseDomain s.state.clockDomain).1 ≠ "" ∧
      (Design.parseDomain s.state.clockDomain).2 ≠
        some (Design.parseDomain s.state.clockDomain).1) F s := by
  rw [buildDesign, wp_bind, wp_look, wp_bind]
  refine wp_onDesign (wp_mono (wp_addResources (s := ⟨s.state.design, s.journal⟩) hdesign hvalid hroom
    (fun h _ _ => hclock h _ _) fun hplain _ _ => hobjects hplain _ _) (fun fifos t ht => ?_)
    fun _ _ h => h)
  obtain ⟨hlaid, hequipped, hdomain, hsupported⟩ := ht
  have hready : Ready fifos { s.state with design := t.state } := ⟨hlaid, hequipped, hdomain⟩
  rw [wp_bind]
  refine wp_mono (wp_buildActions (s := ⟨_, _⟩) hready _) ?_ fun _ _ h => h
  rintro _ t ⟨ht, hterms⟩
  obtain ⟨hports, -, hclock', -⟩ : t.state.actor.ports = s.state.actor.ports ∧ _ ∧
      t.state.clockDomain = s.state.clockDomain ∧ _ := by simpa [terms] using hterms
  obtain ⟨domain, hdomain⟩ := ht.domain
  rw [hclock'] at hdomain
  have hsampled : ∀ p ∈ (s.state.scheduler.map sampledPorts).getD [],
      ∃ h f, fifos.find? p = some h ∧ t.state.design.fifos.get? h = some f := by
    rw [hscheduler]
    intro p hp
    obtain ⟨q, hq, rfl⟩ := exists_port_of_mem_sampledPorts hlower p hp
    exact ht.interface (hports.symm ▸ hq)
  simp only [wp_bind]
  refine wp_onDesign (wp_mono (wp_addSchedulerTask (s := ⟨t.state.design, t.journal⟩) ht.laid hdomain
    hsampled) ?_ fun _ _ h => h)
  rintro _ u ⟨block, hu, _⟩
  simp only [wp_look]
  exact wp_say fun _ => ⟨hu.laid, hsupported⟩

/-! ### Checking the design -/

theorem wp_onNetlist_sees {α : Type} {x : Netlist.Step α} {P : α → Prop} {Q : α → Traced Job → Prop}
    (hs : s.state.design.Laid) (hx : Netlist.Sees s.state.design.pins.size x
      s.state.design.netlist.sheet P) (hQ : ∀ a, P a → Q a s) :
    wp (Job.onNetlist x) Q F s :=
  wp_onDesign (Design.wp_wiring_sees (s := ⟨s.state.design, s.journal⟩) hs hx hQ)

/-- The children of every module can be put in order. -/
theorem wp_orderLine (hs : s.state.design.Laid) {m : ComponentId} {ν : Netlist.Node}
    {i : Netlist.Interior} (hν : s.state.design.netlist.sheet.node? m = some ν)
    (hi : ν.interior = some i) : wp (orderLine m) (fun _ t => t.state = s.state) F s := by
  rw [orderLine, wp_bind]
  refine wp_onNetlist_sees hs (Netlist.sees_order hs.layout.orderly hν hi) fun order horder => ?_
  rw [wp_bind]
  refine wp_onNetlist_sees hs (Netlist.sees_component hν) fun x _ => ?_
  simp only [wp_bind]
  refine wp_say fun journal => ?_
  refine wp_mapM (I := fun _ t => t.state = s.state) rfl fun c hc _ t ht => ?_
  obtain ⟨state, journal⟩ := t
  subst ht
  obtain ⟨μ, hμ, -⟩ := hs.layout.orderly.children m ν i hν hi c (horder.mem_iff.mp hc)
  rw [wp_bind]
  exact wp_onNetlist_sees hs (Netlist.sees_component hμ) fun _ _ => rfl

theorem wp_checkDesign (hs : s.state.design.Laid) (host : Host) :
    wp (checkDesign host none) (fun _ t => t.state = s.state) F s := by
  rw [checkDesign, wp_bind, wp_look]
  simp only [wp_bind]
  refine wp_mapM (I := fun _ t => t.state = s.state) rfl fun m hm _ t ht => ?_
  obtain ⟨state, journal⟩ := t
  subst ht
  obtain ⟨⟨m, x⟩, hx, rfl⟩ := List.mem_map.mp hm
  obtain ⟨hx, hmodule⟩ := List.mem_filter.mp hx
  obtain ⟨i, hi⟩ := Option.isSome_iff_exists.mp hmodule
  have hν : s.state.design.netlist.sheet.node? m = some (s.state.design.netlist.node x) := by
    rw [Netlist.node?_sheet _ (Nat.zero_le _), Arena.get?_of_mem_toList hx]
    rfl
  exact wp_orderLine (s := ⟨s.state, journal⟩) hs hν hi

/-! ### Plans -/

theorem pass?_name (p : Pass) : Registry.standard.pass? p.name = some p.entry := by
  cases p <;> rfl

theorem wp_plan_all {Q : Registry.Plan → Traced Job → Prop}
    (h : Q { passes := Pass.all.map name, excluded := [] } s) :
    wp (Registry.standard.plan { passes := ["all"] }) Q F s := by
  have hexpand : Registry.standard.expand ["all"] = Pass.all.map name := by decide +kernel
  have hknown : (Pass.all.map name).find? (fun n => (Registry.standard.pass? n).isNone) = none := by
    decide +kernel
  have hnone : Registry.standard.expand [] = [] := rfl
  simpa [Registry.plan, Registry.checkKnown, hexpand, hknown, hnone] using h

/-- A pass of a plan, when nothing is left out and nothing is printed. -/
theorem wp_runPass {p : Pass} {Q : Job → Prop} (h : wp (p.run host) (fun _ t => Q t.state) F s) :
    wp (Registry.standard.runPass host false [] p.name) (fun _ t => Q t.state) F s := by
  simp only [Registry.runPass, Registry.report, pass?_name, List.contains_nil, Bool.false_eq_true,
    if_false, wp_bind]
  exact wp_mono h (fun _ t ht => ht) fun _ _ h => h

theorem values_nil (p : Pass) : (p.values [] : Job.Step Values) = pure p.defaults := rfl

theorem wp_run_checkActor {Q : Unit → Traced Job → Prop} (h : wp checkActor Q F s) :
    wp (Pass.run host .wellFormed) Q F s := h

theorem wp_run_lowerActor {Q : Unit → Traced Job → Prop} (hsettings : s.state.settings = [])
    (hscheduler : s.state.scheduler = none) (h : wp (lowerActor false) Q F s) :
    wp (Pass.run host .actionScheduler) Q F s := by
  have hvalue : (flagValue skipFillBuffer (defaults .actionScheduler) : Job.Step Bool) = pure false :=
    rfl
  simp only [Pass.run, work, wp_bind, wp_look, hsettings, values_nil, wp_pure, hvalue, idleReason?,
    id, hscheduler, Option.isSome_none, Bool.false_eq_true, if_false]
  exact h

/-- A job that is not lowered yet is lowered, whatever the settings say. -/
theorem wp_run_lowerActor_settings (host : Host) (hvalid : Actor.Valid s.state.actor)
    (hscheduler : s.state.scheduler = none) :
    wp (Pass.run host .actionScheduler) (fun _ t => ∃ skipFill p,
      Scheduler.lower (Scheduler.declareState s.state.actor) skipFill = .ok p ∧ t.state = { s.state with
        actor := Scheduler.declareState s.state.actor, scheduler := some p }) (fun _ _ => True) s := by
  simp only [Pass.run, work, wp_bind, wp_look]
  refine wp_mono (wp_values _) (fun values t ht => ?_) fun _ _ _ => trivial
  obtain ⟨state, journal⟩ := t
  obtain rfl : state = s.state := ht.1
  simp only [flagValue]
  split
  · next skipFill _ =>
    simp only [wp_pure, idleReason?, id, hscheduler, Option.isSome_none, Bool.false_eq_true, if_false]
    refine wp_mono (wp_lowerActor (s := ⟨s.state, journal⟩) hvalid skipFill) ?_ fun _ _ h => h
    rintro _ u ⟨p, hp, hu⟩
    exact ⟨skipFill, p, hp, hu⟩
  · trivial

theorem wp_run_buildDesign {Q : Unit → Traced Job → Prop} {scheduler : Procedure}
    (hscheduler : s.state.scheduler = some scheduler) (htasks : s.state.tasks.isEmpty = true)
    (h : wp buildDesign Q F s) : wp (Pass.run host .designActor) Q F s := by
  simp only [Pass.run, work, wp_bind, wp_look, wp_pure, idleReason?, id, hscheduler, htasks,
    Option.isNone_some, Bool.not_true, Bool.false_eq_true, if_false]
  exact h

theorem wp_run_checkDesign {Q : Unit → Traced Job → Prop} (hsettings : s.state.settings = [])
    (h : wp (checkDesign host none) Q F s) : wp (Pass.run host .designCheck) Q F s := by
  have hvalue : (streamValue orderStream (defaults .designCheck) : Job.Step _) = pure none := rfl
  simp only [Pass.run, work, wp_bind, wp_look, hsettings, values_nil, wp_pure, hvalue, idleReason?]
  exact h

/-! ### The whole -/

/-- A job as it is before anything was done for it, without settings. -/
structure Fresh (j : Job) : Prop where
  design : Bare j.design
  scheduler : j.scheduler = none
  tasks : j.tasks = ∅
  settings : j.settings = []

theorem fresh_new (actor : Actor) (clockDomain : String) :
    Fresh { Job.new actor with clockDomain } :=
  ⟨bare_new actor.name, rfl, rfl, rfl⟩

/-- The design of a lowered actor is built, unless there is something that cannot be built. -/
theorem wp_buildDesign_lowered {t : Traced Job} {p : Procedure} (h : Fresh s.state)
    (hroom : (s.state.actor.ports.filter (·.buffer.isSome)).length + 1 < UInt32.size)
    (hvalid : Actor.Valid t.state.actor) (hlower : Scheduler.lower t.state.actor false = .ok p)
    (ht : t.state = { s.state with
      actor := Scheduler.declareState s.state.actor, scheduler := some p }) :
    wp buildDesign (fun _ u => (u.state.design.Laid ∧ Plain t.state.actor ∧
        (Design.parseDomain t.state.clockDomain).1 ≠ "" ∧
        (Design.parseDomain t.state.clockDomain).2 ≠
          some (Design.parseDomain t.state.clockDomain).1) ∧ terms u.state = terms t.state)
      (Refused s.state.actor s.state.clockDomain) t := by
  have hrefused : ∀ {P : Prop}, (Supported s.state.actor s.state.clockDomain → P) → ¬ P →
      ∀ (e : Error) (t : Traced Job), Refused s.state.actor s.state.clockDomain (.error e) t :=
    fun hP hnot _ _ hsupported => hnot (hP hsupported)
  have hscheduler : t.state.scheduler = some p := by rw [ht]
  refine wp_mono (wp_and (wp_buildDesign (F := Refused s.state.actor s.state.clockDomain)
    ?_ hvalid ?_ hscheduler hlower ?_ ?_) (keeps_buildDesign t)) (fun _ _ h => h) fun _ _ h => h.1
  · rw [ht]
    exact h.design
  · rw [ht]
    exact hroom
  · rw [ht]
    exact fun hclock => hrefused (P := _ ≠ _ ∧ _ ≠ _) (fun hs => ⟨hs.clock, hs.reset⟩)
      fun hs => hclock.elim hs.1 hs.2
  · rw [ht]
    exact fun hplain => hrefused Supported.plain hplain

theorem wp_runAll (host : Host) (h : Fresh s.state)
    (hroom : (s.state.actor.ports.filter (·.buffer.isSome)).length + 1 < UInt32.size) :
    wp (Registry.standard.run host { passes := ["all"] } false)
      (fun _ _ => Supported s.state.actor s.state.clockDomain)
      (Refused s.state.actor s.state.clockDomain) s := by
  rw [Registry.run, wp_bind]
  refine wp_plan_all ?_
  show wp ((Pass.all.map name).forM (Registry.standard.runPass host false [])) _ _ s
  simp only [Pass.all, List.map_cons, List.map_nil, wp_forM_cons]
  refine wp_mono (wp_runPass (Q := fun j => j = s.state ∧ Actor.Valid s.state.actor ∧
    ∀ p ∈ s.state.actor.procedures, p.name ≠ "scheduler") (wp_run_checkActor wp_checkActor))
    (fun _ t ⟨ht, hvalid, hfree⟩ => ?_) fun _ _ h => h
  refine wp_mono (wp_runPass (Q := fun j => ∃ p,
    Scheduler.lower (Scheduler.declareState s.state.actor) false = .ok p ∧ j = { s.state with
      actor := Scheduler.declareState s.state.actor, scheduler := some p })
    (wp_run_lowerActor (ht ▸ h.settings) (ht ▸ h.scheduler)
      (ht ▸ wp_lowerActor (ht ▸ hvalid) false))) (fun _ t₂ ⟨p, hlower, ht₂⟩ => ?_) fun _ _ h => h
  have hvalid₂ : Actor.Valid t₂.state.actor := by
    rw [ht₂]
    exact valid_declareState hvalid
  have hbuild := wp_buildDesign_lowered h hroom hvalid₂ (by rw [ht₂, hlower]) ht₂
  refine wp_mono (wp_runPass (Q := fun j => (j.design.Laid ∧ Plain t₂.state.actor ∧
      (Design.parseDomain t₂.state.clockDomain).1 ≠ "" ∧
      (Design.parseDomain t₂.state.clockDomain).2 ≠
        some (Design.parseDomain t₂.state.clockDomain).1) ∧ terms j = terms t₂.state)
    (wp_run_buildDesign (by rw [ht₂]) (by rw [ht₂, h.tasks]; rfl) hbuild))
    (fun _ t₃ ⟨⟨hlaid, hplain, hname, hdiffer⟩, hterms⟩ => ?_) fun _ _ h => h
  have hsettings : t₃.state.settings = [] := by
    have hterms := congrArg (fun x => x.2.2.2) hterms
    rw [ht₂] at hterms
    exact hterms.trans h.settings
  refine wp_mono (wp_runPass (Q := fun _ => Supported s.state.actor s.state.clockDomain)
    (wp_run_checkDesign hsettings (wp_mono (wp_checkDesign hlaid host) (fun _ _ _ => ?_)
      fun _ _ h => h))) (fun _ _ h => h) fun _ _ h => h
  rw [ht₂] at hplain hname hdiffer
  have hactor := plain_declareState hplain
  exact ⟨(Actor.checks_eq_ok_iff _).mpr hvalid, hfree, hactor.ports, hactor.stateVars, hname, hdiffer⟩

/-- A job that can be done is done. -/
theorem exists_run_all (host : Host) {actor : Actor} {clockDomain : String}
    (h : Supported actor clockDomain)
    (hroom : (actor.ports.filter (·.buffer.isSome)).length + 1 < UInt32.size) (journal : Journal) :
    ∃ t, Registry.standard.run host { passes := ["all"] } false
      ⟨{ Job.new actor with clockDomain }, journal⟩ = .ok () t := by
  have hrun := wp_runAll host (s := ⟨{ Job.new actor with clockDomain }, journal⟩)
    (fresh_new actor clockDomain) hroom
  obtain ⟨_, t, ht, -⟩ := exists_of_wp <| wp_mono hrun (fun _ _ h => h) fun f t hf => by
    cases f with
    | abort a => exact hf
    | error e => exact hf h
  exact ⟨t, ht⟩

/-- The pipeline ends well exactly for what can be built.  Let an actor have so few buffers that their
memories can be numbered.  Then a new job for it, with any clock domain and no settings, runs all passes
without an error if the actor is valid, has no procedure called as the scheduler and no object on a port
or in a state variable, and if the clock domain names a clock that is not its own reset.  Otherwise it
ends with an error.  No step is ever aborted. -/
theorem run_all_iff (host : Host) (actor : Actor) (clockDomain : String) (journal : Journal)
    (hroom : (actor.ports.filter (·.buffer.isSome)).length + 1 < UInt32.size) :
    let outcome := Registry.standard.run host { passes := ["all"] } false
      ⟨{ Job.new actor with clockDomain }, journal⟩
    ((∃ t, outcome = .ok () t) ↔ Supported actor clockDomain) ∧ ∀ a t, outcome ≠ .error (.abort a) t := by
  intro outcome
  have hrun := wp_runAll host (s := ⟨{ Job.new actor with clockDomain }, journal⟩)
    (fresh_new actor clockDomain) hroom
  refine ⟨⟨fun ⟨t, ht⟩ => of_wp_ok hrun ht, fun hsupported => ?_⟩, fun a t ht => of_wp_error hrun ht⟩
  exact exists_run_all host hsupported hroom journal

/-- An actor that takes two tokens for each one that it gives. -/
def halver : Actor where
  name := "halver"
  inputs := [{ name := "IN", type := .int 8 }]
  outputs := [{ name := "OUT", type := .int 8 }, { name := "LOG", type := .int 12, buffer := some 4 }]
  procedures := [{ name := "halve" }, { name := "may", returnType := .bool }]
  actions := [{
    name := "halve", body := "halve", guard := "may", inputs := [⟨"IN", 2⟩]
    outputs := [⟨"OUT", 1⟩, ⟨"LOG", 1⟩] }]

theorem supported_halver : Supported halver "CLK:RESET" :=
  ⟨by decide +kernel, by decide, by decide, by decide, by decide +kernel, by decide +kernel⟩

theorem run_all_iff_halver : ∃ t, Registry.standard.run .closed { passes := ["all"] } false
    ⟨{ Job.new halver with clockDomain := "CLK:RESET" }, #[]⟩ = .ok () t :=
  (run_all_iff .closed halver "CLK:RESET" #[] (by decide)).1.mpr supported_halver

end DataflowSynth.Pass
