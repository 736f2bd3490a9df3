/-
The probes of the scheduler task.

The scheduler asks for the status of ports.  The task that answers it is built from the names that are
found in the lowered procedure, and comes after the tasks of all actions.  So the ports that are probed,
and in which order, follow from the patterns of the actions.
-/
import DataflowSynth.Proofs.Pass.Result
import DataflowSynth.Proofs.Pass.Stages

namespace DataflowSynth.Pass

open Build Synthesis

/-- The scheduler of a job samples the ports that the actions of an actor poll, and the task after those
of the actions probes them. -/
def ProbesPolled (actor : Actor) (j : Job) : Prop :=
  ∃ scheduler task B I O i entry exit, j.scheduler = some scheduler ∧
    sampledPorts scheduler = (polledPorts actor).map portName ∧
    j.design.tasks.get? ⟨actor.actions.length⟩ = some task ∧ task.name = "scheduler" ∧
    ProbesAtOnce j.design task.body (polledPorts actor) B I O i entry exit

theorem wp_buildDesign_probes {s : Traced Job} (hdesign : Bare s.state.design)
    (hvalid : Actor.Valid s.state.actor) (htasks : s.state.tasks = ∅) {scheduler : Procedure}
    (hscheduler : s.state.scheduler = some scheduler) {skipFill : Bool}
    (hlower : Scheduler.lower s.state.actor skipFill = .ok scheduler) :
    wp buildDesign (fun _ t => ProbesPolled s.state.actor t.state) (fun _ _ => True) s := by
  have hsampled := sampledPorts_eq_polledPorts hvalid hlower
  refine wp_mono (wp_and (wp_buildDesign_realizes hdesign hvalid htasks hscheduler hlower)
    (keeps_buildDesign s)) ?_ fun _ _ _ => trivial
  rintro _ t ⟨⟨-, fifos, hstaffed, task, htask, hname, hsurveys⟩, hterms⟩
  have hkept : t.state.scheduler = s.state.scheduler := congrArg (fun x => x.2.1) hterms
  have hports : ∀ port ∈ polledPorts s.state.actor, port ∈ directedPorts s.state.actor := by
    intro port hport
    obtain ⟨a, -, ha⟩ := List.mem_flatMap.mp (List.mem_eraseDups.mp hport)
    exact mem_directedPorts_of_polledBy ha
  rw [hsampled] at hsurveys
  obtain ⟨B, I, O, i, entry, exit, hprobes⟩ :=
    hsurveys.probesAtOnce hstaffed.specs hstaffed.handles hports
  exact ⟨scheduler, task, B, I, O, i, entry, exit, hkept.trans hscheduler, hsampled, htask, hname,
    hprobes⟩

theorem run_all_polled {s t : Traced Job} {host : Host} {dump : Bool}
    (h : Registry.standard.run host { passes := ["all"] } dump s = .ok () t)
    (hdesign : Bare s.state.design) (hscheduler : s.state.scheduler = none)
    (htasks : s.state.tasks = ∅) : ProbesPolled (Scheduler.declareState s.state.actor) t.state := by
  refine run_all_builds h hscheduler htasks fun skipFill p journal hvalid hlower => ?_
  let j : Job := { s.state with actor := Scheduler.declareState s.state.actor, scheduler := some p }
  exact wp_buildDesign_probes (s := ⟨j, journal⟩) hdesign (valid_declareState hvalid) htasks rfl hlower

/-- The scheduler task probes the ports that the scheduler tests.  Whenever all passes run for a new job,
the task after those of the actions runs a block with one probe for each port without a buffer that is in
a pattern of some action, in the order of first use; these are the ports that the scheduler of the job
samples.  Each probe reads the SEND pin of its input or the RDY pin of its output and nothing else, all are
started with the block, and the block is done when it is started. -/
theorem run_all_probes (host : Host) (dump : Bool) (actor : Actor) (clockDomain : String)
    (settings : List String) (journal : Journal) {t : Traced Job}
    (h : Registry.standard.run host { passes := ["all"] } dump
      ⟨{ Job.new actor with clockDomain, settings }, journal⟩ = .ok () t) :
    ∃ scheduler task B I O i entry exit, t.state.scheduler = some scheduler ∧
      sampledPorts scheduler = (polledPorts actor).map portName ∧
      t.state.design.tasks.get? ⟨actor.actions.length⟩ = some task ∧ task.name = "scheduler" ∧
      ProbesAtOnce t.state.design task.body (polledPorts actor) B I O i entry exit := by
  exact run_all_polled h (bare_new actor.name) rfl rfl

/-- An actor whose two actions give to the same output. -/
def merger : Actor where
  name := "merger"
  inputs := [{ name := "LEFT", type := .int 8 }, { name := "RIGHT", type := .int 8 }]
  outputs := [{ name := "OUT", type := .int 8 }, { name := "LOG", type := .int 12, buffer := some 4 }]
  procedures := [{ name := "copy_left" }, { name := "copy_right" }, { name := "may", returnType := .bool }]
  actions := [
    { name := "left", body := "copy_left", guard := "may", inputs := [⟨"LEFT", 1⟩]
      outputs := [⟨"OUT", 1⟩] },
    { name := "right", body := "copy_right", guard := "may", inputs := [⟨"RIGHT", 1⟩]
      outputs := [⟨"LOG", 1⟩, ⟨"OUT", 1⟩] }]

theorem supported_merger : Supported merger "CLK:RESET" :=
  ⟨by decide +kernel, by decide, by decide, by decide, by decide +kernel, by decide +kernel⟩

/-- `OUT` is probed once, between the inputs, and `LOG` is not probed. -/
example : (polledPorts merger).map portName = ["LEFT", "OUT", "RIGHT"] := by decide +kernel

theorem run_all_probes_merger : ∃ t, Registry.standard.run .closed { passes := ["all"] } false
      ⟨{ Job.new merger with clockDomain := "CLK:RESET", settings := [] }, #[]⟩ = .ok () t ∧
    ∃ scheduler task B I O i entry exit, t.state.scheduler = some scheduler ∧
      sampledPorts scheduler = (polledPorts merger).map portName ∧
      t.state.design.tasks.get? ⟨merger.actions.length⟩ = some task ∧ task.name = "scheduler" ∧
      ProbesAtOnce t.state.design task.body (polledPorts merger) B I O i entry exit := by
  obtain ⟨t, ht⟩ := exists_run_all .closed supported_merger (by decide) #[]
  exact ⟨t, ht, run_all_probes .closed false merger "CLK:RESET" [] #[] ht⟩

end DataflowSynth.Pass
