/-
What a pipeline that ran has done, pass by pass.

If all passes of a new job have run, whatever its settings were and whether or not designs were printed,
then the actor was found to hang together, a scheduler was lowered from it and a design was built for both.
The other steps of the run only look.  So what is true of every design that is built for a lowered actor is
true of the design of the job in the end.
-/
import DataflowSynth.Proofs.Pass.Plans
import DataflowSynth.Proofs.Pass.Repeat

namespace DataflowSynth.Pass

open Build

variable {s : Traced Job} {host : Host} {dump : Bool}

/-! ### Looking -/

theorem keeps_checkDesign (target : Option Destination) : Keeps id (checkDesign host target) := by
  refine .bind (.look _) fun _ => .bind (.mapM fun m => (looks_orderLine m).keeps) fun _ => ?_
  split
  · exact .pure ()
  · exact Job.keeps_send

theorem wp_run_looks : wp (Pass.run host .designCheck) (fun _ t => t.state = s.state)
    (fun _ _ => True) s := by
  simp only [Pass.run, work, wp_bind, wp_look]
  refine wp_mono (wp_values _) (fun values t ht => ?_) fun _ _ _ => trivial
  simp only [streamValue]
  split
  · simp only [wp_pure, idleReason?]
    exact (keeps_checkDesign _).wp_anyway fun _ _ hu => hu.trans ht.1
  · trivial

/-! ### The run -/

/-- The first pass of a plan of standard passes runs, and what it says about itself leaves its job alone. -/
theorem runs_cons {p : Pass} {names : List String} {ran : List Registry.Entry} {v : Traced Job}
    (h : Registry.standard.Runs host dump [] (p.name :: names) ran s v) :
    ∃ t u ran', p.run host s = .ok () t ∧ u.state = t.state ∧
      Registry.standard.Runs host dump [] names ran' u v := by
  cases h with
  | ignored hout => cases hout
  | next hkept hknown hfirst hreport hothers =>
      obtain rfl := Option.some.inj ((pass?_name p).symm.trans hknown)
      exact ⟨_, _, _, hfirst, of_wp_ok Registry.wp_report hreport, hothers⟩

/-- A run of all passes that ends well is a run of each of them. -/
theorem runs_all {t : Traced Job}
    (h : Registry.standard.run host { passes := ["all"] } dump s = .ok () t) :
    ∃ ran, Registry.standard.Runs host dump [] (Pass.all.map name) ran s t := by
  have hknown : ∀ n ∈ Pass.all.map name, Registry.standard.Knows n := fun n hn => by
    obtain ⟨p, -, rfl⟩ := List.mem_map.mp hn
    rw [Registry.Knows, pass?_name]
    rfl
  have hrun : wp (Registry.standard.run host { passes := ["all"] } dump) (fun _ t => ∃ ran,
      Registry.standard.Ends host dump [] (Pass.all.map name) ran s (.ok ()) t) (fun _ _ => True) s := by
    rw [Registry.run, wp_bind]
    exact wp_plan_all (wp_mono (Registry.wp_runPasses hknown s) (fun _ _ h => h) fun _ _ _ => trivial)
  obtain ⟨ran, hends⟩ := of_wp_ok hrun h
  cases hends with
  | finished hall => exact ⟨ran, hall⟩

/-- What is true of every design that is built for the lowered actor is true of the design that all
passes build. -/
theorem run_all_builds {Q : Job → Prop} {t : Traced Job}
    (h : Registry.standard.run host { passes := ["all"] } dump s = .ok () t)
    (hscheduler : s.state.scheduler = none) (htasks : s.state.tasks = ∅)
    (hbuild : ∀ skipFill p journal, Actor.Valid s.state.actor →
      Scheduler.lower (Scheduler.declareState s.state.actor) skipFill = .ok p →
      wp buildDesign (fun _ u => Q u.state) (fun _ _ => True) ⟨{ s.state with
        actor := Scheduler.declareState s.state.actor, scheduler := some p }, journal⟩) :
    Q t.state := by
  -- Each pass goes on from what the one before it has left.
  obtain ⟨ran, hruns⟩ := runs_all h
  obtain ⟨t₁, s₁, _, hchecks, hs₁, hruns⟩ := runs_cons hruns
  obtain ⟨ht₁, hchecked⟩ := of_wp_ok wp_run_checkActor_first hchecks
  have hstart : s₁.state = s.state := hs₁.trans ht₁
  obtain ⟨t₂, s₂, _, hlowers, hs₂, hruns⟩ := runs_cons hruns
  obtain ⟨skipFill, p, hlower, ht₂⟩ := of_wp_ok
    (wp_run_lowerActor_settings host (hstart ▸ hchecked.valid) (hstart ▸ hscheduler)) hlowers
  rw [hstart] at hlower ht₂
  obtain ⟨state, journal⟩ := s₂
  obtain rfl : state = _ := hs₂.trans ht₂
  obtain ⟨t₃, s₃, _, hbuilds, hs₃, hruns⟩ := runs_cons hruns
  have hbuilt := of_wp_ok (wp_run_buildDesign rfl (by rw [htasks]; rfl)
    (hbuild skipFill p journal hchecked.valid hlower)) hbuilds
  obtain ⟨t₄, s₄, _, hlooks, hs₄, hruns⟩ := runs_cons hruns
  have hsame : t.state = t₃.state := by
    cases hruns
    exact (hs₄.trans (of_wp_ok wp_run_looks hlooks)).trans hs₃
  exact hsame ▸ hbuilt

end DataflowSynth.Pass
