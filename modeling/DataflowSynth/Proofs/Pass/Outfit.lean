/-
What the tasks of a design leave alone.

The pins and the registers of a design are made with its other resources, before its first task.
Building the tasks changes the netlist and the list of tasks, and nothing else.  So whatever is true of
the other parts of the design after the resources were added is true of the finished design.
-/
import DataflowSynth.Proofs.Pass.Result

namespace DataflowSynth.Pass

open Build Synthesis

variable {γ : Type} {g : Design → γ} (hg : ∀ n tasks d, g { d with netlist := n, tasks } = g d)
variable {s : Traced Job} {fifos : Interfaces} {F : Failure → Traced Job → Prop}

include hg

theorem shows_adds {d d' : Design} {name : String} {block : ComponentId} {t : TaskId}
    (h : Adds d name block t d') : g d' = g d := by
  obtain ⟨n, call, rfl⟩ := h.design
  exact hg _ _ _

theorem wp_buildAction_shows (h : Ready fifos s.state) (a : Actor.Action) :
    wp (buildAction fifos a) (fun _ t => g t.state.design = g s.state.design) F s := by
  obtain ⟨domain, hdomain⟩ := h.domain
  rw [buildAction, wp_bind, wp_look, wp_bind]
  refine wp_onDesign (wp_mono (wp_addActionTask (s := ⟨s.state.design, s.journal⟩) h.laid hdomain
    h.equipped a) ?_ fun _ _ h => h)
  rintro r t ⟨block, hadds, _⟩
  simp only [wp_bind, wp_change]
  exact wp_say fun _ => shows_adds hg hadds

theorem wp_buildActions_shows (h : Ready fifos s.state) (as : List Actor.Action) :
    wp (as.forM (buildAction fifos)) (fun _ t => (Ready fifos t.state ∧ terms t.state = terms s.state) ∧
      g t.state.design = g s.state.design) F s := by
  refine wp_forM (I := fun t => (Ready fifos t.state ∧ terms t.state = terms s.state) ∧
    g t.state.design = g s.state.design) ⟨⟨h, rfl⟩, rfl⟩ fun a _ t ⟨⟨ht, hterms⟩, hshows⟩ => ?_
  have hready : wp (buildAction fifos a)
      (fun _ u => Ready fifos u.state ∧ terms u.state = terms t.state) F t := by
    simpa using wp_buildActions ht [a]
  refine wp_mono (wp_and hready (wp_buildAction_shows hg ht a (F := F))) ?_ fun _ _ h => h.1
  exact fun _ u ⟨⟨hu, hsame⟩, hshows'⟩ => ⟨⟨hu, hsame.trans hterms⟩, hshows'.trans hshows⟩

/-- What the resources of an actor show, the design of the actor shows. -/
theorem wp_buildDesign_shows {R : γ → Prop} (hdesign : Bare s.state.design)
    (hvalid : Actor.Valid s.state.actor) {scheduler : Procedure}
    (hscheduler : s.state.scheduler = some scheduler) {skipFill : Bool}
    (hlower : Scheduler.lower s.state.actor skipFill = .ok scheduler)
    (hresources : wp (addResources s.state.clockDomain s.state.actor) (fun _ t => R (g t.state))
      (fun _ _ => True) ⟨s.state.design, s.journal⟩) :
    wp buildDesign (fun _ t => R (g t.state.design)) (fun _ _ => True) s := by
  rw [buildDesign, wp_bind, wp_look, wp_bind]
  refine wp_onDesign (wp_mono (wp_and hresources
    (wp_addResources_equipped (s := ⟨s.state.design, s.journal⟩) hdesign hvalid s.state.clockDomain))
    ?_ fun _ _ _ => trivial)
  rintro fifos t ⟨hshown, hlaid, hequipped, hdomain, _⟩
  have hready : Ready fifos { s.state with design := t.state } := ⟨hlaid, hequipped, hdomain⟩
  rw [wp_bind]
  refine wp_mono (wp_buildActions_shows hg (s := ⟨_, _⟩) hready _) ?_ fun _ _ h => h
  rintro _ u ⟨⟨hu, hterms⟩, hshows⟩
  obtain ⟨hports, -, hclock, -⟩ : u.state.actor.ports = s.state.actor.ports ∧ _ ∧
      u.state.clockDomain = s.state.clockDomain ∧ _ := by simpa [terms] using hterms
  obtain ⟨domain, hdomain⟩ := hu.domain
  rw [hclock] at hdomain
  have hsampled : ∀ p ∈ (s.state.scheduler.map sampledPorts).getD [],
      ∃ h f, fifos.find? p = some h ∧ u.state.design.fifos.get? h = some f := by
    rw [hscheduler]
    intro p hp
    obtain ⟨q, hq, rfl⟩ := exists_port_of_mem_sampledPorts hlower p hp
    exact hu.interface (hports.symm ▸ hq)
  simp only [wp_bind]
  refine wp_onDesign (wp_mono (wp_addSchedulerTask (s := ⟨u.state.design, u.journal⟩) hu.laid hdomain
    hsampled) ?_ fun _ _ h => h)
  rintro _ v ⟨block, hv, _⟩
  simp only [wp_look]
  refine wp_say fun _ => ?_
  show R (g v.state)
  rw [shows_adds hg hv]
  exact hshows ▸ hshown

/-- What the resources of the lowered actor show, the design shows that all passes build for it. -/
theorem wp_run_all_shows {R : γ → Prop} (host : Host) (h : Fresh s.state)
    (hresources : Actor.Valid s.state.actor → ∀ journal,
      wp (addResources s.state.clockDomain (Scheduler.declareState s.state.actor))
        (fun _ t => R (g t.state)) (fun _ _ => True) ⟨s.state.design, journal⟩) :
    wp (Registry.standard.run host { passes := ["all"] } false) (fun _ t => R (g t.state.design))
      (fun _ _ => True) s := by
  let lowered := Scheduler.declareState s.state.actor
  refine wp_run_all (I := fun j => j = s.state ∧ Checked s.state.actor)
    (J := fun j => ∃ p, Scheduler.lower lowered false = .ok p ∧ Actor.Valid s.state.actor ∧
      j = { s.state with actor := lowered, scheduler := some p })
    (K := fun j => R (g j.design) ∧ j.settings = []) (L := fun j => R (g j.design))
    wp_run_checkActor_first ?_ ?_ ?_
  · rintro ⟨_, journal⟩ ⟨rfl, hchecked⟩
    refine wp_run_lowerActor h.settings h.scheduler
      (wp_mono (wp_lowerActor (s := ⟨s.state, journal⟩) hchecked.valid false)
        (fun _ t ⟨p, hp, ht⟩ => ?_) fun _ _ h => h)
    exact ⟨p, hp, hchecked.valid, ht⟩
  · rintro ⟨_, journal⟩ ⟨p, hp, hvalid, rfl⟩
    refine wp_run_buildDesign rfl (by rw [h.tasks]; rfl) ?_
    refine wp_mono (wp_and (wp_buildDesign_shows hg (s := ⟨_, journal⟩) h.design
      (valid_declareState hvalid) rfl hp (hresources hvalid journal)) (keeps_buildDesign _))
      (fun _ u ⟨hu, hterms⟩ => ⟨hu, ?_⟩) fun _ _ _ => trivial
    exact (congrArg (fun x => x.2.2.2) hterms).trans h.settings
  · rintro t ⟨hshown, hsettings⟩
    refine wp_run_checkDesign hsettings (wp_mono (looks_checkDesign host).wp_again
      (fun _ u ⟨hu, _⟩ => ?_) fun _ _ _ => trivial)
    rw [hu]
    exact hshown

end DataflowSynth.Pass
