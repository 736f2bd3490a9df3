/-
What a job sends.

A text goes into the journal as far as it arrives.  Whether the sender is told that some of it was lost is
up to the host, and the job itself stays as it is in any case.
-/
import DataflowSynth.Job
import DataflowSynth.Proofs.Build.Moves

namespace DataflowSynth

open Build

namespace Host

/-- A host where no file can be created. -/
def closed : Host where
  canCreate _ := false

/-- A host whose standard output nobody reads. -/
def unread : Host where
  canCreate _ := true
  loss? _ target _ :=
    if target = .stdout then some ⟨0, some "Broken pipe (os error 32)"⟩ else none

/-- What a host lets through is the front of what is written, and all of it where nothing is lost. -/
theorem wp_write {σ : Type} (host : Host) (target : Destination) (text : String) {s : Traced σ}
    {F : Failure → Traced σ → Prop} :
    wp (host.write target text) (fun reason t => ∃ shown : String, shown.toList <+: text.toList ∧
      t = { s with journal := s.journal.push (.write target shown) } ∧
      (target.unlessNull.bind (host.loss? s.journal · text) = none → reason = none ∧ shown = text)) F
      s := by
  unfold Host.write
  rw [wp_bind, wp_said]
  split
  · exact ⟨text, List.prefix_refl _, rfl, fun _ => ⟨rfl, rfl⟩⟩
  · next loss hloss =>
    refine ⟨.ofList (text.toList.take loss.arrived), ?_, rfl, fun hnone => ?_⟩
    · rw [String.toList_ofList]
      exact List.take_prefix _ _
    · rw [hnone] at hloss
      cases hloss

end Host

namespace Job

variable {host : Host} {target : Destination} {text : String} {s : Traced Job}

theorem wp_create : wp (create host target) (fun _ t => t = s)
    (fun f t => t = s ∧ f = .error .missingFile ∧ ∃ path, target = .file path) s := by
  cases target with
  | file path =>
      rw [create]
      cases host.canCreate path with
      | true => rfl
      | false => exact ⟨rfl, rfl, path, rfl⟩
  | null | stdout | stderr => rfl

/-- A text is sent, unless its file cannot be created or the host says that some of it was lost. -/
theorem wp_send : wp (send host target text) (fun _ t => t.state = s.state)
    (fun f t => t.state = s.state ∧ (f = .error .missingFile ∧ (∃ path, target = .file path) ∨
      ∃ reason, f = .error (.refused (.unsent reason)))) s := by
  rw [send, wp_bind]
  refine wp_mono wp_create (fun _ t ht => ?_) fun f t hf => ⟨by rw [hf.1], .inl hf.2⟩
  subst ht
  rw [wp_bind]
  refine wp_mono (host.wp_write target text) (fun reason u hu => ?_) fun _ _ h => h
  obtain ⟨shown, -, rfl, -⟩ := hu
  cases reason with
  | none => rfl
  | some reason => exact ⟨rfl, .inr ⟨reason, rfl⟩⟩

/-- Sending a text does not change the job. -/
theorem keeps_send : Keeps id (send host target text) := fun _ =>
  wp_mono wp_send (fun _ _ h => h) fun _ _ h => h.1

end Job

end DataflowSynth
