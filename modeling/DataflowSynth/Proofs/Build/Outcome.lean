/-
What steps lead to.

`wp x Q F s` says that the step `x`, taken in `s`, ends with a result and a state that satisfy `Q`, or
fails and leaves a state that satisfies `F`.  The equations below take a step apart into the steps it
is made of; a loop is covered by an invariant.
-/
import DataflowSynth.Build

namespace DataflowSynth.Build

variable {σ τ α β : Type}

/-- The step ends in `Q`, or fails in `F`. -/
def wp (x : Build σ α) (Q : α → Traced σ → Prop) (F : Failure → Traced σ → Prop) (s : Traced σ) :
    Prop :=
  match x s with
  | .ok a t => Q a t
  | .error e t => F e t

variable {Q : α → Traced σ → Prop} {F : Failure → Traced σ → Prop} {s : Traced σ}

theorem wp_mono {Q' : α → Traced σ → Prop} {F' : Failure → Traced σ → Prop} {x : Build σ α}
    (h : wp x Q F s) (hQ : ∀ a t, Q a t → Q' a t) (hF : ∀ e t, F e t → F' e t) :
    wp x Q' F' s := by
  unfold wp at h ⊢
  split at h
  · exact hQ _ _ h
  · exact hF _ _ h

theorem wp_and {Q' : α → Traced σ → Prop} {F' : Failure → Traced σ → Prop} {x : Build σ α}
    (h : wp x Q F s) (h' : wp x Q' F' s) :
    wp x (fun a t => Q a t ∧ Q' a t) (fun e t => F e t ∧ F' e t) s := by
  unfold wp at h h' ⊢
  cases hx : x s <;> rw [hx] at h h' <;> exact ⟨h, h'⟩

/-- A step that goes well if `P` holds, and only then, tells whether `P` holds. -/
theorem wp_iff {P : Prop} {x : Build σ α} (hok : P → wp x Q (fun _ _ => False) s)
    (hneeds : wp x (fun _ _ => P) (fun _ _ => True) s) :
    wp x (fun a t => Q a t ∧ P) (fun _ _ => ¬ P) s := by
  by_cases hP : P
  · exact wp_mono (hok hP) (fun _ _ h => ⟨h, hP⟩) fun _ _ h => h.elim
  · exact wp_mono hneeds (fun _ _ h => absurd h hP) fun _ _ _ => hP

theorem wp_of_forall {x : Build σ α} (hQ : ∀ a t, Q a t) (hF : ∀ e t, F e t) : wp x Q F s := by
  unfold wp
  split
  · exact hQ _ _
  · exact hF _ _

/-- Whatever a step leads to, it was this step that led there. -/
theorem wp_run {x : Build σ α} : wp x (fun a t => x s = .ok a t) (fun f t => x s = .error f t) s := by
  unfold wp
  split
  · assumption
  · assumption

/-- A step that went well has done what it is known to do. -/
theorem of_wp_ok {x : Build σ α} (h : wp x Q F s) {a : α} {t : Traced σ} (hx : x s = .ok a t) :
    Q a t := by
  rw [wp, hx] at h
  exact h

theorem of_wp_error {x : Build σ α} (h : wp x Q F s) {f : Failure} {t : Traced σ}
    (hx : x s = .error f t) : F f t := by
  rw [wp, hx] at h
  exact h

/-- A step that cannot fail ends well. -/
theorem exists_of_wp {x : Build σ α} (h : wp x Q (fun _ _ => False) s) :
    ∃ a t, x s = .ok a t ∧ Q a t := by
  unfold wp at h
  cases hx : x s with
  | ok a t =>
      rw [hx] at h
      exact ⟨a, t, rfl, h⟩
  | error e t =>
      rw [hx] at h
      exact h.elim

theorem exists_run_of_wp {P : Except Failure α → Traced σ → Prop} {x : Build σ α}
    (h : wp x (fun a t => P (.ok a) t) (fun f t => P (.error f) t) s) :
    ∃ out t, x.run s = (out, t) ∧ P out t := by
  unfold wp at h
  unfold Build.run
  cases hx : x s <;> rw [hx] at h <;> exact ⟨_, _, rfl, h⟩

/-- A step that goes well exactly if `P` holds. -/
theorem ok_or_error_of_wp {P : Prop} {E : Failure → Prop} {x : Build σ α}
    (h : wp x (fun _ _ => P) (fun e _ => ¬ P ∧ E e) s) :
    (P → ∃ a t, x s = .ok a t) ∧ (¬ P → ∃ e t, x s = .error e t ∧ E e) := by
  unfold wp at h
  cases hx : x s with
  | ok a t =>
      rw [hx] at h
      exact ⟨fun _ => ⟨a, t, rfl⟩, fun hnot => absurd h hnot⟩
  | error e t =>
      rw [hx] at h
      exact ⟨fun hP => absurd hP h.1, fun _ => ⟨e, t, rfl, h.2⟩⟩

/-! ### Single steps -/

@[simp] theorem wp_pure (a : α) : wp (pure a) Q F s ↔ Q a s := Iff.rfl

@[simp] theorem wp_bind {x : Build σ β} {f : β → Build σ α} :
    wp (x >>= f) Q F s ↔ wp x (fun b t => wp (f b) Q F t) F s := by
  unfold wp
  rw [bind_apply]
  cases x s <;> rfl

@[simp] theorem wp_look (f : σ → α) : wp (look f) Q F s ↔ Q (f s.state) s := Iff.rfl

@[simp] theorem wp_said {Q : Journal → Traced σ → Prop} : wp said Q F s ↔ Q s.journal s := Iff.rfl

@[simp] theorem wp_change {Q : Unit → Traced σ → Prop} (f : σ → σ) :
    wp (change f) Q F s ↔ Q () { s with state := f s.state } := Iff.rfl

@[simp] theorem wp_note {Q : Unit → Traced σ → Prop} (e : Event) :
    wp (note e) Q F s ↔ Q () { s with journal := s.journal.push e } := Iff.rfl

@[simp] theorem wp_log {Q : Unit → Traced σ → Prop} (level : Level) (source : Source)
    (message : String) :
    wp (log level source message) Q F s ↔
      Q () { s with journal := s.journal.push (.record ⟨level, source, message⟩) } := Iff.rfl

@[simp] theorem wp_fail (e : Error) : wp (fail e : Build σ α) Q F s ↔ F (.error e) s := Iff.rfl

@[simp] theorem wp_abort (a : Abort) : wp (abort a : Build σ α) Q F s ↔ F (.abort a) s := Iff.rfl

@[simp] theorem wp_expect_some (a : Abort) (x : α) : wp (expect a (some x)) Q F s ↔ Q x s := Iff.rfl

@[simp] theorem wp_expect_none (a : Abort) :
    wp (expect a (none : Option α)) Q F s ↔ F (.abort a) s := Iff.rfl

/-- A value that has to be there is there, or the step is aborted. -/
theorem wp_expect {a : Abort} {o : Option α} (hsome : ∀ x, o = some x → Q x s)
    (hnone : F (.abort a) s) : wp (expect a o) Q F s := by
  cases o with
  | none => exact hnone
  | some x => exact hsome x rfl

@[simp] theorem wp_discard {Q : Unit → Traced σ → Prop} {x : Build σ α} :
    wp (discard x) Q F s ↔ wp x (fun _ t => Q () t) F s := by
  show wp (Functor.mapConst () x) Q F s ↔ _
  rw [map_const, Function.comp_apply, ← bind_pure_comp, wp_bind]
  rfl

/-- A step on a part of the state. -/
theorem wp_within {Q : α → Traced σ → Prop} {F : Failure → Traced σ → Prop} {s : Traced σ}
    {get : σ → τ} {put : τ → σ → σ} {x : Build τ α} :
    wp (within get put x) Q F s ↔
      wp x (fun a t => Q a ⟨put t.state s.state, t.journal⟩)
        (fun e t => F e ⟨put t.state s.state, t.journal⟩) ⟨get s.state, s.journal⟩ := by
  unfold wp within
  cases x ⟨get s.state, s.journal⟩ <;> rfl

/-! ### Loops -/

section

variable {xs : List α} {I : Traced σ → Prop}

theorem wp_forM_cons {Q : Unit → Traced σ → Prop} {f : α → Build σ Unit} {x : α} :
    wp ((x :: xs).forM f) Q F s ↔ wp (f x) (fun _ t => wp (xs.forM f) Q F t) F s := by
  show wp (f x >>= fun _ => xs.forM f) Q F s ↔ _
  rw [wp_bind]

theorem wp_forM {f : α → Build σ Unit} (hs : I s)
    (hf : ∀ x ∈ xs, ∀ t, I t → wp (f x) (fun _ => I) F t) :
    wp (xs.forM f) (fun _ => I) F s := by
  induction xs generalizing s with
  | nil => exact hs
  | cons x xs ih =>
      rw [wp_forM_cons]
      refine wp_mono (hf x (by simp) s hs) (fun _ t ht => ?_) fun _ _ h => h
      exact ih ht fun y hy => hf y (by simp [hy])

/-- A loop whose invariant tells how far it has come. -/
theorem wp_forM_along {f : α → Build σ Unit} {I : List α → Traced σ → Prop} (hs : I [] s)
    (hf : ∀ pre x post, xs = pre ++ x :: post → ∀ t, I pre t →
      wp (f x) (fun _ => I (pre ++ [x])) F t) : wp (xs.forM f) (fun _ => I xs) F s := by
  induction xs generalizing s I with
  | nil => exact hs
  | cons x xs ih =>
      rw [wp_forM_cons]
      refine wp_mono (hf [] x xs rfl s hs) (fun _ t ht => ?_) fun _ _ h => h
      exact ih (I := fun pre => I (x :: pre)) ht fun pre y post heq =>
        hf (x :: pre) y post (by rw [heq, List.cons_append])

/-- A loop establishes something about each element on its way. -/
theorem wp_forM_each {R : α → Prop} {f : α → Build σ Unit} (hs : I s)
    (hf : ∀ x ∈ xs, ∀ t, I t → wp (f x) (fun _ t => I t ∧ R x) F t) :
    wp (xs.forM f) (fun _ t => I t ∧ ∀ x ∈ xs, R x) F s := by
  induction xs generalizing s with
  | nil => exact ⟨hs, by simp⟩
  | cons x xs ih =>
      rw [wp_forM_cons]
      refine wp_mono (hf x (by simp) s hs) (fun _ t ⟨ht, hx⟩ => ?_) fun _ _ h => h
      refine wp_mono (ih ht fun y hy => hf y (by simp [hy])) (fun _ u ⟨hu, hxs⟩ => ?_) fun _ _ h => h
      exact ⟨hu, List.forall_mem_cons.mpr ⟨hx, hxs⟩⟩

/-- A loop that only looks at the state goes through all of the list, or fails somewhere. -/
theorem wp_forM_reads {R : α → Prop} {f : α → Build σ Unit}
    (hf : ∀ x ∈ xs, wp (f x) (fun _ t => t = s ∧ R x) F s) :
    wp (xs.forM f) (fun _ t => t = s ∧ ∀ x ∈ xs, R x) F s := by
  induction xs with
  | nil => exact ⟨rfl, by simp⟩
  | cons x xs ih =>
      rw [wp_forM_cons]
      refine wp_mono (hf x (by simp)) (fun _ t ht => ?_) fun _ _ h => h
      obtain ⟨rfl, hx⟩ := ht
      refine wp_mono (ih fun y hy => hf y (by simp [hy])) (fun _ u hu => ?_) fun _ _ h => h
      exact ⟨hu.1, List.forall_mem_cons.mpr ⟨hx, hu.2⟩⟩

theorem wp_foldlM {I : β → Traced σ → Prop} {f : β → α → Build σ β} {b : β} (hs : I b s)
    (hf : ∀ x ∈ xs, ∀ b t, I b t → wp (f b x) I F t) : wp (xs.foldlM f b) I F s := by
  induction xs generalizing s b with
  | nil => exact hs
  | cons x xs ih =>
      rw [List.foldlM_cons, wp_bind]
      refine wp_mono (hf x (by simp) b s hs) (fun c t ht => ?_) fun _ _ h => h
      exact ih ht fun y hy => hf y (by simp [hy])

theorem wp_foldlM_each {R : α → Prop} {I : β → Traced σ → Prop} {f : β → α → Build σ β} {b : β}
    (hs : I b s) (hf : ∀ x ∈ xs, ∀ b t, I b t → wp (f b x) (fun c u => I c u ∧ R x) F t) :
    wp (xs.foldlM f b) (fun c t => I c t ∧ ∀ x ∈ xs, R x) F s := by
  induction xs generalizing s b with
  | nil => exact ⟨hs, by simp⟩
  | cons x xs ih =>
      rw [List.foldlM_cons, wp_bind]
      refine wp_mono (hf x (by simp) b s hs) (fun c t ⟨ht, hx⟩ => ?_) fun _ _ h => h
      refine wp_mono (ih ht fun y hy => hf y (by simp [hy])) (fun _ u ⟨hu, hxs⟩ => ?_) fun _ _ h => h
      exact ⟨hu, List.forall_mem_cons.mpr ⟨hx, hxs⟩⟩

/-- The results of a loop satisfy what each of them was given with. -/
theorem wp_mapM {I : List β → Traced σ → Prop} {f : α → Build σ β} (hs : I [] s)
    (hf : ∀ x ∈ xs, ∀ ys t, I ys t → wp (f x) (fun y => I (ys ++ [y])) F t) :
    wp (xs.mapM f) I F s := by
  suffices h : ∀ ys, I ys s → wp (xs.mapM f) (fun zs => I (ys ++ zs)) F s by
    simpa using h [] hs
  clear hs
  induction xs generalizing s with
  | nil => intro ys hys; simpa using hys
  | cons x xs ih =>
      intro ys hys
      rw [List.mapM_cons]
      simp only [wp_bind, wp_pure]
      refine wp_mono (hf x (by simp) ys s hys) (fun y t ht => ?_) fun _ _ h => h
      refine wp_mono (ih (fun z hz => hf z (by simp [hz])) _ ht) (fun zs u hu => ?_) fun _ _ h => h
      simpa using hu

/-- A loop that only looks at the state gives a result for each element, and no others. -/
theorem wp_mapM_reads {R : α → β → Prop} {f : α → Build σ β}
    (hf : ∀ x ∈ xs, wp (f x) (fun y t => t = s ∧ R x y) F s) :
    wp (xs.mapM f) (fun ys t => t = s ∧ (∀ y ∈ ys, ∃ x ∈ xs, R x y) ∧ ∀ x ∈ xs, ∃ y ∈ ys, R x y) F
      s := by
  induction xs with
  | nil => exact ⟨rfl, by simp, by simp⟩
  | cons x xs ih =>
      rw [List.mapM_cons]
      simp only [wp_bind, wp_pure]
      refine wp_mono (hf x (by simp)) (fun y t hy => ?_) fun _ _ h => h
      obtain ⟨rfl, hxy⟩ := hy
      refine wp_mono (ih fun z hz => hf z (by simp [hz])) (fun ys u hys => ?_) fun _ _ h => h
      obtain ⟨rfl, hfrom, hto⟩ := hys
      refine ⟨rfl, List.forall_mem_cons.mpr ⟨⟨x, by simp, hxy⟩, fun z hz => ?_⟩,
        List.forall_mem_cons.mpr ⟨⟨y, by simp, hxy⟩, fun z hz => ?_⟩⟩
      · obtain ⟨w, hw, hr⟩ := hfrom z hz
        exact ⟨w, by simp [hw], hr⟩
      · obtain ⟨w, hw, hr⟩ := hto z hz
        exact ⟨w, by simp [hw], hr⟩

/-- A list of results of looking at the state. -/
theorem wp_mapM_some {f : α → Build σ β} {g : α → Option β}
    (hf : ∀ x ∈ xs, ∃ y, g x = some y ∧ ∀ Q : β → Traced σ → Prop, wp (f x) Q F s ↔ Q y s) :
    wp (xs.mapM f) (fun ys t => t = s ∧ ys = xs.filterMap g) F s := by
  induction xs with
  | nil => exact ⟨rfl, rfl⟩
  | cons x xs ih =>
      obtain ⟨y, hy, hx⟩ := hf x (by simp)
      rw [List.mapM_cons, wp_bind, hx, wp_bind]
      refine wp_mono (ih fun z hz => hf z (by simp [hz])) (fun ys t ⟨ht, hys⟩ => ⟨ht, ?_⟩)
        fun _ _ h => h
      rw [List.filterMap_cons, hy, hys]

/-- A search that only looks at the state finds what is there. -/
theorem wp_anyM {Q : Bool → Traced σ → Prop} {f : α → Build σ Bool} {g : α → Bool}
    (hf : ∀ x ∈ xs, ∀ Q : Bool → Traced σ → Prop, wp (f x) Q F s ↔ Q (g x) s) :
    wp (xs.anyM f) Q F s ↔ Q (xs.any g) s := by
  induction xs with
  | nil => exact Iff.rfl
  | cons x xs ih =>
      rw [List.anyM, wp_bind, hf x (by simp), List.any_cons]
      cases hx : g x with
      | true => exact Iff.rfl
      | false => exact ih fun y hy => hf y (by simp [hy])

theorem wp_findM? {Q : Option α → Traced σ → Prop} {f : α → Build σ Bool} {g : α → Bool}
    (hf : ∀ x ∈ xs, ∀ Q : Bool → Traced σ → Prop, wp (f x) Q F s ↔ Q (g x) s) :
    wp (xs.findM? f) Q F s ↔ Q (xs.find? g) s := by
  induction xs with
  | nil => exact Iff.rfl
  | cons x xs ih =>
      rw [List.findM?, wp_bind, hf x (by simp), List.find?_cons]
      cases hx : g x with
      | true => exact Iff.rfl
      | false => exact ih fun y hy => hf y (by simp [hy])

/-- Choosing from a list by looking at the state, where it is known what the choice depends on. -/
theorem wp_filterM_eq {f : α → Build σ Bool} {g : α → Bool}
    (hf : ∀ x ∈ xs, wp (f x) (fun keep t => t = s ∧ keep = g x) F s) :
    wp (xs.filterM f) (fun ys t => t = s ∧ ys = xs.filter g) F s := by
  have haux : ∀ ys, wp (xs.filterAuxM f ys) (fun zs t => t = s ∧ zs = (xs.filter g).reverse ++ ys)
      F s := by
    induction xs with
    | nil => exact fun ys => ⟨rfl, rfl⟩
    | cons x xs ih =>
        intro ys
        show wp (f x >>= fun keep => xs.filterAuxM f (cond keep (x :: ys) ys)) _ F s
        rw [wp_bind]
        refine wp_mono (hf x (by simp)) (fun keep t ht => ?_) fun _ _ h => h
        obtain ⟨rfl, rfl⟩ := ht
        refine wp_mono (ih (fun y hy => hf y (by simp [hy])) _) (fun zs u hu => ⟨hu.1, ?_⟩)
          fun _ _ h => h
        rw [hu.2]
        cases hx : g x <;> simp [hx]
  show wp (xs.filterAuxM f [] >>= fun ys => pure ys.reverse) _ F s
  rw [wp_bind]
  exact wp_mono (haux []) (fun ys t ht => ⟨ht.1, by simp [ht.2]⟩) fun _ _ h => h

/-- Choosing from a list by looking at the state. -/
theorem wp_filterM {f : α → Build σ Bool} (hf : ∀ x ∈ xs, wp (f x) (fun _ t => t = s) F s) :
    wp (xs.filterM f) (fun ys t => t = s ∧ ∀ y ∈ ys, y ∈ xs) F s := by
  -- What is chosen depends on the state alone.
  let g : α → Bool := fun x => match f x s with
    | .ok keep _ => keep
    | .error _ _ => false
  refine wp_mono (wp_filterM_eq (g := g) fun x hx => ?_) (fun ys t ⟨ht, hys⟩ => ⟨ht, fun y hy => ?_⟩)
    fun _ _ h => h
  · have hx := hf x hx
    simp only [wp, g] at hx ⊢
    cases hfx : f x s <;> simpa [hfx] using hx
  · exact (List.mem_filter.mp (hys ▸ hy)).1

end

end DataflowSynth.Build
