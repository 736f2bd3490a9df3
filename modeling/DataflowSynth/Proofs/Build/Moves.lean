/-
Steps that move along a relation.

A step moves along `R` when `R` leads from every state to the one where the step ends, unless it is
aborted.  Nothing is said about the state then, since the job ends with the step; an error, on the other
hand, leaves a state that is used on, and such a step gives none.  If `R` is a preorder, then steps are
put together without a thought for what their results are.
-/
import DataflowSynth.Proofs.Build.Outcome
import Mathlib.Order.Defs.Unbundled

namespace DataflowSynth

/-- What is promised of a state that a failure leaves behind. -/
def Failure.Unless (P : Prop) : Failure → Prop
  | .abort _ => True
  | .error _ => P

theorem Failure.Unless.mono {P P' : Prop} {f : Failure} (h : f.Unless P) (hP : P → P') :
    f.Unless P' := by
  cases f with
  | abort a => trivial
  | error e => exact hP h

namespace Build

variable {σ α β : Type} {R R' : σ → σ → Prop}

/-- Wherever the step leads, `R` leads there too. -/
def Moves (R : σ → σ → Prop) (x : Build σ α) : Prop :=
  ∀ s, wp x (fun _ t => R s.state t.state) (fun f _ => f.Unless False) s

namespace Moves

variable {x : Build σ α}

theorem mono (h : Moves R x) (hR : ∀ n n', R n n' → R' n n') : Moves R' x := by
  intro s
  exact wp_mono (h s) (fun _ t ht => hR _ _ ht) fun _ _ h => h

theorem abort (a : Abort) : Moves R (Build.abort a : Build σ α) := fun _ => trivial

theorem change {f : σ → σ} (hf : ∀ n, R n (f n)) : Moves R (Build.change f) := fun s => hf s.state

theorem discard (hx : Moves R x) : Moves R (discard x) := fun s => wp_discard.mpr (hx s)

theorem ite {c : Prop} [Decidable c] {y : Build σ α} (hx : Moves R x) (hy : Moves R y) :
    Moves R (if c then x else y) := by
  split
  · exact hx
  · exact hy

variable [IsPreorder σ R]

protected theorem pure (a : α) : Moves R (pure a : Build σ α) := fun s => refl_of R s.state

theorem look (f : σ → α) : Moves R (Build.look f) := fun s => refl_of R s.state

theorem expect (a : Abort) (o : Option α) : Moves R (Build.expect a o) := by
  cases o with
  | none => exact abort a
  | some x => exact .pure x

theorem bind {f : α → Build σ β} (hx : Moves R x) (hf : ∀ a, Moves R (f a)) :
    Moves R (x >>= f) := by
  intro s
  rw [wp_bind]
  refine wp_mono (hx s) (fun a t ht => ?_) fun _ _ h => h
  exact wp_mono (hf a t) (fun _ _ hu => trans_of R ht hu) fun _ _ h => h

/-! ### Loops -/

theorem forM {xs : List β} {f : β → Build σ Unit} (hf : ∀ b ∈ xs, Moves R (f b)) :
    Moves R (xs.forM f) := by
  induction xs with
  | nil => exact .pure ()
  | cons b xs ih =>
      refine .bind (hf b (by simp)) fun _ => ?_
      exact ih fun c hc => hf c (by simp [hc])

theorem mapM {xs : List β} {f : β → Build σ α} (hf : ∀ b ∈ xs, Moves R (f b)) :
    Moves R (xs.mapM f) := by
  induction xs with
  | nil => exact .pure []
  | cons b xs ih =>
      rw [List.mapM_cons]
      refine .bind (hf b (by simp)) fun a => .bind ?_ fun as => .pure (a :: as)
      exact ih fun c hc => hf c (by simp [hc])

theorem filterM {xs : List β} {f : β → Build σ Bool} (hf : ∀ b ∈ xs, Moves R (f b)) :
    Moves R (xs.filterM f) := by
  have haux : ∀ ys, Moves R (xs.filterAuxM f ys) := by
    induction xs with
    | nil => exact fun ys => .pure ys
    | cons b xs ih =>
        intro ys
        show Moves R (f b >>= fun keep => xs.filterAuxM f (cond keep (b :: ys) ys))
        refine .bind (hf b (by simp)) fun keep => ?_
        exact ih (fun c hc => hf c (by simp [hc])) _
  show Moves R (xs.filterAuxM f [] >>= fun ys => pure ys.reverse)
  exact .bind (haux []) fun ys => .pure ys.reverse

end Moves

/-- A loop settles something for each element, and what is settled stays so along `R`. -/
theorem wp_forM_settle [IsPreorder σ R] {xs : List α} {S : α → σ → Prop} {f : α → Build σ Unit}
    {F : Failure → Traced σ → Prop} {s : Traced σ}
    (hkeep : ∀ x ∈ xs, ∀ a b, R a b → S x a → S x b)
    (hf : ∀ x ∈ xs, ∀ t : Traced σ, R s.state t.state →
      wp (f x) (fun _ u => R t.state u.state ∧ S x u.state) F t) :
    wp (xs.forM f) (fun _ t => R s.state t.state ∧ ∀ x ∈ xs, S x t.state) F s := by
  induction xs generalizing s with
  | nil => exact ⟨refl_of R s.state, by simp⟩
  | cons x xs ih =>
      rw [wp_forM_cons]
      refine wp_mono (hf x (by simp) s (refl_of R s.state)) (fun _ t ⟨ht, hx⟩ => ?_) fun _ _ h => h
      refine wp_mono (ih (fun y hy => hkeep y (by simp [hy])) fun y hy u hu =>
        hf y (by simp [hy]) u (trans_of R ht hu)) (fun _ u ⟨hu, hxs⟩ => ?_) fun _ _ h => h
      refine ⟨trans_of R ht hu, List.forall_mem_cons.mpr ⟨?_, hxs⟩⟩
      exact hkeep x (by simp) _ _ hu hx

/-! ### Steps that leave something alone -/

section

variable {γ τ : Type} {g : σ → γ}

/-- What `g` shows of the state is the same after the step, even if it fails. -/
def Keeps (g : σ → γ) (x : Build σ α) : Prop :=
  ∀ s, wp x (fun _ t => g t.state = g s.state) (fun _ t => g t.state = g s.state) s

namespace Keeps

variable {x : Build σ α}

protected theorem pure (a : α) : Keeps g (pure a : Build σ α) := fun _ => rfl

theorem look (f : σ → α) : Keeps g (Build.look f) := fun _ => rfl

theorem fail (e : Error) : Keeps g (Build.fail e : Build σ α) := fun _ => rfl

theorem expect (a : Abort) (o : Option α) : Keeps g (Build.expect a o) := by
  cases o <;> exact fun _ => rfl

theorem change {f : σ → σ} (hf : ∀ d, g (f d) = g d) : Keeps g (Build.change f) :=
  fun s => hf s.state

/-- Where failures do not matter, all that is known after the step is what `g` shows. -/
theorem wp_anyway (hx : Keeps g x) {Q : α → Traced σ → Prop} {s : Traced σ}
    (hQ : ∀ a t, g t.state = g s.state → Q a t) : wp x Q (fun _ _ => True) s :=
  wp_mono (hx s) hQ fun _ _ _ => trivial

theorem discard (hx : Keeps g x) : Keeps g (discard x) := fun s => wp_discard.mpr (hx s)

theorem bind {f : α → Build σ β} (hx : Keeps g x) (hf : ∀ a, Keeps g (f a)) :
    Keeps g (x >>= f) := by
  intro s
  rw [wp_bind]
  refine wp_mono (hx s) (fun a t ht => ?_) fun _ _ h => h
  exact wp_mono (hf a t) (fun _ _ hu => hu.trans ht) fun _ _ hu => hu.trans ht

theorem foldlM {xs : List β} {f : α → β → Build σ α} (hf : ∀ a b, Keeps g (f a b)) (a : α) :
    Keeps g (xs.foldlM f a) := fun s =>
  wp_foldlM (I := fun _ t => g t.state = g s.state) rfl fun b _ a t ht =>
    wp_mono (hf a b t) (fun _ _ hu => hu.trans ht) fun _ _ hu => hu.trans ht

theorem forM {xs : List β} {f : β → Build σ Unit} (hf : ∀ b, Keeps g (f b)) :
    Keeps g (xs.forM f) := fun s =>
  wp_forM (I := fun t => g t.state = g s.state) rfl fun b _ t ht =>
    wp_mono (hf b t) (fun _ _ hu => hu.trans ht) fun _ _ hu => hu.trans ht

theorem mapM {xs : List β} {f : β → Build σ α} (hf : ∀ b, Keeps g (f b)) : Keeps g (xs.mapM f) :=
  fun s => wp_mapM (I := fun _ t => g t.state = g s.state) rfl fun b _ _ t ht =>
    wp_mono (hf b t) (fun _ _ hu => hu.trans ht) fun _ _ hu => hu.trans ht

/-- A step on a part of the state that `g` does not show. -/
theorem within {get : σ → τ} {put : τ → σ → σ} (hput : ∀ n d, g (put n d) = g d)
    (y : Build τ α) : Keeps g (Build.within get put y) := by
  intro s
  rw [wp_within]
  unfold wp
  split
  · exact hput _ _
  · exact hput _ _

end Keeps

end

end Build

end DataflowSynth
