/-
What the moves do to a plan.

A move `a:b` compares the first `a` with the first `b`.  If that `b` stands in front, the passes are split
at both of them, and what comes out are the same parts with `b` right behind `a`; otherwise nothing
happens.  The moves are carried out one after the other, each on what the one before has left, so only of
the last one it is certain that it still holds in the end.
-/
import DataflowSynth.Proofs.Pass.Plans

namespace DataflowSynth

open Build

namespace Registry

variable {a b : String} {excluded passes passes' front middle rest : List String}
  {move : String × String} {moves : List (String × String)}

/-! ### One move -/

/-- The first `b` stands before the first `a`, with `middle` between them. -/
structure Precedes (b a : String) (passes front middle rest : List String) : Prop where
  split : passes = front ++ b :: middle ++ a :: rest
  first_b : b ∉ front
  first_a : a ∉ front ++ b :: middle

theorem idxOf_first (h : a ∉ front) : (front ++ a :: rest).idxOf a = front.length := by
  rw [List.idxOf_append_of_notMem h, List.idxOf_cons_self, Nat.add_zero]

theorem Precedes.idxOf_b (h : Precedes b a passes front middle rest) :
    passes.idxOf b = front.length := by
  rw [h.split, List.append_assoc, List.cons_append]
  exact idxOf_first h.first_b

theorem Precedes.idxOf_a (h : Precedes b a passes front middle rest) :
    passes.idxOf a = front.length + middle.length + 1 := by
  rw [h.split, idxOf_first h.first_a, List.length_append, List.length_cons, Nat.add_assoc]

theorem Precedes.mem (h : Precedes b a passes front middle rest) : a ∈ passes ∧ b ∈ passes := by
  simp [h.split]

/-- The positions that are compared tell where the passes are to be split. -/
theorem exists_precedes (ha : a ∈ passes) (hlt : passes.idxOf b < passes.idxOf a) :
    ∃ front middle rest, Precedes b a passes front middle rest := by
  obtain ⟨before, rest, rfl, hfirst_a⟩ := List.eq_append_cons_of_mem ha
  rw [idxOf_first hfirst_a] at hlt
  have hb : b ∈ before := by
    by_contra hb
    rw [List.idxOf_append_of_notMem hb] at hlt
    omega
  obtain ⟨front, middle, rfl, hfirst_b⟩ := List.eq_append_cons_of_mem hb
  exact ⟨front, middle, rest, rfl, hfirst_b, hfirst_a⟩

theorem insertIdx_between (front rest : List String) (b : String) :
    (front ++ rest).insertIdx front.length b = front ++ b :: rest := by
  induction front with
  | nil => rfl
  | cons x front ih => exact congrArg (x :: ·) ih

theorem moveBehind_of_precedes (h : Precedes b a passes front middle rest) :
    moveBehind a b passes = front ++ middle ++ a :: b :: rest := by
  have hout : passes.eraseIdx front.length = front ++ middle ++ [a] ++ rest := by
    simp [h.split, List.eraseIdx_append_of_length_le]
  have hback : front.length + middle.length + 1 = (front ++ middle ++ [a]).length := by
    simp [Nat.add_assoc]
  simp only [moveBehind, h.idxOf_a, h.idxOf_b]
  rw [if_pos (by omega), hout, hback, insertIdx_between]
  simp

theorem moveBehind_of_not_precedes (ha : a ∈ passes)
    (h : ¬ ∃ front middle rest, Precedes b a passes front middle rest) :
    moveBehind a b passes = passes :=
  if_neg fun hlt => h (exists_precedes ha hlt)

/-- What a move `a:b` does, where `excluded` will not run. -/
inductive Moved (excluded : List String) : String × String → List String → List String → Prop where
  | behind {a b : String} {passes front middle rest : List String}
      (hbefore : Precedes b a passes front middle rest) (ha : a ∉ excluded) (hb : b ∉ excluded) :
      Moved excluded (a, b) passes (front ++ middle ++ a :: b :: rest)
  | unchanged {a b : String} {passes : List String}
      (hidle : (∃ front middle rest, Precedes b a passes front middle rest) →
        a ∈ excluded ∨ b ∈ excluded) : Moved excluded (a, b) passes passes

theorem Moved.perm (h : Moved excluded move passes passes') : passes'.Perm passes := by
  cases h with
  | unchanged _ => exact .refl _
  | @behind a b _ front middle rest hbefore _ _ =>
      rw [hbefore.split, List.append_assoc, List.append_assoc]
      refine .append_left front ?_
      rw [List.cons_append]
      have hswap : (middle ++ a :: b :: rest).Perm (middle ++ b :: a :: rest) :=
        .append_left middle (.swap b a rest)
      exact hswap.trans List.perm_middle

/-- After a move that is not idle, `b` comes after `a`. -/
theorem Moved.idxOf_lt (h : Moved excluded (a, b) passes passes') (hnodup : passes.Nodup) (hne : a ≠ b)
    (ha : a ∈ passes) (hrun : a ∉ excluded ∧ b ∉ excluded) :
    passes'.idxOf a < passes'.idxOf b := by
  cases h with
  | unchanged hidle =>
      have hbefore : ¬ passes.idxOf b < passes.idxOf a := fun hlt =>
        (hidle (exists_precedes ha hlt)).elim hrun.1 hrun.2
      have hapart : passes.idxOf a ≠ passes.idxOf b := fun heq => hne ((List.idxOf_inj ha).mp heq)
      omega
  | @behind _ _ _ front middle rest hbefore _ _ =>
      have hback := (Moved.behind hbefore hrun.1 hrun.2).perm.nodup_iff.mpr hnodup
      obtain ⟨-, -, hapart⟩ := List.nodup_append.mp hback
      have hfirst_a : a ∉ front ++ middle := fun hmem => hapart a hmem a (by simp) rfl
      have hfirst_b : b ∉ front ++ middle ++ [a] := by
        rw [List.mem_append, List.mem_singleton]
        rintro (hmem | heq)
        · exact hapart b hmem b (by simp) rfl
        · exact hne heq.symm
      have hat_b : (front ++ middle ++ a :: b :: rest).idxOf b = (front ++ middle ++ [a]).length := by
        rw [← idxOf_first hfirst_b, List.append_assoc _ [a], List.singleton_append]
      rw [idxOf_first hfirst_a, hat_b, @List.length_append _ _ [a]]
      exact Nat.lt_succ_self _

/-! ### All of them -/

/-- What moves do, one after the other. -/
inductive Rearranged (excluded : List String) :
    List (String × String) → List String → List String → Prop where
  | nil (passes : List String) : Rearranged excluded [] passes passes
  | cons {move : String × String} {moves : List (String × String)}
      {passes passes' passes'' : List String} (hfirst : Moved excluded move passes passes')
      (hothers : Rearranged excluded moves passes' passes'') :
      Rearranged excluded (move :: moves) passes passes''

/-- The last move is made on passes that are still those of the beginning. -/
theorem Rearranged.last (h : Rearranged excluded (moves ++ [move]) passes passes') :
    ∃ before, before.Perm passes ∧ Moved excluded move before passes' := by
  induction moves generalizing passes with
  | nil =>
      obtain _ | ⟨hfirst, _ | _⟩ := h
      exact ⟨passes, .refl _, hfirst⟩
  | cons m moves ih =>
      obtain _ | ⟨hfirst, hothers⟩ := h
      obtain ⟨before, hbefore, hlast⟩ := ih hothers
      exact ⟨before, hbefore.trans hfirst.perm, hlast⟩

variable {σ : Type} {s : Traced σ} {F : Failure → Traced σ → Prop}

theorem wp_applyMove_moved (plan : Plan) (move : String × String) :
    wp (applyMove plan move) (fun plan' _ => plan'.excluded = plan.excluded ∧
      Moved plan.excluded move plan.passes plan'.passes) F s := by
  obtain ⟨a, b⟩ := move
  unfold applyMove
  dsimp only
  split
  · next hmissing =>
    refine ⟨rfl, .unchanged fun ⟨_, _, _, hbefore⟩ => ?_⟩
    simp [hbefore.mem] at hmissing
  · next hboth =>
    have ha : a ∈ plan.passes := by simp_all
    split
    · next name hname =>
      refine ⟨rfl, .unchanged fun _ => ?_⟩
      have hexcluded : name ∈ plan.excluded := by simpa using List.find?_some hname
      have hwhich : name = a ∨ name = b := by simpa using List.mem_of_find?_eq_some hname
      rcases hwhich with rfl | rfl
      · exact .inl hexcluded
      · exact .inr hexcluded
    · next hnone =>
      have hrun : a ∉ plan.excluded ∧ b ∉ plan.excluded := by simpa using hnone
      refine ⟨rfl, ?_⟩
      by_cases hbefore : ∃ front middle rest, Precedes b a plan.passes front middle rest
      · obtain ⟨front, middle, rest, hbefore⟩ := hbefore
        rw [moveBehind_of_precedes hbefore]
        exact .behind hbefore hrun.1 hrun.2
      · rw [moveBehind_of_not_precedes ha hbefore]
        exact .unchanged fun h => absurd h hbefore

theorem wp_applyMoves (moves : List (String × String)) (plan : Plan) :
    wp (moves.foldlM applyMove plan) (fun plan' _ => plan'.excluded = plan.excluded ∧
      Rearranged plan.excluded moves plan.passes plan'.passes) F s := by
  induction moves generalizing plan s with
  | nil => exact ⟨rfl, .nil _⟩
  | cons move moves ih =>
      rw [List.foldlM_cons, wp_bind]
      refine wp_mono (wp_applyMove_moved plan move) (fun next t hnext => ?_) fun _ _ h => h
      refine wp_mono (ih next) (fun last u hlast => ?_) fun _ _ h => h
      exact ⟨hlast.1.trans hnext.1, .cons hnext.2 (hnext.1 ▸ hlast.2)⟩

theorem wp_plan_rearranged (r : Registry) (q : Request) :
    wp (r.plan q) (fun plan _ => plan.excluded = r.expand q.disabled ∧
      Rearranged plan.excluded (q.moves.filterMap (cut ':')) (r.expand q.passes) plan.passes)
      (fun _ _ => True) s := by
  simp only [Registry.plan, wp_bind]
  refine wp_mono (wp_parseMoves (F := fun _ _ => True) q.moves) (fun pairs t ⟨_, hpairs⟩ => ?_)
    fun _ _ _ => trivial
  refine wp_checkKnown (fun _ => ?_) fun _ _ _ => trivial
  refine wp_checkKnown (fun _ => ?_) fun _ _ _ => trivial
  refine wp_mono (wp_applyMoves (F := fun _ _ => True) _ _) (fun plan u ⟨hexcluded, hmoves⟩ => ⟨hexcluded, ?_⟩)
    fun _ _ _ => trivial
  rw [hpairs, List.filterMap_map, Function.id_comp] at hmoves
  rwa [hexcluded]

/-- A plan is what is asked for, in the order that the moves bring it into: each puts `b` right behind `a`
if it stands before it and both will run, and leaves everything else where it is.  So if no pass runs
twice, what the last move asks for is the case. -/
theorem plan_rearranged {r : Registry} {q : Request} {t : Traced σ} {plan : Plan}
    (h : r.plan q s = .ok plan t) :
    plan.passes.Perm (r.expand q.passes) ∧ plan.excluded = r.expand q.disabled ∧
      Rearranged plan.excluded (q.moves.filterMap (cut ':')) (r.expand q.passes) plan.passes ∧
      ((r.expand q.passes).Nodup → ∀ a b, (q.moves.filterMap (cut ':')).getLast? = some (a, b) →
        a ≠ b → a ∈ plan.passes → b ∈ plan.passes → a ∉ plan.excluded → b ∉ plan.excluded →
        plan.passes.idxOf a < plan.passes.idxOf b) := by
  have hplan := wp_plan (r := r) (q := q) (s := s)
  have hmoves := wp_plan_rearranged (s := s) r q
  unfold wp at hplan hmoves
  rw [h] at hplan hmoves
  obtain ⟨-, hanswers, -⟩ := hplan
  obtain ⟨hexcluded, hchain⟩ := hmoves
  refine ⟨hanswers.passes, hexcluded, hchain, fun hnodup a b hlast hne ha _ hrun_a hrun_b => ?_⟩
  obtain ⟨earlier, hall⟩ := List.getLast?_eq_some_iff.mp hlast
  rw [hall] at hchain
  obtain ⟨before, hbefore, hmoved⟩ := hchain.last
  have hsame := hanswers.passes.trans hbefore.symm
  exact hmoved.idxOf_lt (hbefore.nodup_iff.mpr hnodup) hne (hsame.mem_iff.mp ha) ⟨hrun_a, hrun_b⟩

/-- A move back over two passes, and one that has nothing to do. -/
theorem plan_rearranged_standard :
    let q : Request :=
      { passes := ["all"], moves := ["design-actor:well-formed", "well-formed:design-check"] }
    ∃ plan : Plan, ∃ t, standard.plan q (⟨(), #[]⟩ : Traced Unit) = .ok plan t ∧
      plan.passes = ["action-scheduler", "design-actor", "well-formed", "design-check"] ∧
      plan.passes.Perm (standard.expand q.passes) ∧
      plan.passes.idxOf "well-formed" < plan.passes.idxOf "design-check" := by
  intro q
  have hplan : standard.plan q (⟨(), #[]⟩ : Traced Unit) =
      .ok ⟨["action-scheduler", "design-actor", "well-formed", "design-check"], []⟩ ⟨(), #[]⟩ := rfl
  obtain ⟨hperm, -, -, hlast⟩ := plan_rearranged hplan
  refine ⟨_, _, hplan, rfl, hperm, ?_⟩
  exact hlast (by decide) "well-formed" "design-check" (by decide) (by decide) (by decide) (by decide)
    (by decide) (by decide)

end Registry

end DataflowSynth
