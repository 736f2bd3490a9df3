/-
The cycles through a node.

Exploring a graph from a node finds exactly what the node leads to: everything that is found is led to,
and what has been seen leads only to what has been seen or is still waiting.  Done forwards and backwards
this gives the nodes that share a cycle with the node.
-/
import DataflowSynth.Proofs.Digraph.Sorting

namespace DataflowSynth.Digraph

open Relation

variable {n : Nat} {g : Digraph n} {next : Fin n → List (Fin n)} {v w : Fin n}
  {stack seen : List (Fin n)}

/-- What has been seen leads to what has been seen or waits. -/
def Frontier (next : Fin n → List (Fin n)) (stack seen : List (Fin n)) : Prop :=
  ∀ v ∈ seen, ∀ w ∈ next v, w ∈ seen ∨ w ∈ stack

theorem Frontier.pop (h : Frontier next (v :: stack) seen) (hv : v ∈ seen) :
    Frontier next stack seen := by
  intro u hu w hw
  rcases h u hu w hw with hseen | hstack
  · exact .inl hseen
  · rcases List.mem_cons.mp hstack with rfl | hstack
    · exact .inl hv
    · exact .inr hstack

theorem Frontier.push (h : Frontier next (v :: stack) seen) :
    Frontier next (next v ++ stack) (v :: seen) := by
  intro u hu w hw
  rw [List.mem_cons, List.mem_append]
  rcases List.mem_cons.mp hu with rfl | hu
  · exact .inr (.inl hw)
  · rcases h u hu w hw with hseen | hstack
    · exact .inl (.inr hseen)
    · rcases List.mem_cons.mp hstack with rfl | hstack
      · exact .inl (.inl rfl)
      · exact .inr (.inr hstack)

/-- What is found was seen before or is led to from the stack. -/
theorem explore_sound (h : w ∈ explore next stack seen) :
    w ∈ seen ∨ ∃ v ∈ stack, ReflTransGen (fun v w => w ∈ next v) v w := by
  induction stack, seen using explore.induct next with
  | case1 seen =>
      rw [explore] at h
      exact .inl h
  | case2 seen v stack hv ih =>
      rw [explore, if_pos hv] at h
      exact (ih h).imp_right fun ⟨u, hu, hpath⟩ => ⟨u, List.mem_cons_of_mem v hu, hpath⟩
  | case3 seen v stack hv ih =>
      rw [explore, if_neg hv] at h
      rcases ih h with hseen | ⟨u, hu, hpath⟩
      · rcases List.mem_cons.mp hseen with rfl | hseen
        · exact .inr ⟨w, List.mem_cons_self, .refl⟩
        · exact .inl hseen
      · rcases List.mem_append.mp hu with hnext | hu
        · exact .inr ⟨v, List.mem_cons_self, .head hnext hpath⟩
        · exact .inr ⟨u, List.mem_cons_of_mem v hu, hpath⟩

/-- Everything on the stack is found, and everything that it leads to. -/
theorem explore_complete (h : Frontier next stack seen) :
    (∀ v ∈ seen, v ∈ explore next stack seen) ∧ (∀ v ∈ stack, v ∈ explore next stack seen) ∧
      ∀ v ∈ explore next stack seen, ∀ w ∈ next v, w ∈ explore next stack seen := by
  induction stack, seen using explore.induct next with
  | case1 seen =>
      rw [explore]
      exact ⟨fun _ hv => hv, by simp, fun v hv w hw =>
        (h v hv w hw).resolve_right List.not_mem_nil⟩
  | case2 seen v stack hv ih =>
      rw [explore, if_pos hv]
      obtain ⟨hseen, hstack, hclosed⟩ := ih (h.pop hv)
      exact ⟨hseen, List.forall_mem_cons.mpr ⟨hseen v hv, hstack⟩, hclosed⟩
  | case3 seen v stack hv ih =>
      rw [explore, if_neg hv]
      obtain ⟨hseen, hstack, hclosed⟩ := ih h.push
      obtain ⟨hfirst, hseen⟩ := List.forall_mem_cons.mp hseen
      exact ⟨hseen, List.forall_mem_cons.mpr
        ⟨hfirst, fun u hu => hstack u (List.mem_append_right _ hu)⟩, hclosed⟩

theorem mem_explore : w ∈ explore next [v] [] ↔ ReflTransGen (fun v w => w ∈ next v) v w := by
  constructor
  · intro h
    simpa using explore_sound h
  · intro h
    have hstart : Frontier next [v] [] := fun _ hu => absurd hu List.not_mem_nil
    obtain ⟨-, hstack, hclosed⟩ := explore_complete hstart
    induction h with
    | refl => exact hstack v List.mem_cons_self
    | tail _ hstep ih => exact hclosed _ ih _ hstep

/-- A node is on a common cycle with `v`, or is `v`, if each leads to the other. -/
theorem mem_cycleOf : w ∈ g.cycleOf v ↔
    ReflTransGen g.Edge v w ∧ ReflTransGen g.Edge w v := by
  have hback : ReflTransGen (fun v w => w ∈ g.predecessors v) v w ↔ ReflTransGen g.Edge w v := by
    simp only [mem_predecessors]
    exact reflTransGen_swap
  simp only [cycleOf, List.mem_filter, List.mem_finRange, true_and, decide_eq_true_eq, mem_explore,
    mem_successors, hback]

theorem nodup_cycleOf (g : Digraph n) (v : Fin n) : (g.cycleOf v).Nodup :=
  (List.nodup_finRange n).filter _

end DataflowSynth.Digraph
