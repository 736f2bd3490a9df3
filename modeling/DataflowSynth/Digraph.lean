/-
Directed graphs on numbered nodes, and sorting them so that every edge leads forward.

The sort goes through the graph in depth and lists a node when everything it leads to is listed;
read backwards, that list is the order.  The order is then checked: if some node has a predecessor
that does not stand before it, there is a cycle.  Which order is found, and which node of a cycle,
depends on the age of the edges, so the graph keeps its edges with the newest first.
-/

namespace DataflowSynth

/-- A directed graph on the nodes `0` to `n - 1`. -/
structure Digraph (n : Nat) where
  /-- The edges from source to target, the newest first. -/
  edges : List (Fin n × Fin n) := []

namespace Digraph

variable {n : Nat}

/-- Adds an edge unless it is there. -/
def addEdge (g : Digraph n) (e : Fin n × Fin n) : Digraph n :=
  if e ∈ g.edges then g else ⟨e :: g.edges⟩

/-- The nodes that `v` leads to, by the newest edge first. -/
def successors (g : Digraph n) (v : Fin n) : List (Fin n) :=
  (g.edges.filter (·.1 = v)).map Prod.snd

/-- The nodes that lead to `v`, by the newest edge first. -/
def predecessors (g : Digraph n) (v : Fin n) : List (Fin n) :=
  (g.edges.filter (·.2 = v)).map Prod.fst

/-! ### Walks -/

/-- How many nodes a walk has not met yet. -/
def unseen (seen : List (Fin n)) : Nat := ((List.finRange n).filter (· ∉ seen)).length

theorem unseen_cons_lt {v : Fin n} {seen : List (Fin n)} (h : v ∉ seen) :
    unseen (v :: seen) < unseen seen := by
  have hsub : (List.finRange n).filter (· ∉ v :: seen) =
      ((List.finRange n).filter (· ∉ seen)).filter (· ≠ v) := by
    rw [List.filter_filter]
    congr 1
    funext w
    by_cases hw : w = v <;> simp [hw]
  have hmem : v ∈ (List.finRange n).filter (· ∉ seen) := by simp [h]
  rw [unseen, unseen, hsub]
  exact List.length_filter_lt_length_iff_exists.2 ⟨v, hmem, by simp⟩

/-- The nodes that can be reached from `stack` by steps of `next`, together with `seen`. -/
def explore (next : Fin n → List (Fin n)) (stack seen : List (Fin n)) : List (Fin n) :=
  match stack with
  | [] => seen
  | v :: stack =>
    if v ∈ seen then explore next stack seen
    else explore next (next v ++ stack) (v :: seen)
termination_by (unseen seen, stack.length)
decreasing_by
  · exact Prod.Lex.right _ (Nat.lt_succ_self _)
  · exact Prod.Lex.left _ _ (unseen_cons_lt ‹_›)

/-- The nodes that lie on a common cycle with `v`, and `v` itself, in ascending order. -/
def cycleOf (g : Digraph n) (v : Fin n) : List (Fin n) :=
  let after := explore g.successors [v] []
  let before := explore g.predecessors [v] []
  (List.finRange n).filter fun w => w ∈ after ∧ w ∈ before

/-! ### Sorting -/

/-- Walks through the graph in depth.  A node comes to the front of `listed` when the walk is done
with everything it leads to.  A node that leads to itself ends the walk. -/
def walk (g : Digraph n) (stack seen listed : List (Fin n)) :
    Except (Fin n) (List (Fin n) × List (Fin n)) :=
  match stack with
  | [] => .ok (seen, listed)
  | v :: stack =>
    if v ∈ seen then walk g stack seen (if v ∈ listed then listed else v :: listed)
    else if v ∈ g.successors v then .error v
    else walk g (((g.successors v).filter (· ∉ v :: seen)).reverse ++ v :: stack) (v :: seen) listed
termination_by (unseen seen, stack.length)
decreasing_by
  · exact Prod.Lex.right _ (Nat.lt_succ_self _)
  · exact Prod.Lex.left _ _ (unseen_cons_lt ‹_›)

/-- Walks from `v` unless it has been met. -/
def visit (g : Digraph n) (s : List (Fin n) × List (Fin n)) (v : Fin n) :
    Except (Fin n) (List (Fin n) × List (Fin n)) :=
  if v ∈ s.1 then pure s else walk g [v] s.1 s.2

/-- All nodes, each before what it leads to if that can be done; or a node that leads to itself. -/
def candidate (g : Digraph n) : Except (Fin n) (List (Fin n)) := do
  let (_, listed) ← (List.finRange n).foldlM g.visit ([], [])
  return listed

/-- The predecessor that does not stand before its successor, for the first node that has one. -/
def misplaced? (g : Digraph n) : (order before : List (Fin n)) → Option (Fin n)
  | [], _ => none
  | v :: order, before =>
    match ((g.predecessors v).filter (· ∉ v :: before)).getLast? with
    | some u => some u
    | none => misplaced? g order (v :: before)

/-- All nodes in an order in which every edge leads forward, or a node on a cycle. -/
def sort (g : Digraph n) : Except (Fin n) (List (Fin n)) := do
  let order ← g.candidate
  match g.misplaced? order [] with
  | some u => .error u
  | none => .ok order

end Digraph

end DataflowSynth
