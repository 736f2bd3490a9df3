/-
Sorting finds an order exactly for the graphs without a cycle, and otherwise a node on a cycle.

An order that passes the check has every edge leading forward, so there is no cycle; for that it is
enough that the walk lists every node once.  The other way round needs more of the walk: a node that is
met but not yet listed leads to everything above it on the stack.  So what it leads to and is waiting
below it leads back to it, and when its turn comes all else that it leads to is listed.  An edge against
the order then is part of a cycle.
-/
import DataflowSynth.Digraph
import Mathlib.Data.List.FinRange
import Mathlib.Logic.Relation

namespace DataflowSynth.Digraph

open Relation

variable {n : Nat} {g : Digraph n} {u v w : Fin n} {stack seen listed order before : List (Fin n)}

/-- There is an edge from `u` to `v`. -/
def Edge (g : Digraph n) (u v : Fin n) : Prop := (u, v) ∈ g.edges

/-- No path leads from a node back to it. -/
def Acyclic (g : Digraph n) : Prop := ∀ v, ¬ TransGen g.Edge v v

@[simp] theorem mem_successors : w ∈ g.successors v ↔ g.Edge v w := by
  simp [successors, Edge]

@[simp] theorem mem_predecessors : u ∈ g.predecessors v ↔ g.Edge u v := by
  simp [predecessors, Edge]

@[simp] theorem edge_addEdge {e : Fin n × Fin n} :
    (g.addEdge e).Edge u v ↔ g.Edge u v ∨ (u, v) = e := by
  unfold addEdge Edge
  split
  · next he =>
      constructor
      · exact Or.inl
      · intro h
        rcases h with h | h
        · exact h
        · rw [h]
          exact he
  · rw [List.mem_cons, or_comm]

/-! ### Orders -/

/-- In an order that passes the check, the predecessors of a node stand before it or are the node
itself. -/
theorem misplaced?_eq_none : g.misplaced? order before = none ↔
    ∀ done v rest, order = done ++ v :: rest → ∀ u, g.Edge u v → u = v ∨ u ∈ done ∨ u ∈ before := by
  induction order generalizing before with
  | nil => simp [misplaced?]
  | cons w order ih =>
      have hhead : ((g.predecessors w).filter (· ∉ w :: before)).getLast? = none ↔
          ∀ u, g.Edge u w → u = w ∨ u ∈ before := by
        simp [or_iff_not_imp_left]
      have hstep : g.misplaced? (w :: order) before = none ↔
          ((g.predecessors w).filter (· ∉ w :: before)).getLast? = none ∧
            g.misplaced? order (w :: before) = none := by
        rw [misplaced?]
        cases ((g.predecessors w).filter (· ∉ w :: before)).getLast? <;> simp
      rw [hstep, hhead, ih]
      constructor
      · intro ⟨hw, hrest⟩ done v rest heq u hu
        cases done with
        | nil =>
            obtain ⟨rfl, -⟩ := List.cons.inj heq
            exact (hw u hu).imp_right .inr
        | cons a done =>
            obtain ⟨rfl, htail⟩ := List.cons.inj heq
            have := hrest done v rest htail u hu
            simp only [List.mem_cons] at this ⊢
            tauto
      · intro h
        refine ⟨fun u hu => by simpa using h [] w order rfl u hu, fun done v rest heq u hu => ?_⟩
        have := h (w :: done) v rest (by rw [heq, List.cons_append]) u hu
        simp only [List.mem_cons] at this ⊢
        tauto

/-- What is found is a predecessor of a node that it does not stand before. -/
theorem misplaced?_eq_some (h : g.misplaced? order before = some u) :
    ∃ done v rest, order = done ++ v :: rest ∧ g.Edge u v ∧ u ≠ v ∧ u ∉ done ∧ u ∉ before := by
  induction order generalizing before with
  | nil => cases h
  | cons w order ih =>
      rw [misplaced?] at h
      split at h
      · next hlast =>
        cases h
        have hmem := List.mem_of_getLast? hlast
        simp only [List.mem_filter, mem_predecessors, List.mem_cons, not_or, decide_eq_true_eq] at hmem
        exact ⟨[], w, order, rfl, hmem.1, hmem.2.1, List.not_mem_nil, hmem.2.2⟩
      · obtain ⟨done, v, rest, rfl, hedge, hne, hdone, hbefore⟩ := ih h
        rw [List.mem_cons, not_or] at hbefore
        refine ⟨w :: done, v, rest, rfl, hedge, hne, ?_, hbefore.2⟩
        exact List.not_mem_cons_of_ne_of_not_mem hbefore.1 hdone

/-- The order has every node once, and every edge leads forward in it. -/
structure Forward (g : Digraph n) (order : List (Fin n)) : Prop where
  nodup : order.Nodup
  complete : ∀ v, v ∈ order
  before : ∀ done v rest, order = done ++ v :: rest → ∀ u, g.Edge u v → u ∈ done

theorem Forward.idxOf_lt (h : g.Forward order) (he : g.Edge u v) :
    order.idxOf u < order.idxOf v := by
  obtain ⟨done, rest, heq⟩ := List.append_of_mem (h.complete v)
  have hu : u ∈ done := h.before done v rest heq u he
  have hv : v ∉ done := by
    have hnodup := h.nodup
    rw [heq, List.nodup_append] at hnodup
    exact fun hv => hnodup.2.2 v hv v (by simp) rfl
  rw [heq, List.idxOf_append_of_mem hu, List.idxOf_append_of_notMem hv]
  have := List.idxOf_lt_length_of_mem hu
  omega

theorem Forward.acyclic (h : g.Forward order) : g.Acyclic := by
  intro v hv
  have hlt : ∀ w, TransGen g.Edge v w → order.idxOf v < order.idxOf w := by
    intro w hw
    induction hw with
    | single he => exact h.idxOf_lt he
    | tail _ he ih => exact ih.trans (h.idxOf_lt he)
  exact Nat.lt_irrefl _ (hlt v hv)

theorem Forward.sublist (h : g.Forward order) (he : g.Edge u v) : [u, v].Sublist order := by
  obtain ⟨done, rest, heq⟩ := List.append_of_mem (h.complete v)
  have hu := h.before done v rest heq u he
  rw [heq]
  exact (List.singleton_sublist.mpr hu).append (List.singleton_sublist.mpr List.mem_cons_self)

theorem Forward.perm (h : g.Forward order) : order.Perm (List.finRange n) :=
  (List.perm_ext_iff_of_nodup h.nodup (List.nodup_finRange n)).mpr fun v => by
    simp [h.complete v]

/-! ### What every walk keeps -/

/-- A walk lists what it has met, once; what it has met and not listed waits on the stack. -/
structure Walking (g : Digraph n) (stack seen listed : List (Fin n)) : Prop where
  nodup : listed.Nodup
  met : ∀ v ∈ listed, v ∈ seen
  waits : ∀ v ∈ seen, v ∉ listed → v ∈ stack
  noLoop : ∀ v ∈ seen, ¬ g.Edge v v

/-- Listing a node that may be listed already. -/
theorem mem_listing :
    u ∈ (if v ∈ listed then listed else v :: listed) ↔ u = v ∨ u ∈ listed := by
  split
  · next hv =>
      constructor
      · exact .inr
      · intro h
        rcases h with rfl | h
        · exact hv
        · exact h
  · exact List.mem_cons

theorem Walking.pop (h : Walking g (v :: stack) seen listed) (hv : v ∈ seen) :
    Walking g stack seen (if v ∈ listed then listed else v :: listed) where
  nodup := by
    split
    · exact h.nodup
    · next hl => exact List.nodup_cons.mpr ⟨hl, h.nodup⟩
  met u hu := by
    rcases mem_listing.mp hu with rfl | hu
    · exact hv
    · exact h.met u hu
  waits u hu hul := by
    rw [mem_listing, not_or] at hul
    exact List.mem_of_ne_of_mem hul.1 (h.waits u hu hul.2)
  noLoop := h.noLoop

theorem Walking.push (h : Walking g (v :: stack) seen listed) (hloop : ¬ g.Edge v v) :
    Walking g (((g.successors v).filter (· ∉ v :: seen)).reverse ++ v :: stack) (v :: seen)
      listed where
  nodup := h.nodup
  met u hu := List.mem_cons_of_mem v (h.met u hu)
  waits u hu hul := by
    rw [List.mem_append]
    rcases List.mem_cons.mp hu with rfl | hu
    · exact .inr List.mem_cons_self
    · exact .inr (h.waits u hu hul)
  noLoop := List.forall_mem_cons.mpr ⟨hloop, h.noLoop⟩

theorem walk_ok {seen' listed' : List (Fin n)} (h : Walking g stack seen listed)
    (hok : walk g stack seen listed = .ok (seen', listed')) :
    Walking g [] seen' listed' ∧ (∀ v ∈ seen, v ∈ seen') ∧ ∀ v ∈ stack, v ∈ seen' := by
  induction stack, seen, listed using walk.induct g with
  | case1 seen listed =>
      rw [walk] at hok
      cases hok
      exact ⟨h, fun _ hv => hv, by simp⟩
  | case2 seen listed v stack hv ih =>
      rw [walk, if_pos hv] at hok
      obtain ⟨hend, hseen, hstack⟩ := ih (h.pop hv) hok
      exact ⟨hend, hseen, List.forall_mem_cons.mpr ⟨hseen v hv, hstack⟩⟩
  | case3 seen listed v stack hv hloop =>
      rw [walk, if_neg hv, if_pos hloop] at hok
      cases hok
  | case4 seen listed v stack hv hloop ih =>
      rw [walk, if_neg hv, if_neg hloop] at hok
      obtain ⟨hend, hseen, hstack⟩ := ih (h.push (by simpa using hloop)) hok
      exact ⟨hend, fun u hu => hseen u (List.mem_cons_of_mem v hu), fun u hu =>
        hstack u (List.mem_append_right _ hu)⟩

/-! ### What lies on a cycle -/

/-- The part of the stack that will be dealt with before `v`. -/
def above (v : Fin n) (stack : List (Fin n)) : List (Fin n) := stack.takeWhile (· ≠ v)

theorem above_self : above v (v :: stack) = [] := by simp [above]

theorem above_cons (h : v ≠ u) : above u (v :: stack) = v :: above u stack := by
  simp [above, h]

theorem above_append {front : List (Fin n)} (h : u ∉ front) :
    above u (front ++ stack) = front ++ above u stack := by
  unfold above
  rw [List.takeWhile_append_of_pos]
  intro w hw
  simpa using fun heq : w = u => h (heq ▸ hw)

/-- A node that waits leads to everything above it.  What a listed node leads to is listed, and further
down the list, and what a waiting node leads to is listed or above it, unless there is a way back. -/
structure Descending (g : Digraph n) (stack seen listed : List (Fin n)) : Prop extends
    Walking g stack seen listed where
  closed : ∀ v ∈ listed, ∀ w, g.Edge v w → w ∈ listed ∨ TransGen g.Edge w v
  forward : listed.Pairwise fun u v => g.Edge v u → TransGen g.Edge u v
  reaches : ∀ v ∈ seen, v ∉ listed → ∀ w ∈ above v stack, TransGen g.Edge v w
  covered : ∀ v ∈ seen, v ∉ listed → ∀ w, g.Edge v w →
    w ∈ listed ∨ w ∈ above v stack ∨ TransGen g.Edge w v

theorem Descending.pop (h : Descending g (v :: stack) seen listed) (hv : v ∈ seen) :
    Descending g stack seen (if v ∈ listed then listed else v :: listed) where
  toWalking := h.toWalking.pop hv
  closed u hu w hw := by
    rw [mem_listing] at hu ⊢
    by_cases hul : u ∈ listed
    · exact (h.closed u hul w hw).imp_left .inr
    · -- The node is at the top, so nothing that it leads to is above it.
      obtain rfl : u = v := hu.resolve_right hul
      have hcovered := h.covered u hv hul w hw
      rw [above_self] at hcovered
      exact hcovered.imp .inr fun hback => hback.resolve_left List.not_mem_nil
  forward := by
    split
    · exact h.forward
    · next hl =>
        exact List.pairwise_cons.mpr ⟨fun u hu he => (h.closed u hu v he).resolve_left hl, h.forward⟩
  reaches u hu hul w hw := by
    rw [mem_listing, not_or] at hul
    refine h.reaches u hu hul.2 w ?_
    rw [above_cons (Ne.symm hul.1)]
    exact List.mem_cons_of_mem v hw
  covered u hu hul w hw := by
    rw [mem_listing, not_or] at hul
    have hcovered := h.covered u hu hul.2 w hw
    rw [above_cons (Ne.symm hul.1), List.mem_cons] at hcovered
    rw [mem_listing]
    tauto

theorem Descending.push (h : Descending g (v :: stack) seen listed) (hv : v ∉ seen)
    (hloop : ¬ g.Edge v v) :
    Descending g (((g.successors v).filter (· ∉ v :: seen)).reverse ++ v :: stack) (v :: seen)
      listed := by
  have hnext : ∀ w, w ∈ ((g.successors v).filter (· ∉ v :: seen)).reverse ↔
      g.Edge v w ∧ w ≠ v ∧ w ∉ seen := by
    simp
  have hself : above v (((g.successors v).filter (· ∉ v :: seen)).reverse ++ v :: stack) =
      ((g.successors v).filter (· ∉ v :: seen)).reverse := by
    rw [above_append (by simp), above_self, List.append_nil]
  have hother : ∀ u ∈ seen,
      above u (((g.successors v).filter (· ∉ v :: seen)).reverse ++ v :: stack) =
        ((g.successors v).filter (· ∉ v :: seen)).reverse ++ above u (v :: stack) := by
    intro u hu
    exact above_append fun hmem => ((hnext u).mp hmem).2.2 hu
  have htop : ∀ u ∈ seen, v ∈ above u (v :: stack) := by
    intro u hu
    rw [above_cons (fun heq : v = u => hv (heq ▸ hu))]
    exact List.mem_cons_self
  refine { toWalking := h.toWalking.push hloop, closed := h.closed, forward := h.forward,
           reaches := ?_, covered := ?_ }
  · intro u hu hul w hw
    rcases List.mem_cons.mp hu with rfl | hu
    · rw [hself, hnext] at hw
      exact .single hw.1
    · rw [hother u hu, List.mem_append, hnext] at hw
      rcases hw with hw | hw
      · exact (h.reaches u hu hul v (htop u hu)).tail hw.1
      · exact h.reaches u hu hul w hw
  · intro u hu hul w hw
    rcases List.mem_cons.mp hu with rfl | hu
    · rw [hself, hnext]
      by_cases hws : w ∈ seen
      · -- A node that waits leads to the top of the stack, and here the top leads back to it.
        by_cases hwl : w ∈ listed
        · exact .inl hwl
        · exact .inr (.inr (h.reaches w hws hwl u (htop w hws)))
      · exact .inr (.inl ⟨hw, fun heq => hloop (heq ▸ hw), hws⟩)
    · rw [hother u hu, List.mem_append]
      exact (h.covered u hu hul w hw).imp_right (.imp_left .inr)

/-- A walk ends with everything in order that is on no cycle, or at a node that leads to itself. -/
theorem walk_descends (h : Descending g stack seen listed) :
    (∃ seen' listed', walk g stack seen listed = .ok (seen', listed') ∧
      Descending g [] seen' listed') ∨ ∃ v, walk g stack seen listed = .error v ∧ g.Edge v v := by
  induction stack, seen, listed using walk.induct g with
  | case1 seen listed => exact .inl ⟨seen, listed, by rw [walk], h⟩
  | case2 seen listed v stack hv ih =>
      rw [walk, if_pos hv]
      exact ih (h.pop hv)
  | case3 seen listed v stack hv hloop =>
      rw [walk, if_neg hv, if_pos hloop]
      exact .inr ⟨v, rfl, mem_successors.mp hloop⟩
  | case4 seen listed v stack hv hloop ih =>
      rw [walk, if_neg hv, if_neg hloop]
      exact ih (h.push hv (by simpa using hloop))

/-! ### The sort -/

theorem candidate_eq : g.candidate = ((List.finRange n).foldlM g.visit ([], [])).map Prod.snd := rfl

/-- A walk that starts anew has nothing waiting. -/
theorem Walking.start (h : Walking g [] seen listed) (v : Fin n) : Walking g [v] seen listed :=
  { h with waits := fun u hu hul => absurd (h.waits u hu hul) (List.not_mem_nil) }

theorem Descending.start (h : Descending g [] seen listed) (v : Fin n) :
    Descending g [v] seen listed :=
  { h with
    toWalking := h.toWalking.start v
    reaches := fun u hu hul => absurd (h.waits u hu hul) (List.not_mem_nil)
    covered := fun u hu hul => absurd (h.waits u hu hul) (List.not_mem_nil) }

theorem visits_ok {vs : List (Fin n)} {s s' : List (Fin n) × List (Fin n)}
    (h : Walking g [] s.1 s.2) (hok : vs.foldlM g.visit s = .ok s') :
    Walking g [] s'.1 s'.2 ∧ (∀ v ∈ s.1, v ∈ s'.1) ∧ ∀ v ∈ vs, v ∈ s'.1 := by
  induction vs generalizing s with
  | nil =>
      cases hok
      exact ⟨h, fun _ hv => hv, by simp⟩
  | cons v vs ih =>
      rw [List.foldlM_cons] at hok
      cases hvisit : g.visit s v with
      | error e =>
          rw [hvisit] at hok
          cases hok
      | ok t =>
          rw [hvisit] at hok
          have hstep : Walking g [] t.1 t.2 ∧ (∀ u ∈ s.1, u ∈ t.1) ∧ v ∈ t.1 := by
            unfold visit at hvisit
            split at hvisit
            · next hv =>
                cases hvisit
                exact ⟨h, fun _ hu => hu, hv⟩
            · obtain ⟨hend, hseen, hstack⟩ := walk_ok (h.start v) hvisit
              exact ⟨hend, hseen, hstack v (by simp)⟩
          obtain ⟨hend, hseen, hvs⟩ := ih hstep.1 hok
          exact ⟨hend, fun u hu => hseen u (hstep.2.1 u hu),
            List.forall_mem_cons.mpr ⟨hseen v hstep.2.2, hvs⟩⟩

theorem visits_descend {vs : List (Fin n)} {s : List (Fin n) × List (Fin n)}
    (h : Descending g [] s.1 s.2) :
    (∃ s', vs.foldlM g.visit s = .ok s' ∧ Descending g [] s'.1 s'.2) ∨
      ∃ v, vs.foldlM g.visit s = .error v ∧ g.Edge v v := by
  induction vs generalizing s with
  | nil => exact .inl ⟨s, rfl, h⟩
  | cons v vs ih =>
      rw [List.foldlM_cons]
      have hvisit : (∃ t, g.visit s v = .ok t ∧ Descending g [] t.1 t.2) ∨
          ∃ u, g.visit s v = .error u ∧ g.Edge u u := by
        unfold visit
        split
        · exact .inl ⟨s, rfl, h⟩
        · exact (walk_descends (h.start v)).imp_left fun ⟨seen', listed', hwalk, hend⟩ =>
            ⟨(seen', listed'), hwalk, hend⟩
      rcases hvisit with ⟨t, hvisit, ht⟩ | ⟨u, hvisit, hu⟩
      · rw [hvisit]
        exact ih ht
      · rw [hvisit]
        exact .inr ⟨u, rfl, hu⟩

theorem candidate_ok (hok : g.candidate = .ok order) :
    order.Nodup ∧ (∀ v, v ∈ order) ∧ ∀ v, ¬ g.Edge v v := by
  rw [candidate_eq] at hok
  cases hvisits : (List.finRange n).foldlM g.visit ([], []) with
  | error e =>
      rw [hvisits] at hok
      cases hok
  | ok s =>
      rw [hvisits] at hok
      cases hok
      obtain ⟨hend, -, hall⟩ := visits_ok ⟨List.nodup_nil, by simp, by simp, by simp⟩ hvisits
      have hseen : ∀ v, v ∈ s.1 := fun v => hall v (List.mem_finRange v)
      refine ⟨hend.nodup, fun v => ?_, fun v => hend.noLoop v (hseen v)⟩
      by_contra hv
      exact absurd (hend.waits v (hseen v) hv) List.not_mem_nil

theorem candidate_descends : (∃ order, g.candidate = .ok order ∧
    order.Pairwise fun u v => g.Edge v u → TransGen g.Edge u v) ∨
      ∃ v, g.candidate = .error v ∧ g.Edge v v := by
  have hstart : Descending g [] [] [] :=
    { nodup := List.nodup_nil, met := by simp, waits := by simp, noLoop := by simp,
      closed := by simp, forward := List.Pairwise.nil, reaches := by simp, covered := by simp }
  have hvisits : (∃ s, (List.finRange n).foldlM g.visit ([], []) = .ok s ∧
      Descending g [] s.1 s.2) ∨
        ∃ v, (List.finRange n).foldlM g.visit ([], []) = .error v ∧ g.Edge v v :=
    visits_descend hstart
  rcases hvisits with ⟨s, hvisits, hend⟩ | ⟨v, hvisits, hv⟩
  · exact .inl ⟨s.2, by rw [candidate_eq, hvisits]; rfl, hend.forward⟩
  · exact .inr ⟨v, by rw [candidate_eq, hvisits]; rfl, hv⟩

/-- A sort that has a candidate only has to look for a node that is misplaced in it. -/
theorem sort_of_candidate (hcand : g.candidate = .ok order) :
    g.sort = match g.misplaced? order [] with
      | some u => .error u
      | none => .ok order := by
  unfold sort
  rw [hcand]
  rfl

/-- A sorted graph is sorted. -/
theorem sort_forward (hok : g.sort = .ok order) : g.Forward order := by
  cases hcand : g.candidate with
  | error e =>
      unfold sort at hok
      rw [hcand] at hok
      cases hok
  | ok order' =>
      rw [sort_of_candidate hcand] at hok
      split at hok
      · cases hok
      · next hnone =>
          cases hok
          obtain ⟨hnodup, hcomplete, hloop⟩ := candidate_ok hcand
          refine ⟨hnodup, hcomplete, fun done v rest heq u hu => ?_⟩
          rcases misplaced?_eq_none.mp hnone done v rest heq u hu with rfl | hmem | hmem
          · exact absurd hu (hloop u)
          · exact hmem
          · exact absurd hmem List.not_mem_nil

/-- The node that a sort ends at lies on a cycle. -/
theorem sort_cycle (herror : g.sort = .error u) : TransGen g.Edge u u := by
  rcases candidate_descends (g := g) with ⟨order, hcand, hpair⟩ | ⟨v, hcand, hv⟩
  · obtain ⟨-, hcomplete, -⟩ := candidate_ok hcand
    rw [sort_of_candidate hcand] at herror
    split at herror
    · next hsome =>
        cases herror
        obtain ⟨done, v, rest, heq, hedge, hne, hdone, -⟩ := misplaced?_eq_some hsome
        have hmem := hcomplete u
        rw [heq] at hmem hpair
        have hrest : u ∈ rest :=
          (List.mem_cons.mp ((List.mem_append.mp hmem).resolve_left hdone)).resolve_left hne
        have hback := (List.pairwise_cons.mp (List.pairwise_append.mp hpair).2.1).1 u hrest hedge
        exact hback.head hedge
    · cases herror
  · unfold sort at herror
    rw [hcand] at herror
    cases herror
    exact .single hv

theorem sort_total (hacyclic : g.Acyclic) : ∃ order, g.sort = .ok order := by
  cases hsort : g.sort with
  | ok order => exact ⟨order, rfl⟩
  | error u => exact absurd (sort_cycle hsort) (hacyclic u)

theorem exists_sort_iff : (∃ order, g.sort = .ok order) ↔ g.Acyclic :=
  ⟨fun ⟨_, hok⟩ => (sort_forward hok).acyclic, sort_total⟩

end DataflowSynth.Digraph
