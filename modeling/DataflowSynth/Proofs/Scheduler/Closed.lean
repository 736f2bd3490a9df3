/-
Schedulers are closed.

A scheduler is put together from parts that bring along the locals that they set.  A part may rely on
the locals that were loaded at the start of the round and on what it has set before: `Grounded` says
this of one part, and it is kept when parts are joined.  The choice sets nothing.  It tests the flags
that the checks of all actions have left and the states that were loaded, whatever state a chain stands
in and whichever transition its candidates come from.

None of this needs a valid actor: lowering fails where a port or an action is missing, and that is all
that is relied on.
-/
import DataflowSynth.Proofs.Scheduler.Assignment
import DataflowSynth.Proofs.Scheduler.Enabling
import DataflowSynth.Proofs.Scheduler.StateVars

namespace DataflowSynth.Scheduler

open Actor

variable {actor : Actor} {a : Action} {skipFill : Bool} {known : List String} {v : String}

/-! ### Declarations -/

/-- Of variables that are declared one after the other, the first of a name stays. -/
theorem declaredAs_foldl_find (ws vs : List Variable) (name : String) :
    declaredAs (ws.foldl declare vs) name =
      if declaredAs vs name = [] then (ws.find? (·.name = name)).toList
      else declaredAs vs name := by
  induction ws generalizing vs with
  | nil => simp
  | cons w ws ih =>
      rw [List.foldl_cons, ih, declaredAs_declare, List.find?_cons]
      by_cases hw : w.name = name
      · by_cases hnil : declaredAs vs name = [] <;> simp [hw, hnil]
      · simp [hw]

theorem declaredAs_once {ws : List Variable} (h : v ∈ ws.map Variable.name) :
    ∃ g, declaredAs (ws.foldl declare []) v = [g] := by
  obtain ⟨w, hw, hname⟩ := List.mem_map.mp h
  have hfound : (ws.find? (·.name = v)).isSome := List.find?_isSome.mpr ⟨w, hw, by simpa using hname⟩
  obtain ⟨g, hg⟩ := Option.isSome_iff_exists.mp hfound
  refine ⟨g, ?_⟩
  rw [declaredAs_foldl_find, hg]
  rfl

theorem name_mem_of_declared {ws : List Variable} {g : Variable} (h : g ∈ ws.foldl declare []) :
    g.name ∈ ws.map Variable.name := by
  have hmem : g ∈ declaredAs (ws.foldl declare []) g.name :=
    List.mem_filter.mpr ⟨h, decide_eq_true rfl⟩
  rw [declaredAs_foldl_find, if_pos (by rfl), Option.mem_toList] at hmem
  exact List.mem_map_of_mem (List.mem_of_find?_eq_some hmem)

/-! ### Parts -/

@[simp] theorem Part.append_locals (p q : Part) : (p ++ q).locals = p.locals ++ q.locals := rfl

@[simp] theorem Part.append_instructions (p q : Part) :
    (p ++ q).instructions = p.instructions ++ q.instructions := rfl

@[simp] theorem targets_flag (name : String) (value : Expr) :
    targets (flag name value).instructions = [name] := rfl

/-- The part declares the locals that it sets, and reads what is known or was set before. -/
structure Part.Grounded (known : List String) (p : Part) : Prop where
  locals : ∀ v, v ∈ p.locals.map Variable.name ↔ v ∈ targets p.instructions
  definite : Definite known p.instructions

theorem Part.Grounded.append {p q : Part} (hp : p.Grounded known)
    (hq : q.Grounded (targets p.instructions ++ known)) : (p ++ q).Grounded known where
  locals v := by
    rw [append_locals, append_instructions, List.map_append, List.mem_append, hp.locals, hq.locals,
      targets_append, List.mem_append]
  definite := hp.definite.append hq.definite

theorem Part.Grounded.mono {known' : List String} {p : Part} (h : p.Grounded known)
    (hsub : known ⊆ known') : p.Grounded known' :=
  ⟨h.locals, h.definite.mono hsub⟩

theorem grounded_empty : ({} : Part).Grounded known := ⟨fun _ => Iff.rfl, trivial⟩

theorem grounded_foldl {ps : List Part} (hps : ∀ p ∈ ps, p.Grounded known) {p : Part}
    (hp : p.Grounded known) : (ps.foldl Part.append p).Grounded known := by
  induction ps generalizing p with
  | nil => exact hp
  | cons q ps ih =>
      refine ih (fun q' hq' => hps q' (by simp [hq'])) (hp.append ?_)
      exact (hps q (by simp)).mono (List.subset_append_right _ _)

/-- One instruction with the local that it sets. -/
theorem grounded_single {name : String} {type : DataType} {i : Instruction}
    (htarget : i.target? = some name) (hreads : i.reads ⊆ known) :
    Part.Grounded known ⟨[⟨name, type, none⟩], [i]⟩ where
  locals v := by simp [targets, htarget]
  definite := ⟨hreads, trivial⟩

theorem grounded_flag {name : String} {value : Expr} (h : value.reads ⊆ known) :
    (flag name value).Grounded known :=
  grounded_single rfl h

/-! ### Loads -/

/-- The locals that are loaded at the start of a round. -/
def loadedLocals (actor : Actor) : List String := targets (loads actor).instructions

theorem mem_loadedLocals {l : String × String} (h : l ∈ loadPairs actor) :
    l.1 ∈ loadedLocals actor := by
  rw [loadedLocals, loads_instructions, targets, List.filterMap_map]
  exact List.mem_filterMap.mpr ⟨l, h, rfl⟩

theorem loads_grounded (actor : Actor) : (loads actor).Grounded [] := by
  refine grounded_foldl (fun p hp => ?_) grounded_empty
  rcases List.mem_append.mp hp with hp | hp
  · rcases List.mem_append.mp hp with hp | hp
    · obtain ⟨s, -, rfl⟩ := List.mem_map.mp hp
      exact grounded_single rfl (List.nil_subset _)
    · obtain ⟨b, -, rfl⟩ := List.mem_map.mp hp
      exact ⟨fun _ => Iff.rfl, definite_of_reads fun i hi => by
        simp only [inputLoads, List.mem_cons, List.not_mem_nil, or_false] at hi
        rcases hi with rfl | rfl <;> exact List.nil_subset _⟩
  · obtain ⟨b, -, rfl⟩ := List.mem_map.mp hp
    exact grounded_single rfl (List.nil_subset _)

/-- The fill of a buffered port of the actor is loaded. -/
theorem tmpCount_loaded {p : Port} (hp : p ∈ actor.ports) {b : BufferVars}
    (hb : p.bufferVars? = some b) : b.tmpCount ∈ loadedLocals actor := by
  obtain ⟨size, hsize, rfl⟩ := Option.map_eq_some_iff.mp hb
  exact mem_loadedLocals (tmpCount_mem_loadPairs hp (by rw [hsize]; rfl))

/-! ### Checks -/

/-- The check of a port relies on what was loaded, and sets its flag. -/
structure PortCheck.Grounded (actor : Actor) (c : PortCheck) : Prop where
  part : c.part.Grounded (loadedLocals actor)
  flag : c.flag ∈ targets c.part.instructions

theorem tokenCheck_grounded {e : TokenCount} {c : PortCheck} (h : tokenCheck actor a e = .ok c) :
    c.Grounded actor := by
  unfold tokenCheck at h
  split at h
  · cases h
  · next port hport =>
    split at h
    · next b hb =>
      cases h
      have hloaded := tmpCount_loaded (List.mem_append_left _ (mem_inputs_of_input? hport)) hb
      exact ⟨grounded_flag (by simpa [Expr.reads] using hloaded), List.mem_singleton_self _⟩
    · cases h
      exact ⟨grounded_single rfl (List.nil_subset _), List.mem_singleton_self _⟩

theorem spaceCheck_grounded {e : TokenCount} {c : PortCheck} (h : spaceCheck actor a e = .ok c) :
    c.Grounded actor := by
  unfold spaceCheck at h
  split at h
  · cases h
  · next port hport =>
    split at h
    · next b hb =>
      cases h
      have hloaded := tmpCount_loaded (List.mem_append_right _ (mem_outputs_of_output? hport)) hb
      exact ⟨grounded_flag (by simpa [Expr.reads] using hloaded), List.mem_singleton_self _⟩
    · cases h
      exact ⟨grounded_single rfl (List.nil_subset _), List.mem_singleton_self _⟩

section

variable {cs : List PortCheck}

theorem joined_grounded (h : ∀ c ∈ cs, c.Grounded actor) :
    (joined cs).Grounded (loadedLocals actor) := by
  refine grounded_foldl (fun p hp => ?_) grounded_empty
  obtain ⟨c, hc, rfl⟩ := List.mem_map.mp hp
  exact (h c hc).part

theorem reads_foldl_and (e : Expr) (es : List Expr) :
    (es.foldl Expr.and e).reads = e.reads ++ es.flatMap Expr.reads := by
  induction es generalizing e with
  | nil => simp
  | cons x es ih => simp [ih, Expr.and, Expr.reads]

/-- The conjunction of the flags reads what the checks have set. -/
theorem allFlags?_reads (h : ∀ c ∈ cs, c.Grounded actor) {all : Expr}
    (hall : allFlags? cs = some all) : all.reads ⊆ targets (joined cs).instructions := by
  have hreads : all.reads = cs.map PortCheck.flag := by
    cases cs with
    | nil => cases hall
    | cons c cs =>
        cases hall
        simp [reads_foldl_and, Expr.reads, List.flatMap_map, ← List.map_eq_flatMap]
  intro v hv
  rw [hreads] at hv
  obtain ⟨c, hc, rfl⟩ := List.mem_map.mp hv
  obtain ⟨i, hi, htarget⟩ := List.mem_filterMap.mp (h c hc).flag
  refine List.mem_filterMap.mpr ⟨i, ?_, htarget⟩
  rw [joined_instructions]
  exact List.mem_flatMap.mpr ⟨c, hc, hi⟩

end

theorem duePart_grounded {p : Part} (h : duePart actor a = .ok p) :
    p.Grounded (loadedLocals actor) ∧ goFlag a ∈ targets p.instructions := by
  unfold duePart at h
  cases hcs : a.inputs.mapM (tokenCheck actor a) with
  | error e =>
      rw [hcs] at h
      cases h
  | ok cs =>
      rw [hcs] at h
      have hchecks : ∀ c ∈ cs, c.Grounded actor := fun c hc => by
        obtain ⟨e, -, he⟩ := (mapM_ok hcs).1 c hc
        exact tokenCheck_grounded he
      have hguard : ∀ known, Part.Grounded known ⟨[⟨"return_" ++ a.guard, .bool, none⟩],
          [.call (some ("return_" ++ a.guard)) a.guard]⟩ := fun known =>
        grounded_single rfl (List.nil_subset _)
      cases hall : allFlags? cs with
      | none =>
          simp only [bind, Except.bind, hall] at h
          cases h
          refine ⟨(hguard _).append (grounded_flag ?_), ?_⟩ <;>
            simp [Expr.reads, Instruction.target?]
      | some all =>
          simp only [bind, Except.bind, hall] at h
          cases h
          have htokens : Part.Grounded _ (joined cs ++ flag ("tokenAvailability_" ++ a.name) all) :=
            (joined_grounded hchecks).append
              (grounded_flag (List.subset_append_of_subset_left _ (allFlags?_reads hchecks hall)))
          refine ⟨(htokens.append (hguard _)).append (grounded_flag ?_), ?_⟩ <;>
            simp [Expr.reads, Instruction.target?]

theorem firePart_grounded {p : Part} (h : firePart actor a = .ok p) :
    p.Grounded (loadedLocals actor) ∧ fireFlag a ∈ targets p.instructions := by
  unfold firePart at h
  cases hcs : a.outputs.mapM (spaceCheck actor a) with
  | error e =>
      rw [hcs] at h
      cases h
  | ok cs =>
      rw [hcs] at h
      have hchecks : ∀ c ∈ cs, c.Grounded actor := fun c hc => by
        obtain ⟨e, -, he⟩ := (mapM_ok hcs).1 c hc
        exact spaceCheck_grounded he
      cases hall : allFlags? cs with
      | none =>
          simp only [bind, Except.bind, hall] at h
          cases h
          exact ⟨grounded_flag (List.nil_subset _), List.mem_singleton_self _⟩
      | some all =>
          simp only [bind, Except.bind, hall] at h
          cases h
          -- The two flags are declared in the other order than they are set.
          have hjoined := joined_grounded hchecks
          refine ⟨⟨fun v => ?_, hjoined.definite.append ⟨?_, ?_, trivial⟩⟩, ?_⟩
          · rw [targets_append, List.mem_append, ← hjoined.locals]
            simp [Instruction.target?, or_comm (a := v = fireFlag a)]
          · exact List.subset_append_of_subset_left _ (allFlags?_reads hchecks hall)
          · simp [Instruction.reads, Instruction.target?, Expr.reads]
          · simp [Instruction.target?]

/-- The two checks of an action are grounded, and set its two flags. -/
theorem checks_grounded {ps : List Part} (h : checks actor a = .ok ps) :
    (∀ p ∈ ps, p.Grounded (loadedLocals actor)) ∧
      goFlag a ∈ targets (ps.flatMap Part.instructions) ∧
      fireFlag a ∈ targets (ps.flatMap Part.instructions) := by
  unfold checks at h
  cases hdue : duePart actor a with
  | error e =>
      rw [hdue] at h
      cases h
  | ok due =>
      cases hfire : firePart actor a with
      | error e =>
          rw [hdue, hfire] at h
          cases h
      | ok fire =>
          rw [hdue, hfire] at h
          cases h
          obtain ⟨hdueGrounded, hgo⟩ := duePart_grounded hdue
          obtain ⟨hfireGrounded, hcan⟩ := firePart_grounded hfire
          refine ⟨by simp [hdueGrounded, hfireGrounded], ?_, ?_⟩ <;>
            simp [hgo, hcan]

/-! ### The choice -/

/-- What a candidate does when it fires reads no local and sets none. -/
theorem firing_plain {c : Candidate} {i : Instruction} (hi : i ∈ firing actor skipFill c) :
    i.reads = [] ∧ i.target? = none := by
  rw [firing, List.mem_append, List.mem_cons] at hi
  rcases hi with hi | rfl | hi
  · unfold requestStores at hi
    split at hi
    · cases hi
    · obtain ⟨e, -, rfl⟩ := List.mem_map.mp hi
      exact ⟨rfl, rfl⟩
  · exact ⟨rfl, rfl⟩
  · unfold moveStores at hi
    split at hi
    · cases hi
    · split at hi
      · cases hi
      · simp only [List.mem_cons, List.not_mem_nil, or_false] at hi
        rcases hi with rfl | rfl <;> exact ⟨rfl, rfl⟩

theorem targets_firing (c : Candidate) : targets (firing actor skipFill c) = [] :=
  List.filterMap_eq_nil_iff.mpr fun _ hi => (firing_plain hi).2

/-- The two flags of the action are known. -/
def FlagsKnown (known : List String) (a : Action) : Prop := goFlag a ∈ known ∧ fireFlag a ∈ known

theorem chain_definite (actor : Actor) (skipFill : Bool) {cs : List Candidate}
    (h : ∀ c ∈ cs, FlagsKnown known c.action) :
    Block.Definite.all known (chain actor skipFill cs) ∧
      targets (Block.instructions.all (chain actor skipFill cs)) = [] := by
  induction cs with
  | nil => exact ⟨trivial, rfl⟩
  | cons c cs ih =>
      obtain ⟨hgo, hcan⟩ := h c (by simp)
      obtain ⟨hrest, htargets⟩ := ih fun c' hc' => h c' (by simp [hc'])
      have hfiring : Definite known (firing actor skipFill c) := definite_of_reads fun i hi => by
        rw [(firing_plain hi).1]
        exact List.nil_subset _
      refine ⟨⟨⟨by simpa [Expr.reads] using hgo, ⟨⟨by simpa [Expr.reads] using hcan,
        ⟨hfiring, trivial⟩, trivial⟩, trivial⟩, hrest⟩, trivial⟩, ?_⟩
      simp [chain, Block.instructions.all, Block.instructions, targets_firing, htargets]

/-- Blocks that set nothing do not rely on each other. -/
theorem all_definite_of_idle {bs : List Block}
    (h : ∀ b ∈ bs, b.Definite known ∧ targets b.instructions = []) :
    Block.Definite.all known bs ∧ targets (Block.instructions.all bs) = [] := by
  induction bs with
  | nil => exact ⟨trivial, rfl⟩
  | cons b bs ih =>
      obtain ⟨hb, htargets⟩ := h b (by simp)
      obtain ⟨hbs, htargets'⟩ := ih fun b' hb' => h b' (by simp [hb'])
      have hsettles : b.settles = [] := List.subset_nil.mp (htargets ▸ b.settles_subset)
      refine ⟨⟨hb, ?_⟩, ?_⟩
      · rw [hsettles]
        exact hbs
      · rw [Block.instructions.all, targets_append, htargets, htargets', List.append_nil]

/-- The candidates in a state come from the actions that no machine governs and from the transitions
that leave the state. -/
theorem stateCandidates_eq {fsm : Fsm} {state : String} {cs : List Candidate}
    (h : stateCandidates actor fsm state = .ok cs) :
    ∃ leaving : List (Action × Transition),
      (∀ x ∈ leaving, x.2 ∈ fsm.outgoing state ∧ actor.action? x.2.action = some x.1) ∧
      cs = freeCandidates actor.actionsOutsideFsm ++ leaving.map fun x =>
        { action := x.1, move := some (x.2.source, x.2.target),
          competitors := leaving.map Prod.fst ++ actor.actionsOutsideFsm } := by
  unfold stateCandidates at h
  cases hleaving : (fsm.outgoing state).mapM (fun t => do
      return (← transitionAction actor t, t)) with
  | error e =>
      rw [hleaving] at h
      cases h
  | ok leaving =>
      rw [hleaving] at h
      cases h
      refine ⟨leaving, fun x hx => ?_, rfl⟩
      obtain ⟨t, ht, hok⟩ := (mapM_ok hleaving).1 x hx
      unfold transitionAction at hok
      cases hfound : actor.action? t.action with
      | none =>
          rw [hfound] at hok
          cases hok
      | some a =>
          rw [hfound] at hok
          cases hok
          exact ⟨ht, hfound⟩

theorem stateCandidates_actions {fsm : Fsm} {state : String} {cs : List Candidate}
    (h : stateCandidates actor fsm state = .ok cs) {c : Candidate} (hc : c ∈ cs) :
    c.action ∈ actor.actions := by
  obtain ⟨leaving, hleaving, rfl⟩ := stateCandidates_eq h
  rcases List.mem_append.mp hc with hc | hc
  · obtain ⟨a, ha, rfl⟩ := List.mem_map.mp hc
    exact mem_actions_of_outside ha
  · obtain ⟨x, hx, rfl⟩ := List.mem_map.mp hc
    exact List.mem_of_find?_eq_some (hleaving x hx).2

theorem choice_definite {blocks : List Block} (h : choice actor skipFill = .ok blocks)
    (hflags : ∀ a ∈ actor.actions, FlagsKnown known a)
    (hstates : ∀ fsm ∈ actor.fsm, ∀ s ∈ fsm.states, stateLocal s ∈ known) :
    Block.Definite.all known blocks ∧ targets (Block.instructions.all blocks) = [] := by
  cases hfsm : actor.fsm with
  | none =>
      simp only [choice, hfsm] at h
      cases h
      refine chain_definite actor skipFill fun c hc => ?_
      obtain ⟨a, ha, rfl⟩ := List.mem_map.mp hc
      exact hflags a (mem_actions_of_outside ha)
  | some fsm =>
      cases hbranches : fsm.states.mapM (fun s => do
          let candidates ← stateCandidates actor fsm s
          return Block.branch (.var (stateLocal s)) (chain actor skipFill candidates) []) with
      | error e =>
          simp only [choice, hfsm, hbranches] at h
          cases h
      | ok branches =>
          simp only [choice, hfsm, hbranches] at h
          cases h
          have hbranch : ∀ b ∈ branches, b.Definite known ∧ targets b.instructions = [] := by
            intro b hb
            obtain ⟨s, hs, hok⟩ := (mapM_ok hbranches).1 b hb
            cases hcs : stateCandidates actor fsm s with
            | error e =>
                rw [hcs] at hok
                cases hok
            | ok cs =>
                rw [hcs] at hok
                cases hok
                obtain ⟨hchain, htargets⟩ := chain_definite actor skipFill
                  fun c hc => hflags _ (stateCandidates_actions hcs hc)
                refine ⟨⟨by simpa [Expr.reads] using hstates fsm hfsm s hs, hchain, trivial⟩, ?_⟩
                simpa [Block.instructions, Block.instructions.all] using htargets
          obtain ⟨hdefinite, htargets⟩ := all_definite_of_idle hbranch
          exact ⟨⟨hdefinite, trivial⟩, by simpa [Block.instructions, Block.instructions.all] using htargets⟩

/-! ### The whole scheduler -/

theorem initialStores_plain {i : Instruction} (hi : i ∈ initialStores actor) :
    i.reads = [] ∧ i.target? = none := by
  rw [initialStores, List.mem_append] at hi
  rcases hi with hi | hi
  · cases hfsm : actor.fsm with
    | none => simp [hfsm] at hi
    | some fsm =>
        rw [hfsm] at hi
        obtain ⟨s, -, rfl⟩ := List.mem_map.mp hi
        exact ⟨rfl, rfl⟩
  · obtain ⟨b, -, rfl⟩ := List.mem_map.mp hi
    exact ⟨rfl, rfl⟩

@[simp] theorem instructions_basicUnlessEmpty (is : List Instruction) :
    Block.instructions.all (basicUnlessEmpty is) = is := by
  cases is <;> simp [basicUnlessEmpty, Block.instructions.all, Block.instructions]

@[simp] theorem settles_basicUnlessEmpty (is : List Instruction) :
    Block.settles.all (basicUnlessEmpty is) = targets is := by
  cases is <;> simp [basicUnlessEmpty, Block.settles.all, Block.settles]

theorem definite_basicUnlessEmpty {is : List Instruction} (h : Definite known is) :
    Block.Definite.all known (basicUnlessEmpty is) := by
  cases is with
  | nil => trivial
  | cons i is => exact ⟨h, trivial⟩

section

variable {ps : List Part}

@[simp] theorem instructions_basics :
    Block.instructions.all (ps.map fun p => .basic p.instructions) =
      ps.flatMap Part.instructions := by
  induction ps with
  | nil => rfl
  | cons p ps ih => rw [List.map_cons, Block.instructions.all, ih]; rfl

@[simp] theorem settles_basics :
    Block.settles.all (ps.map fun p => .basic p.instructions) =
      targets (ps.flatMap Part.instructions) := by
  induction ps with
  | nil => rfl
  | cons p ps ih => rw [List.map_cons, Block.settles.all, ih, List.flatMap_cons, targets_append]; rfl

theorem definite_basics (h : ∀ p ∈ ps, Definite known p.instructions) :
    Block.Definite.all known (ps.map fun p => .basic p.instructions) := by
  induction ps generalizing known with
  | nil => trivial
  | cons p ps ih =>
      refine ⟨h p (by simp), ih fun q hq => ?_⟩
      exact (h q (by simp [hq])).mono (List.subset_append_right _ _)

end

/-- The locals and blocks of a scheduler, and what they are made of. -/
theorem lower_shape {p : Procedure} (h : lower actor skipFill = .ok p) :
    ∃ parts blocks, actor.actions.mapM (checks actor) = .ok parts ∧
      choice actor skipFill = .ok blocks ∧
      p.locals = ((loads actor).locals ++ parts.flatten.flatMap Part.locals).foldl declare [] ∧
      p.blocks = basicUnlessEmpty (initialStores actor) ++
        [.loop (.bool true) (basicUnlessEmpty (loads actor).instructions ++
          parts.flatten.map (fun p => .basic p.instructions) ++ blocks), .basic [.ret none]] := by
  cases hparts : actor.actions.mapM (checks actor) with
  | error e =>
      simp only [lower, hparts, bind, Except.bind] at h
      cases h
  | ok parts =>
      cases hblocks : choice actor skipFill with
      | error e =>
          simp only [lower, hparts, hblocks, bind, Except.bind] at h
          cases h
      | ok blocks =>
          simp only [lower, hparts, hblocks, bind, Except.bind] at h
          cases h
          exact ⟨parts, blocks, rfl, rfl, rfl, rfl⟩

/-- The body of the loop: nothing is read in a round before it is set in it. -/
theorem body_definite {parts : List (List Part)} {blocks : List Block}
    (hparts : actor.actions.mapM (checks actor) = .ok parts)
    (hblocks : choice actor skipFill = .ok blocks) :
    Block.Definite.all [] (basicUnlessEmpty (loads actor).instructions ++
        parts.flatten.map (fun p => .basic p.instructions) ++ blocks) ∧
      targets (Block.instructions.all blocks) = [] := by
  have hchoice : ∀ known, loadedLocals actor ⊆ known →
      targets (parts.flatten.flatMap Part.instructions) ⊆ known →
      Block.Definite.all known blocks ∧ targets (Block.instructions.all blocks) = [] := by
    intro known hloads hchecks
    refine choice_definite hblocks (fun a ha => ?_) fun fsm hfsm s hs => ?_
    · obtain ⟨ps, hps, hok⟩ := (mapM_ok hparts).2 a ha
      obtain ⟨-, hgo, hcan⟩ := checks_grounded hok
      have hsub : targets (ps.flatMap Part.instructions) ⊆
          targets (parts.flatten.flatMap Part.instructions) := by
        refine List.filterMap_subset _ fun i hi => ?_
        obtain ⟨p, hp, hi⟩ := List.mem_flatMap.mp hi
        exact List.mem_flatMap.mpr ⟨p, List.mem_flatten.mpr ⟨ps, hps, hp⟩, hi⟩
      exact ⟨hchecks (hsub hgo), hchecks (hsub hcan)⟩
    · exact hloads (mem_loadedLocals (stateLocal_mem_loadPairs hfsm hs))
  have hgrounded : ∀ p ∈ parts.flatten, p.Grounded (loadedLocals actor) := by
    intro p hp
    obtain ⟨ps, hps, hp⟩ := List.mem_flatten.mp hp
    obtain ⟨a, -, hok⟩ := (mapM_ok hparts).1 ps hps
    exact (checks_grounded hok).1 p hp
  refine ⟨?_, (hchoice _ (List.subset_append_left _ _) (List.subset_append_right _ _)).2⟩
  rw [List.append_assoc]
  refine Block.Definite.all_append (definite_basicUnlessEmpty (loads_grounded actor).definite)
    fun known _ hloads => ?_
  rw [settles_basicUnlessEmpty] at hloads
  refine Block.Definite.all_append
    (definite_basics fun p hp => (hgrounded p hp).definite.mono hloads) fun known' hknown hchecks => ?_
  rw [settles_basics] at hchecks
  exact (hchoice known' (List.Subset.trans hloads hknown) hchecks).1

/-- A scheduler in front of which nothing is read, with a loop in which nothing is read before it is
set, and with declarations for what it sets. -/
structure Closed (p : Procedure) (front body : List Block) (declared : List Variable) : Prop where
  blocks : p.blocks = front ++ [.loop (.bool true) body, .basic [.ret none]]
  split : Dispatcher.splitAtLoop? p.blocks = some (front, .bool true, body)
  front : Block.Definite.all [] front
  body : Block.Definite.all [] body
  locals : p.locals = declared.foldl declare []
  assigned : ∀ v, v ∈ p.assigned ↔ v ∈ declared.map Variable.name

theorem lower_closed {p : Procedure} (h : lower actor skipFill = .ok p) :
    ∃ front body declared, Closed p front body declared := by
  obtain ⟨parts, blocks, hparts, hchoice, hlocals, hblocks⟩ := lower_shape h
  obtain ⟨hbody, htargets⟩ := body_definite hparts hchoice
  refine ⟨_, _, _, hblocks, ?_, ?_, hbody, hlocals, fun v => ?_⟩
  · rw [hblocks]
    exact Dispatcher.splitAtLoop?_basicUnlessEmpty _ _ _ _
  · refine definite_basicUnlessEmpty (definite_of_reads fun i hi => ?_)
    rw [(initialStores_plain hi).1]
    exact List.nil_subset _
  · have hstores : targets (initialStores actor) = [] :=
      List.filterMap_eq_nil_iff.mpr fun _ hi => (initialStores_plain hi).2
    have hchecks : v ∈ targets (parts.flatten.flatMap Part.instructions) ↔
        v ∈ (parts.flatten.flatMap Part.locals).map Variable.name := by
      simp only [targets, List.filterMap_flatMap, List.map_flatMap, List.mem_flatMap]
      refine exists_congr fun p => and_congr_right fun hp => ?_
      obtain ⟨ps, hps, hp⟩ := List.mem_flatten.mp hp
      obtain ⟨a, -, hok⟩ := (mapM_ok hparts).1 ps hps
      exact (((checks_grounded hok).1 p hp).locals v).symm
    rw [Procedure.assigned, Procedure.instructions, hblocks, List.map_append, List.mem_append,
      ← hchecks, (loads_grounded actor).locals]
    simp [-List.map_flatten, Block.instructions_all_append, Block.instructions.all,
      Block.instructions, hstores, htargets, Instruction.target?]

namespace Closed

variable {p : Procedure} {front body : List Block} {declared : List Variable}

/-- Whatever is read is assigned somewhere. -/
theorem reads_subset (h : Closed p front body declared) : p.reads ⊆ p.assigned := by
  intro v hv
  have hfront := Block.Definite.reads_mem_all (v := v) h.front
  have hbody := Block.Definite.reads_mem_all (v := v) h.body
  simp only [Procedure.reads, Procedure.assigned, Procedure.instructions, Procedure.conditions,
    h.blocks, Block.instructions_all_append, Block.conditions_all_append, Block.instructions.all,
    Block.conditions.all, Block.instructions, Block.conditions, List.flatMap_append,
    List.flatMap_cons, List.flatMap_nil, Expr.reads, Instruction.reads, List.mem_append,
    targets_append, List.not_mem_nil, false_or, List.append_nil, List.nil_append,
    targets_cons] at hv hfront hbody ⊢
  grind

/-- Whatever is assigned is declared once. -/
theorem declared_once (h : Closed p front body declared) (hv : v ∈ p.assigned) :
    ∃ g, declaredAs p.locals v = [g] := by
  rw [h.locals]
  exact declaredAs_once ((h.assigned v).mp hv)

theorem assigned_of_declared (h : Closed p front body declared) {g : Variable} (hg : g ∈ p.locals) :
    g.name ∈ p.assigned := by
  rw [h.locals] at hg
  exact (h.assigned _).mpr (name_mem_of_declared hg)

end Closed

/-- A scheduler that can be made at all is closed and definitely assigned, whether its actor is valid or
not.  Each local that it reads or assigns is declared once, and each that is declared is assigned.  What
stands in front of its loop and the body of its loop read no local before it was set.  So a round of any
run fails only for want of an answer: an instruction of the scheduler calls a guard that has no result,
or samples a port that has no status, and that is the error. -/
theorem scheduler_definitely_assigned (actor : Actor) (skipFill : Bool) (p : Procedure)
    (hp : lower (declareState actor) skipFill = .ok p) :
    (∀ v, v ∈ p.reads ∨ v ∈ p.assigned → ∃ g, declaredAs p.locals v = [g]) ∧
    (∀ g ∈ p.locals, g.name ∈ p.assigned) ∧
    (∃ front body, Dispatcher.splitAtLoop? p.blocks = some (front, .bool true, body) ∧
      Block.Definite.all [] front ∧ Block.Definite.all [] body) ∧
    ∀ rs e, (Dispatcher.run { scheduler := p } rs).2.step.1 = .error e →
      ∃ i ∈ p.instructions, Dispatcher.Unanswered (Dispatcher.run { scheduler := p } rs).2 i e := by
  obtain ⟨front, body, declared, h⟩ := lower_closed hp
  refine ⟨fun v hv => h.declared_once (hv.elim (fun hv => h.reads_subset hv) id),
    fun g hg => h.assigned_of_declared hg, ⟨front, body, h.split, h.front, h.body⟩,
    fun rs e he => ?_⟩
  have hsplit : Dispatcher.splitAtLoop? (Dispatcher.run { scheduler := p } rs).2.scheduler.blocks =
      some (front, .bool true, body) := by
    rw [run_scheduler]
    exact h.split
  obtain ⟨i, hi, hunanswered⟩ := Dispatcher.step_of_definite hsplit h.front h.body he
  refine ⟨i, ?_, hunanswered⟩
  rw [Procedure.instructions, h.blocks]
  simp only [Block.instructions_all_append, Block.instructions.all, Block.instructions,
    List.mem_append] at hi ⊢
  grind

/-- Two actions of one name, which is not allowed. -/
def twins : Actor where
  name := "twins"
  inputs := [{ name := "IN", type := .int 8, buffer := some 4 }]
  procedures := [{ name := "take_body" }, { name := "isSchedulable_take", returnType := .bool }]
  actions := [{ (Action.named "take") with inputs := [⟨"IN", 1⟩] },
    { (Action.named "take") with inputs := [⟨"IN", 2⟩] }]

/-- The flag that both set is declared once, and a round for which nothing is known fails for want of
the result of their guard. -/
theorem scheduler_definitely_assigned_twins :
    twins.validate ≠ .ok () ∧ ∃ p, lower (declareState twins) false = .ok p ∧
      (∃ g, declaredAs p.locals "actionGo_take" = [g]) ∧
      ∃ e, (Dispatcher.step { scheduler := p }).1 = .error e ∧
        ∃ i ∈ p.instructions, Dispatcher.Unanswered { scheduler := p } i e := by
  have hread : (lower (declareState twins) false).toOption.any ("actionGo_take" ∈ ·.reads) = true := by
    decide +kernel
  cases hp : lower (declareState twins) false with
  | error e =>
      rw [hp] at hread
      cases hread
  | ok p =>
      rw [hp] at hread
      obtain ⟨hdeclared, -, -, herror⟩ := scheduler_definitely_assigned twins false p hp
      refine ⟨by decide +kernel, p, rfl, hdeclared _ (.inl (of_decide_eq_true hread)), ?_⟩
      rw [lower_declareState] at hp
      cases hstep : (Dispatcher.step { scheduler := p }).1 with
      | error e => exact ⟨e, rfl, herror [] e hstep⟩
      | ok fired =>
          have hcomplete := complete_of_step (d := { scheduler := p }) hp hstep
          have hempty : ({ scheduler := p } : Dispatcher).world = {} := by simp [Dispatcher.world]
          rw [hempty] at hcomplete
          exact absurd hcomplete (by decide)

end DataflowSynth.Scheduler
