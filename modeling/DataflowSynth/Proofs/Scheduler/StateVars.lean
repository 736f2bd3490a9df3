/-
The state variables that a scheduler accesses, and how they are declared.

Every variable that a scheduler loads or stores is one that lowering generates for a state of the
machine or for a circular buffer: `Generated` says which there are, and with which type and initial
value.  No two of them have the same name.  Lowering declares a generated variable only if its name is
free, so a variable of the same name that the actor brings along stays what it is.
-/
import DataflowSynth.Proofs.Scheduler.Encoding

namespace DataflowSynth

/-! ### Access -/

/-- The state variable that an instruction loads or stores. -/
def Instruction.accesses? : Instruction → Option String
  | .load _ source => some source
  | .store target _ => some target
  | .assign _ _ | .call _ _ | .portStatus _ _ | .ret _ => none

/-- The state variables that a list of instructions accesses. -/
def accesses (is : List Instruction) : List String := is.filterMap Instruction.accesses?

@[simp] theorem accesses_append (is js : List Instruction) :
    accesses (is ++ js) = accesses is ++ accesses js :=
  List.filterMap_append

/-- The state variables that a block accesses. -/
def Block.accessed : Block → List String
  | .basic instructions => accesses instructions
  | .branch _ thenBlocks elseBlocks => all thenBlocks ++ all elseBlocks
  | .loop _ body => all body
  | .mutex blocks => all blocks
where
  all : List Block → List String
    | [] => []
    | b :: bs => accessed b ++ all bs

theorem Block.all_eq_flatMap (bs : List Block) : Block.accessed.all bs = bs.flatMap Block.accessed := by
  induction bs with
  | nil => rfl
  | cons b bs ih => rw [Block.accessed.all, ih, List.flatMap_cons]

/-- The state variables that a procedure accesses. -/
def Procedure.accessed (p : Procedure) : List String := p.blocks.flatMap Block.accessed

namespace Scheduler

open Actor

variable {actor : Actor} {a : Action} {skipFill : Bool} {v : String}

/-! ### What a scheduler accesses -/

theorem accessed_basicUnlessEmpty (is : List Instruction) :
    (basicUnlessEmpty is).flatMap Block.accessed = accesses is := by
  unfold basicUnlessEmpty
  split
  · next hempty => rw [List.isEmpty_iff.mp hempty]; rfl
  · simp [Block.accessed]

/-- The candidate moves within the machine. -/
def Candidate.Within (actor : Actor) (c : Candidate) : Prop :=
  ∀ source target, c.move = some (source, target) →
    Fsm.stateVar source ∈ machineVars actor ∧ Fsm.stateVar target ∈ machineVars actor

theorem Candidate.Leaves.within {c : Candidate} {fsm : Fsm} (hfsm : actor.fsm = some fsm) {s : String}
    (hs : s ∈ fsm.states) (h : c.Leaves actor (some s)) : c.Within actor := by
  intro source target hmove
  obtain ⟨fsm', hfsm', hsource, htarget⟩ := h source target hmove
  obtain rfl : fsm = fsm' := Option.some.inj (hfsm.symm.trans hfsm')
  obtain rfl := Option.some.inj hsource
  rw [machineVars, hfsm]
  exact ⟨List.mem_map_of_mem hs, List.mem_map_of_mem htarget⟩

theorem firing_accesses {c : Candidate} (hc : c.Within actor)
    (h : v ∈ accesses (firing actor skipFill c)) : v ∈ rewritten actor := by
  rw [firing, accesses_append, List.mem_append] at h
  rcases h with h | h
  · unfold requestStores at h
    split at h
    · exact absurd h List.not_mem_nil
    · refine List.mem_append_right _ (keys_requestSizes c.competitors ?_)
      simpa [accesses, OrderedMap.keys, Instruction.accesses?, List.filterMap_map] using h
  · refine List.mem_append_left _ ?_
    have hmoves : v ∈ accesses (moveStores c.move) := h
    cases hmove : c.move with
    | none =>
        rw [hmove] at hmoves
        exact absurd hmoves List.not_mem_nil
    | some move =>
        obtain ⟨source, target⟩ := move
        obtain ⟨hsource, htarget⟩ := hc source target hmove
        rw [hmove, moveStores] at hmoves
        split at hmoves
        · exact absurd hmoves List.not_mem_nil
        · have hmem : v ∈ [Fsm.stateVar target, Fsm.stateVar source] := hmoves
          simp only [List.mem_cons, List.not_mem_nil, or_false] at hmem
          rcases hmem with rfl | rfl
          · exact htarget
          · exact hsource

theorem chain_accesses {cs : List Candidate} (hcs : ∀ c ∈ cs, c.Within actor)
    (h : v ∈ (chain actor skipFill cs).flatMap Block.accessed) : v ∈ rewritten actor := by
  induction cs with
  | nil => exact absurd h List.not_mem_nil
  | cons c cs ih =>
      simp only [chain, List.flatMap_cons, List.flatMap_nil, List.append_nil, Block.accessed,
        Block.accessed.all, Block.all_eq_flatMap, List.mem_append] at h
      rcases h with h | h
      · exact firing_accesses (hcs c List.mem_cons_self) h
      · exact ih (fun c' hc' => hcs c' (List.mem_cons_of_mem _ hc')) h

theorem choice_accesses (hv : Valid actor) {blocks : List Block}
    (hblocks : choice actor skipFill = .ok blocks) (h : v ∈ blocks.flatMap Block.accessed) :
    v ∈ rewritten actor := by
  cases hfsm : actor.fsm with
  | none =>
      simp only [choice, hfsm] at hblocks
      cases hblocks
      refine chain_accesses (fun c hc source target hmove => ?_) h
      obtain ⟨a, -, rfl⟩ := List.mem_map.mp hc
      cases hmove
  | some fsm =>
      obtain ⟨candidates, hlists, hchoice⟩ := choice_eq hv hfsm skipFill
      obtain rfl := Except.ok.inj (hchoice.symm.trans hblocks)
      simp only [List.flatMap_cons, List.flatMap_nil, List.append_nil, Block.accessed,
        Block.all_eq_flatMap, List.mem_flatMap, List.mem_map] at h
      obtain ⟨b, ⟨s, hs, rfl⟩, h⟩ := h
      simp only [stateBlock, Block.accessed, Block.all_eq_flatMap, List.flatMap_nil,
        List.append_nil] at h
      exact chain_accesses (fun c hc => ((hlists s).leaves c hc).within hfsm hs) h

/-- Whatever sets a local of a check accesses no state variable. -/
theorem ChecksOnly.accesses {is : List Instruction} (h : ChecksOnly a is) :
    accesses is = [] := by
  refine List.filterMap_eq_nil_iff.mpr fun i hi => ?_
  obtain ⟨x, hx, -⟩ := h i hi
  cases i with
  | load => cases hx
  | store => cases hx
  | assign => rfl
  | call => rfl
  | portStatus => rfl
  | ret => rfl

/-! ### What lowering generates -/

/-- The variables that lowering generates for an actor. -/
inductive Generated (actor : Actor) : Variable → Prop
  | state {fsm : Fsm} (hfsm : actor.fsm = some fsm) {s : String} (hs : s ∈ fsm.states) :
      Generated actor ⟨"state_" ++ s, .bool, some (if s = fsm.initial then 1 else 0)⟩
  | count {p : Port} (hp : p ∈ actor.ports) (hbuffer : p.buffer.isSome) :
      Generated actor ⟨"cb_" ++ p.name ++ "_count", .uint 32, none⟩
  | start {p : Port} (hp : p ∈ actor.inputs) (hbuffer : p.buffer.isSome) :
      Generated actor ⟨"cb_" ++ p.name ++ "_start", .bool, none⟩
  | requestSize {p : Port} (hp : p ∈ actor.inputs) (hbuffer : p.buffer.isSome) :
      Generated actor ⟨"cb_" ++ p.name ++ "_requestSize", .uint 32, none⟩

theorem mem_inputBuffers {b : BufferVars} : b ∈ inputBuffers actor ↔
    ∃ p ∈ actor.inputs, p.buffer.isSome ∧ b = BufferVars.ofPort p.name := by
  simp only [inputBuffers, Port.bufferVars?, List.mem_filterMap, Option.map_eq_some_iff,
    Option.isSome_iff_exists]
  grind

theorem mem_outputBuffers {b : BufferVars} : b ∈ outputBuffers actor ↔
    ∃ p ∈ actor.outputs, p.buffer.isSome ∧ b = BufferVars.ofPort p.name := by
  simp only [outputBuffers, Port.bufferVars?, List.mem_filterMap, Option.map_eq_some_iff,
    Option.isSome_iff_exists]
  grind

theorem mem_stateVariables_iff {g : Variable} : g ∈ stateVariables actor ↔ Generated actor g := by
  simp only [stateVariables, List.mem_append, List.mem_flatMap, mem_inputBuffers, mem_outputBuffers]
  constructor
  · rintro ((h | ⟨_, ⟨p, hp, hbuffer, rfl⟩, h⟩) | ⟨_, ⟨p, hp, hbuffer, rfl⟩, h⟩)
    · cases hfsm : actor.fsm with
      | none => simp [hfsm] at h
      | some fsm =>
          obtain ⟨s, hs, rfl⟩ := List.mem_map.mp (by simpa [hfsm, fsmVariables] using h)
          exact .state hfsm hs
    · simp only [inputVariables, List.mem_cons, List.not_mem_nil, or_false] at h
      rcases h with rfl | rfl | rfl
      · exact .count (List.mem_append_left _ hp) hbuffer
      · exact .start hp hbuffer
      · exact .requestSize hp hbuffer
    · obtain rfl := List.mem_singleton.mp h
      exact .count (List.mem_append_right _ hp) hbuffer
  · intro h
    cases h with
    | @state fsm hfsm s hs =>
        refine .inl (.inl ?_)
        rw [hfsm]
        exact List.mem_map_of_mem hs
    | @count p hp hbuffer =>
        rcases List.mem_append.mp hp with hp | hp
        · exact .inl (.inr ⟨_, ⟨p, hp, hbuffer, rfl⟩, List.mem_cons_self⟩)
        · exact .inr ⟨_, ⟨p, hp, hbuffer, rfl⟩, List.mem_cons_self⟩
    | @start p hp hbuffer =>
        exact .inl (.inr ⟨_, ⟨p, hp, hbuffer, rfl⟩, List.mem_cons_of_mem _ List.mem_cons_self⟩)
    | @requestSize p hp hbuffer =>
        exact .inl (.inr ⟨_, ⟨p, hp, hbuffer, rfl⟩,
          List.mem_cons_of_mem _ (List.mem_cons_of_mem _ List.mem_cons_self)⟩)

theorem start_ne_requestSize (p q : String) :
    (BufferVars.ofPort p).start ≠ (BufferVars.ofPort q).requestSize := by
  intro heq
  have hchars := congrArg (fun s => s.toList.reverse) heq
  simp [BufferVars.ofPort] at hchars

/-- The name of a generated variable tells its type and its initial value. -/
theorem Generated.eq_of_name {g g' : Variable} (h : Generated actor g) (h' : Generated actor g')
    (heq : g.name = g'.name) : g = g' := by
  cases h with
  | @state fsm hfsm s hs =>
      cases h' with
      | @state fsm' hfsm' t ht =>
          obtain rfl : fsm = fsm' := Option.some.inj (hfsm.symm.trans hfsm')
          obtain rfl := stateVar_inj.mp heq
          rfl
      | count => exact absurd heq (stateVar_ne_count s _)
      | start => exact absurd heq (stateVar_ne_start s _)
      | requestSize => exact absurd heq (stateVar_ne_requestSize s _)
  | @count p =>
      cases h' with
      | @state _ _ t => exact absurd heq.symm (stateVar_ne_count t _)
      | count => exact congrArg (fun name => Variable.mk name _ _) heq
      | start => exact absurd heq (count_ne_start p.name _)
      | requestSize => exact absurd heq (count_ne_requestSize p.name _)
  | @start p =>
      cases h' with
      | @state _ _ t => exact absurd heq.symm (stateVar_ne_start t _)
      | @count q => exact absurd heq.symm (count_ne_start q.name _)
      | start => exact congrArg (fun name => Variable.mk name _ _) heq
      | requestSize => exact absurd heq (start_ne_requestSize p.name _)
  | @requestSize p =>
      cases h' with
      | @state _ _ t => exact absurd heq.symm (stateVar_ne_requestSize t _)
      | @count q => exact absurd heq.symm (count_ne_requestSize q.name _)
      | @start q => exact absurd heq.symm (start_ne_requestSize q.name _)
      | requestSize => exact congrArg (fun name => Variable.mk name _ _) heq

/-! ### What is accessed is generated -/

theorem generated_of_machineVars (h : v ∈ machineVars actor) :
    ∃ g, Generated actor g ∧ g.name = v := by
  unfold machineVars at h
  cases hfsm : actor.fsm with
  | none => simp [hfsm] at h
  | some fsm =>
      obtain ⟨s, hs, rfl⟩ := List.mem_map.mp (by simpa [hfsm] using h)
      exact ⟨_, .state hfsm hs, rfl⟩

theorem generated_of_rewritten (h : v ∈ rewritten actor) : ∃ g, Generated actor g ∧ g.name = v := by
  rcases List.mem_append.mp h with h | h
  · exact generated_of_machineVars h
  · obtain ⟨b, hb, rfl⟩ := List.mem_map.mp h
    obtain ⟨p, hp, hbuffer, rfl⟩ := mem_inputBuffers.mp hb
    exact ⟨_, .requestSize hp hbuffer, rfl⟩

theorem generated_of_initialStores (h : v ∈ accesses (initialStores actor)) :
    ∃ g, Generated actor g ∧ g.name = v := by
  rw [initialStores, accesses_append, List.mem_append] at h
  rcases h with h | h
  · refine generated_of_machineVars ?_
    unfold machineVars
    cases hfsm : actor.fsm with
    | none => simp [hfsm, accesses] at h
    | some fsm => simpa [hfsm, accesses, Instruction.accesses?, List.filterMap_map] using h
  · have hstart : v ∈ (inputBuffers actor).map BufferVars.start := by
      simpa [accesses, Instruction.accesses?, List.filterMap_map] using h
    obtain ⟨b, hb, rfl⟩ := List.mem_map.mp hstart
    obtain ⟨p, hp, hbuffer, rfl⟩ := mem_inputBuffers.mp hb
    exact ⟨_, .start hp hbuffer, rfl⟩

theorem generated_of_loads (h : v ∈ accesses (loads actor).instructions) :
    ∃ g, Generated actor g ∧ g.name = v := by
  have hsource : v ∈ (loadPairs actor).map Prod.snd := by
    simpa [loads_instructions, accesses, Instruction.accesses?, List.filterMap_map] using h
  simp only [loadPairs, List.map_append, List.map_map, List.map_flatMap, List.mem_append,
    List.mem_flatMap, List.mem_map, mem_inputBuffers, mem_outputBuffers] at hsource
  rcases hsource with (⟨s, hs, rfl⟩ | ⟨_, ⟨p, hp, hbuffer, rfl⟩, _, hl, rfl⟩) |
    ⟨_, ⟨p, hp, hbuffer, rfl⟩, rfl⟩
  · exact generated_of_machineVars (List.mem_map_of_mem hs)
  · simp only [List.mem_cons, List.not_mem_nil, or_false] at hl
    rcases hl with rfl | rfl
    · exact ⟨_, .count (List.mem_append_left _ hp) hbuffer, rfl⟩
    · exact ⟨_, .start hp hbuffer, rfl⟩
  · exact ⟨_, .count (List.mem_append_right _ hp) hbuffer, rfl⟩

/-- A scheduler accesses variables that lowering generates, and no others. -/
theorem generated_of_accessed (hv : Valid actor) {p : Procedure}
    (hlower : lower actor skipFill = .ok p) (h : v ∈ p.accessed) :
    ∃ g, Generated actor g ∧ g.name = v := by
  cases hparts : actor.actions.mapM (checks actor) with
  | error e =>
      simp only [lower, hparts, bind, Except.bind] at hlower
      cases hlower
  | ok parts =>
      cases hblocks : choice actor skipFill with
      | error e =>
          simp only [lower, hparts, hblocks, bind, Except.bind] at hlower
          cases hlower
      | ok blocks =>
          have hchecks : ∀ ps ∈ parts, ∀ part ∈ ps, accesses part.instructions = [] := by
            intro ps hps part hpart
            obtain ⟨a, -, ha⟩ := (mapM_ok hparts).1 ps hps
            refine ChecksOnly.accesses fun i hi => (checks_ok ha).1 i ?_
            exact List.mem_flatMap.mpr ⟨part, hpart, hi⟩
          simp only [lower, hparts, hblocks, bind, Except.bind] at hlower
          cases hlower
          simp only [Procedure.accessed, List.flatMap_append, List.flatMap_cons, List.flatMap_nil,
            accessed_basicUnlessEmpty, Block.accessed, Block.all_eq_flatMap, List.append_nil,
            List.flatMap_map, List.mem_append, List.mem_flatMap, List.mem_flatten] at h
          rcases h with h | ((h | ⟨part, ⟨ps, hps, hpart⟩, h⟩) | ⟨b, hb, h⟩) | h
          · exact generated_of_initialStores h
          · exact generated_of_loads h
          · rw [hchecks ps hps part hpart] at h
            exact absurd h List.not_mem_nil
          · exact generated_of_rewritten
              (choice_accesses hv hblocks (List.mem_flatMap.mpr ⟨b, hb, h⟩))
          · exact absurd h List.not_mem_nil

/-! ### Declarations -/

/-- The declarations of a name. -/
def declaredAs (vs : List Variable) (name : String) : List Variable := vs.filter (·.name = name)

theorem declaredAs_declare (vs : List Variable) (w : Variable) (name : String) :
    declaredAs (declare vs w) name =
      if w.name = name ∧ declaredAs vs name = [] then [w] else declaredAs vs name := by
  unfold declare declaredAs
  by_cases hname : w.name = name
  · subst hname
    by_cases hany : vs.any (·.name = w.name)
    · have hne : vs.filter (·.name = w.name) ≠ [] := by
        intro hnil
        obtain ⟨u, hu, heq⟩ := List.any_eq_true.mp hany
        exact List.filter_eq_nil_iff.mp hnil u hu heq
      rw [if_pos hany, if_neg fun h => hne h.2]
    · have hnil : vs.filter (·.name = w.name) = [] :=
        List.filter_eq_nil_iff.mpr fun u hu heq => hany (List.any_eq_true.mpr ⟨u, hu, heq⟩)
      rw [if_neg hany, if_pos ⟨rfl, hnil⟩, List.filter_append, hnil]
      simp
  · simp only [hname, false_and, if_false]
    split
    · rfl
    · simp [List.filter_append, hname]

/-- A name that is free is declared as it is in the list; one that is taken stays what it was. -/
theorem declaredAs_foldl {ws : List Variable} {g : Variable}
    (hunique : ∀ w ∈ ws, w.name = g.name → w = g) (vs : List Variable) :
    declaredAs (ws.foldl declare vs) g.name =
      if g ∈ ws ∧ declaredAs vs g.name = [] then [g] else declaredAs vs g.name := by
  induction ws generalizing vs with
  | nil => simp
  | cons w ws ih =>
      rw [List.foldl_cons, ih (fun u hu => hunique u (List.mem_cons_of_mem _ hu)),
        declaredAs_declare]
      by_cases hw : w.name = g.name
      · obtain rfl := hunique w List.mem_cons_self hw
        by_cases hnil : declaredAs vs w.name = [] <;> simp [hnil]
      · have hne : g ≠ w := fun heq => hw (heq ▸ rfl)
        simp [hw, hne]

/-- A generated variable is declared once, as it was generated, if the actor does not declare its name.
Otherwise the declarations of the actor stand. -/
theorem Generated.declaredAs {g : Variable} (h : Generated actor g) :
    declaredAs (declareState actor).stateVars g.name =
      if declaredAs actor.stateVars g.name = [] then [g]
      else declaredAs actor.stateVars g.name := by
  have hunique : ∀ w ∈ stateVariables actor, w.name = g.name → w = g := fun w hw heq =>
    (mem_stateVariables_iff.mp hw).eq_of_name h heq
  have hfold := declaredAs_foldl hunique actor.stateVars
  simp only [mem_stateVariables_iff.mpr h, true_and] at hfold
  exact hfold

end Scheduler

end DataflowSynth
