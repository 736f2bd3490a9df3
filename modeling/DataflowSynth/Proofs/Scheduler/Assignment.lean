/-
Definite assignment.

A procedure is run with locals that have no value yet, and an expression that reads one of them before
it is set cannot be evaluated.  `Definite` says of blocks that this cannot happen: with values for the
locals that are known at the start, every local that is read has been set before, whichever way the
branches go.  What a branch sets is not counted after it, because it may not have been taken.

A definite list of blocks can then only fail for want of an answer from the world.
-/
import DataflowSynth.Proofs.Build.Outcome
import DataflowSynth.Scheduler.Dispatch

namespace DataflowSynth

/-! ### Reads and targets -/

/-- The locals that an expression reads. -/
def Expr.reads : Expr → List String
  | .bool _ | .int _ => []
  | .var name => [name]
  | .binary _ lhs rhs => lhs.reads ++ rhs.reads
  | .not e => e.reads

@[simp] theorem Expr.reads_and (lhs rhs : Expr) :
    (Expr.and lhs rhs).reads = lhs.reads ++ rhs.reads := rfl

namespace Instruction

/-- The locals that an instruction reads. -/
def reads : Instruction → List String
  | .assign _ value | .store _ value | .ret (some value) => value.reads
  | .load _ _ | .call _ _ | .portStatus _ _ | .ret none => []

/-- The local that an instruction sets. -/
def target? : Instruction → Option String
  | .assign target _ | .load target _ | .call (some target) _ | .portStatus target _ => some target
  | .store _ _ | .call none _ | .ret _ => none

end Instruction

/-- The locals that instructions set. -/
def targets (is : List Instruction) : List String := is.filterMap Instruction.target?

@[simp] theorem targets_nil : targets [] = [] := rfl

@[simp] theorem targets_cons (i : Instruction) (is : List Instruction) :
    targets (i :: is) = i.target?.toList ++ targets is := by
  unfold targets
  cases h : i.target? with
  | none => simp [h]
  | some v => simp [h]

@[simp] theorem targets_append (is js : List Instruction) :
    targets (is ++ js) = targets is ++ targets js :=
  List.filterMap_append

namespace Block

/-- All instructions of a block, those of branches that may not be taken among them. -/
def instructions : Block → List Instruction
  | .basic is => is
  | .branch _ thenBlocks elseBlocks => all thenBlocks ++ all elseBlocks
  | .loop _ body => all body
  | .mutex blocks => all blocks
where
  all : List Block → List Instruction
    | [] => []
    | b :: bs => instructions b ++ all bs

/-- All conditions of a block. -/
def conditions : Block → List Expr
  | .basic _ => []
  | .branch cond thenBlocks elseBlocks => cond :: (all thenBlocks ++ all elseBlocks)
  | .loop cond body => cond :: all body
  | .mutex blocks => all blocks
where
  all : List Block → List Expr
    | [] => []
    | b :: bs => conditions b ++ all bs

theorem instructions_all_append (as bs : List Block) :
    instructions.all (as ++ bs) = instructions.all as ++ instructions.all bs := by
  induction as with
  | nil => rfl
  | cons a as ih => simp only [List.cons_append, instructions.all, ih, List.append_assoc]

theorem conditions_all_append (as bs : List Block) :
    conditions.all (as ++ bs) = conditions.all as ++ conditions.all bs := by
  induction as with
  | nil => rfl
  | cons a as ih => simp only [List.cons_append, conditions.all, ih, List.append_assoc]

end Block

namespace Procedure

/-- All instructions of a procedure. -/
def instructions (p : Procedure) : List Instruction := Block.instructions.all p.blocks

/-- All conditions of a procedure. -/
def conditions (p : Procedure) : List Expr := Block.conditions.all p.blocks

/-- The locals that a procedure assigns somewhere. -/
def assigned (p : Procedure) : List String := targets p.instructions

/-- The locals that a procedure reads somewhere. -/
def reads (p : Procedure) : List String :=
  p.instructions.flatMap Instruction.reads ++ p.conditions.flatMap Expr.reads

end Procedure

/-! ### Definite instructions -/

/-- Each instruction reads locals only that are known or were set by an instruction before it. -/
def Definite (known : List String) : List Instruction → Prop
  | [] => True
  | i :: is => i.reads ⊆ known ∧ Definite (i.target?.toList ++ known) is

section

variable {known known' : List String} {i : Instruction} {is js : List Instruction} {v : String}

theorem Definite.mono (h : Definite known is) (hsub : known ⊆ known') : Definite known' is := by
  induction is generalizing known known' with
  | nil => trivial
  | cons i is ih =>
      exact ⟨List.Subset.trans h.1 hsub, ih h.2 (List.append_subset.mpr
        ⟨List.subset_append_left _ _, List.Subset.trans hsub (List.subset_append_right _ _)⟩)⟩

theorem Definite.append (his : Definite known is) (hjs : Definite (targets is ++ known) js) :
    Definite known (is ++ js) := by
  induction is generalizing known with
  | nil => exact hjs
  | cons i is ih =>
      refine ⟨his.1, ih his.2 (hjs.mono fun v hv => ?_)⟩
      simp only [targets_cons, List.mem_append] at hv ⊢
      grind

/-- Instructions that only read what is known. -/
theorem definite_of_reads (h : ∀ i ∈ is, i.reads ⊆ known) : Definite known is := by
  induction is generalizing known with
  | nil => trivial
  | cons i is ih =>
      refine ⟨h i (by simp), ih fun j hj => ?_⟩
      exact List.Subset.trans (h j (by simp [hj])) (List.subset_append_right _ _)

theorem Definite.reads_mem (h : Definite known is) (hi : i ∈ is) (hv : v ∈ i.reads) :
    v ∈ known ∨ v ∈ targets is := by
  induction is generalizing known with
  | nil => cases hi
  | cons j is ih =>
      rw [targets_cons, List.mem_append]
      rcases List.mem_cons.mp hi with rfl | hi
      · exact .inl (h.1 hv)
      · have hmem := ih h.2 hi
        rw [List.mem_append] at hmem
        grind

end

/-! ### Definite blocks -/

namespace Block

/-- The locals that have a value whenever the block has ended. -/
def settles : Block → List String
  | .basic is => targets is
  | .branch _ _ _ | .loop _ _ => []
  | .mutex blocks => all blocks
where
  all : List Block → List String
    | [] => []
    | b :: bs => settles b ++ all bs

/-- No local is read before it is set, if the known ones are set, and there is no loop. -/
def Definite : List String → Block → Prop
  | known, .basic is => DataflowSynth.Definite known is
  | known, .branch cond thenBlocks elseBlocks =>
    cond.reads ⊆ known ∧ all known thenBlocks ∧ all known elseBlocks
  | _, .loop _ _ => False
  | known, .mutex blocks => all known blocks
where
  all : List String → List Block → Prop
    | _, [] => True
    | known, b :: bs => Definite known b ∧ all (settles b ++ known) bs

mutual

theorem settles_subset : (b : Block) → b.settles ⊆ targets b.instructions
  | .basic _ => List.Subset.refl _
  | .branch _ _ _ | .loop _ _ => List.nil_subset _
  | .mutex blocks => settles_all_subset blocks

theorem settles_all_subset : (bs : List Block) → settles.all bs ⊆ targets (instructions.all bs)
  | [] => List.Subset.refl _
  | b :: bs => by
      rw [instructions.all, targets_append]
      exact List.append_subset.mpr ⟨List.subset_append_of_subset_left _ (settles_subset b),
        List.subset_append_of_subset_right _ (settles_all_subset bs)⟩

end

theorem Definite.all_append {known : List String} {as bs : List Block} (has : Definite.all known as)
    (hbs : ∀ known', known ⊆ known' → settles.all as ⊆ known' → Definite.all known' bs) :
    Definite.all known (as ++ bs) := by
  induction as generalizing known with
  | nil => exact hbs known (List.Subset.refl _) (List.nil_subset _)
  | cons a as ih =>
      refine ⟨has.1, ih has.2 fun known' hknown hset => hbs known' ?_ ?_⟩
      · exact List.Subset.trans (List.subset_append_right _ _) hknown
      · exact List.append_subset.mpr ⟨List.Subset.trans (List.subset_append_left _ _) hknown, hset⟩

end Block

section

variable {known : List String} {v : String}

mutual

/-- Whatever a definite block reads is known or assigned somewhere in it. -/
theorem Block.Definite.reads_mem : {b : Block} → {known : List String} → b.Definite known →
    v ∈ b.instructions.flatMap Instruction.reads ++ b.conditions.flatMap Expr.reads →
    v ∈ known ∨ v ∈ targets b.instructions
  | .basic is, known, h, hv => by
      simp only [instructions, conditions, List.flatMap_nil, List.append_nil,
        List.mem_flatMap] at hv
      obtain ⟨i, hi, hv⟩ := hv
      exact DataflowSynth.Definite.reads_mem h hi hv
  | .branch cond thenBlocks elseBlocks, known, h, hv => by
      have hthen := Block.Definite.reads_mem_all h.2.1
      have helse := Block.Definite.reads_mem_all h.2.2
      have hcond : v ∈ cond.reads → v ∈ known := fun hv => h.1 hv
      simp only [instructions, conditions, List.flatMap_append, List.flatMap_cons,
        List.mem_append, targets_append] at hv hthen helse ⊢
      grind
  | .loop _ _, _, h, _ => h.elim
  | .mutex _, _, h, hv => Block.Definite.reads_mem_all h hv

theorem Block.Definite.reads_mem_all : {bs : List Block} → {known : List String} →
    Block.Definite.all known bs →
    v ∈ (Block.instructions.all bs).flatMap Instruction.reads ++
      (Block.conditions.all bs).flatMap Expr.reads →
    v ∈ known ∨ v ∈ targets (Block.instructions.all bs)
  | [], _, _, hv => absurd hv List.not_mem_nil
  | b :: bs, known, h, hv => by
      have hb := Block.Definite.reads_mem h.1
      have hbs := Block.Definite.reads_mem_all h.2
      have hsettles := b.settles_subset (a := v)
      simp only [instructions.all, conditions.all, List.flatMap_append, List.mem_append,
        targets_append] at hv hb hbs ⊢
      grind

end

end

/-! ### Definite blocks do not get stuck -/

namespace Dispatcher

open Build

variable {d : Dispatcher} {s : Traced Round} {known : List String}

/-- All of the locals have a value. -/
def HasValues (names : List String) (locals : Valuation) : Prop :=
  ∀ v ∈ names, locals[v]?.isSome

/-- The world does not give the answer that an instruction asks for, and the round fails. -/
inductive Unanswered (d : Dispatcher) : Instruction → Failure → Prop
  | guard {target guard : String} (h : d.guards[guard]? = none) :
      Unanswered d (.call (some target) guard) (.error (.refused (.noGuardResult guard)))
  | status {target port : String} (h : d.statuses[port]? = none) :
      Unanswered d (.portStatus target port) (.error (.refused (.noPortStatus port)))

theorem HasValues.insert {locals : Valuation} (h : HasValues known locals) (v : String) (x : Int64) :
    HasValues (v :: known) (locals.insert v x) := by
  intro w hw
  rw [Std.HashMap.getElem?_insert]
  split
  · rfl
  · next hne =>
    rcases List.mem_cons.mp hw with rfl | hw
    · exact absurd (beq_self_eq_true w) hne
    · exact h w hw

/-- An expression has a value when everything it reads has one. -/
theorem eval_ok_of_reads {locals : Valuation} {e : Expr} (h : HasValues e.reads locals) :
    ∃ x, e.eval locals = .ok x := by
  induction e with
  | bool b => exact ⟨_, rfl⟩
  | int i => exact ⟨_, rfl⟩
  | var name =>
      obtain ⟨x, hx⟩ := Option.isSome_iff_exists.mp (h name (List.mem_singleton_self name))
      exact ⟨x, by rw [Expr.eval, hx]⟩
  | binary op lhs rhs ihl ihr =>
      obtain ⟨x, hx⟩ := ihl fun v hv => h v (List.mem_append_left _ hv)
      obtain ⟨y, hy⟩ := ihr fun v hv => h v (List.mem_append_right _ hv)
      exact ⟨op.apply x y, by rw [Expr.eval, hx, hy]; rfl⟩
  | not e ih =>
      obtain ⟨x, hx⟩ := ih h
      exact ⟨truth (x = 0), by rw [Expr.eval, hx]; rfl⟩

theorem wp_eval_of_reads {e : Expr} {Q : Int64 → Traced Round → Prop}
    {F : Failure → Traced Round → Prop} (h : HasValues e.reads s.state.locals) (hok : ∀ x, Q x s) :
    wp (eval e) Q F s := by
  obtain ⟨x, hx⟩ := eval_ok_of_reads h
  rw [eval, wp_bind, wp_look, hx]
  exact hok x

theorem wp_demand_or {answer : Option Bool} {refusal : Refusal} {Q : Bool → Traced Round → Prop}
    {F : Failure → Traced Round → Prop} (hok : ∀ x, Q x s)
    (hnone : answer = none → F (.error (.refused refusal)) s) : wp (demand answer refusal) Q F s := by
  cases answer with
  | some x => exact hok x
  | none => exact hnone rfl

/-- An instruction that reads known locals only can fail for want of an answer, and in no other way. -/
theorem wp_exec_definite {i : Instruction} (hi : i.reads ⊆ known)
    (hs : HasValues known s.state.locals) :
    wp (d.exec i) (fun _ t => HasValues (i.target?.toList ++ known) t.state.locals)
      (fun e _ => Unanswered d i e) s := by
  have hreads : HasValues i.reads s.state.locals := fun v hv => hs v (hi hv)
  cases i with
  | assign target value =>
      rw [exec, wp_bind]
      exact wp_eval_of_reads hreads fun x => hs.insert target x
  | load target source => exact hs.insert target _
  | store target value =>
      rw [exec, wp_bind]
      exact wp_eval_of_reads hreads fun _ => hs
  | call target procedure =>
      cases target with
      | none => exact hs
      | some target =>
          rw [exec, wp_bind]
          exact wp_demand_or (fun x => hs.insert target (truth x)) .guard
  | portStatus target port =>
      rw [exec, wp_bind]
      exact wp_demand_or (fun x => hs.insert target (truth x)) .status
  | ret value => exact hs

theorem wp_instructions_definite {is : List Instruction} (h : Definite known is)
    (hs : HasValues known s.state.locals) :
    wp (is.forM d.exec) (fun _ t => HasValues (targets is ++ known) t.state.locals)
      (fun e _ => ∃ i ∈ is, Unanswered d i e) s := by
  induction is generalizing known s with
  | nil => exact hs
  | cons i is ih =>
      rw [wp_forM_cons]
      refine wp_mono (wp_exec_definite h.1 hs) (fun _ t ht => ?_) fun e _ he => ⟨i, by simp, he⟩
      refine wp_mono (ih h.2 ht) (fun _ u hu v hv => hu v ?_) ?_
      · simp only [targets_cons, List.mem_append] at hv ⊢
        grind
      · rintro e _ ⟨j, hj, he⟩
        exact ⟨j, by simp [hj], he⟩

mutual

/-- A definite block fails for want of an answer only. -/
theorem wp_runBlock_definite {s : Traced Round} : (b : Block) → {known : List String} →
    b.Definite known → HasValues known s.state.locals →
    wp (d.runBlock b) (fun _ t => HasValues (b.settles ++ known) t.state.locals)
      (fun e _ => ∃ i ∈ b.instructions, Unanswered d i e) s
  | .basic is, known, h, hs => by
      rw [runBlock]
      exact wp_instructions_definite h hs
  | .branch cond thenBlocks elseBlocks, known, h, hs => by
      obtain ⟨hcond, hthen, helse⟩ := h
      rw [runBlock, wp_bind]
      refine wp_eval_of_reads (fun v hv => hs v (hcond hv)) fun x => ?_
      split
      · refine wp_mono (wp_runBlocks_definite thenBlocks hthen hs) (fun _ t ht v hv => ?_) ?_
        · exact ht v (List.mem_append_right _ hv)
        · rintro e _ ⟨i, hi, he⟩
          exact ⟨i, List.mem_append_left _ hi, he⟩
      · refine wp_mono (wp_runBlocks_definite elseBlocks helse hs) (fun _ t ht v hv => ?_) ?_
        · exact ht v (List.mem_append_right _ hv)
        · rintro e _ ⟨i, hi, he⟩
          exact ⟨i, List.mem_append_right _ hi, he⟩
  | .loop _ _, _, h, _ => h.elim
  | .mutex blocks, known, h, hs => by
      rw [runBlock]
      exact wp_runBlocks_definite blocks h hs

theorem wp_runBlocks_definite {s : Traced Round} : (bs : List Block) → {known : List String} →
    Block.Definite.all known bs → HasValues known s.state.locals →
    wp (runBlock.runBlocks d bs)
      (fun _ t => HasValues (Block.settles.all bs ++ known) t.state.locals)
      (fun e _ => ∃ i ∈ Block.instructions.all bs, Unanswered d i e) s
  | [], _, _, hs => hs
  | b :: bs, known, h, hs => by
      rw [runBlock.runBlocks, wp_bind]
      refine wp_mono (wp_runBlock_definite b h.1 hs) (fun _ t ht => ?_) ?_
      · refine wp_mono (wp_runBlocks_definite bs h.2 ht) (fun _ u hu v hv => hu v ?_) ?_
        · simp only [Block.settles.all, List.mem_append] at hv ⊢
          grind
        · rintro e _ ⟨i, hi, he⟩
          exact ⟨i, List.mem_append_right _ hi, he⟩
      · rintro e _ ⟨i, hi, he⟩
        exact ⟨i, List.mem_append_left _ hi, he⟩

end

/-- A round of a scheduler whose parts are definite fails for want of an answer only. -/
theorem step_of_definite {front body : List Block}
    (hsplit : splitAtLoop? d.scheduler.blocks = some (front, .bool true, body))
    (hfront : Block.Definite.all [] front) (hbody : Block.Definite.all [] body) {e : Failure}
    (he : d.step.1 = .error e) :
    ∃ i ∈ Block.instructions.all front ++ Block.instructions.all body, Unanswered d i e := by
  have hloop : ∀ t : Traced Round, wp (do
      if (← eval (.bool true)) ≠ 0 then runBlock.runBlocks d body) (fun _ _ => True)
      (fun e _ => ∃ i ∈ Block.instructions.all front ++ Block.instructions.all body,
        Unanswered d i e) t := by
    intro t
    refine wp_mono (wp_runBlocks_definite (s := t) body hbody fun _ hv => ?_) (fun _ _ _ => trivial) ?_
    · exact absurd hv List.not_mem_nil
    · rintro e _ ⟨i, hi, he⟩
      exact ⟨i, List.mem_append_right _ hi, he⟩
  have hround : wp (d.round front (.bool true) body) (fun _ _ => True)
      (fun e _ => ∃ i ∈ Block.instructions.all front ++ Block.instructions.all body,
        Unanswered d i e) ⟨{ state := d.state }, #[]⟩ := by
    unfold Dispatcher.round
    cases d.started with
    | true => exact hloop _
    | false =>
        show wp (runBlock.runBlocks d front >>= fun _ => _) _ _ _
        rw [wp_bind]
        refine wp_mono (wp_runBlocks_definite front hfront fun _ hv => ?_) (fun _ t _ => hloop t) ?_
        · exact absurd hv List.not_mem_nil
        · rintro e _ ⟨i, hi, he⟩
          exact ⟨i, List.mem_append_left _ hi, he⟩
  unfold wp at hround
  simp only [step, hsplit, Build.run] at he
  split at hround
  · next h =>
    rw [h] at he
    cases he
  · next h =>
    rw [h] at he
    cases he
    exact hround

end Dispatcher

end DataflowSynth
