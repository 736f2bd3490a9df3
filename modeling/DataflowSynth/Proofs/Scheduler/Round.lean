/-
How the parts of a round act.

`Runs x r r'` says that a step leads from one point of a round to another without failing.  There is
one lemma for each instruction and each kind of block, and after them nothing looks inside the
interpreter again.  Instructions before the choice only ever set locals, so what they do is said by
the locals alone (`Sets`).
-/
import DataflowSynth.Scheduler.Dispatch
import DataflowSynth.Scheduler.Lowering

namespace DataflowSynth

/-! ### Values -/

theorem truth_ne_zero {b : Bool} : truth b ≠ 0 ↔ b = true := by
  cases b <;> simp [truth]

theorem eval_and {locals : Valuation} {x y : Expr} {p q : Bool}
    (hx : x.eval locals = .ok (truth p)) (hy : y.eval locals = .ok (truth q)) :
    (Expr.and x y).eval locals = .ok (truth (p && q)) := by
  simp only [Expr.and, Expr.eval, hx, hy]
  cases p <;> cases q <;> rfl

theorem eval_var {locals : Valuation} {name : String} {v : Int64} (h : locals[name]? = some v) :
    (Expr.var name).eval locals = .ok v := by
  simp [Expr.eval, h]

theorem eval_atLeast {locals : Valuation} {name : String} {v : Int64} (n : Int64)
    (h : locals[name]? = some v) :
    (Expr.binary .ge (.var name) (.int n)).eval locals = .ok (truth (n.toInt ≤ v.toInt)) := by
  simp only [Expr.eval, h, BinaryOp.apply, ge_iff_le, Int64.le_iff_toInt_le]
  rfl

theorem eval_isZero {locals : Valuation} {name : String} {v : Int64}
    (h : locals[name]? = some v) :
    (Expr.binary .eq (.var name) (.int 0)).eval locals = .ok (truth (v.toInt = 0)) := by
  have hzero : v = 0 ↔ v.toInt = 0 := by rw [← Int64.toInt_inj, Int64.toInt_zero]
  simp only [Expr.eval, h, ← hzero]
  rfl

namespace Dispatcher

/-- The step leads from `r` to `r'`. -/
def Runs (x : Step Unit) (r r' : Round) : Prop := ∀ j : Journal, x ⟨r, j⟩ = .ok () ⟨r', j⟩

theorem Runs.pure (r : Round) : Runs (pure ()) r r := fun _ => rfl

theorem Runs.bind {x : Step Unit} {f : Unit → Step Unit} {r s t : Round} (hx : Runs x r s)
    (hf : Runs (f ()) s t) : Runs (x >>= f) r t := by
  intro j
  rw [Build.bind_apply, hx j]
  exact hf j

variable {d : Dispatcher}

/-! ### Instructions -/

theorem runs_eval_bind {e : Expr} {v : Int64} {f : Int64 → Step Unit} {r r' : Round}
    (he : e.eval r.locals = .ok v) (hf : Runs (f v) r r') : Runs (eval e >>= f) r r' := by
  intro j
  have heval : eval e ⟨r, j⟩ = .ok v ⟨r, j⟩ := by
    simp [eval, Build.bind_apply, he, Build.ofExcept]
  rw [Build.bind_apply, heval]
  exact hf j

theorem runs_assign {target : String} {e : Expr} {v : Int64} {r : Round}
    (he : e.eval r.locals = .ok v) :
    Runs (d.exec (.assign target e)) r { r with locals := r.locals.insert target v } :=
  runs_eval_bind he fun _ => rfl

theorem runs_load (target source : String) (r : Round) :
    Runs (d.exec (.load target source)) r
      { r with locals := r.locals.insert target (r.state[source]?.getD 0) } :=
  fun _ => rfl

theorem runs_store {target : String} {e : Expr} {v : Int64} {r : Round}
    (he : e.eval r.locals = .ok v) :
    Runs (d.exec (.store target e)) r { r with state := r.state.insert target v } :=
  runs_eval_bind he fun _ => rfl

theorem runs_guard {target procedure : String} {b : Bool} (h : d.guards[procedure]? = some b)
    (r : Round) :
    Runs (d.exec (.call (some target) procedure)) r
      { r with locals := r.locals.insert target (truth b) } := by
  intro j
  simp only [exec, demand, h]
  rfl

theorem runs_call (procedure : String) (r : Round) :
    Runs (d.exec (.call none procedure)) r { r with fired := r.fired ++ [procedure] } :=
  fun _ => rfl

theorem runs_status {target port : String} {b : Bool} (h : d.statuses[port]? = some b)
    (r : Round) :
    Runs (d.exec (.portStatus target port)) r
      { r with locals := r.locals.insert target (truth b) } := by
  intro j
  simp only [exec, demand, h]
  rfl

/-! ### Lists of instructions -/

theorem runs_nil (r : Round) : Runs (([] : List Instruction).forM d.exec) r r := fun _ => rfl

theorem runs_cons {i : Instruction} {is : List Instruction} {r s t : Round}
    (hi : Runs (d.exec i) r s) (his : Runs (is.forM d.exec) s t) :
    Runs ((i :: is).forM d.exec) r t := by
  show Runs (d.exec i >>= fun _ => is.forM d.exec) r t
  exact hi.bind his

theorem runs_append {is js : List Instruction} {r s t : Round} (his : Runs (is.forM d.exec) r s)
    (hjs : Runs (js.forM d.exec) s t) : Runs ((is ++ js).forM d.exec) r t := by
  show Runs (forM (is ++ js) d.exec) r t
  rw [List.forM_append]
  exact Runs.bind his hjs

/-- The instructions change the locals of the round to `locals` and nothing else. -/
def Sets (d : Dispatcher) (is : List Instruction) (r : Round) (locals : Valuation) : Prop :=
  Runs (is.forM d.exec) r { r with locals }

theorem Sets.append {is js : List Instruction} {r : Round} {l m : Valuation} (his : d.Sets is r l)
    (hjs : d.Sets js { r with locals := l } m) : d.Sets (is ++ js) r m :=
  runs_append his hjs

theorem Sets.nil (r : Round) : d.Sets [] r r.locals := runs_nil r

theorem Sets.assign {target : String} {e : Expr} {v : Int64} {r : Round}
    (he : e.eval r.locals = .ok v) : d.Sets [.assign target e] r (r.locals.insert target v) :=
  runs_cons (runs_assign he) (runs_nil _)

theorem Sets.guard {target procedure : String} {b : Bool} (h : d.guards[procedure]? = some b)
    (r : Round) :
    d.Sets [.call (some target) procedure] r (r.locals.insert target (truth b)) :=
  runs_cons (runs_guard h r) (runs_nil _)

theorem Sets.status {target port : String} {b : Bool} (h : d.statuses[port]? = some b)
    (r : Round) : d.Sets [.portStatus target port] r (r.locals.insert target (truth b)) :=
  runs_cons (runs_status h r) (runs_nil _)

/-- Loads one after the other.  A local may be loaded twice, as long as it is from one variable:
nothing is stored in between. -/
theorem sets_loads (ls : List (String × String))
    (hsource : ∀ l ∈ ls, ∀ l' ∈ ls, l.1 = l'.1 → l.2 = l'.2) :
    ∀ r : Round, ∃ locals, d.Sets (ls.map fun l => .load l.1 l.2) r locals ∧
      (∀ l ∈ ls, locals[l.1]? = some (r.state[l.2]?.getD 0)) ∧
      ∀ v, v ∉ ls.map Prod.fst → locals[v]? = r.locals[v]? := by
  induction ls with
  | nil => intro r; exact ⟨r.locals, Sets.nil r, by simp, fun _ _ => rfl⟩
  | cons l ls ih =>
      intro r
      obtain ⟨locals, hsets, hloaded, hframe⟩ :=
        ih (fun k hk k' hk' => hsource k (by simp [hk]) k' (by simp [hk']))
          { r with locals := r.locals.insert l.1 (r.state[l.2]?.getD 0) }
      refine ⟨locals, runs_cons (runs_load l.1 l.2 r) hsets, ?_, ?_⟩
      · intro k hk
        rcases List.mem_cons.mp hk with rfl | hk
        · by_cases hagain : k.1 ∈ ls.map Prod.fst
          · obtain ⟨k', hk', heq⟩ := List.mem_map.mp hagain
            rw [← heq, hloaded k' hk', hsource k (by simp) k' (by simp [hk']) heq.symm]
          · rw [hframe _ hagain]
            simp
        · exact hloaded k hk
      · intro v hv
        rw [List.map_cons, List.mem_cons, not_or] at hv
        rw [hframe v hv.2]
        simp [Std.HashMap.getElem?_insert, Ne.symm hv.1]

/-- Stores of values that need no local, one after the other.  What a variable holds afterwards is
plain as long as it is not stored twice with different values. -/
theorem runs_stores (ss : List (String × Expr)) (value : Expr → Int64)
    (hvalue : ∀ s ∈ ss, ∀ locals, s.2.eval locals = .ok (value s.2)) :
    ∀ r : Round, ∃ state, Runs ((ss.map fun s => Instruction.store s.1 s.2).forM d.exec) r
        { r with state } ∧
      ((∀ s ∈ ss, ∀ s' ∈ ss, s.1 = s'.1 → value s.2 = value s'.2) →
        ∀ s ∈ ss, state[s.1]? = some (value s.2)) ∧
      ∀ v, v ∉ ss.map Prod.fst → state[v]? = r.state[v]? := by
  induction ss with
  | nil => intro r; exact ⟨r.state, runs_nil r, by simp, fun _ _ => rfl⟩
  | cons s ss ih =>
      intro r
      obtain ⟨state, hruns, hstored, hframe⟩ :=
        ih (fun t ht => hvalue t (by simp [ht]))
          { r with state := r.state.insert s.1 (value s.2) }
      refine ⟨state, runs_cons (runs_store (hvalue s (by simp) _)) hruns, ?_, ?_⟩
      · intro hsame t ht
        have hstored := hstored fun k hk k' hk' => hsame k (by simp [hk]) k' (by simp [hk'])
        rcases List.mem_cons.mp ht with rfl | ht
        · by_cases hagain : t.1 ∈ ss.map Prod.fst
          · obtain ⟨t', ht', heq⟩ := List.mem_map.mp hagain
            rw [← heq, hstored t' ht', hsame t (by simp) t' (by simp [ht']) heq.symm]
          · rw [hframe _ hagain]
            simp
        · exact hstored t ht
      · intro v hv
        rw [List.map_cons, List.mem_cons, not_or] at hv
        rw [hframe v hv.2]
        simp [Std.HashMap.getElem?_insert, Ne.symm hv.1]

/-! ### Blocks -/

theorem runs_blocks_nil (r : Round) : Runs (runBlock.runBlocks d []) r r := fun _ => rfl

theorem runs_blocks_cons {b : Block} {bs : List Block} {r s t : Round} (hb : Runs (d.runBlock b) r s)
    (hbs : Runs (runBlock.runBlocks d bs) s t) : Runs (runBlock.runBlocks d (b :: bs)) r t := by
  simp only [runBlock.runBlocks]
  exact hb.bind hbs

theorem runBlocks_append (as bs : List Block) :
    runBlock.runBlocks d (as ++ bs) =
      (do runBlock.runBlocks d as; runBlock.runBlocks d bs) := by
  induction as with
  | nil => simp only [runBlock.runBlocks, List.nil_append, pure_bind]
  | cons a as ih => simp only [runBlock.runBlocks, List.cons_append, ih, bind_assoc]

theorem runs_blocks_append {as bs : List Block} {r s t : Round}
    (has : Runs (runBlock.runBlocks d as) r s) (hbs : Runs (runBlock.runBlocks d bs) s t) :
    Runs (runBlock.runBlocks d (as ++ bs)) r t := by
  rw [runBlocks_append]
  exact has.bind hbs

theorem runs_basic {is : List Instruction} {r s : Round} (h : Runs (is.forM d.exec) r s) :
    Runs (d.runBlock (.basic is)) r s := by
  simpa only [runBlock] using h

theorem runs_mutex {bs : List Block} {r s : Round} (h : Runs (runBlock.runBlocks d bs) r s) :
    Runs (d.runBlock (.mutex bs)) r s := by
  simpa only [runBlock] using h

theorem runs_branch {cond : Expr} {v : Int64} {thens elses : List Block} {r s : Round}
    (hcond : cond.eval r.locals = .ok v)
    (h : Runs (runBlock.runBlocks d (if v ≠ 0 then thens else elses)) r s) :
    Runs (d.runBlock (.branch cond thens elses)) r s := by
  simp only [runBlock]
  refine runs_eval_bind hcond ?_
  split <;> simp_all

theorem runs_basicUnlessEmpty {is : List Instruction} {r s : Round}
    (h : Runs (is.forM d.exec) r s) :
    Runs (runBlock.runBlocks d (Scheduler.basicUnlessEmpty is)) r s := by
  cases is with
  | nil => exact h
  | cons i is => exact runs_blocks_cons (runs_basic h) (runs_blocks_nil s)

/-! ### Rounds -/

theorem splitAtLoop?_basicUnlessEmpty (is : List Instruction) (cond : Expr)
    (body rest : List Block) :
    splitAtLoop? (Scheduler.basicUnlessEmpty is ++ .loop cond body :: rest) =
      some (Scheduler.basicUnlessEmpty is, cond, body) := by
  cases is <;> simp [Scheduler.basicUnlessEmpty, splitAtLoop?]

/-- A round without failures is what its two parts are: the front in the first round, and the body
of the loop. -/
theorem step_of_runs {front body : List Block} {r s : Round}
    (hsplit : splitAtLoop? d.scheduler.blocks = some (front, .bool true, body))
    (hfront : if d.started then r = { state := d.state }
      else Runs (runBlock.runBlocks d front) { state := d.state } r)
    (hbody : Runs (runBlock.runBlocks d body) r s) :
    d.step = (.ok s.fired, { d with state := s.state, started := true }) := by
  have hround : Runs (d.round front (.bool true) body) { state := d.state } s := by
    have hloop : Runs (do if (← eval (.bool true)) ≠ 0 then runBlock.runBlocks d body) r s :=
      runs_eval_bind rfl hbody
    unfold round
    cases hstarted : d.started with
    | true =>
        rw [hstarted, if_pos rfl] at hfront
        rw [← hfront]
        exact Runs.bind (f := fun _ => _) (Runs.pure r) hloop
    | false =>
        rw [hstarted, if_neg (by simp)] at hfront
        exact Runs.bind (f := fun _ => _) hfront hloop
  simp only [step, hsplit, Build.run, hround #[]]
  rfl

end Dispatcher

end DataflowSynth
