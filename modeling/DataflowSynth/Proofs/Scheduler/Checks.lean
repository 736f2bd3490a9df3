/-
The checks of a round decide what the dispatch rule asks.

Before the choice a round works out two flags for every action.  `Decides` says of one port check
that it leaves the right answer in its flag; from there the answers are gathered port by port into
the flags of an action, and action by action into those of the whole actor.  At each stage the claim
has a second half, that every other local is left alone, and the next stage rests on that half as
much as on the first.
-/
import DataflowSynth.Proofs.Actor.Validity
import DataflowSynth.Proofs.Scheduler.Locals
import DataflowSynth.Proofs.Scheduler.Round
import DataflowSynth.Proofs.Scheduler.Rule
import Mathlib.Tactic.Choose

namespace DataflowSynth.Scheduler

open Actor Dispatcher

/-! ### Collecting parts -/

theorem foldl_append_instructions (ps : List Part) :
    ∀ p : Part, (ps.foldl Part.append p).instructions =
      p.instructions ++ ps.flatMap Part.instructions := by
  induction ps with
  | nil => intro p; simp
  | cons q ps ih => intro p; simp [ih, Part.append]

theorem joined_instructions (cs : List PortCheck) :
    (joined cs).instructions = cs.flatMap fun c => c.part.instructions := by
  simp [joined, foldl_append_instructions, List.flatMap_map]

/-! ### What a check may rely on -/

/-- The dispatcher asks the world `w`. -/
structure Sees (d : Dispatcher) (w : World) : Prop where
  guards : ∀ g, d.guards[g]? = w.guards g
  statuses : ∀ p, d.statuses[p]? = w.statuses p

/-- The fill of every circular buffer has been loaded. -/
def Loaded (actor : Actor) (w : World) (locals : Valuation) : Prop :=
  ∀ p ∈ actor.ports, p.buffer.isSome →
    locals[(BufferVars.ofPort p.name).tmpCount]? =
      some ((w.values (BufferVars.ofPort p.name).count).getD 0)

theorem Loaded.frame {actor : Actor} {w : World} {l m : Valuation} (h : Loaded actor w l)
    (heq : ∀ p, m[(BufferVars.ofPort p).tmpCount]? = l[(BufferVars.ofPort p).tmpCount]?) :
    Loaded actor w m := by
  intro p hp hbuffer
  rw [heq]
  exact h p hp hbuffer

variable {actor : Actor} {d : Dispatcher} {w : World} {a : Action}

/-! ### One port -/

/-- The check leaves the truth of `b` in its flag and changes no other local. -/
structure Decides (d : Dispatcher) (actor : Actor) (w : World) (a : Action) (port : String)
    (c : PortCheck) (b : Bool) : Prop where
  flag : PortFlag a port c.flag
  sets : ∀ r : Round, Loaded actor w r.locals → ∃ locals,
    d.Sets c.part.instructions r locals ∧ locals[c.flag]? = some (truth b) ∧
      ∀ v, v ≠ c.flag → locals[v]? = r.locals[v]?

theorem insert_decides (locals : Valuation) (name : String) (x : Int64) :
    (locals.insert name x)[name]? = some x ∧
      ∀ v, v ≠ name → (locals.insert name x)[v]? = locals[v]? := by
  refine ⟨by simp, fun v hv => ?_⟩
  simp [Std.HashMap.getElem?_insert, Ne.symm hv]

/-- Sampling a port decides by its status. -/
theorem statusPart_decides (hsees : Sees d w) {port : String}
    (hstatus : (w.statuses port).isSome) :
    Decides d actor w a port ⟨statusFlag a port, statusPart a port⟩
      (w.statuses port = some true) where
  flag := .inr (.inr rfl)
  sets r _ := by
    obtain ⟨b, hb⟩ := Option.isSome_iff_exists.mp hstatus
    have hget := insert_decides r.locals (statusFlag a port) (truth b)
    refine ⟨_, Sets.status (by rw [hsees.statuses, hb]) r, ?_, hget.2⟩
    rw [hget.1, hb]
    cases b <;> rfl

theorem toInt_ofNat_tokens (n : UInt32) : (Int64.ofNat n.toNat).toInt = (n.toNat : Int) := by
  have hlt : n.toNat < 2 ^ 32 := n.toNat_lt
  rw [Int64.toInt_ofNat_of_lt (by omega)]

theorem tokenCheck_decides (hsees : Sees d w) {e : TokenCount} {port : Port}
    (hport : actor.input? e.port = some port)
    (hstatus : port.buffer.isNone → (w.statuses port.name).isSome) :
    ∃ c, tokenCheck actor a e = .ok c ∧ Decides d actor w a e.port c (w.hasTokens actor e) := by
  have hname := name_of_input? hport
  simp only [tokenCheck, World.hasTokens, hport, Port.bufferVars?]
  rw [← hname]
  cases hbuffer : port.buffer with
  | none =>
      refine ⟨_, rfl, ?_⟩
      simpa using statusPart_decides hsees (hstatus (by simp [hbuffer]))
  | some size =>
      refine ⟨_, rfl, .inl rfl, fun r hloaded => ?_⟩
      have hmem : port ∈ actor.ports := List.mem_append_left _ (mem_inputs_of_input? hport)
      have hcount := hloaded port hmem (by simp [hbuffer])
      have heval := eval_atLeast (Int64.ofNat e.tokens.toNat) hcount
      rw [toInt_ofNat_tokens] at heval
      exact ⟨_, Sets.assign heval, insert_decides r.locals _ _⟩

theorem tokenCheck_flag {e e' : TokenCount} {c c' : PortCheck} (h : tokenCheck actor a e = .ok c)
    (h' : tokenCheck actor a e' = .ok c') (hport : e.port = e'.port) : c.flag = c'.flag := by
  unfold tokenCheck at h h'
  rw [hport] at h
  cases hfound : actor.input? e'.port with
  | none => simp [hfound] at h
  | some port =>
      rw [hfound] at h h'
      cases hvars : port.bufferVars? with
      | none =>
          simp only [hvars, Except.ok.injEq] at h h'
          rw [← h, ← h']
      | some v =>
          simp only [hvars, Except.ok.injEq] at h h'
          rw [← h, ← h']

theorem spaceCheck_congr {e e' : TokenCount} (hport : e.port = e'.port) :
    spaceCheck actor a e = spaceCheck actor a e' := by
  rw [spaceCheck, spaceCheck, hport]

theorem World.hasSpace_congr {e e' : TokenCount} (hport : e.port = e'.port) :
    w.hasSpace actor e = w.hasSpace actor e' := by
  rw [hasSpace, hasSpace, hport]

theorem spaceCheck_decides (hsees : Sees d w) {e : TokenCount} {port : Port}
    (hport : actor.output? e.port = some port)
    (hstatus : port.buffer.isNone → (w.statuses port.name).isSome) :
    ∃ c, spaceCheck actor a e = .ok c ∧ Decides d actor w a e.port c (w.hasSpace actor e) := by
  have hname := name_of_output? hport
  simp only [spaceCheck, World.hasSpace, hport, Port.bufferVars?]
  rw [← hname]
  cases hbuffer : port.buffer with
  | none =>
      refine ⟨_, rfl, ?_⟩
      simpa using statusPart_decides hsees (hstatus (by simp [hbuffer]))
  | some size =>
      refine ⟨_, rfl, .inr (.inl rfl), fun r hloaded => ?_⟩
      have hmem : port ∈ actor.ports := List.mem_append_right _ (mem_outputs_of_output? hport)
      have hcount := hloaded port hmem (by simp [hbuffer])
      exact ⟨_, Sets.assign (eval_isZero hcount), insert_decides r.locals _ _⟩

/-! ### The ports of a pattern -/

theorem mapM_eq_ok_map {ε α β : Type} {f : α → Except ε β} {g : α → β} {xs : List α}
    (h : ∀ x ∈ xs, f x = .ok (g x)) : xs.mapM f = .ok (xs.map g) := by
  induction xs with
  | nil => rfl
  | cons x xs ih =>
      rw [List.mapM_cons, h x (by simp), ih fun y hy => h y (by simp [hy])]
      rfl

section

variable {es : Pattern} {e e' x : TokenCount}

/-- The last entry of a pattern for the port of `e`.  A port that is listed twice has one flag, and
this is the entry that the flag is about in the end. -/
def lastEntry (es : Pattern) (e : TokenCount) : TokenCount :=
  (es.reverse.find? fun x => x.port = e.port).getD e

theorem lastEntry_port : (lastEntry es e).port = e.port := by
  unfold lastEntry
  cases h : es.reverse.find? fun x => x.port = e.port with
  | none => rfl
  | some x => simpa using List.find?_some h

theorem lastEntry_cons_of_port (he' : e' ∈ es) (hport : e'.port = e.port) :
    lastEntry (x :: es) e = lastEntry es e' := by
  have hsome : (es.reverse.find? fun x => x.port = e.port).isSome :=
    List.find?_isSome.mpr ⟨e', by simpa using he', by simpa using hport⟩
  obtain ⟨l, hl⟩ := Option.isSome_iff_exists.mp hsome
  simp [lastEntry, List.find?_append, hport, hl]

theorem lastEntry_cons_self (hport : x.port ∉ Pattern.ports es) :
    lastEntry (x :: es) x = x := by
  have hnone : (es.reverse.find? fun y => y.port = x.port) = none := by
    refine List.find?_eq_none.mpr fun y hy => ?_
    simpa using fun h => hport (List.mem_map.mpr ⟨y, by simpa using hy, h⟩)
  simp [lastEntry, List.find?_append, hnone]

/-- An entry of a port that is listed once is the last one. -/
theorem lastEntry_of_nodup (hports : es.ports.Nodup) (he : e ∈ es) : lastEntry es e = e := by
  induction es with
  | nil => cases he
  | cons x es ih =>
      obtain ⟨hx, hes⟩ := List.nodup_cons.mp hports
      rcases List.mem_cons.mp he with rfl | he
      · exact lastEntry_cons_self hx
      · rw [lastEntry_cons_of_port he rfl, ih hes he]

end

/-- The checks of a pattern, run one after the other.  Each flag keeps the answer for the last entry
of its port. -/
theorem joined_sets {check : TokenCount → PortCheck} {answer : TokenCount → Bool} (es : Pattern)
    (hflag : ∀ e ∈ es, ∀ e' ∈ es, e.port = e'.port → (check e).flag = (check e').flag)
    (hdecides : ∀ e ∈ es, Decides d actor w a e.port (check e) (answer e)) :
    ∀ r : Round, Loaded actor w r.locals → ∃ locals,
      d.Sets (joined (es.map check)).instructions r locals ∧
      (∀ e ∈ es, locals[(check e).flag]? = some (truth (answer (lastEntry es e)))) ∧
      ∀ v, (∀ e ∈ es, v ≠ (check e).flag) → locals[v]? = r.locals[v]? := by
  simp only [joined_instructions, List.flatMap_map]
  induction es with
  | nil => intro r _; exact ⟨r.locals, Sets.nil r, by simp, fun _ _ => rfl⟩
  | cons e es ih =>
      intro r hloaded
      have he := hdecides e (by simp)
      obtain ⟨l, hsets, hset, hframe⟩ := he.sets r hloaded
      have hloaded' : Loaded actor w l :=
        hloaded.frame fun p => hframe _ ((CheckLocal.port he.flag).ne_tmpCount p).symm
      obtain ⟨m, hsets', hflags, hframe'⟩ := ih
        (fun e' he' e'' he'' => hflag e' (by simp [he']) e'' (by simp [he'']))
        (fun e' he' => hdecides e' (by simp [he'])) { r with locals := l } hloaded'
      refine ⟨m, hsets.append hsets', ?_, fun v hv => ?_⟩
      · intro e' he'
        rcases List.mem_cons.mp he' with rfl | hmem
        · by_cases hagain : e'.port ∈ Pattern.ports es
          · obtain ⟨e'', hmem, hport⟩ := List.mem_map.mp hagain
            rw [lastEntry_cons_of_port hmem hport,
              hflag e' (by simp) e'' (by simp [hmem]) hport.symm]
            exact hflags e'' hmem
          · rw [lastEntry_cons_self hagain, hframe' _ fun e'' hmem heq => hagain ?_]
            · exact hset
            · have hport := he.flag.port_inj (heq ▸ (hdecides e'' (by simp [hmem])).flag)
              exact List.mem_map.mpr ⟨e'', hmem, hport.symm⟩
        · rw [lastEntry_cons_of_port hmem rfl]
          exact hflags e' hmem
      · rw [hframe' v fun e' he' => hv e' (by simp [he'])]
        exact hframe v (hv e (by simp))

theorem eval_foldl_and {check : TokenCount → PortCheck} {answer : TokenCount → Bool}
    {locals : Valuation} (es : Pattern)
    (h : ∀ e ∈ es, locals[(check e).flag]? = some (truth (answer e))) :
    ∀ {x : Expr} {b : Bool}, x.eval locals = .ok (truth b) →
      ((es.map fun e => Expr.var (check e).flag).foldl Expr.and x).eval locals =
        .ok (truth (b && es.all answer)) := by
  induction es with
  | nil => intro x b hx; simpa using hx
  | cons e es ih =>
      intro x b hx
      rw [List.map_cons, List.foldl_cons,
        ih (fun e' he' => h e' (by simp [he'])) (eval_and hx (eval_var (h e (by simp))))]
      simp [Bool.and_assoc]

/-- The conjunction of the flags is the conjunction of the answers. -/
theorem eval_allFlags? {check : TokenCount → PortCheck} {answer : TokenCount → Bool}
    {locals : Valuation} {es : Pattern}
    (h : ∀ e ∈ es, locals[(check e).flag]? = some (truth (answer e))) {x : Expr}
    (hx : allFlags? (es.map check) = some x) : x.eval locals = .ok (truth (es.all answer)) := by
  cases es with
  | nil => simp [allFlags?, Expr.all?] at hx
  | cons e es =>
      have heq : (es.map fun e => Expr.var (check e).flag).foldl Expr.and (.var (check e).flag)
          = x := by
        simpa [allFlags?, Expr.all?, Function.comp_def] using hx
      rw [← heq, eval_foldl_and es (fun e' he' => h e' (by simp [he'])) (eval_var (h e (by simp)))]
      rfl

theorem allFlags?_eq_none_iff {cs : List PortCheck} : allFlags? cs = none ↔ cs = [] := by
  cases cs <;> simp [allFlags?, Expr.all?]

/-! ### The two checks of an action -/

/-- The action as its flags tell it: an entry of its input pattern counts as the last one of its
port. -/
def settled (a : Action) : Action := { a with inputs := a.inputs.map (lastEntry a.inputs) }

@[simp] theorem goFlag_settled (a : Action) : goFlag (settled a) = goFlag a := rfl

@[simp] theorem fireFlag_settled (a : Action) : fireFlag (settled a) = fireFlag a := rfl

theorem settled_of_nodup (hports : a.inputs.ports.Nodup) : settled a = a := by
  have hinputs : a.inputs.map (lastEntry a.inputs) = a.inputs := by
    simpa using List.map_congr_left fun e he => lastEntry_of_nodup hports he
  rw [settled, hinputs]

/-- What the checks of an action rely on: its ports are there, and the world answers its guard and
tells the status of the ports it samples. -/
structure Checkable (actor : Actor) (w : World) (a : Action) : Prop where
  inputs : ∀ e ∈ a.inputs, (actor.input? e.port).isSome
  outputs : ∀ e ∈ a.outputs, (actor.output? e.port).isSome
  guard : (w.guards a.guard).isSome
  statuses : ∀ p ∈ World.sampled actor a, (w.statuses p.name).isSome

instance : Inhabited PortCheck := ⟨⟨"", {}⟩⟩

theorem tokenChecks_decide (hsees : Sees d w) (h : Checkable actor w a) :
    ∃ check : TokenCount → PortCheck, ∀ e ∈ a.inputs,
      tokenCheck actor a e = .ok (check e) ∧
        Decides d actor w a e.port (check e) (w.hasTokens actor e) := by
  have hall : ∀ e ∈ a.inputs, ∃ c, tokenCheck actor a e = .ok c ∧
      Decides d actor w a e.port c (w.hasTokens actor e) := by
    intro e he
    obtain ⟨port, hport⟩ := Option.isSome_iff_exists.mp (h.inputs e he)
    refine tokenCheck_decides hsees hport fun hnone => h.statuses port ?_
    refine List.mem_filter.mpr ⟨List.mem_append_left _ ?_, hnone⟩
    exact List.mem_filterMap.mpr ⟨e, he, hport⟩
  choose! check hcheck using hall
  exact ⟨check, hcheck⟩

theorem spaceChecks_decide (hsees : Sees d w) (h : Checkable actor w a) :
    ∃ check : TokenCount → PortCheck, ∀ e ∈ a.outputs,
      spaceCheck actor a e = .ok (check e) ∧
        Decides d actor w a e.port (check e) (w.hasSpace actor e) := by
  have hall : ∀ e ∈ a.outputs, ∃ c, spaceCheck actor a e = .ok c ∧
      Decides d actor w a e.port c (w.hasSpace actor e) := by
    intro e he
    obtain ⟨port, hport⟩ := Option.isSome_iff_exists.mp (h.outputs e he)
    refine spaceCheck_decides hsees hport fun hnone => h.statuses port ?_
    refine List.mem_filter.mpr ⟨List.mem_append_right _ ?_, hnone⟩
    exact List.mem_filterMap.mpr ⟨e, he, hport⟩
  choose! check hcheck using hall
  exact ⟨check, hcheck⟩

/-- The first check of an action leaves in its flag whether the action is due. -/
theorem duePart_sets (hsees : Sees d w) (h : Checkable actor w a) :
    ∃ part, duePart actor a = .ok part ∧ ∀ r : Round, Loaded actor w r.locals → ∃ locals,
      d.Sets part.instructions r locals ∧
      locals[goFlag a]? = some (truth (w.due actor (settled a))) ∧
      ∀ v, ¬ CheckLocal a v → locals[v]? = r.locals[v]? := by
  obtain ⟨check, hcheck⟩ := tokenChecks_decide hsees h
  obtain ⟨b, hb⟩ := Option.isSome_iff_exists.mp h.guard
  have hguard : d.guards[a.guard]? = some b := by rw [hsees.guards, hb]
  have hmap := mapM_eq_ok_map fun e he => (hcheck e he).1
  have hjoined := joined_sets a.inputs
    (fun e he e' he' => tokenCheck_flag (hcheck e he).1 (hcheck e' he').1) fun e he => (hcheck e he).2
  have hdue : w.due actor (settled a) =
      (b && a.inputs.all fun e => w.hasTokens actor (lastEntry a.inputs e)) := by
    have hall : (settled a).inputs.all (w.hasTokens actor) =
        a.inputs.all fun e => w.hasTokens actor (lastEntry a.inputs e) := List.all_map
    have hguard : w.guards (settled a).guard = some b := hb
    rw [World.due, hall, hguard]
    cases b <;> simp
  simp only [duePart, hmap]
  cases hall : allFlags? (a.inputs.map check) with
  | none =>
      have hnil : a.inputs = [] := by simpa using allFlags?_eq_none_iff.mp hall
      refine ⟨_, by simp [bind, Except.bind, hall]; rfl, fun r _ => ?_⟩
      have hgo := eval_var (insert_decides r.locals ("return_" ++ a.guard) (truth b)).1
      refine ⟨_, (Sets.guard hguard r).append (Sets.assign hgo), ?_, fun v hv => ?_⟩
      · rw [(insert_decides _ _ _).1, hdue, hnil]
        simp
      · rw [(insert_decides _ _ _).2 v fun heq => hv (heq ▸ .go),
          (insert_decides _ _ _).2 v fun heq => hv (heq ▸ .guard)]
  | some all =>
      refine ⟨_, by simp [bind, Except.bind, hall]; rfl, fun r hloaded => ?_⟩
      obtain ⟨l, hsets, hflags, hframe⟩ := hjoined r hloaded
      have htokens := eval_allFlags? hflags hall
      have hne : "tokenAvailability_" ++ a.name ≠ "return_" ++ a.guard := by
        intro heq
        have hchars := congrArg String.toList heq
        simp at hchars
      have hget := insert_decides l ("tokenAvailability_" ++ a.name)
        (truth (a.inputs.all fun e => w.hasTokens actor (lastEntry a.inputs e)))
      have hget' := insert_decides (l.insert ("tokenAvailability_" ++ a.name)
        (truth (a.inputs.all fun e => w.hasTokens actor (lastEntry a.inputs e))))
        ("return_" ++ a.guard) (truth b)
      have hgo := eval_and (eval_var hget'.1) (eval_var ((hget'.2 _ hne).trans hget.1))
      refine ⟨_, ((hsets.append (Sets.assign htokens)).append (Sets.guard hguard _)).append
        (Sets.assign hgo), ?_, fun v hv => ?_⟩
      · rw [(insert_decides _ _ _).1, hdue]
      · rw [(insert_decides _ _ _).2 v fun heq => hv (heq ▸ .go),
          hget'.2 v fun heq => hv (heq ▸ .guard), hget.2 v fun heq => hv (heq ▸ .allTokens)]
        exact hframe v fun e he heq => hv (heq ▸ .port (hcheck e he).2.flag)

/-- The second check of an action leaves in its flag whether the action can fire, and keeps the flag
of the first. -/
theorem firePart_sets (hsees : Sees d w) (h : Checkable actor w a) :
    ∃ part, firePart actor a = .ok part ∧ ∀ r : Round, Loaded actor w r.locals → ∃ locals,
      d.Sets part.instructions r locals ∧
      locals[fireFlag a]? = some (truth (w.canFire actor a)) ∧
      ∀ v, ¬ CheckLocal a v ∨ v = goFlag a → locals[v]? = r.locals[v]? := by
  obtain ⟨check, hcheck⟩ := spaceChecks_decide hsees h
  have hmap := mapM_eq_ok_map fun e he => (hcheck e he).1
  have hjoined := joined_sets a.outputs (fun e he e' he' hport => by
    have hok := (hcheck e he).1
    rw [spaceCheck_congr hport, (hcheck e' he').1] at hok
    rw [Except.ok.inj hok]) fun e he => (hcheck e he).2
  have hfire : ∀ v, ¬ CheckLocal a v ∨ v = goFlag a → v ≠ fireFlag a := by
    rintro v (hv | rfl) heq
    · exact hv (heq ▸ .fire)
    · have hchars := congrArg String.toList heq
      simp [goFlag, fireFlag] at hchars
  simp only [firePart, hmap]
  cases hall : allFlags? (a.outputs.map check) with
  | none =>
      have hnil : a.outputs = [] := by simpa using allFlags?_eq_none_iff.mp hall
      refine ⟨_, by simp [bind, Except.bind, hall]; rfl, fun r _ => ?_⟩
      refine ⟨_, Sets.assign rfl, ?_, fun v hv => ?_⟩
      · rw [(insert_decides _ _ _).1, World.canFire, hnil]
        rfl
      · exact (insert_decides _ _ _).2 v (hfire v hv)
  | some all =>
      refine ⟨_, by simp [bind, Except.bind, hall]; rfl, fun r hloaded => ?_⟩
      obtain ⟨l, hsets, hflags, hframe⟩ := hjoined r hloaded
      have hflags' : ∀ e ∈ a.outputs,
          l[(check e).flag]? = some (truth (w.hasSpace actor e)) := fun e he =>
        World.hasSpace_congr lastEntry_port ▸ hflags e he
      have hspace := eval_allFlags? hflags' hall
      have hget := insert_decides l ("spaceAvailability_" ++ a.name)
        (truth (a.outputs.all (w.hasSpace actor)))
      refine ⟨_, hsets.append (runs_cons (runs_assign hspace)
        (Sets.assign (eval_var hget.1))), ?_, fun v hv => ?_⟩
      · rw [(insert_decides _ _ _).1, World.canFire]
      · have hne : v ≠ "spaceAvailability_" ++ a.name := by
          rintro rfl
          rcases hv with hv | heq
          · exact hv .allSpace
          · have hchars := congrArg String.toList heq
            simp [goFlag] at hchars
        rw [(insert_decides _ _ _).2 v (hfire v hv), hget.2 v hne]
        refine hframe v fun e he heq => ?_
        rcases hv with hv | hv
        · exact hv (heq ▸ .port (hcheck e he).2.flag)
        · exact (hcheck e he).2.flag.ne_goFlag (heq ▸ hv)

/-! ### The checks of all actions -/

/-- The flags of an action hold what the dispatch rule says. -/
def Flagged (actor : Actor) (w : World) (locals : Valuation) (a : Action) : Prop :=
  locals[goFlag a]? = some (truth (w.due actor a)) ∧
    locals[fireFlag a]? = some (truth (w.canFire actor a))

/-- The blocks with the two checks of an action. -/
theorem checks_run (hsees : Sees d w) (h : Checkable actor w a) :
    ∃ parts, checks actor a = .ok parts ∧ ∀ r : Round, Loaded actor w r.locals → ∃ locals,
      Runs (runBlock.runBlocks d (parts.map fun p => .basic p.instructions)) r
        { r with locals } ∧
      Flagged actor w locals (settled a) ∧ ∀ v, ¬ CheckLocal a v → locals[v]? = r.locals[v]? := by
  obtain ⟨due, hdue, hsetsDue⟩ := duePart_sets hsees h
  obtain ⟨fire, hfire, hsetsFire⟩ := firePart_sets hsees h
  refine ⟨[due, fire], by simp [checks, hdue, hfire, bind, Except.bind, pure, Except.pure], ?_⟩
  intro r hloaded
  obtain ⟨l, hsets, hgo, hframe⟩ := hsetsDue r hloaded
  have hloaded' : Loaded actor w l :=
    hloaded.frame fun p => hframe _ fun hc => hc.ne_tmpCount p rfl
  obtain ⟨m, hsets', hcan, hframe'⟩ := hsetsFire { r with locals := l } hloaded'
  refine ⟨m, ?_, ⟨?_, hcan⟩, fun v hv => ?_⟩
  · exact runs_blocks_cons (runs_basic hsets)
      (runs_blocks_cons (runs_basic hsets') (runs_blocks_nil _))
  · rw [goFlag_settled, hframe' _ (.inr rfl)]
    exact hgo
  · rw [hframe' v (.inl hv)]
    exact hframe v hv

/-- After the checks of actions with different names, the flags of all of them hold what the
dispatch rule says. -/
theorem allChecks_run (hsees : Sees d w) (as : List Action)
    (has : ∀ a ∈ as, Checkable actor w a) (hnames : (as.map Action.name).Nodup) :
    ∃ parts, as.mapM (checks actor) = .ok parts ∧
      ∀ r : Round, Loaded actor w r.locals → ∃ locals,
        Runs (runBlock.runBlocks d (parts.flatten.map fun p => .basic p.instructions)) r
          { r with locals } ∧
        (∀ a ∈ as, Flagged actor w locals (settled a)) ∧
        ∀ v, (∀ a ∈ as, ¬ CheckLocal a v) → locals[v]? = r.locals[v]? := by
  induction as with
  | nil => exact ⟨[], rfl, fun r _ => ⟨r.locals, runs_blocks_nil r, by simp, fun _ _ => rfl⟩⟩
  | cons a as ih =>
      rw [List.map_cons, List.nodup_cons] at hnames
      obtain ⟨parts, hparts, hruns⟩ := checks_run hsees (has a (by simp))
      obtain ⟨rest, hrest, hruns'⟩ := ih (fun b hb => has b (by simp [hb])) hnames.2
      refine ⟨parts :: rest, ?_, fun r hloaded => ?_⟩
      · rw [List.mapM_cons, hparts, hrest]
        rfl
      obtain ⟨l, hl, hflagged, hframe⟩ := hruns r hloaded
      have hloaded' : Loaded actor w l :=
        hloaded.frame fun p => hframe _ fun hc => hc.ne_tmpCount p rfl
      obtain ⟨m, hm, hflagged', hframe'⟩ := hruns' { r with locals := l } hloaded'
      -- The checks of the other actions set flags of their own, because names differ.
      have hother : ∀ b ∈ as, a.name ≠ b.name :=
        fun b hb heq => hnames.1 (heq ▸ List.mem_map_of_mem hb)
      refine ⟨m, ?_, ?_, fun v hv => ?_⟩
      · rw [List.flatten_cons, List.map_append]
        exact runs_blocks_append hl hm
      · intro b hb
        rcases List.mem_cons.mp hb with rfl | hmem
        · refine ⟨?_, ?_⟩
          · rw [goFlag_settled, hframe' _ fun c hc h => hother c hc (h.name_eq_of_goFlag rfl)]
            exact hflagged.1
          · rw [fireFlag_settled, hframe' _ fun c hc h => hother c hc (h.name_eq_of_fireFlag rfl)]
            exact hflagged.2
        · exact hflagged' b hmem
      · rw [hframe' v fun b hb => hv b (by simp [hb])]
        exact hframe v (hv a (by simp))

end DataflowSynth.Scheduler
