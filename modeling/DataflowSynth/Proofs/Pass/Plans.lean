/-
Plans, and what is run of them.

An alias is flattened when it is added, and then only passes are left that were registered before;
passes are never taken away again.  A plan whose names are all known thus comes from known aliases and
known passes, and the moves only change its order.  What is run is read off the plan from the left.  A
pass that fails ends the run with its own failure, and nothing behind it is begun.  The design may be
printed after every pass; then a run also ends where the standard output does not take the text.  A run
is followed from state to state with all that is said in it, so that it tells which passes were run, for
passes of any kind.
-/
import DataflowSynth.Pass.Plan
import DataflowSynth.Proofs.Netlist.Routine
import DataflowSynth.Proofs.OrderedMap
import DataflowSynth.Proofs.Pass.Options
import Mathlib.Data.List.Perm.Basic

namespace DataflowSynth

open Build

namespace Registry

/-! ### Registering -/

/-- A pass has this name. -/
def Knows (r : Registry) (name : String) : Prop := (r.pass? name).isSome

instance (r : Registry) (name : String) : Decidable (r.Knows name) :=
  inferInstanceAs (Decidable ((r.pass? name).isSome = true))

/-- Registries that come of passes and aliases being added to them.  What is refused is not added. -/
inductive Reached : Registry → Prop where
  | empty : Reached {}
  | register {r r' : Registry} {p : Entry} (hbefore : r.Reached) (hadded : r.register p = .ok r') :
      Reached r'
  | addAlias {r r' : Registry} {name : String} {passes : List String} (hbefore : r.Reached)
      (hadded : r.addAlias name passes = .ok r') : Reached r'

/-- Aliases stand for passes, and for nothing else. -/
def Flat (r : Registry) : Prop :=
  ∀ a names, r.aliases.find? a = some names → ∀ n ∈ names, r.Knows n

variable {r r' : Registry}

theorem Knows.register {p : Entry} {n : String} (h : r.register p = .ok r') (hn : r.Knows n) :
    r'.Knows n := by
  unfold Registry.register at h
  split at h
  · cases h
  · cases h
    simp only [Knows, pass?, List.find?_append, Option.isSome_or, Bool.or_eq_true]
    exact .inl hn

/-- What a name stands for in an alias is known. -/
theorem Flat.meaning (hr : r.Flat) {name : String} {names : List String}
    (h : r.meaning name = .ok names) : ∀ n ∈ names, r.Knows n := by
  unfold Registry.meaning at h
  split at h
  · next found hfound =>
    cases h
    exact hr name _ hfound
  · split at h
    · next hknown =>
      cases h
      simpa [Knows] using hknown
    · cases h

theorem Flat.meanings (hr : r.Flat) {passes : List String} {names : List (List String)}
    (h : passes.mapM r.meaning = .ok names) : ∀ n ∈ names.flatten, r.Knows n := by
  induction passes generalizing names with
  | nil =>
      cases h
      simp
  | cons p ps ih =>
      rw [List.mapM_cons] at h
      cases hp : r.meaning p with
      | error e =>
          rw [hp] at h
          cases h
      | ok first =>
          cases hps : ps.mapM r.meaning with
          | error e =>
              rw [hp, hps] at h
              cases h
          | ok others =>
              rw [hp, hps] at h
              cases h
              rw [List.flatten_cons]
              exact List.forall_mem_append.mpr ⟨hr.meaning hp, ih hps⟩

theorem Flat.addAlias (hr : r.Flat) {name : String} {passes : List String}
    (h : r.addAlias name passes = .ok r') : r'.Flat := by
  unfold Registry.addAlias at h
  split at h
  · cases h
  · cases hnames : passes.mapM r.meaning with
    | error e =>
        rw [hnames] at h
        cases h
    | ok names =>
        rw [hnames] at h
        cases h
        intro a found hfound
        by_cases ha : a = name
        · subst ha
          rw [OrderedMap.find?_put_self] at hfound
          cases hfound
          exact hr.meanings hnames
        · rw [OrderedMap.find?_put_of_ne _ ha] at hfound
          exact hr a found hfound

theorem Flat.register (hr : r.Flat) {p : Entry} (h : r.register p = .ok r') : r'.Flat := by
  have haliases : r'.aliases = r.aliases := by
    unfold Registry.register at h
    split at h <;> cases h
    rfl
  intro a names ha n hn
  rw [haliases] at ha
  exact (hr a names ha n hn).register h

theorem Reached.flat (h : r.Reached) : r.Flat := by
  induction h with
  | empty => exact fun _ _ h => by simp at h
  | register _ hadded ih => exact ih.register hadded
  | addAlias _ hadded ih => exact ih.addAlias hadded

/-- The usual passes, and aliases of them and of each other. -/
theorem reached_standard : standard.Reached := by
  have hpasses : Reached { passes := Pass.all.map Pass.entry } :=
    .register (.register (.register (.register .empty (p := Pass.wellFormed) rfl)
      (p := Pass.actionScheduler) rfl) (p := Pass.designActor) rfl) (p := Pass.designCheck) rfl
  have hvalidate := hpasses.addAlias (show addAlias _ "validate" ["well-formed"] = .ok _ from rfl)
  have hlower := hvalidate.addAlias
    (show addAlias _ "lower" ["action-scheduler", "design-actor"] = .ok _ from rfl)
  exact hlower.addAlias
    (show addAlias _ "all" ["validate", "lower", "design-check"] = .ok _ from rfl)

/-! ### Making a plan -/

section

variable {σ : Type} {s : Traced σ} {q : Request}

/-- The name is asked for, maybe by an alias, or stands in a move. -/
def Request.Names (r : Registry) (q : Request) (name : String) : Prop :=
  name ∈ r.expand q.passes ∨ name ∈ r.expand q.disabled ∨
    ∃ move ∈ q.moves, ∃ a b, cut ':' move = some (a, b) ∧ (name = a ∨ name = b)

/-- The plan has what is asked for, in some order. -/
structure Plan.Answers (r : Registry) (q : Request) (plan : Plan) : Prop where
  passes : plan.passes.Perm (r.expand q.passes)
  excluded : plan.excluded = r.expand q.disabled

theorem wp_parseMoves {F : Failure → Traced σ → Prop} (moves : List String) :
    wp (moves.mapM parseMove) (fun pairs t => t.state = s.state ∧ pairs = moves.map (cut ':')) F s := by
  induction moves generalizing s with
  | nil => exact ⟨rfl, rfl⟩
  | cons move moves ih =>
      have hmove : wp (parseMove move) (fun pair t => t.state = s.state ∧ pair = cut ':' move) F s := by
        rw [parseMove]
        split
        · exact ⟨rfl, rfl⟩
        · exact ⟨rfl, rfl⟩
      rw [List.mapM_cons, wp_bind]
      refine wp_mono hmove (fun pair t ⟨ht, hpair⟩ => ?_) fun _ _ h => h
      rw [wp_bind]
      refine wp_mono ih (fun pairs u ⟨hu, hpairs⟩ => ?_) fun _ _ h => h
      exact ⟨hu.trans ht, by rw [hpair, hpairs, List.map_cons]⟩

theorem wp_checkKnown {names : List String} {Q : Unit → Traced σ → Prop}
    {F : Failure → Traced σ → Prop} (hok : (∀ n ∈ names, r.Knows n) → Q () s)
    (hbad : ∀ n ∈ names, ¬ r.Knows n → F (.error (.refused (.unknownPass n))) s) :
    wp (r.checkKnown names) Q F s := by
  unfold checkKnown
  split
  · next n hn =>
    exact hbad n (List.mem_of_find?_eq_some hn) (by simpa [Knows] using List.find?_some hn)
  · next hnone => exact hok (by simpa [Knows, Option.isSome_iff_ne_none] using hnone)

theorem moveBehind_perm (a b : String) {passes : List String} (ha : a ∈ passes) (hb : b ∈ passes) :
    (moveBehind a b passes).Perm passes := by
  unfold moveBehind
  dsimp only
  split
  · have hi := List.idxOf_lt_length_of_mem ha
    have hj := List.idxOf_lt_length_of_mem hb
    have hback : (passes.eraseIdx (passes.idxOf b)).length = passes.length - 1 :=
      List.length_eraseIdx_of_lt hj
    refine (List.perm_insertIdx b _ (by omega)).trans ?_
    have hcons := List.getElem_cons_eraseIdx_perm hj
    rwa [List.getElem_idxOf hj] at hcons
  · exact .refl _

theorem wp_applyMove {plan : Plan} {move : String × String} {F : Failure → Traced σ → Prop}
    (h : plan.Answers r q) :
    wp (applyMove plan move) (fun plan t => t.state = s.state ∧ plan.Answers r q) F s := by
  unfold applyMove
  dsimp only
  split
  · exact ⟨rfl, h⟩
  · next hboth =>
    split
    · exact ⟨rfl, h⟩
    · have hmem : move.1 ∈ plan.passes ∧ move.2 ∈ plan.passes := by simpa using hboth
      exact ⟨rfl, (moveBehind_perm _ _ hmem.1 hmem.2).trans h.passes, h.excluded⟩

/-- The names on both sides of the moves. -/
theorem mem_sides {moves : List String} {n : String} :
    n ∈ ((moves.map (cut ':')).filterMap id).flatMap (fun (a, b) => [a, b]) ↔
      ∃ move ∈ moves, ∃ a b, cut ':' move = some (a, b) ∧ (n = a ∨ n = b) := by
  simp only [List.filterMap_map, Function.id_comp, List.mem_flatMap, List.mem_filterMap, Prod.exists,
    List.mem_cons, List.not_mem_nil, or_false]
  constructor
  · rintro ⟨a, b, ⟨move, hmove, hcut⟩, hn⟩
    exact ⟨move, hmove, a, b, hcut, hn⟩
  · rintro ⟨move, hmove, a, b, hcut, hn⟩
    exact ⟨a, b, ⟨move, hmove, hcut⟩, hn⟩

/-- A plan is made of known names only, and an unknown name is refused.  Nothing is changed. -/
theorem wp_plan {s : Traced σ} :
    wp (r.plan q) (fun plan t => t.state = s.state ∧ plan.Answers r q ∧ ∀ n, q.Names r n → r.Knows n)
      (fun f t => t.state = s.state ∧
        ∃ n, q.Names r n ∧ ¬ r.Knows n ∧ f = .error (.refused (.unknownPass n))) s := by
  simp only [Registry.plan, wp_bind]
  refine wp_mono (wp_parseMoves q.moves) ?_ fun _ _ h => h
  rintro pairs t ⟨ht, hpairs⟩
  rw [hpairs]
  refine wp_checkKnown (fun hnames => ?_) fun n hn hunknown => ⟨ht, n, ?_, hunknown, rfl⟩
  · refine wp_checkKnown (fun hmoves => ?_) fun n hn hunknown =>
      ⟨ht, n, .inr (.inr (mem_sides.mp hn)), hunknown, rfl⟩
    refine wp_mono (wp_foldlM (I := fun plan u => u.state = s.state ∧ plan.Answers r q)
      ⟨ht, .refl _, rfl⟩ fun move _ plan u hplan => ?_) (fun plan u hplan =>
        ⟨hplan.1, hplan.2, ?_⟩) fun _ _ h => h
    · exact wp_mono (wp_applyMove hplan.2) (fun _ v h => ⟨h.1.trans hplan.1, h.2⟩) fun _ _ h => h
    · rintro n (hn | hn | hn)
      · exact hnames n (List.mem_append_left _ hn)
      · exact hnames n (List.mem_append_right _ hn)
      · exact hmoves n (mem_sides.mpr hn)
  · exact (List.mem_append.mp hn).imp id .inl

end

end Registry

/-! ### Printing -/

namespace Netlist

variable {c : ComponentId} {p : PortId} {b : BusId} {x : ExitId}

theorem moves_busText : Moves Eq (busText b) :=
  .bind (.bind moves_bus fun _ => .bind moves_exit fun _ => .pure _) fun _ =>
    .bind moves_component fun _ => .bind moves_bus fun _ => .pure _

theorem moves_portText : Moves Eq (portText p) := by
  refine .bind moves_port fun y => ?_
  split
  · exact .pure _
  · exact .bind moves_busText fun _ => .pure _

theorem moves_exitText : Moves Eq (exitText x) :=
  .bind moves_exit fun _ => .bind (.mapM fun _ _ => moves_bus) fun _ => .pure _

theorem moves_headText : Moves Eq (headText c) := by
  refine .bind moves_component fun y => .bind (.filterM fun _ _ => .bind moves_port fun _ => .pure _)
    fun _ => .bind (.mapM fun _ _ => moves_portText) fun _ =>
      .bind (.mapM fun _ _ => moves_exitText) fun _ => ?_
  dsimp only
  split
  · exact .bind (.bind (.bind moves_component fun _ => .expect _ _) fun _ => .pure _) fun _ => .pure _
  · exact .bind (.pure _) fun _ => .pure _

theorem moves_componentLines (depth level : Nat) (c : ComponentId) :
    Moves Eq (componentLines depth level c) := by
  induction depth generalizing level c with
  | zero => exact .abort _
  | succ depth ih =>
      unfold componentLines
      refine .bind moves_headText fun _ => .bind moves_component fun y => ?_
      split
      · exact .pure _
      · exact .bind moves_outBufs fun _ => .bind (.mapM fun c _ => ih _ c) fun _ => .pure _

end Netlist

theorem Build.Moves.within {σ τ α : Type} (get : σ → τ) (put : τ → σ → σ) {x : Build τ α}
    (hput : ∀ n, put (get n) n = n) (hx : Moves Eq x) : Moves Eq (Build.within get put x) := by
  intro s
  rw [wp_within]
  refine wp_mono (hx ⟨get s.state, s.journal⟩) (fun _ t ht => ?_) fun _ _ h => h
  rw [← ht, hput]

/-- To print a design is to look at it; there is nothing to be refused. -/
theorem Design.moves_text : Moves Eq Design.text :=
  have hwiring : ∀ {α : Type} {x : Netlist.Step α}, Moves Eq x → Moves Eq (wiring x) :=
    .within _ (fun netlist (d : Design) => { d with netlist }) fun _ => rfl
  .bind (.look _) fun _ =>
    .bind (hwiring (.mapM fun _ _ => .bind Netlist.moves_component fun _ => .pure _)) fun _ =>
      .bind (hwiring (.bind (.look _) fun _ => Netlist.moves_componentLines _ _ _)) fun _ => .pure _

/-! ### The run of a plan -/

namespace Registry

/-- Printing a design fails if the standard output does not take the text, and is aborted if the design
cannot be put into words.  If it goes well the job is as before. -/
theorem wp_printDesign {host : Host} {s : Traced Job} :
    wp (printDesign host) (fun _ t => t.state = s.state)
      (fun f t => (∃ reason, f = .error (.refused (.unsent reason))) ∧ t.state = s.state ∨
        ∃ a, f = .abort a) s := by
  rw [printDesign, wp_bind, Job.onDesign, wp_within]
  refine wp_mono (Design.moves_text _) (fun text t ht => ?_) fun f t hf => ?_
  · have hstate : { s.state with design := t.state } = s.state := by rw [← ht]
    refine wp_mono Job.wp_send (fun _ u hu => hu.trans hstate) fun f u hf => .inl ?_
    obtain ⟨hu, ⟨-, path, hpath⟩ | hunsent⟩ := hf
    · cases hpath
    · exact ⟨hunsent, hu.trans hstate⟩
  · cases f with
    | error e => exact hf.elim
    | abort a => exact .inr ⟨a, rfl⟩

theorem wp_report {host : Host} {dump : Bool} {n : String} {s : Traced Job} :
    wp (report host dump n) (fun _ t => t.state = s.state)
      (fun f t => dump = true ∧ printDesign host s = .error f t) s := by
  unfold report
  split
  · next hdump =>
    refine wp_bind.mpr (wp_mono (wp_and wp_printDesign wp_run) (fun _ t ht => ?_) fun f t hf => ?_)
    · exact ht.1
    · exact ⟨hdump, hf.2⟩
  · rfl

section

variable (r : Registry) (host : Host) (dump : Bool) (excluded : List String)

/-- These passes of a plan run one after the other.  Each of them goes well, and so does what follows it.
Of the passes that are left out it is only said that they are. -/
inductive Runs : List String → List Entry → Traced Job → Traced Job → Prop where
  | none (s : Traced Job) : Runs [] [] s s
  | ignored {n : String} {names : List String} {ran : List Entry} {s t u : Traced Job}
      (hout : n ∈ excluded) (hsaid : Build.log .info .plans (n ++ ": Ignored") s = .ok () t)
      (hothers : Runs names ran t u) : Runs (n :: names) ran s u
  | next {n : String} {names : List String} {p : Entry} {ran : List Entry} {s t u v : Traced Job}
      (hkept : n ∉ excluded) (hknown : r.pass? n = some p) (hfirst : p.run host s = .ok () t)
      (hreport : report host dump n t = .ok () u) (hothers : Runs names ran u v) :
      Runs (n :: names) (p :: ran) s v

/-- What comes of a plan, with the passes that were run for it.  The last of them may have failed.  If the
design is wanted after each pass, it may also be that the last one went well and that the design could not
be printed. -/
inductive Ends (names : List String) : List Entry → Traced Job → Except Failure Unit → Traced Job → Prop
  | finished {ran : List Entry} {s t : Traced Job} (hall : Runs r host dump excluded names ran s t) :
      Ends names ran s (.ok ()) t
  | failed {before rest : List String} {n : String} {ran : List Entry} {p : Entry} {f : Failure}
      {s t u : Traced Job} (hsplit : names = before ++ n :: rest)
      (hran : Runs r host dump excluded before ran s t) (hkept : n ∉ excluded)
      (hknown : r.pass? n = some p) (hfails : p.run host t = .error f u) :
      Ends names (ran ++ [p]) s (.error f) u
  | unprinted {before rest : List String} {n : String} {ran : List Entry} {p : Entry} {f : Failure}
      {s t u v : Traced Job} (hsplit : names = before ++ n :: rest)
      (hran : Runs r host dump excluded before ran s t) (hkept : n ∉ excluded)
      (hknown : r.pass? n = some p) (hlast : p.run host t = .ok () u) (hwanted : dump = true)
      (hfails : printDesign host u = .error f v) : Ends names (ran ++ [p]) s (.error f) v

end

variable {r : Registry} {host : Host} {dump : Bool} {excluded names : List String} {ran : List Entry}
  {s t u : Traced Job} {out : Except Failure Unit}

theorem Ends.ignored {n : String} (hout : n ∈ excluded)
    (hsaid : Build.log .info .plans (n ++ ": Ignored") s = .ok () t)
    (h : Ends r host dump excluded names ran t out u) :
    Ends r host dump excluded (n :: names) ran s out u := by
  cases h with
  | finished hall => exact .finished (.ignored hout hsaid hall)
  | failed hsplit hran hkept hknown hfails =>
      exact .failed (by rw [hsplit, List.cons_append]) (.ignored hout hsaid hran) hkept hknown hfails
  | unprinted hsplit hran hkept hknown hlast hwanted hfails =>
      exact .unprinted (by rw [hsplit, List.cons_append]) (.ignored hout hsaid hran) hkept hknown hlast
        hwanted hfails

theorem Ends.next {n : String} {p : Entry} {v : Traced Job} (hkept : n ∉ excluded)
    (hknown : r.pass? n = some p) (hfirst : p.run host s = .ok () t)
    (hreport : report host dump n t = .ok () u) (h : Ends r host dump excluded names ran u out v) :
    Ends r host dump excluded (n :: names) (p :: ran) s out v := by
  have hrest : ∀ {before : List String} {ran : List Entry} {w : Traced Job},
      Runs r host dump excluded before ran u w →
      Runs r host dump excluded (n :: before) (p :: ran) s w :=
    fun hran => .next hkept hknown hfirst hreport hran
  cases h with
  | finished hall => exact .finished (hrest hall)
  | failed hsplit hran hkept hknown hfails =>
      exact .failed (by rw [hsplit, List.cons_append]) (hrest hran) hkept hknown hfails
  | unprinted hsplit hran hkept hknown hlast hwanted hfails =>
      exact .unprinted (by rw [hsplit, List.cons_append]) (hrest hran) hkept hknown hlast hwanted hfails

/-- The passes that run are those that the names stand for, as far as they are not left out. -/
theorem Runs.passes (h : Runs r host dump excluded names ran s t) :
    (names.filter (· ∉ excluded)).map r.pass? = ran.map some := by
  induction h with
  | none s => rfl
  | ignored hout _ _ ih => simpa [hout] using ih
  | next hkept hknown _ _ _ ih => simpa [hkept, hknown] using ih

/-- Whatever comes of a plan, its passes are run from the left, and if all went well none is missing. -/
theorem Ends.ran_prefix (h : Ends r host dump excluded names ran s out t) {todo : List Entry}
    (htodo : (names.filter (· ∉ excluded)).map r.pass? = todo.map some) :
    ran <+: todo ∧ (out = .ok () → ran = todo) := by
  have hcut : ∀ {before rest : List String} {n : String} {ran : List Entry} {p : Entry} {t : Traced Job},
      names = before ++ n :: rest → Runs r host dump excluded before ran s t → n ∉ excluded →
      r.pass? n = some p → ran ++ [p] <+: todo := by
    intro before rest n ran p t hsplit hran hkept hknown
    have hfront : (ran ++ [p]).map some <+: todo.map some := by
      rw [← htodo, hsplit, List.filter_append, List.map_append, List.map_append, hran.passes,
        List.filter_cons_of_pos (by simpa using hkept), List.map_cons, List.map_cons, hknown]
      exact (List.prefix_append_right_inj _).mpr ⟨_, rfl⟩
    obtain ⟨front, hinitial, heq⟩ := List.prefix_map_iff.mp hfront
    rwa [List.map_inj_right (fun _ _ => Option.some.inj) |>.mp heq]
  cases h with
  | finished hall =>
      have hran : ran = todo :=
        (List.map_inj_right fun _ _ => Option.some.inj).mp (hall.passes.symm.trans htodo)
      exact ⟨hran ▸ List.prefix_refl _, fun _ => hran⟩
  | failed hsplit hran hkept hknown hfails => exact ⟨hcut hsplit hran hkept hknown, nofun⟩
  | unprinted hsplit hran hkept hknown hlast hwanted hfails =>
      exact ⟨hcut hsplit hran hkept hknown, nofun⟩

/-- A pass is run and reported, unless it is left out or one of the two fails. -/
theorem wp_runPass {n : String} {p : Entry} (hkept : n ∉ excluded) (hknown : r.pass? n = some p) :
    wp (r.runPass host dump excluded n)
      (fun _ u => ∃ t, p.run host s = .ok () t ∧ report host dump n t = .ok () u)
      (fun f u => p.run host s = .error f u ∨
        ∃ t, p.run host s = .ok () t ∧ dump = true ∧ printDesign host t = .error f u) s := by
  rw [runPass, if_neg (by simpa using hkept)]
  simp only [hknown, wp_bind]
  refine wp_mono wp_run (fun _ t ht => ?_) fun _ _ hf => .inl hf
  refine wp_mono (wp_and wp_run wp_report) (fun _ u hu => ?_) fun f u hf => ?_
  · exact ⟨t, ht, hu.1⟩
  · exact .inr ⟨t, ht, hf.2⟩

theorem wp_runPasses (hknown : ∀ n ∈ names, r.Knows n) (s : Traced Job) :
    wp (names.forM (r.runPass host dump excluded))
      (fun _ t => ∃ ran, Ends r host dump excluded names ran s (.ok ()) t)
      (fun f t => ∃ ran, Ends r host dump excluded names ran s (.error f) t) s := by
  induction names generalizing s with
  | nil => exact ⟨[], .finished (.none s)⟩
  | cons n names ih =>
      obtain ⟨hn, hnames⟩ := List.forall_mem_cons.mp hknown
      rw [wp_forM_cons]
      by_cases hout : n ∈ excluded
      · rw [runPass, if_pos (by simpa using hout), wp_log]
        refine wp_mono (ih hnames _) (fun _ t ⟨ran, ht⟩ => ?_) fun f t ⟨ran, ht⟩ => ?_
        · exact ⟨ran, ht.ignored hout rfl⟩
        · exact ⟨ran, ht.ignored hout rfl⟩
      · obtain ⟨p, hp⟩ := Option.isSome_iff_exists.mp hn
        refine wp_mono (wp_runPass hout hp) (fun _ u ⟨t, hfirst, hreport⟩ => ?_) fun f u hf => ?_
        · refine wp_mono (ih hnames u) (fun _ v ⟨ran, hv⟩ => ?_) fun f v ⟨ran, hv⟩ => ?_
          · exact ⟨p :: ran, hv.next hout hp hfirst hreport⟩
          · exact ⟨p :: ran, hv.next hout hp hfirst hreport⟩
        · have hhead : n :: names = [] ++ n :: names := rfl
          rcases hf with hfails | ⟨t, hlast, hwanted, hfails⟩
          · exact ⟨[p], .failed hhead (.none s) hout hp hfails⟩
          · exact ⟨[p], .unprinted hhead (.none s) hout hp hlast hwanted hfails⟩

/-- What a run makes of a request. -/
structure Follows (r : Registry) (host : Host) (q : Request) (dump : Bool) (s : Traced Job) :
    Prop where
  /-- An alias stands for passes that are there. -/
  aliases : ∀ a names, r.aliases.find? a = some names → ∀ n ∈ names, r.Knows n
  /-- An unknown name is refused before anything is run. -/
  refused : (∃ n, q.Names r n ∧ ¬ r.Knows n) → ∃ n t, q.Names r n ∧ ¬ r.Knows n ∧
    r.run host q dump s = .error (.error (.refused (.unknownPass n))) t ∧ t.state = s.state
  /-- Otherwise there is a plan, and what is not excluded of it is run from the left until a pass fails,
  or until the design cannot be printed after one that did not. -/
  ran : (∀ n, q.Names r n → r.Knows n) → ∃ plan t, r.plan q s = .ok plan t ∧ t.state = s.state ∧
    plan.Answers r q ∧ ∃ todo ran : List Entry,
      (plan.passes.filter (· ∉ plan.excluded)).map r.pass? = todo.map some ∧ ran <+: todo ∧
      ∃ out u, (r.run host q dump).run s = (out, u) ∧
        Ends r host dump plan.excluded plan.passes ran t out u ∧ (out = .ok () → ran = todo)

/-- The names of a plan are those of passes. -/
theorem exists_todo (h : ∀ n ∈ names, r.Knows n) :
    ∃ todo : List Entry, names.map r.pass? = todo.map some := by
  induction names with
  | nil => exact ⟨[], rfl⟩
  | cons n names ih =>
      obtain ⟨hn, hnames⟩ := List.forall_mem_cons.mp h
      obtain ⟨p, hp⟩ := Option.isSome_iff_exists.mp hn
      obtain ⟨todo, htodo⟩ := ih hnames
      exact ⟨p :: todo, by rw [List.map_cons, List.map_cons, hp, htodo]⟩

/-- A plan runs exactly what is asked for, or nothing.  It stops where a pass does not go well, or where
the design is to be printed and cannot be. -/
theorem run_as_planned (h : r.Reached) (host : Host) (q : Request) (dump : Bool) (s : Traced Job) :
    r.Follows host q dump s := by
  have hplan := wp_plan (r := r) (q := q) (s := s)
  have hrun : r.run host q dump s = _ := bind_apply (r.plan q)
    (fun plan => plan.passes.forM (r.runPass host dump plan.excluded)) s
  unfold wp at hplan
  cases hmade : r.plan q s with
  | error f t =>
      rw [hmade] at hplan hrun
      obtain ⟨ht, n, hn, hunknown, rfl⟩ := hplan
      exact ⟨h.flat, fun _ => ⟨n, t, hn, hunknown, hrun, ht⟩, fun hall => absurd (hall n hn) hunknown⟩
  | ok plan t =>
      rw [hmade] at hplan hrun
      obtain ⟨ht, hanswers, hknown⟩ := hplan
      refine ⟨h.flat, fun ⟨n, hn, hunknown⟩ => absurd (hknown n hn) hunknown, fun _ =>
        ⟨plan, t, hmade, ht, hanswers, ?_⟩⟩
      have hpasses : ∀ n ∈ plan.passes, r.Knows n := fun n hn =>
        hknown n (.inl (hanswers.passes.mem_iff.mp hn))
      obtain ⟨todo, htodo⟩ := exists_todo fun n hn => hpasses n (List.mem_filter.mp hn).1
      have hends : wp (plan.passes.forM (r.runPass host dump plan.excluded)) _ _ t :=
        wp_runPasses hpasses t
      have hsame : (r.run host q dump).run s =
          (plan.passes.forM (r.runPass host dump plan.excluded)).run t := by
        unfold Build.run
        rw [hrun]
      obtain ⟨out, u, hout, ran, hend⟩ := exists_run_of_wp
        (P := fun out u => ∃ ran, Ends r host dump plan.excluded plan.passes ran t out u) hends
      obtain ⟨hinitial, hwhole⟩ := hend.ran_prefix htodo
      exact ⟨todo, ran, htodo, hinitial, out, u, hsame.trans hout, hend, hwhole⟩

/-- A move of an unknown pass is refused; otherwise aliases are run, without what is excluded. -/
theorem run_as_planned_standard :
    (∃ n t, standard.run .closed { passes := ["all"], moves := ["inline:design-check"] } true
      (Pass.idleJob []) = .error (.error (.refused (.unknownPass n))) t) ∧
    ∃ plan : Plan, ∃ t out u, ∃ todo ran : List Entry, todo.Perm [Pass.actionScheduler, Pass.designCheck] ∧
      ran <+: todo ∧ t.state = (Pass.idleJob []).state ∧
      Ends standard .closed true ["design-actor"] plan.passes ran t out u := by
  constructor
  · obtain ⟨n, t, -, -, hrun, -⟩ := (run_as_planned reached_standard .closed
      { passes := ["all"], moves := ["inline:design-check"] } true (Pass.idleJob [])).refused
        ⟨"inline", .inr (.inr ⟨_, List.mem_singleton.mpr rfl, "inline", "design-check", by decide,
          .inl rfl⟩), by decide⟩
    exact ⟨n, t, hrun⟩
  · have hpasses : standard.expand ["lower", "design-check"] =
        ["action-scheduler", "design-actor", "design-check"] := by decide
    have hexcluded : standard.expand ["design-actor"] = ["design-actor"] := by decide
    have hknown : ∀ n, Request.Names standard
        { passes := ["lower", "design-check"], disabled := ["design-actor"] } n →
        standard.Knows n := by
      rintro n (hn | hn | ⟨_, hn, -⟩)
      · rw [hpasses] at hn
        revert n
        decide
      · rw [hexcluded] at hn
        revert n
        decide
      · cases hn
    obtain ⟨plan, t, -, ht, hanswers, todo, ran, htodo, hinitial, out, u, -, hends, -⟩ :=
      (run_as_planned reached_standard .closed
        { passes := ["lower", "design-check"], disabled := ["design-actor"] } true
        (Pass.idleJob [])).ran hknown
    have hnames := ((hanswers.passes.filter (· ∉ plan.excluded)).map standard.pass?)
    rw [htodo, hanswers.excluded, hpasses, hexcluded] at hnames
    rw [hanswers.excluded, hexcluded] at hends
    exact ⟨plan, t, out, u, todo, ran,
      (List.map_perm_map_iff fun _ _ => Option.some.inj).mp hnames, hinitial, ht, hends⟩

/-- A run may end before its plan does although no pass has returned an error.  In one run the first pass
goes well, and so would the second, but the design between them is not printed.  In another one the first
pass is aborted. -/
theorem run_cut_short :
    let first := (Pass.run .unread .wellFormed).run (Pass.idleJob [])
    let second := (Pass.run .unread .actionScheduler).run first.2
    let unprinted := (standard.run .unread { passes := ["well-formed", "action-scheduler"] } true).run
      (Pass.idleJob [])
    let aborted := (standard.run .unread { passes := ["design-check", "well-formed"] } false).run
      (Pass.idleJob ["design-check:order"])
    first.1 = .ok () ∧ second.1 = .ok () ∧ second.2.state.scheduler.isSome ∧
      unprinted.1 = .error (.error (.refused (.unsent "Broken pipe (os error 32)"))) ∧
      unprinted.2.state.scheduler = none ∧ aborted.1 = .error (.abort (.notAStream "true")) := by
  decide +kernel

end Registry

end DataflowSynth
