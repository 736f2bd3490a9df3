/-
What a round asks of the buffers.

An action that fills buffers stores, before its body runs, how many tokens the buffers of its inputs are
to provide: for each buffered input the largest number that one of its competitors reads.  A scheduler
collects these numbers in one fold over the patterns of all competitors, separately for every candidate
of every chain, and the stores stand behind the tests of that candidate.  So only the action that fires
asks for anything, and the numbers are those of the state it fires in.
-/
import DataflowSynth.Proofs.OrderedMap
import DataflowSynth.Proofs.Scheduler.Closed

namespace DataflowSynth.Scheduler

open Actor Build Dispatcher

variable {actor : Actor} {d : Dispatcher} {w : World} {skipFill : Bool}

/-! ### Competitors -/

/-- The actions that compete with an action that is tried in a state: those that no transition runs, and
if the action is none of them, also those of the transitions that leave the state. -/
def competitors (actor : Actor) (current : Option String) (a : Action) : List Action :=
  if a ∈ actor.actionsOutsideFsm then actor.actionsOutsideFsm else tried actor current

/-- The numbers of tokens that the input patterns of actions name for a port. -/
def quotas (as : List Action) (port : String) : List UInt32 :=
  ((as.flatMap Action.inputs).filter (·.port = port)).map TokenCount.tokens

/-- `n` is the largest of the numbers. -/
def Largest (ns : List UInt32) (n : UInt32) : Prop := n ∈ ns ∧ ∀ m ∈ ns, m ≤ n

/-- The value of the request size of a port. -/
def request (state : Valuation) (port : String) : Option Int64 :=
  state[(BufferVars.ofPort port).requestSize]?

/-- Each buffered input that one of the actions reads is asked for the largest number of tokens that one
of them names, and no other request size changes. -/
structure Requested (actor : Actor) (as : List Action) (before after : Valuation) : Prop where
  largest : ∀ p ∈ actor.inputs, p.buffer.isSome → quotas as p.name ≠ [] →
    ∃ n, Largest (quotas as p.name) n ∧ request after p.name = some (Int64.ofNat n.toNat)
  others : ∀ port, (∀ p ∈ actor.inputs, p.name = port → p.buffer.isSome → quotas as port = []) →
    request after port = request before port

/-! ### The fold over the patterns -/

/-- The request size that an entry of a pattern counts for, if its port has a buffer. -/
def requestVar? (actor : Actor) (e : TokenCount) : Option String :=
  ((actor.input? e.port).bind Port.bufferVars?).map BufferVars.requestSize

/-- The numbers of tokens of the entries that count for a request size. -/
def counted (actor : Actor) (es : Pattern) (v : String) : List UInt32 :=
  (es.filter fun e => requestVar? actor e = some v).map TokenCount.tokens

theorem Largest.concat {ns : List UInt32} {n : UInt32} (h : Largest ns n) (m : UInt32) :
    Largest (ns ++ [m]) (max n m) := by
  have hmax : max n m = if n ≤ m then m else n := rfl
  rw [hmax]
  split
  · next hle =>
    refine ⟨List.mem_append_right _ (List.mem_singleton_self m), fun k hk => ?_⟩
    rcases List.mem_append.mp hk with hk | hk
    · exact UInt32.le_trans (h.2 k hk) hle
    · exact UInt32.le_of_eq (List.mem_singleton.mp hk)
  · next hnot =>
    refine ⟨List.mem_append_left _ h.1, fun k hk => ?_⟩
    rcases List.mem_append.mp hk with hk | hk
    · exact h.2 k hk
    · rw [List.mem_singleton.mp hk]
      exact (UInt32.le_total n m).resolve_left hnot

theorem largest_singleton (n : UInt32) : Largest [n] (max 0 n) := by
  have hmax : max 0 n = n := if_pos (UInt32.zero_le)
  rw [hmax]
  exact ⟨List.mem_singleton_self n, fun m hm => UInt32.le_of_eq (List.mem_singleton.mp hm)⟩

/-- The request size of an entry becomes at least its number of tokens. -/
def raise (actor : Actor) (sizes : OrderedMap String UInt32) (e : TokenCount) :
    OrderedMap String UInt32 :=
  match (actor.input? e.port).bind Port.bufferVars? with
  | some v => sizes.alter v.requestSize fun size => max (size.getD 0) e.tokens
  | none => sizes

theorem requestSizes_eq (actor : Actor) (as : List Action) :
    requestSizes actor as = (as.flatMap Action.inputs).foldl (raise actor) ∅ := rfl

theorem find?_raise (sizes : OrderedMap String UInt32) (e : TokenCount) (v : String) :
    (raise actor sizes e).find? v =
      if requestVar? actor e = some v then some (max ((sizes.find? v).getD 0) e.tokens)
      else sizes.find? v := by
  unfold raise requestVar?
  cases (actor.input? e.port).bind Port.bufferVars? with
  | none => rfl
  | some b =>
      simp only [OrderedMap.find?_alter, Option.map_some, Option.some.injEq]
      by_cases heq : b.requestSize = v
      · simp [heq]
      · simp [heq, Ne.symm heq]

/-- What the fold finds for a variable is the largest number that counts for it. -/
theorem raised_spec (actor : Actor) (es : Pattern) (v : String) :
    match (es.foldl (raise actor) ∅).find? v with
    | some n => Largest (counted actor es v) n
    | none => counted actor es v = [] := by
  induction es using List.reverseRecOn with
  | nil => rfl
  | append_singleton es e ih =>
      rw [List.foldl_append, List.foldl_cons, List.foldl_nil, find?_raise]
      unfold counted at ih ⊢
      rw [List.filter_append, List.map_append]
      by_cases he : requestVar? actor e = some v
      · simp only [he, if_true, List.filter_cons, List.filter_nil, decide_true, List.map_cons,
          List.map_nil]
        cases hfound : (es.foldl (raise actor) ∅).find? v with
        | some n =>
            rw [hfound] at ih
            exact ih.concat e.tokens
        | none =>
            rw [hfound] at ih
            rw [ih]
            exact largest_singleton e.tokens
      · simpa [he] using ih

theorem requestSizes_nodup (actor : Actor) (as : List Action) : (requestSizes actor as).keys.Nodup := by
  rw [requestSizes_eq]
  refine List.foldlRecOn (motive := fun sizes : OrderedMap String UInt32 => sizes.keys.Nodup) _ _
    List.nodup_nil fun sizes hsizes e _ => ?_
  unfold raise
  split
  · exact OrderedMap.keys_nodup_alter hsizes _ _
  · exact hsizes

theorem requestSize_inj {p q : String} :
    (BufferVars.ofPort p).requestSize = (BufferVars.ofPort q).requestSize ↔ p = q := by
  simp [BufferVars.ofPort]

theorem requestVar?_eq_some_iff (hv : Valid actor) {e : TokenCount} {port : String} :
    requestVar? actor e = some (BufferVars.ofPort port).requestSize ↔
      e.port = port ∧ ∃ p ∈ actor.inputs, p.name = port ∧ p.buffer.isSome := by
  constructor
  · intro h
    obtain ⟨b, hb, heq⟩ := Option.map_eq_some_iff.mp h
    obtain ⟨p, hp, hvars⟩ := Option.bind_eq_some_iff.mp hb
    obtain ⟨size, hsize, rfl⟩ := Option.map_eq_some_iff.mp hvars
    obtain rfl := requestSize_inj.mp heq
    exact ⟨(name_of_input? hp).symm, p, mem_inputs_of_input? hp, rfl, by rw [hsize]; rfl⟩
  · rintro ⟨rfl, p, hp, hname, hbuffer⟩
    have hinputs : (actor.inputs.map Port.name).Nodup := by
      have hports := hv.ports
      rw [Actor.ports, List.map_append] at hports
      exact (List.nodup_append.mp hports).1
    have hfound : actor.input? e.port = some p := hname ▸ find?_name_of_nodup hinputs hp
    obtain ⟨size, hsize⟩ := Option.isSome_iff_exists.mp hbuffer
    rw [requestVar?, hfound, Option.bind_some, Port.bufferVars?, hsize, Option.map_some,
      Option.map_some, hname]

/-- What counts for the request size of a buffered input are the numbers that the patterns name for
it; nothing counts for any other. -/
theorem counted_requestSize (hv : Valid actor) (as : List Action) (port : String) :
    counted actor (as.flatMap Action.inputs) (BufferVars.ofPort port).requestSize =
      if ∃ p ∈ actor.inputs, p.name = port ∧ p.buffer.isSome then quotas as port else [] := by
  simp only [counted, requestVar?_eq_some_iff hv]
  split
  · next hbuffer => simp [hbuffer, quotas]
  · next hnone => simp [hnone]

/-! ### Stores -/

/-- A candidate that fills buffers and is let asks for what the fold has found. -/
theorem requestStores_asks (hv : Valid actor) (d : Dispatcher) {c : Candidate}
    (hfill : c.action.fillBuffer = true) (r : Round) :
    ∃ state, Runs ((requestStores actor false c).forM d.exec) r { r with state } ∧
      Requested actor c.competitors r.state state := by
  let ss : List (String × Expr) := (requestSizes actor c.competitors).entries.map fun e =>
    (e.1, .int (Int64.ofNat e.2.toNat))
  let value : Expr → Int64
    | .int i => i
    | _ => 0
  have hvalue : ∀ s ∈ ss, ∀ locals, s.2.eval locals = .ok (value s.2) := by
    intro s hs locals
    obtain ⟨e, -, rfl⟩ := List.mem_map.mp hs
    rfl
  have hkeys := requestSizes_nodup actor c.competitors
  have honce : ∀ s ∈ ss, ∀ s' ∈ ss, s.1 = s'.1 → value s.2 = value s'.2 := by
    intro s hs s' hs' heq
    obtain ⟨e, he, rfl⟩ := List.mem_map.mp hs
    obtain ⟨e', he', rfl⟩ := List.mem_map.mp hs'
    have hsame := OrderedMap.find?_of_mem hkeys he
    rw [show e.1 = e'.1 from heq, OrderedMap.find?_of_mem hkeys he'] at hsame
    rw [Option.some.inj hsame]
  obtain ⟨state, hruns, hstored, hframe⟩ := runs_stores (d := d) ss value hvalue r
  refine ⟨state, ?_, ?_, ?_⟩
  · simpa [requestStores, hfill, ss, Function.comp_def] using hruns
  · intro p hp hbuffer hread
    have hspec := raised_spec actor (c.competitors.flatMap Action.inputs)
      (BufferVars.ofPort p.name).requestSize
    rw [counted_requestSize hv, if_pos ⟨p, hp, rfl, hbuffer⟩, ← requestSizes_eq] at hspec
    cases hfound : (requestSizes actor c.competitors).find? (BufferVars.ofPort p.name).requestSize with
    | none =>
        rw [hfound] at hspec
        exact absurd hspec hread
    | some n =>
        rw [hfound] at hspec
        exact ⟨n, hspec, hstored honce _ (List.mem_map_of_mem (OrderedMap.mem_entries_of_find? hfound))⟩
  · intro port hnone
    refine hframe _ fun hmem => ?_
    have hkey : (BufferVars.ofPort port).requestSize ∈ (requestSizes actor c.competitors).keys := by
      simpa [ss, OrderedMap.keys, Function.comp_def] using hmem
    obtain ⟨e, he, hname⟩ := List.mem_map.mp hkey
    have hspec := raised_spec actor (c.competitors.flatMap Action.inputs)
      (BufferVars.ofPort port).requestSize
    rw [counted_requestSize hv, ← requestSizes_eq, ← hname, OrderedMap.find?_of_mem hkeys he] at hspec
    obtain ⟨hcounted, -⟩ := hspec
    split at hcounted
    · next hbuffer =>
      obtain ⟨p, hp, heq, hbuffer⟩ := hbuffer
      rw [hnone p hp heq hbuffer] at hcounted
      cases hcounted
    · cases hcounted

theorem moveStores_runs (d : Dispatcher) (move : Option (String × String)) (r : Round) :
    ∃ state, Runs ((moveStores move).forM d.exec) r { r with state } ∧
      ∀ port, request state port = request r.state port := by
  cases move with
  | none => exact ⟨r.state, runs_nil r, fun _ => rfl⟩
  | some move =>
      rw [moveStores]
      split
      · exact ⟨r.state, runs_nil r, fun _ => rfl⟩
      · refine ⟨_, runs_cons (runs_store rfl) (runs_cons (runs_store rfl) (runs_nil _)), fun port => ?_⟩
        have hne : ∀ s, (BufferVars.ofPort port).requestSize ≠ Fsm.stateVar s := fun s heq =>
          stateVar_ne_requestSize s port heq.symm
        rw [request, (insert_decides _ _ _).2 _ (hne _), (insert_decides _ _ _).2 _ (hne _)]
        rfl

/-- What a candidate that fires leaves of the request sizes. -/
def Asks (actor : Actor) (skipFill : Bool) (a : Action) (rivals : List Action)
    (before after : Valuation) : Prop :=
  if a.fillBuffer ∧ ¬ skipFill then Requested actor rivals before after
  else ∀ port, request after port = request before port

theorem Asks.frame {a : Action} {rivals : List Action} {before before' after after' : Valuation}
    (h : Asks actor skipFill a rivals before after)
    (hbefore : ∀ port, request before port = request before' port)
    (hafter : ∀ port, request after' port = request after port) :
    Asks actor skipFill a rivals before' after' := by
  unfold Asks at h ⊢
  split at h
  · next hfill =>
    rw [if_pos hfill]
    refine ⟨fun p hp hbuffer hread => ?_, fun port hport => ?_⟩
    · rw [hafter]
      exact h.largest p hp hbuffer hread
    · rw [hafter, h.others port hport, hbefore]
  · next hnot =>
    rw [if_neg hnot]
    exact fun port => ((hafter port).trans (h port)).trans (hbefore port)

theorem firing_asks (hv : Valid actor) (d : Dispatcher) (skipFill : Bool) (c : Candidate) (r : Round) :
    ∃ state, Runs ((firing actor skipFill c).forM d.exec) r
        { r with state, fired := r.fired ++ [c.action.body] } ∧
      Asks actor skipFill c.action c.competitors r.state state := by
  obtain ⟨st, hrequests, hasks⟩ : ∃ state,
      Runs ((requestStores actor skipFill c).forM d.exec) r { r with state } ∧
        Asks actor skipFill c.action c.competitors r.state state := by
    unfold Asks
    split
    · next hfill =>
      obtain ⟨hfill, hskip⟩ := hfill
      rw [Bool.eq_false_iff.mpr hskip]
      exact requestStores_asks hv d hfill r
    · next hnot =>
      have hnil : requestStores actor skipFill c = [] := by
        unfold requestStores
        rw [if_pos]
        grind
      rw [hnil]
      exact ⟨r.state, runs_nil r, fun _ => rfl⟩
  obtain ⟨state, hmoved, hframe⟩ := moveStores_runs d c.move
    { r with state := st, fired := r.fired ++ [c.action.body] }
  exact ⟨state, runs_append hrequests (runs_cons (runs_call _ _) hmoved),
    hasks.frame (fun _ => rfl) hframe⟩

/-! ### Competitors of candidates -/

theorem mem_quotas {as : List Action} {port : String} {n : UInt32} :
    n ∈ quotas as port ↔ ∃ b ∈ as, ∃ e ∈ b.inputs, e.port = port ∧ e.tokens = n := by
  simp only [quotas, List.mem_map, List.mem_filter, List.mem_flatMap, decide_eq_true_eq]
  grind

/-- In which order the competitors are listed does not matter. -/
theorem Requested.congr {as bs : List Action} {before after : Valuation}
    (h : Requested actor as before after) (hmem : ∀ b, b ∈ as ↔ b ∈ bs) :
    Requested actor bs before after := by
  have hquotas : ∀ port n, n ∈ quotas as port ↔ n ∈ quotas bs port := by
    intro port n
    simp only [mem_quotas, hmem]
  have hnil : ∀ port, quotas as port = [] ↔ quotas bs port = [] := by
    intro port
    simp only [List.eq_nil_iff_forall_not_mem, hquotas]
  refine ⟨fun p hp hbuffer hread => ?_, fun port hport => h.others port fun p hp hname hbuffer => ?_⟩
  · obtain ⟨n, hn, hstored⟩ := h.largest p hp hbuffer fun hnone => hread ((hnil p.name).mp hnone)
    refine ⟨n, ⟨(hquotas _ _).mp hn.1, fun m hm => hn.2 m ((hquotas _ _).mpr hm)⟩, hstored⟩
  · exact (hnil port).mpr (hport p hp hname hbuffer)

theorem Asks.congr {a : Action} {as bs : List Action} {before after : Valuation}
    (h : Asks actor skipFill a as before after) (hmem : ∀ b, b ∈ as ↔ b ∈ bs) :
    Asks actor skipFill a bs before after := by
  unfold Asks at h ⊢
  split
  · next hfill =>
    rw [if_pos hfill] at h
    exact h.congr hmem
  · next hnot =>
    rw [if_neg hnot] at h
    exact h

/-- The competitors of each candidate are those of its action in the state. -/
def Rivals (actor : Actor) (current : Option String) (cs : List Candidate) : Prop :=
  ∀ c ∈ cs, ∀ b, b ∈ c.competitors ↔ b ∈ competitors actor current c.action

theorem freeCandidates_rivals (actor : Actor) (current : Option String) :
    Rivals actor current (freeCandidates actor.actionsOutsideFsm) := by
  intro c hc b
  obtain ⟨a, ha, rfl⟩ := List.mem_map.mp hc
  rw [competitors, if_pos ha]

/-- The action of a transition is governed by the machine. -/
theorem notMem_outside {fsm : Fsm} (hfsm : actor.fsm = some fsm) {t : Transition} {a : Action}
    (ht : t ∈ fsm.transitions) (ha : actor.action? t.action = some a) :
    a ∉ actor.actionsOutsideFsm := by
  have hname : a.name = t.action := by simpa using List.find?_some ha
  have hgoverns : fsm.governs a.name = true :=
    List.any_eq_true.mpr ⟨t, ht, by simpa using hname.symm⟩
  simp [actionsOutsideFsm, hfsm, hgoverns]

theorem stateCandidates_rivals {fsm : Fsm} (hfsm : actor.fsm = some fsm) {state : String}
    {cs : List Candidate} (hcs : stateCandidates actor fsm state = .ok cs)
    (hlists : Lists actor (some state) cs) : Rivals actor (some state) cs := by
  have htried := hlists.tried
  obtain ⟨leaving, hleaving, rfl⟩ := stateCandidates_eq hcs
  intro c hc b
  rcases List.mem_append.mp hc with hc | hc
  · exact freeCandidates_rivals actor (some state) c hc b
  · obtain ⟨x, hx, rfl⟩ := List.mem_map.mp hc
    obtain ⟨htransition, haction⟩ := hleaving x hx
    have houtside := notMem_outside hfsm (List.mem_filter.mp htransition).1 haction
    rw [competitors, if_neg houtside, ← htried]
    simp [freeCandidates, or_comm]

/-! ### The choice -/

/-- The candidate as the flags of its action tell it. -/
def Candidate.settled (c : Candidate) : Candidate := { c with action := Scheduler.settled c.action }

theorem chain_settled (cs : List Candidate) :
    chain actor skipFill (cs.map Candidate.settled) = chain actor skipFill cs := by
  induction cs with
  | nil => rfl
  | cons c cs ih =>
      rw [List.map_cons, chain, chain, ih]
      rfl

/-- The request sizes after a choice among actions in a state: the one that fires asks. -/
def Chooses (actor : Actor) (skipFill : Bool) (w : World) (current : Option String)
    (before after : Valuation) : Prop :=
  match firstDue w actor (tried actor current) with
  | none => ∀ port, request after port = request before port
  | some a => Asks actor skipFill a (competitors actor current a) before after

theorem Chooses.frame {current : Option String} {before before' after : Valuation}
    (h : Chooses actor skipFill w current before after)
    (hbefore : ∀ port, request before port = request before' port) :
    Chooses actor skipFill w current before' after := by
  unfold Chooses at h ⊢
  split at h
  · exact fun port => (h port).trans (hbefore port)
  · exact h.frame hbefore fun _ => rfl

theorem chain_asks (hv : Valid actor) (d : Dispatcher) (skipFill : Bool) {current : Option String}
    {cs : List Candidate} (hlists : Lists actor current cs) (hrivals : Rivals actor current cs)
    {r : Round} (hflagged : ∀ a ∈ actor.actions, Flagged actor w r.locals (settled a)) :
    ∃ state, Runs (runBlock.runBlocks d (chain actor skipFill cs)) r { r with
        state
        fired := r.fired ++ (firstDue w actor (tried actor current)).toList.map Action.body } ∧
      Chooses actor skipFill w current r.state state := by
  have hflags : ∀ c ∈ cs.map Candidate.settled, Flagged actor w r.locals c.action := by
    intro _ hsettled
    obtain ⟨c, hc, rfl⟩ := List.mem_map.mp hsettled
    exact hflagged _ (hlists.actions c hc)
  have hfirst : firstDue w actor (tried actor current) =
      ((cs.find? fun c => w.due actor (settled c.action)).map Candidate.action).filter
        (w.canFire actor) := by
    rw [firstDue, ← hlists.tried, List.find?_map]
    rfl
  rw [← chain_settled]
  suffices hchosen : ∃ state, Chosen d actor w skipFill (cs.map Candidate.settled) r { r with
      state
      fired := r.fired ++ (firstDue w actor (tried actor current)).toList.map Action.body } ∧
      Chooses actor skipFill w current r.state state by
    obtain ⟨state, hchosen, hasks⟩ := hchosen
    exact ⟨state, chain_run hflags hchosen, hasks⟩
  unfold Chosen Chooses
  rw [hfirst, List.find?_map]
  have hcompose : ((fun c => w.due actor c.action) ∘ Candidate.settled) =
      fun c => w.due actor (settled c.action) := rfl
  rw [hcompose]
  cases hc : cs.find? fun c => w.due actor (settled c.action) with
  | none => exact ⟨r.state, by simp, by simp⟩
  | some c =>
      have hmem := List.mem_of_find?_eq_some hc
      simp only [Option.map_some, show (Candidate.settled c).action = settled c.action from rfl,
        show w.canFire actor (settled c.action) = w.canFire actor c.action from rfl]
      cases hcan : w.canFire actor c.action with
      | false => exact ⟨r.state, by simp [Option.filter, hcan], by simp [Option.filter, hcan]⟩
      | true =>
          obtain ⟨state, hruns, hasks⟩ := firing_asks hv d skipFill c r
          have hfiring : firing actor skipFill c.settled = firing actor skipFill c := rfl
          refine ⟨state, by simpa [Option.filter, hcan, hfiring] using hruns, ?_⟩
          simp only [Option.filter, hcan, if_true]
          exact hasks.congr (hrivals c hmem)

theorem choice_asks (hv : Valid actor) {blocks : List Block}
    (hblocks : choice actor skipFill = .ok blocks) {current : Option String} {r : Round}
    (hflagged : ∀ a ∈ actor.actions, Flagged actor w r.locals (settled a))
    (htested : Tested actor current r.locals) (hcurrent : Encodes actor current r.state) :
    ∃ state, Runs (runBlock.runBlocks d blocks) r { r with
        state
        fired := r.fired ++ (firstDue w actor (tried actor current)).toList.map Action.body } ∧
      Chooses actor skipFill w current r.state state := by
  cases hfsm : actor.fsm with
  | none =>
      simp only [choice, hfsm] at hblocks
      cases hblocks
      exact chain_asks hv d skipFill (freeCandidates_lists hfsm current)
        (freeCandidates_rivals actor current) hflagged
  | some fsm =>
      choose candidates hcandidates hlists using stateCandidates_lists hv hfsm
      obtain rfl := Except.ok.inj
        (hblocks.symm.trans (choice_of_stateCandidates hfsm skipFill hcandidates))
      obtain ⟨s, hs, rfl, -⟩ := hcurrent fsm hfsm
      obtain ⟨state, hchain, hchooses⟩ := chain_asks hv d skipFill (hlists s)
        (stateCandidates_rivals hfsm (hcandidates s) (hlists s)) hflagged
      refine ⟨state, runs_blocks_cons (runs_mutex ?_) (runs_blocks_nil _), hchooses⟩
      refine stateBlocks_run (hv.fsm fsm hfsm).states hs rfl (fun t ht => ?_) hchain
      simpa using htested fsm hfsm t ht

/-! ### Rounds -/

theorem foldl_insert_frame {v : String} (es : List (String × Bool)) (hes : ∀ e ∈ es, v ≠ e.1)
    (state : Valuation) :
    (es.foldl (fun state e => state.insert e.1 (truth e.2)) state)[v]? = state[v]? := by
  induction es generalizing state with
  | nil => rfl
  | cons e es ih =>
      rw [List.foldl_cons, ih (fun e' he' => hes e' (by simp [he']))]
      exact (insert_decides _ _ _).2 v (hes e (by simp))

/-- The stores before the first round leave the request sizes alone. -/
theorem request_roundStart (actor : Actor) (d : Dispatcher) (port : String) :
    request (roundStart actor d) port = request d.state port := by
  unfold roundStart
  split
  · rfl
  · refine foldl_insert_frame (initialValues actor) (fun e he heq => ?_) d.state
    rcases List.mem_append.mp he with he | he
    · cases hfsm : actor.fsm with
      | none => simp [hfsm] at he
      | some fsm =>
          rw [hfsm] at he
          obtain ⟨s, -, rfl⟩ := List.mem_map.mp he
          exact stateVar_ne_requestSize s port heq.symm
    · obtain ⟨b, hb, rfl⟩ := List.mem_map.mp he
      obtain ⟨p, rfl⟩ := eq_ofPort_of_mem_inputBuffers hb
      exact start_ne_requestSize p port heq.symm

theorem step_chooses (hv : Valid actor) (h : lower actor skipFill = .ok d.scheduler)
    {current : Option String} (hcurrent : Encodes actor current (roundStart actor d))
    {fired : List String} (hok : d.step.1 = .ok fired) :
    fired = (firstDue d.world actor (tried actor current)).toList.map Action.body ∧
      Chooses actor skipFill d.world current (roundStart actor d) d.step.2.state := by
  obtain ⟨blocks, locals, hblocks, hflagged, htested, hstep⟩ :=
    choice_begins hv h (complete_of_step h hok)
  have htested' : Tested actor current locals := by
    intro fsm hfsm s hs
    obtain ⟨here, -, rfl, hhot⟩ := hcurrent fsm hfsm
    rw [htested fsm hfsm s hs, hhot s hs]
    simp
  obtain ⟨state, hruns, hchooses⟩ := choice_asks (d := d) hv hblocks
    (r := { state := roundStart actor d, locals }) hflagged htested' hcurrent
  rw [hstep _ hruns] at hok ⊢
  exact ⟨(Except.ok.inj hok).symm, hchooses⟩

/-- A round that fails has stored nothing but the initial values: it fails in its checks. -/
theorem step_error_state (h : lower actor skipFill = .ok d.scheduler) {e : Failure}
    (he : d.step.1 = .error e) : d.step.2.state = roundStart actor d := by
  obtain ⟨parts, blocks, hparts, hblocks, hsplit⟩ := lower_parts h
  let known : List String := (actor.actions.flatMap fun a => [goFlag a, fireFlag a]) ++
    ((actor.fsm.map Fsm.states).getD []).map stateLocal
  obtain ⟨hchoice, htargets⟩ : Block.Definite.all known blocks ∧
      targets (Block.instructions.all blocks) = [] := by
    refine choice_definite hblocks (fun a ha => ?_) fun fsm hfsm s hs => List.mem_append_right _ ?_
    · constructor <;> refine List.mem_append_left _ (List.mem_flatMap.mpr ⟨a, ha, ?_⟩) <;> simp
    · rw [Option.mem_def.mp hfsm]
      exact List.mem_map_of_mem hs
  have hbody : wp (runBlock.runBlocks d (basicUnlessEmpty (loads actor).instructions ++
      parts.flatten.map (fun p => .basic p.instructions) ++ blocks)) (fun _ _ => True)
      (fun _ t => t.state.state = roundStart actor d) ⟨{ state := roundStart actor d }, #[]⟩ := by
    obtain ⟨locals, hloads, hloaded⟩ := loads_runs d actor { state := roundStart actor d }
    rw [runBlocks_append, runBlocks_append, wp_bind, wp_bind, hloads.wp_iff]
    refine wp_mono (wp_checks hparts _) (fun _ t ht => ?_) fun _ t ht => ht.state
    obtain ⟨-, hflags, hstates⟩ := ht
    have hknown : HasValues known t.state.locals := by
      intro v hv
      rcases List.mem_append.mp hv with hv | hv
      · obtain ⟨a, ha, hv⟩ := List.mem_flatMap.mp hv
        simp only [List.mem_cons, List.not_mem_nil, or_false] at hv
        rcases hv with rfl | rfl
        · exact (hflags a ha).1
        · exact (hflags a ha).2
      · obtain ⟨s, hs, rfl⟩ := List.mem_map.mp hv
        rw [hstates]
        have hload : (stateLocal s, Fsm.stateVar s) ∈ loadPairs actor :=
          List.mem_append_left _ (List.mem_append_left _ (List.mem_map_of_mem hs))
        rw [hloaded _ hload]
        rfl
    -- The choice asks for nothing, so it cannot fail.
    refine wp_mono (wp_runBlocks_definite blocks hchoice hknown) (fun _ _ _ => trivial) ?_
    rintro e _ ⟨i, hi, hunanswered⟩
    have hnone : i.target? = none := List.filterMap_eq_nil_iff.mp htargets i hi
    cases hunanswered <;> cases hnone
  have hround := wp_round (runs_basicUnlessEmpty (initialStores_runs actor d _)) hbody
  unfold wp at hround
  split at hround
  · next t hrun =>
    simp only [step, hsplit, Build.run, hrun] at he
    cases he
  · next e t hrun =>
    simp only [step, hsplit, Build.run, hrun]
    exact hround

/-! ### Runs -/

/-- At the start of each round of a permitted run the machine is in one of its states. -/
theorem run_encodes (hv : Valid actor) {p : Procedure} (hp : lower actor skipFill = .ok p)
    {rs : List Request} (hrs : Permitted actor false rs) :
    ∃ current, Encodes actor current (roundStart actor (Dispatcher.run { scheduler := p } rs).2) := by
  cases hfsm : actor.fsm with
  | none => exact ⟨none, by simp [Encodes, hfsm]⟩
  | some fsm =>
      have hkeeps := (run_keeps hv hfsm rs (d := { scheduler := p }) ⟨hp, by simp⟩ hrs).1
      unfold roundStart
      split
      · next hstarted => exact hkeeps.current hstarted
      · exact ⟨_, initialized_encodes hv _⟩

/-- Request sizes are the largest numbers that competitors read, and are stored only when they are due.
Let a run of a valid actor not set the variables of the machine once the first round was asked for, and
ask for a round next.  If that round fails, it leaves all request sizes as they were.  Otherwise the
machine is in a state, and what fires is the first action to try there that is due, if it can.  If this
action fills buffers and is let, each buffered input that one of its competitors reads is then asked for
the largest number of tokens that their patterns name for it, and no other request size has changed.  In
all other rounds none has. -/
theorem requests_largest (actor : Actor) (skipFill : Bool) (hvalid : actor.validate = .ok ()) :
    ∃ p, lower (declareState actor) skipFill = .ok p ∧ ∀ rs, Permitted actor false rs →
      let d := (Dispatcher.run { scheduler := p } rs).2
      (∀ e, d.step.1 = .error e → ∀ port, request d.step.2.state port = request d.state port) ∧
      ∀ fired, d.step.1 = .ok fired → ∃ current, Encodes actor current (roundStart actor d) ∧
        fired = (firstDue d.world actor (tried actor current)).toList.map Action.body ∧
        match firstDue d.world actor (tried actor current) with
        | none => ∀ port, request d.step.2.state port = request d.state port
        | some a =>
          if a.fillBuffer ∧ ¬ skipFill then
            Requested actor (competitors actor current a) d.state d.step.2.state
          else ∀ port, request d.step.2.state port = request d.state port := by
  have hv := (checks_eq_ok_iff actor).mp hvalid
  obtain ⟨p, hp⟩ := lower_total hv skipFill
  refine ⟨p, (lower_declareState actor skipFill).trans hp, fun rs hrs => ?_⟩
  intro d
  have hscheduler : lower actor skipFill = .ok d.scheduler := by rw [hp, run_scheduler]
  refine ⟨fun e he port => ?_, fun fired hok => ?_⟩
  · rw [step_error_state hscheduler he, request_roundStart]
  · obtain ⟨current, hcurrent⟩ := run_encodes hv hp hrs
    obtain ⟨hfired, hchooses⟩ := step_chooses hv hscheduler hcurrent hok
    exact ⟨current, hcurrent, hfired, hchooses.frame (request_roundStart actor d)⟩

/-- Two transitions compete for a buffer with an action that no transition runs. -/
def pool : Actor where
  name := "pool"
  inputs := [{ name := "IN", type := .int 8, buffer := some 4 },
    { name := "SIDE", type := .int 8, buffer := some 4 }]
  procedures := [{ name := "fill_body" }, { name := "drain_body" }, { name := "skim_body" },
    { name := "isSchedulable_fill", returnType := .bool },
    { name := "isSchedulable_drain", returnType := .bool },
    { name := "isSchedulable_skim", returnType := .bool }]
  actions := [{ (Action.named "fill") with inputs := [⟨"IN", 1⟩], fillBuffer := true },
    (Action.named "drain").reads "IN" 3, (Action.named "skim").reads "IN" 2]
  fsm := some {
    initial := "on", states := ["on"],
    transitions := [⟨"on", "on", "fill"⟩, ⟨"on", "on", "drain"⟩] }

/-- Of three tokens the action that needs one may be run, and only its guard holds. -/
def poolRequests : List Request :=
  [.setGuard "isSchedulable_fill" true, .setGuard "isSchedulable_drain" false,
    .setGuard "isSchedulable_skim" false, .setState "cb_IN_count" 3]

/-- It asks for as many tokens as the other transition reads, and not for the input that nobody reads. -/
theorem requests_largest_pool :
    pool.validate = .ok () ∧ Permitted pool false poolRequests ∧
      ∃ p, lower (declareState pool) false = .ok p ∧
        let d := (Dispatcher.run { scheduler := p } poolRequests).2
        d.step.1 = .ok ["fill_body"] ∧ request d.step.2.state "IN" = some 3 ∧
          request d.step.2.state "SIDE" = request d.state "SIDE" := by
  have hvalid : pool.validate = .ok () := rfl
  have hpermitted : Permitted pool false poolRequests := by decide
  obtain ⟨p, hp, hruns⟩ := requests_largest pool false hvalid
  refine ⟨hvalid, hpermitted, p, hp, ?_⟩
  intro d
  let w := poolRequests.foldl World.serve {}
  have hworld : d.world = w := by
    have hempty : ({ scheduler := p } : Dispatcher).world = {} := by simp [world]
    show (((Dispatcher.setGuard { scheduler := p } _ _).setGuard _ _).setGuard _ _ |>.setState _ _).world
      = w
    rw [world_setState, world_setGuard, world_setGuard, world_setGuard, hempty]
    rfl
  have hscheduler : lower pool false = .ok d.scheduler := by
    rw [run_scheduler, ← lower_declareState, hp]
  have hok := step_fires ((checks_eq_ok_iff _).mp hvalid) hscheduler (hworld ▸ (by decide))
  obtain ⟨current, hcurrent, hfired, hasks⟩ := (hruns _ hpermitted).2 _ hok
  obtain rfl : current = some "on" := by
    obtain ⟨s, hs, rfl, -⟩ := hcurrent _ rfl
    rw [List.mem_singleton.mp hs]
  have hfirst : firstDue d.world pool (tried pool (some "on")) =
      some { (Action.named "fill") with inputs := [⟨"IN", 1⟩], fillBuffer := true } := by
    rw [hworld]
    decide
  rw [hfirst] at hfired hasks
  have hrequested : Requested pool _ d.state d.step.2.state := hasks
  refine ⟨hok.trans (congrArg Except.ok hfired), ?_, ?_⟩
  · obtain ⟨n, ⟨hn, hlargest⟩, hstored⟩ :=
      hrequested.largest _ (List.mem_cons_self) rfl (by decide)
    have hasked : n ∈ [2, 1, 3] := hn
    have hle : 3 ≤ n := hlargest 3 (by decide)
    simp only [List.mem_cons, List.not_mem_nil, or_false] at hasked
    rcases hasked with rfl | rfl | rfl
    · exact absurd hle (by decide)
    · exact absurd hle (by decide)
    · exact hstored
  · exact hrequested.others "SIDE" fun _ _ _ _ => by decide

end DataflowSynth.Scheduler
