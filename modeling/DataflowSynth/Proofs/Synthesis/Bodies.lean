/-
What the task of an action does.

The block of an action runs one accessor for each token that the action moves on a port without a
buffer, first those that take tokens and then those that give them.  Each is started when the one before
it is done.  Nothing that is built later changes the block.
-/
import DataflowSynth.Proofs.Sheet.Turns
import DataflowSynth.Proofs.Synthesis.Tasks

namespace DataflowSynth.Synthesis

open Build
open Netlist (Sheet Link Move Turn Body)

variable {d : Design} {block : ComponentId} {ts : List Turn} {s : Traced Design}
  {F : Failure → Traced Design → Prop}

/-! ### Tokens -/

/-- The tokens that move on a port, unless it is not there or has a buffer. -/
def tokensOn (direction : Direction) (port : Option Actor.Port) (count : UInt32) :
    List (Direction × Actor.Port) :=
  match port with
  | none => []
  | some p => if p.buffer.isSome then [] else List.replicate count.toNat (direction, p)

theorem mem_tokensOn {direction : Direction} {port : Option Actor.Port} {count : UInt32}
    {token : Direction × Actor.Port} (h : token ∈ tokensOn direction port count) :
    token.1 = direction ∧ port = some token.2 := by
  unfold tokensOn at h
  split at h
  · exact absurd h List.not_mem_nil
  · split at h
    · exact absurd h List.not_mem_nil
    · rw [List.eq_of_mem_replicate h]
      exact ⟨rfl, rfl⟩

/-- The tokens that the task of an action moves, one by one. -/
def tokensOf (actor : Actor) (a : Actor.Action) : List (Direction × Actor.Port) :=
  a.inputs.flatMap (fun e => tokensOn .input (actor.input? e.port) e.tokens) ++
    a.outputs.flatMap fun e => tokensOn .output (actor.output? e.port) e.tokens

/-- How a token moves through an interface. -/
def moveAlong : Direction → Link → Move
  | .input => .take
  | .output => .give

/-- The accessor moves a token through the interface of its port. -/
def Conveys (fifos : Interfaces) (d : Design) (token : Direction × Actor.Port) (u : Turn) : Prop :=
  ∃ h f send ack, fifos.find? token.2.name = some h ∧ d.fifos.get? h = some f ∧
    f.spec.direction = token.1 ∧ f.pins.send = some send ∧ f.pins.ack = some ack ∧
    u.move = moveAlong token.1 ⟨f.pins.data, send, ack⟩

/-! ### Accessors in line -/

/-- The block is being built, and its accessors stand on the sheet. -/
structure Lining (d : Design) (block : ComponentId) (ts : List Turn) (s : Traced Design) : Prop where
  underway : Underway d block (ts.map Turn.place) s
  lines : ∃ start, s.state.netlist.sheet.Lines block start ts
  fed : ∀ u ∈ ts, u.Fed

/-- More accessors stand there, one for each of the tokens. -/
def Lined (fifos : Interfaces) (d : Design) (block : ComponentId) (ts : List Turn)
    (tokens : List (Direction × Actor.Port)) (places : List ComponentId) (s : Traced Design) : Prop :=
  ∃ us : List Turn, us.map Turn.place = places ∧ List.Forall₂ (Conveys fifos d) tokens us ∧
    Lining d block (ts ++ us) s

theorem wp_openBlock (hs : s.state.Laid) (stem : String) :
    wp (Design.wiring (Netlist.newModule .block stem 0))
      (fun block t => Lining s.state block [] t) F s := by
  have hlines : wp (Design.wiring (Netlist.newModule .block stem 0)) (fun block t =>
      ∃ start, t.state.netlist.sheet.Lines block start []) F s :=
    Design.wp_wiring hs (Netlist.draws_openBlock stem) fun _ _ _ _ h => h
  exact wp_mono (wp_and (wp_newBlock hs stem) hlines) (fun block t ⟨hu, hl⟩ => ⟨hu, hl, by simp⟩)
    fun _ _ h => h.1

section

variable (h : Lining d block ts s) {f : Fifo} {handle : FifoId} (hf : d.fifos.get? handle = some f)
  {fifos : Interfaces} {p : Actor.Port} (hfind : fifos.find? p.name = some handle)

include h hf hfind

theorem wp_take (hdirection : f.spec.direction = .input) : wp (Design.fifoAccess handle .read)
    (fun c t => Lined fifos d block ts [(.input, p)] [c] t) F s := by
  have husable := h.underway.usable hf
  obtain ⟨send, hsend⟩ := Option.isSome_iff_exists.mp husable.send
  obtain ⟨ack, hack⟩ := Option.isSome_iff_exists.mp husable.ack
  obtain ⟨start, hlines⟩ := h.lines
  have hdraws : wp (Design.fifoAccess handle .read) (fun c t => ∃ u : Turn, u.place = c ∧
      u.move = .take ⟨f.pins.data, send, ack⟩ ∧ u.feed = none ∧
        t.state.netlist.sheet.Lines block start (ts ++ [u])) F s := by
    refine wp_fifoAccess h.underway hf ?_
    simp only [Fifo.access, hdirection]
    obtain ⟨n, heq, -⟩ := h.underway
    refine Design.wp_wiring h.underway.laid (Netlist.draws_take hlines ?_ hsend hack)
      fun _ _ _ _ h => h
    rw [heq]
    exact husable
  refine wp_mono (wp_and (wp_read h.underway hf hdirection) hdraws) ?_ fun _ _ h => h.1
  rintro c t ⟨hu, u, hu'⟩
  obtain ⟨rfl, hmove, hfeed, hlined⟩ := hu'
  refine ⟨[u], rfl, .cons ⟨handle, f, send, ack, hfind, hf, hdirection, hsend, hack, hmove⟩ .nil,
    by simpa using hu, ⟨start, hlined⟩, ?_⟩
  simpa [Turn.Fed, hmove, hfeed, or_imp, forall_and] using h.fed

theorem wp_give (hdirection : f.spec.direction = .output) (token : Nat) :
    wp (writeStep block handle p token)
      (fun c t => Lined fifos d block ts [(.output, p)] [c] t) F s := by
  have husable := h.underway.usable hf
  obtain ⟨send, hsend⟩ := Option.isSome_iff_exists.mp husable.send
  obtain ⟨ack, hack⟩ := Option.isSome_iff_exists.mp husable.ack
  obtain ⟨start, hlines⟩ := h.lines
  have hdraws : wp (writeStep block handle p token) (fun c t => ∃ u : Turn, u.place = c ∧
      u.move = .give ⟨f.pins.data, send, ack⟩ ∧ u.feed.isSome ∧ u.token ∈ u.wires.inner.data ∧
        t.state.netlist.sheet.Lines block start (ts ++ [u])) F s := by
    rw [writeStep, wp_bind]
    refine wp_fifoAccess h.underway hf ?_
    simp only [Fifo.access, hdirection]
    have hpins : f.Usable s.state.pins.size := by
      obtain ⟨n, heq, -⟩ := h.underway
      rw [heq]
      exact husable
    refine Design.wp_wiring h.underway.laid (Netlist.draws_give hlines hpins hsend hack)
      fun c n journal hproper hdrawn => ?_
    obtain ⟨u, rfl, hmove, hfeed, htoken, hlined⟩ := hdrawn
    rw [wp_bind]
    refine Design.wp_wiring_proper hproper (Netlist.draws_feedTurn hlined hmove hfeed _ _) ?_
    rintro _ n' journal' _ ⟨b, hfed⟩
    exact ⟨{ u with feed := some b }, rfl, hmove, rfl, htoken, hfed⟩
  refine wp_mono (wp_and (wp_writeStep h.underway hf hdirection p token) hdraws) ?_ fun _ _ h => h.1
  rintro c t ⟨hu, u, hu'⟩
  obtain ⟨rfl, hmove, hfeed, htoken, hlined⟩ := hu'
  refine ⟨[u], rfl, .cons ⟨handle, f, send, ack, hfind, hf, hdirection, hsend, hack, hmove⟩ .nil,
    by simpa using hu, ⟨start, hlined⟩, ?_⟩
  simpa [Turn.Fed, hmove, hfeed, htoken, or_imp, forall_and] using h.fed

end

/-! ### Steps of actions -/

/-- The results of a loop stand behind each other. -/
theorem wp_lineUp {α β : Type} {fifos : Interfaces} {xs : List α} {g : α → Design.Step β}
    (tokens : α → List (Direction × Actor.Port)) (places : β → List ComponentId)
    (h : Lining d block ts s)
    (hg : ∀ x ∈ xs, ∀ ts t, Lining d block ts t →
      wp (g x) (fun b t => Lined fifos d block ts (tokens x) (places b) t) F t) :
    wp (xs.mapM g)
      (fun bs t => Lined fifos d block ts (xs.flatMap tokens) (bs.flatMap places) t) F s := by
  induction xs generalizing ts s with
  | nil => exact ⟨[], rfl, .nil, by simpa using h⟩
  | cons x xs ih =>
      rw [List.mapM_cons]
      simp only [wp_bind, wp_pure]
      refine wp_mono (hg x (by simp) ts s h) ?_ fun _ _ h => h
      rintro b t ⟨us, hus, hconveys, ht⟩
      refine wp_mono (ih ht fun y hy => hg y (by simp [hy])) ?_ fun _ _ h => h
      rintro bs u ⟨vs, hvs, hconveys', hu⟩
      refine ⟨us ++ vs, by simp [hus, hvs], ?_, by simpa using hu⟩
      rw [List.flatMap_cons]
      exact List.rel_append hconveys hconveys'

/-- One step for each token of an entry. -/
theorem wp_times {fifos : Interfaces} {count : Nat} {g : Nat → Design.Step ComponentId}
    {token : Direction × Actor.Port} (h : Lining d block ts s)
    (hg : ∀ i ts t, Lining d block ts t →
      wp (g i) (fun c t => Lined fifos d block ts [token] [c] t) F t) :
    wp (times count g)
      (fun cs t => Lined fifos d block ts (List.replicate count token) cs t) F s := by
  have hcount : (List.range count).flatMap (fun _ => [token]) = List.replicate count token := by
    rw [← List.map_eq_flatMap, List.map_const', List.length_range]
  refine wp_mono (wp_lineUp (fun _ => [token]) (fun c => [c]) h
    fun i _ ts t ht => hg i ts t ht) (fun cs t ht => ?_) fun _ _ h => h
  simpa [hcount] using ht

section

variable {actor : Actor} {fifos : Interfaces} (he : Equipped actor fifos d) (h : Lining d block ts s)

include he h

theorem wp_readSteps (e : Actor.TokenCount) : wp (readSteps actor fifos e)
    (fun cs t => Lined fifos d block ts (tokensOn .input (actor.input? e.port) e.tokens) cs t) F s := by
  have hnone : Lined fifos d block ts [] [] s := ⟨[], rfl, .nil, by simpa using h⟩
  simp only [readSteps, tokensOn]
  cases hp : actor.input? e.port with
  | none => exact hnone
  | some p =>
      simp only
      split
      · exact hnone
      · obtain ⟨handle, f, hfind, hf, hdirection⟩ := he.inputs p (Actor.mem_inputs_of_input? hp)
        simp only [interfaceOf, hfind, wp_bind, wp_pure]
        exact wp_times h fun _ _ _ ht => wp_take ht hf hfind hdirection

theorem wp_writeSteps (e : Actor.TokenCount) : wp (writeSteps actor fifos block e)
    (fun cs t => Lined fifos d block ts (tokensOn .output (actor.output? e.port) e.tokens) cs t) F
      s := by
  have hnone : Lined fifos d block ts [] [] s := ⟨[], rfl, .nil, by simpa using h⟩
  simp only [writeSteps, tokensOn]
  cases hp : actor.output? e.port with
  | none => exact hnone
  | some p =>
      simp only
      split
      · exact hnone
      · obtain ⟨handle, f, hfind, hf, hdirection⟩ := he.outputs p (Actor.mem_outputs_of_output? hp)
        simp only [interfaceOf, hfind, wp_bind, wp_pure]
        exact wp_times h fun token _ _ ht => wp_give ht hf hfind hdirection token

end

/-! ### Tasks of actions -/

/-- The block runs an accessor for each of the tokens, in turn. -/
structure Performs (fifos : Interfaces) (d : Design) (tokens : List (Direction × Actor.Port))
    (block : ComponentId) : Prop where
  /-- The block was built after the root module. -/
  later : d.root.index < block.index
  body : ∃ b : Body, b.Stands d.netlist.sheet block ∧ d.netlist.sheet.StartsBehind b.outBuf block ∧
    (∀ u ∈ b.turns, u.Fed) ∧ List.Forall₂ (Conveys fifos d) tokens b.turns

/-- The block does what it does whatever tasks are added. -/
theorem Performs.adds {fifos : Interfaces} {tokens : List (Direction × Actor.Port)}
    (h : Performs fifos d tokens block) {name : String} {t : TaskId} {other : ComponentId} {d' : Design}
    (hd : Adds d name other t d') : Performs fifos d' tokens block := by
  obtain ⟨b, hstands, ⟨ν, g, c, μ, hν, hg, hμ, hmem, hbehind⟩, hfed, hconveys⟩ := h.body
  have hlater := h.later
  obtain ⟨n, call, rfl⟩ := hd.design
  have hblock : block.index < b.outBuf.index := Nat.lt_of_succ_lt hstands.ahead
  have hold : ∀ {c μ}, d.netlist.sheet.node? c = some μ → block.index ≤ c.index →
      n.sheet.node? c = some μ := fun hμ hle =>
    (hd.same _ (Netlist.lt_of_node? hμ) fun heq => absurd (heq ▸ hle) (by omega)).trans hμ
  refine ⟨hlater, b, ?_, ⟨ν, g, c, μ, hold hν (Nat.le_refl _), hg, hold hμ (by omega), hmem, hbehind⟩,
    hfed, hconveys⟩
  obtain ⟨O, last, hO, -⟩ := hstands.outBuf
  have hbound : b.outBuf.index < d.netlist.sheet.size := Netlist.lt_of_node? hO
  have hsame : ∀ c, block.index ≤ c.index → c.index ≤ b.outBuf.index →
      n.sheet.node? c = d.netlist.sheet.node? c := fun c hle hc =>
    hd.same c (by omega) fun heq => absurd (heq ▸ hle) (by omega)
  obtain ⟨B, owner, clock, reset, go, hB, hbox⟩ := hstands.node
  have hahead := hstands.ahead
  exact hstands.frame ⟨B, owner, clock, reset, go, hold hB (Nat.le_refl _), hbox⟩
    fun c hlt hc => hsame c (by omega) hc

theorem wp_runTurns (h : Lining d block ts s) :
    wp (Design.wiring (sequence block (ts.map Turn.place))) (fun _ t => Finished d block t ∧
      ∃ b : Body, b.turns = ts ∧ b.Stands t.state.netlist.sheet block) F s := by
  obtain ⟨start, hlines⟩ := h.lines
  have hstands : wp (Design.wiring (sequence block (ts.map Turn.place))) (fun _ t =>
      ∃ b : Body, b.turns = ts ∧ b.Stands t.state.netlist.sheet block) F s :=
    Design.wp_wiring h.underway.laid (Netlist.draws_runTurns hlines) fun _ _ _ _ h => h
  exact wp_mono (wp_and (wp_finish h.underway fun σ hσ => Netlist.draws_sequence hσ) hstands)
    (fun _ _ h => h) fun _ _ h => h.1

/-- The body of a new task does what the block did before. -/
theorem performs_wraps {fifos : Interfaces} {tokens : List (Direction × Actor.Port)} {n : Netlist}
    {name : String} {t : TaskId} {d' : Design} (hn : Begun d block n) (h : Wraps d n name block t d')
    {b : Body} (hstands : b.Stands n.sheet block) (hfed : ∀ u ∈ b.turns, u.Fed)
    (hconveys : List.Forall₂ (Conveys fifos d) tokens b.turns) : Performs fifos d' tokens block := by
  obtain ⟨O, last, hO, -⟩ := hstands.outBuf
  have hbound : b.outBuf.index < n.sheet.size := Netlist.lt_of_node? hO
  have hretains := h.retains
  have hinside : ∀ c, block.index < c.index → c.index < n.sheet.size →
      d'.netlist.sheet.node? c = n.sheet.node? c := fun c hlt hc => h.inside hn hlt hc
  obtain ⟨ν, g, c, μ, hν, hg, hμ, hmem, hbehind⟩ := h.starts
  obtain ⟨n', call, rfl⟩ := h.design
  obtain ⟨B, owner, clock, reset, go, hB, hbox⟩ := hstands.node
  exact ⟨hn.root_lt, b, hstands.frame (hretains B _ hB hbox) fun c hlt hc => hinside c hlt (by omega),
    ⟨ν, g, c, μ, hν, hg, hμ, hmem, Nat.lt_trans hbound hbehind⟩, hfed, hconveys⟩

/-- The task of every action can be built, and moves the tokens that the action is about. -/
theorem wp_addActionTask {actor : Actor} {fifos : Interfaces} (hs : s.state.Laid) {clockDomain : String}
    {domain : Design.ClockDomain} (hdomain : s.state.domains.find? clockDomain = some domain)
    (he : Equipped actor fifos s.state) (a : Actor.Action) :
    wp (addActionTask clockDomain actor fifos a) (fun r t => ∃ block,
      Adds s.state a.name block r.1 t.state ∧
        Performs fifos t.state (tokensOf actor a) block) F s := by
  rw [addActionTask, wp_bind]
  refine wp_mono (wp_openBlock hs a.body) (fun block t₁ h₁ => ?_) fun _ _ h => h
  rw [wp_bind]
  refine wp_mono (wp_lineUp _ id h₁ fun e _ ts t ht => wp_readSteps he ht e)
    (fun reads t₂ ⟨us, hus, hreads, h₂⟩ => ?_) fun _ _ h => h
  rw [wp_bind]
  refine wp_mono (wp_lineUp _ id h₂ fun e _ ts t ht => wp_writeSteps he ht e)
    (fun writes t₃ ⟨vs, hvs, hwrites, h₃⟩ => ?_) fun _ _ h => h
  have hsteps : reads.flatten ++ writes.flatten = ([] ++ us ++ vs).map Turn.place := by
    simp [hus, hvs, List.flatMap_id]
  rw [wp_bind, hsteps]
  refine wp_mono (wp_runTurns h₃) (fun _ t₄ ⟨⟨n, hn, hbegun, hruns⟩, b, hb, hstands⟩ => ?_)
    fun _ _ h => h
  rw [wp_bind]
  refine wp_mono (wp_addClockedTask hn hbegun hruns hdomain a.name) (fun t t₅ ht => ?_) fun _ _ h => h
  rw [hn] at hstands
  exact ⟨block, ht.adds hbegun hruns, performs_wraps hbegun ht hstands (hb ▸ h₃.fed)
    (hb ▸ List.rel_append hreads hwrites)⟩

end DataflowSynth.Synthesis
