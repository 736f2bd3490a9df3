/-
The tokens that pass through the ports of an actor.

The task of an action is a circuit between the pins of the interfaces.  Every interface has pins of its
own, so what is seen on them tells how many tokens have passed when the task is done.  There may be
fewer than the pattern of the action declares: all accessors for an entry of the pattern are done in the
same cycle, and the other side has seen one token then.
-/
import DataflowSynth.Proofs.Circuit.Tokens
import DataflowSynth.Proofs.Pass.Result
import Mathlib.Algebra.GroupWithZero.Nat

namespace DataflowSynth

open Build Synthesis
open Netlist (Move Turn Body Signals Word)
open Handshake (AtMostOnce cycles)

/-! ### Tokens that are declared -/

namespace Actor

/-- The tokens that the entries of a pattern declare for a port. -/
def declared (es : List TokenCount) (port : String) : Nat :=
  ((es.filter (·.port = port)).map (·.tokens.toNat)).sum

end Actor

namespace Synthesis

variable {direction : Direction} {p : Actor.Port}
  {find : String → Option Actor.Port}

/-- The tokens of an entry are all for its port. -/
theorem notMem_tokensOn (hname : ∀ {s q}, find s = some q → q.name = s) {e : Actor.TokenCount}
    (he : e.port ≠ p.name) : (direction, p) ∉ tokensOn direction (find e.port) e.tokens :=
  fun hmem => he (hname (mem_tokensOn hmem).2).symm

theorem tokensOn_port (hfind : find p.name = some p) (hbuffer : p.buffer = none)
    {e : Actor.TokenCount} (he : e.port = p.name) :
    tokensOn direction (find e.port) e.tokens = List.replicate e.tokens.toNat (direction, p) := by
  simp [tokensOn, he, hfind, hbuffer]

section

variable (hfind : find p.name = some p) (hname : ∀ {s q}, find s = some q → q.name = s)
  (hbuffer : p.buffer = none)

include hfind hname hbuffer

theorem count_tokens (direction : Direction) (es : List Actor.TokenCount) :
    (es.flatMap fun e => tokensOn direction (find e.port) e.tokens).count (direction, p) =
      Actor.declared es p.name := by
  induction es with
  | nil => rfl
  | cons e es ih =>
      rw [List.flatMap_cons, List.count_append, ih]
      by_cases he : e.port = p.name
      · rw [tokensOn_port hfind hbuffer he, List.count_replicate_self]
        simp [Actor.declared, he]
      · simp [List.count_eq_zero.mpr (notMem_tokensOn hname he), Actor.declared, he]

/-- If one entry is about a port, its tokens come one directly after the other. -/
theorem tokens_split (direction : Direction) {es : List Actor.TokenCount}
    (hentry : (es.filter (·.port = p.name)).length ≤ 1) :
    ∃ xs k ys, (es.flatMap fun e => tokensOn direction (find e.port) e.tokens) =
      xs ++ List.replicate k (direction, p) ++ ys ∧ (direction, p) ∉ xs ∧ (direction, p) ∉ ys := by
  induction es with
  | nil => exact ⟨[], 0, [], rfl, by simp, by simp⟩
  | cons e es ih =>
      by_cases he : e.port = p.name
      · refine ⟨[], e.tokens.toNat, _, by
          rw [List.flatMap_cons, tokensOn_port hfind hbuffer he, List.nil_append], by simp, fun hmem => ?_⟩
        rw [List.filter_cons_of_pos (by simpa using he), List.length_cons] at hentry
        have hnone : es.filter (·.port = p.name) = [] := List.length_eq_zero_iff.mp (by omega)
        obtain ⟨x, hx, hmem⟩ := List.mem_flatMap.mp hmem
        exact notMem_tokensOn hname (by simpa using List.filter_eq_nil_iff.mp hnone x hx) hmem
      · rw [List.filter_cons_of_neg (by simpa using he)] at hentry
        obtain ⟨xs, k, ys, heq, hxs, hys⟩ := ih hentry
        refine ⟨tokensOn direction (find e.port) e.tokens ++ xs, k, ys, by
          rw [List.flatMap_cons, heq, List.append_assoc, List.append_assoc, List.append_assoc],
          fun hmem => ?_, hys⟩
        rcases List.mem_append.mp hmem with hmem | hmem
        · exact notMem_tokensOn hname he hmem
        · exact hxs hmem

end

/-! ### Both sides of an action -/

def portOf (actor : Actor) : Direction → String → Option Actor.Port
  | .input => actor.input?
  | .output => actor.output?

def patternOf (a : Actor.Action) : Direction → List Actor.TokenCount
  | .input => a.inputs
  | .output => a.outputs

theorem mem_of_portOf {actor : Actor} {name : String} (h : portOf actor direction name = some p) :
    (direction, p) ∈ directedPorts actor ∧ p.name = name := by
  cases direction with
  | input =>
      exact ⟨List.mem_append_left _ (List.mem_map_of_mem (Actor.mem_inputs_of_input? h)),
        by simpa using List.find?_some h⟩
  | output =>
      exact ⟨List.mem_append_right _ (List.mem_map_of_mem (Actor.mem_outputs_of_output? h)),
        Actor.name_of_output? h⟩

/-- The tokens of an action on one side. -/
def side (actor : Actor) (a : Actor.Action) (direction : Direction) : List (Direction × Actor.Port) :=
  (patternOf a direction).flatMap fun e => tokensOn direction (portOf actor direction e.port) e.tokens

theorem tokensOf_eq (actor : Actor) (a : Actor.Action) :
    tokensOf actor a = side actor a .input ++ side actor a .output := rfl

end Synthesis

namespace Pass

/-! ### Interfaces of their own -/

section

variable {fifos : Interfaces} {actor : Actor} {d : Design} (h : Staffed fifos actor d)

include h

/-- The interface of a port. -/
theorem Staffed.interface {x : Direction × Actor.Port} (hx : x ∈ directedPorts actor) :
    ∃ i f, (directedPorts actor)[i]? = some x ∧ fifos.find? x.2.name = some ⟨i⟩ ∧
      d.fifos.values[i]? = some f ∧ f.spec = portSpec x.1 x.2 := by
  obtain ⟨i, hi⟩ := List.mem_iff_getElem?.mp hx
  have hspec : (d.fifos.values.map Fifo.spec)[i]? = some (portSpec x.1 x.2) := by
    rw [h.specs, List.getElem?_map, hi, Option.map_some]
  rw [List.getElem?_map, Option.map_eq_some_iff] at hspec
  obtain ⟨f, hf, heq⟩ := hspec
  exact ⟨i, f, hi, h.handles i x hi, hf, heq⟩

/-- Ports have names of their own. -/
theorem Staffed.eq_of_name {x y : Direction × Actor.Port} (hx : x ∈ directedPorts actor)
    (hy : y ∈ directedPorts actor) (hname : x.2.name = y.2.name) : x = y := by
  obtain ⟨i, f, hi, hfind, -⟩ := h.interface hx
  obtain ⟨j, g, hj, hfind', -⟩ := h.interface hy
  rw [hname, hfind'] at hfind
  cases hfind
  exact Option.some.inj (hi.symm.trans hj)

/-- Two interfaces have no pin in common. -/
theorem Staffed.disjoint {i j : Nat} {f g : Fifo} (hf : d.fifos.values[i]? = some f)
    (hg : d.fifos.values[j]? = some g) (hne : i ≠ j) : f.pins.toList.Disjoint g.pins.toList := by
  obtain ⟨hi, rfl⟩ := List.getElem?_eq_some_iff.mp hf
  obtain ⟨hj, rfl⟩ := List.getElem?_eq_some_iff.mp hg
  have hapart := List.pairwise_iff_getElem.mp (List.nodup_flatMap.mp h.pins).2
  rcases Nat.lt_or_gt_of_ne hne with hlt | hlt
  · exact hapart i j hi hj hlt
  · exact (hapart j i hj hi hlt).symm

end

theorem pins_moveAlong {f : Fifo} {send ack : PinId} (hsend : f.pins.send = some send)
    (hack : f.pins.ack = some ack) (direction : Direction) :
    (moveAlong direction ⟨f.pins.data, send, ack⟩).pins.Sublist f.pins.toList := by
  have hlist : f.pins.toList = [f.pins.data, send, ack] ++ f.pins.ready.toList := by
    simp [FifoPins.toList, hsend, hack]
  rw [hlist]
  cases direction <;> exact List.sublist_append_left ..

/-- A token of the port moves on its interface, and any other token on other pins. -/
theorem Staffed.conveys_iff {fifos : Interfaces} {actor : Actor} {d : Design} (h : Staffed fifos actor d)
    {x token : Direction × Actor.Port} {i : Nat} (hi : (directedPorts actor)[i]? = some x) {f : Fifo}
    (hf : d.fifos.values[i]? = some f) {send ack : PinId} (hsend : f.pins.send = some send)
    (hack : f.pins.ack = some ack) {mv : Move} (hmv : mv = moveAlong x.1 ⟨f.pins.data, send, ack⟩)
    (htoken : token ∈ directedPorts actor) {u : Turn} (hu : Conveys fifos d token u) :
    (token = x ↔ u.move = mv) ∧ u.move.Apart mv := by
  obtain ⟨handle, g, send', ack', hfind, hg, -, hsend', hack', hmove⟩ := hu
  obtain ⟨j, g', hj, hfind', hg', -⟩ := h.interface htoken
  cases hfind.symm.trans hfind'
  have hvalue : d.fifos.values[j]? = some g := by
    rw [← hg, Arena.get?_eq_values]
  by_cases heq : token = x
  · subst heq
    obtain ⟨x', f', hx', hfind'', -⟩ := h.interface htoken
    have hji : j = i := by
      have hhandle := (h.handles j token hj).symm.trans (h.handles i token hi)
      exact congrArg Handle.index (Option.some.inj hhandle)
    subst hji
    cases hvalue.symm.trans hf
    cases hsend.symm.trans hsend'
    cases hack.symm.trans hack'
    exact ⟨iff_of_true rfl (hmove.trans hmv.symm), .inl (hmove.trans hmv.symm)⟩
  · have hne : j ≠ i := fun hji => heq (Option.some.inj (hj.symm.trans (hji ▸ hi)))
    have hdisjoint : u.move.pins.Disjoint mv.pins := by
      rw [hmove, hmv]
      exact fun pin hpin hpin' => h.disjoint hvalue hf hne ((pins_moveAlong hsend' hack' _).subset hpin)
        ((pins_moveAlong hsend hack _).subset hpin')
    refine ⟨iff_of_false heq fun hsame => ?_, .inr hdisjoint⟩
    have hdata : f.pins.data ∈ mv.pins := by
      rw [hmv]
      cases x.1 <;> simp [moveAlong, Move.pins]
    exact hdisjoint (hsame ▸ hdata) hdata

/-! ### Tokens that pass -/

/-- The block runs by its rules, and it is started in the first cycle only. -/
structure Launched (n : Netlist) (w : Signals) (block : ComponentId) : Prop where
  runs : n.PartsRun w block
  started : ∀ t, n.Started w block t ↔ t = 0

theorem Launched.once {n : Netlist} {w : Signals} {block : ComponentId} (h : Launched n w block) :
    AtMostOnce (n.Started w block) := fun s t hs ht =>
  ((h.started s).mp hs).trans ((h.started t).mp ht).symm

/-- Token by token, what is there for a port moves on the interface of the port, and all else moves on
other pins. -/
theorem Staffed.moves {fifos : Interfaces} {actor : Actor} {d : Design} (h : Staffed fifos actor d)
    {x : Direction × Actor.Port} {i : Nat} (hi : (directedPorts actor)[i]? = some x) {f : Fifo}
    (hf : d.fifos.values[i]? = some f) {send ack : PinId} (hsend : f.pins.send = some send)
    (hack : f.pins.ack = some ack) {mv : Move} (hmv : mv = moveAlong x.1 ⟨f.pins.data, send, ack⟩)
    {tokens : List (Direction × Actor.Port)} {us : List Turn}
    (htokens : ∀ token ∈ tokens, token ∈ directedPorts actor)
    (hus : List.Forall₂ (Conveys fifos d) tokens us) :
    tokens.map (fun token => decide (token = x)) = us.map (fun u => decide (u.move = mv)) ∧
      ∀ u ∈ us, u.move.Apart mv := by
  induction hus with
  | nil => exact ⟨rfl, by simp⟩
  | cons hu _ ih =>
      obtain ⟨htoken, htokens⟩ := List.forall_mem_cons.mp htokens
      obtain ⟨hiff, hapart⟩ := h.conveys_iff hi hf hsend hack hmv htoken hu
      obtain ⟨hsame, haparts⟩ := ih htokens
      exact ⟨by rw [List.map_cons, List.map_cons, hsame, decide_eq_decide.mpr hiff],
        List.forall_mem_cons.mpr ⟨hapart, haparts⟩⟩

/-- What stands in one of two lists has, by the same decisions, a counterpart in the other. -/
theorem exists_of_map_decide {α β : Type} {p : α → Prop} {q : β → Prop} [DecidablePred p]
    [DecidablePred q] {l : List α} {l' : List β}
    (h : l'.map (fun b => decide (q b)) = l.map fun a => decide (p a)) {b : β} (hb : b ∈ l') :
    ∃ a ∈ l, p a ↔ q b := by
  have hmem := h ▸ List.mem_map_of_mem (f := fun b => decide (q b)) hb
  obtain ⟨a, ha, hsame⟩ := List.mem_map.mp hmem
  exact ⟨a, ha, decide_eq_decide.mp hsame⟩

/-- When a block that moves tokens is done, tokens of each kind have passed in no more cycles than there
are such tokens, but in one at least; if they come one directly after the other, in one only. -/
theorem Staffed.passes {fifos : Interfaces} {actor : Actor} {d : Design} (h : Staffed fifos actor d)
    {tokens : List (Direction × Actor.Port)} {block : ComponentId} (hp : Performs fifos d tokens block)
    (htokens : ∀ token ∈ tokens, token ∈ directedPorts actor) {x : Direction × Actor.Port}
    (hx : x ∈ directedPorts actor) :
    ∃ f ∈ d.fifos.values, ∃ send ack, f.spec = portSpec x.1 x.2 ∧ f.pins.send = some send ∧
      f.pins.ack = some ack ∧ ∀ w t, Launched d.netlist w block → d.netlist.Finished w block t →
        ∀ count, count = cycles (d.netlist.Passes w block · (moveAlong x.1 ⟨f.pins.data, send, ack⟩)) t →
          count ≤ tokens.count x ∧ (0 < tokens.count x → 0 < count) ∧
          ∀ xs k ys, tokens = xs ++ List.replicate k x ++ ys → x ∉ xs → x ∉ ys → count ≤ 1 := by
  obtain ⟨i, f, hi, -, hf, hspec⟩ := h.interface hx
  obtain ⟨b, hstands, -, hfed, hconveys⟩ := hp.body
  have husable := h.laid.layout.fifos ⟨i⟩ f (Arena.get?_eq_values.trans hf)
  obtain ⟨send, hsend⟩ := Option.isSome_iff_exists.mp husable.send
  obtain ⟨ack, hack⟩ := Option.isSome_iff_exists.mp husable.ack
  refine ⟨f, List.mem_of_getElem? hf, send, ack, hspec, hsend, hack, ?_⟩
  rintro w t hw ht _ rfl
  let mv := moveAlong x.1 ⟨f.pins.data, send, ack⟩
  obtain ⟨hkinds, hapart⟩ := h.moves hi hf hsend hack rfl htokens hconveys
  have hpins : mv.pins.Nodup := (pins_moveAlong hsend hack x.1).nodup
    ((List.nodup_flatMap.mp h.pins).1 f (List.mem_of_getElem? hf))
  have hcount : b.turns.countP (·.move = mv) = tokens.count x := by
    have htrue := congrArg (List.countP id) hkinds
    rw [List.countP_map, List.countP_map] at htrue
    rw [List.count_eq_countP]
    simpa [Function.comp_def, beq_eq_decide] using htrue.symm
  obtain ⟨hle, hpos⟩ := hstands.cycles_passes hfed hw.runs h.laid.proper hw.once hpins hapart ht
  rw [hcount] at hle hpos
  refine ⟨hle, hpos, fun xs k ys hsplit hxs hys => ?_⟩
  rw [hsplit, List.map_append, List.map_append] at hkinds
  obtain ⟨us, rest, hturns, hus, hrest⟩ := List.map_eq_append_iff.mp hkinds.symm
  obtain ⟨us, vs, rfl, hus, hvs⟩ := List.map_eq_append_iff.mp hus
  refine hstands.cycles_passes_one hfed hw.runs h.laid.proper hw.once hpins hapart hturns
    (fun u hu hmove => ?_) (fun u hu => ?_) fun u hu hmove => ?_
  · obtain ⟨token, htoken, hiff⟩ := exists_of_map_decide hus hu
    exact hxs (hiff.mpr hmove ▸ htoken)
  · obtain ⟨token, htoken, hiff⟩ := exists_of_map_decide hvs hu
    exact hiff.mp (List.eq_of_mem_replicate htoken)
  · obtain ⟨token, htoken, hiff⟩ := exists_of_map_decide hrest hu
    exact hys (hiff.mpr hmove ▸ htoken)

/-! ### Tasks of actions -/

/-- The cycles in which a token has passed on a port, against what a pattern declares. -/
structure Tally (es : List Actor.TokenCount) (port : String) (count : Nat) : Prop where
  exact : Actor.declared es port ≤ 1 → count = Actor.declared es port
  le : count ≤ Actor.declared es port
  pos : 0 < Actor.declared es port → 0 < count
  /-- For all tokens of one entry, only one token passes. -/
  single : (es.filter (·.port = port)).length ≤ 1 → count ≤ 1

/-- What the body of the task of an action does on the pins, whatever the other side does. -/
structure Trades (actor : Actor) (a : Actor.Action) (d : Design) (block : ComponentId) : Prop where
  /-- Whatever is on the pins and whenever it is started, the circuit goes on. -/
  runs : ∀ (pin : Nat → PinId → Word) (go : Nat → Bool),
    ∃ w, w.pin = pin ∧ d.netlist.PartsRun w block ∧ ∀ t, d.netlist.Started w block t ↔ go t = true
  /-- It is done in the cycle in which it is started if the other side is ready on all pins. -/
  at_once : ∀ w t, d.netlist.PartsRun w block → d.netlist.Started w block t →
    (∀ pin, w.pin t pin 0 = true) → d.netlist.Finished w block t
  once : ∀ w, Launched d.netlist w block → AtMostOnce (d.netlist.Finished w block)
  /-- A token of an input is taken when the ack pin is driven high. -/
  takes : ∀ p ∈ actor.inputs, p.buffer = none → ∃ f ∈ d.fifos.values, ∃ ack,
    f.spec = portSpec .input p ∧ f.pins.ack = some ack ∧
    ∀ w t, Launched d.netlist w block → d.netlist.Finished w block t →
      Tally a.inputs p.name (cycles (fun r => d.netlist.PartsRaise w block r ack) t)
  /-- A token of an output is given when the send pin is driven high while the ack pin is high. -/
  gives : ∀ p ∈ actor.outputs, p.buffer = none → ∃ f ∈ d.fifos.values, ∃ send ack,
    f.spec = portSpec .output p ∧ f.pins.send = some send ∧ f.pins.ack = some ack ∧
    ∀ w t, Launched d.netlist w block → d.netlist.Finished w block t →
      Tally a.outputs p.name
        (cycles (fun r => d.netlist.PartsRaise w block r send ∧ w.pin r ack 0 = true) t)

section

variable {fifos : Interfaces} {actor : Actor} {d : Design} (h : Staffed fifos actor d)
  {direction : Direction} {p : Actor.Port} (hport : (direction, p) ∈ directedPorts actor)

include h hport

theorem Staffed.port_self : portOf actor direction p.name = some p := by
  have hsome : (portOf actor direction p.name).isSome := by
    cases direction with
    | input => exact List.find?_isSome.mpr ⟨p, by simpa [directedPorts] using hport, by simp⟩
    | output => exact List.find?_isSome.mpr ⟨p, by simpa [directedPorts] using hport, by simp⟩
  obtain ⟨q, hq⟩ := Option.isSome_iff_exists.mp hsome
  obtain ⟨hmem, hname⟩ := mem_of_portOf hq
  cases h.eq_of_name hmem hport hname
  exact hq

/-- Of the tokens on both sides, those of a port are on the side of its direction. -/
theorem Staffed.tokens_port (a : Actor.Action) (hbuffer : p.buffer = none) :
    (tokensOf actor a).count (direction, p) = Actor.declared (patternOf a direction) p.name ∧
      (((patternOf a direction).filter (·.port = p.name)).length ≤ 1 → ∃ xs k ys,
        tokensOf actor a = xs ++ List.replicate k (direction, p) ++ ys ∧
          (direction, p) ∉ xs ∧ (direction, p) ∉ ys) := by
  have hfind := h.port_self hport
  have hname : ∀ {s q}, portOf actor direction s = some q → q.name = s := fun hq => (mem_of_portOf hq).2
  have hcount := count_tokens hfind hname hbuffer direction (patternOf a direction)
  have hother : ∀ other, other ≠ direction → (direction, p) ∉ side actor a other := by
    intro other hne hmem
    obtain ⟨e, -, he⟩ := List.mem_flatMap.mp hmem
    exact hne (mem_tokensOn he).1.symm
  rw [tokensOf_eq]
  cases direction with
  | input =>
      have hnone := hother .output (by simp)
      refine ⟨?_, fun hentry => ?_⟩
      · rw [List.count_append, List.count_eq_zero.mpr hnone, Nat.add_zero]
        exact hcount
      · obtain ⟨xs, k, ys, heq, hxs, hys⟩ := tokens_split hfind hname hbuffer _ hentry
        refine ⟨xs, k, ys ++ side actor a .output, ?_, hxs, by simp [hys, hnone]⟩
        rw [← List.append_assoc, ← heq]
        rfl
  | output =>
      have hnone := hother .input (by simp)
      refine ⟨?_, fun hentry => ?_⟩
      · rw [List.count_append, List.count_eq_zero.mpr hnone, Nat.zero_add]
        exact hcount
      · obtain ⟨xs, k, ys, heq, hxs, hys⟩ := tokens_split hfind hname hbuffer _ hentry
        refine ⟨side actor a .input ++ xs, k, ys, ?_, by simp [hxs, hnone], hys⟩
        rw [List.append_assoc, List.append_assoc, ← List.append_assoc xs, ← heq]
        rfl

/-- The tokens that pass on a port while the task of an action runs. -/
theorem Staffed.tally {a : Actor.Action} {block : ComponentId}
    (hp : Performs fifos d (tokensOf actor a) block) (hbuffer : p.buffer = none) :
    ∃ f ∈ d.fifos.values, ∃ send ack, f.spec = portSpec direction p ∧ f.pins.send = some send ∧
      f.pins.ack = some ack ∧ ∀ w t, Launched d.netlist w block → d.netlist.Finished w block t →
        Tally (patternOf a direction) p.name
          (cycles (d.netlist.Passes w block · (moveAlong direction ⟨f.pins.data, send, ack⟩)) t) := by
  obtain ⟨f, hf, send, ack, hspec, hsend, hack, hpasses⟩ :=
    h.passes hp (fun token htoken => mem_directedPorts_of_tokensOf htoken) hport
  obtain ⟨hdeclared, hsplit⟩ := h.tokens_port hport a hbuffer
  refine ⟨f, hf, send, ack, hspec, hsend, hack, fun w t hw ht => ?_⟩
  obtain ⟨hle, hpos, hsingle⟩ := hpasses w t hw ht _ rfl
  rw [hdeclared] at hle hpos
  dsimp only at hle hpos
  refine ⟨fun hone => by omega, hle, hpos, fun hentry => ?_⟩
  obtain ⟨xs, k, ys, htokens, hxs, hys⟩ := hsplit hentry
  exact hsingle xs k ys htokens hxs hys

end

theorem Staffed.trades {fifos : Interfaces} {actor : Actor} {d : Design} (h : Staffed fifos actor d)
    {a : Actor.Action} {block : ComponentId} (hp : Performs fifos d (tokensOf actor a) block) :
    Trades actor a d block := by
  obtain ⟨b, hstands, hstarts, hfed, -⟩ := hp.body
  refine ⟨hstands.exists_run h.laid.proper hfed hstarts, fun w t hrun hgo hready => ?_, fun w hw => ?_,
    fun p hport hbuffer => ?_, fun p hport hbuffer => ?_⟩
  · refine (hstands.relay hfed hrun h.laid.proper).at_once hgo fun s hs => ?_
    obtain ⟨u, -, rfl⟩ := List.mem_map.mp hs
    exact hready u.ready
  · exact ((hstands.relay hfed hw.runs h.laid.proper).once hw.once).1
  · obtain ⟨f, hf, send, ack, hspec, -, hack, htally⟩ :=
      h.tally (List.mem_append_left _ (List.mem_map_of_mem hport)) hp hbuffer
    exact ⟨f, hf, ack, hspec, hack, htally⟩
  · obtain ⟨f, hf, send, ack, hspec, hsend, hack, htally⟩ :=
      h.tally (List.mem_append_right _ (List.mem_map_of_mem hport)) hp hbuffer
    exact ⟨f, hf, send, ack, hspec, hsend, hack, htally⟩

/-- Only the ports of an actor matter. -/
theorem Trades.congr {actor actor' : Actor} {a : Actor.Action} {d : Design} {block : ComponentId}
    (h : Trades actor a d block) (hinputs : actor'.inputs = actor.inputs)
    (houtputs : actor'.outputs = actor.outputs) : Trades actor' a d block :=
  ⟨h.runs, h.at_once, h.once, hinputs ▸ h.takes, houtputs ▸ h.gives⟩

/-- If one entry of the pattern declares several tokens for an input, the task can be done when fewer of
them have been taken. -/
theorem Trades.short {actor : Actor} {a : Actor.Action} {d : Design} {block : ComponentId}
    (h : Trades actor a d block) {p : Actor.Port} (hport : p ∈ actor.inputs) (hbuffer : p.buffer = none)
    (hentry : (a.inputs.filter (·.port = p.name)).length ≤ 1)
    (hmany : 1 < Actor.declared a.inputs p.name) :
    ∃ w, Launched d.netlist w block ∧ d.netlist.Finished w block 0 ∧ ∃ f ∈ d.fifos.values, ∃ ack,
      f.spec = portSpec .input p ∧ f.pins.ack = some ack ∧
      cycles (fun r => d.netlist.PartsRaise w block r ack) 0 < Actor.declared a.inputs p.name := by
  obtain ⟨w, hpin, hrun, hstarted⟩ := h.runs (fun _ _ _ => true) (fun t => decide (t = 0))
  have hw : Launched d.netlist w block := ⟨hrun, fun t => (hstarted t).trans decide_eq_true_iff⟩
  have hdone := h.at_once w 0 hrun ((hw.started 0).mpr rfl) fun pin => by rw [hpin]
  obtain ⟨f, hf, ack, hspec, hack, htally⟩ := h.takes p hport hbuffer
  exact ⟨w, hw, hdone, f, hf, ack, hspec, hack, Nat.lt_of_le_of_lt ((htally w 0 hw hdone).single hentry) hmany⟩

/-! ### The whole pipeline -/

/-- The tasks of the actions come in the order of the actions. -/
theorem Realizes.name_task {actor : Actor} {j : Job} (h : Realizes actor j) {i : Nat} {a : Actor.Action}
    (ha : actor.actions[i]? = some a) {task : Design.Task} (htask : j.design.tasks.get? ⟨i⟩ = some task) :
    task.name = a.name := by
  have hvalue : j.design.tasks.values[i]? = some task := by
    rw [← htask, Arena.get?_eq_values]
  have hname : (j.design.tasks.values.map Design.Task.name)[i]? = some task.name := by
    rw [List.getElem?_map, hvalue, Option.map_some]
  obtain ⟨hi, -⟩ := List.getElem?_eq_some_iff.mp ha
  rw [h.tasks, List.getElem?_append_left (by simpa using hi), List.getElem?_map, ha] at hname
  exact (Option.some.inj hname).symm

theorem exists_staffed (host : Host) {actor : Actor} {clockDomain : String} {journal : Journal}
    {t : Traced Job} (h : Registry.standard.run host { passes := ["all"] } false
      ⟨{ Job.new actor with clockDomain }, journal⟩ = .ok () t) :
    Realizes (Scheduler.declareState actor) t.state ∧
      ∃ fifos, Staffed fifos (Scheduler.declareState actor) t.state.design := by
  have hrun := wp_run_all_realizes (s := ⟨{ Job.new actor with clockDomain }, journal⟩) host
    (fresh_new actor clockDomain)
  exact of_wp_ok hrun h

/-- Whenever all passes run for a new job, the task of every action is a circuit that can be run with
anything on its pins.  When it is started once, it is done once at most.  When it is done, no more
tokens have passed on a port without a buffer than the pattern of the action declares for it, some have
if any are declared, and exactly the one if it is just one.  But all tokens of one entry of the pattern
pass as one. -/
theorem run_all_trades (host : Host) (actor : Actor) (clockDomain : String) (journal : Journal)
    {t : Traced Job} (h : Registry.standard.run host { passes := ["all"] } false
      ⟨{ Job.new actor with clockDomain }, journal⟩ = .ok () t) :
    ∀ i a, actor.actions[i]? = some a → ∃ task, t.state.design.tasks.get? ⟨i⟩ = some task ∧
      task.name = a.name ∧ Trades actor a t.state.design task.body := by
  intro i a ha
  obtain ⟨hrealizes, fifos, hstaffed⟩ := exists_staffed host h
  obtain ⟨task, htask, hp⟩ := hstaffed.bodies i a ha
  exact ⟨task, htask, hrealizes.name_task ha htask, (hstaffed.trades hp).congr rfl rfl⟩

theorem run_all_trades_halver : ∃ t, Registry.standard.run .closed { passes := ["all"] } false
      ⟨{ Job.new halver with clockDomain := "CLK:RESET" }, #[]⟩ = .ok () t ∧
    ∀ i a, halver.actions[i]? = some a → ∃ task, t.state.design.tasks.get? ⟨i⟩ = some task ∧
      task.name = a.name ∧ Trades halver a t.state.design task.body := by
  obtain ⟨t, ht⟩ := exists_run_all .closed supported_halver (by decide) #[]
  exact ⟨t, ht, run_all_trades .closed halver "CLK:RESET" #[] ht⟩

/-- The action `halve` declares two tokens of `IN`, and is done after one. -/
theorem halver_takes_one : ∃ t a task w, Registry.standard.run .closed { passes := ["all"] } false
      ⟨{ Job.new halver with clockDomain := "CLK:RESET" }, #[]⟩ = .ok () t ∧
    halver.actions[0]? = some a ∧ Actor.declared a.inputs "IN" = 2 ∧
    t.state.design.tasks.get? ⟨0⟩ = some task ∧ Launched t.state.design.netlist w task.body ∧
    t.state.design.netlist.Finished w task.body 0 ∧ ∃ f ∈ t.state.design.fifos.values, ∃ ack,
      f.spec = portSpec .input { name := "IN", type := .int 8 } ∧ f.pins.ack = some ack ∧
      cycles (fun r => t.state.design.netlist.PartsRaise w task.body r ack) 0 ≠
        Actor.declared a.inputs "IN" := by
  obtain ⟨t, ht⟩ := exists_run_all .closed supported_halver (by decide) #[]
  obtain ⟨-, fifos, hstaffed⟩ := exists_staffed .closed ht
  have ha : (Scheduler.declareState halver).actions[0]? = some {
      name := "halve", body := "halve", guard := "may", inputs := [⟨"IN", 2⟩]
      outputs := [⟨"OUT", 1⟩, ⟨"LOG", 1⟩] } := rfl
  obtain ⟨task, htask, hp⟩ := hstaffed.bodies 0 _ ha
  have htrades := hstaffed.trades hp
  obtain ⟨w, hw, hdone, f, hf, ack, hspec, hack, hshort⟩ := htrades.short
    (p := { name := "IN", type := .int 8 }) (List.mem_singleton.mpr rfl) rfl (by decide) (by decide)
  exact ⟨t, _, task, w, ht, rfl, by decide, htask, hw, hdone, f, hf, ack, hspec, hack,
    Nat.ne_of_lt hshort⟩

end Pass

end DataflowSynth
