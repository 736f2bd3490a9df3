/-
Which ports a scheduler samples.

Ports are sampled in the checks of actions only, one sample for each entry of a pattern whose port has
no buffer.  Nothing else in the procedure samples, so the walk over its blocks comes to the names of these
ports, action by action, and what is left after dropping repetitions is each of them where it is used
first.
-/
import DataflowSynth.Proofs.OrderedMap
import DataflowSynth.Proofs.Scheduler.Encoding
import DataflowSynth.Synthesis.Actor
import Mathlib.Data.List.Basic

namespace DataflowSynth.Synthesis

open Actor Scheduler

variable {actor : Actor} {a : Action} {skipFill : Bool}

/-! ### Ports without a buffer -/

/-- The port with its direction, unless it is not there or has a buffer. -/
def unbuffered (direction : Direction) (port : Option Actor.Port) : Option (Direction × Actor.Port) :=
  port.bind fun p => if p.buffer.isSome then none else some (direction, p)

/-- The ports without a buffer in the patterns of an action, as often as they are named there. -/
def polledBy (actor : Actor) (a : Action) : List (Direction × Actor.Port) :=
  a.inputs.filterMap (fun e => unbuffered .input (actor.input? e.port)) ++
    a.outputs.filterMap fun e => unbuffered .output (actor.output? e.port)

/-- The ports without a buffer in the patterns of all actions, in the order of their first use. -/
def polledPorts (actor : Actor) : List (Direction × Actor.Port) :=
  (actor.actions.flatMap (polledBy actor)).eraseDups

def portName (port : Direction × Actor.Port) : String := port.2.name

/-! ### Ports of blocks -/

@[simp] theorem instructionPorts_append (is js : List Instruction) :
    instructionPorts (is ++ js) = instructionPorts is ++ instructionPorts js :=
  List.filterMap_append

theorem blocksPorts_eq_flatMap (bs : List Block) :
    blockPorts.blocksPorts bs = bs.flatMap blockPorts := by
  induction bs with
  | nil => rfl
  | cons b bs ih => rw [blockPorts.blocksPorts, ih, List.flatMap_cons]

theorem ports_basicUnlessEmpty (is : List Instruction) :
    (basicUnlessEmpty is).flatMap blockPorts = instructionPorts is := by
  unfold basicUnlessEmpty
  split
  · next hempty => rw [List.isEmpty_iff.mp hempty]; rfl
  · simp [blockPorts]

theorem foldl_addOnce (names : List String) : names.foldl addOnce [] = names.eraseDups := by
  induction names using List.reverseRecOn with
  | nil => simp
  | append_singleton names name ih =>
      rw [List.foldl_append, ih, List.foldl_cons, List.foldl_nil, eraseDups_concat, addOnce]
      by_cases h : name ∈ names <;> simp [h]

theorem sampledPorts_eq (p : Procedure) :
    sampledPorts p = (p.blocks.flatMap blockPorts).eraseDups := by
  rw [sampledPorts, foldl_addOnce, blocksPorts_eq_flatMap]

/-! ### Blocks that sample nothing -/

theorem firing_ports (c : Candidate) : instructionPorts (firing actor skipFill c) = [] := by
  have hrequests : instructionPorts (requestStores actor skipFill c) = [] := by
    unfold requestStores
    split
    · rfl
    · simp [instructionPorts]
  have hmoves : instructionPorts (moveStores c.move) = [] := by
    unfold moveStores
    split
    · rfl
    · split <;> rfl
  rw [firing, instructionPorts_append, hrequests]
  exact hmoves

theorem chain_ports (cs : List Candidate) : (chain actor skipFill cs).flatMap blockPorts = [] := by
  induction cs with
  | nil => rfl
  | cons c cs ih =>
      rw [← blocksPorts_eq_flatMap] at ih
      simp [chain, blockPorts, blockPorts.blocksPorts, firing_ports, ih]

theorem choice_ports {blocks : List Block} (h : choice actor skipFill = .ok blocks) :
    blocks.flatMap blockPorts = [] := by
  unfold choice at h
  split at h
  · cases h
    exact chain_ports _
  · next fsm _ =>
    cases hstates : fsm.states.mapM (fun s => do
        let candidates ← stateCandidates actor fsm s
        return Block.branch (.var (stateLocal s)) (chain actor skipFill candidates) []) with
    | error e =>
        rw [hstates] at h
        cases h
    | ok states =>
        rw [hstates] at h
        cases h
        have hblock : ∀ b ∈ states, blockPorts b = [] := by
          intro b hb
          obtain ⟨s, -, hs⟩ := (mapM_ok hstates).1 b hb
          cases hcandidates : stateCandidates actor fsm s with
          | error e =>
              rw [hcandidates] at hs
              cases hs
          | ok cs =>
              rw [hcandidates] at hs
              cases hs
              simp [blockPorts, blockPorts.blocksPorts, blocksPorts_eq_flatMap, chain_ports]
        simpa [blockPorts, blocksPorts_eq_flatMap] using hblock

/-! ### Checks -/

/-- What each result of a loop comes to, all results come to. -/
theorem flatMap_mapM {ε α β γ : Type} {f : α → Except ε β} {g : β → List γ} {h : α → List γ}
    (hf : ∀ a b, f a = .ok b → g b = h a) {xs : List α} {ys : List β} (hxs : xs.mapM f = .ok ys) :
    ys.flatMap g = xs.flatMap h := by
  induction xs generalizing ys with
  | nil =>
      cases hxs
      rfl
  | cons x xs ih =>
      rw [List.mapM_cons] at hxs
      cases hx : f x with
      | error e =>
          rw [hx] at hxs
          cases hxs
      | ok y =>
          cases hrest : xs.mapM f with
          | error e =>
              rw [hx, hrest] at hxs
              cases hxs
          | ok ys' =>
              rw [hx, hrest] at hxs
              cases hxs
              rw [List.flatMap_cons, List.flatMap_cons, hf x y hx, ih hrest]

theorem map_filterMap_toList {α β γ : Type} (f : α → Option β) (g : β → γ) (xs : List α) :
    (xs.filterMap f).map g = xs.flatMap fun x => ((f x).map g).toList := by
  rw [List.map_filterMap, List.filterMap_eq_flatMap_toList]

theorem tokenCheck_ports {e : TokenCount} {c : PortCheck} (h : tokenCheck actor a e = .ok c) :
    instructionPorts c.part.instructions =
      ((unbuffered .input (actor.input? e.port)).map portName).toList := by
  unfold tokenCheck at h
  cases hport : actor.input? e.port with
  | none => simp [hport] at h
  | some port =>
      simp only [hport, Port.bufferVars?] at h
      cases hbuffer : port.buffer with
      | none =>
          simp only [hbuffer, Option.map_none] at h
          cases h
          simp [unbuffered, hbuffer, instructionPorts, statusPart, portName]
      | some size =>
          simp only [hbuffer, Option.map_some] at h
          cases h
          simp [unbuffered, hbuffer, instructionPorts, flag]

theorem spaceCheck_ports {e : TokenCount} {c : PortCheck} (h : spaceCheck actor a e = .ok c) :
    instructionPorts c.part.instructions =
      ((unbuffered .output (actor.output? e.port)).map portName).toList := by
  unfold spaceCheck at h
  cases hport : actor.output? e.port with
  | none => simp [hport] at h
  | some port =>
      simp only [hport, Port.bufferVars?] at h
      cases hbuffer : port.buffer with
      | none =>
          simp only [hbuffer, Option.map_none] at h
          cases h
          simp [unbuffered, hbuffer, instructionPorts, statusPart, portName]
      | some size =>
          simp only [hbuffer, Option.map_some] at h
          cases h
          simp [unbuffered, hbuffer, instructionPorts, flag]

theorem joined_ports (cs : List PortCheck) : instructionPorts (joined cs).instructions =
    cs.flatMap fun c => instructionPorts c.part.instructions := by
  rw [instructionPorts, joined_instructions, List.filterMap_flatMap]
  rfl

theorem eq_nil_of_allFlags? {cs : List PortCheck} (h : allFlags? cs = none) : cs = [] := by
  cases cs with
  | nil => rfl
  | cons c cs => simp [allFlags?, Expr.all?] at h

theorem duePart_ports {p : Part} (h : duePart actor a = .ok p) : instructionPorts p.instructions =
    (a.inputs.filterMap fun e => unbuffered .input (actor.input? e.port)).map portName := by
  unfold duePart at h
  cases hcs : a.inputs.mapM (tokenCheck actor a) with
  | error e =>
      rw [hcs] at h
      cases h
  | ok cs =>
      rw [hcs] at h
      have hports := flatMap_mapM (fun _ _ h => tokenCheck_ports h) hcs
      rw [map_filterMap_toList, ← hports, ← joined_ports]
      cases hall : allFlags? cs with
      | none =>
          simp only [bind, Except.bind, hall] at h
          cases h
          rw [eq_nil_of_allFlags? hall]
          rfl
      | some all =>
          simp only [bind, Except.bind, hall] at h
          cases h
          show instructionPorts (((_ ++ [.assign _ _]) ++ [.call _ _]) ++ [.assign _ _]) = _
          simp only [instructionPorts_append]
          simp [instructionPorts]

theorem firePart_ports {p : Part} (h : firePart actor a = .ok p) : instructionPorts p.instructions =
    (a.outputs.filterMap fun e => unbuffered .output (actor.output? e.port)).map portName := by
  unfold firePart at h
  cases hcs : a.outputs.mapM (spaceCheck actor a) with
  | error e =>
      rw [hcs] at h
      cases h
  | ok cs =>
      rw [hcs] at h
      have hports := flatMap_mapM (fun _ _ h => spaceCheck_ports h) hcs
      rw [map_filterMap_toList, ← hports, ← joined_ports]
      cases hall : allFlags? cs with
      | none =>
          simp only [bind, Except.bind, hall] at h
          cases h
          rw [eq_nil_of_allFlags? hall]
          rfl
      | some all =>
          simp only [bind, Except.bind, hall] at h
          cases h
          simp [instructionPorts]

theorem checks_ports {ps : List Part} (h : checks actor a = .ok ps) :
    ps.flatMap (fun p => instructionPorts p.instructions) = (polledBy actor a).map portName := by
  unfold checks at h
  cases hdue : duePart actor a with
  | error e =>
      rw [hdue] at h
      cases h
  | ok due =>
      cases hfire : firePart actor a with
      | error e =>
          rw [hdue, hfire] at h
          cases h
      | ok fire =>
          rw [hdue, hfire] at h
          cases h
          simp [polledBy, duePart_ports hdue, firePart_ports hfire]

/-! ### The whole scheduler -/

theorem initialStores_ports (actor : Actor) : instructionPorts (initialStores actor) = [] := by
  unfold initialStores
  split <;> simp [instructionPorts]

theorem loads_ports (actor : Actor) : instructionPorts (loads actor).instructions = [] := by
  rw [loads_instructions]
  simp [instructionPorts]

/-- The scheduler samples the ports without a buffer, in the order of their first use. -/
theorem sampledPorts_lower {p : Procedure} (h : lower actor skipFill = .ok p) :
    sampledPorts p = ((actor.actions.flatMap (polledBy actor)).map portName).eraseDups := by
  cases hparts : actor.actions.mapM (checks actor) with
  | error e =>
      simp only [lower, hparts, bind, Except.bind] at h
      cases h
  | ok parts =>
      cases hblocks : choice actor skipFill with
      | error e =>
          simp only [lower, hparts, hblocks, bind, Except.bind] at h
          cases h
      | ok blocks =>
          simp only [lower, hparts, hblocks, bind, Except.bind] at h
          cases h
          have hchecks := flatMap_mapM (fun _ _ h => checks_ports h) hparts
          rw [sampledPorts_eq, List.map_flatMap, ← hchecks]
          have hret : instructionPorts [.ret none] = [] := rfl
          simp only [List.flatMap_append, List.flatMap_cons, List.flatMap_nil, ports_basicUnlessEmpty,
            initialStores_ports, blockPorts, blocksPorts_eq_flatMap, loads_ports, hret,
            choice_ports hblocks, List.flatMap_map, List.nil_append, List.append_nil]
          rw [← List.flatMap_id, List.flatMap_assoc]
          rfl

/-! ### Ports of the actor -/

theorem unbuffered_eq_some_iff {direction side : Direction} {port : Option Actor.Port}
    {p : Actor.Port} : unbuffered direction port = some (side, p) ↔
      side = direction ∧ port = some p ∧ p.buffer = none := by
  cases port with
  | none => simp [unbuffered]
  | some q =>
      rw [unbuffered, Option.bind_some]
      cases hbuffer : q.buffer <;> grind

theorem mem_polledBy_iff {direction : Direction} {p : Actor.Port} :
    (direction, p) ∈ polledBy actor a ↔ p.buffer = none ∧ match direction with
      | .input => ∃ e ∈ a.inputs, actor.input? e.port = some p
      | .output => ∃ e ∈ a.outputs, actor.output? e.port = some p := by
  simp only [polledBy, List.mem_append, List.mem_filterMap, unbuffered_eq_some_iff]
  cases direction <;> grind

/-- A port is polled if it has no buffer and an action names it on its side. -/
theorem mem_polledPorts_iff {direction : Direction} {p : Actor.Port} :
    (direction, p) ∈ polledPorts actor ↔ p.buffer = none ∧ ∃ a ∈ actor.actions, match direction with
      | .input => ∃ e ∈ a.inputs, actor.input? e.port = some p
      | .output => ∃ e ∈ a.outputs, actor.output? e.port = some p := by
  simp only [polledPorts, List.mem_eraseDups, List.mem_flatMap, mem_polledBy_iff]
  grind

theorem nodup_polledPorts (actor : Actor) : (polledPorts actor).Nodup := nodup_eraseDups _

theorem mem_ports_of_mem_polledBy {entry : Direction × Actor.Port} (h : entry ∈ polledBy actor a) :
    entry.2 ∈ actor.ports := by
  obtain ⟨direction, p⟩ := entry
  obtain ⟨-, h⟩ := mem_polledBy_iff.mp h
  cases direction with
  | input =>
      obtain ⟨e, -, hport⟩ := h
      exact List.mem_append_left _ (mem_inputs_of_input? hport)
  | output =>
      obtain ⟨e, -, hport⟩ := h
      exact List.mem_append_right _ (mem_outputs_of_output? hport)

theorem exists_port_of_mem_sampledPorts {p : Procedure} (h : lower actor skipFill = .ok p) :
    ∀ n ∈ sampledPorts p, ∃ q ∈ actor.ports, q.name = n := by
  intro n hn
  rw [sampledPorts_lower h, List.mem_eraseDups] at hn
  obtain ⟨entry, hentry, rfl⟩ := List.mem_map.mp hn
  obtain ⟨a, -, ha⟩ := List.mem_flatMap.mp hentry
  exact ⟨entry.2, mem_ports_of_mem_polledBy ha, rfl⟩

end DataflowSynth.Synthesis
