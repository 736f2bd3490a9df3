/-
Routine steps.

Wiring, marks and entries change all over a netlist while something else is built, and few relations
between netlists take notice of that.  A relation that ignores the single changes ignores everything
that is made of them, up to the wiring of a whole task.
-/
import DataflowSynth.Design.Task
import DataflowSynth.Proofs.Netlist.Ownership

namespace DataflowSynth

open Build

namespace Build.Moves

variable {σ α β : Type} {R : σ → σ → Prop} [IsPreorder σ R]

theorem anyM {xs : List β} {f : β → Build σ Bool} (hf : ∀ b ∈ xs, Moves R (f b)) :
    Moves R (xs.anyM f) := by
  induction xs with
  | nil => exact .pure false
  | cons b xs ih =>
      refine .bind (hf b (by simp)) fun found => ?_
      cases found with
      | true => exact .pure true
      | false => exact ih fun c hc => hf c (by simp [hc])

theorem findM? {xs : List β} {f : β → Build σ Bool} (hf : ∀ b ∈ xs, Moves R (f b)) :
    Moves R (xs.findM? f) := by
  induction xs with
  | nil => exact .pure none
  | cons b xs ih =>
      refine .bind (hf b (by simp)) fun found => ?_
      cases found with
      | true => exact .pure (some b)
      | false => exact ih fun c hc => hf c (by simp [hc])

theorem foldlM {xs : List β} {f : α → β → Build σ α} (hf : ∀ a, ∀ b ∈ xs, Moves R (f a b)) (a : α) :
    Moves R (xs.foldlM f a) := by
  induction xs generalizing a with
  | nil => exact .pure a
  | cons b xs ih =>
      rw [List.foldlM_cons]
      exact .bind (hf a b (by simp)) fun a' => ih (fun a'' c hc => hf a'' c (by simp [hc])) a'

end Build.Moves

/-- The step moves along `R`, and this is its result. -/
def Build.Returns {σ α : Type} (R : σ → σ → Prop) (a : α) (x : Build σ α) : Prop :=
  ∀ s, wp x (fun b t => b = a ∧ R s.state t.state) (fun f _ => f.Unless False) s

namespace Build.Returns

variable {σ α β : Type} {R : σ → σ → Prop} [IsPreorder σ R] {a : α}

protected theorem pure (a : α) : Returns R a (pure a : Build σ α) := fun s => ⟨rfl, refl_of R s.state⟩

theorem bind {x : Build σ β} {f : β → Build σ α} (hx : Moves R x) (hf : ∀ b, Returns R a (f b)) :
    Returns R a (x >>= f) := by
  intro s
  rw [wp_bind]
  refine wp_mono (hx s) (fun b t ht => ?_) fun _ _ h => h
  exact wp_mono (hf b t) (fun _ _ hu => ⟨hu.1, trans_of R ht hu.2⟩) fun _ _ h => h

omit [IsPreorder σ R] in
theorem moves {x : Build σ α} (hx : Returns R a x) : Moves R x := fun s =>
  wp_mono (hx s) (fun _ _ h => h.2) fun _ _ h => h

end Build.Returns

namespace Netlist

variable {R : Netlist → Netlist → Prop} [IsPreorder Netlist R] {c m o : ComponentId} {p : PortId}
  {b : BusId} {e : ExitId}

/-! ### Looking around -/

theorem moves_hasEntry : Moves R (hasEntry o e) :=
  .bind moves_component fun _ => .anyM fun _ _ =>
    .bind (.bind (.look _) fun _ => .expect _ _) fun _ => .pure _

theorem moves_inBuf : Moves R (inBuf m) :=
  .bind (.bind moves_component fun _ => .expect _ _) fun _ => .pure _

theorem moves_controlBus? {control : Control} : Moves R (controlBus? m control) :=
  .bind moves_inBuf fun _ => .bind moves_mainExit fun _ => .bind moves_exit fun _ =>
    .findM? fun _ _ => .bind moves_bus fun _ => .pure _

theorem moves_clockBus : Moves R (clockBus m) := .bind moves_controlBus? fun _ => .expect _ _

theorem moves_resetBus : Moves R (resetBus m) := .bind moves_controlBus? fun _ => .expect _ _

theorem moves_goBus : Moves R (goBus m) :=
  .bind moves_inBuf fun _ => .bind moves_mainExit fun _ => .bind moves_exit fun _ => .pure _

theorem moves_resultBus : Moves R (resultBus c) :=
  .bind moves_mainExit fun _ => .bind moves_exit fun _ => .expect _ _

theorem moves_dataPort {i : Nat} : Moves R (dataPort c i) :=
  .bind moves_component fun _ => .expect _ _

theorem moves_mainOutBuf : Moves R (mainOutBuf m) :=
  .bind moves_mainExit fun _ => .bind moves_exit fun _ => .expect _ _

theorem moves_exitsByTag {cs : List ComponentId} : Moves R (exitsByTag cs) :=
  .foldlM (fun _ _ _ => .bind moves_component fun _ => .foldlM (fun _ _ _ =>
    .bind moves_exit fun _ => .pure _) _) _

/-! ### What is ignored -/

/-- `R` holds across changes of ports, buses and entries, of the marks of a component, and across a new
exit. -/
structure Ignores (R : Netlist → Netlist → Prop) : Prop where
  component : ∀ {c : ComponentId} {f : Component → Component},
    (∀ x, (f x).shape = x.shape ∧ (f x).kind = x.kind ∧ (f x).name = x.name) →
      Moves R (changeComponent c f)
  port : ∀ {p : PortId} {f : Port → Port}, Moves R (changePort p f)
  bus : ∀ {b : BusId} {f : Bus → Bus}, Moves R (changeBus b f)
  entry : ∀ {i : EntryId} {f : Entry → Entry}, Moves R (changeEntry i f)
  addEntry : ∀ {y : Entry}, Moves R (addEntry y)
  makeExit : ∀ {c : ComponentId} {tag : ExitTag}, Moves R (makeExit c 0 tag)

namespace Ignores

variable (h : Ignores R)

include h

theorem setBus {new : Option BusId} : Moves R (setBus p new) := by
  refine .bind moves_port fun y => ?_
  cases y.bus with
  | none =>
    cases new with
    | none => exact h.port
    | some d => exact .bind h.bus fun _ => h.port
  | some old =>
    refine .bind h.bus fun _ => ?_
    cases new with
    | none => exact h.port
    | some d => exact .bind h.bus fun _ => h.port

theorem disconnect : Moves R (disconnect c) := by
  refine .bind moves_component fun x => .bind (.forM fun q _ => h.setBus) fun _ => .bind
    (.bind moves_component fun _ => .bind (.mapM fun _ _ => moves_exit) fun _ => .pure _) fun bs =>
    .forM fun d _ => .bind moves_bus fun _ => .bind h.bus fun _ => .forM fun q _ => h.port

theorem dropEntries : Moves R (dropEntries o c) := by
  refine .bind moves_component fun x => .bind (.filterM fun i _ => ?_) fun _ =>
    h.component fun _ => ⟨rfl, rfl, rfl⟩
  refine .bind (.bind (.look _) fun _ => .expect _ _) fun y => ?_
  cases y.drivingExit with
  | none => exact .pure true
  | some d => exact .bind moves_exit fun _ => .pure _

omit [IsPreorder Netlist R] in
theorem setConsumesClock {on : Bool} : Moves R (setConsumesClock c on) :=
  h.component fun _ => ⟨rfl, rfl, rfl⟩

omit [IsPreorder Netlist R] in
theorem setConsumesReset {on : Bool} : Moves R (setConsumesReset c on) :=
  h.component fun _ => ⟨rfl, rfl, rfl⟩

theorem setConsumesGo {on : Bool} : Moves R (setConsumesGo c on) := by
  refine .bind (h.component fun _ => ⟨rfl, rfl, rfl⟩) fun _ => .bind moves_component fun x => ?_
  cases x.interior with
  | none => exact .pure ()
  | some i => exact h.component fun _ => ⟨rfl, rfl, rfl⟩

theorem setProducesDone {on : Bool} : Moves R (setProducesDone c on) :=
  .bind (h.component fun _ => ⟨rfl, rfl, rfl⟩) fun _ => .bind moves_component fun _ =>
    .ite (.bind moves_outBufs fun _ => .forM fun _ _ => h.component fun _ => ⟨rfl, rfl, rfl⟩) (.pure ())

theorem enterOutBuf {clock reset : BusId} : Moves R (enterOutBuf o clock reset e) := by
  have hdepend : ∀ {i : EntryId} {q : PortId} {d : Dependency}, Moves R (addDependency i q d) :=
    .bind moves_port fun _ => h.entry
  refine .bind moves_hasEntry fun has => .ite (.bind ?_ fun _ => ?_) (.pure ())
  · exact .bind h.addEntry fun _ => .bind (h.component fun _ => ⟨rfl, rfl, rfl⟩) fun _ => .pure _
  · exact .bind moves_exit fun _ => .bind moves_component fun _ => .bind hdepend fun _ => .bind
      hdepend fun _ => hdepend

theorem mergeExits {cs : List ComponentId} : Moves R (mergeExits m cs) := by
  refine .bind moves_exitsByTag fun byTag => .bind moves_clockBus fun clock => .bind
    moves_resetBus fun reset => .forM fun ⟨tag, es⟩ _ => .bind moves_component fun x => ?_
  have henter : ∀ e, Moves R (do
      let outBuf ← Build.expect .noOutBuf (← exit e).peer
      es.forM (Netlist.enterOutBuf outBuf clock reset)
      let name := (← Netlist.component m).name
      Build.log .trace .modules s!"merged {tag.text} exits into {quote name}") := fun e =>
    .bind moves_exit fun _ => .bind (.expect _ _) fun _ => .bind (.forM fun _ _ =>
      h.enterOutBuf) fun _ => .bind moves_component fun _ _ => refl_of R _
  dsimp only
  cases x.exits.find? tag with
  | some e => exact .bind (.pure e) henter
  | none => exact .bind h.makeExit henter

end Ignores

end Netlist

/-! ### Tasks -/

namespace Design

open Netlist

/-- How a task module is connected with the body in it. -/
def startBody (call body : ComponentId) : Netlist.Step ComponentId := do
  let x ← component body
  let go ← goBus call
  let clock ← clockBus call
  let reset ← resetBus call
  setBus x.go (some go)
  setBus x.clock (some clock)
  setBus x.reset (some reset)
  mergeExits call [body]
  match (← component body).mainExit? with
  | none => pure ()
  | some x =>
    let outBuf ← component (← mainOutBuf call)
    setBus outBuf.go (some (← exit x).done)
  let x ← component body
  setConsumesClock call x.consumesClock
  setConsumesReset call x.consumesReset
  setConsumesGo call x.consumesGo
  setProducesDone call x.producesDone
  return call

theorem wrapBody_eq (name : String) (body : ComponentId) : wrapBody name body = (do
    let call ← newModule (.task body) name 0
    addComponent call body
    startBody call body) :=
  rfl

theorem returns_startBody {R : Netlist → Netlist → Prop}
    [IsPreorder Netlist R] (h : Ignores R) (call body : ComponentId) :
    Returns R call (startBody call body) := by
  have hmarks : Returns R call (do
      let x ← component body
      setConsumesClock call x.consumesClock
      setConsumesReset call x.consumesReset
      setConsumesGo call x.consumesGo
      setProducesDone call x.producesDone
      return call) :=
    .bind moves_component fun _ => .bind h.setConsumesClock fun _ => .bind h.setConsumesReset
      fun _ => .bind h.setConsumesGo fun _ => .bind h.setProducesDone fun _ => .pure call
  refine .bind moves_component fun x => .bind moves_goBus fun _ => .bind moves_clockBus fun _ => .bind
    moves_resetBus fun _ => .bind h.setBus fun _ => .bind h.setBus fun _ => .bind h.setBus fun _ =>
    .bind h.mergeExits fun _ => .bind moves_component fun y => ?_
  cases y.mainExit? with
  | none => exact hmarks
  | some e =>
      exact .bind moves_mainOutBuf fun _ => .bind moves_component fun _ => .bind moves_exit fun _ =>
        .bind h.setBus fun _ => hmarks

end Design

end DataflowSynth
