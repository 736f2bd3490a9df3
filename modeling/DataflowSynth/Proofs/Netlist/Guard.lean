/-
What else can be watched while steps are taken.

Most steps change signals, connections and the like, which no boundary depends on.  A few change
more: they give a component terminals, take exits off, move children, or set a mark that a module shares
with its buffers.  A property of netlists that all of these keep is a guard; whatever is made of such
steps keeps it as well.
-/
import DataflowSynth.Proofs.Build.Moves
import DataflowSynth.Proofs.Netlist.Modules

namespace DataflowSynth.Netlist

open Build

/-! ### Calm steps -/

/-- The name of a component, and what is marked in it, as far as its boundary or its children depend on
it. -/
def Component.stance (x : Component) : String × Bool × Bool × Option (List ComponentId) :=
  (x.name, x.consumesGo, x.producesDone, x.interior.map Interior.feedback)

/-- The netlists have one shape and the same names, and the same is marked in both. -/
structure Calm (n n' : Netlist) : Prop extends SameShape n n' where
  names : n'.names = n.names
  stances : ∀ c, (n'.components.get? c).map Component.stance =
    (n.components.get? c).map Component.stance

theorem SameShape.calm {n n' : Netlist} (h : SameShape n n') (heq : n'.components = n.components)
    (hnames : n'.names = n.names) : Calm n n' :=
  ⟨h, hnames, fun c => by rw [heq]⟩

/-- A change of one component that leaves alone its name and what is marked in it. -/
theorem stances_modify {n : Netlist} {c : ComponentId} {f : Component → Component}
    (hf : ∀ x, n.components.get? c = some x → (f x).stance = x.stance) (d : ComponentId) :
    ((n.components.modify c f).get? d).map Component.stance =
      (n.components.get? d).map Component.stance := by
  rw [Arena.get?_modify]
  split
  · next heq =>
    subst heq
    cases hx : n.components.get? d with
    | none => rfl
    | some x => simp [hf x hx]
  · rfl

section

variable {R : Netlist → Netlist → Prop} [IsPreorder Netlist R] {c : ComponentId} {p : PortId}
  {b : BusId} {e : ExitId}

theorem moves_component : Moves R (component c) := .bind (.look _) fun _ => .expect _ _

theorem moves_port : Moves R (port p) := .bind (.look _) fun _ => .expect _ _

theorem moves_bus : Moves R (bus b) := .bind (.look _) fun _ => .expect _ _

theorem moves_exit : Moves R (exit e) := .bind (.look _) fun _ => .expect _ _

theorem moves_mainExit : Moves R (mainExit c) := .bind moves_component fun _ => .expect _ _

theorem moves_outBufs : Moves R (outBufs c) :=
  .bind moves_component fun _ => .bind (.mapM fun _ _ => moves_exit) fun _ => .pure _

end

instance : IsPreorder Netlist Calm where
  refl n := ⟨.refl n, rfl, fun _ => rfl⟩
  trans _ _ _ h h' := ⟨h.toSameShape.trans h'.toSameShape, h'.names.trans h.names,
    fun c => (h'.stances c).trans (h.stances c)⟩

section

variable {c : ComponentId} {p : PortId} {b : BusId}

theorem calm_changePort {f : Port → Port} (hf : ∀ y, (f y).shape = y.shape) :
    Moves Calm (changePort p f) :=
  .bind (.look _) fun _ => .ite (.change fun _ => (sameShape_modifyPort fun y _ => hf y).calm rfl rfl)
    (.abort _)

theorem calm_changeBus {f : Bus → Bus} (hf : ∀ z, (f z).shape = z.shape) :
    Moves Calm (changeBus b f) :=
  .bind (.look _) fun _ => .ite (.change fun _ => (sameShape_modifyBus fun z _ => hf z).calm rfl rfl)
    (.abort _)

theorem calm_changeComponent {f : Component → Component} (hf : ∀ x, (f x).shape = x.shape)
    (hstance : ∀ x, (f x).stance = x.stance) : Moves Calm (changeComponent c f) :=
  .bind (.look _) fun _ => .ite (.change fun _ => ⟨sameShape_modifyComponent fun x _ => hf x, rfl,
    stances_modify fun x _ => hstance x⟩) (.abort _)

theorem calm_setBus {new : Option BusId} : Moves Calm (setBus p new) := by
  refine .bind moves_port fun y => ?_
  cases y.bus with
  | none =>
    cases new with
    | none => exact calm_changePort fun _ => rfl
    | some d => exact .bind (calm_changeBus fun _ => rfl) fun _ => calm_changePort fun _ => rfl
  | some old =>
    refine .bind (calm_changeBus fun _ => rfl) fun _ => ?_
    cases new with
    | none => exact calm_changePort fun _ => rfl
    | some d => exact .bind (calm_changeBus fun _ => rfl) fun _ => calm_changePort fun _ => rfl

theorem calm_disconnect : Moves Calm (disconnect c) := by
  refine .bind moves_component fun x => .bind (.forM fun q _ => calm_setBus) fun _ => .bind
    (.bind moves_component fun _ => .bind (.mapM fun _ _ => moves_exit) fun _ => .pure _) fun bs =>
    .forM fun d _ => .bind moves_bus fun _ => .bind (calm_changeBus fun _ => rfl) fun _ =>
    .forM fun q _ => calm_changePort fun _ => rfl

theorem calm_dropEntries {o : ComponentId} : Moves Calm (dropEntries o c) := by
  refine .bind moves_component fun x => .bind (.filterM fun i _ => ?_) fun _ =>
    calm_changeComponent (fun _ => rfl) fun _ => rfl
  refine .bind (.bind (.look _) fun _ => .expect _ _) fun y => ?_
  cases y.drivingExit with
  | none => exact .pure true
  | some d => exact .bind moves_exit fun _ => .pure _

end

/-! ### Edits -/

/-- The steps that are not calm. -/
inductive Edit where
  | dataBus (e : ExitId) (name : String)
  | dataPort (c : ComponentId) (name : String)
  | thisPort (c : ComponentId)
  | exit (c : ComponentId) (tag : ExitTag)
  | dropExit (c : ComponentId) (tag : ExitTag)
  | adopt (m c : ComponentId)
  | release (m c : ComponentId)
  | feedback (m c : ComponentId)
  | consumesGo (c : ComponentId) (on : Bool)
  | producesDone (c : ComponentId) (on : Bool)
  /-- A component that is no module is told to wait for go. -/
  | wait (c : ComponentId)

namespace Edit

def run : Edit → Step Unit
  | .dataBus e name => discard (makeDataBus e name)
  | .dataPort c name => discard (makeDataPort c name)
  | .thisPort c => discard (makeThisPort c)
  | .exit c tag => discard (makeExit c 0 tag)
  | .dropExit c tag => discard (removeExit c tag)
  | .adopt m c => addComponent m c
  | .release m c => discard (removeComponent m c)
  | .feedback m c => addFeedbackPoint m c
  | .consumesGo c on => setConsumesGo c on
  | .producesDone c on => setProducesDone c on
  | .wait c => changeComponent c fun x => { x with consumesGo := true }

/-- The handles that an edit is told. -/
def refs : Edit → List Ref
  | .dataBus e _ => [.exit e]
  | .dataPort c _ | .thisPort c | .exit c _ | .dropExit c _ | .consumesGo c _ | .producesDone c _
  | .wait c => [.component c]
  | .adopt m c | .release m c | .feedback m c => [.component m, .component c]

/-- The edit is not aimed at the terminals of a buffer; if `firm`, nor at its marks. -/
def Spares (base n : Netlist) (firm : Prop) : Edit → Prop
  | .dataBus e _ => ∀ y, n.exits.get? e = some y → ¬ IsBuffer base n y.owner
  | .dataPort c _ | .thisPort c | .exit c _ | .dropExit c _ => ¬ IsBuffer base n c
  | .consumesGo c _ | .producesDone c _ => firm → ¬ IsBuffer base n c
  | .wait c => ¬ IsBuffer base n c ∧ ∀ x, n.components.get? c = some x → x.interior = none
  | .adopt .. | .release .. | .feedback .. => True

end Edit

/-! ### Guards -/

/-- A property of netlists that every step keeps.  Where the shape is watched, it need not be kept by
edits that are aimed at buffers. -/
structure Guard (base : Netlist) (strict : Prop) where
  holds : Netlist → Prop
  /-- The marks of buffers are set through their modules only. -/
  firm : Prop
  calm : ∀ {n n' : Netlist}, Calm n n' → holds n → holds n'
  shell : ∀ {pins : Nat} {n : Netlist} (kind : ComponentKind) (stem : String),
    Linked pins base n → holds n → holds (n.shelled kind stem)
  module : ∀ {pins : Nat} {n : Netlist} (kind : ModuleKind) (stem : String),
    Linked pins base n → holds n → holds (n.withModule kind stem)
  edit : ∀ {pins : Nat} (op : Edit) (s : Traced Netlist), Linked pins base s.state →
    (strict → Shaped base s.state ∧ op.Spares base s.state firm) →
    (∀ r ∈ op.refs, r.New base s.state) → holds s.state →
    wp op.run (fun _ t => holds t.state) (fun e t => e.Unless (holds t.state)) s

/-- Nothing else is watched. -/
def Guard.none (base : Netlist) (strict : Prop) : Guard base strict where
  holds _ := True
  firm := False
  calm _ _ := trivial
  shell _ _ _ _ := trivial
  module _ _ _ _ := trivial
  edit op s _ _ _ _ := by
    unfold wp
    split
    · trivial
    · next e t _ => cases e <;> trivial

end DataflowSynth.Netlist
