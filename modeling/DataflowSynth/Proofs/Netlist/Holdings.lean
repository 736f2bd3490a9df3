/-
Who owns what.

Ownership is stored three times: a component names its owner, a module lists its children and names
its InBuf, and an exit of a module names its OutBuf.  `holdings` is that part of a netlist and nothing
else, so that most steps leave it alone.
-/
import DataflowSynth.Proofs.Netlist.Guard

namespace DataflowSynth.Netlist

open Build

/-! ### Holdings -/

/-- What there is to know about ownership. -/
structure Holdings where
  kind? : ComponentId → Option ComponentKind
  owner? : ComponentId → Option ComponentId
  interior? : ComponentId → Option Interior
  /-- The exits that a component has. -/
  exits : ComponentId → List (ExitTag × ExitId)
  /-- The OutBuf of an exit. -/
  peer? : ExitId → Option ComponentId
  /-- Where an exit was made. -/
  origin? : ExitId → Option (ComponentId × ExitTag)

/-- The ownership in a netlist.  Of kinds nothing matters but what never changes. -/
def holdings (n : Netlist) : Holdings where
  kind? c := (n.components.get? c).map (·.kind.plain)
  owner? c := (n.components.get? c).bind Component.owner
  interior? c := (n.components.get? c).bind Component.interior
  exits c := ((n.components.get? c).map (·.exits.entries)).getD []
  peer? e := (n.exits.get? e).bind Exit.peer
  origin? e := (n.exits.get? e).map fun y => (y.owner, y.tag)

namespace Holdings

/-- The places where something can stand in a module. -/
inductive Slot where
  | child
  | inBuf
  /-- The place of an OutBuf. -/
  | outBuf (e : ExitId)
  deriving DecidableEq

/-- `d` stands in a slot of `m`.  There is a slot for an OutBuf at every exit that `m` has. -/
def At (h : Holdings) (m : ComponentId) : Slot → ComponentId → Prop
  | .child, d => ∃ i, h.interior? m = some i ∧ d ∈ i.children
  | .inBuf, d => (h.interior? m).map Interior.inBuf = some d
  | .outBuf e, d => (∃ t, (t, e) ∈ h.exits m) ∧ h.peer? e = some d

def IsBufferKind (h : Holdings) (d : ComponentId) : Prop :=
  h.kind? d = some .inBuf ∨ h.kind? d = some .outBuf

/-- What stands in a module is owned by it, and what it owns stands there, in one slot. -/
structure Placed (h : Holdings) : Prop where
  owns : ∀ m s d, h.At m s d → h.owner? d = some m
  placed : ∀ m d, h.owner? d = some m → ∃ s, h.At m s d
  single : ∀ m s s' d, h.At m s d → h.At m s' d → s = s'

/-- The accounts of ownership agree. -/
structure Owned (h : Holdings) : Prop extends Placed h where
  buffers : ∀ m s d, h.At m s d → s ≠ .child → h.IsBufferKind d
  modules : ∀ m s d, h.At m s d → (h.interior? m).isSome
  origin : ∀ c t e, (t, e) ∈ h.exits c → h.origin? e = some (c, t)
  tags : ∀ c, ((h.exits c).map Prod.fst).Nodup
  nodup : ∀ m i, h.interior? m = some i → i.children.Nodup
  ascending : ∀ m i, h.interior? m = some i → i.feedback.Pairwise (·.index < ·.index)
  /-- A feedback point that is no child is a buffer, or was one. -/
  feedback : ∀ m i d, h.interior? m = some i → d ∈ i.feedback →
    d ∈ i.children ∨ h.IsBufferKind d

variable {h h' : Holdings} {c m : ComponentId}

/-- Something that nothing owned is put into a slot. -/
theorem Placed.add (hp : h.Placed) (slot : Slot) (hfree : h.owner? c = none)
    (hat : ∀ k s d, h'.At k s d ↔ h.At k s d ∨ k = m ∧ s = slot ∧ d = c)
    (howner : ∀ d, h'.owner? d = if d = c then some m else h.owner? d) : h'.Placed where
  owns k s d hd := by
    rw [howner]
    rcases (hat k s d).mp hd with hd | ⟨rfl, -, rfl⟩
    · have howns := hp.owns k s d hd
      rw [if_neg fun heq => ?_]
      · exact howns
      · rw [heq, hfree] at howns
        cases howns
    · rw [if_pos rfl]
  placed k d hd := by
    rw [howner] at hd
    split at hd
    · next heq =>
      exact ⟨slot, (hat k slot d).mpr (.inr ⟨(Option.some.inj hd).symm, rfl, heq⟩)⟩
    · obtain ⟨s, hs⟩ := hp.placed k d hd
      exact ⟨s, (hat k s d).mpr (.inl hs)⟩
  single k s s' d hd hd' := by
    have hold : ∀ s, ¬ h.At k s c := fun s hs => by simpa [hfree] using hp.owns k s c hs
    rcases (hat k s d).mp hd with hd | ⟨-, hs, rfl⟩
    · rcases (hat k s' d).mp hd' with hd' | ⟨-, -, rfl⟩
      · exact hp.single k s s' d hd hd'
      · exact absurd hd (hold s)
    · rcases (hat k s' d).mp hd' with hd' | ⟨-, hs', -⟩
      · exact absurd hd' (hold s')
      · rw [hs, hs']

/-- Something is taken out. -/
theorem Placed.remove (hp : h.Placed) (hat : ∀ k s d, h'.At k s d ↔ h.At k s d ∧ d ≠ c)
    (howner : ∀ d, h'.owner? d = if d = c then none else h.owner? d) : h'.Placed where
  owns k s d hd := by
    obtain ⟨hd, hne⟩ := (hat k s d).mp hd
    rw [howner, if_neg hne]
    exact hp.owns k s d hd
  placed k d hd := by
    rw [howner] at hd
    split at hd
    · cases hd
    · next hne =>
      obtain ⟨s, hs⟩ := hp.placed k d hd
      exact ⟨s, (hat k s d).mpr ⟨hs, hne⟩⟩
  single k s s' d hd hd' := hp.single k s s' d ((hat k s d).mp hd).1 ((hat k s' d).mp hd').1

/-- Nothing moves. -/
theorem Placed.same (hp : h.Placed) (hat : ∀ k s d, h'.At k s d ↔ h.At k s d)
    (howner : ∀ d, h'.owner? d = h.owner? d) : h'.Placed where
  owns k s d hd := (howner d).trans (hp.owns k s d ((hat k s d).mp hd))
  placed k d hd := by
    obtain ⟨s, hs⟩ := hp.placed k d ((howner d).symm.trans hd)
    exact ⟨s, (hat k s d).mpr hs⟩
  single k s s' d hd hd' := hp.single k s s' d ((hat k s d).mp hd) ((hat k s' d).mp hd')

end Holdings

/-! ### Steps that leave holdings alone -/

/-- Nothing about ownership has changed. -/
def SameHoldings (n n' : Netlist) : Prop := n'.holdings = n.holdings

instance : IsPreorder Netlist SameHoldings where
  refl _ := rfl
  trans _ _ _ h h' := h'.trans h

/-- The part of a component that holdings are made of. -/
structure Component.SameHolding (x y : Component) : Prop where
  kind : y.kind.plain = x.kind.plain
  owner : y.owner = x.owner
  exits : y.exits = x.exits
  interior : y.interior = x.interior

theorem Component.sameHolding_of_calm {x y : Component} (hshape : y.shape = x.shape)
    (hstance : y.stance = x.stance) : x.SameHolding y := by
  have halike := Component.alike_of_shape_eq hshape
  have hfeedback : y.interior.map Interior.feedback = x.interior.map Interior.feedback :=
    (congrArg (·.2.2.2) hstance :)
  refine ⟨halike.kind, halike.owner, halike.exits, ?_⟩
  cases hx : x.interior with
  | none => exact halike.interior_none hx
  | some i =>
      obtain ⟨j, hj, hin, hchildren⟩ := halike.interior_eq hx
      rw [hj, hx, Option.map_some, Option.map_some] at hfeedback
      obtain ⟨b, cs, fs⟩ := i
      obtain ⟨b', cs', fs'⟩ := j
      cases hin
      cases hchildren
      cases hfeedback
      exact hj

theorem sameHoldings_of {n n' : Netlist}
    (hcomponents : ∀ c, (n.components.get? c = none ∧ n'.components.get? c = none) ∨
      ∃ x y, n.components.get? c = some x ∧ n'.components.get? c = some y ∧ x.SameHolding y)
    (hexits : ∀ e, (n'.exits.get? e).map Exit.shape = (n.exits.get? e).map Exit.shape) :
    SameHoldings n n' := by
  have hexit : ∀ {α : Type} (f : Exit → α), (∀ y, f y.shape = f y) → ∀ e,
      (n'.exits.get? e).map f = (n.exits.get? e).map f := by
    intro α f hf e
    have heq := congrArg (Option.map f) (hexits e)
    simpa only [Option.map_map, Function.comp_def, hf] using heq
  have hpeer : ∀ e, (n'.exits.get? e).bind Exit.peer = (n.exits.get? e).bind Exit.peer := by
    intro e
    have heq := hexit Exit.peer (fun _ => rfl) e
    cases hy : n.exits.get? e <;> cases hz : n'.exits.get? e <;> simp_all
  unfold SameHoldings holdings
  simp only [hpeer, hexit (fun y => (y.owner, y.tag)) fun _ => rfl, Holdings.mk.injEq, and_true]
  refine ⟨?_, ?_, ?_, ?_⟩ <;> funext c <;>
    rcases hcomponents c with ⟨hx, hy⟩ | ⟨x, y, hx, hy, hsame⟩ <;> simp only [hx, hy]
  · simp [hsame.kind]
  · simp [hsame.owner]
  · simp [hsame.interior]
  · simp [hsame.exits]

theorem Calm.sameHoldings {n n' : Netlist} (h : Calm n n') : SameHoldings n n' := by
  refine sameHoldings_of (fun c => ?_) h.exits
  have hshape := h.components c
  have hstance := h.stances c
  cases hx : n.components.get? c with
  | none =>
      rw [hx, Option.map_none, Option.map_eq_none_iff] at hshape
      exact .inl ⟨rfl, hshape⟩
  | some x =>
      obtain ⟨y, hy, -⟩ := h.toSameShape.alike hx
      rw [hx, hy, Option.map_some, Option.map_some] at hshape hstance
      exact .inr ⟨x, y, rfl, hy,
        Component.sameHolding_of_calm (Option.some.inj hshape) (Option.some.inj hstance)⟩

section

variable {c : ComponentId} {p : PortId} {b : BusId} {e : ExitId}

theorem sameHoldings_modify {n : Netlist} {f : Component → Component}
    (hf : ∀ x : Component, x.SameHolding (f x)) :
    SameHoldings n { n with components := n.components.modify c f } := by
  refine sameHoldings_of (fun d => ?_) fun _ => rfl
  simp only [Arena.get?_modify]
  cases hx : n.components.get? d with
  | none =>
      left
      simp
  | some x =>
      right
      split
      · exact ⟨x, f x, rfl, rfl, hf x⟩
      · exact ⟨x, x, rfl, rfl, rfl, rfl, rfl, rfl⟩

theorem moves_changeComponent {f : Component → Component}
    (hf : ∀ x : Component, x.SameHolding (f x)) :
    Moves SameHoldings (changeComponent c f) :=
  .bind (.look _) fun _ => .ite (.change fun _ => sameHoldings_modify hf) (.abort _)

theorem moves_changePort {f : Port → Port} : Moves SameHoldings (changePort p f) :=
  .bind (.look _) fun _ => .ite (.change fun _ => rfl) (.abort _)

theorem moves_changeBus {f : Bus → Bus} : Moves SameHoldings (changeBus b f) :=
  .bind (.look _) fun _ => .ite (.change fun _ => rfl) (.abort _)

theorem moves_changeExit {f : Exit → Exit} (hf : ∀ y, (f y).peer = y.peer)
    (horigin : ∀ y, ((f y).owner, (f y).tag) = (y.owner, y.tag)) :
    Moves SameHoldings (changeExit e f) := by
  refine .bind (.look _) fun _ => .ite (.change fun n => ?_) (.abort _)
  unfold SameHoldings holdings
  simp only [Holdings.mk.injEq, true_and, Arena.get?_modify]
  constructor <;> funext d <;> split
  · cases n.exits.get? d with
    | none => rfl
    | some y => simp [hf y]
  · rfl
  · cases n.exits.get? d with
    | none => rfl
    | some y => simp [horigin y]
  · rfl

theorem moves_addPort {y : Port} : Moves SameHoldings (addPort y) :=
  .bind (.look _) fun _ => .bind (.change fun _ => rfl) fun _ => .pure _

theorem moves_addBus {z : Bus} : Moves SameHoldings (addBus z) :=
  .bind (.look _) fun _ => .bind (.change fun _ => rfl) fun _ => .pure _

theorem moves_pair : Moves SameHoldings (pair p b) := by
  refine .bind moves_changePort fun _ => .bind moves_changeBus fun _ => .bind moves_port fun _ =>
    .bind moves_bus fun _ => ?_
  dsimp only
  split
  · exact moves_changeBus
  · exact moves_changePort
  · exact .pure ()

theorem moves_makeDataBus {name : String} : Moves SameHoldings (makeDataBus e name) := by
  refine .bind moves_addBus fun d => .bind (moves_changeExit (fun _ => rfl) fun _ => rfl) fun _ =>
    .bind moves_exit fun y => ?_
  cases y.peer with
  | none => exact .pure d
  | some o =>
      refine .bind moves_addPort fun _ => .bind ?_ fun _ => .bind moves_pair fun _ => .pure d
      exact moves_changeComponent fun _ => ⟨rfl, rfl, rfl, rfl⟩

theorem moves_makeDataPort {name : String} : Moves SameHoldings (makeDataPort c name) := by
  refine .bind moves_addPort fun q => .bind (moves_changeComponent fun _ => ⟨rfl, rfl, rfl, rfl⟩)
    fun _ => .bind moves_component fun x => ?_
  cases x.interior with
  | none => exact .pure q
  | some i =>
      exact .bind moves_mainExit fun _ => .bind moves_makeDataBus fun _ => .bind moves_pair fun _ =>
        .pure q

theorem moves_makeThisPort : Moves SameHoldings (makeThisPort c) := by
  refine .bind moves_component fun x => ?_
  cases x.this with
  | some q => exact .pure q
  | none =>
      refine .bind moves_addPort fun q => .bind
        (moves_changeComponent fun _ => ⟨rfl, rfl, rfl, rfl⟩) fun _ => .bind moves_component
        fun y => ?_
      cases y.interior with
      | none => exact .pure q
      | some i =>
          refine .bind moves_mainExit fun _ => .bind ?_ fun _ => .bind moves_pair fun _ => .pure q
          refine .bind moves_addBus fun _ => .bind ?_ fun _ => .pure _
          exact moves_changeExit (fun _ => rfl) fun _ => rfl

theorem moves_setConsumesGo {on : Bool} : Moves SameHoldings (setConsumesGo c on) := by
  refine .bind (moves_changeComponent fun _ => ⟨rfl, rfl, rfl, rfl⟩) fun _ => .bind
    moves_component fun x => ?_
  cases x.interior with
  | none => exact .pure ()
  | some i => exact moves_changeComponent fun _ => ⟨rfl, rfl, rfl, rfl⟩

theorem moves_setProducesDone {on : Bool} : Moves SameHoldings (setProducesDone c on) := by
  refine .bind (moves_changeComponent fun _ => ⟨rfl, rfl, rfl, rfl⟩) fun _ => .bind
    moves_component fun x => .ite ?_ (.pure ())
  refine .bind moves_outBufs fun os => .forM fun o _ => ?_
  exact moves_changeComponent fun _ => ⟨rfl, rfl, rfl, rfl⟩

end

end DataflowSynth.Netlist
