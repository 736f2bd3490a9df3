/-
Terminals that last.

A component may get more data ports and lose exits, and an exit may get more data buses.  But nothing
takes a port from a component or a bus from an exit, or puts others in their place.  This goes for every
step that is not calm, however buffers are treated; so a relation that admits such changes of one
component or one exit at a time holds across all of these steps.
-/
import DataflowSynth.Proofs.Netlist.Routine

namespace DataflowSynth.Netlist

open Build

/-! ### Lasting -/

/-- The component has the name of `x`, and its ports, each in its place. -/
structure Component.Lasts (x x' : Component) : Prop where
  name : x'.name = x.name
  clock : x'.clock = x.clock
  reset : x'.reset = x.reset
  go : x'.go = x.go
  data : x.dataPorts <+: x'.dataPorts

/-- The exit has the buses of `y`, each in its place. -/
structure Exit.Lasts (y y' : Exit) : Prop where
  done : y'.done = y.done
  data : y.data <+: y'.data

theorem Component.Lasts.refl (x : Component) : x.Lasts x :=
  ⟨rfl, rfl, rfl, rfl, List.prefix_rfl⟩

theorem Component.Lasts.trans {x y z : Component} (h : x.Lasts y) (h' : y.Lasts z) : x.Lasts z :=
  ⟨h'.name.trans h.name, h'.clock.trans h.clock, h'.reset.trans h.reset, h'.go.trans h.go,
    h.data.trans h'.data⟩

theorem Component.Alike.lasts {x y : Component} (h : x.Alike y) (hname : y.name = x.name) : x.Lasts y :=
  ⟨hname, h.clock, h.reset, h.go, h.dataPorts ▸ List.prefix_rfl⟩

theorem Exit.Lasts.refl (y : Exit) : y.Lasts y := ⟨rfl, List.prefix_rfl⟩

theorem Exit.Lasts.trans {x y z : Exit} (h : x.Lasts y) (h' : y.Lasts z) : x.Lasts z :=
  ⟨h'.done.trans h.done, h.data.trans h'.data⟩

/-! ### Relations that hold across all steps -/

variable {R : Netlist → Netlist → Prop} {c m : ComponentId} {p : PortId} {b : BusId} {e : ExitId}

/-- `R` holds when something is made, and across all changes in which terminals last. -/
structure Admits (R : Netlist → Netlist → Prop) : Prop where
  component : ∀ {c : ComponentId} {f : Component → Component}, (∀ x, Component.Lasts x (f x)) →
    Moves R (changeComponent c f)
  exit : ∀ {e : ExitId} {f : Exit → Exit}, (∀ y, Exit.Lasts y (f y)) → Moves R (changeExit e f)
  port : ∀ {p : PortId} {f : Port → Port}, Moves R (changePort p f)
  bus : ∀ {b : BusId} {f : Bus → Bus}, Moves R (changeBus b f)
  entry : ∀ {i : EntryId} {f : Entry → Entry}, Moves R (changeEntry i f)
  addPort : ∀ {y : Port}, Moves R (addPort y)
  addBus : ∀ {z : Bus}, Moves R (addBus z)
  addExit : ∀ {y : Exit}, Moves R (addExit y)
  addEntry : ∀ {y : Entry}, Moves R (addEntry y)
  shell : ∀ {kind : ComponentKind} {stem : String}, Moves R (newComponent kind stem 0)

/-- It is enough to look at how a netlist is changed, and not at the steps that do it. -/
theorem Admits.of_changes [IsPreorder Netlist R]
    (hsame : ∀ {n n' : Netlist}, n'.components = n.components → n'.exits = n.exits →
      n'.names = n.names → R n n')
    (hcomponent : ∀ {n : Netlist} {c : ComponentId} {f : Component → Component},
      (∀ x, Component.Lasts x (f x)) → R n { n with components := n.components.modify c f })
    (hexit : ∀ {n : Netlist} {e : ExitId} {f : Exit → Exit},
      (∀ y, Exit.Lasts y (f y)) → R n { n with exits := n.exits.modify e f })
    (haddExit : ∀ {n : Netlist} (y : Exit), R n { n with exits := n.exits.push y })
    (hshell : ∀ (n : Netlist) (kind : ComponentKind) (stem : String), R n (n.shelled kind stem)) :
    Admits R where
  component hf := .bind (.look _) fun _ => .ite (.change fun _ => hcomponent hf) (.abort _)
  exit hf := .bind (.look _) fun _ => .ite (.change fun _ => hexit hf) (.abort _)
  port := .bind (.look _) fun _ => .ite (.change fun _ => hsame rfl rfl rfl) (.abort _)
  bus := .bind (.look _) fun _ => .ite (.change fun _ => hsame rfl rfl rfl) (.abort _)
  entry := .bind (.look _) fun _ => .ite (.change fun _ => hsame rfl rfl rfl) (.abort _)
  addPort := .bind (.look _) fun _ => .bind (.change fun _ => hsame rfl rfl rfl) fun _ => .pure _
  addBus := .bind (.look _) fun _ => .bind (.change fun _ => hsame rfl rfl rfl) fun _ => .pure _
  addExit {y} := .bind (.look _) fun _ => .bind (.change fun _ => haddExit y) fun _ => .pure _
  addEntry := .bind (.look _) fun _ => .bind (.change fun _ => hsame rfl rfl rfl) fun _ => .pure _
  shell {kind stem} := fun s => (wp_newShell kind stem).mpr (hshell s.state kind stem)

namespace Admits

variable [IsPreorder Netlist R] (h : Admits R)

include h

omit [IsPreorder Netlist R] in
/-- The name and the ports of the component are left alone. -/
theorem retouch {f : Component → Component} (hf : ∀ x, (f x).name = x.name ∧ (f x).clock = x.clock ∧
    (f x).reset = x.reset ∧ (f x).go = x.go ∧ (f x).dataPorts = x.dataPorts) :
    Moves R (changeComponent c f) :=
  h.component fun x => ⟨(hf x).1, (hf x).2.1, (hf x).2.2.1, (hf x).2.2.2.1,
    (hf x).2.2.2.2 ▸ List.prefix_rfl⟩

theorem pair : Moves R (pair p b) := by
  refine .bind h.port fun _ => .bind h.bus fun _ => .bind moves_port fun _ =>
    .bind moves_bus fun _ => ?_
  dsimp only
  split
  · exact h.bus
  · exact h.port
  · exact .pure ()

theorem makeDataBus {name : String} : Moves R (makeDataBus e name) := by
  refine .bind h.addBus fun d => .bind (h.exit fun _ => ⟨rfl, List.prefix_append ..⟩) fun _ =>
    .bind moves_exit fun y => ?_
  cases y.peer with
  | none => exact .pure d
  | some o =>
      exact .bind h.addPort fun _ => .bind (h.component fun _ =>
        ⟨rfl, rfl, rfl, rfl, List.prefix_append ..⟩) fun _ => .bind h.pair fun _ => .pure d

theorem makeDataPort {name : String} : Moves R (makeDataPort c name) := by
  refine .bind h.addPort fun q => .bind (h.component fun _ =>
    ⟨rfl, rfl, rfl, rfl, List.prefix_append ..⟩) fun _ => .bind moves_component fun x => ?_
  cases x.interior with
  | none => exact .pure q
  | some i =>
      exact .bind moves_mainExit fun _ => .bind h.makeDataBus fun _ => .bind h.pair fun _ => .pure q

theorem makeThisPort : Moves R (makeThisPort c) := by
  refine .bind moves_component fun x => ?_
  cases x.this with
  | some q => exact .pure q
  | none =>
      refine .bind h.addPort fun q => .bind (h.retouch fun _ => ⟨rfl, rfl, rfl, rfl, rfl⟩) fun _ =>
        .bind moves_component fun y => ?_
      cases y.interior with
      | none => exact .pure q
      | some i =>
          refine .bind moves_mainExit fun _ => .bind ?_ fun _ => .bind h.pair fun _ => .pure q
          exact .bind h.addBus fun _ => .bind (h.exit fun _ => ⟨rfl, List.prefix_rfl⟩) fun _ => .pure _

theorem makeOutBuf : Moves R (makeOutBuf c e) :=
  .bind moves_component fun _ => .bind h.shell fun _ =>
    .bind (h.retouch fun _ => ⟨rfl, rfl, rfl, rfl, rfl⟩) fun _ => .bind moves_component fun _ =>
    .bind moves_exit fun _ => .bind h.pair fun _ => .bind (h.exit fun _ => ⟨rfl, List.prefix_rfl⟩)
    fun _ => h.retouch fun _ => ⟨rfl, rfl, rfl, rfl, rfl⟩

theorem makeExit {tag : ExitTag} : Moves R (makeExit c 0 tag) := by
  have hdata : ∀ d, Moves R (do
      (numberedNames "dout" 0).forM fun name => discard (Netlist.makeDataBus d name)
      return d) := fun d =>
    .bind (.forM fun _ _ => .discard h.makeDataBus) fun _ => .pure d
  refine .bind moves_component fun x => .ite (.bind (.abort _) fun _ => ?_) ?_
  all_goals
    exact .bind (.look _) fun d => .bind h.addBus fun _ => .bind h.addExit fun _ =>
      .bind (h.retouch fun _ => ⟨rfl, rfl, rfl, rfl, rfl⟩) fun _ =>
      .ite (.bind h.makeOutBuf fun _ => hdata d) (hdata d)

theorem ignores : Ignores R where
  component hf := h.component fun x => (Component.alike_of_shape_eq (hf x).1).lasts (hf x).2.2
  port := h.port
  bus := h.bus
  entry := h.entry
  addEntry := h.addEntry
  makeExit := h.makeExit

theorem removeExit {tag : ExitTag} : Moves R (removeExit c tag) := by
  refine .bind moves_component fun x => ?_
  cases x.exits.find? tag with
  | none => exact .pure false
  | some d =>
      refine .bind (h.retouch fun _ => ⟨rfl, rfl, rfl, rfl, rfl⟩) fun _ => .bind moves_exit fun y => ?_
      cases y.peer with
      | none => exact .pure true
      | some o =>
          exact .bind (h.exit fun _ => ⟨rfl, List.prefix_rfl⟩) fun _ =>
            .bind h.ignores.disconnect fun _ =>
            .bind (h.retouch fun _ => ⟨rfl, rfl, rfl, rfl, rfl⟩) fun _ => .pure true

theorem changeInterior {f : Interior → Interior} : Moves R (changeInterior m f) :=
  .bind (.bind moves_component fun _ => .expect _ _) fun _ =>
    h.retouch fun _ => ⟨rfl, rfl, rfl, rfl, rfl⟩

theorem addComponent : Moves R (addComponent m c) := by
  refine .bind moves_component fun x => ?_
  cases x.owner with
  | some o => exact .ite (.bind moves_component fun _ => .abort _) (.pure ())
  | none =>
      exact .bind (h.retouch fun _ => ⟨rfl, rfl, rfl, rfl, rfl⟩) fun _ => h.changeInterior

theorem removeComponent : Moves R (removeComponent m c) := by
  refine .bind (.bind (.bind moves_component fun _ => .expect _ _) fun _ => .pure _) fun _ =>
    .ite (.bind h.changeInterior fun _ => .bind moves_outBufs fun _ => .bind
      (.forM fun _ _ => h.ignores.dropEntries) fun _ => .bind h.ignores.disconnect fun _ => .bind
      (h.retouch fun _ => ⟨rfl, rfl, rfl, rfl, rfl⟩) fun _ => .pure true) (.pure false)

theorem addFeedbackPoint : Moves R (addFeedbackPoint m c) :=
  .bind moves_component fun _ => .ite (.bind moves_component fun _ => .bind (.abort _) fun _ =>
    h.changeInterior) h.changeInterior

theorem run (op : Edit) : Moves R op.run := by
  cases op with
  | dataBus e name => exact .discard h.makeDataBus
  | dataPort c name => exact .discard h.makeDataPort
  | thisPort c => exact .discard h.makeThisPort
  | exit c tag => exact .discard h.makeExit
  | dropExit c tag => exact .discard h.removeExit
  | adopt m c => exact h.addComponent
  | release m c => exact .discard h.removeComponent
  | feedback m c => exact h.addFeedbackPoint
  | consumesGo c on => exact h.ignores.setConsumesGo
  | producesDone c on => exact h.ignores.setProducesDone
  | wait c => exact h.retouch fun _ => ⟨rfl, rfl, rfl, rfl, rfl⟩

end Admits

/-! ### Netlists in which terminals last -/

/-- Components and exits are there still, and with them their ports and buses. -/
structure Lasts (n n' : Netlist) : Prop where
  components : ∀ c x, n.components.get? c = some x → ∃ x', n'.components.get? c = some x' ∧ x.Lasts x'
  exits : ∀ e y, n.exits.get? e = some y → ∃ y', n'.exits.get? e = some y' ∧ y.Lasts y'

instance : IsPreorder Netlist Lasts where
  refl _ := ⟨fun _ x hx => ⟨x, hx, .refl x⟩, fun _ y hy => ⟨y, hy, .refl y⟩⟩
  trans _ _ _ h h' := by
    refine ⟨fun c x hx => ?_, fun e y hy => ?_⟩
    · obtain ⟨x', hx', hlast⟩ := h.components c x hx
      obtain ⟨x'', hx'', hlast'⟩ := h'.components c x' hx'
      exact ⟨x'', hx'', hlast.trans hlast'⟩
    · obtain ⟨y', hy', hlast⟩ := h.exits e y hy
      obtain ⟨y'', hy'', hlast'⟩ := h'.exits e y' hy'
      exact ⟨y'', hy'', hlast.trans hlast'⟩

theorem lasts_of_same {n n' : Netlist} (hcomponents : n'.components = n.components)
    (hexits : n'.exits = n.exits) : Lasts n n' :=
  ⟨fun _ x hx => ⟨x, hcomponents ▸ hx, .refl x⟩, fun _ y hy => ⟨y, hexits ▸ hy, .refl y⟩⟩

theorem lasts_shelled (n : Netlist) (kind : ComponentKind) (stem : String) :
    Lasts n (n.shelled kind stem) := by
  refine ⟨fun c x hx => ⟨x, ?_, .refl x⟩, fun _ y hy => ⟨y, hy, .refl y⟩⟩
  rw [components_shelled, Arena.get?_push_index, if_neg (Nat.ne_of_lt (Arena.lt_of_get? hx)), hx]

theorem lasts_modify {n : Netlist} {f : Component → Component} (hf : ∀ x, Component.Lasts x (f x)) :
    Lasts n { n with components := n.components.modify c f } := by
  refine ⟨fun d x hx => ?_, fun _ y hy => ⟨y, hy, .refl y⟩⟩
  by_cases hd : d = c
  · subst hd
    exact ⟨f x, by simp [Arena.get?_modify, hx], hf x⟩
  · exact ⟨x, by rwa [Arena.get?_modify_of_ne _ (Ne.symm hd)], .refl x⟩

theorem lasts_modifyExit {n : Netlist} {f : Exit → Exit} (hf : ∀ y, Exit.Lasts y (f y)) :
    Lasts n { n with exits := n.exits.modify e f } := by
  refine ⟨fun _ x hx => ⟨x, hx, .refl x⟩, fun d y hy => ?_⟩
  by_cases hd : d = e
  · subst hd
    exact ⟨f y, by simp [Arena.get?_modify, hy], hf y⟩
  · exact ⟨y, by simpa only [Arena.get?_modify_of_ne _ (Ne.symm hd)], .refl y⟩

theorem lasts_pushExit {n : Netlist} (y : Exit) : Lasts n { n with exits := n.exits.push y } := by
  refine ⟨fun _ x hx => ⟨x, hx, .refl x⟩, fun d z hz => ⟨z, ?_, .refl z⟩⟩
  rw [Arena.get?_push_index, if_neg (Nat.ne_of_lt (Arena.lt_of_get? hz)), hz]

theorem admits_lasts : Admits Lasts :=
  .of_changes (fun hcomponents hexits _ => lasts_of_same hcomponents hexits) lasts_modify
    lasts_modifyExit lasts_pushExit lasts_shelled

/-- Whatever is done, the terminals of `m` last. -/
def lasting (m : Netlist) : Guard {} False where
  holds := Lasts m
  firm := False
  calm {n n'} h hn := by
    refine trans_of Lasts hn ⟨fun c x hx => ?_, fun e y hy => ?_⟩
    · obtain ⟨x', hx', hlike⟩ := h.alike hx
      have hstance := h.stances c
      rw [hx, hx', Option.map_some, Option.map_some] at hstance
      exact ⟨x', hx', hlike.lasts (congrArg Prod.fst (Option.some.inj hstance))⟩
    · obtain ⟨y', hy', heq⟩ := h.symm.exit hy
      have hdone : y'.shape.done = y.shape.done := congrArg Exit.done heq
      have hdata : y'.shape.data = y.shape.data := congrArg Exit.data heq
      exact ⟨y', hy', hdone, hdata ▸ List.prefix_rfl⟩
  shell kind stem _ hn := trans_of Lasts hn (lasts_shelled _ kind stem)
  module {_ n} kind stem _ hn := by
    refine trans_of Lasts hn ⟨fun c x hx => ⟨x, ?_, .refl x⟩, fun e y hy => ⟨y, ?_, .refl y⟩⟩
    · have hlt := Arena.lt_of_get? hx
      rw [get?_withModule, if_neg (by omega), if_neg (by omega), hx]
    · have hlt := Arena.lt_of_get? hy
      rw [get?_exits_withModule, if_neg (by rintro rfl; simp at hlt), hy]
  edit op s _ _ _ hn :=
    wp_mono (admits_lasts.run op s) (fun _ _ ht => trans_of Lasts hn ht) fun _ _ ht => ht.mono False.elim

end DataflowSynth.Netlist
