/-
No two components of a netlist have the same name.

A component gets its name when it is made, from the supply of the netlist, and keeps it; nothing else
is asked of that supply.  So the names of the components, in the order in which these were made, are
the names that the supply has given out, and it gives no name out twice.
-/
import DataflowSynth.Proofs.Design.Consistency
import DataflowSynth.Proofs.Naming
import DataflowSynth.Proofs.Netlist.Lasting

namespace DataflowSynth

open Build

namespace Netlist

open NameSupply (History given given_concat)

variable {n n' : Netlist} {c m : ComponentId} {x : Component}

/-! ### Names of components -/

/-- The names of all components, in the order in which they were made. -/
def componentNames (n : Netlist) : List String := n.components.values.map Component.name

theorem getElem?_componentNames (n : Netlist) (i : Nat) :
    n.componentNames[i]? = (n.components.get? ⟨i⟩).map Component.name := by
  rw [componentNames, List.getElem?_map, Arena.get?_eq_values]

/-- The names of the components are those that the supply of the netlist has given out. -/
def Named (n : Netlist) : Prop :=
  ∃ requests deeds, History requests deeds n.names ∧ n.componentNames = given deeds

theorem named_empty : Named {} := ⟨[], [], .new, rfl⟩

theorem Named.nodup (h : n.Named) : n.componentNames.Nodup := by
  obtain ⟨requests, deeds, hhistory, hnames⟩ := h
  rw [hnames]
  exact hhistory.nodup_given

theorem Named.distinct (h : n.Named) (c d : ComponentId) (x y : Component)
    (hx : n.components.get? c = some x) (hy : n.components.get? d = some y) (hname : x.name = y.name) :
    c = d := by
  have hcx : n.componentNames[c.index]? = some x.name := by
    rw [getElem?_componentNames, hx, Option.map_some]
  have hdy : n.componentNames[d.index]? = some x.name := by
    rw [getElem?_componentNames, hy, Option.map_some, hname]
  obtain ⟨hlt, -⟩ := List.getElem?_eq_some_iff.mp hcx
  exact Handle.ext_index ((List.getElem?_inj hlt h.nodup).mp (hcx.trans hdy.symm))

/-- Components that keep their names. -/
theorem Named.keep (h : n.Named) (hnames : n'.names = n.names)
    (hold : ∀ c, (n'.components.get? c).map Component.name = (n.components.get? c).map Component.name) :
    n'.Named := by
  have heq : n'.componentNames = n.componentNames := List.ext_getElem? fun i => by
    rw [getElem?_componentNames, getElem?_componentNames, hold]
  rw [Named, hnames, heq]
  exact h

/-- One component is new, and has a name that was given out for it. -/
theorem Named.add (h : n.Named) (stem : String) (hnames : n'.names = (n.names.fresh stem).2)
    (hold : ∀ c, (n'.components.get? c).map Component.name =
      if c = n.components.next then some (n.names.fresh stem).1
      else (n.components.get? c).map Component.name) : n'.Named := by
  obtain ⟨requests, deeds, hhistory, hgiven⟩ := h
  obtain ⟨tried, hmeets⟩ := n.names.meets_fresh stem
  have hlength : n.componentNames.length = n.components.size := by
    rw [componentNames, List.length_map, Arena.values, Array.length_toList, Arena.size]
  have heq : n'.componentNames = n.componentNames ++ [(n.names.fresh stem).1] := by
    refine List.ext_getElem? fun i => ?_
    rw [getElem?_componentNames, hold, ← getElem?_componentNames]
    simp only [Handle.eq_iff_index, Arena.next_index, ← hlength]
    split
    · next hi => simp [hi]
    · next hi =>
      rcases Nat.lt_or_gt_of_ne hi with hlt | hgt
      · rw [List.getElem?_append_left hlt]
      · have hlast : (n.componentNames ++ [(n.names.fresh stem).1]).length ≤ i := by
          rwa [List.length_append, List.length_singleton]
        rw [List.getElem?_eq_none (Nat.le_of_lt hgt), List.getElem?_eq_none hlast]
  refine ⟨requests ++ [.fresh stem], deeds ++ [.gave stem tried (n.names.fresh stem).1], ?_, ?_⟩
  · exact .next hhistory ((hmeets _ _).mpr ⟨rfl, hnames⟩)
  · rw [heq, hgiven, given_concat, NameSupply.Deed.given?, Option.toList_some]

theorem Named.calm (h : n.Named) (hc : Calm n n') : n'.Named := by
  refine h.keep hc.names fun c => ?_
  have hstance := congrArg (Option.map Prod.fst) (hc.stances c)
  rw [Option.map_map, Option.map_map] at hstance
  exact hstance

theorem Named.shelled (h : n.Named) (kind : ComponentKind) (stem : String) :
    (n.shelled kind stem).Named := by
  refine h.add stem rfl fun c => ?_
  rw [components_shelled, Arena.get?_push]
  split <;> rfl

theorem names_withInBuf : (n.withInBuf m x).names = (n.names.fresh (x.name ++ "_inbuf")).2 := by
  simp only [withInBuf, withInBufBuses, withControl, withControlBus, names_paired, withExit]
  rfl

theorem Named.withInBuf (h : n.Named) (hx : n.components.get? m = some x) :
    (n.withInBuf m x).Named := by
  have hne : m ≠ n.components.next := fun heq => by
    have hlt := Arena.lt_of_get? hx
    rw [heq, Arena.next_index] at hlt
    exact Nat.lt_irrefl _ hlt
  refine h.add _ names_withInBuf fun d => ?_
  rw [get?_withInBuf _ _ _ hx]
  split
  · next hd => rw [hd, if_neg hne, hx, Option.map_some, Option.map_some]
  split
  · rfl
  · rfl

theorem Named.withModule (h : n.Named) (kind : ModuleKind) (stem : String) :
    (n.withModule kind stem).Named :=
  (h.shelled (.module kind) stem).withInBuf (get?_shelled_next n (.module kind) stem)

/-! ### All netlists -/

/-- Components keep the names that were given out for them. -/
def KeepsNames (n n' : Netlist) : Prop := n.Named → n'.Named

instance : IsPreorder Netlist KeepsNames where
  refl _ := id
  trans _ _ _ h h' hn := h' (h hn)

theorem keepsNames_of_same (hnames : n'.names = n.names) (heq : n'.components = n.components) :
    KeepsNames n n' :=
  fun h => h.keep hnames fun c => by rw [heq]

theorem keepsNames_modify {f : Component → Component} (hf : ∀ x, Component.Lasts x (f x)) :
    KeepsNames n { n with components := n.components.modify c f } := by
  refine fun h => h.keep rfl fun d => ?_
  rw [Arena.get?_modify]
  split
  · rw [Option.map_map]
    exact congrArg (fun g => (n.components.get? d).map g) (funext fun x => (hf x).name)
  · rfl

theorem admits_keepsNames : Admits KeepsNames :=
  .of_changes (fun heq _ hnames => keepsNames_of_same hnames heq) keepsNames_modify
    (fun _ => keepsNames_of_same rfl rfl) (fun _ => keepsNames_of_same rfl rfl)
    fun _ kind stem hn => hn.shelled kind stem

/-- Components have the names that were given out for them, whatever is done. -/
def naming : Guard {} False where
  holds := Named
  firm := False
  calm hc hn := hn.calm hc
  shell kind stem _ hn := hn.shelled kind stem
  module kind stem _ hn := hn.withModule kind stem
  edit op s _ _ _ hn :=
    wp_mono (admits_keepsNames.run op s) (fun _ _ ht => ht hn) fun _ _ ht => ht.mono False.elim

theorem Reachable.named (h : n.Reachable) : n.Named := by
  cases h with
  | alone reached => exact (reached.guarded (G := naming) id named_empty).guarded
  | inDesign reached => exact (reached.guarded (G := naming) id named_empty).netlist.guarded

end Netlist

open NameSupply (History given)

/-- Whatever a supply has been asked for, all of it was met.  If a name for some stem is asked for next,
there is one way to meet that, with finitely many numbers tried, and the name is new: it is the stem, or
else the stem with the least number that was not tried before and gives a new name.  In a netlist, the
names of the components are given out like this, and therefore no two are the same. -/
theorem names_given_once :
    (∀ requests, (∃ deeds s, History requests deeds s) ∧
      ∀ deeds s, History requests deeds s → s = NameSupply.after requests ∧ (given deeds).Nodup ∧
        ∀ stem, ∃ tried,
          (∀ d t, s.Meets (.fresh stem) d t ↔
            d = .gave stem tried (s.fresh stem).1 ∧ t = (s.fresh stem).2) ∧
          NameSupply.Fresh deeds stem tried (s.fresh stem).1) ∧
      ∀ n : Netlist, n.Reachable → n.Named ∧ n.componentNames.Nodup := by
  refine ⟨fun requests => ⟨?_, fun deeds s h => ⟨h.eq_after, h.nodup_given, fun stem => ?_⟩⟩,
    fun n h => ⟨h.named, h.named.nodup⟩⟩
  · obtain ⟨deeds, h⟩ := NameSupply.exists_history requests
    exact ⟨deeds, _, h⟩
  · obtain ⟨tried, hmeets⟩ := s.meets_fresh stem
    exact ⟨tried, hmeets, h.records.fresh ((hmeets _ _).mpr ⟨rfl, rfl⟩)⟩

/-- A number that is set aside is stepped over; a gate and its clone have two names. -/
theorem names_given_once_flop :
    ((NameSupply.after [.reserve ["flop0"], .fresh "flop"]).fresh "flop").1 = "flop1" ∧
      ∃ n : Netlist, n.Reachable ∧ n.componentNames.length = 2 ∧ n.componentNames.Nodup := by
  constructor
  · have hfree : (({} : NameSupply).taken.insertMany ["flop0"]).contains "flop" = false := by simp
    have hhistory : History [.reserve ["flop0"], .fresh "flop"]
        [.reserved ["flop0"], .gave "flop" [] "flop"] _ :=
      .next (.next .new (.reserve ["flop0"])) (.stem hfree)
    obtain ⟨hafter, -, hnext⟩ := (names_given_once.1 _).2 _ _ hhistory
    obtain ⟨tried, -, hfresh⟩ := hnext "flop"
    rw [← hafter]
    obtain ⟨n, hname, hleast⟩ := hfresh.number (by decide)
    have hn : n = 1 := by
      refine Nat.le_antisymm (hleast.2 ⟨by decide, by decide⟩) (Nat.pos_of_ne_zero ?_)
      rintro rfl
      exact hleast.1.2 (by decide)
    rw [hname, hn]
    decide
  · have hempty : Netlist.Reached False 0 {} := .empty
    have hgate := hempty.after (.newGate .not "not" 1) (by decide) False.elim (by decide +kernel)
    have hclone := hgate.after (.clone ⟨0⟩) (by decide +kernel) False.elim (by decide +kernel)
    exact ⟨_, .alone hclone, by decide +kernel, (names_given_once.2 _ (.alone hclone)).2⟩

end DataflowSynth
