/-
What a component owns.

A module owns its children, its InBuf and the OutBufs of its exits.  Each of them knows its owner, so
that no two modules own the same component, and what a component owns, directly or not, is a tree.  The
tree may be endless, because a module can be put into itself; where it is not, its nesting is bounded
by the number of components.
-/
import DataflowSynth.Proofs.Netlist.Shapes
import Mathlib.Logic.Relation

namespace DataflowSynth.Netlist

open Relation

/-! ### Nesting -/

section

variable {R : ComponentId → ComponentId → Prop} {c d : ComponentId}

/-- Where `R` leads from a component to what lies directly in it, nothing lies in `c` deeper than
`k`. -/
def NestedBy (R : ComponentId → ComponentId → Prop) : (k : Nat) → ComponentId → Prop
  | 0, _ => False
  | k + 1, c => ∀ d, R c d → NestedBy R k d

/-- Nothing lies in itself if nothing goes on for ever. -/
theorem not_reflTransGen_of_acc (h : Acc (fun d m => R m d) c) (hd : R c d) :
    ¬ ReflTransGen R d c := by
  induction h generalizing d with
  | intro c _ ih =>
      intro hp
      rcases ReflTransGen.cases_head hp with rfl | ⟨e, hde, hpath⟩
      · exact ih d hd hd .refl
      · exact ih d hd hde (hpath.tail hd)

/-- A component lies in different components, so there cannot be too many of them. -/
theorem nestedBy_of_path {size k : Nat} {l : List ComponentId}
    (hbound : ∀ m d, R m d → d.index < size) (hc : Acc (fun d m => R m d) c) (hlt : c.index < size)
    (hnodup : l.Nodup) (hl : ∀ a ∈ l, a.index < size ∧ ReflTransGen R a c ∧ a ≠ c)
    (hsize : size = l.length + k) : NestedBy R k c := by
  induction k generalizing c l with
  | zero =>
      have hsub : c :: l ⊆ (List.range size).map Handle.mk := by
        intro a ha
        have ha : a.index < size := by
          rcases List.mem_cons.mp ha with rfl | ha
          · exact hlt
          · exact (hl a ha).1
        exact List.mem_map.mpr ⟨a.index, List.mem_range.mpr ha, rfl⟩
      have hne : c ∉ l := fun hmem => (hl c hmem).2.2 rfl
      have hle := (List.nodup_cons.mpr ⟨hne, hnodup⟩).length_le_of_subset hsub
      simp only [List.length_cons, List.length_map, List.length_range] at hle
      omega
  | succ k ih =>
      intro d hd
      have hne : c ∉ l := fun hmem => (hl c hmem).2.2 rfl
      refine ih (l := c :: l) (hc.inv hd) (hbound c d hd) (List.nodup_cons.mpr ⟨hne, hnodup⟩)
        (fun a ha => ?_) (by rw [List.length_cons]; omega)
      rcases List.mem_cons.mp ha with rfl | ha
      · refine ⟨hlt, .single hd, ?_⟩
        rintro rfl
        exact not_reflTransGen_of_acc hc hd .refl
      · obtain ⟨halt, hpath, -⟩ := hl a ha
        refine ⟨halt, hpath.tail hd, ?_⟩
        rintro rfl
        exact not_reflTransGen_of_acc hc hd hpath

theorem nestedBy_of_acc {size : Nat} (hbound : ∀ m d, R m d → d.index < size)
    (hc : Acc (fun d m => R m d) c) (hlt : c.index < size) : NestedBy R size c :=
  nestedBy_of_path (l := []) hbound hc hlt .nil (by simp) (by simp)

end

/-! ### Owners -/

/-- `d` is a child of the module `m`, its InBuf, or the OutBuf of one of its exits. -/
def Kid (n : Netlist) (m d : ComponentId) : Prop :=
  ∃ x i, n.components.get? m = some x ∧ x.interior = some i ∧
    (d ∈ i.children ∨ d = i.inBuf ∨
      ∃ e ∈ x.exits.values, ∃ y, n.exits.get? e = some y ∧ y.peer = some d)

/-- `d` is `c`, or something that `c` owns directly or not. -/
inductive Part (n : Netlist) (c : ComponentId) : ComponentId → Prop where
  | self : Part n c c
  | kid {m d : ComponentId} (before : Part n c m) (step : Kid n m d) : Part n c d

variable {pins : Nat} {n : Netlist} {a b c d m : ComponentId}

theorem Part.trans (h : Part n a b) (h' : Part n b c) : Part n a c := by
  induction h' with
  | self => exact h
  | kid _ hstep ih => exact ih.kid hstep

theorem Part.head (h : Part n a b) : a = b ∨ ∃ d, Kid n a d ∧ Part n d b := by
  induction h with
  | self => exact .inl rfl
  | kid _ hstep ih =>
      rcases ih with rfl | ⟨d, hd, hpart⟩
      · exact .inr ⟨_, hstep, .self⟩
      · exact .inr ⟨d, hd, hpart.kid hstep⟩

/-- Whatever a module owns knows its owner. -/
theorem Kid.owned {base : Netlist} (hl : Linked pins base n) (hs : Shaped base n)
    (hm : base.components.size ≤ m.index) (h : Kid n m d) :
    Ref.New base n (.component d) ∧ ∃ y, n.components.get? d = some y ∧ y.owner = some m := by
  obtain ⟨x, i, hx, hi, hk⟩ := h
  have hinterior := (hs.components m x hx hm).interior i hi
  rcases hk with hd | rfl | ⟨e, he, w, hw, hpeer⟩
  · have hnew := hl.child_new hx hm hi hd
    obtain ⟨y, hy⟩ := Arena.exists_get? hnew.2
    exact ⟨hnew, y, hy, hinterior.children d hd y hy⟩
  · obtain ⟨y, _, _, hy, -, hin⟩ := hinterior.inBuf
    exact ⟨hl.inBuf_new hx hm hi, y, hy, hin.owner⟩
  · have hexit := (hl.exit_new hx hm he).1
    obtain ⟨y, hy, hout⟩ := (hs.exits e w hw hexit).outBuf d hpeer
    exact ⟨(Exit.forall_refs.mp (hl.exits e w hw hexit).refs).2.2 d hpeer, y, hy,
      hout.owner.trans (congrArg some (hl.owner_of_listed hx hm he hw))⟩

/-- Everything in a netlist is linked and has its shape. -/
structure Whole (pins : Nat) (n : Netlist) : Prop where
  linked : Linked pins {} n
  shaped : Shaped {} n

namespace Whole

variable (h : Whole pins n)

include h

theorem kid (hk : Kid n m d) : ∃ y, n.components.get? d = some y ∧ y.owner = some m :=
  (hk.owned h.linked h.shaped (Nat.zero_le _)).2

/-- No two modules own the same component. -/
theorem kid_inj (ha : Kid n a d) (hb : Kid n b d) : a = b := by
  obtain ⟨x, hx, hxa⟩ := h.kid ha
  obtain ⟨y, hy, hyb⟩ := h.kid hb
  cases hx.symm.trans hy
  exact Option.some.inj (hxa.symm.trans hyb)

/-- Of two trees that share a component, one is in the other. -/
theorem part_or (ha : Part n a d) (hb : Part n b d) : Part n a b ∨ Part n b a := by
  induction ha with
  | self => exact .inr hb
  | kid hpart hkid ih =>
      cases hb with
      | self => exact .inl (hpart.kid hkid)
      | kid hpart' hkid' =>
          cases h.kid_inj hkid hkid'
          exact ih hpart'

theorem part_lt (hp : Part n c d) (hc : c.index < n.components.size) :
    d.index < n.components.size := by
  cases hp with
  | self => exact hc
  | kid _ hkid =>
      obtain ⟨y, hy, -⟩ := h.kid hkid
      exact Arena.lt_of_get? hy

end Whole

/-! ### Finite trees -/

/-- The tree of what a component owns is finite. -/
def Finite (n : Netlist) (c : ComponentId) : Prop := Acc (fun d m => Kid n m d) c

/-- Nothing owns itself. -/
theorem Finite.not_part (h : Finite n c) (hk : Kid n c d) : ¬ Part n d c := by
  induction h generalizing d with
  | intro c _ ih =>
      intro hp
      rcases hp.head with rfl | ⟨e, hkid, hpart⟩
      · exact ih d hk hk .self
      · exact ih d hk hkid (hpart.kid hk)

/-- What one component owns shares nothing with what the others own beside it. -/
theorem Whole.kids_disjoint (h : Whole pins n) (hc : Finite n c) (ha : Kid n c a) (hb : Kid n c b)
    (hpa : Part n a d) (hpb : Part n b d) : a = b := by
  -- If one were in the other, its owner `c` would be there too.
  have hin : ∀ {a b}, Kid n c a → Kid n c b → Part n a b → a = b := by
    intro a b ha hb hp
    cases hp with
    | self => rfl
    | kid hpart hkid =>
        cases h.kid_inj hkid hb
        exact absurd hpart (hc.not_part ha)
  rcases h.part_or hpa hpb with hp | hp
  · exact hin ha hb hp
  · exact (hin hb ha hp).symm

/-- A component without interior owns nothing. -/
theorem Part.eq_of_flat {x : Component} (hx : n.components.get? c = some x) (hi : x.interior = none)
    (hp : Part n c d) : d = c := by
  rcases hp.head with rfl | ⟨k, ⟨y, i, hy, hyi, -⟩, -⟩
  · rfl
  · cases hx.symm.trans hy
    rw [hi] at hyi
    cases hyi

theorem Whole.nested (h : Whole pins n) (hc : Finite n c) (hlt : c.index < n.components.size) :
    NestedBy (Kid n) n.components.size c := by
  refine nestedBy_of_acc (fun m d hd => ?_) hc hlt
  obtain ⟨y, hy, -⟩ := h.kid hd
  exact Arena.lt_of_get? hy

end DataflowSynth.Netlist
