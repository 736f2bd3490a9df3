/-
Reading an arena after it has changed.

Handles compare by their numbers, so after `push` and `modify` it is a case distinction what a handle
stands for.
-/
import DataflowSynth.Handle

namespace DataflowSynth

namespace Handle

variable {k : HandleKind}

theorem ext_index {h h' : Handle k} (heq : h.index = h'.index) : h = h' := by
  cases h
  cases h'
  simpa using heq

theorem eq_iff_index {h h' : Handle k} : h = h' ↔ h.index = h'.index :=
  ⟨congrArg Handle.index, ext_index⟩

end Handle

namespace Arena

variable {k : HandleKind} {α : Type} {a b c : Arena k α} {h : Handle k} {x : α}

@[simp] theorem next_index (a : Arena k α) : a.next.index = a.size := rfl

theorem get?_eq_values : a.get? h = a.values[h.index]? := by
  rw [get?, values, Array.getElem?_toList]

theorem get?_push (a : Arena k α) (x : α) (h : Handle k) :
    (a.push x).get? h = if h = a.next then some x else a.get? h := by
  by_cases heq : h = a.next
  · rw [if_pos heq, heq, get?_push_next]
  · have hne : h.index ≠ a.cells.size := fun hi => heq (Handle.ext_index hi)
    simp [push, get?, Array.getElem?_push, heq, hne]

/-- The same by number, for handles that are given as numbers. -/
theorem get?_push_index (a : Arena k α) (x : α) (h : Handle k) :
    (a.push x).get? h = if h.index = a.size then some x else a.get? h := by
  simp only [get?_push, Handle.eq_iff_index, next_index]

theorem get?_modify (a : Arena k α) (h : Handle k) (f : α → α) (h' : Handle k) :
    (a.modify h f).get? h' = if h' = h then (a.get? h').map f else a.get? h' := by
  by_cases heq : h' = h
  · rw [if_pos heq, heq, get?_modify_self]
  · rw [if_neg heq, get?_modify_of_ne _ (Ne.symm heq)]

theorem modify_push_next (a : Arena k α) (x : α) (f : α → α) :
    (a.push x).modify a.next f = a.push (f x) := by
  simp only [modify, push, next, Arena.mk.injEq]
  apply Array.ext_getElem?
  intro j
  simp only [Array.getElem?_modify, Array.getElem?_push]
  by_cases hj : j = a.cells.size <;> simp [hj, eq_comm]

theorem get?_push_cases {y : α} (hy : (a.push x).get? h = some y) :
    (h = a.next ∧ y = x) ∨ a.get? h = some y := by
  rw [get?_push] at hy
  split at hy
  · next heq => exact .inl ⟨heq, (Option.some.inj hy).symm⟩
  · exact .inr hy

theorem get?_modify_cases {h' : Handle k} {f : α → α} {y : α}
    (hy : (a.modify h f).get? h' = some y) :
    (h' = h ∧ ∃ x, a.get? h = some x ∧ y = f x) ∨ (h' ≠ h ∧ a.get? h' = some y) := by
  rw [get?_modify] at hy
  split at hy
  · next heq =>
    subst heq
    obtain ⟨x, hx, rfl⟩ := Option.map_eq_some_iff.mp hy
    exact .inl ⟨rfl, x, hx, rfl⟩
  · next hne => exact .inr ⟨hne, hy⟩

theorem lt_of_get? (hx : a.get? h = some x) : h.index < a.size :=
  (Array.getElem?_eq_some_iff.mp hx).1

theorem exists_get? (hlt : h.index < a.size) : ∃ x, a.get? h = some x :=
  ⟨a.cells[h.index], Array.getElem?_eq_getElem hlt⟩

theorem get?_of_size_le (hle : a.size ≤ h.index) : a.get? h = none :=
  Array.getElem?_eq_none hle

theorem contains_iff : a.contains h = true ↔ h.index < a.size := by
  simp [contains, size]

@[simp] theorem get?_empty (h : Handle k) : (∅ : Arena k α).get? h = none := by
  simp [get?, EmptyCollection.emptyCollection]

@[simp] theorem size_empty : (∅ : Arena k α).size = 0 := rfl

/-- Changes of several things, one after the other. -/
def modifyAll (a : Arena k α) (hs : List (Handle k)) (f : α → α) : Arena k α :=
  hs.foldl (fun a h => a.modify h f) a

@[simp] theorem size_modifyAll (a : Arena k α) (hs : List (Handle k)) (f : α → α) :
    (a.modifyAll hs f).size = a.size := by
  unfold modifyAll
  induction hs generalizing a with
  | nil => rfl
  | cons h hs ih => simpa using ih (a.modify h f)

/-- It does not matter how often a thing is changed if the second time does nothing. -/
theorem get?_modifyAll {f : α → α} (hf : ∀ x, f (f x) = f x) (hs : List (Handle k))
    (a : Arena k α) (h : Handle k) :
    (a.modifyAll hs f).get? h = if h ∈ hs then (a.get? h).map f else a.get? h := by
  unfold modifyAll
  induction hs generalizing a with
  | nil => simp
  | cons h' hs ih =>
      rw [List.foldl_cons, ih, get?_modify]
      by_cases heq : h = h' <;> by_cases hmem : h ∈ hs <;>
        simp [heq, hmem, Option.map_map, Function.comp_def, hf]

/-! ### Growth -/

/-- What `a` has, `b` has in the same place. -/
structure Keeps (a b : Arena k α) : Prop where
  size : a.size ≤ b.size
  get? : ∀ h : Handle k, h.index < a.size → b.get? h = a.get? h

theorem Keeps.refl (a : Arena k α) : a.Keeps a := ⟨Nat.le_refl _, fun _ _ => rfl⟩

theorem Keeps.trans (hab : a.Keeps b) (hbc : b.Keeps c) : a.Keeps c where
  size := Nat.le_trans hab.size hbc.size
  get? h hlt := (hbc.get? h (Nat.lt_of_lt_of_le hlt hab.size)).trans (hab.get? h hlt)

theorem Keeps.push (hab : a.Keeps b) (x : α) : a.Keeps (b.push x) where
  size := by
    rw [size_push]
    exact Nat.le_succ_of_le hab.size
  get? h hlt := by
    rw [get?_push, if_neg fun heq => ?_]
    · exact hab.get? h hlt
    · rw [heq, next_index] at hlt
      exact absurd hab.size (Nat.not_le_of_lt hlt)

theorem Keeps.modify (hab : a.Keeps b) (hle : a.size ≤ h.index) (f : α → α) :
    a.Keeps (b.modify h f) where
  size := by
    rw [size_modify]
    exact hab.size
  get? h' hlt := by
    rw [get?_modify, if_neg fun heq => ?_]
    · exact hab.get? h' hlt
    · rw [heq] at hlt
      exact absurd hle (Nat.not_le_of_lt hlt)

theorem Keeps.modifyAll (hab : a.Keeps b) {hs : List (Handle k)}
    (hle : ∀ h ∈ hs, a.size ≤ h.index) (f : α → α) : a.Keeps (b.modifyAll hs f) := by
  unfold Arena.modifyAll
  induction hs generalizing b with
  | nil => exact hab
  | cons h hs ih => exact ih (hab.modify (hle h (by simp)) f) fun h' hh' => hle h' (by simp [hh'])

/-- `b` has `h` and `a` has not. -/
def Adds (a b : Arena k α) (h : Handle k) : Prop := a.size ≤ h.index ∧ h.index < b.size

theorem get?_of_mem_toList (hx : (h, x) ∈ a.toList) : a.get? h = some x := by
  obtain ⟨j, hj, heq⟩ := List.mem_iff_getElem.mp hx
  simp only [Arena.toList, handles, values, List.getElem_zip, List.getElem_map, List.getElem_range,
    Array.getElem_toList, Prod.mk.injEq] at heq
  obtain ⟨rfl, rfl⟩ := heq
  simp [get?]

instance decidableForall {P : Handle k → α → Prop} [∀ h x, Decidable (P h x)] (a : Arena k α) :
    Decidable (∀ h x, a.get? h = some x → P h x) :=
  decidable_of_iff (∀ i < a.size, ∀ x ∈ a.get? ⟨i⟩, P ⟨i⟩ x)
    ⟨fun h i x hx => h i.index (lt_of_get? hx) x hx, fun h i _ x hx => h ⟨i⟩ x hx⟩

end Arena

end DataflowSynth
