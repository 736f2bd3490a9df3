/-
Taking bytes out of initial contents.

A value is read as the flat list of its cells.  What is asked of a record is asked of its parts, with
the range moved to each part and clamped to it.  A range at one end of the record then is a range at
one end of every part that it meets, so that no part refuses what the whole has let through; and the
cells that are kept of the parts, one after the other, are those that are kept of the whole.  One
thing is left to go wrong: the range can end in the middle of a pointer.
-/
import DataflowSynth.Memory.LogicalValue
import Mathlib.Logic.Relation

namespace DataflowSynth

namespace LogicalValue

open size removeRange

/-! ### Cells -/

/-- A byte of initial contents. -/
inductive Cell where
  | byte (value : UInt8)
  /-- A byte of the address of an object in memory `target`. -/
  | address (target : UInt32) (offset : Nat)
  deriving DecidableEq

/-- All cells in order. -/
def content : LogicalValue → List Cell
  | .scalar bytes => bytes.map .byte
  | .record values => contentList values
  | .pointer target bytes => (List.range bytes).map (.address target)
where
  contentList : List LogicalValue → List Cell
    | [] => []
    | v :: vs => content v ++ contentList vs

/-- A pointer in the place where it stands. -/
structure Pointer where
  /-- Its first cell. -/
  start : Nat
  target : UInt32
  bytes : Nat

namespace Pointer

def shift (offset : Nat) (p : Pointer) : Pointer := { p with start := offset + p.start }

/-- One cell is between `min` and `max`, and one is not. -/
def Split (min max : Nat) (p : Pointer) : Prop :=
  (∃ k < p.bytes, min ≤ p.start + k ∧ p.start + k ≤ max) ∧
    ∃ k < p.bytes, ¬ (min ≤ p.start + k ∧ p.start + k ≤ max)

instance (min max : Nat) (p : Pointer) : Decidable (p.Split min max) :=
  inferInstanceAs (Decidable (_ ∧ _))

end Pointer

/-- All pointers in order. -/
def pointers : LogicalValue → List Pointer
  | .scalar _ => []
  | .record values => pointersList 0 values
  | .pointer target bytes => [⟨0, target, bytes⟩]
where
  /-- The pointers in the parts of a record that starts at `offset`. -/
  pointersList : (offset : Nat) → List LogicalValue → List Pointer
    | _, [] => []
    | offset, v :: vs =>
      (pointers v).map (·.shift offset) ++ pointersList (offset + size v) vs

mutual

/-- A property of values that passes from the parts of a record to the record holds of all. -/
theorem forall_of_parts {P : LogicalValue → Prop} (scalar : ∀ bytes, P (.scalar bytes))
    (pointer : ∀ target bytes, P (.pointer target bytes))
    (record : ∀ values, (∀ v ∈ values, P v) → P (.record values)) : (v : LogicalValue) → P v
  | .scalar bytes => scalar bytes
  | .pointer target bytes => pointer target bytes
  | .record values => record values (forall_of_partsList scalar pointer record values)

theorem forall_of_partsList {P : LogicalValue → Prop} (scalar : ∀ bytes, P (.scalar bytes))
    (pointer : ∀ target bytes, P (.pointer target bytes))
    (record : ∀ values, (∀ v ∈ values, P v) → P (.record values)) :
    (vs : List LogicalValue) → ∀ v ∈ vs, P v
  | [] => by simp
  | v :: vs => List.forall_mem_cons.2
    ⟨forall_of_parts scalar pointer record v, forall_of_partsList scalar pointer record vs⟩

end

/-- There are as many cells as bytes. -/
@[simp] theorem length_content (v : LogicalValue) : v.content.length = v.size := by
  induction v using forall_of_parts with
  | scalar bytes => simp [content, size]
  | pointer target bytes => simp [content, size]
  | record values ih =>
    simp only [content, size]
    induction values with
    | nil => rfl
    | cons v vs ihs =>
      obtain ⟨hv, hvs⟩ := List.forall_mem_cons.mp ih
      simp [content.contentList, sizeList, hv, ihs hvs]

@[simp] theorem length_contentList (vs : List LogicalValue) :
    (content.contentList vs).length = sizeList vs :=
  length_content (.record vs)

/-- A pointer stands among the cells of the value: its own are there, one after the other. -/
theorem content_pointer {v : LogicalValue} {p : Pointer} (hp : p ∈ v.pointers) :
    p.start + p.bytes ≤ v.size ∧
      (v.content.drop p.start).take p.bytes = (List.range p.bytes).map (.address p.target) := by
  induction v using forall_of_parts generalizing p with
  | scalar bytes => simp [pointers] at hp
  | pointer target bytes =>
    obtain rfl := List.mem_singleton.mp hp
    exact ⟨by simp [size], by simp [content, List.take_of_length_le]⟩
  | record values ih =>
    simp only [pointers] at hp
    simp only [content, size]
    -- The pointers of the tail are counted from where it starts.
    suffices h : ∀ (vs : List LogicalValue) (offset : Nat), (∀ v ∈ vs, ∀ {p : Pointer},
        p ∈ v.pointers → p.start + p.bytes ≤ v.size ∧ (v.content.drop p.start).take p.bytes =
          (List.range p.bytes).map (.address p.target)) →
        ∀ p ∈ pointers.pointersList offset vs, offset ≤ p.start ∧
          p.start + p.bytes ≤ offset + sizeList vs ∧
          ((content.contentList vs).drop (p.start - offset)).take p.bytes =
            (List.range p.bytes).map (.address p.target) by
      simpa using (h values 0 ih p hp).2
    clear hp ih
    intro vs
    induction vs with
    | nil => simp [pointers.pointersList]
    | cons v vs ihs =>
      intro offset hall p hp
      obtain ⟨hv, hvs⟩ := List.forall_mem_cons.mp hall
      simp only [content.contentList, sizeList]
      rcases List.mem_append.mp hp with hp | hp
      · obtain ⟨q, hq, rfl⟩ := List.mem_map.mp hp
        obtain ⟨hfit, hcells⟩ := hv hq
        refine ⟨Nat.le_add_right _ _, by simp only [Pointer.shift]; omega, ?_⟩
        simp only [Pointer.shift, Nat.add_sub_cancel_left]
        rw [List.drop_append_of_le_length (by simp; omega),
          List.take_append_of_le_length (by simp; omega), hcells]
      · obtain ⟨hle, hfit, hcells⟩ := ihs _ hvs p hp
        refine ⟨by omega, by omega, ?_⟩
        rw [List.drop_append, length_content, List.drop_of_length_le (by simp; omega),
          List.nil_append, ← hcells]
        congr 2
        omega

/-! ### Cells that are kept -/

/-- The cells that are not between `min` and `max`, of those from `offset` on. -/
def kept (min max offset : Nat) (cells : List Cell) : List Cell :=
  cells.take (min - offset) ++ cells.drop (max + 1 - offset)

variable {min max offset : Nat} {cells : List Cell}

theorem kept_append (hle : min ≤ max) (front back : List Cell) :
    kept min max offset (front ++ back) =
      kept min max offset front ++ kept min max (offset + front.length) back := by
  simp only [kept, List.take_append, List.drop_append, Nat.sub_sub, List.append_assoc]
  -- Before `min` is before `max`: where something is taken from the back, nothing of the front is
  -- dropped from the start only.
  rcases Nat.le_total min (offset + front.length) with h | h
  · simp [Nat.sub_eq_zero_of_le h]
  · rw [List.drop_of_length_le (by omega)]
    simp

theorem kept_of_apart (h : cells.length = 0 ∨ offset + cells.length ≤ min ∨ offset > max)
    (hle : min ≤ max) : kept min max offset cells = cells := by
  rcases h with h | h | h
  · simp [List.length_eq_zero_iff.mp h, kept]
  · rw [kept, List.take_of_length_le (by omega), List.drop_of_length_le (by omega), List.append_nil]
  · simp [kept, Nat.sub_eq_zero_of_le (show min ≤ offset by omega),
      Nat.sub_eq_zero_of_le (show max + 1 ≤ offset by omega)]

/-- The range moved to the cells and clamped to them. -/
theorem kept_clamp (hmax : offset ≤ max) :
    kept (Nat.max min offset - offset) (Nat.min max (offset + cells.length - 1) - offset) 0 cells =
      kept min max offset cells := by
  have hmin : Nat.max min offset - offset = min - offset := by
    change Max.max min offset - offset = _
    omega
  simp only [kept, Nat.sub_zero, hmin]
  congr 1
  change List.drop (Min.min max (offset + cells.length - 1) - offset + 1) cells = _
  rcases Nat.le_total max (offset + cells.length - 1) with h | h
  · congr 1
    omega
  · rw [List.drop_of_length_le (by omega), List.drop_of_length_le (by omega)]

end LogicalValue

open LogicalValue

/-- A call of `removeRange`. -/
structure Removal where
  min : Nat
  max : Nat
  value : LogicalValue

namespace Removal

open LogicalValue.size LogicalValue.removeRange

/-! ### Calls -/

def outcome (r : Removal) : Except Error LogicalValue := r.value.removeRange r.min r.max

/-- The range is in the value, and at one of its ends. -/
def Legal (r : Removal) : Prop :=
  r.min ≤ r.max ∧ r.max < r.value.size ∧ (r.min = 0 ∨ r.max = r.value.size - 1)

instance (r : Removal) : Decidable r.Legal := inferInstanceAs (Decidable (_ ∧ _))

/-- The range ends in the middle of a pointer. -/
def Splits (r : Removal) : Prop := ∃ p ∈ r.value.pointers, p.Split r.min r.max

instance (r : Removal) : Decidable r.Splits :=
  inferInstanceAs (Decidable (∃ p ∈ r.value.pointers, p.Split r.min r.max))

/-- The calls that are made for the parts of a record that starts at `offset`. -/
def asked (min max : Nat) : (offset : Nat) → List LogicalValue → List Removal
  | _, [] => []
  | offset, v :: vs =>
    let next := offset + v.size
    if v.size = 0 ∨ next ≤ min ∨ offset > max then asked min max next vs
    else ⟨Nat.max min offset - offset, Nat.min max (next - 1) - offset, v⟩ :: asked min max next vs

/-- The calls that a call makes. -/
def parts (r : Removal) : List Removal :=
  match r.value with
  | .record values => asked r.min r.max 0 values
  | .scalar _ | .pointer .. => []

/-- A call makes another one, or makes one that does. -/
def Nests : Removal → Removal → Prop := Relation.TransGen fun r q => q ∈ r.parts

/-- The parts of a record are done by these calls and no others, until one fails. -/
theorem removeList_asked (min max : Nat) (vs : List LogicalValue) (offset : Nat) :
    (removeList min max offset vs).map (fun _ => ()) =
      (asked min max offset vs).forM fun q => q.outcome.map fun _ => () := by
  induction vs generalizing offset with
  | nil => rfl
  | cons v vs ih =>
    unfold removeList asked
    dsimp only
    split
    · rw [← ih]
      cases removeList min max (offset + v.size) vs <;> rfl
    · simp only [List.forM_eq_forM, List.forM_cons] at ih ⊢
      rw [← ih]
      simp only [outcome]
      cases removeRange _ _ v with
      | error e => rfl
      | ok rest => cases removeList min max (offset + v.size) vs <;> rfl

/-- Every call that a legal one makes is legal. -/
theorem Legal.asked {min max : Nat} (hle : min ≤ max) (vs : List LogicalValue) (offset : Nat)
    (hend : min ≤ offset ∨ offset + sizeList vs ≤ max + 1) :
    ∀ q ∈ asked min max offset vs, q.Legal := by
  induction vs generalizing offset with
  | nil => simp [Removal.asked]
  | cons v vs ih =>
    have htail := ih (offset + v.size) (by simp only [sizeList] at hend; omega)
    unfold Removal.asked
    dsimp only
    split
    · exact htail
    · next hmet =>
      refine List.forall_mem_cons.mpr ⟨?_, htail⟩
      change Max.max min offset - offset ≤ Min.min max (offset + v.size - 1) - offset ∧
        Min.min max (offset + v.size - 1) - offset < v.size ∧ (Max.max min offset - offset = 0 ∨
          Min.min max (offset + v.size - 1) - offset = v.size - 1)
      simp only [sizeList] at hend
      omega

theorem Legal.part {r q : Removal} (h : r.Legal) (hq : q ∈ r.parts) : q.Legal := by
  obtain ⟨min, max, v⟩ := r
  cases v with
  | scalar | pointer => simp [parts] at hq
  | record values =>
    refine Legal.asked h.1 values 0 ?_ q hq
    obtain ⟨hle, hmax, hend⟩ := h
    simp only [size] at hle hmax hend ⊢
    omega

theorem Legal.nested {r q : Removal} (h : r.Legal) (hq : r.Nests q) : q.Legal := by
  induction hq with
  | single hq => exact h.part hq
  | tail _ hq ih => exact ih.part hq

/-! ### Outcomes -/

/-- What becomes of cells from `offset` on, with these pointers among them: those between `min` and
`max` are taken out, unless a pointer is split. -/
def Removes (min max offset : Nat) (ps : List Pointer) (cells : List Cell) :
    Except Error (List Cell) → Prop
  | .ok rest => (∀ p ∈ ps, ¬ p.Split min max) ∧ rest = kept min max offset cells
  | .error e => ∃ p ∈ ps, p.Split min max ∧ e = .unsupported (.partOfPointer p.target)

variable {min max offset : Nat} {ps ps' : List Pointer} {cells cells' : List Cell}
  {out out' : Except Error (List Cell)}

theorem Removes.append (hle : min ≤ max) (h : Removes min max offset ps cells out)
    (h' : Removes min max (offset + cells.length) ps' cells' out') :
    Removes min max offset (ps ++ ps') (cells ++ cells')
      (do return (← out) ++ (← out')) := by
  cases out with
  | error e =>
    obtain ⟨p, hp, hsplit⟩ := h
    exact ⟨p, List.mem_append_left _ hp, hsplit⟩
  | ok front =>
    cases out' with
    | error e =>
      obtain ⟨p, hp, hsplit⟩ := h'
      exact ⟨p, List.mem_append_right _ hp, hsplit⟩
    | ok back =>
      refine ⟨List.forall_mem_append.mpr ⟨h.1, h'.1⟩, ?_⟩
      rw [kept_append hle, ← h.2, ← h'.2]

/-- Where the range does not reach, nothing is taken. -/
theorem Removes.apart {v : LogicalValue} (hle : min ≤ max)
    (h : v.size = 0 ∨ offset + v.size ≤ min ∨ offset > max) :
    Removes min max offset (v.pointers.map (·.shift offset)) v.content (.ok v.content) := by
  refine ⟨fun p hp => ?_, (kept_of_apart (by simpa using h) hle).symm⟩
  obtain ⟨q, hq, rfl⟩ := List.mem_map.mp hp
  have hfit := (content_pointer hq).1
  rintro ⟨⟨k, hk, hmin, hmax⟩, -⟩
  simp only [Pointer.shift] at hk hmin hmax
  omega

/-- What is done to a part is done to its cells in the record. -/
theorem Removes.shift {v : LogicalValue} (hmin : min < offset + v.size) (hmax : offset ≤ max)
    (h : Removes (Nat.max min offset - offset)
      (Nat.min max (offset + v.size - 1) - offset) 0 v.pointers v.content out) :
    Removes min max offset (v.pointers.map (·.shift offset)) v.content out := by
  have hsplit : ∀ p ∈ v.pointers, (p.shift offset).Split min max ↔
      p.Split (Nat.max min offset - offset) (Nat.min max (offset + v.size - 1) - offset) := by
    intro p hp
    have hfit := (content_pointer hp).1
    -- In the part, a cell is between the clamped bounds if it is between the bounds.
    have hcell : ∀ k < p.bytes, (min ≤ offset + p.start + k ∧ offset + p.start + k ≤ max ↔
        Nat.max min offset - offset ≤ p.start + k ∧
          p.start + k ≤ Nat.min max (offset + v.size - 1) - offset) := by
      intro k hk
      change _ ↔ Max.max min offset - offset ≤ _ ∧ _ ≤ Min.min max (offset + v.size - 1) - offset
      omega
    exact and_congr (exists_congr fun k => and_congr_right (hcell k))
      (exists_congr fun k => and_congr_right fun hk => not_congr (hcell k hk))
  cases out with
  | error e =>
    obtain ⟨p, hp, hs, he⟩ := h
    exact ⟨_, List.mem_map_of_mem hp, (hsplit p hp).mpr hs, he⟩
  | ok rest =>
    refine ⟨fun q hq => ?_, ?_⟩
    · obtain ⟨p, hp, rfl⟩ := List.mem_map.mp hq
      exact fun hs => h.1 p hp ((hsplit p hp).mp hs)
    · rw [h.2, ← length_content, kept_clamp hmax]

theorem removes_removeList (hle : min ≤ max) (vs : List LogicalValue) (offset : Nat)
    (hparts : ∀ v ∈ vs, ∀ min max, Legal ⟨min, max, v⟩ →
      Removes min max 0 v.pointers v.content ((v.removeRange min max).map content))
    (hlegal : ∀ q ∈ asked min max offset vs, q.Legal) :
    Removes min max offset (pointers.pointersList offset vs) (content.contentList vs)
      ((removeList min max offset vs).map content.contentList) := by
  induction vs generalizing offset with
  | nil => exact ⟨by simp [pointers.pointersList], by simp [kept, content.contentList]⟩
  | cons v vs ih =>
    obtain ⟨hv, hvs⟩ := List.forall_mem_cons.mp hparts
    unfold removeList
    unfold asked at hlegal
    dsimp only at hlegal ⊢
    simp only [pointers.pointersList, content.contentList]
    split
    · next hmet =>
      rw [if_pos hmet] at hlegal
      have htail := ih (offset + v.size) hvs hlegal
      rw [← length_content] at htail
      have hboth := (Removes.apart hle hmet).append hle htail
      rw [length_content] at hboth
      cases hrest : removeList min max (offset + v.size) vs <;> rw [hrest] at hboth <;> exact hboth
    · next hmet =>
      rw [if_neg hmet] at hlegal
      obtain ⟨hfirst, hrest⟩ := List.forall_mem_cons.mp hlegal
      have htail := ih (offset + v.size) hvs hrest
      rw [← length_content] at htail
      have hhead := Removes.shift (by omega) (by omega) (hv _ _ hfirst)
      have hboth := hhead.append hle htail
      rw [length_content] at hboth
      cases hpart : removeRange (Nat.max min offset - offset)
          (Nat.min max (offset + v.size - 1) - offset) v with
      | error e => rwa [hpart] at hboth
      | ok rest =>
        rw [hpart] at hboth
        cases hrest : removeList min max (offset + v.size) vs with
        | error e => rwa [hrest] at hboth
        | ok ws =>
          rw [hrest] at hboth
          -- A part without bytes is left out: it has no cells either.
          have hcells : content.contentList (if rest.size > 0 then rest :: ws else ws) =
              rest.content ++ content.contentList ws := by
            split
            · rfl
            · next hnone =>
              have hnil : rest.content = [] := List.length_eq_zero_iff.mp (by simp; omega)
              rw [hnil, List.nil_append]
          exact ⟨hboth.1, hcells.trans hboth.2⟩

/-- The range check lets legal ranges through, and no others. -/
theorem checkRange_eq_ok_iff {min max size : Nat} :
    checkRange min max size = .ok () ↔
      min ≤ max ∧ max < size ∧ (min = 0 ∨ max = size - 1) := by
  unfold checkRange
  split
  · simp; omega
  · split <;> simp <;> omega

/-- What the range check does not let through is refused. -/
theorem exists_checkRange {min max size : Nat}
    (h : ¬ (min ≤ max ∧ max < size ∧ (min = 0 ∨ max = size - 1))) :
    ∃ why, checkRange min max size = .error (.nonRemovable why) := by
  unfold checkRange
  split
  · exact ⟨_, rfl⟩
  · rw [if_pos (by omega)]
    exact ⟨_, rfl⟩

theorem removes_removeRange (r : Removal) (h : r.Legal) :
    Removes r.min r.max 0 r.value.pointers r.value.content (r.outcome.map content) := by
  obtain ⟨min, max, v⟩ := r
  induction v using forall_of_parts generalizing min max with
  | scalar bytes =>
    have hcheck : checkRange min max bytes.length = .ok () := checkRange_eq_ok_iff.mpr h
    obtain ⟨-, hmax, hend⟩ := h
    simp only [size] at hmax hend
    simp only [outcome, removeRange, hcheck]
    refine ⟨by simp [pointers], ?_⟩
    simp only [content, kept, Nat.sub_zero]
    split
    · next hmin => simp [hmin]
    · rw [List.drop_of_length_le (by simp; omega), List.append_nil, List.map_take]
  | pointer target bytes =>
    have hcheck : checkRange min max bytes = .ok () := checkRange_eq_ok_iff.mpr h
    obtain ⟨hle, hmax, hend⟩ := h
    simp only [size] at hle hmax hend
    simp only [outcome, removeRange, hcheck]
    by_cases hall : min = 0 ∧ max = bytes - 1
    · have hnone : ∀ p ∈ (pointer target bytes).pointers, ¬ p.Split min max := by
        rintro p hp ⟨-, k, hk, hout⟩
        obtain rfl := List.mem_singleton.mp hp
        simp only at hk hout
        omega
      have hkept : kept min max 0 (pointer target bytes).content = [] := by
        simp only [kept, content, hall.1, List.take_zero, Nat.sub_zero, List.nil_append]
        exact List.drop_of_length_le (by simp; omega)
      have hempty : (scalar []).content = kept min max 0 (pointer target bytes).content :=
        hkept.symm
      rw [if_pos hall]
      exact ⟨hnone, hempty⟩
    · have hsplit : Pointer.Split min max ⟨0, target, bytes⟩ := by
        -- The other end of the pointer is not in the range.
        refine ⟨⟨min, by simp only; omega, by simp only; omega⟩, ?_⟩
        rcases hend with hend | hend
        · exact ⟨bytes - 1, by simp only; omega, by simp only; omega⟩
        · exact ⟨0, by simp only; omega, by simp only; omega⟩
      rw [if_neg hall]
      exact ⟨_, List.mem_singleton.mpr rfl, hsplit, rfl⟩
  | record values ih =>
    have hcheck : checkRange min max (sizeList values) = .ok () := checkRange_eq_ok_iff.mpr h
    have hlist := removes_removeList h.1 values 0 (fun v hv min max => ih v hv min max)
      fun q hq => h.part (r := ⟨min, max, .record values⟩) hq
    simp only [outcome, removeRange, hcheck]
    cases hvs : removeList min max 0 values with
    | error e => rwa [hvs] at hlist
    | ok ws => rwa [hvs] at hlist

/-- What is not legal is refused. -/
theorem refused_of_not_legal (r : Removal) (h : ¬ r.Legal) :
    ∃ why, r.outcome = .error (.nonRemovable why) := by
  obtain ⟨min, max, v⟩ := r
  obtain ⟨why, hwhy⟩ := exists_checkRange h
  refine ⟨why, ?_⟩
  cases v <;> simp only [size] at hwhy <;> simp [outcome, removeRange, hwhy, bind, Except.bind]

/-- A removal takes out the bytes that are named, or fails for the reason that is given. -/
structure Exact (r : Removal) : Prop where
  /-- The range has to be legal. -/
  refused : (∃ why, r.outcome = .error (.nonRemovable why)) ↔
    r.min > r.max ∨ r.max ≥ r.value.size ∨ (r.min ≠ 0 ∧ r.max ≠ r.value.size - 1)
  /-- No pointer may be split. -/
  unsupported : r.Legal → ((∃ why, r.outcome = .error (.unsupported why)) ↔ r.Splits)
  removed : r.Legal → ¬ r.Splits → ∃ w, r.outcome = .ok w ∧
    w.content = r.value.content.take r.min ++ r.value.content.drop (r.max + 1) ∧
    w.size = r.value.size - (r.max - r.min + 1)
  /-- A record is done by the calls for its parts, until one fails. -/
  asks : r.Legal → ∀ values, r.value = .record values →
    r.outcome.map (fun _ => ()) = r.parts.forM fun q => q.outcome.map fun _ => ()
  /-- Parts do not refuse what the whole has let through. -/
  nested : r.Legal → ∀ q, r.Nests q → ∀ why, q.outcome ≠ .error (.nonRemovable why)

theorem not_refused {r : Removal} (h : r.Legal) (why : RangeDefect) :
    r.outcome ≠ .error (.nonRemovable why) := by
  intro hout
  have hends := removes_removeRange r h
  rw [hout] at hends
  obtain ⟨p, -, -, he⟩ := hends
  cases he

theorem outcome_record {min max : Nat} {values : List LogicalValue}
    (h : Legal ⟨min, max, .record values⟩) :
    (outcome ⟨min, max, .record values⟩).map (fun _ => ()) =
      (parts ⟨min, max, .record values⟩).forM fun q => q.outcome.map fun _ => () := by
  have hcheck : checkRange min max (sizeList values) = .ok () := checkRange_eq_ok_iff.mpr h
  rw [parts, ← removeList_asked]
  simp only [outcome, removeRange, hcheck]
  cases removeList min max 0 values <;> rfl

/-- Exactly the requested bytes are removed, or the reason why not is the one that is given. -/
theorem removes_exactly (r : Removal) : r.Exact := by
  have hlegal : ¬ r.Legal ↔
      r.min > r.max ∨ r.max ≥ r.value.size ∨ (r.min ≠ 0 ∧ r.max ≠ r.value.size - 1) := by
    unfold Legal
    omega
  refine ⟨?_, fun h => ?_, fun h hsplit => ?_, fun h values hv => ?_,
    fun h q hq why => not_refused (h.nested hq) why⟩
  · rw [← hlegal]
    exact ⟨fun ⟨why, hout⟩ h => not_refused h why hout, r.refused_of_not_legal⟩
  · have hends := removes_removeRange r h
    cases hout : r.outcome with
    | error e =>
      rw [hout] at hends
      obtain ⟨p, hp, hs, rfl⟩ := hends
      exact ⟨fun _ => ⟨p, hp, hs⟩, fun _ => ⟨_, rfl⟩⟩
    | ok w =>
      rw [hout] at hends
      exact ⟨fun ⟨_, he⟩ => (nomatch he), fun ⟨p, hp, hs⟩ => absurd hs (hends.1 p hp)⟩
  · have hends := removes_removeRange r h
    cases hout : r.outcome with
    | error e =>
      rw [hout] at hends
      obtain ⟨p, hp, hs, -⟩ := hends
      exact absurd ⟨p, hp, hs⟩ hsplit
    | ok w =>
      rw [hout] at hends
      refine ⟨w, rfl, hends.2, ?_⟩
      obtain ⟨hle, hmax, -⟩ := h
      rw [← length_content, hends.2, kept, List.length_append, List.length_take, List.length_drop,
        length_content]
      omega
  · obtain ⟨min, max, v⟩ := r
    cases hv
    exact outcome_record h

/-- The range covers a part without bytes and all of a pointer. -/
example : (outcome ⟨1, 5, .record
    [.scalar [1], .record [.scalar [2], .scalar [], .pointer 7 4]]⟩).map content =
      .ok [.byte 1] := by
  rfl

end Removal

end DataflowSynth
