/-
Maps that remember the order of their keys.

Everything a design lists (exits of a component, registers, clock domains, tasks of actions)
is listed in the order in which it was first named.  There are two ways to add to such a map:
`put` replaces the value and moves the key to the end, `alter` changes the value of a key that is
already there in its place.
-/

namespace DataflowSynth

/-- A finite map whose keys stand in a definite order. -/
structure OrderedMap (κ α : Type) where
  entries : List (κ × α) := []

namespace OrderedMap

variable {κ α : Type} [DecidableEq κ]

instance : EmptyCollection (OrderedMap κ α) := ⟨⟨[]⟩⟩
instance : Inhabited (OrderedMap κ α) := ⟨⟨[]⟩⟩

def keys (m : OrderedMap κ α) : List κ := m.entries.map Prod.fst

def values (m : OrderedMap κ α) : List α := m.entries.map Prod.snd

def size (m : OrderedMap κ α) : Nat := m.entries.length

def isEmpty (m : OrderedMap κ α) : Bool := m.entries.isEmpty

def find? (m : OrderedMap κ α) (k : κ) : Option α :=
  (m.entries.find? fun e => e.1 = k).map Prod.snd

def contains (m : OrderedMap κ α) (k : κ) : Bool := (m.find? k).isSome

def erase (m : OrderedMap κ α) (k : κ) : OrderedMap κ α :=
  ⟨m.entries.filter fun e => e.1 ≠ k⟩

/-- Gives `k` the value `x` and makes it the last key. -/
def put (m : OrderedMap κ α) (k : κ) (x : α) : OrderedMap κ α :=
  ⟨(m.erase k).entries ++ [(k, x)]⟩

/-- Changes the value of `k` in its place, or adds `k` at the end with `f none`. -/
def alter (m : OrderedMap κ α) (k : κ) (f : Option α → α) : OrderedMap κ α :=
  if m.contains k then ⟨m.entries.map fun e => if e.1 = k then (k, f (some e.2)) else e⟩
  else ⟨m.entries ++ [(k, f none)]⟩

def ofList (es : List (κ × α)) : OrderedMap κ α :=
  es.foldl (fun m (e : κ × α) => m.put e.1 e.2) ∅

@[simp] theorem find?_empty (k : κ) : (∅ : OrderedMap κ α).find? k = none := rfl

theorem find?_erase_self (m : OrderedMap κ α) (k : κ) : (m.erase k).find? k = none := by
  simp [erase, find?, List.find?_filter]

theorem find?_erase_of_ne (m : OrderedMap κ α) {k k' : κ} (h : k' ≠ k) :
    (m.erase k).find? k' = m.find? k' := by
  simp only [erase, find?, List.find?_filter]
  congr 2
  funext e
  by_cases he : e.1 = k' <;> simp [he, h]

@[simp] theorem find?_put_self (m : OrderedMap κ α) (k : κ) (x : α) :
    (m.put k x).find? k = some x := by
  have h := find?_erase_self m k
  simp only [find?, Option.map_eq_none_iff] at h
  simp [put, find?, List.find?_append, h]

theorem find?_put_of_ne (m : OrderedMap κ α) {k k' : κ} (h : k' ≠ k) (x : α) :
    (m.put k x).find? k' = m.find? k' := by
  rw [← find?_erase_of_ne m h]
  simp [put, find?, List.find?_append, Ne.symm h]

theorem keys_put (m : OrderedMap κ α) (k : κ) (x : α) :
    (m.put k x).keys = m.keys.filter (· ≠ k) ++ [k] := by
  simp [put, erase, keys, List.filter_map, Function.comp_def]

end OrderedMap

end DataflowSynth
