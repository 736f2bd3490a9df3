/-
Handles and arenas.

An arena only ever grows: what is stored keeps its place, and a handle is that place together
with the kind of thing stored there.  A handle is written as the mark of its kind followed by
its number, so that `c3` is the fourth component and `p7` the eighth port.
-/
namespace DataflowSynth

/-- A family of handles: the mark its texts start with, and the name the family goes by. -/
structure HandleKind where
  mark : String
  label : String
  deriving DecidableEq

namespace HandleKind

def component : HandleKind := ⟨"c", "ComponentIdx"⟩
def port : HandleKind := ⟨"p", "PortIdx"⟩
def bus : HandleKind := ⟨"b", "BusIdx"⟩
def exit : HandleKind := ⟨"x", "ExitIdx"⟩
def entry : HandleKind := ⟨"e", "EntryIdx"⟩
def pin : HandleKind := ⟨"pin", "PinIdx"⟩
def task : HandleKind := ⟨"t", "TaskIdx"⟩
def fifo : HandleKind := ⟨"fifo", "FifoIdx"⟩

end HandleKind

/-- The place of a thing of kind `k` in its arena. -/
structure Handle (k : HandleKind) where
  index : Nat
  deriving DecidableEq, Hashable

abbrev ComponentId := Handle .component
abbrev PortId := Handle .port
abbrev BusId := Handle .bus
abbrev ExitId := Handle .exit
abbrev EntryId := Handle .entry
abbrev PinId := Handle .pin
abbrev TaskId := Handle .task
abbrev FifoId := Handle .fifo

namespace Handle

variable {k : HandleKind}

instance : Inhabited (Handle k) := ⟨⟨0⟩⟩
instance : LawfulBEq (Handle k) := inferInstance

/-- Handles are numbered with 32 bits.  Numbers that come from outside are checked against that.  Arenas
are not: nothing holds so many things. -/
def limit : Nat := UInt32.size

/-- The handle with number `n`, if that number can be a handle. -/
def ofNat? (n : Nat) : Option (Handle k) :=
  if n < limit then some ⟨n⟩ else none

def text (h : Handle k) : String := k.mark ++ Nat.repr h.index

end Handle

/-- Append-only storage of things of type `α`, addressed by handles of kind `k`. -/
structure Arena (k : HandleKind) (α : Type) where
  cells : Array α := #[]

namespace Arena

variable {k : HandleKind} {α : Type}

instance : EmptyCollection (Arena k α) := ⟨⟨#[]⟩⟩
instance : Inhabited (Arena k α) := ⟨⟨#[]⟩⟩

def size (a : Arena k α) : Nat := a.cells.size

def isEmpty (a : Arena k α) : Bool := a.cells.isEmpty

/-- The handle that the next `push` gives out. -/
def next (a : Arena k α) : Handle k := ⟨a.cells.size⟩

def contains (a : Arena k α) (h : Handle k) : Bool := h.index < a.cells.size

def get? (a : Arena k α) (h : Handle k) : Option α := a.cells[h.index]?

def push (a : Arena k α) (x : α) : Arena k α := ⟨a.cells.push x⟩

/-- Changes what `h` stands for; nothing happens when `h` stands for nothing. -/
def modify (a : Arena k α) (h : Handle k) (f : α → α) : Arena k α := ⟨a.cells.modify h.index f⟩

def handles (a : Arena k α) : List (Handle k) := (List.range a.size).map Handle.mk

def values (a : Arena k α) : List α := a.cells.toList

/-- The stored things with their handles, in the order they were stored. -/
def toList (a : Arena k α) : List (Handle k × α) := a.handles.zip a.values

@[simp] theorem size_push (a : Arena k α) (x : α) : (a.push x).size = a.size + 1 := by
  simp [push, size]

@[simp] theorem get?_push_next (a : Arena k α) (x : α) : (a.push x).get? a.next = some x := by
  simp [push, get?, next]

theorem get?_push_of_contains {a : Arena k α} {h : Handle k} (hc : a.contains h) (x : α) :
    (a.push x).get? h = a.get? h := by
  have hlt : h.index < a.cells.size := by simpa [contains] using hc
  simp [push, get?, Array.getElem?_push, Nat.ne_of_lt hlt]

@[simp] theorem size_modify (a : Arena k α) (h : Handle k) (f : α → α) :
    (a.modify h f).size = a.size := by
  simp [modify, size]

theorem get?_modify_self (a : Arena k α) (h : Handle k) (f : α → α) :
    (a.modify h f).get? h = (a.get? h).map f := by
  simp [modify, get?, Array.getElem?_modify]

theorem get?_modify_of_ne (a : Arena k α) {h h' : Handle k} (hne : h ≠ h') (f : α → α) :
    (a.modify h f).get? h' = a.get? h' := by
  have : h.index ≠ h'.index := fun e => hne (by cases h; cases h'; simp_all)
  simp [modify, get?, Array.getElem?_modify, this]

end Arena

end DataflowSynth
