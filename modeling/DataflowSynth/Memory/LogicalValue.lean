/-
Initial contents of memories.

A value is a tree of records over scalars and pointers, measured in bytes.  Bytes can be taken
from its start or its end.  A scalar gives up any of its bytes, a pointer only all of them.
-/
import DataflowSynth.Error

namespace DataflowSynth

/-- Contents of a region of memory. -/
inductive LogicalValue where
  | scalar (bytes : List UInt8)
  | record (values : List LogicalValue)
  /-- The address of an object in memory `target`. -/
  | pointer (target : UInt32) (bytes : Nat)

namespace LogicalValue

instance : Inhabited LogicalValue := ⟨.scalar []⟩

/-- Size in bytes. -/
def size : LogicalValue → Nat
  | .scalar bytes => bytes.length
  | .record values => sizeList values
  | .pointer _ bytes => bytes
where
  sizeList : List LogicalValue → Nat
    | [] => 0
    | v :: vs => size v + sizeList vs

/-- Whether bytes `min` to `max` are a legal range to take out of `size` bytes: inside, and at
one of the two ends. -/
def checkRange (min max size : Nat) : Except Error Unit :=
  if min > max ∨ max ≥ size then .error (.nonRemovable (.outOfBounds min max size))
  else if min ≠ 0 ∧ max ≠ size - 1 then .error (.nonRemovable (.interior min max size))
  else .ok ()

/-- The value without its bytes `min` to `max`.  Parts of a record that lose all their bytes are
dropped; parts that had none stay. -/
def removeRange (min max : Nat) : LogicalValue → Except Error LogicalValue
  | .scalar bytes => do
    checkRange min max bytes.length
    return .scalar (if min = 0 then bytes.drop (max + 1) else bytes.take min)
  | .pointer target bytes => do
    checkRange min max bytes
    if min = 0 ∧ max = bytes - 1 then return .scalar []
    else .error (.unsupported (.partOfPointer target))
  | .record values => do
    checkRange min max (size.sizeList values)
    return .record (← removeList min max 0 values)
where
  /-- The parts of a record that starts at `offset`. -/
  removeList (min max : Nat) : (offset : Nat) → List LogicalValue → Except Error (List LogicalValue)
    | _, [] => .ok []
    | offset, v :: vs =>
      let next := offset + size v
      if size v = 0 ∨ next ≤ min ∨ offset > max then do
        return v :: (← removeList min max next vs)
      else do
        let rest ← removeRange (Nat.max min offset - offset) (Nat.min max (next - 1) - offset) v
        let vs ← removeList min max next vs
        return if rest.size > 0 then rest :: vs else vs

end LogicalValue

end DataflowSynth
