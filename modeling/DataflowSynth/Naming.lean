/-
A supply of names.

Every component gets a name that no other has.  The first request for a stem gives the stem
itself; later requests append a number, counting on from the last number tried for that stem
and stepping over names that are taken.
-/
import Std.Data.HashMap
import Std.Data.HashSet

namespace DataflowSynth

/-- The names given out or set aside, and for each stem the next number to try. -/
structure NameSupply where
  taken : Std.HashSet String := {}
  counters : Std.HashMap String Nat := {}

namespace NameSupply

instance : Inhabited NameSupply := ⟨{}⟩

/-- The stem with a number behind it. -/
def numbered (stem : String) (n : Nat) : String := stem ++ Nat.repr n

/-- Sets `names` aside, so that none of them is ever given out. -/
def reserve (s : NameSupply) (names : List String) : NameSupply :=
  { s with taken := s.taken.insertMany names }

/-- The least number from `n` on that gives an untaken name, looking at `bound` numbers at most.
Different numbers give different names, so looking at as many numbers as there are taken names
is always enough. -/
def firstFree (taken : Std.HashSet String) (stem : String) : (bound n : Nat) → Nat
  | 0, n => n
  | bound + 1, n =>
    if taken.contains (numbered stem n) then firstFree taken stem bound (n + 1) else n

/-- A name made from `stem` that was never given out or set aside, and the supply without it. -/
def fresh (s : NameSupply) (stem : String) : String × NameSupply :=
  if s.taken.contains stem then
    let n := firstFree s.taken stem s.taken.size (s.counters.getD stem 0)
    let name := numbered stem n
    (name, { taken := s.taken.insert name, counters := s.counters.insert stem (n + 1) })
  else (stem, { s with taken := s.taken.insert stem })

/-- The search stops before its bound only at an untaken name. -/
theorem firstFree_free {taken : Std.HashSet String} {stem : String} {bound n : Nat}
    (h : firstFree taken stem bound n < n + bound) :
    taken.contains (numbered stem (firstFree taken stem bound n)) = false := by
  induction bound generalizing n with
  | zero => simp [firstFree] at h
  | succ b ih =>
    simp only [firstFree] at h ⊢
    split
    · next hc =>
      rw [if_pos hc] at h
      exact ih (by omega)
    · next hc => simpa using hc

/-- Every number the search passes over gives a taken name. -/
theorem taken_of_lt_firstFree {taken : Std.HashSet String} {stem : String} {bound n i : Nat}
    (hn : n ≤ i) (hi : i < firstFree taken stem bound n) :
    taken.contains (numbered stem i) = true := by
  induction bound generalizing n with
  | zero => simp [firstFree] at hi; omega
  | succ b ih =>
    simp only [firstFree] at hi
    split at hi
    · next hc =>
      rcases Nat.eq_or_lt_of_le hn with rfl | hlt
      · exact hc
      · exact ih hlt hi
    · omega

end NameSupply

end DataflowSynth
