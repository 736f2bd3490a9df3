/-
Cutting a text at the first occurrence of a character.
-/

namespace DataflowSynth

/-- The parts of a list before and after the first `c`, if there is one. -/
def cutList (c : Char) : List Char → Option (List Char × List Char)
  | [] => none
  | d :: ds =>
    if d = c then some ([], ds)
    else (cutList c ds).map fun (before, after) => (d :: before, after)

/-- The parts of a text before and after the first `c`, if there is one. -/
def cut (c : Char) (s : String) : Option (String × String) :=
  (cutList c s.toList).map fun (before, after) => (String.ofList before, String.ofList after)

theorem cutList_eq_some_iff {c : Char} {s before after : List Char} :
    cutList c s = some (before, after) ↔ s = before ++ c :: after ∧ c ∉ before := by
  induction s generalizing before with
  | nil => simp [cutList]
  | cons d ds ih =>
    by_cases h : d = c
    · cases before with
      | nil => simp [cutList, h, eq_comm]
      | cons b bs =>
        simp only [cutList, h, if_true, Option.some.injEq, Prod.mk.injEq, reduceCtorEq, false_and,
          List.cons_append, List.cons.injEq, List.mem_cons, not_or, false_iff]
        exact fun ⟨⟨hb, _⟩, hc, _⟩ => hc hb
    · cases before with
      | nil => simp [cutList, h, Option.map_eq_some_iff]
      | cons b bs =>
        simp only [cutList, h, if_false, Option.map_eq_some_iff, Prod.mk.injEq, List.cons.injEq,
          Prod.exists, List.cons_append, List.mem_cons, not_or]
        constructor
        · rintro ⟨x, y, hxy, ⟨rfl, rfl⟩, rfl⟩
          obtain ⟨rfl, hc⟩ := ih.1 hxy
          exact ⟨⟨rfl, rfl⟩, fun e => h e.symm, hc⟩
        · rintro ⟨⟨rfl, rfl⟩, _, hc⟩
          exact ⟨bs, after, ih.2 ⟨rfl, hc⟩, ⟨rfl, rfl⟩, rfl⟩

end DataflowSynth
