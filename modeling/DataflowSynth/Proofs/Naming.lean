/-
What a supply of names gives out.

The search behind a stem has no bound of its own: numbers are tried until one gives a name that is not
taken.  It ends because different numbers give different names, so that fewer numbers can be tried in
vain than there are names that are taken; the bound that `fresh` works with is never what stops it.

Along a history of requests, the numbers that were tried for a stem are those below its counter, and
each of them gives a name in use.  Therefore the next number to be given out is the least one that was
not tried before and gives an unused name, whatever other stems and names set aside look like.
-/
import DataflowSynth.Naming
import Mathlib.Data.List.Induction
import Mathlib.Data.List.Nodup
import Mathlib.Data.List.Perm.Subperm
import Mathlib.Order.Bounds.Basic
import Std.Data.String.ToNat

namespace DataflowSynth.NameSupply

variable {s t : NameSupply} {stem name : String} {taken : Std.HashSet String} {bound k m n : Nat}

theorem numbered_inj : numbered stem m = numbered stem n ↔ m = n := by
  rw [numbered, numbered, String.append_right_inj, Nat.repr_inj]

theorem numbered_ne : numbered stem n ≠ stem := by
  intro h
  have hempty : (Nat.repr n).toList = [] := by
    rw [String.append_eq_left_iff.mp h]
    rfl
  rw [Nat.toList_repr] at hempty
  exact Nat.toDigits_ne_nil hempty

/-- Where a stem and `k` numbers behind it are in use, there are more than `k` names. -/
theorem lt_length_of_numbered {names : List String} (hstem : stem ∈ names)
    (hnames : ∀ i < k, numbered stem (n + i) ∈ names) : k < names.length := by
  let tried := (List.range k).map fun i => numbered stem (n + i)
  have hnodup : (stem :: tried).Nodup := by
    refine List.nodup_cons.mpr ⟨fun hmem => ?_, List.nodup_range.map fun i j hij => ?_⟩
    · obtain ⟨i, -, hi⟩ := List.mem_map.mp hmem
      exact numbered_ne hi
    · exact Nat.add_left_cancel (numbered_inj.mp hij)
  have hsub : stem :: tried ⊆ names := by
    refine List.cons_subset.mpr ⟨hstem, fun name hname => ?_⟩
    obtain ⟨i, hi, rfl⟩ := List.mem_map.mp hname
    exact hnames i (List.mem_range.mp hi)
  have hlength := (hnodup.subperm hsub).length_le
  rwa [List.length_cons, List.length_map, List.length_range] at hlength

/-! ### The bounded search -/

theorem firstFree_le : firstFree taken stem bound n ≤ n + bound := by
  induction bound generalizing n with
  | zero => exact Nat.le_refl _
  | succ bound ih =>
      rw [firstFree]
      split
      · have hle := ih (n := n + 1)
        omega
      · omega

theorem le_firstFree : n ≤ firstFree taken stem bound n := by
  induction bound generalizing n with
  | zero => exact Nat.le_refl _
  | succ bound ih =>
      rw [firstFree]
      split
      · exact Nat.le_of_succ_le ih
      · exact Nat.le_refl _

/-- If a stem is taken, fewer numbered names are taken than there are names that are taken. -/
theorem firstFree_lt (h : taken.contains stem = true) :
    firstFree taken stem taken.size n < n + taken.size := by
  refine Nat.lt_of_le_of_ne firstFree_le fun hend => ?_
  have hmem : ∀ {name}, taken.contains name = true → name ∈ taken.toList := fun hname => by
    rwa [Std.HashSet.mem_toList, ← Std.HashSet.contains_iff_mem]
  have hlength : taken.size < taken.toList.length :=
    lt_length_of_numbered (n := n) (hmem h) fun i hi =>
      hmem (taken_of_lt_firstFree (Nat.le_add_right n i) (hend ▸ Nat.add_lt_add_left hi n))
  rw [Std.HashSet.length_toList] at hlength
  exact Nat.lt_irrefl _ hlength

/-! ### The search without a bound -/

/-- Numbers are tried behind a stem, from `n` on, until `m` gives a name that is not taken. -/
inductive Search (taken : Std.HashSet String) (stem : String) :
    (n : Nat) → (tried : List Nat) → (m : Nat) → Prop where
  | found {n : Nat} (free : taken.contains (numbered stem n) = false) : Search taken stem n [n] n
  | again {n m : Nat} {tried : List Nat} (used : taken.contains (numbered stem n) = true)
      (rest : Search taken stem (n + 1) tried m) : Search taken stem n (n :: tried) m

namespace Search

variable {tried tried' : List Nat} {m' : Nat}

theorem free (h : Search taken stem n tried m) : taken.contains (numbered stem m) = false := by
  induction h with
  | found free => exact free
  | again _ _ ih => exact ih

theorem le (h : Search taken stem n tried m) : n ≤ m := by
  induction h with
  | found => exact Nat.le_refl _
  | again _ _ ih => exact Nat.le_of_succ_le ih

theorem mem_iff (h : Search taken stem n tried m) : k ∈ tried ↔ n ≤ k ∧ k ≤ m := by
  induction h with
  | found =>
      rw [List.mem_singleton]
      omega
  | again _ rest ih =>
      have hle := rest.le
      rw [List.mem_cons, ih]
      omega

theorem used (h : Search taken stem n tried m) (hn : n ≤ k) (hm : k < m) :
    taken.contains (numbered stem k) = true := by
  induction h with
  | found => omega
  | again used _ ih =>
      rcases Nat.eq_or_lt_of_le hn with rfl | hlt
      · exact used
      · exact ih hlt hm

/-- There is one way for a search to end. -/
theorem unique (h : Search taken stem n tried m) (h' : Search taken stem n tried' m') :
    tried = tried' ∧ m = m' := by
  induction h generalizing tried' with
  | found free =>
      cases h' with
      | found => exact ⟨rfl, rfl⟩
      | again used => simp [free] at used
  | again used _ ih =>
      cases h' with
      | found free => simp [used] at free
      | again _ rest' =>
          obtain ⟨rfl, rfl⟩ := ih rest'
          exact ⟨rfl, rfl⟩

/-- A search that passes over taken names only comes to the first free one. -/
theorem exists_of_free (hle : n ≤ m)
    (hused : ∀ i, n ≤ i → i < m → taken.contains (numbered stem i) = true)
    (hfree : taken.contains (numbered stem m) = false) : ∃ tried, Search taken stem n tried m := by
  obtain ⟨d, rfl⟩ := Nat.exists_eq_add_of_le hle
  clear hle
  induction d generalizing n with
  | zero => exact ⟨[n], .found hfree⟩
  | succ d ih =>
      rw [← Nat.add_assoc, Nat.add_right_comm] at hused hfree ⊢
      obtain ⟨tried, hrest⟩ := ih (fun i hi hd => hused i (Nat.le_of_succ_le hi) hd) hfree
      exact ⟨n :: tried, .again (hused n (Nat.le_refl n) (by omega)) hrest⟩

end Search

/-- Behind a stem that is taken, the search ends, and the bounded search ends where it does. -/
theorem search_firstFree (h : taken.contains stem = true) (n : Nat) :
    ∃ tried, Search taken stem n tried (firstFree taken stem taken.size n) :=
  Search.exists_of_free le_firstFree (fun _ hn hi => taken_of_lt_firstFree hn hi)
    (firstFree_free (firstFree_lt h))

/-! ### Requests and how they are met -/

/-- What a supply can be asked for. -/
inductive Request where
  | reserve (names : List String)
  | fresh (stem : String)

/-- What came of a request. -/
inductive Deed where
  | reserved (names : List String)
  /-- A name was given out for `stem`; before, these numbers were tried behind it. -/
  | gave (stem : String) (tried : List Nat) (name : String)

/-- How a request is met.  A stem that is not taken is given out itself; behind one that is, numbers are
tried from where the last search for it ended, and nothing bounds how many. -/
inductive Meets (s : NameSupply) : Request → Deed → NameSupply → Prop where
  | reserve (names : List String) :
      Meets s (.reserve names) (.reserved names) { s with taken := s.taken.insertMany names }
  | stem {stem : String} (free : s.taken.contains stem = false) :
      Meets s (.fresh stem) (.gave stem [] stem) { s with taken := s.taken.insert stem }
  | number {stem : String} {tried : List Nat} {n : Nat} (used : s.taken.contains stem = true)
      (search : Search s.taken stem (s.counters.getD stem 0) tried n) :
      Meets s (.fresh stem) (.gave stem tried (numbered stem n))
        { taken := s.taken.insert (numbered stem n), counters := s.counters.insert stem (n + 1) }

/-- The supply after a request. -/
def answer (s : NameSupply) : Request → NameSupply
  | .reserve names => s.reserve names
  | .fresh stem => (s.fresh stem).2

/-- The supply after requests to a new one. -/
def after (requests : List Request) : NameSupply := requests.foldl answer {}

/-- A request for a name can be met, in one way only, and `fresh` does that. -/
theorem meets_fresh (s : NameSupply) (stem : String) : ∃ tried, ∀ d t,
    s.Meets (.fresh stem) d t ↔ d = .gave stem tried (s.fresh stem).1 ∧ t = (s.fresh stem).2 := by
  cases hstem : s.taken.contains stem with
  | false =>
      refine ⟨[], fun d t => ⟨fun h => ?_, ?_⟩⟩
      · cases h with
        | stem => simp [fresh, hstem]
        | number used => simp [hstem] at used
      · rintro ⟨rfl, rfl⟩
        simpa [fresh, hstem] using Meets.stem hstem
  | true =>
      obtain ⟨tried, hsearch⟩ := search_firstFree hstem (s.counters.getD stem 0)
      refine ⟨tried, fun d t => ⟨fun h => ?_, ?_⟩⟩
      · cases h with
        | stem free => simp [hstem] at free
        | number _ search =>
            obtain ⟨rfl, rfl⟩ := hsearch.unique search
            simp [fresh, hstem]
      · rintro ⟨rfl, rfl⟩
        simpa [fresh, hstem] using Meets.number hstem hsearch

theorem Meets.eq_answer {r : Request} {d : Deed} (h : s.Meets r d t) : t = s.answer r := by
  cases r with
  | reserve names =>
      cases h
      rfl
  | fresh stem =>
      obtain ⟨tried, hmeets⟩ := s.meets_fresh stem
      exact ((hmeets d t).mp h).2

theorem exists_meets (s : NameSupply) (r : Request) : ∃ d, s.Meets r d (s.answer r) := by
  cases r with
  | reserve names => exact ⟨_, .reserve names⟩
  | fresh stem =>
      obtain ⟨tried, hmeets⟩ := s.meets_fresh stem
      exact ⟨_, (hmeets _ _).mpr ⟨rfl, rfl⟩⟩

/-! ### Histories -/

/-- Requests to a new supply that are met one after another, with what came of them. -/
inductive History : List Request → List Deed → NameSupply → Prop where
  | new : History [] [] {}
  | next {requests : List Request} {deeds : List Deed} {s t : NameSupply} {r : Request} {d : Deed}
      (before : History requests deeds s) (meets : s.Meets r d t) :
      History (requests ++ [r]) (deeds ++ [d]) t

/-- All requests can be met, whatever they are. -/
theorem exists_history (requests : List Request) :
    ∃ deeds, History requests deeds (after requests) := by
  induction requests using List.reverseRecOn with
  | nil => exact ⟨[], .new⟩
  | append_singleton requests r ih =>
      obtain ⟨deeds, hbefore⟩ := ih
      obtain ⟨d, hmeets⟩ := (after requests).exists_meets r
      refine ⟨deeds ++ [d], ?_⟩
      rw [after, List.foldl_concat]
      exact .next hbefore hmeets

variable {requests : List Request} {deeds : List Deed}

theorem History.eq_after (h : History requests deeds s) : s = after requests := by
  induction h with
  | new => rfl
  | next _ meets ih =>
      rw [meets.eq_answer, ih, after, after, List.foldl_concat]

namespace Deed

/-- The names that are in use because of it. -/
def names : Deed → List String
  | .reserved names => names
  | .gave _ _ name => [name]

/-- The name that was given out. -/
def given? : Deed → Option String
  | .reserved _ => none
  | .gave _ _ name => some name

/-- The numbers that were tried behind a stem. -/
def triedFor (stem : String) : Deed → List Nat
  | .reserved _ => []
  | .gave other tried _ => if other = stem then tried else []

end Deed

/-- The names that were set aside or given out. -/
def used (deeds : List Deed) : List String := deeds.flatMap Deed.names

/-- The names that were given out, in their order. -/
def given (deeds : List Deed) : List String := deeds.filterMap Deed.given?

/-- The numbers that were tried behind a stem, by all requests together. -/
def triedFor (stem : String) (deeds : List Deed) : List Nat := deeds.flatMap (Deed.triedFor stem)

theorem mem_used_concat {d : Deed} :
    name ∈ used (deeds ++ [d]) ↔ name ∈ used deeds ∨ name ∈ d.names := by
  simp [used]

theorem mem_triedFor_concat {d : Deed} :
    k ∈ triedFor stem (deeds ++ [d]) ↔ k ∈ triedFor stem deeds ∨ k ∈ d.triedFor stem := by
  simp [triedFor]

theorem given_concat (deeds : List Deed) (d : Deed) :
    given (deeds ++ [d]) = given deeds ++ d.given?.toList := by
  cases d <;> simp [given, Deed.given?, List.filterMap_cons]

theorem mem_used_of_given (h : name ∈ given deeds) : name ∈ used deeds := by
  obtain ⟨d, hd, hgiven⟩ := List.mem_filterMap.mp h
  refine List.mem_flatMap.mpr ⟨d, hd, ?_⟩
  cases d with
  | reserved => cases hgiven
  | gave stem tried given =>
      cases hgiven
      exact List.mem_singleton_self name

/-- What a supply knows of what was done. -/
structure Records (s : NameSupply) (deeds : List Deed) : Prop where
  taken : ∀ name, s.taken.contains name = true ↔ name ∈ used deeds
  tried : ∀ stem k, k ∈ triedFor stem deeds ↔ k < s.counters.getD stem 0
  spent : ∀ stem, ∀ k ∈ triedFor stem deeds, numbered stem k ∈ used deeds

theorem Records.concat (hs : s.Records deeds) {d : Deed}
    (htaken : ∀ name, t.taken.contains name = true ↔ s.taken.contains name = true ∨ name ∈ d.names)
    (htried : ∀ stem k, k < t.counters.getD stem 0 ↔ k < s.counters.getD stem 0 ∨ k ∈ d.triedFor stem)
    (hspent : ∀ stem, ∀ k ∈ d.triedFor stem, t.taken.contains (numbered stem k) = true) :
    t.Records (deeds ++ [d]) := by
  have hused : ∀ name, t.taken.contains name = true ↔ name ∈ used (deeds ++ [d]) := fun name => by
    rw [htaken, hs.taken, mem_used_concat]
  refine ⟨hused, fun stem k => ?_, fun stem k hk => ?_⟩
  · rw [mem_triedFor_concat, htried, hs.tried]
  · rcases mem_triedFor_concat.mp hk with hk | hk
    · exact mem_used_concat.mpr (.inl (hs.spent stem k hk))
    · exact (hused _).mp (hspent stem k hk)

theorem contains_insert_iff {taken : Std.HashSet String} {given : String} :
    (taken.insert given).contains name = true ↔ taken.contains name = true ∨ name ∈ [given] := by
  rw [Std.HashSet.contains_insert, Bool.or_eq_true, beq_iff_eq, List.mem_singleton, eq_comm, or_comm]

/-- Each request is recorded as it is met. -/
theorem Meets.records {r : Request} {d : Deed} (h : s.Meets r d t) (hs : s.Records deeds) :
    t.Records (deeds ++ [d]) := by
  cases h with
  | reserve names =>
      exact hs.concat (by simp [Deed.names]) (by simp [Deed.triedFor]) (by simp [Deed.triedFor])
  | stem free =>
      exact hs.concat (fun _ => contains_insert_iff) (by simp [Deed.triedFor]) (by simp [Deed.triedFor])
  | @number stem tried n used search =>
      refine hs.concat (fun _ => contains_insert_iff) (fun other k => ?_) fun other k hk => ?_
      · have hle := search.le
        rw [Std.HashMap.getD_insert, Deed.triedFor]
        by_cases hother : stem = other
        · subst hother
          simp only [if_true, search.mem_iff, beq_self_eq_true]
          omega
        · simp [hother]
      · rw [Deed.triedFor] at hk
        split at hk
        · next hother =>
          subst hother
          obtain ⟨hfrom, hto⟩ := search.mem_iff.mp hk
          rcases Nat.eq_or_lt_of_le hto with rfl | hlt
          · exact contains_insert_iff.mpr (.inr (List.mem_singleton_self _))
          · exact contains_insert_iff.mpr (.inl (search.used hfrom hlt))
        · simp at hk

theorem History.records (h : History requests deeds s) : s.Records deeds := by
  induction h with
  | new => exact ⟨by simp [used], by simp [triedFor], by simp [triedFor]⟩
  | next _ meets ih => exact meets.records ih

/-! ### Names that are given out -/

/-- What is promised of a name for `stem` that is given out after `deeds`, when these numbers were
tried for it. -/
structure Fresh (deeds : List Deed) (stem : String) (tried : List Nat) (name : String) : Prop where
  new : name ∉ used deeds
  /-- The stem itself is given out as long as it is not in use. -/
  bare : stem ∉ used deeds → name = stem
  number : stem ∈ used deeds → ∃ n, name = numbered stem n ∧
    IsLeast {n | (∀ k ∈ triedFor stem deeds, k ≤ n) ∧ numbered stem n ∉ used deeds} n
  /-- The numbers that are tried are smaller than the number of names in use. -/
  bounded : ∀ k ∈ tried, k < (used deeds).length

theorem Records.fresh (hs : s.Records deeds) {r : Request} {tried : List Nat}
    (h : s.Meets r (.gave stem tried name) t) : Fresh deeds stem tried name := by
  have hunused : ∀ {name}, s.taken.contains name = false → name ∉ used deeds := by
    intro name hname hmem
    rw [(hs.taken name).mpr hmem] at hname
    cases hname
  cases h with
  | stem free =>
      have hnew := hunused free
      exact ⟨hnew, fun _ => rfl, fun hmem => absurd hmem hnew, by simp⟩
  | @number _ _ n taken search =>
      have hstem := (hs.taken stem).mp taken
      have hnew := hunused search.free
      -- Below the number that is found, all were tried before or are passed over now.
      have hbelow : ∀ i < n, numbered stem i ∈ used deeds := by
        intro i hi
        rcases Nat.lt_or_ge i (s.counters.getD stem 0) with hlt | hge
        · exact hs.spent stem i ((hs.tried stem i).mpr hlt)
        · exact (hs.taken _).mp (search.used hge hi)
      refine ⟨hnew, fun hmem => absurd hstem hmem, fun _ => ⟨n, rfl, ⟨fun k hk => ?_, hnew⟩, ?_⟩, ?_⟩
      · exact Nat.le_trans (Nat.le_of_lt ((hs.tried stem k).mp hk)) search.le
      · rintro i ⟨-, hi⟩
        exact Nat.le_of_not_lt fun hlt => hi (hbelow i hlt)
      · intro k hk
        have hlength : n < (used deeds).length :=
          lt_length_of_numbered (n := 0) hstem fun i hi => by simpa using hbelow i hi
        exact Nat.lt_of_le_of_lt (search.mem_iff.mp hk).2 hlength

/-- No name is given out twice. -/
theorem History.nodup_given (h : History requests deeds s) : (given deeds).Nodup := by
  induction h with
  | new => exact List.nodup_nil
  | @next _ _ _ _ _ d before meets ih =>
      rw [given_concat]
      cases d with
      | reserved names => simpa [Deed.given?] using ih
      | gave stem tried name =>
          have hnew := (before.records.fresh meets).new
          exact List.concat_eq_append ▸ ih.concat fun hmem => hnew (mem_used_of_given hmem)

end DataflowSynth.NameSupply
