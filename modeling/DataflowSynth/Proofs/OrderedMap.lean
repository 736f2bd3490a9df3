/-
What is in an ordered map after it has changed, and after values have been gathered in it.
-/
import DataflowSynth.OrderedMap
import Mathlib.Data.List.Induction
import Mathlib.Data.List.Nodup

namespace DataflowSynth

/-! ### First occurrences -/

theorem eraseDups_concat {α : Type} [BEq α] [LawfulBEq α] (as : List α) (a : α) :
    (as ++ [a]).eraseDups = as.eraseDups ++ if a ∈ as then [] else [a] := by
  rw [List.eraseDups_append]
  by_cases ha : a ∈ as <;> simp [List.removeAll, ha, List.eraseDups_cons]

theorem nodup_eraseDups {α : Type} [BEq α] [LawfulBEq α] (as : List α) : as.eraseDups.Nodup := by
  induction as using List.reverseRecOn with
  | nil => simp
  | append_singleton as a ih =>
      rw [eraseDups_concat]
      split
      · simpa using ih
      · next ha =>
        refine List.nodup_append.mpr ⟨ih, by simp, ?_⟩
        rintro b hb c hc rfl
        obtain rfl := List.mem_singleton.mp hc
        exact ha (List.mem_eraseDups.mp hb)

/-- What tells the elements of a list apart has its first occurrences where they have theirs. -/
theorem eraseDups_map {α β : Type} [BEq α] [LawfulBEq α] [BEq β] [LawfulBEq β] {f : α → β}
    {as : List α} (hf : ∀ a ∈ as, ∀ b ∈ as, f a = f b → a = b) :
    (as.map f).eraseDups = as.eraseDups.map f := by
  induction as using List.reverseRecOn with
  | nil => simp
  | append_singleton as a ih =>
      have hmem : f a ∈ as.map f ↔ a ∈ as := by
        refine ⟨fun h => ?_, List.mem_map_of_mem⟩
        obtain ⟨b, hb, heq⟩ := List.mem_map.mp h
        exact hf b (by simp [hb]) a (by simp) heq ▸ hb
      rw [List.map_append, List.map_singleton, eraseDups_concat, eraseDups_concat,
        ih fun b hb c hc => hf b (by simp [hb]) c (by simp [hc]), List.map_append]
      by_cases ha : a ∈ as <;> simp [ha, hmem.mpr, hmem]

namespace OrderedMap

variable {κ α : Type} {m : OrderedMap κ α} {k : κ} {x : α}

@[simp] theorem entries_empty : (∅ : OrderedMap κ α).entries = [] := rfl

@[simp] theorem values_empty : (∅ : OrderedMap κ α).values = [] := rfl

@[simp] theorem keys_empty : (∅ : OrderedMap κ α).keys = [] := rfl

theorem mem_values {y : α} : y ∈ m.values ↔ ∃ e ∈ m.entries, e.2 = y := List.mem_map

theorem mem_values_singleton (h : m.entries = [(k, x)]) : x ∈ m.values :=
  mem_values.mpr ⟨(k, x), by simp [h], rfl⟩

variable [DecidableEq κ]

theorem mem_entries_put {e : κ × α} (h : e ∈ (m.put k x).entries) :
    e ∈ m.entries ∨ e = (k, x) := by
  simp only [put, erase, List.mem_append, List.mem_filter, List.mem_singleton] at h
  exact h.imp And.left id

theorem contains_iff : m.contains k = true ↔ k ∈ m.keys := by
  simp only [contains, find?, Option.isSome_map, List.find?_isSome, keys, List.mem_map,
    decide_eq_true_eq]

theorem entries_put_of_new (h : m.contains k = false) :
    (m.put k x).entries = m.entries ++ [(k, x)] := by
  have hne : ∀ e ∈ m.entries, e.1 ≠ k := by
    rintro e he rfl
    rw [contains_iff.mpr (List.mem_map_of_mem he)] at h
    cases h
  simpa [put, erase] using hne

theorem put_of_new (h : m.contains k = false) : m.put k x = ⟨m.entries ++ [(k, x)]⟩ :=
  congrArg OrderedMap.mk (entries_put_of_new h)

theorem mem_entries_erase {e : κ × α} (h : e ∈ (m.erase k).entries) : e ∈ m.entries :=
  (List.mem_filter.mp h).1

theorem mem_values_put {y : α} (h : y ∈ (m.put k x).values) : y ∈ m.values ∨ y = x := by
  obtain ⟨e, he, rfl⟩ := mem_values.mp h
  rcases mem_entries_put he with he | rfl
  · exact .inl (mem_values.mpr ⟨e, he, rfl⟩)
  · exact .inr rfl

theorem mem_values_erase {y : α} (h : y ∈ (m.erase k).values) : y ∈ m.values := by
  obtain ⟨e, he, rfl⟩ := mem_values.mp h
  exact mem_values.mpr ⟨e, mem_entries_erase he, rfl⟩

theorem mem_entries_of_find? (h : m.find? k = some x) : (k, x) ∈ m.entries := by
  obtain ⟨e, he, rfl⟩ := Option.map_eq_some_iff.mp h
  have hkey : e.1 = k := by simpa using List.find?_some he
  rw [← hkey]
  exact List.mem_of_find?_eq_some he

theorem mem_keys_of_find? (h : m.find? k = some x) : k ∈ m.keys :=
  List.mem_map_of_mem (mem_entries_of_find? h)

theorem mem_values_of_find? (h : m.find? k = some x) : x ∈ m.values :=
  mem_values.mpr ⟨_, mem_entries_of_find? h, rfl⟩

theorem mem_entries_alter {f : Option α → α} {e : κ × α} (h : e ∈ (m.alter k f).entries) :
    e ∈ m.entries ∨ (e.1 = k ∧ e.2 = f none) ∨ ∃ y, (k, y) ∈ m.entries ∧ e = (k, f (some y)) := by
  unfold alter at h
  split at h
  · obtain ⟨d, hd, rfl⟩ := List.mem_map.mp h
    split
    · next hk =>
      refine .inr (.inr ⟨d.2, ?_, rfl⟩)
      rw [← hk]
      exact hd
    · exact .inl hd
  · rcases List.mem_append.mp h with h | h
    · exact .inl h
    · obtain rfl := List.mem_singleton.mp h
      exact .inr (.inl ⟨rfl, rfl⟩)

theorem keys_alter (f : Option α → α) {y : κ} (h : y ∈ (m.alter k f).keys) :
    y ∈ m.keys ∨ y = k := by
  obtain ⟨e, he, rfl⟩ := List.mem_map.mp h
  rcases mem_entries_alter he with he | ⟨hk, -⟩ | ⟨_, -, rfl⟩
  · exact .inl (List.mem_map_of_mem he)
  · exact .inr hk
  · exact .inr rfl

theorem keys_nodup_put (h : m.keys.Nodup) (k : κ) (x : α) : (m.put k x).keys.Nodup := by
  rw [keys_put]
  refine List.nodup_append.mpr ⟨h.filter _, by simp, ?_⟩
  rintro a ha b hb rfl
  obtain rfl := List.mem_singleton.mp hb
  simp at ha

theorem find?_of_mem (h : m.keys.Nodup) {e : κ × α} (he : e ∈ m.entries) : m.find? e.1 = some e.2 := by
  have hfound : m.entries.find? (fun e' => e'.1 = e.1) = some e := by
    unfold keys at h
    generalize m.entries = es at h he ⊢
    induction es with
    | nil => simp at he
    | cons a es ih =>
        rw [List.map_cons, List.nodup_cons] at h
        rcases List.mem_cons.mp he with rfl | he
        · simp
        · have hne : a.1 ≠ e.1 := fun heq => h.1 (heq ▸ List.mem_map_of_mem he)
          rw [List.find?_cons_of_neg (by simpa using hne)]
          exact ih h.2 he
  exact congrArg (Option.map Prod.snd) hfound

/-- Erasing a key erases its value only. -/
theorem mem_values_erase_of_ne (h : m.keys.Nodup) (hx : m.find? k = some x) {y : α}
    (hy : y ∈ m.values) (hne : y ≠ x) : y ∈ (m.erase k).values := by
  obtain ⟨e, he, rfl⟩ := mem_values.mp hy
  refine mem_values.mpr ⟨e, List.mem_filter.mpr ⟨he, decide_eq_true ?_⟩, rfl⟩
  rintro rfl
  exact hne (Option.some.inj ((find?_of_mem h he).symm.trans hx))

theorem not_mem_values_erase (h : m.values.Nodup) (hx : m.find? k = some x) :
    x ∉ (m.erase k).values := by
  intro hmem
  obtain ⟨e, he, heq⟩ := mem_values.mp hmem
  have hk := of_decide_eq_true (List.mem_filter.mp he).2
  exact hk (congrArg Prod.fst (List.inj_on_of_nodup_map h (mem_entries_erase he)
    (mem_entries_of_find? hx) heq))

theorem find?_alter (m : OrderedMap κ α) (k : κ) (f : Option α → α) (k' : κ) :
    (m.alter k f).find? k' = if k' = k then some (f (m.find? k)) else m.find? k' := by
  unfold alter
  split
  · next hin =>
    have hkey : ∀ e : κ × α, (if e.1 = k then (k, f (some e.2)) else e).1 = e.1 := fun e => by
      split
      · next heq => exact heq.symm
      · rfl
    simp only [find?, List.find?_map, Function.comp_def, hkey, Option.map_map]
    cases hfound : m.entries.find? fun e => e.1 = k' with
    | none =>
        rw [if_neg]
        · rfl
        · rintro rfl
          simp [contains, find?, hfound] at hin
    | some e =>
        have he : e.1 = k' := by simpa using List.find?_some hfound
        by_cases heq : k' = k
        · subst heq
          simp [hfound, he]
        · simp [heq, he]
  · next hin =>
    have hnone : m.entries.find? (fun e => e.1 = k) = none := by
      rwa [contains, find?, Option.isSome_map, Option.not_isSome_iff_eq_none] at hin
    by_cases heq : k' = k
    · subst heq
      simp [find?, List.find?_append, hnone]
    · simp [find?, List.find?_append, heq, Ne.symm heq]

theorem keys_alter_eq (m : OrderedMap κ α) (k : κ) (f : Option α → α) :
    (m.alter k f).keys = if k ∈ m.keys then m.keys else m.keys ++ [k] := by
  unfold alter
  split
  · next hin =>
    rw [if_pos (contains_iff.mp hin)]
    show (m.entries.map fun e => if e.1 = k then (k, f (some e.2)) else e).map Prod.fst = m.keys
    rw [List.map_map]
    refine List.map_congr_left fun e _ => ?_
    simp only [Function.comp_apply]
    split
    · next heq => exact heq.symm
    · rfl
  · next hin =>
    rw [if_neg fun hk => hin (contains_iff.mpr hk)]
    exact List.map_append

theorem keys_nodup_alter (h : m.keys.Nodup) (k : κ) (f : Option α → α) :
    (m.alter k f).keys.Nodup := by
  rw [keys_alter_eq]
  split
  · exact h
  · next hnew =>
    refine List.nodup_append.mpr ⟨h, by simp, ?_⟩
    rintro a ha b hb rfl
    obtain rfl : a = k := by simpa using hb
    exact hnew ha

/-! ### Gathering by key -/

/-- Values gathered by key, keys and values in the order in which they come. -/
def gather (m : OrderedMap κ (List α)) (ps : List (κ × α)) : OrderedMap κ (List α) :=
  ps.foldl (fun m p => m.alter p.1 fun xs => xs.getD [] ++ [p.2]) m

theorem gather_concat (m : OrderedMap κ (List α)) (ps : List (κ × α)) (p : κ × α) :
    m.gather (ps ++ [p]) = (m.gather ps).alter p.1 fun xs => xs.getD [] ++ [p.2] := by
  simp [gather]

theorem keys_gather (ps : List (κ × α)) :
    (gather ∅ ps).keys = (ps.map Prod.fst).eraseDups := by
  induction ps using List.reverseRecOn with
  | nil => rfl
  | append_singleton ps p ih =>
      rw [gather_concat, keys_alter_eq, ih, List.map_append, List.map_singleton, eraseDups_concat]
      simp only [List.mem_eraseDups]
      split <;> simp

theorem nodup_keys_gather (ps : List (κ × α)) : (gather ∅ ps).keys.Nodup := by
  rw [keys_gather]
  exact nodup_eraseDups _

theorem find?_gather (ps : List (κ × α)) (k : κ) : (gather ∅ ps).find? k =
    if k ∈ ps.map Prod.fst then some ((ps.filter (·.1 = k)).map Prod.snd) else none := by
  induction ps using List.reverseRecOn with
  | nil => rfl
  | append_singleton ps p ih =>
      rw [gather_concat, find?_alter]
      by_cases hk : k = p.1
      · subst hk
        rw [ih]
        by_cases hmem : p.1 ∈ ps.map Prod.fst
        · simp [hmem]
        · have hnone : ps.filter (·.1 = p.1) = [] :=
            List.filter_eq_nil_iff.mpr fun q hq heq =>
              hmem (of_decide_eq_true heq ▸ List.mem_map_of_mem hq)
          simp [hmem, hnone]
      · have hmem : k ∈ (ps ++ [p]).map Prod.fst ↔ k ∈ ps.map Prod.fst := by simp [hk]
        simp only [if_neg hk, ih, hmem, List.filter_append]
        simp [Ne.symm hk]

theorem mem_gather {ps : List (κ × α)} {g : κ × List α} (hg : g ∈ (gather ∅ ps).entries) :
    g.2 = (ps.filter (·.1 = g.1)).map Prod.snd := by
  have hfound := find?_of_mem (nodup_keys_gather ps) hg
  rw [find?_gather] at hfound
  split at hfound
  · exact (Option.some.inj hfound).symm
  · cases hfound

end OrderedMap

end DataflowSynth
