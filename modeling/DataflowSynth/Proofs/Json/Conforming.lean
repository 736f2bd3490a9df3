/-
What is written in the order of a schema conforms to it.

A record that is written member by member, with some members left out that have a value for that
case, comes into shape with every member in its place.  The same holds of a record that carries
its tag in front: before it is taken apart it is held, which it survives if it is whole and does
not stand too deep.
-/
import DataflowSynth.Json.Schema
import DataflowSynth.Proofs.Json.Reading

namespace DataflowSynth.Json

/-! ### Depths -/

/-- The value may stand here: its lists and objects do not go too deep. -/
def Mode.Fits : Mode → Json → Prop
  | .direct depth, j => depth + j.depth ≤ maxDepth
  | .held, _ => True

theorem depth_le_depthList {items : List Json} {j : Json} (h : j ∈ items) :
    j.depth ≤ depth.depthList items := by
  induction items with
  | nil => simp at h
  | cons i items ih =>
    rw [depth.depthList]
    rcases List.mem_cons.1 h with rfl | h
    · omega
    · have := ih h
      omega

theorem depth_le_depthMembers {members : Members} {m : Option String × Json} (h : m ∈ members) :
    m.2.depth ≤ depth.depthMembers members := by
  induction members with
  | nil => simp at h
  | cons i members ih =>
    rw [depth.depthMembers]
    rcases List.mem_cons.1 h with rfl | h
    · omega
    · have := ih h
      omega

/-- Where a list fits, its items fit one level deeper. -/
theorem Mode.Fits.enter_list {m : Mode} {items : List Json} (h : m.Fits (list items)) :
    ∃ inner, m.enter = .ok inner ∧ ∀ j ∈ items, inner.Fits j := by
  cases m with
  | held => exact ⟨.held, rfl, fun _ _ => trivial⟩
  | direct d =>
    simp only [Fits, list, depth] at h
    refine ⟨.direct (d + 1), by simp [enter]; omega, ?_⟩
    intro j hj
    have := depth_le_depthList hj
    simp only [Fits]
    omega

/-- Where a record fits, the values of its members fit one level deeper. -/
theorem Mode.Fits.enter_record {m : Mode} {members : List (String × Json)}
    (h : m.Fits (record members)) :
    ∃ inner, m.enter = .ok inner ∧ ∀ e ∈ members, inner.Fits e.2 := by
  cases m with
  | held => exact ⟨.held, rfl, fun _ _ => trivial⟩
  | direct d =>
    simp only [Fits, record, depth] at h
    refine ⟨.direct (d + 1), by simp [enter]; omega, ?_⟩
    intro e he
    have : e.2.depth ≤ depth.depthMembers (members.map fun e => (some e.1, e.2)) :=
      depth_le_depthMembers (List.mem_map_of_mem (f := fun e => (some e.1, e.2)) he)
    simp only [Fits]
    omega

/-! ### Holding -/

theorem whole_list {items : List Json} (h : ∀ j ∈ items, Whole j) : Whole (list items) := .arr h

theorem whole_record {members : List (String × Json)} (h : ∀ e ∈ members, Whole e.2) :
    Whole (record members) := by
  refine .obj (fun m hm => ?_) (fun m hm => ?_)
  · obtain ⟨e, -, rfl⟩ := List.mem_map.1 hm
    rfl
  · obtain ⟨e, he, rfl⟩ := List.mem_map.1 hm
    exact h e he

theorem holdList_ok {d : Nat} {items : List Json} (h : ∀ j ∈ items, hold d j = .ok ()) :
    hold.holdList d items = .ok () := by
  induction items with
  | nil => rfl
  | cons j items ih =>
    rw [hold.holdList, h j (by simp)]
    exact ih fun i hi => h i (by simp [hi])

theorem holdMembers_ok {d : Nat} {members : Members} (hkeys : ∀ m ∈ members, m.1.isSome)
    (h : ∀ m ∈ members, hold d m.2 = .ok ()) : hold.holdMembers d members = .ok () := by
  induction members with
  | nil => rfl
  | cons m members ih =>
    obtain ⟨key, j⟩ := m
    obtain ⟨k, rfl⟩ := Option.isSome_iff_exists.1 (hkeys _ List.mem_cons_self)
    rw [hold.holdMembers, h (some k, j) (by simp)]
    exact ih (fun i hi => hkeys i (by simp [hi])) fun i hi => h i (by simp [hi])

/-- A whole value can be held where it fits. -/
theorem Whole.hold {j : Json} (h : Whole j) {d : Nat} (hfits : (Mode.direct d).Fits j) :
    Json.hold d j = .ok () := by
  induction h generalizing d with
  | null => rfl
  | bool b => rfl
  | num negative small => simp [Json.hold, Number.inRange, small]
  | str s => rfl
  | @arr items hvalues ih =>
    simp only [Mode.Fits, depth] at hfits
    have hinner : hold.holdList (d + 1) items = .ok () := by
      refine holdList_ok fun j hj => ih j hj ?_
      have := depth_le_depthList hj
      simp only [Mode.Fits]
      omega
    rw [Json.hold, if_pos (by omega), hinner]
    rfl
  | @obj members hkeys hvalues ih =>
    simp only [Mode.Fits, depth] at hfits
    have hinner : hold.holdMembers (d + 1) members = .ok () := by
      refine holdMembers_ok hkeys fun m hm => ih m hm ?_
      have := depth_le_depthMembers hm
      simp only [Mode.Fits]
      omega
    rw [Json.hold, if_pos (by omega), hinner]
    rfl

variable {φ : Type} {schema : Schema φ}

/-! ### Values without parts -/

section

variable (m : Mode) (slot : Slot φ)

theorem conform_bool (b : Bool) : conform schema m slot (.bool b) =
    match slot.item? with
    | some .flag => .ok (.bool b)
    | _ => .error .misshapen := rfl

theorem conform_number (n : Number) : conform schema m slot (.num n) = conformNumber slot n := rfl

theorem conform_text (s : String) : conform schema m slot (string s) = conformText schema slot s :=
  rfl

end

/-! ### Records -/

/-- Members written in the order of the fields.  `found` are the values of those written, and
`full` has a value for every field. -/
inductive Fills (schema : Schema φ) (m : Mode) :
    List (Field φ) → (written found full : List (String × Json)) → Prop where
  | nil : Fills schema m [] [] [] []
  | present {f : Field φ} {fields : List (Field φ)} {written found full : List (String × Json)}
      {j v : Json} (hvalue : conform schema m f.slot j = .ok v)
      (hothers : Fills schema m fields written found full) :
      Fills schema m (f :: fields) ((f.name, j) :: written) ((f.name, v) :: found)
        ((f.name, v) :: full)
  | absent {f : Field φ} {fields : List (Field φ)} {written found full : List (String × Json)}
      {v : Json} (hvalue : f.absent = some v)
      (hothers : Fills schema m fields written found full) :
      Fills schema m (f :: fields) written found ((f.name, v) :: full)

/-- The names of the fields. -/
def names (fields : List (Field φ)) : List String := fields.map Field.name

theorem find?_name {fields : List (Field φ)} (hdistinct : (names fields).Nodup) {f : Field φ}
    (h : f ∈ fields) : fields.find? (·.name = f.name) = some f := by
  induction fields with
  | nil => simp at h
  | cons g fields ih =>
    simp only [names, List.map_cons, List.nodup_cons] at hdistinct
    rcases List.mem_cons.1 h with rfl | h
    · simp
    · have : g.name ≠ f.name := fun hsame =>
        hdistinct.1 (hsame ▸ List.mem_map_of_mem h)
      rw [List.find?_cons_of_neg (by simpa using this)]
      exact ih hdistinct.2 h

/-- Reading the members of an object finds what was written. -/
theorem Fills.conformMembers {m : Mode} {fields : List (Field φ)}
    {written found full : List (String × Json)} (h : Fills schema m fields written found full)
    (hdistinct : (names fields).Nodup) {all : List (Field φ)}
    (hknown : ∀ f ∈ fields, all.find? (·.name = f.name) = some f) (seen : List String)
    (hfresh : ∀ f ∈ fields, f.name ∉ seen) :
    Json.conformMembers schema m all seen (written.map fun e => (some e.1, e.2)) = .ok found := by
  induction h generalizing seen with
  | nil => simp [Json.conformMembers]
  | @present f fields written found full j v hvalue hothers ih =>
    simp only [names, List.map_cons, List.nodup_cons] at hdistinct
    have hrest := ih hdistinct.2 (fun g hg => hknown g (by simp [hg])) (f.name :: seen) (by
      intro g hg
      have : g.name ≠ f.name := fun hsame => hdistinct.1 (hsame ▸ List.mem_map_of_mem hg)
      simp [this, hfresh g (by simp [hg])])
    rw [List.map_cons, Json.conformMembers, hknown f (by simp)]
    simp only [hfresh f (by simp), if_false, hvalue, hrest]
    rfl
  | @absent f fields written found full v hvalue hothers ih =>
    simp only [names, List.map_cons, List.nodup_cons] at hdistinct
    exact ih hdistinct.2 (fun g hg => hknown g (by simp [hg])) seen
      (fun g hg => hfresh g (by simp [hg]))

theorem Fills.lookup_none {m : Mode} {fields : List (Field φ)}
    {written found full : List (String × Json)} (h : Fills schema m fields written found full)
    {k : String} (hother : k ∉ names fields) : found.lookup k = none := by
  induction h with
  | nil => rfl
  | present hvalue hothers ih =>
    simp only [names, List.map_cons, List.mem_cons, not_or] at hother
    rw [List.lookup_cons, ih hother.2, beq_false_of_ne hother.1]
  | absent hvalue hothers ih =>
    simp only [names, List.map_cons, List.mem_cons, not_or] at hother
    exact ih hother.2

/-- From what was found the whole record is put together. -/
theorem Fills.assemble {m : Mode} {fields : List (Field φ)}
    {written found full : List (String × Json)} (h : Fills schema m fields written found full)
    (hdistinct : (names fields).Nodup) {all : List (String × Json)}
    (hsame : ∀ f ∈ fields, all.lookup f.name = found.lookup f.name) :
    Json.assemble fields all = .ok full := by
  unfold Json.assemble
  induction h with
  | nil => rfl
  | @present f fields written found full j v hvalue hothers ih =>
    simp only [names, List.map_cons, List.nodup_cons] at hdistinct
    have hrest := ih hdistinct.2 (by
      intro g hg
      have : g.name ≠ f.name := fun hsame => hdistinct.1 (hsame ▸ List.mem_map_of_mem hg)
      rw [hsame g (by simp [hg]), List.lookup_cons, beq_false_of_ne this])
    have hhere : all.lookup f.name = some v := by
      rw [hsame f (by simp)]
      simp
    rw [List.mapM_cons, hhere, hrest]
    rfl
  | @absent f fields written found full v hvalue hothers ih =>
    simp only [names, List.map_cons, List.nodup_cons] at hdistinct
    have hrest := ih hdistinct.2 (fun g hg => hsame g (by simp [hg]))
    have hhere : all.lookup f.name = none := by
      rw [hsame f (by simp)]
      exact hothers.lookup_none hdistinct.1
    rw [List.mapM_cons, hhere, hrest]
    simp only [Field.default, hvalue]
    rfl

theorem conform_record {m : Mode} {f : φ} {fields : List (Field φ)}
    (hform : schema f = .record fields) (hdistinct : (names fields).Nodup) {inner : Mode}
    (henter : m.enter = .ok inner) {written found full : List (String × Json)}
    (hfills : Fills schema inner fields written found full) :
    conform schema m (.one (.form f)) (record written) = .ok (record full) := by
  have hmembers := hfills.conformMembers hdistinct (fun g hg => find?_name hdistinct hg) []
    (fun _ _ => List.not_mem_nil)
  have hvalues := hfills.assemble hdistinct (fun _ _ => rfl)
  simp only [record, conform, hform, henter, endRead]
  simp only [bind, Except.bind, hmembers, hvalues]
  rfl

/-! ### Tagged records -/

theorem holdTagged_ok {d : Nat} {tag : String} (variants : List (String × List (Field φ)))
    {members : List (String × Json)} (hothers : ∀ e ∈ members, e.1 ≠ tag)
    (h : ∀ e ∈ members, hold d e.2 = .ok ()) :
    holdTagged d tag variants true (members.map fun e => (some e.1, e.2)) none = .ok () := by
  induction members with
  | nil => rfl
  | cons e members ih =>
    rw [List.map_cons, holdTagged, if_neg (hothers e (by simp)), h e (by simp)]
    exact ih (fun i hi => hothers i (by simp [hi])) fun i hi => h i (by simp [hi])

theorem Fills.written_names {m : Mode} {fields : List (Field φ)}
    {written found full : List (String × Json)} (h : Fills schema m fields written found full) :
    ∀ e ∈ written, e.1 ∈ names fields := by
  induction h with
  | nil => simp
  | present hvalue hothers ih =>
    intro e he
    rcases List.mem_cons.1 he with rfl | he
    · exact List.mem_cons_self
    · exact List.mem_cons_of_mem _ (ih e he)
  | absent hvalue hothers ih => exact fun e he => List.mem_cons_of_mem _ (ih e he)

/-- The tag is found if it is the only member of its name. -/
theorem variantOf?_front (m : Mode) (name : String) (variants : List (String × List (Field φ)))
    {tag : String} {written : List (String × Json)}
    (hothers : ∀ e ∈ written, e.1 ≠ tag) :
    variantOf? m tag variants ((some tag, string name) :: written.map fun e => (some e.1, e.2)) =
      variants.find? (·.1 = name) := by
  have hnone : (written.map fun e => (some e.1, e.2)).filter (fun e => e.1 = some tag) = [] := by
    rw [List.filter_eq_nil_iff]
    intro e he
    obtain ⟨w, hw, rfl⟩ := List.mem_map.1 he
    simp [hothers w hw]
  simp [variantOf?, hnone, variant?, string]

theorem conform_tagged {m : Mode} {f : φ} {tag name : String}
    {variants : List (String × List (Field φ))} {fields : List (Field φ)}
    (hform : schema f = .tagged tag variants)
    (hvariant : variants.find? (·.1 = name) = some (name, fields))
    (hdistinct : (tag :: names fields).Nodup)
    {written found full : List (String × Json)} (hwhole : ∀ e ∈ written, Whole e.2)
    (hfits : m.Fits (record ((tag, string name) :: written)))
    (hfills : Fills schema .held fields written found full) :
    conform schema m (.one (.form f)) (record ((tag, string name) :: written)) =
      .ok (record ((tag, string name) :: full)) := by
  obtain ⟨hfresh, hdistinct⟩ := List.nodup_cons.1 hdistinct
  have hothers : ∀ e ∈ written, e.1 ≠ tag := fun e he hsame =>
    hfresh (hsame ▸ hfills.written_names e he)
  have hunknown : fields.find? (·.name = tag) = none := by
    rw [List.find?_eq_none]
    intro g hg hsame
    exact hfresh (List.mem_map.2 ⟨g, hg, by simpa using hsame⟩)
  have hmembers := hfills.conformMembers hdistinct (fun g hg => find?_name hdistinct hg) []
    (fun _ _ => List.not_mem_nil)
  have hfound : conformMembers schema .held fields []
      ((some tag, string name) :: written.map fun e => (some e.1, e.2)) = .ok found := by
    rw [conformMembers, hunknown, ← hmembers]
    rfl
  have hvalues := hfills.assemble hdistinct (fun _ _ => rfl)
  have htaken := variantOf?_front m name variants hothers
  obtain ⟨inner, henter, hdeeper⟩ := hfits.enter_record
  cases m with
  | held =>
    simp only [record, conform, hform, List.map_cons, Mode.enter, htaken, hvariant, hfound]
    simp only [bind, Except.bind, hvalues, pure, Except.pure]
  | direct d =>
    have hknown : checkTag variants (string name) = .ok () := by
      have : variants.any (·.1 = name) := by
        rw [List.any_eq_true]
        exact ⟨_, List.mem_of_find?_eq_some hvariant, by simp⟩
      simp [checkTag, string, this]
    have hheld : holdTagged (d + 1) tag variants false
        ((some tag, string name) :: written.map fun e => (some e.1, e.2)) none = .ok () := by
      have hroom : d < maxDepth := by
        simp only [Mode.Fits, record, depth] at hfits
        omega
      have : inner = .direct (d + 1) := by
        simp only [Mode.enter, hroom, if_true, Except.ok.injEq] at henter
        exact henter.symm
      subst this
      have hbehind := holdTagged_ok variants hothers fun e he =>
        (hwhole e he).hold (hdeeper e (List.mem_cons_of_mem _ he))
      rw [holdTagged, if_pos rfl, hknown]
      exact hbehind
    simp only [record, conform, hform, List.map_cons, henter, htaken, hvariant, hfound, hheld]
    simp only [bind, Except.bind, hvalues, pure, Except.pure]

/-! ### Other places -/

/-- What may stand in a place may stand there if the place is optional. -/
theorem conform_optional {m : Mode} {i : Item φ} {j v : Json}
    (h : conform schema m (.one i) j = .ok v) : conform schema m (.optional i) j = .ok v := by
  rw [← h]
  cases j with
  | null => simp [conform] at h
  | bool => simp [conform, Slot.item?]
  | num => simp [conform, conformNumber, Slot.item?]
  | str content => cases content <;> simp [conform, conformText, Slot.item?]
  | arr =>
    cases i with
    | form f => rw [conform, conform]
    | _ => simp [conform]
  | obj =>
    cases i with
    | form f => rw [conform, conform]
    | _ => simp [conform]
  | cut => simp [conform]

theorem conform_list {m : Mode} {i : Item φ} {inner : Mode} (henter : m.enter = .ok inner)
    {written full : List Json} (hitems : conformItems schema inner i written = .ok full) :
    conform schema m (.list i) (list written) = .ok (list full) := by
  simp only [list, conform, henter, endRead]
  simp only [bind, Except.bind, hitems, pure, Except.pure]

/-- An object with one member, whose name says what its value is. -/
theorem conform_choice {m : Mode} {f : φ} {variants : List (String × Slot φ)}
    (hform : schema f = .choice variants) {k : String} {slot : Slot φ}
    (hknown : variants.lookup k = some slot) {j v : Json}
    (hvalue : conform schema .held slot j = .ok v) :
    conform schema m (.one (.form f)) (record [(k, j)]) = .ok (record [(k, v)]) := by
  simp only [record, List.map_cons, List.map_nil, conform, hform, hknown, hvalue]
  rfl

end DataflowSynth.Json
