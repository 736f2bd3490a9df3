/-
A document may be presented in another way.

The members of an object may stand in another order, and an object may have members that its form
does not know.  `Edit` makes one such change somewhere in a document.  Where that is allowed depends on
what stands there, so an edit follows the schema down to the object that is changed.  It also keeps track
of the place that it has come to: a value that nothing asks for is only passed over where a document is
read straight from its text, but inside an object with a tag it is held with the rest.

Members are found one after the other, so what is found in another order is in another order too.  The
names of what is found are distinct, and then looking them up does not depend on the order.  An
object with a tag is held before it is taken apart, which looks at every member on its own and so
depends on the order no more than that.
-/
import DataflowSynth.Proofs.Json.Conforming
import Mathlib.Data.List.Perm.Basic
import Mathlib.Logic.Relation

namespace DataflowSynth.Json

variable {φ : Type} {schema : Schema φ}

/-! ### What may be added -/

/-- Nothing is cut off of the value.  Its strings may lack a content, and its numbers may be any. -/
inductive Intact : Json → Prop where
  | null : Intact .null
  | bool (b : Bool) : Intact (.bool b)
  | num (n : Number) : Intact (.num n)
  | str (content : Option String) : Intact (.str content)
  | arr {items : List Json} (hvalues : ∀ j ∈ items, Intact j) : Intact (.arr items none)
  | obj {members : Members} (hvalues : ∀ m ∈ members, Intact m.2) : Intact (.obj members none)

theorem Whole.intact {j : Json} (h : Whole j) : Intact j := by
  induction h with
  | null => exact .null
  | bool b => exact .bool b
  | num negative hsmall => exact .num _
  | str s => exact .str _
  | arr hvalues ih => exact .arr ih
  | obj hkeys hvalues ih => exact .obj ih

/-- Where a value stands: at some depth, and read straight from the text or held before. -/
inductive Place where
  | read (depth : Nat)
  | held (depth : Nat)

namespace Place

def mode : Place → Mode
  | read d => .direct d
  | held _ => .held

def depth : Place → Nat
  | read d | held d => d

/-- The place of an item of a list. -/
def deeper : Place → Place
  | read d => .read (d + 1)
  | held d => .held (d + 1)

/-- The place of the value of a member.  All of an object with a tag is held before it is taken apart. -/
def inside (p : Place) : Layout φ → Place
  | .record _ | .word _ => p.deeper
  | .tagged _ _ | .choice _ => .held (p.depth + 1)

/-- A value that may be added here.  What is not held is only passed over. -/
def Admits : Place → Json → Prop
  | read _, j => Intact j
  | held d, j => Whole j ∧ d + j.depth ≤ maxDepth

theorem mode_deeper {p : Place} {inner : Mode} (h : p.mode.enter = .ok inner) :
    inner = p.deeper.mode := by
  cases p with
  | read d =>
    simp only [mode, Mode.enter] at h
    split at h
    · exact (Except.ok.inj h).symm
    · cases h
  | held d => exact (Except.ok.inj h).symm

@[simp] theorem inside_held (d : Nat) (layout : Layout φ) : (held d).inside layout = .held (d + 1) := by
  cases layout <;> rfl

theorem Admits.intact {p : Place} {j : Json} (h : p.Admits j) : Intact j := by
  cases p with
  | read d => exact h
  | held d => exact h.1.intact

theorem Admits.hold {d : Nat} {j : Json} (h : (held d).Admits j) : Json.hold d j = .ok () :=
  h.1.hold h.2

end Place

/-! ### Edits -/

/-- The fields of an object that has these members.  One with a tag has those of its variant. -/
def Layout.fields? (layout : Layout φ) (members : Members) : Option (List (Field φ)) :=
  match layout with
  | .record fields => some fields
  | .tagged tag variants => (variantOf? .held tag variants members).map Prod.snd
  | .choice _ | .word _ => none

def Layout.tag? : Layout φ → Option String
  | .tagged tag _ => some tag
  | .record _ | .choice _ | .word _ => none

/-- One change in how a value is presented that stands somewhere, in a slot. -/
inductive Edit (schema : Schema φ) : Place → Slot φ → Json → Json → Prop where
  /-- The members of an object stand in another order. -/
  | order {p : Place} {slot : Slot φ} {f : φ} {fields : List (Field φ)} {ms ms' : Members}
    (hitem : slot.item? = some (.form f)) (hknown : (schema f).fields? ms = some fields)
    (hperm : ms.Perm ms') : Edit schema p slot (.obj ms none) (.obj ms' none)
  /-- An object has one more member, which is neither its tag nor one of its fields. -/
  | add {p : Place} {slot : Slot φ} {f : φ} {fields : List (Field φ)} {ms : Members} {k : String}
    {j : Json} (hitem : slot.item? = some (.form f)) (hknown : (schema f).fields? ms = some fields)
    (hother : k ∉ names fields) (htag : (schema f).tag? ≠ some k)
    (hadmits : (p.inside (schema f)).Admits j) :
    Edit schema p slot (.obj ms none) (.obj ((some k, j) :: ms) none)
  /-- The value of a field is presented in another way. -/
  | member {p : Place} {slot : Slot φ} {f : φ} {fields : List (Field φ)} {g : Field φ} {ms : Members}
    {k : String} {j j' : Json} (hitem : slot.item? = some (.form f))
    (hknown : (schema f).fields? ((some k, j) :: ms) = some fields)
    (hfield : fields.find? (·.name = k) = some g) (htag : (schema f).tag? ≠ some k)
    (hinner : Edit schema (p.inside (schema f)) g.slot j j') :
    Edit schema p slot (.obj ((some k, j) :: ms) none) (.obj ((some k, j') :: ms) none)
  /-- A value of a list is presented in another way. -/
  | item {p : Place} {i : Item φ} (js₁ : List Json) {js₂ : List Json} {j j' : Json}
    (hinner : Edit schema p.deeper (.one i) j j') :
    Edit schema p (.list i) (.arr (js₁ ++ j :: js₂) none) (.arr (js₁ ++ j' :: js₂) none)
  /-- A value in a list that stands for an object is presented in another way. -/
  | value {p : Place} {slot : Slot φ} {f : φ} {fields : List (Field φ)} {g : Field φ} (js₁ : List Json)
    {js₂ : List Json} {j j' : Json} (hitem : slot.item? = some (.form f))
    (hform : schema f = .record fields) (hfield : fields[js₁.length]? = some g)
    (hinner : Edit schema (p.inside (schema f)) g.slot j j') :
    Edit schema p slot (.arr (js₁ ++ j :: js₂) none) (.arr (js₁ ++ j' :: js₂) none)
  /-- The same in a list that starts with a tag. -/
  | taggedValue {p : Place} {slot : Slot φ} {f : φ} {tag name : String}
    {variants : List (String × List (Field φ))} {fields : List (Field φ)} {g : Field φ} {t : Json}
    (js₁ : List Json) {js₂ : List Json} {j j' : Json} (hitem : slot.item? = some (.form f))
    (hform : schema f = .tagged tag variants) (hvariant : variant? .held variants t = some (name, fields))
    (hfield : fields[js₁.length]? = some g) (hinner : Edit schema (p.inside (schema f)) g.slot j j') :
    Edit schema p slot (.arr (t :: (js₁ ++ j :: js₂)) none) (.arr (t :: (js₁ ++ j' :: js₂)) none)
  /-- The value of the one member of a choice is presented in another way. -/
  | choice {p : Place} {slot value : Slot φ} {f : φ} {variants : List (String × Slot φ)} {k : String}
    {j j' : Json} (hitem : slot.item? = some (.form f)) (hform : schema f = .choice variants)
    (hknown : variants.lookup k = some value) (hinner : Edit schema (p.inside (schema f)) value j j') :
    Edit schema p slot (.obj [(some k, j)] none) (.obj [(some k, j')] none)

/-! ### Holding -/

theorem bind_eq_ok {α β : Type} {x : Except Fault α} {f : α → Except Fault β} {b : β} :
    x >>= f = .ok b ↔ ∃ a, x = .ok a ∧ f a = .ok b := by
  cases x <;> simp [bind, Except.bind]

theorem unit_bind_eq_ok {α : Type} {x : Except Fault Unit} {f : Unit → Except Fault α} {a : α} :
    x >>= f = .ok a ↔ x = .ok () ∧ f () = .ok a := by
  cases x <;> simp [bind, Except.bind]

theorem holdList_iff {d : Nat} {items : List Json} :
    hold.holdList d items = .ok () ↔ ∀ j ∈ items, hold d j = .ok () := by
  refine ⟨fun h => ?_, holdList_ok⟩
  induction items with
  | nil => simp
  | cons j items ih =>
    rw [hold.holdList, unit_bind_eq_ok] at h
    obtain ⟨hfirst, hothers⟩ := h
    exact List.forall_mem_cons.2 ⟨hfirst, ih hothers⟩

theorem holdMembers_iff {d : Nat} {members : Members} :
    hold.holdMembers d members = .ok () ↔ ∀ m ∈ members, m.1.isSome ∧ hold d m.2 = .ok () := by
  constructor
  · intro h
    induction members with
    | nil => simp
    | cons m members ih =>
      obtain ⟨_ | k, j⟩ := m
      · simp [hold.holdMembers] at h
      · rw [hold.holdMembers, unit_bind_eq_ok] at h
        obtain ⟨hfirst, hothers⟩ := h
        exact List.forall_mem_cons.2 ⟨⟨rfl, hfirst⟩, ih hothers⟩
  · intro h
    exact holdMembers_ok (fun m hm => (h m hm).1) fun m hm => (h m hm).2

theorem hold_arr_iff {d : Nat} {items : List Json} :
    hold d (.arr items none) = .ok () ↔ d < maxDepth ∧ ∀ j ∈ items, hold (d + 1) j = .ok () := by
  rw [← holdList_iff, hold]
  by_cases hroom : d < maxDepth <;> simp [hroom, unit_bind_eq_ok, endRead]

theorem hold_obj_iff {d : Nat} {members : Members} :
    hold d (.obj members none) = .ok () ↔
      d < maxDepth ∧ ∀ m ∈ members, m.1.isSome ∧ hold (d + 1) m.2 = .ok () := by
  rw [← holdMembers_iff, hold]
  by_cases hroom : d < maxDepth <;> simp [hroom, unit_bind_eq_ok, endRead]

theorem hold_arr_of_item {d : Nat} (js₁ : List Json) {js₂ : List Json} {j j' : Json}
    (hheld : hold d (.arr (js₁ ++ j :: js₂) none) = .ok ())
    (hinner : hold (d + 1) j = .ok () → hold (d + 1) j' = .ok ()) :
    hold d (.arr (js₁ ++ j' :: js₂) none) = .ok () := by
  rw [hold_arr_iff] at hheld ⊢
  simp only [List.forall_mem_append, List.forall_mem_cons] at hheld ⊢
  obtain ⟨hroom, hbefore, hhere, hbehind⟩ := hheld
  exact ⟨hroom, hbefore, hinner hhere, hbehind⟩

theorem hold_obj_of_member {d : Nat} {m : Option String} {ms : Members} {j j' : Json}
    (hheld : hold d (.obj ((m, j) :: ms) none) = .ok ())
    (hinner : hold (d + 1) j = .ok () → hold (d + 1) j' = .ok ()) :
    hold d (.obj ((m, j') :: ms) none) = .ok () := by
  rw [hold_obj_iff, List.forall_mem_cons] at hheld ⊢
  obtain ⟨hroom, ⟨hkey, hhere⟩, hbehind⟩ := hheld
  exact ⟨hroom, ⟨hkey, hinner hhere⟩, hbehind⟩

/-! ### Tags -/

/-- Tagged members are held if there is one tag, which is known, and the others can be held. -/
theorem holdTagged_iff {d : Nat} {tag : String} {variants : List (String × List (Field φ))}
    {seen : Bool} {ms : Members} :
    holdTagged d tag variants seen ms none = .ok () ↔
      (∀ m ∈ ms, m.1.isSome ∧ (m.1 = some tag → checkTag variants m.2 = .ok ()) ∧
        (m.1 ≠ some tag → hold d m.2 = .ok ())) ∧
      ms.countP (·.1 = some tag) + seen.toNat = 1 := by
  induction ms generalizing seen with
  | nil => cases seen <;> simp [holdTagged, endRead, unit_bind_eq_ok]
  | cons m ms ih =>
    obtain ⟨_ | k, j⟩ := m
    · simp [holdTagged]
    · rw [holdTagged, List.forall_mem_cons, List.countP_cons]
      by_cases htag : k = tag
      · subst htag
        cases seen with
        | true => simp [bind, Except.bind]
        | false => simp [unit_bind_eq_ok, ih, and_assoc]
      · simp [htag, unit_bind_eq_ok, ih, and_assoc]

theorem variantOf?_perm {m : Mode} {tag : String} {variants : List (String × List (Field φ))}
    {ms ms' : Members} (h : ms.Perm ms') :
    variantOf? m tag variants ms = variantOf? m tag variants ms' := by
  have htags := h.filter fun e => e.1 = some tag
  unfold variantOf?
  generalize ms.filter (fun e => e.1 = some tag) = ts at htags
  generalize ms'.filter (fun e => e.1 = some tag) = ts' at htags
  match ts, ts' with
  | [], ts' => rw [htags.nil_eq]
  | [t], ts' => rw [List.singleton_perm.mp htags]
  | t₁ :: t₂ :: ts, [] => exact absurd htags.symm.nil_eq (by simp)
  | t₁ :: t₂ :: ts, [t'] => exact absurd htags.length_eq (by simp)
  | t₁ :: t₂ :: ts, t₁' :: t₂' :: ts' => rfl

/-- Members other than the tag do not say which variant it is. -/
theorem variantOf?_cons {m : Mode} {tag k : String} {variants : List (String × List (Field φ))}
    (ms : Members) (j : Json) (h : k ≠ tag) :
    variantOf? m tag variants ((some k, j) :: ms) = variantOf? m tag variants ms := by
  simp [variantOf?, h]

/-- A tag in a text names a variant, which it also does when it has been held. -/
theorem variant?_held {m : Mode} {variants : List (String × List (Field φ))} {j : Json}
    {v : String × List (Field φ)} (h : variant? m variants j = some v) :
    variant? .held variants j = some v := by
  cases m with
  | held => exact h
  | direct d =>
    unfold variant? at h ⊢
    split at h
    · exact h
    · next heq => cases heq
    · cases h

theorem variantOf?_held {m : Mode} {tag : String} {variants : List (String × List (Field φ))}
    {ms : Members} {v : String × List (Field φ)} (h : variantOf? m tag variants ms = some v) :
    variantOf? .held tag variants ms = some v := by
  unfold variantOf? at h ⊢
  split at h
  · exact variant?_held h
  · cases h

/-! ### Members -/

/-- What is found among members: the values of those that are fields, in order. -/
inductive Finds (schema : Schema φ) (m : Mode) (fields : List (Field φ)) :
    Members → List (String × Json) → Prop where
  | nil : Finds schema m fields [] []
  | unknown {k : String} {j : Json} {ms : Members} {found : List (String × Json)}
    (hfield : fields.find? (·.name = k) = none) (hskipped : skip j = .ok ())
    (hothers : Finds schema m fields ms found) : Finds schema m fields ((some k, j) :: ms) found
  | known {k : String} {g : Field φ} {j v : Json} {ms : Members} {found : List (String × Json)}
    (hfield : fields.find? (·.name = k) = some g) (hvalue : conform schema m g.slot j = .ok v)
    (hothers : Finds schema m fields ms found) :
    Finds schema m fields ((some k, j) :: ms) ((k, v) :: found)

theorem conformMembers_iff {m : Mode} {fields : List (Field φ)} {seen : List String} {ms : Members}
    {found : List (String × Json)} :
    conformMembers schema m fields seen ms = .ok found ↔
      Finds schema m fields ms found ∧ (found.map Prod.fst).Nodup ∧ ∀ e ∈ found, e.1 ∉ seen := by
  constructor
  · intro h
    induction ms generalizing seen found with
    | nil =>
      rw [conformMembers] at h
      cases h
      exact ⟨.nil, List.nodup_nil, by simp⟩
    | cons e ms ih =>
      obtain ⟨_ | k, j⟩ := e
      · simp [conformMembers] at h
      · rw [conformMembers] at h
        split at h
        · next hfield =>
          obtain ⟨hskipped, hothers⟩ := unit_bind_eq_ok.1 h
          obtain ⟨hfinds, hdistinct, hfresh⟩ := ih hothers
          exact ⟨.unknown hfield hskipped hfinds, hdistinct, hfresh⟩
        · next g hfield =>
          split at h
          · cases h
          · next hnew =>
            obtain ⟨v, hvalue, h⟩ := bind_eq_ok.1 h
            obtain ⟨others, hrest, h⟩ := bind_eq_ok.1 h
            cases h
            obtain ⟨hfinds, hdistinct, hfresh⟩ := ih hrest
            refine ⟨.known hfield hvalue hfinds, ?_, ?_⟩
            · rw [List.map_cons, List.nodup_cons]
              refine ⟨fun hagain => ?_, hdistinct⟩
              obtain ⟨e, he, hsame⟩ := List.mem_map.1 hagain
              exact hfresh e he (by simp [hsame])
            · rw [List.forall_mem_cons]
              exact ⟨hnew, fun e he hmem => hfresh e he (List.mem_cons_of_mem _ hmem)⟩
  · rintro ⟨hfinds, hdistinct, hfresh⟩
    induction hfinds generalizing seen with
    | nil => rw [conformMembers]
    | unknown hfield hskipped hothers ih =>
      rw [conformMembers, hfield]
      exact unit_bind_eq_ok.2 ⟨hskipped, ih hdistinct hfresh⟩
    | @known k g j v ms found hfield hvalue hothers ih =>
      rw [List.map_cons, List.nodup_cons] at hdistinct
      rw [List.forall_mem_cons] at hfresh
      have hrest : conformMembers schema m fields (k :: seen) ms = .ok found := by
        refine ih hdistinct.2 fun e he => ?_
        rw [List.mem_cons, not_or]
        refine ⟨fun hsame => hdistinct.1 ?_, hfresh.2 e he⟩
        have hnamed := List.mem_map_of_mem (f := Prod.fst) he
        rwa [hsame] at hnamed
      rw [conformMembers, hfield]
      simp only [hfresh.1, if_false]
      exact bind_eq_ok.2 ⟨v, hvalue, bind_eq_ok.2 ⟨found, hrest, rfl⟩⟩

/-- In another order the same is found, in another order. -/
theorem Finds.perm {m : Mode} {fields : List (Field φ)} {ms ms' : Members}
    {found : List (String × Json)} (h : Finds schema m fields ms found) (horder : ms.Perm ms') :
    ∃ found', Finds schema m fields ms' found' ∧ found.Perm found' := by
  induction horder generalizing found with
  | nil => exact ⟨found, h, .refl _⟩
  | cons e horder ih =>
    cases h with
    | unknown hfield hskipped hothers =>
      obtain ⟨found', hfinds, hperm⟩ := ih hothers
      exact ⟨found', .unknown hfield hskipped hfinds, hperm⟩
    | known hfield hvalue hothers =>
      obtain ⟨found', hfinds, hperm⟩ := ih hothers
      exact ⟨_, .known hfield hvalue hfinds, hperm.cons _⟩
  | swap e e' ms =>
    cases h with
    | unknown hfield hskipped hothers =>
      cases hothers with
      | unknown hfield' hskipped' hothers =>
        exact ⟨_, .unknown hfield' hskipped' (.unknown hfield hskipped hothers), .refl _⟩
      | known hfield' hvalue' hothers =>
        exact ⟨_, .known hfield' hvalue' (.unknown hfield hskipped hothers), .refl _⟩
    | known hfield hvalue hothers =>
      cases hothers with
      | unknown hfield' hskipped' hothers =>
        exact ⟨_, .unknown hfield' hskipped' (.known hfield hvalue hothers), .refl _⟩
      | known hfield' hvalue' hothers =>
        exact ⟨_, .known hfield' hvalue' (.known hfield hvalue hothers), .swap ..⟩
  | trans horder horder' ih ih' =>
    obtain ⟨found', hfinds, hperm⟩ := ih h
    obtain ⟨found'', hfinds', hperm'⟩ := ih' hfinds
    exact ⟨found'', hfinds', hperm.trans hperm'⟩

theorem lookup_perm {found found' : List (String × Json)} (h : found.Perm found')
    (hdistinct : (found.map Prod.fst).Nodup) (k : String) : found.lookup k = found'.lookup k := by
  induction h with
  | nil => rfl
  | cons e h ih =>
    rw [List.map_cons, List.nodup_cons] at hdistinct
    rw [List.lookup_cons, List.lookup_cons, ih hdistinct.2]
  | swap e e' found =>
    simp only [List.map_cons, List.nodup_cons, List.mem_cons, not_or] at hdistinct
    rw [List.lookup_cons, List.lookup_cons, List.lookup_cons, List.lookup_cons]
    by_cases hfirst : k = e.1
    · have hsecond : k ≠ e'.1 := fun hsame => hdistinct.1.1 (hsame.symm.trans hfirst)
      simp [hfirst, beq_false_of_ne (hfirst ▸ hsecond)]
    · simp [beq_false_of_ne hfirst]
  | trans h h' ih ih' =>
    rw [ih hdistinct, ih' ((h.map Prod.fst).nodup_iff.mp hdistinct)]

/-- What is put together from members does not depend on their order. -/
theorem conformMembers_perm {m : Mode} {fields : List (Field φ)} {ms ms' : Members}
    {found : List (String × Json)} (h : conformMembers schema m fields [] ms = .ok found)
    (horder : ms.Perm ms') :
    ∃ found', conformMembers schema m fields [] ms' = .ok found' ∧
      assemble fields found' = assemble fields found := by
  obtain ⟨hfinds, hdistinct, -⟩ := conformMembers_iff.1 h
  obtain ⟨found', hfinds', hperm⟩ := hfinds.perm horder
  have hdistinct' := (hperm.map Prod.fst).nodup_iff.mp hdistinct
  refine ⟨found', conformMembers_iff.2 ⟨hfinds', hdistinct', by simp⟩, ?_⟩
  unfold assemble
  simp only [lookup_perm hperm hdistinct]

/-- Members that are not known can be passed over. -/
theorem conformMembers_add {m : Mode} {fields : List (Field φ)} {ms : Members} {k : String}
    {j : Json} {found : List (String × Json)} {seen : List String}
    (h : conformMembers schema m fields seen ms = .ok found) (hother : k ∉ names fields)
    (hskipped : skip j = .ok ()) :
    conformMembers schema m fields seen ((some k, j) :: ms) = .ok found := by
  have hunknown : fields.find? (·.name = k) = none := by
    rw [List.find?_eq_none]
    intro g hg hsame
    exact hother (List.mem_map.2 ⟨g, hg, by simpa using hsame⟩)
  obtain ⟨hfinds, hrest⟩ := conformMembers_iff.1 h
  exact conformMembers_iff.2 ⟨.unknown hunknown hskipped hfinds, hrest⟩

/-- A member that conforms like another gives the same. -/
theorem conformMembers_replace {m : Mode} {fields : List (Field φ)} {ms : Members} {k : String}
    {g : Field φ} {j j' : Json} {found : List (String × Json)} {seen : List String}
    (h : conformMembers schema m fields seen ((some k, j) :: ms) = .ok found)
    (hfield : fields.find? (·.name = k) = some g)
    (hsame : ∀ v, conform schema m g.slot j = .ok v → conform schema m g.slot j' = .ok v) :
    conformMembers schema m fields seen ((some k, j') :: ms) = .ok found := by
  obtain ⟨hfinds, hrest⟩ := conformMembers_iff.1 h
  refine conformMembers_iff.2 ⟨?_, hrest⟩
  cases hfinds with
  | unknown hnone hskipped hothers =>
    rw [hfield] at hnone
    cases hnone
  | known hsome hvalue hothers =>
    obtain rfl : _ = g := Option.some.inj (hsome.symm.trans hfield)
    exact .known hsome (hsame _ hvalue) hothers

/-! ### Values -/

section

variable {m : Mode} {slot : Slot φ} {f : φ}

/-- Where an optional form may stand, it stands as where it has to. -/
theorem conform_of_item (hitem : slot.item? = some (.form f)) :
    (∀ ms rest, conform schema m slot (.obj ms rest) =
        conform schema m (.one (.form f)) (.obj ms rest)) ∧
      ∀ js rest, conform schema m slot (.arr js rest) =
        conform schema m (.one (.form f)) (.arr js rest) := by
  cases slot with
  | one i =>
    cases hitem
    exact ⟨fun _ _ => rfl, fun _ _ => rfl⟩
  | optional i =>
    cases hitem
    refine ⟨fun ms rest => ?_, fun js rest => ?_⟩
    · rw [conform, conform]
    · rw [conform, conform]
  | list i => cases hitem

theorem conform_record_iff {fields : List (Field φ)} (hform : schema f = .record fields) {ms : Members}
    {v : Json} :
    conform schema m (.one (.form f)) (.obj ms none) = .ok v ↔
      ∃ inner found full, m.enter = .ok inner ∧ conformMembers schema inner fields [] ms = .ok found ∧
        assemble fields found = .ok full ∧ v = record full := by
  have hput : ∀ found, record <$> assemble fields found = .ok v ↔
      ∃ full, assemble fields found = .ok full ∧ v = record full := by
    intro found
    cases assemble fields found <;> simp [Functor.map, Except.map, eq_comm]
  simp only [conform, hform, endRead, bind_eq_ok, hput, exists_const, true_and]
  constructor
  · rintro ⟨inner, henter, found, hmembers, full, hfull, hsame⟩
    exact ⟨inner, found, full, henter, hmembers, hfull, hsame⟩
  · rintro ⟨inner, found, full, henter, hmembers, hfull, hsame⟩
    exact ⟨inner, henter, found, hmembers, full, hfull, hsame⟩

theorem conform_tagged_iff {tag : String} {variants : List (String × List (Field φ))}
    (hform : schema f = .tagged tag variants) {ms : Members} {v : Json} :
    conform schema m (.one (.form f)) (.obj ms none) = .ok v ↔
      ∃ inner name fields found full, m.enter = .ok inner ∧
        (∀ d, m = .direct d → holdTagged (d + 1) tag variants false ms none = .ok ()) ∧
        variantOf? m tag variants ms = some (name, fields) ∧
        conformMembers schema .held fields [] ms = .ok found ∧ assemble fields found = .ok full ∧
        v = record ((tag, string name) :: full) := by
  cases m with
  | held =>
    simp only [conform, hform, bind_eq_ok]
    constructor
    · rintro ⟨inner, henter, h⟩
      split at h
      · cases h
      · next name fields hvariant =>
        obtain ⟨found, hmembers, h⟩ := bind_eq_ok.1 h
        obtain ⟨full, hvalues, h⟩ := bind_eq_ok.1 h
        cases h
        exact ⟨inner, name, fields, found, full, henter, by simp, hvariant, hmembers, hvalues, rfl⟩
    · rintro ⟨inner, name, fields, found, full, henter, -, hvariant, hmembers, hvalues, rfl⟩
      refine ⟨inner, henter, ?_⟩
      rw [hvariant]
      exact bind_eq_ok.2 ⟨found, hmembers, bind_eq_ok.2 ⟨full, hvalues, rfl⟩⟩
  | direct d =>
    simp only [conform, hform, bind_eq_ok]
    constructor
    · rintro ⟨inner, henter, _, hheld, h⟩
      split at h
      · cases h
      · next name fields hvariant =>
        obtain ⟨found, hmembers, h⟩ := bind_eq_ok.1 h
        obtain ⟨full, hvalues, h⟩ := bind_eq_ok.1 h
        cases h
        refine ⟨inner, name, fields, found, full, henter, fun d' hsame => ?_, hvariant, hmembers,
          hvalues, rfl⟩
        cases hsame
        exact hheld
    · rintro ⟨inner, name, fields, found, full, henter, hheld, hvariant, hmembers, hvalues, rfl⟩
      refine ⟨inner, henter, (), hheld d rfl, ?_⟩
      rw [hvariant]
      exact bind_eq_ok.2 ⟨found, hmembers, bind_eq_ok.2 ⟨full, hvalues, rfl⟩⟩

/-- A list in place of an object. -/
theorem conform_values_iff {fields : List (Field φ)} (hform : schema f = .record fields)
    {js : List Json} {v : Json} :
    conform schema m (.one (.form f)) (.arr js none) = .ok v ↔
      ∃ inner vs, m.enter = .ok inner ∧ conformValues schema inner fields none js = .ok vs ∧
        v = record vs := by
  have hput : ∀ inner, record <$> conformValues schema inner fields none js = .ok v ↔
      ∃ vs, conformValues schema inner fields none js = .ok vs ∧ v = record vs := by
    intro inner
    cases conformValues schema inner fields none js <;> simp [Functor.map, Except.map, eq_comm]
  rw [conform]
  rw [hform]
  show (m.enter >>= fun inner => record <$> conformValues schema inner fields none js) = .ok v ↔ _
  simp only [bind_eq_ok, hput, exists_and_left]

/-- A list in place of an object with a tag, which is its first value. -/
theorem conform_taggedValues_iff {tag : String} {variants : List (String × List (Field φ))}
    (hform : schema f = .tagged tag variants) {t : Json} {js : List Json} {v : Json} :
    conform schema m (.one (.form f)) (.arr (t :: js) none) = .ok v ↔
      ∃ inner name fields vs, m.enter = .ok inner ∧
        (∀ d, m = .direct d → checkTag variants t = .ok () ∧
          hold.holdList (d + 1) js = .ok ()) ∧
        variant? m variants t = some (name, fields) ∧
        conformValues schema .held fields none js = .ok vs ∧
        v = record ((tag, string name) :: vs) := by
  rw [conform]
  rw [hform]
  cases m with
  | held =>
    simp only [bind_eq_ok]
    constructor
    · rintro ⟨inner, henter, h⟩
      split at h
      · cases h
      · next name fields hvariant =>
        obtain ⟨vs, hvalues, h⟩ := bind_eq_ok.1 h
        cases h
        exact ⟨inner, name, fields, vs, henter, by simp, hvariant, hvalues, rfl⟩
    · rintro ⟨inner, name, fields, vs, henter, -, hvariant, hvalues, rfl⟩
      refine ⟨inner, henter, ?_⟩
      rw [hvariant]
      exact bind_eq_ok.2 ⟨vs, hvalues, rfl⟩
  | direct d =>
    simp only [bind_eq_ok]
    constructor
    · rintro ⟨inner, henter, _, hknown, _, hheld, _, _, h⟩
      split at h
      · cases h
      · next name fields hvariant =>
        obtain ⟨vs, hvalues, h⟩ := bind_eq_ok.1 h
        cases h
        refine ⟨inner, name, fields, vs, henter, fun d' hsame => ?_, hvariant, hvalues, rfl⟩
        cases hsame
        exact ⟨hknown, hheld⟩
    · rintro ⟨inner, name, fields, vs, henter, hheld, hvariant, hvalues, rfl⟩
      refine ⟨inner, henter, (), (hheld d rfl).1, (), (hheld d rfl).2, (), rfl, ?_⟩
      rw [hvariant]
      exact bind_eq_ok.2 ⟨vs, hvalues, rfl⟩

/-- An object comes into the same shape with other members if these are held like the former, name
the same variant, and what is found among them is put together in the same way. -/
theorem conform_obj_of {p : Place} {fields : List (Field φ)} {ms ms' : Members} {v : Json}
    (hitem : slot.item? = some (.form f)) (hknown : (schema f).fields? ms = some fields)
    (h : conform schema p.mode slot (.obj ms none) = .ok v)
    (htags : ∀ tag variants, schema f = .tagged tag variants →
      variantOf? p.mode tag variants ms = variantOf? p.mode tag variants ms' ∧
        ∀ d, p = .read d → holdTagged (d + 1) tag variants false ms none = .ok () →
          holdTagged (d + 1) tag variants false ms' none = .ok ())
    (hfound : ∀ found, conformMembers schema (p.inside (schema f)).mode fields [] ms = .ok found →
      ∃ found', conformMembers schema (p.inside (schema f)).mode fields [] ms' = .ok found' ∧
        assemble fields found' = assemble fields found) :
    conform schema p.mode slot (.obj ms' none) = .ok v := by
  rw [(conform_of_item hitem).1] at h ⊢
  cases hform : schema f with
  | record fs =>
    rw [hform] at hknown hfound
    obtain rfl : fs = fields := Option.some.inj hknown
    obtain ⟨inner, vs, full, henter, hmembers, hput, rfl⟩ := (conform_record_iff hform).1 h
    obtain rfl := Place.mode_deeper henter
    obtain ⟨vs', hmembers', hsame⟩ := hfound vs hmembers
    exact (conform_record_iff hform).2 ⟨_, vs', full, henter, hmembers', hsame.trans hput, rfl⟩
  | tagged tag variants =>
    obtain ⟨inner, name, fs, vs, full, henter, hheld, hvariant, hmembers, hput, rfl⟩ :=
      (conform_tagged_iff hform).1 h
    obtain ⟨htaken, hholds⟩ := htags tag variants hform
    rw [hform] at hknown hfound
    rw [Layout.fields?, variantOf?_held hvariant] at hknown
    obtain rfl : fs = fields := Option.some.inj hknown
    obtain ⟨vs', hmembers', hsame⟩ := hfound vs hmembers
    refine (conform_tagged_iff hform).2 ⟨inner, name, fs, vs', full, henter, fun d hd => ?_,
      htaken.symm.trans hvariant, hmembers', hsame.trans hput, rfl⟩
    cases p with
    | read d' =>
      cases hd
      exact hholds d rfl (hheld d rfl)
    | held d' => cases hd
  | choice variants =>
    rw [hform] at hknown
    cases hknown
  | word names =>
    rw [hform] at hknown
    cases hknown

/-- A list comes into the same shape with an item that does. -/
theorem conformItems_replace {i : Item φ} {js₁ js₂ vs : List Json} {j j' : Json}
    (h : conformItems schema m i (js₁ ++ j :: js₂) = .ok vs)
    (hsame : ∀ v, conform schema m (.one i) j = .ok v → conform schema m (.one i) j' = .ok v) :
    conformItems schema m i (js₁ ++ j' :: js₂) = .ok vs := by
  induction js₁ generalizing vs with
  | nil =>
    rw [List.nil_append, conformItems] at h ⊢
    obtain ⟨v, hvalue, hothers⟩ := bind_eq_ok.1 h
    exact bind_eq_ok.2 ⟨v, hsame v hvalue, hothers⟩
  | cons x js₁ ih =>
    rw [List.cons_append, conformItems] at h ⊢
    obtain ⟨v, hvalue, h⟩ := bind_eq_ok.1 h
    obtain ⟨others, hrest, h⟩ := bind_eq_ok.1 h
    exact bind_eq_ok.2 ⟨v, hvalue, bind_eq_ok.2 ⟨others, ih hrest, h⟩⟩

theorem conformValues_replace {fields : List (Field φ)} {g : Field φ} {js₁ js₂ : List Json}
    {vs : List (String × Json)} {j j' : Json}
    (h : conformValues schema m fields none (js₁ ++ j :: js₂) = .ok vs)
    (hfield : fields[js₁.length]? = some g)
    (hsame : ∀ v, conform schema m g.slot j = .ok v → conform schema m g.slot j' = .ok v) :
    conformValues schema m fields none (js₁ ++ j' :: js₂) = .ok vs := by
  induction js₁ generalizing fields vs with
  | nil =>
    cases fields with
    | nil => simp at hfield
    | cons g' fields =>
      obtain rfl : g' = g := by simpa using hfield
      rw [List.nil_append, conformValues] at h ⊢
      obtain ⟨v, hvalue, hothers⟩ := bind_eq_ok.1 h
      exact bind_eq_ok.2 ⟨v, hsame v hvalue, hothers⟩
  | cons x js₁ ih =>
    cases fields with
    | nil => simp at hfield
    | cons g' fields =>
      rw [List.cons_append, conformValues] at h ⊢
      obtain ⟨v, hvalue, h⟩ := bind_eq_ok.1 h
      obtain ⟨others, hrest, h⟩ := bind_eq_ok.1 h
      exact bind_eq_ok.2 ⟨v, hvalue, bind_eq_ok.2 ⟨others, ih hrest (by simpa using hfield), h⟩⟩

end

theorem Intact.skip {j : Json} (h : Intact j) : Json.skip j = .ok () := by
  induction h with
  | null => rfl
  | bool b => rfl
  | num n => rfl
  | str content => rfl
  | @arr items hvalues ih =>
    have hinner : skip.skipList items = .ok () := by
      clear hvalues
      induction items with
      | nil => rfl
      | cons j items hothers =>
        rw [List.forall_mem_cons] at ih
        rw [skip.skipList]
        exact unit_bind_eq_ok.2 ⟨ih.1, hothers ih.2⟩
    rw [Json.skip]
    exact unit_bind_eq_ok.2 ⟨hinner, rfl⟩
  | @obj members hvalues ih =>
    have hinner : skip.skipMembers members = .ok () := by
      clear hvalues
      induction members with
      | nil => rfl
      | cons m members hothers =>
        rw [List.forall_mem_cons] at ih
        obtain ⟨k, j⟩ := m
        rw [skip.skipMembers]
        exact unit_bind_eq_ok.2 ⟨ih.1, hothers ih.2⟩
    rw [Json.skip]
    exact unit_bind_eq_ok.2 ⟨hinner, rfl⟩

/-! ### Presentations -/

/-- What can be held can be held in every presentation. -/
theorem Edit.hold {p : Place} {slot : Slot φ} {j j' : Json} (h : Edit schema p slot j j') {d : Nat}
    (hp : p = .held d) (hheld : Json.hold d j = .ok ()) : Json.hold d j' = .ok () := by
  induction h generalizing d with
  | order hitem hknown hperm =>
    rw [hold_obj_iff] at hheld ⊢
    exact ⟨hheld.1, fun m hm => hheld.2 m (hperm.mem_iff.mpr hm)⟩
  | add hitem hknown hother htag hadmits =>
    subst hp
    rw [Place.inside_held] at hadmits
    rw [hold_obj_iff] at hheld ⊢
    exact ⟨hheld.1, List.forall_mem_cons.2 ⟨⟨rfl, hadmits.hold⟩, hheld.2⟩⟩
  | member hitem hknown hfield htag hinner ih =>
    exact hold_obj_of_member hheld (ih (by rw [hp, Place.inside_held]))
  | item js₁ hinner ih => exact hold_arr_of_item js₁ hheld (ih (by rw [hp, Place.deeper]))
  | value js₁ hitem hform hfield hinner ih =>
    exact hold_arr_of_item js₁ hheld (ih (by rw [hp, Place.inside_held]))
  | @taggedValue _ _ _ _ _ _ _ _ t js₁ _ _ _ hitem hform hvariant hfield hinner ih =>
    exact hold_arr_of_item (t :: js₁) hheld (ih (by rw [hp, Place.inside_held]))
  | choice hitem hform hknown hinner ih =>
    exact hold_obj_of_member hheld (ih (by rw [hp, Place.inside_held]))

/-- Among the members of an object with a tag, one that is not the tag may be another that can be held. -/
theorem holdTagged_cons {d : Nat} {tag k : String} {variants : List (String × List (Field φ))}
    {ms : Members} {j : Json} (hk : k ≠ tag) :
    holdTagged d tag variants false ((some k, j) :: ms) none = .ok () ↔
      Json.hold d j = .ok () ∧ holdTagged d tag variants false ms none = .ok () := by
  rw [holdTagged, if_neg hk, unit_bind_eq_ok]

/-- A value comes into the same shape in every presentation. -/
theorem Edit.conform {p : Place} {slot : Slot φ} {j j' : Json} (h : Edit schema p slot j j') {v : Json}
    (hconforms : Json.conform schema p.mode slot j = .ok v) :
    Json.conform schema p.mode slot j' = .ok v := by
  induction h generalizing v with
  | order hitem hknown hperm =>
    refine conform_obj_of hitem hknown hconforms (fun tag variants hform => ?_)
      fun found hmembers => conformMembers_perm hmembers hperm
    refine ⟨variantOf?_perm hperm, fun d _ hheld => ?_⟩
    rw [holdTagged_iff] at hheld ⊢
    rw [← hperm.countP_eq]
    exact ⟨fun e he => hheld.1 e (hperm.mem_iff.mpr he), hheld.2⟩
  | @add p slot f fields ms k j hitem hknown hother htag hadmits =>
    refine conform_obj_of hitem hknown hconforms (fun tag variants hform => ?_)
      fun found hmembers => ⟨found, conformMembers_add hmembers hother hadmits.intact.skip, rfl⟩
    have hk : k ≠ tag := by
      rintro rfl
      exact htag (by rw [hform]; rfl)
    refine ⟨(variantOf?_cons ms j hk).symm, fun d hd hheld => (holdTagged_cons hk).2 ⟨?_, hheld⟩⟩
    rw [hform, hd] at hadmits
    exact hadmits.hold
  | @member p slot f fields g ms k j j' hitem hknown hfield htag hinner ih =>
    refine conform_obj_of hitem hknown hconforms (fun tag variants hform => ?_)
      fun found hmembers => ⟨found, conformMembers_replace hmembers hfield fun v => ih, rfl⟩
    have hk : k ≠ tag := by
      rintro rfl
      exact htag (by rw [hform]; rfl)
    refine ⟨by rw [variantOf?_cons ms j hk, variantOf?_cons ms j' hk], fun d hd hheld => ?_⟩
    obtain ⟨hhere, hothers⟩ := (holdTagged_cons hk).1 hheld
    exact (holdTagged_cons hk).2 ⟨hinner.hold (by rw [hform, hd]; rfl) hhere, hothers⟩
  | @item p i js₁ js₂ j j' hinner ih =>
    simp only [Json.conform, bind_eq_ok] at hconforms ⊢
    obtain ⟨mode, henter, vs, hitems, hrest⟩ := hconforms
    obtain rfl := Place.mode_deeper henter
    exact ⟨_, henter, vs, conformItems_replace hitems fun v => ih, hrest⟩
  | @value p slot f fields g js₁ js₂ j j' hitem hform hfield hinner ih =>
    rw [(conform_of_item hitem).2] at hconforms ⊢
    obtain ⟨mode, vs, henter, hvalues, rfl⟩ := (conform_values_iff hform).1 hconforms
    obtain rfl := Place.mode_deeper henter
    rw [hform] at ih
    exact (conform_values_iff hform).2
      ⟨_, vs, henter, conformValues_replace hvalues hfield fun v => ih, rfl⟩
  | @taggedValue p slot f tag name variants fields g t js₁ js₂ j j' hitem hform hvariant hfield hinner
      ih =>
    rw [(conform_of_item hitem).2] at hconforms ⊢
    obtain ⟨mode, name', fields', vs, henter, hheld, hvariant', hvalues, rfl⟩ :=
      (conform_taggedValues_iff hform).1 hconforms
    have hsame := (variant?_held hvariant').symm.trans hvariant
    cases hsame
    rw [hform] at ih
    refine (conform_taggedValues_iff hform).2 ⟨mode, name, fields, vs, henter, fun d hd => ?_,
      hvariant', conformValues_replace hvalues hfield fun v => ih, rfl⟩
    obtain ⟨hknown, hothers⟩ := hheld d hd
    refine ⟨hknown, ?_⟩
    rw [holdList_iff] at hothers ⊢
    simp only [List.forall_mem_append, List.forall_mem_cons] at hothers ⊢
    obtain ⟨hbefore, hhere, hbehind⟩ := hothers
    have hplace : p.inside (schema f) = .held (d + 1) := by
      cases p with
      | read d' =>
        cases hd
        rw [hform]
        rfl
      | held d' => cases hd
    exact ⟨hbefore, hinner.hold hplace hhere, hbehind⟩
  | @choice p slot value f variants k j j' hitem hform hknown hinner ih =>
    rw [(conform_of_item hitem).1] at hconforms ⊢
    rw [hform] at ih
    simp only [Json.conform, hform, hknown, bind_eq_ok] at hconforms ⊢
    obtain ⟨w, hvalue, hsame⟩ := hconforms
    exact ⟨w, ih hvalue, hsame⟩

/-- The same after any number of edits. -/
theorem conform_of_edits {p : Place} {slot : Slot φ} {j j' : Json}
    (h : Relation.ReflTransGen (Edit schema p slot) j j') {v : Json}
    (hconforms : conform schema p.mode slot j = .ok v) :
    conform schema p.mode slot j' = .ok v := by
  induction h with
  | refl => exact hconforms
  | tail _ hedit ih => exact hedit.conform ih

end DataflowSynth.Json
