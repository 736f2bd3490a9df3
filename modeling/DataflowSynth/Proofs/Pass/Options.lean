/-
What the options of a pass are worth.

Settings are texts, and a pass looks for its own among them.  Reading the options cannot fail: of the
settings of an option the last one that the option takes holds, and if it takes none the option has
its default.  A setting with a value goes through the reader of the option, which knows its kind.  A
bare setting does not: it switches any option on, and an option that is no flag then holds a flag,
at which the pass that asks for a stream gives up.  So the options have the kind that they were
declared with unless such a setting is the last one taken.
-/
import DataflowSynth.Pass.Run
import DataflowSynth.Proofs.Job
import DataflowSynth.Proofs.OrderedMap

namespace DataflowSynth.Pass

open Build

/-- Whether a value is one of a flag; the others are streams. -/
def Value.isFlag : Value → Bool
  | .flag _ => true
  | .stream _ => false

/-! ### Settings -/

/-- The text is a setting of the option with this name, with or without a value. -/
inductive Gives (p : Pass) (key : String) : String → Option String → Prop
  | bare : Gives p key (p.name ++ ":" ++ key) none
  | text (raw : String) : Gives p key (p.name ++ ":" ++ key ++ "=" ++ raw) (some raw)

theorem cut_eq_some_iff {c : Char} {s before after : String} :
    cut c s = some (before, after) ↔ s.toList = before.toList ++ c :: after.toList ∧
      c ∉ before.toList := by
  rw [← cutList_eq_some_iff, cut, Option.map_eq_some_iff]
  constructor
  · rintro ⟨parts, hfound, hsame⟩
    cases hsame
    simpa using hfound
  · intro hfound
    exact ⟨_, hfound, by simp⟩

theorem cut_eq_none_iff {c : Char} {s : String} : cut c s = none ↔ c ∉ s.toList := by
  constructor
  · intro h hc
    obtain ⟨before, after, hsplit, hfirst⟩ := List.eq_append_cons_of_mem hc
    have hfound : cut c s = some (String.ofList before, String.ofList after) :=
      cut_eq_some_iff.mpr (by simpa using ⟨hsplit, hfirst⟩)
    rw [h] at hfound
    cases hfound
  · intro h
    cases hfound : cut c s with
    | none => rfl
    | some parts =>
      obtain ⟨hsame, -⟩ := cut_eq_some_iff.mp hfound
      exact absurd (by rw [hsame]; simp) h

theorem colon_not_mem_name (p : Pass) : ':' ∉ p.name.toList := by
  cases p <;> decide

/-- What is read as a setting of a pass is one. -/
theorem settingFor?_eq_some_iff {p : Pass} {setting key : String} {raw : Option String} :
    p.settingFor? setting = some (key, raw) ↔ '=' ∉ key.toList ∧ Gives p key setting raw := by
  constructor
  · intro h
    unfold settingFor? at h
    split at h
    · cases h
    · next target rest hfound =>
      obtain ⟨hchars, -⟩ := cut_eq_some_iff.mp hfound
      split at h
      · cases h
      · next hmine =>
        have hmine : target = p.name := not_not.mp hmine
        subst hmine
        have hwhole : setting = p.name ++ ":" ++ rest := by
          apply String.toList_injective
          simp [hchars]
        split at h
        · next key' raw' hparts =>
          cases h
          obtain ⟨hchars', hplain⟩ := cut_eq_some_iff.mp hparts
          have hfront : rest = key ++ "=" ++ raw' := by
            apply String.toList_injective
            simp [hchars']
          refine ⟨hplain, ?_⟩
          rw [hwhole, hfront, ← String.append_assoc, ← String.append_assoc]
          exact .text raw'
        · next hbare =>
          cases h
          rw [hwhole]
          exact ⟨cut_eq_none_iff.mp hbare, .bare⟩
  · rintro ⟨hplain, hgives⟩
    cases hgives with
    | bare =>
      have hfound : cut ':' (p.name ++ ":" ++ key) = some (p.name, key) :=
        cut_eq_some_iff.mpr ⟨by simp, colon_not_mem_name p⟩
      simp [settingFor?, hfound, cut_eq_none_iff.mpr hplain]
    | text raw =>
      have hfound : cut ':' (p.name ++ ":" ++ key ++ "=" ++ raw) =
          some (p.name, key ++ "=" ++ raw) :=
        cut_eq_some_iff.mpr ⟨by simp, colon_not_mem_name p⟩
      have hparts : cut '=' (key ++ "=" ++ raw) = some (key, raw) :=
        cut_eq_some_iff.mpr ⟨by simp, hplain⟩
      simp [settingFor?, hfound, hparts]

/-! ### Which setting holds -/

/-- The option takes the setting, which gives it the value. -/
def Takes (p : Pass) (o : Declaration) (setting : String) (v : Value) : Prop :=
  ∃ raw, Gives p o.name setting raw ∧ o.value? raw = some v

/-- The setting reads as a value of the kind that the option was declared with. -/
def Parses (p : Pass) (o : Declaration) (setting : String) (v : Value) : Prop :=
  (∃ raw, Gives p o.name setting (some raw) ∧ o.parse? raw = some v) ∨
    Gives p o.name setting none ∧ o.default.isFlag ∧ v = .flag true

/-- The last of the settings that has a value. -/
def Last (holds : String → Value → Prop) (settings : List String) (setting : String) (v : Value) :
    Prop :=
  ∃ before after, settings = before ++ setting :: after ∧ holds setting v ∧
    ∀ later ∈ after, ∀ w, ¬ holds later w

/-- The last value among the settings, or the one from before. -/
def Settled (holds : String → Value → Prop) (start : Value) (settings : List String) (v : Value) :
    Prop :=
  (∃ setting, Last holds settings setting v) ∨
    v = start ∧ ∀ setting ∈ settings, ∀ w, ¬ holds setting w

/-- The last setting that the option takes is a bare one. -/
def EndsBare (p : Pass) (o : Declaration) (settings : List String) : Prop :=
  Last (Takes p o) settings (p.name ++ ":" ++ o.name) (.flag true)

theorem Last.cons {holds : String → Value → Prop} {settings : List String} {setting : String}
    {v : Value} (h : Last holds settings setting v) (first : String) :
    Last holds (first :: settings) setting v := by
  obtain ⟨before, after, rfl, hhere, hlater⟩ := h
  exact ⟨first :: before, after, rfl, hhere, hlater⟩

/-- A setting that holds starts afresh. -/
theorem Settled.cons_of_holds {holds : String → Value → Prop} {settings : List String}
    {start v w : Value} {setting : String} (hhere : holds setting w)
    (h : Settled holds w settings v) : Settled holds start (setting :: settings) v := by
  rcases h with ⟨last, h⟩ | ⟨rfl, h⟩
  · exact .inl ⟨last, h.cons setting⟩
  · exact .inl ⟨setting, [], settings, rfl, hhere, h⟩

theorem Settled.uncons {holds : String → Value → Prop} {settings : List String} {start v : Value}
    {setting : String} (h : Settled holds start (setting :: settings) v) :
    (∃ w, holds setting w ∧ Settled holds w settings v) ∨
      (∀ w, ¬ holds setting w) ∧ Settled holds start settings v := by
  by_cases hhere : ∃ w, holds setting w
  · obtain ⟨w, hw⟩ := hhere
    rcases h with ⟨last, before, after, hsplit, hheld, hlater⟩ | ⟨-, hnone⟩
    · cases before with
      | nil =>
        cases hsplit
        exact .inl ⟨v, hheld, .inr ⟨rfl, hlater⟩⟩
      | cons first before =>
        cases hsplit
        exact .inl ⟨w, hw, .inl ⟨last, before, after, rfl, hheld, hlater⟩⟩
    · exact absurd hw (hnone setting List.mem_cons_self w)
  · refine .inr ⟨fun w hw => hhere ⟨w, hw⟩, ?_⟩
    rcases h with ⟨last, before, after, hsplit, hheld, hlater⟩ | ⟨hsame, hnone⟩
    · cases before with
      | nil =>
        cases hsplit
        exact absurd ⟨v, hheld⟩ hhere
      | cons first before =>
        cases hsplit
        exact .inl ⟨last, before, after, rfl, hheld, hlater⟩
    · exact .inr ⟨hsame, (List.forall_mem_cons.mp hnone).2⟩

/-- There is one last value, if a setting has no more than one. -/
theorem Settled.unique {holds : String → Value → Prop}
    (hone : ∀ setting v w, holds setting v → holds setting w → v = w) {settings : List String}
    {start v w : Value} (hv : Settled holds start settings v) (hw : Settled holds start settings w) :
    v = w := by
  induction settings generalizing start with
  | nil =>
    rcases hv with ⟨_, before, _, hsplit, _⟩ | ⟨rfl, -⟩
    · cases before <;> cases hsplit
    · rcases hw with ⟨_, before, _, hsplit, _⟩ | ⟨rfl, -⟩
      · cases before <;> cases hsplit
      · rfl
  | cons setting settings ih =>
    rcases hv.uncons with ⟨x, hx, hv⟩ | ⟨hnot, hv⟩
    · rcases hw.uncons with ⟨y, hy, hw⟩ | ⟨hnot', hw⟩
      · obtain rfl := hone setting x y hx hy
        exact ih hv hw
      · exact absurd hx (hnot' x)
    · rcases hw.uncons with ⟨y, hy, hw⟩ | ⟨-, hw⟩
      · exact absurd hy (hnot y)
      · exact ih hv hw

theorem Settled.cons_of_not {holds : String → Value → Prop} {settings : List String}
    {start v : Value} {setting : String} (hnot : ∀ w, ¬ holds setting w)
    (h : Settled holds start settings v) : Settled holds start (setting :: settings) v := by
  rcases h with ⟨last, h⟩ | ⟨rfl, h⟩
  · exact .inl ⟨last, h.cons setting⟩
  · exact .inr ⟨rfl, List.forall_mem_cons.mpr ⟨hnot, h⟩⟩

/-! ### Reading the settings -/

/-- The options of a pass have these values, and there are no others. -/
structure Assigns (p : Pass) (values : Values) (value : Declaration → Value) : Prop where
  keys : ∀ key, key ∈ values.keys ↔ ∃ o ∈ p.declarations, o.name = key
  find : ∀ o ∈ p.declarations, values.find? o.name = some (value o)

theorem eq_of_name {p : Pass} {o o' : Declaration} (ho : o ∈ p.declarations)
    (ho' : o' ∈ p.declarations) (_ : o.name = o'.name) : o = o' := by
  cases p <;> simp_all [declarations]

theorem equals_not_mem_name {p : Pass} {o : Declaration} (ho : o ∈ p.declarations) :
    '=' ∉ o.name.toList := by
  cases p <;> simp only [declarations, List.mem_singleton, List.not_mem_nil] at ho <;> subst ho <;>
    decide

theorem assigns_defaults (p : Pass) : Assigns p p.defaults Declaration.default := by
  cases p <;> constructor <;>
    simp [defaults, declarations, OrderedMap.ofList, OrderedMap.keys_put, eq_comm]

/-- A new value for one of the options. -/
theorem Assigns.put {p : Pass} {values : Values} {value : Declaration → Value}
    (h : Assigns p values value) {o : Declaration} (ho : o ∈ p.declarations) (v : Value) :
    Assigns p (values.put o.name v) fun o' => if o'.name = o.name then v else value o' := by
  refine ⟨fun key => ?_, fun o' ho' => ?_⟩
  · have hknown : o.name ∈ values.keys := (h.keys o.name).mpr ⟨o, ho, rfl⟩
    rw [← h.keys, OrderedMap.keys_put]
    by_cases hsame : key = o.name
    · simp [hsame, hknown]
    · simp [hsame]
  · by_cases hsame : o'.name = o.name
    · simp [hsame]
    · rw [OrderedMap.find?_put_of_ne _ hsame, if_neg hsame, h.find o' ho']

/-- A setting of another option, or of another pass, is not taken. -/
theorem not_takes {p : Pass} {o : Declaration} (ho : o ∈ p.declarations) {setting : String}
    (h : ∀ raw, p.settingFor? setting ≠ some (o.name, raw)) (v : Value) : ¬ Takes p o setting v := by
  rintro ⟨raw, hgives, -⟩
  exact h raw (settingFor?_eq_some_iff.mpr ⟨equals_not_mem_name ho, hgives⟩)

theorem takes_iff {p : Pass} {o : Declaration} (ho : o ∈ p.declarations) {setting : String}
    {raw : Option String} (h : p.settingFor? setting = some (o.name, raw)) {v : Value} :
    Takes p o setting v ↔ o.value? raw = some v := by
  constructor
  · rintro ⟨raw', hgives, hread⟩
    have hsame := settingFor?_eq_some_iff.mpr ⟨equals_not_mem_name ho, hgives⟩
    rw [h] at hsame
    cases hsame
    exact hread
  · intro hread
    exact ⟨raw, (settingFor?_eq_some_iff.mp h).2, hread⟩

section

variable {σ : Type} {s : Traced σ} {p : Pass}

/-- A setting gives each option the value that the option takes from it, and leaves the others. -/
theorem wp_applySetting {acc : Values × List String} {start : Declaration → Value}
    (h : Assigns p acc.1 start) {setting : String} {given : String × Option String}
    (hfound : p.settingFor? setting = some given) :
    wp (p.applySetting acc given)
      (fun r t => t.state = s.state ∧ ∃ next, Assigns p r.1 next ∧ ∀ o ∈ p.declarations,
        Takes p o setting (next o) ∨ (∀ v, ¬ Takes p o setting v) ∧ next o = start o)
      (fun _ _ => False) s := by
  obtain ⟨key, raw⟩ := given
  rw [applySetting]
  cases hknown : p.declarations.find? (·.name = key) with
  | none =>
    simp only [wp_bind, wp_log, wp_pure]
    refine ⟨trivial, start, h, fun o ho => .inr ⟨not_takes ho fun raw' hsame => ?_, rfl⟩⟩
    rw [hfound] at hsame
    cases hsame
    exact absurd (List.find?_eq_none.mp hknown o ho) (by simp)
  | some o =>
    have ho := List.mem_of_find?_eq_some hknown
    have hname : o.name = key := by simpa using List.find?_some hknown
    subst hname
    have hothers : ∀ o' ∈ p.declarations, o'.name ≠ o.name → ∀ v, ¬ Takes p o' setting v :=
      fun o' ho' hdiffer => not_takes ho' (by simp [hfound, hdiffer.symm])
    cases hread : o.value? raw with
    | none =>
      simp only [hread, wp_bind, wp_log, wp_pure]
      refine ⟨trivial, start, h, fun o' ho' => .inr ⟨fun v htakes => ?_, rfl⟩⟩
      by_cases hsame : o'.name = o.name
      · obtain rfl := eq_of_name ho' ho hsame
        rw [takes_iff ho hfound, hread] at htakes
        cases htakes
      · exact hothers o' ho' hsame v htakes
    | some v =>
      simp only [hread, wp_pure]
      refine ⟨trivial, _, h.put ho v, fun o' ho' => ?_⟩
      by_cases hsame : o'.name = o.name
      · obtain rfl := eq_of_name ho' ho hsame
        exact .inl ((takes_iff ho hfound).mpr (by rw [if_pos rfl, hread]))
      · exact .inr ⟨hothers o' ho' hsame, if_neg hsame⟩

/-- The settings that are read one after the other leave every option with the last value it takes. -/
theorem wp_applySettings (settings : List String) {acc : Values × List String}
    {start : Declaration → Value} (h : Assigns p acc.1 start) :
    wp ((settings.filterMap p.settingFor?).foldlM p.applySetting acc)
      (fun r t => t.state = s.state ∧ ∃ value, Assigns p r.1 value ∧
        ∀ o ∈ p.declarations, Settled (Takes p o) (start o) settings (value o))
      (fun _ _ => False) s := by
  induction settings generalizing acc start s with
  | nil => exact ⟨rfl, start, h, fun o _ => .inr ⟨rfl, by simp⟩⟩
  | cons setting settings ih =>
    cases hfound : p.settingFor? setting with
    | none =>
      rw [List.filterMap_cons_none hfound]
      refine wp_mono (ih h) (fun r t ht => ?_) fun _ _ h => h
      obtain ⟨hstate, value, hassigns, hsettled⟩ := ht
      exact ⟨hstate, value, hassigns, fun o ho =>
        (hsettled o ho).cons_of_not (not_takes ho (by simp [hfound]))⟩
    | some given =>
      rw [List.filterMap_cons_some hfound, List.foldlM_cons, wp_bind]
      refine wp_mono (wp_applySetting h hfound) (fun acc' t ht => ?_) fun _ _ h => h
      obtain ⟨hstate, next, hassigns, hstep⟩ := ht
      refine wp_mono (ih hassigns) (fun r u hu => ?_) fun _ _ h => h
      obtain ⟨hstate', value, hassigns', hsettled⟩ := hu
      refine ⟨hstate'.trans hstate, value, hassigns', fun o ho => ?_⟩
      rcases hstep o ho with htakes | ⟨hnot, hsame⟩
      · exact (hsettled o ho).cons_of_holds htakes
      · exact (hsame ▸ hsettled o ho).cons_of_not hnot

theorem wp_values (settings : List String) :
    wp (p.values settings) (fun values t => t.state = s.state ∧ ∃ value, Assigns p values value ∧
      ∀ o ∈ p.declarations, Settled (Takes p o) o.default settings (value o))
      (fun _ _ => False) s := by
  rw [values, wp_bind]
  refine wp_mono (wp_applySettings settings (assigns_defaults p)) (fun r t ht => ?_) fun _ _ h => h
  obtain ⟨vs, applied⟩ := r
  dsimp only
  split
  · simpa only [wp_bind, wp_log, wp_pure] using ht
  · simpa only [wp_bind, wp_pure] using ht

end

/-! ### Kinds -/

theorem isFlag_parse? {o : Declaration} {raw : String} {v : Value} (h : o.parse? raw = some v) :
    v.isFlag = o.default.isFlag := by
  unfold Declaration.parse? at h
  split at h
  · next on hdefault =>
    unfold Value.flagOfText? at h
    rw [hdefault]
    split at h <;> cases h <;> rfl
  · next target hdefault =>
    obtain ⟨d, -, rfl⟩ := Option.map_eq_some_iff.mp h
    rw [hdefault]
    rfl

theorem isFlag_of_parses {p : Pass} {o : Declaration} {setting : String} {v : Value}
    (h : Parses p o setting v) : v.isFlag = o.default.isFlag := by
  rcases h with ⟨raw, -, hread⟩ | ⟨-, hflag, rfl⟩
  · exact isFlag_parse? hread
  · rw [hflag]
    rfl

theorem takes_of_parses {p : Pass} {o : Declaration} {setting : String} {v : Value}
    (h : Parses p o setting v) : Takes p o setting v := by
  rcases h with ⟨raw, hgives, hread⟩ | ⟨hgives, -, rfl⟩
  · exact ⟨some raw, hgives, hread⟩
  · exact ⟨none, hgives, rfl⟩

/-- A setting that is taken parses, unless it is bare and the option no flag. -/
theorem parses_or_bare {p : Pass} {o : Declaration} {setting : String} {v : Value}
    (h : Takes p o setting v) : Parses p o setting v ∨
      setting = p.name ++ ":" ++ o.name ∧ v = .flag true ∧ o.default.isFlag = false := by
  obtain ⟨raw, hgives, hread⟩ := h
  cases hgives with
  | bare =>
    obtain rfl : Value.flag true = v := Option.some.inj hread
    cases hkind : o.default.isFlag with
    | true => exact .inl (.inr ⟨.bare, hkind, rfl⟩)
    | false => exact .inr ⟨rfl, rfl, rfl⟩
  | text raw => exact .inl (.inl ⟨raw, .text raw, hread⟩)

/-- Unless a bare setting is the last one that is taken, the value is the last one that parses. -/
theorem settled_parses {p : Pass} {o : Declaration} {settings : List String} {v : Value}
    (h : Settled (Takes p o) o.default settings v)
    (hsound : o.default.isFlag ∨ ¬ EndsBare p o settings) :
    v.isFlag = o.default.isFlag ∧ Settled (Parses p o) o.default settings v := by
  rcases h with ⟨setting, before, after, rfl, hhere, hlater⟩ | ⟨rfl, hnone⟩
  · rcases parses_or_bare hhere with hparses | ⟨rfl, rfl, hkind⟩
    · exact ⟨isFlag_of_parses hparses, .inl ⟨setting, before, after, rfl, hparses,
        fun x hx w hparses' => hlater x hx w (takes_of_parses hparses')⟩⟩
    · rw [hkind] at hsound
      exact absurd ⟨before, after, rfl, hhere, hlater⟩ (hsound.resolve_left (by simp))
  · exact ⟨rfl, .inr ⟨rfl, fun x hx w hparses => hnone x hx w (takes_of_parses hparses)⟩⟩

theorem takes_unique {p : Pass} {o : Declaration} (ho : o ∈ p.declarations) {setting : String}
    {v w : Value} (hv : Takes p o setting v) (hw : Takes p o setting w) : v = w := by
  obtain ⟨raw, hgives, hread⟩ := hv
  have hfound := settingFor?_eq_some_iff.mpr ⟨equals_not_mem_name ho, hgives⟩
  exact Option.some.inj (hread.symm.trans ((takes_iff ho hfound).mp hw))

theorem eq_of_endsBare {p : Pass} {o : Declaration} (ho : o ∈ p.declarations)
    {settings : List String} {v : Value} (h : Settled (Takes p o) o.default settings v)
    (hbare : EndsBare p o settings) : v = .flag true := by
  have hone : ∀ setting v w, Takes p o setting v → Takes p o setting w → v = w :=
    fun _ _ _ => takes_unique ho
  exact h.unique hone (.inl ⟨_, hbare⟩)

/-! ### Passes with options -/

section

variable {host : Host} {s : Traced Job}

theorem wp_work_actionScheduler :
    wp (work host .actionScheduler) (fun _ _ => True) (fun _ _ => False) s := by
  simp only [work, wp_bind, wp_look]
  refine wp_mono (wp_values _) (fun vs t ht => ?_) fun _ _ h => h
  obtain ⟨-, value, hassigns, hsettled⟩ := ht
  have hmine : skipFillBuffer ∈ Pass.actionScheduler.declarations := List.mem_singleton_self _
  obtain ⟨hkind, -⟩ := settled_parses (hsettled _ hmine) (.inl rfl)
  cases hon : value skipFillBuffer with
  | flag b => simp [flagValue, hassigns.find _ hmine, hon]
  | stream target =>
    rw [hon] at hkind
    cases hkind

theorem wp_work_designCheck :
    wp (work host .designCheck) (fun _ _ => ¬ EndsBare .designCheck orderStream s.state.settings)
      (fun e _ => e = .abort (.notAStream "true") ∧
        EndsBare .designCheck orderStream s.state.settings) s := by
  simp only [work, wp_bind, wp_look]
  refine wp_mono (wp_values _) (fun vs t ht => ?_) fun _ _ h => h.elim
  obtain ⟨-, value, hassigns, hsettled⟩ := ht
  have hmine : orderStream ∈ Pass.designCheck.declarations := List.mem_singleton_self _
  have hfound := hassigns.find _ hmine
  by_cases hbare : EndsBare .designCheck orderStream s.state.settings
  · rw [eq_of_endsBare hmine (hsettled _ hmine) hbare] at hfound
    simp [streamValue, hfound, hbare, Value.text]
  · obtain ⟨hkind, -⟩ := settled_parses (hsettled _ hmine) (.inr hbare)
    cases htarget : value orderStream with
    | flag b =>
      rw [htarget] at hkind
      cases hkind
    | stream target' =>
      rw [htarget] at hfound
      simp [streamValue, hfound, hbare]

end

/-- Reading the options of a pass does not fail.  Every option has the value of the last setting that
parses as its kind, or else its default, unless the last setting that it takes is a bare one and the
option no flag: then it holds a flag.  A pass that asks for a stream aborts at that, and otherwise
passes can always be set up. -/
theorem options_settle (host : Host) (s : Traced Job) :
    (∀ (p : Pass) (settings : List String), ∃ values t, p.values settings s = .ok values t ∧
      t.state = s.state ∧ (∀ key, key ∈ values.keys ↔ ∃ o ∈ p.declarations, o.name = key) ∧
      ∀ o ∈ p.declarations, ∃ v, values.find? o.name = some v ∧
        ((o.default.isFlag ∨ ¬ EndsBare p o settings) →
          v.isFlag = o.default.isFlag ∧ Settled (Parses p o) o.default settings v) ∧
        (o.default.isFlag = false ∧ EndsBare p o settings → v = .flag true)) ∧
    (∃ begin t, work host .actionScheduler s = .ok begin t) ∧
    (¬ EndsBare .designCheck orderStream s.state.settings →
      ∃ begin t, work host .designCheck s = .ok begin t) ∧
    (EndsBare .designCheck orderStream s.state.settings →
      ∃ t, work host .designCheck s = .error (.abort (.notAStream "true")) t) := by
  refine ⟨fun p settings => ?_, ?_, fun hsound => ?_, fun hbare => ?_⟩
  · obtain ⟨values, t, hrun, hstate, value, hassigns, hsettled⟩ := exists_of_wp (wp_values settings)
    refine ⟨values, t, hrun, hstate, hassigns.keys, fun o ho => ⟨value o, hassigns.find o ho, ?_, ?_⟩⟩
    · exact settled_parses (hsettled o ho)
    · exact fun h => eq_of_endsBare ho (hsettled o ho) h.2
  · obtain ⟨begin, t, hrun, -⟩ := exists_of_wp wp_work_actionScheduler
    exact ⟨begin, t, hrun⟩
  · have hbuilt : wp (work host .designCheck) _ _ s := wp_work_designCheck
    exact (exists_of_wp (wp_mono hbuilt (fun _ _ h => h) fun _ _ h => hsound h.2)).imp
      fun _ ⟨t, hrun, _⟩ => ⟨t, hrun⟩
  · have hbuilt : wp (work host .designCheck) _ _ s := wp_work_designCheck
    unfold wp at hbuilt
    cases hrun : work host .designCheck s with
    | ok begin t =>
      rw [hrun] at hbuilt
      exact absurd hbare hbuilt
    | error e t =>
      rw [hrun] at hbuilt
      exact ⟨t, by rw [hbuilt.1]⟩

/-- A job for an actor that has nothing but a name, with these settings. -/
def idleJob (settings : List String) : Traced Job :=
  ⟨{ Job.new { name := "idle" } with settings }, #[]⟩

/-- A bare setting does no harm if a value is given behind it. -/
theorem options_settle_order :
    ∃ begin t, work .closed .designCheck
      (idleJob ["design-check:order", "design-check:order=<out>"]) = .ok begin t := by
  refine (options_settle _ _).2.2.1 ?_
  rintro ⟨before, after, hsplit, -, hlater⟩
  have htaken : Takes .designCheck orderStream "design-check:order=<out>" (.stream .stdout) :=
    ⟨some "<out>", .text "<out>", rfl⟩
  match before with
  | [] =>
    cases hsplit
    exact hlater _ List.mem_cons_self _ htaken
  | [first] =>
    have hsame : "design-check:order=<out>" = "design-check" ++ ":" ++ "order" :=
      (List.cons.inj (List.cons.inj hsplit).2).1
    exact absurd hsame (by decide)
  | first :: second :: before =>
    have hshort := congrArg List.length hsplit
    simp [idleJob] at hshort

/-- A bare setting of the order of components: the option holds a flag, and the check that asks for a
stream aborts. -/
theorem bare_order_aborts :
    (∃ values t, Pass.designCheck.values ["design-check:order"] (idleJob []) = .ok values t ∧
      values.find? "order" = some (.flag true)) ∧
      ∃ t, work .closed .designCheck (idleJob ["design-check:order"]) =
        .error (.abort (.notAStream "true")) t := by
  constructor
  · exact ⟨_, _, rfl, rfl⟩
  · exact ⟨_, rfl⟩

end DataflowSynth.Pass
