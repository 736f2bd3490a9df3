/-
The marks of a copy.

The last that is done to the copy of a module concerns the copy alone: it is told which of its children
are feedback points and, if it is the copy of a task, what its body is.  With that the copy is complete,
and so are its buffers.
-/
import DataflowSynth.Proofs.Clone.Injection

namespace DataflowSynth.Netlist

open Build

variable {pins lo hi : Nat} {base n s t t' t'' : Netlist} {u : Traced Netlist}
  {c d copy : ComponentId} {x x' y z : Component} {map map' : Correspondence}

/-! ### Changing one component -/

/-- `c` has become `y`, and nothing else has changed. -/
structure Rewritten (c : ComponentId) (y : Component) (t t' : Netlist) : Prop where
  self : t'.components.get? c = some y
  others : ∀ d, d ≠ c → t'.components.get? d = t.components.get? d
  ports : t'.ports = t.ports
  buses : t'.buses = t.buses
  exits : t'.exits = t.exits

theorem Rewritten.refl (hx : t.components.get? c = some x) : Rewritten c x t t :=
  ⟨hx, fun _ _ => rfl, rfl, rfl, rfl⟩

theorem Rewritten.trans (h : Rewritten c y t t') (h' : Rewritten c z t' t'') :
    Rewritten c z t t'' where
  self := h'.self
  others d hd := (h'.others d hd).trans (h.others d hd)
  ports := h'.ports.trans h.ports
  buses := h'.buses.trans h.buses
  exits := h'.exits.trans h.exits

theorem Rewritten.spares (h : Rewritten c y t t') : Spares (· = c) t t' where
  components d x hx hd := ⟨x, (h.others d hd).trans hx, rfl⟩
  ports _ y hy _ := ⟨y, h.ports ▸ hy, rfl⟩
  exits _ _ hy _ := h.exits ▸ hy
  buses _ z _ hz _ _ := ⟨z, h.buses ▸ hz, rfl⟩

/-- Twins depend on terminals only. -/
theorem Rewritten.twins (h : Rewritten c y t t') (htwins : TerminalTwin n t map x x') :
    TerminalTwin n t' map x x' := by
  have hbus : ∀ {b b'}, BusTwin n t map b b' → BusTwin n t' map b b' := fun hb => by
    rwa [BusTwin, h.buses]
  refine ⟨htwins.ports.imp fun p p' hp => ?_, htwins.exits.imp fun a b hab => ⟨hab.1, ?_⟩⟩
  · rwa [PortTwin, h.ports]
  · obtain ⟨hmap, w, w', hw, hw', htag, hbuses⟩ := hab.2
    exact ⟨hmap, w, w', hw, h.exits ▸ hw', htag, hbuses.imp fun _ _ => hbus⟩

theorem rewritten_changeComponent (hx : u.state.components.get? c = some x)
    (f : Component → Component) :
    wp (changeComponent c f) (fun _ v => Rewritten c (f x) u.state v.state) Never u :=
  (wp_changeComponent (Arena.lt_of_get? hx)).mpr
    ⟨(Arena.get?_modify_self _ _ _).trans (congrArg _ hx),
      fun _ hd => Arena.get?_modify_of_ne _ (Ne.symm hd) _, rfl, rfl, rfl⟩

/-! ### Feedback points -/

/-- The module with these feedback points. -/
def Component.withFeedback (x : Component) (points : List ComponentId) : Component :=
  { x with interior := x.interior.map fun i => { i with feedback := points } }

theorem Component.withFeedback_self {i : Interior} (hi : x.interior = some i) :
    x.withFeedback i.feedback = x := by
  rw [withFeedback, hi]
  show { x with interior := some i } = x
  rw [← hi]

theorem addFeedbackPoint_ok {i : Interior} (hx : u.state.components.get? c = some x)
    (hi : x.interior = some i) (hy : u.state.components.get? d = some y)
    (howner : y.owner = some c) :
    wp (addFeedbackPoint c d) (fun _ v => Rewritten c
      (x.withFeedback (insertAscending d i.feedback)) u.state v.state) Never u := by
  rw [addFeedbackPoint, wp_bind]
  refine (wp_component hy).mpr ?_
  simp only [howner, ne_eq, not_true_eq_false, if_false, changeInterior, wp_bind]
  refine (wp_interior hx hi).mpr ?_
  have hsame : x.withFeedback (insertAscending d i.feedback) = { x with
      interior := x.interior.map fun i => { i with feedback := insertAscending d i.feedback } } := by
    simp only [Component.withFeedback, hi, Option.map_some]
  rw [hsame]
  exact rewritten_changeComponent hx _

/-- What a module owns is copied to what its copy owns. -/
def KidsFollow (n base t : Netlist) (map : Correspondence) (c copy : ComponentId) : Prop :=
  ∀ d, Kid n c d → ∃ d' y, map.components.find? d = some d' ∧ Ref.New base t (.component d') ∧
    t.components.get? d' = some y ∧ y.owner = some copy

/-- A netlist of which it is known that it has grown from `base` and has a new component. -/
abbrev HasCopy (pins : Nat) (base : Netlist) (copy : ComponentId) (t : Netlist) : Prop :=
  (Scope.beyond pins base).Knows [.has (.component copy)] t

theorem copyFeedback_ok {points : List ComponentId} {i' : Interior}
    (hs : HasCopy pins base copy u.state)
    (hx' : u.state.components.get? copy = some x') (hi' : x'.interior = some i')
    (hpoints : ∀ d ∈ points, ∃ d' y, map.components.find? d = some d' ∧ Ref.New base u.state
      (.component d') ∧ u.state.components.get? d' = some y ∧ y.owner = some copy) :
    wp (points.forM fun point => do
        addFeedbackPoint copy (← Build.expect .feedbackNotCopied (map.components.find? point)))
      (fun _ v => HasCopy pins base copy v.state ∧ u.state.Grows v.state ∧
        ∃ points', Rewritten copy (x'.withFeedback points') u.state v.state ∧
          ∀ d', d' ∈ points' ↔ d' ∈ i'.feedback ∨ ∃ d ∈ points, map.components.find? d = some d')
      Never u := by
  induction points generalizing u x' i' with
  | nil =>
      refine ⟨hs, .refl _, i'.feedback, ?_, by simp⟩
      rw [Component.withFeedback_self hi']
      exact .refl hx'
  | cons d points ih =>
      obtain ⟨d', y, hfind, hnew, hy, howner⟩ := hpoints d (by simp)
      rw [wp_forM_cons, wp_bind, hfind, wp_expect_some]
      have hknows : (Scope.beyond pins base).Knows
          [.has (.component copy), .has (.component d')] u.state :=
        ⟨hs.sound, by simpa using ⟨hs.facts (.has (.component copy)) (by simp), hnew⟩⟩
      refine wp_mono ((safe_addFeedbackPoint (by simp) (by simp)).along hknows
        (addFeedbackPoint_ok hx' hi' hy howner)) (fun _ v hv => ?_) fun _ _ h => h
      obtain ⟨hknows', hevolves, hrewritten⟩ := hv
      have hmarked : (x'.withFeedback (insertAscending d' i'.feedback)).interior =
          some { i' with feedback := insertAscending d' i'.feedback } := by
        simp [Component.withFeedback, hi']
      refine wp_mono (ih (hknows'.mono (by simp)) hrewritten.self hmarked fun e he => ?_)
        (fun _ w hw => ?_) fun _ _ h => h
      · obtain ⟨e', z, hfind', hnew', hz, howner'⟩ := hpoints e (by simp [he])
        refine ⟨e', ?_⟩
        by_cases heq : e' = copy
        · subst heq
          cases hx'.symm.trans hz
          exact ⟨_, hfind', hnew'.mono hevolves.grows, hrewritten.self, howner'⟩
        · exact ⟨z, hfind', hnew'.mono hevolves.grows, (hrewritten.others e' heq).trans hz, howner'⟩
      · obtain ⟨hcopy, hgrows, points', hrewritten', hmem⟩ := hw
        refine ⟨hcopy, hevolves.grows.trans hgrows, points', ?_, fun e => ?_⟩
        · have hsame : (x'.withFeedback (insertAscending d' i'.feedback)).withFeedback points' =
              x'.withFeedback points' := by
            simp only [Component.withFeedback, hi', Option.map_some]
          exact hsame ▸ hrewritten.trans hrewritten'
        · rw [hmem, mem_insertAscending]
          simp only [List.mem_cons, exists_eq_or_imp, hfind, Option.some.injEq]
          constructor
          · rintro ((rfl | hold) | hlater)
            · exact .inr (.inl rfl)
            · exact .inl hold
            · exact .inr (.inr hlater)
          · rintro (hold | rfl | hlater)
            · exact .inl (.inr hold)
            · exact .inl (.inl rfl)
            · exact .inr hlater

/-- The owner of a component that is there. -/
def owner? (t : Netlist) (d : ComponentId) : Option ComponentId :=
  (t.components.get? d).bind Component.owner

theorem Rewritten.owner? (h : Rewritten c y t t') (hx : t.components.get? c = some x)
    (howner : y.owner = x.owner) (d : ComponentId) : t'.owner? d = t.owner? d := by
  by_cases hd : d = c
  · simp [Netlist.owner?, hd, h.self, hx, howner]
  · simp [Netlist.owner?, h.others d hd]

/-- A module marks nothing but what it owns. -/
theorem addFeedbackPoint_needs {i : Interior} (hx : u.state.components.get? c = some x)
    (hi : x.interior = some i) :
    wp (addFeedbackPoint c d) (fun _ v => Rewritten c
      (x.withFeedback (insertAscending d i.feedback)) u.state v.state ∧ u.state.owner? d = some c)
      (fun _ _ => True) u := by
  by_cases howner : u.state.owner? d = some c
  · obtain ⟨y, hy, hyc⟩ := Option.bind_eq_some_iff.mp howner
    exact wp_mono (addFeedbackPoint_ok hx hi hy hyc) (fun _ _ h => ⟨h, howner⟩) fun _ _ _ => trivial
  · rw [addFeedbackPoint, wp_bind]
    refine wp_component_of (fun y hy => ?_) trivial
    have hne : y.owner ≠ some c := by simpa [owner?, hy] using howner
    simp only [if_pos hne, wp_bind, wp_component hx, wp_abort]

theorem copyFeedback_needs {points : List ComponentId}
    (hx' : ∃ x' i', u.state.components.get? copy = some x' ∧ x'.interior = some i') :
    wp (points.forM fun point => do
        addFeedbackPoint copy (← Build.expect .feedbackNotCopied (map.components.find? point)))
      (fun _ _ => ∀ d ∈ points, ∃ d', map.components.find? d = some d' ∧
        u.state.owner? d' = some copy) (fun _ _ => True) u := by
  have hstep : ∀ d ∈ points, ∀ t : Traced Netlist,
      (∃ x' i', t.state.components.get? copy = some x' ∧ x'.interior = some i') ∧
        (∀ d, t.state.owner? d = u.state.owner? d) →
      wp (do addFeedbackPoint copy (← Build.expect .feedbackNotCopied (map.components.find? d)))
        (fun _ v => ((∃ x' i', v.state.components.get? copy = some x' ∧ x'.interior = some i') ∧
          ∀ d, v.state.owner? d = u.state.owner? d) ∧
          ∃ d', map.components.find? d = some d' ∧ u.state.owner? d' = some copy)
        (fun _ _ => True) t := by
    rintro d - t ⟨⟨x', i', hx', hi'⟩, howners⟩
    rw [wp_bind]
    refine wp_expect (fun d' hd' => ?_) trivial
    refine wp_mono (addFeedbackPoint_needs hx' hi') (fun _ v ⟨hv, howner⟩ => ?_) fun _ _ h => h
    refine ⟨⟨⟨_, { i' with feedback := insertAscending d' i'.feedback }, hv.self, ?_⟩,
      fun e => (hv.owner? hx' rfl e).trans (howners e)⟩, d', hd', howners d' ▸ howner⟩
    simp [Component.withFeedback, hi']
  exact wp_mono (wp_forM_each ⟨hx', fun _ => rfl⟩ hstep) (fun _ _ h => h.2) fun _ _ h => h

/-! ### The body of a task -/

theorem copyBody_ok {kind : ComponentKind} (hs : HasCopy pins base copy u.state)
    (hx' : u.state.components.get? copy = some x') (hkind : x'.kind = kind)
    (hbody : ∀ body, kind = .module (.task body) → ∃ body', map.components.find? body = some body' ∧
      body'.index < u.state.components.size) :
    wp (copyBody map kind copy)
      (fun _ v => HasCopy pins base copy v.state ∧ u.state.Grows v.state ∧
        ∃ kind', Rewritten copy { x' with kind := kind' } u.state v.state ∧ KindTwin map kind kind')
      Never u := by
  unfold copyBody
  split
  · next body =>
    obtain ⟨body', hfind, hlt⟩ := hbody body rfl
    rw [wp_bind, hfind, wp_expect_some]
    have hsafe : Safe (Scope.beyond pins base)
        [.has (.component copy), .kinded copy (.module (.task default)), .fits (.module (.task body'))]
        (changeComponent copy fun y => { y with kind := .module (.task body') }) fun _ => [] := by
      refine safe_changeComponent (by simp) (fun t y ht _ hl => { hl with kind := ?_ })
        (fun t y ht hy => ?_) (.inr fun _ => rfl)
      · exact ht.facts (.fits (.module (.task body'))) (by simp)
      · obtain ⟨z, hz, hplain⟩ := ht.facts (.kinded copy (.module (.task default))) (by simp)
        cases hy.symm.trans hz
        simp only [Component.shape, hplain]
        rfl
    have hknows : (Scope.beyond pins base).Knows [.has (.component copy),
        .kinded copy (.module (.task default)), .fits (.module (.task body'))] u.state := by
      refine ⟨hs.sound, ?_⟩
      simp only [List.forall_mem_cons]
      refine ⟨hs.facts (.has (.component copy)) (by simp), ⟨x', hx', by rw [hkind]; rfl⟩, ⟨?_, ?_⟩,
        by simp⟩
      · simpa [ComponentKind.components] using hlt
      · simp [ComponentKind.pins]
    refine wp_mono (hsafe.along hknows (rewritten_changeComponent hx' _)) (fun _ v hv => ?_)
      fun _ _ h => h
    exact ⟨hv.1.mono (by simp), hv.2.1.grows, _, hv.2.2, body', hfind, rfl⟩
  · next hother =>
    refine ⟨hs, .refl _, kind, ?_, ?_⟩
    · exact hkind ▸ .refl hx'
    · unfold KindTwin
      split
      · next body => exact absurd rfl (hother body)
      · rfl

theorem copyBody_needs {kind : ComponentKind} : wp (copyBody map kind copy)
    (fun _ _ => ∀ body, kind = .module (.task body) → map.Has body) (fun _ _ => True) u := by
  unfold copyBody
  split
  · rw [wp_bind]
    refine wp_expect (fun body' hfind => wp_of_forall (fun _ _ body hbody => ?_) fun _ _ => trivial)
      trivial
    cases hbody
    exact ⟨body', hfind⟩
  · next hother => exact fun body hbody => absurd hbody (hother body)

/-! ### The boundary -/

/-- `copy` has its terminals and copies of the children.  What the children own has been copied to the
numbers from `lo` up to `hi`; the OutBufs of the copy come after that, and all else that it has comes
before. -/
structure Equipped (pins lo hi : Nat) (n s t : Netlist) (map : Correspondence)
    (c copy : ComponentId) (x x' : Component) : Prop extends Side pins n s t c copy x x' where
  draft : Draft x x' x'.children
  exits : List.Forall₂ (fun a b => a.1 = b.1 ∧ ExitDraft hi n t a.2 b.2) x.exits.entries
    x'.exits.entries
  children : List.Forall₂ (fun d d' => map.components.find? d = some d') x.children x'.children
  done : Done n t map lo hi fun e => ∃ d ∈ x.children, Part n d e
  early : copy.index < lo ∧ ∀ i', x'.interior = some i' → i'.inBuf.index < lo
  range : s.components.size ≤ lo ∧ hi ≤ t.components.size
  plain : ¬ IsInBuf {} n c
  plain' : ¬ IsInBuf s t copy

/-- The terminals are twins, too. -/
structure Paired (pins lo hi : Nat) (n s t : Netlist) (map : Correspondence)
    (c copy : ComponentId) (x x' : Component) : Prop
    extends Equipped pins lo hi n s t map c copy x x' where
  twins : TerminalTwin n t map x x'
  found : map.components.find? c = some copy

/-- The copy of a module that lacks only its marks. -/
structure Unmarked (pins lo hi : Nat) (n s t : Netlist) (map : Correspondence)
    (c copy : ComponentId) (x x' : Component) (i i' : Interior) : Prop
    extends Paired pins lo hi n s t map c copy x x' where
  interior : x.interior = some i
  interior' : x'.interior = some i'
  fresh : ∀ b, BufferOf n x i b → map.components.find? b = none

/-- The buffers of a module have been mapped. -/
structure Bordered (pins : Nat) (n s t t' : Netlist) (map map' : Correspondence)
    (x x' : Component) (i i' : Interior) : Prop where
  linked : Linked pins s t'
  shape : SameShape t t'
  components : t'.components = t.components
  exits : t'.exits = t.exits
  grows : t.Grows t'
  spares : Spares (BufferOf t x' i') t t'
  learns : Correspondence.Extends n (BufferOf n x i) map map'
  inBuf : map'.components.find? i.inBuf = some i'.inBuf ∧ Copied n t' map' i.inBuf i'.inBuf
  outBufs : List.Forall₂ (fun a b => OutBufCopied n t' map' a.2 b.2) x.exits.entries
    x'.exits.entries

namespace Unmarked

variable {i i' : Interior} (h : Unmarked pins lo hi n s t map c copy x x' i i')

include h

theorem children_eq : x.children = i.children := by
  rw [Component.children, h.interior, Option.map_some, Option.getD_some]

theorem children_eq' : x'.children = i'.children := by
  rw [Component.children, h.interior', Option.map_some, Option.getD_some]

theorem children_found :
    List.Forall₂ (fun d d' => map.components.find? d = some d') i.children i'.children :=
  h.children_eq ▸ h.children_eq' ▸ h.children

theorem self_not {b : ComponentId} (hb : BufferOf n x i b) : b ≠ c :=
  hb.ne h.whole.linked h.whole.shaped h.source (Nat.zero_le _) h.interior

theorem self_not' {b : ComponentId} (hb : BufferOf t x' i' b) : b ≠ copy :=
  hb.ne h.linked h.shaped h.target h.new h.interior'

theorem inBuf_not_peer : ¬ Peers n x.exits.values i.inBuf :=
  h.whole.shaped.inBuf_not_peer h.whole.linked h.source (Nat.zero_le _) h.interior

theorem inBuf_not_peer' : ¬ Peers t x'.exits.values i'.inBuf :=
  h.shaped.inBuf_not_peer h.linked h.target h.new h.interior'

theorem feedback_eq : i'.feedback = [] := by
  have hrel := h.draft.interior
  rw [h.interior, h.interior'] at hrel
  cases hrel with
  | some hrel => exact hrel.2

theorem length_values : x'.exits.values.length = x.exits.values.length := by
  simpa [OrderedMap.values] using h.exits.length_eq.symm

theorem map_fst_zip : (x.exits.values.zip x'.exits.values).map Prod.fst = x.exits.values :=
  List.map_fst_zip (Nat.le_of_eq h.length_values.symm)

theorem map_snd_zip : (x.exits.values.zip x'.exits.values).map Prod.snd = x'.exits.values :=
  List.map_snd_zip (Nat.le_of_eq h.length_values)

theorem nodup_fst_zip : ((x.exits.values.zip x'.exits.values).map Prod.fst).Nodup := by
  have hshaped := h.whole.shaped.components c x h.source (Nat.zero_le _)
  rw [h.map_fst_zip]
  exact h.whole.linked.nodup_exits h.source (Nat.zero_le _) hshaped.tags

theorem nodup_snd_zip : ((x.exits.values.zip x'.exits.values).map Prod.snd).Nodup := by
  have hshaped := h.shaped.components copy x' h.target h.new
  rw [h.map_snd_zip]
  exact h.linked.nodup_exits h.target h.new hshaped.tags

/-- The exits side by side, as the copy has been drafted. -/
theorem drafted {z : ExitId × ExitId} (hz : z ∈ x.exits.values.zip x'.exits.values) :
    z.1 ∈ x.exits.values ∧ z.2 ∈ x'.exits.values ∧ ExitDraft hi n t z.1 z.2 ∧
      map.exits[z.1]? = some z.2 := by
  rw [OrderedMap.values, OrderedMap.values, List.zip_map] at hz
  obtain ⟨⟨a, b⟩, hab, rfl⟩ := List.mem_map.mp hz
  obtain ⟨ha, hb⟩ := List.of_mem_zip hab
  exact ⟨OrderedMap.mem_values.mpr ⟨a, ha, rfl⟩, OrderedMap.mem_values.mpr ⟨b, hb, rfl⟩,
    ((List.forall₂_iff_zip.mp h.exits).2 hab).2,
    ((List.forall₂_iff_zip.mp h.twins.exits).2 hab).2.1⟩

end Unmarked

theorem mapBorder_ok {i i' : Interior} (hns : Linked pins n s)
    (h : Unmarked pins lo hi n s u.state map c copy x x' i i') :
    wp (do
        let map ← mapComponent map i.inBuf i'.inBuf
        x.exits.values.foldlM mapOutBuf map)
      (fun map' v => Bordered pins n s u.state v.state map map' x x' i i') Never u := by
  obtain ⟨y, y', hb⟩ := h.toSide.inBuf h.interior h.interior' h.draft.this h.draft.data
  rw [wp_bind]
  refine wp_mono (hb.map_ok (h.fresh _ (.inl rfl))) (fun map₁ v hv => ?_) fun _ _ h => h
  obtain ⟨hm, hcopied⟩ := hv
  have hside : Side pins n s v.state c copy x x' := h.toSide.after hm
  have hzs : ∀ z ∈ x.exits.values.zip x'.exits.values, z.1 ∈ x.exits.values ∧
      z.2 ∈ x'.exits.values ∧ ExitDraft hi n v.state z.1 z.2 ∧ map₁.exits[z.1]? = some z.2 := by
    intro z hz
    obtain ⟨hmem, hmem', ⟨w, w', hw, hw', hrest⟩, hfound⟩ := h.drafted hz
    refine ⟨hmem, hmem', ⟨w, w', hw, hm.exits ▸ hw', hrest⟩, (hm.learns.exits _ ?_).trans hfound⟩
    exact h.whole.linked.not_exitOf h.source (h.self_not (.inl rfl)).symm hmem hw
  have hmapped := mapOutBufs_ok hns hside (by rw [h.interior]; rfl) (by rw [h.interior']; rfl) hzs
    h.nodup_fst_zip h.nodup_snd_zip fun d hd => by
      rw [h.map_fst_zip] at hd
      rw [hm.learns.components d fun heq => h.inBuf_not_peer (heq ▸ hd)]
      exact h.fresh d (.inr hd)
  rw [h.map_fst_zip] at hmapped
  refine wp_mono hmapped (fun map₂ w hw => ?_) fun _ _ h => h
  have hspares := hw.spares
  have hlearns := hw.learns
  rw [h.map_snd_zip] at hspares
  rw [h.map_fst_zip] at hlearns
  have hpeers : ∀ d, Peers v.state x'.exits.values d → Peers u.state x'.exits.values d :=
    fun d hd => hd.congr hm.exits
  refine ⟨hw.linked, hm.shape.trans hw.shape, hw.components.trans hm.components,
    hw.exits.trans hm.exits, hm.grows.trans hw.grows,
    (hm.spares.mono fun _ hd => .inl hd).trans (hspares.mono fun d hd => .inr (hpeers d hd)),
    (hm.learns.mono fun _ hd => .inl hd).trans (hlearns.mono fun _ hd => .inr hd),
    ⟨hw.learns.grows _ _ hm.found, ?_⟩, ?_⟩
  · exact hcopied.mono h.whole.linked (hns.trans hm.linked) hw.grows hspares
      (fun hd => h.inBuf_not_peer' (hpeers _ hd)) hlearns h.inBuf_not_peer
  · refine List.forall₂_iff_zip.mpr ⟨h.exits.length_eq, fun {a b} hab => hw.copied (a.2, b.2) ?_⟩
    rw [OrderedMap.values, OrderedMap.values, List.zip_map]
    exact List.mem_map_of_mem (f := Prod.map Prod.snd Prod.snd) hab

/-! ### The whole copy -/

/-- Everything beyond `s` has been made along with the copy, and it is in order. -/
theorem Bordered.hasCopy {i i' : Interior} (h : Unmarked pins lo hi n s t map c copy x x' i i')
    (hb : Bordered pins n s t t' map map' x x' i i') : HasCopy pins s copy t' :=
  ⟨⟨hb.linked, fun _ => h.shaped.congr hb.shape, trivial⟩, List.forall_mem_singleton.mpr
    ⟨h.new, Nat.lt_of_lt_of_le (Arena.lt_of_get? h.target) hb.grows.components⟩⟩

theorem Bordered.kidsFollow {i i' : Interior} (h : Unmarked pins lo hi n s t map c copy x x' i i')
    (hb : Bordered pins n s t t' map map' x x' i i') : KidsFollow n s t' map' c copy := by
  have hx' : t'.components.get? copy = some x' := hb.components ▸ h.target
  suffices hkid : ∀ d, Kid n c d → ∃ d', map'.components.find? d = some d' ∧ Kid t' copy d' by
    intro d hd
    obtain ⟨d', hfind, hkid⟩ := hkid d hd
    obtain ⟨hnew, y, hy, howner⟩ := hkid.owned hb.linked (h.shaped.congr hb.shape) h.new
    exact ⟨d', y, hfind, hnew, hy, howner⟩
  rintro d ⟨x₂, i₂, hx₂, hi₂, hk⟩
  cases h.source.symm.trans hx₂
  cases h.interior.symm.trans hi₂
  rcases hk with hd | rfl | ⟨e, he, w, hw, hpeer⟩
  · obtain ⟨d', hd', hfind⟩ := exists_of_forall₂ h.children_found hd
    exact ⟨d', hb.learns.grows _ _ hfind, x', i', hx', h.interior', .inl hd'⟩
  · exact ⟨i'.inBuf, hb.inBuf.1, x', i', hx', h.interior', .inr (.inl rfl)⟩
  · obtain ⟨a, ha, rfl⟩ := OrderedMap.mem_values.mp he
    obtain ⟨b, hb', v, v', o, o', hv, hv', ho, ho', hfind, -⟩ := exists_of_forall₂ hb.outBufs ha
    cases hw.symm.trans hv
    cases hpeer.symm.trans ho
    have hmem : b.2 ∈ x'.exits.values := OrderedMap.mem_values.mpr ⟨b, hb', rfl⟩
    exact ⟨o', hfind, x', i', hx', h.interior', .inr (.inr ⟨b.2, hmem, v', hv', ho'⟩)⟩

section

variable {i i' : Interior} (h : Unmarked pins lo hi n s t map c copy x x' i i')
  (hb : Bordered pins n s t t' map map' x x' i i') (hns : Linked pins n s)
  {kind : ComponentKind} {points : List ComponentId}
  (hr : Rewritten copy { x'.withFeedback points with kind } t' t'') (hgrows : t'.Grows t'')

include h hb hns hr hgrows

/-- The module itself. -/
theorem Bordered.copied_self (hkind : KindTwin map' x.kind kind)
    (hmarks : ∀ d ∈ i.feedback, Kid n c d)
    (hpoints : ∀ d', d' ∈ points ↔ ∃ d ∈ i.feedback, map'.components.find? d = some d') :
    Copied n t'' map' c copy := by
  have htwins := hr.twins (h.twins.mono h.whole.linked (hns.trans h.linked) hb.spares
    (fun hd => h.self_not' hd rfl) hb.learns (fun hd => h.self_not hd rfl) h.source h.target
    (Nat.le_trans hns.keeps.components.size h.new))
  have hexits : t''.exits = t.exits := hr.exits.trans hb.exits
  refine ⟨h.new_target.mono (hb.grows.trans hgrows), x, _, h.source, hr.self,
    ⟨htwins.ports, htwins.exits⟩, hkind, fun _ => ?_, fun _ => ?_, ?_, ?_⟩
  · exact ⟨h.draft.flags.consumesClock, h.draft.flags.consumesReset, h.draft.flags.consumesGo,
      h.draft.flags.producesDone, h.draft.flags.doneSynchronous⟩
  · refine h.exits.imp fun a b hab => ?_
    obtain ⟨-, w, w', hw, hw', -, hlatency, -⟩ := hab
    exact ⟨w, w', hw, hexits ▸ hw', hlatency⟩
  · simp only [Component.withFeedback, h.interior, h.interior', Option.map_some]
    refine .some ⟨hb.inBuf.1, h.children_found.imp fun _ _ hd => hb.learns.grows _ _ hd, fun d hd => ?_,
      fun d' hd' => (hpoints d').mp hd'⟩
    obtain ⟨d', -, hfind, -⟩ := hb.kidsFollow h d (hmarks d hd)
    exact ⟨d', (hpoints d').mpr ⟨d, hd, hfind⟩, hfind⟩
  · refine hb.outBufs.imp fun a b hab => ?_
    obtain ⟨v, v', o, o', hv, hv', ho, ho', hfind, -⟩ := hab
    exact ⟨v, v', hv, hr.exits ▸ hv', by rw [ho, ho']; exact .some hfind⟩

/-- What the children own. -/
theorem Bordered.done_children (hc : Finite n c) :
    Done n t'' map' lo hi fun e => ∃ d ∈ i.children, Part n d e := by
  have hspares : Spares (fun d => BufferOf t x' i' d ∨ d = copy) t t'' :=
    (hb.spares.mono fun _ hd => .inl hd).trans (hr.spares.mono fun _ hd => .inr hd)
  rw [← h.children_eq]
  refine h.done.mono h.whole.linked (hns.trans h.linked) (hb.grows.trans hgrows) hspares
    (fun d' hlo hhi hd' => ?_) hb.learns fun e ⟨d, hd, hpart⟩ he => ?_
  · -- The buffers have other numbers than what the children own, and so has the module.
    rcases hd' with (rfl | ⟨e, he, w, hw, hpeer⟩) | rfl
    · exact absurd hlo (Nat.not_le_of_lt (h.early.2 i' h.interior'))
    · obtain ⟨b, hb', rfl⟩ := OrderedMap.mem_values.mp he
      obtain ⟨a, -, -, y, w', -, hw', -, -, hlate⟩ := exists_of_forall₂ h.exits.flip hb'
      cases hw.symm.trans hw'
      exact absurd hhi (Nat.not_lt_of_le (hlate d' hpeer))
    · exact absurd hlo (Nat.not_le_of_lt h.early.1)
  · -- The children own other things than the buffers.
    exact he.not_part h.source h.interior h.whole hc (h.children_eq ▸ hd) hpart

/-- A buffer of the module. -/
theorem Bordered.copied_buffer {b b' : ComponentId} (hcopied : Copied n t' map' b b')
    (hb' : BufferOf t x' i' b') : Copied n t'' map' b b' :=
  hcopied.mono h.whole.linked (hns.trans hb.linked) hgrows hr.spares
    (h.self_not' hb') (.refl n (fun _ => False) map') id

/-- Everything that the module owns. -/
theorem Bordered.done (hc : Finite n c) (hself : Copied n t'' map' c copy) :
    Done n t'' map' s.components.size t''.components.size (Part n c) := by
  have hsize : t.components.size ≤ t''.components.size :=
    Nat.le_trans hb.grows.components hgrows.components
  have hgive : ∀ {d d'}, map'.components.find? d = some d' → Copied n t'' map' d d' →
      s.components.size ≤ d'.index → ∃ d', map'.components.find? d = some d' ∧
        s.components.size ≤ d'.index ∧ d'.index < t''.components.size ∧ Copied n t'' map' d d' :=
    fun hfind hcopied hnew => ⟨_, hfind, hnew, hcopied.new.2, hcopied⟩
  intro d hd
  rcases hd.head with rfl | ⟨k, ⟨x₂, i₂, hx₂, hi₂, hk⟩, hpart⟩
  · exact hgive (hb.learns.grows _ _ h.found) hself h.new
  cases h.source.symm.trans hx₂
  cases h.interior.symm.trans hi₂
  have hx' : t'.components.get? copy = some x' := hb.components ▸ h.target
  rcases hk with hk | rfl | hpeer
  · exact (hb.done_children h hns hr hgrows hc).widen h.range.1 (Nat.le_trans h.range.2 hsize) d
      ⟨k, hk, hpart⟩
  · obtain ⟨b, _, _, hb', -, hin⟩ :=
      ((h.whole.shaped.components c x h.source (Nat.zero_le _)).interior i h.interior).inBuf
    obtain rfl := hpart.eq_of_flat hb' hin.interior
    exact hgive hb.inBuf.1 (hb.copied_buffer h hns hr hgrows hb.inBuf.2 (.inl rfl))
      (hb.linked.inBuf_new hx' h.new h.interior').1
  · obtain ⟨e, he, w, hw, hpeer⟩ := hpeer
    obtain ⟨b, hb', hout⟩ := (h.whole.shaped.exits e w hw (Nat.zero_le _)).outBuf k hpeer
    obtain rfl := hpart.eq_of_flat hb' hout.interior
    obtain ⟨a, ha, rfl⟩ := OrderedMap.mem_values.mp he
    obtain ⟨a', ha', v, v', o, o', hv, hv', ho, ho', hfind, hcopied⟩ :=
      exists_of_forall₂ hb.outBufs ha
    cases hw.symm.trans hv
    cases hpeer.symm.trans ho
    have hmem : a'.2 ∈ x'.exits.values := OrderedMap.mem_values.mpr ⟨a', ha', rfl⟩
    have hexit := (hb.linked.exit_new hx' h.new hmem).1
    refine hgive hfind (hb.copied_buffer h hns hr hgrows hcopied (.inr ?_)) ?_
    · exact ⟨a'.2, hmem, v', hb.exits ▸ hv', ho'⟩
    · exact ((Exit.forall_refs.mp (hb.linked.exits _ v' hv' hexit).refs).2.2 o' ho').1

end

/-! ### What is marked -/

/-- What is asked of the marks of a component for it to be copied when `K` has been copied before: a
module owns its feedback points, and the body of a task has been copied when the task has been. -/
structure Markable (n : Netlist) (K : ComponentId → Prop) (c : ComponentId) : Prop where
  feedback : ∀ x i, n.components.get? c = some x → x.interior = some i → ∀ d ∈ i.feedback, Kid n c d
  body : ∀ x body, n.components.get? c = some x → x.kind = .module (.task body) →
    K body ∨ Part n c body

section

variable {i i' : Interior} {map₀ : Correspondence}
  (h : Unmarked pins lo hi n s t map c copy x x' i i')
  (hb : Bordered pins n s t t' map map' x x' i i') (hns : Linked pins n s) (hc : Finite n c)

include h hb hns hc

/-- What the children own has been copied before the module is marked. -/
theorem Bordered.done_inside :
    Done n t' map' lo hi fun e => ∃ d ∈ i.children, Part n d e := by
  have hr : Rewritten copy { x'.withFeedback i'.feedback with kind := x'.kind } t' t' := by
    rw [Component.withFeedback_self h.interior']
    exact .refl (hb.components ▸ h.target)
  exact hb.done_children h hns hr (.refl _) hc

/-- All that the module owns has a copy before it is marked. -/
theorem Bordered.found_of_part (hpart : Part n c d) :
    ∃ d', map'.components.find? d = some d' ∧ d'.index < t'.components.size := by
  rcases hpart.cases_of_module h.source h.interior h.whole with rfl | ⟨k, hk, hpart⟩ | hbuf
  · exact ⟨copy, hb.learns.grows _ _ h.found,
      Nat.lt_of_lt_of_le (Arena.lt_of_get? h.target) hb.grows.components⟩
  · obtain ⟨d', hfind, -, -, hcopied⟩ := hb.done_inside h hns hc d ⟨k, hk, hpart⟩
    exact ⟨d', hfind, hcopied.new.2⟩
  · obtain ⟨d', y, hfind, hnew, -⟩ := hb.kidsFollow h d (hbuf.kid h.source h.interior)
    exact ⟨d', hfind, hnew.2⟩

variable (hanew : map₀.Anew n s) (hlearns : Correspondence.Extends n (Part n c) map₀ map')

include hanew hlearns

/-- A copy that the copy of a module owns is one of what the module owns. -/
theorem Bordered.kid_of_owned {d' : ComponentId} (hd : map'.components.find? d = some d')
    (howner : t'.owner? d' = some copy) : Kid n c d := by
  have hx' : t'.components.get? copy = some x' := hb.components ▸ h.target
  obtain ⟨y, hy, howner⟩ := Option.bind_eq_some_iff.mp howner
  rcases hlearns.found hd with hold | hpart
  · -- What was copied before is owned by something that was there.
    have hnew := hanew d d' hold
    have hys : s.components.get? d' = some y :=
      (hb.linked.keeps.components.get? d' hnew.2).symm.trans hy
    have hrefs := Component.forall_refs.mp (hns.components d' y hys hnew.1).refs
    exact absurd (hrefs.1 copy howner).2 (Nat.not_lt_of_le h.new)
  rcases hpart.cases_of_module h.source h.interior h.whole with rfl | ⟨k, hk, hpart⟩ | hbuf
  · -- The copy itself is owned by nothing yet.
    cases hd.symm.trans (hb.learns.grows _ _ h.found)
    cases hx'.symm.trans hy
    rw [h.draft.owner] at howner
    cases howner
  · cases hpart with
    | self => exact ⟨x, i, h.source, h.interior, .inl hk⟩
    | @kid m _ hm hstep =>
        -- What is deeper inside is owned by a copy that is younger.
        obtain ⟨m', -, hge, -, hcopied⟩ := hb.done_inside h hns hc m ⟨k, hk, hm⟩
        obtain ⟨z, hz, howner'⟩ := hcopied.owner hb.linked (h.shaped.congr hb.shape)
          (Nat.le_trans h.range.1 hge) hstep hd
        cases hy.symm.trans hz
        cases howner.symm.trans howner'
        exact absurd hge (Nat.not_le_of_lt h.early.1)
  · exact hbuf.kid h.source h.interior

/-- What had a copy before, and what belongs to the module, has one when the module is marked. -/
theorem Bordered.found_of (hd : map₀.Has d ∨ Part n c d) :
    ∃ d', map'.components.find? d = some d' ∧ d'.index < t'.components.size := by
  rcases hd with ⟨d', hd'⟩ | hpart
  · exact ⟨d', hlearns.grows d d' hd',
      Nat.lt_of_lt_of_le (hanew d d' hd').2 hb.linked.keeps.components.size⟩
  · exact hb.found_of_part h hns hc hpart

end

/-- The copy is marked, and then it is complete, or the marks are not as they should be. -/
theorem copyMarks_spec {i i' : Interior} {map₀ : Correspondence} (hns : Linked pins n s)
    (hc : Finite n c) (h : Unmarked pins lo hi n s u.state map c copy x x' i i')
    (hanew : map₀.Anew n s) (hlearns : Correspondence.Extends n (Part n c) map₀ map) :
    wp (copyMarks map c copy)
      (fun map' v => TreeCopied pins n s v.state map₀ map' c copy ∧ Markable n map₀.Has c)
      (fun _ _ => ¬ Markable n map₀.Has c) u := by
  have hk := h.before.trans h.linked.keeps
  have hx : u.state.components.get? c = some x :=
    (hk.components.get? c (Arena.lt_of_get? h.source)).trans h.source
  have hborder := mapBorder_ok hns h
  rw [wp_bind] at hborder
  simp only [copyMarks, inBuf, wp_bind]
  refine (wp_component hx).mpr ((wp_interior hx h.interior).mpr ((wp_pure _).mpr
    ((wp_interior h.target h.interior').mpr ((wp_pure _).mpr ?_))))
  refine wp_mono hborder (fun map₁ v hv => wp_mono hv (fun map₂ w hb => ?_) fun _ _ h => h.elim)
    fun _ _ h => h.elim
  have hx' : w.state.components.get? copy = some x' := hb.components ▸ h.target
  have hxw : w.state.components.get? c = some x := hb.components ▸ hx
  have hfollow := hb.kidsFollow h
  have hlearns₂ : Correspondence.Extends n (Part n c) map₀ map₂ :=
    hlearns.trans (hb.learns.mono fun _ hd => .kid .self (hd.kid h.source h.interior))
  refine (wp_interior hxw h.interior).mpr ?_
  -- The feedback points.
  have hfeedback := wp_iff (P := ∀ d ∈ i.feedback, Kid n c d)
    (fun hkids => copyFeedback_ok (hb.hasCopy h) hx' h.interior' fun d hd => hfollow d (hkids d hd))
    (wp_mono (copyFeedback_needs ⟨x', i', hx', h.interior'⟩) (fun _ _ hpoints d hd =>
      let ⟨_, hfind, howner⟩ := hpoints d hd
      hb.kid_of_owned h hns hc hanew hlearns₂ hfind howner) fun _ _ h => h)
  refine wp_mono hfeedback (fun _ v₁ ⟨hv₁, hkids⟩ => ?_) fun _ _ hnot hmarkable =>
    hnot (hmarkable.feedback x i h.source h.interior)
  obtain ⟨hcopy₁, hgrows₁, points, hr₁, hpoints⟩ := hv₁
  -- The body.
  have hbody := wp_iff (P := ∀ body, x.kind = .module (.task body) → map₀.Has body ∨ Part n c body)
    (fun hbodies => copyBody_ok hcopy₁ hr₁.self h.draft.kind fun body hbody => by
      obtain ⟨body', hfind, hlt⟩ := hb.found_of h hns hc hanew hlearns₂ (hbodies body hbody)
      exact ⟨body', hfind, Nat.lt_of_lt_of_le hlt hgrows₁.components⟩)
    (wp_mono copyBody_needs (fun _ _ hfound body hbody => by
      obtain ⟨body', hfind⟩ := hfound body hbody
      exact (hlearns₂.found hfind).imp_left fun hold => ⟨body', hold⟩) fun _ _ h => h)
  refine wp_mono hbody (fun _ v₂ ⟨hv₂, hbodies⟩ => ?_) fun _ _ hnot hmarkable =>
    hnot fun body hbody => hmarkable.body x body h.source hbody
  obtain ⟨hcopy₂, hgrows₂, kind, hr₂, hkind⟩ := hv₂
  have hr := hr₁.trans hr₂
  have hgrows := hgrows₁.trans hgrows₂
  have hself := hb.copied_self h hns hr hgrows hkind hkids fun d' => by
    rw [hpoints, h.feedback_eq]
    simp
  refine ⟨⟨hcopy₂.sound.linked, hcopy₂.sound.shaped trivial, hlearns₂,
    hb.learns.grows _ _ h.found, ⟨_, hr.self, h.draft.owner⟩, hb.done h hns hr hgrows hc hself⟩,
    fun y j hy hj => ?_, fun y body hy hbody => ?_⟩
  · cases h.source.symm.trans hy
    cases h.interior.symm.trans hj
    exact hkids
  · cases h.source.symm.trans hy
    exact hbodies body hbody

end DataflowSynth.Netlist
