/-
Cloning makes an equal copy.

Everything that a component owns is copied once, terminal by terminal and mark by mark, and connected
inside the copy as it is inside the component.  Besides what makes a component one that can be cloned
at all, three things are needed that no call sees to: a module must still own the components that it
marks as feedback points, entries must bind ports inside, and the component must not be an InBuf.
-/
import DataflowSynth.Proofs.Clone.Conditions

namespace DataflowSynth.Netlist

open Build Relation

variable {pins : Nat} {n s t : Netlist} {u : Traced Netlist} {c d d' copy : ComponentId}
  {x : Component} {map : Correspondence}

/-! ### What is cloned -/

/-- A netlist that calls lead to, standing alone or in a design, with no call aimed at the terminals
of a buffer. -/
inductive WellMade : Netlist → Prop where
  | alone {pins : Nat} {n : Netlist} (reached : Netlist.Reached True pins n) : WellMade n
  | inDesign {d : Design} (reached : Design.Reached True d) : WellMade d.netlist

theorem WellMade.whole (h : n.WellMade) : ∃ pins, Whole pins n := by
  cases h with
  | alone reached => exact ⟨_, reached.sound.linked, reached.sound.shaped trivial⟩
  | inDesign reached =>
      exact ⟨_, reached.sound.netlist.linked, reached.sound.netlist.shaped trivial⟩

/-- What `c` owns is finite, can be copied, and is connected inside. -/
structure SelfContained (n : Netlist) (c : ComponentId) : Prop where
  finite : Finite n c
  modules : ∀ d x, Part n c d → n.components.get? d = some x → x.kind.isModule = true →
    x.interior.isSome = true
  copyable : ∀ d, Part n c d → ¬ Uncopyable n d
  bodies : ∀ d x body, Part n c d → n.components.get? d = some x → x.kind = .module (.task body) →
    ∃ i, x.interior = some i ∧ body ∈ i.children
  enclosed : Enclosed n c

/-- What no call sees to. -/
structure Coherent (n : Netlist) (c : ComponentId) : Prop where
  feedback : ∀ d x i, Part n c d → n.components.get? d = some x → x.interior = some i →
    ∀ point ∈ i.feedback, Kid n d point
  binds : BindsInside n c
  plain : ¬ IsInBuf {} n c

theorem SelfContained.cloneable (h : SelfContained n c) (hc : Coherent n c) : Cloneable n c :=
  ⟨h.finite, h.modules, hc.plain⟩

theorem SelfContained.markable (h : SelfContained n c) (hc : Coherent n c)
    (K : ComponentId → Prop) (hd : Part n c d) : Markable n K d where
  feedback x i hx hi := hc.feedback d x i hd hx hi
  body x body hx hkind :=
    let ⟨i, hi, hbody⟩ := h.bodies d x body hd hx hkind
    .inr (.kid .self ⟨x, i, hx, hi, .inl hbody⟩)

theorem Child.kid (h : Child n d d') : Kid n d d' := by
  obtain ⟨x, i, hx, -, hi, hmem⟩ := h
  exact ⟨x, i, hx, hi, .inl hmem⟩

theorem Descendant.part (h : n.Descendant c d) : Part n c d := by
  induction h with
  | refl => exact .self
  | tail _ hstep ih => exact ih.kid hstep.kid

theorem SelfContained.moduleTree (h : SelfContained n c) : n.ModuleTree c where
  finite := Subrelation.accessible (fun h => h.kid) h.finite
  modules d x hd := h.modules d x hd.part

/-! ### What comes out -/

/-- Two ports that are driven by a bus and its copy, or by nothing. -/
def DriverTwin (n t : Netlist) (map : Correspondence) (p p' : PortId) : Prop :=
  ∃ y y', n.ports.get? p = some y ∧ t.ports.get? p' = some y' ∧
    Option.Rel (fun b b' => map.buses[b]? = some b') y.bus y'.bus

/-- `map` leads from `c` and all it owns to an equal copy in `t`, which stands alone. -/
structure Isomorphic (n t : Netlist) (map : Correspondence) (c copy : ComponentId) : Prop where
  root : map.components.find? c = some copy
  domain : ∀ d, (map.components.find? d).isSome ↔ Part n c d
  injective : ∀ d₁ d₂ d', map.components.find? d₁ = some d' → map.components.find? d₂ = some d' →
    d₁ = d₂
  fresh : ∀ d d', map.components.find? d = some d' →
    n.components.size ≤ d'.index ∧ d'.index < t.components.size
  twins : ∀ d d', map.components.find? d = some d' →
    ∃ x x', n.components.get? d = some x ∧ t.components.get? d' = some x' ∧ Twin n t map x x'
  drivers : ∀ d x, Within n c d x → ∀ p ∈ x.ports, ∃ p', map.ports[p]? = some p' ∧
    DriverTwin n t map p p'
  entries : ∀ d x d', Within n c d x → map.components.find? d = some d' →
    ∃ x', t.components.get? d' = some x' ∧ List.Forall₂ (EntryTwin n t map) x.entries x'.entries
  apart : ∃ x', t.components.get? copy = some x' ∧ x'.owner = none ∧ x'.entries = [] ∧
    ∀ p ∈ x'.ports, ∃ y, t.ports.get? p = some y ∧ y.bus = none

/-- A tree that has been copied and wired is an equal copy. -/
theorem Wired.isomorphic (hw : Whole pins n) (h : TreeCopied pins n n s {} map c copy)
    (hidle : Idle n s) (henclosed : Enclosed n c) (hl : Linked pins n t)
    (hwired : Wired n s t map c copy) (k : Std.HashMap EntryId EntryId) :
    Isomorphic n t { map with entries := k } c copy where
  root := h.found
  domain d := by
    refine ⟨fun hd => ?_, fun hd => ?_⟩
    · obtain ⟨d', hd'⟩ := Option.isSome_iff_exists.mp hd
      exact h.part hd'
    · obtain ⟨d', hd', -⟩ := h.done d hd
      exact Option.isSome_iff_exists.mpr ⟨d', hd'⟩
  injective _ _ _ h₁ h₂ := h.injective h₁ h₂
  fresh d d' hd :=
    ⟨(h.new hd).1, Nat.lt_of_lt_of_le (h.new hd).2 hwired.grows.components⟩
  twins d d' hd := by
    obtain ⟨d₂, hd₂, -, -, -, htwin⟩ := h.done.mono hw.linked h.linked hwired.grows hwired.spares
      (fun _ _ _ hf => hf) ((Correspondence.Extends.refl n (fun _ => False) map).withEntries k)
      (fun _ _ hf => hf) d (h.part hd)
    cases hd.symm.trans hd₂
    exact htwin
  drivers d x hx p hp := by
    have hun := h.unwired hw hidle henclosed
    obtain ⟨y, hy, ⟨q, hq, -, hlt⟩, hbuses⟩ := hun.known p ⟨d, x, hx, hp⟩
    obtain ⟨y', hy'⟩ := Arena.exists_get? (Nat.lt_of_lt_of_le hlt hwired.grows.ports)
    have hdriver : y'.bus = y.bus.bind fun b => map.buses[b]? := by
      simpa only [copiedDriver?, hookup, hy, hy', Option.bind_some]
        using hwired.drivers d x hx p hp q hq
    refine ⟨q, hq, y, y', hy, hy', ?_⟩
    cases hb : y.bus with
    | none =>
        rw [hdriver, hb]
        exact .none
    | some b =>
        obtain ⟨b', hb', -⟩ := hbuses b hb
        rw [hdriver, hb, Option.bind_some, hb']
        exact .some hb'
  entries d x d' hx hd := by
    obtain ⟨x', hx', htwins⟩ := hwired.entries d x d' hx hd
    exact ⟨x', hx', htwins⟩
  apart := by
    obtain ⟨x', hx', howner⟩ := h.owner
    have hxt := hwired.root.trans hx'
    refine ⟨x', hxt, howner, hidle.unentered hx' (h.new h.found).1, fun p hp => ?_⟩
    have hnew := (Component.forall_refs.mp
      (hl.components copy x' hxt (h.new h.found).1).refs).2.1 p hp
    obtain ⟨y, hy⟩ := Arena.exists_get? hnew.2
    refine ⟨y, hy, ?_⟩
    simpa only [hookup, hy, Option.bind_some] using hwired.undriven x' hxt p hp

/-! ### The clone -/

theorem Linked.fitting_beyond (h : Linked pins {} n) : (Scope.beyond pins n).Fitting :=
  fun n' hn' => h.fitting_outside n' ⟨hn'.linked, False.elim, trivial⟩

theorem copyWith_spec (hw : Whole pins u.state) (hlt : c.index < u.state.components.size)
    (hc : Cloneable u.state c) :
    wp (copyWith u.state.components.size c fun _ _ => pure ())
      (fun r w => (u.state.Keeps w.state ∧ Isomorphic u.state w.state r.2 c r.1) ∧
        MarkedTo u.state u.state.components.size (fun _ => False) c ∧
        Enclosed u.state c ∧ BindsInside u.state c)
      (fun _ _ => ¬ (MarkedTo u.state u.state.components.size (fun _ => False) c ∧
        Enclosed u.state c ∧ BindsInside u.state c)) u := by
  have hfitting := hw.linked.fitting_beyond
  have hempty : (Scope.beyond pins u.state).Knows [.all (Correspondence.Names {})] u.state :=
    ⟨⟨.refl _ _, fun _ => .refl _, trivial⟩,
      List.forall_mem_singleton.mpr fun r hr => (Correspondence.not_names_empty hr).elim⟩
  -- The tree.
  have htree := copyTree_spec hw hc hlt (hw.nested hc.finite hlt) (.refl _ _)
    (Correspondence.anew_empty _ _) fun _ _ => rfl
  rw [Correspondence.has_empty] at htree
  rw [copyWith, wp_bind]
  refine wp_mono (wp_and (idle_copyTree u) ((safe_copyTree id hfitting _ (by simp) c).along hempty
    htree)) (fun ⟨copy, map⟩ v ⟨hidle, hknown, _, hcopied, hmarked⟩ => ?_)
    fun _ _ h => fun hall => h.2 hall.1
  -- The connections.
  have hconnect := wp_iff (P := Enclosed u.state c ∧ BindsInside u.state c)
    (fun hall => copyConnections_ok hw hcopied hidle hall.1 hall.2 hlt)
    (copyConnections_needs hcopied (hknown.mono (by simp +contextual)))
  rw [wp_bind]
  refine wp_mono ((safe_copyConnections hfitting (m := map) (by simp [Correspondence.facts]) c).along
    hknown hconnect) (fun map' w ⟨hknown', _, ⟨⟨k, hmap⟩, hwired⟩, hinside⟩ => ?_)
    fun _ _ h => fun hall => h hall.2
  subst hmap
  -- What is said about it at the end.
  have hlinked : Linked pins u.state w.state := hknown'.sound.linked
  have hiso := hwired.isomorphic hw hcopied hidle hinside.1 hlinked k
  obtain ⟨x, hx⟩ := Arena.exists_get? hlt
  obtain ⟨x', hx', -⟩ := hiso.apart
  simp only [wp_bind]
  refine (wp_component ((hlinked.keeps.components.get? c hlt).trans hx)).mpr
    ((wp_component hx').mpr ?_)
  exact ⟨⟨hlinked.keeps, hiso⟩, hmarked, hinside⟩

theorem copyWith_ok (hw : Whole pins u.state) (hlt : c.index < u.state.components.size)
    (h : SelfContained u.state c) (hc : Coherent u.state c) :
    wp (copyWith u.state.components.size c fun _ _ => pure ())
      (fun r w => u.state.Keeps w.state ∧ Isomorphic u.state w.state r.2 c r.1) Never u := by
  have hmarked : MarkedTo u.state u.state.components.size (fun _ => False) c :=
    markedTo_of_forall (hw.nested h.finite hlt) fun d K hd => h.markable hc K hd
  exact wp_mono (copyWith_spec hw hlt (h.cloneable hc)) (fun _ _ h => h.1)
    fun _ _ hnot => hnot ⟨hmarked, h.enclosed, hc.binds⟩

/-- Cloning is an isomorphism.  Let a component own a finite tree of modules that can be copied and are
connected inside, and let the marks of the tree be its own.  Then the clone is made: the correspondence
leads from all that the component owns to components that were not there before, different ones to
different ones, each like its copy, and what is inside is connected alike. -/
theorem clone_isomorphic (hn : n.WellMade) (hlt : c.index < n.components.size)
    (h : SelfContained n c) (hc : Coherent n c) (journal : Journal) :
    ∃ copy map t, clone c ⟨n, journal⟩ = .ok (copy, map) t ∧ n.Keeps t.state ∧
      Isomorphic n t.state map c copy := by
  obtain ⟨pins, hw⟩ := hn.whole
  have htree := h.moduleTree
  have hwp : wp (clone c) (fun r t => n.Keeps t.state ∧ Isomorphic n t.state r.2 c r.1) Never
      ⟨n, journal⟩ := by
    rw [clone, cloneWith_eq, wp_bind, wp_look, wp_bind]
    refine wp_mono (wp_checkCopyable hw.linked hlt htree (nestedBy_of_acc
      (fun m d => hw.linked.child_lt) htree.finite hlt)) (fun _ t ht => ?_) fun e t ht => ?_
    · obtain ⟨rfl, -⟩ := ht
      exact copyWith_ok hw hlt h hc
    · obtain ⟨-, ⟨d, hd, hbad⟩, -⟩ := ht
      exact absurd hbad (h.copyable d hd.part)
  obtain ⟨⟨copy, map⟩, t, hrun, hkeeps, hiso⟩ := exists_of_wp hwp
  exact ⟨copy, map, t, hrun, hkeeps, hiso⟩

/-! ### A block -/

section

variable {kids : List ComponentId}

variable (hkids : ∀ m x, n.components.get? m = some x → x.kids n = if m = c then kids else [])

include hkids

/-- If nothing but `c` owns anything, then only the given components are owned. -/
theorem Kid.of_kids (h : Kid n d d') : d = c ∧ d' ∈ kids := by
  obtain ⟨x, _, hx, -⟩ := id h
  have hmem := (kid_iff_mem_kids hx).mp h
  rw [hkids d x hx] at hmem
  split at hmem
  · next heq => exact ⟨heq, hmem⟩
  · exact absurd hmem List.not_mem_nil

/-- A block of gates may be cloned if it is connected inside. -/
theorem SelfContained.of_block (hroot : c ∉ kids) (hkinds : ∀ d x, n.components.get? d = some x →
      x.kind ∈ [.module .block, .inBuf, .outBuf, .notGate] ∧ x.kind.isModule = x.interior.isSome)
    (henclosed : Enclosed n c) : SelfContained n c where
  finite := by
    refine ⟨c, fun d hd => ⟨d, fun e he => ?_⟩⟩
    exact absurd ((Kid.of_kids hkids he).1 ▸ (Kid.of_kids hkids hd).2) hroot
  modules d x _ hx hmodule := (hkinds d x hx).2 ▸ hmodule
  copyable := by
    rintro d - ⟨x, hx, hbad⟩
    have hkind := (hkinds d x hx).1
    rcases hbad with hbad | ⟨memory, physical, hbad⟩ <;> simp [hbad] at hkind
  bodies d x body _ hx hbody := by
    have hkind := (hkinds d x hx).1
    simp [hbody] at hkind
  enclosed := henclosed

end

/-- A block with an inverter that takes the data input of the block, and is entered when the block
is. -/
theorem exists_inverterBlock : ∃ n : Netlist, n.WellMade ∧ n.components.size = 3 ∧
    (n.ports.get? ⟨10⟩).map (·.bus) = some (some ⟨3⟩) ∧ SelfContained n ⟨0⟩ ∧ Coherent n ⟨0⟩ := by
  have hempty : Reached True 0 {} := .empty
  have hmodule := hempty.after (.newModule .block "m" 1) (by decide) (fun _ => by decide +kernel)
    (by decide +kernel)
  have hgate := hmodule.after (.newComponent .notGate "not" 1) (by decide +kernel)
    (fun _ => by decide +kernel) (by decide +kernel)
  have hchild := hgate.after (.addComponent ⟨0⟩ ⟨2⟩) (by decide +kernel)
    (fun _ => by decide +kernel) (by decide +kernel)
  have hdriven := hchild.after (.setBus ⟨10⟩ (some ⟨3⟩)) (by decide +kernel)
    (fun _ => by decide +kernel) (by decide +kernel)
  have hentered := hdriven.after (.makeEntry ⟨2⟩ (some ⟨0⟩)) (by decide +kernel)
    (fun _ => by decide +kernel) (by decide +kernel)
  have hbound := hentered.after (.addDependency ⟨0⟩ ⟨10⟩ ⟨.data, ⟨3⟩⟩) (by decide +kernel)
    (fun _ => by decide +kernel) (by decide +kernel)
  refine ⟨_, .alone hbound, by decide +kernel, by decide +kernel, ?_⟩
  generalize hn : (Build.run (Call.run (.addDependency ⟨0⟩ ⟨10⟩ ⟨.data, ⟨3⟩⟩)) _).2.state = n
  have hkids : ∀ m x, n.components.get? m = some x →
      x.kids n = if m = ⟨0⟩ then [⟨1⟩, ⟨2⟩] else [] := by
    rw [← hn]
    decide +kernel
  -- What is inside.
  have hpart : ∀ d ∈ [⟨1⟩, ⟨2⟩], Part n ⟨0⟩ d := by
    have hlt : 0 < n.components.size := by
      rw [← hn]
      decide +kernel
    obtain ⟨x, hx⟩ := Arena.exists_get? (h := ⟨0⟩) hlt
    intro d hd
    exact .kid .self ((kid_iff_mem_kids hx).mpr (by rwa [hkids _ x hx]))
  have hexit : ExitInside n ⟨0⟩ ⟨0⟩ := by
    obtain ⟨x, hx, hmem⟩ : ∃ x ∈ n.components.get? ⟨1⟩, ⟨0⟩ ∈ x.exits.values := by
      rw [← hn]
      decide +kernel
    exact ⟨⟨1⟩, x, hpart ⟨1⟩ (by simp), hx, hmem⟩
  have hbus : BusInside n ⟨0⟩ ⟨3⟩ := by
    obtain ⟨y, hy, hmem⟩ : ∃ y ∈ n.exits.get? ⟨0⟩, ⟨3⟩ ∈ y.buses := by
      rw [← hn]
      decide +kernel
    exact ⟨⟨0⟩, y, hexit, hy, hmem⟩
  have hport : PortInside n ⟨0⟩ ⟨10⟩ := by
    obtain ⟨x, hx, hmem⟩ : ∃ x ∈ n.components.get? ⟨2⟩, ⟨10⟩ ∈ x.ports := by
      rw [← hn]
      decide +kernel
    exact ⟨⟨2⟩, x, hpart ⟨2⟩ (by simp), hx, hmem⟩
  -- What it is connected to.
  have hdrivers : ∀ p y, n.ports.get? p = some y → ∀ b ∈ y.bus, b = ⟨3⟩ := by
    rw [← hn]
    decide +kernel
  have hentries : ∀ i y, n.entries.get? i = some y → y.drivingExit = some ⟨0⟩ ∧
      y.toList = [(⟨10⟩, ⟨.data, ⟨3⟩⟩)] := by
    rw [← hn]
    decide +kernel
  have hdepends : ∀ i y, n.entries.get? i = some y → ∀ a ∈ y.toList, a = (⟨10⟩, ⟨.data, ⟨3⟩⟩) :=
    fun i y hy a ha => by simpa [(hentries i y hy).2] using ha
  have hkinds : ∀ d x, n.components.get? d = some x →
      x.kind ∈ [.module .block, .inBuf, .outBuf, .notGate] ∧ x.kind.isModule = x.interior.isSome := by
    rw [← hn]
    decide +kernel
  have hfeedback : ∀ d x, n.components.get? d = some x → ∀ i ∈ x.interior, i.feedback = [] := by
    rw [← hn]
    decide +kernel
  refine ⟨.of_block hkids (by decide) hkinds ⟨fun d x hx p hp y hy b hb => ?_,
    fun d x hx i hi y hy e he => ?_, fun d x hx i hi y hy a ha => ?_⟩,
    fun d x i hd hx hi point hpoint => ?_, fun d x hx i hi y hy a ha => ?_, fun hin => ?_⟩
  · exact hdrivers p y hy b hb ▸ hbus
  · exact Option.some.inj ((hentries i y hy).1.symm.trans he) ▸ hexit
  · exact hdepends i y hy a ha ▸ hbus
  · rw [hfeedback d x hx i hi] at hpoint
    exact absurd hpoint List.not_mem_nil
  · exact hdepends i y hy a ha ▸ hport
  · obtain ⟨m, x, i, hx, -, hi, heq⟩ := hin
    have hkid : Kid n m ⟨0⟩ := ⟨x, i, hx, hi, .inr (.inl heq.symm)⟩
    exact absurd (Kid.of_kids hkids hkid).2 (by decide)

/-- The block is cloned. -/
theorem clone_isomorphic_block : ∃ (n : Netlist) (copy : ComponentId) (map : Correspondence)
    (t : Traced Netlist), n.components.size = 3 ∧
      (n.ports.get? ⟨10⟩).map (·.bus) = some (some ⟨3⟩) ∧
      clone ⟨0⟩ ⟨n, #[]⟩ = .ok (copy, map) t ∧ n.Keeps t.state ∧
      Isomorphic n t.state map ⟨0⟩ copy := by
  obtain ⟨n, hn, hsize, hdriver, hself, hcoherent⟩ := exists_inverterBlock
  obtain ⟨copy, map, t, hrun, hkeeps, hiso⟩ :=
    clone_isomorphic hn (hsize ▸ by decide) hself hcoherent #[]
  exact ⟨n, copy, map, t, hsize, hdriver, hrun, hkeeps, hiso⟩

/-- A block that marks the OutBuf of an exit as a feedback point, and loses the exit, keeps the mark.
Then it cannot be cloned, although nothing in it is connected. -/
theorem clone_stale_feedback : ∃ n : Netlist, n.WellMade ∧ 0 < n.components.size ∧
    SelfContained n ⟨0⟩ ∧ ∃ t, clone ⟨0⟩ ⟨n, #[]⟩ = .error (.abort .feedbackNotCopied) t := by
  have hempty : Reached True 0 {} := .empty
  have hmodule := hempty.after (.newModule .block "m" 0) (by decide) (fun _ => by decide +kernel)
    (by decide +kernel)
  have hexit := hmodule.after (.makeExit ⟨0⟩ 0 .done) (by decide +kernel)
    (fun _ => by decide +kernel) (by decide +kernel)
  have hmarked := hexit.after (.addFeedbackPoint ⟨0⟩ ⟨2⟩) (by decide +kernel)
    (fun _ => by decide +kernel) (by decide +kernel)
  have hremoved := hmarked.after (.removeExit ⟨0⟩ .done) (by decide +kernel)
    (fun _ => by decide +kernel) (by decide +kernel)
  refine ⟨_, .alone hremoved, by decide +kernel, ?_⟩
  generalize hn : (Build.run (Call.run (.removeExit ⟨0⟩ .done)) _).2.state = n
  have hkids : ∀ m x, n.components.get? m = some x → x.kids n = if m = ⟨0⟩ then [⟨1⟩] else [] := by
    rw [← hn]
    decide +kernel
  have hkinds : ∀ d x, n.components.get? d = some x →
      x.kind ∈ [.module .block, .inBuf, .outBuf, .notGate] ∧ x.kind.isModule = x.interior.isSome := by
    rw [← hn]
    decide +kernel
  have hdrivers : ∀ p y, n.ports.get? p = some y → y.bus = none := by
    rw [← hn]
    decide +kernel
  have hentries : ∀ d x, n.components.get? d = some x → x.entries = [] := by
    rw [← hn]
    decide +kernel
  have hrun : (match clone ⟨0⟩ ⟨n, #[]⟩ with
      | .error (.abort .feedbackNotCopied) _ => true
      | _ => false) = true := by
    rw [← hn]
    decide +kernel
  refine ⟨.of_block hkids (by decide) hkinds ⟨fun d x hx p hp y hy b hb => ?_,
    fun d x hx i hi => ?_, fun d x hx i hi => ?_⟩, ?_⟩
  · rw [hdrivers p y hy] at hb
    cases hb
  · rw [hentries d x hx.2.2] at hi
    exact absurd hi List.not_mem_nil
  · rw [hentries d x hx.2.2] at hi
    exact absurd hi List.not_mem_nil
  · split at hrun
    · next t heq => exact ⟨t, heq⟩
    · cases hrun

end DataflowSynth.Netlist
