/-
Copying keeps links and shapes.

Whatever a correspondence leads to was made on the way, so every handle that is looked up in it
stands for something.  What is copied is only looked at, and nothing has to be known about it; so the
source may as well lie in the base, where nothing is touched.  Nothing is said here about how well the
copy resembles its source.
-/
import DataflowSynth.Netlist.Copy
import DataflowSynth.Proofs.Netlist.Children

namespace DataflowSynth.Netlist

open Build

variable {S : Scope} {K : List Fact}

/-! ### Looking at anything -/

/-- Whatever component is there, its kind fits. -/
def Scope.Fitting (S : Scope) : Prop :=
  ∀ n, S.Sound n → ∀ c x, n.components.get? c = some x → x.kind.Fits S.pins n

/-- What is known of a component that is only looked at. -/
def Component.sourceFacts (x : Component) (c : ComponentId) : List Fact :=
  [.kinded c x.kind.plain, .fits x.kind]

theorem look_component (hfitting : S.Fitting) (c : ComponentId) :
    Safe S K (component c) fun x => x.sourceFacts c := by
  intro s hs
  refine wp_component_of (fun x hx => ⟨⟨hs.sound, fun f hf => ?_⟩, .refl S _⟩) trivial
  simp only [Component.sourceFacts, List.mem_cons, List.not_mem_nil, or_false] at hf
  rcases hf with rfl | rfl
  · exact ⟨x, hx, rfl⟩
  · exact hfitting s.state hs.sound c x hx

theorem look_port (p : PortId) : Safe S K (port p) fun _ => [] := fun s hs =>
  wp_port_of (fun _ _ => ⟨hs.mono (by simp), .refl S _⟩) trivial

theorem look_bus (b : BusId) : Safe S K (bus b) fun _ => [] := fun s hs =>
  wp_bus_of (fun _ _ => ⟨hs.mono (by simp), .refl S _⟩) trivial

theorem look_exit (e : ExitId) : Safe S K (exit e) fun _ => [] := fun s hs =>
  wp_exit_of (fun _ _ => ⟨hs.mono (by simp), .refl S _⟩) trivial

theorem look_entry (e : EntryId) : Safe S K (entry e) fun _ => [] := fun s hs =>
  wp_entry_of (fun _ _ => ⟨hs.mono (by simp), .refl S _⟩) trivial

theorem look_interior (c : ComponentId) : Safe S K (interior c) fun _ => [] := by
  intro s hs
  rw [interior, wp_bind]
  refine wp_component_of (fun x _ => ?_) trivial
  exact wp_expect (fun i _ => ⟨hs.mono (by simp), .refl S _⟩) trivial

theorem look_inBuf (c : ComponentId) : Safe S K (inBuf c) fun _ => [] :=
  .bind (look_interior c) fun _ => .pure (by simp)

theorem look_children (c : ComponentId) : Safe S K (children c) fun _ => [] :=
  .bind (look_interior c) fun _ => .pure (by simp)

/-! ### What a correspondence leads to -/

/-- A handle that another one is mapped to. -/
def Leads {k l : HandleKind} (m : Std.HashMap (Handle k) (Handle l)) (y : Handle l) : Prop :=
  ∃ x : Handle k, m[x]? = some y

theorem Leads.of_insert {k l : HandleKind} {m : Std.HashMap (Handle k) (Handle l)} {x : Handle k}
    {y z : Handle l} (h : Leads (m.insert x y) z) : Leads m z ∨ z = y := by
  obtain ⟨w, hw⟩ := h
  rw [Std.HashMap.getElem?_insert] at hw
  split at hw
  · exact .inr (Option.some.inj hw).symm
  · exact .inl ⟨w, hw⟩

namespace Correspondence

/-- What a correspondence leads to. -/
def Names (m : Correspondence) : Ref → Prop
  | .component c => ∃ e ∈ m.components.entries, c = e.2
  | .port p => Leads m.ports p
  | .bus b => Leads m.buses b
  | .exit e => Leads m.exits e
  | .entry _ => False

def facts (m : Correspondence) : List Fact := [.all m.Names]

variable {m : Correspondence} {r : Ref}

theorem Names.of_port {p q : PortId} (h : Names { m with ports := m.ports.insert p q } r) :
    m.Names r ∨ r = .port q := by
  cases r with
  | port _ => exact (Leads.of_insert h).imp id (congrArg Ref.port)
  | _ => exact .inl h

theorem Names.of_bus {b c : BusId} (h : Names { m with buses := m.buses.insert b c } r) :
    m.Names r ∨ r = .bus c := by
  cases r with
  | bus _ => exact (Leads.of_insert h).imp id (congrArg Ref.bus)
  | _ => exact .inl h

theorem Names.of_exit {x y : ExitId} (h : Names { m with exits := m.exits.insert x y } r) :
    m.Names r ∨ r = .exit y := by
  cases r with
  | exit _ => exact (Leads.of_insert h).imp id (congrArg Ref.exit)
  | _ => exact .inl h

theorem Names.of_component {c d : ComponentId}
    (h : Names { m with components := m.components.put c d } r) :
    m.Names r ∨ r = .component d := by
  cases r with
  | component _ =>
      obtain ⟨e, he, hd⟩ := h
      rcases OrderedMap.mem_entries_put he with he | rfl
      · exact .inl ⟨e, he, hd⟩
      · exact .inr (congrArg Ref.component hd)
  | _ => exact .inl h

/-- A correspondence that has learnt nothing leads nowhere. -/
theorem not_names_empty : ¬ Names {} r := by
  intro hr
  cases r with
  | component d =>
      obtain ⟨e, he, -⟩ := hr
      exact absurd he List.not_mem_nil
  | entry => exact hr.elim
  | _ =>
      obtain ⟨x, hx⟩ := hr
      simp at hx

end Correspondence

/-- A correspondence that names nothing new may be handed on. -/
theorem Safe.pure_map {m m' : Correspondence} {R : List Ref} (hm : .all m.Names ∈ K)
    (hR : ∀ r ∈ R, .has r ∈ K) (hnames : ∀ r, m'.Names r → m.Names r ∨ r ∈ R) :
    Safe S K (pure m') Correspondence.facts := by
  refine .deduce (f := .all m'.Names) (fun n hn r hr => ?_) (.pure (by simp [Correspondence.facts]))
  rcases hnames r hr with hr | hr
  · exact hn.facts _ hm r hr
  · exact hn.facts _ (hR r hr)

section

variable {m : Correspondence} (hm : .all m.Names ∈ K)

include hm

theorem safe_mappedPort (p : PortId) : Safe S K (m.port p) fun q => [.has (.port q)] := by
  intro s hs
  refine wp_expect (fun q hq => ⟨⟨hs.sound, ?_⟩, .refl S _⟩) trivial
  simpa using hs.facts _ hm (.port q) ⟨p, hq⟩

theorem safe_mappedBus (b : BusId) : Safe S K (m.bus b) fun c => [.has (.bus c)] := by
  intro s hs
  refine wp_expect (fun c hc => ⟨⟨hs.sound, ?_⟩, .refl S _⟩) trivial
  simpa using hs.facts _ hm (.bus c) ⟨b, hc⟩

theorem safe_mappedExit (x : ExitId) : Safe S K (m.exit x) fun y => [.has (.exit y)] := by
  intro s hs
  refine wp_expect (fun y hy => ⟨⟨hs.sound, ?_⟩, .refl S _⟩) trivial
  simpa using hs.facts _ hm (.exit y) ⟨x, hy⟩

theorem safe_mappedComponent {a : Abort} (c : ComponentId) :
    Safe S K (Build.expect a (m.components.find? c)) fun d => [.has (.component d)] := by
  intro s hs
  refine wp_expect (fun d hd => ⟨⟨hs.sound, ?_⟩, .refl S _⟩) trivial
  simpa using hs.facts _ hm (.component d) ⟨_, OrderedMap.mem_entries_of_find? hd, rfl⟩

/-! ### Copying one component -/

theorem safe_mapPort (p : PortId) {q : PortId} (hq : .has (.port q) ∈ K) :
    Safe S K (mapPort m p q) Correspondence.facts :=
  .bind (look_port p) fun _ => .bind
    (safe_changePort (by simp [hq]) (fun _ => rfl) fun _ => rfl) fun _ =>
    .pure_map (m := m) (R := [.port q]) (by simp [hm]) (by simp [hq]) fun _ hr => by
      simpa using hr.of_port

theorem safe_mapBus (b : BusId) {c : BusId} (hc : .has (.bus c) ∈ K) :
    Safe S K (mapBus m b c) Correspondence.facts :=
  .bind (look_bus b) fun _ => .bind
    (safe_changeBus (by simp [hc]) (fun _ => rfl) fun _ => rfl) fun _ =>
    .pure_map (m := m) (R := [.bus c]) (by simp [hm]) (by simp [hc]) fun _ hr => by
      simpa using hr.of_bus

theorem safe_mapExit (x : ExitId) {y : ExitId} (hy : .has (.exit y) ∈ K) :
    Safe S K (mapExit m x y) Correspondence.facts := by
  refine .bind (look_exit x) fun e => .bind (safe_exit (by simp [hy])) fun f => ?_
  refine .deduce (f := .all (Correspondence.Names { m with exits := m.exits.insert x y }))
    (fun n hn r hr => ?_) (.foldlM (by simp [Correspondence.facts]) fun b hb map => ?_)
  · rcases hr.of_exit with hr | rfl
    · exact hn.facts (.all m.Names) (by simp [hm]) r hr
    · exact hn.facts (.has (.exit y)) (by simp [hy])
  · exact safe_mapBus (by simp [Correspondence.facts]) b.1 (by simp [(List.of_mem_zip hb).2])

theorem safe_mapComponent (hfitting : S.Fitting) (c : ComponentId) {copy : ComponentId}
    (hcopy : .has (.component copy) ∈ K) :
    Safe S K (mapComponent m c copy) Correspondence.facts := by
  refine .bind (look_component hfitting c) fun x => .bind (safe_component (by simp [hcopy]))
    fun y => ?_
  refine .deduce
    (f := .all (Correspondence.Names { m with components := m.components.put c copy }))
    (fun n hn r hr => ?_) (.bind (P := Correspondence.facts)
      (.foldlM (by simp [Correspondence.facts]) fun p hp map => ?_) fun map => .bind
      (look_component hfitting c) fun _ => .bind (safe_component (by simp [hcopy])) fun _ =>
      .foldlM (by simp +contextual) fun e he map => ?_)
  · rcases hr.of_component with hr | rfl
    · exact hn.facts (.all m.Names) (by simp [hm]) r hr
    · exact hn.facts (.has (.component copy)) (by simp [hcopy])
  · exact safe_mapPort (by simp [Correspondence.facts]) p.1 (by simp [(List.of_mem_zip hp).2])
  · exact safe_mapExit (by simp [Correspondence.facts]) e.1 (by simp [(List.of_mem_zip he).2])

end

/-- What is known about a copy while it is built. -/
def copyFacts (c copy : ComponentId) : List Fact :=
  [.has (.component copy), .plain copy, .alike c copy]

theorem Scope.Knows.alike {n : Netlist} {c d : ComponentId} {kind : ComponentKind}
    (hn : S.Knows K n) (hc : .kinded c kind ∈ K) (hd : .kinded d kind ∈ K) :
    S.Holds n (.alike c d) := by
  obtain ⟨x, hx, hkind⟩ := hn.facts _ hc
  obtain ⟨y, hy, hkind'⟩ := hn.facts _ hd
  exact ⟨x, y, hx, hy, hkind.trans hkind'.symm⟩

section

variable (hq : ¬ S.quiet)

include hq

theorem safe_newLike {c : ComponentId} {x : Component} (hx : ∀ f ∈ x.sourceFacts c, f ∈ K) :
    Safe S K (newLike x) (copyFacts c) := by
  have hfits : x.kind.FitsIn S K :=
    ComponentKind.fitsIn_of_mem (hx _ (by simp [Component.sourceFacts]))
  have hkinded : Fact.kinded c x.kind.plain ∈ K := hx _ (by simp [Component.sourceFacts])
  have hnew : ∀ copy {n}, S.Knows (newFacts copy x.kind ++ K) n → S.Holds n (.alike c copy) :=
    fun copy n hn => hn.alike (List.mem_append_right _ hkinded) (by simp [newFacts])
  have hclose : ∀ {step : Step ComponentId}, (Safe S K step fun copy => newFacts copy x.kind) →
      Safe S K step (copyFacts c) := by
    intro step hstep s hs
    refine wp_mono (hstep s hs) (fun copy t ht => ⟨⟨ht.1.sound, ?_⟩, ht.2⟩) fun _ _ h => h
    simp only [copyFacts, List.mem_cons, List.not_mem_nil, or_false, forall_eq_or_imp, forall_eq]
    exact ⟨ht.1.facts _ (by simp [newFacts]), ht.1.facts _ (by simp [newFacts]),
      hnew copy (hs.evolve ht.1 ht.2)⟩
  apply hclose
  unfold newLike
  split
  · next kind hkind =>
    rw [hkind] at hfits ⊢
    exact safe_newModule hq hfits _ 0
  · exact safe_newComponent hq hfits _ 0

theorem safe_copyPorts {copy : ComponentId} (x : Component)
    (hcopy : .has (.component copy) ∈ K) (hplain : .plain copy ∈ K) :
    Safe S K (copyPorts x copy) fun _ => [] := by
  have hdata : ∀ {K'}, (∀ f ∈ K, f ∈ K') → Safe S K' (x.dataPorts.forM fun p => do
      discard (makeDataPort copy (← port p).name)) fun _ => [] := by
    refine fun hK => .forM fun p hp => .bind (look_port p) fun y => .discard ?_
    exact (safe_makeDataPort hq (by simp [hK _ hcopy]) (by simp [hK _ hplain]) _).weaken
      (fun _ h => h) (by simp)
  simp only [copyPorts]
  split
  · refine .bind (.discard ((safe_makeThisPort hq hcopy hplain).weaken (fun _ h => h) (by simp)))
      fun _ => hdata (by simp)
  · exact hdata fun _ h => h

omit hq in
theorem safe_copyFlags {copy : ComponentId} (x : Component) (hcopy : .has (.component copy) ∈ K)
    (hplain : .plain copy ∈ K) : Safe S K (copyFlags x copy) fun _ => [] :=
  .bind (safe_setConsumesClock hcopy _) fun _ => .bind
    (safe_setConsumesReset (by simp [hcopy]) _) fun _ => .bind
    (safe_setConsumesGo (by simp [hcopy]) _ fun _ => by simp [hplain]) fun _ => .bind
    (safe_setProducesDone (by simp [hcopy]) _ fun _ => by simp [hplain]) fun _ =>
    safe_mark (by simp [hcopy]) (fun _ => ⟨rfl, rfl, rfl, rfl, rfl⟩) (.inr fun _ => rfl)

theorem safe_copyShell (hfitting : S.Fitting) (c : ComponentId) :
    Safe S K (copyShell c) (copyFacts c) :=
  .bind (look_component hfitting c) fun x => .bind (safe_newLike (c := c) hq (by simp +contextual))
    fun copy => .bind (safe_copyPorts hq x (by simp [copyFacts]) (by simp [copyFacts])) fun _ =>
    .bind (safe_copyFlags x (by simp [copyFacts]) (by simp [copyFacts])) fun _ => .pure (by simp +contextual)

theorem safe_copyExit {copy : ComponentId} (hcopy : .has (.component copy) ∈ K)
    (hplain : .plain copy ∈ K) (x : ExitId) : Safe S K (copyExit copy x) fun _ => [] :=
  .bind (look_exit x) fun _ => .bind (safe_makeExit hq (by simp [hcopy]) (by simp [hplain]) _ _)
    fun _ => safe_changeExit (by simp) fun _ => rfl

end

section

variable {m : Correspondence} (hm : .all m.Names ∈ K)

include hm

theorem safe_copiedOutBuf? (x : ExitId) :
    Safe S K (copiedOutBuf? m x) fun o => o.toList.map fun b => .has (.component b) := by
  simp only [copiedOutBuf?]
  split
  · exact .pure (by simp)
  · next y hy =>
    refine .deduce (f := .has (.exit y)) (fun n hn => hn.facts _ hm (.exit y) ⟨x, hy⟩) ?_
    refine .bind (safe_exit (by simp)) fun z => .pure fun f hf => ?_
    obtain ⟨b, hb, rfl⟩ := List.mem_map.mp hf
    simp [Option.mem_toList.mp hb]

theorem safe_mapOutBuf (hfitting : S.Fitting) (x : ExitId) :
    Safe S K (mapOutBuf m x) Correspondence.facts := by
  refine .bind (safe_copiedOutBuf? hm x) fun copied => .bind (look_exit x) fun y => ?_
  split
  · next b d hb =>
    exact safe_mapComponent (by simp [hm]) hfitting b (by simp)
  · exact .pure (by simp [Correspondence.facts, hm])

/-- The copy of a task is given the copy of its body. -/
theorem safe_copyBody {c copy : ComponentId} {x : Component} (hx : ∀ f ∈ x.sourceFacts c, f ∈ K)
    (hcopy : .has (.component copy) ∈ K) (halike : .alike c copy ∈ K) :
    Safe S K (copyBody m x.kind copy) fun _ => [] := by
  simp only [copyBody]
  split
  · next body hkind =>
    refine .bind (safe_mappedComponent hm body) fun d => safe_changeComponent (by simp [hcopy])
      (fun n y hn _ hl => ?_) (fun n y hn hy => ?_) (.inr fun _ => rfl)
    · refine { hl with kind := ⟨fun e he => ?_, by simp [ComponentKind.pins]⟩ }
      obtain rfl : e = d := by simpa [ComponentKind.components] using he
      exact (hn.facts (.has (.component e)) (by simp)).2
    · obtain ⟨z, w, hz, hw, hzw⟩ := hn.facts (.alike c copy) (by simp [halike])
      obtain ⟨z', hz', hplain⟩ := hn.facts (.kinded c x.kind.plain)
        (List.mem_append_right _ (hx _ (by simp [Component.sourceFacts])))
      cases hy.symm.trans hw
      cases hz.symm.trans hz'
      rw [hkind] at hplain
      simp only [Component.shape, ← hzw, hplain]
      rfl
  · exact .pure (by simp)

end

/-! ### Copying all that a component owns -/

section

variable (hq : ¬ S.quiet)

include hq

theorem safe_checkCopyable (hmute : ¬ S.mute) (hfitting : S.Fitting) (depth : Nat) (c : ComponentId) :
    Safe S K (checkCopyable depth c) fun _ => [] := by
  induction depth generalizing c K with
  | zero => exact .abort _
  | succ depth ih =>
      refine .bind (look_component hfitting c) fun x => ?_
      split
      · exact .fail hq hmute _
      · exact .fail hq hmute _
      · exact .bind (look_children c) fun cs => .forM fun d hd => ih d
      · exact .pure (by simp)

omit hq in
theorem safe_copyMarks (hfitting : S.Fitting) {m : Correspondence} (hm : .all m.Names ∈ K)
    {c copy : ComponentId} (hcopy : .has (.component copy) ∈ K) (halike : .alike c copy ∈ K) :
    Safe S K (copyMarks m c copy) Correspondence.facts := by
  refine .bind (look_component hfitting c) fun x => .bind (look_inBuf c) fun b => .bind
    (safe_inBuf (by simp [hcopy])) fun d => .bind
    (safe_mapComponent (by simp [hm]) hfitting b (by simp)) fun map => .bind
    (P := Correspondence.facts) (.foldlM (by simp +contextual) fun e he map => ?_) fun map => .bind
    (look_interior c) fun i => .bind (.forM fun point _ => ?_) fun _ => .bind
    (safe_copyBody (c := c) (m := map) ?_ (by simp +contextual) (by simp [hcopy]) (by simp [halike]))
    fun _ => .pure (by simp +contextual)
  · exact safe_mapOutBuf (by simp [Correspondence.facts]) hfitting e
  · exact .bind (safe_mappedComponent (m := map) (by simp [Correspondence.facts]) point) fun _ =>
      safe_addFeedbackPoint (by simp [hcopy]) (by simp)
  · simp [Correspondence.facts]

theorem safe_copyTree (hfitting : S.Fitting) (depth : Nat) {m : Correspondence}
    (hm : .all m.Names ∈ K) (c : ComponentId) : Safe S K (copyTree depth c m) fun r =>
      .has (.component r.1) :: r.2.facts := by
  induction depth generalizing c K m with
  | zero => exact .abort _
  | succ depth ih =>
      refine .bind (look_component hfitting c) fun x => .bind (safe_copyShell hq hfitting c)
        fun copy => .bind (P := Correspondence.facts)
        (.foldlM (by simp [Correspondence.facts, hm]) fun d hd map => ?_) fun map => .bind
        (.forM fun e he => ?_) fun _ => .bind
        (safe_mapComponent (m := map) (by simp [Correspondence.facts]) hfitting c
          (by simp [copyFacts])) fun map => ?_
      · exact .bind (ih (by simp [Correspondence.facts]) d) fun r => .bind
          (safe_addComponent hq (by simp [copyFacts]) (by simp)) fun _ => .pure (by simp +contextual)
      · exact safe_copyExit hq (by simp [copyFacts]) (by simp [copyFacts]) e
      · split
        · exact .bind (safe_copyMarks hfitting (m := map) (by simp [Correspondence.facts])
            (by simp [copyFacts]) (by simp [copyFacts])) fun _ => .pure
            (by simp +contextual [copyFacts])
        · exact .pure (by simp +contextual [copyFacts])

/-! ### Repeating connections -/

omit hq in
theorem safe_copiedExit? {m : Correspondence} (hm : .all m.Names ∈ K) (o : Option ExitId) :
    Safe S K (copiedExit? m o) fun o => o.toList.map fun e => .has (.exit e) := by
  cases o with
  | none => exact .pure (by simp)
  | some x => exact .bind (safe_mappedExit hm x) fun y => .pure (by simp)

omit hq in
theorem safe_copyEntry {m : Correspondence} (hm : .all m.Names ∈ K) {copy : ComponentId}
    (hcopy : .has (.component copy) ∈ K) (e : EntryId) :
    Safe S K (copyEntry m copy e) Correspondence.facts := by
  refine .bind (look_entry e) fun x => .bind (safe_copiedExit? (by simp [hm]) _) fun o => .bind
    (safe_makeEntry (by simp [hcopy]) fun y hy => by simp [hy]) fun copied => .bind
    (.forM fun r _ => ?_) fun _ => .pure_map (m := m) (R := []) (by simp [hm]) (by simp)
    fun r hr => .inl ?_
  · exact .bind (safe_mappedPort (m := m) (by simp [hm]) r.1) fun _ => .bind
      (safe_mappedBus (m := m) (by simp [hm]) r.2.bus) fun _ =>
      safe_addDependency (by simp) (by simp) (by simp)
  · cases r <;> exact hr

omit hq in
theorem safe_copyConnection {m : Correspondence} (hm : .all m.Names ∈ K) (p : PortId) :
    Safe S K (copyConnection m p) fun _ => [] := by
  refine .bind (look_port p) fun y => ?_
  split
  · exact .pure (by simp)
  · exact .bind (safe_mappedPort (by simp [hm]) p) fun _ => .bind
      (safe_mappedBus (m := m) (by simp [hm]) _) fun _ => safe_setBus (by simp) (by simp)

omit hq in
theorem safe_copyConnections (hfitting : S.Fitting) {m : Correspondence} (hm : .all m.Names ∈ K)
    (root : ComponentId) : Safe S K (copyConnections root m) Correspondence.facts := by
  refine .bind (P := Correspondence.facts) (.foldlM (by simp [Correspondence.facts, hm])
    fun e he map => ?_) fun map => .bind (.forM fun e he => ?_) fun _ => .pure (by simp +contextual)
  · have he := (List.mem_filter.mp he).1
    refine .deduce (f := .has (.component e.2))
      (fun n hn => hn.facts (.all m.Names) (by simp [hm]) (.component e.2) ⟨e, he, rfl⟩) ?_
    refine .bind (look_component hfitting e.1) fun x => .foldlM (by simp +contextual)
      fun i hi map => ?_
    exact safe_copyEntry (by simp [Correspondence.facts]) (by simp) i
  · exact .bind (look_component hfitting e.1) fun x => .forM fun p hp =>
      safe_copyConnection (m := map) (by simp [Correspondence.facts]) p

/-- Everything that a clone does after the check. -/
def copyWith (depth : Nat) (c : ComponentId) (adjust : ComponentId → Correspondence → Step Unit) :
    Step (ComponentId × Correspondence) := do
  let (copy, map) ← copyTree depth c {}
  let map ← copyConnections c map
  let source := (← component c).name
  let target := (← component copy).name
  let count := map.components.size
  Build.log .debug .cloning s!"cloned {quote source} into {quote target} ({count} components)"
  adjust copy map
  return (copy, map)

omit hq in
theorem cloneWith_eq (c : ComponentId) (adjust : ComponentId → Correspondence → Step Unit) :
    cloneWith c adjust = (do
      let depth ← Build.look (·.components.size)
      checkCopyable depth c
      copyWith depth c adjust) :=
  rfl

theorem safe_copyWith (hfitting : S.Fitting) (depth : Nat) (c : ComponentId)
    {adjust : ComponentId → Correspondence → Step Unit}
    (hadjust : ∀ copy map, Safe S (.has (.component copy) :: map.facts ++ K) (adjust copy map)
      fun _ => []) :
    Safe S K (copyWith depth c adjust) fun r => .has (.component r.1) :: r.2.facts := by
  refine .deduce (f := .all (Correspondence.Names {}))
    (fun n _ r hr => (Correspondence.not_names_empty hr).elim) <| .bind
    (safe_copyTree hq hfitting depth (by simp) c) fun (copy, map) => .bind
    (safe_copyConnections hfitting (m := map) (by simp [Correspondence.facts]) c) fun map => .bind
    (look_component hfitting c) fun _ => .bind (safe_component (by simp)) fun _ => .bind
    (.log _ _ _) fun _ => .bind (P := fun _ => [])
    ((hadjust copy map).weaken ?_ (by simp)) fun _ =>
    .pure (by simp +contextual)
  simp +contextual [or_imp]

theorem safe_cloneWith (hmute : ¬ S.mute) (hfitting : S.Fitting) (c : ComponentId)
    {adjust : ComponentId → Correspondence → Step Unit}
    (hadjust : ∀ copy map, Safe S (.has (.component copy) :: map.facts ++ K) (adjust copy map)
      fun _ => []) :
    Safe S K (cloneWith c adjust) fun r => .has (.component r.1) :: r.2.facts := by
  rw [cloneWith_eq]
  exact .bind (.look _) fun depth => .bind (safe_checkCopyable hq hmute hfitting depth c) fun _ =>
    safe_copyWith hq hfitting depth c fun copy map => by simpa using hadjust copy map

theorem safe_clone (hmute : ¬ S.mute) (hfitting : S.Fitting) (c : ComponentId) :
    Safe S K (clone c) fun r => .has (.component r.1) :: r.2.facts :=
  safe_cloneWith hq hmute hfitting c fun _ _ => .pure (by simp)

end

end DataflowSynth.Netlist
