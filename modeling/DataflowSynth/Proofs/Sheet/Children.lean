/-
What the steps on the children, entries and exits of modules do to a sheet.

Entries are not on the sheet, so of the merging of exits no more is seen than the exit of the module.
-/
import DataflowSynth.Proofs.Sheet.Modules

namespace DataflowSynth.Netlist

open Build

variable {Γ : Ground} {σ : Sheet} {c m : ComponentId} {ν μ : Node} {n n' : Netlist} {i : Interior}

/-! ### Children -/

theorem sheet_changeInterior {y : Component} (hy : n.components.get? m = some y)
    (hle : Γ.base.components.size ≤ m.index) (hi : y.interior = some i)
    (f : Interior → Interior) :
    Γ.sheet { n with components := n.components.modify m fun z =>
      { z with interior := z.interior.map f } } =
      (Γ.sheet n).set m { n.node y with interior := some (f i) } := by
  refine (sheet_modify (n := n) Γ { n with components := n.components.modify m fun z =>
    { z with interior := z.interior.map f } } hy hle rfl rfl rfl).trans ?_
  simp [node, hi]

/-- The node of a module with one more child. -/
def Node.adopt (μ : Node) (c : ComponentId) : Node :=
  { μ with interior := μ.interior.map fun i => { i with children := i.children ++ [c] } }

/-- A component gets an owner, and the owner a child. -/
theorem draws_addComponent (hν : σ.node? c = some ν) (howner : ν.owner = none)
    (hμ : σ.node? m = some μ) (hi : μ.interior = some i) (hne : c ≠ m) :
    Draws Γ (addComponent m c) σ fun _ τ =>
      τ = (σ.set c { ν with owner := some m }).set m (μ.adopt c) := by
  refine .of_safe (K := [.has (.component m), .has (.component c)])
    (safe_addComponent (fun h => h) (by simp) (by simp))
    (by simpa using ⟨.component hμ, .component hν⟩) fun s hs hσ => ?_
  subst hσ
  obtain ⟨x, hx, rfl⟩ := drawn hν
  obtain ⟨y, hy, rfl⟩ := drawn hμ
  have hfree : x.owner = none := howner
  let n₁ := { s.state with
    components := s.state.components.modify c fun x => { x with owner := some m } }
  have hsheet : Γ.sheet n₁ = (Γ.sheet s.state).set c { s.state.node x with owner := some m } :=
    sheet_modify (n := s.state) Γ n₁ hx (le_of_node? hν) rfl rfl rfl
  have hy' : n₁.components.get? m = some y := by
    simp [n₁, Arena.get?_modify_of_ne _ hne, hy]
  have hi' : y.interior = some i := hi
  rw [addComponent, wp_bind, wp_component hx, hfree]
  refine wp_bind.mpr ((wp_changeComponent (Arena.lt_of_get? hx)).mpr ?_)
  rw [changeInterior, wp_bind, wp_interior hy' hi']
  refine (wp_changeComponent (Arena.lt_of_get? hy')).mpr ?_
  rw [← hsheet]
  refine (sheet_changeInterior hy' (le_of_node? hμ) hi' _).trans ?_
  simp only [Node.adopt, hi, Option.map_some]
  rfl

/-- The node of a module with one more feedback point. -/
def Node.feedBack (μ : Node) (c : ComponentId) : Node :=
  { μ with interior := μ.interior.map fun i =>
      { i with feedback := insertAscending c i.feedback } }

theorem draws_addFeedbackPoint (hν : σ.node? c = some ν) (howner : ν.owner = some m)
    (hμ : σ.node? m = some μ) (hi : μ.interior = some i) :
    Draws Γ (addFeedbackPoint m c) σ fun _ τ => τ = σ.set m (μ.feedBack c) := by
  refine .of_safe (K := [.has (.component m), .has (.component c)])
    (safe_addFeedbackPoint (by simp) (by simp))
    (by simpa using ⟨.component hμ, .component hν⟩) fun s hs hσ => ?_
  subst hσ
  obtain ⟨x, hx, rfl⟩ := drawn hν
  obtain ⟨y, hy, rfl⟩ := drawn hμ
  have howned : x.owner = some m := howner
  have hi' : y.interior = some i := hi
  rw [addFeedbackPoint, wp_bind, wp_component hx, howned, if_neg (by simp)]
  rw [changeInterior, wp_bind, wp_interior hy hi']
  refine (wp_changeComponent (Arena.lt_of_get? hy)).mpr
    ((sheet_changeInterior hy (le_of_node? hμ) hi' _).trans ?_)
  simp only [Node.feedBack, hi, Option.map_some]

/-! ### Entries -/

theorem sees_hasEntry (hν : σ.node? c = some ν) (e : ExitId) :
    Sees Γ (hasEntry c e) σ fun _ => True := by
  intro s hs hσ
  subst hσ
  obtain ⟨x, hx, rfl⟩ := drawn hν
  rw [hasEntry, wp_bind, wp_component hx]
  have hentries := (Component.forall_refs.mp (hs.component hx (le_of_node? hν)).refs).2.2.2.1
  generalize x.entries = es at hentries
  induction es with
  | nil => exact ⟨rfl, trivial⟩
  | cons i es ih =>
      obtain ⟨y, hy⟩ := Arena.exists_get? (hentries i (by simp)).2
      rw [List.anyM, wp_bind, wp_bind, wp_entry hy, wp_pure]
      split
      · exact ⟨rfl, trivial⟩
      · exact ih fun j hj => hentries j (by simp [hj])

/-- An entry does not show. -/
theorem draws_enterOutBuf (hν : σ.node? c = some ν) {d : ComponentId} (hμ : σ.node? d = some μ)
    {o : Outlet} (ho : o ∈ μ.outlets) {clock reset : BusId} (hclock : σ.Gives clock)
    (hreset : σ.Gives reset) :
    Draws Γ (enterOutBuf c clock reset o.exit) σ fun _ τ => τ = σ := by
  refine .of_safe (K := [.has (.component c), .has (.bus clock), .has (.bus reset),
    .has (.exit o.exit)]) (safe_enterOutBuf (by simp) (by simp) (by simp) (by simp))
    (by simpa using ⟨.component hν, .bus hclock, .bus hreset, .exit hμ ho⟩) fun s hs hσ => ?_
  subst hσ
  rw [enterOutBuf, wp_bind]
  refine wp_mono (sees_hasEntry hν o.exit s hs rfl) (fun found t ht => ?_) fun _ _ h => h
  obtain ⟨rfl, -⟩ := ht
  cases found with
  | true => exact rfl
  | false =>
      obtain ⟨x, hx, rfl⟩ := drawn hν
      obtain ⟨y, hy, -⟩ := hs.has_exit hμ ho
      let n₁ := t.state.withEntry c { owner := c, drivingExit := some o.exit }
      have hx' : n₁.components.get? c =
          some { x with entries := x.entries ++ [t.state.entries.next] } := by
        simp [n₁, withEntry, Arena.get?_modify_self, hx]
      have hports : ∀ p ∈ x.ports, p.index < t.state.ports.size := by
        intro p hp
        obtain ⟨z, hz, -⟩ := hs.port hx (le_of_node? hν) hp
        exact Arena.lt_of_get? hz
      have hsheet : Γ.sheet n₁ = Γ.sheet t.state := by
        refine (sheet_modify (n := t.state) Γ n₁ hx (le_of_node? hν) rfl rfl rfl).trans ?_
        exact Sheet.set_eq_self _ _ hν
      have hentries : ∀ es, Γ.sheet { n₁ with entries := es } = Γ.sheet t.state := fun es =>
        (sheet_congr (n := n₁) rfl rfl rfl).trans hsheet
      simp only [Bool.not_false, if_true, wp_bind]
      refine (wp_makeEntry (Arena.lt_of_get? hx) _).mpr ?_
      refine (wp_exit (s := moved t n₁) hy).mpr ((wp_component (s := moved t n₁) hx').mpr ?_)
      have hentry : t.state.entries.next.index < n₁.entries.size := by simp [n₁, withEntry]
      refine (wp_addDependency ?_ ?_ _).mpr ?_
      · exact hentry
      · exact hports x.clock (by simp)
      refine (wp_addDependency ?_ ?_ _).mpr ?_
      · simpa using hentry
      · exact hports x.reset (by simp)
      refine (wp_addDependency ?_ ?_ _).mpr ?_
      · simpa using hentry
      · exact hports x.go (by simp)
      · exact hentries _

/-! ### Merged exits -/

theorem sees_exitTag (hν : σ.node? c = some ν) {tag : ExitTag} {o : Outlet}
    (ho : (tag, o) ∈ ν.exits) : Sees Γ (exit o.exit) σ fun y => y.tag = tag := by
  intro s hs hσ
  subst hσ
  obtain ⟨x, hx, rfl⟩ := drawn hν
  obtain ⟨⟨tag', e⟩, hentry, heq⟩ := List.mem_map.mp ho
  cases heq
  obtain ⟨y, hy, -⟩ := hs.exit hx (le_of_node? hν) (OrderedMap.mem_values.mpr ⟨_, hentry, rfl⟩)
  rw [exit_outlet]
  exact (wp_exit hy).mpr ⟨rfl, ((hs.component hx (le_of_node? hν)).exits _ hentry y hy).2⟩

/-- The exits are on the sheet, and all of them are done exits. -/
def Sheet.Gathered (σ : Sheet) (byTag : OrderedMap ExitTag (List ExitId)) : Prop :=
  ∃ es, byTag.entries = [(.done, es)] ∧
    ∀ e ∈ es, ∃ c ν, σ.node? c = some ν ∧ ∃ o ∈ ν.outlets, o.exit = e

/-- Components that can only be done. -/
def Sheet.EndsDone (σ : Sheet) (c : ComponentId) : Prop :=
  ∃ ν o, σ.node? c = some ν ∧ ν.exits = [(.done, o)]

theorem sees_exitsByTag {cs : List ComponentId} (hne : cs ≠ []) (hcs : ∀ c ∈ cs, σ.EndsDone c) :
    Sees Γ (exitsByTag cs) σ σ.Gathered := by
  have hstep : ∀ c ∈ cs, ∀ byTag : OrderedMap ExitTag (List ExitId),
      byTag.entries = [] ∨ σ.Gathered byTag → Sees Γ (do
        (← component c).exits.values.foldlM (fun byTag x => do
          return byTag.alter (← exit x).tag fun xs => xs.getD [] ++ [x]) byTag) σ σ.Gathered := by
    intro c hc byTag hbyTag
    obtain ⟨ν, o, hν, hexits⟩ := hcs c hc
    refine .bind (sees_component hν) fun x hx => ?_
    have hvalues : x.exits.values = [o.exit] := by
      simp [OrderedMap.values, hx.exits, hexits]
    have ho : o ∈ ν.outlets := by simp [Node.outlets, hexits]
    have hmem : (ExitTag.done, o) ∈ ν.exits := by simp [hexits]
    rw [hvalues, List.foldlM_cons]
    refine .bind (.bind (sees_exitTag hν hmem) fun y hy => .pure ?_) fun _ h => .pure h
    rw [hy]
    rcases hbyTag with hnone | ⟨es, hes, hall⟩
    · refine ⟨[o.exit], ?_, by simpa using ⟨c, ν, hν, o, ho, rfl⟩⟩
      simp [OrderedMap.alter, OrderedMap.contains, OrderedMap.find?, hnone]
    · refine ⟨es ++ [o.exit], ?_, fun e he => ?_⟩
      · simp [OrderedMap.alter, OrderedMap.contains, OrderedMap.find?, hes]
      · rcases List.mem_append.mp he with he | he
        · exact hall e he
        · exact ⟨c, ν, hν, o, ho, (List.mem_singleton.mp he).symm⟩
  cases cs with
  | nil => exact absurd rfl hne
  | cons c cs =>
      rw [exitsByTag, List.foldlM_cons]
      refine .bind (hstep c (by simp) ∅ (.inl rfl)) fun byTag hbyTag => ?_
      exact .foldlM hbyTag fun d hd byTag h => hstep d (by simp [hd]) byTag (.inr h)

/-- A module without an exit gets the one that its children share. -/
theorem draws_mergeExits (hν : σ.node? m = some ν) (hkind : ν.kind.isBuffer = false)
    (hi : ν.interior = some i) (hexits : ν.exits = []) {cs : List ComponentId} (hne : cs ≠ [])
    (hcs : ∀ c ∈ cs, σ.EndsDone c) :
    Draws Γ (mergeExits m cs) σ fun _ τ => ∃ e done clock reset go,
      τ = (σ.set m { ν with exits := [(.done, { exit := e, done, outBuf := some σ.next })] }).add
        { Node.blank .outBuf clock reset go with
          owner := some m, go := { port := go, peer := some done } } := by
  refine .of_bounded fun hbounded => .of_proper fun n hn hσ => ?_
  obtain ⟨μ, o, hμ, hin⟩ := (hσ ▸ hn.inBufNode (hσ ▸ hν) hi :
    ∃ μ o, σ.node? i.inBuf = some μ ∧ InBufNode m μ o)
  refine .look (sees_exitsByTag hne hcs) fun byTag ⟨es, hes, hall⟩ => ?_
  refine .look (sees_clockBus hν hi hμ hin.outlet?) fun clock hclock => ?_
  refine .look (sees_resetBus hν hi hμ hin.outlet?) fun reset hreset => ?_
  rw [hes]
  refine .forM_singleton (.look (sees_component hν) fun x hx => ?_)
  have hnone : x.exits.find? .done = none := by
    simp [OrderedMap.find?, hx.exits, hexits]
  simp only [hnone]
  refine .bind (draws_makeExit_module hν hkind hi hexits .done) fun e τ hτ => ?_
  obtain ⟨done, ck, rs, go, hτ⟩ := hτ
  let ν' : Node := { ν with exits := [(.done, { exit := e, done, outBuf := some σ.next })] }
  have hgives : ∀ b, σ.Gives b → τ.Gives b := by
    intro b hb
    rw [hτ]
    exact (hb.set hν (by simp [Node.buses, Node.outlets, hexits])).add (hbounded.set hν _) _
  have hnode : ∀ d ξ, d ≠ m → σ.node? d = some ξ → τ.node? d = some ξ := by
    intro d ξ hdm hξ
    rw [hτ, Sheet.node?_add_of_ne _ _ (by simpa using hbounded.ne_next hξ),
      Sheet.node?_set_of_ne _ _ hdm, hξ]
  have hm : τ.node? m = some ν' := by
    rw [hτ, Sheet.node?_add_of_ne _ _ (by simpa using hbounded.ne_next hν), Sheet.node?_set_self]
  have hbuf : ∃ ξ, τ.node? σ.next = some ξ := ⟨_, by rw [hτ]; exact Sheet.node?_add_next _ _⟩
  obtain ⟨ξ, hξ⟩ := hbuf
  refine .look (sees_exit hm (o := { exit := e, done, outBuf := some σ.next })
    (by simp [ν', Node.outlets])) fun y hy => ?_
  have hpeer : y.peer = some σ.next := (congrArg Outlet.outBuf hy :).symm
  refine .look (.expect hpeer rfl) fun w hw => ?_
  subst hw
  refine .bind (.forM (I := (· = τ)) rfl fun z hz τ' hτ' => ?_) fun _ τ' hτ' => ?_
  · subst hτ'
    obtain ⟨c, κ, hκ, o', ho', rfl⟩ := hall z hz
    have hcm : c ≠ m := by
      rintro rfl
      cases hν.symm.trans hκ
      simp [Node.outlets, hexits] at ho'
    have hcontrol : ∀ b ∈ o.control, τ'.Gives b := fun b hb => hgives b
      (Sheet.gives_of_mem hμ (by simp [hin.buses, Outlet.buses, hb]))
    exact draws_enterOutBuf hξ (hnode c κ hcm hκ) ho' (hcontrol _ (List.mem_of_getElem? hclock))
      (hcontrol _ (List.mem_of_getElem? hreset))
  · subst hτ'
    refine .look (sees_component hm) fun _ _ => .log _ _ _ ⟨e, done, ck, rs, go, hτ⟩

end DataflowSynth.Netlist
