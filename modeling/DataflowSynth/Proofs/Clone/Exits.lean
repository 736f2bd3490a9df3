/-
The exits of a copy.

Every exit of a copy has its tag, its latency and its number of data buses from the exit it is a copy
of.  On a module it comes with an OutBuf, which is later than everything that was there when the exits
were begun.
-/
import DataflowSynth.Proofs.Clone.Shell

namespace DataflowSynth.Netlist

open Build

variable {pins : Nat} {n n' n'' : Netlist} {s : Traced Netlist} {c copy : ComponentId}
  {x x' : Component}

/-! ### Data buses -/

/-- What a step that gives data buses to the exit `e` leaves alone. -/
structure Widens (e : ExitId) (peer : Option ComponentId) (n n' : Netlist) : Prop where
  grows : n.Grows n'
  components : ∀ d, peer ≠ some d → n'.components.get? d = n.components.get? d
  ports : n.ports.Keeps n'.ports
  buses : n.buses.Keeps n'.buses
  exits : ∀ e', e' ≠ e → n'.exits.get? e' = n.exits.get? e'

theorem Widens.refl (e : ExitId) (peer : Option ComponentId) (n : Netlist) : Widens e peer n n :=
  ⟨.refl n, fun _ _ => rfl, .refl _, .refl _, fun _ _ => rfl⟩

theorem Widens.trans {e : ExitId} {peer : Option ComponentId} (h : Widens e peer n n')
    (h' : Widens e peer n' n'') : Widens e peer n n'' where
  grows := h.grows.trans h'.grows
  components d hd := (h'.components d hd).trans (h.components d hd)
  ports := h.ports.trans h'.ports
  buses := h.buses.trans h'.buses
  exits e' he' := (h'.exits e' he').trans (h.exits e' he')

theorem widens_withDataBus (n : Netlist) (e : ExitId) (name : String) :
    Widens e none n (n.withDataBus e name) where
  grows := { Grows.refl n with
    buses := by simp [withDataBus]
    exits := by simp [withDataBus] }
  components _ _ := rfl
  ports := .refl _
  buses := (Arena.Keeps.refl _).push _
  exits _ he' := Arena.get?_modify_of_ne _ (Ne.symm he') _

/-- With an OutBuf, which gets a port for the bus. -/
theorem widens_withOutput (n : Netlist) (e : ExitId) (o : ComponentId) (name : String) :
    Widens e (some o) n (((n.withDataBus e name).withDataPort o name).paired n.ports.next
      n.buses.next) where
  grows := by
    refine ⟨?_, ?_, ?_, ?_, ?_⟩
    all_goals simp [withDataBus, withDataPort]
  components d hd := by
    have hne : o ≠ d := fun heq => hd (congrArg some heq)
    rw [components_paired]
    exact Arena.get?_modify_of_ne _ hne _
  ports := by
    have hpush := (Arena.Keeps.refl n.ports).push (.new name o .data)
    refine ⟨by simp [withDataPort, withDataBus], fun p hp => ?_⟩
    rw [get?_ports_paired _ _ _ (fun heq => by simp [heq] at hp)]
    exact hpush.get? p hp
  buses := by
    have hpush := (Arena.Keeps.refl n.buses).push (.new name e .data)
    refine ⟨by simp [withDataPort, withDataBus], fun b hb => ?_⟩
    rw [get?_buses_paired _ _ _ (fun heq => by simp [heq] at hb)]
    exact hpush.get? b hb
  exits _ he' := by
    rw [exits_paired]
    exact Arena.get?_modify_of_ne _ (Ne.symm he') _

section

variable {S : Scope} {K : List Fact} {e : ExitId} {w : Exit}

theorem makeDataBus_ok (hs : S.Knows K s.state) (he : .has (.exit e) ∈ K)
    (hw : s.state.exits.get? e = some w) (name : String) :
    wp (makeDataBus e name) (fun b t => Widens e w.peer s.state t.state ∧
      t.state.exits.get? e = some { w with data := w.data ++ [b] }) Never s := by
  cases hpeer : w.peer with
  | none =>
      refine (wp_makeDataBus hw hpeer name).mpr ⟨widens_withDataBus _ e name, ?_⟩
      simp [withDataBus, Arena.get?_modify_self, hw, hpeer]
  | some o =>
      have hlinked := hs.sound.linked.exits e w hw (hs.facts _ he).1
      obtain ⟨b, hb⟩ := Arena.exists_get? ((Exit.forall_refs.mp hlinked.refs).2.2 o hpeer).2
      refine (wp_makeDataBus_outBuf hw hpeer hb name).mpr ⟨widens_withOutput _ e o name, ?_⟩
      simp [withDataBus, withDataPort, Arena.get?_modify_self, hw, hpeer]

theorem makeDataBuses_ok (hq : ¬ S.quiet) (hs : S.Knows K s.state) (he : .has (.exit e) ∈ K)
    (hplain : .plainExit e ∈ K) (hw : s.state.exits.get? e = some w) (names : List String) :
    wp (names.forM fun name => discard (makeDataBus e name))
      (fun _ t => S.Knows K t.state ∧ Widens e w.peer s.state t.state ∧ ∃ bs,
        bs.length = names.length ∧ t.state.exits.get? e = some { w with data := w.data ++ bs })
      Never s := by
  induction names generalizing s w with
  | nil => exact ⟨hs, .refl _ _ _, [], rfl, by simpa using hw⟩
  | cons name names ih =>
      rw [wp_forM_cons, wp_discard]
      refine wp_mono ((safe_makeDataBus hq he hplain name).along hs (makeDataBus_ok hs he hw name))
        (fun b t ht => ?_) fun _ _ h => h
      obtain ⟨hknows, -, hwide, hexit⟩ := ht
      refine wp_mono (ih (hknows.mono fun _ h => List.mem_append_right _ h) hexit)
        (fun _ u hu => ⟨hu.1, hwide.trans hu.2.1, ?_⟩) fun _ _ h => h
      obtain ⟨bs, hlength, hu⟩ := hu.2.2
      exact ⟨b :: bs, by simp [hlength], by simpa using hu⟩

end

/-! ### One exit -/

/-- `e'` is a copy of the exit `e`, and its OutBuf is not among the first `lo` components. -/
def ExitDraft (lo : Nat) (n t : Netlist) (e e' : ExitId) : Prop :=
  ∃ y w, n.exits.get? e = some y ∧ t.exits.get? e' = some w ∧ w.data.length = y.data.length ∧
    w.latency = y.latency ∧ ∀ o, w.peer = some o → lo ≤ o.index

theorem ExitDraft.mono {lo lo' : Nat} {e e' : ExitId} (h : ExitDraft lo n n' e e')
    (hk : n'.exits.Keeps n''.exits) (hlo : lo' ≤ lo) : ExitDraft lo' n n'' e e' := by
  obtain ⟨y, w, hy, hw, hdata, hlatency, hpeer⟩ := h
  exact ⟨y, w, hy, (hk.get? _ (Arena.lt_of_get? hw)).trans hw, hdata, hlatency, fun o ho =>
    Nat.le_trans hlo (hpeer o ho)⟩

/-- What a step leaves that gives exits to `copy`. -/
structure ExitsGrow (copy : ComponentId) (n n' : Netlist) : Prop where
  grows : n.Grows n'
  spares : Spares (· = copy) n n'
  exits : n.exits.Keeps n'.exits

theorem ExitsGrow.refl (copy : ComponentId) (n : Netlist) : ExitsGrow copy n n :=
  ⟨.refl n, .refl _ n, .refl _⟩

theorem ExitsGrow.trans (h : ExitsGrow copy n n') (h' : ExitsGrow copy n' n'') :
    ExitsGrow copy n n'' :=
  ⟨h.grows.trans h'.grows, h.spares.trans h'.spares, h.exits.trans h'.exits⟩

theorem makeExit_ok {tag : ExitTag} (hx : s.state.components.get? c = some x)
    (htag : x.exits.contains tag = false) :
    wp (makeExit c 0 tag) (fun e t => e = s.state.exits.next ∧
      ∃ w, ExitAdded s.state t.state c x tag w ∧ w.data = []) Never s := by
  cases hi : x.interior with
  | none =>
      exact (wp_makeExit hx htag hi 0).mpr ⟨rfl, _, exitAdded_withExit hx hi tag, rfl⟩
  | some i =>
      exact (wp_makeExit_module hx htag hi 0).mpr ⟨rfl, _, exitAdded_withModuleExit hx hi tag, rfl⟩

/-- The new exit is given its data buses, which touches nothing that was there before. -/
theorem exitsGrow_of_added {tag : ExitTag} {w : Exit} (ha : ExitAdded n n' copy x' tag w)
    (hwide : Widens n.exits.next w.peer n' n'') (hg : n.Grows n'') {f : Exit → Exit} :
    ExitsGrow copy n { n'' with exits := n''.exits.modify n.exits.next f } := by
  have hnext : ∀ {e : ExitId}, e.index < n.exits.size → e ≠ n.exits.next := by
    rintro e he rfl
    simp at he
  have hexits : n.exits.Keeps (n''.exits.modify n.exits.next f) := by
    refine ⟨by simpa using hg.exits, fun e he => ?_⟩
    rw [Arena.get?_modify_of_ne _ (hnext he).symm, hwide.exits e (hnext he)]
    exact ha.exits.get? e he
  refine ⟨{ hg with exits := hexits.size }, ⟨fun d y hy hd => ⟨y, ?_, rfl⟩, fun p y hy _ => ?_,
    fun e y hy _ => (hexits.get? e (Arena.lt_of_get? hy)).trans hy, fun b z y hz _ _ => ?_⟩, hexits⟩
  · have hlt := Arena.lt_of_get? hy
    refine (hwide.components d fun hpeer => ?_).trans ((ha.others d hd hlt).trans hy)
    exact absurd (ha.outBuf d hpeer).1 (Nat.not_le_of_lt hlt)
  · exact ⟨y, ((ha.ports.trans hwide.ports).get? p (Arena.lt_of_get? hy)).trans hy, rfl⟩
  · exact ⟨z, ((ha.buses.trans hwide.buses).get? b (Arena.lt_of_get? hz)).trans hz, rfl⟩

section

variable {base : Netlist} (hn : n.Keeps base)
  (hs : (Scope.beyond pins base).Knows (draftFacts copy) s.state)
  (hx' : s.state.components.get? copy = some x')

include hn hs hx'

theorem copyExit_ok {e : ExitId} {y : Exit} (hy : n.exits.get? e = some y)
    (htag : x'.exits.contains y.tag = false) :
    wp (copyExit copy e)
      (fun _ t => (Scope.beyond pins base).Knows (draftFacts copy) t.state ∧
        ExitsGrow copy s.state t.state ∧ ∃ e',
          t.state.components.get? copy = some { x' with exits := x'.exits.put y.tag e' } ∧
          ExitDraft s.state.components.size n t.state e e') Never s := by
  have hk := (hn.trans hs.sound.linked.keeps).exits
  rw [copyExit, wp_bind]
  refine (wp_exit ((hk.get? e (Arena.lt_of_get? hy)).trans hy)).mpr ?_
  rw [wp_bind, wp_makeExit_data]
  refine wp_mono ((safe_makeExit id (by simp [draftFacts]) (by simp [draftFacts]) 0 y.tag).along hs
    (makeExit_ok hx' htag)) (fun e' t ht => ?_) fun _ _ h => h
  obtain ⟨hknows, he, rfl, w, ha, hdata⟩ := ht
  refine wp_mono (makeDataBuses_ok id hknows (by simp) (by simp) ha.exit _) (fun _ u hu => ?_)
    fun _ _ h => h
  obtain ⟨hknows, hwide, bs, hlength, hu⟩ := hu
  have hlast : wp (changeExit s.state.exits.next fun w => { w with latency := y.latency })
      (fun _ v => ExitsGrow copy s.state v.state ∧ ∃ e',
        v.state.components.get? copy = some { x' with exits := x'.exits.put y.tag e' } ∧
        ExitDraft s.state.components.size n v.state e e') Never u := by
    refine (wp_changeExit (Arena.lt_of_get? hu)).mpr
      ⟨exitsGrow_of_added ha hwide (he.grows.trans hwide.grows), s.state.exits.next, ?_, y, _, hy,
        (Arena.get?_modify_self _ _ _).trans (congrArg _ hu), ?_, rfl, fun o ho => (ha.outBuf o ho).1⟩
    · refine (hwide.components copy fun hpeer => ?_).trans ha.self
      exact absurd (ha.outBuf copy hpeer).1 (Nat.not_le_of_lt (Arena.lt_of_get? hx'))
    · simpa [hdata, numberedNames] using hlength
  have hsafe := safe_changeExit (S := .beyond pins base) (e := s.state.exits.next)
    (f := fun w => { w with latency := y.latency })
    (K := [.has (.exit s.state.exits.next), .plainExit s.state.exits.next] ++ draftFacts copy)
    (by simp) fun _ => rfl
  refine wp_mono (hsafe.along hknows hlast) (fun _ v hv => ⟨hv.1.mono ?_, hv.2.2⟩) fun _ _ h => h
  exact fun _ h => List.mem_append_right _ (List.mem_append_right _ h)

/-! ### All exits -/

theorem copyExits_ok {es : List (ExitTag × ExitId)} (hnodup : (es.map Prod.fst).Nodup)
    (hes : ∀ a ∈ es, x'.exits.contains a.1 = false ∧
      ∃ y, n.exits.get? a.2 = some y ∧ y.tag = a.1) :
    wp ((es.map Prod.snd).forM (copyExit copy))
      (fun _ t => (Scope.beyond pins base).Knows (draftFacts copy) t.state ∧
        ExitsGrow copy s.state t.state ∧ ∃ es',
          t.state.components.get? copy = some { x' with exits := ⟨x'.exits.entries ++ es'⟩ } ∧
          List.Forall₂ (fun a b => a.1 = b.1 ∧
            ExitDraft s.state.components.size n t.state a.2 b.2) es es') Never s := by
  induction es generalizing s x' with
  | nil => exact ⟨hs, .refl _ _, [], by simpa using hx', .nil⟩
  | cons a es ih =>
      obtain ⟨hnew, y, hy, htag⟩ := hes a (by simp)
      rw [List.map_cons, List.nodup_cons] at hnodup
      rw [List.map_cons, wp_forM_cons]
      refine wp_mono (copyExit_ok hn hs hx' hy (htag ▸ hnew)) (fun _ t ht => ?_) fun _ _ h => h
      obtain ⟨hknows, hgrow, e', hcopy, hdraft⟩ := ht
      rw [htag] at hcopy
      refine wp_mono (ih hknows hcopy hnodup.2 fun b hb => ⟨?_, (hes b (by simp [hb])).2⟩)
        (fun _ u hu => ?_) fun _ _ h => h
      · have hne : b.1 ≠ a.1 := fun heq => hnodup.1 (heq ▸ List.mem_map_of_mem hb)
        have hfalse := (hes b (by simp [hb])).1
        simpa only [OrderedMap.contains, OrderedMap.find?_put_of_ne _ hne] using hfalse
      · obtain ⟨hknows', hgrow', es', hcopy', hdrafts⟩ := hu
        refine ⟨hknows', hgrow.trans hgrow', (a.1, e') :: es', ?_, .cons ⟨rfl, ?_⟩ ?_⟩
        · simpa [OrderedMap.entries_put_of_new hnew] using hcopy'
        · exact hdraft.mono hgrow'.exits (Nat.le_refl _)
        · exact hdrafts.imp fun _ _ h => ⟨h.1, h.2.mono (.refl _) hgrow.grows.components⟩

end

end DataflowSynth.Netlist
