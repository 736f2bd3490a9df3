/-
Ownership is kept.

Everything that is done to holdings is one of a few things: somebody comes, a child is taken in or let
go, a feedback point is marked, an exit or a buffer is put on or taken off.  Each leaves the accounts in
agreement, and with them every step of a netlist.
-/
import DataflowSynth.Proofs.Netlist.Changes
import DataflowSynth.Proofs.Netlist.Holdings
import Mathlib.Data.List.Nodup

namespace DataflowSynth.Netlist

open Build

namespace Holdings

variable {h h' : Holdings} {c m o : ComponentId} {i : Interior} {e : ExitId} {t : ExitTag}

theorem IsBufferKind.mono (hkind : ∀ d k, h.kind? d = some k → h'.kind? d = some k)
    {d : ComponentId} (hd : h.IsBufferKind d) : h'.IsBufferKind d :=
  hd.imp (hkind d _) (hkind d _)

/-! ### New components -/

/-- A component that stands nowhere and has nothing. -/
def newcomer (h : Holdings) (c : ComponentId) (kind : ComponentKind) : Holdings :=
  { h with kind? := fun d => if d = c then some kind else h.kind? d }

theorem Owned.newcomer (ho : h.Owned) (hc : h.kind? c = none) (kind : ComponentKind) :
    (h.newcomer c kind).Owned := by
  have hkind : ∀ d k, h.kind? d = some k → (h.newcomer c kind).kind? d = some k := by
    intro d k hk
    simp only [Holdings.newcomer]
    grind
  exact { ho with
    buffers := fun m s d hd hs => (ho.buffers m s d hd hs).mono hkind
    feedback := fun m i d hi hd => (ho.feedback m i d hi hd).imp id (.mono hkind) }

/-! ### Children and feedback points -/

/-- `m` gets another interior, and `c` another owner. -/
def rehold (h : Holdings) (m : ComponentId) (i : Interior) (c : ComponentId)
    (owner : Option ComponentId) : Holdings :=
  { h with
    owner? := fun d => if d = c then owner else h.owner? d
    interior? := fun d => if d = m then some i else h.interior? d }

theorem at_rehold {j : Interior} {owner : Option ComponentId} (hi : h.interior? m = some i)
    (hin : j.inBuf = i.inBuf) (k : ComponentId) (s : Slot) (d : ComponentId) :
    (h.rehold m j c owner).At k s d ↔
      if k = m ∧ s = .child then d ∈ j.children else h.At k s d := by
  cases s <;> simp only [At, rehold] <;> grind

/-- The lists of an interior are in order. -/
structure Neat (h : Holdings) (i : Interior) : Prop where
  nodup : i.children.Nodup
  ascending : i.feedback.Pairwise (·.index < ·.index)
  feedback : ∀ d ∈ i.feedback, d ∈ i.children ∨ h.IsBufferKind d

theorem Owned.neat (ho : h.Owned) (hi : h.interior? m = some i) : h.Neat i :=
  ⟨ho.nodup m i hi, ho.ascending m i hi, fun d hd => ho.feedback m i d hi hd⟩

theorem Owned.rehold (ho : h.Owned) (hi : h.interior? m = some i) (j : Interior)
    (hin : j.inBuf = i.inBuf) (hj : h.Neat j) {owner : Option ComponentId}
    (hplaced : (h.rehold m j c owner).Placed) : (h.rehold m j c owner).Owned where
  toPlaced := hplaced
  buffers k s d hd hs := by
    rw [at_rehold hi hin, if_neg fun hk => hs hk.2] at hd
    exact ho.buffers k s d hd hs
  modules k s d hd := by
    rw [at_rehold hi hin] at hd
    simp only [Holdings.rehold]
    split
    · rfl
    · next hk =>
      rw [if_neg fun h => hk h.1] at hd
      exact ho.modules k s d hd
  origin := ho.origin
  tags := ho.tags
  nodup k l hl := by
    simp only [Holdings.rehold] at hl
    split at hl
    · cases hl
      exact hj.nodup
    · exact ho.nodup k l hl
  ascending k l hl := by
    simp only [Holdings.rehold] at hl
    split at hl
    · cases hl
      exact hj.ascending
    · exact ho.ascending k l hl
  feedback k l d hl hd := by
    simp only [Holdings.rehold] at hl
    split at hl
    · cases hl
      exact hj.feedback d hd
    · exact ho.feedback k l d hl hd

theorem Owned.adopt (ho : h.Owned) (hc : h.owner? c = none) (hi : h.interior? m = some i) :
    (h.rehold m { i with children := i.children ++ [c] } c (some m)).Owned := by
  have hneat := ho.neat hi
  have hchild : c ∉ i.children := fun hmem => by
    simpa [hc] using ho.owns m .child c ⟨i, hi, hmem⟩
  refine ho.rehold hi { i with children := i.children ++ [c] } rfl
    ⟨?_, hneat.ascending, fun d hd => ?_⟩
    (ho.add (m := m) .child hc (fun k s d => ?_) fun d => rfl)
  · exact List.nodup_append.mpr ⟨hneat.nodup, by simp, by grind⟩
  · exact (hneat.feedback d hd).imp (List.mem_append_left _) id
  · refine (at_rehold hi (by rfl) k s d).trans ?_
    split
    · next hk =>
      obtain ⟨rfl, rfl⟩ := hk
      simp only [At, hi]
      grind
    · next hk => exact ⟨.inl, fun hd => hd.resolve_right fun h => hk ⟨h.1, h.2.1⟩⟩

theorem Owned.release (ho : h.Owned) (hi : h.interior? m = some i) (hc : c ∈ i.children) :
    (h.rehold m { i with children := i.children.erase c, feedback := i.feedback.erase c } c
      none).Owned := by
  have hneat := ho.neat hi
  have hcm : h.At m .child c := ⟨i, hi, hc⟩
  -- Nothing else stands where `c` stands, and `c` stands nowhere else.
  have hone : ∀ k s, h.At k s c → k = m ∧ s = .child := by
    intro k s hk
    obtain rfl := Option.some.inj ((ho.owns k s c hk).symm.trans (ho.owns m .child c hcm))
    exact ⟨rfl, ho.single k s .child c hk hcm⟩
  refine ho.rehold hi
    { i with children := i.children.erase c, feedback := i.feedback.erase c } rfl
    ⟨hneat.nodup.erase c, hneat.ascending.erase c, fun d hd => ?_⟩
    (ho.remove (fun k s d => ?_) fun d => rfl)
  · have hnodup : i.feedback.Nodup := hneat.ascending.imp fun hlt heq => by simp [heq] at hlt
    rw [hnodup.mem_erase_iff] at hd
    refine (hneat.feedback d hd.2).imp (fun hmem => ?_) id
    exact hneat.nodup.mem_erase_iff.mpr ⟨hd.1, hmem⟩
  · refine (at_rehold hi (by rfl) k s d).trans ?_
    split
    · next hk =>
      obtain ⟨rfl, rfl⟩ := hk
      simp only [At, hi, hneat.nodup.mem_erase_iff]
      grind
    · next hk =>
      refine ⟨fun hd => ⟨hd, fun heq => hk ?_⟩, And.left⟩
      exact hone k s (heq ▸ hd)

theorem ascending_insertAscending {cs : List ComponentId}
    (h : cs.Pairwise (·.index < ·.index)) (c : ComponentId) :
    (insertAscending c cs).Pairwise (·.index < ·.index) := by
  induction cs with
  | nil => simp [insertAscending]
  | cons d ds ih =>
      obtain ⟨hd, hds⟩ := List.pairwise_cons.mp h
      simp only [insertAscending]
      split
      · next hlt =>
        refine List.pairwise_cons.mpr ⟨fun k hk => ?_, h⟩
        rcases List.mem_cons.mp hk with rfl | hk
        · exact hlt
        · exact Nat.lt_trans hlt (hd k hk)
      · next hge =>
        split
        · exact h
        · next hne =>
          refine List.pairwise_cons.mpr ⟨fun k hk => ?_, ih hds⟩
          rcases mem_insertAscending.mp hk with rfl | hk
          · have hidx : d.index ≠ k.index := fun heq => hne (Handle.ext_index heq.symm)
            omega
          · exact hd k hk

theorem Owned.mark (ho : h.Owned) (hi : h.interior? m = some i) (hc : h.owner? c = some m) :
    (h.rehold m { i with feedback := insertAscending c i.feedback } c (some m)).Owned := by
  have hneat := ho.neat hi
  refine ho.rehold hi { i with feedback := insertAscending c i.feedback } rfl
    ⟨hneat.nodup, ascending_insertAscending hneat.ascending c, fun d hd => ?_⟩
    (ho.same (fun k s d => ?_) fun d => ?_)
  · rcases mem_insertAscending.mp hd with rfl | hd
    · obtain ⟨s, hs⟩ := ho.placed m d hc
      cases s with
      | child =>
          obtain ⟨j, hj, hmem⟩ := hs
          cases hi.symm.trans hj
          exact .inl hmem
      | inBuf => exact .inr (ho.buffers m .inBuf d hs (by simp))
      | outBuf e => exact .inr (ho.buffers m (.outBuf e) d hs (by simp))
    · exact hneat.feedback d hd
  · refine (at_rehold hi (by rfl) k s d).trans ?_
    split
    · next hk =>
      obtain ⟨rfl, rfl⟩ := hk
      simp only [At, hi]
      grind
    · exact Iff.rfl
  · simp only [Holdings.rehold]
    grind

/-! ### Exits -/

/-- A component gets an exit without an OutBuf. -/
def withExit (h : Holdings) (c : ComponentId) (t : ExitTag) (e : ExitId) : Holdings :=
  { h with
    exits := fun d => if d = c then h.exits d ++ [(t, e)] else h.exits d
    origin? := fun x => if x = e then some (c, t) else h.origin? x }

theorem Owned.withExit (ho : h.Owned) (he : h.origin? e = none) (hpeer : h.peer? e = none)
    (htag : t ∉ (h.exits c).map Prod.fst) : (h.withExit c t e).Owned := by
  have hat : ∀ k s d, (h.withExit c t e).At k s d ↔ h.At k s d := by
    intro k s d
    cases s <;> simp only [At, Holdings.withExit]
    grind
  refine { ho.toPlaced.same hat fun _ => rfl, ho with
    buffers := fun k s d hd => ho.buffers k s d ((hat k s d).mp hd)
    modules := fun k s d hd => ho.modules k s d ((hat k s d).mp hd)
    origin := fun d u x hx => ?_
    tags := fun d => ?_ }
  · have horigin := ho.origin d u x
    simp only [Holdings.withExit] at hx ⊢
    grind
  · have htags := ho.tags d
    simp only [Holdings.withExit]
    split
    · next heq =>
      subst heq
      rw [List.map_append]
      exact List.nodup_append.mpr ⟨htags, by simp, by grind⟩
    · exact htags

/-- An exit gets an OutBuf. -/
def withOutBuf (h : Holdings) (c : ComponentId) (e : ExitId) (o : ComponentId) : Holdings :=
  { h with
    owner? := fun d => if d = o then some c else h.owner? d
    peer? := fun x => if x = e then some o else h.peer? x }

theorem Owned.withOutBuf (ho : h.Owned) (hfree : h.owner? o = none)
    (hkind : h.kind? o = some .outBuf) (hmem : (t, e) ∈ h.exits c) (hi : (h.interior? c).isSome)
    (hpeer : h.peer? e = none) : (h.withOutBuf c e o).Owned := by
  have hat : ∀ k s d,
      (h.withOutBuf c e o).At k s d ↔ h.At k s d ∨ k = c ∧ s = .outBuf e ∧ d = o := by
    intro k s d
    have hlisted : ∀ u, (u, e) ∈ h.exits k → k = c := by
      intro u hu
      have heq := (ho.origin k u e hu).symm.trans (ho.origin c t e hmem)
      simp only [Option.some.injEq, Prod.mk.injEq] at heq
      exact heq.1
    cases s <;> simp only [At, Holdings.withOutBuf] <;> grind
  refine { ho.toPlaced.add (m := c) (.outBuf e) hfree hat fun _ => rfl, ho with
    buffers := fun k s d hd hs => ?_, modules := fun k s d hd => ?_ }
  · rcases (hat k s d).mp hd with hd | ⟨-, -, rfl⟩
    · exact ho.buffers k s d hd hs
    · exact .inr hkind
  · rcases (hat k s d).mp hd with hd | ⟨rfl, -, -⟩
    · exact ho.modules k s d hd
    · exact hi

/-- The OutBuf of an exit is taken off. -/
def withoutOutBuf (h : Holdings) (e : ExitId) (o : ComponentId) : Holdings :=
  { h with
    owner? := fun d => if d = o then none else h.owner? d
    peer? := fun x => if x = e then none else h.peer? x }

theorem Owned.withoutOutBuf (ho : h.Owned) (hmem : (t, e) ∈ h.exits c)
    (hpeer : h.peer? e = some o) : (h.withoutOutBuf e o).Owned := by
  have heo : h.At c (.outBuf e) o := ⟨⟨t, hmem⟩, hpeer⟩
  have hat : ∀ k s d, (h.withoutOutBuf e o).At k s d ↔ h.At k s d ∧ d ≠ o := by
    intro k s d
    have hone : h.At k s o → k = c ∧ s = .outBuf e := by
      intro hk
      obtain rfl := Option.some.inj ((ho.owns k s o hk).symm.trans (ho.owns c _ o heo))
      exact ⟨rfl, ho.single k s _ o hk heo⟩
    cases s <;> simp only [At, Holdings.withoutOutBuf] at hone ⊢ <;> grind
  exact { ho.toPlaced.remove hat fun _ => rfl, ho with
    buffers := fun k s d hd => ho.buffers k s d ((hat k s d).mp hd).1
    modules := fun k s d hd => ho.modules k s d ((hat k s d).mp hd).1 }

/-- An exit without an OutBuf is taken off. -/
def withoutExit (h : Holdings) (c : ComponentId) (t : ExitTag) : Holdings :=
  { h with exits := fun d => if d = c then (h.exits d).filter (·.1 ≠ t) else h.exits d }

theorem Owned.withoutExit (ho : h.Owned) (hmem : (t, e) ∈ h.exits c) (hpeer : h.peer? e = none) :
    (h.withoutExit c t).Owned := by
  have hat : ∀ k s d, (h.withoutExit c t).At k s d ↔ h.At k s d := by
    intro k s d
    have hsame : ∀ x, (t, x) ∈ h.exits c → x = e := by
      intro x hx
      exact congrArg Prod.snd (List.inj_on_of_nodup_map (ho.tags c) hx hmem rfl)
    cases s <;> simp only [At, Holdings.withoutExit]
    grind
  refine { ho.toPlaced.same hat fun _ => rfl, ho with
    buffers := fun k s d hd => ho.buffers k s d ((hat k s d).mp hd)
    modules := fun k s d hd => ho.modules k s d ((hat k s d).mp hd)
    origin := fun d u x hx => ?_
    tags := fun d => ?_ }
  · have horigin : (u, x) ∈ h.exits d → h.origin? x = some (d, u) := ho.origin d u x
    show h.origin? x = some (d, u)
    simp only [Holdings.withoutExit] at hx
    grind
  · have htags := ho.tags d
    simp only [Holdings.withoutExit]
    split
    · exact htags.sublist (List.filter_sublist.map _)
    · exact htags

/-! ### Modules -/

/-- A component becomes a module, with `b` as its InBuf. -/
def withInBuf (h : Holdings) (m b : ComponentId) : Holdings :=
  { h with
    owner? := fun d => if d = b then some m else h.owner? d
    interior? := fun d => if d = m then some { inBuf := b } else h.interior? d }

theorem Owned.withInBuf (ho : h.Owned) {b : ComponentId} (hm : h.interior? m = none)
    (hfree : h.owner? b = none) (hkind : h.kind? b = some .inBuf) : (h.withInBuf m b).Owned := by
  have hnone : ∀ s d, ¬ h.At m s d := fun s d hd => by simpa [hm] using ho.modules m s d hd
  have hat : ∀ k s d, (h.withInBuf m b).At k s d ↔ h.At k s d ∨ k = m ∧ s = .inBuf ∧ d = b := by
    intro k s d
    have hno := hnone s d
    cases s <;> simp only [At, Holdings.withInBuf] at hno ⊢ <;> grind
  refine { ho.toPlaced.add (m := m) .inBuf hfree hat fun _ => rfl with
    buffers := fun k s d hd hs => ?_, modules := fun k s d hd => ?_, origin := ho.origin
    tags := ho.tags, nodup := fun k i hi => ?_, ascending := fun k i hi => ?_
    feedback := fun k i d hi hd => ?_ }
  · rcases (hat k s d).mp hd with hd | ⟨-, -, rfl⟩
    · exact ho.buffers k s d hd hs
    · exact .inl hkind
  · simp only [Holdings.withInBuf]
    rcases (hat k s d).mp hd with hd | ⟨rfl, -, -⟩
    · split
      · rfl
      · exact ho.modules k s d hd
    · simp
  · have hnodup := ho.nodup k i
    simp only [Holdings.withInBuf] at hi
    grind
  · have hascending := ho.ascending k i
    simp only [Holdings.withInBuf] at hi
    grind
  · have hfeedback := ho.feedback k i d
    simp only [Holdings.withInBuf] at hi
    show d ∈ i.children ∨ h.IsBufferKind d
    grind

end Holdings

/-! ### Edits of a netlist -/

variable {n : Netlist} {c m : ComponentId} {x : Component} {e : ExitId}

theorem holdings_shelled (n : Netlist) (kind : ComponentKind) (stem : String) :
    (n.shelled kind stem).holdings = n.holdings.newcomer n.components.next kind.plain := by
  have hnone : n.components.get? n.components.next = none := Arena.get?_of_size_le (by simp)
  simp only [holdings, Holdings.newcomer, components_shelled, exits_shelled, Arena.get?_push,
    Holdings.mk.injEq, and_true]
  refine ⟨?_, ?_, ?_, ?_⟩ <;> funext d <;> split
  all_goals first | (next heq => subst heq; simp [hnone, shell]) | rfl

theorem holdings_withExit (hx : n.components.get? c = some x) {tag : ExitTag}
    (htag : x.exits.contains tag = false) :
    (n.withExit c tag).holdings = n.holdings.withExit c tag n.exits.next := by
  have hnone : n.exits.get? n.exits.next = none := Arena.get?_of_size_le (by simp)
  simp only [holdings, Holdings.withExit, withExit, Arena.get?_push, Arena.get?_modify,
    Holdings.mk.injEq]
  refine ⟨?_, ?_, ?_, ?_, ?_, ?_⟩
  · funext d
    split
    · cases n.components.get? d <;> rfl
    · rfl
  · funext d
    split
    · cases n.components.get? d <;> rfl
    · rfl
  · funext d
    split
    · cases n.components.get? d <;> rfl
    · rfl
  · funext d
    split
    · next heq =>
      subst heq
      simp [hx, OrderedMap.entries_put_of_new htag]
    · rfl
  · funext d
    split
    · next heq =>
      subst heq
      simp [hnone]
    · rfl
  · funext d
    split <;> rfl

theorem holdings_withOutBuf (he : e.index < n.exits.size) (c : ComponentId) (x : Component)
    (done : BusId) : (n.withOutBuf c x e done).holdings =
      (n.holdings.newcomer n.components.next .outBuf).withOutBuf c e n.components.next := by
  have hnone : n.components.get? n.components.next = none := Arena.get?_of_size_le (by simp)
  obtain ⟨y, hy⟩ := Arena.exists_get? he
  simp only [holdings, Holdings.withOutBuf, Holdings.newcomer, get?_withOutBuf, exits_withOutBuf,
    Arena.get?_modify, Holdings.mk.injEq]
  refine ⟨?_, ?_, ?_, ?_, ?_, ?_⟩
  · funext d
    split <;> rfl
  · funext d
    split <;> rfl
  · funext d
    split
    · next heq =>
      subst heq
      simp [hnone, shell]
    · rfl
  · funext d
    split
    · next heq =>
      subst heq
      simp [hnone, shell]
    · rfl
  · funext d
    split
    · next heq =>
      subst heq
      simp [hy]
    · rfl
  · funext d
    split
    · cases n.exits.get? d <;> rfl
    · rfl

theorem holdings_withModule (n : Netlist) (kind : ModuleKind) (stem : String) :
    (n.withModule kind stem).holdings =
      (((n.holdings.newcomer n.components.next (ComponentKind.module kind).plain).newcomer
        ⟨n.components.size + 1⟩ .inBuf).withExit ⟨n.components.size + 1⟩ .done
        n.exits.next).withInBuf n.components.next ⟨n.components.size + 1⟩ := by
  have hmodule : n.components.get? n.components.next = none := Arena.get?_of_size_le (by simp)
  have hinBuf : n.components.get? ⟨n.components.size + 1⟩ = none := Arena.get?_of_size_le (by simp)
  have hexit : n.exits.get? n.exits.next = none := Arena.get?_of_size_le (by simp)
  have hput : (OrderedMap.put ∅ ExitTag.done n.exits.next).entries = [(.done, n.exits.next)] :=
    OrderedMap.entries_put_of_new rfl
  have hne : (⟨n.components.size + 1⟩ : ComponentId) ≠ n.components.next := by
    simp [Handle.eq_iff_index]
  have hget : ∀ d, (n.withModule kind stem).components.get? d =
      if d = n.components.next then some (n.newModuleComponent kind stem)
      else if d = ⟨n.components.size + 1⟩ then
        some ((n.shelled (.module kind) stem).newInBuf n.components.next
          (n.shell (.module kind) stem))
      else n.components.get? d := by
    intro d
    rw [get?_withModule]
    simp only [Handle.eq_iff_index, Arena.next_index]
  simp only [holdings, Holdings.withInBuf, Holdings.withExit, Holdings.newcomer, hget,
    get?_exits_withModule, Holdings.mk.injEq]
  refine ⟨?_, ?_, ?_, ?_, ?_, ?_⟩ <;> funext d
  · split
    · next heq => simp [heq, hne.symm, newModuleComponent, shell]
    · split <;> simp [newInBuf, shell, ComponentKind.plain]
  · split
    · next heq => simp [heq, hne.symm, newModuleComponent, shell, hmodule]
    · split <;> simp [newInBuf, shell]
  · split
    · simp [newModuleComponent]
    · split
      · next heq => simp [heq, newInBuf, shell, hinBuf]
      · rfl
  · split
    · next heq => simp [heq, hne.symm, newModuleComponent, shell, hmodule]
    · split
      · next heq => simp [heq, newInBuf, hinBuf, hput]
      · rfl
  · split
    · next heq => simp [heq, newInBufExit, hexit]
    · rfl
  · split
    · simp [newInBufExit, components_shelled, Arena.next, Arena.push, Arena.size]
    · rfl

/-! ### Single steps -/

section

variable {s : Traced Netlist} {Q : Unit → Traced Netlist → Prop}
  {F : Failure → Traced Netlist → Prop}

theorem wp_erasePeer (he : e.index < s.state.exits.size)
    (hQ : ∀ t : Traced Netlist, t.state.holdings = { s.state.holdings with
      peer? := fun x => if x = e then none else s.state.holdings.peer? x } → Q () t) :
    wp (changeExit e fun y => { y with peer := none }) Q F s := by
  refine (wp_changeExit he).mpr (hQ _ ?_)
  simp only [moved, holdings, Arena.get?_modify, Holdings.mk.injEq, true_and]
  refine ⟨?_, ?_⟩ <;> funext d <;> split
  all_goals first | rfl | (cases s.state.exits.get? d <;> rfl)

variable (hF : ∀ a, F (.abort a) s)

include hF

theorem wp_changeComponent_of {f : Component → Component}
    (hQ : ∀ x, s.state.components.get? c = some x →
      Q () (moved s { s.state with components := s.state.components.modify c f })) :
    wp (changeComponent c f) Q F s := by
  by_cases hc : c.index < s.state.components.size
  · obtain ⟨x, hx⟩ := Arena.exists_get? hc
    exact (wp_changeComponent hc).mpr (hQ x hx)
  · have hcontains : s.state.components.contains c = false := by
      simpa [← Arena.contains_iff] using hc
    simp only [changeComponent, wp_bind, wp_look, hcontains, Bool.false_eq_true, if_false, wp_abort]
    exact hF _

theorem wp_setOwner {owner : Option ComponentId}
    (hQ : ∀ t : Traced Netlist, t.state.holdings = { s.state.holdings with
      owner? := fun d => if d = c then owner else s.state.holdings.owner? d } → Q () t) :
    wp (changeComponent c fun x => { x with owner }) Q F s := by
  refine wp_changeComponent_of hF fun x hx => hQ _ ?_
  simp only [moved, holdings, Arena.get?_modify, Holdings.mk.injEq, and_true]
  refine ⟨?_, ?_, ?_, ?_⟩ <;> funext d <;> split
  all_goals first | (next heq => subst heq; simp [hx]) | rfl

theorem wp_setInterior {f : Interior → Interior}
    (hQ : ∀ i, s.state.holdings.interior? m = some i → ∀ t : Traced Netlist,
      t.state.holdings = { s.state.holdings with
        interior? := fun d => if d = m then some (f i) else s.state.holdings.interior? d } → Q () t) :
    wp (changeInterior m f) Q F s := by
  simp only [changeInterior, interior, wp_bind]
  refine wp_component_of (fun x hx => wp_expect (fun i hi => ?_) (hF _)) (hF _)
  refine (wp_changeComponent (Arena.lt_of_get? hx)).mpr (hQ i (by simp [holdings, hx, hi]) _ ?_)
  simp only [moved, holdings, Arena.get?_modify, Holdings.mk.injEq, and_true]
  refine ⟨?_, ?_, ?_, ?_⟩ <;> funext d <;> split
  all_goals first | (next heq => subst heq; simp [hx, hi]) | rfl

theorem wp_eraseExit {tag : ExitTag}
    (hQ : ∀ t : Traced Netlist, t.state.holdings = s.state.holdings.withoutExit c tag → Q () t) :
    wp (changeComponent c fun x => { x with exits := x.exits.erase tag }) Q F s := by
  refine wp_changeComponent_of hF fun x hx => hQ _ ?_
  simp only [moved, holdings, Holdings.withoutExit, Arena.get?_modify, Holdings.mk.injEq, and_true]
  refine ⟨?_, ?_, ?_, ?_⟩ <;> funext d <;> split
  all_goals first | rfl | (cases s.state.components.get? d <;> rfl)

end

/-! ### What edits do -/

/-- What an edit can do to ownership. -/
inductive Holdings.Edited (h : Holdings) : Holdings → Prop where
  | same : Edited h h
  | adopt {m c : ComponentId} {i : Interior} (free : h.owner? c = none)
      (interior : h.interior? m = some i) :
      Edited h (h.rehold m { i with children := i.children ++ [c] } c (some m))
  | release {m c : ComponentId} {i : Interior} (interior : h.interior? m = some i)
      (child : c ∈ i.children) :
      Edited h (h.rehold m
        { i with children := i.children.erase c, feedback := i.feedback.erase c } c none)
  | mark {m c : ComponentId} {i : Interior} (interior : h.interior? m = some i)
      (owner : h.owner? c = some m) :
      Edited h (h.rehold m { i with feedback := insertAscending c i.feedback } c (some m))
  | exit {c : ComponentId} {t : ExitTag} {e : ExitId} (origin : h.origin? e = none)
      (peer : h.peer? e = none) (tag : t ∉ (h.exits c).map Prod.fst)
      (plain : h.interior? c = none) : Edited h (h.withExit c t e)
  /-- A module gets an exit together with its OutBuf. -/
  | moduleExit {c o : ComponentId} {t : ExitTag} {e : ExitId} (origin : h.origin? e = none)
      (peer : h.peer? e = none) (tag : t ∉ (h.exits c).map Prod.fst)
      (module : (h.interior? c).isSome) (free : h.owner? o = none) (kind : h.kind? o = none) :
      Edited h (((h.withExit c t e).newcomer o .outBuf).withOutBuf c e o)
  | dropExit {c : ComponentId} {t : ExitTag} {e : ExitId} (listed : (t, e) ∈ h.exits c)
      (peer : h.peer? e = none) : Edited h (h.withoutExit c t)
  /-- An exit is taken off together with its OutBuf. -/
  | dropOutBuf {c o : ComponentId} {t : ExitTag} {e : ExitId} (listed : (t, e) ∈ h.exits c)
      (peer : h.peer? e = some o) : Edited h ((h.withoutOutBuf e o).withoutExit c t)

theorem Holdings.Owned.edited {h h' : Holdings} (ho : h.Owned) (he : h.Edited h') : h'.Owned := by
  cases he with
  | same => exact ho
  | adopt free interior => exact ho.adopt free interior
  | release interior child => exact ho.release interior child
  | mark interior owner => exact ho.mark interior owner
  | exit origin peer tag _ => exact ho.withExit origin peer tag
  | @moduleExit c o t e origin peer tag module free kind =>
      refine ((ho.withExit origin peer tag).newcomer kind .outBuf).withOutBuf (t := t) free ?_ ?_
        module peer
      · simp [Holdings.newcomer]
      · show (t, e) ∈ (h.withExit c t e).exits c
        simp [Holdings.withExit]
  | dropExit listed peer => exact ho.withoutExit listed peer
  | dropOutBuf listed peer =>
      exact (ho.withoutOutBuf listed peer).withoutExit listed (by simp [Holdings.withoutOutBuf])

section

variable {s : Traced Netlist}

theorem edited_of_moves {α : Type} {x : Step α} (hx : Moves SameHoldings x) :
    wp x (fun _ t => s.state.holdings.Edited t.state.holdings)
      (fun f t => f.Unless (s.state.holdings.Edited t.state.holdings)) s := by
  refine wp_mono (hx s) (fun _ t ht => ?_) fun f t ht => ht.mono False.elim
  rw [ht]
  exact .same

theorem edited_makeExit (hc : c.index < s.state.components.size) (tag : ExitTag) :
    wp (makeExit c 0 tag) (fun _ t => s.state.holdings.Edited t.state.holdings)
      (fun f t => f.Unless (s.state.holdings.Edited t.state.holdings)) s := by
  obtain ⟨x, hx⟩ := Arena.exists_get? hc
  have hexit : s.state.exits.get? s.state.exits.next = none := Arena.get?_of_size_le (by simp)
  cases htag : x.exits.contains tag with
  | true => exact (wp_makeExit_taken hx htag 0).mpr trivial
  | false =>
      have hnew : tag ∉ (s.state.holdings.exits c).map Prod.fst := by
        intro hmem
        have hkeys : tag ∈ x.exits.keys := by simpa [holdings, hx, OrderedMap.keys] using hmem
        rw [OrderedMap.contains_iff.mpr hkeys] at htag
        cases htag
      cases hi : x.interior with
      | none =>
          refine (wp_makeExit hx htag hi 0).mpr ?_
          show s.state.holdings.Edited (s.state.withExit c tag).holdings
          rw [holdings_withExit hx htag]
          exact .exit (by simp [holdings, hexit]) (by simp [holdings, hexit]) hnew
            (by simp [holdings, hx, hi])
      | some i =>
          refine (wp_makeExit_module hx htag hi 0).mpr ?_
          show s.state.holdings.Edited ((s.state.withExit c tag).withOutBuf c _ _ _).holdings
          have hnone : s.state.components.get? s.state.components.next = none :=
            Arena.get?_of_size_le (by simp)
          rw [holdings_withOutBuf (by simp [withExit]), holdings_withExit hx htag]
          exact .moduleExit (by simp [holdings, hexit]) (by simp [holdings, hexit]) hnew
            (by simp [holdings, hx, hi]) (by simp [holdings, hnone]) (by simp [holdings, hnone])

theorem edited_removeExit (c : ComponentId) (tag : ExitTag) :
    wp (removeExit c tag) (fun _ t => s.state.holdings.Edited t.state.holdings)
      (fun f t => f.Unless (s.state.holdings.Edited t.state.holdings)) s := by
  simp only [removeExit, wp_bind]
  refine wp_component_of (fun x hx => ?_) trivial
  split
  · exact .same
  · next e he =>
    have hmem : (tag, e) ∈ s.state.holdings.exits c := by
      simpa [holdings, hx] using OrderedMap.mem_entries_of_find? he
    simp only [wp_bind]
    refine wp_eraseExit (fun _ => trivial) fun t ht => ?_
    refine wp_exit_of (fun y hy => ?_) trivial
    have hpeer : s.state.holdings.peer? e = y.peer := by
      have heq : t.state.holdings.peer? e = s.state.holdings.peer? e := by rw [ht]; rfl
      simpa [holdings, hy] using heq.symm
    split
    · next hnone =>
      show s.state.holdings.Edited t.state.holdings
      rw [ht]
      exact .dropExit hmem (hpeer.trans hnone)
    · next o hsome =>
      simp only [wp_bind]
      refine wp_erasePeer (Arena.lt_of_get? hy) fun u hu => ?_
      refine wp_mono (calm_disconnect.mono (fun _ _ => Calm.sameHoldings) u) (fun _ v hv => ?_)
        fun f w hw => hw.mono False.elim
      refine wp_setOwner (fun _ => trivial) fun w hw => ?_
      show s.state.holdings.Edited w.state.holdings
      rw [hw, hv, hu, ht]
      exact .dropOutBuf hmem (hpeer.trans hsome)

theorem edited_addComponent (m c : ComponentId) :
    wp (addComponent m c) (fun _ t => s.state.holdings.Edited t.state.holdings)
      (fun f t => f.Unless (s.state.holdings.Edited t.state.holdings)) s := by
  simp only [addComponent, wp_bind]
  refine wp_component_of (fun x hx => ?_) trivial
  split
  · split
    · simp only [wp_bind]
      exact wp_component_of (fun _ _ => trivial) trivial
    · exact .same
  · next hnone =>
    simp only [wp_bind]
    refine wp_setOwner (fun _ => trivial) fun t ht => ?_
    refine wp_setInterior (fun _ => trivial) fun i hi u hu => ?_
    rw [ht] at hi
    rw [hu, ht]
    exact .adopt (by simp [holdings, hx, hnone]) hi

theorem edited_removeComponent (m c : ComponentId) :
    wp (removeComponent m c) (fun _ t => s.state.holdings.Edited t.state.holdings)
      (fun f t => f.Unless (s.state.holdings.Edited t.state.holdings)) s := by
  simp only [removeComponent, children, interior, wp_bind]
  refine wp_component_of (fun x hx => wp_expect (fun i hi => ?_) trivial) trivial
  simp only [wp_pure]
  split
  · next hmem =>
    simp only [wp_bind]
    refine wp_setInterior (fun _ => trivial) fun j hj t ht => ?_
    obtain rfl : j = i := by simpa [holdings, hx, hi] using hj.symm
    refine wp_mono (moves_outBufs (R := SameHoldings) t) (fun os u hu => ?_)
      fun f w hw => hw.mono False.elim
    refine wp_mono (Moves.forM (fun o _ => calm_dropEntries.mono fun _ _ => Calm.sameHoldings) u)
      (fun _ v hv => ?_) fun f w hw => hw.mono False.elim
    refine wp_mono (calm_disconnect.mono (fun _ _ => Calm.sameHoldings) v) (fun _ w hw => ?_)
      fun f w hw => hw.mono False.elim
    refine wp_setOwner (fun _ => trivial) fun r hr => ?_
    show s.state.holdings.Edited r.state.holdings
    rw [hr, hw, hv, hu, ht]
    exact .release hj (List.contains_iff_mem.mp hmem)
  · exact .same

theorem edited_addFeedbackPoint (m c : ComponentId) :
    wp (addFeedbackPoint m c) (fun _ t => s.state.holdings.Edited t.state.holdings)
      (fun f t => f.Unless (s.state.holdings.Edited t.state.holdings)) s := by
  simp only [addFeedbackPoint, wp_bind]
  refine wp_component_of (fun x hx => ?_) trivial
  split
  · simp only [wp_bind]
    exact wp_component_of (fun _ _ => trivial) trivial
  · next howner =>
    have hown : s.state.holdings.owner? c = some m := by simpa [holdings, hx] using howner
    refine wp_setInterior (fun _ => trivial) fun i hi t ht => ?_
    have hedited := Holdings.Edited.mark hi hown
    have hsame : (fun d => if d = c then some m else s.state.holdings.owner? d) =
        s.state.holdings.owner? := by
      funext d
      split
      · next heq => rw [heq, hown]
      · rfl
    rw [Holdings.rehold, hsame] at hedited
    rw [ht]
    exact hedited

/-- Whatever an edit does, it does one of these things to ownership. -/
theorem edited_run (op : Edit) (hl : ∀ r ∈ op.refs, r.New {} s.state) :
    wp op.run (fun _ t => s.state.holdings.Edited t.state.holdings)
      (fun f t => f.Unless (s.state.holdings.Edited t.state.holdings)) s := by
  cases op with
  | dataBus e name => exact wp_discard.mpr (edited_of_moves moves_makeDataBus)
  | dataPort c name => exact wp_discard.mpr (edited_of_moves moves_makeDataPort)
  | thisPort c => exact wp_discard.mpr (edited_of_moves moves_makeThisPort)
  | consumesGo c on => exact edited_of_moves moves_setConsumesGo
  | producesDone c on => exact edited_of_moves moves_setProducesDone
  | wait c =>
      exact edited_of_moves (moves_changeComponent (f := fun x => { x with consumesGo := true })
        fun _ => ⟨rfl, rfl, rfl, rfl⟩)
  | exit c tag =>
      have hc : Ref.New {} s.state (.component c) := hl _ (by simp [Edit.refs])
      exact wp_discard.mpr (edited_makeExit hc.2 tag)
  | dropExit c tag => exact wp_discard.mpr (edited_removeExit c tag)
  | adopt m c => exact edited_addComponent m c
  | release m c => exact wp_discard.mpr (edited_removeComponent m c)
  | feedback m c => exact edited_addFeedbackPoint m c

end

/-- The accounts of ownership agree, whatever is done. -/
def ownership : Guard {} False where
  holds n := n.holdings.Owned
  firm := False
  calm h ho := by
    rw [h.sameHoldings]
    exact ho
  shell {_ n} kind stem _ ho := by
    have hnone : n.components.get? n.components.next = none := Arena.get?_of_size_le (by simp)
    rw [holdings_shelled]
    exact ho.newcomer (by simp [holdings, hnone]) _
  module {_ n} kind stem _ ho := by
    have hmodule : n.components.get? n.components.next = none := Arena.get?_of_size_le (by simp)
    have hinBuf : n.components.get? ⟨n.components.size + 1⟩ = none :=
      Arena.get?_of_size_le (by simp)
    have hexit : n.exits.get? n.exits.next = none := Arena.get?_of_size_le (by simp)
    rw [holdings_withModule]
    refine (((ho.newcomer ?_ _).newcomer ?_ _).withExit ?_ ?_ ?_).withInBuf ?_ ?_ ?_
    all_goals simp [Holdings.newcomer, Holdings.withExit, holdings, Handle.eq_iff_index, hmodule,
      hinBuf, hexit]
  edit op _ _ _ hrefs ho :=
    wp_mono (edited_run op hrefs) (fun _ _ he => ho.edited he) fun _ _ he => he.mono ho.edited

end DataflowSynth.Netlist
