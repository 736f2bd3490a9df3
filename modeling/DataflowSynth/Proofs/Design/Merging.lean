/-
Merging the exits of children.

A module gets one exit for every tag that occurs inside it, and the OutBuf of that exit one entry from
every exit with the tag.  In every netlist that calls lead to, the exits of a module have OutBufs of
their own, so that the only thing that can stop it is an InBuf that lacks the clock or the reset bus to
which the entries refer; it is looked for before anything is done.  What has been merged once is found
the second time, and nothing is left to be done.
-/
import DataflowSynth.Proofs.Design.Ownership
import DataflowSynth.Proofs.Netlist.Docks
import DataflowSynth.Proofs.Netlist.Merging

namespace DataflowSynth.Netlist

open Build

variable {pins : Nat} {n n' : Netlist} {m c o : ComponentId} {x b : Component} {i : Interior}
  {e : ExitId} {t : ExitTag} {clock reset : BusId} {cs : List ComponentId}

/-! ### Modules in netlists that calls lead to -/

theorem docked_empty : (holdings {}).Docked :=
  ⟨by simp [holdings], by simp [holdings]⟩

theorem controlsApart_empty : ControlsApart {} := by
  simp [ControlsApart]

theorem Reachable.docked (h : n.Reachable) : n.holdings.Docked := by
  have hempty : docking.holds {} := ⟨owned_empty, docked_empty⟩
  cases h with
  | alone reached => exact (reached.guarded (G := docking) id hempty).guarded.2
  | inDesign reached => exact (reached.guarded (G := docking) id hempty).netlist.guarded.2

theorem Reachable.controlsApart (h : n.Reachable) : n.ControlsApart := by
  cases h with
  | alone reached => exact (reached.guarded (G := separation) id controlsApart_empty).guarded
  | inDesign reached =>
      exact (reached.guarded (G := separation) id controlsApart_empty).netlist.guarded

/-- An exit of a component is made for it, with the tag under which it has it. -/
theorem Holdings.Owned.exit (ho : n.holdings.Owned) (hx : n.components.get? c = some x)
    (he : (t, e) ∈ x.exits.entries) :
    ∃ y, n.exits.get? e = some y ∧ y.owner = c ∧ y.tag = t := by
  have horigin := ho.origin c t e (by simpa [holdings, hx] using he)
  obtain ⟨y, hy, heq⟩ := Option.map_eq_some_iff.mp horigin
  exact ⟨y, hy, congrArg Prod.fst heq, congrArg Prod.snd heq⟩

theorem Linked.enterable (hl : Linked pins {} n) (hc : n.ControlsApart)
    (hb : n.components.get? o = some b) : n.Enterable b := by
  have hrefs := Component.forall_refs.mp (hl.components o b hb (Nat.zero_le _)).refs
  refine ⟨hc o b hb, fun p hp => (hrefs.2.1 p ?_).2, fun v hv => (hrefs.2.2.2.1 v hv).2⟩
  simp only [Component.ports]
  simp at hp ⊢
  tauto

/-- Where an exit of a module leads, an OutBuf of the module stands. -/
theorem at_of_outBufOf? (hm : n.IsModule m x i) (ho : n.outBufOf? m t = some o) :
    ∃ e, (t, e) ∈ x.exits.entries ∧ n.holdings.At m (.outBuf e) o := by
  obtain ⟨e, y, he, hy, hpeer⟩ := (outBufOf?_eq_some hm.1).mp ho
  have hmem := OrderedMap.mem_entries_of_find? he
  exact ⟨e, hmem, ⟨t, by simpa [holdings, hm.1] using hmem⟩, by simp [holdings, hy, hpeer]⟩

/-- A buffer of a module is not the module. -/
theorem Holdings.Docked.ne_of_at (hd : n.holdings.Docked) (ho : n.holdings.Owned)
    (hm : n.IsModule m x i) {s : Holdings.Slot} (hat : n.holdings.At m s o) (hs : s ≠ .child) :
    o ≠ m := by
  rintro rfl
  obtain ⟨k, hk, hmodule⟩ := hd.modules o (by rw [Holdings.interior?_eq hm, Option.isSome_some])
  rcases ho.buffers o s o hat hs with hbuffer | hbuffer <;>
  · cases hk.symm.trans hbuffer
    cases hmodule

section

variable (hn : n.Reachable) (hm : n.IsModule m x i)

include hn hm

/-- Every exit of a module leads to an OutBuf of its own. -/
theorem Reachable.outBufs : n.Docked m x := by
  obtain ⟨pins, hl⟩ := hn.linked
  refine ⟨hm.1, fun t ht => ?_, fun t t' o ho ho' => ?_⟩
  · obtain ⟨⟨t, e⟩, he, rfl⟩ := List.mem_map.mp ht
    have hkeys : x.exits.keys.Nodup := by
      simpa [holdings, hm.1, OrderedMap.keys] using hn.owned.tags m
    obtain ⟨y, hy, -⟩ := hn.owned.exit hm.1 he
    have hpeer := hn.docked.outBufs m t e (by rw [Holdings.interior?_eq hm, Option.isSome_some])
      (by simpa [holdings, hm.1] using he)
    obtain ⟨o, ho⟩ := Option.isSome_iff_exists.mp hpeer
    have hpeer : y.peer = some o := by simpa [holdings, hy] using ho
    obtain ⟨b, hb⟩ := Arena.exists_get?
      ((Exit.forall_refs.mp (hl.exits e y hy (Nat.zero_le _)).refs).2.2 o hpeer).2
    have hlead : n.outBufOf? m t = some o := (outBufOf?_eq_some hm.1).mpr
      ⟨e, y, OrderedMap.find?_of_mem hkeys he, hy, hpeer⟩
    obtain ⟨_, -, hat⟩ := at_of_outBufOf? hm hlead
    exact ⟨o, b, hlead, hb, hn.docked.ne_of_at hn.owned hm hat (by simp),
      hl.enterable hn.controlsApart hb⟩
  · obtain ⟨e, he, hat⟩ := at_of_outBufOf? hm ho
    obtain ⟨e', he', hat'⟩ := at_of_outBufOf? hm ho'
    cases hn.owned.single m _ _ o hat hat'
    obtain ⟨y, hy, -, htag⟩ := hn.owned.exit hm.1 he
    obtain ⟨y', hy', -, htag'⟩ := hn.owned.exit hm.1 he'
    cases hy.symm.trans hy'
    exact htag.symm.trans htag'

theorem Reachable.aside {s : Holdings.Slot} (hs : ∀ e, s ≠ .outBuf e) (hat : n.holdings.At m s c)
    (hne : c ≠ m) : n.Aside m c := by
  refine ⟨hne, fun t ho => ?_⟩
  obtain ⟨e, -, hat'⟩ := at_of_outBufOf? hm ho
  exact hs e (hn.owned.single m _ _ c hat hat')

/-- The InBuf of a module is there with all that it gives out. -/
theorem Reachable.inward : n.Inward m x := by
  obtain ⟨pins, hl⟩ := hn.linked
  obtain ⟨b, hb⟩ := Arena.exists_get? (hl.inBuf_new hm.1 (Nat.zero_le _) hm.2).2
  have hat : n.holdings.At m .inBuf i.inBuf := (Holdings.at_inBuf hm).mpr rfl
  refine ⟨hm.1, i, b, hm.2, hb, hn.aside hm (by simp) hat
    (hn.docked.ne_of_at hn.owned hm hat (by simp)), fun e he => ?_⟩
  obtain ⟨y, hy⟩ := Arena.exists_get?
    (hl.exit_new hb (Nat.zero_le _) (OrderedMap.mem_values_of_find? he)).2
  have hbuses := (Exit.forall_refs.mp (hl.exits e y hy (Nat.zero_le _)).refs).2.1
  exact ⟨y, hy, fun z hz => (hbuses z (by simp [Exit.buses, hz])).2⟩

theorem Reachable.tagged (hcs : ∀ c ∈ cs, c ∈ i.children) : n.Tagged cs := by
  obtain ⟨pins, hl⟩ := hn.linked
  intro c hc
  obtain ⟨y, hy⟩ := Arena.exists_get? (hl.child_new hm.1 (Nat.zero_le _) hm.2 (hcs c hc)).2
  refine ⟨y, hy, fun p hp => ?_⟩
  obtain ⟨z, hz, -, htag⟩ := hn.owned.exit hy hp
  exact ⟨z, hz, htag⟩

end

/-- A netlist that calls lead to of which none is aimed at the terminals of a buffer. -/
inductive Spared : Netlist → Prop where
  | alone {pins : Nat} {n : Netlist} (reached : Netlist.Reached True pins n) : Spared n
  | inDesign {d : Design} (reached : Design.Reached True d) : Spared d.netlist

theorem Spared.shaped (h : n.Spared) : Shaped {} n := by
  cases h with
  | alone reached => exact reached.sound.shaped trivial
  | inDesign reached => exact reached.sound.netlist.shaped trivial

/-- InBufs keep their buses if buffers are left alone. -/
theorem Spared.repeats (h : n.Spared) (hm : n.IsModule m x i) :
    ∃ clock reset, n.repeats? m .clock = some clock ∧ n.repeats? m .reset = some reset := by
  obtain ⟨b, e, y, hb, hy, hin⟩ :=
    ((h.shaped.components m x hm.1 (Nat.zero_le _)).interior i hm.2).inBuf
  have hmain : b.mainExit? = some e := by
    simp [Component.mainExit?, OrderedMap.find?, hin.exits]
  have hfound : ∀ control, control = .clock ∨ control = .reset →
      ∃ d, n.repeats? m control = some d := by
    intro control hcontrol
    rw [repeats?_eq hm.1 hm.2 hb, hmain, Option.bind_some, hy, Option.bind_some]
    refine Option.isSome_iff_exists.mp (List.find?_isSome.mpr ?_)
    have hrole : some control.role ∈ y.control.map n.busRole? := by
      rw [hin.control, controlRoles]
      rcases hcontrol with rfl | rfl <;> simp [Control.role]
    obtain ⟨z, hz, hrole⟩ := List.mem_map.mp hrole
    exact ⟨z, hz, by simpa using hrole⟩
  obtain ⟨clock, hclock⟩ := hfound .clock (.inl rfl)
  obtain ⟨reset, hreset⟩ := hfound .reset (.inr rfl)
  exact ⟨clock, reset, hclock, hreset⟩

/-! ### What merging comes to -/

/-- What there is when the exits of the components `cs` have been merged into `x`, the module `m`. -/
structure Merged (n : Netlist) (m : ComponentId) (x : Component) (cs : List ComponentId)
    (clock reset : BusId) (n' : Netlist) : Prop where
  /-- After the exits that it had, the module has one without data for every other tag, in the order in
  which the tags are met. -/
  module : ∃ news, n'.components.get? m = some (x.withExits news) ∧
    news.map Prod.fst = ((n.exitsOf cs).map Prod.fst).eraseDups.filter (· ∉ x.exits.keys) ∧
    ∀ p ∈ news, n.exits.get? p.2 = none ∧ ∃ done o,
      n'.exits.get? p.2 = some { owner := m, tag := p.1, done, peer := some o }
  /-- The OutBuf of the exit that a tag leads to has the entries that it had, and then one from every
  exit with the tag from which it had none. -/
  outBufs : ∀ p ∈ n.exitsOf cs, ∃ o b vs, n'.outBufOf? m p.1 = some o ∧
    n'.components.get? o = some b ∧ b.entries = n.entriesOf o ++ vs ∧
    (∀ b₀, n.components.get? o = some b₀ → b = { b₀ with entries := b.entries }) ∧
    (p.2 ∉ n.sourcesOf o → b.entries.countP (fun v => n'.driver? v = some p.2) = 1) ∧
    ∀ v ∈ vs, ∃ q ∈ n.exitsOf cs, ∃ y, q.1 = p.1 ∧ q.2 ∉ n.sourcesOf o ∧
      n.exits.get? q.2 = some y ∧ n'.entries.get? v = some (entryFrom o b clock reset q.2 y)
  entries : n.entries.Keeps n'.entries
  exits : n.exits.Keeps n'.exits
  ports : n.ports.Keeps n'.ports
  buses : n.buses.Keeps n'.buses
  others : ∀ d, d.index < n.components.size → d ≠ m →
    (∀ p ∈ n.exitsOf cs, n.outBufOf? m p.1 ≠ some d) → n'.components.get? d = n.components.get? d

theorem Merging.merged {news : List (ExitTag × ExitId)} (hcs : n.Tagged cs)
    (h : n.Merging m x clock reset (OrderedMap.gather ∅ (n.exitsOf cs)).entries news n') :
    n.Merged m x cs clock reset n' where
  module := by
    refine ⟨news, h.docked.module, ?_, fun p hp => ?_⟩
    · rw [h.tags, ← OrderedMap.keys_gather]
      rfl
    · obtain ⟨hge, done, o, hy, -⟩ := h.made p hp
      exact ⟨Arena.get?_of_size_le hge, done, o, hy⟩
  outBufs p hp := by
    have hkey : p.1 ∈ (OrderedMap.gather ∅ (n.exitsOf cs)).keys := by
      rw [OrderedMap.keys_gather, List.mem_eraseDups]
      exact List.mem_map_of_mem hp
    obtain ⟨g, hg, htag⟩ := List.mem_map.mp hkey
    have hmem : ∀ e, e ∈ g.2 ↔ ∃ q ∈ n.exitsOf cs, q.1 = p.1 ∧ q.2 = e := by
      intro e
      rw [OrderedMap.mem_gather hg, htag]
      simp [and_assoc]
    obtain ⟨o, b, ho, hb, hentered⟩ := h.entered g hg
    have hsources := hentered.sourcesOf hb h.entries (hcs.known g hg)
    obtain ⟨vs, hentries, hvs⟩ := hentered.entries
    refine ⟨o, b, vs, htag ▸ ho, hb, hentries, hentered.same, fun hp' => ?_, fun v hv => ?_⟩
    · have hcount : b.entries.countP (fun v => n'.driver? v = some p.2) =
          (n'.sourcesOf o).count p.2 := by
        rw [sourcesOf, entriesOf, hb, Option.map_some, Option.getD_some, List.count_filterMap]
        exact List.countP_congr fun v _ => by simp
      rw [hcount, hsources, List.count_append, List.count_eq_zero.mpr hp', Nat.zero_add]
      refine List.count_eq_one_of_mem ((nodup_eraseDups _).filter _) (List.mem_filter.mpr
        ⟨List.mem_eraseDups.mpr ((hmem p.2).mpr ⟨p, hp, rfl, rfl⟩), by simpa using hp'⟩)
    · have hmade : n'.entries.get? v ∈ vs.map n'.entries.get? := List.mem_map_of_mem hv
      rw [hvs] at hmade
      obtain ⟨e, he, heq⟩ := List.mem_map.mp hmade
      obtain ⟨he, hnew⟩ := List.mem_filter.mp he
      obtain ⟨q, hq, hqtag, rfl⟩ := (hmem e).mp (List.mem_eraseDups.mp he)
      obtain ⟨y, hy, -⟩ := hcs.exit hq
      exact ⟨q, hq, y, hqtag, by simpa using hnew, hy, by rw [← heq, hy, Option.map_some]⟩
  entries := h.entries
  exits := h.exits
  ports := h.ports
  buses := h.buses
  others d hd hne hout := h.others d hd hne fun t ht => by
    have ht : t ∈ (OrderedMap.gather ∅ (n.exitsOf cs)).keys := ht
    rw [OrderedMap.keys_gather, List.mem_eraseDups] at ht
    obtain ⟨p, hp, rfl⟩ := List.mem_map.mp ht
    exact hout p hp

/-- Merging gives a module one exit for every tag and one entry for every exit, and nothing more the
second time.  It takes a clock and a reset bus at the InBuf, which are there if buffers are left
alone; without them the call is aborted and has done nothing. -/
theorem mergeExits_merges (hn : n.Reachable) (hm : n.IsModule m x i) (cs : List ComponentId)
    (hcs : ∀ c ∈ cs, c ∈ i.children) (hself : m ∉ cs) (said : Journal) :
    (∀ clock reset, n.repeats? m .clock = some clock → n.repeats? m .reset = some reset →
      ∃ n' said', mergeExits m cs ⟨n, said⟩ = .ok () ⟨n', said'⟩ ∧
        n.Merged m x cs clock reset n' ∧
        ∀ said, ∃ said', mergeExits m cs ⟨n', said⟩ = .ok () ⟨n', said'⟩) ∧
      (n.repeats? m .clock = none ∨ n.repeats? m .reset = none →
        ∃ a, mergeExits m cs ⟨n, said⟩ = .error (.abort a) ⟨n, said⟩) ∧
      (n.Spared → ∃ clock reset, n.repeats? m .clock = some clock ∧
        n.repeats? m .reset = some reset) := by
  have htagged := hn.tagged hm hcs
  have hrun := wp_mergeExits (s := ⟨n, said⟩) htagged (hn.outBufs hm) (hn.inward hm)
  refine ⟨fun clock reset hclock hreset => ?_, fun hnone => ?_, fun hspared => hspared.repeats hm⟩
  · obtain ⟨_, ⟨n', said'⟩, hrun, clock', reset', news, hclock', hreset', hmerging⟩ :=
      exists_of_wp (wp_mono hrun (fun _ _ h => h) fun f u ⟨_, _, hnone⟩ => by
        simp [hclock, hreset] at hnone)
    cases hclock.symm.trans hclock'
    cases hreset.symm.trans hreset'
    refine ⟨n', said', hrun, hmerging.merged htagged, fun said => ?_⟩
    have haside : ∀ c ∈ cs, n.Aside m c := fun c hc =>
      hn.aside hm (by simp) ((Holdings.at_child hm).mpr (hcs c hc)) fun heq => hself (heq ▸ hc)
    obtain ⟨_, ⟨n'', said''⟩, hagain, hsame⟩ := exists_of_wp (wp_mergeExits_again
      (s := ⟨n', said⟩) htagged haside (hn.inward hm) hclock hreset hmerging)
    cases hsame
    exact ⟨said'', hagain⟩
  · unfold wp at hrun
    split at hrun
    · obtain ⟨clock, reset, -, hclock, hreset, -⟩ := hrun
      simp [hclock, hreset] at hnone
    · next hfailed =>
      obtain ⟨rfl, ⟨a, rfl⟩, -⟩ := hrun
      exact ⟨a, hfailed⟩

/-- Two gates with one tag in common, one of which is named twice. -/
theorem mergeExits_merges_gates :
    ∃ (n n' : Netlist) (x : Component) (clock reset : BusId) (said' : Journal),
      mergeExits ⟨0⟩ [⟨3⟩, ⟨2⟩, ⟨3⟩] ⟨n, #[]⟩ = .ok () ⟨n', said'⟩ ∧
        n.Merged ⟨0⟩ x [⟨3⟩, ⟨2⟩, ⟨3⟩] clock reset n' ∧
        (n.exitsOf [⟨3⟩, ⟨2⟩, ⟨3⟩]).map Prod.fst =
          [⟨.done, some "late"⟩, .done, .done, ⟨.done, some "late"⟩, .done] := by
  have hempty : Netlist.Reached False 0 {} := .empty
  have hmodule := hempty.after (.newModule .block "m" 0) (by decide) False.elim (by decide +kernel)
  have hgate := hmodule.after (.newComponent .andGate "and" 2) (by decide +kernel) False.elim
    (by decide +kernel)
  have hother := hgate.after (.newComponent .orGate "or" 2) (by decide +kernel) False.elim
    (by decide +kernel)
  have hchildren := hother.after (.addComponents ⟨0⟩ [⟨2⟩, ⟨3⟩]) (by decide +kernel) False.elim
    (by decide +kernel)
  have hexit := hchildren.after (.makeExit ⟨2⟩ 1 .done) (by decide +kernel) False.elim
    (by decide +kernel)
  have hlate := hexit.after (.makeExit ⟨3⟩ 0 ⟨.done, some "late"⟩) (by decide +kernel) False.elim
    (by decide +kernel)
  have hdone := hlate.after (.makeExit ⟨3⟩ 1 .done) (by decide +kernel) False.elim
    (by decide +kernel)
  generalize hn : (Build.run _ _).2.state = n at hdone
  have hlists : ((n.components.get? ⟨0⟩).bind Component.interior).map Interior.children =
        some [⟨2⟩, ⟨3⟩] ∧
      (n.exitsOf [⟨3⟩, ⟨2⟩, ⟨3⟩]).map Prod.fst =
        [⟨.done, some "late"⟩, .done, .done, ⟨.done, some "late"⟩, .done] ∧
      (n.repeats? ⟨0⟩ .clock).isSome ∧ (n.repeats? ⟨0⟩ .reset).isSome := by
    subst hn
    decide +kernel
  obtain ⟨hchildren, htags, hclock, hreset⟩ := hlists
  obtain ⟨i, hi, hchildren⟩ := Option.map_eq_some_iff.mp hchildren
  obtain ⟨x, hx, hi⟩ := Option.bind_eq_some_iff.mp hi
  obtain ⟨clock, hclock⟩ := Option.isSome_iff_exists.mp hclock
  obtain ⟨reset, hreset⟩ := Option.isSome_iff_exists.mp hreset
  obtain ⟨n', said', hrun, hmerged, -⟩ := (mergeExits_merges (.alone hdone) ⟨hx, hi⟩
    [⟨3⟩, ⟨2⟩, ⟨3⟩] (by simp [hchildren]) (by decide) #[]).1 clock reset hclock hreset
  exact ⟨n, n', x, clock, reset, said', hrun, hmerged, htags⟩

/-- The InBuf of a module may lose its exit, and then even nothing cannot be merged. -/
theorem mergeExits_aborted :
    ¬ ∀ n : Netlist, n.Reachable → ∀ m x i, n.IsModule m x i → ∀ cs, (∀ c ∈ cs, c ∈ i.children) →
      m ∉ cs → ∀ said, ∃ n' said', mergeExits m cs ⟨n, said⟩ = .ok () ⟨n', said'⟩ := by
  intro hall
  have hempty : Netlist.Reached False 0 {} := .empty
  have hmodule := hempty.after (.newModule .block "m" 0) (by decide) False.elim (by decide +kernel)
  have hgone := hmodule.after (.removeExit ⟨1⟩ .done) (by decide +kernel) False.elim
    (by decide +kernel)
  generalize hn : (Build.run _ _).2.state = n at hgone
  have hfacts : ((n.components.get? ⟨0⟩).bind Component.interior).isSome ∧
      (Build.run (mergeExits ⟨0⟩ []) ⟨n, #[]⟩).1.isOk = false := by
    subst hn
    decide +kernel
  obtain ⟨hinterior, hfailed⟩ := hfacts
  obtain ⟨i, hi⟩ := Option.isSome_iff_exists.mp hinterior
  obtain ⟨x, hx, hi⟩ := Option.bind_eq_some_iff.mp hi
  obtain ⟨n', said', hrun⟩ := hall n (.alone hgone) ⟨0⟩ x i ⟨hx, hi⟩ [] (by simp) (by simp) #[]
  rw [Build.run, hrun] at hfailed
  cases hfailed

end DataflowSynth.Netlist
