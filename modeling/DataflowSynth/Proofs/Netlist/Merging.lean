/-
The exits inside a module lead to its OutBufs.

Merging goes through the exits of some components, tag by tag.  What it leaves behind is followed exit by
exit (`Merging`): which exits the module has got, which entries every OutBuf has got, and that nothing
else has changed since the merging began.  Nothing of this can fail as long as every exit of the module
leads to an OutBuf that can be entered and that no other exit leads to (`Docked`), and so it is this that
has to be kept along the way.
-/
import DataflowSynth.Proofs.Netlist.Modules
import Mathlib.Data.List.Basic
import Mathlib.Data.List.Find

namespace DataflowSynth

namespace Netlist

open Build

variable {n n' : Netlist} {m o c : ComponentId} {x b : Component} {e : ExitId} {t : ExitTag}
  {clock reset : BusId}

/-! ### The exits of components -/

/-- The exits of components with their tags, one component after the other. -/
def exitsOf (n : Netlist) (cs : List ComponentId) : List (ExitTag × ExitId) :=
  cs.flatMap fun c => ((n.components.get? c).map fun y => y.exits.entries).getD []

/-- The components are there, with their exits. -/
def Tagged (n : Netlist) (cs : List ComponentId) : Prop :=
  ∀ c ∈ cs, ∃ y, n.components.get? c = some y ∧
    ∀ p ∈ y.exits.entries, ∃ z, n.exits.get? p.2 = some z ∧ z.tag = p.1

theorem Tagged.exit {cs : List ComponentId} (h : n.Tagged cs) {p : ExitTag × ExitId}
    (hp : p ∈ n.exitsOf cs) : ∃ z, n.exits.get? p.2 = some z ∧ z.tag = p.1 := by
  obtain ⟨c, hc, hp⟩ := List.mem_flatMap.mp hp
  obtain ⟨y, hy, hexits⟩ := h c hc
  exact hexits p (by simpa [hy] using hp)

section

variable {s : Traced Netlist} {F : Failure → Traced Netlist → Prop}

theorem wp_exitsByTag {Q : OrderedMap ExitTag (List ExitId) → Traced Netlist → Prop}
    {cs : List ComponentId} (h : s.state.Tagged cs) :
    wp (exitsByTag cs) Q F s ↔ Q (.gather ∅ (s.state.exitsOf cs)) s := by
  -- The exits of one component are gathered in an inner loop.
  have hinner : ∀ (ps : List (ExitTag × ExitId)),
      (∀ p ∈ ps, ∃ z, s.state.exits.get? p.2 = some z ∧ z.tag = p.1) → ∀ byTag Q,
      wp ((ps.map Prod.snd).foldlM (fun (byTag : OrderedMap ExitTag (List ExitId)) x => do
        return byTag.alter (← Netlist.exit x).tag fun xs => xs.getD [] ++ [x]) byTag) Q F s ↔
        Q (byTag.gather ps) s := by
    intro ps
    induction ps with
    | nil => exact fun _ _ _ => Iff.rfl
    | cons p ps ih =>
        intro hps byTag Q
        obtain ⟨z, hz, htag⟩ := hps p (by simp)
        rw [List.map_cons, List.foldlM_cons, wp_bind, wp_bind, wp_exit hz, wp_pure, htag]
        exact ih (fun q hq => hps q (by simp [hq])) _ Q
  unfold exitsByTag
  generalize (∅ : OrderedMap ExitTag (List ExitId)) = byTag
  induction cs generalizing byTag with
  | nil => exact Iff.rfl
  | cons c cs ih =>
      obtain ⟨y, hy, hexits⟩ := h c (by simp)
      rw [List.foldlM_cons, wp_bind, wp_bind, wp_component hy, OrderedMap.values, hinner _ hexits]
      refine (ih (fun d hd => h d (List.mem_cons_of_mem c hd)) _).trans ?_
      simp [exitsOf, hy, OrderedMap.gather]

/-! ### Entering an OutBuf -/

def entriesOf (n : Netlist) (c : ComponentId) : List EntryId :=
  ((n.components.get? c).map Component.entries).getD []

/-- The exit that drives an entry. -/
def driver? (n : Netlist) (v : EntryId) : Option ExitId := (n.entries.get? v).bind Entry.drivingExit

/-- The exits from which a component is entered. -/
def sourcesOf (n : Netlist) (c : ComponentId) : List ExitId := (n.entriesOf c).filterMap n.driver?

/-- The component can be entered: its control ports are there and different, and so are its entries. -/
structure Enterable (n : Netlist) (b : Component) : Prop where
  apart : [b.clock, b.reset, b.go].Nodup
  ports : ∀ p ∈ [b.clock, b.reset, b.go], p.index < n.ports.size
  entries : ∀ v ∈ b.entries, v.index < n.entries.size

/-- The entry from the exit `y`, which is `e`, of `b`, which is the component `o`. -/
def entryFrom (o : ComponentId) (b : Component) (clock reset : BusId) (e : ExitId) (y : Exit) :
    Entry where
  owner := o
  drivingExit := some e
  dependencies := ⟨[(b.clock, [⟨.clock, clock⟩]), (b.reset, [⟨.reset, reset⟩]),
    (b.go, [⟨.control, y.done⟩])]⟩

theorem wp_hasEntry {Q : Bool → Traced Netlist → Prop} (hb : s.state.components.get? o = some b)
    (hentries : ∀ v ∈ b.entries, v.index < s.state.entries.size) :
    wp (hasEntry o e) Q F s ↔ Q (decide (e ∈ s.state.sourcesOf o)) s := by
  have hany : b.entries.any (fun v => decide (s.state.driver? v = some e)) =
      decide (e ∈ s.state.sourcesOf o) := by
    rw [Bool.eq_iff_iff]
    simp [sourcesOf, entriesOf, hb]
  rw [hasEntry, wp_bind, wp_component hb, ← hany]
  refine wp_anyM fun v hv Q => ?_
  obtain ⟨z, hz⟩ := Arena.exists_get? (hentries v hv)
  rw [wp_bind, wp_entry hz, wp_pure]
  simp [driver?, hz]

theorem wp_enterOutBuf {Q : Unit → Traced Netlist → Prop} {y : Exit}
    (hb : s.state.components.get? o = some b) (henter : s.state.Enterable b)
    (hy : s.state.exits.get? e = some y) :
    wp (enterOutBuf o clock reset e) Q F s ↔
      Q () (moved s (if e ∈ s.state.sourcesOf o then s.state
        else s.state.withEntry o (entryFrom o b clock reset e y))) := by
  rw [enterOutBuf, wp_bind, wp_hasEntry hb henter.entries]
  by_cases he : e ∈ s.state.sourcesOf o
  · rw [if_neg (by simpa using he), if_pos he]
    exact Iff.rfl
  · rw [if_pos (by simpa using he), if_neg he]
    have hb' : (s.state.withEntry o { owner := o, drivingExit := some e }).components.get? o =
        some { b with entries := b.entries ++ [s.state.entries.next] } := by
      simp [withEntry, Arena.get?_modify_self, hb]
    obtain ⟨hclock, hreset, hgo⟩ : b.clock.index < s.state.ports.size ∧
        b.reset.index < s.state.ports.size ∧ b.go.index < s.state.ports.size := by
      simpa using henter.ports
    simp only [wp_bind]
    refine .trans (wp_makeEntry (Arena.lt_of_get? hb) _) (.trans (wp_exit hy)
      (.trans (wp_component hb') ?_))
    refine .trans (wp_addDependency ?_ ?_ _) ?_
    · simp [withEntry]
    · exact hclock
    refine .trans (wp_addDependency ?_ ?_ _) ?_
    · simp [withEntry]
    · exact hreset
    refine .trans (wp_addDependency ?_ ?_ _) ?_
    · simp [withEntry]
    · exact hgo
    -- The entry that was added is changed three times.
    obtain ⟨hcr, hcg, hrg⟩ : b.clock ≠ b.reset ∧ b.clock ≠ b.go ∧ b.reset ≠ b.go := by
      simpa [and_assoc] using henter.apart
    have hdependencies : (((∅ : OrderedMap PortId (List Dependency)).alter b.clock
        fun ds => ds.getD [] ++ [⟨.clock, clock⟩]).alter b.reset
        fun ds => ds.getD [] ++ [⟨.reset, reset⟩]).alter b.go
        (fun ds => ds.getD [] ++ [⟨.control, y.done⟩]) =
        (entryFrom o b clock reset e y).dependencies := by
      simp [OrderedMap.alter, OrderedMap.contains, OrderedMap.find?, entryFrom, hcr, hcg, hrg]
    simp only [moved_moved, state_moved, withEntry, Arena.modify_push_next, hdependencies]
    exact Iff.rfl

end

/-! ### The OutBufs of a module -/

/-- The OutBuf of the exit with this tag. -/
def outBufOf? (n : Netlist) (m : ComponentId) (t : ExitTag) : Option ComponentId := do
  let x ← n.components.get? m
  let w ← x.exits.find? t
  (← n.exits.get? w).peer

theorem outBufOf?_eq (hx : n.components.get? m = some x) (t : ExitTag) : n.outBufOf? m t =
    (x.exits.find? t).bind fun w => (n.exits.get? w).bind Exit.peer := by
  simp only [outBufOf?, hx]
  rfl

theorem outBufOf?_eq_some (hx : n.components.get? m = some x) : n.outBufOf? m t = some o ↔
    ∃ w y, x.exits.find? t = some w ∧ n.exits.get? w = some y ∧ y.peer = some o := by
  simp [outBufOf?_eq hx, Option.bind_eq_some_iff]

/-- Every exit of `x`, the module `m`, leads to an OutBuf of its own that can be entered. -/
structure Docked (n : Netlist) (m : ComponentId) (x : Component) : Prop where
  module : n.components.get? m = some x
  outBuf : ∀ t ∈ x.exits.keys, ∃ o b, n.outBufOf? m t = some o ∧ n.components.get? o = some b ∧
    o ≠ m ∧ n.Enterable b
  apart : ∀ t t' o, n.outBufOf? m t = some o → n.outBufOf? m t' = some o → t = t'

theorem Docked.mem_keys (h : n.Docked m x) (ho : n.outBufOf? m t = some o) : t ∈ x.exits.keys := by
  obtain ⟨w, -, hw, -⟩ := (outBufOf?_eq_some h.module).mp ho
  exact OrderedMap.mem_keys_of_find? hw

theorem Docked.enterable (h : n.Docked m x) (ho : n.outBufOf? m t = some o)
    (hb : n.components.get? o = some b) : o ≠ m ∧ n.Enterable b := by
  obtain ⟨o', b', ho', hb', hne, henter⟩ := h.outBuf t (h.mem_keys ho)
  cases ho.symm.trans ho'
  cases hb.symm.trans hb'
  exact ⟨hne, henter⟩

theorem Enterable.mono (h : n.Enterable b) (hports : n.ports.size ≤ n'.ports.size)
    (hentries : n.entries.size ≤ n'.entries.size) : n'.Enterable b :=
  ⟨h.apart, fun p hp => Nat.lt_of_lt_of_le (h.ports p hp) hports,
    fun v hv => Nat.lt_of_lt_of_le (h.entries v hv) hentries⟩

/-! ### What has been merged -/

/-- The component with further exits. -/
def Component.withExits (x : Component) (news : List (ExitTag × ExitId)) : Component :=
  { x with exits := ⟨x.exits.entries ++ news⟩ }

theorem keys_withExits (x : Component) (news : List (ExitTag × ExitId)) :
    (x.withExits news).exits.keys = x.exits.keys ++ news.map Prod.fst := List.map_append

theorem find?_withExits_old {w : ExitId} (hw : x.exits.find? t = some w)
    (news : List (ExitTag × ExitId)) : (x.withExits news).exits.find? t = some w := by
  obtain ⟨p, hp, rfl⟩ := Option.map_eq_some_iff.mp hw
  rw [Component.withExits, OrderedMap.find?, List.find?_append, hp]
  rfl

/-- `b`, the component `o`, is as it was but for its entries: it has those that it had, and then one
from each of the exits, unless it had one from there. -/
structure EnteredFrom (n : Netlist) (o : ComponentId) (b : Component) (clock reset : BusId)
    (es : List ExitId) (n' : Netlist) : Prop where
  same : ∀ b₀, n.components.get? o = some b₀ → b = { b₀ with entries := b.entries }
  standing : ∀ v ∈ n.entriesOf o, v.index < n.entries.size
  entries : ∃ vs, b.entries = n.entriesOf o ++ vs ∧ vs.map n'.entries.get? =
    (es.eraseDups.filter (· ∉ n.sourcesOf o)).map fun e =>
      (n.exits.get? e).map (entryFrom o b clock reset e)

/-- The exits of the module have these tags already, and its OutBufs are entered from these exits. -/
def Absorbed (n : Netlist) (m : ComponentId) (x : Component) (gs : List (ExitTag × List ExitId)) :
    Prop :=
  ∀ g ∈ gs, g.1 ∈ x.exits.keys ∧
    ∀ o, n.outBufOf? m g.1 = some o → ∀ e ∈ g.2, e ∈ n.sourcesOf o

/-- What there is when the exits `gs`, gathered by tag, have been merged into `x`, the module `m`.  It
has got the exits `news`. -/
structure Merging (n : Netlist) (m : ComponentId) (x : Component) (clock reset : BusId)
    (gs : List (ExitTag × List ExitId)) (news : List (ExitTag × ExitId)) (n' : Netlist) : Prop where
  before : n.Docked m x
  grows : n.components.size ≤ n'.components.size
  ports : n.ports.Keeps n'.ports
  buses : n.buses.Keeps n'.buses
  exits : n.exits.Keeps n'.exits
  entries : n.entries.Keeps n'.entries
  docked : n'.Docked m (x.withExits news)
  tags : news.map Prod.fst = (gs.map Prod.fst).filter (· ∉ x.exits.keys)
  made : ∀ p ∈ news, n.exits.size ≤ p.2.index ∧ ∃ done o,
    n'.exits.get? p.2 = some { owner := m, tag := p.1, done, peer := some o } ∧
      n.components.size ≤ o.index
  entered : ∀ g ∈ gs, ∃ o b, n'.outBufOf? m g.1 = some o ∧ n'.components.get? o = some b ∧
    n.EnteredFrom o b clock reset g.2 n'
  /-- Nothing is changed but the module and its OutBufs. -/
  others : ∀ d, d.index < n.components.size → d ≠ m →
    (∀ t ∈ gs.map Prod.fst, n.outBufOf? m t ≠ some d) → n'.components.get? d = n.components.get? d
  idle : n.Absorbed m x gs → n' = n

variable {gs : List (ExitTag × List ExitId)} {news : List (ExitTag × ExitId)} {es : List ExitId}

theorem EnteredFrom.sourcesOf (h : n.EnteredFrom o b clock reset es n')
    (hb : n'.components.get? o = some b) (hkeeps : n.entries.Keeps n'.entries)
    (hes : ∀ e ∈ es, ∃ y, n.exits.get? e = some y) :
    n'.sourcesOf o = n.sourcesOf o ++ es.eraseDups.filter (· ∉ n.sourcesOf o) := by
  obtain ⟨vs, hentries, hvs⟩ := h.entries
  have hold : (n.entriesOf o).filterMap n'.driver? = n.sourcesOf o := by
    refine List.filterMap_congr fun v hv => ?_
    rw [driver?, driver?, hkeeps.get? v (h.standing v hv)]
  have hnew : vs.filterMap n'.driver? = es.eraseDups.filter (· ∉ n.sourcesOf o) := by
    have hdriver : n'.driver? = (fun z : Option Entry => z.bind Entry.drivingExit) ∘
      n'.entries.get? := rfl
    rw [hdriver, ← List.filterMap_map, hvs, List.filterMap_map]
    refine (List.filterMap_congr fun e he => ?_).trans List.filterMap_some
    obtain ⟨y, hy⟩ := hes e (List.mem_eraseDups.mp (List.mem_filter.mp he).1)
    simp [hy, entryFrom]
  rw [Netlist.sourcesOf, entriesOf, hb, Option.map_some, Option.getD_some, hentries,
    List.filterMap_append, hold, hnew]

theorem EnteredFrom.mem_sourcesOf (h : n.EnteredFrom o b clock reset es n')
    (hb : n'.components.get? o = some b) (hkeeps : n.entries.Keeps n'.entries)
    (hes : ∀ e ∈ es, ∃ y, n.exits.get? e = some y) :
    e ∈ n'.sourcesOf o ↔ e ∈ n.sourcesOf o ∨ e ∈ es := by
  rw [h.sourcesOf hb hkeeps hes]
  simp only [List.mem_append, List.mem_filter, List.mem_eraseDups, decide_eq_true_eq]
  tauto

namespace Merging

theorem nil (h : n.Docked m x) : n.Merging m x clock reset [] [] n where
  before := h
  grows := Nat.le_refl _
  ports := .refl _
  buses := .refl _
  exits := .refl _
  entries := .refl _
  docked := by
    have hx : x.withExits [] = x := by simp [Component.withExits]
    rwa [hx]
  tags := rfl
  made := by simp
  entered := by simp
  others _ _ _ _ := rfl
  idle _ := rfl

variable (h : n.Merging m x clock reset gs news n')

include h

/-- The exits that the module had lead where they led. -/
theorem outBufOf?_old (ht : t ∈ x.exits.keys) : n'.outBufOf? m t = n.outBufOf? m t := by
  obtain ⟨o, -, ho, -⟩ := h.before.outBuf t ht
  obtain ⟨w, y, hw, hy, hpeer⟩ := (outBufOf?_eq_some h.before.module).mp ho
  rw [ho, outBufOf?_eq_some h.docked.module]
  exact ⟨w, y, find?_withExits_old hw news, by rw [h.exits.get? w (Arena.lt_of_get? hy), hy], hpeer⟩

/-- Where an exit leads now, it led before, or there was nothing. -/
theorem outBufOf?_back (ho : n'.outBufOf? m t = some o) (hlt : o.index < n.components.size) :
    n.outBufOf? m t = some o := by
  by_cases ht : t ∈ x.exits.keys
  · rw [← h.outBufOf?_old ht, ho]
  · obtain ⟨w, y, hw, hy, hpeer⟩ := (outBufOf?_eq_some h.docked.module).mp ho
    rcases List.mem_append.mp (OrderedMap.mem_entries_of_find? hw) with hmem | hmem
    · exact absurd (List.mem_map_of_mem hmem) ht
    · obtain ⟨-, done, o', hy', hle⟩ := h.made _ hmem
      cases hy.symm.trans hy'
      cases hpeer
      exact absurd hle (Nat.not_le_of_lt hlt)

end Merging

/-! ### One more exit -/

theorem get?_withEntry (n : Netlist) (o : ComponentId) (z : Entry) (d : ComponentId) :
    (n.withEntry o z).components.get? d =
      if d = o then (n.components.get? d).map fun b =>
        { b with entries := b.entries ++ [n.entries.next] }
      else n.components.get? d := Arena.get?_modify _ _ _ _

theorem EnteredFrom.persists {n'' : Netlist} (h : n.EnteredFrom o b clock reset es n')
    (hes : ∀ e ∈ es, ∃ y, n.exits.get? e = some y) (hkeeps : n'.entries.Keeps n''.entries) :
    n.EnteredFrom o b clock reset es n'' := by
  obtain ⟨vs, hentries, hvs⟩ := h.entries
  refine ⟨h.same, h.standing, vs, hentries, ?_⟩
  rw [← hvs]
  refine List.map_congr_left fun v hv => hkeeps.get? v ?_
  -- The entry is there, since it is what was to be made.
  have hmem : n'.entries.get? v ∈ vs.map n'.entries.get? := List.mem_map_of_mem hv
  rw [hvs] at hmem
  obtain ⟨e, he, heq⟩ := List.mem_map.mp hmem
  obtain ⟨y, hy⟩ := hes e (List.mem_eraseDups.mp (List.mem_filter.mp he).1)
  rw [hy] at heq
  exact Arena.lt_of_get? heq.symm

/-- An exit from which the OutBuf is not entered yet gets its entry. -/
theorem EnteredFrom.enter {y : Exit} (h : n.EnteredFrom o b clock reset es n')
    (hb : n'.components.get? o = some b) (hkeeps : n.entries.Keeps n'.entries)
    (hes : ∀ e ∈ es, ∃ y, n.exits.get? e = some y) (hy : n.exits.get? e = some y)
    (he : e ∉ n'.sourcesOf o) :
    n.EnteredFrom o { b with entries := b.entries ++ [n'.entries.next] } clock reset (es ++ [e])
      (n'.withEntry o (entryFrom o b clock reset e y)) := by
  have hgrown : n'.entries.Keeps (n'.withEntry o (entryFrom o b clock reset e y)).entries :=
    (Arena.Keeps.refl _).push _
  obtain ⟨vs, hentries, hvs⟩ := (h.persists hes hgrown).entries
  rw [h.mem_sourcesOf hb hkeeps hes, not_or] at he
  refine ⟨fun b₀ hb₀ => ?_, h.standing, vs ++ [n'.entries.next], ?_, ?_⟩
  · conv_lhs => rw [h.same b₀ hb₀]
  · simp [hentries]
  · rw [eraseDups_concat, if_neg he.2, List.filter_append, List.map_append, List.map_append]
    refine congrArg₂ (· ++ ·) hvs ?_
    simp [he.1, hy, withEntry, entryFrom]

theorem EnteredFrom.skip (h : n.EnteredFrom o b clock reset es n')
    (hb : n'.components.get? o = some b) (hkeeps : n.entries.Keeps n'.entries)
    (hes : ∀ e ∈ es, ∃ y, n.exits.get? e = some y) (he : e ∈ n'.sourcesOf o) :
    n.EnteredFrom o b clock reset (es ++ [e]) n' := by
  obtain ⟨vs, hentries, hvs⟩ := h.entries
  refine ⟨h.same, h.standing, vs, hentries, hvs.trans ?_⟩
  rw [h.mem_sourcesOf hb hkeeps hes] at he
  rw [eraseDups_concat]
  by_cases hmem : e ∈ es
  · simp [hmem]
  · simp [hmem, he.resolve_right hmem]

theorem outBufOf?_withEntry (hm : n.components.get? m = some x) (hne : o ≠ m) (z : Entry)
    (t : ExitTag) : (n.withEntry o z).outBufOf? m t = n.outBufOf? m t := by
  have hm' : (n.withEntry o z).components.get? m = some x := by
    rw [get?_withEntry, if_neg hne.symm, hm]
  rw [outBufOf?_eq hm, outBufOf?_eq hm']
  rfl

theorem Docked.withEntry (h : n.Docked m x) (hb : n.components.get? o = some b) (hne : o ≠ m)
    (z : Entry) : (n.withEntry o z).Docked m x where
  module := by rw [get?_withEntry, if_neg hne.symm, h.module]
  outBuf t ht := by
    obtain ⟨o', b', ho', hb', hne', henter⟩ := h.outBuf t ht
    have hgrown : (n.withEntry o z).Enterable b' :=
      henter.mono (Nat.le_refl _) (by simp [Netlist.withEntry])
    rw [outBufOf?_withEntry h.module hne]
    by_cases heq : o' = o
    · subst heq
      cases hb.symm.trans hb'
      refine ⟨o', { b with entries := b.entries ++ [n.entries.next] }, ho', ?_, hne', hgrown.apart,
        hgrown.ports, fun v hv => ?_⟩
      · rw [get?_withEntry, if_pos rfl, hb, Option.map_some]
      rcases List.mem_append.mp hv with hv | hv
      · exact hgrown.entries v hv
      · obtain rfl := List.mem_singleton.mp hv
        simp [Netlist.withEntry]
    · exact ⟨o', b', ho', by rw [get?_withEntry, if_neg heq, hb'], hne', hgrown⟩
  apart t t' o' := by
    rw [outBufOf?_withEntry h.module hne, outBufOf?_withEntry h.module hne]
    exact h.apart t t' o'

namespace Merging

/-- The exits that are merged were there before. -/
abbrev Known (n : Netlist) (gs : List (ExitTag × List ExitId)) : Prop :=
  ∀ g ∈ gs, ∀ e ∈ g.2, ∃ y, n.exits.get? e = some y

theorem Absorbed.init (h : n.Absorbed m x (gs ++ [(t, es ++ [e])])) :
    n.Absorbed m x (gs ++ [(t, es)]) := by
  refine List.forall_mem_append.mpr ⟨fun g hg => h g (by simp [hg]), ?_⟩
  obtain ⟨ht, hall⟩ := h (t, es ++ [e]) (by simp)
  exact List.forall_mem_singleton.mpr ⟨ht, fun o ho d hd => hall o ho d (by simp [hd])⟩

section

variable (h : n.Merging m x clock reset (gs ++ [(t, es)]) news n')
  (hknown : Known n (gs ++ [(t, es)])) (ho : n'.outBufOf? m t = some o)
  (hb : n'.components.get? o = some b)

include h ho hb

theorem entered_last : n.EnteredFrom o b clock reset es n' := by
  obtain ⟨_, _, hat, hthere, hentered⟩ := h.entered (t, es) (by simp)
  cases ho.symm.trans hat
  cases hb.symm.trans hthere
  exact hentered

include hknown

/-- One more exit of the tag that is being merged, from which the OutBuf is entered already. -/
theorem skip (he : e ∈ n'.sourcesOf o) :
    n.Merging m x clock reset (gs ++ [(t, es ++ [e])]) news n' := by
  refine { h with
    tags := ?_, entered := fun g hg => ?_, others := ?_,
    idle := fun hall => h.idle (Absorbed.init hall) }
  · simpa using h.tags
  · rcases List.mem_append.mp hg with hg | hg
    · exact h.entered g (by simp [hg])
    · obtain rfl := List.mem_singleton.mp hg
      exact ⟨o, b, ho, hb, (h.entered_last ho hb).skip hb h.entries (hknown (t, es) (by simp)) he⟩
  · simpa using h.others

/-- One more exit of the tag that is being merged, from which the OutBuf gets its entry. -/
theorem enter {y : Exit} (htags : t ∉ gs.map Prod.fst) (hy : n.exits.get? e = some y)
    (he : e ∉ n'.sourcesOf o) : n.Merging m x clock reset (gs ++ [(t, es ++ [e])]) news
      (n'.withEntry o (entryFrom o b clock reset e y)) := by
  have hne := (h.docked.enterable ho hb).1
  have hout := fun t => outBufOf?_withEntry h.docked.module hne (entryFrom o b clock reset e y) t
  refine
    { before := h.before, grows := ?_, ports := h.ports, buses := h.buses, exits := h.exits,
      entries := h.entries.push _, docked := h.docked.withEntry hb hne _, tags := ?_,
      made := h.made, entered := fun g hg => ?_, others := fun d hd hdm hout' => ?_,
      idle := fun hall => ?_ }
  · simpa [withEntry] using h.grows
  · simpa using h.tags
  · rcases List.mem_append.mp hg with hg | hg
    · -- The OutBuf of another tag is another one.
      obtain ⟨o', b', ho', hb', hentered⟩ := h.entered g (List.mem_append_left _ hg)
      have hother : o' ≠ o := by
        rintro rfl
        rw [h.docked.apart t g.1 _ ho ho'] at htags
        exact htags (List.mem_map_of_mem hg)
      refine ⟨o', b', by rw [hout, ho'], by rw [get?_withEntry, if_neg hother, hb'], ?_⟩
      exact hentered.persists (hknown g (by simp [hg])) ((Arena.Keeps.refl _).push _)
    · obtain rfl := List.mem_singleton.mp hg
      refine ⟨o, { b with entries := b.entries ++ [n'.entries.next] }, by rw [hout, ho], ?_,
        (h.entered_last ho hb).enter hb h.entries (hknown (t, es) (by simp)) hy he⟩
      rw [get?_withEntry, if_pos rfl, hb, Option.map_some]
  · have hdo : d ≠ o := by
      rintro rfl
      exact hout' t (by simp) (h.outBufOf?_back ho hd)
    rw [get?_withEntry, if_neg hdo]
    exact h.others d hd hdm (by simpa using hout')
  · -- If there were nothing to be done, nothing would have been done so far and this were not new.
    have hsame := h.idle (Absorbed.init hall)
    subst hsame
    exact absurd ((hall (t, es ++ [e]) (by simp)).2 o ho e (by simp)) he

end

end Merging

/-! ### One more tag -/

theorem EnteredFrom.nil (hb : n.components.get? o = some b) (henter : n.Enterable b) :
    n.EnteredFrom o b clock reset [] n' where
  same b₀ hb₀ := by
    cases hb.symm.trans hb₀
    rfl
  standing v hv := henter.entries v (by simpa [entriesOf, hb] using hv)
  entries := ⟨[], by simp [entriesOf, hb], by simp⟩

theorem EnteredFrom.new (ho : n.components.get? o = none) (hb : b.entries = []) :
    n.EnteredFrom o b clock reset [] n' where
  same b₀ hb₀ := by
    rw [ho] at hb₀
    cases hb₀
  standing v hv := by simp [entriesOf, ho] at hv
  entries := ⟨[], by simp [entriesOf, ho, hb], by simp⟩

theorem entries_withModuleExit (n : Netlist) (c : ComponentId) (x : Component) (t : ExitTag) :
    (n.withModuleExit c x t).entries = n.entries := by
  simp [withModuleExit, withOutBuf, withExit, buffered, shelled, withShell]

/-- The OutBuf that comes with an exit. -/
theorem outBuf_withModuleExit (n : Netlist) (c : ComponentId) (x : Component) (t : ExitTag) :
    ∃ b, (n.withModuleExit c x t).components.get? n.components.next = some b ∧
      b.entries = [] ∧ (n.withModuleExit c x t).Enterable b := by
  refine ⟨_, get?_withModuleExit_next n c x t, rfl, ?_, ?_, by simp [newOutBuf, shell]⟩
  · simp [newOutBuf, shell, Handle.eq_iff_index]
  · simp [newOutBuf, shell, withModuleExit, withOutBuf, withExit, buffered, shelled, withShell]
    omega

section

variable {w : Exit} (h : n.Docked m x) (ha : ExitAdded n n' m x t w)

include h ha

theorem Docked.outBufOf?_added (t' : ExitTag) :
    n'.outBufOf? m t' = if t' = t then w.peer else n.outBufOf? m t' := by
  rw [outBufOf?_eq ha.self, outBufOf?_eq h.module]
  split
  · next heq => rw [heq, OrderedMap.find?_put_self, Option.bind_some, ha.exit, Option.bind_some]
  · next hne =>
    rw [OrderedMap.find?_put_of_ne _ hne]
    cases hv : x.exits.find? t' with
    | none => rfl
    | some v =>
        obtain ⟨o, -, ho, -⟩ := h.outBuf t' (OrderedMap.mem_keys_of_find? hv)
        obtain ⟨v', y, hv', hy, -⟩ := (outBufOf?_eq_some h.module).mp ho
        cases hv.symm.trans hv'
        rw [Option.bind_some, Option.bind_some, ha.exits.get? v (Arena.lt_of_get? hy)]

theorem Docked.added (hpeer : w.peer = some o) (hge : n.components.size ≤ o.index)
    (hb : n'.components.get? o = some b) (henter : n'.Enterable b)
    (hentries : n'.entries = n.entries) :
    n'.Docked m { x with exits := x.exits.put t n.exits.next } where
  module := ha.self
  outBuf t' ht' := by
    rw [h.outBufOf?_added ha]
    split
    · refine ⟨o, b, hpeer, hb, ?_, henter⟩
      rintro rfl
      exact absurd hge (Nat.not_le_of_lt (Arena.lt_of_get? h.module))
    · next hne =>
      have hold : t' ∈ x.exits.keys := by
        rw [OrderedMap.keys_put] at ht'
        simpa [hne] using ht'
      obtain ⟨o', b', ho', hb', hne', henter'⟩ := h.outBuf t' hold
      refine ⟨o', b', ho', ?_, hne', henter'.mono ha.ports.size (hentries ▸ Nat.le_refl _)⟩
      rw [ha.others o' hne' (Arena.lt_of_get? hb'), hb']
  apart := by
    -- The new OutBuf is none of those that were there.
    have hold : ∀ t', n.outBufOf? m t' ≠ some o := by
      intro t' ho'
      obtain ⟨o', b', hat, hb', -⟩ := h.outBuf t' (h.mem_keys ho')
      cases ho'.symm.trans hat
      exact absurd hge (Nat.not_le_of_lt (Arena.lt_of_get? hb'))
    intro t₁ t₂ o' h₁ h₂
    rw [h.outBufOf?_added ha] at h₁ h₂
    split at h₁ <;> split at h₂
    · simp [*]
    · exact absurd (h₂.trans (h₁.symm.trans hpeer)) (hold t₂)
    · exact absurd (h₁.trans (h₂.symm.trans hpeer)) (hold t₁)
    · exact h.apart t₁ t₂ o' h₁ h₂

end

namespace Merging

variable (h : n.Merging m x clock reset gs news n') (htags : t ∉ gs.map Prod.fst)

include h htags

/-- A tag of which the module has an exit. -/
theorem openOld (ht : t ∈ x.exits.keys) :
    n.Merging m x clock reset (gs ++ [(t, [])]) news n' := by
  refine { h with
    tags := ?_, entered := fun g hg => ?_, others := fun d hd hne hout => ?_,
    idle := fun hset => h.idle fun g hg => hset g (by simp [hg]) }
  · simp [h.tags, ht]
  · rcases List.mem_append.mp hg with hg | hg
    · exact h.entered g hg
    · obtain rfl := List.mem_singleton.mp hg
      obtain ⟨o, b, ho, hb, hne, henter⟩ := h.before.outBuf t ht
      refine ⟨o, b, (h.outBufOf?_old ht).trans ho, ?_, .nil hb henter⟩
      rw [h.others o (Arena.lt_of_get? hb) hne fun t' ht' ho' => ?_, hb]
      exact htags (h.before.apart t t' o ho ho' ▸ ht')
  · exact h.others d hd hne fun t' ht' => hout t' (by simp [ht'])

/-- A tag of which the module gets an exit with its OutBuf. -/
theorem openNew (hknown : Known n gs) (hi : x.interior.isSome) (ht : t ∉ x.exits.keys) :
    n.Merging m x clock reset (gs ++ [(t, [])]) (news ++ [(t, n'.exits.next)])
      (n'.withModuleExit m (x.withExits news) t) := by
  obtain ⟨i, hi⟩ := Option.isSome_iff_exists.mp hi
  have hadded := exitAdded_withModuleExit h.docked.module (i := i) hi t
  obtain ⟨b, hb, hempty, henter⟩ := outBuf_withModuleExit n' m (x.withExits news) t
  have hentries := entries_withModuleExit n' m (x.withExits news) t
  generalize n'.withModuleExit m (x.withExits news) t = n'' at hadded hb henter hentries ⊢
  have hfree : (x.withExits news).exits.contains t = false := by
    rw [← Bool.not_eq_true, OrderedMap.contains_iff, keys_withExits, h.tags, List.mem_append, not_or]
    exact ⟨ht, fun hmem => htags (List.mem_filter.mp hmem).1⟩
  have hput : { x.withExits news with exits := (x.withExits news).exits.put t n'.exits.next } =
      x.withExits (news ++ [(t, n'.exits.next)]) := by
    rw [OrderedMap.put_of_new hfree]
    simp [Component.withExits]
  have hdocked := h.docked.added hadded rfl (Nat.le_refl _) hb henter hentries
  have hsize : n'.components.size ≤ n''.components.size := Nat.le_of_lt (Arena.lt_of_get? hb)
  refine
    { before := h.before, grows := Nat.le_trans h.grows hsize, ports := h.ports.trans hadded.ports,
      buses := h.buses.trans hadded.buses, exits := h.exits.trans hadded.exits,
      entries := by rw [hentries]; exact h.entries, docked := hput ▸ hdocked, tags := ?_,
      made := fun p hp => ?_, entered := fun g hg => ?_, others := fun d hd hne hout => ?_,
      idle := fun hset => absurd (hset (t, []) (by simp)).1 ht }
  · simp [h.tags, ht]
  · rcases List.mem_append.mp hp with hp | hp
    · obtain ⟨hge, done, o, hy, ho⟩ := h.made p hp
      exact ⟨hge, done, o, by rw [hadded.exits.get? _ (Arena.lt_of_get? hy), hy], ho⟩
    · obtain rfl := List.mem_singleton.mp hp
      exact ⟨h.exits.size, _, _, hadded.exit, h.grows⟩
  · rcases List.mem_append.mp hg with hg | hg
    · obtain ⟨o, b, ho, hb, hentered⟩ := h.entered g hg
      have hgt : g.1 ≠ t := fun heq => htags (heq ▸ List.mem_map_of_mem hg)
      refine ⟨o, b, by rw [h.docked.outBufOf?_added hadded, if_neg hgt, ho], ?_,
        hentered.persists (hknown g hg) (hentries ▸ .refl _)⟩
      rw [hadded.others o (h.docked.enterable ho hb).1 (Arena.lt_of_get? hb), hb]
    · obtain rfl := List.mem_singleton.mp hg
      refine ⟨_, b, ?_, hb, .new (Arena.get?_of_size_le h.grows) hempty⟩
      rw [h.docked.outBufOf?_added hadded, if_pos rfl]
  · rw [hadded.others d hne (Nat.lt_of_lt_of_le hd h.grows)]
    exact h.others d hd hne fun t' ht' => hout t' (by simp [ht'])

end Merging


/-! ### The bus that repeats a control signal -/

/-- The bus inside a module that repeats one of its control signals, if the InBuf has one. -/
def repeats? (n : Netlist) (m : ComponentId) (control : Control) : Option BusId := do
  let x ← n.components.get? m
  let b ← n.components.get? (← x.interior).inBuf
  let y ← n.exits.get? (← b.mainExit?)
  y.control.find? fun z => n.busRole? z = some control.role

/-- The component is neither the module `m` nor an OutBuf of it. -/
def Aside (n : Netlist) (m c : ComponentId) : Prop := c ≠ m ∧ ∀ t, n.outBufOf? m t ≠ some c

/-- The InBuf of `x`, the module `m`, is there, and so is what it gives out. -/
structure Inward (n : Netlist) (m : ComponentId) (x : Component) : Prop where
  module : n.components.get? m = some x
  inBuf : ∃ i b, x.interior = some i ∧ n.components.get? i.inBuf = some b ∧ n.Aside m i.inBuf ∧
    ∀ e, b.mainExit? = some e → ∃ y, n.exits.get? e = some y ∧
      ∀ z ∈ y.control, z.index < n.buses.size

theorem repeats?_eq {i : Interior} (hx : n.components.get? m = some x) (hi : x.interior = some i)
    (hb : n.components.get? i.inBuf = some b) (control : Control) :
    n.repeats? m control = b.mainExit?.bind fun e => (n.exits.get? e).bind fun y =>
      y.control.find? fun z => n.busRole? z = some control.role := by
  simp only [repeats?, hx, hi, hb, Option.bind_eq_bind, Option.bind_some]

section

variable {s : Traced Netlist}

/-- The bus is found, or the call is aborted before anything is done. -/
theorem wp_controlBus? (h : s.state.Inward m x) (control : Control) :
    wp (controlBus? m control) (fun d t => t = s ∧ d = s.state.repeats? m control)
      (fun f t => t = s ∧ (∃ a, f = .abort a) ∧ s.state.repeats? m control = none) s := by
  obtain ⟨hx, i, b, hi, hb, -, hexit⟩ := h
  rw [repeats?_eq hx hi hb]
  simp only [controlBus?, inBuf, mainExit, wp_bind, wp_interior hx hi, wp_pure, wp_component hb]
  cases he : b.mainExit? with
  | none => exact ⟨rfl, ⟨_, rfl⟩, rfl⟩
  | some e =>
      obtain ⟨y, hy, hbuses⟩ := hexit e he
      rw [wp_expect_some, wp_exit hy, wp_findM? (g := fun z => s.state.busRole? z = some control.role)]
      · exact ⟨rfl, by rw [Option.bind_some, hy, Option.bind_some]⟩
      · intro z hz Q
        obtain ⟨w, hw⟩ := Arena.exists_get? (hbuses z hz)
        rw [wp_bind, wp_bus hw, wp_pure]
        simp [busRole?, hw]

theorem wp_repeated (h : s.state.Inward m x) (control : Control) (a : Abort) :
    wp (controlBus? m control >>= fun d => expect a d)
      (fun d t => t = s ∧ s.state.repeats? m control = some d)
      (fun f t => t = s ∧ (∃ a, f = .abort a) ∧ s.state.repeats? m control = none) s := by
  rw [wp_bind]
  refine wp_mono (wp_controlBus? h control) ?_ fun _ _ h => h
  rintro d t ⟨rfl, rfl⟩
  cases hd : t.state.repeats? m control with
  | none => exact ⟨rfl, ⟨_, rfl⟩, rfl⟩
  | some d => exact ⟨rfl, rfl⟩

end

/-! ### Merging -/

namespace Merging

variable {s : Traced Netlist} {F : Failure → Traced Netlist → Prop}

/-- The module has an exit with the tag. -/
theorem found (h : n.Merging m x clock reset gs news n') (htags : t ∉ gs.map Prod.fst) {w : ExitId}
    (hw : (x.withExits news).exits.find? t = some w) :
    n.Merging m x clock reset (gs ++ [(t, [])]) news n' := by
  have hmem := OrderedMap.mem_keys_of_find? hw
  rw [keys_withExits, h.tags] at hmem
  exact h.openOld htags ((List.mem_append.mp hmem).resolve_right fun hmem =>
    htags (List.mem_filter.mp hmem).1)

/-- The module gets an exit with the tag. -/
theorem wp_open (h : n.Merging m x clock reset gs news s.state) (hknown : Known n gs)
    (htags : t ∉ gs.map Prod.fst) (hi : x.interior.isSome)
    (hw : (x.withExits news).exits.find? t = none) :
    wp (makeExit m 0 t) (fun w u => ∃ news',
      n.Merging m x clock reset (gs ++ [(t, [])]) news' u.state ∧
        (x.withExits news').exits.find? t = some w) F s := by
  have hfree : (x.withExits news).exits.contains t = false := by
    rw [OrderedMap.contains, hw, Option.isSome_none]
  have ht : t ∉ x.exits.keys := by
    intro ht
    have hmem : t ∈ (x.withExits news).exits.keys := by
      rw [keys_withExits]
      exact List.mem_append_left _ ht
    rw [OrderedMap.contains_iff.mpr hmem] at hfree
    cases hfree
  have hopened := h.openNew htags hknown hi ht
  obtain ⟨i, hi⟩ := Option.isSome_iff_exists.mp hi
  refine (wp_makeExit_module (i := i) h.docked.module hfree hi 0).mpr ⟨_, hopened, ?_⟩
  rw [OrderedMap.find?, Option.map_eq_none_iff] at hw
  rw [Component.withExits, ← List.append_assoc, OrderedMap.find?, List.find?_append]
  rw [Component.withExits] at hw
  simp [hw]

/-- Every exit of a tag gets its entry. -/
theorem wp_enterAll (h : n.Merging m x clock reset (gs ++ [(t, [])]) news s.state)
    (hknown : Known n (gs ++ [(t, es)])) (htags : t ∉ gs.map Prod.fst)
    (ho : s.state.outBufOf? m t = some o) :
    wp (es.forM (enterOutBuf o clock reset))
      (fun _ u => n.Merging m x clock reset (gs ++ [(t, es)]) news u.state) F s := by
  refine wp_mono (wp_forM_along
    (I := fun pre u => n.Merging m x clock reset (gs ++ [(t, pre)]) news u.state ∧
      u.state.outBufOf? m t = some o) ⟨h, ho⟩ ?_) (fun _ _ hu => hu.1) fun _ _ h => h
  intro pre e post heq u ⟨hu, ho⟩
  have hes := hknown (t, es) (by simp)
  obtain ⟨y, hy⟩ := hes e (by simp [heq])
  obtain ⟨_, b, hat, hb, -, henter⟩ := hu.docked.outBuf t (hu.docked.mem_keys ho)
  cases ho.symm.trans hat
  have hpre : Known n (gs ++ [(t, pre)]) := List.forall_mem_append.mpr
    ⟨fun g hg => hknown g (by simp [hg]), List.forall_mem_singleton.mpr fun d hd =>
      hes d (by simp [heq, hd])⟩
  refine (wp_enterOutBuf hb henter (y := y) ?_).mpr ?_
  · rw [hu.exits.get? e (Arena.lt_of_get? hy), hy]
  rw [state_moved]
  split
  · next he => exact ⟨hu.skip hpre ho hb he, ho⟩
  · next he =>
    refine ⟨hu.enter hpre ho hb htags hy he, ?_⟩
    rw [outBufOf?_withEntry hu.docked.module (hu.docked.enterable ho hb).1, ho]

/-- The rest of what is done for a tag, when the module has an exit with it. -/
theorem wp_merge (h : n.Merging m x clock reset (gs ++ [(t, [])]) news s.state)
    (hknown : Known n (gs ++ [(t, es)])) (htags : t ∉ gs.map Prod.fst) {w : ExitId}
    (hw : (x.withExits news).exits.find? t = some w) :
    wp (do
      let outBuf ← Build.expect .noOutBuf (← exit w).peer
      es.forM (enterOutBuf outBuf clock reset)
      let name := (← component m).name
      Build.log .trace .modules s!"merged {t.text} exits into {quote name}")
      (fun _ u => n.Merging m x clock reset (gs ++ [(t, es)]) news u.state) F s := by
  obtain ⟨o, -, ho, -⟩ := h.docked.outBuf t (OrderedMap.mem_keys_of_find? hw)
  obtain ⟨w', y, hw', hy, hpeer⟩ := (outBufOf?_eq_some h.docked.module).mp ho
  cases hw.symm.trans hw'
  rw [wp_bind, wp_exit hy, wp_bind, hpeer, wp_expect_some, wp_bind]
  refine wp_mono (h.wp_enterAll hknown htags ho) (fun _ u hu => ?_) fun _ _ h => h
  rw [wp_bind, wp_component hu.docked.module]
  exact hu

end Merging

theorem Tagged.known {cs : List ComponentId} (h : n.Tagged cs) :
    Merging.Known n (OrderedMap.gather ∅ (n.exitsOf cs)).entries := by
  intro g hg e he
  rw [OrderedMap.mem_gather hg] at he
  obtain ⟨p, hp, rfl⟩ := List.mem_map.mp he
  obtain ⟨y, hy, -⟩ := h.exit (List.mem_filter.mp hp).1
  exact ⟨y, hy⟩

/-- Merging comes to what it is meant to come to, unless the InBuf of the module lacks a bus. -/
theorem wp_mergeExits {s : Traced Netlist} {cs : List ComponentId} (hcs : s.state.Tagged cs)
    (hdocked : s.state.Docked m x) (hinward : s.state.Inward m x) :
    wp (mergeExits m cs)
      (fun _ u => ∃ clock reset news, s.state.repeats? m .clock = some clock ∧
        s.state.repeats? m .reset = some reset ∧ s.state.Merging m x clock reset
          (OrderedMap.gather ∅ (s.state.exitsOf cs)).entries news u.state)
      (fun f u => u = s ∧ (∃ a, f = .abort a) ∧
        (s.state.repeats? m .clock = none ∨ s.state.repeats? m .reset = none)) s := by
  have hi : x.interior.isSome := by
    obtain ⟨i, b, hi, -⟩ := hinward.inBuf
    rw [hi, Option.isSome_some]
  have hknown := hcs.known
  have hnodup := OrderedMap.nodup_keys_gather (s.state.exitsOf cs)
  rw [mergeExits, wp_bind, wp_exitsByTag hcs, wp_bind]
  refine wp_mono (wp_repeated hinward .clock .noClockBus) ?_ fun f u hf => ⟨hf.1, hf.2.1, .inl hf.2.2⟩
  rintro clock s ⟨rfl, hclock⟩
  rw [wp_bind]
  refine wp_mono (wp_repeated hinward .reset .noResetBus) ?_ fun f u hf => ⟨hf.1, hf.2.1, .inr hf.2.2⟩
  rintro reset t ⟨rfl, hreset⟩
  refine wp_mono (wp_forM_along
    (I := fun gs u => ∃ news, t.state.Merging m x clock reset gs news u.state) ⟨[], .nil hdocked⟩
    ?_) ?_ fun _ _ h => h
  swap
  · rintro _ u ⟨news, hu⟩
    exact ⟨clock, reset, news, hclock, hreset, hu⟩
  rintro gs ⟨tag, es⟩ post heq u ⟨news, hu⟩
  have hgs : Merging.Known t.state (gs ++ [(tag, es)]) := by
    rw [heq, List.append_cons] at hknown
    exact fun g hg => hknown g (List.mem_append_left _ hg)
  have htags : tag ∉ gs.map Prod.fst := by
    rw [OrderedMap.keys, heq, List.map_append, List.nodup_append] at hnodup
    exact fun hmem => hnodup.2.2 tag hmem tag (by simp) rfl
  dsimp only
  rw [wp_bind, wp_component hu.docked.module]
  split
  · next w hw =>
    rw [wp_bind, wp_pure]
    exact wp_mono ((hu.found htags hw).wp_merge hgs htags hw) (fun _ v hv => ⟨news, hv⟩)
      fun _ _ h => h
  · next hw =>
    rw [wp_bind]
    refine wp_mono (hu.wp_open (fun g hg => hgs g (List.mem_append_left _ hg)) htags hi hw)
      ?_ fun _ _ h => h
    rintro w v ⟨news', hv, hw⟩
    exact wp_mono (hv.wp_merge hgs htags hw) (fun _ v' hv' => ⟨news', hv'⟩) fun _ _ h => h

/-! ### Merging again -/

namespace Merging

variable {d : ComponentId}

/-- What is neither the module nor an OutBuf of it stays as it was. -/
theorem aside (h : n.Merging m x clock reset gs news n') (hd : n.Aside m d)
    (hlt : d.index < n.components.size) : n'.components.get? d = n.components.get? d :=
  h.others d hlt hd.1 fun t _ => hd.2 t

theorem aside_after (h : n.Merging m x clock reset gs news n') (hd : n.Aside m d)
    (hlt : d.index < n.components.size) : n'.Aside m d :=
  ⟨hd.1, fun t ho => hd.2 t (h.outBufOf?_back ho hlt)⟩

theorem inward (h : n.Merging m x clock reset gs news n') (hinward : n.Inward m x) :
    n'.Inward m (x.withExits news) ∧ ∀ control, n'.repeats? m control = n.repeats? m control := by
  obtain ⟨hx, i, b, hi, hb, haside, hexit⟩ := hinward
  have hlt := Arena.lt_of_get? hb
  have hb' : n'.components.get? i.inBuf = some b := by rw [h.aside haside hlt, hb]
  constructor
  · refine ⟨h.docked.module, i, b, hi, hb', h.aside_after haside hlt, fun e he => ?_⟩
    obtain ⟨y, hy, hbuses⟩ := hexit e he
    exact ⟨y, by rw [h.exits.get? e (Arena.lt_of_get? hy), hy], fun z hz =>
      Nat.lt_of_lt_of_le (hbuses z hz) h.buses.size⟩
  · intro control
    rw [repeats?_eq h.docked.module hi hb', repeats?_eq hx hi hb]
    cases he : b.mainExit? with
    | none => rfl
    | some e =>
        obtain ⟨y, hy, hbuses⟩ := hexit e he
        simp only [Option.bind_some, h.exits.get? e (Arena.lt_of_get? hy), hy]
        exact List.find?_congr fun z hz => by rw [busRole?, busRole?, h.buses.get? z (hbuses z hz)]

variable {cs : List ComponentId}

theorem tagged (h : n.Merging m x clock reset gs news n') (haside : ∀ c ∈ cs, n.Aside m c)
    (hcs : n.Tagged cs) : n'.Tagged cs ∧ n'.exitsOf cs = n.exitsOf cs := by
  have hsame : ∀ c ∈ cs, n'.components.get? c = n.components.get? c := by
    intro c hc
    obtain ⟨y, hy, -⟩ := hcs c hc
    exact h.aside (haside c hc) (Arena.lt_of_get? hy)
  constructor
  · intro c hc
    obtain ⟨y, hy, hexits⟩ := hcs c hc
    refine ⟨y, (hsame c hc).trans hy, fun p hp => ?_⟩
    obtain ⟨z, hz, htag⟩ := hexits p hp
    exact ⟨z, by rw [h.exits.get? _ (Arena.lt_of_get? hz), hz], htag⟩
  · exact List.flatMap_congr fun c hc => by rw [hsame c hc]

/-- What has been merged need not be merged again. -/
theorem absorbed (h : n.Merging m x clock reset gs news n') (hknown : Known n gs) :
    n'.Absorbed m (x.withExits news) gs := by
  intro g hg
  obtain ⟨o, b, ho, hb, hentered⟩ := h.entered g hg
  refine ⟨h.docked.mem_keys ho, fun o' ho' e he => ?_⟩
  cases ho.symm.trans ho'
  exact (hentered.mem_sourcesOf hb h.entries (hknown g hg)).mpr (.inr he)

end Merging

/-- Merging the same exits again changes nothing. -/
theorem wp_mergeExits_again {s : Traced Netlist} {cs : List ComponentId} (hcs : n.Tagged cs)
    (haside : ∀ c ∈ cs, n.Aside m c) (hinward : n.Inward m x)
    (hclock : n.repeats? m .clock = some clock) (hreset : n.repeats? m .reset = some reset)
    (h : n.Merging m x clock reset (OrderedMap.gather ∅ (n.exitsOf cs)).entries news s.state) :
    wp (mergeExits m cs) (fun _ u => u.state = s.state) (fun _ _ => False) s := by
  obtain ⟨hcs', hexits⟩ := h.tagged haside hcs
  obtain ⟨hinward', hrepeats⟩ := h.inward hinward
  refine wp_mono (wp_mergeExits hcs' h.docked hinward') ?_ ?_
  · rintro _ u ⟨_, _, news', -, -, hagain⟩
    rw [hexits] at hagain
    exact hagain.idle (h.absorbed hcs.known)
  · rintro _ u ⟨-, -, hnone⟩
    simp [hrepeats, hclock, hreset] at hnone

end Netlist

end DataflowSynth
