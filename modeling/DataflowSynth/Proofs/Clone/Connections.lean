/-
The connections of a copy.

After the entries, the drivers of all ports inside are repeated one by one.  Different ports have
different copies, so what one of them is connected to is not touched again.
-/
import DataflowSynth.Proofs.Clone.Entries
import DataflowSynth.Proofs.Clone.Idle

namespace DataflowSynth.Netlist

open Build

variable {pins lo hi : Nat} {n t t' t'' : Netlist} {u : Traced Netlist} {c d d' copy : ComponentId}
  {map : Correspondence} {p q : PortId} {D : PortId → Prop}

/-- The copy of the bus that drives a port. -/
def copiedDriver? (n : Netlist) (map : Correspondence) (p : PortId) : Option BusId :=
  (n.hookup.driver? p).bind fun b => map.buses[b]?

/-- Copies of ports in `D` may have been connected like these, and nothing else has changed. -/
structure Connected (n : Netlist) (map : Correspondence) (D : PortId → Prop) (t t' : Netlist) :
    Prop where
  components : t'.components = t.components
  entries : t'.entries = t.entries
  grows : t.Grows t'
  spares : Spares (fun _ => False) t t'
  drivers : ∀ q, t'.hookup.driver? q = t.hookup.driver? q ∨
    ∃ p, D p ∧ map.ports[p]? = some q ∧ t'.hookup.driver? q = copiedDriver? n map p

instance : IsPreorder Netlist (Connected n map D) where
  refl t := ⟨rfl, rfl, .refl t, .refl _ t, fun _ => .inl rfl⟩
  trans t t' t'' h h' := by
    refine ⟨h'.components.trans h.components, h'.entries.trans h.entries, h.grows.trans h'.grows,
      h.spares.trans h'.spares, fun q => ?_⟩
    rcases h'.drivers q with hq | hq
    · rw [hq]
      exact h.drivers q
    · exact .inr hq

/-- The ports in `D` have copies that are driven by nothing yet, and so have the buses that drive
them. -/
structure Unwired (n t : Netlist) (map : Correspondence) (D : PortId → Prop) : Prop where
  keeps : n.ports.Keeps t.ports
  known : ∀ p, D p → ∃ y, n.ports.get? p = some y ∧
    (∃ q, map.ports[p]? = some q ∧ n.ports.size ≤ q.index ∧ q.index < t.ports.size) ∧
    ∀ b, y.bus = some b → ∃ b', map.buses[b]? = some b' ∧ b'.index < t.buses.size
  injective : ∀ p₁ p₂ q, D p₁ → D p₂ → map.ports[p₁]? = some q → map.ports[p₂]? = some q → p₁ = p₂
  undriven : ∀ q, n.ports.size ≤ q.index → t.hookup.driver? q = none

namespace Unwired

variable (h : Unwired n t map D)

include h

theorem image_new (hp : D p) (hq : map.ports[p]? = some q) : n.ports.size ≤ q.index := by
  obtain ⟨-, -, ⟨q', hq', hle, -⟩, -⟩ := h.known p hp
  cases hq.symm.trans hq'
  exact hle

/-- A port that was there keeps its driver. -/
theorem driver_old (ht : Connected n map D t t') (hp : p.index < n.ports.size) :
    t'.hookup.driver? p = n.hookup.driver? p := by
  have hbefore : t.hookup.driver? p = n.hookup.driver? p :=
    congrArg (·.bind Port.bus) (h.keeps.get? p hp)
  rcases ht.drivers p with heq | ⟨p', hp', himage, -⟩
  · exact heq.trans hbefore
  · exact absurd hp (Nat.not_lt_of_le (h.image_new hp' himage))

/-- The copy of a port is driven by nothing, or as it should be. -/
theorem driver_new (ht : Connected n map D t t') (hp : D p) (hq : map.ports[p]? = some q) :
    t'.hookup.driver? q = none ∨ t'.hookup.driver? q = copiedDriver? n map p := by
  rcases ht.drivers q with heq | ⟨p', hp', himage, heq⟩
  · exact .inl (heq.trans (h.undriven q (h.image_new hp hq)))
  · obtain rfl := h.injective p p' q hp hp' hq himage
    exact .inr heq

end Unwired

/-- The copy of the port is driven like the port. -/
def Settled (n : Netlist) (map : Correspondence) (p : PortId) (t : Netlist) : Prop :=
  ∀ q, map.ports[p]? = some q → t.hookup.driver? q = copiedDriver? n map p

theorem Settled.keep (h : Unwired n t map D) (hp : D p) (ht : Connected n map D t' t'')
    (hs : Settled n map p t') : Settled n map p t'' := by
  intro q hq
  rcases ht.drivers q with heq | ⟨p', hp', himage, heq⟩
  · exact heq.trans (hs q hq)
  · obtain rfl := h.injective p p' q hp hp' hq himage
    exact heq

theorem spares_movePort {old new : Option BusId} :
    Spares (fun _ => False) t { t with
      buses := movePort t.buses p old new
      ports := t.ports.modify p fun y => { y with bus := new } } where
  components _ x hx _ := ⟨x, hx, rfl⟩
  ports q y hy _ := by
    rw [Arena.get?_modify]
    split
    · exact ⟨{ y with bus := new }, by rw [hy]; rfl, rfl⟩
    · exact ⟨y, hy, rfl⟩
  exits _ _ hy _ := hy
  buses b z _ hz _ _ := ⟨_, (get?_movePort ..).trans (congrArg _ hz), rfl⟩

theorem driver?_movePort {v : Port} (hv : t.ports.get? q = some v) (old new : Option BusId)
    (r : PortId) :
    Hookup.driver? (hookup { t with
      buses := movePort t.buses q old new
      ports := t.ports.modify q fun y => { y with bus := new } }) r =
      if r = q then new else t.hookup.driver? r := by
  simp only [hookup, Arena.get?_modify]
  split
  · next heq =>
    rw [heq, hv]
    rfl
  · rfl

theorem copyConnection_ok (h : Unwired n t map D) (hp : D p) (ht : Connected n map D t u.state) :
    wp (copyConnection map p)
      (fun _ w => Connected n map D u.state w.state ∧ Settled n map p w.state) Never u := by
  obtain ⟨y, hy, ⟨q, hq, -, hlt⟩, hbuses⟩ := h.known p hp
  have hold := Arena.lt_of_get? hy
  obtain ⟨w, hw⟩ := Arena.exists_get? (Nat.lt_of_lt_of_le (Nat.lt_of_lt_of_le hold h.keeps.size)
    ht.grows.ports)
  have hbus : w.bus = y.bus := by
    simpa only [hookup, hw, hy, Option.bind_some] using h.driver_old ht hold
  have hcopied : copiedDriver? n map p = y.bus.bind fun b => map.buses[b]? := by
    simp only [copiedDriver?, hookup, hy, Option.bind_some]
  have hdriver := h.driver_new ht hp hq
  rw [copyConnection, wp_bind]
  refine (wp_port hw).mpr ?_
  rw [hbus]
  cases hyb : y.bus with
  | none =>
      rw [hyb] at hcopied
      refine ⟨refl_of (Connected n map D) u.state, fun q' hq' => ?_⟩
      cases hq.symm.trans hq'
      rw [hcopied] at hdriver ⊢
      exact hdriver.elim id id
  | some b =>
      obtain ⟨b', hb', hltb⟩ := hbuses b hyb
      rw [hyb, Option.bind_some, hb'] at hcopied
      obtain ⟨v, hv⟩ := Arena.exists_get? (Nat.lt_of_lt_of_le hlt ht.grows.ports)
      have hb'lt := Nat.lt_of_lt_of_le hltb ht.grows.buses
      simp only [Correspondence.port, Correspondence.bus, hq, hb', wp_bind, wp_expect_some]
      refine (wp_setBus hv (fun d hd => ?_) fun d hd => ?_).mpr ?_
      · -- The old driver is the new one.
        have hvd : u.state.hookup.driver? q = some d := by simp only [hookup, hv, Option.bind_some, hd]
        rw [hvd, hcopied] at hdriver
        obtain rfl : d = b' := by simpa using hdriver
        exact hb'lt
      · cases hd
        exact hb'lt
      have hset := driver?_movePort hv v.bus (some b')
      refine ⟨⟨rfl, rfl, ?_, spares_movePort, fun r => ?_⟩, fun q' hq' => ?_⟩
      · exact { Grows.refl u.state with
          ports := by simp [moved]
          buses := by simp [moved, size_movePort] }
      · by_cases heq : r = q
        · subst heq
          exact .inr ⟨p, hp, hq, (hset r).trans ((if_pos rfl).trans hcopied.symm)⟩
        · exact .inl ((hset r).trans (if_neg heq))
      · cases hq.symm.trans hq'
        exact (hset q).trans ((if_pos rfl).trans hcopied.symm)

/-! ### The list of copies -/

/-- The components that `c` owns, with their copies. -/
def Correspondence.inside (map : Correspondence) (c : ComponentId) :
    List (ComponentId × ComponentId) :=
  map.components.entries.filter fun (d, _) => d ≠ c

theorem copyConnections_eq (c : ComponentId) (map : Correspondence) : copyConnections c map = (do
    let map' ← (map.inside c).foldlM (fun map (c, copy) => do
      (← component c).entries.foldlM (fun map i => copyEntry map copy i) map) map
    (map.inside c).forM fun (c, _) => do (← component c).ports.forM (copyConnection map')
    return map') :=
  rfl

section

variable (hw : Whole pins n) (h : TreeCopied pins n n t {} map c copy)

include h

theorem TreeCopied.find?_of_mem {z : ComponentId × ComponentId} (hz : z ∈ map.components.entries) :
    map.components.find? z.1 = some z.2 :=
  OrderedMap.find?_of_mem (h.learns.keys List.nodup_nil) hz

theorem TreeCopied.part (hd : map.components.find? d = some d') : Part n c d := by
  by_contra hnot
  rw [h.learns.components d hnot] at hd
  cases hd

theorem TreeCopied.injective {d₁ d₂ d' : ComponentId} (h₁ : map.components.find? d₁ = some d')
    (h₂ : map.components.find? d₂ = some d') : d₁ = d₂ := by
  obtain ⟨r, hr, hroot⟩ := h.owner
  exact h.done.injective h.linked h.shaped h.found hr hroot (h.part h₁) (h.part h₂) h₁ h₂

theorem TreeCopied.mem_inside {z : ComponentId × ComponentId} :
    z ∈ map.inside c ↔ map.components.find? z.1 = some z.2 ∧ z.1 ≠ c := by
  simp only [Correspondence.inside, List.mem_filter, decide_eq_true_eq]
  exact and_congr_left fun _ => ⟨h.find?_of_mem, OrderedMap.mem_entries_of_find?⟩

theorem TreeCopied.nodup_inside : ((map.inside c).map Prod.snd).Nodup := by
  have hentries : map.components.entries.Nodup := List.Nodup.of_map _ (h.learns.keys List.nodup_nil)
  refine (hentries.filter _).map_on fun a ha b hb heq => ?_
  have hfa := (h.mem_inside.mp ha).1
  have hfb := (h.mem_inside.mp hb).1
  exact Prod.ext (h.injective hfa (heq ▸ hfb)) heq

theorem TreeCopied.new (hd : map.components.find? d = some d') :
    n.components.size ≤ d'.index ∧ d'.index < t.components.size := by
  obtain ⟨d₂, hd₂, hle, hlt, -⟩ := h.done d (h.part hd)
  cases hd.symm.trans hd₂
  exact ⟨hle, hlt⟩

include hw

/-- Everything that an entry inside names has been copied. -/
theorem TreeCopied.entryKnown (henclosed : Enclosed n c) (hbinds : BindsInside n c) {x : Component}
    (hx : Within n c d x) {i : EntryId} (hi : i ∈ x.entries) :
    ∃ y, n.entries.get? i = some y ∧ EntryKnown t map y := by
  have hrefs := (Component.forall_refs.mp (hw.linked.components d x hx.2.2 (Nat.zero_le _)).refs)
  obtain ⟨y, hy⟩ := Arena.exists_get? (hrefs.2.2.2.1 i hi).2
  refine ⟨y, hy, fun e he => ?_, fun a ha => ?_, fun a ha => ?_⟩
  · obtain ⟨e', -, -, he', -⟩ := h.done.exit h.linked (henclosed.exits d x hx i hi y hy e he)
    exact ⟨e', he'⟩
  · obtain ⟨p, hp, hnew⟩ := h.done.port h.linked (hbinds d x hx i hi y hy a ha)
    exact ⟨p, hp, hnew.2⟩
  · obtain ⟨b, hb, -⟩ := h.done.bus h.linked (henclosed.dependencies d x hx i hi y hy a ha)
    exact ⟨b, hb⟩

/-- What has been copied is ready to be connected. -/
theorem TreeCopied.unwired (hidle : Idle n t) (henclosed : Enclosed n c) :
    Unwired n t map fun p => ∃ d x, Within n c d x ∧ p ∈ x.ports where
  keeps := h.linked.keeps.ports
  known := by
    rintro p ⟨d, x, hx, hp⟩
    have hrefs := (Component.forall_refs.mp (hw.linked.components d x hx.2.2 (Nat.zero_le _)).refs)
    obtain ⟨y, hy⟩ := Arena.exists_get? (hrefs.2.1 p hp).2
    obtain ⟨q, hq, hnew⟩ := h.done.port h.linked ⟨d, x, hx.1, hx.2.2, hp⟩
    refine ⟨y, hy, ⟨q, hq, hnew⟩, fun b hb => ?_⟩
    obtain ⟨b', hb', hnewb⟩ := h.done.bus h.linked (henclosed.drivers d x hx p hp y hy b hb)
    exact ⟨b', hb', hnewb.2⟩
  injective := by
    rintro p₁ p₂ q ⟨d₁, x₁, hx₁, hp₁⟩ ⟨d₂, x₂, hx₂, hp₂⟩ hq₁ hq₂
    exact h.done.ports_injective h.linked h.shaped (fun _ _ _ _ _ hf₁ hf₂ => h.injective hf₁ hf₂)
      ⟨d₁, x₁, hx₁.1, hx₁.2.2, hp₁⟩ ⟨d₂, x₂, hx₂.1, hx₂.2.2, hp₂⟩ hq₁ hq₂
  undriven q hq := by
    have heq := congrFun (congrArg Hookup.driver? hidle) q
    simpa only [hookup, Arena.get?_of_size_le hq, Option.bind_none] using heq

end

/-! ### All connections -/

theorem Unwired.congr (h : Unwired n t map D) (hports : t'.ports = t.ports)
    (hbuses : t'.buses = t.buses) : Unwired n t' map D where
  keeps := hports ▸ h.keeps
  known p hp := by
    rw [hports, hbuses]
    exact h.known p hp
  injective := h.injective
  undriven q hq := by
    have hsame : t'.hookup.driver? q = t.hookup.driver? q := by simp only [hookup, hports]
    exact hsame.trans (h.undriven q hq)

theorem AllEntered.spares {zs : List (ComponentId × ComponentId)} (h : AllEntered n t t' map zs)
    (hzs : ∀ z ∈ zs, ∃ x, n.components.get? z.1 = some x) : Spares (fun _ => False) t t' where
  components d x' hx' _ := by
    by_cases hd : d ∈ zs.map Prod.snd
    · obtain ⟨z, hz, rfl⟩ := List.mem_map.mp hd
      obtain ⟨x, hx⟩ := hzs z hz
      obtain ⟨is, hx'', -⟩ := h.copies z hz x x' hx hx'
      exact ⟨_, hx'', rfl⟩
    · exact ⟨x', (h.others d hd).trans hx', rfl⟩
  ports p y hy _ := ⟨y, h.ports ▸ hy, rfl⟩
  exits e y hy _ := h.exits ▸ hy
  buses b z _ hz _ _ := ⟨z, h.buses ▸ hz, rfl⟩

theorem AllEntered.grows {zs : List (ComponentId × ComponentId)} (h : AllEntered n t t' map zs) :
    t.Grows t' :=
  ⟨Nat.le_of_eq h.size.symm, h.ports ▸ Nat.le_refl _, h.buses ▸ Nat.le_refl _,
    h.exits ▸ Nat.le_refl _, h.entries.size⟩

/-- What `c` owns is connected and entered in the copy as it is in `n`, and the copy is not. -/
structure Wired (n s t : Netlist) (map : Correspondence) (c copy : ComponentId) : Prop where
  grows : s.Grows t
  spares : Spares (fun _ => False) s t
  drivers : ∀ d x, Within n c d x → ∀ p ∈ x.ports, Settled n map p t
  entries : ∀ d x d', Within n c d x → map.components.find? d = some d' →
    ∃ x', t.components.get? d' = some x' ∧ List.Forall₂ (EntryTwin n t map) x.entries x'.entries
  root : t.components.get? copy = s.components.get? copy
  undriven : ∀ x', t.components.get? copy = some x' → ∀ p ∈ x'.ports, t.hookup.driver? p = none

/-- The ports of the copy itself are no copies of ports inside. -/
theorem TreeCopied.root_port (hw : Whole pins n) (h : TreeCopied pins n n t {} map c copy)
    {x x' : Component} (hx : Within n c d x) (hp : p ∈ x.ports)
    (hx' : t.components.get? copy = some x') (hq : q ∈ x'.ports) : map.ports[p]? ≠ some q := by
  intro hmap
  obtain ⟨c', hfound, -, -, -, r, r', hr, hr', htwin⟩ := h.done c .self
  cases hfound.symm.trans h.found
  cases hx'.symm.trans hr'
  have hports : List.Forall₂ (fun q p => map.ports[p]? = some q) x'.ports r.ports :=
    htwin.ports.flip.imp fun _ _ hpq => hpq.1
  obtain ⟨p', hp', hmap'⟩ := exists_of_forall₂ hports hq
  -- A port belongs to one component only.
  obtain rfl := h.done.ports_injective h.linked h.shaped
    (fun _ _ _ _ _ hf₁ hf₂ => h.injective hf₁ hf₂) ⟨d, x, hx.1, hx.2.2, hp⟩ ⟨c, r, .self, hr, hp'⟩
    hmap hmap'
  have hlinked := hw.linked.components d x hx.2.2 (Nat.zero_le _)
  obtain ⟨y, hy⟩ := Arena.exists_get? ((Component.forall_refs.mp hlinked.refs).2.1 p hp).2
  exact hx.2.1 ((hlinked.ports p hp y hy).symm.trans
    ((hw.linked.components c r hr (Nat.zero_le _)).ports p hp' y hy))

/-- Repeating the connections succeeds. -/
theorem copyConnections_ok (hw : Whole pins n) (h : TreeCopied pins n n u.state {} map c copy)
    (hidle : Idle n u.state) (henclosed : Enclosed n c) (hbinds : BindsInside n c)
    (hlt : c.index < n.components.size) :
    wp (copyConnections c map) (fun map' w => (∃ k, map' = { map with entries := k }) ∧
      Wired n u.state w.state map c copy) Never u := by
  have hwithin : ∀ z ∈ map.inside c, ∃ x, Within n c z.1 x := fun z hz => by
    have hpart := h.part (h.mem_inside.mp hz).1
    obtain ⟨x, hx⟩ := Arena.exists_get? (hw.part_lt hpart hlt)
    exact ⟨x, hpart, (h.mem_inside.mp hz).2, hx⟩
  have hnever : ∀ e (v : Traced Netlist), Never e v → Never e v := fun _ _ h => h
  rw [copyConnections_eq, wp_bind]
  -- The entries.
  refine wp_mono (copyAllEntries_ok h.linked.keeps h.nodup_inside fun z hz => ?_)
    (fun map' w ⟨⟨k, hmap⟩, hw'⟩ => ?_) hnever
  · obtain ⟨x, hx⟩ := hwithin z hz
    have hnew := h.new (h.mem_inside.mp hz).1
    exact ⟨x, hx.2.2, hnew.1, hnew.2, fun i hi => h.entryKnown hw henclosed hbinds hx hi⟩
  subst hmap
  have hun := (h.unwired hw hidle henclosed).congr hw'.ports hw'.buses
  have hentered := hw'.spares fun z hz => (hwithin z hz).imp fun _ hx => hx.2.2
  have hold : ∀ d : ComponentId, d.index < n.components.size →
      w.state.components.get? d = n.components.get? d := fun d hd => by
    refine (hw'.others d fun hmem => ?_).trans (h.linked.keeps.components.get? d hd)
    obtain ⟨z, hz, rfl⟩ := List.mem_map.mp hmem
    exact absurd hd (Nat.not_lt_of_le (h.new (h.mem_inside.mp hz).1).1)
  -- The drivers.
  rw [wp_bind]
  refine wp_mono (wp_forM_settle (R := Connected n map fun p => ∃ d x, Within n c d x ∧ p ∈ x.ports)
    (S := fun (z : ComponentId × ComponentId) v => ∀ x, Within n c z.1 x → ∀ p ∈ x.ports,
      Settled n map p v)
    (fun z hz v v' hv hset x hx p hp => (hset x hx p hp).keep hun ⟨z.1, x, hx, hp⟩ hv)
    fun z hz v hv => ?_) (fun _ v ⟨hv, hset⟩ => ?_) hnever
  · obtain ⟨x, hx⟩ := hwithin z hz
    have hxv : v.state.components.get? z.1 = some x := by
      rw [hv.components, hold z.1 (Arena.lt_of_get? hx.2.2)]
      exact hx.2.2
    rw [wp_bind]
    refine (wp_component hxv).mpr (wp_mono (wp_forM_settle (S := fun p v => Settled n map p v)
      (fun p hp v v' hv hset => hset.keep hun ⟨z.1, x, hx, hp⟩ hv) fun p hp v' hv' =>
      copyConnection_ok hun ⟨z.1, x, hx, hp⟩ (trans_of _ hv hv')) (fun _ v' ⟨hv', hset⟩ => ?_) hnever)
    refine ⟨hv', fun x' hx' => ?_⟩
    cases hx.2.2.symm.trans hx'.2.2
    exact hset
  -- Both together.
  have hroot : v.state.components.get? copy = u.state.components.get? copy := by
    rw [hv.components]
    refine hw'.others copy fun hmem => ?_
    obtain ⟨z, hz, heq⟩ := List.mem_map.mp hmem
    obtain ⟨hfound, hne⟩ := h.mem_inside.mp hz
    exact hne (h.injective hfound (heq ▸ h.found))
  refine ⟨⟨k, rfl⟩, ?_, hentered.trans hv.spares, fun d x hx => ?_, fun d x d' hx hd => ?_, hroot,
    fun x' hx' p hp => ?_⟩
  · exact hw'.grows.trans hv.grows
  · obtain ⟨d', hd, -⟩ := h.done d hx.1
    exact hset (d, d') (h.mem_inside.mpr ⟨hd, hx.2.1⟩) x hx
  · obtain ⟨x', hx'⟩ := Arena.exists_get? (h.new hd).2
    obtain ⟨is, hv', htwins⟩ := hw'.copies (d, d') (h.mem_inside.mpr ⟨hd, hx.2.1⟩) x x' hx.2.2 hx'
    refine ⟨_, by rw [hv.components]; exact hv', ?_⟩
    have hnone : x'.entries = [] := hidle.unentered hx' (h.new hd).1
    simp only [hnone, List.nil_append]
    exact htwins.imp fun _ _ htwin => htwin.mono (by rw [hv.entries]; exact .refl _)
  · rw [hroot] at hx'
    have hnew := (Component.forall_refs.mp
      (h.linked.components copy x' hx' (h.new h.found).1).refs).2.1 p hp
    rcases hv.drivers p with heq | ⟨p', ⟨d, x, hx, hp'⟩, hmap, -⟩
    · exact heq.trans (hun.undriven p hnew.1)
    · exact absurd hmap (h.root_port hw hx hp' hx' hp)

end DataflowSynth.Netlist
