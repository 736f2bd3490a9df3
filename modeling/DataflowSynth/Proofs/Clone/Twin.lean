/-
Twins: a component and its copy.

What is compared are the terminals one by one, the flags, and what a module owns.  Connections, entries
and owners are left out, since they come later.  So a pair of twins stays one through every step that
spares the copy, and through everything that a correspondence learns about other components.
-/
import DataflowSynth.Netlist.Copy
import DataflowSynth.Proofs.Clone.Tree
import Mathlib.Data.List.Forall2

namespace DataflowSynth.Netlist

/-- Lists that correspond one by one keep on doing so. -/
theorem forall₂_imp_mem {α β : Type} {P Q : α → β → Prop} {l : List α} {l' : List β}
    (h : List.Forall₂ P l l') (hPQ : ∀ a ∈ l, ∀ b ∈ l', P a b → Q a b) : List.Forall₂ Q l l' := by
  rw [List.forall₂_iff_zip] at h ⊢
  refine ⟨h.1, fun hz => ?_⟩
  obtain ⟨ha, hb⟩ := List.of_mem_zip hz
  exact hPQ _ ha _ hb (h.2 hz)

/-- What is in one of the lists has its counterpart in the other. -/
theorem exists_of_forall₂ {α β : Type} {P : α → β → Prop} {l : List α} {l' : List β}
    (h : List.Forall₂ P l l') {a : α} (ha : a ∈ l) : ∃ b ∈ l', P a b := by
  induction h with
  | nil => simp at ha
  | cons hab _ ih =>
      rcases List.mem_cons.mp ha with rfl | ha
      · exact ⟨_, List.mem_cons_self, hab⟩
      · obtain ⟨b, hb, hrel⟩ := ih ha
        exact ⟨b, List.mem_cons_of_mem _ hb, hrel⟩

theorem rel_imp {α β : Type} {P Q : α → β → Prop} {o : Option α} {o' : Option β}
    (h : Option.Rel P o o') (hPQ : ∀ a b, P a b → Q a b) : Option.Rel Q o o' := by
  cases h with
  | none => exact .none
  | some hab => exact .some (hPQ _ _ hab)

/-! ### What steps spare -/

/-- A component without its owner and entries. -/
def Component.still (x : Component) : Component := { x with owner := none, entries := [] }

/-- A port without its driver. -/
def Port.still (y : Port) : Port := { y with bus := none, peer := none }

/-- A bus without its fan-out. -/
def Bus.still (z : Bus) : Bus := { z with ports := [], peer := none }

/-- The step from `t` to `t'` changes the terminals of components in `R` only, and no other component
but for its owner and its connections. -/
structure Spares (R : ComponentId → Prop) (t t' : Netlist) : Prop where
  components : ∀ d x, t.components.get? d = some x → ¬ R d →
    ∃ x', t'.components.get? d = some x' ∧ x'.still = x.still
  ports : ∀ p y, t.ports.get? p = some y → ¬ R y.owner →
    ∃ y', t'.ports.get? p = some y' ∧ y'.still = y.still
  exits : ∀ e y, t.exits.get? e = some y → ¬ R y.owner → t'.exits.get? e = some y
  buses : ∀ b z y, t.buses.get? b = some z → t.exits.get? z.owner = some y → ¬ R y.owner →
    ∃ z', t'.buses.get? b = some z' ∧ z'.still = z.still

variable {R R' : ComponentId → Prop} {pins : Nat} {n t t' t'' : Netlist}

theorem Spares.refl (R : ComponentId → Prop) (t : Netlist) : Spares R t t where
  components _ x hx _ := ⟨x, hx, rfl⟩
  ports _ y hy _ := ⟨y, hy, rfl⟩
  exits _ _ hy _ := hy
  buses _ z _ hz _ _ := ⟨z, hz, rfl⟩

theorem Spares.trans (h : Spares R t t') (h' : Spares R t' t'') : Spares R t t'' where
  components d x hx hd := by
    obtain ⟨x', hx', heq⟩ := h.components d x hx hd
    obtain ⟨x'', hx'', heq'⟩ := h'.components d x' hx' hd
    exact ⟨x'', hx'', heq'.trans heq⟩
  ports p y hy hp := by
    obtain ⟨y', hy', heq⟩ := h.ports p y hy hp
    have howner : y'.owner = y.owner := (congrArg Port.owner heq :)
    obtain ⟨y'', hy'', heq'⟩ := h'.ports p y' hy' (howner ▸ hp)
    exact ⟨y'', hy'', heq'.trans heq⟩
  exits e y hy he := h'.exits e y (h.exits e y hy he) he
  buses b z y hz hy hb := by
    obtain ⟨z', hz', heq⟩ := h.buses b z y hz hy hb
    have howner : z'.owner = z.owner := (congrArg Bus.owner heq :)
    obtain ⟨z'', hz'', heq'⟩ := h'.buses b z' y hz' (howner ▸ h.exits _ y hy hb) hb
    exact ⟨z'', hz'', heq'.trans heq⟩

theorem Spares.mono (h : Spares R t t') (hR : ∀ d, R d → R' d) : Spares R' t t' where
  components d x hx hd := h.components d x hx fun hr => hd (hR d hr)
  ports p y hy hp := h.ports p y hy fun hr => hp (hR _ hr)
  exits e y hy he := h.exits e y hy fun hr => he (hR _ hr)
  buses b z y hz hy hb := h.buses b z y hz hy fun hr => hb (hR _ hr)

theorem Spares.of_keeps (h : t.Keeps t') (R : ComponentId → Prop) : Spares R t t' where
  components d x hx _ := ⟨x, (h.components.get? d (Arena.lt_of_get? hx)).trans hx, rfl⟩
  ports p y hy _ := ⟨y, (h.ports.get? p (Arena.lt_of_get? hy)).trans hy, rfl⟩
  exits e _ hy _ := (h.exits.get? e (Arena.lt_of_get? hy)).trans hy
  buses b z _ hz _ _ := ⟨z, (h.buses.get? b (Arena.lt_of_get? hz)).trans hz, rfl⟩

/-- The port is one that a component in `R` has. -/
def PortOf (n : Netlist) (R : ComponentId → Prop) (p : PortId) : Prop :=
  ∃ d x, R d ∧ n.components.get? d = some x ∧ p ∈ x.ports

def ExitOf (n : Netlist) (R : ComponentId → Prop) (e : ExitId) : Prop :=
  ∃ d x, R d ∧ n.components.get? d = some x ∧ e ∈ x.exits.values

def BusOf (n : Netlist) (R : ComponentId → Prop) (b : BusId) : Prop :=
  ∃ e y, ExitOf n R e ∧ n.exits.get? e = some y ∧ b ∈ y.buses

/-- The correspondence learns about components in `R` only, and about the terminals that they have. -/
structure Correspondence.Extends (n : Netlist) (R : ComponentId → Prop) (map map' : Correspondence) :
    Prop where
  grows : ∀ d d', map.components.find? d = some d' → map'.components.find? d = some d'
  components : ∀ d, ¬ R d → map'.components.find? d = map.components.find? d
  ports : ∀ p, ¬ PortOf n R p → map'.ports[p]? = map.ports[p]?
  exits : ∀ e, ¬ ExitOf n R e → map'.exits[e]? = map.exits[e]?
  buses : ∀ b, ¬ BusOf n R b → map'.buses[b]? = map.buses[b]?
  keys : map.components.keys.Nodup → map'.components.keys.Nodup

section

variable {d : ComponentId} {x : Component} {e : ExitId} {y : Exit} (hn : Linked pins {} n)
  (hx : n.components.get? d = some x) (hR : ¬ R d)

include hn hx hR

/-- No component has a port of another one. -/
theorem Linked.not_portOf {p : PortId} (hp : p ∈ x.ports) : ¬ PortOf n R p := by
  rintro ⟨d', x', hd', hx', hp'⟩
  have hl := hn.components d x hx (Nat.zero_le _)
  obtain ⟨v, hv⟩ := Arena.exists_get? ((Component.forall_refs.mp hl.refs).2.1 p hp).2
  have howner := (hn.components d' x' hx' (Nat.zero_le _)).ports p hp' v hv
  exact hR ((hl.ports p hp v hv).symm.trans howner ▸ hd')

theorem Linked.not_exitOf (he : e ∈ x.exits.values) (hy : n.exits.get? e = some y) :
    ¬ ExitOf n R e := by
  rintro ⟨d', x', hd', hx', he'⟩
  have howner := hn.owner_of_listed hx (Nat.zero_le _) he hy
  exact hR (howner.symm.trans (hn.owner_of_listed hx' (Nat.zero_le _) he' hy) ▸ hd')

theorem Linked.not_busOf {b : BusId} {z : Bus} (he : e ∈ x.exits.values)
    (hy : n.exits.get? e = some y) (hb : b ∈ y.buses) (hz : n.buses.get? b = some z) :
    ¬ BusOf n R b := by
  rintro ⟨e', y', he', hy', hb'⟩
  obtain rfl : e = e' := ((hn.exits e y hy (Nat.zero_le _)).buses b hb z hz).symm.trans
    ((hn.exits e' y' hy' (Nat.zero_le _)).buses b hb' z hz)
  exact hn.not_exitOf hx hR he hy he'

end

section

variable (hR : ∀ d, R d → R' d)

include hR

theorem PortOf.mono {p : PortId} (h : PortOf n R p) : PortOf n R' p := by
  obtain ⟨d, x, hd, hx⟩ := h
  exact ⟨d, x, hR d hd, hx⟩

theorem ExitOf.mono {e : ExitId} (h : ExitOf n R e) : ExitOf n R' e := by
  obtain ⟨d, x, hd, hx⟩ := h
  exact ⟨d, x, hR d hd, hx⟩

theorem BusOf.mono {b : BusId} (h : BusOf n R b) : BusOf n R' b := by
  obtain ⟨e, y, he, hy⟩ := h
  exact ⟨e, y, he.mono hR, hy⟩

end

namespace Correspondence.Extends

variable {map map' map'' : Correspondence}

theorem refl (n : Netlist) (R : ComponentId → Prop) (map : Correspondence) : Extends n R map map :=
  ⟨fun _ _ h => h, fun _ _ => rfl, fun _ _ => rfl, fun _ _ => rfl, fun _ _ => rfl, fun h => h⟩

theorem trans (h : Extends n R map map') (h' : Extends n R map' map'') : Extends n R map map'' where
  grows d d' hd := h'.grows d d' (h.grows d d' hd)
  components d hd := (h'.components d hd).trans (h.components d hd)
  ports p hp := (h'.ports p hp).trans (h.ports p hp)
  exits e he := (h'.exits e he).trans (h.exits e he)
  buses b hb := (h'.buses b hb).trans (h.buses b hb)
  keys hnodup := h'.keys (h.keys hnodup)

theorem mono (h : Extends n R map map') (hR : ∀ d, R d → R' d) : Extends n R' map map' where
  grows := h.grows
  components d hd := h.components d fun hr => hd (hR d hr)
  ports p hp := h.ports p fun hr => hp (hr.mono hR)
  exits e he := h.exits e fun hr => he (hr.mono hR)
  buses b hb := h.buses b fun hr => hb (hr.mono hR)
  keys := h.keys

/-- Nothing is said about entries. -/
theorem withEntries (h : Extends n R map map') (k : Std.HashMap EntryId EntryId) :
    Extends n R map { map' with entries := k } :=
  ⟨h.grows, h.components, h.ports, h.exits, h.buses, h.keys⟩

end Correspondence.Extends

/-! ### Twins -/

/-- Two ports with the same name, signal, role and mark. -/
def PortTwin (n t : Netlist) (map : Correspondence) (p p' : PortId) : Prop :=
  map.ports[p]? = some p' ∧ ∃ y y', n.ports.get? p = some y ∧ t.ports.get? p' = some y' ∧
    y'.name = y.name ∧ y'.signal = y.signal ∧ y'.role = y.role ∧ y'.sideband = y.sideband

def BusTwin (n t : Netlist) (map : Correspondence) (b b' : BusId) : Prop :=
  map.buses[b]? = some b' ∧ ∃ z z', n.buses.get? b = some z ∧ t.buses.get? b' = some z' ∧
    z'.name = z.name ∧ z'.signal = z.signal ∧ z'.role = z.role ∧ z'.sideband = z.sideband

/-- Two exits with the same tag, whose buses are twins one by one. -/
def ExitTwin (n t : Netlist) (map : Correspondence) (e e' : ExitId) : Prop :=
  map.exits[e]? = some e' ∧ ∃ y y', n.exits.get? e = some y ∧ t.exits.get? e' = some y' ∧
    y'.tag = y.tag ∧ List.Forall₂ (BusTwin n t map) y.buses y'.buses

/-- Two components whose terminals are twins one by one. -/
structure TerminalTwin (n t : Netlist) (map : Correspondence) (x x' : Component) : Prop where
  ports : List.Forall₂ (PortTwin n t map) x.ports x'.ports
  exits : List.Forall₂ (fun a b => a.1 = b.1 ∧ ExitTwin n t map a.2 b.2) x.exits.entries
    x'.exits.entries

/-- The same kind, but that the copy of a task calls the copy of its body. -/
def KindTwin (map : Correspondence) : ComponentKind → ComponentKind → Prop
  | .module (.task body), kind' =>
    ∃ body', map.components.find? body = some body' ∧ kind' = .module (.task body')
  | kind, kind' => kind' = kind

structure InteriorTwin (map : Correspondence) (i i' : Interior) : Prop where
  inBuf : map.components.find? i.inBuf = some i'.inBuf
  children : List.Forall₂ (fun d d' => map.components.find? d = some d') i.children i'.children
  feedback : ∀ d ∈ i.feedback, ∃ d' ∈ i'.feedback, map.components.find? d = some d'
  noMore : ∀ d' ∈ i'.feedback, ∃ d ∈ i.feedback, map.components.find? d = some d'

/-- The OutBufs of two exits correspond. -/
def PeerTwin (n t : Netlist) (map : Correspondence) (e e' : ExitId) : Prop :=
  ∃ y y', n.exits.get? e = some y ∧ t.exits.get? e' = some y' ∧
    Option.Rel (fun o o' => map.components.find? o = some o') y.peer y'.peer

/-- Two exits with the same latency. -/
def LatencyTwin (n t : Netlist) (e e' : ExitId) : Prop :=
  ∃ y y', n.exits.get? e = some y ∧ t.exits.get? e' = some y' ∧ y'.latency = y.latency

structure FlagTwin (x x' : Component) : Prop where
  consumesClock : x'.consumesClock = x.consumesClock
  consumesReset : x'.consumesReset = x.consumesReset
  consumesGo : x'.consumesGo = x.consumesGo
  producesDone : x'.producesDone = x.producesDone
  doneSynchronous : x'.doneSynchronous = x.doneSynchronous

/-- A component and its copy.  What a buffer says about itself depends on its module. -/
structure Twin (n t : Netlist) (map : Correspondence) (x x' : Component) : Prop
    extends TerminalTwin n t map x x' where
  kind : KindTwin map x.kind x'.kind
  flags : x.kind.isBuffer = false → FlagTwin x x'
  latencies : x.kind.isBuffer = false →
    List.Forall₂ (fun a b => LatencyTwin n t a.2 b.2) x.exits.entries x'.exits.entries
  interior : Option.Rel (InteriorTwin map) x.interior x'.interior
  peers : List.Forall₂ (fun a b => PeerTwin n t map a.2 b.2) x.exits.entries x'.exits.entries

/-! ### Twins stay twins -/

section

variable {map map' : Correspondence} {d d' : ComponentId} {x x' : Component}

variable (hg : ∀ d d', map.components.find? d = some d' → map'.components.find? d = some d')

include hg

theorem KindTwin.mono {kind kind' : ComponentKind} (h : KindTwin map kind kind') :
    KindTwin map' kind kind' := by
  unfold KindTwin at h ⊢
  split at h
  · obtain ⟨body', hbody, hkind⟩ := h
    exact ⟨body', hg _ _ hbody, hkind⟩
  · exact h

theorem InteriorTwin.mono {i i' : Interior} (h : InteriorTwin map i i') :
    InteriorTwin map' i i' where
  inBuf := hg _ _ h.inBuf
  children := h.children.imp fun d d' hd => hg d d' hd
  feedback d hd := by
    obtain ⟨d', hd', hfind⟩ := h.feedback d hd
    exact ⟨d', hd', hg d d' hfind⟩
  noMore d' hd' := by
    obtain ⟨d, hd, hfind⟩ := h.noMore d' hd'
    exact ⟨d, hd, hg d d' hfind⟩

end

/-- A component of `n`, and a copy of it in `t` that `n` has not. -/
structure Copied (n t : Netlist) (map : Correspondence) (d d' : ComponentId) : Prop where
  new : Ref.New n t (.component d')
  twin : ∃ x x', n.components.get? d = some x ∧ t.components.get? d' = some x' ∧
    Twin n t map x x'

section

variable {map map' : Correspondence} {d d' : ComponentId} {x x' : Component}

variable (hn : Linked pins {} n) (ht : Linked pins n t) (hs : Spares R' t t') (hR' : ¬ R' d')
  (he : Correspondence.Extends n R map map') (hR : ¬ R d) (hx : n.components.get? d = some x)
  (hx' : t.components.get? d' = some x') (hnew : n.components.size ≤ d'.index)

include hn ht hs hR' he hR hx hx' hnew

theorem PortTwin.mono {p p' : PortId} (h : PortTwin n t map p p') (hp : p ∈ x.ports)
    (hp' : p' ∈ x'.ports) : PortTwin n t' map' p p' := by
  obtain ⟨hmap, y, y', hy, hy', hname, hsignal, hrole, hside⟩ := h
  have howner' : y'.owner = d' := (ht.components d' x' hx' hnew).ports p' hp' y' hy'
  obtain ⟨z, hz, hstill⟩ := hs.ports p' y' hy' (howner' ▸ hR')
  refine ⟨(he.ports p (hn.not_portOf hx hR hp)).trans hmap, y, z, hy, hz, ?_, ?_, ?_, ?_⟩
  · exact (congrArg Port.name hstill :).trans hname
  · exact (congrArg Port.signal hstill :).trans hsignal
  · exact (congrArg Port.role hstill :).trans hrole
  · exact (congrArg Port.sideband hstill :).trans hside

theorem ExitTwin.mono {e e' : ExitId} (h : ExitTwin n t map e e') (hmem : e ∈ x.exits.values)
    (hmem' : e' ∈ x'.exits.values) : ExitTwin n t' map' e e' := by
  obtain ⟨hmap, y, y', hy, hy', htag, hbuses⟩ := h
  have howner' := ht.owner_of_listed hx' hnew hmem' hy'
  have hnew' := ht.exit_new hx' hnew hmem'
  refine ⟨(he.exits e (hn.not_exitOf hx hR hmem hy)).trans hmap, y, y', hy,
    hs.exits e' y' hy' (howner' ▸ hR'),
    htag, ?_⟩
  refine forall₂_imp_mem hbuses fun b hb b' hb' hbus => ?_
  obtain ⟨hmapb, z, z', hz, hz', hname, hsignal, hrole, hside⟩ := hbus
  have hbowner' : z'.owner = e' := (ht.exits e' y' hy' hnew'.1).buses b' hb' z' hz'
  obtain ⟨w, hw, hstill⟩ := hs.buses b' z' y' hz' (hbowner' ▸ hy') (howner' ▸ hR')
  refine ⟨(he.buses b (hn.not_busOf hx hR hmem hy hb hz)).trans hmapb, z, w, hz, hw, ?_, ?_, ?_, ?_⟩
  · exact (congrArg Bus.name hstill :).trans hname
  · exact (congrArg Bus.signal hstill :).trans hsignal
  · exact (congrArg Bus.role hstill :).trans hrole
  · exact (congrArg Bus.sideband hstill :).trans hside

theorem TerminalTwin.mono (h : TerminalTwin n t map x x') : TerminalTwin n t' map' x x' where
  ports := forall₂_imp_mem h.ports fun _ hp _ hp' hport =>
    hport.mono hn ht hs hR' he hR hx hx' hnew hp hp'
  exits := forall₂_imp_mem h.exits fun a ha b hb hexit =>
    ⟨hexit.1, hexit.2.mono hn ht hs hR' he hR hx hx' hnew
      (OrderedMap.mem_values.mpr ⟨a, ha, rfl⟩) (OrderedMap.mem_values.mpr ⟨b, hb, rfl⟩)⟩

omit hn hR hx in
theorem PeerTwin.mono {e e' : ExitId} (h : PeerTwin n t map e e') (hmem' : e' ∈ x'.exits.values) :
    PeerTwin n t' map' e e' := by
  obtain ⟨y, y', hy, hy', hrel⟩ := h
  have howner' := ht.owner_of_listed hx' hnew hmem' hy'
  exact ⟨y, y', hy, hs.exits e' y' hy' (howner' ▸ hR'), rel_imp hrel fun o o' ho => he.grows o o' ho⟩

omit hn he hR hx in
theorem LatencyTwin.mono {e e' : ExitId} (h : LatencyTwin n t e e') (hmem' : e' ∈ x'.exits.values) :
    LatencyTwin n t' e e' := by
  obtain ⟨y, y', hy, hy', heq⟩ := h
  have howner' := ht.owner_of_listed hx' hnew hmem' hy'
  exact ⟨y, y', hy, hs.exits e' y' hy' (howner' ▸ hR'), heq⟩

end

/-- A copy that is spared stays one. -/
theorem Copied.mono {map map' : Correspondence} {d d' : ComponentId} (h : Copied n t map d d')
    (hn : Linked pins {} n) (ht : Linked pins n t) (hgrows : t.Grows t') (hs : Spares R' t t')
    (hR' : ¬ R' d') (he : Correspondence.Extends n R map map') (hR : ¬ R d) :
    Copied n t' map' d d' := by
  obtain ⟨hnew, x, x', hx, hx', htwin⟩ := h
  obtain ⟨w, hw, hstill⟩ := hs.components d' x' hx' hR'
  refine ⟨hnew.mono hgrows, x, w, hx, hw, ?_⟩
  have hports : w.ports = x'.ports := (congrArg Component.ports hstill :)
  have hexits : w.exits = x'.exits := (congrArg Component.exits hstill :)
  have hterminals := htwin.toTerminalTwin.mono hn ht hs hR' he hR hx hx' hnew.1
  refine ⟨⟨hports ▸ hterminals.ports, hexits ▸ hterminals.exits⟩, ?_, fun hbuf => ?_,
    fun hbuf => ?_, ?_, ?_⟩
  · rw [show w.kind = x'.kind from (congrArg Component.kind hstill :)]
    exact htwin.kind.mono he.grows
  · have hflags := htwin.flags hbuf
    exact ⟨(congrArg Component.consumesClock hstill :).trans hflags.consumesClock,
      (congrArg Component.consumesReset hstill :).trans hflags.consumesReset,
      (congrArg Component.consumesGo hstill :).trans hflags.consumesGo,
      (congrArg Component.producesDone hstill :).trans hflags.producesDone,
      (congrArg Component.doneSynchronous hstill :).trans hflags.doneSynchronous⟩
  · rw [hexits]
    refine forall₂_imp_mem (htwin.latencies hbuf) fun a _ b hb hlatency => ?_
    exact hlatency.mono ht hs hR' hx' hnew.1 (OrderedMap.mem_values.mpr ⟨b, hb, rfl⟩)
  · rw [show w.interior = x'.interior from (congrArg Component.interior hstill :)]
    exact rel_imp htwin.interior fun _ _ hi => hi.mono he.grows
  · rw [hexits]
    refine forall₂_imp_mem htwin.peers fun a _ b hb hpeer => ?_
    exact hpeer.mono ht hs hR' he hx' hnew.1 (OrderedMap.mem_values.mpr ⟨b, hb, rfl⟩)

end DataflowSynth.Netlist
