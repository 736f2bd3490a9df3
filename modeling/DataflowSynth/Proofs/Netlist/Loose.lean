/-
Making terminals, components and modules keeps links.

Here only links are watched, so that the steps may be aimed at any component, buffers included.
-/
import DataflowSynth.Proofs.Netlist.Changes

namespace DataflowSynth.Netlist

open Build

variable {S : Scope} {K : List Fact} {pins : Nat} {base n n' : Netlist}

/-! ### Links of new terminals -/

/-- A component is given a port. -/
theorem Linked.withPort (h : Linked pins base n) {c : ComponentId}
    (hc : Ref.New base n (.component c)) {y : Port} (howner : y.owner = c) (hbus : y.bus = none)
    (hpeer : y.peer = none) {f : Component → Component}
    (hf : ∀ x, (f x).kind = x.kind ∧ (f x).owner = x.owner ∧ (f x).exits = x.exits ∧
      (f x).entries = x.entries ∧ (f x).interior = x.interior ∧
      ∀ p ∈ (f x).ports, p ∈ x.ports ∨ p = n.ports.next) :
    Linked pins base (n.withPort c y f) := by
  have hpushed := h.pushPort hbus
    (Port.forall_refs.mpr ⟨howner ▸ hc, by simp [hbus], by simp [hpeer]⟩)
  refine hpushed.modifyComponent hc.1 fun x hx hl => ?_
  obtain ⟨hkind, hown, hexits, hentries, hinterior, hports⟩ := hf x
  obtain ⟨howner', hports', hexits', hentries', hinterior'⟩ := Component.forall_refs.mp hl.refs
  refine ⟨Component.forall_refs.mpr ⟨hown ▸ howner', fun p hp => ?_, hexits ▸ hexits',
    hentries ▸ hentries', hinterior ▸ hinterior'⟩, hkind ▸ hl.kind, fun p hp z hz => ?_,
    hexits ▸ hl.exits, hentries ▸ hl.entries⟩
  · rcases hports p hp with hp | rfl
    · exact hports' p hp
    · exact ⟨h.keeps.ports.size, by simp⟩
  · rcases hports p hp with hp | rfl
    · exact hl.ports p hp z hz
    · rw [Arena.get?_push_next] at hz
      cases hz
      exact howner

/-- An exit is given a bus. -/
theorem Linked.withBus (h : Linked pins base n) {e : ExitId} (he : Ref.New base n (.exit e))
    {z : Bus} (howner : z.owner = e) (hports : z.ports = []) (hpeer : z.peer = none)
    {g : Exit → Exit} (hg : ∀ y, (g y).owner = y.owner ∧ (g y).tag = y.tag ∧ (g y).peer = y.peer ∧
      ∀ b ∈ (g y).buses, b ∈ y.buses ∨ b = n.buses.next) :
    Linked pins base { n with buses := n.buses.push z, exits := n.exits.modify e g } := by
  have hpushed := h.pushBus hports
    (Bus.forall_refs.mpr ⟨howner ▸ he, by simp [hports], by simp [hpeer]⟩)
  refine hpushed.modifyExit he.1 fun y hy => ?_
  obtain ⟨hown, htag, hpeer', hbuses⟩ := hg y
  refine ⟨hown, htag, fun hl => ?_⟩
  obtain ⟨howner', hbuses', hpeers⟩ := Exit.forall_refs.mp hl.refs
  refine ⟨Exit.forall_refs.mpr ⟨hown ▸ howner', fun b hb => ?_, hpeer' ▸ hpeers⟩,
    fun b hb w hw => ?_⟩
  · rcases hbuses b hb with hb | rfl
    · exact hbuses' b hb
    · exact ⟨h.keeps.buses.size, by simp⟩
  · rcases hbuses b hb with hb | rfl
    · exact hl.buses b hb w hw
    · rw [Arena.get?_push_next] at hw
      cases hw
      exact howner

theorem Linked.withDataPort (h : Linked pins base n) {c : ComponentId}
    (hc : Ref.New base n (.component c)) (name : String) :
    Linked pins base (n.withDataPort c name) := by
  refine h.withPort hc rfl rfl rfl fun x => ⟨rfl, rfl, rfl, rfl, rfl, fun p hp => ?_⟩
  simp only [Component.ports, List.mem_append, List.mem_singleton] at hp ⊢
  rcases hp with hp | hp | hp
  · exact .inl (.inl hp)
  · exact .inl (.inr hp)
  · exact .inr hp

theorem Linked.withThisPort (h : Linked pins base n) {c : ComponentId}
    (hc : Ref.New base n (.component c)) : Linked pins base (n.withThisPort c) := by
  refine h.withPort hc rfl rfl rfl fun x => ⟨rfl, rfl, rfl, rfl, rfl, fun p hp => ?_⟩
  simp only [Component.ports, List.mem_append, Option.toList_some, List.mem_singleton] at hp ⊢
  rcases hp with (hp | hp) | hp
  · exact .inl (.inl (.inl hp))
  · exact .inr hp
  · exact .inl (.inr hp)

theorem Linked.withDataBus (h : Linked pins base n) {e : ExitId} (he : Ref.New base n (.exit e))
    (name : String) : Linked pins base (n.withDataBus e name) := by
  refine h.withBus he rfl rfl rfl fun y => ⟨rfl, rfl, rfl, fun b hb => ?_⟩
  simp only [Exit.buses, List.cons_append, List.mem_cons, List.mem_append,
    List.not_mem_nil, or_false] at hb ⊢
  rcases hb with hb | (hb | hb) | hb
  · exact .inl (.inl hb)
  · exact .inl (.inr (.inl hb))
  · exact .inr hb
  · exact .inl (.inr (.inr hb))

theorem Linked.withControlBus (h : Linked pins base n) {e : ExitId}
    (he : Ref.New base n (.exit e)) (control : Control) :
    Linked pins base (n.withControlBus e control) := by
  refine h.withBus he rfl rfl rfl fun y => ⟨rfl, rfl, rfl, fun b hb => ?_⟩
  simp only [Exit.buses, List.cons_append, List.mem_cons, List.mem_append,
    List.not_mem_nil, or_false] at hb ⊢
  rcases hb with hb | hb | hb | hb
  · exact .inl (.inl hb)
  · exact .inl (.inr (.inl hb))
  · exact .inl (.inr (.inr hb))
  · exact .inr hb

theorem Linked.paired (h : Linked pins base n) {p : PortId} {b : BusId}
    (hp : Ref.New base n (.port p)) (hb : Ref.New base n (.bus b)) :
    Linked pins base (n.paired p b) := by
  have hpair : Linked pins base (n.withPair p b) := by
    have hport := h.modifyPort hp.1 (f := fun y => { y with peer := some b })
      fun y _ => ⟨rfl, rfl, fun d hd => .inr (Option.some.inj hd ▸ hb)⟩
    refine hport.modifyBus hb.1 fun z _ => ⟨rfl, rfl, fun q hq => .inr ?_⟩
    obtain rfl := Option.some.inj hq
    exact ⟨hp.1, by simpa using hp.2⟩
  unfold Netlist.paired
  split
  · exact hpair.modifyBus hb.1 fun z _ => ⟨rfl, rfl, fun q hq => .inl hq⟩
  · exact hpair.modifyPort hp.1 fun y _ => ⟨rfl, rfl, fun d hd => .inl hd⟩
  · exact hpair

/-! ### Steps on terminals -/

/-- Only links are watched. -/
structure Scope.Loose (S : Scope) : Prop where
  loose : ¬ S.strict
  loud : ¬ S.quiet
  unwatched : S.Open

theorem Scope.Loose.evolves (hS : S.Loose) (hg : n.Grows n')
    (hkinds : ∀ c x', c.index < n.components.size → n'.components.get? c = some x' →
      ∃ x, n.components.get? c = some x ∧ x'.kind.plain = x.kind.plain)
    (howners : ∀ e y', e.index < n.exits.size → n'.exits.get? e = some y' →
      ∃ y, n.exits.get? e = some y ∧ y'.owner = y.owner) : S.Evolves n n' where
  grows := hg
  kinds := hkinds
  owners := howners
  buffers h := absurd h hS.loose
  shape h := absurd h hS.loud

theorem Scope.Loose.sound (hS : S.Loose) (h : Linked S.pins S.base n) : S.Sound n :=
  ⟨h, fun hs => absurd hs hS.loose, hS.unwatched n⟩

theorem kinds_modify {c : ComponentId} {f : Component → Component}
    (hf : ∀ x, (f x).kind.plain = x.kind.plain) (d : ComponentId) (x' : Component)
    (_ : d.index < n.components.size) (hx' : (n.components.modify c f).get? d = some x') :
    ∃ x, n.components.get? d = some x ∧ x'.kind.plain = x.kind.plain := by
  rcases Arena.get?_modify_cases hx' with ⟨rfl, x, hx, rfl⟩ | ⟨-, hx⟩
  · exact ⟨x, hx, hf x⟩
  · exact ⟨x', hx, rfl⟩

theorem owners_modify {e : ExitId} {g : Exit → Exit} (hg : ∀ y, (g y).owner = y.owner) (d : ExitId)
    (y' : Exit) (_ : d.index < n.exits.size) (hy' : (n.exits.modify e g).get? d = some y') :
    ∃ y, n.exits.get? d = some y ∧ y'.owner = y.owner := by
  rcases Arena.get?_modify_cases hy' with ⟨rfl, y, hy, rfl⟩ | ⟨-, hy⟩
  · exact ⟨y, hy, hg y⟩
  · exact ⟨y', hy, rfl⟩

/-- What a kind names is there whenever the facts are known. -/
def ComponentKind.FitsIn (S : Scope) (K : List Fact) (kind : ComponentKind) : Prop :=
  ∀ n, S.Knows K n → kind.Fits S.pins n

theorem ComponentKind.fitsIn_of_none {kind : ComponentKind} (hc : kind.components = [])
    (hp : kind.pins = []) : kind.FitsIn S K :=
  fun _ _ => ⟨by simp [hc], by simp [hp]⟩

theorem ComponentKind.fitsIn_of_mem {kind : ComponentKind} (h : .fits kind ∈ K) :
    kind.FitsIn S K := fun _ hn => hn.facts _ h

section

variable (hS : S.Loose)

include hS

theorem loose_changeComponent {c : ComponentId} {f : Component → Component}
    (hc : .has (.component c) ∈ K)
    (hlinked : ∀ n x, S.Knows K n → n.components.get? c = some x →
      ComponentLinked S.pins S.base n c x → ComponentLinked S.pins S.base n c (f x))
    (hkind : ∀ x, (f x).kind.plain = x.kind.plain) :
    Safe S K (changeComponent c f) fun _ => [] := by
  intro s hs
  have hnew := hs.facts _ hc
  rw [wp_changeComponent hnew.2]
  refine ⟨⟨hS.sound ?_, by simp⟩, hS.evolves ?_ (kinds_modify hkind) fun _ y _ hy => ⟨y, hy, rfl⟩⟩
  · exact hs.sound.linked.modifyComponent hnew.1 fun x hx => hlinked _ x hs hx
  · refine { Grows.refl s.state with components := ?_ }
    simp

theorem loose_changeExit {e : ExitId} {f : Exit → Exit} (he : .has (.exit e) ∈ K)
    (hf : ∀ n y, S.Knows K n → n.exits.get? e = some y → (f y).owner = y.owner ∧
      (f y).tag = y.tag ∧ (ExitLinked S.base n e y → ExitLinked S.base n e (f y)))
    (howner : ∀ y, (f y).owner = y.owner) : Safe S K (changeExit e f) fun _ => [] := by
  intro s hs
  have hnew := hs.facts _ he
  rw [wp_changeExit hnew.2]
  refine ⟨⟨hS.sound ?_, by simp⟩, hS.evolves ?_ (fun _ x _ hx => ⟨x, hx, rfl⟩)
    (owners_modify howner)⟩
  · exact hs.sound.linked.modifyExit hnew.1 fun y hy => hf _ y hs hy
  · refine { Grows.refl s.state with exits := ?_ }
    simp

theorem loose_pair {p : PortId} {b : BusId} (hp : .has (.port p) ∈ K) (hb : .has (.bus b) ∈ K) :
    Safe S K (pair p b) fun _ => [] := by
  intro s hs
  have hport := hs.facts _ hp
  have hbus := hs.facts _ hb
  rw [wp_pair hport.2 hbus.2]
  refine ⟨⟨hS.sound (hs.sound.linked.paired hport hbus), by simp⟩, hS.evolves ?_ ?_ ?_⟩
  · refine ⟨?_, ?_, ?_, ?_, ?_⟩ <;> simp
  · simp only [state_moved, components_paired]
    exact fun _ x _ hx => ⟨x, hx, rfl⟩
  · simp only [state_moved, exits_paired]
    exact fun _ y _ hy => ⟨y, hy, rfl⟩

theorem loose_makeDataBus {e : ExitId} (he : .has (.exit e) ∈ K) (name : String) :
    Safe S K (makeDataBus e name) fun b => [.has (.bus b)] := by
  intro s hs
  have hnew := hs.facts _ he
  obtain ⟨y, hy⟩ := Arena.exists_get? hnew.2
  have hlinked := hs.sound.linked.withDataBus hnew name
  have hbus : Ref.New S.base (s.state.withDataBus e name) (.bus s.state.buses.next) :=
    ⟨hs.sound.linked.keeps.buses.size, by simp [withDataBus]⟩
  cases hpeer : y.peer with
  | none =>
      rw [wp_makeDataBus hy hpeer]
      refine ⟨⟨hS.sound hlinked, by simpa using hbus⟩, hS.evolves ?_ (fun _ x _ hx => ⟨x, hx, rfl⟩)
        (owners_modify fun _ => rfl)⟩
      refine { Grows.refl s.state with buses := ?_, exits := ?_ } <;> simp [withDataBus]
  | some o =>
      have ho := (Exit.forall_refs.mp (hs.sound.linked.exits e y hy hnew.1).refs).2.2 o hpeer
      obtain ⟨x, hx⟩ := Arena.exists_get? ho.2
      rw [wp_makeDataBus_outBuf hy hpeer hx]
      have hport : Ref.New S.base ((s.state.withDataBus e name).withDataPort o name)
          (.port s.state.ports.next) :=
        ⟨hs.sound.linked.keeps.ports.size, by simp [withDataBus, withDataPort]⟩
      have hpaired := (hlinked.withDataPort ho name).paired hport hbus
      refine ⟨⟨hS.sound hpaired, ?_⟩, hS.evolves ?_ ?_ ?_⟩
      · simp only [List.mem_singleton, forall_eq]
        exact ⟨hbus.1, by simp [withDataBus, withDataPort]⟩
      · refine ⟨?_, ?_, ?_, ?_, ?_⟩ <;> simp [withDataBus, withDataPort]
      · simp only [state_moved, components_paired]
        exact kinds_modify fun _ => rfl
      · simp only [state_moved, exits_paired]
        exact owners_modify fun _ => rfl

theorem loose_makeControlBus {e : ExitId} (he : .has (.exit e) ∈ K) (control : Control) :
    Safe S K (makeControlBus e control) fun b => [.has (.bus b)] := by
  intro s hs
  have hnew := hs.facts _ he
  rw [wp_makeControlBus hnew.2]
  refine ⟨⟨hS.sound (hs.sound.linked.withControlBus hnew control), ?_⟩,
    hS.evolves ?_ (fun _ x _ hx => ⟨x, hx, rfl⟩) (owners_modify fun _ => rfl)⟩
  · simp only [List.mem_singleton, forall_eq]
    exact ⟨hs.sound.linked.keeps.buses.size, by simp [withControlBus]⟩
  · refine { Grows.refl s.state with buses := ?_, exits := ?_ } <;> simp [withControlBus]

theorem loose_makeDataPort {c : ComponentId} (hc : .has (.component c) ∈ K) (name : String) :
    Safe S K (makeDataPort c name) fun p => [.has (.port p)] := by
  intro s hs
  have hnew := hs.facts _ hc
  rw [makeDataPort, wp_bind, wp_addPort, wp_bind]
  refine Iff.mpr (wp_changeComponent hnew.2) ?_
  change wp _ _ _ (moved s (s.state.withDataPort c name))
  refine Safe.resume (K := [.has (.component c), .has (.port s.state.ports.next)]) ?_ ?_ ?_
  · refine .bind (safe_component (by simp)) fun x => ?_
    cases hi : x.interior with
    | none => exact .pure (by simp)
    | some i =>
        refine .bind (safe_mainExit (by simp [hi])) fun e => .bind
          (loose_makeDataBus hS (by simp) name) fun b => .bind (loose_pair hS (by simp) (by simp))
          fun _ => .pure (by simp)
  · refine ⟨hS.sound (hs.sound.linked.withDataPort hnew name), ?_⟩
    simp only [List.mem_cons, List.not_mem_nil, or_false, forall_eq_or_imp, forall_eq]
    exact ⟨⟨hnew.1, by simpa [withDataPort] using hnew.2⟩, hs.sound.linked.keeps.ports.size,
      by simp [withDataPort]⟩
  · refine hS.evolves ?_ (kinds_modify fun _ => rfl) fun _ y _ hy => ⟨y, hy, rfl⟩
    refine { Grows.refl s.state with components := ?_, ports := ?_ } <;> simp [withDataPort]

theorem loose_makeThisPort {c : ComponentId} (hc : .has (.component c) ∈ K) :
    Safe S K (makeThisPort c) fun p => [.has (.port p)] := by
  intro s hs
  have hnew := hs.facts _ hc
  obtain ⟨x, hx⟩ := Arena.exists_get? hnew.2
  rw [makeThisPort, wp_bind, wp_component hx]
  cases hthis : x.this with
  | some p =>
      refine ⟨⟨hs.sound, ?_⟩, .refl S _⟩
      simp only [List.mem_singleton, forall_eq]
      exact (hs.sound.linked.components c x hx hnew.1).refs (.port p)
        (by simp [Component.mem_ports_of_this hthis])
  | none =>
      rw [wp_bind, wp_addPort, wp_bind]
      refine Iff.mpr (wp_changeComponent hnew.2) ?_
      change wp _ _ _ (moved s (s.state.withThisPort c))
      refine Safe.resume (K := [.has (.component c), .has (.port s.state.ports.next)]) ?_ ?_ ?_
      · refine .bind (safe_component (by simp)) fun x => ?_
        cases hi : x.interior with
        | none => exact .pure (by simp)
        | some i =>
            refine .bind (safe_mainExit (by simp [hi])) fun e => .bind
              (loose_makeControlBus hS (by simp) .this) fun b =>
              .bind (loose_pair hS (by simp) (by simp)) fun _ => .pure (by simp)
      · refine ⟨hS.sound (hs.sound.linked.withThisPort hnew), ?_⟩
        simp only [List.mem_cons, List.not_mem_nil, or_false, forall_eq_or_imp, forall_eq]
        exact ⟨⟨hnew.1, by simpa [withThisPort, withPort] using hnew.2⟩,
          hs.sound.linked.keeps.ports.size, by simp [withThisPort, withPort]⟩
      · refine hS.evolves ?_ (kinds_modify fun _ => rfl) fun _ y _ hy => ⟨y, hy, rfl⟩
        refine { Grows.refl s.state with components := ?_, ports := ?_ } <;>
          simp [withThisPort, withPort]

/-! ### Steps on components and exits -/

/-- What is known about a new component. -/
def newFacts (c : ComponentId) (kind : ComponentKind) : List Fact :=
  [.has (.component c), .plain c, .kinded c kind.plain]

theorem loose_newComponent {kind : ComponentKind} (hkind : kind.FitsIn S K) (stem : String)
    (data : Nat) : Safe S K (newComponent kind stem data) fun c => newFacts c kind := by
  intro s hs
  have hk := keeps_shelled s.state kind stem
  have hlinked := hs.sound.linked.withShell (hkind _ hs) (s.state.names.fresh stem).1
    (s.state.names.fresh stem).2
  have hnew : Ref.New S.base (s.state.shelled kind stem) (.component s.state.components.next) :=
    ⟨hs.sound.linked.keeps.components.size, by simp [components_shelled]⟩
  have hknows : S.Knows (newFacts s.state.components.next kind) (s.state.shelled kind stem) := by
    refine ⟨hS.sound hlinked, ?_⟩
    simp only [newFacts, List.mem_cons, List.not_mem_nil, or_false, forall_eq_or_imp, forall_eq]
    exact ⟨hnew, ⟨hnew, fun h => absurd h hS.loose⟩, _, get?_shelled_next _ _ _, rfl⟩
  rw [wp_newComponent]
  refine Safe.resume (P := fun _ => newFacts s.state.components.next kind)
    (K := newFacts s.state.components.next kind) ?_ hknows (.of_keeps hk hS.loud fun h => absurd h hS.loose)
  refine (Safe.forM fun name _ => Safe.discard ?_).weaken (fun _ h => h) fun _ _ h => h
  exact (loose_makeDataPort hS (by simp [newFacts]) name).weaken (fun _ h => h) (by simp)

theorem loose_setOwner {c o : ComponentId} (hc : .has (.component c) ∈ K)
    (ho : .has (.component o) ∈ K) :
    Safe S K (changeComponent c fun x => { x with owner := some o }) fun _ => [] := by
  refine loose_changeComponent hS hc (fun n x hn _ hl => ?_) fun _ => rfl
  obtain ⟨-, hports, hexits, hentries, hinterior⟩ := Component.forall_refs.mp hl.refs
  refine { hl with
    refs := Component.forall_refs.mpr ⟨fun d hd => ?_, hports, hexits, hentries, hinterior⟩ }
  exact Option.some.inj hd ▸ hn.facts _ ho

theorem loose_makeOutBuf {c : ComponentId} {e : ExitId} (hc : .has (.component c) ∈ K)
    (he : .has (.exit e) ∈ K) : Safe S K (makeOutBuf c e) fun _ => [] := by
  refine .bind (safe_component hc) fun x => .bind
    (loose_newComponent hS (ComponentKind.fitsIn_of_none rfl rfl) _ 0) fun o => .bind
    (loose_setOwner hS (by simp [newFacts]) (by simp [hc])) fun _ => .bind
    (safe_component (by simp [newFacts])) fun b => .bind (safe_exit (by simp [he])) fun y => .bind
    (loose_pair hS (by simp) (by simp)) fun _ => .bind (loose_changeExit hS (by simp [he]) ?_
    fun _ => rfl) fun _ => safe_mark (by simp [newFacts]) (fun _ => ⟨rfl, rfl, rfl, rfl, rfl⟩)
    (.inl hS.unwatched)
  intro n z hn _
  refine ⟨rfl, rfl, fun hl => ?_⟩
  obtain ⟨howner, hbuses, -⟩ := Exit.forall_refs.mp hl.refs
  refine ⟨Exit.forall_refs.mpr ⟨howner, hbuses, fun d hd => ?_⟩, hl.buses⟩
  exact hn.facts (.has (.component d)) (by simp [newFacts, Option.some.inj hd])

theorem loose_makeExit {c : ComponentId} (hc : .has (.component c) ∈ K) (data : Nat)
    (tag : ExitTag) :
    Safe S K (makeExit c data tag) fun e => [.has (.exit e), .plainExit e] := by
  intro s hs
  have hnew := hs.facts _ hc
  obtain ⟨x, hx⟩ := Arena.exists_get? hnew.2
  cases htag : x.exits.contains tag with
  | true => exact (wp_makeExit_taken hx htag data).mpr trivial
  | false =>
      rw [wp_makeExit_free hx htag, ← wp_bind]
      have hexit : Ref.New S.base (s.state.withExit c tag) (.exit s.state.exits.next) :=
        ⟨hs.sound.linked.keeps.exits.size, by simp [withExit]⟩
      refine Safe.resume
        (K := [.has (.component c), .has (.exit s.state.exits.next), .plainExit s.state.exits.next])
        (P := fun _ => [.has (.exit s.state.exits.next), .plainExit s.state.exits.next]) ?_ ?_ ?_
      · refine .bind (P := fun _ => []) ?_ fun _ =>
          (Safe.forM fun name _ => Safe.discard ?_).weaken (fun _ h => h) (by simp)
        · split
          · exact loose_makeOutBuf hS (by simp) (by simp)
          · exact .pure (by simp)
        · exact (loose_makeDataBus hS (by simp) name).weaken (fun _ h => h) (by simp)
      · refine ⟨hS.sound (hs.sound.linked.withExit hnew tag), ?_⟩
        simp only [List.mem_cons, List.not_mem_nil, or_false, forall_eq_or_imp, forall_eq]
        exact ⟨⟨hnew.1, by simpa [withExit] using hnew.2⟩, hexit, hexit, fun h => absurd h hS.loose⟩
      · refine hS.evolves ?_ (kinds_modify fun _ => rfl) fun e y hlt hy => ⟨y, ?_, rfl⟩
        · refine { Grows.refl s.state with components := ?_, buses := ?_, exits := ?_ } <;>
            simp [withExit]
        · exact ((Arena.Keeps.refl s.state.exits).push _).get? e hlt ▸ hy

/-! ### Steps on modules -/

theorem loose_makeInBuf {m : ComponentId} (hm : .has (.component m) ∈ K) :
    Safe S K (makeInBuf m) fun _ => [] := by
  refine .bind (safe_component hm) fun x => .bind
    (loose_newComponent hS (ComponentKind.fitsIn_of_none rfl rfl) _ 0) fun b => .bind
    (loose_setOwner hS (by simp [newFacts]) (by simp [hm])) fun _ => .bind
    (loose_makeExit hS (by simp [newFacts]) 0 .done) fun e => .bind
    (safe_exit (by simp)) fun y => .bind
    (loose_pair hS (by simp) (by simp)) fun _ => .bind
    (loose_makeControlBus hS (by simp) .clock) fun clock => .bind
    (loose_pair hS (by simp) (by simp)) fun _ => .bind
    (loose_makeControlBus hS (by simp) .reset) fun reset => .bind
    (loose_pair hS (by simp) (by simp)) fun _ => .bind
    (safe_mark (by simp [newFacts]) (fun _ => ⟨rfl, rfl, rfl, rfl, rfl⟩) (.inl hS.unwatched)) fun _ =>
    loose_changeComponent hS (by simp [hm]) ?_ fun _ => rfl
  intro n z hn _ hl
  obtain ⟨howner, hports, hexits, hentries, -⟩ := Component.forall_refs.mp hl.refs
  refine { hl with
    refs := Component.forall_refs.mpr ⟨howner, hports, hexits, hentries, fun i hi => ?_⟩ }
  obtain rfl := Option.some.inj hi
  refine Interior.forall_refs.mpr ⟨?_, by simp, by simp⟩
  exact hn.facts (.has (.component b)) (by simp [newFacts])

theorem loose_newModule {kind : ModuleKind} (hkind : (ComponentKind.module kind).FitsIn S K)
    (stem : String) (data : Nat) :
    Safe S K (newModule kind stem data) fun m => newFacts m (.module kind) := by
  refine .bind (loose_newComponent hS hkind stem 0) fun m => .bind
    (loose_makeInBuf hS (by simp [newFacts])) fun _ => .bind
    (Safe.forM fun name _ => Safe.discard ?_) fun _ => .pure (by simp +contextual)
  exact (loose_makeDataPort hS (by simp [newFacts]) name).weaken (fun _ h => h) (by simp)

end

end DataflowSynth.Netlist
