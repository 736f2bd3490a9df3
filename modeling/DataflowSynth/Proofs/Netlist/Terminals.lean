/-
Making terminals, components and modules keeps links and shapes.

The links are those of steps that are aimed at anything.  For the shape, the step must not be aimed at a
buffer; what it leaves is then one of the netlists that are known to be shaped.
-/
import DataflowSynth.Proofs.Netlist.Loose

namespace DataflowSynth.Netlist

open Build

variable {S : Scope} {K : List Fact} {α : Type} {pins : Nat} {base n n' : Netlist}

/-! ### Links and shapes together -/

/-- The same scope, but only links are watched. -/
def Scope.loose (S : Scope) : Scope :=
  { S with strict := False, quiet := False, guard := .none S.base False }

theorem Scope.loose_loose (S : Scope) : S.loose.Loose := ⟨id, id, fun _ => trivial⟩

/-- The part of a fact that is about buffers. -/
def Fact.Proper (base n : Netlist) : Fact → Prop
  | .plain c => ¬ IsBuffer base n c
  | .plainExit e => ∀ y, n.exits.get? e = some y → ¬ IsBuffer base n y.owner
  | _ => True

theorem Scope.holds_iff {f : Fact} :
    S.Holds n f ↔ S.loose.Holds n f ∧ (S.strict → f.Proper S.base n) := by
  cases f with
  | plain c => exact ⟨fun h => ⟨⟨h.1, False.elim⟩, h.2⟩, fun h => ⟨h.1.1, h.2⟩⟩
  | plainExit e => exact ⟨fun h => ⟨⟨h.1, False.elim⟩, h.2⟩, fun h => ⟨h.1.1, h.2⟩⟩
  | _ => exact ⟨fun h => ⟨h, fun _ => trivial⟩, fun h => h.1⟩

theorem Scope.Knows.loose (h : S.Knows K n) : S.loose.Knows K n :=
  ⟨⟨h.sound.linked, False.elim, trivial⟩, fun f hf => (Scope.holds_iff.mp (h.facts f hf)).1⟩

/-- The step was aborted. -/
def Aborted : Failure → Prop
  | .abort _ => True
  | .error _ => False

/-- What is left when a step has kept the shape. -/
structure Reshaped (base n n' : Netlist) (P : List Fact) : Prop where
  shaped : Shaped base n'
  buffers : ∀ c, c.index < n.components.size → IsBuffer base n' c → IsBuffer base n c
  proper : ∀ f ∈ P, f.Proper base n'

theorem Safe.structural {x : Step α} {P : α → List Fact} (hopen : S.Open) (hq : ¬ S.quiet)
    (hlinks : Safe S.loose K x P)
    (hshapes : S.strict → ∀ s : Traced Netlist, S.Knows K s.state →
      wp x (fun a t => Reshaped S.base s.state t.state (P a)) (fun e _ => Aborted e) s) :
    Safe S K x P := by
  intro s hs
  by_cases hstrict : S.strict
  · refine wp_mono (wp_and (hlinks s hs.loose) (hshapes hstrict s hs)) ?_ ?_
    · rintro a t ⟨⟨hknows, he⟩, hr⟩
      refine ⟨⟨⟨hknows.sound.linked, fun _ => hr.shaped, hopen _⟩, fun f hf => ?_⟩,
        he.grows, he.kinds, he.owners, fun _ => hr.buffers, fun h => absurd h hq⟩
      exact Scope.holds_iff.mpr ⟨hknows.facts f hf, fun _ => hr.proper f hf⟩
    · rintro (_ | a) t ⟨-, ha⟩
      · exact ha.elim
      · trivial
  · have hevolves : ∀ {n'}, S.loose.Evolves s.state n' → S.Evolves s.state n' := fun he =>
      ⟨he.grows, he.kinds, he.owners, fun h => absurd h hstrict, fun h => absurd h hq⟩
    refine wp_mono (hlinks s hs.loose) ?_ ?_
    · rintro a t ⟨hknows, he⟩
      refine ⟨⟨⟨hknows.sound.linked, fun h => absurd h hstrict, hopen _⟩, fun f hf => ?_⟩,
        hevolves he⟩
      exact Scope.holds_iff.mpr ⟨hknows.facts f hf, fun h => absurd h hstrict⟩
    · rintro (_ | a) t hf
      · exact ⟨⟨hq, hf.1.2⟩, ⟨hf.2.1.linked, fun h => absurd h hstrict, hopen _⟩, hevolves hf.2.2⟩
      · trivial

/-- A step makes a buffer only of something new. -/
theorem buffers_of_back
    (hin : ∀ m x' i', n'.components.get? m = some x' → x'.interior = some i' →
      (∃ x i, n.components.get? m = some x ∧ x.interior = some i ∧ i.inBuf = i'.inBuf) ∨
        n.components.size ≤ i'.inBuf.index)
    (hout : ∀ e y' o, n'.exits.get? e = some y' → y'.peer = some o →
      (∃ y, n.exits.get? e = some y ∧ y.peer = some o) ∨ n.components.size ≤ o.index)
    (c : ComponentId) (hlt : c.index < n.components.size) (hc : IsBuffer base n' c) :
    IsBuffer base n c := by
  rcases hc with ⟨m, x', i', hx', hm, hi', rfl⟩ | ⟨e, y', hy', he, hpeer⟩
  · rcases hin m x' i' hx' hi' with ⟨x, i, hx, hi, heq⟩ | hge
    · exact .inl ⟨m, x, i, hx, hm, hi, heq⟩
    · exact absurd hge (Nat.not_le_of_lt hlt)
  · rcases hout e y' c hy' hpeer with ⟨y, hy, hpeer⟩ | hge
    · exact .inr ⟨e, y, hy, he, hpeer⟩
    · exact absurd hge (Nat.not_le_of_lt hlt)

theorem inBufs_modify {c : ComponentId} {f : Component → Component}
    (hf : ∀ x, (f x).interior = x.interior) (m : ComponentId) (x' : Component) (i' : Interior)
    (hx' : (n.components.modify c f).get? m = some x') (hi' : x'.interior = some i') :
    (∃ x i, n.components.get? m = some x ∧ x.interior = some i ∧ i.inBuf = i'.inBuf) ∨
      n.components.size ≤ i'.inBuf.index := by
  rcases Arena.get?_modify_cases hx' with ⟨rfl, x, hx, rfl⟩ | ⟨-, hx⟩
  · exact .inl ⟨x, i', hx, (hf x).symm.trans hi', rfl⟩
  · exact .inl ⟨x', i', hx, hi', rfl⟩

theorem outBufs_modify {e : ExitId} {g : Exit → Exit} (hg : ∀ y, (g y).peer = y.peer) (d : ExitId)
    (y' : Exit) (o : ComponentId) (hy' : (n.exits.modify e g).get? d = some y')
    (hpeer : y'.peer = some o) :
    (∃ y, n.exits.get? d = some y ∧ y.peer = some o) ∨ n.components.size ≤ o.index := by
  rcases Arena.get?_modify_cases hy' with ⟨rfl, y, hy, rfl⟩ | ⟨-, hy⟩
  · exact .inl ⟨y, hy, (hg y).symm.trans hpeer⟩
  · exact .inl ⟨y', hy, hpeer⟩

/-- Any port can be paired, but for a go. -/
theorem Shaped.paired (hl : Linked pins base n) (h : Shaped base n) {p : PortId}
    (hrole : n.portRole? p ≠ some .go) (b : BusId) : Shaped base (n.paired p b) := by
  refine (h.withPair b fun e y o c hy he hpeer hc heq => ?_).congr (sameShape_paired n p b)
  have ho := (Exit.forall_refs.mp (hl.exits e y hy he).refs).2.2 o hpeer
  exact hrole (heq ▸ (h.components o c hc ho.1).go)

/-! ### Data buses -/

theorem safe_makeDataBus {e : ExitId} (hq : ¬ S.quiet) (he : .has (.exit e) ∈ K)
    (hplain : .plainExit e ∈ K) (name : String) :
    Safe S K (makeDataBus e name) fun b => [.has (.bus b)] := by
  refine .guarded (.structural S.open_unguarded hq (loose_makeDataBus S.loose_loose he name)
    fun hstrict s hs => ?_) fun s hs => wp_discard.mp (hs.edit (.dataBus e name)
    (by simp [Edit.refs, he]) (hs.facts _ hplain).2)
  have hl := hs.sound.linked
  have hsh := hs.sound.shaped hstrict
  have hnew := hs.facts _ he
  obtain ⟨y, hy⟩ := Arena.exists_get? hnew.2
  have hbuf := (hs.facts _ hplain).2 hstrict y hy
  cases hpeer : y.peer with
  | none =>
      rw [wp_makeDataBus hy hpeer]
      refine ⟨hsh.withDataBus hl hy hnew.1 hpeer (fun h => hbuf (.inl h)) name, ?_, by simp [Fact.Proper]⟩
      exact buffers_of_back (fun m x i hx hi => .inl ⟨x, i, hx, hi, rfl⟩)
        (outBufs_modify fun _ => rfl)
  | some o =>
      have ho := (Exit.forall_refs.mp (hl.exits e y hy hnew.1).refs).2.2 o hpeer
      obtain ⟨x, hx⟩ := Arena.exists_get? ho.2
      rw [wp_makeDataBus_outBuf hy hpeer hx]
      have hlinked := (hl.withDataBus hnew name).withDataPort ho name
      have hshaped := hsh.withOutput hl hy hnew.1 hpeer (fun h => hbuf (.inl h)) name
      refine ⟨hshaped.paired hlinked ?_ _, ?_, by simp [Fact.Proper]⟩
      · simp [portRole?, withDataPort, withDataBus, Port.new]
      · refine buffers_of_back ?_ ?_
        · simp only [state_moved, components_paired]
          exact inBufs_modify fun _ => rfl
        · simp only [state_moved, exits_paired]
          exact outBufs_modify fun _ => rfl

/-! ### Ports -/

/-- The InBuf of a module, as far as a new port needs it. -/
theorem Shaped.inBuf (hl : Linked pins base n) (h : Shaped base n) {c : ComponentId}
    {x : Component} {i : Interior} (hx : n.components.get? c = some x)
    (hc : base.components.size ≤ c.index) (hi : x.interior = some i) :
    ∃ b e w, n.components.get? i.inBuf = some b ∧ i.inBuf ≠ c ∧ b.mainExit? = some e ∧
      n.exits.get? e = some w ∧ Ref.New base n (.exit e) ∧ InBufShaped n c x b e w := by
  obtain ⟨b, e, w, hb, hw, hin⟩ := ((h.components c x hx hc).interior i hi).inBuf
  refine ⟨b, e, w, hb, hin.ne_module hx hi hb, ?_, hw, ?_, hin⟩
  · simp [Component.mainExit?, OrderedMap.find?, hin.exits]
  · exact hl.exit_new hb (hl.inBuf_new hx hc hi).1 (OrderedMap.mem_values_singleton hin.exits)

theorem safe_makeDataPort {c : ComponentId} (hq : ¬ S.quiet) (hc : .has (.component c) ∈ K)
    (hplain : .plain c ∈ K) (name : String) :
    Safe S K (makeDataPort c name) fun p => [.has (.port p)] := by
  refine .guarded (.structural S.open_unguarded hq (loose_makeDataPort S.loose_loose hc name)
    fun hstrict s hs => ?_) fun s hs => wp_discard.mp (hs.edit (.dataPort c name)
    (by simp [Edit.refs, hc]) (hs.facts _ hplain).2)
  have hl := hs.sound.linked
  have hsh := hs.sound.shaped hstrict
  have hnew := hs.facts _ hc
  have hbuf := (hs.facts _ hplain).2 hstrict
  obtain ⟨x, hx⟩ := Arena.exists_get? hnew.2
  cases hi : x.interior with
  | none =>
      rw [wp_makeDataPort hx hi]
      refine ⟨hsh.withDataPort hl hx hnew.1 hbuf hi name, ?_, by simp [Fact.Proper]⟩
      exact buffers_of_back (inBufs_modify fun _ => rfl) fun _ y _ hy hp => .inl ⟨y, hy, hp⟩
  | some i =>
      obtain ⟨b, e, w, hb, hne, he, hw, henew, hin⟩ := hsh.inBuf hl hx hnew.1 hi
      rw [wp_makeDataPort_module hx hi hb hne he hw hin.peer]
      have hlinked : Linked S.pins S.base (s.state.withDataInput c e name) :=
        (hl.withDataPort hnew name).withDataBus henew name
      have hshaped := hsh.withDataInput hl hx hnew.1 hi hb hw hin name
      refine ⟨hshaped.paired hlinked ?_ _, ?_, by simp [Fact.Proper]⟩
      · simp [portRole?, withDataInput, withDataPort, withDataBus, Port.new]
      · refine buffers_of_back ?_ ?_
        · simp only [state_moved, components_paired]
          exact inBufs_modify fun _ => rfl
        · simp only [state_moved, exits_paired, withDataInput, withDataBus, withDataPort]
          exact outBufs_modify fun _ => rfl

theorem safe_makeThisPort {c : ComponentId} (hq : ¬ S.quiet) (hc : .has (.component c) ∈ K)
    (hplain : .plain c ∈ K) : Safe S K (makeThisPort c) fun p => [.has (.port p)] := by
  refine .guarded (.structural S.open_unguarded hq (loose_makeThisPort S.loose_loose hc)
    fun hstrict s hs => ?_) fun s hs => wp_discard.mp (hs.edit (.thisPort c)
    (by simp [Edit.refs, hc]) (hs.facts _ hplain).2)
  have hl := hs.sound.linked
  have hsh := hs.sound.shaped hstrict
  have hnew := hs.facts _ hc
  have hbuf := (hs.facts _ hplain).2 hstrict
  obtain ⟨x, hx⟩ := Arena.exists_get? hnew.2
  cases hthis : x.this with
  | some p =>
      rw [wp_makeThisPort_some hx hthis]
      exact ⟨hsh, fun _ _ h => h, by simp [Fact.Proper]⟩
  | none =>
  cases hi : x.interior with
  | none =>
      rw [wp_makeThisPort hx hthis hi]
      refine ⟨hsh.withThisPort hl hx hnew.1 hbuf hthis hi, ?_, by simp [Fact.Proper]⟩
      exact buffers_of_back (inBufs_modify fun _ => rfl) fun _ y _ hy hp => .inl ⟨y, hy, hp⟩
  | some i =>
      obtain ⟨b, e, w, hb, hne, he, hw, henew, hin⟩ := hsh.inBuf hl hx hnew.1 hi
      rw [wp_makeThisPort_module hx hthis hi hb hne he hw]
      have hlinked : Linked S.pins S.base (s.state.withThisInput c e) :=
        (hl.withThisPort hnew).withControlBus henew .this
      have hshaped := hsh.withThisInput hl hx hnew.1 hthis hi hb hw hin
      refine ⟨hshaped.paired hlinked ?_ _, ?_, by simp [Fact.Proper]⟩
      · simp [portRole?, withThisInput, withInput, withPort, Port.new]
      · refine buffers_of_back ?_ ?_
        · simp only [state_moved, components_paired]
          exact inBufs_modify fun _ => rfl
        · simp only [state_moved, exits_paired]
          exact outBufs_modify fun _ => rfl

/-! ### Components -/

/-- What follows a step that only adds to the netlist, and nothing that refers to what was there. -/
theorem Scope.Knows.grow (h : S.Knows K n) (hq : ¬ S.quiet) (hl : Linked S.pins n n')
    (hs : Shaped n n') (hguard : S.guard.holds n') : S.Sound n' ∧ S.Evolves n n' := by
  have hk := hl.keeps
  refine ⟨⟨h.sound.linked.trans hl, fun hstrict => ?_, hguard⟩, .of_keeps hk hq fun _ => ?_⟩
  · exact (h.sound.shaped hstrict).trans h.sound.linked hl hs
  refine buffers_of_back (fun m x' i' hx' hi' => ?_) fun e y' o hy' hpeer => ?_
  · rcases Nat.lt_or_ge m.index n.components.size with hlt | hge
    · exact .inl ⟨x', i', hk.components.get? m hlt ▸ hx', hi', rfl⟩
    · exact .inr (hl.inBuf_new hx' hge hi').1
  · rcases Nat.lt_or_ge e.index n.exits.size with hlt | hge
    · exact .inl ⟨y', hk.exits.get? e hlt ▸ hy', hpeer⟩
    · exact .inr ((Exit.forall_refs.mp (hl.exits e y' hy' hge).refs).2.2 o hpeer).1

/-- A component without an owner that has just been made. -/
theorem Scope.Sound.knows_new (h : S.Sound n) {c : ComponentId} {x : Component}
    (hx : n.components.get? c = some x) (hc : S.base.components.size ≤ c.index)
    (howner : x.owner = none) : S.Knows (newFacts c x.kind) n := by
  have hnew : Ref.New S.base n (.component c) := ⟨hc, Arena.lt_of_get? hx⟩
  refine ⟨h, ?_⟩
  simp only [newFacts, List.mem_cons, List.not_mem_nil, or_false, forall_eq_or_imp, forall_eq]
  exact ⟨hnew, ⟨hnew, fun hs => (h.shaped hs).not_isBuffer_of_owner hx howner⟩, x, hx, rfl⟩

theorem safe_newComponent {kind : ComponentKind} (hq : ¬ S.quiet) (hkind : kind.FitsIn S K)
    (stem : String) (data : Nat) :
    Safe S K (newComponent kind stem data) fun c => newFacts c kind := by
  intro s hs
  have hlinked : Linked S.pins s.state (s.state.shelled kind stem) :=
    (Linked.refl S.pins s.state).withShell (hkind _ hs) _ _
  obtain ⟨hsound, he⟩ := hs.grow hq hlinked (Shaped.withShell _ _ _ _)
    (S.guard.shell kind stem hs.sound.linked hs.sound.guarded)
  rw [wp_newComponent]
  refine Safe.resume (P := fun _ => newFacts s.state.components.next kind)
    (K := newFacts s.state.components.next kind) ?_ ?_ he
  · refine (Safe.forM fun name _ => Safe.discard ?_).weaken (fun _ h => h) fun _ _ h => h
    exact (safe_makeDataPort hq (by simp [newFacts]) (by simp [newFacts]) name).weaken
      (fun _ h => h) (by simp)
  · exact hsound.knows_new (get?_shelled_next _ _ _) hs.sound.linked.keeps.components.size rfl

/-! ### Exits -/

theorem wp_makeExit_data {Q : ExitId → Traced Netlist → Prop}
    {F : Failure → Traced Netlist → Prop} {s : Traced Netlist} (c : ComponentId) (data : Nat)
    (tag : ExitTag) : wp (makeExit c data tag) Q F s ↔
      wp (makeExit c 0 tag) (fun e => wp ((numberedNames "dout" data).forM fun name =>
        discard (makeDataBus e name)) (fun _ => Q e) F) F s := by
  cases hx : s.state.components.get? c with
  | none => simp only [makeExit, wp_bind, component, wp_look, hx, wp_expect_none]
  | some x =>
      cases htag : x.exits.contains tag with
      | true => rw [wp_makeExit_taken hx htag, wp_makeExit_taken hx htag]
      | false =>
          rw [wp_makeExit_free hx htag, wp_makeExit_free hx htag]
          exact Iff.rfl

theorem buffers_of_exitAdded {c : ComponentId} {x : Component} {tag : ExitTag} {w : Exit}
    (hx : n.components.get? c = some x) (ha : ExitAdded n n' c x tag w) (d : ComponentId)
    (hlt : d.index < n.components.size) (hd : IsBuffer base n' d) : IsBuffer base n d := by
  refine buffers_of_back (fun m x' i' hx' hi' => ?_) (fun e y' o hy' hpeer => ?_) d hlt hd
  · by_cases heq : m = c
    · subst heq
      cases ha.self.symm.trans hx'
      exact .inl ⟨x, i', hx, hi', rfl⟩
    · rcases Nat.lt_or_ge m.index n.components.size with hlt | hge
      · exact .inl ⟨x', i', ha.others m heq hlt ▸ hx', hi', rfl⟩
      · obtain ⟨-, b, hb, -, hout⟩ := ha.outBuf m (ha.made m x' hx' hge)
        cases hb.symm.trans hx'
        rw [hout.interior] at hi'
        cases hi'
  · rcases Nat.lt_or_ge e.index n.exits.size with hlt | hge
    · exact .inl ⟨y', ha.exits.get? e hlt ▸ hy', hpeer⟩
    · obtain rfl := ha.only e y' hy' hge
      cases ha.exit.symm.trans hy'
      exact .inr (ha.outBuf o hpeer).1

theorem reshaped_of_exitAdded {c : ComponentId} {x : Component} {tag : ExitTag} {w : Exit}
    (hl : Linked pins base n) (h : Shaped base n) (hx : n.components.get? c = some x)
    (hc : base.components.size ≤ c.index) (hbuf : ¬ IsBuffer base n c)
    (ha : ExitAdded n n' c x tag w) :
    Reshaped base n n' [.has (.exit n.exits.next), .plainExit n.exits.next] := by
  have hback : ∀ d, d.index < n.components.size → IsBuffer base n' d → IsBuffer base n d :=
    buffers_of_exitAdded hx ha
  refine ⟨h.addExit ha hl hx hc hbuf, hback, ?_⟩
  simp only [List.mem_cons, List.not_mem_nil, or_false, forall_eq_or_imp, forall_eq]
  refine ⟨trivial, fun y hy hb => ?_⟩
  cases ha.exit.symm.trans hy
  rw [ha.owner] at hb
  exact hbuf (hback c (Arena.lt_of_get? hx) hb)

theorem safe_makeExit {c : ComponentId} (hq : ¬ S.quiet) (hc : .has (.component c) ∈ K)
    (hplain : .plain c ∈ K) (data : Nat) (tag : ExitTag) :
    Safe S K (makeExit c data tag) fun e => [.has (.exit e), .plainExit e] := by
  have hopen : Safe S K (makeExit c 0 tag) fun e => [.has (.exit e), .plainExit e] := by
    refine .guarded (.structural S.open_unguarded hq (loose_makeExit S.loose_loose hc 0 tag)
      fun hstrict s hs => ?_) fun s hs => wp_discard.mp (hs.edit (.exit c tag)
      (by simp [Edit.refs, hc]) (hs.facts _ hplain).2)
    have hnew := hs.facts _ hc
    have hbuf := (hs.facts _ hplain).2 hstrict
    obtain ⟨x, hx⟩ := Arena.exists_get? hnew.2
    have hreshaped := fun {n' w} (ha : ExitAdded s.state n' c x tag w) => reshaped_of_exitAdded
      hs.sound.linked (hs.sound.shaped hstrict) hx hnew.1 hbuf ha
    cases htag : x.exits.contains tag with
    | true => exact (wp_makeExit_taken hx htag 0).mpr trivial
    | false =>
        cases hi : x.interior with
        | none => exact (wp_makeExit hx htag hi 0).mpr (hreshaped (exitAdded_withExit hx hi tag))
        | some i =>
            exact (wp_makeExit_module hx htag hi 0).mpr
              (hreshaped (exitAdded_withModuleExit hx hi tag))
  intro s hs
  rw [wp_makeExit_data]
  refine wp_mono (hopen s hs) (fun e t ht => ?_) fun _ _ h => h
  refine Safe.resume (P := fun _ => [.has (.exit e), .plainExit e])
    (K := [.has (.exit e), .plainExit e]) ?_ ht.1 ht.2
  refine (Safe.forM fun name _ => Safe.discard ?_).weaken (fun _ h => h) fun _ _ h => h
  exact (safe_makeDataBus hq (by simp) (by simp) name).weaken (fun _ h => h) (by simp)

/-! ### Modules -/

theorem Linked.withModule {kind : ModuleKind}
    (hkind : (ComponentKind.module kind).Fits pins n) (stem : String) :
    Linked pins n (n.withModule kind stem) := by
  have hsafe := loose_newModule (S := ⟨pins, n, False, False, False, .none n False⟩) (K := [])
    ⟨id, id, fun _ => trivial⟩ (fun m hm => hkind.mono hm.sound.linked.keeps.grows) stem 0 ⟨n, #[]⟩
    ⟨⟨.refl pins n, False.elim, trivial⟩, by simp⟩
  exact ((wp_newModule kind stem 0).mp hsafe).1.sound.linked

theorem safe_newModule {kind : ModuleKind} (hq : ¬ S.quiet)
    (hkind : (ComponentKind.module kind).FitsIn S K) (stem : String) (data : Nat) :
    Safe S K (newModule kind stem data) fun m => newFacts m (.module kind) := by
  intro s hs
  obtain ⟨hsound, he⟩ := hs.grow hq (.withModule (hkind _ hs) stem) (.withModule _ kind stem)
    (S.guard.module kind stem hs.sound.linked hs.sound.guarded)
  rw [wp_newModule]
  refine Safe.resume (P := fun _ => newFacts s.state.components.next (.module kind))
    (K := newFacts s.state.components.next (.module kind)) ?_ ?_ he
  · refine (Safe.forM fun name _ => Safe.discard ?_).weaken (fun _ h => h) fun _ _ h => h
    exact (safe_makeDataPort hq (by simp [newFacts]) (by simp [newFacts]) name).weaken
      (fun _ h => h) (by simp)
  · refine hsound.knows_new (x := s.state.newModuleComponent kind stem) ?_
      hs.sound.linked.keeps.components.size rfl
    simp [get?_withModule]

end DataflowSynth.Netlist
