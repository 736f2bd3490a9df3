/-
Steps that keep a netlist linked and shaped.

While steps are taken, something is known about the handles that they use: that one stands for
something, that a component is no buffer.  Facts of this kind stay true whatever happens later.  A step
is `Safe` when it keeps the netlist sound, given some facts, and then establishes others; what a
composed step needs is found by adding up what its parts establish.

Where links alone matter nothing is asked about buffers, and a step may be aimed at any component.
Where the shape is watched too, steps that add or remove terminals must not be aimed at a buffer.
-/
import DataflowSynth.Proofs.Netlist.Guard

namespace DataflowSynth.Netlist

open Build

/-! ### What is known -/

/-- What is watched while steps are taken. -/
structure Scope where
  /-- The number of pins there are. -/
  pins : Nat
  /-- Nothing of this netlist is touched. -/
  base : Netlist
  /-- The shape is watched. -/
  strict : Prop
  /-- The shape has to stay as it is, and no error may be reported. -/
  quiet : Prop
  /-- No error may be reported. -/
  mute : Prop
  guard : Guard base strict := .none base strict

inductive Fact where
  /-- The handle stands for something. -/
  | has (r : Ref)
  | all (P : Ref → Prop)
  /-- The component is no buffer. -/
  | plain (c : ComponentId)
  /-- The exit is none of a buffer. -/
  | plainExit (e : ExitId)
  | kinded (c : ComponentId) (kind : ComponentKind)
  /-- The two components are of one kind. -/
  | alike (c d : ComponentId)
  | fits (kind : ComponentKind)
  /-- There is such a pin. -/
  | pin (p : PinId)

namespace Scope

variable (S : Scope)

structure Sound (n : Netlist) : Prop where
  linked : Linked S.pins S.base n
  shaped : S.strict → Shaped S.base n
  guarded : S.guard.holds n

def Holds (n : Netlist) : Fact → Prop
  | .has r => r.New S.base n
  | .all P => ∀ r, P r → r.New S.base n
  | .plain c => Ref.New S.base n (.component c) ∧ (S.strict → ¬ IsBuffer S.base n c)
  | .plainExit e => Ref.New S.base n (.exit e) ∧
      (S.strict → ∀ y, n.exits.get? e = some y → ¬ IsBuffer S.base n y.owner)
  | .kinded c kind => ∃ x, n.components.get? c = some x ∧ x.kind.plain = kind
  | .alike c d => ∃ x y, n.components.get? c = some x ∧ n.components.get? d = some y ∧
      x.kind.plain = y.kind.plain
  | .fits kind => kind.Fits S.pins n
  | .pin p => p.index < S.pins

@[simp] theorem holds_has {n : Netlist} {r : Ref} : S.Holds n (.has r) ↔ r.New S.base n := Iff.rfl

structure Knows (K : List Fact) (n : Netlist) : Prop where
  sound : S.Sound n
  facts : ∀ f ∈ K, S.Holds n f

/-- What may happen to a netlist without making a fact untrue. -/
structure Evolves (n n' : Netlist) : Prop where
  grows : n.Grows n'
  kinds : ∀ c x', c.index < n.components.size → n'.components.get? c = some x' →
    ∃ x, n.components.get? c = some x ∧ x'.kind.plain = x.kind.plain
  owners : ∀ e y', e.index < n.exits.size → n'.exits.get? e = some y' →
    ∃ y, n.exits.get? e = some y ∧ y'.owner = y.owner
  buffers : S.strict → ∀ c, c.index < n.components.size → IsBuffer S.base n' c →
    IsBuffer S.base n c
  shape : S.quiet → SameShape n n'

variable {S} {n n' n'' : Netlist} {K K' : List Fact} {f : Fact}

theorem Evolves.refl (S : Scope) (n : Netlist) : S.Evolves n n where
  grows := .refl n
  kinds _ x _ hx := ⟨x, hx, rfl⟩
  owners _ y _ hy := ⟨y, hy, rfl⟩
  buffers _ _ _ h := h
  shape _ := .refl n

theorem Evolves.trans (h : S.Evolves n n') (h' : S.Evolves n' n'') : S.Evolves n n'' where
  grows := h.grows.trans h'.grows
  kinds c x hlt hx := by
    obtain ⟨y, hy, hkind⟩ := h'.kinds c x (Nat.lt_of_lt_of_le hlt h.grows.components) hx
    obtain ⟨z, hz, hkind'⟩ := h.kinds c y hlt hy
    exact ⟨z, hz, hkind.trans hkind'⟩
  owners e y hlt hy := by
    obtain ⟨w, hw, howner⟩ := h'.owners e y (Nat.lt_of_lt_of_le hlt h.grows.exits) hy
    obtain ⟨z, hz, howner'⟩ := h.owners e w hlt hw
    exact ⟨z, hz, howner.trans howner'⟩
  buffers hs c hlt hc := h.buffers hs c hlt
    (h'.buffers hs c (Nat.lt_of_lt_of_le hlt h.grows.components) hc)
  shape hq := (h.shape hq).trans (h'.shape hq)

/-- A step that leaves the shape alone. -/
theorem Evolves.of_sameShape (hg : n.Grows n') (hs : SameShape n n') : S.Evolves n n' where
  grows := hg
  kinds c x _ hx := by
    obtain ⟨y, hy, heq⟩ := hs.component hx
    exact ⟨y, hy, (congrArg Component.kind heq).symm⟩
  owners e y _ hy := by
    obtain ⟨z, hz, heq⟩ := hs.exit hy
    exact ⟨z, hz, (congrArg Exit.owner heq).symm⟩
  buffers _ _ _ := hs.isBuffer
  shape _ := hs

/-- A step that only adds to the netlist. -/
theorem Evolves.of_keeps (hk : n.Keeps n') (hq : ¬ S.quiet)
    (hbuffers : S.strict → ∀ c, c.index < n.components.size → IsBuffer S.base n' c →
      IsBuffer S.base n c) : S.Evolves n n' where
  grows := hk.grows
  kinds c x hlt hx := ⟨x, hk.components.get? c hlt ▸ hx, rfl⟩
  owners e y hlt hy := ⟨y, hk.exits.get? e hlt ▸ hy, rfl⟩
  buffers := hbuffers
  shape h := absurd h hq

/-- A component keeps its kind. -/
theorem Evolves.kind (he : S.Evolves n n') {c : ComponentId} {x : Component}
    (hx : n.components.get? c = some x) :
    ∃ x', n'.components.get? c = some x' ∧ x'.kind.plain = x.kind.plain := by
  have hlt := Arena.lt_of_get? hx
  obtain ⟨x', hx'⟩ := Arena.exists_get? (Nat.lt_of_lt_of_le hlt he.grows.components)
  obtain ⟨y, hy, heq⟩ := he.kinds c x' hlt hx'
  cases hx.symm.trans hy
  exact ⟨x', hx', heq⟩

theorem Sound.holds_mono (hn : S.Sound n) (he : S.Evolves n n') (hf : S.Holds n f) :
    S.Holds n' f := by
  cases f with
  | has r => exact Ref.New.mono hf he.grows
  | all P => exact fun r hr => (hf r hr).mono he.grows
  | plain c =>
      refine ⟨hf.1.mono he.grows, fun hs hc => hf.2 hs (he.buffers hs c hf.1.2 hc)⟩
  | plainExit e =>
      refine ⟨hf.1.mono he.grows, fun hs y' hy' hc => ?_⟩
      obtain ⟨y, hy, howner⟩ := he.owners e y' hf.1.2 hy'
      rw [howner] at hc
      have hnew := (Exit.forall_refs.mp (hn.linked.exits e y hy hf.1.1).refs).1
      exact hf.2 hs y hy (he.buffers hs _ hnew.2 hc)
  | kinded c kind =>
      obtain ⟨x, hx, hkind⟩ := hf
      obtain ⟨x', hx', heq⟩ := he.kind hx
      exact ⟨x', hx', heq.trans hkind⟩
  | alike c d =>
      obtain ⟨x, y, hx, hy, hkind⟩ := hf
      obtain ⟨x', hx', heq⟩ := he.kind hx
      obtain ⟨y', hy', heq'⟩ := he.kind hy
      exact ⟨x', y', hx', hy', (heq.trans hkind).trans heq'.symm⟩
  | fits kind => exact ComponentKind.Fits.mono hf he.grows
  | pin p => exact hf

theorem Knows.mono (h : S.Knows K n) (hsub : ∀ f ∈ K', f ∈ K) : S.Knows K' n :=
  ⟨h.sound, fun f hf => h.facts f (hsub f hf)⟩

theorem Knows.evolve (h : S.Knows K n) (h' : S.Knows K' n') (he : S.Evolves n n') :
    S.Knows (K' ++ K) n' where
  sound := h'.sound
  facts f hf := by
    rcases List.mem_append.mp hf with hf | hf
    · exact h'.facts f hf
    · exact h.sound.holds_mono he (h.facts f hf)

/-- What follows a step that leaves the shape alone. -/
theorem Knows.sameShape (h : S.Knows K n) (hl : Linked S.pins S.base n') (hg : n.Grows n')
    (hs : SameShape n n') (hguard : S.guard.holds n') : S.Knows [] n' ∧ S.Evolves n n' :=
  ⟨⟨⟨hl, fun hstrict => (h.sound.shaped hstrict).congr hs, hguard⟩, by simp⟩, .of_sameShape hg hs⟩

/-- What follows a calm step. -/
theorem Knows.calm (h : S.Knows K n) (hl : Linked S.pins S.base n') (hg : n.Grows n')
    (hc : Calm n n') : S.Knows [] n' ∧ S.Evolves n n' :=
  h.sameShape hl hg hc.toSameShape (S.guard.calm hc h.sound.guarded)

/-- What is left of `n` when a step fails.  Nothing is promised when it is aborted. -/
def Failing (S : Scope) (n : Netlist) : Failure → Traced Netlist → Prop
  | .abort _, _ => True
  | .error _, t => (¬ S.quiet ∧ ¬ S.mute) ∧ S.Sound t.state ∧ S.Evolves n t.state

theorem Failing.after {e : Failure} {t : Traced Netlist} (he : S.Evolves n n')
    (h : S.Failing n' e t) : S.Failing n e t := by
  cases e with
  | abort => trivial
  | error => exact ⟨h.1, h.2.1, he.trans h.2.2⟩

/-- Nothing but links and shapes is watched. -/
def Open (S : Scope) : Prop := ∀ n, S.guard.holds n

/-- The same scope without its guard. -/
def unguarded (S : Scope) : Scope := { S with guard := .none S.base S.strict }

theorem open_unguarded (S : Scope) : S.unguarded.Open := fun _ => trivial

theorem Evolves.of_unguarded (h : S.unguarded.Evolves n n') : S.Evolves n n' :=
  ⟨h.grows, h.kinds, h.owners, h.buffers, h.shape⟩

theorem holds_unguarded : S.unguarded.Holds n f ↔ S.Holds n f := by
  cases f <;> exact Iff.rfl

theorem Knows.unguarded (h : S.Knows K n) : S.unguarded.Knows K n :=
  ⟨⟨h.sound.linked, h.sound.shaped, trivial⟩, fun f hf => holds_unguarded.mpr (h.facts f hf)⟩

/-- The guard is kept by an edit that is told what is known. -/
theorem Knows.edit {s : Traced Netlist} (h : S.Knows K s.state) (op : Edit)
    (hrefs : ∀ r ∈ op.refs, .has r ∈ K)
    (hspares : S.strict → op.Spares S.base s.state S.guard.firm) :
    wp op.run (fun _ t => S.guard.holds t.state) (fun e t => e.Unless (S.guard.holds t.state)) s :=
  S.guard.edit op s h.sound.linked (fun hstrict => ⟨h.sound.shaped hstrict, hspares hstrict⟩)
    (fun r hr => h.facts _ (hrefs r hr)) h.sound.guarded

end Scope

/-- The step keeps the netlist sound and establishes `P`, given the facts in `K`. -/
def Safe (S : Scope) (K : List Fact) {α : Type} (x : Step α) (P : α → List Fact) : Prop :=
  ∀ s : Traced Netlist, S.Knows K s.state →
    wp x (fun a t => S.Knows (P a) t.state ∧ S.Evolves s.state t.state) (S.Failing s.state) s

namespace Safe

variable {S : Scope} {K : List Fact} {α β : Type} {x : Step α} {P : α → List Fact}

/-- A safe step that comes after other steps. -/
theorem resume {s t : Traced Netlist} (hx : Safe S K x P) (ht : S.Knows K t.state)
    (he : S.Evolves s.state t.state) :
    wp x (fun a u => S.Knows (P a) u.state ∧ S.Evolves s.state u.state) (S.Failing s.state) t :=
  wp_mono (hx t ht) (fun _ _ h => ⟨h.1, he.trans h.2⟩) fun _ _ h => h.after he

theorem bind {f : α → Step β} {P' : β → List Fact} (hx : Safe S K x P)
    (hf : ∀ a, Safe S (P a ++ K) (f a) P') : Safe S K (x >>= f) P' := by
  intro s hs
  rw [wp_bind]
  exact wp_mono (hx s hs) (fun a t ht => (hf a).resume (hs.evolve ht.1 ht.2) ht.2) fun _ _ h => h

theorem weaken {K' : List Fact} {P' : α → List Fact} (hx : Safe S K x P)
    (hK : ∀ f ∈ K, f ∈ K') (hpost : ∀ a, ∀ f ∈ P' a, f ∈ P a ++ K') :
    Safe S K' x P' := by
  intro s hs
  refine wp_mono (hx s (hs.mono hK)) (fun a t ht => ⟨?_, ht.2⟩) fun _ _ h => h
  exact (hs.evolve ht.1 ht.2).mono (hpost a)

protected theorem pure {a : α} (h : ∀ f ∈ P a, f ∈ K) : Safe S K (pure a) P :=
  fun s hs => ⟨hs.mono h, .refl S s.state⟩

/-- A step is safe if it is so without the guard, and the guard is kept. -/
theorem guarded (hx : Safe S.unguarded K x P)
    (hguard : ∀ s : Traced Netlist, S.Knows K s.state →
      wp x (fun _ t => S.guard.holds t.state) (fun e t => e.Unless (S.guard.holds t.state)) s) :
    Safe S K x P := by
  intro s hs
  refine wp_mono (wp_and (hx s hs.unguarded) (hguard s hs)) ?_ ?_
  · rintro a t ⟨⟨hknows, he⟩, hholds⟩
    refine ⟨⟨⟨hknows.sound.linked, hknows.sound.shaped, hholds⟩, fun f hf => ?_⟩, he.of_unguarded⟩
    exact Scope.holds_unguarded.mp (hknows.facts f hf)
  · rintro (_ | a) t ⟨hf, hholds⟩
    · exact ⟨hf.1, ⟨hf.2.1.linked, hf.2.1.shaped, hholds⟩, hf.2.2.of_unguarded⟩
    · trivial

/-- What follows from the facts need not be known beforehand. -/
theorem deduce {f : Fact} (hf : ∀ n, S.Knows K n → S.Holds n f) (hx : Safe S (f :: K) x P) :
    Safe S K x P := by
  intro s hs
  refine hx s ⟨hs.sound, fun g hg => ?_⟩
  rcases List.mem_cons.mp hg with rfl | hg
  · exact hf _ hs
  · exact hs.facts g hg

theorem look (f : Netlist → α) : Safe S K (Build.look f) fun _ => [] :=
  fun s hs => ⟨hs.mono (by simp), .refl S s.state⟩

theorem log (level : Level) (source : Source) (message : String) :
    Safe S K (Build.log level source message) fun _ => [] :=
  fun s hs => ⟨hs.mono (by simp), .refl S s.state⟩

theorem fail (hq : ¬ S.quiet) (hmute : ¬ S.mute) (e : Error) : Safe S K (Build.fail e) P :=
  fun s hs => ⟨⟨hq, hmute⟩, hs.sound, .refl S s.state⟩

theorem abort (a : Abort) : Safe S K (Build.abort a) P := fun _ _ => trivial

theorem expect {a : Abort} {o : Option α} (h : ∀ x, o = some x → ∀ f ∈ P x, f ∈ K) :
    Safe S K (Build.expect a o) P := by
  cases o with
  | none => exact abort a
  | some x => exact .pure (h x rfl)

theorem bind_expect {a : Abort} {o : Option α} {f : α → Step β} {P' : β → List Fact}
    (h : ∀ x, o = some x → Safe S K (f x) P') : Safe S K (Build.expect a o >>= f) P' := by
  cases o with
  | none => exact fun _ _ => trivial
  | some x => exact h x rfl

theorem discard (hx : Safe S K x fun _ => []) : Safe S K (discard x) fun _ => [] :=
  fun s hs => wp_discard.mpr (hx s hs)

theorem forM {xs : List β} {f : β → Step Unit} (hf : ∀ b ∈ xs, Safe S K (f b) fun _ => []) :
    Safe S K (xs.forM f) fun _ => [] := by
  intro s hs
  refine wp_mono (wp_forM (I := fun t => S.Knows K t.state ∧ S.Evolves s.state t.state)
    ⟨hs, .refl S _⟩ fun b hb t ht => ?_) (fun _ t ht => ⟨ht.1.mono (by simp), ht.2⟩) fun _ _ h => h
  refine wp_mono (hf b hb t ht.1) (fun _ u hu => ⟨?_, ht.2.trans hu.2⟩) fun _ _ h => h.after ht.2
  exact (ht.1.evolve hu.1 hu.2).mono (by simp)

theorem foldlM {xs : List β} {γ : Type} {I : γ → List Fact} {f : γ → β → Step γ} {c : γ}
    (hc : ∀ g ∈ I c, g ∈ K) (hf : ∀ b ∈ xs, ∀ c, Safe S (I c ++ K) (f c b) I) :
    Safe S K (xs.foldlM f c) I := by
  intro s hs
  refine wp_mono (wp_foldlM
    (I := fun c t => S.Knows (I c ++ K) t.state ∧ S.Evolves s.state t.state)
    ⟨hs.mono (by simpa [or_imp, forall_and] using hc), .refl S _⟩ fun b hb c t ht => ?_)
    (fun c t ht => ⟨ht.1.mono (by simp +contextual), ht.2⟩) fun _ _ h => h
  refine wp_mono (hf b hb c t ht.1) (fun c' u hu => ⟨?_, ht.2.trans hu.2⟩) fun _ _ h => h.after ht.2
  refine (ht.1.evolve hu.1 hu.2).mono fun g hg => ?_
  rcases List.mem_append.mp hg with hg | hg <;> simp [hg]

theorem mapM {xs : List β} {f : β → Step α} (hf : ∀ b ∈ xs, Safe S K (f b) P) :
    Safe S K (xs.mapM f) fun ys => ys.flatMap P := by
  intro s hs
  refine wp_mono (wp_mapM
    (I := fun ys t => S.Knows (ys.flatMap P ++ K) t.state ∧ S.Evolves s.state t.state)
    ⟨hs.mono (by simp), .refl S _⟩ fun b hb ys t ht => ?_)
    (fun ys t ht => ⟨ht.1.mono fun g hg => List.mem_append_left _ hg, ht.2⟩) fun _ _ h => h
  refine wp_mono (hf b hb t (ht.1.mono (by simp +contextual)))
    (fun y u hu => ⟨?_, ht.2.trans hu.2⟩) fun _ _ h => h.after ht.2
  refine (ht.1.evolve hu.1 hu.2).mono fun g hg => ?_
  simp only [List.flatMap_append, List.flatMap_cons, List.flatMap_nil, List.append_nil,
    List.mem_append] at hg ⊢
  rcases hg with (hg | hg) | hg
  · exact .inr (.inl hg)
  · exact .inl hg
  · exact .inr (.inr hg)

end Safe

end DataflowSynth.Netlist
