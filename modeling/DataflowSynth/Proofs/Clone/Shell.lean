/-
The shell of a copy.

A copy is made like any other component: first the component with its ports, then its flags, and at the
end its exits.  While it is made, everything that was there before is kept, and what is new has its
shape.  So it is enough to follow the record of the copy itself; its InBuf and its OutBufs come out as
the shape says.
-/
import DataflowSynth.Proofs.Clone.Matching
import DataflowSynth.Proofs.Netlist.Copies

namespace DataflowSynth.Netlist

open Build

variable {pins : Nat} {n : Netlist} {s : Traced Netlist} {c copy : ComponentId} {x x' : Component}

/-! ### Steps that succeed -/

/-- Everything in a netlist is kept, and the shape of what is new is watched. -/
def Scope.beyond (pins : Nat) (n : Netlist) : Scope := ⟨pins, n, True, False, False, .none n True⟩

/-- The copy is new and no buffer. -/
def draftFacts (copy : ComponentId) : List Fact := [.has (.component copy), .plain copy]

/-- A step cannot fail. -/
def Never : Failure → Traced Netlist → Prop := fun _ _ => False

/-- A safe step about which something else is known. -/
theorem Safe.along {S : Scope} {K : List Fact} {α : Type} {x : Step α} {P : α → List Fact}
    {Q : α → Traced Netlist → Prop} {F : Failure → Traced Netlist → Prop} (hx : Safe S K x P)
    (hs : S.Knows K s.state) (hQ : wp x Q F s) :
    wp x (fun a t => S.Knows (P a ++ K) t.state ∧ S.Evolves s.state t.state ∧ Q a t) F s :=
  wp_mono (wp_and (hx s hs) hQ) (fun _ _ h => ⟨hs.evolve h.1.1 h.1.2, h.1.2, h.2⟩) fun _ _ h => h.2

/-! ### Ports -/

section

variable {S : Scope} {K : List Fact}

theorem makeDataPort_ok (hstrict : S.strict) (hs : S.Knows K s.state)
    (hc : .has (.component c) ∈ K) (hx : s.state.components.get? c = some x) (name : String) :
    wp (makeDataPort c name) (fun p t => t.state.components.get? c =
      some { x with dataPorts := x.dataPorts ++ [p] }) Never s := by
  cases hi : x.interior with
  | none =>
      refine (wp_makeDataPort hx hi name).mpr ?_
      simp [withDataPort, Arena.get?_modify_self, hx, hi]
  | some i =>
      obtain ⟨b, e, w, hb, hne, he, hw, -, hin⟩ :=
        (hs.sound.shaped hstrict).inBuf hs.sound.linked hx (hs.facts _ hc).1 hi
      refine (wp_makeDataPort_module hx hi hb hne he hw hin.peer name).mpr ?_
      simp [withDataInput, withDataBus, withDataPort, Arena.get?_modify_self, hx, hi]

theorem makeThisPort_ok (hstrict : S.strict) (hs : S.Knows K s.state)
    (hc : .has (.component c) ∈ K) (hx : s.state.components.get? c = some x)
    (hthis : x.this = none) :
    wp (makeThisPort c) (fun p t => t.state.components.get? c = some { x with this := some p })
      Never s := by
  cases hi : x.interior with
  | none =>
      refine (wp_makeThisPort hx hthis hi).mpr ?_
      simp [withThisPort, withPort, Arena.get?_modify_self, hx, hi]
  | some i =>
      obtain ⟨b, e, w, hb, hne, he, hw, -, -⟩ :=
        (hs.sound.shaped hstrict).inBuf hs.sound.linked hx (hs.facts _ hc).1 hi
      refine (wp_makeThisPort_module hx hthis hi hb hne he hw).mpr ?_
      simp [withThisInput, withInput, withPort, Arena.get?_modify_self, hx, hi]

end

/-- A component before anything of its own has been given to it. -/
structure Blank (x x' : Component) : Prop where
  kind : x'.kind = x.kind
  owner : x'.owner = none
  this : x'.this = none
  dataPorts : x'.dataPorts = []
  exits : x'.exits = ∅
  interior : Option.Rel (fun _ i' => i'.children = [] ∧ i'.feedback = []) x.interior x'.interior

theorem newLike_ok (hkind : x.kind.Fits pins s.state)
    (hmodule : x.kind.isModule = x.interior.isSome) :
    wp (newLike x) (fun copy t => (Scope.beyond pins s.state).Knows (draftFacts copy) t.state ∧
      ∃ x', t.state.components.get? copy = some x' ∧ Blank x x') Never s := by
  have hs : (Scope.beyond pins s.state).Knows [.fits x.kind] s.state :=
    ⟨⟨.refl _ _, fun _ => .refl _, trivial⟩, List.forall_mem_singleton.mpr hkind⟩
  have hdraft : ∀ {copy kind t}, (Scope.beyond pins s.state).Knows (newFacts copy kind ++ [.fits kind]) t →
      (Scope.beyond pins s.state).Knows (draftFacts copy) t :=
    fun h => h.mono (by simp [draftFacts, newFacts])
  unfold newLike
  split
  · next kind hk =>
    rw [hk] at hs hmodule
    refine wp_mono ((safe_newModule id (ComponentKind.fitsIn_of_mem (by simp)) x.name 0).along
      (Q := fun copy t => t.state.components.get? copy = some (s.state.newModuleComponent kind x.name))
      hs ?_) (fun copy t ht => ⟨hdraft ht.1, _, ht.2.2, ?_⟩) fun _ _ h => h
    · refine (wp_newModule kind x.name 0).mpr ?_
      simp [numberedNames, get?_withModule]
    · obtain ⟨i, hi⟩ := Option.isSome_iff_exists.mp hmodule.symm
      exact ⟨hk.symm, rfl, rfl, rfl, rfl, hi ▸ .some ⟨rfl, rfl⟩⟩
  · next hk =>
    refine wp_mono ((safe_newComponent id (ComponentKind.fitsIn_of_mem (by simp)) x.name 0).along
      (Q := fun copy t => t.state.components.get? copy = some (s.state.shell x.kind x.name))
      hs ?_) (fun copy t ht => ⟨hdraft ht.1, _, ht.2.2, ?_⟩) fun _ _ h => h
    · exact (wp_newShell x.kind x.name).mpr (get?_shelled_next _ _ _)
    · have hi : x.interior = none := by
        have hfalse : x.kind.isModule = false := by
          cases hkind : x.kind with
          | module kind => exact absurd hkind (hk kind)
          | _ => rfl
        rw [hfalse] at hmodule
        exact Option.not_isSome_iff_eq_none.mp (by simp [← hmodule])
      exact ⟨rfl, rfl, rfl, rfl, rfl, hi ▸ .none⟩

section

variable {base : Netlist} (hn : n.Keeps base)
  (hs : (Scope.beyond pins base).Knows (draftFacts copy) s.state)
  (hx' : s.state.components.get? copy = some x')

include hn hs hx'

theorem copyDataPorts_ok {ps : List PortId} (hps : ∀ p ∈ ps, p.index < n.ports.size) :
    wp (ps.forM fun p => do discard (makeDataPort copy (← port p).name))
      (fun _ t => (Scope.beyond pins base).Knows (draftFacts copy) t.state ∧
        ∃ qs, qs.length = ps.length ∧
          t.state.components.get? copy = some { x' with dataPorts := x'.dataPorts ++ qs })
      Never s := by
  induction ps generalizing s x' with
  | nil => exact ⟨hs, [], rfl, by simpa using hx'⟩
  | cons p ps ih =>
      obtain ⟨y, hy⟩ := Arena.exists_get? (hps p (by simp))
      have hk := (hn.trans hs.sound.linked.keeps).ports
      rw [wp_forM_cons, wp_bind]
      refine (wp_port ((hk.get? p (Arena.lt_of_get? hy)).trans hy)).mpr (wp_discard.mpr ?_)
      refine wp_mono ((safe_makeDataPort id (by simp [draftFacts]) (by simp [draftFacts])
        y.name).along hs (makeDataPort_ok trivial hs (by simp [draftFacts]) hx' y.name))
        (fun q t ht => ?_) fun _ _ h => h
      refine wp_mono (ih (ht.1.mono fun _ h => List.mem_append_right _ h) ht.2.2 fun r hr =>
        hps r (by simp [hr])) (fun _ u hu => ⟨hu.1, ?_⟩) fun _ _ h => h
      obtain ⟨qs, hlength, hu⟩ := hu.2
      exact ⟨q :: qs, by simp [hlength], by simpa using hu⟩

theorem copyPorts_ok (hthis : x'.this = none)
    (hps : ∀ p ∈ x.dataPorts, p.index < n.ports.size) :
    wp (copyPorts x copy)
      (fun _ t => (Scope.beyond pins base).Knows (draftFacts copy) t.state ∧
        ∃ this qs, this.isSome = x.this.isSome ∧ qs.length = x.dataPorts.length ∧
          t.state.components.get? copy =
            some { x' with this := this, dataPorts := x'.dataPorts ++ qs })
      Never s := by
  simp only [copyPorts]
  cases h : x.this with
  | none =>
      refine wp_mono (copyDataPorts_ok hn hs hx' hps) (fun _ t ht => ⟨ht.1, none, ?_⟩)
        fun _ _ h => h
      obtain ⟨qs, hlength, ht⟩ := ht.2
      exact ⟨qs, rfl, hlength, by rw [ht, ← hthis]⟩
  | some p =>
      simp only [Option.isSome_some, if_true, wp_bind, wp_discard]
      refine wp_mono ((safe_makeThisPort id (by simp [draftFacts]) (by simp [draftFacts])).along hs
        (makeThisPort_ok trivial hs (by simp [draftFacts]) hx' hthis)) (fun q t ht => ?_)
        fun _ _ h => h
      refine wp_mono (copyDataPorts_ok hn (ht.1.mono fun _ h => List.mem_append_right _ h) ht.2.2
        hps) (fun _ u hu => ⟨hu.1, some q, ?_⟩) fun _ _ h => h
      obtain ⟨qs, hlength, hu⟩ := hu.2
      exact ⟨qs, rfl, hlength, hu⟩

end

/-! ### Flags -/

/-- `x'` with the flags of `x`. -/
def Component.flagged (x x' : Component) : Component :=
  { x' with
    consumesClock := x.consumesClock
    consumesReset := x.consumesReset
    consumesGo := x.consumesGo
    producesDone := x.producesDone
    doneSynchronous := x.doneSynchronous }

theorem changeComponent_ok (hx : s.state.components.get? c = some x) (f : Component → Component) :
    wp (changeComponent c f) (fun _ t => t.state.components.get? c = some (f x)) Never s := by
  refine (wp_changeComponent (Arena.lt_of_get? hx)).mpr ?_
  simp [Arena.get?_modify_self, hx]

theorem setConsumesGo_ok (hx : s.state.components.get? c = some x)
    (hin : ∀ i, x.interior = some i → i.inBuf ≠ c ∧ i.inBuf.index < s.state.components.size)
    (on : Bool) : wp (setConsumesGo c on)
      (fun _ t => t.state.components.get? c = some { x with consumesGo := on }) Never s := by
  have hx' : (s.state.components.modify c fun y => { y with consumesGo := on }).get? c =
      some { x with consumesGo := on } := by
    simp [Arena.get?_modify_self, hx]
  rw [setConsumesGo, wp_bind]
  refine (wp_changeComponent (Arena.lt_of_get? hx)).mpr ?_
  rw [wp_bind]
  refine (wp_component hx').mpr ?_
  split
  · exact hx'
  · next i hi =>
    refine (wp_changeComponent (by simpa using (hin i hi).2)).mpr ?_
    exact (Arena.get?_modify_of_ne _ (hin i hi).1 _).trans hx'

theorem setProducesDone_ok (hx : s.state.components.get? c = some x) (hexits : x.exits = ∅)
    (on : Bool) : wp (setProducesDone c on)
      (fun _ t => t.state.components.get? c = some { x with producesDone := on }) Never s := by
  have hx' : (s.state.components.modify c fun y => { y with producesDone := on }).get? c =
      some { x with producesDone := on } := by
    simp [Arena.get?_modify_self, hx]
  rw [setProducesDone, wp_bind]
  refine (wp_changeComponent (Arena.lt_of_get? hx)).mpr ?_
  rw [wp_bind]
  refine (wp_component hx').mpr ?_
  split
  · simp only [outBufs, wp_bind]
    refine (wp_component hx').mpr ?_
    have hvalues : x.exits.values = [] := by rw [hexits]; rfl
    simp only [hvalues, List.mapM_nil, wp_pure, List.filterMap_nil]
    exact hx'
  · exact hx'

theorem copyFlags_ok (hx' : s.state.components.get? copy = some x') (hexits : x'.exits = ∅)
    (hin : ∀ i, x'.interior = some i → i.inBuf ≠ copy ∧ i.inBuf.index < s.state.components.size) :
    wp (copyFlags x copy) (fun _ t => t.state.components.get? copy = some (x.flagged x'))
      Never s := by
  have hlt := Arena.lt_of_get? hx'
  simp only [copyFlags, setConsumesClock, setConsumesReset, wp_bind]
  refine (wp_changeComponent hlt).mpr ((wp_changeComponent (by simpa using hlt)).mpr ?_)
  refine wp_mono (setConsumesGo_ok (x := { x' with
    consumesClock := x.consumesClock, consumesReset := x.consumesReset })
    (by simp [Arena.get?_modify_self, hx']) (by simpa using hin) _) (fun _ t ht => ?_) fun _ _ h => h
  exact wp_mono (setProducesDone_ok ht hexits _) (fun _ u hu => changeComponent_ok hu _)
    fun _ _ h => h

/-! ### The shell -/

/-- The copy of `x` while it is made, with the copies of some of the children. -/
structure Draft (x x' : Component) (children : List ComponentId) : Prop where
  kind : x'.kind = x.kind
  owner : x'.owner = none
  this : x'.this.isSome = x.this.isSome
  data : x'.dataPorts.length = x.dataPorts.length
  flags : FlagTwin x x'
  interior : Option.Rel (fun _ i' => i'.children = children ∧ i'.feedback = []) x.interior
    x'.interior

theorem copyShell_ok (hn : n.Keeps s.state) (hx : n.components.get? c = some x)
    (hkind : x.kind.Fits pins s.state) (hmodule : x.kind.isModule = x.interior.isSome)
    (hps : ∀ p ∈ x.dataPorts, p.index < n.ports.size) :
    wp (copyShell c)
      (fun copy t => (Scope.beyond pins s.state).Knows (draftFacts copy) t.state ∧
        ∃ x', t.state.components.get? copy = some x' ∧ x'.exits = ∅ ∧ Draft x x' []) Never s := by
  rw [copyShell, wp_bind]
  refine (wp_component ((hn.components.get? c (Arena.lt_of_get? hx)).trans hx)).mpr ?_
  rw [wp_bind]
  refine wp_mono (newLike_ok hkind hmodule) (fun copy t ht => ?_) fun _ _ h => h
  obtain ⟨hknows, x₀, hx₀, hblank⟩ := ht
  rw [wp_bind]
  refine wp_mono (copyPorts_ok hn hknows hx₀ hblank.this hps) (fun _ u hu => ?_) fun _ _ h => h
  obtain ⟨hknows, this, qs, hthis, hqs, hu⟩ := hu
  have hcopy := (hknows.facts (.has (.component copy)) (by simp [draftFacts])).1
  rw [wp_bind]
  refine wp_mono ((safe_copyFlags x (by simp [draftFacts]) (by simp [draftFacts])).along hknows
    (copyFlags_ok hu hblank.exits fun i hi => ?_)) (fun _ v hv => ?_) fun _ _ h => h
  · obtain ⟨_, _, _, -, hne, -⟩ :=
      (hknows.sound.shaped trivial).inBuf hknows.sound.linked hu hcopy hi
    exact ⟨hne, (hknows.sound.linked.inBuf_new hu hcopy hi).2⟩
  · refine ⟨hv.1, _, hv.2.2, hblank.exits, hblank.kind, hblank.owner, hthis, ?_,
      ⟨rfl, rfl, rfl, rfl, rfl⟩, hblank.interior⟩
    simpa [Component.flagged, hblank.dataPorts] using hqs

end DataflowSynth.Netlist
