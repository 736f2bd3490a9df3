/-
Steps on designs keep the netlist linked and shaped.

Besides its netlist a design has handles of its own: the root module, the terminals behind its pins,
and the pins of its interfaces.  As long as these stand for something, a step on a design does to the
netlist only what steps on netlists do.
-/
import DataflowSynth.Proofs.Design.Frame
import DataflowSynth.Proofs.Netlist.Calls

namespace DataflowSynth.Design

open Build
open Netlist (Fact Ref Scope)

/-! ### What is known -/

def PinLink.ref : PinLink → Ref
  | .port p => .port p
  | .bus b => .bus b

section

variable {strict : Prop} (G : Netlist.Guard {} strict)

/-- What is watched in a design. -/
def scope (d : Design) : Scope := .guarded G d.pins.size

def Holds (d : Design) (f : Fact) : Prop := (d.scope G).Holds d.netlist f

/-- The netlist is sound, and so are the handles that the design uses. -/
structure Sound (d : Design) : Prop where
  netlist : (d.scope G).Sound d.netlist
  root : d.Holds G (.plain d.root)
  links : ∀ h p, d.pins.get? h = some p → d.Holds G (.has p.link.ref)
  fifos : ∀ h f, d.fifos.get? h = some f → ∀ p ∈ f.pins.toList, d.Holds G (.pin p)

structure Knows (K : List Fact) (d : Design) : Prop where
  sound : d.Sound G
  facts : ∀ f ∈ K, d.Holds G f

/-- Nothing that was known becomes untrue. -/
def Carries (d d' : Design) : Prop := ∀ f, d.Holds G f → d'.Holds G f

/-- What is left when a step fails. -/
def Failing : Failure → Traced Design → Prop
  | .abort _, _ => True
  | .error _, t => t.state.Sound G

/-- The step keeps the design sound and establishes `P`, given the facts in `K`. -/
def Safe (K : List Fact) {α : Type} (x : Step α) (P : α → List Fact) : Prop :=
  ∀ s : Traced Design, Knows G K s.state →
    wp x (fun a t => Knows G (P a) t.state ∧ Carries G s.state t.state) (Failing G) s

end

variable {strict : Prop} {G : Netlist.Guard {} strict} {K : List Fact} {α β : Type} {d d' : Design}

theorem Knows.mono {K' : List Fact} (h : d.Knows G K) (hsub : ∀ f ∈ K', f ∈ K) :
    d.Knows G K' := ⟨h.sound, fun f hf => h.facts f (hsub f hf)⟩

/-- More pins, and a netlist that has evolved. -/
theorem Sound.carries (h : d.Sound G) (hpins : d.pins.size ≤ d'.pins.size)
    (he : (d.scope G).Evolves d.netlist d'.netlist) : Carries G d d' := by
  intro f hf
  have hf' := h.netlist.holds_mono he hf
  cases f with
  | fits kind => exact ⟨hf'.components, fun p hp => Nat.lt_of_lt_of_le (hf'.pins p hp) hpins⟩
  | pin p => exact Nat.lt_of_lt_of_le hf' hpins
  | _ => exact hf'

/-- Only the netlist has changed. -/
theorem Sound.rewire (h : d.Sound G) {n : Netlist} (hn : (d.scope G).Sound n)
    (he : (d.scope G).Evolves d.netlist n) : Sound G { d with netlist := n } := by
  have hcarries : Carries G d { d with netlist := n } := h.carries (Nat.le_refl _) he
  exact ⟨hn, hcarries _ h.root, fun l p hp => hcarries _ (h.links l p hp),
    fun l f hf p hp => hcarries (.pin p) (h.fifos l f hf p hp)⟩

namespace Safe

variable {x : Step α} {P : α → List Fact}

theorem bind {f : α → Step β} {P' : β → List Fact} (hx : Safe G K x P)
    (hf : ∀ a, Safe G (P a ++ K) (f a) P') : Safe G K (x >>= f) P' := by
  intro s hs
  rw [wp_bind]
  refine wp_mono (hx s hs) (fun a t ht => ?_) fun _ _ h => h
  have hknows : t.state.Knows G (P a ++ K) := by
    refine ⟨ht.1.sound, fun f hf => ?_⟩
    rcases List.mem_append.mp hf with hf | hf
    · exact ht.1.facts f hf
    · exact ht.2 f (hs.facts f hf)
  exact wp_mono (hf a t hknows) (fun _ u hu => ⟨hu.1, fun f hf => hu.2 f (ht.2 f hf)⟩)
    fun _ _ h => h

theorem weaken {K' : List Fact} {P' : α → List Fact} (hx : Safe G K x P)
    (hK : ∀ f ∈ K, f ∈ K') (hP : ∀ a, ∀ f ∈ P' a, f ∈ P a) : Safe G K' x P' :=
  fun s hs => wp_mono (hx s (hs.mono hK)) (fun a _ ht => ⟨ht.1.mono (hP a), ht.2⟩) fun _ _ h => h

protected theorem pure {a : α} (h : ∀ f ∈ P a, f ∈ K) : Safe G K (pure a) P :=
  fun _ hs => ⟨hs.mono h, fun _ h => h⟩

theorem fail (e : Error) : Safe G K (Build.fail e) P := fun _ hs => hs.sound

/-- Whatever would come after a failure. -/
theorem failed {g : Unit → Step α} (e : Error) : Safe G K (Build.fail e >>= g) P :=
  fun _ hs => hs.sound

theorem log (level : Level) (source : Source) (message : String) :
    Safe G K (Build.log level source message) fun _ => [] :=
  fun _ hs => ⟨hs.mono (by simp), fun _ h => h⟩

/-- What is seen may have been known. -/
theorem look {f : Design → α} (hf : ∀ d, Knows G K d → ∀ g ∈ P (f d), d.Holds G g) :
    Safe G K (Build.look f) P :=
  fun _ hs => ⟨⟨hs.sound, hf _ hs⟩, fun _ h => h⟩

/-- A change of what has no part in the netlist. -/
theorem change {f : Design → Design} (hnetlist : ∀ d, (f d).netlist = d.netlist)
    (hroot : ∀ d, (f d).root = d.root) (hpins : ∀ d, (f d).pins = d.pins)
    (hfifos : ∀ d, (f d).fifos = d.fifos) : Safe G K (Build.change f) fun _ => [] := by
  intro s hs
  have hholds : ∀ g, Holds G (f s.state) g ↔ Holds G s.state g := by
    intro g
    rw [Holds, Holds, scope, scope, hnetlist, hpins]
  refine ⟨⟨⟨?_, ?_, ?_, ?_⟩, by simp⟩, fun g => (hholds g).mpr⟩
  · rw [scope, hnetlist, hpins]
    exact hs.sound.netlist
  · rw [hholds, hroot]
    exact hs.sound.root
  · simp only [hholds, hpins]
    exact hs.sound.links
  · simp only [hholds, hfifos]
    exact hs.sound.fifos

/-- A step on the netlist that is safe with the pins that are known. -/
theorem wiring {x : Netlist.Step α}
    (hx : ∀ pins, (∀ p, Fact.pin p ∈ K → p.index < pins) →
      Netlist.Safe (.guarded G pins) K x P) : Safe G K (wiring x) P := by
  intro s hs
  refine wp_within.mpr (wp_mono (hx s.state.pins.size (fun p hp => hs.facts _ hp)
    ⟨s.state.netlist, s.journal⟩ ⟨hs.sound.netlist, hs.facts⟩) (fun a t ht => ?_) fun e t ht => ?_)
  · have hcarries : Carries G s.state { s.state with netlist := t.state } :=
      hs.sound.carries (Nat.le_refl _) ht.2
    exact ⟨⟨hs.sound.rewire ht.1.sound ht.2, ht.1.facts⟩, hcarries⟩
  · cases e with
    | abort => trivial
    | error => exact hs.sound.rewire ht.2.1 ht.2.2

end Safe

/-! ### Pins -/

theorem safe_root : Safe G K (Build.look (·.root)) fun root =>
    [.has (.component root), .plain root] :=
  .look fun d hd => by
    simpa using ⟨hd.sound.root.1, hd.sound.root⟩

theorem safe_addPin {p : Pin} (hp : .has p.link.ref ∈ K) :
    Safe G K (addPin p) fun h => [.pin h] := by
  intro s hs
  have hsize : s.state.pins.size ≤ (s.state.pins.push p).size := by simp
  have hcarries : Carries G s.state { s.state with pins := s.state.pins.push p } :=
    hs.sound.carries hsize (.refl _ _)
  simp only [addPin, wp_bind, wp_look, wp_change, wp_pure]
  refine ⟨⟨⟨?_, hcarries _ hs.sound.root, fun h q hq => ?_, fun h f hf q hq => ?_⟩, ?_⟩, hcarries⟩
  · exact ⟨hs.sound.netlist.linked.morePins hsize, hs.sound.netlist.shaped,
      hs.sound.netlist.guarded⟩
  · rcases Arena.get?_push_cases hq with ⟨-, rfl⟩ | hq
    · exact hcarries _ (hs.facts _ hp)
    · exact hcarries _ (hs.sound.links h q hq)
  · exact hcarries (.pin q) (hs.sound.fifos h f hf q hq)
  · simp [Holds, Scope.Holds, scope, Scope.guarded]

theorem safe_pinBus? (p : PinId) :
    Safe G K (pinBus? p) fun b => b.toList.map fun b => .has (.bus b) := by
  refine .bind (P := fun o => o.toList.map fun p => .has p.link.ref) (.look fun d hd f hf => ?_)
    fun o => ?_
  · obtain ⟨q, hq, rfl⟩ := List.mem_map.mp hf
    exact hd.sound.links p q (Option.mem_toList.mp hq)
  · split
    · next q =>
      refine .bind (.wiring fun _ _ => Netlist.safe_port (p := q) (by simp [PinLink.ref]))
        fun y => .pure fun f hf => ?_
      obtain ⟨b, hb, rfl⟩ := List.mem_map.mp hf
      simp [Option.mem_toList.mp hb]
    · exact .pure (by simp)

theorem safe_addInputPin (name : String) (signal : Signal) (role : PinRole) :
    Safe G K (addInputPin name signal role) fun h => [.pin h] :=
  .bind safe_root fun root => .bind (P := fun p => [.has (.port p)]) (.wiring fun _ _ => .bind
    (Netlist.safe_makeDataPort (fun h => h) (by simp) (by simp) name) fun p => .bind
    (Netlist.safe_setPortSignal (by simp) signal) fun _ => .bind
    (Netlist.safe_port (by simp)) fun y => .bind_expect fun b hb => .bind
    (Netlist.safe_setBusSignal (by simp [hb]) signal) fun _ => .bind
    (Netlist.safe_changePort (by simp) (fun _ => rfl) fun _ => rfl) fun _ => .pure (by simp))
    fun p => (safe_addPin (by simp [PinLink.ref])).weaken (fun _ h => h) (by simp)

theorem safe_addOutputPin (name : String) (signal : Signal) (role : PinRole) :
    Safe G K (addOutputPin name signal role) fun h => [.pin h] :=
  .bind safe_root fun root => .bind (P := fun b => [.has (.bus b)]) (.wiring fun _ _ => .bind
    (Netlist.safe_mainExit_plain (by simp) (by simp)) fun e => .bind
    (Netlist.safe_makeDataBus (fun h => h) (by simp) (by simp) name) fun b => .bind
    (Netlist.safe_setBusSignal (by simp) signal) fun _ => .bind
    (Netlist.safe_changeBus (by simp) (fun _ => rfl) fun _ => rfl) fun _ => .pure (by simp))
    fun b => (safe_addPin (by simp [PinLink.ref])).weaken (fun _ h => h) (by simp)

/-! ### Interfaces -/

theorem safe_addFifoPins (spec : FifoSpec) :
    Safe G K (addFifoPins spec) fun pins => pins.toList.map .pin := by
  simp only [addFifoPins]
  split
  · refine .bind (safe_addInputPin _ _ _) fun data => ?_
    split
    · exact .pure (by simp [FifoPins.toList])
    · exact .bind (safe_addInputPin _ _ _) fun send => .bind (safe_addOutputPin _ _ _) fun ack =>
        .pure (by simp [FifoPins.toList])
  · exact .bind (safe_addOutputPin _ _ _) fun data => .bind (safe_addOutputPin _ _ _) fun send =>
      .bind (safe_addInputPin _ _ _) fun ack => .bind (safe_addInputPin _ _ _) fun ready =>
      .pure (by simp [FifoPins.toList])

theorem safe_pushFifo {f : Fifo} (hf : ∀ p ∈ f.pins.toList, .pin p ∈ K) :
    Safe G K (Build.change fun d => { d with fifos := d.fifos.push f }) fun _ => [] := by
  intro s hs
  refine ⟨⟨⟨hs.sound.netlist, hs.sound.root, hs.sound.links, fun h g hg p hp => ?_⟩, by simp⟩,
    fun _ h => h⟩
  rcases Arena.get?_push_cases hg with ⟨-, rfl⟩ | hg
  · exact hs.facts _ (hf p hp)
  · exact hs.sound.fifos h g hg p hp

theorem safe_getFifo (spec : FifoSpec) : Safe G K (getFifo spec) fun _ => [] := by
  unfold getFifo
  split
  · exact .failed _
  · refine .bind (P := fun _ => []) (.look (by simp)) fun o => ?_
    split
    · split
      · exact .failed _
      · exact .pure (by simp)
    · exact .bind (safe_addFifoPins spec) fun pins => .bind (P := fun _ => []) (.look (by simp))
        fun h => .bind (safe_pushFifo (by simp +contextual)) fun _ => .bind (.log _ _ _) fun _ =>
        .pure (by simp)

theorem safe_fifoAccess (h : FifoId) (kind : AccessKind) :
    Safe G K (fifoAccess h kind) fun m => [.has (.component m)] := by
  refine .bind (P := fun f => f.pins.toList.map .pin) (.bind (P := fun o =>
    o.toList.flatMap fun f => f.pins.toList.map .pin) (.look fun d hd g hg => ?_) fun o => ?_)
    fun f => .wiring fun pins hpins => ?_
  · obtain ⟨f, hf, p, hp, rfl⟩ : ∃ f, d.fifos.get? h = some f ∧ ∃ p ∈ f.pins.toList, .pin p = g := by
      simpa using hg
    exact hd.sound.fifos h f hf p hp
  · cases o with
    | none => exact fun _ _ => trivial
    | some f => exact .pure (by simp +contextual)
  · exact Fifo.safe_access id (fun p hp => hpins p (by simp [hp])) id kind

/-! ### Clocks and resets -/

/-- A refusal comes before anything else. -/
theorem Safe.guard {c : Prop} [Decidable c] {e : Error} {y : Step α} {P : α → List Fact}
    (hy : Safe G K y P) :
    Safe G K (if c then do (Build.fail e : Step PUnit); y else y) P := by
  split
  · exact .bind (P := fun _ => []) (.fail e) fun _ => hy
  · exact hy

theorem safe_namedPin {name : String} {role : PinRole}
    {known : Design → OrderedMap String PinId} {note : PinId → Design → Design}
    (hnetlist : ∀ p d, (note p d).netlist = d.netlist) (hroot : ∀ p d, (note p d).root = d.root)
    (hpins : ∀ p d, (note p d).pins = d.pins) (hfifos : ∀ p d, (note p d).fifos = d.fifos) :
    Safe G K (do
      match ← Build.look fun d => (known d).find? name with
      | some p => return p
      | none =>
        let p ← addInputPin name .bit role
        Build.change (note p)
        return p) fun _ => [] := by
  refine .bind (P := fun _ => []) (.look (by simp)) fun o => ?_
  split
  · exact .pure (by simp)
  · exact .bind (safe_addInputPin _ _ _) fun p => .bind
      (.change (hnetlist p) (hroot p) (hpins p) (hfifos p)) fun _ => .pure (by simp)

theorem safe_clockPin (name : String) : Safe G K (clockPin name) fun _ => [] :=
  .bind (P := fun _ => []) (.look (by simp)) fun _ => .guard <| safe_namedPin (fun _ _ => rfl)
    (fun _ _ => rfl) (fun _ _ => rfl) fun _ _ => rfl

theorem safe_resetPin (name clock : String) : Safe G K (resetPin name clock) fun _ => [] :=
  .guard <| .bind (P := fun _ => []) (.look (by simp)) fun _ => .guard <| safe_namedPin
    (fun _ _ => rfl) (fun _ _ => rfl) (fun _ _ => rfl) fun _ _ => rfl

theorem safe_addSync (clock reset : PinId) :
    Safe G K (addSync clock reset) fun sync => [.has (.component sync)] := by
  refine .bind safe_root fun root => .bind (P := fun sync => [.has (.component sync)])
    (.wiring fun _ _ => .bind (Netlist.safe_newPrimitive (fun h => h)
      (Netlist.ComponentKind.fitsIn_of_none rfl rfl) _ _ _) fun sync => .bind
      (Netlist.safe_setConsumesClock (by simp [Netlist.newFacts]) true) fun _ => .bind
      (Netlist.safe_addComponent (fun h => h) (by simp) (by simp [Netlist.newFacts])) fun _ =>
      .pure (by simp [Netlist.newFacts])) fun sync => .bind (safe_pinBus? clock) fun clockBus =>
    .bind (safe_pinBus? reset) fun resetBus => .bind (P := fun _ => []) (.wiring fun _ _ => .bind
      (Netlist.safe_component (by simp)) fun x => .bind
      (Netlist.safe_setBus (by simp) fun b hb => ?_) fun _ => .bind
      (Netlist.safe_dataPort (by simp) 0) fun p => Netlist.safe_setBus (by simp) fun b hb => ?_)
    fun _ => .pure (by simp)
  · simp [hb]
  · simp [hb]

theorem safe_clockDomain (spec : String) : Safe G K (clockDomain spec) fun _ => [] := by
  refine .bind (P := fun _ => []) (.look (by simp)) fun o => ?_
  have hput : ∀ {K'} (domain : ClockDomain), Safe G K' (do
      Build.change fun d => { d with domains := d.domains.put spec domain }
      return domain) fun _ => [] := fun domain =>
    .bind (.change (fun _ => rfl) (fun _ => rfl) (fun _ => rfl) fun _ => rfl) fun _ => .pure (by simp)
  split
  · exact .pure (by simp)
  · refine .guard <| .guard <| .bind (safe_clockPin _) fun clock => ?_
    split
    · exact .bind (P := fun _ => []) (.pure (by simp)) fun _ => hput _
    · exact .bind (safe_resetPin _ _) fun reset => .bind (safe_addSync _ _) fun sync => .bind
        (P := fun _ => []) (.pure (by simp)) fun _ => hput _

theorem safe_connectToDomain {c : ComponentId} {domain : ClockDomain}
    (hc : .has (.component c) ∈ K) (hsync : ∀ s, domain.sync = some s → .has (.component s) ∈ K) :
    Safe G K (connectToDomain c domain) fun _ => [] := by
  rw [connectToDomain_eq]
  refine .bind (.wiring fun _ _ => Netlist.safe_component hc) fun x => ?_
  have hreset : ∀ {K'}, (∀ f ∈ x.facts c ++ K, f ∈ K') → Safe G K' (connectReset x domain)
      fun _ => [] := by
    intro K' hK
    unfold connectReset
    split
    · split
      · exact .pure (by simp)
      · next sync hs =>
        refine .wiring fun _ _ => .bind (Netlist.safe_resultBus (hK _ (by simp [hsync sync hs])))
          fun b => Netlist.safe_setBus ?_ (by simp)
        exact List.mem_append_right _ (hK _ (by simp))
    · exact .pure (by simp)
  split
  · refine .bind (safe_pinBus? _) fun b => .bind (P := fun _ => [])
      (.wiring fun _ _ => Netlist.safe_setBus (by simp) fun d hd => ?_) fun _ => hreset ?_
    · simp [hd]
    · simp +contextual
  · exact hreset fun _ h => h

/-! ### Tasks -/

theorem safe_wrapBody {S : Scope} (hq : ¬ S.quiet) {body : ComponentId}
    (hbody : .has (.component body) ∈ K) (name : String) :
    Netlist.Safe S K (wrapBody name body) fun call => [.has (.component call)] := by
  have hkind : (Netlist.ComponentKind.module (.task body)).FitsIn S K := fun n hn =>
    ⟨by simpa [Netlist.ComponentKind.components] using (hn.facts _ hbody).2,
      by simp [Netlist.ComponentKind.pins]⟩
  refine .bind (Netlist.safe_newModule hq hkind name 0) fun call => .bind
    (Netlist.safe_addComponent hq (by simp [Netlist.newFacts]) (by simp [hbody])) fun _ => .bind
    (Netlist.safe_component (by simp [hbody])) fun x => .bind
    (Netlist.safe_goBus (by simp [Netlist.newFacts])) fun go => .bind
    (Netlist.safe_clockBus (by simp [Netlist.newFacts])) fun clock => .bind
    (Netlist.safe_resetBus (by simp [Netlist.newFacts])) fun reset => .bind
    (Netlist.safe_setBus (by simp) (by simp)) fun _ => .bind
    (Netlist.safe_setBus (by simp) (by simp)) fun _ => .bind
    (Netlist.safe_setBus (by simp) (by simp)) fun _ => .bind
    (Netlist.safe_mergeExits hq (by simp [Netlist.newFacts]) (by simp [Netlist.newFacts])
      (by simp [hbody])) fun _ => .bind (Netlist.safe_component (by simp [hbody])) fun y => ?_
  have hmarks : ∀ {K'}, Fact.has (.component call) ∈ K' → Fact.plain call ∈ K' →
      Fact.has (.component body) ∈ K' → Netlist.Safe S K' (do
        let x ← Netlist.component body
        Netlist.setConsumesClock call x.consumesClock
        Netlist.setConsumesReset call x.consumesReset
        Netlist.setConsumesGo call x.consumesGo
        Netlist.setProducesDone call x.producesDone
        return call) fun call => [.has (.component call)] := fun hcall hplain hbody =>
    .bind (Netlist.safe_component hbody) fun x => .bind
      (Netlist.safe_setConsumesClock (by simp [hcall]) _) fun _ => .bind
      (Netlist.safe_setConsumesReset (by simp [hcall]) _) fun _ => .bind
      (Netlist.safe_setConsumesGo (by simp [hcall]) _ fun _ => by simp [hplain]) fun _ => .bind
      (Netlist.safe_setProducesDone (by simp [hcall]) _ fun _ => by simp [hplain]) fun _ =>
      .pure (by simp [hcall])
  cases hmain : y.mainExit? with
  | none => exact hmarks (by simp [Netlist.newFacts]) (by simp [Netlist.newFacts]) (by simp [hbody])
  | some e =>
      have he : e ∈ y.exits.values := OrderedMap.mem_values_of_find? hmain
      exact .bind (Netlist.safe_mainOutBuf (by simp [Netlist.newFacts])) fun o => .bind
        (Netlist.safe_component (by simp)) fun _ => .bind (Netlist.safe_exit (by simp [he])) fun _ =>
        .bind (Netlist.safe_setBus (by simp) (by simp)) fun _ =>
        hmarks (by simp [Netlist.newFacts]) (by simp [Netlist.newFacts]) (by simp [hbody])

theorem safe_addTask {body : ComponentId} (hbody : .has (.component body) ∈ K) (name : String) :
    Safe G K (addTask name body) fun _ => [] :=
  .bind safe_root fun root => .bind (P := fun _ => []) (.wiring fun _ _ => .bind
    (safe_wrapBody (fun h => h) (by simp [hbody]) name) fun call => .bind
    (Netlist.safe_addComponent (fun h => h) (by simp) (by simp)) fun _ => .pure (by simp))
    fun call => .bind (P := fun _ => []) (.look (by simp)) fun t => .bind
    (.change (fun _ => rfl) (fun _ => rfl) (fun _ => rfl) fun _ => rfl) fun _ => .pure (by simp)

end DataflowSynth.Design
