/-
The links of a netlist agree, whatever has been done to it.

Connections are stored at both ends, and ownership is stored with the owner and with what it owns.  In
every netlist that calls lead to, whether it stands alone or in a design, the two sides say the same
and no handle leads nowhere.
-/
import DataflowSynth.Proofs.Design.Sound

namespace DataflowSynth

namespace Netlist

/-! ### Consistent netlists -/

/-- Both sides of every link agree, and every handle stands for something. -/
structure Consistent (pins : Nat) (n : Netlist) : Prop where
  /-- A port is among those of its driver, once, and of no other bus. -/
  fanOut : ∀ p y b z, n.ports.get? p = some y → n.buses.get? b = some z →
    z.ports.count p = if y.bus = some b then 1 else 0
  components : ∀ c x, n.components.get? c = some x → (∀ r ∈ x.refs, r.In n) ∧ x.kind.Fits pins n
  ports : ∀ p y, n.ports.get? p = some y → ∀ r ∈ y.refs, r.In n
  buses : ∀ b z, n.buses.get? b = some z → ∀ r ∈ z.refs, r.In n
  exits : ∀ e y, n.exits.get? e = some y → ∀ r ∈ y.refs, r.In n
  entries : ∀ e y, n.entries.get? e = some y → ∀ r ∈ y.refs, r.In n
  portOwner : ∀ c x p y, n.components.get? c = some x → p ∈ x.ports → n.ports.get? p = some y →
    y.owner = c
  exitOwner : ∀ c x tag e y, n.components.get? c = some x → (tag, e) ∈ x.exits.entries →
    n.exits.get? e = some y → y.owner = c ∧ y.tag = tag
  busOwner : ∀ e y b z, n.exits.get? e = some y → b ∈ y.buses → n.buses.get? b = some z →
    z.owner = e
  entryOwner : ∀ c x e y, n.components.get? c = some x → e ∈ x.entries →
    n.entries.get? e = some y → y.owner = c

theorem Linked.consistent {pins : Nat} {n : Netlist} (h : Linked pins {} n) :
    n.Consistent pins where
  fanOut p y b z hy hz := by
    have hbus := h.buses b z hz (Nat.zero_le _)
    split
    · next hdriver =>
      have hmem := (h.ports p y hy (Nat.zero_le _)).bus b hdriver z hz
      rw [hbus.nodup.count, if_pos hmem]
    · next hdriver =>
      exact List.count_eq_zero.mpr fun hmem => hdriver (hbus.ports p hmem y hy)
  components c x hx :=
    have hl := h.components c x hx (Nat.zero_le _)
    ⟨fun r hr => Ref.new_empty.mp (hl.refs r hr), hl.kind⟩
  ports p y hy r hr := Ref.new_empty.mp ((h.ports p y hy (Nat.zero_le _)).refs r hr)
  buses b z hz r hr := Ref.new_empty.mp ((h.buses b z hz (Nat.zero_le _)).refs r hr)
  exits e y hy r hr := Ref.new_empty.mp ((h.exits e y hy (Nat.zero_le _)).refs r hr)
  entries e y hy r hr := Ref.new_empty.mp (h.entries e y hy (Nat.zero_le _) r hr)
  portOwner c x p y hx hp hy := (h.components c x hx (Nat.zero_le _)).ports p hp y hy
  exitOwner c x tag e y hx he hy := (h.components c x hx (Nat.zero_le _)).exits (tag, e) he y hy
  busOwner e y b z hy hb hz := (h.exits e y hy (Nat.zero_le _)).buses b hb z hz
  entryOwner c x e y hx he hy := (h.components c x hx (Nat.zero_le _)).entries e he y hy

end Netlist

namespace Design

open Build
open Netlist (Fact Ref Scope)

/-! ### Calls on designs -/

/-- The steps on a design, with what they are told. -/
inductive Call where
  | netlist (call : Netlist.Call)
  | addInputPin (name : String) (signal : Signal) (role : PinRole)
  | addOutputPin (name : String) (signal : Signal) (role : PinRole)
  | getFifo (spec : FifoSpec)
  | fifoAccess (h : FifoId) (kind : AccessKind)
  | clockPin (name : String)
  | resetPin (name clock : String)
  | clockDomain (spec : String)
  | connectToDomain (c : ComponentId) (domain : ClockDomain)
  | addTask (name : String) (body : ComponentId)
  | nextMemoryId
  | addMemory (m : Memory)
  | newMemory (name : String) (width : UInt32) (initial : List LogicalValue)
  | removeMemory (id : UInt32)
  | addRegister (r : Register)
  | removeRegister (name : String)
  | addInclude (text : String)

namespace Call

def run : Call → Step Unit
  | .netlist call => wiring call.run
  | .addInputPin name signal role => discard (Design.addInputPin name signal role)
  | .addOutputPin name signal role => discard (Design.addOutputPin name signal role)
  | .getFifo spec => discard (Design.getFifo spec)
  | .fifoAccess h kind => discard (Design.fifoAccess h kind)
  | .clockPin name => discard (Design.clockPin name)
  | .resetPin name clock => discard (Design.resetPin name clock)
  | .clockDomain spec => discard (Design.clockDomain spec)
  | .connectToDomain c domain => Design.connectToDomain c domain
  | .addTask name body => discard (Design.addTask name body)
  | .nextMemoryId => discard Design.nextMemoryId
  | .addMemory m => Design.addMemory m
  | .newMemory name width initial => discard (Design.newMemory name width initial)
  | .removeMemory id => discard (Design.removeMemory id)
  | .addRegister r => Design.addRegister r
  | .removeRegister name => discard (Design.removeRegister name)
  | .addInclude text => Design.addInclude text

/-- The handles into the netlist that a call is told. -/
def refs : Call → List Ref
  | .netlist call => call.refs
  | .connectToDomain c domain => .component c :: domain.sync.toList.map .component
  | .addTask _ body => [.component body]
  | _ => []

def pins : Call → List PinId
  | .netlist call => call.pins
  | _ => []

/-- Everything that the call is told stands for something. -/
structure Fits (d : Design) (call : Call) : Prop where
  refs : ∀ r ∈ call.refs, r.In d.netlist
  pins : ∀ p ∈ call.pins, p.index < d.pins.size

/-- The call is not aimed at the terminals of an InBuf or OutBuf. -/
def Spares (d : Design) : Call → Prop
  | .netlist call => call.Spares d.netlist
  | _ => True

/-- The call does not set marks of an InBuf or OutBuf. -/
def SparesMarks (d : Design) : Call → Prop
  | .netlist call => call.SparesMarks d.netlist
  | _ => True

/-- What has to be known before a call. -/
def facts : Call → List Fact
  | .netlist call => call.facts ++ call.pins.map .pin
  | call => call.refs.map .has

/-- The component whose go and done marks a call sets. -/
def marked? : Call → Option ComponentId
  | .netlist call => call.marked?
  | _ => none

/-- What has to be known in addition where marks are watched. -/
def marks (call : Call) : List Fact := call.marked?.toList.map .plain

end Call

section

variable {strict : Prop} {G : Netlist.Guard {} strict} {K : List Fact}

theorem Safe.drop {α : Type} {x : Step α} {P : α → List Fact} (hx : Safe G K x P) :
    Safe G K (discard x) fun _ => [] :=
  fun s hs => wp_discard.mpr (hx.weaken (fun _ h => h) (by simp) s hs)

theorem safe_nextMemoryId : Safe G K nextMemoryId fun _ => [] := by
  refine .bind (P := fun _ => []) (.look (by simp)) fun id => ?_
  split
  · exact .bind (.change (fun _ => rfl) (fun _ => rfl) (fun _ => rfl) fun _ => rfl) fun _ =>
      .pure (by simp)
  · exact .fail _

theorem safe_addMemory (m : Memory) : Safe G K (addMemory m) fun _ => [] :=
  .guard <| .bind (P := fun _ => []) (.look (by simp)) fun _ => .guard <|
    .change (fun _ => rfl) (fun _ => rfl) (fun _ => rfl) fun _ => rfl

theorem Call.safe_run (call : Call) (hfirm : G.firm → call.marked? = none) :
    Safe G call.facts call.run fun _ => [] := by
  cases call with
  | netlist call =>
      refine .wiring fun pins hpins => (call.safe_run id id (Scope.fitting_guarded G pins)
        (fun p hp => ?_) hfirm).weaken (by simp +contextual [facts]) (by simp)
      exact hpins p (by simp [facts, hp])
  | addInputPin name signal role => exact (safe_addInputPin name signal role).drop
  | addOutputPin name signal role => exact (safe_addOutputPin name signal role).drop
  | getFifo spec => exact (safe_getFifo spec).drop
  | fifoAccess h kind => exact (safe_fifoAccess h kind).drop
  | clockPin name => exact (safe_clockPin name).drop
  | resetPin name clock => exact (safe_resetPin name clock).drop
  | clockDomain spec => exact (safe_clockDomain spec).drop
  | connectToDomain c domain =>
      exact safe_connectToDomain (by simp [facts, refs]) (by simp +contextual [facts, refs])
  | addTask name body => exact (safe_addTask (by simp [facts, refs]) name).drop
  | nextMemoryId => exact safe_nextMemoryId.drop
  | addMemory m => exact safe_addMemory m
  | newMemory name width initial =>
      exact Safe.drop (.bind safe_nextMemoryId fun _ => .bind (safe_addMemory _) fun _ =>
        .pure (P := fun _ => []) (by simp))
  | removeMemory id =>
      exact Safe.drop (.bind (P := fun _ => []) (.look (by simp)) fun _ => .bind
        (.change (fun _ => rfl) (fun _ => rfl) (fun _ => rfl) fun _ => rfl) fun _ =>
        .pure (P := fun _ => []) (by simp))
  | addRegister r =>
      exact .change (f := fun d => { d with registers := d.registers.put r.name r })
        (fun _ => rfl) (fun _ => rfl) (fun _ => rfl) fun _ => rfl
  | removeRegister name =>
      exact Safe.drop (.bind (P := fun _ => []) (.look (by simp)) fun _ => .bind
        (.change (fun _ => rfl) (fun _ => rfl) (fun _ => rfl) fun _ => rfl) fun _ =>
        .pure (P := fun _ => []) (by simp))
  | addInclude text =>
      exact .change (f := fun d => { d with includes := d.includes ++ [text] })
        (fun _ => rfl) (fun _ => rfl) (fun _ => rfl) fun _ => rfl

/-- Marks that are watched may be set where no buffer is. -/
theorem Call.safe_run_marks (call : Call) :
    Safe G (call.marks ++ call.facts) call.run fun _ => [] := by
  cases call with
  | netlist call =>
      refine .wiring fun pins hpins => (call.safe_run_marks id id (Scope.fitting_guarded G pins)
        fun p hp => ?_).weaken (fun f hf => ?_) (by simp)
      · exact hpins p (by simp [facts, hp])
      · rcases List.mem_append.mp hf with hf | hf
        · exact List.mem_append_left _ hf
        · simp [facts, hf]
  | _ => exact (safe_run _ fun _ => rfl).weaken (fun f hf => List.mem_append_right _ hf) (by simp)

end

/-! ### Designs that can be reached -/

/-- Designs that calls lead to.  If `strict`, none is aimed at the terminals of a buffer. -/
inductive Reached (strict : Prop) : Design → Prop where
  | new (name : String) : Reached strict (Design.new name)
  | call {d d' : Design} (call : Call) (before : Reached strict d) (fits : call.Fits d)
      (spares : strict → call.Spares d) (leaves : call.run.Leaves d d') : Reached strict d'

variable {strict : Prop} {G : Netlist.Guard {} strict} {d d' : Design}

theorem Call.Fits.knows {call : Call} (hf : call.Fits d) (hs : strict → call.Spares d)
    (hd : d.Sound G) : d.Knows G call.facts := by
  refine ⟨hd, fun f hmem => ?_⟩
  cases call with
  | netlist call =>
      have hfits : call.Fits d.pins.size d.netlist := ⟨hf.refs, hf.pins⟩
      have hknows := hfits.knows hs hd.netlist
      rcases List.mem_append.mp hmem with hmem | hmem
      · exact hknows.facts f hmem
      · obtain ⟨p, hp, rfl⟩ := List.mem_map.mp hmem
        exact hf.pins p hp
  | _ =>
      obtain ⟨r, hr, rfl⟩ := List.mem_map.mp hmem
      exact Ref.new_empty.mpr (hf.refs r hr)

theorem Call.Fits.knows_marks {call : Call} (hf : call.Fits d) (hs : strict → call.Spares d)
    (hm : call.SparesMarks d) (hd : d.Sound G) : d.Knows G (call.marks ++ call.facts) := by
  have hknows := hf.knows hs hd
  cases call with
  | netlist call =>
      have hfits : call.Fits d.pins.size d.netlist := ⟨hf.refs, hf.pins⟩
      have hmarks := hfits.knows_marks hs hm hd.netlist
      refine ⟨hd, fun f hmem => ?_⟩
      rcases List.mem_append.mp hmem with hmem | hmem
      · exact hmarks.facts f (List.mem_append_left _ hmem)
      · exact hknows.facts f hmem
  | _ => exact hknows

theorem Call.sound (call : Call) (hf : call.Fits d) (hs : strict → call.Spares d)
    (hm : G.firm → call.SparesMarks d) (hd : d.Sound G) (hl : call.run.Leaves d d') :
    d'.Sound G := by
  obtain ⟨j, j', hl⟩ := hl
  have hclose : ∀ {K}, Safe G K call.run (fun _ => []) → d.Knows G K →
      wp call.run (fun _ t => t.state.Sound G) (Failing G) ⟨d, j⟩ := fun hsafe hknows =>
    wp_mono (hsafe ⟨d, j⟩ hknows) (fun _ _ h => h.1.sound) fun _ _ h => h
  have hrun : wp call.run (fun _ t => t.state.Sound G) (Failing G) ⟨d, j⟩ := by
    by_cases hfirm : G.firm
    · exact hclose call.safe_run_marks (hf.knows_marks hs (hm hfirm) hd)
    · exact hclose (call.safe_run fun h => absurd h hfirm) (hf.knows hs hd)
  unfold wp at hrun
  rcases hl with ⟨a, ha⟩ | ⟨e, he⟩
  · rw [ha] at hrun
    exact hrun
  · rw [he] at hrun
    exact hrun

theorem safe_newRoot {S : Scope} (hq : ¬ S.quiet) (name : String) :
    Netlist.Safe S [] (newRoot name) fun root => [.plain root] :=
  .bind (Netlist.safe_newModule hq (Netlist.ComponentKind.fitsIn_of_none rfl rfl) name 0)
    fun root => .bind (Netlist.safe_makeExit hq (by simp [Netlist.newFacts])
      (by simp [Netlist.newFacts]) 0 .done) fun _ => .pure (by simp [Netlist.newFacts])

/-- The root module is always made. -/
theorem newRoot_ends (name : String) (s : Traced Netlist) :
    wp (newRoot name) (fun _ _ => True) (fun _ _ => False) s := by
  simp only [newRoot, wp_bind]
  refine Iff.mpr (Netlist.wp_newModule _ _ _) (Iff.mpr (Netlist.wp_makeExit_module
    (x := s.state.newModuleComponent .design name) ?_ rfl rfl 0) trivial)
  simp [Netlist.get?_withModule]

theorem newRoot_knows {S : Scope} (hq : ¬ S.quiet) (name : String) {s : Traced Netlist}
    (hs : S.Sound s.state) :
    wp (newRoot name) (fun root t => S.Knows [.plain root] t.state) (fun _ _ => False) s := by
  have hsafe := safe_newRoot hq name s ⟨hs, by simp⟩
  exact wp_mono (wp_and (newRoot_ends name s) hsafe) (fun _ _ h => h.2.1) fun _ _ h => h.1

/-- A root module makes a design of any netlist. -/
theorem sound_newRoot {n : Netlist} (hn : (Scope.guarded G 0).Sound n) (name : String) :
    Sound G (
      let (outcome, traced) := (newRoot name).run { state := n }
      { name, netlist := traced.state, root := (outcome.toOption).getD ⟨0⟩ }) := by
  have hroot : wp (newRoot name) (fun root t => (Scope.guarded G 0).Knows [.plain root] t.state)
      (fun _ _ => False) ⟨n, #[]⟩ := newRoot_knows (fun h => h) name hn
  unfold wp at hroot
  cases hrun : newRoot name ⟨n, #[]⟩ with
  | ok root t =>
      rw [hrun] at hroot
      have heq : (newRoot name).run ⟨n, #[]⟩ = (.ok root, t) := by
        unfold Build.run
        rw [hrun]
      rw [heq]
      exact ⟨hroot.sound, hroot.facts (.plain root) (by simp), by simp, by simp⟩
  | error e t =>
      rw [hrun] at hroot
      exact hroot.elim

theorem sound_new (hempty : G.holds {}) (name : String) : (Design.new name).Sound G :=
  sound_newRoot ⟨.refl 0 {}, fun _ => .refl {}, hempty⟩ name

theorem Reached.guarded (h : Reached strict d) (hfirm : ¬ G.firm) (hempty : G.holds {}) :
    d.Sound G := by
  induction h with
  | new name => exact sound_new hempty name
  | call call _ fits spares leaves ih =>
      exact call.sound fits spares (fun h => absurd h hfirm) ih leaves

theorem Reached.sound (h : Reached strict d) : d.Sound (.none {} strict) := h.guarded id trivial

end Design

/-! ### The links of all netlists -/

/-- A netlist that calls lead to, standing alone or in a design. -/
inductive Netlist.Reachable : Netlist → Prop where
  | alone {pins : Nat} {n : Netlist} (reached : Netlist.Reached False pins n) : Reachable n
  | inDesign {d : Design} (reached : Design.Reached False d) : Reachable d.netlist

theorem Netlist.Reachable.linked {n : Netlist} (h : n.Reachable) : ∃ pins, Linked pins {} n := by
  cases h with
  | alone reached => exact ⟨_, reached.sound.linked⟩
  | inDesign reached => exact ⟨_, reached.sound.netlist.linked⟩

/-- Whatever calls lead to, the links agree: in a netlist that stands alone, with any number of pins
around it, and in a design. -/
theorem reached_consistent :
    (∀ pins n, Netlist.Reached False pins n → n.Consistent pins) ∧
      ∀ d, Design.Reached False d → d.netlist.Consistent d.pins.size :=
  ⟨fun _ _ h => h.sound.linked.consistent, fun _ h => h.sound.netlist.linked.consistent⟩

/-- A gate that is given an exit, and whose output is wired to its own input, twice. -/
theorem reached_consistent_gate :
    (∃ n : Netlist, n.Consistent 0 ∧ (n.buses.get? ⟨1⟩).map (·.ports) = some [⟨3⟩]) ∧
      (Design.new "top").netlist.Consistent (Design.new "top").pins.size := by
  have hempty : Netlist.Reached False 0 {} := .empty
  have hmade := hempty.after (.newComponent .andGate "and" 2) (by decide) False.elim (by decide)
  have hexit := hmade.after (.makeExit ⟨0⟩ 1 .done) (by decide) False.elim (by decide)
  have hwired := hexit.after (.setBus ⟨3⟩ (some ⟨1⟩)) (by decide) False.elim (by decide)
  have hagain := hwired.after (.setBus ⟨3⟩ (some ⟨1⟩)) (by decide) False.elim (by decide)
  exact ⟨⟨_, reached_consistent.1 _ _ hagain, by decide⟩, reached_consistent.2 _ (.new "top")⟩

end DataflowSynth
