/-
Requests, one after the other.

Every request adds to some of the tables of a design, and may be refused before or halfway.  Whatever was
asked for, and whether it was granted or not, the tables agree in the end, and who asks for an interface
again is given the one that is there.
-/
import DataflowSynth.Proofs.Design.Rejection
import DataflowSynth.Proofs.Design.Tables

namespace DataflowSynth

open Build

namespace Design

open Netlist (Spans)

/-! ### Requests -/

theorem get?_of_fifoNamed? {d : Design} {name : String} {direction : Direction} {k : FifoId} {f : Fifo}
    (h : d.fifoNamed? name direction = some (k, f)) :
    d.fifos.get? k = some f ∧ f.spec.name = name ∧ f.spec.direction = direction := by
  have hspec := List.find?_some h
  simp only [decide_eq_true_eq] at hspec
  exact ⟨Arena.mem_toList_iff.mp (List.mem_of_find?_eq_some h), hspec⟩

theorem direction_ne_of_fifoNamed? {d : Design} {name : String} {direction : Direction}
    (h : d.fifoNamed? name direction = none) {k : FifoId} {f : Fifo} (hf : d.fifos.get? k = some f)
    (hname : f.spec.name = name) : f.spec.direction ≠ direction := fun hdirection => by
  simpa [hname, hdirection] using List.find?_eq_none.mp h (k, f) (Arena.mem_toList_iff.mpr hf)

section

variable {s : Traced Design}

/-- What is asked for is there afterwards. -/
theorem wp_getFifo_kept (h : Kept s.state) (spec : FifoSpec) :
    wp (getFifo spec) (fun k t => Kept t.state ∧ ∃ f, t.state.fifos.get? k = some f ∧
      f.spec.name = spec.name ∧ f.spec.direction = spec.direction)
      (fun e t => e.Unless (Kept t.state)) s := by
  unfold getFifo
  split
  · exact h
  · simp only [wp_bind, wp_look]
    split
    · next k f hnamed =>
      split
      · exact h
      · exact ⟨h, f, get?_of_fifoNamed? hnamed⟩
    · next hnew =>
      rw [wp_bind]
      refine wp_mono (wp_addFifoPins_gains spec) ?_ fun _ _ h => h.mono False.elim
      rintro pins t ⟨new, hg, hrole, hpins⟩
      simp only [wp_bind, wp_look, wp_change, wp_log, wp_pure]
      refine ⟨h.plug hg hrole hpins fun k g hk hname => direction_ne_of_fifoNamed? hnew hk hname,
        ⟨spec, pins⟩, ?_⟩
      simp

/-- An interface that is there is found again, and nothing is made. -/
theorem wp_getFifo_again (h : Kept s.state) {spec : FifoSpec} {k : FifoId} {f : Fifo}
    (hf : s.state.fifos.get? k = some f) (hname : f.spec.name = spec.name)
    (hdirection : f.spec.direction = spec.direction) :
    wp (getFifo spec) (fun k' t => k' = k ∧ t = s) (fun _ _ => True) s := by
  unfold getFifo
  split
  · trivial
  · simp only [wp_bind, wp_look]
    split
    · next k' f' hnamed =>
      obtain ⟨hf', hname', hdirection'⟩ := get?_of_fifoNamed? hnamed
      split
      · trivial
      · exact ⟨h.fifos.keys k' f' k f hf' hf (hname'.trans hname.symm)
          (hdirection'.trans hdirection.symm), rfl⟩
    · next hnew => exact absurd hdirection (direction_ne_of_fifoNamed? hnew hf hname)

theorem wp_clockPin_kept (h : Kept s.state) (name : String) :
    wp (clockPin name) (fun _ t => Kept t.state) (fun e t => e.Unless (Kept t.state)) s := by
  simp only [clockPin, wp_bind, wp_look]
  split
  · exact h
  · next hfree =>
    simp only [wp_bind, wp_look]
    cases hfind : s.state.clockPins.find? name with
    | some p => exact h
    | none =>
        rw [wp_bind]
        refine wp_mono (wp_addInputPin_gains name .bit .clock) ?_ fun _ _ h => h.mono False.elim
        rintro p t ⟨hp, q, hg⟩
        subst hp
        exact h.clock hg rfl hfind (by simpa using hfree)

theorem wp_resetPin_kept (h : Kept s.state) (name clock : String) :
    wp (resetPin name clock) (fun _ t => Kept t.state) (fun e t => e.Unless (Kept t.state)) s := by
  unfold resetPin
  split
  · exact h
  · simp only [wp_bind, wp_look]
    split
    · exact h
    · next hfree =>
      simp only [wp_bind, wp_look]
      cases hfind : s.state.resetPins.find? name with
      | some p => exact h
      | none =>
          rw [wp_bind]
          refine wp_mono (wp_addInputPin_gains name .bit .reset) (fun p t ⟨hp, q, hg⟩ => ?_)
            fun _ _ h => h.mono False.elim
          subst hp
          exact h.reset hg rfl hfind (by simpa using hfree)

theorem rewires_pinBus? (p : PinId) : Moves Rewires (pinBus? p) := by
  refine .bind (.look _) fun x => ?_
  split
  · exact .bind (moves_wiring Netlist.moves_port) fun _ => .pure _
  · exact .pure _

theorem rewires_addSync (clock reset : PinId) : Moves Rewires (addSync clock reset) := by
  refine .bind (.look _) fun root => .bind (moves_wiring ?_) fun sync => .bind (rewires_pinBus? _)
    fun _ => .bind (rewires_pinBus? _) fun _ => .bind (moves_wiring ?_) fun _ => .pure sync
  · exact .bind Netlist.spans_newPrimitive fun _ => .bind Netlist.ignores_spans.setConsumesClock
      fun _ => .bind Netlist.spans_addComponent fun _ => .pure _
  · exact .bind Netlist.moves_component fun _ => .bind Netlist.ignores_spans.setBus fun _ =>
      .bind Netlist.moves_dataPort fun _ => Netlist.ignores_spans.setBus

theorem Kept.wp_rewires {α : Type} {x : Step α} (h : Kept s.state) (hx : Moves Rewires x) :
    wp x (fun _ t => Kept t.state) (fun e t => e.Unless (Kept t.state)) s :=
  wp_mono (hx s) (fun _ _ ht => h.rewires ht) fun _ _ h => h.mono False.elim

theorem wp_clockDomain_kept (h : Kept s.state) (spec : String) :
    wp (clockDomain spec) (fun _ t => Kept t.state) (fun e t => e.Unless (Kept t.state)) s := by
  simp only [clockDomain, wp_bind, wp_look]
  split
  · exact h
  · split
    · exact h
    · split
      · exact h
      · rw [wp_bind]
        refine wp_mono (wp_clockPin_kept h _) (fun clock t ht => ?_) fun _ _ h => h
        split
        · exact ⟨ht.joined, ht.fifos, ht.timed, ht.memories⟩
        · simp only [wp_bind]
          refine wp_mono (wp_resetPin_kept ht _ _) (fun reset u hu => ?_) fun _ _ h => h
          refine wp_mono (hu.wp_rewires (rewires_addSync clock reset)) (fun sync v hv => ?_)
            fun _ _ h => h
          exact ⟨hv.joined, hv.fifos, hv.timed, hv.memories⟩

theorem rewires_connectToDomain (c : ComponentId) (domain : ClockDomain) :
    Moves Rewires (connectToDomain c domain) := by
  have hreset : ∀ x : Netlist.Component, Moves Rewires (connectReset x domain) := by
    intro x
    refine .ite ?_ (.pure ())
    split
    · exact .pure ()
    · exact moves_wiring (.bind Netlist.moves_resultBus fun _ => Netlist.ignores_spans.setBus)
  rw [connectToDomain_eq]
  refine .bind (moves_wiring Netlist.moves_component) fun x => ?_
  exact .ite (.bind (rewires_pinBus? _) fun _ => .bind
    (moves_wiring Netlist.ignores_spans.setBus) fun _ => hreset x) (hreset x)

theorem rewires_call (root : ComponentId) (name : String) (body : ComponentId) :
    Moves Rewires (wiring do
      let call ← wrapBody name body
      Netlist.addComponent root call
      return call) := by
  refine moves_wiring (.bind ?_ fun _ => .bind Netlist.spans_addComponent fun _ => .pure _)
  rw [wrapBody_eq]
  exact .bind Netlist.spans_newModule fun call => .bind Netlist.spans_addComponent fun _ =>
    (returns_startBody Netlist.ignores_spans call body).moves

theorem wp_addTask_kept (h : Kept s.state) (name : String) (body : ComponentId) :
    wp (addTask name body) (fun _ t => Kept t.state) (fun e t => e.Unless (Kept t.state)) s := by
  rw [addTask, wp_bind, wp_look, wp_bind]
  refine wp_mono (h.wp_rewires (rewires_call _ name body)) (fun call t ht => ?_) fun _ _ h => h
  exact ⟨ht.joined, ht.fifos, ht.timed, ht.memories⟩

theorem wp_fifoAccess_kept (h : Kept s.state) (k : FifoId) (kind : AccessKind) :
    wp (fifoAccess k kind) (fun _ t => Kept t.state) (fun e t => e.Unless (Kept t.state)) s := by
  simp only [fifoAccess, fifo, wp_bind, wp_look]
  refine wp_expect (fun f _ => ?_) trivial
  rw [wiring, wp_within]
  refine wp_mono Fifo.wp_access_spans (fun _ t ht => h.rewires (rewires_of_spans ht))
    fun _ t ht => ht.mono fun ht => ?_
  subst ht
  exact h

/-! ### Memories -/

theorem wp_nextMemoryId_kept (h : Kept s.state) :
    wp nextMemoryId (fun _ t => Kept t.state) (fun e t => e.Unless (Kept t.state)) s := by
  simp only [nextMemoryId, wp_bind, wp_look]
  split
  · exact ⟨h.joined, h.fifos, h.timed, h.memories⟩
  · exact h

theorem wp_addMemory_kept (h : Kept s.state) (m : Memory) :
    wp (addMemory m) (fun _ t => Kept t.state) (fun e t => e.Unless (Kept t.state)) s := by
  unfold addMemory
  split
  · exact h
  · next hzero =>
    simp only [wp_bind, wp_look]
    split
    · exact h
    · next hfree =>
      refine ⟨h.joined, h.fifos, h.timed, ?_, ?_⟩
      · rw [List.map_append]
        refine h.memories.1.append (List.nodup_singleton _) ?_
        simpa [memory?] using hfree
      · rw [List.map_append, List.mem_append]
        rintro (hin | hin)
        · exact h.memories.2 hin
        · exact hzero (List.mem_singleton.mp hin).symm

theorem wp_newMemory_kept (h : Kept s.state) (name : String) (width : UInt32)
    (initial : List LogicalValue) : wp (newMemory name width initial) (fun _ t => Kept t.state)
      (fun e t => e.Unless (Kept t.state)) s := by
  rw [newMemory, wp_bind]
  refine wp_mono (wp_nextMemoryId_kept h) (fun id t ht => ?_) fun _ _ h => h
  rw [wp_bind]
  exact wp_mono (wp_addMemory_kept ht _) (fun _ _ h => h) fun _ _ h => h

theorem wp_removeMemory_kept (h : Kept s.state) (id : UInt32) :
    wp (removeMemory id) (fun _ t => Kept t.state) (fun e t => e.Unless (Kept t.state)) s := by
  have hsub : ((s.state.memories.eraseP (·.id = id)).map Memory.id).Sublist
      (s.state.memories.map Memory.id) := (List.eraseP_sublist ..).map _
  exact ⟨h.joined, h.fifos, h.timed, h.memories.1.sublist hsub, fun hin => h.memories.2 (hsub.subset hin)⟩

end

/-! ### Sessions -/

/-- The call is a request, for one of the resources that a design keeps. -/
def Call.isRequest : Call → Bool
  | .netlist _ | .addInputPin .. | .addOutputPin .. | .addInclude _ => false
  | _ => true

/-- The memory ids that a call gives out. -/
def Call.allot : Call → Step (List UInt32)
  | .nextMemoryId => return [← Design.nextMemoryId]
  | .newMemory name width initial => return [← Design.newMemory name width initial]
  | call => do
    call.run
    return []

section

variable {s : Traced Design}

theorem Call.wp_allot {Q : Traced Design → Prop} {F : Failure → Traced Design → Prop} (call : Call) :
    wp call.allot (fun _ t => Q t) F s ↔ wp call.run (fun _ t => Q t) F s := by
  cases call <;> simp only [allot, run, wp_bind, wp_pure, wp_discard]

theorem Call.wp_run_kept (h : Kept s.state) (call : Call) (hasks : call.isRequest = true) :
    wp call.run (fun _ t => Kept t.state) (fun e t => e.Unless (Kept t.state)) s := by
  cases call with
  | netlist _ | addInputPin _ _ _ | addOutputPin _ _ _ | addInclude _ => cases hasks
  | getFifo spec =>
      exact wp_discard.mpr (wp_mono (wp_getFifo_kept h spec) (fun _ _ h => h.1) fun _ _ h => h)
  | fifoAccess k kind => exact wp_discard.mpr (wp_fifoAccess_kept h k kind)
  | clockPin name => exact wp_discard.mpr (wp_clockPin_kept h name)
  | resetPin name clock => exact wp_discard.mpr (wp_resetPin_kept h name clock)
  | clockDomain spec => exact wp_discard.mpr (wp_clockDomain_kept h spec)
  | connectToDomain c domain => exact h.wp_rewires (rewires_connectToDomain c domain)
  | addTask name body => exact wp_discard.mpr (wp_addTask_kept h name body)
  | nextMemoryId => exact wp_discard.mpr (wp_nextMemoryId_kept h)
  | addMemory m => exact wp_addMemory_kept h m
  | newMemory name width initial => exact wp_discard.mpr (wp_newMemory_kept h name width initial)
  | removeMemory id => exact wp_discard.mpr (wp_removeMemory_kept h id)
  | addRegister r => exact ⟨h.joined, h.fifos, h.timed, h.memories⟩
  | removeRegister name => exact ⟨h.joined, h.fifos, h.timed, h.memories⟩

theorem remote_nextMemory : Remote Design.nextMemory :=
  ⟨fun _ _ => rfl, fun _ _ => rfl, fun _ _ => rfl, fun _ _ => rfl, fun _ _ => rfl⟩

/-- Ids are given out in ascending order. -/
theorem wp_nextMemoryId_ids : wp nextMemoryId (fun id t => id = s.state.nextMemory ∧
    id < t.state.nextMemory) (fun _ t => t.state.nextMemory = s.state.nextMemory) s := by
  simp only [nextMemoryId, wp_bind, wp_look]
  split
  · next hroom =>
    refine ⟨rfl, ?_⟩
    rw [UInt32.lt_iff_toNat_lt]
    show _ < (s.state.nextMemory + 1).toNat
    rw [UInt32.toNat_add, UInt32.toNat_one, Nat.mod_eq_of_lt hroom]
    exact Nat.lt_succ_self _
  · exact rfl

/-- What a call gives out lies between what is next before and what is next after it. -/
theorem Call.wp_allot_ids (call : Call) :
    wp call.allot (fun new t => s.state.nextMemory ≤ t.state.nextMemory ∧ new.Pairwise (· < ·) ∧
      ∀ id ∈ new, s.state.nextMemory ≤ id ∧ id < t.state.nextMemory)
      (fun _ t => s.state.nextMemory ≤ t.state.nextMemory) s := by
  have hkeeps : Keeps Design.nextMemory call.run → wp (do call.run; return ([] : List UInt32))
      (fun new t => s.state.nextMemory ≤ t.state.nextMemory ∧ new.Pairwise (· < ·) ∧
        ∀ id ∈ new, s.state.nextMemory ≤ id ∧ id < t.state.nextMemory)
      (fun _ t => s.state.nextMemory ≤ t.state.nextMemory) s := fun hk => by
    rw [wp_bind]
    exact wp_mono (hk s) (fun _ t ht => ⟨ht ▸ UInt32.le_refl _, by simp⟩) fun _ t ht =>
      ht ▸ UInt32.le_refl _
  have hother : (call ≠ .nextMemoryId ∧ ∀ name width initial, call ≠ .newMemory name width initial) →
      Keeps Design.nextMemory call.run := fun hne =>
    call.keeps remote_nextMemory (fun _ _ => rfl) (fun _ _ => rfl) (fun _ _ => rfl) (fun _ _ => rfl)
      (fun spec _ => keeps_getFifo remote_nextMemory (fun _ _ => rfl) spec) fun h => by
        rcases h with h | ⟨name, width, initial, h⟩
        · exact absurd h hne.1
        · exact absurd h (hne.2 name width initial)
  cases call with
  | nextMemoryId =>
      rw [allot, wp_bind]
      refine wp_mono wp_nextMemoryId_ids (fun id t ⟨hid, hlt⟩ => ?_) fun _ _ ht =>
        ht ▸ UInt32.le_refl _
      subst hid
      exact ⟨UInt32.le_of_lt hlt, by simp, by simpa using hlt⟩
  | newMemory name width initial =>
      rw [allot, wp_bind, Design.newMemory, wp_bind]
      refine wp_mono wp_nextMemoryId_ids (fun id t ⟨hid, hlt⟩ => ?_) fun _ _ ht =>
        ht ▸ UInt32.le_refl _
      subst hid
      have hkeep : Keeps Design.nextMemory (Design.addMemory ⟨s.state.nextMemory, name, width, initial⟩) :=
        keeps_addMemory (fun _ _ => rfl) _
      rw [wp_bind]
      refine wp_mono (hkeep t) (fun _ u hu => ?_) fun _ u hu => hu ▸ UInt32.le_of_lt hlt
      rw [wp_pure, wp_pure, hu]
      exact ⟨UInt32.le_of_lt hlt, by simp, by simpa using hlt⟩
  | _ => exact hkeeps (hother ⟨by simp, by simp⟩)

end

/-- Designs that requests lead to, with the memory ids that were given out.  A request may be refused
and the next one made all the same, and in between the netlist may be worked on. -/
inductive Session (start : Design) : List UInt32 → Design → Prop where
  | start : Session start [] start
  | wired {ids : List UInt32} {d : Design} {n : Netlist} (hbefore : Session start ids d)
      (hspans : d.netlist.Spans n) : Session start ids { d with netlist := n }
  | granted {ids new : List UInt32} {d d' : Design} (call : Call) (hbefore : Session start ids d)
      (hasks : call.isRequest = true) (hyields : call.allot.Yields d new d') :
      Session start (ids ++ new) d'
  | refused {ids : List UInt32} {d d' : Design} {e : Error} (call : Call)
      (hbefore : Session start ids d) (hasks : call.isRequest = true)
      (hfails : ∃ j j', call.allot ⟨d, j⟩ = .error (.error e) ⟨d', j'⟩) : Session start ids d'

theorem kept_new (name : String) : Kept (Design.new name) := by
  have hpins : (Design.new name).pins = ∅ := by unfold Design.new; rfl
  have hfifos : (Design.new name).fifos = ∅ := by unfold Design.new; rfl
  have hclocks : (Design.new name).clockPins = ∅ := by unfold Design.new; rfl
  have hresets : (Design.new name).resetPins = ∅ := by unfold Design.new; rfl
  have hmemories : (Design.new name).memories = [] := by unfold Design.new; rfl
  generalize Design.new name = d at *
  refine ⟨?_, ?_, ?_, ?_⟩
  · rw [hpins]
    exact ⟨by simp [Arena.values, EmptyCollection.emptyCollection], List.nodup_nil⟩
  · rw [hpins, hfifos]
    exact ⟨by simp, by simp, by simp, by simp⟩
  · rw [hpins, hclocks, hresets]
    exact ⟨fun _ _ => by simp, fun _ _ => by simp, fun _ => by simp [OrderedMap.contains]⟩
  · rw [hmemories]
    exact ⟨List.nodup_nil, by simp⟩

/-- Interfaces stay, whatever is called. -/
theorem Call.wp_fifos {s : Traced Design} {k : FifoId} {f : Fifo} (hf : s.state.fifos.get? k = some f)
    (call : Call) : wp call.run (fun _ t => t.state.fifos.get? k = some f)
      (fun _ t => t.state.fifos.get? k = some f) s := by
  by_cases hfifo : ∃ spec, call = .getFifo spec
  · obtain ⟨spec, rfl⟩ := hfifo
    rw [run, wp_discard, Design.getFifo]
    split
    · exact hf
    · simp only [wp_bind, wp_look]
      split
      · split
        · exact hf
        · exact hf
      · rw [wp_bind]
        refine wp_mono (keeps_addFifoPins remote_fifos spec s) (fun pins t ht => ?_) fun _ t ht => ht ▸ hf
        simp only [wp_bind, wp_look, wp_change, wp_log, wp_pure]
        rw [ht, Arena.get?_push_index, if_neg (Nat.ne_of_lt (Arena.lt_of_get? hf)), hf]
  · exact wp_mono (keeps_fifos (fun spec h => hfifo ⟨spec, h⟩) s) (fun _ _ ht => ht ▸ hf)
      fun _ _ ht => ht ▸ hf

namespace Session

variable {start d : Design} {ids : List UInt32}

/-- What every request keeps, granted or not, and what is done to the netlist keeps as well, is kept. -/
theorem keeps {P : Design → Prop} (hstart : P start)
    (hwired : ∀ {d : Design} {n : Netlist}, d.netlist.Spans n → P d → P { d with netlist := n })
    (hcall : ∀ {s : Traced Design} (call : Call), call.isRequest = true → P s.state →
      wp call.run (fun _ t => P t.state) (fun e t => e.Unless (P t.state)) s)
    (h : Session start ids d) : P d := by
  induction h with
  | start => exact hstart
  | wired _ hspans ih => exact hwired hspans ih
  | granted call _ hasks hyields ih =>
      obtain ⟨j, j', hrun⟩ := hyields
      have hkept := call.wp_allot.mpr (hcall (s := ⟨_, j⟩) call hasks ih)
      rwa [wp, hrun] at hkept
  | refused call _ hasks hfails ih =>
      obtain ⟨j, j', hrun⟩ := hfails
      have hkept := call.wp_allot.mpr (hcall (s := ⟨_, j⟩) call hasks ih)
      rwa [wp, hrun] at hkept

theorem kept (h : Session start ids d) (hstart : Kept start) : Kept d :=
  h.keeps hstart (fun hspans hd => hd.rewires (rewires_of_spans hspans)) fun call hasks hd =>
    call.wp_run_kept hd hasks

theorem fifos (h : Session start ids d) {k : FifoId} {f : Fifo} (hf : start.fifos.get? k = some f) :
    d.fifos.get? k = some f :=
  h.keeps (P := fun d => d.fifos.get? k = some f) hf (fun _ h => h) fun call _ hd =>
    wp_mono (call.wp_fifos hd) (fun _ _ h => h) fun e _ h => by
      cases e with
      | abort _ => trivial
      | error _ => exact h

theorem ascending (h : Session start ids d) : ids.Pairwise (· < ·) ∧ ∀ id ∈ ids, id < d.nextMemory := by
  induction h with
  | start => exact ⟨.nil, by simp⟩
  | wired _ _ ih => exact ih
  | @granted ids new d d' call _ _ hyields ih =>
      obtain ⟨j, j', hrun⟩ := hyields
      have hids := call.wp_allot_ids (s := ⟨d, j⟩)
      rw [wp, hrun] at hids
      obtain ⟨hle, hnew, hbounds⟩ := hids
      refine ⟨List.pairwise_append.mpr ⟨ih.1, hnew, fun a ha b hb => ?_⟩, fun id hid => ?_⟩
      · exact UInt32.lt_of_lt_of_le (ih.2 a ha) (hbounds b hb).1
      · rcases List.mem_append.mp hid with hid | hid
        · exact UInt32.lt_of_lt_of_le (ih.2 id hid) hle
        · exact (hbounds id hid).2
  | @refused ids d d' e call _ _ hfails ih =>
      obtain ⟨j, j', hrun⟩ := hfails
      have hids := call.wp_allot_ids (s := ⟨d, j⟩)
      rw [wp, hrun] at hids
      exact ⟨ih.1, fun id hid => UInt32.lt_of_lt_of_le (ih.2 id hid) hids⟩

end Session

/-! ### What the tables say -/

/-- Pins and terminals of the root module tell each other, every pin of an interface belongs to one
interface, no name is clock and reset at once, and memories are told apart by their ids. -/
structure Correlated (d : Design) : Prop where
  inputs : ∀ p y, d.pins.get? p = some y → y.direction = .input →
    ∃ q, y.link = .port q ∧ d.netlist.Takes d.root q
  outputs : ∀ p y, d.pins.get? p = some y → y.direction = .output →
    ∃ b, y.link = .bus b ∧ d.netlist.Gives d.root b
  distinct : ∀ p p' y y', d.pins.get? p = some y → d.pins.get? p' = some y' → y.link = y'.link →
    p = p'
  inverse : ∀ l p, d.pinWith? l = some p ↔ ∃ y, d.pins.get? p = some y ∧ y.link = l
  fifos : Plugged d.pins d.fifos
  timed : Timed d.pins d.clockPins d.resetPins
  memories : Numbered d.memories

theorem Joined.inj {n : Netlist} {root : ComponentId} {pins : Arena .pin Pin} (h : Joined n root pins)
    {p p' : PinId} {y y' : Pin} (hy : pins.get? p = some y) (hy' : pins.get? p' = some y')
    (hlink : y.link = y'.link) : p = p' := by
  rw [Arena.get?_eq_values] at hy hy'
  have hlinks : ∀ {p : PinId} {y : Pin}, pins.values[p.index]? = some y →
      (pins.values.map Pin.link)[p.index]? = some y.link := fun hy => by
    rw [List.getElem?_map, hy, Option.map_some]
  have hl := hlinks hy
  exact Handle.ext_index ((List.getElem?_inj (List.getElem?_eq_some_iff.mp hl).1 h.nodup).mp
    (hl.trans ((congrArg some hlink).trans (hlinks hy').symm)))

theorem Kept.correlated {d : Design} (h : Kept d) : Correlated d where
  inputs p y hy hdirection := by
    have hwired := (h.joined.wired y (Arena.mem_values_of_get? hy)).2
    cases hlink : y.link with
    | port q =>
        rw [hlink] at hwired
        exact ⟨q, rfl, hwired⟩
    | bus b => simp [Pin.direction, hlink] at hdirection
  outputs p y hy hdirection := by
    have hwired := (h.joined.wired y (Arena.mem_values_of_get? hy)).2
    cases hlink : y.link with
    | port q => simp [Pin.direction, hlink] at hdirection
    | bus b =>
        rw [hlink] at hwired
        exact ⟨b, rfl, hwired⟩
  distinct p p' y y' hy hy' hlink := h.joined.inj hy hy' hlink
  inverse l p := by
    constructor
    · intro hp
      obtain ⟨⟨p, y⟩, hfind, rfl⟩ := Option.map_eq_some_iff.mp hp
      exact ⟨y, Arena.mem_toList_iff.mp (List.mem_of_find?_eq_some hfind),
        by simpa using List.find?_some hfind⟩
    · rintro ⟨y, hy, rfl⟩
      have hfound : (d.pinWith? y.link).isSome := by
        rw [pinWith?, Option.isSome_map, List.find?_isSome]
        exact ⟨(p, y), Arena.mem_toList_iff.mpr hy, by simp⟩
      obtain ⟨p', hp'⟩ := Option.isSome_iff_exists.mp hfound
      obtain ⟨⟨_, y'⟩, hfind, rfl⟩ := Option.map_eq_some_iff.mp hp'
      have hy' := Arena.mem_toList_iff.mp (List.mem_of_find?_eq_some hfind)
      rw [hp', h.joined.inj hy' hy (by simpa using List.find?_some hfind)]
  fifos := h.fifos
  timed := h.timed
  memories := h.memories

/-- Whatever is asked of a design, its tables agree, memory ids are given out in ascending order, and
who asks for an interface once more is given the same one, while nothing is made. -/
theorem Session.tables_agree {name : String} {ids : List UInt32} {d : Design}
    (h : Session (Design.new name) ids d) : Correlated d ∧ ids.Pairwise (· < ·) ∧
      ∀ spec k d₁, (getFifo spec).Yields d k d₁ → ∀ ids' d₂, Session d₁ ids' d₂ →
        ∀ spec' k' d₃, spec'.name = spec.name → spec'.direction = spec.direction →
          (getFifo spec').Yields d₂ k' d₃ → k' = k ∧ d₃ = d₂ := by
  have hkept := h.kept (kept_new name)
  refine ⟨hkept.correlated, h.ascending.1, ?_⟩
  rintro spec k d₁ ⟨j, j', hrun⟩ ids' d₂ hlater spec' k' d₃ hname hdirection ⟨i, i', hagain⟩
  have hfirst := wp_getFifo_kept (s := ⟨d, j⟩) hkept spec
  obtain ⟨hkept₁, f, hf, hname', hdirection'⟩ := of_wp_ok hfirst hrun
  have hlast := wp_getFifo_again (s := ⟨d₂, i⟩) (hlater.kept hkept₁) (hlater.fifos hf)
    (hname'.trans hname.symm) (hdirection'.trans hdirection.symm)
  obtain ⟨hsame, hstate⟩ := of_wp_ok hlast hagain
  exact ⟨hsame, congrArg Traced.state hstate⟩

/-- A request that is granted in a run. -/
theorem Session.after {start d : Design} {ids : List UInt32} (h : Session start ids d)
    (call : Call) (new : List UInt32) (hasks : call.isRequest = true)
    (hok : (call.allot.run ⟨d, #[]⟩).1.toOption = some new) :
    Session start (ids ++ new) (call.allot.run ⟨d, #[]⟩).2.state := by
  refine .granted call h hasks ⟨#[], (call.allot.run ⟨d, #[]⟩).2.journal, ?_⟩
  unfold Build.run at hok ⊢
  cases hrun : call.allot ⟨d, #[]⟩ with
  | ok a t => simpa [hrun, Except.toOption] using hok
  | error e t => simp [hrun, Except.toOption] at hok

/-- An interface, a clock with a reset, and memories. -/
theorem tables_agree_stream : ∃ d, Session (Design.new "top") [1, 2] d ∧ d.pins.size = 5 ∧
    d.fifos.size = 1 ∧ Correlated d := by
  have hnew : Session (Design.new "top") [] (Design.new "top") := .start
  have hfifo := hnew.after (.getFifo ⟨"IN", .input, 8, .scalar⟩) [] rfl (by decide +kernel)
  have hdomain := hfifo.after (.clockDomain "CLK:RESET") [] rfl (by decide +kernel)
  have hmemory := hdomain.after (.newMemory "ram" 8 []) [1] rfl (by decide +kernel)
  have hid := hmemory.after .nextMemoryId [2] rfl (by decide +kernel)
  exact ⟨_, hid, by decide +kernel, by decide +kernel, hid.tables_agree.1⟩

end Design

end DataflowSynth
