/-
Boundaries in all netlists.

A module and its boundary agree in every netlist that calls lead to, in whatever order they come, if
none of them gives terminals to a buffer or marks it as if it were a component like any other.
-/
import DataflowSynth.Proofs.Design.Consistency
import DataflowSynth.Proofs.Netlist.Boundaries

namespace DataflowSynth

namespace Netlist

/-- Netlists that calls lead to which leave the terminals and the marks of buffers alone. -/
inductive Tended (pins : Nat) : Netlist → Prop where
  | empty : Tended pins {}
  | call {n n' : Netlist} (call : Call) (before : Tended pins n) (fits : call.Fits pins n)
      (spares : call.Spares n) (sparesMarks : call.SparesMarks n) (leaves : call.run.Leaves n n') :
      Tended pins n'

theorem mirrored_empty : (borders {}).Mirrored where
  symmetric := by simp [borders]
  repeated he := absurd he.module (by simp [borders])
  gathered hw := absurd hw.module (by simp [borders])

variable {pins : Nat} {n : Netlist}

theorem Tended.sound (h : Tended pins n) : (Scope.guarded mirroring pins).Sound n := by
  induction h with
  | empty => exact ⟨.refl pins {}, fun _ => .refl {}, mirrored_empty⟩
  | call call _ fits spares sparesMarks leaves ih =>
      exact call.sound fits (fun _ => spares) (fun _ => sparesMarks) ih leaves

/-- A call that is run to its end. -/
theorem Tended.after (h : Tended pins n) (call : Call) (hf : call.Fits pins n) (hs : call.Spares n)
    (hm : call.SparesMarks n) (hok : (call.run.run ⟨n, #[]⟩).1.isOk = true) :
    Tended pins (call.run.run ⟨n, #[]⟩).2.state :=
  .call call h hf hs hm (Build.leaves_run hok)

/-- The bus `b` repeats the port `p`, as the port tells. -/
def PortPeer (n : Netlist) (p : PortId) (b : BusId) : Prop :=
  ∃ y, n.ports.get? p = some y ∧ y.peer = some b

/-- The port `p` repeats the bus `b`, as the bus tells. -/
def BusPeer (n : Netlist) (b : BusId) (p : PortId) : Prop :=
  ∃ z, n.buses.get? b = some z ∧ z.peer = some p

/-- `b` is the InBuf of the module `x`, and `y` its only exit `e`. -/
structure InBufMirrors (n : Netlist) (x b : Component) (e : ExitId) (y : Exit) : Prop where
  kind : b.kind = .inBuf
  single : b.exits.entries = [(.done, e)]
  go : n.PortPeer x.go y.done
  control : List.Forall₂ n.PortPeer ([x.clock, x.reset] ++ x.this.toList) y.control
  data : List.Forall₂ n.PortPeer x.dataPorts y.data
  mark : b.producesDone = x.consumesGo

/-- `b` is the OutBuf of the exit `y` of the module `x`. -/
structure OutBufMirrors (n : Netlist) (x : Component) (y : Exit) (b : Component) : Prop where
  kind : b.kind = .outBuf
  go : n.BusPeer y.done b.go
  data : List.Forall₂ n.BusPeer y.data b.dataPorts
  mark : b.consumesGo = x.producesDone

/-- The boundary of every module mirrors it. -/
structure Bounded (n : Netlist) : Prop where
  symmetric : ∀ p b, n.PortPeer p b ↔ n.BusPeer b p
  inBuf : ∀ m x i, n.IsModule m x i → ∃ b e y, n.components.get? i.inBuf = some b ∧
    n.exits.get? e = some y ∧ n.InBufMirrors x b e y
  outBufs : ∀ m x i, n.IsModule m x i → ∀ e ∈ x.exits.values, ∃ y o b, n.exits.get? e = some y ∧
    y.peer = some o ∧ n.components.get? o = some b ∧ n.OutBufMirrors x y b

theorem portPeer_iff {p : PortId} {b : BusId} :
    n.PortPeer p b ↔ n.borders.portPeer? p = some b := Option.bind_eq_some_iff.symm

theorem busPeer_iff {p : PortId} {b : BusId} :
    n.BusPeer b p ↔ n.borders.busPeer? b = some p := Option.bind_eq_some_iff.symm

theorem bounded_of_mirrored (hl : Linked pins {} n) (hs : Shaped {} n) (hm : n.borders.Mirrored) :
    n.Bounded where
  symmetric p b := by
    rw [portPeer_iff, busPeer_iff]
    exact hm.symmetric p b
  inBuf m x i hx := by
    obtain ⟨b, e, y, hb, hy, hin⟩ := ((hs.components m x hx.1 (Nat.zero_le _)).interior i hx.2).inBuf
    have hr := hm.repeated ⟨face?_of_get? hx.1, by simp [Component.face, hx.2], face?_of_get? hb,
      by simp [Face.Lists, Component.face, hin.exits], outlet?_of_get? hy⟩
    refine ⟨b, e, y, hb, hy, hin.kind, hin.exits, portPeer_iff.mpr hr.go, ?_, ?_, hr.mark⟩
    · exact hr.control.imp fun p d => portPeer_iff.mpr
    · exact hr.data.imp fun p d => portPeer_iff.mpr
  outBufs m x i hx e he := by
    obtain ⟨y, hy⟩ := Arena.exists_get? (hl.exit_new hx.1 (Nat.zero_le _) he).2
    have hpeer := (hs.components m x hx.1 (Nat.zero_le _)).outBufs e he y hy
    rw [hx.2, Option.isSome_some, Option.isSome_iff_exists] at hpeer
    obtain ⟨o, ho⟩ := hpeer
    obtain ⟨b, hb, hout⟩ := (hs.exits e y hy (Nat.zero_le _)).outBuf o ho
    have hg := hm.gathered ⟨face?_of_get? hx.1, by simp [Component.face, hx.2], he,
      outlet?_of_get? hy, ho, face?_of_get? hb⟩
    exact ⟨y, o, b, hy, ho, hb, hout.kind, busPeer_iff.mpr hg.go,
      hg.data.imp fun d p => busPeer_iff.mpr, hg.mark⟩

end Netlist

/-- Designs that calls lead to which leave the terminals and the marks of buffers alone. -/
inductive Design.Tended : Design → Prop where
  | new (name : String) : Tended (Design.new name)
  | call {d d' : Design} (call : Call) (before : Tended d) (fits : call.Fits d)
      (spares : call.Spares d) (sparesMarks : call.SparesMarks d) (leaves : call.run.Leaves d d') :
      Tended d'

theorem Design.Tended.sound {d : Design} (h : d.Tended) : d.Sound Netlist.mirroring := by
  induction h with
  | new name => exact sound_new Netlist.mirrored_empty name
  | call call _ fits spares sparesMarks leaves ih =>
      exact call.sound fits (fun _ => spares) (fun _ => sparesMarks) ih leaves

/-- Whatever calls lead to, boundaries mirror their modules: in a netlist that stands alone, with any
number of pins around it, and in a design. -/
theorem boundaries_mirror :
    (∀ pins n, Netlist.Tended pins n → n.Bounded) ∧ ∀ d, Design.Tended d → d.netlist.Bounded := by
  constructor
  · intro pins n h
    exact Netlist.bounded_of_mirrored h.sound.linked (h.sound.shaped trivial) h.sound.guarded
  · intro d h
    exact Netlist.bounded_of_mirrored h.sound.netlist.linked (h.sound.netlist.shaped trivial)
      h.sound.netlist.guarded

/-- A module that is given an exit, then ports, then marks, then another data bus. -/
theorem boundaries_mirror_block :
    (∃ n : Netlist, n.Bounded ∧ (n.components.get? ⟨1⟩).map (·.producesDone) = some true ∧
      (n.exits.get? ⟨0⟩).map (·.data.length) = some 1) ∧ (Design.new "top").netlist.Bounded := by
  have hempty : Netlist.Tended 0 {} := .empty
  have hmodule := hempty.after (.newModule .block "m" 0) (by decide) (by decide +kernel)
    (by decide +kernel) (by decide +kernel)
  have hexit := hmodule.after (.makeExit ⟨0⟩ 0 .done) (by decide +kernel) (by decide +kernel)
    (by decide +kernel) (by decide +kernel)
  have hport := hexit.after (.makeDataPort ⟨0⟩ "din") (by decide +kernel) (by decide +kernel)
    (by decide +kernel) (by decide +kernel)
  have hthis := hport.after (.makeThisPort ⟨0⟩) (by decide +kernel) (by decide +kernel)
    (by decide +kernel) (by decide +kernel)
  have hmarked := hthis.after (.setConsumesGo ⟨0⟩ true) (by decide +kernel) (by decide +kernel)
    (by decide +kernel) (by decide +kernel)
  have hbus := hmarked.after (.makeDataBus ⟨1⟩ "dout") (by decide +kernel) (by decide +kernel)
    (by decide +kernel) (by decide +kernel)
  exact ⟨⟨_, boundaries_mirror.1 _ _ hbus, by decide +kernel, by decide +kernel⟩,
    boundaries_mirror.2 _ (.new "top")⟩

end DataflowSynth
