/-
The netlists of accessors.

An accessor is built as a whole, and nothing is added to it later.  So its parts can be listed, with
the buses between them; what drives the accessor itself is left to the block around it.
-/
import DataflowSynth.Proofs.Sheet.Boxes
import Mathlib.Data.List.Forall2

namespace DataflowSynth.Netlist

open Build

variable {Γ : Ground} {σ : Sheet}

/-! ### Parts -/

/-- What a component is to the signals. -/
inductive Piece where
  | inBuf (m : ComponentId) (o : Outlet)
  | outBuf (m : ComponentId) (done : BusId) (go : Option BusId)
      (data : List (Option BusId × Option BusId) := [])
  | cell (x : Cell)

/-- The node is drawn for the part. -/
def Piece.Of : Piece → Node → Prop
  | .inBuf m o, ν => InBufNode m ν o
  | .outBuf m done go data, ν => ν.OutBuf m done go data
  | .cell x, ν => ν.Shows x

/-- The components that are made after `m`. -/
def after (m : ComponentId) (k : Nat) : ComponentId := ⟨m.index + k⟩

theorem after_ne (m : ComponentId) (k : Nat) : after m (k + 1) ≠ m := fun heq =>
  absurd (congrArg Handle.index heq) (Nat.ne_of_gt (Nat.lt_add_of_pos_right (Nat.succ_pos k)))

/-- The buses of an accessor. -/
structure Wires where
  /-- The exit of the InBuf. -/
  inner : Outlet
  exit : ExitId
  done : BusId
  clock : BusId
  reset : BusId
  /-- The output of the flop. -/
  stored : BusId
  pending : BusId
  ready : BusId
  fire : BusId
  idle : BusId
  /-- What the flop stores. -/
  hold : BusId

section

variable (m : ComponentId)

def flopPart (w : Wires) : Piece := .cell {
  kind := .reg .regR, owner := some m, clock := some w.clock, reset := some w.reset
  inputs := [some w.hold, none, some w.reset], results := [w.stored] }

def gatePart (g : Gate) (inputs : List BusId) (result : BusId) : Piece := .cell {
  kind := g.kind, owner := some m, inputs := inputs.map some, results := [result] }

def readPart (pin : PinId) (result : BusId) : Piece := .cell {
  kind := .pinRead pin, owner := some m, results := [result] }

def writePart (pin : PinId) (value go : BusId) : Piece := .cell {
  kind := .pinWrite pin, owner := some m, go := some go, inputs := [some value] }

end

/-- The children of an accessor with a handshake come after its buffers, the flop first. -/
def handshakeInterior (m : ComponentId) : Interior where
  inBuf := after m 1
  children := (List.range 8).map fun k => after m (k + 3)
  feedback := [after m 3]

def readerBox (m : ComponentId) (w : Wires) (result : BusId) : Box where
  kind := .fifoRead
  start := w.inner.done
  outlet := some { exit := w.exit, done := w.done, data := [result], outBuf := some (after m 2) }
  interior := handshakeInterior m

/-- What is inside a read accessor; `token` comes from the data pin and leaves on `result`. -/
def readerParts (m : ComponentId) (data send ack : PinId) (w : Wires) (token result : BusId) :
    List Piece :=
  [.inBuf m w.inner,
    .outBuf m w.done (some w.fire) [(some token, some result)],
    flopPart m w,
    gatePart m .or [w.stored, w.inner.done] w.pending,
    readPart m data token,
    readPart m send w.ready,
    gatePart m .and [w.pending, w.ready] w.fire,
    writePart m ack w.fire w.fire,
    gatePart m .not [w.ready] w.idle,
    gatePart m .and [w.idle, w.pending] w.hold]

def writerBox (m : ComponentId) (w : Wires) (token : BusId) : Box where
  kind := .fifoWrite
  start := w.inner.done
  inputs := [(none, some token)]
  outlet := some { exit := w.exit, done := w.done, outBuf := some (after m 2) }
  interior := handshakeInterior m

/-- What is inside a write accessor; `token` comes from its data port. -/
def writerParts (m : ComponentId) (data send ack : PinId) (w : Wires) (token : BusId) : List Piece :=
  [.inBuf m w.inner,
    .outBuf m w.done (some w.fire),
    flopPart m w,
    gatePart m .or [w.stored, w.inner.done] w.pending,
    writePart m data token w.pending,
    writePart m send w.pending w.pending,
    readPart m ack w.ready,
    gatePart m .and [w.pending, w.ready] w.fire,
    gatePart m .not [w.ready] w.idle,
    gatePart m .and [w.pending, w.idle] w.hold]

/-! ### Accessors with a handshake -/

theorem forall_mem_pair {α : Type} {P : α → Prop} {a b : α} :
    (∀ c ∈ [a, b], P c) ↔ P a ∧ P b := by
  simp

/-- At the end the OutBuf and the flop are connected. -/
theorem draws_finishHandshake {M I O F : Node} (νs : List Node) {o : Outlet}
    (hM : M.outlet? .done = some o) {done : BusId} {data : List (Option BusId × Option BusId)}
    (hO : O.OutBuf σ.next done none data) {x : Cell} (hF : F.Shows x) (hx : 0 < x.inputs.length)
    {fire hold : BusId} (hfire : ∃ ν ∈ νs, fire ∈ ν.buses) (hhold : ∃ ν ∈ νs, hold ∈ ν.buses) :
    Draws Γ (do
      setBus (← component (σ.fresh 2)).go (some fire)
      setBus (← regData (σ.fresh 3)) (some hold)
      Fifo.markHandshake σ.next
      return σ.next) (σ.adds (M :: I :: O :: F :: νs)) fun m τ => m = σ.next ∧ ∃ O' F',
        O'.OutBuf σ.next done (some fire) data ∧
        F'.Shows { x with inputs := x.inputs.set 0 (some hold) } ∧
        τ = σ.adds (M :: I :: O' :: F' :: νs) := by
  have hgives : ∀ b, (∃ ν ∈ νs, b ∈ ν.buses) → ∀ O F, (σ.adds (M :: I :: O :: F :: νs)).Gives b := by
    rintro b ⟨ν, hν, hb⟩ O F
    obtain ⟨k, hk⟩ := List.mem_iff_getElem?.mp hν
    exact Sheet.gives_adds (k := k + 4) hk hb
  refine .bind_assoc (.bind (draws_start_outBuf (Sheet.node?_adds_fresh σ _ (k := 2) (by simp)) hO
    (hgives fire hfire O F)) fun _ τ hτ => ?_)
  obtain ⟨O, hO, rfl⟩ := hτ
  rw [Sheet.set_adds_fresh σ _ (by simp)]
  refine .bind_assoc (.bind (draws_wire (Sheet.node?_adds_fresh σ _ (k := 3) (by simp)) hF (k := 0) hx
    (hgives hold hhold O F)) fun _ τ hτ => ?_)
  obtain ⟨F, hF, -, rfl⟩ := hτ
  rw [Sheet.set_adds_fresh σ _ (by simp)]
  exact .bind (draws_markHandshake (Sheet.node?_adds_fresh σ _ (k := 0) (by simp)) hM)
    fun _ τ hτ => hτ ▸ .pure ⟨rfl, O, F, hO, hF, rfl⟩

theorem draws_readToken {f : Fifo} (hnative : f.spec.protocol.isNative = false)
    (hpins : ∀ p ∈ f.pins.toList, p.index < Γ.pins) {send ack : PinId} (hsend : f.pins.send = some send)
    (hack : f.pins.ack = some ack) :
    Draws Γ (Fifo.readToken f) σ fun m τ => m = σ.next ∧ ∃ w token result M νs,
      w.clock ∈ w.inner.control ∧ w.reset ∈ w.inner.control ∧ M.Encloses (readerBox m w result) ∧
      List.Forall₂ Piece.Of (readerParts m f.pins.data send ack w token result) νs ∧
      τ = σ.adds (M :: νs) := by
  refine .bind (draws_newBox (K := []) (ComponentKind.fitsIn_of_none rfl rfl) (by simp) _)
    fun m τ hτ => ?_
  obtain ⟨rfl, M, I, o, hM, hI, rfl⟩ := hτ
  refine .bind (draws_makeResult_box (Sheet.node?_next_adds ..) hM rfl) fun e τ hτ => ?_
  obtain ⟨M, O, done, result, hM, hO, rfl⟩ := hτ
  simp only [Sheet.set_next_adds, Sheet.add_adds, Sheet.next_adds, List.cons_append, List.nil_append,
    List.length_cons, List.length_nil, Nat.zero_add, Nat.reduceAdd] at hM ⊢
  refine .read (sees_resultBus (Sheet.node?_next_adds ..) hM.outlet? rfl) ?_
  refine .bind (draws_setBusSignal (Sheet.gives_adds (k := 0) rfl
    (by simp [hM.buses rfl, Outlet.buses])) _) fun _ τ hτ => ?_
  subst hτ
  refine .read (sees_mainOutBuf (Sheet.node?_next_adds ..) hM.outlet? rfl) ?_
  refine .bind (draws_pendingLogic_inside hM (k := 0) rfl rfl hI _) fun r τ hτ => ?_
  obtain ⟨hflop, M, F, G, clock, hclock, reset, hreset, stored, hM, hF, hG, rfl⟩ := hτ
  obtain ⟨flop, pending⟩ := r
  subst hflop
  refine .bind (draws_readPin_inside hM (hpins _ (by simp [FifoPins.toList])) _) fun token τ hτ => ?_
  obtain ⟨M, T, hM, hT, rfl⟩ := hτ
  refine .bind (draws_wire_outBuf (Sheet.node?_adds_fresh σ _ (k := 2) (by simp)) hO
    (Sheet.gives_adds (k := 5) rfl (hT.mem_buses (by simp))) (k := 0) rfl) fun _ τ hτ => ?_
  obtain ⟨O, hO, rfl⟩ := hτ
  rw [Sheet.set_adds_fresh σ _ (by simp), if_neg (by simp [hnative])]
  refine .read (.expect hsend rfl) ?_
  refine .bind (draws_readPin_inside hM (hpins _ (by simp [FifoPins.toList, hsend])) _)
    fun ready τ hτ => ?_
  obtain ⟨M, S, hM, hS, rfl⟩ := hτ
  refine .bind (draws_gate_inside hM .and _ (forall_mem_pair.mpr
    ⟨Sheet.gives_adds (k := 4) rfl (hG.mem_buses (by simp)),
      Sheet.gives_adds (k := 6) rfl (hS.mem_buses (by simp))⟩)) fun fire τ hτ => ?_
  obtain ⟨M, D, hM, hD, rfl⟩ := hτ
  have hfire : ∀ νs, (σ.adds (M :: [I, O, F, G, T, S, D] ++ νs)).Gives fire := fun νs =>
    Sheet.gives_adds (k := 7) rfl (hD.mem_buses (by simp))
  refine .read (.expect hack rfl) ?_
  refine .bind (draws_writePin_inside hM (hpins _ (by simp [FifoPins.toList, hack])) _ (hfire [])
    (hfire [])) fun _ τ hτ => ?_
  obtain ⟨M, A, hM, hA, rfl⟩ := hτ
  refine .bind (draws_gate_inside hM .not _ (List.forall_mem_singleton.mpr
    (Sheet.gives_adds (k := 6) rfl (hS.mem_buses (by simp))))) fun idle τ hτ => ?_
  obtain ⟨M, N, hM, hN, rfl⟩ := hτ
  refine .bind (draws_gate_inside hM .and _ (forall_mem_pair.mpr
    ⟨Sheet.gives_adds (k := 9) rfl (hN.mem_buses (by simp)),
      Sheet.gives_adds (k := 4) rfl (hG.mem_buses (by simp))⟩)) fun hold τ hτ => ?_
  obtain ⟨M, X, hM, hX, rfl⟩ := hτ
  refine .read (.pure rfl) ((draws_finishHandshake [G, T, S, D, A, N, X] hM.outlet? hO hF
    (by simp) ⟨D, by simp, hD.mem_buses (by simp)⟩ ⟨X, by simp, hX.mem_buses (by simp)⟩).mono
    fun m τ hτ => ?_)
  obtain ⟨rfl, O, F, hO, hF, rfl⟩ := hτ
  exact ⟨rfl, ⟨o, e, done, clock, reset, stored, pending, ready, fire, idle, hold⟩, token, result, M,
    [I, O, F, G, T, S, D, A, N, X], hclock, hreset, hM, .cons hI (.cons hO (.cons hF (.cons hG
    (.cons hT (.cons hS (.cons hD (.cons hA (.cons hN (.cons hX .nil))))))))), rfl⟩

/-! ### Writing -/

theorem draws_writeToken {f : Fifo} (hpins : ∀ p ∈ f.pins.toList, p.index < Γ.pins)
    {send ack : PinId} (hsend : f.pins.send = some send) (hack : f.pins.ack = some ack) :
    Draws Γ (Fifo.writeToken f) σ fun m τ => m = σ.next ∧ ∃ w token M νs,
      w.clock ∈ w.inner.control ∧ w.reset ∈ w.inner.control ∧ token ∈ w.inner.data ∧
      M.Encloses (writerBox m w token) ∧
      List.Forall₂ Piece.Of (writerParts m f.pins.data send ack w token) νs ∧
      τ = σ.adds (M :: νs) := by
  refine .bind (draws_newBox_port (K := []) (ComponentKind.fitsIn_of_none rfl rfl) (by simp) _)
    fun m τ hτ => ?_
  obtain ⟨rfl, M, I, o, token, hM, hI, htoken, rfl⟩ := hτ
  obtain ⟨a, hdata, ha⟩ := List.map_eq_singleton_iff.mp hM.inputs
  have hpad : M.data[0]? = some a := by rw [hdata]; rfl
  refine .read (sees_dataPort (Sheet.node?_next_adds ..) hpad) ?_
  refine .bind (draws_setPortSignal (Sheet.node?_next_adds ..) (Node.data_mem_pads (by simp [hdata])) _)
    fun _ τ hτ => ?_
  subst hτ
  refine .read (sees_dataBus (Sheet.node?_next_adds ..) hpad (congrArg Prod.snd ha)) ?_
  have hgives : ∀ M νs, (σ.adds (M :: I :: νs)).Gives token := fun M νs =>
    Sheet.gives_adds (k := 1) rfl (by simp [hI.buses, Outlet.buses, htoken])
  refine .bind (draws_setBusSignal (hgives M []) _) fun _ τ hτ => ?_
  subst hτ
  refine .bind (draws_makeExit_box (Sheet.node?_next_adds ..) hM rfl) fun e τ hτ => ?_
  obtain ⟨M, O, done, hM, hO, rfl⟩ := hτ
  simp only [Sheet.set_next_adds, Sheet.add_adds, Sheet.next_adds, List.cons_append, List.nil_append,
    List.length_cons, List.length_nil, Nat.zero_add, Nat.reduceAdd] at hM ⊢
  refine .read (sees_mainOutBuf (Sheet.node?_next_adds ..) hM.outlet? rfl) ?_
  refine .bind (draws_pendingLogic_inside hM (k := 0) rfl rfl hI _) fun r τ hτ => ?_
  obtain ⟨hflop, M, F, G, clock, hclock, reset, hreset, stored, hM, hF, hG, rfl⟩ := hτ
  obtain ⟨flop, pending⟩ := r
  subst hflop
  have hpending : ∀ M νs, (σ.adds (M :: I :: O :: F :: G :: νs)).Gives pending := fun M νs =>
    Sheet.gives_adds (k := 4) rfl (hG.mem_buses (by simp))
  refine .bind (draws_writePin_inside hM (hpins _ (by simp [FifoPins.toList])) _ (hgives M _)
    (hpending M [])) fun _ τ hτ => ?_
  obtain ⟨M, T, hM, hT, rfl⟩ := hτ
  refine .read (.expect hsend rfl) ?_
  refine .bind (draws_writePin_inside hM (hpins _ (by simp [FifoPins.toList, hsend])) _
    (hpending M [T]) (hpending M [T])) fun _ τ hτ => ?_
  obtain ⟨M, S, hM, hS, rfl⟩ := hτ
  refine .read (.expect hack rfl) ?_
  refine .bind (draws_readPin_inside hM (hpins _ (by simp [FifoPins.toList, hack])) _)
    fun ready τ hτ => ?_
  obtain ⟨M, A, hM, hA, rfl⟩ := hτ
  have hready : ∀ M νs, (σ.adds (M :: I :: O :: F :: G :: T :: S :: A :: νs)).Gives ready :=
    fun M νs => Sheet.gives_adds (k := 7) rfl (hA.mem_buses (by simp))
  refine .bind (draws_gate_inside hM .and _ (forall_mem_pair.mpr ⟨hpending M _, hready M []⟩))
    fun fire τ hτ => ?_
  obtain ⟨M, D, hM, hD, rfl⟩ := hτ
  refine .bind (draws_gate_inside hM .not _ (List.forall_mem_singleton.mpr (hready M [D])))
    fun idle τ hτ => ?_
  obtain ⟨M, N, hM, hN, rfl⟩ := hτ
  refine .bind (draws_gate_inside hM .and _ (forall_mem_pair.mpr ⟨hpending M _,
    Sheet.gives_adds (k := 9) rfl (hN.mem_buses (by simp))⟩)) fun hold τ hτ => ?_
  obtain ⟨M, X, hM, hX, rfl⟩ := hτ
  refine (draws_finishHandshake [G, T, S, A, D, N, X] hM.outlet? hO hF
    (by simp) ⟨D, by simp, hD.mem_buses (by simp)⟩ ⟨X, by simp, hX.mem_buses (by simp)⟩).mono
    fun m τ hτ => ?_
  obtain ⟨rfl, O, F, hO, hF, rfl⟩ := hτ
  exact ⟨rfl, ⟨o, e, done, clock, reset, stored, pending, ready, fire, idle, hold⟩, token, M,
    [I, O, F, G, T, S, A, D, N, X], hclock, hreset, htoken, hM, .cons hI (.cons hO (.cons hF (.cons hG
    (.cons hT (.cons hS (.cons hA (.cons hD (.cons hN (.cons hX .nil))))))))), rfl⟩

/-! ### Sampling -/

def probeBox (m : ComponentId) (inner : Outlet) (e : ExitId) (done result : BusId) : Box where
  kind := .actionPortStatus
  start := inner.done
  outlet := some { exit := e, done, data := [result], outBuf := some (after m 2) }
  interior := { inBuf := after m 1, children := [after m 3] }

/-- What is inside a probe; nothing waits for its OutBuf to be started. -/
def probeParts (m : ComponentId) (pin : PinId) (inner : Outlet) (done result status : BusId) :
    List Piece :=
  [.inBuf m inner, .outBuf m done none [(some status, some result)], readPart m pin status]

theorem draws_sampleStatus {f : Fifo} {pin : PinId} (hstatus : f.statusPin? = some pin)
    (hpin : pin.index < Γ.pins) : Draws Γ (Fifo.sampleStatus f) σ fun m τ => m = σ.next ∧
      ∃ inner e done result status M νs, M.Encloses (probeBox m inner e done result) ∧
        List.Forall₂ Piece.Of (probeParts m pin inner done result status) νs ∧
        τ = σ.adds (M :: νs) := by
  rw [Fifo.sampleStatus, hstatus]
  refine .bind (draws_newBox (K := []) (ComponentKind.fitsIn_of_none rfl rfl) (by simp) _)
    fun m τ hτ => ?_
  obtain ⟨rfl, M, I, o, hM, hI, rfl⟩ := hτ
  refine .bind (draws_makeResult_box (Sheet.node?_next_adds ..) hM rfl) fun e τ hτ => ?_
  obtain ⟨M, O, done, result, hM, hO, rfl⟩ := hτ
  simp only [Sheet.set_next_adds, Sheet.add_adds, Sheet.next_adds, List.cons_append, List.nil_append,
    List.length_cons, List.length_nil, Nat.zero_add, Nat.reduceAdd] at hM ⊢
  refine .bind (draws_changeExit (Sheet.node?_next_adds ..) (Node.outlet?_mem hM.outlet?)
    fun _ => rfl) fun _ τ hτ => ?_
  subst hτ
  refine .read (sees_resultBus (Sheet.node?_next_adds ..) hM.outlet? rfl) ?_
  refine .bind (draws_setBusSignal (Sheet.gives_adds (k := 0) rfl
    (by simp [hM.buses rfl, Outlet.buses])) _) fun _ τ hτ => ?_
  subst hτ
  refine .bind (draws_readPin_inside hM hpin _) fun status τ hτ => ?_
  obtain ⟨M, S, hM, hS, rfl⟩ := hτ
  refine .read (sees_mainOutBuf (Sheet.node?_next_adds ..) hM.outlet? rfl) ?_
  refine .bind (draws_wire_outBuf (Sheet.node?_adds_fresh σ _ (k := 2) (by simp)) hO
    (Sheet.gives_adds (k := 3) rfl (hS.mem_buses (by simp))) (k := 0) rfl) fun _ τ hτ => .pure ?_
  obtain ⟨O, hO, rfl⟩ := hτ
  refine ⟨rfl, o, e, done, result, status, M, [I, O, S], hM, .cons hI (.cons hO (.cons hS .nil)), ?_⟩
  exact Sheet.set_adds_fresh σ [M, I, _, S] (k := 2) (by simp) O

end DataflowSynth.Netlist
