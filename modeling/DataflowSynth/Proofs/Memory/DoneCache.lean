/-
The gates that answer a memory read.

A gate gives the done signal: a request meets an answer.  Unless the read is answered at once, a flop
holds the request until then, and a second gate clears the flop on an answer or a reset.  If the read
may be answered at once, but need not be, a third gate lets a request pass by the flop.  The three
shapes are drawn here with the buses between them.
-/
import DataflowSynth.Memory.Read
import DataflowSynth.Proofs.Sheet.Accessors

namespace DataflowSynth.Memory

open Netlist

/-! ### Parts -/

/-- The buses between the gates, and those that come from outside. -/
structure CacheLines where
  go : BusId
  ready : BusId
  clock : BusId
  reset : BusId
  /-- The done signal. -/
  done : BusId
  /-- The output of the flop. -/
  held : BusId
  /-- What clears the flop. -/
  clear : BusId
  /-- A request of this cycle or before. -/
  request : BusId

/-- The flop stores a request until it is cleared. -/
def cacheFlop (m : ComponentId) (v : CacheLines) : Piece := .cell {
  kind := .reg .regRS, owner := some m, clock := some v.clock, reset := some v.clear
  inputs := [some v.held, some v.go, some v.clear], results := [v.held] }

def cacheParts (m : ComponentId) (latency : Latency) (v : CacheLines) : List Piece :=
  if latency.isZero then [gatePart m .and [v.go, v.ready] v.done]
  else if latency.minClocks > 0 then
    [gatePart m .and [v.held, v.ready] v.done, cacheFlop m v, gatePart m .or [v.done, v.reset] v.clear]
  else
    [gatePart m .and [v.request, v.ready] v.done, cacheFlop m v,
      gatePart m .or [v.done, v.reset] v.clear, gatePart m .or [v.held, v.go] v.request]

/-- The gate that gives the done signal is the first. -/
theorem cacheParts_eq_cons (m : ComponentId) (latency : Latency) (v : CacheLines) :
    ∃ request ps, cacheParts m latency v = gatePart m .and [request, v.ready] v.done :: ps := by
  unfold cacheParts
  split
  · exact ⟨_, _, rfl⟩
  · split <;> exact ⟨_, _, rfl⟩

/-- The module with the gates, which come after four other components. -/
def cachedInterior (m : ComponentId) (latency : Latency) (i : Interior) : Interior :=
  if latency.isZero then { i with children := i.children ++ [after m 4] }
  else { i with
    children := i.children ++ if latency.minClocks > 0 then [after m 4, after m 5, after m 6]
      else [after m 4, after m 5, after m 6, after m 7]
    feedback := insertAscending (after m 5) i.feedback }

/-! ### Drawing -/

section

variable {Γ : Ground} {σ : Sheet} {M ν : Node} {i : Interior} {νs : List Node} {k j : Nat} {b : BusId}

theorem draws_adoptNew (νs : List Node) (hi : M.interior = some i) (hν : νs[k]? = some ν)
    (howner : ν.owner = none) :
    Draws Γ (addComponent σ.next (σ.fresh (k + 1))) (σ.adds (M :: νs)) fun _ τ =>
      τ = σ.adds ({ M with interior := some { i with children := i.children ++ [σ.fresh (k + 1)] } } ::
        νs.set k { ν with owner := some σ.next }) := by
  obtain ⟨hk, -⟩ := List.getElem?_eq_some_iff.mp hν
  have hfresh : (σ.adds (M :: νs)).node? (σ.fresh (k + 1)) = some ν := by
    rw [Sheet.node?_adds_fresh σ _ (by simpa using hk), List.getElem?_cons_succ, hν]
  have hne : σ.fresh (k + 1) ≠ σ.next := fun heq => by
    simpa using congrArg Handle.index heq
  refine (draws_addComponent hfresh howner (Sheet.node?_next_adds ..) hi hne).mono fun _ τ hτ => ?_
  rw [hτ, Sheet.set_adds_fresh σ _ (by simpa using hk), List.set_cons_succ, Sheet.set_next_adds]
  simp [Node.adopt, hi]

/-- A port of one of the new components is driven. -/
theorem draws_driveNew (hν : νs[k]? = some ν) {a : Pad} (ha : ν.data[j]? = some a)
    (hb : (σ.adds νs).Gives b) : Draws Γ (setBus a.port (some b)) (σ.adds νs) fun _ τ =>
      τ = σ.adds (νs.set k { ν with data := ν.data.set j { a with driver := some b } }) := by
  obtain ⟨hk, -⟩ := List.getElem?_eq_some_iff.mp hν
  refine (draws_setData ((Sheet.node?_adds_fresh σ _ hk).trans hν) (by simpa using hb) ha).mono
    fun _ τ hτ => ?_
  rw [hτ, Sheet.set_adds_fresh σ _ hk]

theorem draws_wireNew (hν : νs[k]? = some ν) {x : Cell} (hx : ν.Shows x) (hj : j < x.inputs.length)
    (hb : (σ.adds νs).Gives b) : Draws Γ (do setBus (← dataPort (σ.fresh k) j) (some b)) (σ.adds νs)
      fun _ τ => ∃ ν', ν'.Shows { x with inputs := x.inputs.set j (some b) } ∧
        τ = σ.adds (νs.set k ν') := by
  obtain ⟨hk, -⟩ := List.getElem?_eq_some_iff.mp hν
  refine (draws_wire ((Sheet.node?_adds_fresh σ _ hk).trans hν) hx hj hb).mono fun _ τ hτ => ?_
  obtain ⟨ν', hν', -, rfl⟩ := hτ
  exact ⟨ν', hν', Sheet.set_adds_fresh σ _ hk _⟩

/-- The gate that gives the done signal gets the answers; what its first port waits for is decided
last. -/
theorem draws_doneGate {I O C : Node} (hi : M.interior = some i) {ready : BusId}
    (hready : ∀ M νs, (σ.adds (M :: I :: νs)).Gives ready) {β : Type} {R : β → Sheet → Prop}
    {rest : PortId → BusId → Step β}
    (hrest : ∀ A request done, A.data[0]? = some request →
      A.Shows {
        kind := .andGate, owner := some σ.next, inputs := [none, some ready], results := [done] } →
      Draws Γ (rest request.port done) (σ.adds [{ M with
        interior := some { i with children := i.children ++ [σ.fresh 4] } }, I, O, C, A]) R) :
    Draws Γ (do
      let doneAnd ← newGate .and "doneAnd" 2
      addComponent σ.next doneAnd
      let request ← dataPort doneAnd 0
      setBus (← dataPort doneAnd 1) (some ready)
      let done ← resultBus doneAnd
      rest request done) (σ.adds [M, I, O, C]) R := by
  refine .bind (draws_newGate .and "doneAnd" 2) fun c τ hτ => ?_
  obtain ⟨rfl, A, done, hA, rfl⟩ := hτ
  simp only [Sheet.add_adds, Sheet.next_adds, List.cons_append, List.nil_append, List.length_cons,
    List.length_nil, Nat.zero_add, Nat.reduceAdd]
  refine .bind (draws_adoptNew (k := 3) [I, O, C, A] hi rfl hA.owner) fun _ τ hτ => ?_
  subst hτ
  obtain ⟨a, b, hdata⟩ : ∃ a b, A.data = [a, b] := by
    have hlength : A.data.length = 2 := by simpa using congrArg List.length hA.data
    exact List.length_eq_two.mp hlength
  have hA' := hA.withOwner σ.next
  have hnode : ∀ M A, (σ.adds [M, I, O, C, A]).node? (σ.fresh 4) = some A := fun M A =>
    Sheet.node?_adds_fresh σ _ (k := 4) (by simp)
  refine .read (sees_dataPort (hnode _ _) (k := 0) (a := a) (by simp [hdata])) ?_
  refine .read (sees_dataPort (hnode _ _) (k := 1) (a := b) (by simp [hdata])) ?_
  refine .bind (draws_driveNew (k := 4) (j := 1) rfl (a := b) (by simp [hdata]) (hready _ _))
    fun _ τ hτ => ?_
  subst hτ
  have hA'' := hA'.withInput (k := 1) b (some ready)
  refine .read (sees_resultOf (hnode _ _) hA'' rfl) ?_
  exact hrest _ a done (by simp [hdata]) hA''

/-- A flop and the gate that clears it are connected to each other. -/
theorem draws_cacheWires {I O C A F W : Node} {o : Outlet} (hI : InBufNode σ.next I o)
    {done held clear clock reset : BusId} (hdone : done ∈ A.buses)
    (hclock : clock ∈ o.control) (hreset : reset ∈ o.control)
    (hF : F.Shows {
      kind := .reg .regRS, owner := some σ.next, inputs := [none, none, none], results := [held] })
    (hW : W.Shows {
      kind := .orGate, owner := some σ.next, inputs := [none, none], results := [clear] })
    {β : Type} {R : β → Sheet → Prop} {rest : Step β}
    (hrest : ∀ F W, (∀ ready request,
        (cacheFlop σ.next ⟨o.done, ready, clock, reset, done, held, clear, request⟩).Of F) →
      (gatePart σ.next .or [done, reset] clear).Of W →
      Draws Γ rest (σ.adds [M, I, O, C, A, F, W]) R) :
    Draws Γ (do
      let x ← component (σ.fresh 5)
      setBus x.clock (some clock)
      setBus x.reset (some clear)
      setBus (← regInternalReset (σ.fresh 5)) (some clear)
      setBus (← regSet (σ.fresh 5)) (some o.done)
      setBus (← regData (σ.fresh 5)) (some held)
      setBus (← dataPort (σ.fresh 6) 0) (some done)
      setBus (← dataPort (σ.fresh 6) 1) (some reset)
      rest) (σ.adds [M, I, O, C, A, F, W]) R := by
  have hentry : ∀ b ∈ o.buses, ∀ νs, (σ.adds (M :: I :: νs)).Gives b := fun b hb νs =>
    Sheet.gives_adds (k := 1) rfl (by rw [hI.buses]; exact hb)
  have hgo' := hentry o.done (by simp [Outlet.buses])
  have hclock' := hentry clock (by simp [Outlet.buses, hclock])
  have hreset' := hentry reset (by simp [Outlet.buses, hreset])
  have hdone' : ∀ νs, (σ.adds (M :: I :: O :: C :: A :: νs)).Gives done := fun νs =>
    Sheet.gives_adds (k := 4) rfl hdone
  have hheld : ∀ {x : Cell} (F) (hF : F.Shows x) (hx : held ∈ x.results) (νs),
      (σ.adds (M :: I :: O :: C :: A :: F :: νs)).Gives held := fun F hF hx νs =>
    Sheet.gives_adds (k := 5) rfl (hF.mem_buses hx)
  have hclear : ∀ F, (σ.adds [M, I, O, C, A, F, W]).Gives clear := fun F =>
    Sheet.gives_adds (k := 6) rfl (hW.mem_buses (by simp))
  have hflop : ∀ F, (σ.adds [M, I, O, C, A, F, W]).node? (σ.fresh 5) = some F :=
    fun F => Sheet.node?_adds_fresh σ _ (k := 5) (by simp)
  -- The control ports of the flop, which belong to the component itself.
  refine .look (sees_component (hflop _)) fun x hx => ?_
  rw [hx.clock, hx.reset]
  let F₁ : Node := { F with clock := { F.clock with driver := some clock } }
  let F₂ : Node := { F₁ with reset := { F.reset with driver := some clear } }
  have hF : F₂.Shows _ := (hF.withClock (some clock)).withReset (some clear)
  refine .bind (draws_setClock (hflop _) (by simpa using hclock' _)) fun _ τ hτ => ?_
  rw [Sheet.set_adds_fresh σ _ (by simp)] at hτ
  obtain rfl : τ = σ.adds [M, I, O, C, A, F₁, W] := hτ
  refine .bind (draws_setReset (hflop F₁) (by simpa using hclear _)) fun _ τ hτ => ?_
  rw [Sheet.set_adds_fresh σ _ (by simp)] at hτ
  obtain rfl : τ = σ.adds [M, I, O, C, A, F₂, W] := hτ
  -- The inputs of the flop, and then those of the gate.
  refine .bind_assoc (.bind (draws_wireNew (k := 5) rfl hF (j := 2) (by simp) (hclear _))
    fun _ τ hτ => ?_)
  obtain ⟨F, hF, rfl⟩ := hτ
  refine .bind_assoc (.bind (draws_wireNew (k := 5) rfl hF (j := 1) (by simp) (hgo' _))
    fun _ τ hτ => ?_)
  obtain ⟨F, hF, rfl⟩ := hτ
  refine .bind_assoc (.bind (draws_wireNew (k := 5) rfl hF (j := 0) (by simp)
    (hheld _ hF (by simp) _)) fun _ τ hτ => ?_)
  obtain ⟨F, hF, rfl⟩ := hτ
  refine .bind_assoc (.bind (draws_wireNew (k := 6) rfl hW (j := 0) (by simp) (hdone' _))
    fun _ τ hτ => ?_)
  obtain ⟨W, hW, rfl⟩ := hτ
  refine .bind_assoc (.bind (draws_wireNew (k := 6) rfl hW (j := 1) (by simp) (hreset' _))
    fun _ τ hτ => ?_)
  obtain ⟨W, hW, rfl⟩ := hτ
  exact hrest F W (fun _ _ => hF) hW

/-- A flop and the gate that clears it become children, and they are connected to each other. -/
theorem draws_cacheLoop {I O C A : Node} (hi : M.interior = some i) (hin : i.inBuf = σ.fresh 1)
    {o : Outlet} (hI : InBufNode σ.next I o) {done : BusId} (hdone : done ∈ A.buses) {β : Type}
    {R : β → Sheet → Prop} {rest : BusId → Step β}
    (hrest : ∀ clock reset held clear F W, o.control[0]? = some clock →
      o.control[1]? = some reset →
      (∀ ready request,
        (cacheFlop σ.next ⟨o.done, ready, clock, reset, done, held, clear, request⟩).Of F) →
      (gatePart σ.next .or [done, reset] clear).Of W → Draws Γ (rest held) (σ.adds [{ M with interior := some { i with
          children := i.children ++ [σ.fresh 5, σ.fresh 6]
          feedback := insertAscending (σ.fresh 5) i.feedback } }, I, O, C, A, F, W]) R) :
    Draws Γ (do
      let clock ← clockBus σ.next
      let reset ← resetBus σ.next
      let flop ← newReg .regRS "done_cache" .bit
      let resetOr ← newGate .or "resetOr" 2
      addComponents σ.next [flop, resetOr]
      addFeedbackPoint σ.next flop
      let held ← resultBus flop
      let clear ← resultBus resetOr
      let x ← component flop
      setBus x.clock (some clock)
      setBus x.reset (some clear)
      setBus (← regInternalReset flop) (some clear)
      setBus (← regSet flop) (some o.done)
      setBus (← regData flop) (some held)
      setBus (← dataPort resetOr 0) (some done)
      setBus (← dataPort resetOr 1) (some reset)
      rest held) (σ.adds [M, I, O, C, A]) R := by
  have hM := Sheet.node?_next_adds σ M [I, O, C, A]
  have hI' : (σ.adds [M, I, O, C, A]).node? i.inBuf = some I := by
    rw [hin]
    exact Sheet.node?_adds_fresh σ _ (k := 1) (by simp)
  refine .look (sees_clockBus hM hi hI' hI.outlet?) fun clock hclock => ?_
  refine .look (sees_resetBus hM hi hI' hI.outlet?) fun reset hreset => ?_
  refine .bind (draws_newReg .regRS "done_cache" .bit) fun c τ hτ => ?_
  obtain ⟨rfl, F, held, hF, rfl⟩ := hτ
  refine .bind (draws_newGate .or "resetOr" 2) fun c τ hτ => ?_
  obtain ⟨rfl, W, clear, hW, rfl⟩ := hτ
  simp only [Sheet.add_adds, Sheet.next_adds, List.cons_append, List.nil_append, List.length_cons,
    List.length_nil, Nat.zero_add, Nat.reduceAdd]
  let i₁ : Interior := { i with children := i.children ++ [σ.fresh 5] }
  let i₂ : Interior := { i₁ with children := i₁.children ++ [σ.fresh 6] }
  let M₁ : Node := { M with interior := some i₁ }
  let M₂ : Node := { M with interior := some i₂ }
  have hchildren : Draws Γ (addComponents σ.next [σ.fresh 5, σ.fresh 6])
      (σ.adds [M, I, O, C, A, F, W]) fun _ τ => τ = σ.adds [M₂, I, O, C, A,
        { F with owner := some σ.next }, { W with owner := some σ.next }] := by
    refine .bind (draws_adoptNew (k := 4) [I, O, C, A, F, W] hi rfl hF.owner)
      fun _ τ hτ => .forM_singleton ?_
    subst hτ
    exact draws_adoptNew (M := M₁) (k := 5) [I, O, C, A, { F with owner := some σ.next }, W]
      rfl rfl hW.owner
  refine .bind hchildren fun _ τ hτ => ?_
  subst hτ
  have hF := hF.withOwner σ.next
  have hW := hW.withOwner σ.next
  have hflop : ∀ M F W, (σ.adds [M, I, O, C, A, F, W]).node? (σ.fresh 5) = some F :=
    fun M F W => Sheet.node?_adds_fresh σ _ (k := 5) (by simp)
  refine .bind (draws_addFeedbackPoint (hflop ..) rfl (Sheet.node?_next_adds ..) (i := i₂) rfl)
    fun _ τ hτ => ?_
  rw [Sheet.set_next_adds] at hτ
  subst hτ
  refine .read (sees_resultOf (hflop ..) hF rfl) ?_
  refine .read (sees_resultOf (Sheet.node?_adds_fresh σ _ (k := 6) (by simp)) hW rfl) ?_
  refine draws_cacheWires hI hdone (List.mem_of_getElem? hclock) (List.mem_of_getElem? hreset) hF hW
    fun F W hF hW => ?_
  have hM' : M₂.feedBack (σ.fresh 5) = { M with interior := some { i with
      children := i.children ++ [σ.fresh 5, σ.fresh 6]
      feedback := insertAscending (σ.fresh 5) i.feedback } } := by
    simp [M₂, i₂, i₁, Node.feedBack]
  rw [hM']
  exact hrest clock reset held clear F W hclock hreset hF hW

/-- The done signal of a new module, whose only other child is the component `C`. -/
theorem draws_doneCache {I O C : Node} (hi : M.interior = some i) (hin : i.inBuf = σ.fresh 1)
    {o : Outlet} (hI : InBufNode σ.next I o) (latency : Latency) {ready : BusId}
    (hready : ready ∈ o.data) (hcontrol : ∃ clock reset, o.control = [clock, reset]) :
    Draws Γ (doneCache σ.next latency o.done ready) (σ.adds [M, I, O, C]) fun done τ =>
      ∃ v νs, v.go = o.done ∧ v.ready = ready ∧ o.control = [v.clock, v.reset] ∧ v.done = done ∧
        List.Forall₂ Piece.Of (cacheParts σ.next latency v) νs ∧
        τ = σ.adds ({ M with interior := some (cachedInterior σ.next latency i) } ::
          I :: O :: C :: νs) := by
  obtain ⟨clock, reset, hcontrol⟩ := hcontrol
  have hentry : ∀ b ∈ o.buses, ∀ M νs, (σ.adds (M :: I :: νs)).Gives b := fun b hb M νs =>
    Sheet.gives_adds (k := 1) rfl (by rw [hI.buses]; exact hb)
  have hgo := hentry o.done (by simp [Outlet.buses])
  refine draws_doneGate hi (hentry ready (by simp [Outlet.buses, hready]))
    fun A request done hrequest hA => ?_
  -- At the end, the gate is told which request it waits for.
  have hwait : ∀ {M' : Node} {νs : List Node} (b : BusId), (σ.adds (M' :: I :: O :: C :: A :: νs)).Gives b →
      Draws Γ (setBus request.port (some b)) (σ.adds (M' :: I :: O :: C :: A :: νs)) fun _ τ => ∃ A,
        (gatePart σ.next .and [b, ready] done).Of A ∧
        τ = σ.adds (M' :: I :: O :: C :: A :: νs) := by
    intro M' νs b hb
    refine (draws_driveNew (k := 4) rfl hrequest hb).mono fun _ τ hτ => ⟨_, ?_, hτ⟩
    exact hA.withInput request (some b)
  by_cases hzero : latency.isZero
  · rw [if_pos hzero]
    refine .bind (hwait o.done (hgo _ _)) fun _ τ hτ => .pure ?_
    obtain ⟨A, hA, rfl⟩ := hτ
    refine ⟨⟨o.done, ready, clock, reset, done, done, done, done⟩, [A], rfl, rfl, hcontrol, rfl, ?_, ?_⟩
    · rw [cacheParts, if_pos hzero]
      exact .cons hA .nil
    · simp [cachedInterior, hzero]
      rfl
  rw [if_neg hzero]
  refine draws_cacheLoop (i := { i with children := i.children ++ [σ.fresh 4] }) rfl hin hI
    (hA.mem_buses (by simp)) fun ck rs held clear F W hck hrs hF hW => ?_
  obtain rfl : clock = ck := by simpa [hcontrol] using hck
  obtain rfl : reset = rs := by simpa [hcontrol] using hrs
  have hheld : ∀ M νs, (σ.adds (M :: I :: O :: C :: A :: F :: νs)).Gives held := fun M νs =>
    Sheet.gives_adds (k := 5) rfl (Node.Shows.mem_buses (hF ready held) (by simp))
  by_cases hmin : latency.minClocks > 0
  · simp only [if_pos hmin]
    refine .bind (hwait held (hheld _ _)) fun _ τ hτ => .pure ?_
    obtain ⟨A, hA, rfl⟩ := hτ
    refine ⟨⟨o.done, ready, clock, reset, done, held, clear, held⟩, [A, F, W], rfl, rfl, hcontrol, rfl,
      ?_, ?_⟩
    · rw [cacheParts, if_neg hzero, if_pos hmin]
      exact .cons hA (.cons (hF ready held) (.cons hW .nil))
    · simp [cachedInterior, hzero, hmin]
      rfl
  · simp only [if_neg hmin]
    refine .bind (draws_newGate .or "combOr" 2) fun c τ hτ => ?_
    obtain ⟨rfl, Z, pending, hZ, rfl⟩ := hτ
    simp only [Sheet.add_adds, Sheet.next_adds, List.cons_append, List.nil_append, List.length_cons,
      List.length_nil, Nat.zero_add, Nat.reduceAdd]
    refine .bind (draws_adoptNew (k := 6) [I, O, C, A, F, W, Z] rfl rfl hZ.owner)
      fun _ τ hτ => ?_
    subst hτ
    refine .bind_assoc (.bind (draws_wireNew (k := 7) rfl (hZ.withOwner σ.next) (j := 0) (by simp)
      (hheld _ _)) fun _ τ hτ => ?_)
    obtain ⟨Z, hZ, rfl⟩ := hτ
    refine .bind_assoc (.bind (draws_wireNew (k := 7) rfl hZ (j := 1) (by simp) (hgo _ _))
      fun _ τ hτ => ?_)
    obtain ⟨Z, hZ, rfl⟩ := hτ
    refine .read (sees_resultOf (Sheet.node?_adds_fresh σ _ (k := 7) (by simp)) hZ rfl) ?_
    refine .bind (hwait pending (Sheet.gives_adds (k := 7) rfl (hZ.mem_buses (by simp))))
      fun _ τ hτ => .pure ?_
    obtain ⟨A, hA, rfl⟩ := hτ
    refine ⟨⟨o.done, ready, clock, reset, done, held, clear, pending⟩, [A, F, W, Z], rfl, rfl, hcontrol,
      rfl, ?_, ?_⟩
    · rw [cacheParts, if_neg hzero, if_neg hmin]
      exact .cons hA (.cons (hF ready pending) (.cons hW (.cons hZ .nil)))
    · simp [cachedInterior, hzero, hmin]
      rfl

end

end DataflowSynth.Memory
