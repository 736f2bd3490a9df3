/-
Blocks can always be run.

Every bus of a block is given out in one place, and what starts the block comes from outside.  So,
whatever is on the pins and whenever the block is started, words can be put on its buses one accessor
after the other such that everything in it follows its rules.
-/
import DataflowSynth.Proofs.Circuit.Turns

namespace DataflowSynth.Netlist

variable {pins : Nat} {n : Netlist} {w : Signals} {m : ComponentId} {u : Turn} {us : List Turn}
  {b : Body} {f go : BusId} {owner : Option ComponentId} {start : Option BusId} {word : Nat → Word}

/-! ### The buses of a turn -/

namespace Turn

/-- The buses on which the accessor and its parts give something out. -/
def buses (u : Turn) : List BusId :=
  match u.move with
  | .take _ => u.wires.buses ++ [u.token, u.result]
  | .give _ => u.wires.buses ++ [u.token]

theorem Stands.origins (h : u.Stands n.sheet owner start) (hn : Proper pins n) (hfed : u.Fed) :
    ∃ es : List (Nat × BusRole), u.buses.map n.origin = es.map (placed u.place) ∧ es.Nodup ∧
      ∀ e ∈ es, e.1 ≤ 10 := by
  obtain ⟨M, clock, reset, νs, hrow, hbox, hparts, -⟩ := h.nodes
  unfold Turn.parts at hparts
  unfold Fed at hfed
  unfold buses
  cases hmove : u.move with
  | take l =>
      simp only [hmove] at hparts
      have houtlet : (u.box owner clock reset start).outlet = some {
          exit := u.wires.exit, done := u.wires.done, data := [u.result]
          outBuf := some (after u.place 2) } := by
        simp [box, base, hmove, readerBox]
      exact ⟨_, reader_origins hn hrow (hbox.outlet?.trans houtlet) rfl (by simp) hparts, by decide,
        by decide⟩
  | give l =>
      simp only [hmove] at hparts hfed
      have houtlet : (u.box owner clock reset start).outlet = some {
          exit := u.wires.exit, done := u.wires.done, outBuf := some (after u.place 2) } := by
        simp [box, base, hmove, writerBox]
      exact ⟨_, writer_origins hn hrow (hbox.outlet?.trans houtlet) rfl hfed.2 hparts, by decide,
        by decide⟩

theorem Stands.covers_origin (h : u.Stands n.sheet owner start) (hn : Proper pins n) (hfed : u.Fed)
    (hf : f ∈ u.buses) : ∃ c, u.Covers c ∧ (n.origin f).1 = some c := by
  obtain ⟨es, horigins, -, hle⟩ := h.origins hn hfed
  have hmem : n.origin f ∈ es.map (placed u.place) := horigins ▸ List.mem_map_of_mem hf
  obtain ⟨e, he, heq⟩ := List.mem_map.mp hmem
  exact ⟨_, covers_iff.mpr ⟨e.1, hle e he, rfl⟩, by rw [← heq]; rfl⟩

/-- What the buses of the accessor carry when it is started by `word`, if what it gives is zero. -/
def values (pin : Nat → PinId → Word) (word : Nat → Word) (u : Turn) : List (BusId × (Nat → Word)) :=
  match u.move with
  | .take l =>
    u.wires.values word (pin · l.send) ++ [(u.token, (pin · l.data)), (u.result, (pin · l.data))]
  | .give l => u.wires.values word (pin · l.ack) ++ [(u.token, fun _ _ => false)]

theorem fst_values (pin : Nat → PinId → Word) (word : Nat → Word) (u : Turn) :
    (u.values pin word).map Prod.fst = u.buses := by
  unfold values buses
  split <;> rfl

theorem rules_of_values (hvalues : ∀ e ∈ u.values w.pin word, ∀ t, w.bus t e.1 = e.2 t)
    (hgo : (w.bus · go) = word) (hfeed : ∀ f, u.feed = some f → ∀ t, w.bus t f = fun _ => false) :
    u.Rules w go ∧ (w.bus · u.done) = servedWord word (w.pin · u.ready) := by
  unfold Rules ready
  unfold values at hvalues
  rw [hgo]
  cases hmove : u.move with
  | take l =>
      simp only [hmove, List.forall_mem_append] at hvalues
      obtain ⟨htoken, hresult⟩ := forall_mem_pair.mp hvalues.2
      exact ⟨⟨Wires.waits_of_values hvalues.1, htoken, fun t => (hresult t).trans (htoken t).symm⟩,
        funext (hvalues.1 _ u.wires.done_mem_values)⟩
  | give l =>
      simp only [hmove, List.forall_mem_append, List.forall_mem_singleton] at hvalues
      exact ⟨⟨Wires.waits_of_values hvalues.1, fun f hf t => (hvalues.2 t).trans (hfeed f hf t).symm⟩,
        funext (hvalues.1 _ u.wires.done_mem_values)⟩

end Turn

/-! ### Turns one after the other -/

/-- What the buses of turns carry when the first of them is started by `word`. -/
def valuesInTurn (pin : Nat → PinId → Word) : (word : Nat → Word) → List Turn →
    List (BusId × (Nat → Word))
  | _, [] => []
  | word, u :: us => u.values pin word ++ valuesInTurn pin (servedWord word (pin · u.ready)) us

/-- When the last of them is done. -/
def servedInTurn (pin : Nat → PinId → Word) (word : Nat → Word) (us : List Turn) : Nat → Word :=
  us.foldl (fun word u => servedWord word (pin · u.ready)) word

theorem fst_valuesInTurn (pin : Nat → PinId → Word) (word : Nat → Word) (us : List Turn) :
    (valuesInTurn pin word us).map Prod.fst = us.flatMap Turn.buses := by
  induction us generalizing word with
  | nil => rfl
  | cons u us ih => rw [valuesInTurn, List.map_append, u.fst_values, ih, List.flatMap_cons]

theorem rulesInTurn_of_values {σ : Sheet} {last : BusId} (h : σ.InTurn m go us last)
    (hvalues : ∀ e ∈ valuesInTurn w.pin word us, ∀ t, w.bus t e.1 = e.2 t)
    (hgo : (w.bus · go) = word) (hfeeds : ∀ f ∈ feeds us, ∀ t, w.bus t f = fun _ => false) :
    RulesInTurn w go us ∧ (w.bus · last) = servedInTurn w.pin word us := by
  induction us generalizing go word with
  | nil =>
      obtain rfl : last = go := h
      exact ⟨trivial, hgo⟩
  | cons u us ih =>
      obtain ⟨hu, hus⟩ := List.forall_mem_append.mp hvalues
      have hfeed : ∀ f, u.feed = some f → ∀ t, w.bus t f = fun _ => false := fun f hf =>
        hfeeds f (by simp [feeds, hf])
      have hrest : ∀ f ∈ feeds us, ∀ t, w.bus t f = fun _ => false := fun f hf => hfeeds f (by
        obtain ⟨v, hv, hfeed⟩ := List.mem_filterMap.mp hf
        exact List.mem_filterMap.mpr ⟨v, List.mem_cons_of_mem _ hv, hfeed⟩)
      obtain ⟨hrules, hdone⟩ := Turn.rules_of_values hu hgo hfeed
      obtain ⟨hrules', hlast⟩ := ih h.2 hus hdone hrest
      exact ⟨⟨hrules, hrules'⟩, hlast⟩

/-! ### The buses of a block -/

section

variable (h : b.Stands n.sheet m) (hn : Proper pins n) (hfed : ∀ u ∈ b.turns, u.Fed)

include h hn hfed

/-- Two turns of a block give nothing out on the same bus. -/
theorem Body.Stands.nodup_buses : (b.turns.flatMap Turn.buses).Nodup := by
  obtain ⟨O, last, -, -, hturns⟩ := h.outBuf
  refine List.nodup_flatMap.mpr ⟨fun u hu => ?_, h.spaced.imp_of_mem fun {u v} hu hv hlt f hf hf' => ?_⟩
  · obtain ⟨go, hstands⟩ := hturns.stands hu
    obtain ⟨es, horigins, hnodup, -⟩ := hstands.origins hn (hfed u hu)
    exact nodup_of_origins horigins hnodup
  · obtain ⟨go, hstands⟩ := hturns.stands hu
    obtain ⟨go', hstands'⟩ := hturns.stands hv
    obtain ⟨c, hc, heq⟩ := hstands.covers_origin hn (hfed u hu) hf
    obtain ⟨c', hc', heq'⟩ := hstands'.covers_origin hn (hfed v hv) hf'
    obtain rfl : c = c' := Option.some.inj (heq.symm.trans heq')
    exact Nat.lt_irrefl _ (Nat.lt_of_lt_of_le hlt (Nat.le_trans hc'.1 hc.2))

/-- What comes from before the first turn, or from behind the last one, is given out by none. -/
theorem Body.Stands.notMem_buses {c : ComponentId} (hf : (n.origin f).1 = some c)
    (hc : c.index ≤ m.index + 1 ∨ b.outBuf.index < c.index) : f ∉ b.turns.flatMap Turn.buses := by
  obtain ⟨O, last, -, -, hturns⟩ := h.outBuf
  intro hmem
  obtain ⟨u, hu, hfu⟩ := List.mem_flatMap.mp hmem
  obtain ⟨go, hstands⟩ := hturns.stands hu
  obtain ⟨d, hd, heq⟩ := hstands.covers_origin hn (hfed u hu) hfu
  obtain rfl : c = d := Option.some.inj (hf.symm.trans heq)
  have hbehind := h.behind u hu
  unfold Turn.Covers at hd
  omega

omit hfed in
theorem Body.Stands.origin_start : n.origin b.start = (some (after m 1), some .done) := by
  obtain ⟨I, o, hI, hin, hstart, -⟩ := h.inBuf
  exact hstart ▸ hn.origin_done hI (Node.outlet?_mem hin.outlet?)

omit hfed in
theorem Body.Stands.origin_feed (hf : f ∈ feeds b.turns) :
    n.origin f = (some (after m 1), some .data) := by
  obtain ⟨I, o, hI, hin, -, hdata⟩ := h.inBuf
  exact hn.origin_data hI (Node.outlet?_mem hin.outlet?) (hdata f hf)

omit hfed in
theorem Body.Stands.origin_done : n.origin b.done = (some m, some .done) := by
  obtain ⟨B, owner, clock, reset, go, hB, hbox⟩ := h.node
  exact hn.origin_done hB (Node.outlet?_mem hbox.outlet?)

section

variable {g : BusId} {c : ComponentId} (hg : (n.origin g).1 = some c) (hc : b.outBuf.index < c.index)

include hg hc

/-- A bus from behind the block, the buses of the block and those of its turns are different. -/
theorem Body.Stands.nodup_signals :
    (g :: b.start :: b.done :: b.turns.flatMap Turn.buses).Nodup := by
  have hahead := h.ahead
  have hstart := h.origin_start hn
  have hdone := h.origin_done hn
  rw [List.nodup_cons, List.nodup_cons, List.nodup_cons, List.mem_cons, List.mem_cons, List.mem_cons]
  refine ⟨?_, ?_, h.notMem_buses hn hfed (congrArg Prod.fst hdone) (.inl (Nat.le_succ _)),
    h.nodup_buses hn hfed⟩
  · rintro (rfl | rfl | hmem)
    · obtain rfl : c = after m 1 := by simpa [hstart] using hg.symm
      exact Nat.lt_asymm hahead hc
    · obtain rfl : c = m := by simpa [hdone] using hg.symm
      omega
    · exact h.notMem_buses hn hfed hg (.inr hc) hmem
  · rintro (heq | hmem)
    · exact after_ne m 0 (by simpa [heq, hdone] using hstart.symm)
    · exact h.notMem_buses hn hfed (congrArg Prod.fst hstart) (.inl (Nat.le_refl _)) hmem

/-- What brings tokens into the block is none of them. -/
theorem Body.Stands.feed_notMem (hf : f ∈ feeds b.turns) :
    f ∉ g :: b.start :: b.done :: b.turns.flatMap Turn.buses := by
  have hfeed := h.origin_feed hn hf
  rw [List.mem_cons, List.mem_cons, List.mem_cons]
  rintro (rfl | rfl | rfl | hmem)
  · obtain rfl : c = after m 1 := by simpa [hfeed] using hg.symm
    exact Nat.lt_asymm h.ahead hc
  · simpa using hfeed.symm.trans (h.origin_start hn)
  · simpa using hfeed.symm.trans (h.origin_done hn)
  · exact h.notMem_buses hn hfed (congrArg Prod.fst hfeed) (.inl (Nat.le_refl _)) hmem

end

/-- Whatever is on the pins and whenever the block is started, it can be run. -/
theorem Body.Stands.exists_run (hstarts : n.sheet.StartsBehind b.outBuf m)
    (pin : Nat → PinId → Word) (go : Nat → Bool) :
    ∃ w : Signals, w.pin = pin ∧ n.PartsRun w m ∧ ∀ t, n.Started w m t ↔ go t = true := by
  obtain ⟨B, last, hB, -, hopen, hturns, hruns⟩ := h.run_iff hfed
  obtain ⟨B', g, c, μ, hB', hg, hμ, hmem, hbehind⟩ := hstarts
  cases hB.symm.trans hB'
  obtain ⟨e, he, hge⟩ := Node.mem_buses.mp hmem
  have hg₀ := hn.origin_fst hμ he hge
  let word : Nat → Word := fun t _ => go t
  let values := (g, word) :: (b.start, word) :: (b.done, servedInTurn pin word b.turns) ::
    valuesInTurn pin word b.turns
  have hfst : values.map Prod.fst = g :: b.start :: b.done :: b.turns.flatMap Turn.buses := by
    simp only [values, List.map_cons, fst_valuesInTurn]
  obtain ⟨bus, hbus, hzero⟩ := exists_assignment values
    (hfst ▸ h.nodup_signals hn hfed hg₀ hbehind)
  obtain ⟨hgo, hbus⟩ := List.forall_mem_cons.mp hbus
  obtain ⟨hentered, hbus⟩ := List.forall_mem_cons.mp hbus
  obtain ⟨hleft, hbus⟩ := List.forall_mem_cons.mp hbus
  let w : Signals := ⟨bus, pin, fun _ _ _ => false⟩
  have hlevel : ∀ t, B.go.level w t = word t := fun t => (Pad.level_of_driver hg t).trans (hgo t)
  have hsilent : ∀ f ∈ feeds b.turns, ∀ t, w.bus t f = fun _ => false := fun f hf =>
    hzero f (hfst ▸ h.feed_notMem hn hfed hg₀ hbehind hf)
  obtain ⟨hrules, hlast⟩ := rulesInTurn_of_values (w := w) hturns hbus (funext hentered) hsilent
  refine ⟨w, rfl, (hruns w).mpr ⟨fun t => (hentered t).trans (hlevel t).symm, fun a ha f hf t => ?_,
    fun t => (hleft t).trans (congrFun hlast t).symm, hrules⟩, fun t => ?_⟩
  · obtain ⟨hnone, f', hf', hpeer⟩ := hopen a ha
    cases hf.symm.trans hpeer
    exact (hsilent f hf' t).trans (Pad.level_of_none (w := w) hnone t).symm
  · rw [started_iff_node (Γ := { pins }) hB, hlevel]

end

end DataflowSynth.Netlist
