/-
Blocks that move tokens one after the other.

The accessors of a block are drawn one behind the other, each with its parts, and then started in turn:
the first with the block, each of the others when the one before it is done.  Here a block is followed
wire by wire.  A turn says which accessor stands where and on which buses; what is open until the end is
only what starts it.
-/
import DataflowSynth.Proofs.Sheet.Fixtures

namespace DataflowSynth.Netlist

open Build

variable {Γ : Ground} {σ τ ρ : Sheet} {c m : ComponentId} {B : Node} {i : Interior} {go : BusId}

/-! ### Turns -/

/-- The pins of a handshake. -/
structure Link where
  data : PinId
  send : PinId
  ack : PinId
  deriving DecidableEq

/-- A token is taken from an input or given to an output. -/
inductive Move where
  | take (link : Link)
  | give (link : Link)
  deriving DecidableEq

/-- An accessor of a block. -/
structure Turn where
  place : ComponentId
  move : Move
  wires : Wires
  /-- What is moved: it comes from the data pin, or from the data port of the accessor. -/
  token : BusId
  /-- Where a token that was taken leaves the accessor. -/
  result : BusId
  /-- What drives the data port of an accessor that gives. -/
  feed : Option BusId := none

namespace Turn

variable (t : Turn)

def done : BusId := t.wires.done

/-- The accessor before anything drives it. -/
def base : Box :=
  match t.move with
  | .take _ => readerBox t.place t.wires t.result
  | .give _ => writerBox t.place t.wires t.token

/-- The accessor with its owner and what drives it. -/
def box (owner : Option ComponentId) (clock reset go : Option BusId) : Box :=
  { t.base with owner, clock, reset, go, inputs := t.base.inputs.map fun a => (t.feed, a.2) }

def parts : List Piece :=
  match t.move with
  | .take l => readerParts t.place l.data l.send l.ack t.wires t.token t.result
  | .give l => writerParts t.place l.data l.send l.ack t.wires t.token

/-- If the accessor has a data port, something drives it, and what is moved comes in by the InBuf. -/
def Fed : Prop :=
  match t.move with
  | .take _ => t.feed = none
  | .give _ => t.feed.isSome ∧ t.token ∈ t.wires.inner.data

theorem box_none (h : t.feed = none) : t.box none none none none = t.base := by
  unfold box base
  split
  · rfl
  · simp [h, writerBox]

theorem length_parts : t.parts.length = 10 := by
  unfold parts
  split <;> rfl

theorem outlet_box (owner : Option ComponentId) (clock reset go : Option BusId) :
    ∃ o, (t.box owner clock reset go).outlet = some o ∧ o.done = t.done := by
  unfold box base
  split
  · exact ⟨_, rfl, rfl⟩
  · exact ⟨_, rfl, rfl⟩

/-- The component is the accessor or one of its parts. -/
def Covers (c : ComponentId) : Prop := t.place.index ≤ c.index ∧ c.index ≤ t.place.index + 10

/-- The accessor stands on the sheet with all its parts. -/
structure Stands (σ : Sheet) (owner : Option ComponentId) (go : Option BusId) : Prop where
  node : ∃ M clock reset, σ.node? t.place = some M ∧ M.Encloses (t.box owner clock reset go)
  parts : ∀ k p, t.parts[k]? = some p → ∃ ν, σ.node? (after t.place (k + 1)) = some ν ∧ p.Of ν

/-- The accessor as it is once its data port is driven. -/
def fixture : Fixture where
  place := t.place
  base := { t.base with inputs := t.base.inputs.map fun a => (t.feed, a.2) }
  parts := t.parts

theorem base_fixture (h : t.feed = none) : t.fixture.base = t.base := by
  unfold fixture base
  split
  · rfl
  · simp [h, writerBox]

variable {t} {owner : Option ComponentId} {start : Option BusId}

theorem covers_fixture : t.Covers c ↔ t.fixture.Covers c := by
  rw [Covers, Fixture.Covers, ← t.length_parts]
  rfl

theorem stands_fixture : t.Stands σ owner start ↔ t.fixture.Stands σ owner start :=
  ⟨fun h => ⟨h.node, h.parts⟩, fun h => ⟨h.node, h.parts⟩⟩

theorem covers_place : t.Covers t.place := covers_fixture.mpr Fixture.covers_place

theorem covers_part {k : Nat} {p : Piece} (h : t.parts[k]? = some p) :
    t.Covers (after t.place (k + 1)) :=
  covers_fixture.mpr (Fixture.covers_part h)

theorem part_ne_place (k : Nat) : after t.place (k + 1) ≠ t.place :=
  Fixture.part_ne_place (f := t.fixture) k

/-- It stands there as long as nothing of it is changed. -/
theorem Stands.frame (h : t.Stands σ owner start)
    (hsame : ∀ c, t.Covers c → τ.node? c = σ.node? c) : t.Stands τ owner start :=
  stands_fixture.mpr ((stands_fixture.mp h).frame fun c hc => hsame c (covers_fixture.mpr hc))

theorem Stands.endsDone (h : t.Stands σ owner start) : σ.EndsDone t.place := by
  obtain ⟨o, ho, -⟩ := t.outlet_box owner none none start
  exact (stands_fixture.mp h).endsDone (Option.isSome_iff_exists.mpr ⟨o, ho⟩)

theorem Stands.gives (h : t.Stands σ owner start) : σ.Gives t.done := by
  obtain ⟨M, clock, reset, hM, hbox⟩ := h.node
  obtain ⟨o, ho, hdone⟩ := t.outlet_box owner clock reset start
  exact ⟨t.place, M, hM, by simp [hbox.buses ho, Outlet.buses, hdone]⟩

end Turn

/-- The accessors come one behind the other. -/
def Spaced (ts : List Turn) : Prop := ts.Pairwise fun t u => t.place.index + 10 < u.place.index

theorem Spaced.apart {ts : List Turn} (h : Spaced ts) : Apart (ts.map Turn.fixture) :=
  List.pairwise_map.mpr (h.imp fun {t _} hlt => t.length_parts ▸ hlt)

theorem Spaced.not_covers {t : Turn} {ts : List Turn} (h : Spaced (t :: ts)) {u : Turn} (hu : u ∈ ts) :
    ¬ t.Covers u.place ∧ ¬ u.Covers t.place := by
  rw [Turn.covers_fixture, Turn.covers_fixture]
  exact h.apart.not_covers (List.mem_map_of_mem hu)

/-! ### Starting in turn -/

/-- The steps are started in turn, the first with `go`; `last` is the done of the last one. -/
def Sheet.InTurn (σ : Sheet) (m : ComponentId) : (go : BusId) → List Turn → (last : BusId) → Prop
  | go, [], last => last = go
  | go, t :: ts, last => t.Stands σ (some m) (some go) ∧ σ.InTurn m t.done ts last

theorem Sheet.InTurn.frame {ts : List Turn} {last : BusId} (h : σ.InTurn m go ts last)
    (hsame : ∀ t ∈ ts, ∀ c, t.Covers c → τ.node? c = σ.node? c) : τ.InTurn m go ts last := by
  induction ts generalizing go with
  | nil => exact h
  | cons t ts ih =>
      exact ⟨h.1.frame (hsame t (by simp)), ih h.2 fun u hu => hsame u (by simp [hu])⟩

theorem Sheet.InTurn.stands {ts : List Turn} {last : BusId} (h : σ.InTurn m go ts last) {t : Turn}
    (ht : t ∈ ts) : ∃ go, t.Stands σ (some m) (some go) := by
  induction ts generalizing go with
  | nil => exact absurd ht List.not_mem_nil
  | cons u ts ih =>
      rcases List.mem_cons.mp ht with rfl | ht
      · exact ⟨go, h.1⟩
      · exact ih h.2 ht

theorem draws_startTurn {t : Turn} (hB : σ.node? m = some B) (hi : B.interior = some i)
    (hne : t.place ≠ m) (ht : t.Stands σ (some m) none) (hgo : σ.Gives go) :
    Draws Γ (do
      Synthesis.wireClocks m t.place
      Synthesis.start t.place go
      doneBus t.place) σ fun done τ => done = t.done ∧ ∃ M, τ = σ.set t.place M ∧
        t.Stands τ (some m) (some go) := by
  have hstart := draws_startFixture (Γ := Γ) (f := t.fixture) hB hi hne (Turn.stands_fixture.mp ht) hgo
  refine .bind_assoc (.bind hstart fun _ τ hτ => ?_)
  obtain ⟨M, rfl, hfixed⟩ := hτ
  have hstands := Turn.stands_fixture.mpr hfixed
  obtain ⟨N, clock, reset, hN, hbox⟩ := hstands.node
  obtain ⟨o, ho, hdone⟩ := t.outlet_box (some m) clock reset (some go)
  refine (sees_doneBus hN (hbox.outlet?.trans ho)).draws.mono fun d υ hυ => ?_
  exact ⟨hυ.2.trans hdone, M, hυ.1, hυ.1 ▸ hstands⟩

theorem draws_startTurns {ts : List Turn} (hB : σ.node? m = some B) (hi : B.interior = some i)
    (hne : ∀ t ∈ ts, t.place ≠ m) (hspaced : Spaced ts) (hts : ∀ t ∈ ts, t.Stands σ (some m) none)
    (hgo : σ.Gives go) :
    Draws Γ (Synthesis.startInTurn m go (ts.map Turn.place)) σ fun last τ =>
      τ.InTurn m go ts last ∧ τ.Gives last ∧ τ.size = σ.size ∧
        ∀ c, c ∉ ts.map Turn.place → τ.node? c = σ.node? c := by
  induction ts generalizing σ go with
  | nil => exact .pure ⟨rfl, hgo, rfl, fun _ _ => rfl⟩
  | cons t ts ih =>
      have hstands := hts t (by simp)
      rw [List.map_cons, Synthesis.startInTurn, List.foldlM_cons]
      refine .bind (draws_startTurn hB hi (hne t (by simp)) hstands hgo) fun done τ hτ => ?_
      obtain ⟨rfl, M, rfl, hstarted⟩ := hτ
      have hothers : ∀ u ∈ ts, u.Stands (σ.set t.place M) (some m) none := fun u hu =>
        (hts u (by simp [hu])).frame fun c hc => Sheet.node?_set_of_ne _ _ fun heq =>
          (hspaced.not_covers hu).2 (heq ▸ hc)
      have hB' : (σ.set t.place M).node? m = some B := by
        rw [Sheet.node?_set_of_ne _ _ (hne t (by simp)).symm, hB]
      refine (ih hB' (fun u hu => hne u (by simp [hu])) (List.pairwise_cons.mp hspaced).2 hothers
        hstarted.gives).mono fun last ρ hρ => ?_
      obtain ⟨hturns, hlast, hsize, hsame⟩ := hρ
      refine ⟨⟨hstarted.frame fun c hc => hsame c fun hmem => ?_, hturns⟩, hlast, hsize, fun c hc => ?_⟩
      · obtain ⟨u, hu, rfl⟩ := List.mem_map.mp hmem
        exact (hspaced.not_covers hu).1 hc
      · obtain ⟨hct, hcs⟩ : c ≠ t.place ∧ c ∉ ts.map Turn.place := by
          rw [List.mem_cons, not_or] at hc
          exact hc
        rw [hsame c hcs, Sheet.node?_set_of_ne _ _ hct]

/-! ### Blocks under construction -/

/-- The buses that bring tokens into a block, in the order in which they are given. -/
def feeds (ts : List Turn) : List BusId := ts.filterMap Turn.feed

/-- A block, and the accessors that are to stand in it. -/
structure Sheet.Lines (σ : Sheet) (m : ComponentId) (start : BusId) (ts : List Turn) : Prop where
  block : ∃ B, σ.node? m = some B ∧ B.Encloses {
    kind := .block, start, inputs := (feeds ts).map fun b => (none, some b)
    interior := { inBuf := after m 1 } }
  inBuf : ∃ I o, σ.node? (after m 1) = some I ∧ InBufNode m I o ∧ o.done = start ∧
    ∀ b ∈ feeds ts, b ∈ o.data
  stands : ∀ t ∈ ts, t.Stands σ none none
  spaced : Spaced ts
  behind : ∀ t ∈ ts, m.index + 1 < t.place.index ∧ t.place.index + 10 < σ.size

theorem draws_openBlock (stem : String) : Draws Γ (newModule .block stem 0) σ fun m τ =>
    ∃ start, τ.Lines m start [] := by
  refine (draws_newBox (K := []) (ComponentKind.fitsIn_of_none rfl rfl) (by simp) stem).mono
    fun m τ hτ => ?_
  obtain ⟨rfl, M, I, o, hM, hI, rfl⟩ := hτ
  refine ⟨o.done, ⟨M, Sheet.node?_next_adds .., hM⟩, ⟨I, o, ?_, hI, rfl, by simp [feeds]⟩,
    by simp, .nil, by simp⟩
  exact Sheet.node?_adds_fresh σ [M, I] (k := 1) (by simp)

section

variable {start : BusId} {ts : List Turn}

theorem feeds_concat (t : Turn) : feeds (ts ++ [t]) = feeds ts ++ t.feed.toList := by
  cases h : t.feed <;> simp [feeds, h]

/-- Nothing of the accessors stands where the block or its InBuf stands. -/
theorem Sheet.Lines.not_covers (h : σ.Lines m start ts) {t : Turn} (ht : t ∈ ts) :
    ¬ t.Covers m ∧ ¬ t.Covers (after m 1) := by
  have hlt := (h.behind t ht).1
  have hindex : (after m 1).index = m.index + 1 := rfl
  unfold Turn.Covers
  omega

/-- One more accessor is drawn. -/
theorem Sheet.Lines.draw (h : σ.Lines m start ts) (hσ : σ.Bounded) {t : Turn} (hplace : t.place = σ.next)
    (hfeed : t.feed = none) {M : Node} {νs : List Node} (hM : M.Encloses t.base)
    (hparts : List.Forall₂ Piece.Of t.parts νs) : (σ.adds (M :: νs)).Lines m start (ts ++ [t]) := by
  have hold : ∀ {c ν}, σ.node? c = some ν → (σ.adds (M :: νs)).node? c = some ν := fun hν => by
    rw [Sheet.node?_adds_of_lt (hσ _ _ hν), hν]
  have hlength : νs.length = 10 := hparts.length_eq.symm.trans t.length_parts
  obtain ⟨B, hB, hbox⟩ := h.block
  obtain ⟨I, o, hI, hin, hdone, hdata⟩ := h.inBuf
  have hfeeds : feeds (ts ++ [t]) = feeds ts := by simp [feeds_concat, hfeed]
  have hnext : σ.size = t.place.index := by rw [hplace, Sheet.index_next]
  refine ⟨⟨B, hold hB, hfeeds ▸ hbox⟩, ⟨I, o, hold hI, hin, hdone, hfeeds ▸ hdata⟩, ?_, ?_, ?_⟩
  · intro u hu
    rcases List.mem_append.mp hu with hu | hu
    · refine (h.stands u hu).frame fun c hc => Sheet.node?_adds_of_lt ?_ _
      exact Nat.lt_of_le_of_lt hc.2 (h.behind u hu).2
    · obtain rfl := List.mem_singleton.mp hu
      have hbase : u.fixture.base = u.base := u.base_fixture hfeed
      have hbox : u.fixture.box none none none none = u.fixture.base :=
        (u.box_none hfeed).trans hbase.symm
      exact Turn.stands_fixture.mpr (Fixture.stands_adds hplace hbox (hbase.symm ▸ hM) hparts)
  · refine List.pairwise_append.mpr ⟨h.spaced, by simp, fun u hu v hv => ?_⟩
    obtain rfl := List.mem_singleton.mp hv
    exact hnext ▸ (h.behind u hu).2
  · intro u hu
    rw [Sheet.size_adds, List.length_cons, hlength]
    rcases List.mem_append.mp hu with hu | hu
    · exact ⟨(h.behind u hu).1, Nat.lt_add_right _ (h.behind u hu).2⟩
    · obtain rfl := List.mem_singleton.mp hu
      have hlt : m.index + 1 < σ.size := hσ (after m 1) I hI
      omega

section

variable (h : σ.Lines m start ts) {f : Fifo} (hf : f.Usable Γ.pins) {send ack : PinId}
  (hsend : f.pins.send = some send) (hack : f.pins.ack = some ack)

include h hf hsend hack

theorem draws_take : Draws Γ (Fifo.readToken f) σ fun c τ => ∃ t : Turn, t.place = c ∧
    t.move = .take ⟨f.pins.data, send, ack⟩ ∧ t.feed = none ∧ τ.Lines m start (ts ++ [t]) := by
  refine .of_bounded fun hσ => (draws_readToken hf.shakes hf.pins hsend hack).mono fun c τ hτ => ?_
  obtain ⟨rfl, w, token, result, M, νs, -, -, hM, hps, rfl⟩ := hτ
  let t : Turn := {
    place := σ.next, move := .take ⟨f.pins.data, send, ack⟩, wires := w, token, result }
  exact ⟨t, rfl, rfl, rfl, h.draw hσ (t := t) rfl rfl hM hps⟩

theorem draws_give : Draws Γ (Fifo.writeToken f) σ fun c τ => ∃ t : Turn, t.place = c ∧
    t.move = .give ⟨f.pins.data, send, ack⟩ ∧ t.feed = none ∧ t.token ∈ t.wires.inner.data ∧
      τ.Lines m start (ts ++ [t]) := by
  refine .of_bounded fun hσ => (draws_writeToken hf.pins hsend hack).mono fun c τ hτ => ?_
  obtain ⟨rfl, w, token, M, νs, -, -, htoken, hM, hps, rfl⟩ := hτ
  let t : Turn := {
    place := σ.next, move := .give ⟨f.pins.data, send, ack⟩, wires := w, token, result := token }
  exact ⟨t, rfl, rfl, rfl, htoken, h.draw hσ (t := t) rfl rfl hM hps⟩

end

/-- The last accessor is fed by a new data port of the block. -/
theorem Sheet.Lines.feed {t : Turn} (h : σ.Lines m start (ts ++ [t])) (hfeed : t.feed = none)
    {B I M : Node} {o : Outlet} {b : BusId} {clock reset : Option BusId}
    (hB : B.Encloses {
      kind := .block, start
      inputs := (feeds (ts ++ [t])).map (fun d => (none, some d)) ++ [(none, some b)]
      interior := { inBuf := after m 1 } })
    (hI : InBufNode m I { o with data := o.data ++ [b] }) (hstart : o.done = start)
    (hdata : ∀ d ∈ feeds (ts ++ [t]), d ∈ o.data)
    (hM : M.Encloses (({ t with feed := some b } : Turn).box none clock reset none)) :
    (((σ.set (after m 1) I).set m B).set t.place M).Lines m start
      (ts ++ [{ t with feed := some b }]) := by
  let τ := ((σ.set (after m 1) I).set m B).set t.place M
  have hlast : t ∈ ts ++ [t] := by simp
  have hcm : t.place ≠ m := fun heq => (h.not_covers hlast).1 (heq ▸ Turn.covers_place)
  have hci : t.place ≠ after m 1 := fun heq => (h.not_covers hlast).2 (heq ▸ Turn.covers_place)
  have hfeeds : feeds (ts ++ [{ t with feed := some b }]) = feeds (ts ++ [t]) ++ [b] := by
    simp [feeds_concat, hfeed]
  -- Only the block, its InBuf and the accessor itself are drawn anew.
  have hcovered : ∀ v ∈ ts ++ [t], ∀ c, v.Covers c → c ≠ t.place → τ.node? c = σ.node? c := by
    intro v hv c hc hct
    have hm : c ≠ m := fun heq => (h.not_covers hv).1 (heq ▸ hc)
    have hi : c ≠ after m 1 := fun heq => (h.not_covers hv).2 (heq ▸ hc)
    rw [Sheet.node?_set_of_ne _ _ hct, Sheet.node?_set_of_ne _ _ hm, Sheet.node?_set_of_ne _ _ hi]
  obtain ⟨hspaced, -, hbefore⟩ := List.pairwise_append.mp h.spaced
  refine ⟨⟨B, ?_, ?_⟩, ⟨I, _, ?_, hI, hstart, ?_⟩, ?_, ?_, ?_⟩
  · rw [Sheet.node?_set_of_ne _ _ hcm.symm, Sheet.node?_set_self]
  · rw [hfeeds, List.map_append]
    exact hB
  · rw [Sheet.node?_set_of_ne _ _ hci.symm, Sheet.node?_set_of_ne _ _ (after_ne m 0),
      Sheet.node?_set_self]
  · rw [hfeeds]
    intro d hd
    rcases List.mem_append.mp hd with hd | hd
    · exact List.mem_append_left _ (hdata d hd)
    · exact List.mem_append_right _ hd
  · intro v hv
    rcases List.mem_append.mp hv with hv | hv
    · have hmem : v ∈ ts ++ [t] := by simp [hv]
      refine (h.stands v hmem).frame fun c hc => hcovered v hmem c hc ?_
      rintro rfl
      exact Nat.lt_irrefl _ (Nat.lt_of_le_of_lt hc.2 (hbefore v hv t (by simp)))
    · obtain rfl := List.mem_singleton.mp hv
      refine ⟨⟨M, clock, reset, Sheet.node?_set_self .., hM⟩, fun k q hq => ?_⟩
      have hpart : t.parts[k]? = some q := hq
      rw [hcovered t hlast _ (Turn.covers_part hpart) (Turn.part_ne_place k)]
      exact (h.stands t hlast).parts k q hpart
  · exact List.pairwise_append.mpr ⟨hspaced, by simp, fun v hv w hw =>
      List.mem_singleton.mp hw ▸ hbefore v hv t (by simp)⟩
  · intro v hv
    rcases List.mem_append.mp hv with hv | hv
    · exact h.behind v (by simp [hv])
    · obtain rfl := List.mem_singleton.mp hv
      exact h.behind t hlast

/-- The token of an accessor that gives enters the block on a port of its own. -/
theorem draws_feedTurn {t : Turn} (h : σ.Lines m start (ts ++ [t])) {l : Link} (hmove : t.move = .give l)
    (hfeed : t.feed = none) (name : String) (signal : Signal) :
    Draws Γ (do
      let index := (← component m).dataPorts.length
      let input ← makeDataPort m name
      setPortSignal input signal
      let b ← dataBus m index
      setBusSignal b signal
      setBus (← dataPort t.place 0) (some b)) σ fun _ τ => ∃ b,
        τ.Lines m start (ts ++ [{ t with feed := some b }]) := by
  obtain ⟨B, hB, hbox⟩ := h.block
  obtain ⟨I, o, hI, hin, hstart, hdata⟩ := h.inBuf
  have hlast : t ∈ ts ++ [t] := by simp
  obtain ⟨M, clock, reset, hM, hx⟩ := (h.stands t hlast).node
  have hcm : t.place ≠ m := fun heq => (h.not_covers hlast).1 (heq ▸ Turn.covers_place)
  have hinputs : (t.box none clock reset none).inputs = [(none, some t.token)] := by
    simp [Turn.box, Turn.base, hmove, hfeed, writerBox]
  refine (draws_enter hB hbox hI hin hM hx hcm hinputs name signal).mono fun _ τ hτ => ?_
  obtain ⟨B', I', M', b, hB', hI', hM', rfl, -⟩ := hτ
  have hfed : M'.Encloses (({ t with feed := some b } : Turn).box none clock reset none) := by
    have hbox : ({ t with feed := some b } : Turn).box none clock reset none =
        { t.box none clock reset none with inputs := [(some b, some t.token)] } := by
      simp [Turn.box, Turn.base, hmove, writerBox]
    exact hbox ▸ hM'
  exact ⟨b, h.feed hfeed hB' hI' hstart hdata hfed⟩

end

/-! ### Finished blocks -/

/-- A block with its exit. -/
structure Body where
  /-- The bus that repeats go inside. -/
  start : BusId
  exit : ExitId
  done : BusId
  outBuf : ComponentId
  turns : List Turn

namespace Body

variable (b : Body)

/-- The block with its owner and what drives it. -/
def box (m : ComponentId) (owner : Option ComponentId) (clock reset go : Option BusId) : Box where
  kind := .block
  owner := owner
  clock := clock
  reset := reset
  go := go
  start := b.start
  inputs := (feeds b.turns).map fun f => (none, some f)
  outlet := some { exit := b.exit, done := b.done, outBuf := some b.outBuf }
  interior := { inBuf := after m 1, children := b.turns.map Turn.place }

/-- The block stands on the sheet with all that it runs. -/
structure Stands (σ : Sheet) (m : ComponentId) : Prop where
  node : ∃ B owner clock reset go, σ.node? m = some B ∧ B.Encloses (b.box m owner clock reset go)
  inBuf : ∃ I o, σ.node? (after m 1) = some I ∧ InBufNode m I o ∧ o.done = b.start ∧
    ∀ f ∈ feeds b.turns, f ∈ o.data
  outBuf : ∃ O last, σ.node? b.outBuf = some O ∧ O.OutBuf m b.done (some last) [] ∧
    σ.InTurn m b.start b.turns last
  spaced : Spaced b.turns
  behind : ∀ t ∈ b.turns, m.index + 1 < t.place.index ∧ t.place.index + 10 < b.outBuf.index
  ahead : m.index + 1 < b.outBuf.index

variable {b}

/-- It stands there as long as only its owner and what drives it are changed. -/
theorem Stands.frame (h : b.Stands σ m)
    (hnode : ∃ B owner clock reset go, τ.node? m = some B ∧ B.Encloses (b.box m owner clock reset go))
    (hsame : ∀ c, m.index < c.index → c.index ≤ b.outBuf.index → τ.node? c = σ.node? c) :
    b.Stands τ m := by
  obtain ⟨O, last, hO, hout, hturns⟩ := h.outBuf
  obtain ⟨I, o, hI, hin⟩ := h.inBuf
  have hahead := h.ahead
  refine ⟨hnode, ⟨I, o, ?_, hin⟩, ⟨O, last, ?_, hout, hturns.frame fun t ht c hc => ?_⟩, h.spaced,
    h.behind, hahead⟩
  · rw [hsame (after m 1) (Nat.lt_succ_self _) (Nat.le_of_lt hahead), hI]
  · rw [hsame _ (by omega) (Nat.le_refl _), hO]
  · have hbehind := h.behind t ht
    exact hsame c (Nat.lt_of_lt_of_le (by omega) hc.1) (Nat.le_trans hc.2 (Nat.le_of_lt hbehind.2))

end Body

/-- The block runs its accessors in turn. -/
theorem draws_runTurns {start : BusId} {ts : List Turn} (h : σ.Lines m start ts) :
    Draws Γ (Synthesis.sequence m (ts.map Turn.place)) σ fun _ τ =>
      ∃ b : Body, b.turns = ts ∧ b.Stands τ m := by
  refine .of_bounded fun hσ => ?_
  obtain ⟨B, hB, hbox⟩ := h.block
  obtain ⟨I, o, hI, hin, hdone, hdata⟩ := h.inBuf
  have hne : ∀ t ∈ ts, t.place ≠ m := fun t ht heq =>
    (h.not_covers ht).1 (heq ▸ Turn.covers_place)
  have hplaces : ∀ c, c ∈ ts.map Turn.place → m.index + 1 < c.index := fun c hc => by
    obtain ⟨t, ht, rfl⟩ := List.mem_map.mp hc
    exact (h.behind t ht).1
  have hfixtures : (ts.map Turn.fixture).map Fixture.place = ts.map Turn.place := by
    rw [List.map_map]
    rfl
  have hseat := draws_seat (Γ := Γ) hB hbox.interior h.spaced.apart
    (List.forall_mem_map.mpr fun t ht hc => (h.not_covers ht).1 (Turn.covers_fixture.mpr hc))
    (List.forall_mem_map.mpr fun t ht => Turn.stands_fixture.mp (h.stands t ht))
  rw [hfixtures] at hseat
  refine .bind hseat fun _ τ hτ => ?_
  obtain ⟨hsize, hm, hsame, hfixed⟩ := hτ
  have hseated : ∀ t ∈ ts, t.Stands τ (some m) none := fun t ht =>
    Turn.stands_fixture.mpr (hfixed _ (List.mem_map_of_mem ht))
  have hinner : τ.node? (after m 1) = some I := by
    rw [hsame, hI]
    · exact after_ne m 0
    · exact fun hmem => Nat.lt_irrefl _ (hplaces _ hmem)
  refine .read (sees_goBus hm rfl hinner hin.outlet?) ?_
  have hgives : τ.Gives o.done := ⟨_, I, hinner, by simp [hin.buses, Outlet.buses]⟩
  refine .bind (draws_startTurns hm rfl hne h.spaced hseated hgives) fun last ρ hρ => ?_
  obtain ⟨hturns, hlast, hsize', hsame'⟩ := hρ
  rw [hdone] at hturns
  have hm' : ρ.node? m = _ := (hsame' m fun hmem => absurd (hplaces m hmem) (by omega)).trans hm
  refine .of_bounded fun hbounded => ?_
  let x : Box := {
    kind := .block, start, inputs := (feeds ts).map fun b => (none, some b)
    interior := { inBuf := after m 1, children := ts.map Turn.place } }
  have hx : Node.Encloses { B with interior := some x.interior } x :=
    { hbox with interior := rfl }
  refine .bind (draws_close hm' (x := x) hx rfl (fun c hc => ?_) hlast) fun _ υ hυ => ?_
  · obtain ⟨t, ht, rfl⟩ := List.mem_map.mp (List.mem_of_getLast? (Option.mem_toList.mp hc))
    obtain ⟨go, hstands⟩ := hturns.stands ht
    exact hstands.endsDone
  have hothers : ∀ c, c ≠ m → c.index < σ.size → υ.node? c = ρ.node? c := fun c hcm hc =>
    hυ.same hcm (by rw [hsize', hsize]; exact hc)
  obtain ⟨B', O, e, done, hB', hO, rfl⟩ := hυ
  have hblock : ((ρ.set m B').add O).node? m = some B' := by
    rw [Sheet.node?_add_of_ne _ _ (by simpa using hbounded.ne_next hm'), Sheet.node?_set_self]
  refine (draws_setProducesDone hblock _).mono fun _ ω hω => ?_
  subst hω
  have hnext : ρ.next.index = σ.size := hsize'.trans hsize
  have hahead : m.index + 1 < σ.size := hσ (after m 1) I hI
  let b : Body := { start, exit := e, done, outBuf := ρ.next, turns := ts }
  refine ⟨b, rfl, ⟨B', none, none, none, none, hblock, hB'⟩, ⟨I, o, ?_, hin, hdone, hdata⟩,
    ⟨O, last, Sheet.node?_add_next .., hO, hturns.frame fun t ht c hc => ?_⟩, h.spaced,
    fun t ht => hnext ▸ h.behind t ht, hnext ▸ hahead⟩
  · rw [hothers (after m 1) (after_ne m 0) hahead,
      hsame' (after m 1) (fun hmem => Nat.lt_irrefl _ (hplaces _ hmem)), hinner]
  · exact hothers c (fun heq => (h.not_covers ht).1 (heq ▸ hc))
      (Nat.lt_of_le_of_lt hc.2 (h.behind t ht).2)

end DataflowSynth.Netlist
