/-
Blocks that move tokens, read off their netlists.

Whoever looks at the netlist of a design finds the modules of a block, the pins that each of them works
on, and what starts it.  What the accessors are made of is not needed to say that.
-/
import DataflowSynth.Proofs.Synthesis.Bodies
import DataflowSynth.Proofs.Synthesis.Inventory

namespace DataflowSynth

namespace Netlist

/-! ### Reading a sheet -/

namespace Sheet

variable (σ : Sheet)

def kind? (c : ComponentId) : Option ComponentKind := (σ.node? c).map Node.kind

/-- What drives the go of a component. -/
def goDriver? (c : ComponentId) : Option BusId := (σ.node? c).bind fun ν => ν.go.driver

/-- The done of a component. -/
def done? (c : ComponentId) : Option BusId := (σ.node? c).bind fun ν => (ν.outlet? .done).map Outlet.done

/-- What drives the data ports of a component. -/
def dataDrivers (c : ComponentId) : List (Option BusId) :=
  (σ.node? c).elim [] fun ν => ν.data.map Pad.driver

/-- The components inside a module that read or write pins. -/
def pinKinds (i : Interior) : List ComponentKind :=
  (i.children.filterMap σ.kind?).filter fun
    | .pinRead _ | .pinWrite _ => true
    | _ => false

end Sheet

variable {σ : Sheet} {m : ComponentId} {go : BusId} {t : Turn} {owner : Option ComponentId}

theorem InTurn_chain {ts : List Turn} {last : BusId} (h : σ.InTurn m go ts last) :
    (ts.map Turn.place).map σ.goDriver? ++ [some last] =
      some go :: (ts.map Turn.place).map σ.done? := by
  induction ts generalizing go with
  | nil => exact congrArg (fun b => [some b]) h
  | cons t ts ih =>
      obtain ⟨⟨⟨M, clock, reset, hM, hbox⟩, -⟩, hrest⟩ := h
      obtain ⟨o, ho, hdone⟩ := t.outlet_box (some m) clock reset (some go)
      have hgo : σ.goDriver? t.place = some go := by
        rw [Sheet.goDriver?, hM]
        exact hbox.go
      have hfinish : σ.done? t.place = some t.done := by
        simp [Sheet.done?, hM, hbox.outlet?, ho, hdone]
      simp only [List.map_cons, List.cons_append, hgo, hfinish, ih hrest]

theorem Turn.Stands.kind? (h : t.Stands σ owner (some go)) {k : Nat} {x : Cell}
    (hx : t.parts[k]? = some (.cell x)) : σ.kind? (after t.place (k + 1)) = some x.kind := by
  obtain ⟨ν, hν, hshows⟩ := h.parts k _ hx
  rw [Sheet.kind?, hν]
  exact congrArg some hshows.kind

/-- What an accessor does on its pins. -/
def Move.pinKinds : Move → List ComponentKind
  | .take l => [.pinRead l.data, .pinRead l.send, .pinWrite l.ack]
  | .give l => [.pinWrite l.data, .pinWrite l.send, .pinRead l.ack]

theorem Turn.Stands.pinKinds (h : t.Stands σ owner (some go)) :
    σ.pinKinds (handshakeInterior t.place) = t.move.pinKinds := by
  have hchildren : (handshakeInterior t.place).children = [after t.place 3, after t.place 4,
    after t.place 5, after t.place 6, after t.place 7, after t.place 8, after t.place 9,
    after t.place 10] := rfl
  have hkind : ∀ k x, t.parts[k]? = some (.cell x) → σ.kind? (after t.place (k + 1)) = some x.kind :=
    fun _ _ hx => h.kind? hx
  unfold Turn.parts at hkind
  rw [Sheet.pinKinds, hchildren]
  cases hmove : t.move with
  | take l =>
      simp only [hmove] at hkind
      simp only [List.filterMap_cons, List.filterMap_nil, hkind 2 _ rfl, hkind 3 _ rfl, hkind 4 _ rfl,
        hkind 5 _ rfl, hkind 6 _ rfl, hkind 7 _ rfl, hkind 8 _ rfl, hkind 9 _ rfl]
      rfl
  | give l =>
      simp only [hmove] at hkind
      simp only [List.filterMap_cons, List.filterMap_nil, hkind 2 _ rfl, hkind 3 _ rfl, hkind 4 _ rfl,
        hkind 5 _ rfl, hkind 6 _ rfl, hkind 7 _ rfl, hkind 8 _ rfl, hkind 9 _ rfl]
      rfl

/-- What drives the data port of an accessor, if it has one. -/
theorem Turn.Stands.dataDrivers (h : t.Stands σ owner (some go)) (hfed : t.Fed) :
    σ.dataDrivers t.place = t.feed.toList.map some := by
  obtain ⟨M, clock, reset, hM, hbox⟩ := h.node
  have hdata : M.data.map Pad.driver = (t.box owner clock reset (some go)).inputs.map Prod.fst := by
    rw [← hbox.inputs, List.map_map]
    rfl
  rw [Sheet.dataDrivers, hM]
  simp only [Option.elim, hdata]
  unfold Turn.Fed at hfed
  cases hmove : t.move with
  | take l => simp_all [Turn.box, Turn.base, readerBox]
  | give l =>
      simp only [hmove] at hfed
      obtain ⟨b, hb⟩ := Option.isSome_iff_exists.mp hfed.1
      simp [Turn.box, Turn.base, hmove, writerBox, hb]

theorem InTurn_dataDrivers {ts : List Turn} {last : BusId} (h : σ.InTurn m go ts last)
    (hfed : ∀ t ∈ ts, t.Fed) :
    (ts.map Turn.place).flatMap σ.dataDrivers = (feeds ts).map some := by
  induction ts generalizing go with
  | nil => rfl
  | cons t ts ih =>
      have hrest := ih h.2 fun u hu => hfed u (by simp [hu])
      rw [List.map_cons, List.flatMap_cons, hrest, h.1.dataDrivers (hfed t (by simp))]
      cases hb : t.feed <;> simp [feeds, hb]

end Netlist

namespace Synthesis

open Netlist (Sheet Node Outlet Interior Pad Turn Body)

variable {d : Design} {fifos : Interfaces} {block : ComponentId}

/-- A module is an accessor on the pins of an interface.  It has a data port if it gives tokens. -/
def Accesses (σ : Sheet) (f : Fifo) (c : ComponentId) : Prop :=
  ∃ M i, σ.node? c = some M ∧ M.interior = some i ∧
    match f.spec.direction with
    | .input => M.kind = .module .fifoRead ∧ M.data.length = 0 ∧ σ.pinKinds i =
        .pinRead f.pins.data :: f.pins.send.toList.map .pinRead ++ f.pins.ack.toList.map .pinWrite
    | .output => M.kind = .module .fifoWrite ∧ M.data.length = 1 ∧ σ.pinKinds i =
        .pinWrite f.pins.data :: f.pins.send.toList.map .pinWrite ++ f.pins.ack.toList.map .pinRead

/-- A module moves a token of a port. -/
def Moves (d : Design) (token : Direction × Actor.Port) (c : ComponentId) : Prop :=
  ∃ f ∈ d.fifos.values, f.spec = portSpec token.1 token.2 ∧ Accesses d.netlist.sheet f c

/-- A block moves tokens one after the other.  `B`, `I` and `O` are the block and its two buffers, `i`
is what is inside the block, `entry` and `exit` are the exits of the InBuf and of the block. -/
structure MovesInTurn (d : Design) (block : ComponentId) (tokens : List (Direction × Actor.Port))
    (B I O : Node) (i : Interior) (entry exit : Outlet) : Prop where
  node : d.netlist.sheet.node? block = some B
  kind : B.kind = .module .block
  interior : B.interior = some i
  inBuf : d.netlist.sheet.node? i.inBuf = some I
  enters : I.outlet? .done = some entry
  exits : B.outlet? .done = some exit
  outBuf : ∃ w, exit.outBuf = some w ∧ d.netlist.sheet.node? w = some O
  /-- There is one accessor for each token, and nothing else. -/
  children : List.Forall₂ (Moves d) tokens i.children
  /-- The first is started with the block, each of the others when the one before it is done, and the
  block is done when the last one is. -/
  turns : i.children.map d.netlist.sheet.goDriver? ++ [O.go.driver] =
    some entry.done :: i.children.map d.netlist.sheet.done?
  /-- The tokens to give come in on data ports of the block, one port for each of them. -/
  data : i.children.flatMap d.netlist.sheet.dataDrivers = B.data.map Pad.peer
  peers : ∀ a ∈ B.data, ∃ b ∈ entry.data, a.peer = some b

/-- An accessor that stands on the sheet works on its pins. -/
theorem accesses_stands {σ : Sheet} {u : Turn} {owner : Option ComponentId} {go : BusId}
    (h : u.Stands σ owner (some go)) {f : Fifo} {send ack : PinId} (hsend : f.pins.send = some send)
    (hack : f.pins.ack = some ack)
    (hmove : u.move = moveAlong f.spec.direction ⟨f.pins.data, send, ack⟩) :
    Accesses σ f u.place := by
  obtain ⟨M, clock, reset, hM, hbox⟩ := h.node
  have hlength : M.data.length = (u.box owner clock reset (some go)).inputs.length := by
    rw [← hbox.inputs, List.length_map]
  have hinterior : (u.box owner clock reset (some go)).interior = Netlist.handshakeInterior u.place := by
    unfold Turn.box Turn.base
    split <;> rfl
  refine ⟨M, _, hM, hbox.interior, ?_⟩
  rw [hinterior, h.pinKinds, hlength, hbox.kind, hmove]
  cases hdirection : f.spec.direction with
  | input => simp [Turn.box, Turn.base, hmove, hdirection, moveAlong, Netlist.readerBox, hsend, hack,
      Netlist.Move.pinKinds]
  | output => simp [Turn.box, Turn.base, hmove, hdirection, moveAlong, Netlist.writerBox, hsend, hack,
      Netlist.Move.pinKinds]

section

variable {ports : List (Direction × Actor.Port)}
  (hspecs : d.fifos.values.map Fifo.spec = ports.map fun e => portSpec e.1 e.2)
  (hhandles : ∀ i e, ports[i]? = some e → fifos.find? e.2.name = some ⟨i⟩)

include hspecs hhandles

/-- What is found under the name of a port is the interface of the port. -/
theorem interface_of_port {port : Direction × Actor.Port} (hport : port ∈ ports) {handle : FifoId}
    (hfind : fifos.find? port.2.name = some handle) {f : Fifo} (hf : d.fifos.get? handle = some f) :
    f ∈ d.fifos.values ∧ f.spec = portSpec port.1 port.2 := by
  obtain ⟨i, hi⟩ := List.mem_iff_getElem?.mp hport
  cases (hhandles i port hi).symm.trans hfind
  rw [Arena.get?_eq_values] at hf
  refine ⟨List.mem_of_getElem? hf, ?_⟩
  have hsame := congrArg (·[i]?) hspecs
  simpa [List.getElem?_map, hf, hi] using hsame

theorem Conveys.moves {token : Direction × Actor.Port} {u : Turn} (h : Conveys fifos d token u)
    (htoken : token ∈ ports) {owner : Option ComponentId} {go : BusId}
    (hstands : u.Stands d.netlist.sheet owner (some go)) : Moves d token u.place := by
  obtain ⟨handle, f, send, ack, hfind, hf, hdirection, hsend, hack, hmove⟩ := h
  obtain ⟨hmem, hspec⟩ := interface_of_port hspecs hhandles htoken hfind hf
  exact ⟨f, hmem, hspec,
    accesses_stands hstands hsend hack (hdirection ▸ hmove)⟩

/-- What was built turn by turn is found in the netlist. -/
theorem Performs.movesInTurn {tokens : List (Direction × Actor.Port)} (h : Performs fifos d tokens block)
    (htokens : ∀ token ∈ tokens, token ∈ ports) :
    ∃ B I O i entry exit, MovesInTurn d block tokens B I O i entry exit := by
  obtain ⟨b, hstands, -, hfed, hconveys⟩ := h.body
  obtain ⟨B, owner, clock, reset, go, hB, hbox⟩ := hstands.node
  obtain ⟨I, o, hI, hin, hstart, hdata⟩ := hstands.inBuf
  obtain ⟨O, last, hO, hout, hturns⟩ := hstands.outBuf
  have hpeers : B.data.map Pad.peer = (Netlist.feeds b.turns).map some := by
    have hinputs := congrArg (List.map Prod.snd) hbox.inputs
    simpa [Body.box, Function.comp_def] using hinputs
  refine ⟨B, I, O, _, o, _, hB, hbox.kind, hbox.interior, hI, hin.outlet?, hbox.outlet?,
    ⟨_, rfl, hO⟩, ?_, ?_, ?_, fun a ha => ?_⟩
  · refine List.forall₂_map_right_iff.mpr (List.forall₂_iff_get.mpr ⟨hconveys.length_eq, fun i h₁ h₂ => ?_⟩)
    obtain ⟨go, hgo⟩ := hturns.stands (List.get_mem b.turns ⟨i, h₂⟩)
    exact (hconveys.get h₁ h₂).moves hspecs hhandles (htokens _ (List.get_mem _ _)) hgo
  · rw [hout.go, hstart]
    exact Netlist.InTurn_chain hturns
  · rw [hpeers]
    exact Netlist.InTurn_dataDrivers hturns hfed
  · have hmem : a.peer ∈ B.data.map Pad.peer := List.mem_map_of_mem ha
    rw [hpeers] at hmem
    obtain ⟨f, hf, heq⟩ := List.mem_map.mp hmem
    exact ⟨f, hdata f hf, heq.symm⟩

end

theorem mem_directedPorts_of_tokensOf {actor : Actor} {a : Actor.Action}
    {token : Direction × Actor.Port} (h : token ∈ tokensOf actor a) : token ∈ directedPorts actor := by
  obtain ⟨direction, p⟩ := token
  simp only [tokensOf, List.mem_append, List.mem_flatMap] at h
  rcases h with ⟨e, -, he⟩ | ⟨e, -, he⟩
  · obtain ⟨rfl, hp⟩ := mem_tokensOn he
    exact List.mem_append_left _ (List.mem_map_of_mem (Actor.mem_inputs_of_input? hp))
  · obtain ⟨rfl, hp⟩ := mem_tokensOn he
    exact List.mem_append_right _ (List.mem_map_of_mem (Actor.mem_outputs_of_output? hp))

end Synthesis

end DataflowSynth
