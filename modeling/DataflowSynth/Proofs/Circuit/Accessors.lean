/-
Accessors as circuits.

Both accessors with a handshake remember a request in a flop until the other side is ready.  A reader
acknowledges a token in the cycle in which it is done, and a writer offers its token as long as its
request is open.
-/
import DataflowSynth.Proofs.Circuit.Nodes

namespace DataflowSynth.Netlist

open Handshake (Open)

/-! ### What accessors are for -/

open Classical in
/-- The module takes a token from the data pin for every request, once the send pin tells that one is
there, and answers on the ack pin. -/
structure TakesTokens (n : Netlist) (m : ComponentId) (data send ack : PinId) : Prop where
  /-- Whatever is on the pins and whenever requests come, the circuit goes on. -/
  runs : ∀ (pin : Nat → PinId → Word) (go : Nat → Bool),
    ∃ w, w.pin = pin ∧ n.Runs w m ∧ ∀ t, n.Started w m t ↔ go t = true
  done : ∀ w, n.Runs w m → ∀ t, n.Finished w m t ↔
    w.pin t send 0 = true ∧ Open (n.Started w m) (n.Finished w m) t
  answers : ∀ w, n.Runs w m → ∀ t, n.Raises w m t ack ↔ n.Finished w m t
  returns : ∀ w, n.Runs w m → ∀ t v, n.Returns w m t v ↔ w.pin t data = v
  /-- A token moves when it is there and taken.  This happens whenever the module is done, so at most
  once for every request. -/
  tokens : ∀ w, n.Runs w m → ∀ t,
    Nat.count (fun s => w.pin s send 0 = true ∧ n.Raises w m s ack) t = Nat.count (n.Finished w m) t ∧
      Nat.count (n.Finished w m) t ≤ Nat.count (n.Started w m) t

open Classical in
/-- The module gives a token to the data pin for every request and tells so on the send pin, until the
ack pin tells that it has been taken. -/
structure GivesTokens (n : Netlist) (m : ComponentId) (data send ack : PinId) : Prop where
  /-- Whatever is on the pins and whenever requests come, with any tokens, the circuit goes on. -/
  runs : ∀ (pin : Nat → PinId → Word) (go : Nat → Bool) (token : Nat → Word),
    ∃ w, w.pin = pin ∧ n.Runs w m ∧ (∀ t, n.Started w m t ↔ go t = true) ∧
      ∀ t, n.Given w m t (token t)
  done : ∀ w, n.Runs w m → ∀ t, n.Finished w m t ↔
    w.pin t ack 0 = true ∧ Open (n.Started w m) (n.Finished w m) t
  tells : ∀ w, n.Runs w m → ∀ t, n.Raises w m t send ↔ Open (n.Started w m) (n.Finished w m) t
  drives : ∀ w, n.Runs w m → ∀ t, ∃ token, n.Given w m t token ∧
    ∀ v, n.Drives w m t data v ↔ Open (n.Started w m) (n.Finished w m) t ∧ v = token
  tokens : ∀ w, n.Runs w m → ∀ t,
    Nat.count (fun s => w.pin s ack 0 = true ∧ n.Raises w m s send) t = Nat.count (n.Finished w m) t ∧
      Nat.count (n.Finished w m) t ≤ Nat.count (n.Started w m) t

/-! ### The waiting part -/

variable {Γ : Ground} {n : Netlist} {w : Signals} {m : ComponentId}

/-- The rules of the flop and the gates around it; `ready` is the pin that the accessor waits for. -/
structure Wires.Waits (v : Wires) (w : Signals) (go : Nat → Word) (ready : PinId) : Prop where
  start : ∀ t, w.bus t v.inner.done = go t
  done : ∀ t, w.bus t v.done = w.bus t v.fire
  zero : ∀ k, w.bus 0 v.stored k = false
  stored : ∀ t, w.bus (t + 1) v.stored = w.bus t v.hold
  pending : ∀ t k, w.bus t v.pending k = (w.bus t v.stored k || w.bus t v.inner.done k)
  ready : ∀ t, w.bus t v.ready = w.pin t ready
  fire : ∀ t k, w.bus t v.fire k = (w.bus t v.pending k && w.bus t v.ready k)
  idle : ∀ t k, w.bus t v.idle k = !w.bus t v.ready k
  hold : ∀ t k, w.bus t v.hold k = (w.bus t v.pending k && w.bus t v.idle k)

theorem Wires.Waits.handshake {v : Wires} {go : Nat → Word} {ready : PinId}
    (h : v.Waits w go ready) :
    Handshake.Waits (fun t => go t 0 = true) (fun t => w.bus t v.stored 0 = true)
      (fun t => w.bus t v.pending 0 = true) (fun t => w.pin t ready 0 = true)
      (fun t => w.bus t v.done 0 = true) where
  begins := by simp [h.zero]
  waits t := by simp [h.pending, h.start]
  ends t := by simp [h.done, h.fire, h.ready]
  keeps t := by simp [h.stored, h.hold, h.idle, h.ready]

/-- What the flop stores, from the requests and what the other side tells. -/
def storedWord (go ready : Nat → Word) : Nat → Word
  | 0 => fun _ => false
  | t + 1 => fun k => (storedWord go ready t k || go t k) && !ready t k

/-- When requests are served. -/
def servedWord (go ready : Nat → Word) : Nat → Word := fun t k =>
  (storedWord go ready t k || go t k) && ready t k

/-- The buses of the waiting part. -/
def Wires.buses (v : Wires) : List BusId :=
  [v.inner.done, v.done, v.stored, v.pending, v.ready, v.fire, v.idle, v.hold]

/-- What the waiting part carries. -/
def Wires.values (v : Wires) (go ready : Nat → Word) : List (BusId × (Nat → Word)) :=
  let pending t k := storedWord go ready t k || go t k
  [(v.inner.done, go), (v.done, servedWord go ready), (v.stored, storedWord go ready),
    (v.pending, pending), (v.ready, ready), (v.fire, servedWord go ready),
    (v.idle, fun t k => !ready t k), (v.hold, fun t k => pending t k && !ready t k)]

theorem Wires.done_mem_values {v : Wires} {go ready : Nat → Word} :
    (v.done, servedWord go ready) ∈ v.values go ready := by
  simp [values]

/-- Buses that are all different can be given any values, and all others zeros. -/
theorem exists_assignment (values : List (BusId × (Nat → Word)))
    (hdistinct : (values.map Prod.fst).Nodup) :
    ∃ bus : Nat → BusId → Word, (∀ e ∈ values, ∀ t, bus t e.1 = e.2 t) ∧
      ∀ b ∉ values.map Prod.fst, ∀ t, bus t b = fun _ => false := by
  refine ⟨fun t b => ((values.find? fun e => e.1 = b).map fun e => e.2 t).getD fun _ => false, ?_, ?_⟩
  · intro e he t
    have found : values.find? (fun e' => e'.1 = e.1) = some e := by
      induction values with
      | nil => simp at he
      | cons a values ih =>
        simp only [List.map_cons, List.nodup_cons] at hdistinct
        rcases List.mem_cons.mp he with rfl | he
        · simp
        · have hne : a.1 ≠ e.1 := fun same => hdistinct.1 (same ▸ List.mem_map_of_mem he)
          rw [List.find?_cons_of_neg (by simpa using hne)]
          exact ih hdistinct.2 he
    simp [found]
  · intro b hb t
    have missing : values.find? (fun e => e.1 = b) = none := by
      rw [List.find?_eq_none]
      intro e he heq
      exact hb (of_decide_eq_true heq ▸ List.mem_map_of_mem he)
    simp [missing]

theorem Wires.waits_of_values {v : Wires} {go : Nat → Word} {ready : PinId}
    (h : ∀ e ∈ v.values go (w.pin · ready), ∀ t, w.bus t e.1 = e.2 t) : v.Waits w go ready := by
  simp only [Wires.values, List.forall_mem_cons] at h
  obtain ⟨start, done, stored, pending, ready, fire, idle, hold, -⟩ := h
  constructor <;> intros <;> simp_all [storedWord, servedWord]

theorem Gate.eval_or (a b : Bool) : Gate.or.eval [a, b] = (a || b) := by simp [Gate.eval]

theorem Gate.eval_and (a b : Bool) : Gate.and.eval [a, b] = (a && b) := by simp [Gate.eval]

theorem Gate.eval_not (a : Bool) : Gate.not.eval [a] = !a := by simp [Gate.eval]

/-- The requests to a module with a waiting part, and when they are served. -/
theorem Built.handshake {M : Node} {νs : List Node} (hbuilt : Built Γ n M νs) {o : Outlet}
    (ho : M.outlet? .done = some o) {v : Wires} (hdone : o.done = v.done) {ready : PinId}
    (hwaits : v.Waits w (M.go.level w) ready) :
    Handshake.Waits (n.Started w Γ.module) (fun t => w.bus t v.stored 0 = true)
      (fun t => w.bus t v.pending 0 = true) (fun t => w.pin t ready 0 = true)
      (n.Finished w Γ.module) := by
  have started : n.Started w Γ.module = fun t => M.go.level w t 0 = true :=
    funext fun t => propext (hbuilt.started_iff t)
  have done : n.Finished w Γ.module = fun t => w.bus t v.done 0 = true :=
    funext fun t => propext (hdone ▸ hbuilt.done_iff ho t)
  rw [started, done]
  exact hwaits.handshake

/-! ### Readers -/

section

variable {M : Node} {νs : List Node} {v : Wires} {token result : BusId} {data send ack : PinId}

/-- The nodes of a reader. -/
theorem readerParts_nodes
    (hparts : List.Forall₂ Piece.Of (readerParts m data send ack v token result) νs) :
    ∃ I O F G T S D A N X, νs = [I, O, F, G, T, S, D, A, N, X] ∧ InBufNode m I v.inner ∧
      O.OutBuf m v.done (some v.fire) [(some token, some result)] ∧ (flopPart m v).Of F ∧
      (gatePart m .or [v.stored, v.inner.done] v.pending).Of G ∧ (readPart m data token).Of T ∧
      (readPart m send v.ready).Of S ∧ (gatePart m .and [v.pending, v.ready] v.fire).Of D ∧
      (writePart m ack v.fire v.fire).Of A ∧ (gatePart m .not [v.ready] v.idle).Of N ∧
      (gatePart m .and [v.idle, v.pending] v.hold).Of X := by
  simp only [readerParts, List.forall₂_cons_left_iff, List.forall₂_nil_left_iff] at hparts
  obtain ⟨I, _, hI, ⟨O, _, hO, ⟨F, _, hF, ⟨G, _, hG, ⟨T, _, hT, ⟨S, _, hS, ⟨D, _, hD, ⟨A, _, hA,
    ⟨N, _, hN, ⟨X, _, hX, rfl, rfl⟩, rfl⟩, rfl⟩, rfl⟩, rfl⟩, rfl⟩, rfl⟩, rfl⟩, rfl⟩, rfl⟩ := hparts
  exact ⟨I, O, F, G, T, S, D, A, N, X, rfl, hI, hO, hF, hG, hT, hS, hD, hA, hN, hX⟩

theorem reader_owners
    (hparts : List.Forall₂ Piece.Of (readerParts m data send ack v token result) νs) :
    ∀ ν ∈ νs, ν.owner = some m :=
  owners_of_parts hparts (by
    simp [readerParts, flopPart, gatePart, readPart, writePart, Piece.owner?])

/-- The rules of a reader, whatever drives it. -/
theorem reader_follows {x : Box} (hbox : M.Encloses x) (hstart : x.start = v.inner.done)
    (hinputs : x.inputs = [])
    (hparts : List.Forall₂ Piece.Of (readerParts m data send ack v token result) νs) :
    (∀ ν ∈ M :: νs, ν.Follows w) ↔ v.Waits w (M.go.level w) send ∧
      (∀ t, w.bus t token = w.pin t data) ∧ ∀ t, w.bus t result = w.bus t token := by
  obtain ⟨I, O, F, G, T, S, D, A, N, X, rfl, hI, hO, hF, hG, hT, hS, hD, hA, hN, hX⟩ :=
    readerParts_nodes hparts
  obtain ⟨a, hdata, ha⟩ := List.map_eq_singleton_iff.mp hO.data
  obtain ⟨driver, hpeer⟩ := Prod.mk.inj ha
  have hnone : M.data = [] := by simpa [hinputs] using hbox.inputs
  simp only [List.forall_mem_cons, hbox.follows, hstart, hnone, hI.follows, hO.follows, hdata, hpeer,
    Option.some.injEq, forall_eq', Pad.level_of_driver driver, follows_flopPart hF,
    follows_gatePart hG, follows_readPart hT, follows_readPart hS, follows_gatePart hD,
    follows_writePart hA, follows_gatePart hN, follows_gatePart hX, List.map_cons, List.map_nil,
    Gate.eval_or, Gate.eval_and, Gate.eval_not]
  constructor
  · rintro ⟨⟨start, -⟩, -, ⟨done, through, -⟩, ⟨zero, stored⟩, pending, read, ready, fire, -, idle,
      hold, -⟩
    refine ⟨⟨start, done, zero, stored, pending, ready, fire, idle, fun t k => ?_⟩, read, through⟩
    rw [hold, Bool.and_comm]
  · rintro ⟨hwaits, read, through⟩
    refine ⟨⟨hwaits.start, by simp⟩, trivial, ⟨hwaits.done, through, by simp⟩,
      ⟨hwaits.zero, hwaits.stored⟩, hwaits.pending, read, hwaits.ready, hwaits.fire, trivial, hwaits.idle,
      fun t k => ?_, by simp⟩
    rw [hwaits.hold, Bool.and_comm]

/-- A reader drives its ack pin when it is done. -/
theorem reader_parts_drive
    (hparts : List.Forall₂ Piece.Of (readerParts m data send ack v token result) νs) (t : Nat)
    (pin : PinId) (word : Word) : (∃ ν ∈ νs, ν.Drives w t pin word) ↔
      ack = pin ∧ w.bus t v.fire 0 = true ∧ w.bus t v.fire = word := by
  obtain ⟨I, O, F, G, T, S, D, A, N, X, rfl, hI, hO, hF, hG, hT, hS, hD, hA, hN, hX⟩ :=
    readerParts_nodes hparts
  simp only [List.exists_mem_cons_iff, hI.not_drives, hO.not_drives,
    not_drives_flopPart hF, not_drives_gatePart hG, not_drives_readPart hT, not_drives_readPart hS,
    not_drives_gatePart hD, drives_writePart hA, not_drives_gatePart hN, not_drives_gatePart hX,
    List.not_mem_nil, false_and, exists_false, false_or, or_false]

/-- Where the buses of a reader come from. -/
theorem reader_origins (hn : Proper Γ n) (hrow : (Γ.sheet n).Row m (M :: νs)) {o : Outlet}
    (ho : M.outlet? .done = some o) (hdone : o.done = v.done) (hresult : result ∈ o.data)
    (hparts : List.Forall₂ Piece.Of (readerParts m data send ack v token result) νs) :
    (v.buses ++ [token, result]).map n.origin = [(1, .done), (0, .done), (3, .data), (4, .data),
      (6, .data), (7, .data), (9, .data), (10, .data), (5, .data), (0, .data)].map (placed m) := by
  obtain ⟨I, O, F, G, T, S, D, A, N, X, rfl, hI, hO, hF, hG, hT, hS, hD, hA, hN, hX⟩ :=
    readerParts_nodes hparts
  have hM := hrow 0 M rfl
  have hinner := hn.origin_done (hrow 1 I rfl) (Node.outlet?_mem hI.outlet?)
  have hdone := hdone ▸ hn.origin_done hM (Node.outlet?_mem ho)
  have hresult := hn.origin_data hM (Node.outlet?_mem ho) hresult
  have hstored : n.origin v.stored = _ := hn.origin_result (hrow 3 F rfl) hF (by simp)
  have hpending : n.origin v.pending = _ := hn.origin_result (hrow 4 G rfl) hG (by simp)
  have htoken : n.origin token = _ := hn.origin_result (hrow 5 T rfl) hT (by simp)
  have hready : n.origin v.ready = _ := hn.origin_result (hrow 6 S rfl) hS (by simp)
  have hfire : n.origin v.fire = _ := hn.origin_result (hrow 7 D rfl) hD (by simp)
  have hidle : n.origin v.idle = _ := hn.origin_result (hrow 9 N rfl) hN (by simp)
  have hhold : n.origin v.hold = _ := hn.origin_result (hrow 10 X rfl) hX (by simp)
  simp only [Wires.buses, List.cons_append, List.nil_append, List.map_cons, List.map_nil, placed,
    hinner, hdone, hresult, hstored, hpending, htoken, hready, hfire, hidle, hhold]

variable (hbuilt : Built Γ n M νs) (hbox : M.Encloses (readerBox Γ.module v result))
  (hparts : List.Forall₂ Piece.Of (readerParts Γ.module data send ack v token result) νs)

include hbuilt hbox hparts

theorem reader_runs : n.Runs w Γ.module ↔ v.Waits w (M.go.level w) send ∧
    (∀ t, w.bus t token = w.pin t data) ∧ ∀ t, w.bus t result = w.bus t token :=
  hbuilt.runs_iff.trans (reader_follows hbox rfl rfl hparts)

theorem reader_drives (t : Nat) (pin : PinId) (word : Word) : n.Drives w Γ.module t pin word ↔
    ack = pin ∧ w.bus t v.fire 0 = true ∧ w.bus t v.fire = word := by
  rw [hbuilt.drives_iff, List.exists_mem_cons_iff, reader_parts_drive hparts]
  simp only [hbox.not_drives, false_or]

theorem reader_distinct : (v.buses ++ [token, result]).Nodup :=
  nodup_of_origins (reader_origins hbuilt.proper hbuilt.row hbox.outlet? rfl (by simp) hparts) (by decide)

theorem reader_exists (pin : Nat → PinId → Word) (go : Nat → Bool) :
    ∃ w, w.pin = pin ∧ n.Runs w Γ.module ∧ ∀ t, n.Started w Γ.module t ↔ go t = true := by
  obtain ⟨bus, hbus, -⟩ := exists_assignment
    (v.values (fun t _ => go t) (pin · send) ++ [(token, (pin · data)), (result, (pin · data))])
    (reader_distinct hbuilt hbox hparts)
  obtain ⟨hvalues, hrest⟩ := List.forall_mem_append.mp hbus
  obtain ⟨htoken, hresult⟩ := forall_mem_pair.mp hrest
  let w : Signals := ⟨bus, pin, fun t _ _ => go t⟩
  have hgo : (fun t => M.go.level w t) = fun t _ => go t :=
    funext fun t => Pad.level_of_none (show M.go.driver = none from hbox.go) t
  refine ⟨w, rfl, (reader_runs hbuilt hbox hparts).mpr ⟨?_, htoken, fun t => ?_⟩, fun t => ?_⟩
  · rw [hgo]
    exact Wires.waits_of_values hvalues
  · exact (hresult t).trans (htoken t).symm
  · rw [hbuilt.started_iff, congrFun hgo t]

/-- A reader takes tokens. -/
theorem takesTokens : TakesTokens n Γ.module data send ack := by
  have houtlet : M.outlet? .done = some ⟨v.exit, v.done, [result], [], some (after Γ.module 2)⟩ :=
    hbox.outlet?
  have handshake {w : Signals} (hw : n.Runs w Γ.module) :=
    hbuilt.handshake houtlet rfl ((reader_runs hbuilt hbox hparts).mp hw).1
  have raises {w : Signals} (hw : n.Runs w Γ.module) (t : Nat) :
      n.Raises w Γ.module t ack ↔ n.Finished w Γ.module t := by
    have hwaits := ((reader_runs hbuilt hbox hparts).mp hw).1
    rw [hbuilt.done_iff houtlet, hwaits.done]
    simp only [Raises, reader_drives hbuilt hbox hparts, true_and]
    exact ⟨fun ⟨_, ⟨h, _⟩, _⟩ => h, fun h => ⟨_, ⟨h, rfl⟩, h⟩⟩
  refine ⟨reader_exists hbuilt hbox hparts, fun w hw t => (handshake hw).done_iff t,
    fun w hw t => raises hw t, fun w hw t word => ?_,
    fun w hw t => ⟨?_, (handshake hw).count_done_le t⟩⟩
  · obtain ⟨-, hread, hthrough⟩ := (reader_runs hbuilt hbox hparts).mp hw
    rw [hbuilt.returns_iff (b := result) (by simp [Node.result?, houtlet]), hthrough, hread]
  · congr 1
    funext s
    rw [raises hw, (handshake hw).ends]
    simp

end

/-! ### Writers -/

section

variable {M : Node} {νs : List Node} {v : Wires} {token : BusId} {data send ack : PinId}

/-- The nodes of a writer. -/
theorem writerParts_nodes
    (hparts : List.Forall₂ Piece.Of (writerParts m data send ack v token) νs) :
    ∃ I O F G T S A D N X, νs = [I, O, F, G, T, S, A, D, N, X] ∧ InBufNode m I v.inner ∧
      O.OutBuf m v.done (some v.fire) [] ∧ (flopPart m v).Of F ∧
      (gatePart m .or [v.stored, v.inner.done] v.pending).Of G ∧
      (writePart m data token v.pending).Of T ∧ (writePart m send v.pending v.pending).Of S ∧
      (readPart m ack v.ready).Of A ∧ (gatePart m .and [v.pending, v.ready] v.fire).Of D ∧
      (gatePart m .not [v.ready] v.idle).Of N ∧
      (gatePart m .and [v.pending, v.idle] v.hold).Of X := by
  simp only [writerParts, List.forall₂_cons_left_iff, List.forall₂_nil_left_iff] at hparts
  obtain ⟨I, _, hI, ⟨O, _, hO, ⟨F, _, hF, ⟨G, _, hG, ⟨T, _, hT, ⟨S, _, hS, ⟨A, _, hA, ⟨D, _, hD,
    ⟨N, _, hN, ⟨X, _, hX, rfl, rfl⟩, rfl⟩, rfl⟩, rfl⟩, rfl⟩, rfl⟩, rfl⟩, rfl⟩, rfl⟩, rfl⟩ := hparts
  exact ⟨I, O, F, G, T, S, A, D, N, X, rfl, hI, hO, hF, hG, hT, hS, hA, hD, hN, hX⟩

theorem writer_owners
    (hparts : List.Forall₂ Piece.Of (writerParts m data send ack v token) νs) :
    ∀ ν ∈ νs, ν.owner = some m :=
  owners_of_parts hparts (by
    simp [writerParts, flopPart, gatePart, readPart, writePart, Piece.owner?])

/-- The data port of a writer. -/
theorem writer_data (hbox : M.Encloses (writerBox m v token)) :
    ∃ a, M.data = [a] ∧ a.driver = none ∧ a.peer = some token := by
  obtain ⟨a, hdata, ha⟩ := List.map_eq_singleton_iff.mp hbox.inputs
  exact ⟨a, hdata, congrArg Prod.fst ha, congrArg Prod.snd ha⟩

/-- The rules of a writer, whatever drives it. -/
theorem writer_follows {x : Box} (hbox : M.Encloses x) (hstart : x.start = v.inner.done) {a : Pad}
    (hdata : M.data = [a]) (hpeer : a.peer = some token)
    (hparts : List.Forall₂ Piece.Of (writerParts m data send ack v token) νs) :
    (∀ ν ∈ M :: νs, ν.Follows w) ↔
      v.Waits w (M.go.level w) ack ∧ ∀ t, w.bus t token = a.level w t := by
  obtain ⟨I, O, F, G, T, S, A, D, N, X, rfl, hI, hO, hF, hG, hT, hS, hA, hD, hN, hX⟩ :=
    writerParts_nodes hparts
  have hnone : O.data = [] := by simpa using hO.data
  simp only [List.forall_mem_cons, hbox.follows, hstart, hdata, hpeer, Option.some.injEq, forall_eq',
    hI.follows, hO.follows, hnone, follows_flopPart hF, follows_gatePart hG, follows_writePart hT,
    follows_writePart hS, follows_readPart hA, follows_gatePart hD, follows_gatePart hN,
    follows_gatePart hX, List.map_cons, List.map_nil, Gate.eval_or, Gate.eval_and, Gate.eval_not]
  constructor
  · rintro ⟨⟨start, given, -⟩, -, ⟨done, -⟩, ⟨zero, stored⟩, pending, -, -, ready, fire, idle, hold,
      -⟩
    exact ⟨⟨start, done, zero, stored, pending, ready, fire, idle, hold⟩, given⟩
  · rintro ⟨hwaits, given⟩
    exact ⟨⟨hwaits.start, given, by simp⟩, trivial, ⟨hwaits.done, by simp⟩,
      ⟨hwaits.zero, hwaits.stored⟩, hwaits.pending, trivial, trivial, hwaits.ready, hwaits.fire,
      hwaits.idle, hwaits.hold, by simp⟩

/-- A writer drives its data and send pins while it is pending. -/
theorem writer_parts_drive
    (hparts : List.Forall₂ Piece.Of (writerParts m data send ack v token) νs) (t : Nat) (pin : PinId)
    (word : Word) : (∃ ν ∈ νs, ν.Drives w t pin word) ↔
      data = pin ∧ w.bus t v.pending 0 = true ∧ w.bus t token = word ∨
        send = pin ∧ w.bus t v.pending 0 = true ∧ w.bus t v.pending = word := by
  obtain ⟨I, O, F, G, T, S, A, D, N, X, rfl, hI, hO, hF, hG, hT, hS, hA, hD, hN, hX⟩ :=
    writerParts_nodes hparts
  simp only [List.exists_mem_cons_iff, hI.not_drives, hO.not_drives,
    not_drives_flopPart hF, not_drives_gatePart hG, drives_writePart hT, drives_writePart hS,
    not_drives_readPart hA, not_drives_gatePart hD, not_drives_gatePart hN, not_drives_gatePart hX,
    List.not_mem_nil, false_and, exists_false, false_or, or_false]

/-- Where the buses of a writer come from. -/
theorem writer_origins (hn : Proper Γ n) (hrow : (Γ.sheet n).Row m (M :: νs)) {o : Outlet}
    (ho : M.outlet? .done = some o) (hdone : o.done = v.done) (htoken : token ∈ v.inner.data)
    (hparts : List.Forall₂ Piece.Of (writerParts m data send ack v token) νs) :
    (v.buses ++ [token]).map n.origin = [(1, .done), (0, .done), (3, .data), (4, .data), (7, .data),
      (8, .data), (9, .data), (10, .data), (1, .data)].map (placed m) := by
  obtain ⟨I, O, F, G, T, S, A, D, N, X, rfl, hI, hO, hF, hG, hT, hS, hA, hD, hN, hX⟩ :=
    writerParts_nodes hparts
  have hinner := hn.origin_done (hrow 1 I rfl) (Node.outlet?_mem hI.outlet?)
  have hdone := hdone ▸ hn.origin_done (hrow 0 M rfl) (Node.outlet?_mem ho)
  have htoken := hn.origin_data (hrow 1 I rfl) (Node.outlet?_mem hI.outlet?) htoken
  have hstored : n.origin v.stored = _ := hn.origin_result (hrow 3 F rfl) hF (by simp)
  have hpending : n.origin v.pending = _ := hn.origin_result (hrow 4 G rfl) hG (by simp)
  have hready : n.origin v.ready = _ := hn.origin_result (hrow 7 A rfl) hA (by simp)
  have hfire : n.origin v.fire = _ := hn.origin_result (hrow 8 D rfl) hD (by simp)
  have hidle : n.origin v.idle = _ := hn.origin_result (hrow 9 N rfl) hN (by simp)
  have hhold : n.origin v.hold = _ := hn.origin_result (hrow 10 X rfl) hX (by simp)
  simp only [Wires.buses, List.cons_append, List.nil_append, List.map_cons, List.map_nil, placed,
    hinner, hdone, htoken, hstored, hpending, hready, hfire, hidle, hhold]

variable (hbuilt : Built Γ n M νs) (hbox : M.Encloses (writerBox Γ.module v token))
  (hparts : List.Forall₂ Piece.Of (writerParts Γ.module data send ack v token) νs)

include hbuilt hbox hparts

theorem writer_runs {a : Pad} (hdata : M.data = [a]) : n.Runs w Γ.module ↔
    v.Waits w (M.go.level w) ack ∧ ∀ t, w.bus t token = a.level w t := by
  obtain ⟨b, hb, -, hpeer⟩ := writer_data hbox
  obtain rfl : b = a := by simpa [hb] using hdata
  exact hbuilt.runs_iff.trans (writer_follows hbox rfl hdata hpeer hparts)

theorem writer_drives (t : Nat) (pin : PinId) (word : Word) : n.Drives w Γ.module t pin word ↔
    data = pin ∧ w.bus t v.pending 0 = true ∧ w.bus t token = word ∨
      send = pin ∧ w.bus t v.pending 0 = true ∧ w.bus t v.pending = word := by
  rw [hbuilt.drives_iff, List.exists_mem_cons_iff, writer_parts_drive hparts]
  simp only [hbox.not_drives, false_or]

theorem writer_distinct (htoken : token ∈ v.inner.data) : (v.buses ++ [token]).Nodup :=
  nodup_of_origins (writer_origins hbuilt.proper hbuilt.row hbox.outlet? rfl htoken hparts) (by decide)

theorem writer_exists (htoken : token ∈ v.inner.data) (pin : Nat → PinId → Word) (go : Nat → Bool)
    (word : Nat → Word) : ∃ w, w.pin = pin ∧ n.Runs w Γ.module ∧
      (∀ t, n.Started w Γ.module t ↔ go t = true) ∧ ∀ t, n.Given w Γ.module t (word t) := by
  obtain ⟨a, hdata, hnone, -⟩ := writer_data hbox
  obtain ⟨bus, hbus, -⟩ := exists_assignment
    (v.values (fun t _ => go t) (pin · ack) ++ [(token, word)])
    (writer_distinct hbuilt hbox hparts htoken)
  obtain ⟨hvalues, htoken⟩ := List.forall_mem_append.mp hbus
  let w : Signals := ⟨bus, pin, fun t p => if p = M.go.port then fun _ => go t else word t⟩
  have hgo : (fun t => M.go.level w t) = fun t _ => go t := by
    funext t
    rw [Pad.level_of_none (show M.go.driver = none from hbox.go) t]
    exact if_pos rfl
  have hgiven : ∀ t, a.level w t = word t := by
    intro t
    rw [Pad.level_of_none hnone]
    exact if_neg (hbuilt.go_ne_data hdata).symm
  refine ⟨w, rfl, (writer_runs hbuilt hbox hparts hdata).mpr ⟨?_, fun t => ?_⟩, fun t => ?_, fun t => ?_⟩
  · rw [hgo]
    exact Wires.waits_of_values hvalues
  · rw [hgiven]
    exact htoken _ (List.mem_singleton_self _) t
  · rw [hbuilt.started_iff, congrFun hgo t]
  · rw [hbuilt.given_iff hdata, hgiven]

/-- A writer gives tokens, if the pins differ on which it gives them and tells so. -/
theorem givesTokens (htoken : token ∈ v.inner.data) (hpins : data ≠ send) :
    GivesTokens n Γ.module data send ack := by
  obtain ⟨a, hdata, -⟩ := writer_data hbox
  have houtlet : M.outlet? .done = some ⟨v.exit, v.done, [], [], some (after Γ.module 2)⟩ :=
    hbox.outlet?
  have handshake {w : Signals} (hw : n.Runs w Γ.module) :=
    hbuilt.handshake houtlet rfl ((writer_runs hbuilt hbox hparts hdata).mp hw).1
  have raises {w : Signals} (hw : n.Runs w Γ.module) (t : Nat) :
      n.Raises w Γ.module t send ↔ w.bus t v.pending 0 = true := by
    simp only [Raises, writer_drives hbuilt hbox hparts, hpins, false_and, false_or, true_and]
    exact ⟨fun ⟨_, ⟨h, _⟩, _⟩ => h, fun h => ⟨_, ⟨h, rfl⟩, h⟩⟩
  refine ⟨writer_exists hbuilt hbox hparts htoken, fun w hw t => (handshake hw).done_iff t,
    fun w hw t => (raises hw t).trans ((handshake hw).pending_iff t), fun w hw t => ?_,
    fun w hw t => ⟨?_, (handshake hw).count_done_le t⟩⟩
  · refine ⟨a.level w t, (hbuilt.given_iff hdata t _).mpr rfl, fun word => ?_⟩
    rw [writer_drives hbuilt hbox hparts, ← (handshake hw).pending_iff,
      ((writer_runs hbuilt hbox hparts hdata).mp hw).2]
    simp only [hpins.symm, false_and, or_false, true_and, eq_comm]
  · congr 1
    funext s
    rw [raises hw, (handshake hw).ends, and_comm]

end

end DataflowSynth.Netlist
