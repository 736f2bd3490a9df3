/-
Single changes keep a netlist linked.

There is one lemma for every way in which a record is added to or changed in the arena.  A change that
leaves owners, tags and connections alone has to show only that the new record is linked.  Connections
are changed at both ends at once.
-/
import DataflowSynth.Proofs.Netlist.Linked

namespace DataflowSynth.Netlist

variable {pins : Nat} {base n : Netlist}

/-! ### Changing records -/

theorem Linked.modifyComponent (h : Linked pins base n) {c : ComponentId}
    (hc : base.components.size ≤ c.index) {f : Component → Component}
    (hf : ∀ x, n.components.get? c = some x → ComponentLinked pins base n c x →
      ComponentLinked pins base n c (f x)) :
    Linked pins base { n with components := n.components.modify c f } := by
  have hsame := SameLinks.refl n
  have hs : SameLinks n { n with components := n.components.modify c f } := by
    refine { hsame with grows := { hsame.grows with components := ?_ } }
    simp
  refine h.evolve hs { h.keeps with components := h.keeps.components.modify hc f }
    (fun d x hx hle => ?_) (fun _ _ hy _ => .inl hy) (fun _ _ hz _ => .inl hz)
    (fun _ _ hx _ => .inl hx) fun _ _ hx _ => .inl hx
  rcases Arena.get?_modify_cases hx with ⟨rfl, y, hy, rfl⟩ | ⟨-, hx⟩
  · exact .inr ((hf y hy (h.components d y hy hle)).transfer hs.toSameOwners)
  · exact .inl hx

theorem Linked.modifyPort (h : Linked pins base n) {p : PortId}
    (hp : base.ports.size ≤ p.index) {f : Port → Port}
    (hf : ∀ y, n.ports.get? p = some y → (f y).owner = y.owner ∧ (f y).bus = y.bus ∧
      ∀ b, (f y).peer = some b → y.peer = some b ∨ Ref.New base n (.bus b)) :
    Linked pins base { n with ports := n.ports.modify p f } := by
  have hsame := SameLinks.refl n
  have hs : SameLinks n { n with ports := n.ports.modify p f } := by
    have hrecord : ∀ q y y', n.ports.get? q = some y → (n.ports.modify p f).get? q = some y' →
        y'.owner = y.owner ∧ y'.bus = y.bus := by
      intro q y y' hy hy'
      rcases Arena.get?_modify_cases hy' with ⟨rfl, x, hx, rfl⟩ | ⟨-, hx⟩
      · cases hy.symm.trans hx
        exact ⟨(hf y hy).1, (hf y hy).2.1⟩
      · cases hy.symm.trans hx
        exact ⟨rfl, rfl⟩
    refine { hsame with
      grows := { hsame.grows with ports := by simp }
      ports := fun q y y' hy hy' => (hrecord q y y' hy hy').1
      drivers := fun q y y' hy hy' => (hrecord q y y' hy hy').2 }
  refine h.evolve hs { h.keeps with ports := h.keeps.ports.modify hp f }
    (fun _ _ hx _ => .inl hx) (fun q y hy' hle => ?_) (fun _ _ hz _ => .inl hz)
    (fun _ _ hx _ => .inl hx) fun _ _ hx _ => .inl hx
  rcases Arena.get?_modify_cases hy' with ⟨rfl, y, hy, rfl⟩ | ⟨-, hy⟩
  · obtain ⟨howner, hbus, hpeer⟩ := hf y hy
    have hl := (h.ports q y hy hle).transfer hs
    obtain ⟨howner', hbus', hpeer'⟩ := Port.forall_refs.mp hl.refs
    refine .inr ⟨Port.forall_refs.mpr ⟨howner ▸ howner', hbus ▸ hbus', fun b hb => ?_⟩,
      fun b hb => hl.bus b (hbus ▸ hb)⟩
    exact (hpeer b hb).elim (hpeer' b) fun hb => hb.mono hs.grows
  · exact .inl hy

theorem Linked.modifyBus (h : Linked pins base n) {b : BusId}
    (hb : base.buses.size ≤ b.index) {f : Bus → Bus}
    (hf : ∀ z, n.buses.get? b = some z → (f z).owner = z.owner ∧ (f z).ports = z.ports ∧
      ∀ p, (f z).peer = some p → z.peer = some p ∨ Ref.New base n (.port p)) :
    Linked pins base { n with buses := n.buses.modify b f } := by
  have hsame := SameLinks.refl n
  have hs : SameLinks n { n with buses := n.buses.modify b f } := by
    have hrecord : ∀ q z z', n.buses.get? q = some z → (n.buses.modify b f).get? q = some z' →
        z'.owner = z.owner ∧ z'.ports = z.ports := by
      intro q z z' hz hz'
      rcases Arena.get?_modify_cases hz' with ⟨rfl, x, hx, rfl⟩ | ⟨-, hx⟩
      · cases hz.symm.trans hx
        exact ⟨(hf z hz).1, (hf z hz).2.1⟩
      · cases hz.symm.trans hx
        exact ⟨rfl, rfl⟩
    refine { hsame with
      grows := { hsame.grows with buses := by simp }
      buses := fun q z z' hz hz' => (hrecord q z z' hz hz').1
      sinks := fun q z z' hz hz' => (hrecord q z z' hz hz').2 }
  refine h.evolve hs { h.keeps with buses := h.keeps.buses.modify hb f }
    (fun _ _ hx _ => .inl hx) (fun _ _ hy _ => .inl hy) (fun q z hz' hle => ?_)
    (fun _ _ hx _ => .inl hx) fun _ _ hx _ => .inl hx
  rcases Arena.get?_modify_cases hz' with ⟨rfl, z, hz, rfl⟩ | ⟨-, hz⟩
  · obtain ⟨howner, hports, hpeer⟩ := hf z hz
    have hl := (h.buses q z hz hle).transfer hs
    obtain ⟨howner', hports', hpeer'⟩ := Bus.forall_refs.mp hl.refs
    refine .inr ⟨Bus.forall_refs.mpr ⟨howner ▸ howner', hports ▸ hports', fun p hp => ?_⟩,
      fun p hp => hl.ports p (hports ▸ hp), hports ▸ hl.nodup⟩
    exact (hpeer p hp).elim (hpeer' p) fun hp => hp.mono hs.grows
  · exact .inl hz

theorem Linked.modifyExit (h : Linked pins base n) {e : ExitId}
    (he : base.exits.size ≤ e.index) {f : Exit → Exit}
    (hf : ∀ x, n.exits.get? e = some x → (f x).owner = x.owner ∧ (f x).tag = x.tag ∧
      (ExitLinked base n e x → ExitLinked base n e (f x))) :
    Linked pins base { n with exits := n.exits.modify e f } := by
  have hsame := SameLinks.refl n
  have hs : SameLinks n { n with exits := n.exits.modify e f } := by
    refine { hsame with
      grows := { hsame.grows with exits := by simp }
      exits := fun q x x' hx hx' => ?_ }
    · rcases Arena.get?_modify_cases hx' with ⟨rfl, y, hy, rfl⟩ | ⟨-, hy⟩
      · cases hx.symm.trans hy
        exact ⟨(hf x hx).1, (hf x hx).2.1⟩
      · exact hsame.exits q x x' hx hy
  refine h.evolve hs { h.keeps with exits := h.keeps.exits.modify he f }
    (fun _ _ hx _ => .inl hx) (fun _ _ hy _ => .inl hy) (fun _ _ hz _ => .inl hz)
    (fun q x hx' hle => ?_) fun _ _ hx _ => .inl hx
  rcases Arena.get?_modify_cases hx' with ⟨rfl, x, hx, rfl⟩ | ⟨-, hx⟩
  · exact .inr (((hf x hx).2.2 (h.exits q x hx hle)).transfer hs.toSameOwners)
  · exact .inl hx

theorem Linked.modifyEntry (h : Linked pins base n) {e : EntryId}
    (he : base.entries.size ≤ e.index) {f : Entry → Entry}
    (hf : ∀ x, n.entries.get? e = some x → (f x).owner = x.owner ∧
      ∀ r ∈ (f x).refs, r ∈ x.refs ∨ r.New base n) :
    Linked pins base { n with entries := n.entries.modify e f } := by
  have hsame := SameLinks.refl n
  have hs : SameLinks n { n with entries := n.entries.modify e f } := by
    refine { hsame with
      grows := { hsame.grows with entries := by simp }
      entries := fun q x x' hx hx' => ?_ }
    · rcases Arena.get?_modify_cases hx' with ⟨rfl, y, hy, rfl⟩ | ⟨-, hy⟩
      · cases hx.symm.trans hy
        exact (hf x hx).1
      · exact hsame.entries q x x' hx hy
  refine h.evolve hs { h.keeps with entries := h.keeps.entries.modify he f }
    (fun _ _ hx _ => .inl hx) (fun _ _ hy _ => .inl hy)
    (fun _ _ hz _ => .inl hz) (fun _ _ hx _ => .inl hx) fun q x hx' hle => ?_
  rcases Arena.get?_modify_cases hx' with ⟨rfl, x, hx, rfl⟩ | ⟨-, hx⟩
  · refine .inr fun r hr => ?_
    rcases (hf x hx).2 r hr with hr | hr
    · exact (h.entries q x hx hle r hr).mono hs.grows
    · exact hr.mono hs.grows
  · exact .inl hx

/-! ### Adding records -/

theorem Linked.pushPort (h : Linked pins base n) {y : Port} (hbus : y.bus = none)
    (hrefs : ∀ r ∈ y.refs, r.New base n) :
    Linked pins base { n with ports := n.ports.push y } := by
  have hk : n.Keeps { n with ports := n.ports.push y } :=
    { Keeps.refl n with ports := (Keeps.refl n).ports.push y }
  refine h.evolve (.of_keeps hk) (h.keeps.trans hk) (fun _ _ hx _ => .inl hx)
    (fun q x hx _ => ?_) (fun _ _ hz _ => .inl hz) (fun _ _ hx _ => .inl hx) fun _ _ hx _ => .inl hx
  rcases Arena.get?_push_cases hx with ⟨-, rfl⟩ | hx
  · refine .inr ⟨fun r hr => (hrefs r hr).mono hk.grows, fun b hb => ?_⟩
    rw [hbus] at hb
    cases hb
  · exact .inl hx

theorem Linked.pushBus (h : Linked pins base n) {z : Bus} (hports : z.ports = [])
    (hrefs : ∀ r ∈ z.refs, r.New base n) :
    Linked pins base { n with buses := n.buses.push z } := by
  have hk : n.Keeps { n with buses := n.buses.push z } :=
    { Keeps.refl n with buses := (Keeps.refl n).buses.push z }
  refine h.evolve (.of_keeps hk) (h.keeps.trans hk) (fun _ _ hx _ => .inl hx)
    (fun _ _ hy _ => .inl hy) (fun q x hx _ => ?_) (fun _ _ hx _ => .inl hx) fun _ _ hx _ => .inl hx
  rcases Arena.get?_push_cases hx with ⟨-, rfl⟩ | hx
  · refine .inr ⟨fun r hr => (hrefs r hr).mono hk.grows, fun p hp => ?_, by simp [hports]⟩
    rw [hports] at hp
    cases hp
  · exact .inl hx

theorem Linked.pushEntry (h : Linked pins base n) {x : Entry}
    (hrefs : ∀ r ∈ x.refs, r.New base n) :
    Linked pins base { n with entries := n.entries.push x } := by
  have hk : n.Keeps { n with entries := n.entries.push x } :=
    { Keeps.refl n with entries := (Keeps.refl n).entries.push x }
  refine h.evolve (.of_keeps hk) (h.keeps.trans hk) (fun _ _ hx _ => .inl hx)
    (fun _ _ hy _ => .inl hy) (fun _ _ hz _ => .inl hz) (fun _ _ hx _ => .inl hx) fun q y hy _ => ?_
  rcases Arena.get?_push_cases hy with ⟨-, rfl⟩ | hy
  · exact .inr fun r hr => (hrefs r hr).mono hk.grows
  · exact .inl hy

/-- The netlist with a new entry of a component. -/
def withEntry (n : Netlist) (c : ComponentId) (x : Entry) : Netlist :=
  { n with
    entries := n.entries.push x
    components := n.components.modify c fun y => { y with entries := y.entries ++ [n.entries.next] } }

theorem Linked.withEntry (h : Linked pins base n) {c : ComponentId}
    (hc : base.components.size ≤ c.index) {x : Entry} (howner : x.owner = c)
    (hrefs : ∀ r ∈ x.refs, r.New base n) : Linked pins base (n.withEntry c x) := by
  refine (h.pushEntry hrefs).modifyComponent hc fun y hy hl => ?_
  obtain ⟨hown, hports, hexits, hentries, hinterior⟩ := Component.forall_refs.mp hl.refs
  refine ⟨Component.forall_refs.mpr ⟨hown, hports, hexits, fun e he => ?_, hinterior⟩, hl.kind,
    hl.ports, hl.exits, fun e he z hz => ?_⟩
  · rcases List.mem_append.mp he with he | he
    · exact hentries e he
    · obtain rfl := List.mem_singleton.mp he
      exact ⟨h.keeps.entries.size, by simp⟩
  · rcases List.mem_append.mp he with he | he
    · exact hl.entries e he z hz
    · obtain rfl := List.mem_singleton.mp he
      rw [Arena.get?_push_next] at hz
      cases hz
      exact howner

/-- The netlist with a new component that has only its control ports. -/
def withShell (n : Netlist) (kind : ComponentKind) (name : String) (names : NameSupply) : Netlist :=
  let c := n.components.next
  let clocked := n.ports.push (.new "clk" c .clock)
  let resettable := clocked.push (.new "reset" c .reset)
  { n with
    components := n.components.push
      { name, kind, clock := n.ports.next, reset := clocked.next, go := resettable.next }
    ports := resettable.push (.new "go" c .go)
    names }

theorem keeps_withShell (n : Netlist) (kind : ComponentKind) (name : String)
    (names : NameSupply) : n.Keeps (n.withShell kind name names) where
  components := (Arena.Keeps.refl _).push _
  ports := (((Arena.Keeps.refl _).push _).push _).push _
  buses := .refl _
  exits := .refl _
  entries := .refl _

theorem Linked.withShell (h : Linked pins base n) {kind : ComponentKind} (hkind : kind.Fits pins n)
    (name : String) (names : NameSupply) : Linked pins base (n.withShell kind name names) := by
  have hk := keeps_withShell n kind name names
  have hbase := h.keeps.grows
  have hport : ∀ p y, (n.withShell kind name names).ports.get? p = some y →
      n.ports.get? p = some y ∨
        (y.owner = n.components.next ∧ y.bus = none ∧ y.peer = none) := by
    intro p y hy
    rcases Arena.get?_push_cases hy with ⟨-, rfl⟩ | hy
    · exact .inr ⟨rfl, rfl, rfl⟩
    rcases Arena.get?_push_cases hy with ⟨-, rfl⟩ | hy
    · exact .inr ⟨rfl, rfl, rfl⟩
    rcases Arena.get?_push_cases hy with ⟨-, rfl⟩ | hy
    · exact .inr ⟨rfl, rfl, rfl⟩
    · exact .inl hy
  have hnew : Ref.New base (n.withShell kind name names) (.component n.components.next) :=
    ⟨hbase.components, by simp [Netlist.withShell]⟩
  refine h.evolve (.of_keeps hk) (h.keeps.trans hk) (fun c x hx _ => ?_)
    (fun p y hy _ => ?_) (fun _ _ hz _ => .inl hz) (fun _ _ hx _ => .inl hx) fun _ _ hx _ => .inl hx
  · rcases Arena.get?_push_cases hx with ⟨rfl, rfl⟩ | hx
    · have hports := hbase.ports
      refine .inr ⟨fun r hr => ?_, hkind.mono hk.grows, fun p hp y hy => ?_, by simp, by simp⟩
      · simp only [Component.refs, Component.ports] at hr
        simp at hr
        rcases hr with rfl | rfl | rfl <;>
          constructor <;> simp [Netlist.withShell] <;> omega
      · rcases hport p y hy with hy | hy
        · simp only [Component.ports] at hp
          have hlt := Arena.lt_of_get? hy
          simp at hp
          rcases hp with rfl | rfl | rfl <;> simp at hlt
          all_goals omega
        · exact hy.1
    · exact .inl hx
  · rcases hport p y hy with hy | ⟨howner, hbus, hpeer⟩
    · exact .inl hy
    · refine .inr ⟨Port.forall_refs.mpr ⟨howner ▸ hnew, ?_, ?_⟩, ?_⟩ <;> simp [hbus, hpeer]

/-- The netlist with a new exit of a component that has only its done bus. -/
def withExit (n : Netlist) (c : ComponentId) (tag : ExitTag) : Netlist :=
  let e := n.exits.next
  { n with
    components := n.components.modify c fun x => { x with exits := x.exits.put tag e }
    buses := n.buses.push (.new "done" e .done)
    exits := n.exits.push { owner := c, tag, done := n.buses.next } }

theorem Linked.withExit (h : Linked pins base n) {c : ComponentId}
    (hc : Ref.New base n (.component c)) (tag : ExitTag) :
    Linked pins base (n.withExit c tag) := by
  have hbase := h.keeps.grows
  have hsame := SameLinks.refl n
  have hk : n.Keeps { n.withExit c tag with components := n.components } :=
    { Keeps.refl n with
      buses := (Keeps.refl n).buses.push _
      exits := (Keeps.refl n).exits.push _ }
  have hs : SameLinks n (n.withExit c tag) := by
    have hs := SameLinks.of_keeps hk
    refine { hs with grows := { hs.grows with components := ?_ } }
    simp [Netlist.withExit]
  have hexit : ∀ e x, (n.withExit c tag).exits.get? e = some x → n.exits.get? e = some x ∨
      (e = n.exits.next ∧ x = { owner := c, tag, done := n.buses.next }) := by
    intro e x hx
    exact (Arena.get?_push_cases hx).symm
  have hnewBus : Ref.New base (n.withExit c tag) (.bus n.buses.next) :=
    ⟨hbase.buses, by simp [Netlist.withExit]⟩
  have hnewExit : Ref.New base (n.withExit c tag) (.exit n.exits.next) :=
    ⟨hbase.exits, by simp [Netlist.withExit]⟩
  refine h.evolve hs ⟨h.keeps.components.modify hc.1 _, h.keeps.ports, h.keeps.buses.push _,
    h.keeps.exits.push _, h.keeps.entries⟩ (fun d x hx hle => ?_) (fun _ _ hy _ => .inl hy)
    (fun b z hz _ => ?_) (fun e x hx _ => ?_) fun _ _ hx _ => .inl hx
  · rcases Arena.get?_modify_cases hx with ⟨rfl, y, hy, rfl⟩ | ⟨-, hx⟩
    · have hl := (h.components d y hy hle).transfer hs.toSameOwners
      refine .inr ⟨Component.forall_refs.mpr ?_, hl.kind, hl.ports, fun e he x hx => ?_, hl.entries⟩
      · obtain ⟨howner, hports, hexits, hentries, hinterior⟩ := Component.forall_refs.mp hl.refs
        refine ⟨howner, hports, fun e he => ?_, hentries, hinterior⟩
        rcases OrderedMap.mem_values_put he with he | rfl
        · exact hexits e he
        · exact hnewExit
      · rcases OrderedMap.mem_entries_put he with he | rfl
        · exact hl.exits e he x hx
        · rcases hexit _ x hx with hx | ⟨-, rfl⟩
          · exact absurd (Arena.lt_of_get? hx) (by simp)
          · exact ⟨rfl, rfl⟩
    · exact .inl hx
  · rcases Arena.get?_push_cases hz with ⟨-, rfl⟩ | hz
    · exact .inr ⟨Bus.forall_refs.mpr ⟨hnewExit, by simp [Bus.new], by simp [Bus.new]⟩,
        by simp [Bus.new], by simp [Bus.new]⟩
    · exact .inl hz
  · rcases hexit e x hx with hx | ⟨rfl, rfl⟩
    · exact .inl hx
    · refine .inr ⟨Exit.forall_refs.mpr ⟨hc.mono hs.grows, ?_, by simp⟩, fun b hb z hz => ?_⟩
      · simpa [Exit.buses] using hnewBus
      · simp only [Exit.buses] at hb
        simp at hb
        subst hb
        rcases Arena.get?_push_cases hz with ⟨-, rfl⟩ | hz
        · rfl
        · exact absurd (Arena.lt_of_get? hz) (by simp)

/-! ### Connections -/

/-- The buses after a port has left its driver. -/
def leaveBus (buses : Arena .bus Bus) (p : PortId) : Option BusId → Arena .bus Bus
  | none => buses
  | some b => buses.modify b fun z => { z with ports := z.ports.filter (· ≠ p) }

/-- The buses after a port has come to a driver. -/
def joinBus (buses : Arena .bus Bus) (p : PortId) : Option BusId → Arena .bus Bus
  | none => buses
  | some b => buses.modify b fun z => { z with ports := z.ports ++ [p] }

/-- The buses after a port has left `old` and come to `new`. -/
def movePort (buses : Arena .bus Bus) (p : PortId) (old new : Option BusId) : Arena .bus Bus :=
  joinBus (leaveBus buses p old) p new

/-- What a bus is after a port has moved. -/
def Bus.moved (p : PortId) (old new : Option BusId) (b : BusId) (z : Bus) : Bus :=
  { z with
    ports := (if old = some b then z.ports.filter (· ≠ p) else z.ports) ++
      if new = some b then [p] else [] }

theorem get?_movePort (buses : Arena .bus Bus) (p : PortId) (old new : Option BusId) (b : BusId) :
    (movePort buses p old new).get? b = (buses.get? b).map (Bus.moved p old new b) := by
  have hleft : (leaveBus buses p old).get? b = (buses.get? b).map fun z =>
      { z with ports := if old = some b then z.ports.filter (· ≠ p) else z.ports } := by
    cases old with
    | none => simp [leaveBus]
    | some o =>
        by_cases heq : b = o
        · simp [leaveBus, Arena.get?_modify, heq]
        · simp [leaveBus, Arena.get?_modify, heq, Ne.symm heq]
  have hmoved : Bus.moved p old new b = fun z => z.moved p old new b := rfl
  rw [hmoved]
  cases new with
  | none =>
      show (leaveBus buses p old).get? b = _
      simp [hleft, Bus.moved]
  | some o =>
      show ((leaveBus buses p old).modify o _).get? b = _
      by_cases heq : b = o
      · subst heq
        simp [Arena.get?_modify, hleft, Bus.moved, Function.comp_def]
      · simp [Arena.get?_modify, hleft, heq, Bus.moved, Ne.symm heq]

theorem size_movePort (buses : Arena .bus Bus) (p : PortId) (old new : Option BusId) :
    (movePort buses p old new).size = buses.size := by
  cases old <;> cases new <;> simp [movePort, leaveBus, joinBus]

theorem keeps_movePort {buses old' : Arena .bus Bus} (h : old'.Keeps buses) (p : PortId)
    {old new : Option BusId} (hold : ∀ b, old = some b → old'.size ≤ b.index)
    (hnew : ∀ b, new = some b → old'.size ≤ b.index) : old'.Keeps (movePort buses p old new) := by
  cases old with
  | none =>
      cases new with
      | none => exact h
      | some b => exact h.modify (hnew b rfl) _
  | some a =>
      cases new with
      | none => exact h.modify (hold a rfl) _
      | some b => exact (h.modify (hold a rfl) _).modify (hnew b rfl) _

theorem Bus.mem_ports_moved {p q : PortId} {old new : Option BusId} {b : BusId} {z : Bus} :
    q ∈ (z.moved p old new b).ports ↔
      (q ∈ z.ports ∧ (old = some b → q ≠ p)) ∨ (new = some b ∧ q = p) := by
  by_cases hold : old = some b <;> by_cases hnew : new = some b <;> simp [Bus.moved, hold, hnew]

/-- A port comes to stand in a fan-out once, if it stood in that of its driver only. -/
theorem Bus.nodup_ports_moved {p : PortId} {old new : Option BusId} {b : BusId} {z : Bus}
    (h : z.ports.Nodup) (hdriver : p ∈ z.ports → old = some b) :
    (z.moved p old new b).ports.Nodup := by
  refine List.nodup_append.mpr ⟨?_, ?_, ?_⟩
  · split
    · exact h.filter _
    · exact h
  · split <;> simp
  · rintro q hq q' hq' rfl
    split at hq'
    · obtain rfl := List.mem_singleton.mp hq'
      split at hq
      · simp at hq
      · next hold => exact hold (hdriver hq)
    · cases hq'

section

variable {p : PortId} {y : Port} {new : Option BusId}

theorem sameOwners_movePort (n : Netlist) (p : PortId) (old new : Option BusId) :
    SameOwners n { n with
      buses := movePort n.buses p old new
      ports := n.ports.modify p fun y => { y with bus := new } } := by
  have hsame := (SameLinks.refl n).toSameOwners
  refine { hsame with
    grows := ⟨hsame.grows.components, by simp, by simp [size_movePort], hsame.grows.exits,
      hsame.grows.entries⟩
    ports := fun q x x' hx hx' => ?_
    buses := fun b z z' hz hz' => ?_ }
  · rcases Arena.get?_modify_cases hx' with ⟨rfl, x, hx'', rfl⟩ | ⟨-, hx'⟩
    · cases hx.symm.trans hx''
      rfl
    · exact hsame.ports q x x' hx hx'
  · simp only [get?_movePort, hz, Option.map_some, Option.some.injEq] at hz'
    rw [← hz']
    rfl

theorem PortLinked.rewire {q : PortId} {x x' : Port} (hl : PortLinked base n q x)
    (hy : n.ports.get? p = some y) (hnew : ∀ b, new = some b → Ref.New base n (.bus b))
    (hx : n.ports.get? q = some x)
    (hx' : (n.ports.modify p fun y => { y with bus := new }).get? q = some x') :
    PortLinked base { n with
      buses := movePort n.buses p y.bus new
      ports := n.ports.modify p fun y => { y with bus := new } } q x' := by
  have hgrows := (sameOwners_movePort n p y.bus new).grows
  have hfanOut : ∀ {b z'}, (movePort n.buses p y.bus new).get? b = some z' →
      ∃ z, n.buses.get? b = some z ∧ z' = z.moved p y.bus new b := fun hz' => by
    rw [get?_movePort] at hz'
    obtain ⟨z, hz, rfl⟩ := Option.map_eq_some_iff.mp hz'
    exact ⟨z, hz, rfl⟩
  rcases Arena.get?_modify_cases hx' with ⟨rfl, w, hw, rfl⟩ | ⟨hne, hw⟩
  · cases hx.symm.trans hw
    obtain ⟨howner, -, hpeer⟩ := Port.forall_refs.mp hl.refs
    refine ⟨Port.forall_refs.mpr ⟨howner.mono hgrows, fun b hb => (hnew b hb).mono hgrows,
      fun b hb => (hpeer b hb).mono hgrows⟩, fun b hb z' hz' => ?_⟩
    obtain ⟨z, -, rfl⟩ := hfanOut hz'
    exact Bus.mem_ports_moved.mpr (.inr ⟨hb, rfl⟩)
  · cases hx.symm.trans hw
    refine ⟨fun r hr => (hl.refs r hr).mono hgrows, fun b hb z' hz' => ?_⟩
    obtain ⟨z, hz, rfl⟩ := hfanOut hz'
    exact Bus.mem_ports_moved.mpr (.inl ⟨hl.bus b hb z hz, fun _ => hne⟩)

theorem BusLinked.rewire {b : BusId} {z : Bus} (hl : BusLinked base n b z)
    (hp : Ref.New base n (.port p)) (hy : n.ports.get? p = some y) :
    BusLinked base { n with
      buses := movePort n.buses p y.bus new
      ports := n.ports.modify p fun y => { y with bus := new } } b (z.moved p y.bus new b) := by
  have hgrows := (sameOwners_movePort n p y.bus new).grows
  -- A bus that has the port in its fan-out is the driver of the port.
  have hdriver : p ∈ z.ports → y.bus = some b := fun hmem => hl.ports p hmem y hy
  obtain ⟨hexit, hports, hpeer⟩ := Bus.forall_refs.mp hl.refs
  refine ⟨Bus.forall_refs.mpr ⟨hexit.mono hgrows, fun q hq => ?_, fun q hq =>
    (hpeer q hq).mono hgrows⟩, fun q hq x hx => ?_, Bus.nodup_ports_moved hl.nodup hdriver⟩
  · rcases Bus.mem_ports_moved.mp hq with ⟨hq, -⟩ | ⟨-, rfl⟩
    · exact (hports q hq).mono hgrows
    · exact hp.mono hgrows
  · rcases Bus.mem_ports_moved.mp hq with ⟨hmem, hne⟩ | ⟨heq, rfl⟩
    · rcases Arena.get?_modify_cases hx with ⟨rfl, -⟩ | ⟨-, hx⟩
      · exact absurd rfl (hne (hdriver hmem))
      · exact hl.ports q hmem x hx
    · rcases Arena.get?_modify_cases hx with ⟨-, x, -, rfl⟩ | ⟨hne, -⟩
      · exact heq
      · exact absurd rfl hne

/-- Connecting a port to another bus, or to none, keeps both sides of all connections. -/
theorem Linked.rewire (h : Linked pins base n) (hp : base.ports.size ≤ p.index)
    (hy : n.ports.get? p = some y) (hnew : ∀ b, new = some b → Ref.New base n (.bus b)) :
    Linked pins base { n with
      buses := movePort n.buses p y.bus new
      ports := n.ports.modify p fun y => { y with bus := new } } := by
  have hs := sameOwners_movePort n p y.bus new
  have hbus := (Port.forall_refs.mp (h.ports p y hy hp).refs).2.1
  refine ⟨⟨h.keeps.components, h.keeps.ports.modify hp _,
    keeps_movePort h.keeps.buses p (fun b hb => (hbus b hb).1) fun b hb => (hnew b hb).1,
    h.keeps.exits, h.keeps.entries⟩, fun c x hx hle => (h.components c x hx hle).transfer hs,
    fun q x' hx' hle => ?_, fun b z' hz' hle => ?_,
    fun e x hx hle => (h.exits e x hx hle).transfer hs,
    fun e x hx hle r hr => (h.entries e x hx hle r hr).mono hs.grows⟩
  · obtain ⟨x, hx⟩ : ∃ x, n.ports.get? q = some x :=
      Arena.exists_get? (by simpa using Arena.lt_of_get? hx')
    exact (h.ports q x hx hle).rewire hy hnew hx hx'
  · rw [get?_movePort] at hz'
    obtain ⟨z, hz, rfl⟩ := Option.map_eq_some_iff.mp hz'
    exact (h.buses b z hz hle).rewire ⟨hp, Arena.lt_of_get? hy⟩ hy

end

section

variable {b : BusId} {z : Bus}

theorem get?_modifyAll_disconnected {ps : List PortId} {q : PortId} {x : Port}
    (hx : (n.ports.modifyAll ps fun y => { y with bus := none }).get? q = some x) :
    ∃ y, n.ports.get? q = some y ∧ x = if q ∈ ps then { y with bus := none } else y := by
  rw [Arena.get?_modifyAll (by simp)] at hx
  split at hx
  · next hmem =>
    obtain ⟨y, hy, rfl⟩ := Option.map_eq_some_iff.mp hx
    exact ⟨y, hy, by rw [if_pos hmem]⟩
  · next hmem => exact ⟨x, hx, by rw [if_neg hmem]⟩

theorem sameOwners_clearBus (n : Netlist) (b : BusId) (ps : List PortId) :
    SameOwners n { n with
      buses := n.buses.modify b fun z => { z with ports := [] }
      ports := n.ports.modifyAll ps fun y => { y with bus := none } } := by
  have hsame := (SameLinks.refl n).toSameOwners
  refine { hsame with
    grows := ⟨hsame.grows.components, by simp, by simp, hsame.grows.exits, hsame.grows.entries⟩
    ports := fun q x x' hx hx' => ?_
    buses := fun q x x' hx hx' => ?_ }
  · obtain ⟨y, hy, rfl⟩ := get?_modifyAll_disconnected hx'
    cases hx.symm.trans hy
    split <;> rfl
  · rcases Arena.get?_modify_cases hx' with ⟨rfl, y, hy, rfl⟩ | ⟨-, hy⟩
    · cases hx.symm.trans hy
      rfl
    · exact hsame.buses q x x' hx hy

theorem PortLinked.clearBus {q : PortId} {y : Port} (hl : PortLinked base n q y)
    (hz : n.buses.get? b = some z) :
    PortLinked base { n with
      buses := n.buses.modify b fun z => { z with ports := [] }
      ports := n.ports.modifyAll z.ports fun y => { y with bus := none } } q
      (if q ∈ z.ports then { y with bus := none } else y) := by
  have hgrows := (sameOwners_clearBus n b z.ports).grows
  obtain ⟨howner, -, hpeer⟩ := Port.forall_refs.mp hl.refs
  split
  · exact ⟨Port.forall_refs.mpr ⟨howner.mono hgrows, by simp,
      fun b hb => (hpeer b hb).mono hgrows⟩, by simp⟩
  · next hmem =>
    refine ⟨fun r hr => (hl.refs r hr).mono hgrows, fun d hd z' hz' => ?_⟩
    rcases Arena.get?_modify_cases hz' with ⟨rfl, w, hw, rfl⟩ | ⟨-, hz'⟩
    · -- A port that the bus drives is in its fan-out.
      cases hz.symm.trans hw
      exact absurd (hl.bus d hd z hz) hmem
    · exact hl.bus d hd z' hz'

/-- The other buses keep their fan-out, as a port is driven by one bus only. -/
theorem BusLinked.clearBus {d : BusId} {w w' : Bus} (hld : BusLinked base n d w)
    (hl : BusLinked base n b z) (hw : n.buses.get? d = some w)
    (hz : n.buses.get? b = some z)
    (hw' : (n.buses.modify b fun z => { z with ports := [] }).get? d = some w') :
    BusLinked base { n with
      buses := n.buses.modify b fun z => { z with ports := [] }
      ports := n.ports.modifyAll z.ports fun y => { y with bus := none } } d w' := by
  have hgrows := (sameOwners_clearBus n b z.ports).grows
  rcases Arena.get?_modify_cases hw' with ⟨rfl, v, hv, rfl⟩ | ⟨hne, hv⟩
  · cases hz.symm.trans hv
    obtain ⟨hexit, -, hpeer⟩ := Bus.forall_refs.mp hl.refs
    exact ⟨Bus.forall_refs.mpr ⟨hexit.mono hgrows, by simp,
      fun q hq => (hpeer q hq).mono hgrows⟩, by simp, by simp⟩
  · cases hw.symm.trans hv
    refine ⟨fun r hr => (hld.refs r hr).mono hgrows, fun q hq x hx => ?_, hld.nodup⟩
    obtain ⟨y, hy, rfl⟩ := get?_modifyAll_disconnected hx
    have hbus := hld.ports q hq y hy
    rw [if_neg fun hmem => hne ?_]
    · exact hbus
    · exact Option.some.inj (hbus.symm.trans (hl.ports q hmem y hy))

/-- Letting a bus drive nothing keeps both sides of all connections. -/
theorem Linked.clearBus (h : Linked pins base n) (hb : base.buses.size ≤ b.index)
    (hz : n.buses.get? b = some z) :
    Linked pins base { n with
      buses := n.buses.modify b fun z => { z with ports := [] }
      ports := n.ports.modifyAll z.ports fun y => { y with bus := none } } := by
  have hs := sameOwners_clearBus n b z.ports
  have hl := h.buses b z hz hb
  have hports := (Bus.forall_refs.mp hl.refs).2.1
  refine ⟨⟨h.keeps.components, h.keeps.ports.modifyAll (fun q hq => (hports q hq).1) _,
    h.keeps.buses.modify hb _, h.keeps.exits, h.keeps.entries⟩,
    fun c x hx hle => (h.components c x hx hle).transfer hs,
    fun q x hx hle => ?_, fun d w' hw' hle => ?_,
    fun e x hx hle => (h.exits e x hx hle).transfer hs,
    fun e x hx hle r hr => (h.entries e x hx hle r hr).mono hs.grows⟩
  · obtain ⟨y, hy, rfl⟩ := get?_modifyAll_disconnected hx
    exact (h.ports q y hy hle).clearBus hz
  · obtain ⟨w, hw⟩ : ∃ w, n.buses.get? d = some w :=
      Arena.exists_get? (by simpa using Arena.lt_of_get? hw')
    exact (h.buses d w hw hle).clearBus hl hw hz hw'

end

end DataflowSynth.Netlist
