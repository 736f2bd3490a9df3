/-
What single steps lead to.

The lemmas give the netlist that a step leaves, for arguments that are there.  A step that cannot be
aborted then is the same as the change it makes.
-/
import DataflowSynth.Netlist.Module
import DataflowSynth.Proofs.Build.Outcome
import DataflowSynth.Proofs.Netlist.Shapes

namespace DataflowSynth.Netlist

open Build

variable {α : Type} {Q : α → Traced Netlist → Prop} {F : Failure → Traced Netlist → Prop}
  {s : Traced Netlist}

/-- The state with another netlist. -/
def moved (s : Traced Netlist) (n : Netlist) : Traced Netlist := { s with state := n }

@[simp] theorem state_moved (s : Traced Netlist) (n : Netlist) : (moved s n).state = n := rfl

@[simp] theorem moved_moved (s : Traced Netlist) (n n' : Netlist) :
    moved (moved s n) n' = moved s n' := rfl

@[simp] theorem moved_state (s : Traced Netlist) : moved s s.state = s := rfl

/-! ### Looking -/

section

variable {Q : Component → Traced Netlist → Prop} {c : ComponentId}

theorem wp_component {x : Component} (hx : s.state.components.get? c = some x) :
    wp (component c) Q F s ↔ Q x s := by
  simp only [component, wp_bind, wp_look, hx, wp_expect_some]

theorem wp_component_of (hQ : ∀ x, s.state.components.get? c = some x → Q x s)
    (hF : F (.abort .outOfBounds) s) : wp (component c) Q F s := by
  simp only [component, wp_bind, wp_look]
  exact wp_expect hQ hF

end

section

variable {Q : Port → Traced Netlist → Prop} {p : PortId}

theorem wp_port {y : Port} (hy : s.state.ports.get? p = some y) : wp (port p) Q F s ↔ Q y s := by
  simp only [port, wp_bind, wp_look, hy, wp_expect_some]

theorem wp_port_of (hQ : ∀ y, s.state.ports.get? p = some y → Q y s)
    (hF : F (.abort .outOfBounds) s) : wp (port p) Q F s := by
  simp only [port, wp_bind, wp_look]
  exact wp_expect hQ hF

end

section

variable {Q : Bus → Traced Netlist → Prop} {b : BusId}

theorem wp_bus {z : Bus} (hz : s.state.buses.get? b = some z) : wp (bus b) Q F s ↔ Q z s := by
  simp only [bus, wp_bind, wp_look, hz, wp_expect_some]

theorem wp_bus_of (hQ : ∀ z, s.state.buses.get? b = some z → Q z s)
    (hF : F (.abort .outOfBounds) s) : wp (bus b) Q F s := by
  simp only [bus, wp_bind, wp_look]
  exact wp_expect hQ hF

end

section

variable {Q : Exit → Traced Netlist → Prop} {e : ExitId}

theorem wp_exit {x : Exit} (hx : s.state.exits.get? e = some x) : wp (exit e) Q F s ↔ Q x s := by
  simp only [exit, wp_bind, wp_look, hx, wp_expect_some]

theorem wp_exit_of (hQ : ∀ x, s.state.exits.get? e = some x → Q x s)
    (hF : F (.abort .outOfBounds) s) : wp (exit e) Q F s := by
  simp only [exit, wp_bind, wp_look]
  exact wp_expect hQ hF

end

section

variable {Q : Entry → Traced Netlist → Prop} {e : EntryId}

theorem wp_entry {x : Entry} (hx : s.state.entries.get? e = some x) :
    wp (entry e) Q F s ↔ Q x s := by
  simp only [entry, wp_bind, wp_look, hx, wp_expect_some]

theorem wp_entry_of (hQ : ∀ x, s.state.entries.get? e = some x → Q x s)
    (hF : F (.abort .outOfBounds) s) : wp (entry e) Q F s := by
  simp only [entry, wp_bind, wp_look]
  exact wp_expect hQ hF

end

theorem wp_mainExit {Q : ExitId → Traced Netlist → Prop} {c : ComponentId} {x : Component}
    {e : ExitId} (hx : s.state.components.get? c = some x) (he : x.mainExit? = some e) :
    wp (mainExit c) Q F s ↔ Q e s := by
  simp only [mainExit, wp_bind, wp_component hx, he, wp_expect_some]

theorem wp_interior {Q : Interior → Traced Netlist → Prop} {m : ComponentId} {x : Component}
    {i : Interior} (hx : s.state.components.get? m = some x) (hi : x.interior = some i) :
    wp (interior m) Q F s ↔ Q i s := by
  simp only [interior, wp_bind, wp_component hx, hi, wp_expect_some]

theorem wp_children {Q : List ComponentId → Traced Netlist → Prop} {m : ComponentId} {x : Component}
    {i : Interior} (hx : s.state.components.get? m = some x) (hi : x.interior = some i) :
    wp (children m) Q F s ↔ Q i.children s := by
  simp only [children, wp_bind, wp_interior hx hi, wp_pure]

/-! ### Changing -/

section

variable {Q : Unit → Traced Netlist → Prop}

theorem wp_changeComponent {c : ComponentId} {f : Component → Component}
    (hc : c.index < s.state.components.size) :
    wp (changeComponent c f) Q F s ↔
      Q () (moved s { s.state with components := s.state.components.modify c f }) := by
  simp only [changeComponent, wp_bind, wp_look, Arena.contains_iff.mpr hc,
    if_pos, wp_change, moved]

theorem wp_changePort {p : PortId} {f : Port → Port}
    (hp : p.index < s.state.ports.size) :
    wp (changePort p f) Q F s ↔
      Q () (moved s { s.state with ports := s.state.ports.modify p f }) := by
  simp only [changePort, wp_bind, wp_look, Arena.contains_iff.mpr hp,
    if_pos, wp_change, moved]

theorem wp_changeBus {b : BusId} {f : Bus → Bus}
    (hb : b.index < s.state.buses.size) :
    wp (changeBus b f) Q F s ↔
      Q () (moved s { s.state with buses := s.state.buses.modify b f }) := by
  simp only [changeBus, wp_bind, wp_look, Arena.contains_iff.mpr hb,
    if_pos, wp_change, moved]

theorem wp_changeExit {e : ExitId} {f : Exit → Exit}
    (he : e.index < s.state.exits.size) :
    wp (changeExit e f) Q F s ↔
      Q () (moved s { s.state with exits := s.state.exits.modify e f }) := by
  simp only [changeExit, wp_bind, wp_look, Arena.contains_iff.mpr he,
    if_pos, wp_change, moved]

theorem wp_changeEntry {e : EntryId} {f : Entry → Entry}
    (he : e.index < s.state.entries.size) :
    wp (changeEntry e f) Q F s ↔
      Q () (moved s { s.state with entries := s.state.entries.modify e f }) := by
  simp only [changeEntry, wp_bind, wp_look, Arena.contains_iff.mpr he,
    if_pos, wp_change, moved]

end

@[simp] theorem wp_addPort {Q : PortId → Traced Netlist → Prop} (y : Port) :
    wp (addPort y) Q F s ↔
      Q s.state.ports.next (moved s { s.state with ports := s.state.ports.push y }) := by
  simp only [addPort, wp_bind, wp_look, wp_change, wp_pure, moved]

@[simp] theorem wp_addBus {Q : BusId → Traced Netlist → Prop} (z : Bus) :
    wp (addBus z) Q F s ↔
      Q s.state.buses.next (moved s { s.state with buses := s.state.buses.push z }) := by
  simp only [addBus, wp_bind, wp_look, wp_change, wp_pure, moved]

@[simp] theorem wp_addExit {Q : ExitId → Traced Netlist → Prop} (x : Exit) :
    wp (addExit x) Q F s ↔
      Q s.state.exits.next (moved s { s.state with exits := s.state.exits.push x }) := by
  simp only [addExit, wp_bind, wp_look, wp_change, wp_pure, moved]

@[simp] theorem wp_addEntry {Q : EntryId → Traced Netlist → Prop} (x : Entry) :
    wp (addEntry x) Q F s ↔
      Q s.state.entries.next (moved s { s.state with entries := s.state.entries.push x }) := by
  simp only [addEntry, wp_bind, wp_look, wp_change, wp_pure, moved]

@[simp] theorem wp_freshName {Q : String → Traced Netlist → Prop} (stem : String) :
    wp (freshName stem) Q F s ↔
      Q (s.state.names.fresh stem).1
        (moved s { s.state with names := (s.state.names.fresh stem).2 }) := by
  simp only [freshName, wp_bind, wp_look, wp_change, wp_pure, moved]

/-! ### Boundaries -/

/-- The netlist in which a port and a bus are the two sides of a boundary and one has the signal of the
other, if it had none. -/
@[irreducible] def paired (n : Netlist) (p : PortId) (b : BusId) : Netlist :=
  let n' := n.withPair p b
  match (n.buses.get? b).bind Bus.signal, (n.ports.get? p).bind Port.signal with
  | none, signal => { n' with buses := n'.buses.modify b fun z => { z with signal } }
  | signal, none => { n' with ports := n'.ports.modify p fun y => { y with signal } }
  | some _, some _ => n'

theorem wp_pair {Q : Unit → Traced Netlist → Prop} {p : PortId} {b : BusId}
    (hp : p.index < s.state.ports.size) (hb : b.index < s.state.buses.size) :
    wp (pair p b) Q F s ↔ Q () (moved s (s.state.paired p b)) := by
  obtain ⟨y, hy⟩ := Arena.exists_get? hp
  obtain ⟨z, hz⟩ := Arena.exists_get? hb
  have hy' : (s.state.withPair p b).ports.get? p = some { y with peer := some b } := by
    simp [withPair, Arena.get?_modify_self, hy]
  have hz' : (s.state.withPair p b).buses.get? b = some { z with peer := some p } := by
    simp [withPair, Arena.get?_modify_self, hz]
  simp only [pair, wp_bind]
  refine .trans (wp_changePort hp) (.trans (wp_changeBus hb) ?_)
  refine .trans (wp_port hy') (.trans (wp_bus hz') ?_)
  simp only [paired, hy, hz, Option.bind_some]
  cases z.signal with
  | none => exact wp_changeBus (Arena.lt_of_get? hz')
  | some signal =>
      cases y.signal with
      | none => exact wp_changePort (Arena.lt_of_get? hy')
      | some _ => exact Iff.rfl

theorem sameShape_modifyPort {n : Netlist} {p : PortId} {f : Port → Port}
    (hf : ∀ y, n.ports.get? p = some y → (f y).shape = y.shape) :
    SameShape n { n with ports := n.ports.modify p f } where
  components _ := rfl
  ports q := by
    rw [Arena.get?_modify]
    split
    · next heq =>
      subst heq
      cases hy : n.ports.get? q with
      | none => rfl
      | some y => exact congrArg some (hf y hy)
    · rfl
  buses _ := rfl
  exits _ := rfl

theorem sameShape_modifyBus {n : Netlist} {b : BusId} {f : Bus → Bus}
    (hf : ∀ z, n.buses.get? b = some z → (f z).shape = z.shape) :
    SameShape n { n with buses := n.buses.modify b f } where
  components _ := rfl
  ports _ := rfl
  buses d := by
    rw [Arena.get?_modify]
    split
    · next heq =>
      subst heq
      cases hz : n.buses.get? d with
      | none => rfl
      | some z => exact congrArg some (hf z hz)
    · rfl
  exits _ := rfl

theorem sameShape_modifyComponent {n : Netlist} {c : ComponentId} {f : Component → Component}
    (hf : ∀ x, n.components.get? c = some x → (f x).shape = x.shape) :
    SameShape n { n with components := n.components.modify c f } where
  components d := by
    rw [Arena.get?_modify]
    split
    · next heq =>
      subst heq
      cases hx : n.components.get? d with
      | none => rfl
      | some x => exact congrArg some (hf x hx)
    · rfl
  ports _ := rfl
  buses _ := rfl
  exits _ := rfl

theorem sameShape_modifyExit {n : Netlist} {e : ExitId} {f : Exit → Exit}
    (hf : ∀ x, n.exits.get? e = some x → (f x).shape = x.shape) :
    SameShape n { n with exits := n.exits.modify e f } where
  components _ := rfl
  ports _ := rfl
  buses _ := rfl
  exits d := by
    rw [Arena.get?_modify]
    split
    · next heq =>
      subst heq
      cases hx : n.exits.get? d with
      | none => rfl
      | some x => exact congrArg some (hf x hx)
    · rfl

theorem sameShape_paired (n : Netlist) (p : PortId) (b : BusId) :
    SameShape (n.withPair p b) (n.paired p b) := by
  unfold paired
  split
  · exact sameShape_modifyBus fun _ _ => rfl
  · exact sameShape_modifyPort fun _ _ => rfl
  · exact .refl _

section

variable (n : Netlist) (p : PortId) (b : BusId)

@[simp] theorem components_paired : (n.paired p b).components = n.components := by
  unfold paired
  split <;> rfl

@[simp] theorem names_paired : (n.paired p b).names = n.names := by
  unfold paired
  split <;> rfl

@[simp] theorem exits_paired : (n.paired p b).exits = n.exits := by
  unfold paired
  split <;> rfl

@[simp] theorem entries_paired : (n.paired p b).entries = n.entries := by
  unfold paired
  split <;> rfl

@[simp] theorem size_ports_paired : (n.paired p b).ports.size = n.ports.size := by
  unfold paired
  split <;> simp [withPair]

@[simp] theorem size_buses_paired : (n.paired p b).buses.size = n.buses.size := by
  unfold paired
  split <;> simp [withPair]

theorem get?_ports_paired {q : PortId} (hq : q ≠ p) :
    (n.paired p b).ports.get? q = n.ports.get? q := by
  unfold paired
  split <;> simp [withPair, Arena.get?_modify, hq]

theorem get?_buses_paired {d : BusId} (hd : d ≠ b) :
    (n.paired p b).buses.get? d = n.buses.get? d := by
  unfold paired
  split <;> simp [withPair, Arena.get?_modify, hd]

theorem portRole?_paired (q : PortId) : (n.paired p b).portRole? q = n.portRole? q := by
  rw [(sameShape_paired n p b).portRole?, portRole?, portRole?]
  simp only [withPair, Arena.get?_modify]
  split
  · cases n.ports.get? q <;> rfl
  · rfl

theorem busRole?_paired (d : BusId) : (n.paired p b).busRole? d = n.busRole? d := by
  rw [(sameShape_paired n p b).busRole?, busRole?, busRole?]
  simp only [withPair, Arena.get?_modify]
  split
  · cases n.buses.get? d <;> rfl
  · rfl

/-- A port keeps its owner, and the one that is paired knows its peer. -/
theorem port_of_paired {q : PortId} {y : Port} (hy : (n.paired p b).ports.get? q = some y) :
    ∃ x, n.ports.get? q = some x ∧ y.owner = x.owner ∧ y.peer = if q = p then some b else x.peer := by
  obtain ⟨z, hz, heq⟩ := (sameShape_paired n p b).port hy
  have howner : z.owner = y.owner := (congrArg Port.owner heq :)
  have hpeer : z.peer = y.peer := (congrArg Port.peer heq :)
  rcases Arena.get?_modify_cases hz with ⟨rfl, x, hx, rfl⟩ | ⟨hne, hz⟩
  · exact ⟨x, hx, howner.symm, by rw [if_pos rfl, ← hpeer]⟩
  · exact ⟨z, hz, howner.symm, by rw [if_neg hne, hpeer]⟩

end

/-! ### Terminals -/

section

variable {Q : BusId → Traced Netlist → Prop} {e : ExitId} {y : Exit}

theorem wp_makeDataBus (hy : s.state.exits.get? e = some y) (hpeer : y.peer = none)
    (name : String) : wp (makeDataBus e name) Q F s ↔
      Q s.state.buses.next (moved s (s.state.withDataBus e name)) := by
  have hy' : (s.state.withDataBus e name).exits.get? e =
      some { y with data := y.data ++ [s.state.buses.next] } := by
    simp [withDataBus, Arena.get?_modify_self, hy]
  simp only [makeDataBus, wp_bind, wp_addBus]
  refine .trans (wp_changeExit (Arena.lt_of_get? hy)) (.trans (wp_exit hy') ?_)
  simp only [hpeer, wp_pure]
  exact Iff.rfl

theorem wp_makeDataBus_outBuf (hy : s.state.exits.get? e = some y) {o : ComponentId}
    (hpeer : y.peer = some o) {b : Component} (hb : s.state.components.get? o = some b)
    (name : String) : wp (makeDataBus e name) Q F s ↔
      Q s.state.buses.next (moved s (((s.state.withDataBus e name).withDataPort o name).paired
        s.state.ports.next s.state.buses.next)) := by
  have hy' : (s.state.withDataBus e name).exits.get? e =
      some { y with data := y.data ++ [s.state.buses.next] } := by
    simp [withDataBus, Arena.get?_modify_self, hy]
  simp only [makeDataBus, wp_bind, wp_addBus]
  refine .trans (wp_changeExit (Arena.lt_of_get? hy)) (.trans (wp_exit hy') ?_)
  simp only [hpeer, wp_bind, wp_addPort]
  refine .trans (wp_changeComponent (Arena.lt_of_get? hb)) ?_
  exact .trans (wp_pair (by simp) (by simp)) (by simp; rfl)

/-- The netlist with a new control bus at an exit. -/
def withControlBus (n : Netlist) (e : ExitId) (control : Control) : Netlist :=
  { n with
    buses := n.buses.push (.new control.text e control.role)
    exits := n.exits.modify e fun y => { y with control := y.control ++ [n.buses.next] } }

theorem wp_makeControlBus (he : e.index < s.state.exits.size) (control : Control) :
    wp (makeControlBus e control) Q F s ↔
      Q s.state.buses.next (moved s (s.state.withControlBus e control)) := by
  simp only [makeControlBus, wp_bind, wp_addBus]
  exact .trans (wp_changeExit he) Iff.rfl

/-- In addition, the port is repeated by the new bus. -/
def withControl (n : Netlist) (e : ExitId) (control : Control) (p : PortId) : Netlist :=
  (n.withControlBus e control).paired p n.buses.next

theorem wp_makeControl {Q : Unit → Traced Netlist → Prop} {p : PortId}
    (he : e.index < s.state.exits.size) (hp : p.index < s.state.ports.size) (control : Control) :
    wp (makeControlBus e control) (fun b => wp (pair p b) Q F) F s ↔
      Q () (moved s (s.state.withControl e control p)) := by
  refine .trans (wp_makeControlBus he control) (.trans (wp_pair hp ?_) Iff.rfl)
  simp [withControlBus]

end

section

variable {Q : PortId → Traced Netlist → Prop} {c : ComponentId} {x : Component}

theorem wp_makeDataPort (hx : s.state.components.get? c = some x) (hi : x.interior = none)
    (name : String) : wp (makeDataPort c name) Q F s ↔
      Q s.state.ports.next (moved s (s.state.withDataPort c name)) := by
  have hx' : (s.state.withDataPort c name).components.get? c =
      some { x with dataPorts := x.dataPorts ++ [s.state.ports.next] } := by
    simp [withDataPort, Arena.get?_modify_self, hx]
  simp only [makeDataPort, wp_bind, wp_addPort]
  refine .trans (wp_changeComponent (Arena.lt_of_get? hx)) (.trans (wp_component hx') ?_)
  simp only [hi, wp_pure]
  exact Iff.rfl

variable {i : Interior} {b : Component} {e : ExitId} {w : Exit}

theorem wp_makeDataPort_module (hx : s.state.components.get? c = some x)
    (hi : x.interior = some i) (hb : s.state.components.get? i.inBuf = some b) (hne : i.inBuf ≠ c)
    (he : b.mainExit? = some e) (hw : s.state.exits.get? e = some w) (hpeer : w.peer = none)
    (name : String) : wp (makeDataPort c name) Q F s ↔
      Q s.state.ports.next (moved s ((s.state.withDataInput c e name).paired
        s.state.ports.next s.state.buses.next)) := by
  have hx' : (s.state.withDataPort c name).components.get? c =
      some { x with dataPorts := x.dataPorts ++ [s.state.ports.next] } := by
    simp [withDataPort, Arena.get?_modify_self, hx]
  have hb' : (s.state.withDataPort c name).components.get? i.inBuf = some b := by
    simp [withDataPort, Arena.get?_modify_of_ne _ hne.symm, hb]
  simp only [makeDataPort, wp_bind, wp_addPort]
  refine .trans (wp_changeComponent (Arena.lt_of_get? hx)) (.trans (wp_component hx') ?_)
  simp only [hi, wp_bind]
  refine .trans (wp_mainExit hb' he) (.trans
    (wp_makeDataBus (s := moved s (s.state.withDataPort c name)) hw hpeer name) ?_)
  refine .trans (wp_pair ?_ ?_) Iff.rfl <;> simp [withDataBus, withDataPort]

theorem wp_makeThisPort_some (hx : s.state.components.get? c = some x) {p : PortId}
    (hthis : x.this = some p) : wp (makeThisPort c) Q F s ↔ Q p s := by
  simp only [makeThisPort, wp_bind]
  refine .trans (wp_component hx) ?_
  simp only [hthis, wp_pure]

theorem wp_makeThisPort (hx : s.state.components.get? c = some x) (hthis : x.this = none)
    (hi : x.interior = none) : wp (makeThisPort c) Q F s ↔
      Q s.state.ports.next (moved s (s.state.withThisPort c)) := by
  have hx' : (s.state.withThisPort c).components.get? c =
      some { x with this := some s.state.ports.next } := by
    simp [withThisPort, withPort, Arena.get?_modify_self, hx]
  simp only [makeThisPort, wp_bind]
  refine .trans (wp_component hx) ?_
  simp only [hthis, wp_bind, wp_addPort]
  refine .trans (wp_changeComponent (Arena.lt_of_get? hx)) (.trans (wp_component hx') ?_)
  simp only [hi, wp_pure]
  exact Iff.rfl

theorem wp_makeThisPort_module (hx : s.state.components.get? c = some x) (hthis : x.this = none)
    (hi : x.interior = some i) (hb : s.state.components.get? i.inBuf = some b) (hne : i.inBuf ≠ c)
    (he : b.mainExit? = some e) (hw : s.state.exits.get? e = some w) :
    wp (makeThisPort c) Q F s ↔ Q s.state.ports.next
      (moved s ((s.state.withThisInput c e).paired s.state.ports.next s.state.buses.next)) := by
  have hx' : (s.state.withThisPort c).components.get? c =
      some { x with this := some s.state.ports.next } := by
    simp [withThisPort, withPort, Arena.get?_modify_self, hx]
  have hb' : (s.state.withThisPort c).components.get? i.inBuf = some b := by
    simp [withThisPort, withPort, Arena.get?_modify_of_ne _ hne.symm, hb]
  simp only [makeThisPort, wp_bind]
  refine .trans (wp_component hx) ?_
  simp only [hthis, wp_bind, wp_addPort]
  refine .trans (wp_changeComponent (Arena.lt_of_get? hx)) (.trans (wp_component hx') ?_)
  simp only [hi, wp_bind]
  refine .trans (wp_mainExit hb' he) (.trans (wp_makeControl ?_ ?_ .this) Iff.rfl)
  · exact Arena.lt_of_get? hw
  · simp

end

/-! ### Components and exits -/

/-- The netlist with a new component that has only its control ports, under a name of its own. -/
def shelled (n : Netlist) (kind : ComponentKind) (stem : String) : Netlist :=
  n.withShell kind (n.names.fresh stem).1 (n.names.fresh stem).2

theorem wp_newComponent {Q : ComponentId → Traced Netlist → Prop} (kind : ComponentKind)
    (stem : String) (data : Nat) : wp (newComponent kind stem data) Q F s ↔
      wp ((numberedNames "din" data).forM fun name =>
          discard (makeDataPort s.state.components.next name))
        (fun _ => Q s.state.components.next) F (moved s (s.state.shelled kind stem)) := by
  simp only [newComponent, wp_bind, wp_look, wp_addPort, wp_freshName, wp_change]
  exact Iff.rfl

theorem wp_newShell {Q : ComponentId → Traced Netlist → Prop} (kind : ComponentKind)
    (stem : String) : wp (newComponent kind stem 0) Q F s ↔
      Q s.state.components.next (moved s (s.state.shelled kind stem)) :=
  wp_newComponent kind stem 0

/-- The new component of `shelled`. -/
def shell (n : Netlist) (kind : ComponentKind) (stem : String) : Component where
  name := (n.names.fresh stem).1
  kind := kind
  clock := ⟨n.ports.size⟩
  reset := ⟨n.ports.size + 1⟩
  go := ⟨n.ports.size + 2⟩

theorem components_shelled (n : Netlist) (kind : ComponentKind) (stem : String) :
    (n.shelled kind stem).components = n.components.push (n.shell kind stem) := by
  simp [shelled, withShell, shell, Arena.next, Arena.push, Arena.size]

@[simp] theorem buses_shelled (n : Netlist) (kind : ComponentKind) (stem : String) :
    (n.shelled kind stem).buses = n.buses := rfl

@[simp] theorem exits_shelled (n : Netlist) (kind : ComponentKind) (stem : String) :
    (n.shelled kind stem).exits = n.exits := rfl

theorem get?_ports_shelled (n : Netlist) (kind : ComponentKind) (stem : String) (p : PortId) :
    (n.shelled kind stem).ports.get? p =
      if p.index = n.ports.size + 2 then some (.new "go" n.components.next .go)
      else if p.index = n.ports.size + 1 then some (.new "reset" n.components.next .reset)
      else if p.index = n.ports.size then some (.new "clk" n.components.next .clock)
      else n.ports.get? p := by
  simp only [shelled, withShell, Arena.get?_push_index, Arena.size_push, Nat.add_assoc]

@[simp] theorem get?_shelled_next (n : Netlist) (kind : ComponentKind) (stem : String) :
    (n.shelled kind stem).components.get? n.components.next = some (n.shell kind stem) := by
  rw [components_shelled, Arena.get?_push_next]

theorem get?_go_shelled (n : Netlist) (kind : ComponentKind) (stem : String) :
    (n.shelled kind stem).ports.get? ⟨n.ports.size + 2⟩ =
      some (.new "go" n.components.next .go) := by
  simp [get?_ports_shelled]

/-- The netlist with a new buffer of `m` that has only its control ports. -/
def buffered (n : Netlist) (kind : ComponentKind) (stem : String) (m : ComponentId) : Netlist :=
  { n.shelled kind stem with
    components := (n.shelled kind stem).components.modify n.components.next fun b =>
      { b with owner := some m } }

@[simp] theorem get?_buffered_next (n : Netlist) (kind : ComponentKind) (stem : String)
    (m : ComponentId) : (n.buffered kind stem m).components.get? n.components.next =
      some { n.shell kind stem with owner := some m } := by
  simp [buffered, Arena.get?_modify_self]

/-- The netlist with the OutBuf of an exit `e` of `c`, which is done on the bus `done`. -/
def withOutBuf (n : Netlist) (c : ComponentId) (x : Component) (e : ExitId) (done : BusId) :
    Netlist :=
  let o := n.components.next
  let n' := (n.buffered .outBuf (x.name ++ "_outbuf") c).paired ⟨n.ports.size + 2⟩ done
  { n' with
    exits := n'.exits.modify e fun y => { y with peer := some o }
    components := n'.components.modify o fun b => { b with consumesGo := x.producesDone } }

theorem wp_makeOutBuf {Q : Unit → Traced Netlist → Prop} {c : ComponentId} {x : Component}
    {e : ExitId} {y : Exit} (hx : s.state.components.get? c = some x)
    (hy : s.state.exits.get? e = some y) (hdone : y.done.index < s.state.buses.size) :
    wp (makeOutBuf c e) Q F s ↔ Q () (moved s (s.state.withOutBuf c x e y.done)) := by
  have hb := get?_shelled_next s.state .outBuf (x.name ++ "_outbuf")
  simp only [makeOutBuf, wp_bind]
  refine .trans (wp_component hx) (.trans (wp_newShell _ _)
    (.trans (wp_changeComponent (Arena.lt_of_get? hb)) ?_))
  have hb' := get?_buffered_next s.state .outBuf (x.name ++ "_outbuf") c
  refine .trans (wp_component hb') (.trans (wp_exit hy) (.trans (wp_pair ?_ hdone) ?_))
  · simp [shelled, withShell, shell]
  refine .trans (wp_changeExit ?_) (.trans (wp_changeComponent ?_) Iff.rfl)
  · simpa using Arena.lt_of_get? hy
  · simp [components_shelled]

theorem get?_withExit_self {n : Netlist} {c : ComponentId} {x : Component} (tag : ExitTag)
    (hx : n.components.get? c = some x) : (n.withExit c tag).components.get? c =
      some { x with exits := x.exits.put tag n.exits.next } := by
  simp [withExit, Arena.get?_modify_self, hx]

section

variable {Q : ExitId → Traced Netlist → Prop} {c : ComponentId} {x : Component} {tag : ExitTag}

theorem wp_makeExit_taken (hx : s.state.components.get? c = some x)
    (htag : x.exits.contains tag = true) (data : Nat) :
    wp (makeExit c data tag) Q F s ↔ F (.abort (.duplicateExit tag.text x.name)) s := by
  simp only [makeExit, wp_bind]
  refine .trans (wp_component hx) ?_
  simp only [htag, if_pos, wp_bind, wp_abort]

/-- The exit is made first, then its OutBuf if it needs one, then its data buses. -/
theorem wp_makeExit_free (hx : s.state.components.get? c = some x)
    (htag : x.exits.contains tag = false) (data : Nat) :
    wp (makeExit c data tag) Q F s ↔
      wp (if x.isModule then makeOutBuf c s.state.exits.next else pure ())
        (fun _ => wp ((numberedNames "dout" data).forM fun name =>
          discard (makeDataBus s.state.exits.next name)) (fun _ => Q s.state.exits.next) F) F
        (moved s (s.state.withExit c tag)) := by
  simp only [makeExit, wp_bind]
  refine .trans (wp_component hx) ?_
  simp only [htag, Bool.false_eq_true, if_false, wp_bind, wp_look, wp_addBus, wp_addExit]
  cases x.isModule <;> simp only [Bool.false_eq_true, if_false, if_true, wp_bind, wp_pure] <;>
    exact .trans (wp_changeComponent (Arena.lt_of_get? hx)) Iff.rfl

theorem wp_makeExit (hx : s.state.components.get? c = some x)
    (htag : x.exits.contains tag = false) (hi : x.interior = none) (data : Nat) :
    wp (makeExit c data tag) Q F s ↔
      wp ((numberedNames "dout" data).forM fun name =>
          discard (makeDataBus s.state.exits.next name))
        (fun _ => Q s.state.exits.next) F (moved s (s.state.withExit c tag)) := by
  have hmodule : x.isModule = false := by simp [Component.isModule, hi]
  rw [wp_makeExit_free hx htag, hmodule]
  exact Iff.rfl

theorem wp_makeExit_module (hx : s.state.components.get? c = some x)
    (htag : x.exits.contains tag = false) {i : Interior} (hi : x.interior = some i) (data : Nat) :
    wp (makeExit c data tag) Q F s ↔
      wp ((numberedNames "dout" data).forM fun name =>
          discard (makeDataBus s.state.exits.next name))
        (fun _ => Q s.state.exits.next) F (moved s ((s.state.withExit c tag).withOutBuf c
          { x with exits := x.exits.put tag s.state.exits.next } s.state.exits.next
          s.state.buses.next)) := by
  have hmodule : x.isModule = true := by simp [Component.isModule, hi]
  have hx' := get?_withExit_self tag hx
  rw [wp_makeExit_free hx htag, hmodule, if_pos rfl]
  exact .trans (wp_makeOutBuf hx' (Arena.get?_push_next _ _) (by simp [withExit])) Iff.rfl

end

/-! ### Modules -/

/-- The netlist with an InBuf for `x`, the component `m`, and its buses. -/
def withInBufBuses (n : Netlist) (m : ComponentId) (x : Component) : Netlist :=
  let n' := n.buffered .inBuf (x.name ++ "_inbuf") m
  let e := n'.exits.next
  (((n'.withExit n.components.next .done).paired x.go n'.buses.next).withControl e .clock
    x.clock).withControl e .reset x.reset

/-- The netlist in which `x`, the component `m`, is a module with an InBuf. -/
def withInBuf (n : Netlist) (m : ComponentId) (x : Component) : Netlist :=
  { n.withInBufBuses m x with
    components := ((n.withInBufBuses m x).components.modify n.components.next fun y =>
      { y with producesDone := x.consumesGo }).modify m
        fun y => { y with interior := some { inBuf := n.components.next } } }

theorem wp_makeInBuf {Q : Unit → Traced Netlist → Prop} {m : ComponentId} {x : Component}
    (hx : s.state.components.get? m = some x)
    (hports : ∀ p ∈ x.ports, p.index < s.state.ports.size) :
    wp (makeInBuf m) Q F s ↔ Q () (moved s (s.state.withInBuf m x)) := by
  have hb := get?_shelled_next s.state .inBuf (x.name ++ "_inbuf")
  have hne : m ≠ s.state.components.next := by
    rintro rfl
    exact absurd (Arena.lt_of_get? hx) (by simp)
  have hb' := get?_buffered_next s.state .inBuf (x.name ++ "_inbuf") m
  have hlt : ∀ p ∈ x.ports, p.index <
      (s.state.buffered .inBuf (x.name ++ "_inbuf") m).ports.size := by
    intro p hp
    have := hports p hp
    simp only [buffered, shelled, withShell, Arena.size_push]
    omega
  simp only [makeInBuf, wp_bind]
  refine .trans (wp_component hx) (.trans (wp_newShell _ _)
    (.trans (wp_changeComponent (Arena.lt_of_get? hb)) ?_))
  refine .trans (wp_makeExit
    (s := moved s (s.state.buffered .inBuf (x.name ++ "_inbuf") m)) hb' rfl rfl 0) ?_
  refine .trans (wp_exit (Arena.get?_push_next _ _)) ?_
  refine .trans (wp_pair (hlt x.go (by simp [Component.ports])) (by simp [withExit])) ?_
  refine .trans (wp_makeControl ?_ ?_ .clock) (.trans (wp_makeControl ?_ ?_ .reset) ?_)
  · simp [withExit]
  · simpa [withExit] using hlt x.clock (by simp [Component.ports])
  · simp [withExit, withControl, withControlBus]
  · simpa [withExit, withControl, withControlBus] using hlt x.reset (by simp [Component.ports])
  have hsize : (s.state.buffered .inBuf (x.name ++ "_inbuf") m).components.size =
      s.state.components.size + 1 := by
    simp [buffered, components_shelled]
  refine .trans (wp_changeComponent ?_) (.trans (wp_changeComponent ?_) ?_)
  rotate_left 2
  · simp only [moved_moved, state_moved, withInBuf, withInBufBuses]
  · simp [withControl, withControlBus, withExit, hsize]
  · have hlt := Arena.lt_of_get? hx
    simp only [withControl, withControlBus, withExit, components_paired, Arena.size_modify, moved,
      hsize]
    omega

/-- The netlist with a new module that has only its control ports and its InBuf. -/
def withModule (n : Netlist) (kind : ModuleKind) (stem : String) : Netlist :=
  (n.shelled (.module kind) stem).withInBuf n.components.next (n.shell (.module kind) stem)

theorem wp_newModule {Q : ComponentId → Traced Netlist → Prop} (kind : ModuleKind)
    (stem : String) (data : Nat) : wp (newModule kind stem data) Q F s ↔
      wp ((numberedNames "din" data).forM fun name =>
          discard (makeDataPort s.state.components.next name))
        (fun _ => Q s.state.components.next) F (moved s (s.state.withModule kind stem)) := by
  simp only [newModule, wp_bind]
  refine .trans (wp_newShell _ _) (.trans (wp_makeInBuf (get?_shelled_next _ _ _) ?_) Iff.rfl)
  intro p hp
  simp only [Component.ports, shell, Option.toList_none, List.append_nil, List.mem_cons,
    List.not_mem_nil, or_false] at hp
  rcases hp with rfl | rfl | rfl <;> simp [shelled, withShell]
  omega

/-! ### Entries -/

theorem wp_makeEntry {Q : EntryId → Traced Netlist → Prop} {c : ComponentId}
    (hc : c.index < s.state.components.size) (drivingExit : Option ExitId) :
    wp (makeEntry c drivingExit) Q F s ↔
      Q s.state.entries.next (moved s (s.state.withEntry c { owner := c, drivingExit })) := by
  simp only [makeEntry, wp_bind, wp_addEntry]
  exact .trans (wp_changeComponent hc) Iff.rfl

theorem wp_addDependency {Q : Unit → Traced Netlist → Prop} {e : EntryId} {p : PortId}
    (he : e.index < s.state.entries.size)
    (hp : p.index < s.state.ports.size) (d : Dependency) :
    wp (addDependency e p d) Q F s ↔ Q () (moved s { s.state with
      entries := s.state.entries.modify e fun x =>
        { x with dependencies := x.dependencies.alter p fun ds => ds.getD [] ++ [d] } }) := by
  obtain ⟨y, hy⟩ := Arena.exists_get? hp
  simp only [addDependency, wp_bind]
  exact .trans (wp_port hy) (wp_changeEntry he)

end DataflowSynth.Netlist
