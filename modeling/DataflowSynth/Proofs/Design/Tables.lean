/-
The tables of a design.

A design knows its pins, its interfaces, its clocks and resets and its memories by different keys.  The
tables have to agree with each other and with the terminals of the root module.

Pins are only ever added at the end, so what happens to them is told by the pins that are added, and
each table either takes them or leaves them alone.
-/
import DataflowSynth.Proofs.Design.Handshake
import DataflowSynth.Proofs.Netlist.Spanning
import DataflowSynth.Proofs.OrderedMap

namespace DataflowSynth

open Build

namespace Arena

variable {k : HandleKind} {α : Type} {a : Arena k α} {h : Handle k} {x : α}

theorem mem_values_of_get? (hx : a.get? h = some x) : x ∈ a.values :=
  List.mem_of_getElem? (get?_eq_values ▸ hx)

theorem size_eq_values : a.size = a.values.length := Array.length_toList.symm

theorem mem_toList_iff : (h, x) ∈ a.toList ↔ a.get? h = some x := by
  refine ⟨get?_of_mem_toList, fun hx => ?_⟩
  have hlt := lt_of_get? hx
  rw [get?_eq_values] at hx
  obtain ⟨hlt', rfl⟩ := List.getElem?_eq_some_iff.mp hx
  refine List.mem_iff_getElem.mpr ⟨h.index, ?_, ?_⟩
  · simpa [toList, handles, size_eq_values] using hlt'
  · simp [toList, handles]

end Arena

namespace Design

open Netlist (Spans Takes Gives)

/-! ### Pins and terminals -/

/-- There is such a terminal. -/
def PinLink.In (n : Netlist) : PinLink → Prop
  | .port p => p.index < n.ports.size
  | .bus b => b.index < n.buses.size

/-- The terminal is one where `c` takes data in, or gives it out. -/
def PinLink.Enters (n : Netlist) (c : ComponentId) : PinLink → Prop
  | .port p => n.Takes c p
  | .bus b => n.Gives c b

section

variable {n n' : Netlist} {c : ComponentId} {l : PinLink}

theorem PinLink.In.spans (h : l.In n) (hs : n.Spans n') : l.In n' := by
  cases l with
  | port p => exact Nat.lt_of_lt_of_le h hs.ports
  | bus b => exact Nat.lt_of_lt_of_le h hs.buses

theorem PinLink.Enters.spans (h : l.Enters n c) (hs : n.Spans n') : l.Enters n' c := by
  cases l with
  | port p => exact Takes.spans h hs
  | bus b => exact Gives.spans h hs

end

/-- The pins `new` were added, each with a new terminal of the root module, and maybe more was done to
the netlist. -/
structure Gains (d d' : Design) (new : List Pin) : Prop where
  same : d' = { d with netlist := d'.netlist, pins := d'.pins }
  spans : d.netlist.Spans d'.netlist
  pins : d'.pins.values = d.pins.values ++ new
  links : ∀ y ∈ new, ¬ y.link.In d.netlist ∧ y.link.In d'.netlist ∧ y.link.Enters d'.netlist d.root
  nodup : (new.map Pin.link).Nodup

/-- The netlist has changed, but no terminal was lost. -/
abbrev Rewires (d d' : Design) : Prop := Gains d d' []

namespace Gains

variable {d d' d'' : Design} {new new' : List Pin} {p : PinId} {y : Pin}

theorem root (h : Gains d d' new) : d'.root = d.root := by rw [h.same]

theorem trans (h : Gains d d' new) (h' : Gains d' d'' new') : Gains d d'' (new ++ new') where
  same := by rw [h'.same, h.same]
  spans := trans_of Spans h.spans h'.spans
  pins := by rw [h'.pins, h.pins, List.append_assoc]
  links y hy := by
    rcases List.mem_append.mp hy with hy | hy
    · obtain ⟨hnew, hin, henters⟩ := h.links y hy
      exact ⟨hnew, hin.spans h'.spans, henters.spans h'.spans⟩
    · obtain ⟨hnew, hin, henters⟩ := h'.links y hy
      exact ⟨fun hold => hnew (hold.spans h.spans), hin, h.root ▸ henters⟩
  nodup := by
    rw [List.map_append]
    refine h.nodup.append h'.nodup fun l hl hl' => ?_
    obtain ⟨y, hy, rfl⟩ := List.mem_map.mp hl
    obtain ⟨y', hy', heq⟩ := List.mem_map.mp hl'
    exact (h'.links y' hy').1 (heq ▸ (h.links y hy).2.1)

theorem old (h : Gains d d' new) (hy : d.pins.get? p = some y) : d'.pins.get? p = some y := by
  rw [Arena.get?_eq_values] at hy ⊢
  rw [h.pins, List.getElem?_append_left (List.getElem?_eq_some_iff.mp hy).1, hy]

theorem cases (h : Gains d d' new) (hy : d'.pins.get? p = some y) :
    d.pins.get? p = some y ∨ d.pins.size ≤ p.index ∧ y ∈ new := by
  rw [Arena.get?_eq_values, h.pins, List.getElem?_append] at hy
  split at hy
  · exact .inl (Arena.get?_eq_values ▸ hy)
  · next hle =>
    exact .inr ⟨by rw [Arena.size_eq_values]; omega, List.mem_of_getElem? hy⟩

end Gains

theorem rewires_of_spans {d : Design} {n : Netlist} (h : d.netlist.Spans n) :
    d.Rewires { d with netlist := n } :=
  ⟨rfl, h, (List.append_nil _).symm, by simp, by simp⟩

instance : IsPreorder Design Rewires where
  refl d := rewires_of_spans (refl_of Spans d.netlist)
  trans _ _ _ h h' := h.trans h'

theorem moves_wiring {α : Type} {x : Netlist.Step α} (hx : Moves Spans x) :
    Moves Rewires (wiring x) := fun s =>
  wp_within.mpr (wp_mono (hx ⟨s.state.netlist, s.journal⟩) (fun _ _ ht => rewires_of_spans ht)
    fun _ _ h => h)

/-! ### Making pins -/

section

variable {s : Traced Design}

/-- A pin is added for a terminal that was just made. -/
theorem wp_addPin_gains {α : Type} {x : Netlist.Step α} {pin : α → Pin}
    (hx : wp x (fun a t => Spans s.state.netlist t.state ∧ ¬ (pin a).link.In s.state.netlist ∧
      (pin a).link.In t.state ∧ (pin a).link.Enters t.state s.state.root)
      (fun f _ => f.Unless False) ⟨s.state.netlist, s.journal⟩) :
    wp (wiring x >>= fun a => addPin (pin a)) (fun p t => p = s.state.pins.next ∧
      ∃ a, s.state.Gains t.state [pin a]) (fun f _ => f.Unless False) s := by
  rw [wp_bind, wiring, wp_within]
  refine wp_mono hx ?_ fun _ _ h => h
  rintro a t ⟨hspans, hnew, hin, henters⟩
  simp only [addPin, wp_bind, wp_look, wp_change, wp_pure]
  refine ⟨trivial, a, rfl, hspans, by simp [Arena.push, Arena.values], ?_, by simp⟩
  simpa using ⟨hnew, hin, henters⟩

theorem wp_addInputPin_gains (name : String) (signal : Signal) (role : PinRole) :
    wp (addInputPin name signal role) (fun p t => p = s.state.pins.next ∧
      ∃ q, s.state.Gains t.state [⟨name, signal, role, .port q⟩]) (fun f _ => f.Unless False) s := by
  rw [addInputPin, wp_bind, wp_look]
  refine wp_addPin_gains ?_
  have hrest : ∀ q, Returns Spans q (do
      Netlist.setPortSignal q signal
      Netlist.setBusSignal (← Build.expect .noDesignBus (← Netlist.port q).peer) signal
      Netlist.changePort q fun x => { x with sideband := true }
      return q) := fun q =>
    .bind Netlist.spans_changePort fun _ => .bind Netlist.moves_port fun _ => .bind (.expect _ _)
      fun _ => .bind Netlist.spans_changeBus fun _ => .bind Netlist.spans_changePort fun _ => .pure q
  rw [wp_bind]
  refine wp_mono Netlist.wp_makeDataPort_new ?_ fun _ _ h => h
  rintro q t ⟨hq, ht, hin, htakes⟩
  refine wp_mono (hrest q t) ?_ fun _ _ h => h
  rintro r u ⟨hr, hu⟩
  subst hr hq
  exact ⟨trans_of Spans ht hu, Nat.lt_irrefl _, PinLink.In.spans (l := .port _) hin hu,
    htakes.spans hu⟩

theorem wp_addOutputPin_gains (name : String) (signal : Signal) (role : PinRole) :
    wp (addOutputPin name signal role) (fun p t => p = s.state.pins.next ∧
      ∃ b, s.state.Gains t.state [⟨name, signal, role, .bus b⟩]) (fun f _ => f.Unless False) s := by
  rw [addOutputPin, wp_bind, wp_look]
  refine wp_addPin_gains ?_
  have hrest : ∀ b, Returns Spans b (do
      Netlist.setBusSignal b signal
      Netlist.changeBus b fun x => { x with sideband := true }
      return b) := fun b =>
    .bind Netlist.spans_changeBus fun _ => .bind Netlist.spans_changeBus fun _ => .pure b
  rw [← bind_assoc, wp_bind]
  refine wp_mono Netlist.wp_makeDataBus_new ?_ fun _ _ h => h
  rintro b t ⟨hb, ht, hin, hgives⟩
  refine wp_mono (hrest b t) ?_ fun _ _ h => h
  rintro r u ⟨hr, hu⟩
  subst hr hb
  exact ⟨trans_of Spans ht hu, Nat.lt_irrefl _, PinLink.In.spans (l := .bus _) hin hu,
    hgives.spans hu⟩

/-- The pins that were added are for `role`. -/
def GainsOnly (role : PinRole) (d d' : Design) : Prop :=
  ∃ new, d.Gains d' new ∧ ∀ y ∈ new, y.role = role

instance (role : PinRole) : IsPreorder Design (GainsOnly role) where
  refl d := ⟨[], refl_of Rewires d, by simp⟩
  trans := by
    rintro d d' d'' ⟨new, h, hrole⟩ ⟨new', h', hrole'⟩
    exact ⟨new ++ new', h.trans h', fun y hy => (List.mem_append.mp hy).elim (hrole y) (hrole' y)⟩

theorem moves_addInputPin {name : String} {signal : Signal} {role : PinRole} :
    Moves (GainsOnly role) (addInputPin name signal role) := fun s =>
  wp_mono (wp_addInputPin_gains ..) (fun _ _ ⟨_, _, ht⟩ => ⟨_, ht, by simp⟩) fun _ _ h => h

theorem moves_addOutputPin {name : String} {signal : Signal} {role : PinRole} :
    Moves (GainsOnly role) (addOutputPin name signal role) := fun s =>
  wp_mono (wp_addOutputPin_gains ..) (fun _ _ ⟨_, _, ht⟩ => ⟨_, ht, by simp⟩) fun _ _ h => h

theorem moves_addFifoPins (spec : FifoSpec) : Moves (GainsOnly .fifo) (addFifoPins spec) := by
  unfold addFifoPins
  split
  · refine .bind moves_addInputPin fun data => ?_
    split
    · exact .pure _
    · exact .bind moves_addInputPin fun _ => .bind moves_addOutputPin fun _ => .pure _
  · exact .bind moves_addOutputPin fun _ => .bind moves_addOutputPin fun _ =>
      .bind moves_addInputPin fun _ => .bind moves_addInputPin fun _ => .pure _

/-- An interface gets pins of its own, one after the other. -/
theorem wp_addFifoPins_gains (spec : FifoSpec) :
    wp (addFifoPins spec) (fun pins t => ∃ new, s.state.Gains t.state new ∧
      (∀ y ∈ new, y.role = .fifo) ∧
      pins.toList = (List.range' s.state.pins.size new.length).map Handle.mk)
      (fun f _ => f.Unless False) s := by
  refine wp_mono (wp_and (moves_addFifoPins spec s) (wp_addFifoPins_next spec))
    (fun pins t ⟨⟨new, hgains, hrole⟩, _, hsize, hpins, _⟩ => ⟨new, hgains, hrole, ?_⟩)
    fun _ _ h => h.1
  have hlength : new.length = pins.toList.length := by
    rw [Arena.size_eq_values, Arena.size_eq_values, hgains.pins, List.length_append] at hsize
    omega
  rwa [hlength]

end

/-! ### Links -/

/-- Every pin has a terminal of the root module, and one of its own. -/
structure Joined (n : Netlist) (root : ComponentId) (pins : Arena .pin Pin) : Prop where
  wired : ∀ y ∈ pins.values, y.link.In n ∧ y.link.Enters n root
  nodup : (pins.values.map Pin.link).Nodup

theorem Joined.gains {d d' : Design} {new : List Pin} (h : Joined d.netlist d.root d.pins)
    (hg : Gains d d' new) : Joined d'.netlist d'.root d'.pins := by
  rw [hg.root]
  refine ⟨fun y hy => ?_, ?_⟩
  · rw [hg.pins] at hy
    rcases List.mem_append.mp hy with hy | hy
    · exact ⟨(h.wired y hy).1.spans hg.spans, (h.wired y hy).2.spans hg.spans⟩
    · exact (hg.links y hy).2
  · rw [hg.pins, List.map_append]
    refine h.nodup.append hg.nodup fun l hl hl' => ?_
    obtain ⟨y, hy, rfl⟩ := List.mem_map.mp hl
    obtain ⟨y', hy', heq⟩ := List.mem_map.mp hl'
    exact (hg.links y' hy').1 (heq ▸ (h.wired y hy).1)

/-! ### Interfaces -/

/-- Every pin of an interface belongs to one, and to one only, and so does every name with a
direction. -/
structure Plugged (pins : Arena .pin Pin) (fifos : Arena .fifo Fifo) : Prop where
  fifo : ∀ p y, pins.get? p = some y → y.role = .fifo →
    ∃ h f, fifos.get? h = some f ∧ p ∈ f.pins.toList
  pin : ∀ h f, fifos.get? h = some f → f.pins.toList.Nodup ∧
    ∀ p ∈ f.pins.toList, ∃ y, pins.get? p = some y ∧ y.role = .fifo
  apart : ∀ h f h' f' p, fifos.get? h = some f → fifos.get? h' = some f' → p ∈ f.pins.toList →
    p ∈ f'.pins.toList → h = h'
  keys : ∀ h f h' f', fifos.get? h = some f → fifos.get? h' = some f' →
    f.spec.name = f'.spec.name → f.spec.direction = f'.spec.direction → h = h'

namespace Plugged

variable {d d' : Design} {new : List Pin}

theorem gains (h : Plugged d.pins d.fifos) (hg : Gains d d' new) (hrole : ∀ y ∈ new, y.role ≠ .fifo) :
    Plugged d'.pins d'.fifos := by
  have hfifos : d'.fifos = d.fifos := by rw [hg.same]
  rw [hfifos]
  refine ⟨fun p y hy hfifo => ?_, fun k f hf => ⟨(h.pin k f hf).1, fun p hp => ?_⟩, h.apart, h.keys⟩
  · rcases hg.cases hy with hy | ⟨-, hy⟩
    · exact h.fifo p y hy hfifo
    · exact absurd hfifo (hrole y hy)
  · obtain ⟨y, hy, hfifo⟩ := (h.pin k f hf).2 p hp
    exact ⟨y, hg.old hy, hfifo⟩

/-- A new interface takes all of the new pins. -/
theorem push (h : Plugged d.pins d.fifos) (hg : Gains d d' new) (hrole : ∀ y ∈ new, y.role = .fifo)
    {f : Fifo} (hpins : f.pins.toList = (List.range' d.pins.size new.length).map Handle.mk)
    (hkey : ∀ k g, d.fifos.get? k = some g → g.spec.name = f.spec.name →
      g.spec.direction ≠ f.spec.direction) :
    Plugged d'.pins (d'.fifos.push f) := by
  have hfifos : d'.fifos = d.fifos := by rw [hg.same]
  rw [hfifos]
  have hmem : ∀ p, p ∈ f.pins.toList ↔ d.pins.size ≤ p.index ∧ p.index < d.pins.size + new.length := by
    intro p
    rw [hpins, List.mem_map]
    constructor
    · rintro ⟨i, hi, rfl⟩
      simpa using hi
    · intro hp
      exact ⟨p.index, by simpa using hp, rfl⟩
  have hvalue : ∀ p : PinId, d.pins.size ≤ p.index → p.index < d.pins.size + new.length →
      ∃ y, d'.pins.get? p = some y ∧ y ∈ new := by
    intro p hle hlt
    rw [Arena.size_eq_values] at hle hlt
    refine ⟨new[p.index - d.pins.values.length], ?_, List.getElem_mem _⟩
    rw [Arena.get?_eq_values, hg.pins, List.getElem?_append_right hle, List.getElem?_eq_getElem]
  have hold : ∀ k g p, d.fifos.get? k = some g → p ∈ g.pins.toList → p ∉ f.pins.toList := by
    intro k g p hk hp hnew
    obtain ⟨y, hy, -⟩ := (h.pin k g hk).2 p hp
    exact Nat.not_le_of_lt (Arena.lt_of_get? hy) ((hmem p).mp hnew).1
  refine ⟨fun p y hy hfifo => ?_, fun k g hk => ?_, fun k g k' g' p hk hk' hp hp' => ?_,
    fun k g k' g' hk hk' hname hdirection => ?_⟩
  · rcases hg.cases hy with hy | ⟨hle, -⟩
    · obtain ⟨k, g, hk, hp⟩ := h.fifo p y hy hfifo
      exact ⟨k, g, by rw [Arena.get?_push_index, if_neg (Nat.ne_of_lt (Arena.lt_of_get? hk)), hk], hp⟩
    · refine ⟨d.fifos.next, f, Arena.get?_push_next .., (hmem p).mpr ⟨hle, ?_⟩⟩
      rw [Arena.size_eq_values, ← List.length_append, ← hg.pins, ← Arena.size_eq_values]
      exact Arena.lt_of_get? hy
  · rcases Arena.get?_push_cases hk with ⟨-, rfl⟩ | hk
    · refine ⟨?_, fun p hp => ?_⟩
      · rw [hpins]
        exact (List.nodup_range' ..).map fun i j heq => congrArg Handle.index heq
      · obtain ⟨y, hy, hin⟩ := hvalue p ((hmem p).mp hp).1 ((hmem p).mp hp).2
        exact ⟨y, hy, hrole y hin⟩
    · refine ⟨(h.pin k g hk).1, fun p hp => ?_⟩
      obtain ⟨y, hy, hfifo⟩ := (h.pin k g hk).2 p hp
      exact ⟨y, hg.old hy, hfifo⟩
  · rcases Arena.get?_push_cases hk with ⟨rfl, rfl⟩ | hkold <;>
      rcases Arena.get?_push_cases hk' with ⟨rfl, rfl⟩ | hkold'
    · rfl
    · exact absurd hp (hold k' g' p hkold' hp')
    · exact absurd hp' (hold k g p hkold hp)
    · exact h.apart k g k' g' p hkold hkold' hp hp'
  · rcases Arena.get?_push_cases hk with ⟨rfl, rfl⟩ | hkold <;>
      rcases Arena.get?_push_cases hk' with ⟨rfl, rfl⟩ | hkold'
    · rfl
    · exact absurd hdirection.symm (hkey k' g' hkold' hname.symm)
    · exact absurd hdirection (hkey k g hkold hname)
    · exact h.keys k g k' g' hkold hkold' hname hdirection

end Plugged

/-! ### Clocks and resets -/

/-- The pins for `role` are those that the table has, each under its name. -/
def Booked (role : PinRole) (pins : Arena .pin Pin) (table : OrderedMap String PinId) : Prop :=
  ∀ name p, table.find? name = some p ↔ ∃ y, pins.get? p = some y ∧ y.role = role ∧ y.name = name

namespace Booked

variable {role : PinRole} {d d' : Design} {new : List Pin} {table : OrderedMap String PinId}

theorem gains (h : Booked role d.pins table) (hg : Gains d d' new) (hrole : ∀ y ∈ new, y.role ≠ role) :
    Booked role d'.pins table := by
  intro name p
  rw [h name p]
  refine ⟨fun ⟨y, hy, h⟩ => ⟨y, hg.old hy, h⟩, fun ⟨y, hy, hy', hname⟩ => ?_⟩
  rcases hg.cases hy with hy | ⟨-, hy⟩
  · exact ⟨y, hy, hy', hname⟩
  · exact absurd hy' (hrole y hy)

/-- A pin with a name of its own is written down. -/
theorem put (h : Booked role d.pins table) {y : Pin} (hg : Gains d d' [y]) (hrole : y.role = role)
    (hnew : table.find? y.name = none) : Booked role d'.pins (table.put y.name d.pins.next) := by
  have hy : d'.pins.get? d.pins.next = some y := by
    rw [Arena.get?_eq_values, hg.pins, Arena.next_index, Arena.size_eq_values,
      List.getElem?_append_right (Nat.le_refl _), Nat.sub_self, List.getElem?_cons_zero]
  intro name p
  by_cases hname : name = y.name
  · subst hname
    rw [OrderedMap.find?_put_self, Option.some.injEq]
    refine ⟨?_, fun ⟨z, hz, hz', hname⟩ => ?_⟩
    · rintro rfl
      exact ⟨y, hy, hrole, rfl⟩
    · rcases hg.cases hz with hz | ⟨hle, -⟩
      · have hold := (h _ p).mpr ⟨z, hz, hz', hname⟩
        rw [hnew] at hold
        cases hold
      · refine Handle.ext_index (Nat.le_antisymm hle ?_)
        have hlt := Arena.lt_of_get? hz
        rw [Arena.size_eq_values, hg.pins, List.length_append, ← Arena.size_eq_values] at hlt
        simpa using Nat.le_of_lt_succ hlt
  · rw [OrderedMap.find?_put_of_ne _ hname, h name p]
    refine ⟨fun ⟨z, hz, h⟩ => ⟨z, hg.old hz, h⟩, fun ⟨z, hz, hz', hname'⟩ => ?_⟩
    rcases hg.cases hz with hz | ⟨-, hz⟩
    · exact ⟨z, hz, hz', hname'⟩
    · obtain rfl := List.mem_singleton.mp hz
      exact absurd hname'.symm hname

end Booked

/-- Clocks and resets are written down, and no name is both. -/
structure Timed (pins : Arena .pin Pin) (clockPins resetPins : OrderedMap String PinId) : Prop where
  clocks : Booked .clock pins clockPins
  resets : Booked .reset pins resetPins
  apart : ∀ name, clockPins.contains name = true → resetPins.contains name = false

namespace Timed

variable {d d' : Design} {new : List Pin} {y : Pin}

theorem contains_put {table : OrderedMap String PinId} {name name' : String} {p : PinId} :
    (table.put name p).contains name' = true ↔ name' = name ∨ table.contains name' = true := by
  by_cases h : name' = name
  · simp [OrderedMap.contains, h]
  · simp [OrderedMap.contains, OrderedMap.find?_put_of_ne _ h, h]

theorem gains (h : Timed d.pins d.clockPins d.resetPins) (hg : Gains d d' new)
    (hrole : ∀ y ∈ new, y.role = .fifo) : Timed d'.pins d'.clockPins d'.resetPins := by
  have hclocks : d'.clockPins = d.clockPins := by rw [hg.same]
  have hresets : d'.resetPins = d.resetPins := by rw [hg.same]
  rw [hclocks, hresets]
  exact ⟨h.clocks.gains hg fun y hy => by simp [hrole y hy],
    h.resets.gains hg fun y hy => by simp [hrole y hy], h.apart⟩

/-- A clock gets a pin, if it is no reset. -/
theorem clock (h : Timed d.pins d.clockPins d.resetPins) (hg : Gains d d' [y])
    (hrole : y.role = .clock) (hnew : d.clockPins.find? y.name = none)
    (hfree : d.resetPins.contains y.name = false) :
    Timed d'.pins (d'.clockPins.put y.name d.pins.next) d'.resetPins := by
  have hclocks : d'.clockPins = d.clockPins := by rw [hg.same]
  have hresets : d'.resetPins = d.resetPins := by rw [hg.same]
  rw [hclocks, hresets]
  refine ⟨h.clocks.put hg hrole hnew, h.resets.gains hg (by simp [hrole]), fun name hname => ?_⟩
  rcases contains_put.mp hname with rfl | hname
  · exact hfree
  · exact h.apart name hname

/-- A reset gets a pin, if it is no clock. -/
theorem reset (h : Timed d.pins d.clockPins d.resetPins) (hg : Gains d d' [y])
    (hrole : y.role = .reset) (hnew : d.resetPins.find? y.name = none)
    (hfree : d.clockPins.contains y.name = false) :
    Timed d'.pins d'.clockPins (d'.resetPins.put y.name d.pins.next) := by
  have hclocks : d'.clockPins = d.clockPins := by rw [hg.same]
  have hresets : d'.resetPins = d.resetPins := by rw [hg.same]
  rw [hclocks, hresets]
  refine ⟨h.clocks.gains hg (by simp [hrole]), h.resets.put hg hrole hnew, fun name hname => ?_⟩
  refine Bool.eq_false_iff.mpr fun hreset => ?_
  rcases contains_put.mp hreset with rfl | hreset
  · rw [hname] at hfree
    cases hfree
  · rw [h.apart name hname] at hreset
    cases hreset

end Timed

/-! ### All tables -/

/-- Memories have ids of their own, and none has the id 0. -/
def Numbered (memories : List Memory) : Prop :=
  (memories.map Memory.id).Nodup ∧ 0 ∉ memories.map Memory.id

/-- The tables agree with each other and with the terminals of the root module. -/
structure Kept (d : Design) : Prop where
  joined : Joined d.netlist d.root d.pins
  fifos : Plugged d.pins d.fifos
  timed : Timed d.pins d.clockPins d.resetPins
  memories : Numbered d.memories

namespace Kept

variable {d d' : Design} {new : List Pin} {y : Pin}

theorem memories_gains (h : Kept d) (hg : Gains d d' new) : Numbered d'.memories := by
  rw [show d'.memories = d.memories by rw [hg.same]]
  exact h.memories

/-- Nothing is written down when no pin was made. -/
theorem rewires (h : Kept d) (hr : Rewires d d') : Kept d' :=
  ⟨h.joined.gains hr, h.fifos.gains hr (by simp), h.timed.gains hr (by simp), h.memories_gains hr⟩

/-- A new interface takes the pins that were made for it. -/
theorem plug (h : Kept d) (hg : Gains d d' new) (hrole : ∀ y ∈ new, y.role = .fifo) {f : Fifo}
    (hpins : f.pins.toList = (List.range' d.pins.size new.length).map Handle.mk)
    (hkey : ∀ k g, d.fifos.get? k = some g → g.spec.name = f.spec.name →
      g.spec.direction ≠ f.spec.direction) : Kept { d' with fifos := d'.fifos.push f } :=
  have hjoined := h.joined.gains hg
  have htimed := h.timed.gains hg hrole
  have hmemories := h.memories_gains hg
  ⟨hjoined, h.fifos.push hg hrole hpins hkey, htimed, hmemories⟩

theorem clock (h : Kept d) (hg : Gains d d' [y]) (hrole : y.role = .clock)
    (hnew : d.clockPins.find? y.name = none) (hfree : d.resetPins.contains y.name = false) :
    Kept { d' with clockPins := d'.clockPins.put y.name d.pins.next } :=
  have hjoined := h.joined.gains hg
  have hfifos := h.fifos.gains hg (by simp [hrole])
  have hmemories := h.memories_gains hg
  ⟨hjoined, hfifos, h.timed.clock hg hrole hnew hfree, hmemories⟩

theorem reset (h : Kept d) (hg : Gains d d' [y]) (hrole : y.role = .reset)
    (hnew : d.resetPins.find? y.name = none) (hfree : d.clockPins.contains y.name = false) :
    Kept { d' with resetPins := d'.resetPins.put y.name d.pins.next } :=
  have hjoined := h.joined.gains hg
  have hfifos := h.fifos.gains hg (by simp [hrole])
  have hmemories := h.memories_gains hg
  ⟨hjoined, hfifos, h.timed.reset hg hrole hnew hfree, hmemories⟩

end Kept

end Design

end DataflowSynth
