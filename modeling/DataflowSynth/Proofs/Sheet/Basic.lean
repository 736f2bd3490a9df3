/-
Sheets: what is connected to what in a netlist.

A sheet shows every component with the buses that drive its ports and the buses that it gives out.
Names, signals and marks are left out, and so is the far end of every link: a bus is shown with the
component that gives it out, and again at each port that it drives.  On a sheet a step has a plain
effect, the change of a node or two, where the netlist keeps ports, exits and buses in arenas of their
own.  `Draws` says that a step succeeds and what it does to the sheet; once the single steps are known
this way, nothing that is built of them has to look into the arenas again.
-/
import DataflowSynth.Proofs.Netlist.Calls
import DataflowSynth.Proofs.Netlist.Twins

namespace DataflowSynth.Netlist

open Build

/-! ### Nodes -/

/-- A port: the bus that drives it, and the bus that repeats it across a boundary. -/
structure Pad where
  port : PortId
  driver : Option BusId := none
  peer : Option BusId := none

/-- An exit: the buses that it gives out, and its OutBuf. -/
structure Outlet where
  exit : ExitId
  done : BusId
  data : List BusId := []
  control : List BusId := []
  outBuf : Option ComponentId := none

def Outlet.buses (o : Outlet) : List BusId := o.done :: o.data ++ o.control

/-- A component with its ports and exits. -/
structure Node where
  kind : ComponentKind
  owner : Option ComponentId := none
  clock : Pad
  reset : Pad
  go : Pad
  this : Option Pad := none
  data : List Pad := []
  exits : List (ExitTag × Outlet) := []
  interior : Option Interior := none

namespace Node

def pads (ν : Node) : List Pad := [ν.clock, ν.reset, ν.go] ++ ν.this.toList ++ ν.data

def outlets (ν : Node) : List Outlet := ν.exits.map Prod.snd

/-- The buses that drive the component. -/
def drivers (ν : Node) : List BusId := ν.pads.filterMap Pad.driver

/-- The buses that the component gives out. -/
def buses (ν : Node) : List BusId := ν.outlets.flatMap Outlet.buses

def outlet? (ν : Node) (tag : ExitTag) : Option Outlet :=
  (ν.exits.find? fun e => e.1 = tag).map Prod.snd

/-- A component that has nothing but its control ports. -/
def blank (kind : ComponentKind) (clock reset go : PortId) : Node where
  kind := kind
  clock := { port := clock }
  reset := { port := reset }
  go := { port := go }

theorem mem_pads {ν : Node} {a : Pad} :
    a ∈ ν.pads ↔ a = ν.clock ∨ a = ν.reset ∨ a = ν.go ∨ ν.this = some a ∨ a ∈ ν.data := by
  simp [pads]

@[simp] theorem clock_mem_pads (ν : Node) : ν.clock ∈ ν.pads := by simp [pads]

@[simp] theorem reset_mem_pads (ν : Node) : ν.reset ∈ ν.pads := by simp [pads]

@[simp] theorem go_mem_pads (ν : Node) : ν.go ∈ ν.pads := by simp [pads]

theorem data_mem_pads {ν : Node} {a : Pad} (h : a ∈ ν.data) : a ∈ ν.pads := by simp [pads, h]

theorem mem_drivers {ν : Node} {b : BusId} : b ∈ ν.drivers ↔
    ν.clock.driver = some b ∨ ν.reset.driver = some b ∨ ν.go.driver = some b ∨
      (∃ a, ν.this = some a ∧ a.driver = some b) ∨ ∃ a ∈ ν.data, a.driver = some b := by
  simp only [drivers, List.mem_filterMap, mem_pads]
  constructor
  · rintro ⟨a, rfl | rfl | rfl | ha | ha, hb⟩
    · exact .inl hb
    · exact .inr (.inl hb)
    · exact .inr (.inr (.inl hb))
    · exact .inr (.inr (.inr (.inl ⟨a, ha, hb⟩)))
    · exact .inr (.inr (.inr (.inr ⟨a, ha, hb⟩)))
  · rintro (hb | hb | hb | ⟨a, ha, hb⟩ | ⟨a, ha, hb⟩)
    · exact ⟨_, .inl rfl, hb⟩
    · exact ⟨_, .inr (.inl rfl), hb⟩
    · exact ⟨_, .inr (.inr (.inl rfl)), hb⟩
    · exact ⟨a, .inr (.inr (.inr (.inl ha))), hb⟩
    · exact ⟨a, .inr (.inr (.inr (.inr ha))), hb⟩

theorem mem_buses {ν : Node} {b : BusId} : b ∈ ν.buses ↔ ∃ o ∈ ν.outlets, b ∈ o.buses :=
  List.mem_flatMap

theorem outlet?_mem {ν : Node} {tag : ExitTag} {o : Outlet} (h : ν.outlet? tag = some o) :
    o ∈ ν.outlets := by
  obtain ⟨e, he, rfl⟩ := Option.map_eq_some_iff.mp h
  exact List.mem_map_of_mem (List.mem_of_find?_eq_some he)

end Node

/-! ### Sheets -/

/-- The nodes of all components, and how many there are. -/
@[ext] structure Sheet where
  size : Nat
  node? : ComponentId → Option Node

namespace Sheet

/-- The sheet with another node for a component. -/
def set (σ : Sheet) (c : ComponentId) (ν : Node) : Sheet :=
  { σ with node? := fun d => if d = c then some ν else σ.node? d }

/-- The component that is drawn next. -/
def next (σ : Sheet) : ComponentId := ⟨σ.size⟩

/-- The sheet with one more component. -/
def add (σ : Sheet) (ν : Node) : Sheet :=
  { size := σ.size + 1, node? := fun d => if d = σ.next then some ν else σ.node? d }

/-- The sheet with more components, one after the other. -/
def adds (σ : Sheet) : List Node → Sheet
  | [] => σ
  | ν :: νs => (σ.add ν).adds νs

/-- The components that are drawn from now on, counted from zero. -/
def fresh (σ : Sheet) (k : Nat) : ComponentId := ⟨σ.size + k⟩

def Bounded (σ : Sheet) : Prop := ∀ c ν, σ.node? c = some ν → c.index < σ.size

/-- Some component gives out the bus. -/
def Gives (σ : Sheet) (b : BusId) : Prop := ∃ d μ, σ.node? d = some μ ∧ b ∈ μ.buses

section

variable (σ : Sheet) (c d : ComponentId) (ν ν' : Node)

@[simp] theorem size_set : (σ.set c ν).size = σ.size := rfl

@[simp] theorem index_next : σ.next.index = σ.size := rfl

@[simp] theorem next_set : (σ.set c ν).next = σ.next := rfl

@[simp] theorem size_add : (σ.add ν).size = σ.size + 1 := rfl

@[simp] theorem node?_set_self : (σ.set c ν).node? c = some ν := by simp [set]

@[simp] theorem node?_add_next : (σ.add ν).node? σ.next = some ν := by simp [add]

variable {c d}

theorem node?_set_of_ne (h : d ≠ c) : (σ.set c ν).node? d = σ.node? d := by simp [set, h]

theorem node?_add_of_ne (h : d ≠ σ.next) : (σ.add ν).node? d = σ.node? d := by simp [add, h]

@[simp] theorem set_set : (σ.set c ν).set c ν' = σ.set c ν' := by
  ext d
  · rfl
  · by_cases h : d = c <;> simp [set, h]

@[simp] theorem set_add_next : (σ.add ν).set σ.next ν' = σ.add ν' := by
  ext d
  · rfl
  · by_cases h : d = σ.next <;> simp [set, add, h]

theorem set_comm (h : d ≠ c) : (σ.set c ν).set d ν' = (σ.set d ν').set c ν := by
  ext e
  · rfl
  · by_cases hc : e = c
    · subst hc
      simp [set, h.symm]
    · by_cases hd : e = d <;> simp [set, hc, hd, h]

theorem set_next_set_add (h : c ≠ σ.next) (ξ : Node) :
    ((σ.add ν).set c ν').set σ.next ξ = (σ.add ξ).set c ν' := by
  rw [set_comm _ _ _ h.symm, set_add_next]

/-- Sheets are compared node by node. -/
theorem eq_set_set {τ : Sheet} (hsize : τ.size = σ.size) (hc : τ.node? c = some ν)
    (hd : τ.node? d = some ν') (hothers : ∀ e, e ≠ c → e ≠ d → τ.node? e = σ.node? e) :
    τ = (σ.set c ν).set d ν' := by
  ext : 1
  · exact hsize
  · funext e
    by_cases hed : e = d
    · rw [hed, node?_set_self, hd]
    · rw [node?_set_of_ne _ _ hed]
      by_cases hec : e = c
      · rw [hec, node?_set_self, hc]
      · rw [node?_set_of_ne _ _ hec, hothers e hec hed]

theorem eq_set_add {τ : Sheet} (hsize : τ.size = σ.size + 1) (hc : τ.node? c = some ν)
    (hnext : τ.node? σ.next = some ν')
    (hothers : ∀ e, e ≠ c → e ≠ σ.next → τ.node? e = σ.node? e) : τ = (σ.set c ν).add ν' := by
  ext : 1
  · exact hsize
  · funext e
    by_cases hen : e = σ.next
    · rw [hen, hnext]
      exact (node?_add_next _ _).symm
    · rw [node?_add_of_ne _ _ (by simpa using hen)]
      by_cases hec : e = c
      · rw [hec, node?_set_self, hc]
      · rw [node?_set_of_ne _ _ hec, hothers e hec hen]

theorem set_add_of_ne (h : c ≠ σ.next) : (σ.add ν).set c ν' = (σ.set c ν').add ν := by
  refine eq_set_add σ ν' ν rfl (node?_set_self _ _ _) ?_ fun d hdc hdn => ?_
  · rw [node?_set_of_ne _ _ h.symm, node?_add_next]
  · rw [node?_set_of_ne _ _ hdc, node?_add_of_ne _ _ hdn]

theorem set_eq_self (h : σ.node? c = some ν) : σ.set c ν = σ := by
  ext d
  · rfl
  · by_cases hd : d = c
    · simp [set, hd, h]
    · simp [set, hd]

end

section

variable {σ : Sheet} {c : ComponentId} {ν μ : Node} {b : BusId}

theorem Bounded.ne_next (h : σ.Bounded) (hν : σ.node? c = some ν) : c ≠ σ.next := by
  rintro rfl
  exact Nat.lt_irrefl _ (h _ _ hν)

theorem Bounded.set (h : σ.Bounded) (hν : σ.node? c = some ν) (μ : Node) : (σ.set c μ).Bounded := by
  intro d ξ hd
  by_cases hdc : d = c
  · exact hdc ▸ h c ν hν
  · exact h d ξ (node?_set_of_ne σ μ hdc ▸ hd)

theorem Bounded.add (h : σ.Bounded) (μ : Node) : (σ.add μ).Bounded := by
  intro d ξ hd
  by_cases hdn : d = σ.next
  · rw [hdn]
    exact Nat.lt_succ_self _
  · exact Nat.lt_succ_of_lt (h d ξ (node?_add_of_ne σ μ hdn ▸ hd))

theorem gives_of_mem (hν : σ.node? c = some ν) (hb : b ∈ ν.buses) : σ.Gives b := ⟨c, ν, hν, hb⟩

theorem Gives.set (h : σ.Gives b) (hν : σ.node? c = some ν) (hbuses : ∀ b ∈ ν.buses, b ∈ μ.buses) :
    (σ.set c μ).Gives b := by
  obtain ⟨d, ξ, hξ, hb⟩ := h
  by_cases hd : d = c
  · subst hd
    cases hν.symm.trans hξ
    exact ⟨d, μ, node?_set_self .., hbuses b hb⟩
  · exact ⟨d, ξ, by rw [node?_set_of_ne _ _ hd, hξ], hb⟩

theorem Gives.add (h : σ.Gives b) (hσ : σ.Bounded) (μ : Node) : (σ.add μ).Gives b := by
  obtain ⟨d, ξ, hξ, hb⟩ := h
  exact ⟨d, ξ, by rw [node?_add_of_ne _ _ (hσ.ne_next hξ), hξ], hb⟩

end

/-! ### Many components at once -/

section

variable {σ : Sheet} {c : ComponentId} {ν : Node}

@[simp] theorem adds_nil (σ : Sheet) : σ.adds [] = σ := rfl

@[simp] theorem size_adds (σ : Sheet) (νs : List Node) : (σ.adds νs).size = σ.size + νs.length := by
  induction νs generalizing σ with
  | nil => rfl
  | cons ν νs ih =>
      rw [adds, ih, size_add, List.length_cons]
      omega

@[simp] theorem index_fresh (σ : Sheet) (k : Nat) : (σ.fresh k).index = σ.size + k := rfl

@[simp] theorem fresh_zero (σ : Sheet) : σ.fresh 0 = σ.next := rfl

@[simp] theorem fresh_set (σ : Sheet) (c : ComponentId) (ν : Node) (k : Nat) :
    (σ.set c ν).fresh k = σ.fresh k := rfl

@[simp] theorem next_adds (σ : Sheet) (νs : List Node) : (σ.adds νs).next = σ.fresh νs.length := by
  simp [next, fresh]

@[simp] theorem fresh_inj {j k : Nat} : σ.fresh j = σ.fresh k ↔ j = k := by
  simp [fresh]

@[simp] theorem add_adds (σ : Sheet) (νs : List Node) (ν : Node) :
    (σ.adds νs).add ν = σ.adds (νs ++ [ν]) := by
  induction νs generalizing σ with
  | nil => rfl
  | cons μ νs ih => exact ih (σ.add μ)

@[simp] theorem adds_adds (σ : Sheet) (νs νs' : List Node) :
    (σ.adds νs).adds νs' = σ.adds (νs ++ νs') := by
  induction νs generalizing σ with
  | nil => rfl
  | cons ν νs ih => exact ih (σ.add ν)

@[simp] theorem fresh_adds (σ : Sheet) (νs : List Node) (k : Nat) :
    (σ.adds νs).fresh k = σ.fresh (νs.length + k) := by
  simp [fresh, Nat.add_assoc]

theorem node?_adds_of_lt (h : c.index < σ.size) (νs : List Node) :
    (σ.adds νs).node? c = σ.node? c := by
  induction νs generalizing σ with
  | nil => rfl
  | cons ν νs ih =>
      have hne : c ≠ σ.next := by
        rintro rfl
        exact Nat.lt_irrefl _ h
      rw [adds, ih (Nat.lt_succ_of_lt h), node?_add_of_ne _ _ hne]

theorem node?_adds_fresh (σ : Sheet) (νs : List Node) {k : Nat} (h : k < νs.length) :
    (σ.adds νs).node? (σ.fresh k) = νs[k]? := by
  induction νs generalizing σ k with
  | nil => exact absurd h (Nat.not_lt_zero k)
  | cons ν νs ih =>
      cases k with
      | zero =>
          rw [adds, node?_adds_of_lt (by simp)]
          exact node?_add_next σ ν
      | succ k =>
          have hfresh : σ.fresh (k + 1) = (σ.add ν).fresh k := by
            simp only [fresh, size_add, Nat.add_comm k, Nat.add_assoc]
          rw [hfresh, adds, ih _ (Nat.lt_of_succ_lt_succ h), List.getElem?_cons_succ]

theorem set_adds_of_lt (h : c.index < σ.size) (νs : List Node) (ν : Node) :
    (σ.adds νs).set c ν = (σ.set c ν).adds νs := by
  induction νs generalizing σ with
  | nil => rfl
  | cons μ νs ih =>
      have hne : c ≠ σ.next := by
        rintro rfl
        exact Nat.lt_irrefl _ h
      rw [adds, ih (Nat.lt_succ_of_lt h), set_add_of_ne _ _ _ hne]
      rfl

theorem set_adds_fresh (σ : Sheet) (νs : List Node) {k : Nat} (h : k < νs.length) (ν : Node) :
    (σ.adds νs).set (σ.fresh k) ν = σ.adds (νs.set k ν) := by
  induction νs generalizing σ k with
  | nil => exact absurd h (Nat.not_lt_zero k)
  | cons μ νs ih =>
      cases k with
      | zero =>
          rw [adds, set_adds_of_lt (by simp)]
          exact congrArg (adds · νs) (set_add_next σ μ ν)
      | succ k =>
          have hfresh : σ.fresh (k + 1) = (σ.add μ).fresh k := by
            simp only [fresh, size_add, Nat.add_comm k, Nat.add_assoc]
          rw [hfresh, adds, ih _ (Nat.lt_of_succ_lt_succ h), List.set_cons_succ]
          rfl

@[simp] theorem node?_next_adds (σ : Sheet) (ν : Node) (νs : List Node) :
    (σ.adds (ν :: νs)).node? σ.next = some ν :=
  node?_adds_fresh σ _ (k := 0) (Nat.succ_pos νs.length)

@[simp] theorem set_next_adds (σ : Sheet) (ν ν' : Node) (νs : List Node) :
    (σ.adds (ν :: νs)).set σ.next ν' = σ.adds (ν' :: νs) :=
  set_adds_fresh σ (ν :: νs) (k := 0) (Nat.succ_pos νs.length) ν'

theorem gives_adds {νs : List Node} {k : Nat} {b : BusId} (hν : νs[k]? = some ν) (hb : b ∈ ν.buses) :
    (σ.adds νs).Gives b := by
  obtain ⟨hk, -⟩ := List.getElem?_eq_some_iff.mp hν
  exact ⟨σ.fresh k, ν, (node?_adds_fresh σ _ hk).trans hν, hb⟩

/-- Sheets are compared node by node. -/
theorem eq_adds {τ : Sheet} {νs : List Node} (hsize : τ.size = σ.size + νs.length)
    (hnew : ∀ k (h : k < νs.length), τ.node? (σ.fresh k) = some νs[k])
    (hold : ∀ c, (∀ k, k < νs.length → c ≠ σ.fresh k) → τ.node? c = σ.node? c) :
    τ = σ.adds νs := by
  ext : 1
  · rw [hsize, size_adds]
  · funext c
    by_cases hc : ∃ k, k < νs.length ∧ c = σ.fresh k
    · obtain ⟨k, hk, rfl⟩ := hc
      rw [hnew k hk, node?_adds_fresh σ _ hk, List.getElem?_eq_getElem hk]
    · have hne : ∀ k, k < νs.length → c ≠ σ.fresh k := fun k hk heq => hc ⟨k, hk, heq⟩
      rw [hold c hne]
      clear hsize hnew hold hc
      induction νs generalizing σ with
      | nil => rfl
      | cons ν νs ih =>
          rw [adds, ← ih fun k hk heq => hne (k + 1) (Nat.succ_lt_succ hk) ?_]
          · exact (node?_add_of_ne σ ν (hne 0 (Nat.succ_pos _))).symm
          · simp only [heq, fresh, size_add, Nat.add_comm k, Nat.add_assoc]

end

end Sheet

/-! ### The sheet of a netlist -/

variable {n n' : Netlist}

def pad (n : Netlist) (p : PortId) : Pad where
  port := p
  driver := (n.ports.get? p).bind Port.bus
  peer := (n.ports.get? p).bind Port.peer

def outlet (n : Netlist) (e : ExitId) : Outlet :=
  match n.exits.get? e with
  | some y => ⟨e, y.done, y.data, y.control, y.peer⟩
  | none => { exit := e, done := default }

def node (n : Netlist) (x : Component) : Node where
  kind := x.kind
  owner := x.owner
  clock := n.pad x.clock
  reset := n.pad x.reset
  go := n.pad x.go
  this := x.this.map n.pad
  data := x.dataPorts.map n.pad
  exits := x.exits.entries.map fun e => (e.1, n.outlet e.2)
  interior := x.interior

/-- What a drawing starts from: a netlist that is left as it is, and the pins around it. -/
structure Ground where
  pins : Nat
  base : Netlist := {}

/-- With no netlist to start from, everything is drawn. -/
instance : Coe Nat Ground := ⟨fun pins => { pins }⟩

/-- What has been added to `base`. -/
def sheetOver (base n : Netlist) : Sheet where
  size := n.components.size
  node? c := if base.components.size ≤ c.index then (n.components.get? c).map n.node else none

abbrev Ground.sheet (Γ : Ground) (n : Netlist) : Sheet := sheetOver Γ.base n

/-- All of the netlist. -/
abbrev sheet (n : Netlist) : Sheet := sheetOver {} n

section

variable {base : Netlist} {c : ComponentId} {ν : Node}

@[simp] theorem size_sheet (base n : Netlist) : (sheetOver base n).size = n.components.size := rfl

@[simp] theorem next_sheet (base n : Netlist) : (sheetOver base n).next = n.components.next := rfl

theorem node?_sheet (n : Netlist) (h : base.components.size ≤ c.index) :
    (sheetOver base n).node? c = (n.components.get? c).map n.node := if_pos h

theorem node?_sheet_of_lt (n : Netlist) (h : c.index < base.components.size) :
    (sheetOver base n).node? c = none := if_neg (Nat.not_le_of_lt h)

theorem le_of_node? (h : (sheetOver base n).node? c = some ν) : base.components.size ≤ c.index := by
  by_cases hle : base.components.size ≤ c.index
  · exact hle
  · rw [node?_sheet_of_lt n (Nat.lt_of_not_le hle)] at h
    cases h

theorem drawn (h : (sheetOver base n).node? c = some ν) :
    ∃ x, n.components.get? c = some x ∧ n.node x = ν := by
  rw [node?_sheet n (le_of_node? h)] at h
  exact Option.map_eq_some_iff.mp h

end

@[simp] theorem port_pad (n : Netlist) (p : PortId) : (n.pad p).port = p := rfl

@[simp] theorem exit_outlet (n : Netlist) (e : ExitId) : (n.outlet e).exit = e := by
  unfold outlet
  split <;> rfl

theorem outlet_of_get? {e : ExitId} {y : Exit} (h : n.exits.get? e = some y) :
    n.outlet e = ⟨e, y.done, y.data, y.control, y.peer⟩ := by
  simp [outlet, h]

theorem pads_node (n : Netlist) (x : Component) : (n.node x).pads = x.ports.map n.pad := by
  cases h : x.this <;> simp [Node.pads, node, Component.ports, h]

theorem outlets_node (n : Netlist) (x : Component) :
    (n.node x).outlets = x.exits.values.map n.outlet := by
  simp [Node.outlets, node, OrderedMap.values]

theorem outlet?_node (n : Netlist) (x : Component) (tag : ExitTag) :
    (n.node x).outlet? tag = (x.exits.find? tag).map n.outlet := by
  simp only [Node.outlet?, node, OrderedMap.find?, List.find?_map, Option.map_map]
  rfl

/-- The record of a component, apart from what a sheet leaves out. -/
structure Component.DrawnAs (x : Component) (ν : Node) : Prop where
  kind : x.kind = ν.kind
  owner : x.owner = ν.owner
  clock : x.clock = ν.clock.port
  reset : x.reset = ν.reset.port
  go : x.go = ν.go.port
  this : x.this = ν.this.map Pad.port
  dataPorts : x.dataPorts = ν.data.map Pad.port
  mainExit? : x.mainExit? = (ν.outlet? .done).map Outlet.exit
  exits : x.exits.entries = ν.exits.map fun e => (e.1, e.2.exit)
  interior : x.interior = ν.interior

theorem drawnAs_node (n : Netlist) (x : Component) : x.DrawnAs (n.node x) where
  kind := rfl
  owner := rfl
  clock := rfl
  reset := rfl
  go := rfl
  this := by simp [node, Function.comp_def]
  dataPorts := by simp [node, Function.comp_def]
  mainExit? := by simp [outlet?_node, Component.mainExit?, Function.comp_def]
  exits := by simp [node, Function.comp_def]
  interior := rfl

/-! ### Proper netlists -/

def Ground.scope (Γ : Ground) : Scope where
  pins := Γ.pins
  base := Γ.base
  strict := True
  quiet := False
  mute := False
  guard := pairing Γ.base

/-- A netlist whose additions to the ground have all their links and are in shape. -/
abbrev Proper (Γ : Ground) (n : Netlist) : Prop := Γ.scope.Sound n

/-- Nothing has been added yet. -/
theorem proper_refl (Γ : Ground) : Proper Γ Γ.base :=
  ⟨.refl Γ.pins Γ.base, fun _ => .refl Γ.base, pairing_refl Γ.base⟩

section

variable {Γ : Ground} {c : ComponentId} {ν : Node}

theorem Proper.shape (h : Proper Γ n) : Shaped Γ.base n := h.shaped trivial

theorem Proper.component (h : Proper Γ n) {x : Component} (hx : n.components.get? c = some x)
    (hle : Γ.base.components.size ≤ c.index) : ComponentLinked Γ.pins Γ.base n c x :=
  h.linked.components c x hx hle

/-- A port of a component is there and belongs to it. -/
theorem Proper.port (h : Proper Γ n) {x : Component} (hx : n.components.get? c = some x)
    (hle : Γ.base.components.size ≤ c.index) {p : PortId} (hp : p ∈ x.ports) :
    ∃ y, n.ports.get? p = some y ∧ y.owner = c ∧ Γ.base.ports.size ≤ p.index := by
  have hlinked := h.component hx hle
  have hnew := (Component.forall_refs.mp hlinked.refs).2.1 p hp
  obtain ⟨y, hy⟩ := Arena.exists_get? hnew.2
  exact ⟨y, hy, hlinked.ports p hp y hy, hnew.1⟩

/-- An exit of a component is there and belongs to it. -/
theorem Proper.exit (h : Proper Γ n) {x : Component} (hx : n.components.get? c = some x)
    (hle : Γ.base.components.size ≤ c.index) {e : ExitId} (he : e ∈ x.exits.values) :
    ∃ y, n.exits.get? e = some y ∧ y.owner = c ∧ Γ.base.exits.size ≤ e.index := by
  have hlinked := h.component hx hle
  have hnew := (Component.forall_refs.mp hlinked.refs).2.2.1 e he
  obtain ⟨y, hy⟩ := Arena.exists_get? hnew.2
  obtain ⟨entry, hentry, rfl⟩ := OrderedMap.mem_values.mp he
  exact ⟨y, hy, (hlinked.exits entry hentry y hy).1, hnew.1⟩

/-- What comes next has not been there before. -/
theorem Proper.le_next (h : Proper Γ n) : Γ.base.components.size ≤ (Γ.sheet n).next.index :=
  h.linked.keeps.components.size

theorem Proper.le_fresh (h : Proper Γ n) (k : Nat) :
    Γ.base.components.size ≤ ((Γ.sheet n).fresh k).index :=
  Nat.le_trans h.le_next (Nat.le_add_right _ k)

theorem lt_of_node? {base : Netlist} (h : (sheetOver base n).node? c = some ν) :
    c.index < (sheetOver base n).size := by
  obtain ⟨x, hx, -⟩ := drawn h
  exact Arena.lt_of_get? hx

/-- What the sheet shows is true of the netlist. -/
theorem Proper.has_component (h : (Γ.sheet n).node? c = some ν) :
    Ref.New Γ.base n (.component c) :=
  ⟨le_of_node? h, lt_of_node? h⟩

theorem Proper.has_port (h : Proper Γ n) (hν : (Γ.sheet n).node? c = some ν) {a : Pad}
    (ha : a ∈ ν.pads) : ∃ y, n.ports.get? a.port = some y ∧ y.owner = c ∧ n.pad a.port = a ∧
      Γ.base.ports.size ≤ a.port.index := by
  obtain ⟨x, hx, rfl⟩ := drawn hν
  rw [pads_node] at ha
  obtain ⟨p, hp, rfl⟩ := List.mem_map.mp ha
  obtain ⟨y, hy, howner, hnew⟩ := h.port hx (le_of_node? hν) hp
  exact ⟨y, hy, howner, rfl, hnew⟩

theorem Proper.has_exit (h : Proper Γ n) (hν : (Γ.sheet n).node? c = some ν) {o : Outlet}
    (ho : o ∈ ν.outlets) : ∃ y, n.exits.get? o.exit = some y ∧ y.owner = c ∧
      o = ⟨o.exit, y.done, y.data, y.control, y.peer⟩ ∧ Γ.base.exits.size ≤ o.exit.index := by
  obtain ⟨x, hx, rfl⟩ := drawn hν
  rw [outlets_node] at ho
  obtain ⟨e, he, rfl⟩ := List.mem_map.mp ho
  obtain ⟨y, hy, howner, hnew⟩ := h.exit hx (le_of_node? hν) he
  rw [exit_outlet]
  exact ⟨y, hy, howner, outlet_of_get? hy, hnew⟩

theorem Proper.has_bus (h : Proper Γ n) (hν : (Γ.sheet n).node? c = some ν) {b : BusId}
    (hb : b ∈ ν.buses) : Ref.New Γ.base n (.bus b) := by
  obtain ⟨o, ho, hbo⟩ := Node.mem_buses.mp hb
  obtain ⟨y, hy, -, heq, hnew⟩ := h.has_exit hν ho
  rw [heq] at hbo
  exact (Exit.forall_refs.mp (h.linked.exits _ y hy hnew).refs).2.1 b hbo

theorem Proper.plain (h : Proper Γ n) (hν : (Γ.sheet n).node? c = some ν)
    (hkind : ν.kind.isBuffer = false) : Γ.scope.Holds n (.plain c) := by
  obtain ⟨x, hx, rfl⟩ := drawn hν
  refine ⟨Proper.has_component hν, fun _ hbuf => ?_⟩
  have htrue := h.shape.isBuffer_kind hx hbuf
  exact absurd (htrue.symm.trans hkind) (by simp)

end

/-! ### Steps on sheets -/

section

variable {α β : Type} {Γ : Ground} {σ : Sheet}

/-- In a proper netlist with the sheet `σ` the step succeeds, and it leaves a proper netlist with a
sheet that satisfies `Q`. -/
def Draws (Γ : Ground) (x : Step α) (σ : Sheet) (Q : α → Sheet → Prop) : Prop :=
  ∀ s : Traced Netlist, Proper Γ s.state → Γ.sheet s.state = σ →
    wp x (fun a t => Proper Γ t.state ∧ Q a (Γ.sheet t.state)) (fun _ _ => False) s

namespace Draws

variable {x : Step α} {Q : α → Sheet → Prop}

theorem mono {Q' : α → Sheet → Prop} (h : Draws Γ x σ Q) (hQ : ∀ a τ, Q a τ → Q' a τ) :
    Draws Γ x σ Q' :=
  fun s hs hσ => wp_mono (h s hs hσ) (fun a _ ht => ⟨ht.1, hQ a _ ht.2⟩) fun _ _ h => h

theorem and {Q' : α → Sheet → Prop} (h : Draws Γ x σ Q) (h' : Draws Γ x σ Q') :
    Draws Γ x σ fun a τ => Q a τ ∧ Q' a τ :=
  fun s hs hσ => wp_mono (wp_and (h s hs hσ) (h' s hs hσ))
    (fun _ _ ht => ⟨ht.1.1, ht.1.2, ht.2.2⟩) fun _ _ h => h.1

theorem bind {f : α → Step β} {R : β → Sheet → Prop} (hx : Draws Γ x σ Q)
    (hf : ∀ a τ, Q a τ → Draws Γ (f a) τ R) : Draws Γ (x >>= f) σ R := by
  intro s hs hσ
  rw [wp_bind]
  exact wp_mono (hx s hs hσ) (fun a t ht => hf a _ ht.2 t ht.1 rfl) fun _ _ h => h

/-- Part of a step may be known under a name. -/
theorem bind_assoc {f : α → Step β} {γ : Type} {g : β → Step γ} {R : γ → Sheet → Prop}
    (h : Draws Γ ((x >>= f) >>= g) σ R) : Draws Γ (x >>= fun a => f a >>= g) σ R :=
  LawfulMonad.bind_assoc x f g ▸ h

protected theorem pure {a : α} (h : Q a σ) : Draws Γ (pure a) σ Q :=
  fun _ hs hσ => ⟨hs, hσ ▸ h⟩

theorem log {Q : Unit → Sheet → Prop} (level : Level) (source : Source) (message : String)
    (h : Q () σ) : Draws Γ (Build.log level source message) σ Q :=
  fun _ hs hσ => ⟨hs, hσ ▸ h⟩

theorem discard {Q : Unit → Sheet → Prop} (h : Draws Γ x σ fun _ => Q ()) :
    Draws Γ (discard x) σ Q :=
  fun s hs hσ => wp_discard.mpr (h s hs hσ)

theorem forM {xs : List β} {f : β → Step Unit} {I : Sheet → Prop} (h : I σ)
    (hf : ∀ b ∈ xs, ∀ τ, I τ → Draws Γ (f b) τ fun _ => I) :
    Draws Γ (xs.forM f) σ fun _ => I := by
  intro s hs hσ
  refine wp_forM (I := fun t => Proper Γ t.state ∧ I (Γ.sheet t.state)) ⟨hs, hσ ▸ h⟩
    fun b hb t ht => ?_
  exact hf b hb _ ht.2 t ht.1 rfl

theorem forM_singleton {b : β} {f : β → Step Unit} {Q : Unit → Sheet → Prop}
    (h : Draws Γ (f b) σ Q) : Draws Γ ([b].forM f) σ Q :=
  h.bind fun _ _ hQ => .pure hQ

/-- A sheet shows no component beyond its size. -/
theorem of_bounded (h : σ.Bounded → Draws Γ x σ Q) : Draws Γ x σ Q :=
  fun s hs hσ => h (hσ ▸ fun _ _ hν => lt_of_node? hν) s hs hσ

/-- What the sheet of a proper netlist has may be used. -/
theorem of_proper (h : ∀ n, Proper Γ n → Γ.sheet n = σ → Draws Γ x σ Q) :
    Draws Γ x σ Q :=
  fun s hs hσ => h s.state hs hσ s hs hσ

end Draws

/-- The step only looks at the netlist, and what it sees satisfies `P`. -/
def Sees (Γ : Ground) (x : Step α) (σ : Sheet) (P : α → Prop) : Prop :=
  ∀ s : Traced Netlist, Proper Γ s.state → Γ.sheet s.state = σ →
    wp x (fun a t => t = s ∧ P a) (fun _ _ => False) s

section

variable {x : Step α} {f : α → Step β} {P : α → Prop} {R : β → Sheet → Prop}

theorem Draws.look (hx : Sees Γ x σ P) (hf : ∀ a, P a → Draws Γ (f a) σ R) :
    Draws Γ (x >>= f) σ R := by
  intro s hs hσ
  rw [wp_bind]
  refine wp_mono (hx s hs hσ) (fun a t ht => ?_) fun _ _ h => h
  obtain ⟨rfl, ha⟩ := ht
  exact hf a ha t hs hσ

theorem Draws.read {v : α} (hx : Sees Γ x σ (· = v)) (hf : Draws Γ (f v) σ R) :
    Draws Γ (x >>= f) σ R :=
  .look hx fun _ ha => ha ▸ hf

theorem Sees.mono {P' : α → Prop} (hx : Sees Γ x σ P) (hP : ∀ a, P a → P' a) :
    Sees Γ x σ P' :=
  fun s hs hσ => wp_mono (hx s hs hσ) (fun a _ ht => ⟨ht.1, hP a ht.2⟩) fun _ _ h => h

theorem Sees.bind {P' : β → Prop} (hx : Sees Γ x σ P)
    (hf : ∀ a, P a → Sees Γ (f a) σ P') : Sees Γ (x >>= f) σ P' := by
  intro s hs hσ
  rw [wp_bind]
  refine wp_mono (hx s hs hσ) (fun a t ht => ?_) fun _ _ h => h
  obtain ⟨rfl, ha⟩ := ht
  exact hf a ha t hs hσ

protected theorem Sees.pure {a : α} (h : P a) : Sees Γ (pure a) σ P := fun _ _ _ => ⟨rfl, h⟩

theorem Sees.expect {a : Abort} {o : Option α} {y : α} (ho : o = some y) (h : P y) :
    Sees Γ (Build.expect a o) σ P := by
  subst ho
  exact .pure h

/-- What is seen of several things, one after the other. -/
theorem Sees.mapM {xs : List β} {f : β → Step α} {R : β → α → Prop}
    (hf : ∀ b ∈ xs, Sees Γ (f b) σ (R b)) :
    Sees Γ (xs.mapM f) σ fun ys => ∀ y ∈ ys, ∃ b ∈ xs, R b y :=
  fun s hs hσ => wp_mono (wp_mapM_reads fun b hb => hf b hb s hs hσ)
    (fun _ _ ht => ⟨ht.1, ht.2.1⟩) fun _ _ h => h

theorem Sees.foldlM {xs : List β} {f : α → β → Step α} {a : α} {I : α → Prop} (h : I a)
    (hf : ∀ b ∈ xs, ∀ a, I a → Sees Γ (f a b) σ I) : Sees Γ (xs.foldlM f a) σ I := by
  intro s hs hσ
  refine wp_foldlM (I := fun a t => t = s ∧ I a) ⟨rfl, h⟩ fun b hb a t ht => ?_
  obtain ⟨rfl, ha⟩ := ht
  exact hf b hb a ha t hs hσ

theorem Sees.draws (hx : Sees Γ x σ P) : Draws Γ x σ fun a τ => τ = σ ∧ P a := by
  intro s hs hσ
  refine wp_mono (hx s hs hσ) (fun a t ht => ?_) fun _ _ h => h
  obtain ⟨rfl, ha⟩ := ht
  exact ⟨hs, hσ, ha⟩

end

/-- The fact can be read off the sheet. -/
inductive Sheet.Tells (σ : Sheet) : Fact → Prop where
  | component {c : ComponentId} {ν : Node} (h : σ.node? c = some ν) : Tells σ (.has (.component c))
  | port {c : ComponentId} {ν : Node} {a : Pad} (h : σ.node? c = some ν) (ha : a ∈ ν.pads) :
      Tells σ (.has (.port a.port))
  | bus {b : BusId} (h : σ.Gives b) : Tells σ (.has (.bus b))
  | exit {c : ComponentId} {ν : Node} {o : Outlet} (h : σ.node? c = some ν) (ho : o ∈ ν.outlets) :
      Tells σ (.has (.exit o.exit))
  | plain {c : ComponentId} {ν : Node} (h : σ.node? c = some ν) (hkind : ν.kind.isBuffer = false) :
      Tells σ (.plain c)
  | plainExit {c : ComponentId} {ν : Node} {o : Outlet} (h : σ.node? c = some ν)
      (hkind : ν.kind.isBuffer = false) (ho : o ∈ ν.outlets) : Tells σ (.plainExit o.exit)

theorem Sheet.Tells.holds {f : Fact} (h : σ.Tells f) (hn : Proper Γ n) (hσ : Γ.sheet n = σ) :
    Γ.scope.Holds n f := by
  subst hσ
  cases h with
  | component h => exact Proper.has_component h
  | port h ha =>
      obtain ⟨y, hy, -, -, hnew⟩ := hn.has_port h ha
      exact ⟨hnew, Arena.lt_of_get? hy⟩
  | bus h =>
      obtain ⟨d, μ, hμ, hb⟩ := h
      exact hn.has_bus hμ hb
  | exit h ho =>
      obtain ⟨y, hy, -, -, hnew⟩ := hn.has_exit h ho
      exact ⟨hnew, Arena.lt_of_get? hy⟩
  | plain h hkind => exact hn.plain h hkind
  | plainExit h hkind ho =>
      obtain ⟨y, hy, howner, -, hnew⟩ := hn.has_exit h ho
      refine ⟨⟨hnew, Arena.lt_of_get? hy⟩, fun hstrict y' hy' => ?_⟩
      cases hy.symm.trans hy'
      rw [howner]
      exact (hn.plain h hkind).2 hstrict

/-- A step that is known to keep the netlist proper has to answer for its effect on the sheet only. -/
theorem Draws.of_safe {x : Step α} {Q : α → Sheet → Prop} {K : List Fact} {P : α → List Fact}
    (hsafe : Safe Γ.scope K x P) (hK : ∀ f ∈ K, σ.Tells f)
    (hx : ∀ s : Traced Netlist, Proper Γ s.state → Γ.sheet s.state = σ →
      wp x (fun a t => Q a (Γ.sheet t.state)) (fun _ _ => False) s) : Draws Γ x σ Q := by
  intro s hs hσ
  have hknows : Γ.scope.Knows K s.state :=
    ⟨hs, fun f hf => (hK f hf).holds hs hσ⟩
  exact wp_mono (wp_and (hsafe s hknows) (hx s hs hσ)) (fun _ _ h => ⟨h.1.1.sound, h.2⟩)
    fun _ _ h => h.2

end

end DataflowSynth.Netlist
