/-
Exits and modules are made in shape.

An exit of a module comes with its OutBuf and a module with its InBuf.  What is left in the arena when
they are complete is all that counts; in between, the buffers are components like any other.
-/
import DataflowSynth.Proofs.Netlist.Outcomes

namespace DataflowSynth.Netlist

variable {pins : Nat} {base n n' : Netlist} {c : ComponentId} {x : Component} {tag : ExitTag}

/-! ### New components -/

theorem keeps_shelled (n : Netlist) (kind : ComponentKind) (stem : String) :
    n.Keeps (n.shelled kind stem) := keeps_withShell n kind _ _

theorem nodup_ports_shell (n : Netlist) (kind : ComponentKind) (stem : String) :
    (n.shell kind stem).ports.Nodup := by
  simp [Component.ports, shell, Handle.eq_iff_index]

theorem portRole?_shelled (n : Netlist) (kind : ComponentKind) (stem : String) :
    (n.shelled kind stem).portRole? (n.shell kind stem).clock = some .clock ∧
      (n.shelled kind stem).portRole? (n.shell kind stem).reset = some .reset ∧
      (n.shelled kind stem).portRole? (n.shell kind stem).go = some .go := by
  simp [portRole?, get?_ports_shelled, shell, Port.new]

/-- The three ports of a new component. -/
theorem port_of_shelled {kind : ComponentKind} {stem : String} {p : PortId} {y : Port}
    (hy : (n.shelled kind stem).ports.get? p = some y) :
    n.ports.get? p = some y ∨
      n.ports.size ≤ p.index ∧ y.owner = n.components.next ∧ p ∈ (n.shell kind stem).ports := by
  rcases Nat.lt_or_ge p.index n.ports.size with hlt | hge
  · exact .inl ((keeps_shelled n kind stem).ports.get? p hlt ▸ hy)
  · rw [get?_ports_shelled] at hy
    refine .inr ⟨hge, ?_⟩
    simp only [Component.ports, shell, Option.toList_none, List.append_nil, List.mem_cons,
      List.not_mem_nil, or_false, Handle.eq_iff_index]
    split at hy
    · next heq =>
      cases hy
      exact ⟨rfl, .inr (.inr heq)⟩
    split at hy
    · next heq =>
      cases hy
      exact ⟨rfl, .inr (.inl heq)⟩
    split at hy
    · next heq =>
      cases hy
      exact ⟨rfl, .inl heq⟩
    · exact absurd hge (Nat.not_le_of_lt (Arena.lt_of_get? hy))

/-- A component with the three ports of a new one is in shape if its exits and its interior are. -/
theorem ComponentShaped.of_shell (kind : ComponentKind) (stem : String) {b : Component}
    (hr : ∀ p r, (n.shelled kind stem).portRole? p = some r → n'.portRole? p = some r)
    (hclock : b.clock = (n.shell kind stem).clock) (hreset : b.reset = (n.shell kind stem).reset)
    (hgo : b.go = (n.shell kind stem).go) (hthis : b.this = none) (hdata : b.dataPorts = [])
    (htags : b.exits.keys.Nodup)
    (houtBufs : ∀ e ∈ b.exits.values, ∀ y, n'.exits.get? e = some y →
      y.peer.isSome = b.interior.isSome)
    (hinterior : ∀ i, b.interior = some i → InteriorShaped n' c b i) : ComponentShaped n' c b := by
  obtain ⟨hclock', hreset', hgo'⟩ := portRole?_shelled n kind stem
  refine ⟨?_, ?_, ?_, ?_, by simp [hthis], by simp [hdata], htags, houtBufs, hinterior⟩
  · rw [Component.ports, hclock, hreset, hgo, hthis, hdata]
    exact nodup_ports_shell n kind stem
  · rw [hclock]
    exact hr _ _ hclock'
  · rw [hreset]
    exact hr _ _ hreset'
  · rw [hgo]
    exact hr _ _ hgo'

/-! ### Exits -/

theorem exitAdded_withExit (hx : n.components.get? c = some x) (hi : x.interior = none)
    (tag : ExitTag) :
    ExitAdded n (n.withExit c tag) c x tag { owner := c, tag, done := n.buses.next } where
  others d hne _ := Arena.get?_modify_of_ne _ (Ne.symm hne) _
  self := get?_withExit_self tag hx
  exits := (Arena.Keeps.refl _).push _
  exit := Arena.get?_push_next _ _
  only e y hy hle := by
    rcases Arena.get?_push_cases hy with ⟨rfl, -⟩ | hy
    · rfl
    · exact absurd hle (Nat.not_le_of_lt (Arena.lt_of_get? hy))
  ports := .refl _
  buses := (Arena.Keeps.refl _).push _
  owner := rfl
  done := by simp [busRole?, withExit, Bus.new]
  data := rfl
  control := rfl
  peer := by simp [hi]
  outBuf := by simp
  made d y hy hle := by
    have hlt := Arena.lt_of_get? hy
    simp only [withExit, Arena.size_modify] at hlt
    exact absurd hle (Nat.not_le_of_lt hlt)
  listed p y hy hle := absurd hle (Nat.not_le_of_lt (Arena.lt_of_get? hy))

section

variable (n : Netlist) (c : ComponentId) (x : Component) (e : ExitId) (done : BusId)

theorem get?_withOutBuf (d : ComponentId) : (n.withOutBuf c x e done).components.get? d =
    if d = n.components.next then
      some { n.shell .outBuf (x.name ++ "_outbuf") with
        owner := some c, consumesGo := x.producesDone }
    else n.components.get? d := by
  simp only [withOutBuf, buffered, components_paired, components_shelled, Arena.get?_modify,
    Arena.get?_push]
  split <;> rfl

theorem exits_withOutBuf : (n.withOutBuf c x e done).exits =
    n.exits.modify e fun y => { y with peer := some n.components.next } := by
  simp [withOutBuf, buffered]

theorem keeps_ports_withOutBuf : n.ports.Keeps (n.withOutBuf c x e done).ports where
  size := by
    simp only [withOutBuf, buffered, size_ports_paired]
    exact (keeps_shelled n _ _).ports.size
  get? p hlt := by
    have hne : p ≠ ⟨n.ports.size + 2⟩ := by
      rintro rfl
      exact absurd hlt (Nat.not_lt.mpr (Nat.le_add_right _ 2))
    simp only [withOutBuf, buffered, get?_ports_paired _ _ _ hne]
    exact (keeps_shelled n _ _).ports.get? p hlt

theorem port_of_withOutBuf {p : PortId} {y : Port}
    (hy : (n.withOutBuf c x e done).ports.get? p = some y) (hge : n.ports.size ≤ p.index) :
    y.owner = n.components.next ∧ p ∈ (n.shell .outBuf (x.name ++ "_outbuf")).ports ∧
      (p.index = n.ports.size + 2 → y.peer = some done) := by
  obtain ⟨z, hz, howner, hpeer⟩ := port_of_paired _ _ _ hy
  rcases port_of_shelled hz with hz | ⟨-, hz, hmem⟩
  · exact absurd hge (Nat.not_le_of_lt (Arena.lt_of_get? hz))
  · refine ⟨howner.trans hz, hmem, fun heq => ?_⟩
    rw [hpeer, if_pos (Handle.ext_index heq)]

theorem portRole?_withOutBuf (p : PortId) : (n.withOutBuf c x e done).portRole? p =
    (n.shelled .outBuf (x.name ++ "_outbuf")).portRole? p :=
  portRole?_paired _ _ _ p

theorem busRole?_withOutBuf (b : BusId) :
    (n.withOutBuf c x e done).busRole? b = n.busRole? b :=
  busRole?_paired _ _ _ b

end

/-- The netlist with a new exit of a module. -/
def withModuleExit (n : Netlist) (c : ComponentId) (x : Component) (tag : ExitTag) : Netlist :=
  (n.withExit c tag).withOutBuf c { x with exits := x.exits.put tag n.exits.next } n.exits.next
    n.buses.next

/-- The OutBuf of `withModuleExit`. -/
def newOutBuf (n : Netlist) (c : ComponentId) (x : Component) (tag : ExitTag) : Component :=
  { (n.withExit c tag).shell .outBuf (x.name ++ "_outbuf") with
    owner := some c, consumesGo := x.producesDone }

@[simp] theorem next_components_withExit (n : Netlist) (c : ComponentId) (tag : ExitTag) :
    (n.withExit c tag).components.next = n.components.next :=
  Handle.ext_index (by simp [withExit])

theorem get?_withModuleExit (n : Netlist) (c : ComponentId) (x : Component) (tag : ExitTag)
    (d : ComponentId) : (n.withModuleExit c x tag).components.get? d =
      if d = n.components.next then some (n.newOutBuf c x tag)
      else (n.withExit c tag).components.get? d := by
  rw [withModuleExit, get?_withOutBuf, next_components_withExit]
  rfl

theorem get?_withModuleExit_next (n : Netlist) (c : ComponentId) (x : Component) (tag : ExitTag) :
    (n.withModuleExit c x tag).components.get? n.components.next =
      some (n.newOutBuf c x tag) := by
  rw [get?_withModuleExit, if_pos rfl]

theorem exits_withModuleExit (n : Netlist) (c : ComponentId) (x : Component) (tag : ExitTag) :
    (n.withModuleExit c x tag).exits = (n.withExit c tag).exits.modify n.exits.next fun y =>
      { y with peer := some n.components.next } := by
  rw [withModuleExit, exits_withOutBuf, next_components_withExit]

theorem shaped_newOutBuf (n : Netlist) (c : ComponentId) (x : Component) (tag : ExitTag)
    (o : ComponentId) : ComponentShaped (n.withModuleExit c x tag) o (n.newOutBuf c x tag) := by
  refine .of_shell (n := n.withExit c tag) .outBuf (x.name ++ "_outbuf")
    (fun p r hp => ?_) rfl rfl rfl rfl rfl (by simp [newOutBuf, shell])
    (by simp [newOutBuf, shell]) (by simp [newOutBuf, shell])
  exact (portRole?_withOutBuf _ _ _ _ _ p).trans hp

theorem exitAdded_withModuleExit (hx : n.components.get? c = some x) {i : Interior}
    (hi : x.interior = some i) (tag : ExitTag) :
    ExitAdded n (n.withModuleExit c x tag) c x tag
      { owner := c, tag, done := n.buses.next, peer := some n.components.next } where
  others d hne hlt := by
    have hd : d ≠ n.components.next := by
      rintro rfl
      simp at hlt
    rw [get?_withModuleExit, if_neg hd]
    exact Arena.get?_modify_of_ne _ (Ne.symm hne) _
  self := by
    have hc : c ≠ n.components.next := by
      rintro rfl
      exact absurd (Arena.lt_of_get? hx) (by simp)
    rw [get?_withModuleExit, if_neg hc, get?_withExit_self tag hx]
  exits := by
    rw [exits_withModuleExit]
    exact ((Arena.Keeps.refl _).push _).modify (by simp) _
  exit := by
    rw [exits_withModuleExit, Arena.get?_modify_self]
    simp [withExit]
  only e y hy hle := by
    have hlt := Arena.lt_of_get? hy
    rw [exits_withModuleExit] at hlt
    simp only [Arena.size_modify, withExit, Arena.size_push] at hlt
    exact Handle.ext_index (Nat.le_antisymm (Nat.le_of_lt_succ hlt) hle)
  ports := keeps_ports_withOutBuf (n.withExit c tag) _ _ _ _
  buses := by
    refine ⟨?_, fun b hlt => ?_⟩
    · simp [withModuleExit, withOutBuf, buffered, withExit]
    · have hb : b ≠ n.buses.next := by
        rintro rfl
        simp at hlt
      simp only [withModuleExit, withOutBuf, buffered]
      rw [get?_buses_paired _ _ _ hb]
      exact ((Arena.Keeps.refl n.buses).push _).get? b hlt
  owner := rfl
  done := by
    rw [withModuleExit, busRole?_withOutBuf]
    simp [busRole?, withExit, Bus.new]
  data := rfl
  control := rfl
  peer := by simp [hi]
  outBuf o ho := by
    obtain rfl := Option.some.inj ho
    refine ⟨by simp, _, get?_withModuleExit_next n c x tag, shaped_newOutBuf n c x tag _,
      rfl, rfl, rfl, rfl, rfl, rfl, fun g hg => ?_⟩
    exact (port_of_withOutBuf _ _ _ _ _ hg (by simp [newOutBuf, shell])).2.2 rfl
  made d y hy hle := by
    by_cases heq : d = n.components.next
    · rw [heq]
    · rw [get?_withModuleExit, if_neg heq] at hy
      have hlt := Arena.lt_of_get? hy
      simp only [withExit, Arena.size_modify] at hlt
      exact absurd hle (Nat.not_le_of_lt hlt)
  listed p y hy hle := by
    obtain ⟨howner, hmem, -⟩ := port_of_withOutBuf _ _ _ _ _ hy hle
    rw [howner, next_components_withExit]
    exact ⟨_, get?_withModuleExit_next n c x tag, hmem⟩

/-! ### Modules -/

section

variable (n : Netlist) (e : ExitId) (control : Control) (p : PortId)

@[simp] theorem components_withControl :
    (n.withControl e control p).components = n.components := by
  simp [withControl, withControlBus]

@[simp] theorem exits_withControl : (n.withControl e control p).exits =
    n.exits.modify e fun y => { y with control := y.control ++ [n.buses.next] } := by
  simp [withControl, withControlBus]

@[simp] theorem size_buses_withControl :
    (n.withControl e control p).buses.size = n.buses.size + 1 := by
  simp [withControl, withControlBus]

theorem portRole?_withControl (q : PortId) :
    (n.withControl e control p).portRole? q = n.portRole? q :=
  portRole?_paired _ _ _ q

theorem busRole?_withControl (b : BusId) : (n.withControl e control p).busRole? b =
    if b = n.buses.next then some control.role else n.busRole? b := by
  rw [withControl, busRole?_paired, busRole?, busRole?]
  simp only [withControlBus, Arena.get?_push]
  split <;> rfl

theorem owner_of_withControl {q : PortId} {y : Port}
    (hy : (n.withControl e control p).ports.get? q = some y) :
    ∃ x, n.ports.get? q = some x ∧ y.owner = x.owner := by
  obtain ⟨x, hx, howner, -⟩ := port_of_paired _ _ _ hy
  exact ⟨x, hx, howner⟩

end

section

variable (n : Netlist) (m : ComponentId) (x : Component)

/-- The InBuf of `withInBuf`. -/
def newInBuf : Component :=
  { n.shell .inBuf (x.name ++ "_inbuf") with
    owner := some m
    exits := OrderedMap.put ∅ .done n.exits.next
    producesDone := x.consumesGo }

/-- The exit of the InBuf of `withInBuf`. -/
def newInBufExit : Exit where
  owner := n.components.next
  tag := .done
  done := n.buses.next
  control := [⟨n.buses.size + 1⟩, ⟨n.buses.size + 2⟩]

theorem get?_withInBuf (hx : n.components.get? m = some x) (d : ComponentId) :
    (n.withInBuf m x).components.get? d =
      if d = m then some { x with interior := some { inBuf := n.components.next } }
      else if d = n.components.next then some (n.newInBuf m x)
      else n.components.get? d := by
  have hm : m ≠ n.components.next := by
    rintro rfl
    exact absurd (Arena.lt_of_get? hx) (by simp)
  simp only [withInBuf, withInBufBuses, components_withControl, components_paired, withExit, buffered,
    components_shelled, Arena.get?_modify, Arena.get?_push]
  by_cases hd : d = m
  · simp [hd, hm, hx]
  · by_cases hnext : d = n.components.next
    · simp only [if_neg hd, if_pos hnext]
      rfl
    · simp [hd, hnext]

theorem get?_exits_withInBuf (e : ExitId) : (n.withInBuf m x).exits.get? e =
    if e = n.exits.next then some n.newInBufExit else n.exits.get? e := by
  simp only [withInBuf, withInBufBuses, exits_withControl, exits_paired, withExit, buffered,
    exits_shelled, Arena.get?_modify, Arena.get?_push]
  by_cases he : e = n.exits.next
  · simp only [if_pos he, Option.map_some, newInBufExit, List.nil_append, List.cons_append]
    simp [Handle.eq_iff_index]
  · simp [he]

theorem ports_withInBuf : (n.withInBuf m x).ports = (n.withInBufBuses m x).ports := rfl

theorem buses_withInBuf : (n.withInBuf m x).buses = (n.withInBufBuses m x).buses := rfl

theorem portRole?_withInBuf (p : PortId) : (n.withInBuf m x).portRole? p =
    (n.shelled .inBuf (x.name ++ "_inbuf")).portRole? p := by
  rw [portRole?, ports_withInBuf, ← portRole?, withInBufBuses, portRole?_withControl,
    portRole?_withControl, portRole?_paired]
  simp only [portRole?, withExit, buffered]

theorem owner_of_withInBuf {p : PortId} {y : Port}
    (hy : (n.withInBuf m x).ports.get? p = some y) :
    ∃ z, (n.shelled .inBuf (x.name ++ "_inbuf")).ports.get? p = some z ∧ y.owner = z.owner := by
  rw [ports_withInBuf, withInBufBuses] at hy
  obtain ⟨y₁, hy₁, h₁⟩ := owner_of_withControl _ _ _ _ hy
  obtain ⟨y₂, hy₂, h₂⟩ := owner_of_withControl _ _ _ _ hy₁
  obtain ⟨y₃, hy₃, h₃, -⟩ := port_of_paired _ _ _ hy₂
  exact ⟨y₃, hy₃, h₁.trans (h₂.trans h₃)⟩

theorem busRole?_withInBuf (b : BusId) : (n.withInBuf m x).busRole? b =
    if b.index = n.buses.size + 2 then some .reset
    else if b.index = n.buses.size + 1 then some .clock
    else if b.index = n.buses.size then some .done
    else n.busRole? b := by
  rw [busRole?, buses_withInBuf, ← busRole?, withInBufBuses, busRole?_withControl,
    busRole?_withControl, busRole?_paired]
  simp only [Handle.eq_iff_index, Arena.next_index, size_buses_withControl, size_buses_paired,
    withExit, buffered, buses_shelled, Arena.size_push, busRole?, Arena.get?_push_index, Nat.add_assoc,
    Control.role]
  split
  · rfl
  split
  · rfl
  split <;> rfl

end

/-- The module of `withModule`. -/
def newModuleComponent (n : Netlist) (kind : ModuleKind) (stem : String) : Component :=
  { n.shell (.module kind) stem with interior := some { inBuf := ⟨n.components.size + 1⟩ } }

theorem get?_withModule (n : Netlist) (kind : ModuleKind) (stem : String) (d : ComponentId) :
    (n.withModule kind stem).components.get? d =
      if d.index = n.components.size then some (n.newModuleComponent kind stem)
      else if d.index = n.components.size + 1 then
        some ((n.shelled (.module kind) stem).newInBuf n.components.next
          (n.shell (.module kind) stem))
      else n.components.get? d := by
  have hnext : (n.shelled (.module kind) stem).components.next = ⟨n.components.size + 1⟩ := by
    simp [components_shelled, Handle.eq_iff_index]
  rw [withModule, get?_withInBuf _ _ _ (get?_shelled_next _ _ _), hnext]
  simp only [Handle.eq_iff_index, Arena.next_index, components_shelled, Arena.get?_push_index]
  split
  · rfl
  split <;> rfl

theorem get?_exits_withModule (n : Netlist) (kind : ModuleKind) (stem : String) (e : ExitId) :
    (n.withModule kind stem).exits.get? e =
      if e = n.exits.next then some (n.shelled (.module kind) stem).newInBufExit
      else n.exits.get? e := by
  rw [withModule, get?_exits_withInBuf, exits_shelled]

theorem portRole?_withModule (n : Netlist) (kind : ModuleKind) (stem : String) :
    SameRoles (n.shelled (.module kind) stem) (n.withModule kind stem) where
  ports p r hr := by
    rw [withModule, portRole?_withInBuf]
    exact (SameRoles.of_keeps (keeps_shelled _ _ _)).ports p r hr
  buses b r hr := by
    obtain ⟨z, hz, rfl⟩ := Option.map_eq_some_iff.mp hr
    have hlt := Arena.lt_of_get? hz
    rw [withModule, busRole?_withInBuf, if_neg (by omega), if_neg (by omega), if_neg (by omega)]
    exact hr

section

variable (n : Netlist) (kind : ModuleKind) (stem : String)

/-- The InBuf of `withModule`. -/
def moduleInBuf : Component :=
  (n.shelled (.module kind) stem).newInBuf n.components.next (n.shell (.module kind) stem)

theorem get?_withModule_next : (n.withModule kind stem).components.get? n.components.next =
    some (n.newModuleComponent kind stem) := by
  simp [get?_withModule]

theorem get?_withModule_inBuf :
    (n.withModule kind stem).components.get? ⟨n.components.size + 1⟩ =
      some (n.moduleInBuf kind stem) := by
  simp [get?_withModule, moduleInBuf]

theorem get?_exits_withModule_next : (n.withModule kind stem).exits.get? n.exits.next =
    some (n.shelled (.module kind) stem).newInBufExit := by
  rw [get?_exits_withModule, if_pos rfl]

theorem shaped_newModuleComponent : ComponentShaped (n.withModule kind stem) n.components.next
    (n.newModuleComponent kind stem) := by
  refine .of_shell (n := n) (.module kind) stem
    (portRole?_withModule n kind stem).ports rfl rfl rfl rfl rfl
    (by simp [newModuleComponent, shell]) (by simp [newModuleComponent, shell]) fun i hi => ?_
  obtain rfl := Option.some.inj hi
  refine ⟨rfl, ⟨_, _, _, get?_withModule_inBuf n kind stem, get?_exits_withModule_next n kind stem,
    rfl, rfl, rfl, rfl, rfl, rfl, rfl, rfl, ?_⟩, by simp, by simp, by simp⟩
  simp [newInBufExit, Netlist.withModule, busRole?_withInBuf, controlRoles, newModuleComponent, shell]

theorem shaped_moduleInBuf : ComponentShaped (n.withModule kind stem) ⟨n.components.size + 1⟩
    (n.moduleInBuf kind stem) := by
  refine .of_shell (n := n.shelled (.module kind) stem) .inBuf
    ((n.shell (.module kind) stem).name ++ "_inbuf")
    (fun p r hp => (portRole?_withInBuf _ _ _ p).trans hp) rfl rfl rfl rfl rfl
    (OrderedMap.keys_nodup_put (by simp) _ _) (fun e he y hy => ?_)
    (by simp [moduleInBuf, newInBuf, shell])
  obtain rfl : e = n.exits.next := by
    simpa [moduleInBuf, newInBuf, OrderedMap.put, OrderedMap.erase, OrderedMap.values] using he
  cases (get?_exits_withModule_next n kind stem).symm.trans hy
  rfl

theorem shaped_moduleInBufExit : ExitShaped n (n.withModule kind stem)
    (n.shelled (.module kind) stem).newInBufExit := by
  refine ⟨?_, ?_, ?_, fun _ => ?_, by simp [newInBufExit], by simp [newInBufExit]⟩
  · simp [Exit.buses, newInBufExit, Handle.eq_iff_index]
  · simp [newInBufExit, Netlist.withModule, busRole?_withInBuf]
  · simp [newInBufExit]
  · refine ⟨_, _, _, get?_withModule_next n kind stem, by simp, rfl, ?_⟩
    simp [newInBufExit, components_shelled, Handle.eq_iff_index]

/-- A new module has its shape. -/
theorem Shaped.withModule : Shaped n (n.withModule kind stem) where
  components c x hx hle := by
    rw [get?_withModule] at hx
    split at hx
    · next heq =>
      obtain rfl : c = n.components.next := Handle.ext_index heq
      cases hx
      exact shaped_newModuleComponent n kind stem
    split at hx
    · next heq =>
      obtain rfl : c = ⟨n.components.size + 1⟩ := Handle.ext_index heq
      cases hx
      exact shaped_moduleInBuf n kind stem
    · exact absurd hle (Nat.not_le_of_lt (Arena.lt_of_get? hx))
  exits e y hy hle := by
    rw [get?_exits_withModule] at hy
    split at hy
    · cases hy
      exact shaped_moduleInBufExit n kind stem
    · exact absurd hle (Nat.not_le_of_lt (Arena.lt_of_get? hy))
  ports p y hy hle := by
    obtain ⟨z, hz, howner⟩ := owner_of_withInBuf _ _ _ hy
    rcases port_of_shelled hz with hz | ⟨-, hz, hmem⟩
    · rcases port_of_shelled hz with hz | ⟨-, hz, hmem⟩
      · exact absurd hle (Nat.not_le_of_lt (Arena.lt_of_get? hz))
      · rw [howner, hz]
        exact ⟨_, get?_withModule_next n kind stem, hmem⟩
    · have hnext : (n.shelled (.module kind) stem).components.next = ⟨n.components.size + 1⟩ := by
        simp [components_shelled, Handle.eq_iff_index]
      rw [howner, hz, hnext]
      exact ⟨_, get?_withModule_inBuf n kind stem, hmem⟩

end

end DataflowSynth.Netlist
