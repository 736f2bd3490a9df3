/-
Every exit of a module has its OutBuf.

An OutBuf comes with the exit of a module and goes with it, and a component that is no module when it
is made never becomes one.  In addition the clock, the reset and the go of a component are three ports,
since nothing puts another port in their place.  All of this holds however buffers are treated.
-/
import DataflowSynth.Proofs.Netlist.Lasting

namespace DataflowSynth.Netlist

open Build

/-! ### OutBufs -/

namespace Holdings

/-- The exits of modules have OutBufs, and only what is made as a module is one. -/
structure Docked (h : Holdings) : Prop where
  outBufs : ∀ m t e, (h.interior? m).isSome → (t, e) ∈ h.exits m → (h.peer? e).isSome
  modules : ∀ m, (h.interior? m).isSome → ∃ k, h.kind? m = some k ∧ k.isModule = true

variable {h : Holdings} {c m o : ComponentId} {i : Interior} {e : ExitId} {t : ExitTag}

theorem Docked.newcomer (hd : h.Docked) (hc : h.kind? c = none) (kind : ComponentKind) :
    (h.newcomer c kind).Docked where
  outBufs := hd.outBufs
  modules d hi := by
    obtain ⟨k, hk, hmodule⟩ := hd.modules d hi
    have hne : d ≠ c := by
      rintro rfl
      rw [hc] at hk
      cases hk
    exact ⟨k, by simpa [Holdings.newcomer, hne] using hk, hmodule⟩

theorem Docked.rehold (hd : h.Docked) (hi : h.interior? m = some i) (j : Interior)
    (c : ComponentId) (owner : Option ComponentId) : (h.rehold m j c owner).Docked := by
  have hsame : ∀ d, ((h.rehold m j c owner).interior? d).isSome → (h.interior? d).isSome := by
    intro d hsome
    by_cases heq : d = m
    · rw [heq, hi, Option.isSome_some]
    · simpa [Holdings.rehold, heq] using hsome
  exact ⟨fun d u x hsome => hd.outBufs d u x (hsame d hsome),
    fun d hsome => hd.modules d (hsame d hsome)⟩

theorem Docked.withExit (hd : h.Docked) (hi : h.interior? c = none) (t : ExitTag) (e : ExitId) :
    (h.withExit c t e).Docked where
  outBufs d u x hsome hx := by
    have hne : d ≠ c := by
      rintro rfl
      rw [show (h.withExit d t e).interior? d = h.interior? d from rfl, hi] at hsome
      cases hsome
    exact hd.outBufs d u x hsome (by simpa [Holdings.withExit, hne] using hx)
  modules := hd.modules

/-- A module gets an exit together with its OutBuf. -/
theorem Docked.withModuleExit (hd : h.Docked) (ho : h.kind? o = none) (c : ComponentId)
    (t : ExitTag) (e : ExitId) :
    (((h.withExit c t e).newcomer o .outBuf).withOutBuf c e o).Docked where
  outBufs d u x hsome hx := by
    by_cases he : x = e
    · simp [Holdings.withOutBuf, he]
    · have hold : (u, x) ∈ h.exits d := by
        simp only [Holdings.withOutBuf, Holdings.newcomer, Holdings.withExit] at hx
        split at hx
        · simpa [he] using hx
        · exact hx
      simpa [Holdings.withOutBuf, Holdings.newcomer, Holdings.withExit, he] using
        hd.outBufs d u x hsome hold
  modules := (hd.newcomer ho .outBuf).modules

/-- An exit is taken off together with its OutBuf, if it has one. -/
theorem Docked.withoutExit (hd : h.Docked) (ho : h.Owned) (hmem : (t, e) ∈ h.exits c)
    (h' : Holdings) (hkind : h'.kind? = h.kind?) (hinterior : h'.interior? = h.interior?)
    (hexits : h'.exits = h.exits) (hpeer : ∀ x, x ≠ e → h'.peer? x = h.peer? x) :
    (h'.withoutExit c t).Docked where
  outBufs d u x hsome hx := by
    have hold : (u, x) ∈ h.exits d ∧ x ≠ e := by
      have hx' : (u, x) ∈ h.exits d ∧ (d = c → u ≠ t) := by
        simp only [Holdings.withoutExit, hexits] at hx
        split at hx
        · simpa [*] using hx
        · exact ⟨hx, fun heq => absurd heq ‹_›⟩
      refine ⟨hx'.1, ?_⟩
      rintro rfl
      -- No other component has the exit, and this one has it under no other tag.
      obtain ⟨rfl, rfl⟩ := Prod.mk.inj (Option.some.inj
        ((ho.origin d u x hx'.1).symm.trans (ho.origin c t x hmem)))
      exact hx'.2 rfl rfl
    rw [show (h'.withoutExit c t).peer? x = h'.peer? x from rfl, hpeer x hold.2]
    exact hd.outBufs d u x (by simpa [Holdings.withoutExit, hinterior] using hsome) hold.1
  modules d hsome := by
    have hd' := hd.modules d (by simpa [Holdings.withoutExit, hinterior] using hsome)
    simpa [Holdings.withoutExit, hkind] using hd'

/-- A component without exits becomes a module. -/
theorem Docked.withInBuf (hd : h.Docked) {k : ComponentKind} (hk : h.kind? m = some k)
    (hmodule : k.isModule = true) (hexits : h.exits m = []) (b : ComponentId) :
    (h.withInBuf m b).Docked where
  outBufs d u x hsome hx := by
    have hne : d ≠ m := by
      rintro rfl
      rw [show (h.withInBuf d b).exits d = h.exits d from rfl, hexits] at hx
      cases hx
    exact hd.outBufs d u x (by simpa [Holdings.withInBuf, hne] using hsome) hx
  modules d hsome := by
    by_cases heq : d = m
    · exact ⟨k, heq ▸ hk, hmodule⟩
    · exact hd.modules d (by simpa [Holdings.withInBuf, heq] using hsome)

theorem Docked.edited {h' : Holdings} (hd : h.Docked) (ho : h.Owned) (he : h.Edited h') :
    h'.Docked := by
  cases he with
  | same => exact hd
  | adopt _ interior => exact hd.rehold interior _ _ _
  | release interior _ => exact hd.rehold interior _ _ _
  | mark interior _ => exact hd.rehold interior _ _ _
  | exit _ _ _ plain => exact hd.withExit plain _ _
  | moduleExit _ _ _ _ _ kind => exact hd.withModuleExit kind _ _ _
  | dropExit listed _ => exact hd.withoutExit ho listed h rfl rfl rfl fun _ _ => rfl
  | @dropOutBuf c o t e listed _ =>
      exact hd.withoutExit ho listed (h.withoutOutBuf e o) rfl rfl rfl fun x hx => by
        simp [Holdings.withoutOutBuf, hx]

end Holdings

/-- Modules have their OutBufs, whatever is done. -/
def docking : Guard {} False where
  holds n := n.holdings.Owned ∧ n.holdings.Docked
  firm := False
  calm h hn := by
    rw [h.sameHoldings]
    exact hn
  shell {_ n} kind stem hl hn := by
    refine ⟨ownership.shell kind stem hl hn.1, ?_⟩
    have hnone : n.components.get? n.components.next = none := Arena.get?_of_size_le (by simp)
    rw [holdings_shelled]
    exact hn.2.newcomer (by simp [holdings, hnone]) _
  module {_ n} kind stem hl hn := by
    refine ⟨ownership.module kind stem hl hn.1, ?_⟩
    have hmodule : n.components.get? n.components.next = none := Arena.get?_of_size_le (by simp)
    have hinBuf : n.components.get? ⟨n.components.size + 1⟩ = none :=
      Arena.get?_of_size_le (by simp)
    rw [holdings_withModule]
    refine (((hn.2.newcomer ?_ _).newcomer ?_ _).withExit ?_ _ _).withInBuf
      (k := (ComponentKind.module kind).plain) ?_ ?_ ?_ _
    · simp [holdings, hmodule]
    · simp [Holdings.newcomer, holdings, Handle.eq_iff_index, hinBuf]
    · simp [Holdings.newcomer, holdings, hinBuf]
    · simp [Holdings.newcomer, Holdings.withExit, Handle.eq_iff_index]
    · exact isModule_plain _
    · simp [Holdings.newcomer, Holdings.withExit, holdings, Handle.eq_iff_index, hmodule]
  edit op _ _ _ hrefs hn :=
    wp_mono (edited_run op hrefs) (fun _ _ he => ⟨hn.1.edited he, hn.2.edited hn.1 he⟩)
      fun _ _ he => he.mono fun he => ⟨hn.1.edited he, hn.2.edited hn.1 he⟩

/-! ### Control ports -/

/-- The clock, the reset and the go of every component are three ports. -/
def ControlsApart (n : Netlist) : Prop :=
  ∀ c x, n.components.get? c = some x → [x.clock, x.reset, x.go].Nodup

/-- Control ports stay apart. -/
def KeepsControls (n n' : Netlist) : Prop := n.ControlsApart → n'.ControlsApart

instance : IsPreorder Netlist KeepsControls where
  refl _ := id
  trans _ _ _ h h' hn := h' (h hn)

theorem controlsApart_shelled {n : Netlist} (hn : n.ControlsApart) (kind : ComponentKind)
    (stem : String) : (n.shelled kind stem).ControlsApart := by
  intro c x hx
  rw [components_shelled] at hx
  rcases Arena.get?_push_cases hx with ⟨-, rfl⟩ | hx
  · simp [shell, Handle.eq_iff_index]
  · exact hn c x hx

theorem keepsControls_of_same {n n' : Netlist} (heq : n'.components = n.components) :
    KeepsControls n n' :=
  fun hn c x hx => hn c x (heq ▸ hx)

theorem keepsControls_modify {n : Netlist} {c : ComponentId} {f : Component → Component}
    (hf : ∀ x, Component.Lasts x (f x)) :
    KeepsControls n { n with components := n.components.modify c f } := by
  intro hn d y hy
  rcases Arena.get?_modify_cases hy with ⟨-, x, hx, rfl⟩ | ⟨-, hy⟩
  · rw [(hf x).clock, (hf x).reset, (hf x).go]
    exact hn c x hx
  · exact hn d y hy

theorem admits_keepsControls : Admits KeepsControls :=
  .of_changes (fun heq _ _ => keepsControls_of_same heq) keepsControls_modify
    (fun _ => keepsControls_of_same rfl) (fun _ => keepsControls_of_same rfl)
    fun _ kind stem hn => controlsApart_shelled hn kind stem

/-- Control ports are apart, whatever is done. -/
def separation : Guard {} False where
  holds := ControlsApart
  firm := False
  calm h hn c y hy := by
    obtain ⟨x, hx, heq⟩ := h.component hy
    have halike := Component.alike_of_shape_eq heq
    rw [← halike.clock, ← halike.reset, ← halike.go]
    exact hn c x hx
  shell kind stem _ hn := controlsApart_shelled hn kind stem
  module {_ n} kind stem _ hn c x hx := by
    rw [get?_withModule] at hx
    split at hx
    · cases hx
      simp [newModuleComponent, shell, Handle.eq_iff_index]
    split at hx
    · cases hx
      simp [newInBuf, shell, Handle.eq_iff_index]
    · exact hn c x hx
  edit op s _ _ _ hn :=
    wp_mono (admits_keepsControls.run op s) (fun _ _ ht => ht hn) fun _ _ ht => ht.mono False.elim

end DataflowSynth.Netlist
