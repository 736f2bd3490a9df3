/-
Cloning leaves what is there alone, and refuses before it begins.

While a clone is made, everything that was there before is only looked at: with the netlist before the
call as the base, every step of the copying is safe, and no step of it reports an error.  Errors come
from the check alone.  It goes through the component and all its descendants and changes nothing, and
since modules do not nest for ever it comes to an end.
-/
import DataflowSynth.Proofs.Clone.Tree
import DataflowSynth.Proofs.Design.Consistency

namespace DataflowSynth.Netlist

open Build Relation

variable {pins : Nat} {n : Netlist} {c d m : ComponentId}

/-! ### Descendants -/

/-- `d` is a child of the module `m`. -/
def Child (n : Netlist) (m d : ComponentId) : Prop :=
  ∃ x i, n.components.get? m = some x ∧ x.kind.isModule = true ∧ x.interior = some i ∧
    d ∈ i.children

instance : Decidable (Child n m d) :=
  decidable_of_iff (∃ x ∈ n.components.get? m, x.kind.isModule = true ∧ ∃ i ∈ x.interior, d ∈ i.children)
    ⟨fun ⟨x, hx, hkind, i, hi, hd⟩ => ⟨x, i, hx, hkind, hi, hd⟩,
      fun ⟨x, i, hx, hkind, hi, hd⟩ => ⟨x, hx, hkind, i, hi, hd⟩⟩

/-- `d` is `c`, a child of it, or so on. -/
abbrev Descendant (n : Netlist) : ComponentId → ComponentId → Prop := ReflTransGen (Child n)

/-- The descendants form a finite tree, and every module among them has an interior. -/
structure ModuleTree (n : Netlist) (c : ComponentId) : Prop where
  finite : Acc (fun d m => Child n m d) c
  modules : ∀ d x, n.Descendant c d → n.components.get? d = some x → x.kind.isModule = true →
    x.interior.isSome

/-- A component that cannot be copied: a design, or a memory read that is carried out already. -/
def Uncopyable (n : Netlist) (d : ComponentId) : Prop :=
  ∃ x, n.components.get? d = some x ∧
    (x.kind = .module .design ∨ ∃ memory physical, x.kind = .memoryRead memory (some physical))

theorem Linked.child_lt (h : Linked pins {} n) (hd : Child n m d) :
    d.index < n.components.size := by
  obtain ⟨x, i, hx, -, hi, hd⟩ := hd
  exact (h.child_new hx (Nat.zero_le _) hi hd).2

/-! ### The check -/

theorem ModuleTree.child (h : n.ModuleTree c) (hd : Child n c d) : n.ModuleTree d where
  finite := h.finite.inv hd
  modules e x he hx hkind := h.modules e x (he.head hd) hx hkind

section

variable {x : Component} (hx : n.components.get? c = some x)

include hx

theorem uncopyable_iff : n.Uncopyable c ↔
    x.kind = .module .design ∨ ∃ memory physical, x.kind = .memoryRead memory (some physical) := by
  simp [Uncopyable, hx]

theorem mem_children_of_child {i : Interior} (hi : x.interior = some i) (hd : Child n c d) :
    d ∈ i.children := by
  obtain ⟨y, j, hy, -, hj, hd⟩ := hd
  cases hx.symm.trans hy
  cases hi.symm.trans hj
  exact hd

theorem not_child_of_not_isModule (hflat : x.kind.isModule = false) : ¬ Child n c d := by
  rintro ⟨y, _, hy, hkind, -⟩
  cases hx.symm.trans hy
  rw [hflat] at hkind
  cases hkind

end

/-- A component is copied if nothing is wrong with it and all that its children own can be copied. -/
theorem copyable_of_child (hc : ¬ n.Uncopyable c)
    (hchild : ∀ d, Child n c d → ∀ e, n.Descendant d e → ¬ n.Uncopyable e) :
    ∀ d, n.Descendant c d → ¬ n.Uncopyable d := by
  intro d hd
  rcases ReflTransGen.cases_head hd with rfl | ⟨e, he, hed⟩
  · exact hc
  · exact hchild e he d hed

theorem isModule_eq_false {k : ComponentKind} (h : ∀ kind, k ≠ .module kind) :
    k.isModule = false := by
  cases k with
  | module kind => exact absurd rfl (h kind)
  | _ => rfl

/-- The check looks at the component and all its descendants, and fails if one of them cannot be
copied. -/
theorem wp_checkCopyable {s : Traced Netlist} (hn : Linked pins {} s.state)
    (hlt : c.index < s.state.components.size) (htree : s.state.ModuleTree c) {depth : Nat}
    (hdepth : NestedBy (Child s.state) depth c) :
    wp (checkCopyable depth c)
      (fun _ t => t = s ∧ ∀ d, s.state.Descendant c d → ¬ s.state.Uncopyable d)
      (fun e t => t = s ∧ (∃ d, s.state.Descendant c d ∧ s.state.Uncopyable d) ∧
        ∃ u, e = .error (.unsupported u)) s := by
  induction depth generalizing c with
  | zero => exact hdepth.elim
  | succ depth ih =>
      obtain ⟨x, hx⟩ := Arena.exists_get? hlt
      rw [checkCopyable, wp_bind, wp_component hx]
      split
      · next hkind => exact ⟨rfl, ⟨c, .refl, x, hx, .inl hkind⟩, _, rfl⟩
      · next memory physical hkind =>
          exact ⟨rfl, ⟨c, .refl, x, hx, .inr ⟨memory, physical, hkind⟩⟩, _, rfl⟩
      · next kind hdesign hkind =>
          have hmodule : x.kind.isModule = true := by
            rw [hkind]
            rfl
          obtain ⟨i, hi⟩ := Option.isSome_iff_exists.mp (htree.modules c x .refl hx hmodule)
          have hchild : ∀ d ∈ i.children, Child s.state c d := fun d hd =>
            ⟨x, i, hx, hmodule, hi, hd⟩
          rw [wp_bind, wp_children hx hi]
          refine wp_mono (wp_forM_reads (R := fun d => ∀ e, s.state.Descendant d e →
            ¬ s.state.Uncopyable e) fun d hd => ?_) (fun _ t ht => ⟨ht.1, fun e he => ?_⟩) fun _ _ h => h
          · refine wp_mono (ih (hn.child_lt (hchild d hd)) (htree.child (hchild d hd))
              (hdepth d (hchild d hd))) (fun _ _ h => h) fun _ _ h => ?_
            obtain ⟨heq, ⟨e, he, hbad⟩, herror⟩ := h
            exact ⟨heq, ⟨e, he.head (hchild d hd), hbad⟩, herror⟩
          · refine copyable_of_child ?_ (fun d hd => ht.2 d (mem_children_of_child hx hi hd)) e he
            rw [uncopyable_iff hx, hkind]
            simpa using fun heq => hdesign heq
      · next hdesign hread hmodule =>
          have hflat := isModule_eq_false hmodule
          refine ⟨rfl, copyable_of_child ?_ fun d hd =>
            absurd hd (not_child_of_not_isModule hx hflat)⟩
          rw [uncopyable_iff hx]
          rintro (hbad | ⟨memory, physical, hbad⟩)
          · exact hdesign hbad
          · exact hread memory physical hbad

/-! ### The copy -/

/-- Everything in `n` is out of bounds, and no error may be reported. -/
def Scope.outside (pins : Nat) (n : Netlist) : Scope := ⟨pins, n, False, False, True, .none n False⟩

theorem Linked.fitting_outside (h : Linked pins {} n) : (Scope.outside pins n).Fitting := by
  intro n' hn' c x hx
  have hlinked : Linked pins n n' := hn'.linked
  by_cases hold : c.index < n.components.size
  · rw [hlinked.keeps.components.get? c hold] at hx
    exact (h.components c x hx (Nat.zero_le _)).kind.mono hlinked.keeps.grows
  · exact (hlinked.components c x hx (Nat.le_of_not_lt hold)).kind

/-- Copying keeps what is there and reports no error. -/
theorem wp_copy {s : Traced Netlist} (hn : Linked pins {} s.state) (depth : Nat) (c : ComponentId) :
    wp (copyWith depth c fun _ _ => pure ()) (fun _ t => s.state.Keeps t.state)
      (fun e _ => ∃ a, e = .abort a) s := by
  have hsafe : Safe (.outside pins s.state) [] (copyWith depth c fun _ _ => pure ()) fun r =>
      .has (.component r.1) :: r.2.facts :=
    safe_copyWith id hn.fitting_outside depth c fun _ _ => .pure (by simp)
  refine wp_mono (hsafe s ⟨⟨.refl pins s.state, False.elim, trivial⟩, by simp⟩)
    (fun _ t ht => ht.1.sound.linked.keeps) fun e t ht => ?_
  cases e with
  | abort a => exact ⟨a, rfl⟩
  | error e => exact absurd trivial ht.1.2

/-- Cloning touches nothing that exists, and fails cleanly.  Let the descendants of a component be a
finite tree of modules with interiors.  If the clone is made, everything that was there before is as it
was.  An error is reported exactly if the component or a descendant cannot be copied; it says that this
is not supported, and the netlist is then as before. -/
theorem clone_keeps_or_refuses (hn : n.Reachable) (hc : c.index < n.components.size)
    (htree : n.ModuleTree c) (journal : Journal) :
    (∀ r t, clone c ⟨n, journal⟩ = .ok r t → n.Keeps t.state) ∧
      ((∃ e t, clone c ⟨n, journal⟩ = .error (.error e) t) ↔
        ∃ d, n.Descendant c d ∧ n.Uncopyable d) ∧
      ∀ e t, clone c ⟨n, journal⟩ = .error (.error e) t →
        (∃ u, e = .unsupported u) ∧ t = ⟨n, journal⟩ := by
  obtain ⟨pins, hlinked⟩ := hn.linked
  have hnested := nestedBy_of_acc (fun m d => hlinked.child_lt) htree.finite hc
  have hwp : wp (clone c)
      (fun _ t => n.Keeps t.state ∧ ∀ d, n.Descendant c d → ¬ n.Uncopyable d)
      (fun e t => (∃ a, e = .abort a) ∧ (∀ d, n.Descendant c d → ¬ n.Uncopyable d) ∨
        (∃ u, e = .error (.unsupported u)) ∧ t = ⟨n, journal⟩ ∧
          ∃ d, n.Descendant c d ∧ n.Uncopyable d) ⟨n, journal⟩ := by
    rw [clone, cloneWith_eq, wp_bind, wp_look, wp_bind]
    refine wp_mono (wp_checkCopyable hlinked hc htree hnested) (fun _ t ht => ?_) fun e t ht => ?_
    · obtain ⟨rfl, hfine⟩ := ht
      exact wp_mono (wp_copy hlinked _ c) (fun _ _ h => ⟨h, hfine⟩) fun _ _ h => .inl ⟨h, hfine⟩
    · exact .inr ⟨ht.2.2, ht.1, ht.2.1⟩
  unfold wp at hwp
  cases hrun : clone c ⟨n, journal⟩ with
  | ok r t =>
      rw [hrun] at hwp
      refine ⟨fun r' t' heq => ?_, ⟨fun ⟨e, t', heq⟩ => ?_, fun ⟨d, hd, hbad⟩ => ?_⟩,
        fun e t' heq => ?_⟩
      · cases heq
        exact hwp.1
      · cases heq
      · exact absurd hbad (hwp.2 d hd)
      · cases heq
  | error e t =>
      rw [hrun] at hwp
      refine ⟨fun r' t' heq => ?_, ⟨fun ⟨e', t', heq⟩ => ?_, fun ⟨d, hd, hbad⟩ => ?_⟩,
        fun e' t' heq => ?_⟩
      · cases heq
      · cases heq
        rcases hwp with ⟨⟨a, ha⟩, -⟩ | ⟨-, -, hbad⟩
        · cases ha
        · exact hbad
      · rcases hwp with ⟨-, hfine⟩ | ⟨⟨u, rfl⟩, -, -⟩
        · exact absurd hbad (hfine d hd)
        · exact ⟨_, t, rfl⟩
      · cases heq
        rcases hwp with ⟨⟨a, ha⟩, -⟩ | ⟨⟨u, hu⟩, ht, -⟩
        · cases ha
        · cases hu
          exact ⟨⟨u, rfl⟩, ht⟩

/-- The descendants form a finite tree if modules are older than what they own. -/
theorem ModuleTree.of_older (hn : n.Reachable)
    (holder : ∀ m x, n.components.get? m = some x → ∀ i ∈ x.interior, ∀ d ∈ i.children, m.index < d.index)
    (hmodules : ∀ d x, n.components.get? d = some x → x.kind.isModule = true → x.interior.isSome) :
    n.ModuleTree c := by
  obtain ⟨pins, hlinked⟩ := hn.linked
  have hwf : WellFounded fun d m => Child n m d := by
    refine Subrelation.wf (fun {d m} hd => ?_) (measure fun d => n.components.size - d.index).wf
    have hlt := hlinked.child_lt hd
    obtain ⟨x, i, hx, -, hi, hd⟩ := hd
    exact Nat.sub_lt_sub_left (Nat.lt_trans (holder m x hx i hi d hd) hlt) (holder m x hx i hi d hd)
  exact ⟨hwf.apply c, fun d x _ => hmodules d x⟩

/-- A block that owns an inverter, another that owns a design, and a block around both of them. -/
theorem exists_blocks : ∃ n : Netlist, n.Reachable ∧ n.components.size = 9 ∧
    (∀ c, n.ModuleTree c) ∧ Child n ⟨2⟩ ⟨4⟩ ∧ Child n ⟨0⟩ ⟨5⟩ ∧ Child n ⟨5⟩ ⟨7⟩ ∧ n.Uncopyable ⟨7⟩ ∧
    ((clone ⟨2⟩).run ⟨n, #[]⟩).1.isOk = true := by
  have hempty : Reached False 0 {} := .empty
  have houter := hempty.after (.newModule .block "outer" 0) (by decide) False.elim (by decide +kernel)
  have hplain := houter.after (.newModule .block "plain" 1) (by decide +kernel) False.elim
    (by decide +kernel)
  have hgate := hplain.after (.newComponent .notGate "not" 1) (by decide +kernel) False.elim
    (by decide +kernel)
  have hinner := hgate.after (.newModule .block "inner" 0) (by decide +kernel) False.elim
    (by decide +kernel)
  have hdesign := hinner.after (.newModule .design "top" 0) (by decide +kernel) False.elim
    (by decide +kernel)
  have hdesigned := hdesign.after (.addComponent ⟨5⟩ ⟨7⟩) (by decide +kernel) False.elim
    (by decide +kernel)
  have hinverted := hdesigned.after (.addComponent ⟨2⟩ ⟨4⟩) (by decide +kernel) False.elim
    (by decide +kernel)
  have hfilled := hinverted.after (.addComponents ⟨0⟩ [⟨2⟩, ⟨5⟩]) (by decide +kernel) False.elim
    (by decide +kernel)
  have hreachable : Netlist.Reachable _ := .alone hfilled
  generalize hn : (Build.run (Call.run (.addComponents ⟨0⟩ [⟨2⟩, ⟨5⟩])) _).2.state = n at hreachable
  have hkinds : ∀ d x, n.components.get? d = some x → x.kind.isModule = true → x.interior.isSome := by
    rw [← hn]
    decide +kernel
  have holder : ∀ m x, n.components.get? m = some x → ∀ i ∈ x.interior, ∀ d ∈ i.children,
      m.index < d.index := by
    rw [← hn]
    decide +kernel
  have hdesigned : ∃ x ∈ n.components.get? ⟨7⟩, x.kind = .module .design := by
    rw [← hn]
    decide +kernel
  have hok : ((clone ⟨2⟩).run ⟨n, #[]⟩).1.isOk = true := by
    rw [← hn]
    decide +kernel
  refine ⟨n, hreachable, ?_, fun c => .of_older hreachable holder hkinds, ?_, ?_, ?_, ?_, hok⟩
  · rw [← hn]
    decide +kernel
  · rw [← hn]
    decide +kernel
  · rw [← hn]
    decide +kernel
  · rw [← hn]
    decide +kernel
  · obtain ⟨x, hx, hkind⟩ := hdesigned
    exact ⟨x, hx, .inl hkind⟩

/-- The block with the inverter is cloned.  The one around it is refused, as it comes to the design. -/
theorem clone_keeps_or_refuses_nested :
    ∃ n : Netlist, Child n ⟨2⟩ ⟨4⟩ ∧ Child n ⟨0⟩ ⟨5⟩ ∧ Child n ⟨5⟩ ⟨7⟩ ∧ n.Uncopyable ⟨7⟩ ∧
      (∃ r t, clone ⟨2⟩ ⟨n, #[]⟩ = .ok r t ∧ n.Keeps t.state) ∧
      ∃ u, clone ⟨0⟩ ⟨n, #[]⟩ = .error (.error (.unsupported u)) ⟨n, #[]⟩ := by
  obtain ⟨n, hreachable, hsize, htree, hgate, hinner, hdesign, hbad, hok⟩ := exists_blocks
  refine ⟨n, hgate, hinner, hdesign, hbad, ?_, ?_⟩
  · cases hrun : clone ⟨2⟩ ⟨n, #[]⟩ with
    | ok r t =>
        exact ⟨r, t, rfl, (clone_keeps_or_refuses hreachable (by rw [hsize]; decide) (htree _) #[]).1 r t
          hrun⟩
    | error e t =>
        rw [Build.run, hrun] at hok
        cases hok
  · obtain ⟨-, herror, hclean⟩ := clone_keeps_or_refuses (c := ⟨0⟩) hreachable (by rw [hsize]; decide)
      (htree _) #[]
    obtain ⟨e, t, hrun⟩ := herror.mpr ⟨⟨7⟩, .tail (.single hinner) hdesign, hbad⟩
    obtain ⟨⟨u, rfl⟩, rfl⟩ := hclean e t hrun
    exact ⟨u, hrun⟩

end DataflowSynth.Netlist
