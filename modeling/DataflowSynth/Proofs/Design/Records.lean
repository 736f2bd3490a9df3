/-
Tasks and their records.

The table of tasks is written when a task is added and never again, while the netlist goes on: the
module of a task can be taken out of the root module, and its body out of the module.  What a record
says of the netlist is therefore a matter of what was exchanged since, and of nothing else.
-/
import DataflowSynth.Proofs.Design.Ownership
import DataflowSynth.Proofs.Netlist.Standings

namespace DataflowSynth

open Build

namespace Netlist

/-- What stands in a module. -/
def contents (n : Netlist) (m : ComponentId) : List ComponentId :=
  ((n.standing? m).bind Standing.children).getD []

def kind? (n : Netlist) (c : ComponentId) : Option ComponentKind := (n.standing? c).map Standing.kind

variable {n n' : Netlist} {c m old new : ComponentId} {v : Standing}

theorem contents_eq {cs : List ComponentId} (hv : n.standing? m = some v) (hcs : v.children = some cs) :
    n.contents m = cs := by
  rw [contents, hv, Option.bind_some, hcs, Option.getD_some]

theorem exists_of_kind? {k : ComponentKind} (hk : n.kind? c = some k) :
    ∃ v, n.standing? c = some v ∧ v.kind = k :=
  Option.map_eq_some_iff.mp hk

theorem lt_of_kind? {k : ComponentKind} (hk : n.kind? c = some k) : c.index < n.components.size := by
  obtain ⟨v, hv, -⟩ := exists_of_kind? hk
  exact lt_of_standing? hv

theorem Refilled.contents_other {f : ComponentKind → ComponentKind}
    (h : Refilled m old new f n n') (hc : c.index < n.components.size) (hcm : c ≠ m) :
    n'.contents c = n.contents c := by
  obtain ⟨x, hx⟩ := Arena.exists_get? hc
  obtain ⟨w, hw, -, hchildren⟩ := h.others c _ hcm (standing?_eq hx)
  rw [contents, contents, hw, standing?_eq hx, Option.bind_some, Option.bind_some, hchildren]

theorem Refilled.mem_contents {f : ComponentKind → ComponentKind} (h : Refilled m old new f n n')
    (hne : c ≠ new) : c ∈ n'.contents m ↔ c ∈ n.contents m ∧ c ≠ old := by
  obtain ⟨v, cs, v', cs', hv, hcs, -, hv', hcs', -, hfrom, hkept, -⟩ := h.module
  rw [contents_eq hv hcs, contents_eq hv' hcs']
  exact ⟨fun hc => (hfrom c hc).resolve_right hne, fun hc => hkept c hc.1 hc.2⟩

/-- What is put in the place of another stands there, but for a buffer. -/
theorem Refilled.new_mem {f : ComponentKind → ComponentKind} (h : Refilled m old new f n n')
    {k : ComponentKind} (hk : n.kind? new = some k) (hbuffer : k.isBuffer = false) :
    new ∈ n'.contents m := by
  obtain ⟨v, cs, v', cs', -, -, -, hv', hcs', -, -, -, hmem | ⟨w, hw, hkind⟩⟩ := h.module
  · rw [contents_eq hv' hcs']
    exact hmem
  · obtain ⟨u, hu, rfl⟩ := exists_of_kind? hk
    obtain rfl := Option.some.inj (hw.symm.trans hu)
    rw [hkind] at hbuffer
    cases hbuffer

theorem Refilled.kind?_eq {f : ComponentKind → ComponentKind} (h : Refilled m old new f n n')
    {k : ComponentKind} (hk : n.kind? c = some k) :
    n'.kind? c = some (if c = m then f k else k) := by
  obtain ⟨w, hw, rfl⟩ := exists_of_kind? hk
  split
  · next heq =>
    subst heq
    obtain ⟨v, cs, v', cs', hv, -, -, hv', -, hkind, -⟩ := h.module
    obtain rfl := Option.some.inj (hv.symm.trans hw)
    rw [kind?, hv', Option.map_some, hkind]
  · next hne =>
    obtain ⟨w', hw', hkind, -⟩ := h.others c w hne hw
    rw [kind?, hw', Option.map_some, hkind]

end Netlist

namespace Design

open Netlist (Rests Standing contents_eq standing?_eq lt_of_kind?)

/-! ### Adding a task -/

section

variable {s : Traced Netlist} {body root : ComponentId} {v w : Standing} {cs : List ComponentId}

/-- A body that stands nowhere gets a task module around it. -/
theorem wp_wrapBody_standing (name : String) (hbody : s.state.standing? body = some v)
    (howner : v.owner = none) :
    wp (wrapBody name body) (fun call t => call = s.state.components.next ∧
      t.state.standing? call = some ⟨.module (.task body), none, some [body]⟩ ∧
      ∀ d w, s.state.standing? d = some w → t.state.standing? d = some (w.adopted call body d))
      (fun e _ => e.Unless False) s := by
  have hfresh : body ≠ s.state.components.next := by
    rintro rfl
    exact Nat.lt_irrefl _ (Netlist.lt_of_standing? hbody)
  rw [wrapBody_eq, wp_bind]
  refine wp_mono (Netlist.wp_newModule_standing _ _) (fun call t ht => ?_) fun _ _ h => h
  obtain ⟨rfl, hrest, hcall⟩ := ht
  rw [wp_bind]
  refine wp_mono Netlist.wp_addComponent_standing (fun _ u hu => ?_) fun _ _ h => h
  obtain ⟨v', hv', ⟨hin, -⟩ | ⟨-, -, hu⟩⟩ := hu
  · obtain rfl := Option.some.inj (hv'.symm.trans (hrest _ _ hbody))
    rw [howner] at hin
    cases hin
  -- From here on nobody is disturbed.
  refine wp_mono (returns_startBody Netlist.ignores_rests _ body u) (fun _ r hr => ?_) fun _ _ h => h
  obtain ⟨rfl, hr⟩ := hr
  refine ⟨rfl, ?_, fun d w hw => hr d _ (hu d w (hrest d w hw))⟩
  refine (hr _ _ (hu _ _ hcall)).trans ?_
  simp [Netlist.Standing.adopted, hfresh.symm]

/-- A task gets a fresh module, which stands in the root module and holds the body. -/
structure Tasked (d d' : Design) (name : String) (body : ComponentId) : Prop where
  root : d'.root = d.root
  tasks : d'.tasks = d.tasks.push ⟨name, d.netlist.components.next, body⟩
  call : d'.netlist.standing? d.netlist.components.next =
    some ⟨.module (.task body), some d.root, some [body]⟩
  old : ∀ c v, d.netlist.standing? c = some v → ∃ w, d'.netlist.standing? c = some w ∧
    w.kind = v.kind ∧ (c ≠ d.root → w.children = v.children)
  contents : d'.netlist.contents d.root = d.netlist.contents d.root ++ [d.netlist.components.next]

theorem wp_addTask_standing {s : Traced Design} {v r : Standing} (name : String)
    (hbody : s.state.netlist.standing? body = some v) (howner : v.owner = none)
    (hroot : s.state.netlist.standing? s.state.root = some r) :
    wp (addTask name body) (fun _ t => Tasked s.state t.state name body)
      (fun e _ => e.Unless False) s := by
  have hfresh : ∀ {c v}, s.state.netlist.standing? c = some v →
      c ≠ s.state.netlist.components.next := by
    rintro c v hv rfl
    exact Nat.lt_irrefl _ (Netlist.lt_of_standing? hv)
  simp only [addTask, wp_bind, wp_look, wiring, wp_within, wp_change, wp_pure]
  refine wp_mono (wp_wrapBody_standing name hbody howner) (fun call t ht => ?_) fun _ _ h => h
  obtain ⟨rfl, hcall, ht⟩ := ht
  refine wp_mono Netlist.wp_addComponent_standing (fun _ u hu => ?_) fun _ _ h => h
  obtain ⟨v', hv', ⟨hin, -⟩ | ⟨-, ⟨w, cs, hw, hcs⟩, hu⟩⟩ := hu
  · obtain rfl := Option.some.inj (hv'.symm.trans hcall)
    cases hin
  -- The children of the root module are those it had.
  obtain rfl := Option.some.inj (hw.symm.trans (ht _ r hroot))
  have hchildren : r.children = some cs := (if_neg (hfresh hroot)).symm.trans hcs
  refine ⟨rfl, rfl, (hu _ _ hcall).trans ?_, fun c v hv =>
    ⟨_, hu c _ (ht c v hv), rfl, fun hne => ?_⟩, ?_⟩
  · simp [Standing.adopted, (hfresh hroot).symm]
  · exact (if_neg hne).trans (if_neg (hfresh hv))
  · refine (contents_eq (hu _ _ hw) ?_).trans (congrArg (· ++ _) (contents_eq hroot hchildren).symm)
    simp [Standing.adopted, hfresh hroot, hchildren]

end

/-! ### What happens to tasks -/

/-- What a task can live through. -/
inductive Event where
  | added (t : Task)
  /-- In the module `m` a component was put in the place of another. -/
  | exchanged (m old new : ComponentId)

/-- The task that has been added. -/
def Event.task? : Event → Option Task
  | .added t => some t
  | .exchanged .. => none

/-- Whether the module `call` stands in `root`, after one more event. -/
def Event.place (root call : ComponentId) (stands : Bool) : Event → Bool
  | .added t => stands || t.call = call
  | .exchanged m old new => if m = root then new = call || (stands && old ≠ call) else stands

/-- The body that the module `call` has, after one more event. -/
def Event.refill (call : ComponentId) (body? : Option ComponentId) : Event → Option ComponentId
  | .added t => if t.call = call then some t.body else body?
  | .exchanged m old new => if m = call ∧ body? = some old then some new else body?

/-- Whether the events have left `call` in `root`. -/
def stands (root call : ComponentId) (es : List Event) : Bool :=
  es.foldl (Event.place root call) false

/-- The body that the events have left in `call`. -/
def bodyAfter? (call : ComponentId) (es : List Event) : Option ComponentId :=
  es.foldl (Event.refill call) none

@[simp] theorem stands_append (root call : ComponentId) (es : List Event) (e : Event) :
    stands root call (es ++ [e]) = e.place root call (stands root call es) := by
  simp [stands, List.foldl_append]

@[simp] theorem bodyAfter?_append (call : ComponentId) (es : List Event) (e : Event) :
    bodyAfter? call (es ++ [e]) = e.refill call (bodyAfter? call es) := by
  simp [bodyAfter?, List.foldl_append]

/-- The record of a task says what is in the netlist: the module of the task stands in the root
module, and is a task with that body, which stands in it. -/
structure Agrees (d : Design) (t : Task) : Prop where
  call : t.call ∈ d.netlist.contents d.root
  kind : d.netlist.kind? t.call = some (.module (.task t.body))
  body : t.body ∈ d.netlist.contents t.call

instance (d : Design) (t : Task) : Decidable (d.Agrees t) :=
  decidable_of_iff (t.call ∈ d.netlist.contents d.root ∧
      d.netlist.kind? t.call = some (.module (.task t.body)) ∧ t.body ∈ d.netlist.contents t.call)
    ⟨fun h => ⟨h.1, h.2.1, h.2.2⟩, fun h => ⟨h.call, h.kind, h.body⟩⟩

/-- Nothing has happened to the tasks and their modules. -/
structure Apart (d d' : Design) : Prop where
  root : d'.root = d.root
  tasks : d'.tasks.values = d.tasks.values
  call : ∀ t ∈ d.tasks.values,
    (t.call ∈ d'.netlist.contents d.root ↔ t.call ∈ d.netlist.contents d.root)
  kinds : ∀ t ∈ d.tasks.values, ∀ c ∈ [t.call, t.body], d'.netlist.kind? c = d.netlist.kind? c
  contents : ∀ t ∈ d.tasks.values, d'.netlist.contents t.call = d.netlist.contents t.call

instance (d d' : Design) : Decidable (d.Apart d') :=
  decidable_of_iff (d'.root = d.root ∧ d'.tasks.values = d.tasks.values ∧ (∀ t ∈ d.tasks.values,
      (t.call ∈ d'.netlist.contents d.root ↔ t.call ∈ d.netlist.contents d.root)) ∧
      (∀ t ∈ d.tasks.values, ∀ c ∈ [t.call, t.body], d'.netlist.kind? c = d.netlist.kind? c) ∧
      ∀ t ∈ d.tasks.values, d'.netlist.contents t.call = d.netlist.contents t.call)
    ⟨fun ⟨hroot, htasks, hcall, hkinds, hcontents⟩ => ⟨hroot, htasks, hcall, hkinds, hcontents⟩,
      fun h => ⟨h.root, h.tasks, h.call, h.kinds, h.contents⟩⟩

/-- Designs in which tasks are added and exchanged, with what happened to the tasks.  In between,
anything can be done that does not concern them. -/
inductive Course : List Event → Design → Prop where
  | new (name : String) : Course [] (Design.new name)
  | aside {es : List Event} {d d' : Design} (call : Call) (hbefore : Course es d) (hfits : call.Fits d)
      (hleaves : call.run.Leaves d d') (hapart : d.Apart d') : Course es d'
  | add {es : List Event} {d d' : Design} {t : TaskId} (name : String) (body : ComponentId)
      (hbefore : Course es d) (hblock : d.netlist.kind? body = some (.module .block))
      (hfree : (d.netlist.standing? body).bind Standing.owner = none)
      (hyields : (addTask name body).Yields d t d') :
      Course (es ++ [.added ⟨name, d.netlist.components.next, body⟩]) d'
  | exchange {es : List Event} {d d' : Design} {done : Bool} (m old new : ComponentId)
      (hbefore : Course es d) (hplace : m = d.root ∨ ∃ t ∈ d.tasks.values, t.call = m)
      (hfits : (Call.netlist (.replaceComponent m old new)).Fits d)
      (hyields : (wiring (Netlist.replaceComponent m old new)).Yields d done d') :
      Course (if done then es ++ [.exchanged m old new] else es) d'

variable {es : List Event} {d d' : Design}

/-- What a step leaves if its result does not matter. -/
theorem leaves_of_yields {α : Type} {x : Step α} {y : Step Unit} {a : α} (hx : x.Yields d a d')
    (hy : ∀ s (Q : Unit → Traced Design → Prop) F, wp x (fun _ t => Q () t) F s → wp y Q F s) :
    y.Leaves d d' := by
  obtain ⟨j, j', hx⟩ := hx
  have hrun : wp y (fun _ t => t = ⟨d', j'⟩) (fun _ _ => False) ⟨d, j⟩ := hy _ _ _ (by rw [wp, hx])
  unfold wp at hrun
  split at hrun
  · next heq => exact ⟨j, j', .inl ⟨(), by rw [heq, hrun]⟩⟩
  · exact hrun.elim

theorem Course.reached (h : Course es d) : Reached False d := by
  induction h with
  | new name => exact .new name
  | aside call _ hfits hleaves _ ih => exact .call call ih hfits False.elim hleaves
  | add name body _ hblock _ hyields ih =>
      refine .call (.addTask name body) ih ⟨fun r hr => ?_, by simp [Call.pins]⟩ False.elim
        (leaves_of_yields hyields fun _ _ _ h => wp_discard.mpr h)
      obtain rfl : r = .component body := by simpa [Call.refs] using hr
      exact lt_of_kind? hblock
  | exchange m old new _ _ hfits hyields ih =>
      refine .call (.netlist (.replaceComponent m old new)) ih hfits False.elim
        (leaves_of_yields hyields fun s Q F h => ?_)
      simp only [Call.run, Netlist.Call.run, wiring, wp_within, wp_discard] at h ⊢
      exact h

/-! ### What the records say -/

/-- What is known of a task after these events, as long as its body is a block. -/
structure Tracked (es : List Event) (d : Design) (t : Task) : Prop where
  apart : t.call ≠ d.root
  block : d.netlist.kind? t.body = some (.module .block)
  call : t.call ∈ d.netlist.contents d.root ↔ stands d.root t.call es = true
  kind : ∃ body, bodyAfter? t.call es = some body ∧
    d.netlist.kind? t.call = some (.module (.task body))
  body : bodyAfter? t.call es = some t.body → t.body ∈ d.netlist.contents t.call
  stays : (∀ new, .exchanged d.root t.call new ∉ es) → stands d.root t.call es = true
  keeps : (∀ new, .exchanged t.call t.body new ∉ es) → bodyAfter? t.call es = some t.body

structure Followed (es : List Event) (d : Design) : Prop where
  records : d.tasks.values = es.filterMap Event.task?
  tracked : ∀ t ∈ d.tasks.values, Tracked es d t

theorem Followed.aside (h : Followed es d) (hapart : d.Apart d') : Followed es d' where
  records := by rw [hapart.tasks, h.records]
  tracked t ht := by
    rw [hapart.tasks] at ht
    have htracked := h.tracked t ht
    refine ⟨?_, ?_, ?_, ?_, ?_, ?_, htracked.keeps⟩
    · rw [hapart.root]
      exact htracked.apart
    · rw [hapart.kinds t ht t.body (by simp)]
      exact htracked.block
    · rw [hapart.root, hapart.call t ht]
      exact htracked.call
    · rw [hapart.kinds t ht t.call (by simp)]
      exact htracked.kind
    · rw [hapart.contents t ht]
      exact htracked.body
    · rw [hapart.root]
      exact htracked.stays

section

variable {t : Task} {m old new : ComponentId} {n : Netlist}

/-- An exchange in the root module decides whether the module of a task is still there. -/
theorem Tracked.call_exchanged (h : Tracked es d t) (hroot : d.root.index < d.netlist.components.size)
    (hn : d.netlist.Refilled m old new (·.recalled old new) n) :
    t.call ∈ n.contents d.root ↔ stands d.root t.call (es ++ [.exchanged m old new]) = true := by
  obtain ⟨body, -, hkind⟩ := h.kind
  rw [stands_append]
  simp only [Event.place]
  split
  · next hm =>
    subst hm
    by_cases hnew : new = t.call
    · subst hnew
      simpa using hn.new_mem hkind rfl
    · rw [hn.mem_contents (Ne.symm hnew), h.call]
      simp only [hnew, decide_false, Bool.false_or, Bool.and_eq_true, decide_eq_true_eq]
      exact and_congr_right' ⟨Ne.symm, Ne.symm⟩
  · next hm => rw [hn.contents_other hroot (Ne.symm hm), h.call]

/-- The module of a task goes on naming the body that it has. -/
theorem Tracked.kind_exchanged (h : Tracked es d t)
    (hn : d.netlist.Refilled m old new (·.recalled old new) n) :
    ∃ body, bodyAfter? t.call (es ++ [.exchanged m old new]) = some body ∧
      n.kind? t.call = some (.module (.task body)) := by
  obtain ⟨body, hbody, hkind⟩ := h.kind
  have hkind' := hn.kind?_eq hkind
  rw [bodyAfter?_append, hbody]
  simp only [Event.refill, Option.some.injEq]
  by_cases hm : t.call = m
  · by_cases hold : body = old
    · exact ⟨new, if_pos ⟨hm.symm, hold⟩,
        hkind'.trans (by simp [hm, hold, Netlist.ComponentKind.recalled])⟩
    · exact ⟨body, if_neg fun h => hold h.2,
        hkind'.trans (by simp [hm, hold, Netlist.ComponentKind.recalled])⟩
  · exact ⟨body, if_neg fun h => hm h.1.symm, hkind'.trans (by simp [hm])⟩

/-- If the body of a task is the recorded one after an exchange in its module, then it stands there:
it was put there now, or it was there and is not what was taken out. -/
theorem Tracked.body_exchanged (h : Tracked es d t)
    (hn : d.netlist.Refilled m old new (·.recalled old new) n)
    (hsame : bodyAfter? t.call (es ++ [.exchanged m old new]) = some t.body) :
    t.body ∈ n.contents t.call := by
  obtain ⟨body, hbody, hkind⟩ := h.kind
  rw [bodyAfter?_append, hbody] at hsame
  simp only [Event.refill, Option.some.injEq] at hsame
  by_cases hm : t.call = m
  · subst hm
    by_cases hnew : t.body = new
    · subst hnew
      exact hn.new_mem h.block rfl
    · by_cases hold : body = old
      · rw [if_pos ⟨rfl, hold⟩] at hsame
        exact absurd (Option.some.inj hsame).symm hnew
      · rw [if_neg fun h => hold h.2] at hsame
        obtain rfl := Option.some.inj hsame
        exact (hn.mem_contents hnew).mpr ⟨h.body hbody, hold⟩
  · rw [if_neg fun h => hm h.1.symm] at hsame
    rw [hn.contents_other (lt_of_kind? hkind) hm]
    exact h.body (hbody.trans hsame)

theorem stands_exchanged {call root : ComponentId} (h : stands root call es = true)
    (hne : ¬ (m = root ∧ old = call)) : stands root call (es ++ [.exchanged m old new]) = true := by
  rw [stands_append, h]
  simp only [Event.place]
  split
  · next hm =>
    have hold : old ≠ call := fun heq => hne ⟨hm, heq⟩
    simp [hold]
  · rfl

theorem bodyAfter?_exchanged {call body : ComponentId} (h : bodyAfter? call es = some body)
    (hne : ¬ (m = call ∧ old = body)) :
    bodyAfter? call (es ++ [.exchanged m old new]) = some body := by
  rw [bodyAfter?_append, h]
  exact if_neg fun ⟨hm, hold⟩ => hne ⟨hm, (Option.some.inj hold).symm⟩

theorem Tracked.exchange (h : Tracked es d t) (hroot : d.root.index < d.netlist.components.size)
    (hn : d.netlist.Refilled m old new (·.recalled old new) n) :
    Tracked (es ++ [.exchanged m old new]) { d with netlist := n } t where
  apart := h.apart
  block := by
    refine (hn.kind?_eq h.block).trans ?_
    split <;> rfl
  call := h.call_exchanged hroot hn
  kind := h.kind_exchanged hn
  body := h.body_exchanged hn
  stays hnone := by
    refine stands_exchanged (h.stays fun new hmem => hnone new (List.mem_append_left _ hmem)) ?_
    rintro ⟨rfl, rfl⟩
    exact hnone new (by simp)
  keeps hnone := by
    refine bodyAfter?_exchanged (h.keeps fun new hmem => hnone new (List.mem_append_left _ hmem)) ?_
    rintro ⟨rfl, rfl⟩
    exact hnone new (by simp)

theorem Followed.exchange (h : Followed es d) (hroot : d.root.index < d.netlist.components.size)
    (hn : d.netlist.Refilled m old new (·.recalled old new) n) :
    Followed (es ++ [.exchanged m old new]) { d with netlist := n } where
  records := by
    rw [List.filterMap_append]
    exact h.records.trans (List.append_nil _).symm
  tracked t ht := (h.tracked t ht).exchange hroot hn

end

section

variable {name : String} {body : ComponentId}

theorem Tasked.kind?_eq (h : Tasked d d' name body) {c : ComponentId} {k : Netlist.ComponentKind}
    (hk : d.netlist.kind? c = some k) : d'.netlist.kind? c = some k := by
  obtain ⟨v, hv, rfl⟩ := Netlist.exists_of_kind? hk
  obtain ⟨w, hw, hkind, -⟩ := h.old c v hv
  rw [Netlist.kind?, hw, Option.map_some, hkind]

theorem Tasked.contents_other (h : Tasked d d' name body) {c : ComponentId} {k : Netlist.ComponentKind}
    (hk : d.netlist.kind? c = some k) (hc : c ≠ d.root) :
    d'.netlist.contents c = d.netlist.contents c := by
  obtain ⟨v, hv, -⟩ := Netlist.exists_of_kind? hk
  obtain ⟨w, hw, -, hchildren⟩ := h.old c v hv
  rw [Netlist.contents, Netlist.contents, hw, hv, Option.bind_some, Option.bind_some, hchildren hc]

/-- The module of the task that is added is none of those that there were. -/
theorem Tracked.add {t : Task} (h : Tracked es d t) (hd : Tasked d d' name body) :
    Tracked (es ++ [.added ⟨name, d.netlist.components.next, body⟩]) d' t := by
  obtain ⟨b, hb, hkind⟩ := h.kind
  have hfresh : d.netlist.components.next ≠ t.call := fun heq =>
    Nat.lt_irrefl _ (heq ▸ lt_of_kind? hkind)
  refine ⟨hd.root ▸ h.apart, hd.kind?_eq h.block, ?_, ⟨b, ?_, hd.kind?_eq hkind⟩, ?_,
    fun hnone => ?_, fun hnone => ?_⟩
  · simp [hd.root, hd.contents, Event.place, h.call, hfresh, hfresh.symm]
  · simp [Event.refill, hb, hfresh]
  · rw [bodyAfter?_append, Event.refill, if_neg hfresh, hd.contents_other hkind h.apart]
    exact h.body
  · rw [hd.root] at hnone ⊢
    rw [stands_append, h.stays fun new hmem => hnone new (List.mem_append_left _ hmem)]
    rfl
  · rw [bodyAfter?_append, h.keeps fun new hmem => hnone new (List.mem_append_left _ hmem)]
    exact if_neg hfresh

theorem Tasked.tracked (hd : Tasked d d' name body) (hroot : d.root ≠ d.netlist.components.next)
    (hblock : d.netlist.kind? body = some (.module .block)) :
    Tracked (es ++ [.added ⟨name, d.netlist.components.next, body⟩]) d'
      ⟨name, d.netlist.components.next, body⟩ where
  apart := hd.root ▸ hroot.symm
  block := hd.kind?_eq hblock
  call := by simp [hd.root, hd.contents, Event.place]
  kind := ⟨body, by simp [Event.refill], by simp [Netlist.kind?, hd.call]⟩
  body _ := by simp [contents_eq hd.call rfl]
  stays _ := by simp [hd.root, Event.place]
  keeps _ := by simp [Event.refill]

theorem Followed.add (h : Followed es d) (hroot : d.root ≠ d.netlist.components.next)
    (hblock : d.netlist.kind? body = some (.module .block)) (hd : Tasked d d' name body) :
    Followed (es ++ [.added ⟨name, d.netlist.components.next, body⟩]) d' where
  records := by
    rw [hd.tasks, List.filterMap_append, ← h.records]
    simp [Arena.values, Arena.push, Event.task?]
  tracked t ht := by
    rw [hd.tasks] at ht
    rcases Array.mem_push.mp (by simpa [Arena.values, Arena.push] using ht) with ht | rfl
    · exact (h.tracked t (by simpa [Arena.values] using ht)).add hd
    · exact hd.tracked hroot hblock

end

theorem Course.followed (h : Course es d) : Followed es d := by
  induction h with
  | new name =>
      have htasks : (Design.new name).tasks = ∅ := by simp only [Design.new]
      exact ⟨by rw [htasks]; rfl, by rw [htasks]; exact fun t ht => nomatch ht⟩
  | aside call _ _ _ hapart ih => exact ih.aside hapart
  | @add es d d' t name body hbefore hblock hfree hyields ih =>
      have hroot := (hbefore.reached.sound.root.1).2
      obtain ⟨r, hr⟩ := Arena.exists_get? hroot
      obtain ⟨v, hv, -⟩ := Netlist.exists_of_kind? hblock
      obtain ⟨j, j', hrun⟩ := hyields
      have hadded := wp_addTask_standing (s := ⟨d, j⟩) name hv (by simpa [hv] using hfree)
        (standing?_eq hr)
      rw [wp, hrun] at hadded
      exact ih.add (fun heq => Nat.lt_irrefl _ (heq ▸ hroot)) hblock hadded
  | @exchange es d d' done m old new hbefore _ hfits hyields ih =>
      have hroot := (hbefore.reached.sound.root.1).2
      have hnew : new.index < d.netlist.components.size :=
        hfits.refs (.component new) (by simp [Call.refs, Netlist.Call.refs])
      have howned := (Netlist.Reachable.inDesign hbefore.reached).owned
      obtain ⟨j, j', hrun⟩ := hyields
      have hdone : wp (Netlist.replaceComponent m old new) _ _ ⟨d.netlist, j⟩ :=
        Netlist.wp_replaceComponent_standing howned hnew
      have hwired : wp (wiring (Netlist.replaceComponent m old new)) (fun done t =>
          (done = false ∧ t.state = d) ∨ done = true ∧ ∃ n, t.state = { d with netlist := n } ∧
            d.netlist.Refilled m old new (·.recalled old new) n) (fun e _ => e.Unless False)
          ⟨d, j⟩ := by
        rw [wiring, wp_within]
        refine wp_mono hdone (fun done t ht => ht.imp (fun ht => ⟨ht.1, ?_⟩) fun ht =>
          ⟨ht.1, _, rfl, ht.2⟩) fun _ _ h => h
        rw [ht.2]
      rw [wp, hrun] at hwired
      obtain ⟨rfl, rfl⟩ | ⟨rfl, n, rfl, hn⟩ := hwired
      · exact ih
      · exact ih.exchange hroot hn

/-! ### Records and modules -/

/-- What the records of tasks say of the netlist, after anything that can happen to them: no record
is ever rewritten, the module of a task stands in the root module unless it was taken out, and the
module names the body that was last put into it. -/
structure Accurate (es : List Event) (d : Design) : Prop where
  records : d.tasks.values = es.filterMap Event.task?
  call : ∀ t ∈ d.tasks.values,
    (t.call ∈ d.netlist.contents d.root ↔ stands d.root t.call es = true)
  kind : ∀ t ∈ d.tasks.values, ∃ body, bodyAfter? t.call es = some body ∧
    d.netlist.kind? t.call = some (.module (.task body))
  agrees : ∀ t ∈ d.tasks.values,
    (d.Agrees t ↔ stands d.root t.call es = true ∧ bodyAfter? t.call es = some t.body)
  /-- What was not exchanged is as it was recorded. -/
  untouched : ∀ t ∈ d.tasks.values, (∀ new, .exchanged d.root t.call new ∉ es) →
    (∀ new, .exchanged t.call t.body new ∉ es) → d.Agrees t
  /-- What a design needs is what the tasks that stand in it need, if no task was taken out. -/
  consumes : (∀ t ∈ d.tasks.values, ∀ new, .exchanged d.root t.call new ∉ es) →
    ∀ p, d.anyTask p = true ↔ ∃ t ∈ d.tasks.values, t.call ∈ d.netlist.contents d.root ∧
      ∃ x, d.netlist.components.get? t.call = some x ∧ p x = true

/-- The records of tasks agree with the netlist exactly where nothing was exchanged for good. -/
theorem records_accurate (h : Course es d) : Accurate es d := by
  obtain ⟨hrecords, htracked⟩ := h.followed
  have hagrees : ∀ t ∈ d.tasks.values,
      (d.Agrees t ↔ stands d.root t.call es = true ∧ bodyAfter? t.call es = some t.body) := by
    intro t ht
    obtain ⟨-, -, hcall, ⟨body, hbody, hkind⟩, hheld, -, -⟩ := htracked t ht
    constructor
    · rintro ⟨hin, hsame, -⟩
      have heq : body = t.body := by simpa [hkind] using hsame
      exact ⟨hcall.mp hin, heq ▸ hbody⟩
    · rintro ⟨hstands, hsame⟩
      obtain rfl := Option.some.inj (hbody.symm.trans hsame)
      exact ⟨hcall.mpr hstands, hkind, hheld hbody⟩
  refine ⟨hrecords, fun t ht => (htracked t ht).call, fun t ht => (htracked t ht).kind, hagrees,
    fun t ht hcall hbody => (hagrees t ht).mpr ⟨(htracked t ht).stays hcall,
      (htracked t ht).keeps hbody⟩, fun hnone p => ?_⟩
  simp only [anyTask, List.any_eq_true, Option.any_eq_true]
  refine exists_congr fun t => and_congr_right fun ht => ?_
  have hin := (htracked t ht).call.mpr ((htracked t ht).stays (hnone t ht))
  simp [hin]

theorem yields_run {α : Type} {x : Step α} {a : α} (ha : (x.run ⟨d, #[]⟩).1.toOption = some a) :
    x.Yields d a (x.run ⟨d, #[]⟩).2.state := by
  refine ⟨#[], (x.run ⟨d, #[]⟩).2.journal, ?_⟩
  unfold Build.run at ha ⊢
  split at ha
  · next heq =>
    obtain rfl := Option.some.inj ha
    simp only [heq]
  · cases ha

/-- A task whose body is exchanged, beside one that nothing happens to. -/
theorem records_accurate_pair : ∃ es d, Accurate es d ∧
    d.tasks.values.map (fun t => decide (d.Agrees t)) = [false, true] := by
  have h₀ : Course [] (Design.new "top") := .new "top"
  have h₁ := h₀.aside (.netlist (.newModule .block "a" 0)) ⟨by decide, by decide⟩
    (leaves_run (by decide +kernel)) (by decide +kernel)
  have h₂ := h₁.add "a" ⟨3⟩ (by decide +kernel) (by decide +kernel)
    (yields_run (a := ⟨0⟩) (by decide +kernel))
  have h₃ := h₂.aside (.netlist (.newModule .block "b" 0)) ⟨by decide, by decide⟩
    (leaves_run (by decide +kernel)) (by decide +kernel)
  have h₄ := h₃.add "b" ⟨7⟩ (by decide +kernel) (by decide +kernel)
    (yields_run (a := ⟨1⟩) (by decide +kernel))
  have h₅ := h₄.aside (.netlist (.newModule .block "c" 0)) ⟨by decide, by decide⟩
    (leaves_run (by decide +kernel)) (by decide +kernel)
  have h₆ := h₅.exchange ⟨5⟩ ⟨3⟩ ⟨11⟩ (.inr (by decide +kernel)) ⟨by decide +kernel, by decide⟩
    (yields_run (a := true) (by decide +kernel))
  exact ⟨_, _, records_accurate h₆, by decide +kernel⟩

/-- The body of a task is exchanged, and then its module, and the record knows of neither. -/
theorem record_left_behind : ¬ ∀ es d, Course es d → ∀ t ∈ d.tasks.values, d.Agrees t := by
  intro hall
  have h₀ : Course [] (Design.new "top") := .new "top"
  have h₁ := h₀.aside (.netlist (.newModule .block "a" 0)) ⟨by decide, by decide⟩
    (leaves_run (by decide +kernel)) (by decide +kernel)
  have h₂ := h₁.add "a" ⟨3⟩ (by decide +kernel) (by decide +kernel)
    (yields_run (a := ⟨0⟩) (by decide +kernel))
  have h₃ := h₂.aside (.netlist (.newModule .block "b" 0)) ⟨by decide, by decide⟩
    (leaves_run (by decide +kernel)) (by decide +kernel)
  have h₄ := h₃.exchange ⟨5⟩ ⟨3⟩ ⟨7⟩ (.inr (by decide +kernel)) ⟨by decide +kernel, by decide⟩
    (yields_run (a := true) (by decide +kernel))
  have h₅ := h₄.aside (.netlist (.newModule .block "c" 0)) ⟨by decide, by decide⟩
    (leaves_run (by decide +kernel)) (by decide +kernel)
  have h₆ := h₅.exchange ⟨0⟩ ⟨5⟩ ⟨9⟩ (.inl (by decide +kernel)) ⟨by decide +kernel, by decide⟩
    (yields_run (a := true) (by decide +kernel))
  exact absurd (hall _ _ h₆) (by decide +kernel)

end Design

end DataflowSynth
