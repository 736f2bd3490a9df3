/-
What stands at the boundary of a module, and what it mirrors.

A module is seen twice: from outside by its ports and the buses of its exits, and from inside by its
InBuf and its OutBufs.  `borders` is that part of a netlist and nothing else: the faces of components,
the buses of exits, and which terminals repeat each other.  The two sides agree if they are changed
together, and if nothing else refers to what is changed.
-/
import DataflowSynth.Netlist.Module
import Mathlib.Data.List.Forall2

namespace DataflowSynth.Netlist

/-! ### Borders -/

/-- What a component shows of itself. -/
structure Face where
  clock : PortId
  reset : PortId
  go : PortId
  this : Option PortId
  dataPorts : List PortId
  exits : List (ExitTag × ExitId)
  /-- The InBuf of a module. -/
  inBuf : Option ComponentId
  consumesGo : Bool
  producesDone : Bool

def Component.face (x : Component) : Face where
  clock := x.clock
  reset := x.reset
  go := x.go
  this := x.this
  dataPorts := x.dataPorts
  exits := x.exits.entries
  inBuf := x.interior.map Interior.inBuf
  consumesGo := x.consumesGo
  producesDone := x.producesDone

/-- The face of a component that is to be made. -/
def newFace (n : Netlist) : Face where
  clock := ⟨n.ports.size⟩
  reset := ⟨n.ports.size + 1⟩
  go := ⟨n.ports.size + 2⟩
  this := none
  dataPorts := []
  exits := []
  inBuf := none
  consumesGo := false
  producesDone := false

/-- The control ports that an InBuf repeats beside the go of its module. -/
def Face.controls (x : Face) : List PortId := [x.clock, x.reset] ++ x.this.toList

def Face.Lists (x : Face) (e : ExitId) : Prop := e ∈ x.exits.map Prod.snd

/-- The buses of an exit, and its OutBuf. -/
structure Opening where
  done : BusId
  data : List BusId
  control : List BusId
  outBuf : Option ComponentId

/-- The opening of an exit that has no data buses yet. -/
def Opening.bare (done : BusId) (outBuf : Option ComponentId) : Opening where
  done := done
  data := []
  control := []
  outBuf := outBuf

def Exit.outlet (y : Exit) : Opening where
  done := y.done
  data := y.data
  control := y.control
  outBuf := y.peer

/-- Faces and exits, and which terminals repeat each other. -/
@[ext] structure Borders where
  face? : ComponentId → Option Face
  outlet? : ExitId → Option Opening
  portPeer? : PortId → Option BusId
  busPeer? : BusId → Option PortId

def borders (n : Netlist) : Borders where
  face? c := (n.components.get? c).map Component.face
  outlet? e := (n.exits.get? e).map Exit.outlet
  portPeer? p := (n.ports.get? p).bind Port.peer
  busPeer? b := (n.buses.get? b).bind Bus.peer

namespace Borders

/-- `y` is the exit of the InBuf `b`, which repeats the ports of the module `x`. -/
structure Repeats (h : Borders) (x b : Face) (y : Opening) : Prop where
  go : h.portPeer? x.go = some y.done
  control : List.Forall₂ (fun p d => h.portPeer? p = some d) x.controls y.control
  data : List.Forall₂ (fun p d => h.portPeer? p = some d) x.dataPorts y.data
  mark : b.producesDone = x.consumesGo

/-- The OutBuf `b` gathers what the module `x` gives out at its exit `y`. -/
structure Gathers (h : Borders) (x : Face) (y : Opening) (b : Face) : Prop where
  go : h.busPeer? y.done = some b.go
  data : List.Forall₂ (fun d p => h.busPeer? d = some p) y.data b.dataPorts
  mark : b.consumesGo = x.producesDone

/-- `b` is the InBuf of the module `m`, and `y` an exit of it. -/
structure Entrance (h : Borders) (m : ComponentId) (x : Face) (c : ComponentId) (b : Face)
    (e : ExitId) (y : Opening) : Prop where
  module : h.face? m = some x
  inBuf : x.inBuf = some c
  face : h.face? c = some b
  lists : b.Lists e
  outlet : h.outlet? e = some y

/-- `b` is the OutBuf of the exit `y` of the module `m`. -/
structure Way (h : Borders) (m : ComponentId) (x : Face) (e : ExitId) (y : Opening)
    (o : ComponentId) (b : Face) : Prop where
  module : h.face? m = some x
  inBuf : x.inBuf ≠ none
  lists : x.Lists e
  outlet : h.outlet? e = some y
  outBuf : y.outBuf = some o
  face : h.face? o = some b

/-- Boundaries mirror what is on their other side. -/
structure Mirrored (h : Borders) : Prop where
  symmetric : ∀ p d, h.portPeer? p = some d ↔ h.busPeer? d = some p
  repeated : ∀ {m x c b e y}, h.Entrance m x c b e y → h.Repeats x b y
  gathered : ∀ {m x e y o b}, h.Way m x e y o b → h.Gathers x y b

/-- Terminals keep the peers that they have. -/
structure Grows (h h' : Borders) : Prop where
  ports : ∀ p d, h.portPeer? p = some d → h'.portPeer? p = some d
  buses : ∀ d p, h.busPeer? d = some p → h'.busPeer? d = some p

variable {h h' : Borders} {x x' b b' : Face} {y y' : Opening}

/-- As far as an InBuf repeats it, a module is what it was. -/
structure SameInputs (x b : Face) (y : Opening) (x' b' : Face) (y' : Opening) : Prop where
  go : x'.go = x.go
  controls : x'.controls = x.controls
  dataPorts : x'.dataPorts = x.dataPorts
  consumesGo : x'.consumesGo = x.consumesGo
  producesDone : b'.producesDone = b.producesDone
  done : y'.done = y.done
  data : y'.data = y.data
  control : y'.control = y.control

structure SameOutputs (x : Face) (y : Opening) (b x' : Face) (y' : Opening) (b' : Face) : Prop where
  producesDone : x'.producesDone = x.producesDone
  done : y'.done = y.done
  data : y'.data = y.data
  go : b'.go = b.go
  dataPorts : b'.dataPorts = b.dataPorts
  consumesGo : b'.consumesGo = b.consumesGo

theorem SameInputs.refl : SameInputs x b y x b y := ⟨rfl, rfl, rfl, rfl, rfl, rfl, rfl, rfl⟩

theorem SameOutputs.refl : SameOutputs x y b x y b := ⟨rfl, rfl, rfl, rfl, rfl, rfl⟩

theorem Repeats.mono (hr : h.Repeats x b y) (hgrow : h.Grows h')
    (hsame : SameInputs x b y x' b' y') : h'.Repeats x' b' y' where
  go := by rw [hsame.go, hsame.done]; exact hgrow.ports _ _ hr.go
  control := by
    rw [hsame.controls, hsame.control]
    exact hr.control.imp fun p d => hgrow.ports p d
  data := by
    rw [hsame.dataPorts, hsame.data]
    exact hr.data.imp fun p d => hgrow.ports p d
  mark := by rw [hsame.producesDone, hsame.consumesGo, hr.mark]

theorem Gathers.mono (hg : h.Gathers x y b) (hgrow : h.Grows h')
    (hsame : SameOutputs x y b x' y' b') : h'.Gathers x' y' b' where
  go := by rw [hsame.done, hsame.go]; exact hgrow.buses _ _ hg.go
  data := by
    rw [hsame.dataPorts, hsame.data]
    exact hg.data.imp fun d p => hgrow.buses d p
  mark := by rw [hsame.consumesGo, hsame.producesDone, hg.mark]

/-- Every boundary is as it was, or made well. -/
theorem Mirrored.of (hm : h.Mirrored) (hgrow : h.Grows h')
    (hsymmetric : ∀ p d, h'.portPeer? p = some d ↔ h'.busPeer? d = some p)
    (hin : ∀ {m x' c b' e y'}, h'.Entrance m x' c b' e y' →
      (∃ x b y, h.Entrance m x c b e y ∧ SameInputs x b y x' b' y') ∨ h'.Repeats x' b' y')
    (hout : ∀ {m x' e y' o b'}, h'.Way m x' e y' o b' →
      (∃ x y b, h.Way m x e y o b ∧ SameOutputs x y b x' y' b') ∨ h'.Gathers x' y' b') :
    h'.Mirrored where
  symmetric := hsymmetric
  repeated he := by
    rcases hin he with ⟨x, b, y, hold, hsame⟩ | hr
    · exact (hm.repeated hold).mono hgrow hsame
    · exact hr
  gathered hw := by
    rcases hout hw with ⟨x, y, b, hold, hsame⟩ | hg
    · exact (hm.gathered hold).mono hgrow hsame
    · exact hg

/-! ### Changes -/

def reface (h : Borders) (c : ComponentId) (x : Face) : Borders :=
  { h with face? := fun d => if d = c then some x else h.face? d }

def reoutlet (h : Borders) (e : ExitId) (y : Opening) : Borders :=
  { h with outlet? := fun d => if d = e then some y else h.outlet? d }

/-- `p` and `d` are made to repeat each other. -/
def join (h : Borders) (p : PortId) (d : BusId) : Borders :=
  { h with
    portPeer? := fun q => if q = p then some d else h.portPeer? q
    busPeer? := fun b => if b = d then some p else h.busPeer? b }

/-- Which terminals repeat each other. -/
abbrev Peers := (PortId → Option BusId) × (BusId → Option PortId)

def Peers.join (q : Peers) (p : PortId) (d : BusId) : Peers :=
  (fun r => if r = p then some d else q.1 r, fun b => if b = d then some p else q.2 b)

def peers (h : Borders) : Peers := (h.portPeer?, h.busPeer?)

theorem peers_join (h : Borders) (p : PortId) (d : BusId) :
    (h.join p d).peers = h.peers.join p d := rfl

theorem reface_self {c : ComponentId} (hx : h.face? c = some x) : h.reface c x = h := by
  have hsame : (fun d => if d = c then some x else h.face? d) = h.face? := by
    funext d
    split
    · next heq => rw [heq, hx]
    · rfl
  simp only [reface, hsame]

theorem grows_join {p : PortId} {d : BusId} (hp : h.portPeer? p = none) (hd : h.busPeer? d = none) :
    h.Grows (h.join p d) := by
  constructor <;> simp only [join] <;> grind

theorem symmetric_join (hsymmetric : ∀ p d, h.portPeer? p = some d ↔ h.busPeer? d = some p)
    {p : PortId} {d : BusId} (hp : h.portPeer? p = none) (hd : h.busPeer? d = none) (q : PortId)
    (b : BusId) : (h.join p d).portPeer? q = some b ↔ (h.join p d).busPeer? b = some q := by
  have hq := hsymmetric q d
  have hb := hsymmetric p b
  have hqb := hsymmetric q b
  simp only [join]
  grind

/-- The component stands at no boundary. -/
structure Inner (h : Borders) (c : ComponentId) : Prop where
  inBuf : ∀ m x, h.face? m = some x → x.inBuf ≠ some c
  outBuf : ∀ e y, h.outlet? e = some y → y.outBuf ≠ some c

variable {c k o : ComponentId} {e : ExitId} {p : PortId} {d : BusId}

theorem Mirrored.join (hm : h.Mirrored) (hp : h.portPeer? p = none) (hd : h.busPeer? d = none) :
    (h.join p d).Mirrored := by
  refine hm.of (grows_join hp hd) (symmetric_join hm.symmetric hp hd) (fun {m x k b e y} he => .inl ?_)
    fun {m x e y o b} hw => .inl ?_
  · exact ⟨x, b, y, ⟨he.module, he.inBuf, he.face, he.lists, he.outlet⟩, .refl⟩
  · exact ⟨x, y, b, ⟨hw.module, hw.inBuf, hw.lists, hw.outlet, hw.outBuf, hw.face⟩, .refl⟩

/-- A component at no boundary may show itself as it likes, if its own boundary fits. -/
theorem Mirrored.reface (hm : h.Mirrored) (hc : h.Inner c)
    (hin : ∀ {k b e y}, (h.reface c x').Entrance c x' k b e y → h.Repeats x' b y)
    (hout : ∀ {e y o b}, (h.reface c x').Way c x' e y o b → h.Gathers x' y b) :
    (h.reface c x').Mirrored := by
  refine hm.of ⟨fun _ _ h => h, fun _ _ h => h⟩ hm.symmetric (fun {m v k b e y} he => ?_)
    fun {m v e y o b} hw => ?_
  · by_cases hmc : m = c
    · obtain rfl : v = x' := by simpa [Borders.reface, hmc] using he.module.symm
      rw [hmc] at he
      exact .inr ⟨(hin he).go, (hin he).control, (hin he).data, (hin he).mark⟩
    · obtain ⟨hmodule, hinBuf, hface, hlists, hout⟩ := he
      simp only [Borders.reface, if_neg hmc] at hmodule
      have hne : k ≠ c := fun heq => hc.inBuf m v hmodule (heq ▸ hinBuf)
      simp only [Borders.reface, if_neg hne] at hface
      exact .inl ⟨v, b, y, ⟨hmodule, hinBuf, hface, hlists, hout⟩, .refl⟩
  · by_cases hmc : m = c
    · obtain rfl : v = x' := by simpa [Borders.reface, hmc] using hw.module.symm
      rw [hmc] at hw
      exact .inr ⟨(hout hw).go, (hout hw).data, (hout hw).mark⟩
    · obtain ⟨hmodule, hinBuf, hlists, hout, hpeer, hface⟩ := hw
      simp only [Borders.reface, if_neg hmc] at hmodule
      have hne : o ≠ c := fun heq => hc.outBuf e y hout (heq ▸ hpeer)
      simp only [Borders.reface, if_neg hne] at hface
      exact .inl ⟨v, y, b, ⟨hmodule, hinBuf, hlists, hout, hpeer, hface⟩, .refl⟩

/-- A component that is no module has no boundary to fit. -/
theorem Mirrored.reface_plain (hm : h.Mirrored) (hc : h.Inner c) (hx : x'.inBuf = none) :
    (h.reface c x').Mirrored :=
  hm.reface hc (fun he => absurd he.inBuf (by simp [hx])) fun hw => absurd hx hw.inBuf

/-- A component lists other exits.  Those that are new to it gather what it gives out. -/
theorem Mirrored.relist (hm : h.Mirrored) (hc : h.Inner c) (hx : h.face? c = some x)
    (exits : List (ExitTag × ExitId))
    (hnew : x.inBuf ≠ none → ∀ e ∈ exits.map Prod.snd, ¬ x.Lists e → ∀ {y o b},
      h.outlet? e = some y → y.outBuf = some o → h.face? o = some b → h.Gathers x y b) :
    (h.reface c { x with exits }).Mirrored := by
  refine hm.reface hc (fun {k b e y} he => ?_) fun {e y o b} hw => ?_
  · obtain ⟨-, hinBuf, hface, hlists, houtlet⟩ := he
    have hkc : k ≠ c := fun heq => hc.inBuf c x hx (heq ▸ hinBuf)
    simp only [Borders.reface, if_neg hkc] at hface
    have hr := hm.repeated ⟨hx, hinBuf, hface, hlists, houtlet⟩
    exact ⟨hr.go, hr.control, hr.data, hr.mark⟩
  · obtain ⟨-, hinBuf, hlists, houtlet, hpeer, hface⟩ := hw
    have hoc : o ≠ c := fun heq => hc.outBuf e y houtlet (heq ▸ hpeer)
    simp only [Borders.reface, if_neg hoc] at hface
    have hg : h.Gathers x y b := by
      by_cases hold : x.Lists e
      · exact hm.gathered ⟨hx, hinBuf, hold, houtlet, hpeer, hface⟩
      · exact hnew hinBuf e hlists hold houtlet hpeer hface
    exact ⟨hg.go, hg.data, hg.mark⟩

/-- An exit that is none of an InBuf nor has one may be anything. -/
theorem Mirrored.reoutlet (hm : h.Mirrored) (y' : Opening)
    (hin : ∀ {m x k b}, h.face? m = some x → x.inBuf = some k → h.face? k = some b →
      ¬ b.Lists e)
    (hout : ∀ {m x}, h.face? m = some x → x.inBuf ≠ none → x.Lists e → y'.outBuf = none) :
    (h.reoutlet e y').Mirrored := by
  refine hm.of ⟨fun _ _ h => h, fun _ _ h => h⟩ hm.symmetric
    (fun {m x k b e' y} he => .inl ?_) fun {m x e' y o b} hw => .inl ?_
  · obtain ⟨hmodule, hinBuf, hface, hlists, houtlet⟩ := he
    have hne : e' ≠ e := fun heq => hin hmodule hinBuf hface (heq ▸ hlists)
    simp only [Borders.reoutlet, if_neg hne] at houtlet
    exact ⟨x, b, y, ⟨hmodule, hinBuf, hface, hlists, houtlet⟩, .refl⟩
  · obtain ⟨hmodule, hinBuf, hlists, houtlet, hpeer, hface⟩ := hw
    simp only [Borders.reoutlet] at houtlet
    have hne : e' ≠ e := by
      rintro rfl
      rw [if_pos rfl, Option.some.injEq] at houtlet
      rw [← houtlet, hout hmodule hinBuf hlists] at hpeer
      cases hpeer
    rw [if_neg hne] at houtlet
    exact ⟨x, y, b, ⟨hmodule, hinBuf, hlists, houtlet, hpeer, hface⟩, .refl⟩

/-- A component is given an exit with an OutBuf. -/
theorem Mirrored.addExit (hm : h.Mirrored) (hc : h.Inner c) (hx : h.face? c = some x)
    (ho : h.Inner o) (hoc : o ≠ c) (hfresh : ∀ {k v}, h.face? k = some v → ¬ v.Lists e)
    (hb : b.inBuf = none) (hlists : ¬ b.Lists e) (hy : y.outBuf = some o)
    (hp : h.portPeer? p = none) (hd : h.busPeer? d = none) (hg : (h.join p d).Gathers x y b)
    (exits : List (ExitTag × ExitId)) (hexits : ∀ e' ∈ exits.map Prod.snd, x.Lists e' ∨ e' = e) :
    ((((h.reface o b).reoutlet e y).join p d).reface c { x with exits }).Mirrored := by
  have hfresh' : ∀ {k v}, (h.reface o b).face? k = some v → ¬ v.Lists e := by
    intro k v hv
    simp only [Borders.reface] at hv
    split at hv
    · cases hv
      exact hlists
    · exact hfresh hv
  have hmade : (((h.reface o b).reoutlet e y).join p d).Mirrored :=
    ((hm.reface_plain ho hb).reoutlet y (fun _ _ hk => hfresh' hk)
      fun hk _ he => absurd he (hfresh' hk)).join hp hd
  have hc' : (((h.reface o b).reoutlet e y).join p d).Inner c := by
    refine ⟨fun m v hv => ?_, fun e' w hw => ?_⟩
    · simp only [Borders.join, Borders.reoutlet, Borders.reface] at hv
      split at hv
      · cases hv
        simp [hb]
      · exact hc.inBuf m v hv
    · simp only [Borders.join, Borders.reoutlet] at hw
      split at hw
      · cases hw
        simpa [hy] using hoc
      · exact hc.outBuf e' w hw
  refine hmade.relist hc' ?_ exits fun _ e' he' hnot {w k v} hw hk hv => ?_
  · simpa [Borders.join, Borders.reoutlet, Borders.reface, hoc.symm] using hx
  · obtain rfl := (hexits e' he').resolve_left hnot
    obtain rfl : y = w := by simpa [Borders.join, Borders.reoutlet] using hw
    obtain rfl : k = o := Option.some.inj (hk.symm.trans hy)
    obtain rfl : b = v := by simpa [Borders.join, Borders.reoutlet, Borders.reface] using hv
    exact ⟨hg.go, hg.data, hg.mark⟩

/-- A component becomes a module with an InBuf, whose exit repeats its ports. -/
theorem Mirrored.addModule (hm : h.Mirrored) (hc : h.Inner c) (hk : h.Inner k) (hkc : k ≠ c)
    (hfresh : ∀ {k v}, h.face? k = some v → ¬ v.Lists e) (hb : b.inBuf = none)
    (hlists : ∀ e', b.Lists e' → e' = e) (hy : y.outBuf = none) (hx : x.inBuf = some k)
    (hexits : x.exits = []) (hr : h.Repeats x b y) :
    (((h.reface k b).reoutlet e y).reface c x).Mirrored := by
  have hmade : ((h.reface k b).reoutlet e y).Mirrored := by
    refine (hm.reface_plain hk hb).reoutlet y (fun {m v k' v'} hv hk' hv' => ?_) fun _ _ _ => hy
    simp only [Borders.reface] at hv hv'
    have hmk : m ≠ k := by
      rintro rfl
      rw [if_pos rfl, Option.some.injEq] at hv
      rw [← hv, hb] at hk'
      cases hk'
    rw [if_neg hmk] at hv
    have hne : k' ≠ k := fun heq => hk.inBuf m v hv (heq ▸ hk')
    rw [if_neg hne] at hv'
    exact hfresh hv'
  refine hmade.reface ⟨fun m v hv => ?_, fun e' w hw => ?_⟩ (fun {k' b' e' y'} he => ?_)
    fun hw => ?_
  · simp only [Borders.reoutlet, Borders.reface] at hv
    split at hv
    · cases hv
      simp [hb]
    · exact hc.inBuf m v hv
  · simp only [Borders.reoutlet] at hw
    split at hw
    · cases hw
      simp [hy]
    · exact hc.outBuf e' w hw
  · obtain ⟨-, hinBuf, hface, hlist, houtlet⟩ := he
    obtain rfl : k' = k := Option.some.inj (hinBuf.symm.trans hx)
    simp only [Borders.reoutlet, Borders.reface, if_neg hkc, if_pos, Option.some.injEq] at hface
    subst hface
    obtain rfl := hlists e' hlist
    simp only [Borders.reoutlet, Borders.reface, if_pos, Option.some.injEq] at houtlet
    subst houtlet
    exact ⟨hr.go, hr.control, hr.data, hr.mark⟩
  · exact absurd hw.lists (by simp [Face.Lists, hexits])

/-- No two boundaries have anything in common. -/
structure Apart (h : Borders) : Prop where
  inBuf_inj : ∀ {m x m' x' k}, h.face? m = some x → h.face? m' = some x' → x.inBuf = some k →
    x'.inBuf = some k → m = m'
  outBuf_inj : ∀ {e y e' y' o}, h.outlet? e = some y → h.outlet? e' = some y' →
    y.outBuf = some o → y'.outBuf = some o → e = e'
  lists_inj : ∀ {c x c' x' e}, h.face? c = some x → h.face? c' = some x' → x.Lists e →
    x'.Lists e → c = c'
  /-- An InBuf has one exit. -/
  single : ∀ {m x k b e e'}, h.face? m = some x → x.inBuf = some k → h.face? k = some b →
    b.Lists e → b.Lists e' → e = e'
  /-- A buffer is no module. -/
  inBuf_none : ∀ {m x k b}, h.face? m = some x → x.inBuf = some k → h.face? k = some b →
    b.inBuf = none
  outBuf_none : ∀ {e y o b}, h.outlet? e = some y → y.outBuf = some o → h.face? o = some b →
    b.inBuf = none
  /-- An InBuf is no OutBuf. -/
  disjoint : ∀ {m x k e y}, h.face? m = some x → x.inBuf = some k → h.outlet? e = some y →
    y.outBuf ≠ some k

/-- A module is at no boundary itself. -/
theorem Apart.inner (ha : h.Apart) (hx : h.face? c = some x) (hmodule : x.inBuf ≠ none) :
    h.Inner c where
  inBuf _ _ hv hk := hmodule (ha.inBuf_none hv hk hx)
  outBuf _ _ hy ho := hmodule (ha.outBuf_none hy ho hx)

/-- A module and its InBuf are given terminals that repeat each other. -/
theorem Mirrored.reinput (hm : h.Mirrored) (ha : h.Apart) (he : h.Entrance c x k b e y)
    (hin : x'.inBuf = x.inBuf) (hexits : x'.exits = x.exits)
    (hdone : x'.producesDone = x.producesDone) (hp : h.portPeer? p = none)
    (hd : h.busPeer? d = none) (hr : (h.join p d).Repeats x' b y') :
    (((h.reface c x').reoutlet e y').join p d).Mirrored := by
  obtain ⟨hmodule, hinBuf, hface, hlists, houtlet⟩ := he
  have hinner := ha.inner hmodule (by simp [hinBuf])
  have hkc : k ≠ c := fun heq => hinner.inBuf c x hmodule (heq ▸ hinBuf)
  have hgrow := grows_join hp hd
  refine hm.of ⟨hgrow.ports, hgrow.buses⟩ (symmetric_join hm.symmetric hp hd)
    (fun {m v k' b' e' y2} he' => ?_) fun {m v e' y2 o b'} hw => ?_
  · obtain ⟨hmodule', hinBuf', hface', hlists', houtlet'⟩ := he'
    simp only [Borders.join, Borders.reoutlet, Borders.reface] at hmodule' hface' houtlet'
    by_cases hmc : m = c
    · right
      rw [if_pos hmc, Option.some.injEq] at hmodule'
      subst hmodule'
      obtain rfl : k' = k := Option.some.inj (hinBuf'.symm.trans (hin.trans hinBuf))
      rw [if_neg hkc] at hface'
      cases hface.symm.trans hface'
      obtain rfl := ha.single hmodule hinBuf hface hlists hlists'
      rw [if_pos rfl, Option.some.injEq] at houtlet'
      subst houtlet'
      exact ⟨hr.go, hr.control, hr.data, hr.mark⟩
    · left
      rw [if_neg hmc] at hmodule'
      have hk' : k' ≠ c := fun heq => hinner.inBuf m v hmodule' (heq ▸ hinBuf')
      rw [if_neg hk'] at hface'
      have he' : e' ≠ e := by
        rintro rfl
        obtain rfl := ha.lists_inj hface hface' hlists hlists'
        exact hmc (ha.inBuf_inj hmodule' hmodule hinBuf' hinBuf)
      rw [if_neg he'] at houtlet'
      exact ⟨v, b', y2, ⟨hmodule', hinBuf', hface', hlists', houtlet'⟩, .refl⟩
  · obtain ⟨hmodule', hinBuf', hlists', houtlet', hpeer, hface'⟩ := hw
    simp only [Borders.join, Borders.reoutlet, Borders.reface] at hmodule' hface' houtlet'
    -- The exit of the InBuf is none of a module.
    have hexit : ∀ {u}, h.face? m = some u → u.inBuf ≠ none → u.Lists e' → e' ≠ e := by
      rintro u hu huin hulists rfl
      obtain rfl := ha.lists_inj hface hu hlists hulists
      cases hface.symm.trans hu
      exact huin (ha.inBuf_none hmodule hinBuf hface)
    by_cases hmc : m = c
    · rw [if_pos hmc, Option.some.injEq] at hmodule'
      subst hmodule'
      have hlists' : x.Lists e' := by rwa [Face.Lists, ← hexits]
      have he' := hexit (hmc ▸ hmodule) (by simp [hinBuf]) hlists'
      rw [if_neg he'] at houtlet'
      have ho : o ≠ c := fun heq => hinner.outBuf e' y2 houtlet' (heq ▸ hpeer)
      rw [if_neg ho] at hface'
      exact .inl ⟨x, y2, b', ⟨hmc ▸ hmodule, by simp [hinBuf], hlists', houtlet', hpeer, hface'⟩,
        ⟨hdone, rfl, rfl, rfl, rfl, rfl⟩⟩
    · rw [if_neg hmc] at hmodule'
      rw [if_neg (hexit hmodule' hinBuf' hlists')] at houtlet'
      have ho : o ≠ c := fun heq => hinner.outBuf e' y2 houtlet' (heq ▸ hpeer)
      rw [if_neg ho] at hface'
      exact .inl ⟨v, y2, b', ⟨hmodule', hinBuf', hlists', houtlet', hpeer, hface'⟩, .refl⟩

/-- An exit with an OutBuf is given terminals that repeat each other. -/
theorem Mirrored.reoutput (hm : h.Mirrored) (ha : h.Apart) (hy : h.outlet? e = some y)
    (ho : y.outBuf = some o) (hb : h.face? o = some b) (hpeer : y'.outBuf = y.outBuf)
    (hin : b'.inBuf = b.inBuf) (hlisted : ∀ m x k, h.face? m = some x → x.inBuf = some k →
      ∀ v, h.face? k = some v → ¬ v.Lists e)
    (hp : h.portPeer? p = none) (hd : h.busPeer? d = none)
    (hg : ∀ {m x}, h.Way m x e y o b → (h.join p d).Gathers x y' b') :
    (((h.reoutlet e y').reface o b').join p d).Mirrored := by
  have hnone := ha.outBuf_none hy ho hb
  have hgrow := grows_join hp hd
  refine hm.of ⟨hgrow.ports, hgrow.buses⟩ (symmetric_join hm.symmetric hp hd)
    (fun {m v k v' e' y2} he => .inl ?_) fun {m v e' y2 o' v'} hw => ?_
  · obtain ⟨hmodule, hinBuf, hface, hlists, houtlet⟩ := he
    simp only [Borders.join, Borders.reoutlet, Borders.reface] at hmodule hface houtlet
    have hmo : m ≠ o := by
      intro heq
      rw [if_pos heq, Option.some.injEq] at hmodule
      rw [← hmodule, hin, hnone] at hinBuf
      cases hinBuf
    rw [if_neg hmo] at hmodule
    have hko : k ≠ o := fun heq => ha.disjoint hmodule hinBuf hy (heq ▸ ho)
    rw [if_neg hko] at hface
    have he' : e' ≠ e := fun heq => hlisted m v k hmodule hinBuf v' hface (heq ▸ hlists)
    rw [if_neg he'] at houtlet
    exact ⟨v, v', y2, ⟨hmodule, hinBuf, hface, hlists, houtlet⟩, .refl⟩
  · obtain ⟨hmodule, hinBuf, hlists, houtlet, hpeer', hface⟩ := hw
    simp only [Borders.join, Borders.reoutlet, Borders.reface] at hmodule hface houtlet
    have hmo : m ≠ o := by
      intro heq
      rw [if_pos heq, Option.some.injEq] at hmodule
      exact hinBuf (hmodule ▸ hin.trans hnone)
    rw [if_neg hmo] at hmodule
    by_cases he' : e' = e
    · right
      rw [if_pos he', Option.some.injEq] at houtlet
      subst houtlet he'
      obtain rfl : o' = o := Option.some.inj (hpeer'.symm.trans (hpeer.trans ho))
      rw [if_pos rfl, Option.some.injEq] at hface
      subst hface
      have hg := hg ⟨hmodule, hinBuf, hlists, hy, ho, hb⟩
      exact ⟨hg.go, hg.data, hg.mark⟩
    · left
      rw [if_neg he'] at houtlet
      have ho' : o' ≠ o := by
        rintro rfl
        exact he' (ha.outBuf_inj houtlet hy hpeer' ho)
      rw [if_neg ho'] at hface
      exact ⟨v, y2, v', ⟨hmodule, hinBuf, hlists, houtlet, hpeer', hface⟩, .refl⟩

/-- A module waits for go, and so its InBuf has a done; or neither. -/
theorem Mirrored.markInput (hm : h.Mirrored) (ha : h.Apart) (hx : h.face? c = some x)
    (hk : x.inBuf = some k) (hb : h.face? k = some b) (on : Bool) :
    ((h.reface c { x with consumesGo := on }).reface k { b with producesDone := on }).Mirrored := by
  have hinner := ha.inner hx (by simp [hk])
  have hkc : k ≠ c := fun heq => hinner.inBuf c x hx (heq ▸ hk)
  have hnone := ha.inBuf_none hx hk hb
  refine hm.of ⟨fun _ _ h => h, fun _ _ h => h⟩ hm.symmetric
    (fun {m v k' v' e' y2} he => ?_) fun {m v e' y2 o v'} hw => .inl ?_
  · obtain ⟨hmodule, hinBuf, hface, hlists, houtlet⟩ := he
    simp only [Borders.reface] at hmodule hface houtlet
    have hmk : m ≠ k := by
      rintro rfl
      rw [if_pos rfl, Option.some.injEq] at hmodule
      rw [← hmodule, hnone] at hinBuf
      cases hinBuf
    rw [if_neg hmk] at hmodule
    by_cases hmc : m = c
    · right
      rw [if_pos hmc, Option.some.injEq] at hmodule
      subst hmodule
      obtain rfl : k' = k := Option.some.inj (hinBuf.symm.trans hk)
      rw [if_pos rfl, Option.some.injEq] at hface
      subst hface
      have hr := hm.repeated ⟨hx, hk, hb, hlists, houtlet⟩
      exact ⟨hr.go, hr.control, hr.data, rfl⟩
    · left
      rw [if_neg hmc] at hmodule
      have hk' : k' ≠ k := fun heq => hmc (ha.inBuf_inj hmodule hx (heq ▸ hinBuf) hk)
      have hc' : k' ≠ c := fun heq => hinner.inBuf m v hmodule (heq ▸ hinBuf)
      rw [if_neg hk', if_neg hc'] at hface
      exact ⟨v, v', y2, ⟨hmodule, hinBuf, hface, hlists, houtlet⟩, .refl⟩
  · obtain ⟨hmodule, hinBuf, hlists, houtlet, hpeer, hface⟩ := hw
    simp only [Borders.reface] at hmodule hface houtlet
    have hok : o ≠ k := fun heq => ha.disjoint hx hk houtlet (heq ▸ hpeer)
    have hoc : o ≠ c := fun heq => hinner.outBuf e' y2 houtlet (heq ▸ hpeer)
    rw [if_neg hok, if_neg hoc] at hface
    have hmk : m ≠ k := by
      rintro rfl
      rw [if_pos rfl, Option.some.injEq] at hmodule
      exact hinBuf (hmodule ▸ hnone)
    rw [if_neg hmk] at hmodule
    by_cases hmc : m = c
    · rw [if_pos hmc, Option.some.injEq] at hmodule
      subst hmodule
      exact ⟨x, y2, v', ⟨hmc ▸ hx, hinBuf, hlists, houtlet, hpeer, hface⟩,
        ⟨rfl, rfl, rfl, rfl, rfl, rfl⟩⟩
    · rw [if_neg hmc] at hmodule
      exact ⟨v, y2, v', ⟨hmodule, hinBuf, hlists, houtlet, hpeer, hface⟩, .refl⟩

/-- All that the components `os` have is that they wait for go, or not. -/
def awaiting (h : Borders) (os : List ComponentId) (on : Bool) : Borders :=
  { h with face? := fun d =>
      if d ∈ os then (h.face? d).map fun x => { x with consumesGo := on } else h.face? d }

/-- A module tells when it is done, and so its OutBufs wait for go; or neither. -/
theorem Mirrored.markOutputs (hm : h.Mirrored) (ha : h.Apart) (hx : h.face? c = some x)
    (hmodule : x.inBuf ≠ none) {os : List ComponentId}
    (hos : ∀ o, o ∈ os ↔ ∃ e y, x.Lists e ∧ h.outlet? e = some y ∧ y.outBuf = some o)
    (on : Bool) :
    ((h.reface c { x with producesDone := on }).awaiting os on).Mirrored := by
  have hinner := ha.inner hx hmodule
  have hcos : c ∉ os := fun hmem => by
    obtain ⟨e, y, -, hy, ho⟩ := (hos c).mp hmem
    exact hinner.outBuf e y hy ho
  have hmos : ∀ {m v}, h.face? m = some v → v.inBuf ≠ none → m ∉ os := by
    intro m v hv hin hmem
    obtain ⟨e, y, -, hy, ho⟩ := (hos m).mp hmem
    exact hin (ha.outBuf_none hy ho hv)
  have hback : ∀ {m v},
      ((h.reface c { x with producesDone := on }).awaiting os on).face? m = some v →
      v.inBuf ≠ none → m = c ∧ v = { x with producesDone := on } ∨ m ≠ c ∧ h.face? m = some v := by
    intro m v hv hin
    simp only [awaiting, Borders.reface] at hv
    by_cases hmc : m = c
    · rw [if_neg (hmc ▸ hcos), if_pos hmc, Option.some.injEq] at hv
      exact .inl ⟨hmc, hv.symm⟩
    · rw [if_neg hmc] at hv
      split at hv
      · next hmem =>
        obtain ⟨u, hu, rfl⟩ := Option.map_eq_some_iff.mp hv
        exact absurd hmem (hmos hu hin)
      · exact .inr ⟨hmc, hv⟩
  -- An InBuf is neither the module nor one of its OutBufs.
  have hinBufs : ∀ {m v k v'}, h.face? m = some v → v.inBuf = some k →
      ((h.reface c { x with producesDone := on }).awaiting os on).face? k = some v' →
      h.face? k = some v' := by
    intro m v k v' hv hk hv'
    have hkos : k ∉ os := fun hmem => by
      obtain ⟨e, y, -, hy, ho⟩ := (hos k).mp hmem
      exact ha.disjoint hv hk hy ho
    have hkc : k ≠ c := fun heq => hinner.inBuf m v hv (heq ▸ hk)
    simpa only [awaiting, Borders.reface, if_neg hkos, if_neg hkc] using hv'
  refine hm.of ⟨fun _ _ h => h, fun _ _ h => h⟩ hm.symmetric
    (fun {m v k v' e y2} he => .inl ?_) fun {m v e y2 o v'} hw => ?_
  · obtain ⟨hmod, hinBuf, hface, hlists, houtlet⟩ := he
    rcases hback hmod (by simp [hinBuf]) with ⟨rfl, rfl⟩ | ⟨-, hmod⟩
    · exact ⟨x, v', y2, ⟨hx, hinBuf, hinBufs hx hinBuf hface, hlists, houtlet⟩,
        ⟨rfl, rfl, rfl, rfl, rfl, rfl, rfl, rfl⟩⟩
    · exact ⟨v, v', y2, ⟨hmod, hinBuf, hinBufs hmod hinBuf hface, hlists, houtlet⟩, .refl⟩
  · obtain ⟨hmod, hinBuf, hlists, houtlet, hpeer, hface⟩ := hw
    have hoc : o ≠ c := fun heq => hinner.outBuf e y2 houtlet (heq ▸ hpeer)
    simp only [awaiting, Borders.reface, if_neg hoc] at hface
    rcases hback hmod hinBuf with ⟨rfl, rfl⟩ | ⟨hmc, hmod⟩
    · right
      rw [if_pos ((hos o).mpr ⟨e, y2, hlists, houtlet, hpeer⟩)] at hface
      obtain ⟨u, hu, rfl⟩ := Option.map_eq_some_iff.mp hface
      have hg := hm.gathered ⟨hx, hinBuf, hlists, houtlet, hpeer, hu⟩
      exact ⟨hg.go, hg.data, rfl⟩
    · left
      have hoos : o ∉ os := fun hmem => by
        obtain ⟨e', y', hlists', hy', ho'⟩ := (hos o).mp hmem
        obtain rfl := ha.outBuf_inj houtlet hy' hpeer ho'
        exact hmc (ha.lists_inj hmod hx hlists hlists')
      rw [if_neg hoos] at hface
      exact ⟨v, y2, v', ⟨hmod, hinBuf, hlists, houtlet, hpeer, hface⟩, .refl⟩

end Borders

end DataflowSynth.Netlist
