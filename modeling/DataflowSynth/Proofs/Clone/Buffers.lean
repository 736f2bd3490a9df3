/-
The buffers of a copy.

The InBuf and the OutBufs of a copy are not copied: they have come with its ports and exits.  By the
shape of modules they match those of the module, so that it is enough to map them.
-/
import DataflowSynth.Proofs.Clone.Children

namespace DataflowSynth.Netlist

open Build

variable {pins : Nat} {n s t t' : Netlist} {u : Traced Netlist} {c copy : ComponentId}
  {x x' : Component} {map map' : Correspondence}

/-! ### Mapping components that match -/

theorem mapComponent_ok (h : Side pins n s u.state c copy x x') (hm : Matches n u.state x x')
    (hmap : map.components.find? c = none) :
    wp (mapComponent map c copy)
      (fun map' v => Mapped pins n s u.state v.state map map' c copy x x') Never u :=
  (wp_mapComponent h map).mpr (h.mapped hm hmap)

/-- Two components stay beside each other while others are mapped. -/
theorem Side.after {d d' : ComponentId} {y y' : Component} (h : Side pins n s t c copy x x')
    (hm : Mapped pins n s t t' map map' d d' y y') : Side pins n s t' c copy x x' :=
  { h with
    linked := hm.linked
    shaped := h.shaped.congr hm.shape
    target := hm.components ▸ h.target }

/-- A component without interior has exits without OutBufs. -/
theorem Side.peers_flat (h : Side pins n s t c copy x x') (hi : x.interior = none)
    (hi' : x'.interior = none)
    (hrel : List.Forall₂ (fun a b => a.1 = b.1 ∧ ExitTwin n t map a.2 b.2) x.exits.entries
      x'.exits.entries) :
    List.Forall₂ (fun a b => PeerTwin n t map a.2 b.2) x.exits.entries x'.exits.entries := by
  have hshaped := h.whole.shaped.components c x h.source (Nat.zero_le _)
  have hshaped' := h.shaped.components copy x' h.target h.new
  refine forall₂_imp_mem hrel fun a ha b hb hab => ?_
  obtain ⟨-, -, y, y', hy, hy', -⟩ := hab
  have hpeer := hshaped.outBufs a.2 (OrderedMap.mem_values.mpr ⟨a, ha, rfl⟩) y hy
  have hpeer' := hshaped'.outBufs b.2 (OrderedMap.mem_values.mpr ⟨b, hb, rfl⟩) y' hy'
  rw [hi, Option.isSome_none, Option.isSome_eq_false_iff, Option.isNone_iff_eq_none] at hpeer
  rw [hi', Option.isSome_none, Option.isSome_eq_false_iff, Option.isNone_iff_eq_none] at hpeer'
  exact ⟨y, y', hy, hy', by rw [hpeer, hpeer']; exact .none⟩

theorem Side.new_target (h : Side pins n s t c copy x x') : Ref.New n t (.component copy) :=
  ⟨Nat.le_trans h.before.components.size h.new, Arena.lt_of_get? h.target⟩

/-- A buffer that has been mapped is copied. -/
theorem Side.copied_buffer (h : Side pins n s t c copy x x')
    (hm : Mapped pins n s t t' map map' c copy x x') (hkind : x'.kind = x.kind)
    (hbuf : x.kind.isBuffer = true) (hi : x.interior = none) (hi' : x'.interior = none) :
    Copied n t' map' c copy := by
  have hside := h.after hm
  refine ⟨hside.new_target, x, x', hside.source, hside.target, hm.twins, ?_, ?_, ?_, ?_,
    hside.peers_flat hi hi' hm.twins.exits⟩
  · rw [hkind]
    cases hk : x.kind with
    | module => simp [hk, ComponentKind.isBuffer] at hbuf
    | _ => rfl
  · simp [hbuf]
  · simp [hbuf]
  · rw [hi, hi']
    exact .none

/-! ### The buffers of two modules -/

/-- Two buffers that may be mapped to each other. -/
structure BufferSide (pins : Nat) (n s t : Netlist) (b b' : ComponentId) (y y' : Component) : Prop
    extends Side pins n s t b b' y y' where
  matched : Matches n t y y'
  kind : y'.kind = y.kind
  buffer : y.kind.isBuffer = true
  flat : y.interior = none
  flat' : y'.interior = none

theorem BufferSide.map_ok {b b' : ComponentId} {y y' : Component}
    (h : BufferSide pins n s u.state b b' y y') (hmap : map.components.find? b = none) :
    wp (mapComponent map b b') (fun map' v => Mapped pins n s u.state v.state map map' b b' y y' ∧
      Copied n v.state map' b b') Never u :=
  wp_mono (mapComponent_ok h.toSide h.matched hmap) (fun _ _ hm =>
    ⟨hm, h.copied_buffer hm h.kind h.buffer h.flat h.flat'⟩) fun _ _ h => h

section

variable (h : Side pins n s t c copy x x')

include h

theorem Side.inBuf {i i' : Interior} (hi : x.interior = some i) (hi' : x'.interior = some i')
    (hthis : x'.this.isSome = x.this.isSome) (hdata : x'.dataPorts.length = x.dataPorts.length) :
    ∃ y y', BufferSide pins n s t i.inBuf i'.inBuf y y' := by
  obtain ⟨b, e, w, hb, hw, hin⟩ :=
    ((h.whole.shaped.components c x h.source (Nat.zero_le _)).interior i hi).inBuf
  obtain ⟨b', e', w', hb', hw', hin'⟩ :=
    ((h.shaped.components copy x' h.target h.new).interior i' hi').inBuf
  refine ⟨b, b', { h with source := hb, target := hb', new := ?_ }, ⟨?_, ?_, ?_⟩, ?_, ?_,
    hin.interior, hin'.interior⟩
  · exact (h.linked.inBuf_new h.target h.new hi').1
  · rw [hin.this, hin'.this]
  · rw [hin.dataPorts, hin'.dataPorts]
  · rw [hin.exits, hin'.exits]
    refine .cons ⟨rfl, w, w', hw, hw', ?_, ?_⟩ .nil
    · rw [hin.data, hin'.data, hdata]
    · rw [hin.control, hin'.control, controlRoles, controlRoles, hthis]
  · rw [hin.kind, hin'.kind]
  · rw [hin.kind]
    rfl

theorem Side.outBuf {lo : Nat} {e e' : ExitId} (he' : e' ∈ x'.exits.values)
    (hdraft : ExitDraft lo n t e e') {w w' : Exit} (hw : n.exits.get? e = some w)
    (hw' : t.exits.get? e' = some w') {o o' : ComponentId} (ho : w.peer = some o)
    (ho' : w'.peer = some o') : ∃ y y', BufferSide pins n s t o o' y y' := by
  obtain ⟨v, v', hv, hv', hlength, -, -⟩ := hdraft
  cases hw.symm.trans hv
  cases hw'.symm.trans hv'
  have hnew := h.linked.exit_new h.target h.new he'
  obtain ⟨b, hb, hout⟩ := (h.whole.shaped.exits e w hw (Nat.zero_le _)).outBuf o ho
  obtain ⟨b', hb', hout'⟩ := (h.shaped.exits e' w' hw' hnew.1).outBuf o' ho'
  refine ⟨b, b', { h with source := hb, target := hb', new := ?_ }, ⟨?_, ?_, ?_⟩, ?_, ?_,
    hout.interior, hout'.interior⟩
  · exact ((Exit.forall_refs.mp (h.linked.exits e' w' hw' hnew.1).refs).2.2 o' ho').1
  · rw [hout.this, hout'.this]
  · rw [hout.dataPorts, hout'.dataPorts, hlength]
  · rw [hout.exits, hout'.exits]
    exact .nil
  · rw [hout.kind, hout'.kind]
  · rw [hout.kind]
    rfl

end

/-! ### The OutBufs -/

/-- The OutBufs of some exits. -/
def Peers (n : Netlist) (es : List ExitId) (d : ComponentId) : Prop :=
  ∃ e ∈ es, ∃ y, n.exits.get? e = some y ∧ y.peer = some d

theorem Peers.congr {es : List ExitId} {d : ComponentId} (h : Peers t' es d)
    (hexits : t'.exits = t.exits) : Peers t es d := by
  obtain ⟨e, he, y, hy, hpeer⟩ := h
  exact ⟨e, he, y, hexits ▸ hy, hpeer⟩

theorem Peers.cons {es : List ExitId} {e : ExitId} {d : ComponentId} (h : Peers n es d) :
    Peers n (e :: es) d := by
  obtain ⟨e', he', y, hy, hpeer⟩ := h
  exact ⟨e', by simp [he'], y, hy, hpeer⟩

/-- No other exit has the OutBuf of `e`. -/
theorem Shaped.not_peers {base : Netlist} (hs : Shaped base n) (hl : Linked pins base n)
    {e : ExitId} {y : Exit} {o : ComponentId} {es : List ExitId} (hy : n.exits.get? e = some y)
    (he : base.exits.size ≤ e.index) (ho : y.peer = some o) (hmem : e ∉ es)
    (hes : ∀ e' ∈ es, base.exits.size ≤ e'.index) : ¬ Peers n es o := by
  rintro ⟨e', he', y', hy', ho'⟩
  cases hs.outBuf_inj hl hy he ho hy' (hes e' he') ho'
  exact hmem he'

/-- The InBuf of a module, or the OutBuf of one of its exits. -/
def BufferOf (n : Netlist) (x : Component) (i : Interior) (b : ComponentId) : Prop :=
  b = i.inBuf ∨ Peers n x.exits.values b

section

variable {base : Netlist} {b : ComponentId} {i : Interior} (hl : Linked pins base n)
  (hs : Shaped base n) (hx : n.components.get? c = some x)
  (hc : base.components.size ≤ c.index) (hi : x.interior = some i)

include hl hs hx hc hi

/-- A module is none of its buffers. -/
theorem BufferOf.ne (hb : BufferOf n x i b) : b ≠ c := by
  rintro rfl
  have hflat : x.interior = none := by
    refine hs.interior_of_isBuffer ?_ hx
    rcases hb with hb | ⟨e, he, y, hy, hpeer⟩
    · exact .inl ⟨b, x, i, hx, hc, hi, hb.symm⟩
    · exact .inr ⟨e, y, hy, (hl.exit_new hx hc he).1, hpeer⟩
  rw [hi] at hflat
  cases hflat

/-- An InBuf is no OutBuf. -/
theorem Shaped.inBuf_not_peer : ¬ Peers n x.exits.values i.inBuf := by
  rintro ⟨e, he, y, hy, hpeer⟩
  exact hs.not_isOutBuf ⟨c, x, i, hx, hc, hi, rfl⟩ ⟨e, y, hy, (hl.exit_new hx hc he).1, hpeer⟩

end

section

variable {b d : ComponentId} {i : Interior} (hx : n.components.get? c = some x)
  (hi : x.interior = some i)

include hx hi

theorem BufferOf.kid (hb : BufferOf n x i b) : Kid n c b := ⟨x, i, hx, hi, .inr hb⟩

/-- The buffers of a module are owned beside its children. -/
theorem BufferOf.not_part (hb : BufferOf n x i b) (hw : Whole pins n) (hc : Finite n c)
    (hd : d ∈ i.children) : ¬ Part n d b := by
  intro hpart
  obtain rfl := hw.kids_disjoint hc ⟨x, i, hx, hi, .inl hd⟩ (hb.kid hx hi) hpart .self
  rcases hb with rfl | ⟨e, he, w, hw', hpeer⟩
  · exact ((hw.shaped.components c x hx (Nat.zero_le _)).interior i hi).notInBuf hd
  · have howner := hw.linked.owner_of_listed hx (Nat.zero_le _) he hw'
    exact (hw.shaped.exits e w hw' (Nat.zero_le _)).notChild d hpeer x i (howner ▸ hx) hi hd

/-- A buffer of a module owns nothing. -/
theorem BufferOf.eq_of_part (hb : BufferOf n x i b) (hw : Whole pins n) (hpart : Part n b d) :
    d = b := by
  rcases hb with rfl | ⟨e, _, w, hw', hpeer⟩
  · obtain ⟨y, _, _, hy, -, hin⟩ :=
      ((hw.shaped.components c x hx (Nat.zero_le _)).interior i hi).inBuf
    exact hpart.eq_of_flat hy hin.interior
  · obtain ⟨y, hy, hout⟩ := (hw.shaped.exits e w hw' (Nat.zero_le _)).outBuf b hpeer
    exact hpart.eq_of_flat hy hout.interior

/-- What belongs to a module is the module itself, belongs to a child, or is one of the buffers. -/
theorem Part.cases_of_module (hpart : Part n c d) (hw : Whole pins n) :
    d = c ∨ (∃ k ∈ i.children, Part n k d) ∨ BufferOf n x i d := by
  rcases hpart.head with rfl | ⟨k, ⟨y, j, hy, hj, hk⟩, hpart⟩
  · exact .inl rfl
  cases hx.symm.trans hy
  cases hi.symm.trans hj
  rcases hk with hk | hk
  · exact .inr (.inl ⟨k, hk, hpart⟩)
  · exact .inr (.inr (BufferOf.eq_of_part hx hi hk hw hpart ▸ hk))

end

/-- The OutBuf of an exit has been copied to that of another one. -/
def OutBufCopied (n t : Netlist) (map : Correspondence) (e e' : ExitId) : Prop :=
  ∃ y y' o o', n.exits.get? e = some y ∧ t.exits.get? e' = some y' ∧ y.peer = some o ∧
    y'.peer = some o' ∧ map.components.find? o = some o' ∧ Copied n t map o o'

/-- The OutBufs of some exits have been mapped. -/
structure OutBufsMapped (pins : Nat) (n s t t' : Netlist) (map map' : Correspondence)
    (zs : List (ExitId × ExitId)) : Prop where
  linked : Linked pins s t'
  shape : SameShape t t'
  components : t'.components = t.components
  exits : t'.exits = t.exits
  grows : t.Grows t'
  spares : Spares (Peers t (zs.map Prod.snd)) t t'
  learns : Correspondence.Extends n (Peers n (zs.map Prod.fst)) map map'
  copied : ∀ z ∈ zs, OutBufCopied n t' map' z.1 z.2

theorem mapOutBuf_ok {e e' : ExitId} {w w' : Exit} {o o' : ComponentId} {y y' : Component}
    (hlookup : map.exits[e]? = some e') (hw : u.state.exits.get? e = some w)
    (hw' : u.state.exits.get? e' = some w') (ho : w.peer = some o) (ho' : w'.peer = some o')
    (hb : BufferSide pins n s u.state o o' y y') (hmap : map.components.find? o = none) :
    wp (mapOutBuf map e) (fun map' v => Mapped pins n s u.state v.state map map' o o' y y' ∧
      Copied n v.state map' o o') Never u := by
  simp only [mapOutBuf, copiedOutBuf?, hlookup, wp_bind]
  refine (wp_exit hw').mpr ?_
  refine (wp_pure _).mpr ((wp_exit hw).mpr ?_)
  simp only [ho, ho']
  exact hb.map_ok hmap

/-- One more OutBuf has been mapped, before some others. -/
theorem OutBufsMapped.cons {map₁ map' : Correspondence} {t t₁ t' : Netlist} {z : ExitId × ExitId}
    {zs : List (ExitId × ExitId)} {w w' : Exit} {o o' : ComponentId} {y y' : Component}
    (hn : Linked pins {} n) (hns : Linked pins n s) (hw : n.exits.get? z.1 = some w)
    (ho : w.peer = some o) (hw' : t.exits.get? z.2 = some w') (ho' : w'.peer = some o')
    (hm : Mapped pins n s t t₁ map map₁ o o' y y') (hcopied : Copied n t₁ map₁ o o')
    (hnot : ¬ Peers n (zs.map Prod.fst) o) (hnot' : ¬ Peers t (zs.map Prod.snd) o')
    (hrest : OutBufsMapped pins n s t₁ t' map₁ map' zs) :
    OutBufsMapped pins n s t t' map map' (z :: zs) := by
  refine ⟨hrest.linked, hm.shape.trans hrest.shape, hrest.components.trans hm.components,
    hrest.exits.trans hm.exits, hm.grows.trans hrest.grows, ?_, ?_, fun z₂ hz₂ => ?_⟩
  · refine (hm.spares.mono fun d hd => ?_).trans (hrest.spares.mono fun d hd => ?_)
    · exact ⟨z.2, by simp, w', hw', hd ▸ ho'⟩
    · exact (hd.congr hm.exits).cons
  · refine (hm.learns.mono fun d hd => ?_).trans (hrest.learns.mono fun d hd => hd.cons)
    exact ⟨z.1, by simp, w, hw, hd ▸ ho⟩
  · rcases List.mem_cons.mp hz₂ with rfl | hz₂
    · refine ⟨w, w', o, o', hw, ?_, ho, ho', hrest.learns.grows _ _ hm.found, ?_⟩
      · rw [hrest.exits, hm.exits, hw']
      · exact hcopied.mono hn (hns.trans hm.linked) hrest.grows hrest.spares
          (fun hd => hnot' (hd.congr hm.exits)) hrest.learns hnot
    · exact hrest.copied z₂ hz₂

theorem mapOutBufs_ok {lo : Nat} {zs : List (ExitId × ExitId)} (hns : Linked pins n s)
    (h : Side pins n s u.state c copy x x') (hi : x.interior.isSome = true)
    (hi' : x'.interior.isSome = true)
    (hzs : ∀ z ∈ zs, z.1 ∈ x.exits.values ∧ z.2 ∈ x'.exits.values ∧
      ExitDraft lo n u.state z.1 z.2 ∧ map.exits[z.1]? = some z.2)
    (hnodup : (zs.map Prod.fst).Nodup) (hnodup' : (zs.map Prod.snd).Nodup)
    (hmap : ∀ d, Peers n (zs.map Prod.fst) d → map.components.find? d = none) :
    wp ((zs.map Prod.fst).foldlM mapOutBuf map)
      (fun map' v => OutBufsMapped pins n s u.state v.state map map' zs) Never u := by
  induction zs generalizing u map with
  | nil => exact ⟨h.linked, .refl _, rfl, rfl, .refl _, .refl _ _, .refl _ _ _, by simp⟩
  | cons z zs ih =>
      obtain ⟨hz, hz', hdraft, hlookup⟩ := hzs z (by simp)
      rw [List.map_cons, List.nodup_cons] at hnodup hnodup'
      obtain ⟨w, w', hw, hw', -⟩ := id hdraft
      have hpeer := (h.whole.shaped.components c x h.source (Nat.zero_le _)).outBufs z.1 hz w hw
      have hpeer' := (h.shaped.components copy x' h.target h.new).outBufs z.2 hz' w' hw'
      obtain ⟨o, ho⟩ := Option.isSome_iff_exists.mp (hpeer.trans hi)
      obtain ⟨o', ho'⟩ := Option.isSome_iff_exists.mp (hpeer'.trans hi')
      obtain ⟨y, y', hb⟩ := h.outBuf hz' hdraft hw hw' ho ho'
      have hk := h.before.trans h.linked.keeps
      have hfind : map.components.find? o = none := hmap o ⟨z.1, by simp, w, hw, ho⟩
      rw [List.map_cons, List.foldlM_cons, wp_bind]
      refine wp_mono (mapOutBuf_ok hlookup ((hk.exits.get? _ (Arena.lt_of_get? hw)).trans hw) hw' ho
        ho' hb hfind) (fun map₁ v hv => ?_) fun _ _ h => h
      obtain ⟨hm, hcopied⟩ := hv
      -- The OutBufs that come later are others, here and there.
      have hnot : ¬ Peers n (zs.map Prod.fst) o :=
        h.whole.shaped.not_peers h.whole.linked hw (Nat.zero_le _) ho hnodup.1
          fun _ _ => Nat.zero_le _
      have hnot' : ¬ Peers u.state (zs.map Prod.snd) o' := by
        refine h.shaped.not_peers h.linked hw' (h.linked.exit_new h.target h.new hz').1 ho'
          hnodup'.1 fun e' he' => ?_
        obtain ⟨z₂, hz₂, rfl⟩ := List.mem_map.mp he'
        exact (h.linked.exit_new h.target h.new (hzs z₂ (by simp [hz₂])).2.1).1
      have hne : c ≠ o := by
        rintro rfl
        cases h.source.symm.trans hb.source
        rw [hb.flat] at hi
        cases hi
      refine wp_mono (ih (h.after hm) (fun z₂ hz₂ => ?_) hnodup.2 hnodup'.2 fun d hd => ?_)
        (fun _ _ hrest => .cons h.whole.linked hns hw ho hw' ho' hm hcopied hnot hnot' hrest)
        fun _ _ h => h
      · obtain ⟨h1, h2, h3, h4⟩ := hzs z₂ (by simp [hz₂])
        obtain ⟨y₂, y₂', hy₂, hy₂', hrest⟩ := h3
        refine ⟨h1, h2, ⟨y₂, y₂', hy₂, hm.exits ▸ hy₂', hrest⟩, ?_⟩
        exact (hm.learns.exits _ (h.whole.linked.not_exitOf h.source hne h1 hy₂)).trans h4
      · rw [hm.learns.components d fun heq => hnot (heq ▸ hd)]
        exact hmap d hd.cons

end DataflowSynth.Netlist
