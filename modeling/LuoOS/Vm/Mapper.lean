import LuoOS.Lib.Runs
import LuoOS.Vm.Unmap

/-!
# The windows of the kernel

A `VMOMapper` gives the kernel a window on a VMO: it maps the VMO into the kernel's address space
behind `kInfo.segments.mapper.second` and moves that position on. The destructor moves it back by
the length of its own window, wherever that is. So the windows are apart if they are given back in
the opposite order (`separate_of_stacked`). If an older one goes first, the next window is built in
a younger one (`not_separate_interleaved`). A VMO without pages gets a mapping that no `unmap` takes
out, whose key is in the way of the next window.
-/

namespace LuoOS.Vm

open Runs Translation KeyedSet

/-- A live `VMOMapper`. The VMO it was built for is not in the code. -/
structure VMOMapper where
  region : Segment
  vmo : Vmo

def VMOMapper.Has (w : VMOMapper) (v : Nat) : Prop := w.region.l ≤ v ∧ v ≤ w.region.r
  deriving Decidable

/-- The kernel's address space and the windows in it. -/
structure Mappers where
  vmar : VMAR
  second : Nat
  live : List VMOMapper

namespace Mappers

def mapping (vpn : Nat) (vmo : Vmo) : PageMapping :=
  { vpn, len := vmo.len, offset := 0, vmo, perm := { r := true, w := true, v := true }
    mapping := .file, sharing := 1 }

def construct (s : Mappers) (vmo : Vmo) : Kern Mappers := do
  let mapping := mapping s.second vmo
  let vmar ← s.vmar.map mapping true
  .ok ⟨vmar, xlen (s.second + vmo.len), ⟨mapping.vsegment, vmo⟩ :: s.live⟩

def destroy (s : Mappers) (i : Nat) : Kern Mappers :=
  match s.live[i]? with
  | none => .error .wildPointer
  | some w => do
    let vmar ← s.vmar.unmap w.region
    .ok ⟨vmar, xlen (s.second - w.region.length), s.live.eraseIdx i⟩

def access (s : Mappers) (vpn : Nat) : Kern Mappers := do
  let vmar ← s.vmar.pfhandler vpn
  .ok { s with vmar }

/-- What the tasks do with windows. -/
inductive Op where
  | construct (vmo : Vmo)
  | destroy (i : Nat)
  | access (vpn : Nat)

def step (s : Mappers) : Op → Kern Mappers
  | .construct vmo => s.construct vmo
  | .destroy i => s.destroy i
  | .access vpn => s.access vpn

def Legal (s : Mappers) : Op → Prop
  | .access vpn => ∃ w ∈ s.live, w.Has vpn
  | _ => True

instance (s : Mappers) : DecidablePred s.Legal
  | .access vpn => inferInstanceAs (Decidable (∃ w ∈ s.live, w.Has vpn))
  | .construct _ | .destroy _ => isTrue trivial

def Stacked (s : Mappers) : Op → Prop
  | .construct vmo => 0 < vmo.len ∧ s.second + vmo.len ≤ 2 ^ 27
  | .destroy i => i = 0
  | .access vpn => s.Legal (.access vpn)

instance (s : Mappers) : DecidablePred s.Stacked := by
  intro op
  unfold Stacked
  split <;> infer_instance

/-- There is no window yet. -/
structure Start (first : Nat) (s : Mappers) : Prop where
  live : s.live = []
  second : s.second = first
  fit : first ≤ 2 ^ 27
  sound : Sound s.vmar.pagetable
  below : ∀ m ∈ s.vmar.mappings, m.vpn < first ∧ m.vend < first
  leaves : ∀ v, IsPage v → first ≤ v → leafAt s.vmar.pagetable v = none

/-- The windows are apart, between the first position and the current one, and each of their pages
is found in a mapping of its VMO and translated, if at all, to the VMO's frame. -/
structure Separate (first : Nat) (s : Mappers) : Prop where
  apart : s.live.Pairwise fun a b => ∀ v, a.Has v → ¬b.Has v
  bounds : ∀ w ∈ s.live, ∀ v, w.Has v → first ≤ v ∧ v < s.second
  length : ∀ w ∈ s.live, w.region.length = w.vmo.len
  maps : ∀ w ∈ s.live, ∀ v, w.Has v → ∃ m, s.vmar.find v = .ok (some m) ∧ m.vmo = w.vmo ∧
    m.offset + (v - m.vpn) = v - w.region.l
  trans : ∀ w ∈ s.live, ∀ v p, w.Has v → trans s.vmar.pagetable v = .ok p →
    p = w.vmo.frame (v - w.region.l)

/-! ## A stack of windows -/

def Tiles (first : Nat) : Nat → List VMOMapper → Prop
  | e, [] => e = first
  | e, w :: ws =>
    0 < w.vmo.len ∧ w.region.l + w.vmo.len = e ∧ w.region.r + 1 = e ∧ Tiles first w.region.l ws

section Tiles

variable {first e : Nat} {ws : List VMOMapper} {w : VMOMapper}

section

variable (h : Tiles first e ws)
include h

theorem Tiles.le : first ≤ e := by
  induction ws generalizing e with
  | nil => exact Nat.le_of_eq h.symm
  | cons w ws ih =>
    obtain ⟨-, hl, -, hrest⟩ := h
    have := ih hrest
    omega

theorem Tiles.window (hw : w ∈ ws) :
    0 < w.vmo.len ∧ w.region.l + w.vmo.len = w.region.r + 1 ∧ first ≤ w.region.l ∧
      w.region.r < e := by
  induction ws generalizing e with
  | nil => exact absurd hw List.not_mem_nil
  | cons a ws ih =>
    obtain ⟨hpos, hl, hr, hrest⟩ := h
    rcases List.mem_cons.1 hw with rfl | hw
    · exact ⟨hpos, by omega, hrest.le, by omega⟩
    · obtain ⟨hpos', hlen, hfirst, hend⟩ := ih hrest hw
      exact ⟨hpos', hlen, hfirst, by omega⟩

theorem Tiles.has_iff (hw : w ∈ ws) {v : Nat} : w.Has v ↔ InRange w.region.l w.vmo.len v := by
  obtain ⟨-, hlen, -, -⟩ := h.window hw
  unfold VMOMapper.Has InRange
  omega

theorem Tiles.apart : ws.Pairwise fun a b => ∀ v, a.Has v → ¬b.Has v := by
  induction ws generalizing e with
  | nil => exact List.Pairwise.nil
  | cons w ws ih =>
    obtain ⟨-, -, -, hrest⟩ := h
    refine List.pairwise_cons.2 ⟨fun b hb v ha hb' => ?_, ih hrest⟩
    have hend := (hrest.window hb).2.2.2
    unfold VMOMapper.Has at ha hb'
    omega

/-- Two windows with a common page, or with the same start, are the same. -/
theorem Tiles.eq_of_has {a : VMOMapper} (ha : a ∈ ws) (hw : w ∈ ws) {v : Nat} (hav : a.Has v)
    (hwv : w.Has v) : a = w := by
  by_contra hne
  have hsymm : Std.Symm fun a b : VMOMapper => ∀ v, a.Has v → ¬b.Has v :=
    ⟨fun _ _ h v hb ha => h v ha hb⟩
  exact h.apart.forall ha hw hne v hav hwv

theorem Tiles.has_left (hw : w ∈ ws) : w.Has w.region.l := by
  obtain ⟨hpos, hlen, -, -⟩ := h.window hw
  exact ⟨le_rfl, by omega⟩

end

end Tiles

theorem mapping_good {vpn : Nat} {vmo : Vmo} (hpos : 0 < vmo.len) (hfit : vpn + vmo.len ≤ 2 ^ 27) :
    (mapping vpn vmo).Good := by
  have hspan : (mapping vpn vmo).span = vmo.len :=
    PageMapping.span_eq_len hpos (.inr rfl)
  refine ⟨⟨hspan ▸ hfit, ?_, rfl, fun _ => rfl⟩, hpos, fun _ => rfl⟩
  exact Nat.le_of_eq (Nat.zero_add _)

/-- The windows lie one behind the other, each with its mapping. -/
structure Inv (first : Nat) (s : Mappers) : Prop where
  sound : Sound s.vmar.pagetable
  tiles : Tiles first s.second s.live
  fit : s.second ≤ 2 ^ 27
  mem : ∀ m ∈ s.vmar.mappings,
    (m.vpn < first ∧ m.vend < first) ∨ ∃ w ∈ s.live, m = mapping w.region.l w.vmo
  maps : ∀ w ∈ s.live, mapping w.region.l w.vmo ∈ s.vmar.mappings
  leaves : ∀ v x, IsPage v → first ≤ v → leafAt s.vmar.pagetable v = some x →
    ∃ w ∈ s.live, w.Has v ∧ x.frame v = w.vmo.frame (v - w.region.l)

section Inv

variable {first vpn : Nat} {s s' : Mappers} {w : VMOMapper}

section

variable (h : Inv first s)
include h

theorem Inv.good (hw : w ∈ s.live) : (mapping w.region.l w.vmo).Good := by
  obtain ⟨hpos, hlen, -, hend⟩ := h.tiles.window hw
  have hfit := h.fit
  exact mapping_good hpos (by omega)

theorem Inv.find (hw : w ∈ s.live) (hv : w.Has vpn) :
    s.vmar.find vpn = .ok (some (mapping w.region.l w.vmo)) := by
  have hrange := (h.tiles.has_iff hw).1 hv
  refine VMAR.find_eq (h.maps w hw) ((h.good hw).contains_iff.2 hrange) fun m hm hle => ?_
  rcases h.mem m hm with ⟨hbelow, -⟩ | ⟨a, ha, rfl⟩
  · have := (h.tiles.window hw).2.2.1
    exact Nat.le_of_lt (hbelow.trans_le this)
  -- a window that starts behind this one starts behind its end
  by_contra hlt
  have hlt' : w.region.l < a.region.l := Nat.lt_of_not_le hlt
  have hle' : a.region.l ≤ vpn := hle
  have hin : w.Has a.region.l := ⟨Nat.le_of_lt hlt', hle'.trans hv.2⟩
  obtain rfl := h.tiles.eq_of_has ha hw (h.tiles.has_left ha) hin
  exact Nat.lt_irrefl _ hlt'

theorem Inv.separate : Separate first s := by
  have hfit := h.fit
  refine ⟨h.tiles.apart, ?_, ?_, ?_, ?_⟩
  · intro w hw v hv
    obtain ⟨-, -, hfirst, hend⟩ := h.tiles.window hw
    unfold VMOMapper.Has at hv
    omega
  · intro w hw
    obtain ⟨hpos, hlen, -, hend⟩ := h.tiles.window hw
    have hcast : (w.region.r : Int) - w.region.l + 1 = (w.vmo.len : Nat) := by omega
    unfold Segment.length
    rw [hcast]
    exact xlen_of_lt (by omega)
  · exact fun w hw v hv => ⟨_, h.find hw hv, rfl, Nat.zero_add _⟩
  · intro w hw v p hv htrans
    obtain ⟨-, -, hfirst, hend⟩ := h.tiles.window hw
    obtain ⟨x, hx, hframe⟩ := trans_eq_ok.1 htrans
    obtain ⟨hl, hr⟩ := hv
    obtain ⟨a, ha, hav, haf⟩ := h.leaves v x (by unfold IsPage; omega) (by omega) hx
    obtain rfl := h.tiles.eq_of_has ha hw hav ⟨hl, hr⟩
    exact hframe.symm.trans haf

theorem Inv.vend_eq (hw : w ∈ s.live) : (mapping w.region.l w.vmo).vend = w.region.r := by
  have hlen := (h.tiles.window hw).2.1
  rw [(h.good hw).vend_eq]
  exact Nat.sub_eq_of_eq_add hlen

theorem Inv.overlaps_iff (hw : w ∈ s.live) {m : PageMapping}
    (hm : m ∈ s.vmar.mappings) : VMAR.Overlaps w.region m ↔ m = mapping w.region.l w.vmo := by
  have hle : VMAR.Overlaps w.region m ↔ max m.vpn w.region.l ≤ min m.vend w.region.r :=
    decide_eq_true_iff
  obtain ⟨hpos, hlen, hfirst, -⟩ := h.tiles.window hw
  rw [hle]
  constructor
  · intro hle
    rcases h.mem m hm with ⟨-, hbelow⟩ | ⟨a, ha, rfl⟩
    · omega
    rw [h.vend_eq ha] at hle
    change max a.region.l w.region.l ≤ min a.region.r w.region.r at hle
    rw [h.tiles.eq_of_has (v := max a.region.l w.region.l) ha hw ⟨by omega, by omega⟩
      ⟨by omega, by omega⟩]
  · rintro rfl
    rw [h.vend_eq hw]
    change max w.region.l w.region.l ≤ min w.region.r w.region.r
    omega

/-! ## One step -/

theorem Inv.construct {vmo : Vmo} (hpos : 0 < vmo.len)
    (hfit : s.second + vmo.len ≤ 2 ^ 27) (hstep : s.construct vmo = .ok s') : Inv first s' := by
  obtain ⟨vmar, hmap, hstep⟩ := bind_eq_ok hstep
  cases hmap
  cases hstep
  have hsecond : xlen ((s.second : Int) + vmo.len) = s.second + vmo.len := xlen_add (by omega)
  have hend : (mapping s.second vmo).vend = s.second + vmo.len - 1 :=
    (mapping_good hpos hfit).vend_eq
  have htiles : Tiles first (s.second + vmo.len)
      (⟨(mapping s.second vmo).vsegment, vmo⟩ :: s.live) := by
    refine ⟨hpos, rfl, ?_, h.tiles⟩
    change (mapping s.second vmo).vend + 1 = _
    omega
  have hfirst := h.tiles.le
  -- the key is behind all others
  have hfree : ∀ m ∈ s.vmar.mappings, m.vpn ≠ (mapping s.second vmo).vpn := by
    intro m hm
    rcases h.mem m hm with ⟨hbelow, -⟩ | ⟨w, hw, rfl⟩
    · exact Nat.ne_of_lt (hbelow.trans_le hfirst)
    · obtain ⟨hpos', hlen, -, hlast⟩ := h.tiles.window hw
      exact Nat.ne_of_lt (show w.region.l < s.second by omega)
  refine ⟨h.sound, hsecond.symm ▸ htiles, hsecond.symm ▸ hfit, ?_, ?_, ?_⟩
  · intro m hm
    rcases mem_of_mem_insert hm with rfl | hm
    · exact .inr ⟨_, List.mem_cons_self, rfl⟩
    · refine (h.mem m hm).imp_right ?_
      rintro ⟨w, hw, rfl⟩
      exact ⟨w, List.mem_cons_of_mem _ hw, rfl⟩
  · intro w hw
    rcases List.mem_cons.1 hw with rfl | hw
    · exact mem_insert_self hfree
    · exact subset_insert (h.maps w hw)
  · intro v x hv hle hx
    obtain ⟨w, hw, hrest⟩ := h.leaves v x hv hle hx
    exact ⟨w, List.mem_cons_of_mem _ hw, hrest⟩

theorem Inv.destroy (hstep : s.destroy 0 = .ok s') : Inv first s' := by
  obtain ⟨vmar, second, live⟩ := s
  cases live with
  | nil => cases hstep
  | cons w ws =>
    obtain ⟨vmar', hunmap, hstep⟩ := bind_eq_ok hstep
    cases hstep
    have hw : w ∈ w :: ws := List.mem_cons_self
    have hgood := h.good hw
    have hvend := h.vend_eq hw
    have hiff : ∀ m ∈ vmar.mappings, VMAR.Overlaps w.region m ↔ m = mapping w.region.l w.vmo :=
      fun m hm => h.overlaps_iff hw hm
    obtain ⟨hpos, hl, hr, hrest⟩ := h.tiles
    have hfit := h.fit
    dsimp only at hl hr hfit
    obtain ⟨hmem, hsound, hleaves⟩ := VMAR.unmap_within h.sound (fun m hm hov => by
      obtain rfl := (hiff m hm).1 hov
      exact ⟨hgood.plain, hpos, le_rfl, Nat.le_of_eq hvend⟩) hunmap
    have hsecond : xlen ((second : Int) - w.region.length) = w.region.l := by
      have hcast : (w.region.r : Int) - w.region.l + 1 = (w.vmo.len : Nat) := by omega
      unfold Segment.length
      rw [hcast, xlen_of_lt (by omega), xlen_sub (by omega) (by omega)]
      omega
    have hle : w.region.l ≤ 2 ^ 27 := by omega
    refine ⟨hsound, hsecond.symm ▸ hrest, hsecond.symm ▸ hle, ?_, ?_, ?_⟩
    · intro m hm
      obtain ⟨hm, hno⟩ := (hmem m).1 hm
      refine (h.mem m hm).imp_right ?_
      rintro ⟨a, ha, rfl⟩
      rcases List.mem_cons.1 ha with rfl | ha
      · exact absurd ((hiff _ hm).2 rfl) hno
      · exact ⟨a, ha, rfl⟩
    · intro a ha
      have ha' : a ∈ w :: ws := List.mem_cons_of_mem _ ha
      refine (hmem _).2 ⟨h.maps a ha', fun hov => ?_⟩
      have hkey : a.region.l = w.region.l :=
        congrArg PageMapping.vpn ((hiff _ (h.maps a ha')).1 hov)
      obtain ⟨hpos', hlen, -, hend⟩ := hrest.window ha
      omega
    · intro v x hv hle hx
      obtain ⟨hold, hout⟩ := hleaves v x hv hx
      obtain ⟨a, ha, hav, hframe⟩ := h.leaves v x hv hle hold
      rcases List.mem_cons.1 ha with rfl | ha'
      · refine absurd ?_ (hout _ (h.maps a hw) ((hiff _ (h.maps a hw)).2 rfl))
        exact (h.tiles.has_iff hw).1 hav
      · exact ⟨a, ha', hav, hframe⟩

/-- **A page fault in a window** writes pages of the window, the one that faulted among them. -/
theorem Inv.access_writes (hw : w ∈ s.live) (hv : w.Has vpn) :
    ∃ table a n f, s.access vpn = .ok { s with vmar := ⟨s.vmar.mappings, table⟩ } ∧ Sound table ∧
      Writes IsPage (leafAt s.vmar.pagetable) (leafAt table) a n f
        (some (mapping w.region.l w.vmo).perm) ∧
      (∀ v, InRange a n v → f v = w.vmo.frame (v - w.region.l)) ∧ w.region.l ≤ a ∧
        a + n ≤ w.region.l + w.vmo.len ∧ InRange a n vpn := by
  obtain ⟨table, a, n, hok, hs, hwr, ha, hn, hin⟩ := VMAR.pfhandler_writes h.sound (h.find hw hv)
    (h.good hw) ((h.tiles.has_iff hw).1 hv)
  refine ⟨table, a, n, _, ?_, hs, hwr, fun v _ => ?_, ha, hn, hin⟩
  · unfold access
    rw [hok]
    rfl
  · exact congrArg w.vmo.frame (Nat.zero_add _)

theorem Inv.access (hw : w ∈ s.live) (hv : w.Has vpn)
    (hstep : s.access vpn = .ok s') : Inv first s' := by
  obtain ⟨table, a, n, f, hok, hs, hwr, hframe, ha, hn, -⟩ := h.access_writes hw hv
  rw [hok] at hstep
  cases hstep
  refine ⟨hs, h.tiles, h.fit, h.mem, h.maps, fun v x hvp hfirst hx => ?_⟩
  rcases hwr.sound hvp hx with ⟨hr, hf, -⟩ | ⟨-, y, hy, hf, -⟩
  · refine ⟨w, hw, (h.tiles.has_iff hw).2 ?_, hf.trans (hframe v hr)⟩
    obtain ⟨h1, h2⟩ := hr
    exact ⟨by omega, by omega⟩
  · obtain ⟨b, hb, hbv, hbf⟩ := h.leaves v y hvp hfirst hy
    exact ⟨b, hb, hbv, hf.symm.trans hbf⟩

theorem Inv.step {op : Op} (hok : s.Stacked op) (hstep : s.step op = .ok s') : Inv first s' := by
  cases op with
  | construct vmo => exact h.construct hok.1 hok.2 hstep
  | destroy i =>
    obtain rfl : i = 0 := hok
    exact h.destroy hstep
  | access vpn =>
    obtain ⟨w, hw, hv⟩ := hok
    exact h.access hw hv hstep

end

theorem Start.inv (h : Start first s) : Inv first s := by
  obtain ⟨hlive, hsecond, hfit, hsound, hbelow, hleaves⟩ := h
  refine ⟨hsound, ?_, hsecond ▸ hfit, fun m hm => .inl (hbelow m hm), ?_, ?_⟩
  · rw [hlive, hsecond]
    rfl
  · intro w hw
    rw [hlive] at hw
    exact absurd hw List.not_mem_nil
  · intro v x hv hle hx
    rw [hleaves v hv hle] at hx
    cases hx

end Inv

/-- **Windows that are given back in the opposite order are apart**, in every run. -/
theorem separate_of_stacked {first : Nat} {s : Mappers} (h : Reach step Stacked (Start first) s) :
    Separate first s :=
  (h.invariant (Inv first) (fun _ hs => hs.inv) fun _ _ _ hinv hok hstep =>
    hinv.step hok hstep).separate

def bare : Mappers := ⟨VMAR.empty, 0x84202, []⟩

theorem bare_start : Start 0x84202 bare :=
  ⟨rfl, rfl, by decide, createPTNode_sound, fun m hm => absurd hm (not_mem_empty m),
    fun v _ _ => leafAt_createPTNode v⟩

def frames (ppn n : Nat) (h : ppn + n ≤ 2 ^ 44) : Vmo := .contiguous ppn n h

def nestedWindows : List Op :=
  [.construct (frames 64 3 (by decide)), .construct (frames 96 2 (by decide)), .access 0x84206,
    .destroy 0, .construct (frames 128 1 (by decide)), .access 0x84205]

theorem separate_nested : ∃ s, Reach step Stacked (Start 0x84202) s ∧
    s.live.map (·.region) = [⟨0x84205, 0x84205⟩, ⟨0x84202, 0x84204⟩] ∧
      (trans s.vmar.pagetable 0x84205).toOption = some 128 ∧ Separate 0x84202 s := by
  obtain ⟨s, -, hreach, hlive, htrans⟩ := exists_reach step Stacked nestedWindows bare_start
    (fun s => s.live.map (·.region) = [⟨0x84205, 0x84205⟩, ⟨0x84202, 0x84204⟩] ∧
      (trans s.vmar.pagetable 0x84205).toOption = some 128) (by decide +kernel)
  exact ⟨s, hreach, hlive, htrans, separate_of_stacked hreach⟩

def interleavedWindows : List Op :=
  [.construct (frames 64 3 (by decide)), .construct (frames 96 3 (by decide)), .destroy 1,
    .construct (frames 128 3 (by decide))]

/-- The third window is built on the second one, and its pages are those of the second one. -/
theorem not_separate_interleaved :
    ¬∀ s, Reach step Legal (Start 0x84202) s → Separate 0x84202 s := by
  intro h
  obtain ⟨s, -, hreach, hobs⟩ := exists_reach step Legal interleavedWindows bare_start
    (fun s => s.live.map (·.region) = [⟨0x84205, 0x84207⟩, ⟨0x84205, 0x84207⟩]) (by decide +kernel)
  obtain ⟨a, l, hl, ha, hrest⟩ := List.map_eq_cons_iff.1 hobs
  obtain ⟨b, l', hl', hb, -⟩ := List.map_eq_cons_iff.1 hrest
  have hapart := (h s hreach).apart
  rw [hl, hl'] at hapart
  refine (List.pairwise_cons.1 hapart).1 b (List.mem_cons_self ..) 0x84205 ?_ ?_
  · unfold VMOMapper.Has
    rw [ha]
    decide
  · unfold VMOMapper.Has
    rw [hb]
    decide

end Mappers

end LuoOS.Vm
