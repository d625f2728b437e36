import LuoOS.Lib.Runs
import LuoOS.Vm.Process

/-!
# The pages of the system

A process has pages that are not its own to change: those of the kernel, the vDSO, its trap frame
and its stack, in mappings of type `system`. `VMAR::reset` looks at the type, but none of the memory
system calls does, so these pages stay as they are only if no call names one. Writing and clearing
other pages never touches the leaf of a system page, even a large one: the leaves of the first
address space hold system pages only.
-/

namespace LuoOS.Vm

open Translation KeyedSet PageMapping

/-! ## Runs -/

namespace VMAR

/-- A page that is written for a mapping of type `system`: a page of the mapping or, where its
contiguous VMO is longer, one behind it. -/
def SysPage (s : VMAR) (v : Nat) : Prop :=
  ∃ m ∈ s.mappings, m.mapping = .system ∧ InRange m.vpn m.span v

def ClearOf (s : VMAR) (region : Segment) : Prop :=
  ∀ v, region.l ≤ v → v ≤ region.r → ¬s.SysPage v

def RoomAt (s : VMAR) (vpn len : Nat) : Prop :=
  vpn + len ≤ 2 ^ 27 ∧ (0 < len ∨ 0 < vpn) ∧ ∀ v, InRange vpn len v → ¬s.SysPage v

end VMAR

namespace Process

/-- The system calls that name no system page to be unmapped, protected or mapped. `mmap` and
`mprotect` ask for no access or for read, write and execute. -/
def Harmless (p : Process) : Call → Prop
  | .brk addr _ =>
    p.outOfHeap addr = false → p.vmar.contains (addr2pn addr) = false →
      p.vmar.RoomAt (p.brkRange addr).1 (p.brkRange addr).2
  | .mmap addr len prot _ _ _ =>
    bytes2pages len ≠ 0 →
      p.vmar.RoomAt (p.chooseVpn addr len).1 (bytes2pages len) ∧ (prot2perm prot).Ok
  | .munmap addr len => misaligned addr = false → p.vmar.ClearOf (pageRegion addr len)
  | .mprotect addr len prot =>
    misaligned addr = false →
      p.vmar.ClearOf (pageRegion addr len) ∧ (prot2perm prot).Ok
  | .mremap oldaddr oldsize newsize =>
    misaligned oldaddr = false → bytes2pages newsize ≤ bytes2pages oldsize →
      p.vmar.ClearOf (shrinkRegion oldaddr oldsize newsize)

/-- The states of a process that system calls get to from `p0` on. -/
abbrev Reach (ok : Process → Call → Prop) (p0 : Process) : Process → Prop :=
  Runs.Reach callStep ok (· = p0)

/-- **The system pages of `p0` are in `p` what they were**: same frame, same permission. -/
def SystemKept (p0 p : Process) : Prop :=
  ∀ m ∈ p0.vmar.mappings, m.mapping = .system → ∀ v, m.contains v = true →
    look p.vmar.pagetable v = look p0.vmar.pagetable v

end Process

/-! ## The first address space -/

namespace VMAR

/-- An address space of system pages only. -/
structure Built (s : VMAR) : Prop where
  sound : Sound s.pagetable
  mappings : ∀ m ∈ s.mappings, m.mapping = .system ∧ m.Plain ∧ 0 < m.len
  leaves : ∀ v x, IsPage v → leafAt s.pagetable v = some x → ∀ w, x.Covers v w → s.SysPage w

theorem Built.empty : VMAR.empty.Built := by
  refine ⟨createPTNode_sound, ?_, ?_⟩
  · intro m hm
    exact absurd hm (not_mem_empty m)
  · intro v x _ hx
    cases hx

theorem Built.map {s s' : VMAR} {m : PageMapping} (h : s.Built) (hsys : m.mapping = .system)
    (hm : m.Plain) (hpos : 0 < m.len) (hfree : ∀ m' ∈ s.mappings, m'.vpn ≠ m.vpn)
    (hmap : s.map m = .ok s') : s'.Built := by
  obtain ⟨hins, hs, hw⟩ := map_spec hm h.sound hmap
  have hself : m ∈ s'.mappings := hins ▸ mem_insert_self hfree
  refine ⟨hs, ?_, ?_⟩
  · intro m' hm'
    rw [hins] at hm'
    rcases mem_of_mem_insert hm' with rfl | hm'
    · exact ⟨hsys, hm, hpos⟩
    · exact h.mappings m' hm'
  · intro v x hv hx w hcov
    by_cases hr : InRange m.vpn m.span v
    · obtain ⟨h1, h2⟩ := hw.inside hv hr hx
      exact ⟨m, hself, hsys, h1.trans hcov.1, hcov.2.trans_le h2⟩
    · obtain ⟨y, hy, -, -, hin⟩ := hw.old v hv hr x hx
      obtain ⟨m', hm', hrest⟩ := h.leaves v y hv hy w (hin.covers hcov)
      exact ⟨m', hins ▸ subset_insert hm', hrest⟩

/-- Mapping a list of system mappings with different first pages. -/
theorem Built.foldlM {ms : List PageMapping} :
    ∀ {s s' : VMAR}, s.Built → (∀ m ∈ ms, m.mapping = .system ∧ m.Plain ∧ 0 < m.len) →
    (ms.map vpn).Nodup → (∀ m ∈ ms, ∀ m' ∈ s.mappings, m'.vpn ≠ m.vpn) →
    ms.foldlM (fun s m => s.map m) s = .ok s' → s'.Built := by
  induction ms with
  | nil =>
    intro s s' h _ _ _ heq
    cases heq
    exact h
  | cons m ms ih =>
    intro s s' h hms hnodup hfree heq
    obtain ⟨s1, hmap, hrest⟩ := bind_eq_ok heq
    obtain ⟨hsys, hm, hpos⟩ := hms m List.mem_cons_self
    rw [List.map_cons, List.nodup_cons] at hnodup
    have hins := (map_spec hm h.sound hmap).1
    refine ih (h.map hsys hm hpos (hfree m List.mem_cons_self) hmap)
      (fun m' hm' => hms m' (List.mem_cons_of_mem _ hm')) hnodup.2 ?_ hrest
    intro a ha b hb
    rw [hins] at hb
    rcases mem_of_mem_insert hb with rfl | hb
    · intro hkey
      exact hnodup.1 (hkey ▸ List.mem_map_of_mem ha)
    · exact hfree a (List.mem_cons_of_mem _ ha) b hb

end VMAR

theorem PageMapping.contiguous_plain {m : PageMapping} {ppn pages : Nat} {hp : ppn + pages ≤ 2 ^ 44}
    (hv : m.vmo = .contiguous ppn pages hp) (h0 : m.offset = 0) (hpos : 0 < m.len)
    (hlen : m.len ≤ pages) (hfit : m.vpn + pages ≤ 2 ^ 27) (hok : m.perm.Ok) : m.Plain := by
  refine ⟨?_, ?_, hok, fun _ => h0⟩
  · rw [span_contiguous hv hpos]
    exact hfit
  · rw [h0, hv, Nat.zero_add]
    exact hlen

theorem KernelInfo.systemMappings_plain (k : KernelInfo) :
    ∀ m ∈ k.systemMappings, m.mapping = .system ∧ m.Plain ∧ 0 < m.len := by
  have hseg : ∀ (seg : KSegment) (perm : Perm), perm.Ok →
      (segmentMapping seg perm).mapping = .system ∧ (segmentMapping seg perm).Plain ∧
        0 < (segmentMapping seg perm).len := by
    intro seg perm hok
    exact ⟨rfl, contiguous_plain rfl rfl (Nat.succ_pos _) le_rfl
      seg.pages_fit hok, Nat.succ_pos _⟩
  intro m hm
  simp only [systemMappings, List.mem_cons, List.not_mem_nil, or_false] at hm
  rcases hm with rfl | rfl | rfl | rfl | rfl | rfl | rfl | rfl
  · exact hseg _ _ rfl
  · exact hseg _ _ rfl
  · exact hseg _ _ rfl
  · exact hseg _ _ rfl
  · exact hseg _ _ rfl
  · exact ⟨rfl, contiguous_plain rfl rfl Nat.one_pos (Nat.succ_pos _) k.vdso_fit rfl,
      Nat.one_pos⟩
  · exact ⟨rfl, contiguous_plain rfl rfl Nat.two_pos le_rfl k.trapframe_fit
      rfl, Nat.two_pos⟩
  · have hpos : 0 < bytes2pages UstackSize := by decide
    have hfit : addr2pn UstackBottom + bytes2pages UstackSize ≤ 2 ^ 27 := by decide
    exact ⟨rfl, contiguous_plain rfl rfl hpos le_rfl hfit rfl, hpos⟩

theorem newAddressSpace_built {k : KernelInfo} {s : VMAR} (h : newAddressSpace k = .ok s) :
    s.Built := by
  refine VMAR.Built.foldlM VMAR.Built.empty k.systemMappings_plain k.distinct ?_ h
  intro m _ m' hm'
  exact absurd hm' (not_mem_empty m')

/-! ## What the calls keep -/

namespace VMAR

/-- A mapping of the process, beside the system's. -/
structure User (s0 : VMAR) (m : PageMapping) : Prop where
  paged : m.vmo.IsPaged
  plain : m.Plain
  kind : m.mapping ≠ .system
  some : 0 < m.len ∨ 0 < m.vpn
  apart : ∀ v, InRange m.vpn m.len v → ¬s0.SysPage v

def KeptIn (s0 : VMAR) (L : Nat → Option (Leaf Perm)) : Prop :=
  ∀ v, IsPage v → s0.SysPage v → L v = leafAt s0.pagetable v

/-- The system pages are as they were in `s0`. -/
structure Guarded (s0 s : VMAR) : Prop where
  sound : Sound s.pagetable
  system : ∀ m ∈ s0.mappings, m ∈ s.mappings
  kinds : ∀ m ∈ s.mappings, m ∈ s0.mappings ∨ User s0 m
  kept : KeptIn s0 (leafAt s.pagetable)

section KeptIn

variable {s0 : VMAR} {L L' : Nat → Option (Leaf Perm)} {a n : Nat}

/-- Writing pages that are not of the system keeps those that are: no leaf of theirs is cut. -/
theorem KeptIn.write {f : Nat → Nat} {g : Option Perm} (h : KeptIn s0 L) (hb : s0.Built)
    (hw : Writes IsPage L L' a n f g) (hn : 0 < n)
    (hapart : ∀ v, InRange a n v → ¬s0.SysPage v) : KeptIn s0 L' := by
  intro v hv hsys
  rw [← h v hv hsys]
  refine hw.eq_of_avoids hv (fun hr => hapart v hr hsys) fun y hy => ?_
  rw [h v hv hsys] at hy
  refine Leaf.avoids_of_covers (Entry.leafAt_size_pos _ hy) hn fun w hcov hr => ?_
  exact hapart w hr (hb.leaves v y hv hy w hcov)

theorem KeptIn.clear (h : KeptIn s0 L) (hc : Clears IsPage L L' a n)
    (hapart : ∀ v, InRange a n v → ¬s0.SysPage v) : KeptIn s0 L' := by
  intro v hv hsys
  rw [hc.kept v hv fun hr => hapart v hr hsys]
  exact h v hv hsys

end KeptIn

section Guarded

variable {s0 s s' : VMAR} {i m : PageMapping} {region : Segment}

theorem User.not_mem (h : User s0 m) (hb : s0.Built) : m ∉ s0.mappings :=
  fun hm => h.kind (hb.mappings m hm).1

theorem Guarded.user_of_overlap (h : Guarded s0 s) (hb : s0.Built) (hi : i ∈ s.mappings)
    (hclear : s0.ClearOf region) (hov : (i.vsegment.inter region).nonempty = true) :
    User s0 i ∧ 0 < i.len ∧ i.vpn + i.len ≤ 2 ^ 27 ∧
      max i.vpn region.l ≤ min i.vend region.r := by
  have hle : max i.vpn region.l ≤ min i.vend region.r := of_decide_eq_true hov
  rcases h.kinds i hi with hsys | hu
  · obtain ⟨hkind, hplain, hpos⟩ := hb.mappings i hsys
    have hvend := hplain.vend_eq hpos
    have hspan := hplain.len_le_span
    refine absurd ⟨i, hsys, hkind, ?_, ?_⟩ (hclear (max i.vpn region.l) (by omega) (by omega)) <;>
      omega
  · have hfit := hu.plain.fit
    rw [span_of_isPaged hu.paged] at hfit
    refine ⟨hu, Nat.pos_of_ne_zero fun hzero => ?_, hfit, hle⟩
    have hpos : 0 < i.vpn := hu.some.resolve_left (by omega)
    have hvend : i.vend = i.vpn - 1 := by
      unfold vend xlen
      omega
    omega

theorem User.slice (h : User s0 i) (hpos : 0 < i.len) {l r : Nat} (hl : i.vpn ≤ l) (hlr : l ≤ r)
    (hr : r ≤ i.vend) {p : Perm} (hp : p = {} ∨ p.Ok) : User s0 (i.splitChild ⟨l, r⟩ p) := by
  have hvend := h.plain.vend_eq hpos
  have heq := (h.plain.ranged hpos).splitChild_eq hl hlr hr p
  refine ⟨h.paged, splitChild_plain h.plain hpos hl hlr hr hp (.inl h.paged), h.kind,
    ?_, ?_⟩
  · rw [heq]
    exact .inl (Nat.sub_pos_of_lt (Nat.lt_succ_of_le hlr))
  · intro v hv
    rw [heq] at hv
    obtain ⟨hlv, hvr⟩ := slice_inRange.1 hv
    exact h.apart v ⟨by omega, by omega⟩

section

variable (h : Guarded s0 s)
include h

theorem Guarded.insert (hu : User s0 m) (hins : s'.mappings = s.mappings.insert m)
    (hs : Sound s'.pagetable) (hk : KeptIn s0 (leafAt s'.pagetable)) : Guarded s0 s' := by
  refine ⟨hs, ?_, ?_, hk⟩
  · intro m' hm'
    rw [hins]
    exact subset_insert (h.system m' hm')
  · intro m' hm'
    rw [hins] at hm'
    rcases mem_of_mem_insert hm' with rfl | hm'
    · exact .inr hu
    · exact h.kinds m' hm'

section

variable (hb : s0.Built)
include hb

theorem Guarded.map (hu : User s0 m) (hmap : s.map m = .ok s') : Guarded s0 s' := by
  obtain ⟨hins, hs, hw⟩ := map_spec hu.plain h.sound hmap
  refine h.insert hu hins hs ?_
  rcases Nat.eq_zero_or_pos m.len with hzero | hpos
  · rw [map_of_len_zero hzero hmap]
    exact h.kept
  · rw [span_of_isPaged hu.paged] at hw
    exact h.kept.write hb hw hpos hu.apart

theorem Guarded.erase {t : Table 2} (hi : i ∈ s.mappings) (hu : User s0 i) (hs : Sound t)
    (hk : KeptIn s0 (leafAt t)) : Guarded s0 ⟨s.mappings.erase i.vpn, t⟩ := by
  refine ⟨hs, ?_, ?_, hk⟩
  · intro m hm
    refine mem_erase.2 ⟨h.system m hm, fun hkey => ?_⟩
    have heq : m = i := eq_of_key_eq (h.system m hm) hi hkey
    exact hu.not_mem hb (heq ▸ hm)
  · intro m hm
    exact h.kinds m (mem_erase.1 hm).1

theorem Guarded.left {l : Nat} (hi : i ∈ s.mappings) (hu : User s0 i) (hpos : 0 < i.len)
    (hl : i.vpn ≤ l) (hr : l ≤ i.vend) (hslice : s.mapSlice i ⟨i.vpn, xlen (l - 1)⟩ = .ok s') :
    Guarded s0 s' ∧ s'.mappings = s.mappings := by
  obtain ⟨hmap, hs, n, hn, -, hzero, hw⟩ := mapSlice_left hi hu.plain hpos hl hr h.sound hslice
  refine ⟨⟨hs, ?_, ?_, ?_⟩, hmap⟩
  · rw [hmap]
    exact h.system
  · rw [hmap]
    exact h.kinds
  · rcases Nat.eq_zero_or_pos n with h0 | hnpos
    · rw [hzero h0]
      exact h.kept
    · refine h.kept.write hb hw hnpos fun v hv => hu.apart v ?_
      rw [span_of_isPaged hu.paged] at hn
      exact ⟨hv.1, hv.2.trans_le (Nat.add_le_add_left hn _)⟩

theorem Guarded.right {r : Nat} (hu : User s0 i) (hpos : 0 < i.len) (hl : i.vpn ≤ r)
    (hr : r ≤ i.vend) (hslice : s.mapSlice i ⟨xlen (r + 1), i.vend⟩ = .ok s') :
    Guarded s0 s' ∧ ∀ m ∈ s.mappings, m ∈ s'.mappings := by
  have hvend := hu.plain.vend_eq hpos
  obtain ⟨hins, hs, hend, hw⟩ := mapSlice_right hu.plain hpos hl hr h.sound (.inl hu.paged) hslice
  rcases Nat.lt_or_ge r i.vend with hlt | hge
  · have hrest : User s0 (i.rest r) := (hu.plain.ranged hpos).splitChild_rest hl hlt ▸
      hu.slice hpos (by omega) hlt le_rfl (.inl rfl)
    refine ⟨h.insert hrest (hins.trans (if_pos hlt)) hs ?_, fun m hm => hins ▸ subset_withRest hm⟩
    refine h.kept.write hb hw (by omega) fun v hv => hu.apart v ?_
    unfold InRange at *
    omega
  · rw [hend (by omega)]
    exact ⟨h, fun m hm => hm⟩

variable {next : Option PageMapping}

/-- **One round of `unmap`** over a region without system pages. -/
theorem Guarded.unmapBody (hi : i ∈ s.mappings)
    (hclear : s0.ClearOf region) (hbody : unmapBody region i s = .ok (next, s')) :
    Guarded s0 s' ∧ ∀ j, next = some j → j ∈ s'.mappings := by
  rcases unmapBody_cases hbody with
    ⟨hov, s1, s2, t, hleft, hright, hremove, rfl, rfl⟩ | ⟨-, rfl, rfl⟩
  · obtain ⟨hu, hpos, hfit, hle⟩ := h.user_of_overlap hb hi hclear hov
    obtain ⟨h1, hmap1⟩ := h.left (l := max i.vpn region.l) hb hi hu hpos (by omega) (by omega) hleft
    obtain ⟨h2, hsub⟩ := h1.right (r := min i.vend region.r) hb hu hpos (by omega) (by omega) hright
    have hi2 : i ∈ s2.mappings := hsub i (hmap1 ▸ hi)
    obtain ⟨hs, hc⟩ := remove_root h2.sound hfit (by omega) hremove
    refine ⟨h2.erase hb hi2 hu hs (h2.kept.clear hc hu.apart), fun j hj => ?_⟩
    exact mem_erase_of_upperBound hj
  · exact ⟨h, fun j hj => upperBound_mem hj⟩

/-- **One round of `protect`** over a region without system pages. -/
theorem Guarded.protectBody {perm : Perm} (hi : i ∈ s.mappings) (hclear : s0.ClearOf region)
    (hok : perm.Ok) (hbody : protectBody region perm i s = .ok (next, s')) :
    Guarded s0 s' ∧ ∀ j, next = some j → j ∈ s'.mappings := by
  rcases protectBody_cases hbody with
    ⟨hov, t, s1, s2, hremove, hleft, hright, hmap, rfl⟩ | ⟨-, rfl, rfl⟩
  · obtain ⟨hu, hpos, hfit, hle⟩ := h.user_of_overlap hb hi hclear hov
    obtain ⟨hs, hc⟩ := remove_root h.sound hfit (by omega) hremove
    have h0 : Guarded s0 { s with pagetable := t } :=
      ⟨hs, h.system, h.kinds, h.kept.clear hc hu.apart⟩
    obtain ⟨h1, hmap1⟩ := h0.left (l := max i.vpn region.l) hb hi hu hpos (by omega) (by omega)
      hleft
    obtain ⟨h2, hsub⟩ := h1.right (r := min i.vend region.r) hb hu hpos (by omega) (by omega) hright
    have hi2 : i ∈ s2.mappings := hsub i (hmap1 ▸ hi)
    have hnew : User s0 (i.splitChild (i.vsegment.inter region) perm) :=
      hu.slice hpos (Nat.le_max_left _ _) hle (Nat.min_le_left _ _) (.inr hok)
    have h3 := h2.erase hb hi2 hu h2.sound h2.kept
    refine ⟨h3.map hb hnew hmap, fun j hj => ?_⟩
    rw [(map_spec hnew.plain h3.sound hmap).1]
    exact subset_insert (mem_erase_of_upperBound hj)
  · exact ⟨h, fun j hj => upperBound_mem hj⟩

theorem Guarded.unmap (hclear : s0.ClearOf region) (hr : s.unmap region = .ok s') : Guarded s0 s' :=
  sweep_keeps (fun _ _ _ _ h hi hbody => h.unmapBody hb hi hclear hbody) h hr

theorem Guarded.protect {perm : Perm} (hclear : s0.ClearOf region) (hok : perm.Ok)
    (hr : s.protect region perm = .ok s') : Guarded s0 s' :=
  sweep_keeps (fun _ _ _ _ h hi hbody => h.protectBody hb hi hclear hok hbody) h hr

end

theorem Guarded.sysPage_iff {v : Nat} : s.SysPage v ↔ s0.SysPage v := by
  constructor
  · rintro ⟨m, hm, hsys, hr⟩
    rcases h.kinds m hm with hm | hu
    · exact ⟨m, hm, hsys, hr⟩
    · exact absurd hsys hu.kind
  · rintro ⟨m, hm, hsys, hr⟩
    exact ⟨m, h.system m hm, hsys, hr⟩

theorem Guarded.clearOf (hc : s.ClearOf region) : s0.ClearOf region :=
  fun v hl hr hsys => hc v hl hr (h.sysPage_iff.2 hsys)

theorem Guarded.user {vpn len : Nat} {load : Frames} (hroom : s.RoomAt vpn len) (hv : m.vpn = vpn)
    (hl : m.len = len) (h0 : m.offset = 0) (hvmo : m.vmo = vmoPaged len load) (hok : m.perm.Ok)
    (hkind : m.mapping ≠ .system) : User s0 m := by
  obtain ⟨hfit, hsome, hapart⟩ := hroom
  have hpaged : m.vmo.IsPaged := hvmo ▸ trivial
  have hlen : m.vmo.len = len := by
    rw [hvmo]
    exact xlen_of_lt (by omega)
  refine ⟨hpaged, ⟨?_, ?_, hok, fun hnp => absurd hpaged hnp⟩, hkind, ?_, ?_⟩
  · rw [span_of_isPaged hpaged, hv, hl]
    exact hfit
  · omega
  · rw [hv, hl]
    exact hsome
  · intro v hr hsys
    rw [hv, hl] at hr
    exact hapart v hr (h.sysPage_iff.2 hsys)

end

end Guarded

end VMAR

/-! ## Every run -/

namespace Process

open VMAR

theorem guarded_call {s0 : VMAR} {p p' : Process} {c : Call} {ret : Except Nat Nat}
    (hb : s0.Built) (h : Guarded s0 p.vmar) (hc : p.Harmless c)
    (hcall : p.call c = .ok (ret, p')) : Guarded s0 p'.vmar := by
  cases c with
  | brk addr load =>
    simp only [call, brk] at hcall
    split at hcall
    · cases hcall
      exact h
    rename_i hheap
    split at hcall
    · cases hcall
      exact h
    rename_i hin
    obtain ⟨s, hmap, hcall⟩ := bind_eq_ok hcall
    cases hcall
    have hroom := hc (Bool.eq_false_of_not_eq_true hheap) (Bool.eq_false_of_not_eq_true hin)
    refine h.map hb ?_ hmap
    exact h.user hroom rfl rfl rfl rfl rfl nofun
  | mmap addr len prot flags fd load =>
    simp only [call, mmap] at hcall
    split at hcall
    · cases hcall
      exact h
    rename_i hpages
    split at hcall
    · cases hcall
    obtain ⟨s, hmap, hcall⟩ := bind_eq_ok hcall
    cases hcall
    obtain ⟨hroom, hok⟩ := hc hpages
    refine h.map hb ?_ hmap
    refine h.user hroom rfl rfl rfl rfl hok ?_
    split <;> nofun
  | munmap addr len =>
    simp only [call, munmap] at hcall
    split at hcall
    · cases hcall
      exact h
    rename_i hal
    obtain ⟨s, hunmap, hcall⟩ := bind_eq_ok hcall
    cases hcall
    exact h.unmap hb (h.clearOf (hc (Bool.eq_false_of_not_eq_true hal))) hunmap
  | mprotect addr len prot =>
    simp only [call, mprotect] at hcall
    split at hcall
    · cases hcall
      exact h
    rename_i hal
    obtain ⟨s, hprotect, hcall⟩ := bind_eq_ok hcall
    cases hcall
    obtain ⟨hclear, hok⟩ := hc (Bool.eq_false_of_not_eq_true hal)
    exact h.protect hb (h.clearOf hclear) hok hprotect
  | mremap oldaddr oldsize newsize =>
    simp only [call, mremap] at hcall
    split at hcall
    · cases hcall
      exact h
    rename_i hal
    split at hcall
    · cases hcall
      exact h
    rename_i hle
    obtain ⟨s, hunmap, hcall⟩ := bind_eq_ok hcall
    cases hcall
    have hclear := hc (Bool.eq_false_of_not_eq_true hal) (Nat.le_of_not_lt hle)
    exact h.unmap hb (h.clearOf hclear) hunmap

theorem guarded_of_harmless {p0 p : Process} (hb : p0.vmar.Built) (h : Reach Harmless p0 p) :
    Guarded p0.vmar p.vmar := by
  refine h.invariant (fun p => Guarded p0.vmar p.vmar) ?_ ?_
  · rintro _ rfl
    exact ⟨hb.sound, fun _ hm => hm, fun _ hm => .inl hm, fun _ _ _ => rfl⟩
  · intro p p' c hg hc hstep
    obtain ⟨ret, hcall⟩ := callStep_eq_ok.1 hstep
    exact guarded_call hb hg hc hcall

/-- **Harmless system calls keep the system pages**, in every run from a new process on. -/
theorem systemKept_of_harmless {k : KernelInfo} {p₀ p : Process}
    (hnew : newAddressSpace k = .ok p₀.vmar) (hr : Reach Harmless p₀ p) : SystemKept p₀ p := by
  have hb := newAddressSpace_built hnew
  intro m hm hsys v hv
  obtain ⟨-, hplain, hpos⟩ := hb.mappings m hm
  have hvend := hplain.vend_lt hpos
  have heq := hplain.vend_eq hpos
  have hspan := hplain.len_le_span
  unfold PageMapping.contains at hv
  rw [Bool.and_eq_true, decide_eq_true_iff, decide_eq_true_iff] at hv
  unfold look
  rw [(guarded_of_harmless hb hr).kept v (hv.2.trans_lt hvend) ⟨m, hm, hsys, hv.1, by omega⟩]

def smallKernel : KernelInfo where
  text := ⟨0x80200000, 0x80201fff, by decide, by decide⟩
  rodata := ⟨0x80202000, 0x80202fff, by decide, by decide⟩
  data := ⟨0x80203000, 0x80204fff, by decide, by decide⟩
  vdso := ⟨0x80204000, 0x802047ff, by decide, by decide⟩
  kstack := ⟨0x80206000, 0x80206fff, by decide, by decide⟩
  bss := ⟨0x80208000, 0x80208fff, by decide, by decide⟩
  trapframe := 0x80300
  ustack := 0x80310
  trapframe_fit := by decide
  ustack_fit := by decide
  vdso_fit := by decide
  distinct := by decide

def oneFrame : Frames := ⟨fun _ => 0x81000, fun _ => (by decide : (0x81000 : Nat) < 2 ^ 44)⟩

/-- Anonymous memory at page 256 of a new process. -/
theorem systemKept_mmap : ∃ p₀ p, newAddressSpace smallKernel = .ok p₀.vmar ∧
    Reach Harmless p₀ p ∧ look p.vmar.pagetable 256 ≠ none ∧ SystemKept p₀ p := by
  have hrun : (do
      let s ← newAddressSpace smallKernel
      let r ← mmap ⟨s, 0, 0, fun _ => false⟩ 0x100000 4096 3 0 (-1) oneFrame
      pure (s.mappings.elems.all (fun m => 256 < m.vpn), r.1.toOption,
        look r.2.vmar.pagetable 256) : Kern _).toOption =
      some (true, some 0x100000, some (0x81000, prot2perm 3)) := by
    decide +kernel
  obtain ⟨s, hs, hrun⟩ := bind_eq_ok (toOption_eq_some.1 hrun)
  obtain ⟨⟨ret, p⟩, hmmap, hrun⟩ := bind_eq_ok hrun
  obtain ⟨hlow, hrun⟩ := Prod.mk.inj (Except.ok.inj hrun)
  obtain ⟨-, htrans⟩ := Prod.mk.inj hrun
  have hcall : Harmless ⟨s, 0, 0, fun _ => false⟩ (.mmap 0x100000 4096 3 0 (-1) oneFrame) := by
    intro _
    change VMAR.RoomAt s 256 1 ∧ (prot2perm 3).Ok
    refine ⟨⟨by decide, by decide, ?_⟩, by decide⟩
    rintro v ⟨hv1, hv2⟩ ⟨m, hm, -, hr, -⟩
    have hlt : 256 < m.vpn := of_decide_eq_true (List.all_eq_true.1 hlow m hm)
    omega
  have hr : Reach Harmless ⟨s, 0, 0, fun _ => false⟩ p :=
    .next (.start rfl) hcall (callStep_eq_ok.2 ⟨ret, hmmap⟩)
  refine ⟨⟨s, 0, 0, fun _ => false⟩, p, hs, hr, ?_, systemKept_of_harmless hs hr⟩
  rw [htrans]
  intro h
  cases h

/-- **`mprotect` gives a process the kernel's text**: the page becomes writable, and accessible in
user mode. -/
theorem not_systemKept : ¬∀ k p₀ p, newAddressSpace k = .ok p₀.vmar →
    Reach (fun _ _ => True) p₀ p → SystemKept p₀ p := by
  intro h
  have hrun : (do
      let s ← newAddressSpace smallKernel
      let r ← mprotect ⟨s, 0, 0, fun _ => false⟩ 0x80200000 0x1000 3
      pure ((s.mappings.elems.find? fun m => m.contains 0x80200).map (·.mapping),
        look s.pagetable 0x80200, look r.2.vmar.pagetable 0x80200) : Kern _).toOption =
      some (some .system, some (0x80200, { v := true, r := true, x := true }),
        some (0x80200, { v := true, r := true, w := true, u := true })) := by
    decide +kernel
  obtain ⟨s, hs, hrun⟩ := bind_eq_ok (toOption_eq_some.1 hrun)
  obtain ⟨⟨ret, p⟩, hcall, hrun⟩ := bind_eq_ok hrun
  obtain ⟨hfind, hrun⟩ := Prod.mk.inj (Except.ok.inj hrun)
  obtain ⟨hbefore, hafter⟩ := Prod.mk.inj hrun
  obtain ⟨m, hm, hsys⟩ := Option.map_eq_some_iff.1 hfind
  have hc : m.contains 0x80200 = true := by
    have := List.find?_some hm
    exact this
  have hkept := h smallKernel ⟨s, 0, 0, fun _ => false⟩ p hs
    (.next (i := .mprotect 0x80200000 0x1000 3) (.start rfl) trivial
      (callStep_eq_ok.2 ⟨ret, hcall⟩)) m
    (List.mem_of_find?_eq_some hm) hsys 0x80200 hc
  rw [hafter, hbefore] at hkept
  exact absurd hkept (by decide)

end Process

end LuoOS.Vm
