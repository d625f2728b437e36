import LuoOS.Lib.Runs
import LuoOS.Vm.Process

/-!
# The heap of a process under `brk`

Right after `execve` the heap is empty and no mapping touches the pages it may grow into. Each `brk`
that needs pages maps one more run of them behind the page of `heapTop`, and never takes any back.
While such a call finds its pages unmapped, the heap is a chain of runs. A call after a shrink
breaks it: the new run starts at the smaller `heapTop`, among pages still mapped.
-/

namespace LuoOS.Vm

open Translation Runs KeyedSet

variable {v : Nat}

theorem VMAR.contains_eq_true {s : VMAR} :
    s.contains v = true ↔ ∃ m ∈ s.mappings, m.contains v = true := by
  simp [VMAR.contains, mem_def]

def Vmo.Owns (vmo : Vmo) (ppn : Nat) : Prop := ∃ i < vmo.len, vmo.frame i = ppn

/-! ## Runs of heap pages -/

/-- A mapping of pages of `[a, b)`, all of them translated. -/
structure PageMapping.Part (table : Table 2) (a b : Nat) (m : PageMapping) : Prop where
  pos : 0 < m.len
  first : a ≤ m.vpn
  last : m.vpn + m.len ≤ b
  within : m.offset + m.len ≤ m.vmo.len
  granted : ∀ v, InRange m.vpn m.len v →
    ∃ x, leafAt table v = some x ∧ x.frame v = m.frameOf v ∧ x.Inside v m.vpn m.len

namespace PageMapping.Part

variable {table table' : Table 2} {a b : Nat} {m : PageMapping}

theorem contains_iff (h : m.Part table a b) (hb : b ≤ 2 ^ 27) :
    m.contains v = true ↔ InRange m.vpn m.len v :=
  PageMapping.contains_iff h.pos ((h.last.trans hb).trans (by decide))

/-- The page table gives a page of the run a frame of the VMO of the run. -/
theorem trans_owns (h : m.Part table a b) (hv : InRange m.vpn m.len v) :
    ∃ ppn, trans table v = .ok ppn ∧ m.vmo.Owns ppn := by
  obtain ⟨x, hx, hframe, -⟩ := h.granted v hv
  have hwithin := h.within
  obtain ⟨h1, h2⟩ := hv
  exact ⟨m.frameOf v, trans_eq_ok.2 ⟨x, hx, hframe⟩, m.offset + (v - m.vpn), by omega, rfl⟩

theorem keeps {n : Nat} {f : Nat → Nat} {g : Option Perm} (h : m.Part table a b)
    (hb : b ≤ 2 ^ 27) (hw : Writes IsPage (leafAt table) (leafAt table') b n f g) :
    m.Part table' a (b + n) := by
  have hlast := h.last
  refine ⟨h.pos, h.first, hlast.trans (Nat.le_add_right _ _), h.within, ?_⟩
  intro v hv
  obtain ⟨x, hx, hframe, hinside⟩ := h.granted v hv
  have hlt : v < b := hv.2.trans_le hlast
  have havoids : x.Avoids v b n := .inl (hinside.2.trans hlast)
  refine ⟨x, ?_, hframe, hinside⟩
  exact hw.keeps v (hlt.trans_le hb) (fun hr => Nat.not_le.2 hlt hr.1) x hx havoids

end PageMapping.Part

namespace Process

def heapStart (p : Process) : Nat := bytes2pages p.heapBottom

def heapLimit (p : Process) : Nat := bytes2pages (p.heapBottom + UserHeapSize)

def InHeap (p : Process) (addr : Nat) : Prop :=
  p.heapBottom < addr ∧ addr < p.heapBottom + UserHeapSize
  deriving Decidable

def OffHeap (p : Process) (m : PageMapping) : Prop :=
  ∀ v, p.heapStart ≤ v → v < p.heapLimit → m.vpn ≠ v ∧ m.contains v = false

/-- A process right after `execve`. -/
structure AfterExec (p : Process) : Prop where
  top : p.heapTop = p.heapBottom
  fit : p.heapBottom + UserHeapSize ≤ 2 ^ 39
  sound : Sound p.vmar.pagetable
  free : ∀ m ∈ p.vmar.mappings, p.OffHeap m

/-- The heap, mapped up to page `E`. -/
structure Heap (p : Process) (E : Nat) : Prop where
  fit : p.heapBottom + UserHeapSize ≤ 2 ^ 39
  sound : Sound p.vmar.pagetable
  bottom : p.heapBottom ≤ p.heapTop
  top : bytes2pages p.heapTop ≤ E
  limit : E ≤ p.heapLimit
  parts : ∀ m ∈ p.vmar.mappings, p.OffHeap m ∨ m.Part p.vmar.pagetable p.heapStart E
  cover : ∀ v, p.heapStart ≤ v → v < E →
    ∃ m ∈ p.vmar.mappings, m.Part p.vmar.pagetable p.heapStart E ∧ InRange m.vpn m.len v
  apart : ∀ m ∈ p.vmar.mappings, ∀ m' ∈ p.vmar.mappings,
    m.Part p.vmar.pagetable p.heapStart E → m'.Part p.vmar.pagetable p.heapStart E →
    ∀ v, InRange m.vpn m.len v → InRange m'.vpn m'.len v → m = m'

def HeapMapped (p : Process) : Prop :=
  ∀ v, p.heapStart ≤ v → v < bytes2pages p.heapTop →
    ∃ m ∈ p.vmar.mappings, m.contains v = true ∧
      (∀ m' ∈ p.vmar.mappings, m'.contains v = true → m' = m) ∧
      ∃ ppn, trans p.vmar.pagetable v = .ok ppn ∧ m.vmo.Owns ppn

def Grows (p : Process) (addr : Nat) : Prop :=
  p.outOfHeap addr = false → p.vmar.contains (addr2pn addr) = false →
    bytes2pages p.heapTop < bytes2pages addr ∧
      ∀ v, bytes2pages p.heapTop ≤ v → v < bytes2pages addr → p.vmar.contains v = false
  deriving Decidable

def brkMapping (p : Process) (addr : Nat) (load : Frames) : PageMapping :=
  { vpn := (p.brkRange addr).1, len := (p.brkRange addr).2, offset := 0
    vmo := vmoPaged (p.brkRange addr).2 load
    perm := { r := true, w := true, x := true, u := true, v := true }
    mapping := .anon, sharing := 0 }

variable {p : Process} {E : Nat}

theorem AfterExec.heap (h : p.AfterExec) : p.Heap p.heapStart where
  fit := h.fit
  sound := h.sound
  bottom := Nat.le_of_eq h.top.symm
  top := Nat.le_of_eq (congrArg bytes2pages h.top)
  limit := bytes2pages_mono (Nat.le_add_right _ _)
  parts := fun m hm => .inl (h.free m hm)
  cover := fun v h1 h2 => absurd h1 (Nat.not_le.2 h2)
  apart := by
    intro m hm m' hm' hpart hpart' v hv
    have h1 := hpart.first
    have h2 := hpart.last
    have h3 := hpart.pos
    omega

namespace Heap

section

variable (h : p.Heap E)
include h

theorem limit_le : p.heapLimit ≤ 2 ^ 27 := bytes2pages_le.2 h.fit

theorem end_le : E ≤ 2 ^ 27 := h.limit.trans h.limit_le

theorem start_le : p.heapStart ≤ bytes2pages p.heapTop := bytes2pages_mono h.bottom

theorem contains_iff (h1 : p.heapStart ≤ v) (h2 : v < p.heapLimit) :
    p.vmar.contains v = true ↔ v < E := by
  rw [VMAR.contains_eq_true]
  constructor
  · rintro ⟨m, hm, hc⟩
    rcases h.parts m hm with hoff | hpart
    · rw [(hoff v h1 h2).2] at hc
      cases hc
    · exact ((hpart.contains_iff h.end_le).1 hc).2.trans_le hpart.last
  · intro hlt
    obtain ⟨m, hm, hpart, hv⟩ := h.cover v h1 hlt
    exact ⟨m, hm, (hpart.contains_iff h.end_le).2 hv⟩

theorem heapMapped : p.HeapMapped := by
  intro v h1 h2
  have hE : v < E := h2.trans_le h.top
  obtain ⟨m, hm, hpart, hv⟩ := h.cover v h1 hE
  refine ⟨m, hm, (hpart.contains_iff h.end_le).2 hv, ?_, hpart.trans_owns hv⟩
  intro m' hm' hc
  rcases h.parts m' hm' with hoff | hpart'
  · rw [(hoff v h1 (hE.trans_le h.limit)).2] at hc
    cases hc
  · exact h.apart m' hm' m hm hpart' hpart v ((hpart'.contains_iff h.end_le).1 hc) hv

end

variable {addr : Nat}

section

variable (h : p.Heap E)
include h

theorem outOfHeap_eq_false : p.outOfHeap addr = false ↔ p.InHeap addr := by
  have hfit := h.fit
  have hwrap : xlen ((p.heapBottom : Int) + (UserHeapSize : Nat)) = p.heapBottom + UserHeapSize :=
    xlen_add (by omega)
  unfold outOfHeap
  rw [hwrap]
  simp only [Bool.or_eq_false_iff, decide_eq_false_iff_not, not_le]
  exact And.comm

theorem setTop (hlo : p.heapBottom ≤ addr) (htop : bytes2pages addr ≤ E) :
    { p with heapTop := addr }.Heap E :=
  ⟨h.fit, h.sound, hlo, htop, h.limit, h.parts, h.cover, h.apart⟩

theorem top_eq (hin : p.outOfHeap addr = false) (hnew : p.vmar.contains (addr2pn addr) = false)
    (hg : p.Grows addr) : bytes2pages p.heapTop = E := by
  obtain ⟨hlt, hfree⟩ := hg hin hnew
  refine Nat.le_antisymm h.top (Nat.le_of_not_lt fun hbelow => ?_)
  have hc := (h.contains_iff h.start_le (hbelow.trans_le h.limit)).2 hbelow
  rw [hfree _ le_rfl hlt] at hc
  cases hc

theorem brkMapping_fields (load : Frames) (htop : bytes2pages p.heapTop = E)
    (hlt : E < bytes2pages addr) (hlim : bytes2pages addr ≤ p.heapLimit) :
    (p.brkMapping addr load).vpn = E ∧ E + (p.brkMapping addr load).len = bytes2pages addr ∧
      (p.brkMapping addr load).vmo.len = (p.brkMapping addr load).len := by
  have hlimit := h.limit_le
  have hlen : (p.brkRange addr).2 = bytes2pages addr - E := by
    unfold brkRange
    rw [htop]
    exact xlen_sub (Nat.le_of_lt hlt) (by omega)
  refine ⟨htop, ?_, xlen_of_lt ?_⟩
  · change E + (p.brkRange addr).2 = _
    omega
  · omega

theorem insertRun {m : PageMapping} {vmar : VMAR} {f : Nat → Nat} {g : Option Perm}
    (hstart : p.heapStart ≤ E) (hvpn : m.vpn = E) (hlim : E + m.len ≤ p.heapLimit)
    (hins : vmar.mappings = p.vmar.mappings.insert m) (hs : Sound vmar.pagetable)
    (hw : Writes IsPage (leafAt p.vmar.pagetable) (leafAt vmar.pagetable) E m.len f g)
    (hnew : m.Part vmar.pagetable p.heapStart (E + m.len)) (hlo : p.heapBottom ≤ addr)
    (htop : bytes2pages addr ≤ E + m.len) : Heap { p with vmar, heapTop := addr } (E + m.len) := by
  have hpos := hnew.pos
  -- the old runs end at `E`, where the new one starts
  have hkeep : ∀ m' : PageMapping, m'.Part p.vmar.pagetable p.heapStart E →
      m'.Part vmar.pagetable p.heapStart (E + m.len) :=
    fun m' hpart => hpart.keeps h.end_le hw
  have hbelow : ∀ m' : PageMapping, m'.Part p.vmar.pagetable p.heapStart E →
      ∀ v, InRange m'.vpn m'.len v → ¬InRange m.vpn m.len v := by
    intro m' hpart v hv hv'
    exact Nat.not_le.2 (hv.2.trans_le hpart.last) (hvpn ▸ hv'.1)
  -- so the key of the new one is free
  have hfree : ∀ m' ∈ p.vmar.mappings, m'.vpn ≠ m.vpn := by
    intro m' hm' heq
    rcases h.parts m' hm' with hoff | hpart
    · exact (hoff E hstart (by omega)).1 (heq.trans hvpn)
    · have h1 := hpart.last
      have h2 := hpart.pos
      omega
  have hmem : m ∈ vmar.mappings := hins ▸ mem_insert_self hfree
  have hcases : ∀ m' ∈ vmar.mappings, m'.Part vmar.pagetable p.heapStart (E + m.len) →
      m' = m ∨ m' ∈ p.vmar.mappings ∧ m'.Part p.vmar.pagetable p.heapStart E := by
    intro m' hm' hpart
    rw [hins] at hm'
    rcases mem_of_mem_insert hm' with rfl | hm'
    · exact .inl rfl
    rcases h.parts m' hm' with hoff | hpart'
    · have h1 := hpart.pos
      have h2 := hpart.last
      exact absurd rfl (hoff m'.vpn hpart.first (by omega)).1
    · exact .inr ⟨hm', hpart'⟩
  refine ⟨h.fit, hs, hlo, htop, hlim, ?_, ?_, ?_⟩
  · intro m' hm'
    rw [hins] at hm'
    rcases mem_of_mem_insert hm' with rfl | hm'
    · exact .inr hnew
    · exact (h.parts m' hm').imp id (hkeep m')
  · intro v h1 h2
    by_cases hv : v < E
    · obtain ⟨m', hm', hpart, hr⟩ := h.cover v h1 hv
      exact ⟨m', hins ▸ subset_insert hm', hkeep m' hpart, hr⟩
    · exact ⟨m, hmem, hnew, by omega, by omega⟩
  · intro m1 hm1 m2 hm2 hp1 hp2 v hv1 hv2
    rcases hcases m1 hm1 hp1 with rfl | ⟨hold1, hpart1⟩
    · rcases hcases m2 hm2 hp2 with rfl | ⟨-, hpart2⟩
      · rfl
      · exact absurd hv1 (hbelow m2 hpart2 v hv2)
    · rcases hcases m2 hm2 hp2 with rfl | ⟨hold2, hpart2⟩
      · exact absurd hv2 (hbelow m1 hpart1 v hv1)
      · exact h.apart m1 hold1 m2 hold2 hpart1 hpart2 v hv1 hv2

/-- **A call that grows the heap adds one run behind it.** -/
theorem grow (load : Frames) (hlo : p.heapBottom ≤ addr) (htop : bytes2pages p.heapTop = E)
    (hlt : E < bytes2pages addr) (hlim : bytes2pages addr ≤ p.heapLimit) :
    ∃ vmar, p.vmar.map (p.brkMapping addr load) = .ok vmar ∧
      Heap { p with vmar, heapTop := addr } (bytes2pages addr) := by
  obtain ⟨hvpn, hlen, hvmo⟩ := h.brkMapping_fields load htop hlt hlim
  have hlimit := h.limit_le
  have hstart : p.heapStart ≤ E := htop ▸ h.start_le
  generalize hm : p.brkMapping addr load = m at hvpn hlen hvmo
  have hpaged : m.vmo.IsPaged := hm ▸ trivial
  have hoff : m.offset = 0 := hm ▸ rfl
  have hgrant : m.perm.grant = some m.perm := hm ▸ rfl
  have hspan := PageMapping.span_of_isPaged hpaged
  have hplain : m.Plain := ⟨by omega, by omega, hm ▸ rfl, fun hnot => absurd hpaged hnot⟩
  obtain ⟨vmar, hmap, hins, hs, hw⟩ := VMAR.map_total hplain h.sound
  rw [hspan, hvpn] at hw
  have hnew : m.Part vmar.pagetable p.heapStart (E + m.len) := by
    refine ⟨by omega, by omega, by omega, by omega, ?_⟩
    intro v hv
    rw [hvpn] at hv ⊢
    have hpage : IsPage v := hv.2.trans_le (by omega)
    obtain ⟨x, hx, hframe, -, hinside⟩ := hw.grants v hpage hv _ hgrant
    exact ⟨x, hx, hframe, hinside⟩
  rw [← hlen] at hlim ⊢
  exact ⟨vmar, hmap, h.insertRun hstart hvpn hlim hins hs hw hnew hlo (Nat.le_of_eq hlen.symm)⟩

/-- **One call**: it returns the address it is given, or `heapTop` if that is not in the heap, and
the heap stays mapped. -/
theorem brk (load : Frames) (hg : p.Grows addr) :
    ∃ p', p.brk addr load = .ok (.ok (if p.outOfHeap addr then p.heapTop else addr), p') ∧
      (p.outOfHeap addr = true → p' = p) ∧ ∃ E', p'.Heap E' := by
  unfold Process.brk
  by_cases hout : p.outOfHeap addr = true
  · rw [if_pos hout, if_pos hout]
    exact ⟨p, rfl, fun _ => rfl, E, h⟩
  rw [if_neg hout, if_neg hout]
  have hin := eq_false_of_ne_true hout
  obtain ⟨hlo, hhi⟩ := h.outOfHeap_eq_false.1 hin
  by_cases hc : p.vmar.contains (addr2pn addr) = true
  · rw [if_pos hc]
    refine ⟨_, rfl, fun hout' => absurd hout' hout, E, h.setTop (Nat.le_of_lt hlo) ?_⟩
    by_cases hstart : p.heapStart ≤ addr2pn addr
    · have hlim : addr2pn addr < p.heapLimit := addr2pn_lt_bytes2pages hhi
      exact bytes2pages_le_of_addr2pn_lt ((h.contains_iff hstart hlim).1 hc)
    · -- the page of `heapBottom` itself, which may belong to the image
      exact Nat.le_trans (bytes2pages_le_of_addr2pn_lt (Nat.lt_of_not_le hstart))
        (h.start_le.trans h.top)
  · rw [if_neg hc]
    have hnew := eq_false_of_ne_true hc
    have htop := h.top_eq hin hnew hg
    obtain ⟨hlt, -⟩ := hg hin hnew
    rw [htop] at hlt
    obtain ⟨vmar, hmap, hheap⟩ :=
      h.grow load (Nat.le_of_lt hlo) htop hlt (bytes2pages_mono (Nat.le_of_lt hhi))
    refine ⟨_, ?_, fun hout' => absurd hout' hout, _, hheap⟩
    change p.vmar.map (p.brkMapping addr load) >>= _ = _
    rw [hmap]
    rfl

end

end Heap

/-! ## Sequences of calls -/

def brkStep (p : Process) (call : Nat × Frames) : Kern Process :=
  (fun r => r.2) <$> p.brk call.1 call.2

theorem Heap.brkStep (h : p.Heap E) {call : Nat × Frames} {p' : Process} (hg : p.Grows call.1)
    (hstep : p.brkStep call = .ok p') : ∃ E', p'.Heap E' := by
  obtain ⟨p1, hbrk, -, hheap⟩ := h.brk call.2 hg
  unfold Process.brkStep at hstep
  rw [hbrk] at hstep
  cases hstep
  exact hheap

/-- **`brk` keeps the heap mapped.** After `execve` and calls that map only pages in no mapping,
every page of the heap is in one mapping and is translated to a frame of its VMO, and each further
such call returns what it should. -/
theorem heap_mapped_of_grows {p : Process}
    (h : Reach brkStep (fun p call => p.Grows call.1) AfterExec p) : p.HeapMapped ∧
      (∀ (addr : Nat) (load : Frames), p.InHeap addr → p.Grows addr →
        ∃ p', p.brk addr load = .ok (.ok addr, p')) ∧
      ∀ (addr : Nat) (load : Frames), ¬p.InHeap addr → p.brk addr load = .ok (.ok p.heapTop, p) := by
  obtain ⟨E, hheap⟩ : ∃ E, p.Heap E :=
    h.invariant (fun p => ∃ E, p.Heap E) (fun p hp => ⟨_, hp.heap⟩)
      fun p p' call ⟨E, hp⟩ hg hstep => hp.brkStep hg hstep
  refine ⟨hheap.heapMapped, ?_, ?_⟩
  · intro addr load hin hg
    obtain ⟨p', hbrk, -⟩ := hheap.brk load hg
    rw [hheap.outOfHeap_eq_false.2 hin] at hbrk
    exact ⟨p', hbrk⟩
  · intro addr load hnot
    have hout : p.outOfHeap addr = true :=
      eq_true_of_ne_false fun hfalse => hnot (hheap.outOfHeap_eq_false.1 hfalse)
    exact if_pos hout

/-! ## A heap that shrinks and grows -/

def bare : Process := ⟨VMAR.empty, 0x10000, 0x10000, fun _ => false⟩

theorem bare_afterExec : bare.AfterExec :=
  ⟨rfl, by decide, createPTNode_sound, fun m hm => absurd hm (not_mem_empty m)⟩

def framesFrom (ppn : Nat) : Frames :=
  ⟨fun i => (ppn + i) % 2 ^ 44, fun _ => Nat.mod_lt _ (by decide)⟩

/-- Growing by one page and a half, down to half a page, and up again to the end of what is mapped
and beyond. -/
theorem heap_mapped_regrown : ∃ p : Process, p.heapTop = 0x13000 ∧ p.HeapMapped := by
  obtain ⟨p, -, hreach, htop⟩ := exists_reach brkStep (fun p call => p.Grows call.1)
    [(0x11800, framesFrom 100), (0x10800, framesFrom 200), (0x11fff, framesFrom 300),
      (0x13000, framesFrom 400)] bare_afterExec (fun p => p.heapTop = 0x13000) (by decide +kernel)
  exact ⟨p, htop, (heap_mapped_of_grows hreach).1⟩

/-- **A heap that shrinks and then grows past what is mapped has a page in two mappings**: the new
run starts at the smaller `heapTop`. -/
theorem not_heap_mapped_shrunk :
    ∃ p, Reach brkStep (fun _ _ => True) AfterExec p ∧ ¬p.HeapMapped := by
  obtain ⟨p, -, hreach, hbottom, htop, hvpns⟩ := exists_reach brkStep (fun _ _ => True)
    [(0x13000, framesFrom 100), (0x11000, framesFrom 200), (0x15000, framesFrom 300)] bare_afterExec
    (fun p => p.heapBottom = 0x10000 ∧ p.heapTop = 0x15000 ∧
      (p.vmar.mappings.elems.filter fun m => m.contains 0x11).map (fun m => m.vpn) = [0x10, 0x11])
    (by decide +kernel)
  refine ⟨p, hreach, fun hmapped => ?_⟩
  have hstart : p.heapStart ≤ 0x11 := by
    unfold heapStart
    rw [hbottom]
    decide
  obtain ⟨m, -, -, huniq, -⟩ := hmapped 0x11 hstart (by rw [htop]; decide)
  -- both mappings would be `m`
  have hvpn : ∀ k ∈ [0x10, 0x11], m.vpn = k := by
    intro k hk
    rw [← hvpns] at hk
    obtain ⟨m', hm', rfl⟩ := List.mem_map.1 hk
    obtain ⟨hmem, hc⟩ := List.mem_filter.1 hm'
    rw [huniq m' hmem hc]
  exact absurd ((hvpn 0x10 (by simp)).symm.trans (hvpn 0x11 (by simp))) (by decide)

end Process

end LuoOS.Vm
