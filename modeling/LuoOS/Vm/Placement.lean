import LuoOS.Vm.Heap

/-!
# Where `mmap` places a mapping without an address

Without an address `mmap` takes the pages behind `heapTop`, and looks at nothing else. They are free
if no mapping has a page between `heapTop` and some limit: after `execve`, the next mapping above
the heap. `brk` upwards and `mmap` without an address move `heapTop` along with what they map. A
`brk` downwards leaves mappings behind it, and so does a `fork`, which sets `heapTop` of the child
to `heapBottom`. A run follows one process: after a `fork`, the child; the parent goes on as before.
-/

namespace LuoOS.Vm

open Translation Runs KeyedSet

/-! ## Copying an address space -/

/-- What a `fork` gets for the private mappings it copies, by the first page of each: the frames of
the new pager of a paged VMO, or those of `pageMgr->alloc` for a contiguous one. -/
structure Fresh where
  load : Nat → Frames
  alloc : (vpn pages : Nat) → Nat
  alloc_fit : ∀ vpn pages, pages ≤ 2 ^ 44 → alloc vpn pages + pages ≤ 2 ^ 44

def Vmo.clone (fresh : Fresh) (vpn : Nat) : Vmo → Vmo
  | paged len _ len_lt _ => .paged len (fresh.load vpn).1 len_lt (fresh.load vpn).2
  | contiguous _ pages fit =>
    .contiguous (fresh.alloc vpn pages) pages
      (fresh.alloc_fit vpn pages ((Nat.le_add_left _ _).trans fit))

def shared : Nat := 1

def PageMapping.clone (m : PageMapping) (fresh : Fresh) : PageMapping :=
  { m with vmo := if m.sharing = shared then m.vmo else m.vmo.clone fresh m.vpn }

def VMAR.copy (s : VMAR) (fresh : Fresh) : Kern VMAR :=
  s.mappings.elems.foldlM (fun t m => t.map (m.clone fresh)) VMAR.empty

def Process.fork (p : Process) (fresh : Fresh) : Kern Process := do
  let vmar ← p.vmar.copy fresh
  pure { p with vmar, heapTop := p.heapBottom }

/-! ## What holds for every mapping -/

namespace VMAR

variable {P : PageMapping → Prop} {s s' : VMAR}

def All (P : PageMapping → Prop) (s : VMAR) : Prop := ∀ m ∈ s.mappings, P m

instance [DecidablePred P] : Decidable (s.All P) :=
  inferInstanceAs (Decidable (∀ m ∈ s.mappings.elems, P m))

theorem All.imp {Q : PageMapping → Prop} (h : s.All P) (himp : ∀ m, P m → Q m) : s.All Q :=
  fun m hm => himp m (h m hm)

theorem all_empty : VMAR.empty.All P := fun m hm => absurd hm (not_mem_empty m)

theorem All.map {m : PageMapping} (hs : s.All P) (hm : P m) (h : s.map m = .ok s') : s'.All P := by
  intro m' hm'
  rw [map_mappings h] at hm'
  rcases mem_of_mem_insert hm' with rfl | hm'
  · exact hm
  · exact hs m' hm'

theorem All.copy (hs : s.All P) (hclone : ∀ m fresh, P m → P (m.clone fresh)) {fresh : Fresh}
    (h : s.copy fresh = .ok s') : s'.All P := by
  have hfold : ∀ (l : List PageMapping) (t t' : VMAR), (∀ m ∈ l, P m) → t.All P →
      l.foldlM (fun t m => t.map (m.clone fresh)) t = .ok t' → t'.All P := by
    intro l
    induction l with
    | nil =>
      intro t t' _ ht h
      cases h
      exact ht
    | cons m l ih =>
      intro t t' hl ht h
      obtain ⟨t1, hmap, hrest⟩ := bind_eq_ok h
      have hm := hclone m fresh (hl m List.mem_cons_self)
      exact ih t1 t' (fun m' hm' => hl m' (List.mem_cons_of_mem _ hm')) (ht.map hm hmap) hrest
  exact hfold s.mappings.elems VMAR.empty s' hs all_empty h

end VMAR

/-! ## Parts of mappings -/

namespace PageMapping

/-- The pages of the mapping are page numbers of addresses, and `contains` is right about them:
for an empty mapping from page 0, `vend` wraps around. -/
def Proper (m : PageMapping) : Prop := m.vpn + m.len ≤ 2 ^ 52 ∧ (m.len = 0 → 0 < m.vpn)
  deriving Decidable

/-- The mapping `m` is the end of `i`. -/
structure EndOf (m i : PageMapping) : Prop where
  pos : 0 < m.len
  first : i.vpn < m.vpn
  last : m.vpn + m.len = i.vpn + i.len

variable {m i : PageMapping}

theorem Proper.vend_eq (h : m.Proper) : (m.vend : Int) = m.vpn + m.len - 1 := by
  obtain ⟨hfit, hzero⟩ := h
  refine xlen_of_nonneg ?_ ?_ <;> omega

theorem Proper.contains_iff (h : m.Proper) {v : Nat} :
    m.contains v = true ↔ InRange m.vpn m.len v := by
  have hvend := h.vend_eq
  simp only [contains, Bool.and_eq_true, decide_eq_true_eq, InRange]
  omega

theorem EndOf.proper (h : m.EndOf i) (hi : i.Proper) : m.Proper := by
  have hpos := h.pos
  exact ⟨h.last ▸ hi.1, fun hzero => absurd hzero (Nat.ne_of_gt hpos)⟩

end PageMapping

namespace VMAR

variable {P : PageMapping → Prop} {s s' : VMAR} {i : PageMapping} {region : Segment}

/-- The right part is the end of the mapping. -/
theorem splitChild_endOf (hi : i.Proper) {l : Nat} (hl : i.vpn < l) (hr : l ≤ i.vend) :
    (i.splitChild ⟨l, i.vend⟩).EndOf i := by
  have hvend := hi.vend_eq
  have hfit := hi.1
  have hlen : Segment.length ⟨l, i.vend⟩ = i.vend - l + 1 := by
    unfold Segment.length xlen
    dsimp only
    omega
  refine ⟨?_, hl, ?_⟩
  · simp [PageMapping.splitChild, hlen]
  · simp only [PageMapping.splitChild, hlen]
    omega

section

variable (hs : s.All P) (hP : ∀ m, P m → m.Proper) (hend : ∀ m i, P i → m.EndOf i → P m)
include hs hP hend

theorem All.unmapBody (hi : i ∈ s.mappings) {next : Option PageMapping}
    (h : unmapBody region i s = .ok (next, s')) :
    s'.All P ∧ ∀ j, next = some j → j ∈ s'.mappings := by
  have hprop := hP i (hs i hi)
  have hvend := hprop.vend_eq
  have hfit := hprop.1
  rcases unmapBody_cases h with ⟨hne, s1, s2, t, hleft, hright, -, rfl, rfl⟩ | ⟨-, rfl, rfl⟩
  · obtain ⟨hl, hr⟩ : i.vpn ≤ (i.vsegment.inter region).r ∧ (i.vsegment.inter region).r ≤ i.vend := by
      have hle : max i.vpn region.l ≤ min i.vend region.r := of_decide_eq_true hne
      simp only [PageMapping.vsegment, Segment.inter]
      omega
    have hs1 : s1.All P := by
      intro m hm
      rw [mapSlice_first hi hleft] at hm
      exact hs m hm
    have hs2 : s2.All P := by
      unfold mapSlice at hright
      split at hright
      · rename_i hne'
        have hnext : xlen (((i.vsegment.inter region).r : Int) + 1) =
            (i.vsegment.inter region).r + 1 := xlen_add (b := 1) (by omega)
        rw [hnext] at hright hne'
        have hle : (i.vsegment.inter region).r + 1 ≤ i.vend := of_decide_eq_true hne'
        exact hs1.map (hend _ i (hs i hi) (splitChild_endOf hprop (by omega) hle)) hright
      · cases hright
        exact hs1
    exact ⟨fun m hm => hs2 m (mem_erase.1 hm).1,
      fun j hj => mem_erase_of_upperBound hj⟩
  · exact ⟨hs, fun j hj => upperBound_mem hj⟩

theorem All.unmap (h : s.unmap region = .ok s') : s'.All P :=
  sweep_keeps (fun _ _ _ _ hs hi hbody => hs.unmapBody hP hend hi hbody) hs h

end

end VMAR

namespace PageMapping

def Clear (limit h : Nat) (m : PageMapping) : Prop :=
  m.Proper ∧ (m.vpn + m.len ≤ h ∨ limit ≤ m.vpn)
  deriving Decidable

variable {limit h h' : Nat} {m i : PageMapping}

theorem Clear.mono (hm : m.Clear limit h) (hle : h ≤ h') : m.Clear limit h' :=
  ⟨hm.1, hm.2.imp (fun hend => hend.trans hle) id⟩

theorem Clear.clone (hm : m.Clear limit h) (fresh : Fresh) : (m.clone fresh).Clear limit h := hm

theorem Clear.endOf (hi : i.Clear limit h) (hm : m.EndOf i) : m.Clear limit h :=
  ⟨hm.proper hi.1, hi.2.imp (fun hend => hm.last ▸ hend)
    fun hlim => hlim.trans (Nat.le_of_lt hm.first)⟩

theorem Clear.not_contains (hm : m.Clear limit h) {v : Nat} (h1 : h ≤ v) (h2 : v < limit) :
    ¬m.contains v = true := by
  intro hc
  obtain ⟨hfirst, hlast⟩ := hm.1.contains_iff.1 hc
  rcases hm.2 with hend | hlim <;> omega

end PageMapping

/-! ## Runs of the memory calls -/

namespace Process

/-- The calls that place or take away memory. -/
inductive Op where
  | brk (addr : Nat) (load : Frames)
  | mmap (addr len : Nat) (prot flags fd : BitVec 32) (load : Frames)
  | munmap (addr len : Nat)
  | fork (fresh : Fresh)

def step (p : Process) : Op → Kern Process
  | .brk addr load => do pure (← p.brk addr load).2
  | .mmap addr len prot flags fd load => do pure (← p.mmap addr len prot flags fd load).2
  | .munmap addr len => do pure (← p.munmap addr len).2
  | .fork fresh => p.fork fresh

def topPage (p : Process) : Nat := bytes2pages p.heapTop

def FreeFrom (p : Process) (limit h : Nat) : Prop := p.vmar.All (PageMapping.Clear limit h)
  deriving Decidable

/-- A process after `execve`: its heap may grow up to `limit`. -/
structure JustExeced (limit : Nat) (p : Process) : Prop where
  limit_lt : limit < 2 ^ 52
  top : p.heapTop = p.heapBottom
  le : p.topPage ≤ limit
  free : p.FreeFrom limit p.topPage

/-- The `brk` stays below the limit. If it maps pages, it goes upwards; if it does not, nothing
behind the new `heapTop` is mapped. -/
def OrderlyBrk (limit : Nat) (p : Process) (addr : Nat) : Prop :=
  p.outOfHeap addr = true ∨ bytes2pages addr ≤ limit ∧
    (p.vmar.contains (addr2pn addr) = false → p.topPage ≤ bytes2pages addr) ∧
    (p.vmar.contains (addr2pn addr) = true → p.FreeFrom limit (bytes2pages addr))
  deriving Decidable

/-- The `mmap` stays below the limit if it is called without an address, and else below `heapTop`
or above the limit. -/
def OrderlyMmap (limit : Nat) (p : Process) (addr len : Nat) : Prop :=
  bytes2pages len = 0 ∨ (addr = 0 → p.topPage + bytes2pages len ≤ limit) ∧
    (addr ≠ 0 → addr2pn addr + bytes2pages len ≤ p.topPage ∨
      limit ≤ addr2pn addr ∧ addr2pn addr + bytes2pages len ≤ 2 ^ 52)
  deriving Decidable

/-- The calls that leave no mapping between `heapTop` and the limit. A `fork` does if there is none
between `heapBottom` and the limit. -/
def Orderly (limit : Nat) (p : Process) : Op → Prop
  | .brk addr _ => p.OrderlyBrk limit addr
  | .mmap addr len _ _ _ _ => p.OrderlyMmap limit addr len
  | .munmap _ _ => True
  | .fork _ => p.FreeFrom limit (bytes2pages p.heapBottom)

instance (limit : Nat) (p : Process) : ∀ op, Decidable (p.Orderly limit op) := by
  intro op
  unfold Orderly
  split <;> infer_instance

def ChoosesFree (p : Process) (len : Nat) : Prop :=
  ∀ v, InRange (p.chooseVpn 0 len).1 (bytes2pages len) v → p.vmar.contains v = false

/-- No mapping has a page between `heapTop` and `limit`. -/
structure Placed (limit : Nat) (p : Process) : Prop where
  limit_lt : limit < 2 ^ 52
  bottom : bytes2pages p.heapBottom ≤ limit
  le : p.topPage ≤ limit
  free : p.FreeFrom limit p.topPage

variable {limit len addr : Nat} {p p' : Process}

theorem JustExeced.placed (h : p.JustExeced limit) : p.Placed limit :=
  ⟨h.limit_lt, by rw [← h.top]; exact h.le, h.le, h.free⟩

/-- Without an address, `mmap` takes the page behind the heap and moves `heapTop` behind what it
maps. -/
theorem chooseVpn_zero (h : p.topPage + bytes2pages len < 2 ^ 52) :
    p.chooseVpn 0 len = (p.topPage, pageSize * (p.topPage + bytes2pages len)) := by
  have htop : ceil p.heapTop = pageSize * p.topPage := ceil_eq (show p.topPage < 2 ^ 52 by omega)
  have hlen := bytes2pages_le.1 (Nat.le_refl (bytes2pages len))
  have hsum : xlen (((pageSize * p.topPage : Nat) : Int) + len) = pageSize * p.topPage + len := by
    refine xlen_add ?_
    unfold pageSize at hlen ⊢
    omega
  have hpages := bytes2pages_mul_add p.topPage len
  unfold chooseVpn
  rw [if_neg (by simp), htop]
  dsimp only
  rw [hsum, ceil_eq (by omega), hpages, addr2pn_mul]

variable {load : Frames}

/-- What `mmap` does with pages to map: one mapping of them, at the page it chooses. -/
theorem mmap_eq_ok {prot flags fd : BitVec 32} {r : Except Nat Nat}
    (hpages : bytes2pages len ≠ 0) (h : p.mmap addr len prot flags fd load = .ok (r, p')) :
    ∃ m : PageMapping, m.vpn = (p.chooseVpn addr len).1 ∧ m.len = bytes2pages len ∧
      p.vmar.map m = .ok p'.vmar ∧ r = .ok (pn2addr m.vpn) ∧
      p' = { p with vmar := p'.vmar, heapTop := (p.chooseVpn addr len).2 } := by
  unfold mmap at h
  dsimp only at h
  rw [if_neg hpages] at h
  split at h
  · cases h
  · obtain ⟨vmar, hmap, h⟩ := bind_eq_ok h
    cases h
    exact ⟨_, rfl, rfl, hmap, rfl, rfl⟩

theorem mmap_zero {prot flags fd : BitVec 32}
    (hpages : bytes2pages len = 0) : p.mmap addr len prot flags fd load =
      .ok (.ok (xlen (-1)), { p with heapTop := (p.chooseVpn addr len).2 }) := by
  exact if_pos hpages

namespace Placed

variable {addr len : Nat} {r : Except Nat Nat}

section

variable (h : p.Placed limit)
include h

theorem brk (hok : p.OrderlyBrk limit addr) (hbrk : p.brk addr load = .ok (r, p')) :
    p'.Placed limit := by
  unfold Process.brk at hbrk
  split at hbrk
  · cases hbrk
    exact h
  rename_i hout
  obtain ⟨hle, hgrow, hmove⟩ := hok.resolve_left hout
  split at hbrk
  · rename_i hc
    cases hbrk
    exact ⟨h.limit_lt, h.bottom, hle, hmove hc⟩
  rename_i hc
  have hup := hgrow (eq_false_of_ne_true hc)
  obtain ⟨vmar, hmap, hret⟩ := bind_eq_ok hbrk
  cases hret
  refine ⟨h.limit_lt, h.bottom, hle, ?_⟩
  refine (h.free.imp fun m hm => hm.mono hup).map ?_ hmap
  -- the pages from the old top to the new one
  have hlimit := h.limit_lt
  have hvpn : (p.brkMapping addr load).vpn = p.topPage := rfl
  have hlen : (p.brkMapping addr load).len = bytes2pages addr - p.topPage :=
    xlen_sub hup (by omega)
  have hpos : 0 < bytes2pages addr := by
    simp only [outOfHeap, Bool.or_eq_true, decide_eq_true_eq, not_or, not_le] at hout
    exact lt_bytes2pages.2 (by omega)
  change (p.brkMapping addr load).Clear limit (bytes2pages addr)
  unfold PageMapping.Clear PageMapping.Proper
  omega

theorem setTop {top : Nat} (htop : bytes2pages top = p.topPage) :
    { p with heapTop := top }.Placed limit := by
  refine ⟨h.limit_lt, h.bottom, ?_, ?_⟩
  · exact (Nat.le_of_eq htop).trans h.le
  · unfold topPage
    rw [htop]
    exact h.free

theorem choosesFree (hfit : p.topPage + bytes2pages len ≤ limit) : p.ChoosesFree len := by
  have hlimit := h.limit_lt
  intro v hv
  rw [chooseVpn_zero (by omega)] at hv
  refine eq_false_of_ne_true fun hc => ?_
  obtain ⟨m, hm, hcm⟩ := VMAR.contains_eq_true.1 hc
  exact (h.free m hm).not_contains hv.1 (hv.2.trans_le hfit) hcm

theorem mmap {prot flags fd : BitVec 32} (hok : p.OrderlyMmap limit addr len)
    (hmmap : p.mmap addr len prot flags fd load = .ok (r, p')) : p'.Placed limit := by
  have hlimit := h.limit_lt
  have hle := h.le
  by_cases hpages : bytes2pages len = 0
  · rw [mmap_zero hpages] at hmmap
    cases hmmap
    refine h.setTop ?_
    by_cases haddr : addr = 0
    · rw [haddr, chooseVpn_zero (by omega), hpages, bytes2pages_mul, Nat.add_zero]
    · unfold chooseVpn
      rw [if_pos haddr]
      rfl
  · obtain ⟨hzero, haddr⟩ := hok.resolve_left hpages
    obtain ⟨m, hvpn, hlen, hmap, -, hp'⟩ := mmap_eq_ok hpages hmmap
    rw [hp']
    rcases Nat.eq_zero_or_pos addr with rfl | hpos
    · have hfit := hzero rfl
      rw [chooseVpn_zero (by omega)] at hvpn ⊢
      have htop : ({ p with vmar := p'.vmar, heapTop := pageSize * (p.topPage + bytes2pages len) } :
          Process).topPage = p.topPage + bytes2pages len := bytes2pages_mul _
      refine ⟨hlimit, h.bottom, htop.trans_le hfit, ?_⟩
      rw [htop]
      refine (h.free.imp fun m hm => hm.mono (Nat.le_add_right _ _)).map ?_ hmap
      unfold PageMapping.Clear PageMapping.Proper
      omega
    · have hchoice : p.chooseVpn addr len = (addr2pn addr, p.heapTop) := if_pos (Nat.ne_of_gt hpos)
      rw [hchoice] at hvpn ⊢
      refine ⟨hlimit, h.bottom, hle, h.free.map ?_ hmap⟩
      unfold PageMapping.Clear PageMapping.Proper
      omega

theorem munmap (hmunmap : p.munmap addr len = .ok (r, p')) : p'.Placed limit := by
  unfold Process.munmap at hmunmap
  split at hmunmap
  · cases hmunmap
    exact h
  obtain ⟨vmar, hunmap, hret⟩ := bind_eq_ok hmunmap
  cases hret
  refine ⟨h.limit_lt, h.bottom, h.le, ?_⟩
  exact h.free.unmap (fun m hm => hm.1) (fun m i hi hm => hi.endOf hm) hunmap

theorem fork {fresh : Fresh} (hok : p.FreeFrom limit (bytes2pages p.heapBottom))
    (hfork : p.fork fresh = .ok p') : p'.Placed limit := by
  obtain ⟨vmar, hcopy, hret⟩ := bind_eq_ok hfork
  cases hret
  exact ⟨h.limit_lt, h.bottom, h.bottom, hok.copy (fun m fresh hm => hm.clone fresh) hcopy⟩

/-- **One call.** -/
theorem step {op : Op} (hok : p.Orderly limit op) (hstep : p.step op = .ok p') :
    p'.Placed limit := by
  cases op with
  | brk addr load =>
    obtain ⟨r, hbrk, hret⟩ := bind_eq_ok hstep
    cases hret
    exact h.brk hok hbrk
  | mmap addr len prot flags fd load =>
    obtain ⟨r, hmmap, hret⟩ := bind_eq_ok hstep
    cases hret
    exact h.mmap hok hmmap
  | munmap addr len =>
    obtain ⟨r, hmunmap, hret⟩ := bind_eq_ok hstep
    cases hret
    exact h.munmap hmunmap
  | fork fresh => exact h.fork hok hstep

end

end Placed

/-- **`mmap` without an address picks free space** in every orderly run: it makes one mapping of
the pages it is asked for, returns its address, and no page of it was in a mapping before. -/
theorem mmap_free_of_orderly
    (h : Reach Process.step (fun p op => p.Orderly limit op) (JustExeced limit) p) {len : Nat}
    {prot flags fd : BitVec 32} {load : Frames} {r : Except Nat Nat} (hlen : 0 < len)
    (hok : p.Orderly limit (.mmap 0 len prot flags fd load))
    (hmmap : p.mmap 0 len prot flags fd load = .ok (r, p')) : p.ChoosesFree len ∧
      ∃ m : PageMapping, m.vpn = (p.chooseVpn 0 len).1 ∧ m.len = bytes2pages len ∧
        p.vmar.map m = .ok p'.vmar ∧ r = .ok (pn2addr m.vpn) := by
  have hplaced : p.Placed limit :=
    h.invariant (Placed limit) (fun p hp => hp.placed) fun p p' op hp hok hstep => hp.step hok hstep
  have hpages : bytes2pages len ≠ 0 := Nat.ne_of_gt (lt_bytes2pages.2 hlen)
  obtain ⟨hzero, -⟩ := hok.resolve_left hpages
  obtain ⟨m, hvpn, hmlen, hmap, hr, -⟩ := mmap_eq_ok hpages hmmap
  exact ⟨hplaced.choosesFree (hzero rfl), m, hvpn, hmlen, hmap, hr⟩

/-! ## A child that maps over its memory -/

def freshFrom (ppn : Nat) : Fresh :=
  ⟨fun vpn => framesFrom (ppn + vpn), fun _ _ => 0, fun _ pages h => by rw [Nat.zero_add]; exact h⟩

theorem bare_justExeced : bare.JustExeced 0x7fe0 :=
  ⟨by decide, rfl, by decide, VMAR.all_empty⟩

/-- A process that gives back what it mapped before it forks, and whose child grows its heap and
maps pages at an address. -/
theorem mmap_free_child : ∃ p : Process, p.topPage = 0x12 ∧ p.ChoosesFree 0x2000 := by
  have hrun : ((runWhile Process.step (fun p op => p.Orderly 0x7fe0 op)
      [.mmap 0 0x1000 3 0 (-1) (framesFrom 100), .munmap 0x10000 0x1000, .fork (freshFrom 200),
        .brk 0x11800 (framesFrom 300), .mmap 0x9000000 0x1000 3 0 (-1) (framesFrom 400)] bare).bind
      fun p => (p.mmap 0 0x2000 3 0 (-1) (framesFrom 500)).toOption.map fun r =>
        (p, r)).map (fun q => (q.1.topPage, q.2.2.topPage)) = some (0x12, 0x14) := by
    decide +kernel
  obtain ⟨q, hq, hobs⟩ := Option.map_eq_some_iff.1 hrun
  obtain ⟨p, hp, hrest⟩ := Option.bind_eq_some_iff.1 hq
  obtain ⟨r, hr, rfl⟩ := Option.map_eq_some_iff.1 hrest
  obtain ⟨htop, -⟩ := Prod.mk.inj hobs
  have hreach := reach_of_runWhile bare_justExeced hp
  have hfit : p.OrderlyMmap 0x7fe0 0 0x2000 := by
    unfold OrderlyMmap
    rw [htop]
    decide
  exact ⟨p, htop, (mmap_free_of_orderly hreach (by decide) hfit (toOption_eq_some.1 hr)).1⟩

/-- **The child of a process that has mapped memory maps over it**: it has a copy of the mapping
behind `heapBottom`, and its `heapTop` is `heapBottom` again. -/
theorem not_mmap_free_forked :
    ∃ p, Reach Process.step (fun _ _ => True) (JustExeced 0x7fe0) p ∧ ¬p.ChoosesFree 0x1000 ∧
      ∃ r, p.mmap 0 0x1000 3 0 (-1) (framesFrom 300) = .ok r := by
  have hrun : ((runWhile Process.step (fun _ _ => True)
      [.mmap 0 0x1000 3 0 (-1) (framesFrom 100), .fork (freshFrom 200)] bare).bind
      fun p => (p.mmap 0 0x1000 3 0 (-1) (framesFrom 300)).toOption.map fun r =>
        (p, r)).map (fun q => (q.1.chooseVpn 0 0x1000, q.1.vmar.contains 0x10)) =
      some ((0x10, 0x11000), true) := by
    decide +kernel
  obtain ⟨q, hq, hobs⟩ := Option.map_eq_some_iff.1 hrun
  obtain ⟨p, hp, hrest⟩ := Option.bind_eq_some_iff.1 hq
  obtain ⟨r, hr, rfl⟩ := Option.map_eq_some_iff.1 hrest
  obtain ⟨hvpn, hc⟩ := Prod.mk.inj hobs
  refine ⟨p, reach_of_runWhile bare_justExeced hp, fun hfree => ?_, r, toOption_eq_some.1 hr⟩
  have hnot := hfree 0x10 (by rw [hvpn]; decide)
  exact Bool.noConfusion (hnot.symm.trans hc)

end Process

end LuoOS.Vm
