import LuoOS.Vm.Effects

/-!
# Processes and the memory system calls

The address space a process starts with (`createKernelMapping`, the constructor of `Process` and
`newTask`) and the system calls of `kernel/syscall/mm.cc` with `Process::brk`. A call returns the
`expected` of the source with the process after it. Arguments are the frames that the pager of a new
VMO loads and, for a file descriptor, whether it names a file with a paged VMO; `ofile(fd)` of any
other is a null pointer that is followed.
-/

namespace LuoOS.Vm

/-! ## Pages and bytes -/

def pageSize : Nat := 4096

theorem mod_pageSize_lt (n : Nat) : n % pageSize < pageSize := Nat.mod_lt n (by decide)

def bytes2pages (bytes : Nat) : Nat := bytes / pageSize + if bytes % pageSize > 0 then 1 else 0

def ceil (addr : Nat) : Nat := xlen (bytes2pages addr * pageSize)

def pn2addr (pn : Nat) : Nat := xlen (pn <<< 12)

theorem pn2addr_eq {pn : Nat} (h : pn < 2 ^ 52) : pn2addr pn = pageSize * pn := by
  unfold pn2addr pageSize
  rw [Nat.shiftLeft_eq, xlen_of_lt (by omega)]
  omega

theorem bytes2pages_le {bytes n : Nat} : bytes2pages bytes ≤ n ↔ bytes ≤ pageSize * n := by
  unfold bytes2pages pageSize
  split <;> omega

theorem lt_bytes2pages {bytes n : Nat} : n < bytes2pages bytes ↔ pageSize * n < bytes := by
  rw [← Nat.not_le, bytes2pages_le, Nat.not_le]

theorem bytes2pages_mono {a b : Nat} (h : a ≤ b) : bytes2pages a ≤ bytes2pages b :=
  bytes2pages_le.2 (h.trans (bytes2pages_le.1 le_rfl))

theorem addr2pn_eq (addr : Nat) : addr2pn addr = addr / pageSize :=
  Nat.shiftRight_eq_div_pow addr 12

theorem le_addr2pn {addr n : Nat} : n ≤ addr2pn addr ↔ pageSize * n ≤ addr := by
  rw [addr2pn_eq, Nat.le_div_iff_mul_le (by decide), Nat.mul_comm]

theorem addr2pn_lt_bytes2pages {a b : Nat} (h : a < b) : addr2pn a < bytes2pages b :=
  lt_bytes2pages.2 ((le_addr2pn.1 le_rfl).trans_lt h)

theorem bytes2pages_le_of_addr2pn_lt {addr n : Nat} (h : addr2pn addr < n) :
    bytes2pages addr ≤ n := by
  have hlt : ¬pageSize * n ≤ addr := fun hle => Nat.not_le.2 h (le_addr2pn.2 hle)
  exact bytes2pages_le.2 (Nat.le_of_not_le hlt)

theorem bytes2pages_mul_add (n bytes : Nat) :
    bytes2pages (pageSize * n + bytes) = n + bytes2pages bytes := by
  unfold bytes2pages pageSize
  rw [Nat.mul_add_mod, Nat.mul_add_div (by decide), Nat.add_assoc]

@[simp] theorem bytes2pages_mul (n : Nat) : bytes2pages (pageSize * n) = n :=
  bytes2pages_mul_add n 0

@[simp] theorem addr2pn_mul (n : Nat) : addr2pn (pageSize * n) = n := by
  rw [addr2pn_eq]
  exact Nat.mul_div_cancel_left n (by decide)

theorem ceil_eq {addr : Nat} (h : bytes2pages addr < 2 ^ 52) :
    ceil addr = pageSize * bytes2pages addr := by
  rw [Nat.mul_comm]
  refine xlen_of_lt ?_
  unfold pageSize
  omega

/-! ## The address space of a new process -/

/-- A segment of the kernel image. -/
structure KSegment where
  first : Nat
  second : Nat
  le : first ≤ second
  lt : second < 2 ^ 39

namespace KSegment

def pages (seg : KSegment) : Nat := addr2pn seg.second - addr2pn seg.first + 1

theorem pages_fit (seg : KSegment) : addr2pn seg.first + seg.pages ≤ 2 ^ 27 := by
  have h1 := seg.le
  have h2 := seg.lt
  unfold pages addr2pn
  omega

def vmo (seg : KSegment) : Vmo :=
  .contiguous (addr2pn seg.first) seg.pages (seg.pages_fit.trans (by decide))

end KSegment

def vDSOBase : Nat := 0x9000000
def vDSOPages : Nat := 1
def UserStackDefault : Nat := 0x8000000
def UstackSize : Nat := 0x20000
def UstackBottom : Nat := UserStackDefault - UstackSize
def TrapframePages : Nat := 2
def UserHeapSize : Nat := 0x4000000

/-- What the first address space of a process depends on: the segments of the kernel image, which
start on different pages, and the frames of its trap frame and its user stack. -/
structure KernelInfo where
  text : KSegment
  rodata : KSegment
  kstack : KSegment
  data : KSegment
  bss : KSegment
  vdso : KSegment
  trapframe : Nat
  ustack : Nat
  trapframe_fit : trapframe + TrapframePages ≤ 2 ^ 27
  ustack_fit : ustack + bytes2pages UstackSize ≤ 2 ^ 44
  vdso_fit : addr2pn vDSOBase + vdso.pages ≤ 2 ^ 27
  distinct : [addr2pn text.first, addr2pn rodata.first, addr2pn kstack.first, addr2pn data.first,
    addr2pn bss.first, addr2pn vDSOBase, trapframe, addr2pn UstackBottom].Nodup

namespace KernelInfo

def segmentMapping (seg : KSegment) (perm : Perm) : PageMapping :=
  { vpn := addr2pn seg.first, len := seg.pages, offset := 0, vmo := seg.vmo, perm
    mapping := .system, sharing := 1 }

def systemMappings (k : KernelInfo) : List PageMapping :=
  [segmentMapping k.text { v := true, r := true, x := true },
    segmentMapping k.rodata { v := true, r := true },
    segmentMapping k.kstack { v := true, r := true, w := true },
    segmentMapping k.data { v := true, r := true, w := true },
    segmentMapping k.bss { v := true, r := true, w := true },
    { vpn := addr2pn vDSOBase, len := vDSOPages, offset := 0, vmo := k.vdso.vmo
      perm := { r := true, x := true, u := true, v := true }, mapping := .system, sharing := 1 },
    { vpn := k.trapframe, len := TrapframePages, offset := 0
      vmo := .contiguous k.trapframe TrapframePages
        (k.trapframe_fit.trans (by decide))
      perm := { r := true, w := true, u := true, v := true }, mapping := .system, sharing := 0 },
    { vpn := addr2pn UstackBottom, len := bytes2pages UstackSize, offset := 0
      vmo := .contiguous k.ustack (bytes2pages UstackSize) k.ustack_fit
      perm := { r := true, w := true, u := true, v := true }, mapping := .system, sharing := 0 }]

end KernelInfo

/-- The members that the memory calls use. -/
structure Process where
  vmar : VMAR
  heapTop : Nat
  heapBottom : Nat
  files : BitVec 32 → Bool

def newAddressSpace (k : KernelInfo) : Kern VMAR :=
  k.systemMappings.foldlM (fun s m => s.map m) VMAR.empty

/-! ## The system calls -/

def Frames := { load : Nat → Nat // ∀ i, load i < 2 ^ 44 }

def vmoPaged (pages : Nat) (load : Frames) : Vmo :=
  .paged (xlen pages) load.1 (xlen_lt _) load.2

/-- The memory system calls. -/
inductive Call where
  | brk (addr : Nat) (load : Frames)
  | mmap (addr len : Nat) (prot flags fd : BitVec 32) (load : Frames)
  | munmap (addr len : Nat)
  | mprotect (addr len : Nat) (prot : BitVec 32)
  | mremap (oldaddr oldsize newsize : Nat)

def EINVAL : Nat := 22
def ENOMEM : Nat := 12

namespace Process

def misaligned (addr : Nat) : Bool := addr % pageSize ≠ 0

def brkRange (p : Process) (addr : Nat) : Nat × Nat :=
  (bytes2pages p.heapTop, xlen (bytes2pages addr - bytes2pages p.heapTop))

def outOfHeap (p : Process) (addr : Nat) : Bool :=
  xlen (p.heapBottom + UserHeapSize) ≤ addr || addr ≤ p.heapBottom

def brk (p : Process) (addr : Nat) (load : Frames) : Kern (Except Nat Nat × Process) :=
  if p.outOfHeap addr then .ok (.ok p.heapTop, p)
  else if p.vmar.contains (addr2pn addr) then .ok (.ok addr, { p with heapTop := addr })
  else do
    let (curtop, pages) := p.brkRange addr
    let vmar ← p.vmar.map
      { vpn := curtop, len := pages, offset := 0, vmo := vmoPaged pages load
        perm := { r := true, w := true, x := true, u := true, v := true }
        mapping := .anon, sharing := 0 }
    pure (.ok addr, { p with vmar, heapTop := addr })

def chooseVpn (p : Process) (addr len : Nat) : Nat × Nat :=
  if addr ≠ 0 then (addr2pn addr, p.heapTop)
  else
    let rt := ceil p.heapTop
    (addr2pn rt, ceil (xlen (rt + len)))

def mmap (p : Process) (addr len : Nat) (prot flags fd : BitVec 32) (load : Frames) :
    Kern (Except Nat Nat × Process) :=
  let (vpn, heapTop) := p.chooseVpn addr len
  let p := { p with heapTop }
  let pages := bytes2pages len
  if pages = 0 then .ok (.ok (xlen (-1)), p)
  else if fd ≠ -1 ∧ p.files fd = false then .error .wildPointer
  else do
    let mappingType := if fd = -1 then MappingType.file else MappingType.anon
    let sharingType := ((flags.sshiftRight 8).truncate 8).toNat
    let vmar ← p.vmar.map
      { vpn, len := pages, offset := 0, vmo := vmoPaged pages load
        perm := PageMapping.prot2perm prot, mapping := mappingType, sharing := sharingType }
    pure (.ok (pn2addr vpn), { p with vmar })

def pageRegion (addr len : Nat) : Segment := ⟨addr2pn addr, addr2pn (xlen (addr + len - 1))⟩

def munmap (p : Process) (addr len : Nat) : Kern (Except Nat Nat × Process) :=
  if misaligned addr then .ok (.error EINVAL, p)
  else do
    let vmar ← p.vmar.unmap (pageRegion addr len)
    pure (.ok 0, { p with vmar })

def mprotect (p : Process) (addr len : Nat) (prot : BitVec 32) : Kern (Except Nat Nat × Process) :=
  if misaligned addr then .ok (.error EINVAL, p)
  else do
    let vmar ← p.vmar.protect (pageRegion addr len) (PageMapping.prot2perm prot)
    pure (.ok 0, { p with vmar })

def shrinkRegion (oldaddr oldsize newsize : Nat) : Segment :=
  ⟨xlen (addr2pn oldaddr + bytes2pages newsize), xlen (addr2pn oldaddr + bytes2pages oldsize - 1)⟩

def mremap (p : Process) (oldaddr oldsize newsize : Nat) : Kern (Except Nat Nat × Process) :=
  if misaligned oldaddr then .ok (.error EINVAL, p)
  else if bytes2pages oldsize < bytes2pages newsize then .ok (.error ENOMEM, p)
  else do
    let vmar ← p.vmar.unmap (shrinkRegion oldaddr oldsize newsize)
    pure (.ok oldaddr, { p with vmar })

def call (p : Process) : Call → Kern (Except Nat Nat × Process)
  | .brk addr load => p.brk addr load
  | .mmap addr len prot flags fd load => p.mmap addr len prot flags fd load
  | .munmap addr len => p.munmap addr len
  | .mprotect addr len prot => p.mprotect addr len prot
  | .mremap oldaddr oldsize newsize => p.mremap oldaddr oldsize newsize

def callStep (p : Process) (c : Call) : Kern Process := do pure (← p.call c).2

theorem callStep_eq_ok {p p' : Process} {c : Call} :
    p.callStep c = .ok p' ↔ ∃ ret, p.call c = .ok (ret, p') := by
  unfold callStep
  cases p.call c <;> simp [bind, Except.bind, pure, Except.pure, Prod.ext_iff]

end Process

end LuoOS.Vm
