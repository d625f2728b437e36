import LuoOS.Klib
import Mathlib.Data.Fintype.Basic
import Mathlib.Logic.Function.Basic

/-!
# The descriptor table

`Process::files` with `ofile` and `fdAlloc` of `kernel/proc.cc`, and the system calls of
`kernel/syscall/file.cc` and `uio.cc` on it. Every access to the array is a `get` or `put`, which
fail outside of it, and an operation on an empty slot follows a null pointer. What a call gets from
outside of the table is an argument: what a path leads to, how many bytes a file gives, whether a
pipe is ready.

`ofile` takes `AT_FDCWD` for the slot of the working directory; `close` asks it and then resets the
slot of the number it was given. `ioctl` and `pselect` do not ask whether the slot is empty, and
`pipe2` does not look at what `fdAlloc` returned. All other calls are safe with any argument
(`safeRun_iff`).
-/

namespace LuoOS.Proc

open Function

def mOFiles : Nat := 101

def FdCwd : Int := 3

def AT_FDCWD : Int := -100

def ENOMEM : Nat := 12
def EBADF : Nat := 9
def EFAULT : Nat := 14
def ENOTDIR : Nat := 20
def EINVAL : Nat := 22
def ENOTTY : Nat := 25

def O_RDWR : BitVec 32 := 0o2
def O_APPEND : BitVec 32 := 0o2000
def O_NONBLOCK : BitVec 32 := 0o4000
def O_ASYNC : BitVec 32 := 0o20000
def O_DIRECT : BitVec 32 := 0o40000
def O_NOATIME : BitVec 32 := 0o1000000
def O_CLOEXEC : BitVec 32 := 0o2000000
def FD_CLOEXEC : BitVec 32 := 1

/-- The kinds of open files. -/
inductive FileType where
  | none
  | pipe
  | entry
  | dev
  | stdin
  | stdout
  | stderr
  deriving DecidableEq

abbrev EntryRef := Nat

abbrev FileRef := Nat

/-- `File`, with the type of what it is of in place of `KStat` and the inode. -/
structure File where
  type : FileType
  r : Bool
  w : Bool
  flags : BitVec 32
  /-- `S_ISCHR(obj.kst().st_mode)`. -/
  chr : Bool := false
  /-- `S_ISDIR` of the mode of the inode, for an entry. -/
  dir : Bool := false
  entry : EntryRef := 0

/-- The descriptor table of a process, with the open files. -/
structure Descriptors where
  files : Fin mOFiles → Option FileRef
  file : FileRef → File
  made : FileRef
  cwd : EntryRef

/-- What a call returns, and the descriptors that `pipe2` stores. -/
structure Answer where
  value : Except Nat Nat
  fds : Option (Int × Int) := none

namespace Answer

def err (e : Nat) : Answer := ⟨.error e, none⟩

def int (r : Int) : Answer := ⟨.ok (xlen r), none⟩

def Failed (a : Answer) : Prop :=
  match a.value with
  | .error _ => True
  | .ok v => 2 ^ 63 ≤ v

instance (a : Answer) : Decidable a.Failed := by
  unfold Failed
  split <;> infer_instance

end Answer

/-! ## The array -/

def slot (i : Int) : Option (Fin mOFiles) :=
  if h : 0 ≤ i ∧ i < mOFiles then some ⟨i.toNat, by omega⟩ else none

def fdOutRange (fd : Int) : Bool := fd < 0 || mOFiles ≤ fd

namespace Descriptors

def get (d : Descriptors) (i : Int) : Kern (Option FileRef) :=
  match slot i with
  | some i => .ok (d.files i)
  | none => .error (.outOfBounds i)

def set (d : Descriptors) (i : Fin mOFiles) (f : Option FileRef) : Descriptors :=
  { d with files := update d.files i f }

def put (d : Descriptors) (i : Int) (f : Option FileRef) : Kern Descriptors :=
  match slot i with
  | some i => .ok (d.set i f)
  | none => .error (.outOfBounds i)

def make (d : Descriptors) (f : File) : FileRef × Descriptors :=
  (d.made, { d with file := update d.file d.made f, made := d.made + 1 })

def deref (d : Descriptors) : Option FileRef → Kern File
  | some f => .ok (d.file f)
  | none => .error .wildPointer

def setFlags (d : Descriptors) (f : Option FileRef) (g : BitVec 32 → BitVec 32) :
    Kern Descriptors :=
  match f with
  | some f =>
    .ok { d with
      file := update d.file f { d.file f with flags := g (d.file f).flags } }
  | none => .error .wildPointer

def ofile (d : Descriptors) (fd : Int) : Kern (Option FileRef) :=
  let fd := if fd = AT_FDCWD then FdCwd else fd
  if fdOutRange fd then .ok none else d.get fd

def fdAllocLoop (d : Descriptors) (file : FileRef) : (fuel : Nat) → (fd : Int) →
    Kern (Int × Descriptors)
  | 0, _ => .ok (-ENOMEM, d)
  | fuel + 1, fd => do
    match ← d.get fd with
    | none =>
      let d ← d.put fd (some file)
      .ok (fd, d)
    | some _ => d.fdAllocLoop file fuel (fd + 1)

/-- `Process::fdAlloc`. The loop runs over the indices from the start on that are below the size. -/
def fdAlloc (d : Descriptors) (file : FileRef) (fd : Int := 0) (appoint : Bool := false) :
    Kern (Int × Descriptors) :=
  if !appoint then
    let start := if fd < 0 then 0 else fd
    d.fdAllocLoop file (mOFiles - start).toNat start
  else if fdOutRange fd then .ok (-EBADF, d)
  else do
    let d ← d.put fd (some file)
    .ok (fd, d)

/-! ## The calls -/

def dup (d : Descriptors) (fd : Int) : Kern (Answer × Descriptors) := do
  match ← d.ofile fd with
  | none => .ok (.err EBADF, d)
  | some file =>
    let (newfd, d) ← d.fdAlloc file
    .ok (.int newfd, d)

def reflag (d : Descriptors) (newfd : Int) (flags : BitVec 32) : Kern (Answer × Descriptors) := do
  if 0 ≤ newfd then
    let d ← d.setFlags (← d.ofile newfd) (· &&& ~~~O_CLOEXEC)
    let d ← d.setFlags (← d.ofile newfd) (· ||| flags)
    .ok (.int newfd, d)
  else .ok (.int newfd, d)

def dup3 (d : Descriptors) (fd newfd : Int) (flags : BitVec 32) : Kern (Answer × Descriptors) :=
  if fd = newfd then .ok (.err EINVAL, d)
  else do
    match ← d.ofile fd with
    | none => .ok (.err EBADF, d)
    | some file =>
      let (newfd, d) ← d.fdAlloc file newfd true
      d.reflag newfd flags

def F_DUPFD : Int := 0
def F_GETFD : Int := 1
def F_SETFD : Int := 2
def F_GETFL : Int := 3
def F_SETFL : Int := 4
def F_DUPFD_CLOEXEC : Int := 1030

def statusFlags : BitVec 32 := O_APPEND ||| O_ASYNC ||| O_DIRECT ||| O_NOATIME ||| O_NONBLOCK

def fCntl (d : Descriptors) (fd cmd : Int) (arg : Nat) : Kern (Answer × Descriptors) := do
  match ← d.ofile fd with
  | none => .ok (.err EBADF, d)
  | some file =>
    if cmd = F_DUPFD then
      let (newfd, d) ← d.fdAlloc file (toInt arg)
      .ok (.int newfd, d)
    else if cmd = F_GETFD then
      .ok (.int (if (d.file file).flags &&& O_CLOEXEC = 0 then 0 else FD_CLOEXEC.toInt), d)
    else if cmd = F_SETFD then
      let d ← d.setFlags (some file) fun flags =>
        if BitVec.ofNat 32 arg &&& FD_CLOEXEC = 0 then flags &&& ~~~O_CLOEXEC
        else flags ||| O_CLOEXEC
      .ok (.int 0, d)
    else if cmd = F_GETFL then .ok (.int (d.file file).flags.toInt, d)
    else if cmd = F_SETFL then
      let d ← d.setFlags (some file) fun flags =>
        flags &&& ~~~statusFlags ||| (BitVec.ofNat 32 arg &&& statusFlags)
      .ok (.int 0, d)
    else if cmd = F_DUPFD_CLOEXEC then
      let (newfd, d) ← d.fdAlloc file (toInt arg)
      d.reflag newfd O_CLOEXEC
    else .ok (.err EINVAL, d)

def getEntry (f : File) : Kern EntryRef := do
  assert_ (f.type = .entry) "ep.objtype == entry"
  .ok f.entry

def ioCtl (d : Descriptors) (fd answer : Int) : Kern (Answer × Descriptors) := do
  let file ← d.deref (← d.ofile fd)
  if file.chr then
    let _ ← getEntry file
    .ok (.int answer, d)
  else .ok (.int (-ENOTTY), d)

def close (d : Descriptors) (fd : Int) : Kern (Answer × Descriptors) := do
  match ← d.ofile fd with
  | none => .ok (.err EBADF, d)
  | some _ =>
    let d ← d.put fd none
    .ok (.int 0, d)

def pipe2 (d : Descriptors) : Kern (Answer × Descriptors) := do
  let (rfile, d) := d.make { type := .pipe, r := true, w := false, flags := 0 }
  let (wfile, d) := d.make { type := .pipe, r := false, w := true, flags := 0 }
  let (rfd, d) ← d.fdAlloc rfile
  let (wfd, d) ← d.fdAlloc wfile
  .ok (⟨.ok 0, some (rfd, wfd)⟩, d)

/-- What a path leads to. -/
structure Found where
  entry : EntryRef
  dir : Bool

def chDir (d : Descriptors) : Option (Option Found) → Kern (Answer × Descriptors)
  | none => .ok (.err EFAULT, d)
  | some none => .ok (.int (-1), d)
  | some (some ep) =>
    if !ep.dir then .ok (.int (-1), d)
    else do
      let (f, d) := d.make
        { type := .entry, r := true, w := true, flags := O_RDWR, dir := true, entry := ep.entry }
      let d ← put { d with cwd := ep.entry } FdCwd (some f)
      .ok (.int 0, d)

def fChDir (d : Descriptors) (fd : Int) : Kern (Answer × Descriptors) := do
  match ← d.ofile fd with
  | none => .ok (.err EBADF, d)
  | some nwd =>
    let entry ← getEntry (d.file nwd)
    if !(d.file nwd).dir then .ok (.err ENOTDIR, d)
    else
      let d ← put { d with cwd := entry } FdCwd (some nwd)
      .ok (.int 0, d)

def readFile (f : File) (bytes : Int) : Kern Int :=
  if !f.r then .ok (-1)
  else
    match f.type with
    | .stdin => .error (.panic "unimplementd read type stdin\n")
    | .pipe => .ok bytes
    | .dev => .error (.panic "unimplementd read type dev\n")
    | .entry => .ok (if 0 < bytes then bytes else 0)
    | _ => .error (.panic "File::read(): unknown file type")

def read (d : Descriptors) (fd bytes : Int) : Kern (Answer × Descriptors) := do
  match ← d.ofile fd with
  | none => .ok (.err EBADF, d)
  | some f =>
    let rdbytes ← readFile (d.file f) bytes
    .ok (.int rdbytes, d)

def writeFile (f : File) (len : Nat) (taken : Int) : Int :=
  if !f.w then -1
  else
    match f.type with
    | .stdout => toInt len
    | .stderr => toInt len
    | .pipe => toInt len
    | .entry => if taken = len then toInt len else -1
    | _ => -1

def write (d : Descriptors) (fd : Int) (src len : Nat) (taken : Int) :
    Kern (Answer × Descriptors) :=
  if src = 0 then .ok (.err EFAULT, d)
  else do
    match ← d.ofile fd with
    | none => .ok (.err EBADF, d)
    | some f => .ok (.int (writeFile (d.file f) len taken), d)

abbrev FdSet := Nat → Bool

/-- Which files can be read or written at once. -/
structure Ready where
  readable : FileRef → Bool
  writable : FileRef → Bool

def isReady (f : File) (pipe : Bool) : Bool :=
  match f.type with
  | .pipe => pipe
  | .entry => true
  | _ => false

def poll (d : Descriptors) (ready : FileRef → Bool) (i : Nat) (set : Option FdSet) (rt : Nat) :
    Kern (Option FdSet × Nat) :=
  match set with
  | none => .ok (none, rt)
  | some fds =>
    if fds i then do
      let file ← d.ofile i
      let f ← d.deref file
      if isReady f (file.any ready) then .ok (some fds, rt + 1)
      else .ok (some (update fds i false), rt)
    else .ok (some fds, rt)

def pollLoop (d : Descriptors) (ready : Ready) : (n i : Nat) → (rfds wfds : Option FdSet) →
    (rt : Nat) → Kern ((Option FdSet × Option FdSet) × Nat)
  | 0, _, rfds, wfds, rt => .ok ((rfds, wfds), rt)
  | n + 1, i, rfds, wfds, rt => do
    let (rfds, rt) ← d.poll ready.readable i rfds rt
    let (wfds, rt) ← d.poll ready.writable i wfds rt
    d.pollLoop ready n (i + 1) rfds wfds rt

def pselectLoop (d : Descriptors) (nfds : Nat) : Ready → List Ready →
    (rfds wfds : Option FdSet) → Kern Nat
  | ready, more, rfds, wfds => do
    let ((rfds, wfds), rt) ← d.pollLoop ready nfds 0 rfds wfds 0
    if rt ≠ 0 then .ok rt
    else
      match more with
      | [] => .ok rt
      | ready :: more => d.pselectLoop nfds ready more rfds wfds

def pselect (d : Descriptors) (nfds : Int) (rfds wfds : Option FdSet) (ready : Ready)
    (more : List Ready) : Kern (Answer × Descriptors) := do
  let rt ← d.pselectLoop nfds.toNat ready more rfds wfds
  .ok (.int rt, d)

end Descriptors

/-- The system calls with their arguments. -/
inductive Call where
  | dup (fd : Int)
  | dup3 (fd newfd : Int) (flags : BitVec 32)
  | fCntl (fd cmd : Int) (arg : Nat)
  | ioCtl (fd answer : Int)
  | close (fd : Int)
  | pipe2
  | chDir (path : Option (Option Descriptors.Found))
  | fChDir (fd : Int)
  | read (fd bytes : Int)
  | write (fd : Int) (src len : Nat) (taken : Int)
  | pselect (nfds : Int) (rfds wfds : Option Descriptors.FdSet) (ready : Descriptors.Ready)
      (more : List Descriptors.Ready)

def Descriptors.call (d : Descriptors) : Call → Kern (Answer × Descriptors)
  | .dup fd => d.dup fd
  | .dup3 fd newfd flags => d.dup3 fd newfd flags
  | .fCntl fd cmd arg => d.fCntl fd cmd arg
  | .ioCtl fd answer => d.ioCtl fd answer
  | .close fd => d.close fd
  | .pipe2 => d.pipe2
  | .chDir path => d.chDir path
  | .fChDir fd => d.fChDir fd
  | .read fd bytes => d.read fd bytes
  | .write fd src len taken => d.write fd src len taken
  | .pselect nfds rfds wfds ready more => d.pselect nfds rfds wfds ready more

/-! ## Safety -/

namespace Descriptors

def behind (d : Descriptors) (fd : Int) : Option FileRef :=
  (slot (if fd = AT_FDCWD then FdCwd else fd)).bind d.files

/-- **What the calls owe the table**: no access outside of it, no operation on an empty slot, no
change when they fail, and two descriptors from `pipe2`. -/
structure Safe (d : Descriptors) (c : Call) : Prop where
  index : ∀ i, d.call c ≠ .error (.outOfBounds i)
  empty : d.call c ≠ .error .wildPointer
  unchanged : ∀ a d', d.call c = .ok (a, d') → a.Failed → d'.files = d.files
  pipe : c = .pipe2 → ∀ a d', d.call c = .ok (a, d') → ¬a.Failed →
    ∃ rfd wfd, a.fds = some (rfd, wfd) ∧ rfd ≠ wfd ∧ d'.behind rfd ≠ none ∧ d'.behind wfd ≠ none

def Has (set : Option FdSet) (j : Nat) : Prop := set.any (· j) = true

/-- What a caller has to see to: `AT_FDCWD` is not closed, `ioctl` and `pselect` are called for open
descriptors, and two slots are empty for a pipe. -/
def Heedful (d : Descriptors) : Call → Prop
  | .close fd => fd = AT_FDCWD → d.behind fd = none
  | .ioCtl fd _ => d.behind fd ≠ none
  | .pipe2 => ∃ i j, i ≠ j ∧ d.files i = none ∧ d.files j = none
  | .pselect nfds rfds wfds _ _ => ∀ i : Nat, i < nfds.toNat →
      Has rfds i ∨ Has wfds i → d.behind i ≠ none
  | _ => True

def SafeRun : Descriptors → List Call → Prop
  | _, [] => True
  | d, c :: cs => d.Safe c ∧ ∀ a d', d.call c = .ok (a, d') → d'.SafeRun cs

def HeedfulRun : Descriptors → List Call → Prop
  | _, [] => True
  | d, c :: cs => d.Heedful c ∧ ∀ a d', d.call c = .ok (a, d') → d'.HeedfulRun cs

section Table

variable {d d' : Descriptors} {fd : Int} {file : FileRef}

theorem slot_eq_some {i : Int} {j : Fin mOFiles} : slot i = some j ↔ i = j := by
  unfold slot
  split
  · rw [Option.some.injEq, Fin.ext_iff]
    dsimp only
    omega
  rename_i h
  constructor
  · intro h'
    cases h'
  · rintro rfl
    exact absurd ⟨by omega, by have := j.2; omega⟩ h

theorem slot_coe (i : Fin mOFiles) : slot i = some i := slot_eq_some.2 rfl

theorem fdOutRange_iff : fdOutRange fd = true ↔ slot fd = none := by
  unfold fdOutRange slot
  rw [Bool.or_eq_true, decide_eq_true_iff, decide_eq_true_iff]
  split
  · constructor
    · omega
    · intro h'
      cases h'
  · exact ⟨fun _ => rfl, fun _ => by omega⟩

theorem ofile_eq (d : Descriptors) (fd : Int) : d.ofile fd = .ok (d.behind fd) := by
  unfold ofile behind
  generalize (if fd = AT_FDCWD then FdCwd else fd) = i
  cases hi : slot i with
  | none =>
    rw [if_pos (fdOutRange_iff.2 hi)]
    rfl
  | some j =>
    have hin : ¬fdOutRange i = true := by
      rw [fdOutRange_iff, hi]
      exact nofun
    rw [if_neg hin]
    unfold get
    rw [hi]
    rfl

/-- The slot of a descriptor in the table is its own. -/
theorem behind_coe (d : Descriptors) (i : Fin mOFiles) : d.behind i = d.files i := by
  have hne : (i : Int) ≠ AT_FDCWD := by
    unfold AT_FDCWD
    omega
  unfold behind
  rw [if_neg hne, slot_coe]
  rfl

theorem behind_neg (d : Descriptors) (h : fd < 0) (hne : fd ≠ AT_FDCWD) : d.behind fd = none := by
  unfold behind
  rw [if_neg hne, fdOutRange_iff.1]
  · rfl
  · unfold fdOutRange
    rw [decide_eq_true h, Bool.true_or]

theorem put_slot {i : Fin mOFiles} (f : Option FileRef) : d.put i f = .ok (d.set i f) := by
  unfold put
  rw [slot_coe]

/-- What `fdAlloc` can do. -/
inductive Alloc (d : Descriptors) (file : FileRef) : Int → Descriptors → Prop
  | none {r : Int} : r < 0 → r ≠ AT_FDCWD → Alloc d file r d
  | slot (i : Fin mOFiles) : Alloc d file i (d.set i (some file))

theorem fdAllocLoop_spec (d : Descriptors) (file : FileRef) (fuel : Nat) (fd : Int) (h0 : 0 ≤ fd)
    (hfuel : fd + fuel = mOFiles) : ∃ r d', d.fdAllocLoop file fuel fd = .ok (r, d') ∧
      ((∃ i : Fin mOFiles, r = i ∧ d.files i = none ∧ d' = d.set i (some file)) ∨
        (r = -ENOMEM ∧ d' = d ∧ ∀ i : Fin mOFiles, fd ≤ i → d.files i ≠ none)) := by
  induction fuel generalizing fd with
  | zero =>
    refine ⟨-ENOMEM, d, rfl, .inr ⟨rfl, rfl, fun i hi => ?_⟩⟩
    omega
  | succ fuel ih =>
    obtain ⟨i, rfl⟩ : ∃ i : Fin mOFiles, fd = i := ⟨⟨fd.toNat, by omega⟩, by dsimp only; omega⟩
    have hget : d.get i = .ok (d.files i) := by
      unfold get
      rw [slot_coe]
    unfold fdAllocLoop
    rw [hget, ok_bind]
    cases hi : d.files i with
    | none =>
      refine ⟨i, d.set i (some file), ?_, .inl ⟨i, rfl, hi, rfl⟩⟩
      rw [put_slot, ok_bind]
    | some f =>
      obtain ⟨r, d', heq, hor⟩ := ih (i + 1) (by omega) (by omega)
      refine ⟨r, d', heq, hor.imp_right fun ⟨hr, hd, hfull⟩ => ⟨hr, hd, fun j hj => ?_⟩⟩
      by_cases hij : j = i
      · rw [hij, hi]
        exact nofun
      · exact hfull j (by omega)

/-- `fdAlloc` without an appointed slot, from any start. -/
theorem fdAlloc_spec (d : Descriptors) (file : FileRef) (fd : Int) :
    ∃ r d', d.fdAlloc file fd = .ok (r, d') ∧
      ((∃ i : Fin mOFiles, r = i ∧ d.files i = none ∧ d' = d.set i (some file)) ∨
        (r = -ENOMEM ∧ d' = d ∧ ∀ i : Fin mOFiles, fd ≤ i → d.files i ≠ none)) := by
  unfold fdAlloc
  dsimp only
  rcases Int.lt_or_le (if fd < 0 then 0 else fd) mOFiles with hlt | hge
  · obtain ⟨r, d', heq, hor⟩ := fdAllocLoop_spec d file (mOFiles - if fd < 0 then 0 else fd).toNat
      (if fd < 0 then 0 else fd) (by split <;> omega) (by omega)
    refine ⟨r, d', heq, hor.imp_right fun ⟨hr, hd, hfull⟩ => ⟨hr, hd, fun i hi => hfull i ?_⟩⟩
    split <;> omega
  · have hfuel : (mOFiles - if fd < 0 then 0 else fd : Int).toNat = 0 := by omega
    rw [hfuel]
    refine ⟨-ENOMEM, d, rfl, .inr ⟨rfl, rfl, fun i hi => ?_⟩⟩
    split at hge
    · omega
    · omega

theorem fdAlloc_alloc (d : Descriptors) (file : FileRef) (fd : Int) (appoint : Bool) :
    ∃ r d', d.fdAlloc file fd appoint = .ok (r, d') ∧ Alloc d file r d' := by
  cases appoint with
  | false =>
    obtain ⟨r, d', heq, ⟨i, rfl, -, rfl⟩ | ⟨rfl, rfl, -⟩⟩ := fdAlloc_spec d file fd
    · exact ⟨_, _, heq, .slot i⟩
    · exact ⟨_, _, heq, .none (by decide) (by decide)⟩
  | true =>
    unfold fdAlloc
    cases hi : slot fd with
    | none =>
      rw [if_pos (fdOutRange_iff.2 hi)]
      exact ⟨_, _, rfl, .none (by decide) (by decide)⟩
    | some i =>
      have hin : ¬fdOutRange fd = true := by
        rw [fdOutRange_iff, hi]
        exact nofun
      obtain rfl := slot_eq_some.1 hi
      rw [if_neg hin, put_slot, ok_bind]
      exact ⟨_, _, rfl, .slot i⟩

theorem not_failed_slot (i : Fin mOFiles) : ¬(Answer.int i).Failed := by
  have hi : (i : Nat) < 101 := i.2
  have hx : xlen ((i : Nat) : Int) = i := xlen_of_lt (by omega)
  change ¬2 ^ 63 ≤ xlen ((i : Nat) : Int)
  omega

end Table

def Fine (d : Descriptors) : Kern (Answer × Descriptors) → Prop
  | .ok (a, d') => a.Failed → d'.files = d.files
  | .error (.outOfBounds _) => False
  | .error .wildPointer => False
  | .error _ => True

section Calls

variable {d d' : Descriptors} {fd : Int} {file : FileRef} {r : Int}

theorem fine_same (a : Answer) : Fine d (.ok (a, d)) := fun _ => rfl

theorem Alloc.fine (h : Alloc d file r d') : Fine d (.ok (.int r, d')) := by
  cases h with
  | none _ _ => exact fine_same _
  | slot i => exact fun hf => absurd hf (not_failed_slot i)

theorem setFlags_files (d : Descriptors) (file : FileRef) (g : BitVec 32 → BitVec 32) :
    ∃ d', d.setFlags (some file) g = .ok d' ∧ d'.files = d.files :=
  ⟨_, rfl, rfl⟩

theorem Alloc.reflag (h : Alloc d file r d') (flags : BitVec 32) : Fine d (d'.reflag r flags) := by
  cases h with
  | none hneg _ =>
    unfold Descriptors.reflag
    rw [if_neg (Int.not_le.2 hneg)]
    exact fine_same _
  | slot i =>
    -- the slot of the new descriptor has the file, whatever its flags are
    have hslot : ∀ e : Descriptors, e.files = (d.set i (some file)).files →
        e.ofile i = .ok (some file) := by
      intro e he
      rw [ofile_eq, behind_coe, he]
      exact congrArg _ (update_self ..)
    obtain ⟨d1, h1, hfiles⟩ := setFlags_files (d.set i (some file)) file (· &&& ~~~O_CLOEXEC)
    obtain ⟨d2, h2, -⟩ := setFlags_files d1 file (· ||| flags)
    unfold Descriptors.reflag
    rw [if_pos (Int.natCast_nonneg _), hslot _ rfl, ok_bind, h1, ok_bind, hslot _ hfiles, ok_bind,
      h2]
    exact fun hf => absurd hf (not_failed_slot i)

theorem fine_ofile {call : Option FileRef → Kern (Answer × Descriptors)}
    (hnone : call none = .ok (.err EBADF, d)) (hsome : ∀ file, Fine d (call (some file))) :
    Fine d (d.ofile fd >>= call) := by
  rw [ofile_eq, ok_bind]
  cases d.behind fd with
  | none => exact hnone ▸ fine_same _
  | some file => exact hsome file

theorem dup_fine (fd : Int) : Fine d (d.dup fd) := by
  refine fine_ofile rfl fun file => ?_
  obtain ⟨r, d', heq, halloc⟩ := fdAlloc_alloc d file 0 false
  dsimp only
  rw [heq, ok_bind]
  exact halloc.fine

theorem dup3_fine (fd newfd : Int) (flags : BitVec 32) : Fine d (d.dup3 fd newfd flags) := by
  unfold dup3
  split
  · exact fine_same _
  refine fine_ofile rfl fun file => ?_
  obtain ⟨r, d', heq, halloc⟩ := fdAlloc_alloc d file newfd true
  dsimp only
  rw [heq, ok_bind]
  exact halloc.reflag flags

theorem fCntl_fine (fd cmd : Int) (arg : Nat) : Fine d (d.fCntl fd cmd arg) := by
  refine fine_ofile rfl fun file => ?_
  obtain ⟨r, d', heq, halloc⟩ := fdAlloc_alloc d file (toInt arg) false
  dsimp only
  rw [heq, ok_bind, ok_bind]
  split_ifs
  · exact halloc.fine
  · exact fine_same _
  · exact fine_same _
  · exact fun _ => rfl
  · exact fun _ => rfl
  · exact fine_same _
  · exact fun _ => rfl
  · exact halloc.reflag O_CLOEXEC
  · exact fine_same _

theorem chDir_fine (path : Option (Option Found)) : Fine d (d.chDir path) := by
  match path with
  | none => exact fine_same _
  | some none => exact fine_same _
  | some (some ep) =>
    unfold chDir
    dsimp only
    cases ep.dir with
    | false => exact fine_same _
    | true => exact fun hf => absurd hf (by decide)

theorem fChDir_fine (fd : Int) : Fine d (d.fChDir fd) := by
  refine fine_ofile rfl fun nwd => ?_
  dsimp only
  unfold getEntry assert_
  split
  · split
    · exact fine_same _
    · exact fun hf => absurd hf (by decide)
  · trivial

theorem read_fine (fd bytes : Int) : Fine d (d.read fd bytes) := by
  refine fine_ofile rfl fun file => ?_
  dsimp only
  unfold readFile
  split
  · exact fine_same _
  split
  · trivial
  · exact fine_same _
  · trivial
  · exact fine_same _
  · trivial

theorem write_fine (fd : Int) (src len : Nat) (taken : Int) :
    Fine d (d.write fd src len taken) := by
  unfold write
  split
  · exact fine_same _
  · exact fine_ofile rfl fun _ => fine_same _

theorem close_fine_iff (fd : Int) : Fine d (d.close fd) ↔ (fd = AT_FDCWD → d.behind fd = none) := by
  unfold close
  rw [ofile_eq, ok_bind]
  cases hb : d.behind fd with
  | none => exact ⟨fun _ _ => rfl, fun _ => fine_same _⟩
  | some f =>
    by_cases hcwd : fd = AT_FDCWD
    · subst hcwd
      exact ⟨fun h => absurd h id, fun h => absurd (h rfl) nofun⟩
    refine ⟨fun _ h => absurd h hcwd, fun _ => ?_⟩
    unfold behind at hb
    rw [if_neg hcwd] at hb
    obtain ⟨i, hi, -⟩ := Option.bind_eq_some_iff.1 hb
    obtain rfl := slot_eq_some.1 hi
    rw [put_slot, ok_bind]
    exact fun hf => absurd hf (by decide)

theorem ioCtl_fine_iff (fd answer : Int) : Fine d (d.ioCtl fd answer) ↔ d.behind fd ≠ none := by
  unfold ioCtl
  rw [ofile_eq, ok_bind]
  cases d.behind fd with
  | none => exact ⟨fun h => absurd h id, fun h => absurd rfl h⟩
  | some f =>
    refine ⟨fun _ => nofun, fun _ => ?_⟩
    unfold deref
    rw [ok_bind]
    split
    · unfold getEntry assert_
      split
      · exact fine_same _
      · trivial
    · exact fine_same _

theorem fdAlloc_two (d : Descriptors) (f g : FileRef) :
    ∃ rfd wfd d1 d2, d.fdAlloc f = .ok (rfd, d1) ∧ d1.fdAlloc g = .ok (wfd, d2) ∧
      ((∃ i j : Fin mOFiles, i ≠ j ∧ rfd = i ∧ wfd = j ∧ d.files i = none ∧ d.files j = none ∧
          d2.files i ≠ none ∧ d2.files j ≠ none) ∨
        (wfd = -ENOMEM ∧ ¬∃ i j, i ≠ j ∧ d.files i = none ∧ d.files j = none)) := by
  obtain ⟨rfd, d1, h1, hr⟩ := fdAlloc_spec d f 0
  obtain ⟨wfd, d2, h2, hw⟩ := fdAlloc_spec d1 g 0
  refine ⟨rfd, wfd, d1, d2, h1, h2, ?_⟩
  rcases hr with ⟨i, rfl, hi, rfl⟩ | ⟨-, rfl, hfull⟩
  · have hself : (d.set i (some f)).files i = some f := update_self ..
    have hother : ∀ j, j ≠ i → (d.set i (some f)).files j = d.files j := fun j hj =>
      update_of_ne hj ..
    rcases hw with ⟨j, rfl, hj, rfl⟩ | ⟨rfl, rfl, hfull⟩
    · have hne : i ≠ j := by
        rintro rfl
        rw [hself] at hj
        cases hj
      have hlast : ((d.set i (some f)).set j (some g)).files j = some g := update_self ..
      have hfirst : ((d.set i (some f)).set j (some g)).files i = some f :=
        (update_of_ne hne ..).trans hself
      rw [hother j hne.symm] at hj
      refine .inl ⟨i, j, hne, rfl, rfl, hi, hj, ?_, ?_⟩
      · rw [hfirst]
        exact nofun
      · rw [hlast]
        exact nofun
    · refine .inr ⟨rfl, fun ⟨j, k, hne, hj, hk⟩ => ?_⟩
      -- one of the two is not the slot that was just taken
      obtain ⟨l, hl, hempty⟩ : ∃ l, l ≠ i ∧ d.files l = none := by
        by_cases heq : j = i
        · exact ⟨k, fun h => hne (heq.trans h.symm), hk⟩
        · exact ⟨j, heq, hj⟩
      refine hfull l (Int.natCast_nonneg _) ?_
      rw [hother l hl]
      exact hempty
  · refine .inr ⟨?_, fun ⟨j, _, _, hj, _⟩ => hfull j (Int.natCast_nonneg _) hj⟩
    rcases hw with ⟨j, -, hj, -⟩ | ⟨hw, -, -⟩
    · exact absurd hj (hfull j (Int.natCast_nonneg _))
    · exact hw

theorem pipe2_spec (d : Descriptors) : ∃ rfd wfd d', d.pipe2 = .ok (⟨.ok 0, some (rfd, wfd)⟩, d') ∧
      ((∃ i j : Fin mOFiles, i ≠ j ∧ rfd = i ∧ wfd = j ∧ d.files i = none ∧ d.files j = none ∧
          d'.files i ≠ none ∧ d'.files j ≠ none) ∨
        (wfd = -ENOMEM ∧ ¬∃ i j, i ≠ j ∧ d.files i = none ∧ d.files j = none)) := by
  unfold pipe2
  dsimp only
  generalize hr : d.make _ = rmade
  generalize hw : rmade.2.make _ = wmade
  have hfiles : wmade.2.files = d.files := by
    rw [← hw, ← hr]
    rfl
  obtain ⟨rfd, wfd, d1, d2, h1, h2, hslots⟩ := fdAlloc_two wmade.2 rmade.1 wmade.1
  rw [hfiles] at hslots
  refine ⟨rfd, wfd, d2, ?_, hslots⟩
  rw [h1, ok_bind, h2, ok_bind]

/-- One set at one index: an empty slot faults, and otherwise the set loses that index or nothing.
-/
theorem poll_spec (d : Descriptors) (ready : FileRef → Bool) (i : Nat) (set : Option FdSet)
    (rt : Nat) : (Has set i ∧ d.behind i = none ∧ d.poll ready i set rt = .error .wildPointer) ∨
      ((Has set i → d.behind i ≠ none) ∧ ∃ set' rt', d.poll ready i set rt = .ok (set', rt') ∧
        (∀ j, Has set' j → Has set j) ∧ ∀ j, j ≠ i → Has set j → Has set' j) := by
  unfold poll
  cases set with
  | none => exact .inr ⟨nofun, none, rt, rfl, fun _ h => h, fun _ _ h => h⟩
  | some fds =>
    dsimp only
    cases hfd : fds i with
    | false =>
      refine .inr ⟨fun h => ?_, some fds, rt, rfl, fun _ h => h, fun _ _ h => h⟩
      exact absurd (hfd.symm.trans h) Bool.false_ne_true
    | true =>
      rw [if_pos rfl, ofile_eq, ok_bind]
      cases d.behind i with
      | none => exact .inl ⟨hfd, rfl, rfl⟩
      | some f =>
        refine .inr ⟨fun _ => nofun, ?_⟩
        unfold deref
        rw [ok_bind]
        split
        · exact ⟨_, _, rfl, fun _ h => h, fun _ _ h => h⟩
        refine ⟨_, _, rfl, fun j h => ?_, fun j hj h => ?_⟩
        · unfold Has at h
          rw [Option.any_some, update_apply] at h
          split at h
          · cases h
          · exact h
        · unfold Has
          rw [Option.any_some, update_of_ne hj]
          exact h

/-- The loop over the indices: an empty slot that is asked for faults. -/
theorem pollLoop_spec (d : Descriptors) (ready : Ready) (n : Nat) :
    ∀ (i : Nat) (rfds wfds : Option FdSet) (rt : Nat),
      (d.pollLoop ready n i rfds wfds rt = .error .wildPointer ∧
          ∃ j, i ≤ j ∧ j < i + n ∧ (Has rfds j ∨ Has wfds j) ∧ d.behind j = none) ∨
        ((∀ j, i ≤ j → j < i + n → Has rfds j ∨ Has wfds j → d.behind j ≠ none) ∧
          ∃ r, d.pollLoop ready n i rfds wfds rt = .ok r) := by
  induction n with
  | zero =>
    intro i rfds wfds rt
    exact .inr ⟨fun j h1 h2 => by omega, _, rfl⟩
  | succ n ih =>
    intro i rfds wfds rt
    unfold pollLoop
    rcases d.poll_spec ready.readable i rfds rt with
      ⟨hask, hempty, hr⟩ | ⟨hopen, rfds1, rt1, hr, hsub, hkeep⟩
    · rw [hr]
      exact .inl ⟨rfl, i, Nat.le_refl i, by omega, .inl hask, hempty⟩
    rw [hr, ok_bind]
    dsimp only
    rcases d.poll_spec ready.writable i wfds rt1 with
      ⟨hask, hempty, hw⟩ | ⟨hopen', wfds1, rt2, hw, hsub', hkeep'⟩
    · rw [hw]
      exact .inl ⟨rfl, i, Nat.le_refl i, by omega, .inr hask, hempty⟩
    rw [hw, ok_bind]
    rcases ih (i + 1) rfds1 wfds1 rt2 with
      ⟨herr, j, h1, h2, hask, hempty⟩ | ⟨hall, hok⟩
    · refine .inl ⟨herr, j, by omega, by omega, ?_, hempty⟩
      exact hask.imp (hsub j) (hsub' j)
    refine .inr ⟨fun j h1 h2 hask => ?_, hok⟩
    by_cases hj : j = i
    · subst hj
      exact hask.elim hopen hopen'
    · exact hall j (by omega) (by omega) (hask.imp (hkeep j hj) (hkeep' j hj))

/-! ## `pselect` looks once -/

section Once

variable {ready : Ready} {rfds wfds rfds' wfds' set set' : Option FdSet} {n i rt rt' : Nat}
  {look : FileRef → Bool}

/-- An index is counted or lost. -/
theorem poll_counts (h : d.poll look i set rt = .ok (set', rt')) :
    rt ≤ rt' ∧ (∀ j, Has set' j → Has set j) ∧ (rt' = rt → ¬Has set' i) := by
  cases set with
  | none =>
    cases h
    exact ⟨Nat.le_refl _, fun _ h => h, fun _ => nofun⟩
  | some fds =>
    unfold poll at h
    dsimp only at h
    split at h
    · obtain ⟨file, -, h⟩ := bind_eq_ok h
      obtain ⟨f, -, h⟩ := bind_eq_ok h
      split at h
      · cases h
        exact ⟨by omega, fun _ h => h, fun h => by omega⟩
      · cases h
        exact ⟨Nat.le_refl _, fun j => by simp [Has, update_apply], fun _ => by simp [Has]⟩
    · rename_i hfd
      cases h
      exact ⟨Nat.le_refl _, fun _ h => h, fun _ => hfd⟩

def Idle (rfds wfds : Option FdSet) (i n : Nat) : Prop :=
  ∀ j, i ≤ j → j < i + n → ¬Has rfds j ∧ ¬Has wfds j

theorem pollLoop_counts (h : d.pollLoop ready n i rfds wfds rt = .ok ((rfds', wfds'), rt')) :
    rt ≤ rt' ∧ (∀ j, Has rfds' j → Has rfds j) ∧ (∀ j, Has wfds' j → Has wfds j) ∧
      (rt' = rt → Idle rfds' wfds' i n) := by
  induction n generalizing i rfds wfds rt with
  | zero =>
    cases h
    exact ⟨Nat.le_refl _, fun _ h => h, fun _ h => h, fun _ j _ _ => by omega⟩
  | succ n ih =>
    obtain ⟨⟨rfds1, rt1⟩, hr, h⟩ := bind_eq_ok h
    obtain ⟨⟨wfds1, rt2⟩, hw, h⟩ := bind_eq_ok h
    obtain ⟨hle1, hsub1, hgone1⟩ := poll_counts hr
    obtain ⟨hle2, hsub2, hgone2⟩ := poll_counts hw
    obtain ⟨hle, hsubr, hsubw, hidle⟩ := ih h
    refine ⟨by omega, fun j h => hsub1 j (hsubr j h), fun j h => hsub2 j (hsubw j h),
      fun heq j hj hlt => ?_⟩
    rcases Nat.eq_or_lt_of_le hj with rfl | hj
    · exact ⟨fun h => hgone1 (by omega) (hsubr _ h), fun h => hgone2 (by omega) (hsubw _ h)⟩
    · exact hidle (by omega) j hj (by omega)

theorem poll_idle (h : ¬Has set i) : d.poll look i set rt = .ok (set, rt) := by
  cases set with
  | none => rfl
  | some fds => exact if_neg h

theorem pollLoop_idle (h : Idle rfds wfds i n) :
    d.pollLoop ready n i rfds wfds rt = .ok ((rfds, wfds), rt) := by
  induction n generalizing i with
  | zero => rfl
  | succ n ih =>
    obtain ⟨hr, hw⟩ := h i (Nat.le_refl i) (by omega)
    unfold pollLoop
    rw [poll_idle hr, ok_bind]
    dsimp only
    rw [poll_idle hw, ok_bind]
    exact ih fun j hj hlt => h j (by omega) (by omega)

theorem pselectLoop_idle {more : List Ready} (h : Idle rfds wfds 0 n) :
    d.pselectLoop n ready more rfds wfds = .ok 0 := by
  induction more generalizing ready with
  | nil | cons next more ih =>
    unfold pselectLoop
    rw [pollLoop_idle h, ok_bind]
    first | rfl | exact ih

theorem pselectLoop_once (more : List Ready) :
    d.pselectLoop n ready more rfds wfds = d.pselectLoop n ready [] rfds wfds := by
  cases more with
  | nil => rfl
  | cons next more =>
    unfold pselectLoop
    cases hround : d.pollLoop ready n 0 rfds wfds 0 with
    | error f => rfl
    | ok r =>
      rw [ok_bind, ok_bind]
      dsimp only
      split
      · rfl
      · rename_i hrt
        rw [not_not] at hrt
        rw [pselectLoop_idle ((pollLoop_counts hround).2.2.2 hrt), hrt]

/-- **`pselect` looks at its descriptors once.** A round in which none is ready clears all the bits
that were asked for, so the answer is that of the first round. -/
theorem pselect_looks_once (d : Descriptors) (nfds : Int) (rfds wfds : Option FdSet)
    (ready : Ready) (more : List Ready) :
    d.pselect nfds rfds wfds ready more = d.pselect nfds rfds wfds ready [] := by
  unfold pselect
  rw [pselectLoop_once]

end Once

theorem pselect_fine_iff (nfds : Int) (rfds wfds : Option FdSet) (ready : Ready)
    (more : List Ready) : Fine d (d.pselect nfds rfds wfds ready more) ↔
      ∀ j : Nat, j < nfds.toNat → Has rfds j ∨ Has wfds j → d.behind j ≠ none := by
  unfold pselect
  rw [pselectLoop_once]
  unfold pselectLoop
  rcases d.pollLoop_spec ready nfds.toNat 0 rfds wfds 0 with
    ⟨herr, j, -, hj, hask, hempty⟩ | ⟨hall, r, hok⟩
  · rw [herr]
    exact ⟨False.elim, fun h => absurd hempty (h j (by omega) hask)⟩
  · rw [hok, ok_bind]
    refine ⟨fun _ j hj => hall j (Nat.zero_le j) (by omega), fun _ => ?_⟩
    dsimp only
    split <;> exact fine_same _

/-! ## Every call, every sequence -/

theorem safe_of_fine {c : Call} (h : Fine d (d.call c)) (hpipe : c ≠ .pipe2) : d.Safe c := by
  refine ⟨fun i heq => ?_, fun heq => ?_, fun a d' heq => ?_, fun hc => absurd hc hpipe⟩
  · rw [heq] at h
    exact h
  · rw [heq] at h
    exact h
  · rw [heq] at h
    exact h

theorem Safe.fine {c : Call} (h : d.Safe c) : Fine d (d.call c) := by
  obtain ⟨hindex, hempty, hsame, -⟩ := h
  cases hr : d.call c with
  | ok r => exact hsame r.1 r.2 hr
  | error e =>
    rw [hr] at hindex hempty
    cases e with
    | outOfBounds i => exact absurd rfl (hindex i)
    | wildPointer => exact absurd rfl hempty
    | panic _ => trivial
    | assertion _ => trivial
    | diverges => trivial

theorem pipe2_safe_iff : d.Safe .pipe2 ↔ ∃ i j, i ≠ j ∧ d.files i = none ∧ d.files j = none := by
  obtain ⟨rfd, wfd, d', heq, hslots⟩ := pipe2_spec d
  have hcall : d.call .pipe2 = .ok (⟨.ok 0, some (rfd, wfd)⟩, d') := heq
  have hnot : ¬Answer.Failed ⟨.ok 0, some (rfd, wfd)⟩ := fun h => absurd h (by decide : ¬2 ^ 63 ≤ 0)
  constructor
  · intro hsafe
    rcases hslots with ⟨i, j, hne, -, -, hi, hj, -⟩ | ⟨hw, -⟩
    · exact ⟨i, j, hne, hi, hj⟩
    obtain ⟨rfd', wfd', hfds, -, -, hopen⟩ := hsafe.pipe rfl _ _ hcall hnot
    cases hfds
    rw [hw] at hopen
    exact absurd (d'.behind_neg (by decide) (by decide)) hopen
  · intro hfree
    rcases hslots with ⟨i, j, hne, hr, hw, -, -, hi, hj⟩ | ⟨-, hno⟩
    · refine ⟨fun _ h => ?_, fun h => ?_, fun a e h hf => ?_, fun _ a e h _ => ?_⟩
      · rw [hcall] at h
        cases h
      · rw [hcall] at h
        cases h
      · rw [hcall] at h
        cases h
        exact absurd hf hnot
      · rw [hcall] at h
        cases h
        refine ⟨rfd, wfd, rfl, ?_, ?_, ?_⟩
        · rw [hr, hw]
          exact fun h => hne (Fin.ext (Int.ofNat.inj h))
        · rw [hr, behind_coe]
          exact hi
        · rw [hw, behind_coe]
          exact hj
    · exact absurd hfree hno

theorem safe_iff (c : Call) : d.Safe c ↔ d.Heedful c := by
  have hfine : c ≠ .pipe2 → (d.Safe c ↔ Fine d (d.call c)) := fun hne =>
    ⟨Safe.fine, fun h => safe_of_fine h hne⟩
  cases c with
  | dup fd => exact ⟨fun _ => trivial, fun _ => (hfine nofun).2 (dup_fine fd)⟩
  | dup3 fd newfd flags => exact ⟨fun _ => trivial, fun _ => (hfine nofun).2 (dup3_fine ..)⟩
  | fCntl fd cmd arg => exact ⟨fun _ => trivial, fun _ => (hfine nofun).2 (fCntl_fine ..)⟩
  | ioCtl fd answer => exact (hfine nofun).trans (ioCtl_fine_iff fd answer)
  | close fd => exact (hfine nofun).trans (close_fine_iff fd)
  | pipe2 => exact pipe2_safe_iff
  | chDir path => exact ⟨fun _ => trivial, fun _ => (hfine nofun).2 (chDir_fine path)⟩
  | fChDir fd => exact ⟨fun _ => trivial, fun _ => (hfine nofun).2 (fChDir_fine fd)⟩
  | read fd bytes => exact ⟨fun _ => trivial, fun _ => (hfine nofun).2 (read_fine ..)⟩
  | write fd src len taken => exact ⟨fun _ => trivial, fun _ => (hfine nofun).2 (write_fine ..)⟩
  | pselect nfds rfds wfds ready more => exact (hfine nofun).trans (pselect_fine_iff ..)

end Calls

/-- **The descriptor table is safe** in exactly those sequences of calls whose callers are heedful,
from any table on. -/
theorem safeRun_iff (d : Descriptors) (cs : List Call) : d.SafeRun cs ↔ d.HeedfulRun cs := by
  induction cs generalizing d with
  | nil => exact Iff.rfl
  | cons c cs ih =>
    unfold SafeRun HeedfulRun
    rw [safe_iff]
    exact and_congr_right fun _ => forall₃_congr fun a d' _ => ih d'

def onlyCwd : Descriptors :=
  ⟨fun i => if i.val = 3 then some 0 else none,
    fun _ => { type := .entry, r := true, w := true, flags := O_RDWR, dir := true }, 1, 0⟩

/-- **`close(AT_FDCWD)` resets a slot that is not there.** -/
theorem not_safeRun_close : ¬onlyCwd.SafeRun [.close AT_FDCWD] := fun h =>
  h.1.index AT_FDCWD rfl

end Descriptors

end LuoOS.Proc
