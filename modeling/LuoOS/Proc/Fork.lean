import LuoOS.Ipc.Signal
import LuoOS.Proc.Descriptors
import LuoOS.Sched.Scheduler
import LuoOS.Vm.Placement

/-!
# What a fork copies

`proc::clone` of `kernel/proc.cc`: a new `Process` from the copy constructor, with a copy of the
caller's task. Members that the constructor does not initialise start empty if they are of class
type (`name`, `exe`, `tasks`, `supgids`, the pointers of `sigacts`), and otherwise keep what the
memory of the object held before, an argument here (`raw`). The child agrees with its parent only if
the parent has nothing in the former, has not moved its heap, and the memory happens to hold the
rest (`clone_copies`).
-/

namespace LuoOS.Proc

open Sched Vm Signal Function

/-- A resource limit. -/
structure RLim where
  cur : Nat
  max : Nat

def RLIMIT_NLIMITS : Nat := 16

/-- The members of a process. -/
structure Process where
  id : Pid
  prior : Fin (maxPrior + 1)
  state : State
  parent : Pid
  vmar : VMAR
  heapTop : Nat
  heapBottom : Nat
  tasks : List Tid
  files : Fin mOFiles → Option FileRef
  name : String
  exe : String
  cwd : Option EntryRef
  exitstatus : Int
  sigacts : Fin numSigs → Option SigAct
  pgid : Nat
  sid : Nat
  ruid : Nat
  euid : Nat
  suid : Nat
  rgid : Nat
  egid : Nat
  sgid : Nat
  supgids : Finset Nat
  umask : Nat
  rlimits : Fin RLIMIT_NLIMITS → RLim

/-- The members of a task that a fork copies. -/
structure Task where
  proc : Pid
  prior : Fin (maxPrior + 1)
  ctx : Context

/-- All processes and tasks. -/
structure World where
  procs : Pid → Option Process
  procCnt : Nat
  tasks : Tid → Option Task
  taskCnt : Nat
  sched : Scheduler

/-- The frames that a new task gets. -/
structure TaskFrames where
  trapframe : Nat
  ustack : Nat
  trapframe_fit : trapframe + TrapframePages ≤ 2 ^ 27
  ustack_fit : ustack + bytes2pages UstackSize ≤ 2 ^ 44

namespace Process

def getSigAct (p : Process) (sig : Fin numSigs) : SigAct := (p.sigacts sig).getD defaultSigAct

def initialised (raw other : Process) (pid : Pid) (vmar : VMAR) : Process :=
  { raw with
    id := pid
    prior := other.prior
    state := .Init
    vmar
    parent := other.id
    cwd := other.cwd
    heapTop := other.heapBottom
    heapBottom := other.heapBottom
    files := other.files
    tasks := []
    name := ""
    exe := ""
    sigacts := fun _ => none
    supgids := ∅ }

def copy (raw other : Process) (pid : Pid) (fresh : Fresh) : Kern Process := do
  let vmar ← other.vmar.copy fresh
  .ok (raw.initialised other pid vmar)

def trapframeMapping (k : TaskFrames) : PageMapping :=
  { vpn := k.trapframe, len := TrapframePages, offset := 0
    vmo := .contiguous k.trapframe TrapframePages (k.trapframe_fit.trans (by decide))
    perm := { r := true, w := true, u := true, v := true }, mapping := .system, sharing := 0 }

def ustackMapping (k : TaskFrames) : PageMapping :=
  { vpn := addr2pn UstackBottom, len := bytes2pages UstackSize, offset := 0
    vmo := .contiguous k.ustack (bytes2pages UstackSize) k.ustack_fit
    perm := { r := true, w := true, u := true, v := true }, mapping := .system, sharing := 0 }

end Process

namespace World

def newProcess (w : World) (p : Process) : World :=
  { w with procs := update w.procs (w.procCnt + 1) (some p), procCnt := w.procCnt + 1 }

def newTask (w : World) (pid : Pid) (other : Task) (ustack : UInt64) (k : TaskFrames) :
    Kern (Tid × World) :=
  match w.procs pid with
  | none => .error .wildPointer
  | some p => do
    let vmar ← p.vmar.map (Process.trapframeMapping k)
    let t := w.taskCnt + 1
    let (sp, vmar) ←
      if ustack = 0 then do
        let vmar ← vmar.map (Process.ustackMapping k)
        pure (UInt64.ofNat UserStackDefault, vmar)
      else pure (ustack, vmar)
    let task : Task := { proc := pid, prior := other.prior, ctx := other.ctx.set 1 sp }
    let sched ← (w.sched.setTask t ⟨other.prior, .Init⟩).add t
    .ok (t, { w with
      procs := update w.procs pid (some { p with vmar, tasks := t :: p.tasks })
      tasks := update w.tasks t (some task)
      taskCnt := t
      sched })

def clearA0 (w : World) (t : Tid) : Kern World :=
  match w.tasks t with
  | none => .error .wildPointer
  | some task =>
    .ok { w with tasks := update w.tasks t (some { task with ctx := task.ctx.set 9 0 }) }

def clone (w : World) (t : Tid) (raw : Process) (fresh : Fresh) (k : TaskFrames) :
    Kern (Pid × World) :=
  match w.tasks t with
  | none => .error .wildPointer
  | some task =>
    match w.procs task.proc with
    | none => .error .wildPointer
    | some p => do
      let pid := w.procCnt + 1
      let newproc ← Process.copy raw p pid fresh
      let (t, w) ← (w.newProcess newproc).newTask pid task task.ctx.sp k
      let w ← w.clearA0 t
      .ok (pid, w)

end World

/-! ## The address space of the child -/

section AddressSpace

variable {m : PageMapping} {fresh : Fresh}

/-- A copy of a mapping is plain if the mapping is: the copy of the VMO has as many pages. -/
theorem plain_clone (h : m.Plain) : (m.clone fresh).Plain := by
  obtain ⟨hfit, hwithin, hperm, hstart⟩ := h
  unfold PageMapping.clone
  by_cases hshared : m.sharing = shared
  · rw [if_pos hshared]
    exact ⟨hfit, hwithin, hperm, hstart⟩
  rw [if_neg hshared]
  unfold PageMapping.span at hfit
  cases hv : m.vmo with
  | paged len frame hl hf =>
    rw [hv] at hfit hwithin
    exact ⟨hfit, hwithin, hperm, fun hnot => absurd trivial hnot⟩
  | contiguous ppn pages hp =>
    rw [hv] at hfit hwithin hstart
    exact ⟨hfit, hwithin, hperm, hstart⟩

theorem mapAll_total (ms : List PageMapping) (f : PageMapping → PageMapping)
    (h : ∀ m ∈ ms, (f m).Plain) : ∀ s : VMAR, Sound s.pagetable →
      ∃ s', ms.foldlM (fun t m => VMAR.map t (f m)) s = .ok s' ∧ Sound s'.pagetable := by
  induction ms with
  | nil => exact fun s hs => ⟨s, rfl, hs⟩
  | cons m ms ih =>
    intro s hs
    obtain ⟨s1, hmap, -, hs1, -⟩ := VMAR.map_total (s := s) (h m List.mem_cons_self) hs
    obtain ⟨s', hrest, hs'⟩ := ih (fun m hm => h m (List.mem_cons_of_mem _ hm)) s1 hs1
    refine ⟨s', ?_, hs'⟩
    rw [List.foldlM_cons, hmap, ok_bind]
    exact hrest

theorem trapframe_plain (k : TaskFrames) : (Process.trapframeMapping k).Plain :=
  ⟨k.trapframe_fit, le_rfl, rfl, fun _ => rfl⟩

theorem ustack_plain (k : TaskFrames) : (Process.ustackMapping k).Plain := by
  refine ⟨?_, Nat.le_of_eq (Nat.zero_add _), rfl, fun _ => rfl⟩
  change addr2pn UstackBottom + bytes2pages UstackSize ≤ 2 ^ 27
  decide

theorem copy_total {s : VMAR} (h : s.All PageMapping.Plain) (fresh : Fresh) :
    ∃ s', s.copy fresh = .ok s' ∧ Sound s'.pagetable :=
  mapAll_total s.mappings.elems (PageMapping.clone · fresh) (fun m hm => plain_clone (h m hm)) _
    createPTNode_sound

end AddressSpace

/-! ## The child -/

/-- **The child of a fork**, as far as a fork is to copy its parent. -/
structure Copied (p c : Process) : Prop where
  parent : c.parent = p.id
  heapTop : c.heapTop = p.heapTop
  heapBottom : c.heapBottom = p.heapBottom
  files : c.files = p.files
  cwd : c.cwd = p.cwd
  umask : c.umask = p.umask
  rlimits : c.rlimits = p.rlimits
  users : c.ruid = p.ruid ∧ c.euid = p.euid ∧ c.suid = p.suid
  groups : c.rgid = p.rgid ∧ c.egid = p.egid ∧ c.sgid = p.sgid
  supgids : c.supgids = p.supgids
  pgid : c.pgid = p.pgid
  sid : c.sid = p.sid
  sigacts : ∀ sig, c.getSigAct sig = p.getSigAct sig

/-- The memory held what the constructor does not set. -/
structure Holds (raw p : Process) : Prop where
  umask : raw.umask = p.umask
  rlimits : raw.rlimits = p.rlimits
  users : raw.ruid = p.ruid ∧ raw.euid = p.euid ∧ raw.suid = p.suid
  groups : raw.rgid = p.rgid ∧ raw.egid = p.egid ∧ raw.sgid = p.sgid
  pgid : raw.pgid = p.pgid
  sid : raw.sid = p.sid

/-- The parent has nothing that the child does not start with. -/
structure Bare (raw p : Process) : Prop where
  heap : p.heapTop = p.heapBottom
  supgids : p.supgids = ∅
  sigacts : ∀ sig, p.getSigAct sig = defaultSigAct
  memory : Holds raw p

namespace World

/-- The ids are those that the counters gave out. -/
structure Numbered (w : World) : Prop where
  procs : ∀ i p, w.procs i = some p → p.id = i ∧ i ≤ w.procCnt
  tasks : ∀ t task, w.tasks t = some task → t ≤ w.taskCnt

/-- The processes and tasks from before are as they were. -/
structure Else (w w' : World) : Prop where
  procs : ∀ i ≤ w.procCnt, w'.procs i = w.procs i
  tasks : ∀ t ≤ w.taskCnt, w'.tasks t = w.tasks t

variable {w w' : World} {t : Tid} {task : Task} {p raw : Process} {fresh : Fresh} {k : TaskFrames}

/-- What a task adds to the tables. -/
theorem newTask_ok {pid : Pid} (task : Task) (ustack : UInt64) (k : TaskFrames)
    (hp : w.procs pid = some p) (hs : Sound p.vmar.pagetable) :
    ∃ w' vmar ctx, w.newTask pid task ustack k = .ok (w.taskCnt + 1, w') ∧
      w'.procs = update w.procs pid
        (some { p with vmar, tasks := (w.taskCnt + 1) :: p.tasks }) ∧
      w'.tasks = update w.tasks (w.taskCnt + 1) (some ⟨pid, task.prior, ctx⟩) := by
  obtain ⟨vmar, hmap, -, hs1, -⟩ := VMAR.map_total (s := p.vmar) (trapframe_plain k) hs
  obtain ⟨vmar', hmap', -⟩ := VMAR.map_total (s := vmar) (ustack_plain k) hs1
  obtain ⟨sched, hadd⟩ : ∃ s, (w.sched.setTask (w.taskCnt + 1) ⟨task.prior, .Init⟩).add
      (w.taskCnt + 1) = .ok s := by
    unfold Scheduler.add Scheduler.deref Scheduler.setTask
    dsimp only
    rw [update_self]
    exact ⟨_, rfl⟩
  unfold newTask
  rw [hp]
  dsimp only
  rw [hmap, ok_bind]
  by_cases hzero : ustack = 0
  · rw [if_pos hzero, hmap', ok_bind, pure_bind, hadd, ok_bind]
    exact ⟨_, _, _, rfl, rfl, rfl⟩
  · rw [if_neg hzero, pure_bind, hadd, ok_bind]
    exact ⟨_, _, _, rfl, rfl, rfl⟩

theorem clearA0_ok (h : w.tasks t = some task) : w.clearA0 t = .ok { w with
      tasks := update w.tasks t (some { task with ctx := task.ctx.set 9 0 }) } := by
  unfold clearA0
  rw [h]

theorem clone_ok (raw : Process) (fresh : Fresh) (k : TaskFrames) (ht : w.tasks t = some task)
    (hp : w.procs task.proc = some p) (hplain : p.vmar.All PageMapping.Plain) :
    ∃ w' vmar, w.clone t raw fresh k = .ok (w.procCnt + 1, w') ∧ Else w w' ∧
      w'.procs (w.procCnt + 1) = some { raw.initialised p (w.procCnt + 1) vmar with
        tasks := [w.taskCnt + 1] } := by
  obtain ⟨vmar, hcopy, hs⟩ := copy_total hplain fresh
  have hproc : (w.newProcess (raw.initialised p (w.procCnt + 1) vmar)).procs (w.procCnt + 1) =
      some (raw.initialised p (w.procCnt + 1) vmar) := update_self ..
  obtain ⟨w1, vmar', ctx, hnew, hprocs, htasks⟩ := newTask_ok task task.ctx.sp k hproc hs
  have hclear := clearA0_ok (htasks ▸ update_self ..)
  unfold clone
  rw [ht]
  dsimp only
  rw [hp]
  dsimp only
  unfold Process.copy
  rw [hcopy, ok_bind, ok_bind, hnew, ok_bind]
  rw [show (w.newProcess (raw.initialised p (w.procCnt + 1) vmar)).taskCnt = w.taskCnt from rfl]
    at htasks hclear ⊢
  rw [hclear, ok_bind]
  refine ⟨_, vmar', rfl, ⟨fun i hi => ?_, fun u hu => ?_⟩, ?_⟩
  · have hne : i ≠ w.procCnt + 1 := by omega
    rw [hprocs, update_of_ne hne]
    exact update_of_ne hne ..
  · have hne : u ≠ w.taskCnt + 1 := by omega
    dsimp only
    rw [update_of_ne hne, htasks, update_of_ne hne]
    rfl
  · rw [hprocs, update_self]
    rfl

/-- **A fork copies its process** exactly if the parent has nothing the child does not start with:
no heap, supplementary groups or signal actions, and by chance the rest. -/
theorem clone_copies (raw : Process) (fresh : Fresh) (k : TaskFrames) (hw : w.Numbered)
    (ht : w.tasks t = some task) (hp : w.procs task.proc = some p)
    (hplain : p.vmar.All PageMapping.Plain) :
    (∃ pid w' c, w.clone t raw fresh k = .ok (pid, w') ∧ w'.procs pid = some c ∧ Copied p c ∧
        w'.procs p.id = some p ∧ Else w w') ↔ Bare raw p := by
  obtain ⟨w₁, vmar, hclone, helse, hchild⟩ := clone_ok raw fresh k ht hp hplain
  obtain ⟨hid, hle⟩ := hw.procs task.proc p hp
  constructor
  · rintro ⟨pid, w', c, h, hc, hcopied, -⟩
    rw [hclone] at h
    cases h
    rw [hchild] at hc
    cases hc
    exact ⟨hcopied.heapTop.symm, hcopied.supgids.symm, fun sig => (hcopied.sigacts sig).symm,
      hcopied.umask, hcopied.rlimits, hcopied.users, hcopied.groups, hcopied.pgid, hcopied.sid⟩
  · rintro ⟨hheap, hgroups, hacts, hmem⟩
    refine ⟨_, w₁, _, hclone, hchild, ?_, ?_, helse⟩
    · exact ⟨rfl, hheap.symm, rfl, rfl, rfl, hmem.umask, hmem.rlimits, hmem.users, hmem.groups,
        hgroups.symm, hmem.pgid, hmem.sid, fun sig => (hacts sig).symm⟩
    · rw [hid, helse.procs _ hle, hp]

def codePage : PageMapping :=
  { vpn := 4, len := 1, offset := 0, vmo := .contiguous 0x90 1 (by decide)
    perm := { v := true, r := true, x := true, u := true } }

def shell : Process :=
  { id := 1, prior := 0, state := .Running, parent := 0
    vmar := ⟨KeyedSet.empty.insert codePage, createPTNode⟩, heapTop := 0x5000
    heapBottom := 0x5000, tasks := [1], files := fun i => if i.val = 0 then some 7 else none, name := "sh", exe := "/sh"
    cwd := none, exitstatus := 0, sigacts := fun _ => none, pgid := 1, sid := 1, ruid := 0
    euid := 0, suid := 0, rgid := 0, egid := 0, sgid := 0, supgids := ∅, umask := 0o22
    rlimits := fun _ => ⟨1024, 1024⟩ }

def grown : Process := { shell with heapTop := 0x6000 }

def running (p : Process) : World :=
  { procs := fun i => if i = 1 then some p else none, procCnt := 1
    tasks := fun t => if t = 1 then some ⟨1, 0, ⟨fun _ => 0, 0⟩⟩ else none, taskCnt := 1
    sched := { task := fun _ => none, ready := fun _ => [], pending := ∅ } }

theorem shell_plain : shell.vmar.All PageMapping.Plain := by
  intro m hm
  obtain rfl := (KeyedSet.mem_of_mem_insert hm).resolve_right (KeyedSet.not_mem_empty m)
  exact ⟨by decide, by decide, by decide, fun _ => rfl⟩

theorem running_numbered (h : p.id = 1) : (running p).Numbered := by
  refine ⟨fun i q hq => ?_, fun t task ht => ?_⟩
  · unfold running at hq
    dsimp only at hq
    split at hq
    · next hi =>
      cases hq
      exact ⟨h.trans hi.symm, Nat.le_of_eq hi⟩
    · cases hq
  · unfold running at ht
    dsimp only at ht
    split at ht
    · next hi => exact Nat.le_of_eq hi
    · cases ht

def someFrames : Fresh :=
  ⟨fun _ => ⟨fun _ => 0, fun _ => Nat.two_pow_pos 44⟩, fun _ _ => 0, by simp⟩

def taskFrames : TaskFrames := ⟨0x80, 0x100, by decide, by decide⟩

/-- A shell with a page of code and a file, over memory that held the like. -/
theorem clone_copies_shell :
    ∃ pid w' c, (running shell).clone 1 shell someFrames taskFrames = .ok (pid, w') ∧
      w'.procs pid = some c ∧ Copied shell c ∧ w'.procs shell.id = some shell ∧
      Else (running shell) w' :=
  (clone_copies shell someFrames taskFrames (running_numbered rfl) rfl rfl shell_plain).2
    ⟨rfl, rfl, fun _ => rfl, rfl, rfl, ⟨rfl, rfl, rfl⟩, ⟨rfl, rfl, rfl⟩, rfl, rfl⟩

/-- A shell with a page of heap has a child without it, also over memory that held the like. -/
theorem not_clone_copies :
    ¬∃ pid w' c, (running grown).clone 1 shell someFrames taskFrames = .ok (pid, w') ∧
      w'.procs pid = some c ∧ Copied grown c := by
  rintro ⟨pid, w', c, h, hc, hcopied⟩
  obtain ⟨w₁, vmar, hclone, -, hchild⟩ := clone_ok (w := running grown) (t := 1)
    shell someFrames taskFrames rfl rfl shell_plain
  rw [hclone] at h
  cases h
  rw [hchild] at hc
  cases hc
  have htop : (0x5000 : Nat) = 0x6000 := hcopied.heapTop
  exact absurd htop (by decide)

end World

end LuoOS.Proc
