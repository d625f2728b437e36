import LuoOS.Ipc.SigMask
import LuoOS.Sched.Scheduler

/-!
# Processes and their death

The scheduler of `kernel/sched.cc` under the processes of `kernel/proc.cc`, with the ways a process
dies: its last task exits, `exitGroup`, or a signal whose default action ends it. The first two make
all its tasks zombies first, so the scheduler never returns them again (`dead_of_survivable`).
`sigExitHandler` only calls `Process::exit`, which does not look at the tasks: the current one runs
on (`not_dead_killed`).
-/

namespace LuoOS.Sched

open Signal Runs Function Scheduler

/-- The members of a process that its death is about. -/
structure Process where
  state : State
  parent : Pid
  /-- An `unordered_set`, in the order of its iterators. -/
  tasks : List Tid
  exitstatus : Int

/-- What `Process::exit` leaves of a process until its parent reaps it. -/
def Process.zombie (p : Process) (status : Int) : Process :=
  { p with state := .Zombie, exitstatus := status }

/-- All tasks and processes. -/
structure Kernel where
  sched : Scheduler
  sig : SigSystem
  taskCnt : Nat
  procs : Pid → Option Process
  procCnt : Nat

namespace Kernel

def curtask (k : Kernel) : Tid := k.sig.curtask

def curproc (k : Kernel) : Pid := k.sig.proc k.curtask

def proc (k : Kernel) (pid : Pid) : Kern Process :=
  match k.procs pid with
  | some p => .ok p
  | none => .error .wildPointer

def setProc (k : Kernel) (pid : Pid) (p : Process) : Kernel :=
  { k with procs := update k.procs pid (some p) }

def defaultTask (p : Process) : Kern Tid :=
  match p.tasks with
  | t :: _ => .ok t
  | [] => .error (.assertion "!tasks.empty()")

def newTask (k : Kernel) (pid : Pid) (prior : Fin (maxPrior + 1)) (ctx : Context) : Kern Kernel := do
  let t := k.taskCnt + 1
  let p ← k.proc pid
  let s ← (k.sched.setTask t ⟨prior, .Init⟩).add t
  let sig := { k.sig with task := update k.sig.task t SigTask.new
                          ctx := update k.sig.ctx t ctx
                          proc := update k.sig.proc t pid }
  .ok (setProc { k with sched := s, sig := sig, taskCnt := t } pid { p with tasks := t :: p.tasks })

def newProcess (k : Kernel) (parent : Pid) (mem : Vm.UserMem) : Kernel :=
  let pid := k.procCnt + 1
  let sig := { k.sig with mem := update k.sig.mem pid mem
                          sigacts := update k.sig.sigacts pid fun _ => none }
  setProc { k with sig := sig, procCnt := pid } pid ⟨.Init, parent, [], 0⟩

def schedule (k : Kernel) : Kern (Kernel × Option Tid) := do
  let (t, s) ← k.sched.schedule k.curtask
  .ok ({ k with sched := s, sig := { k.sig with curtask := t } }, some t)

def wakeup (k : Kernel) (t : Tid) : Kern Kernel := do
  let s ← k.sched.wakeup t
  .ok { k with sched := s }

def sigSend (k : Kernel) (p : Process) (sig : Nat) : Kernel :=
  match p.tasks.find? fun t => bit (sig - 1) &&& (k.sig.task t).sigmask = 0 with
  | some t =>
    { k with sig := { k.sig with
        task := update k.sig.task t (Signal.sigSend (k.sig.task t) sig none) } }
  | none => k

def processExit (k : Kernel) (pid : Pid) (status : Int) : Kern (Kernel × Option Tid) := do
  let p ← k.proc pid
  let k := k.setProc pid (p.zombie status)
  let parent ← k.proc p.parent
  let t ← defaultTask parent
  let k ← k.wakeup t
  k.schedule

def wakeWaiter (k : Kernel) : Option Tid → Kern Kernel
  | some t => k.wakeup t
  | none => .ok k

def taskExit (k : Kernel) (status : Int) (waiter : Option Tid) : Kern (Kernel × Option Tid) := do
  let pid := k.curproc
  let s ← k.sched.retire k.curtask
  let p ← k.proc pid
  let p := { p with tasks := p.tasks.erase k.curtask }
  let k := setProc { k with sched := s } pid p
  let k ← k.wakeWaiter waiter
  if p.tasks = [] then k.processExit pid status else (k.sigSend p SIGCHLD).schedule

def exitGroup (k : Kernel) (status : Int) : Kern (Kernel × Option Tid) := do
  let p ← k.proc k.curproc
  let s ← p.tasks.foldlM retire k.sched
  processExit { k with sched := s } k.curproc status

def sigExitHandler (k : Kernel) (sig : Nat) : Kern (Kernel × Option Tid) :=
  k.processExit k.curproc (128 + sig)

def sigDumpHandler (k : Kernel) (sig : Nat) : Kern (Kernel × Option Tid) := do
  let p ← k.proc k.curproc
  let parent ← k.proc p.parent
  (k.sigSend parent SIGCHLD).sigExitHandler sig

/-- `sigHandler` with the default actions; stopping and continuing are not implemented. -/
def sigHandler (func : UInt64) (junk : Junk) (k : Kernel) : Kern (Kernel × Option Tid) := do
  let signum := (pickSignal k.sig.cur.sig).getD 0
  let (d, u) ← Signal.sigHandler func junk k.sig.cur
  let k := { k with sig := k.sig.setCur u }
  match d with
  | some .exit => k.sigExitHandler signum
  | some .dump => k.sigDumpHandler signum
  | _ => .ok (k, none)

def zombieExit (k : Kernel) (pid : Pid) (p : Process) : Kernel :=
  let procs := fun i => (k.procs i).map fun q =>
    if i < 512 ∧ q.parent = pid then { q with parent := p.parent } else q
  { k with procs := update procs pid none }

/-- What the tasks do, and the kernel to them. -/
inductive Op where
  | newThread (ctx : Context)
  | clone (ctx : Context)
  | createProcess (prior : Fin (maxPrior + 1)) (ctx : Context) (mem : Vm.UserMem)
  | yield
  | sleep
  | wakeup (t : Tid)
  | exit (status : Int) (waiter : Option Tid)
  | exitGroup (status : Int)
  | waitpid (pid : Pid)
  | sigHandler (junk : Junk)
  | sigSend (t : Tid) (sig : Nat) (info : Option SigInfo)
  /-- The current task runs user code, or makes one of the calls that change its signals. -/
  | run (ctx : Context) (mem : Vm.UserMem)
  | sigAction (sig : Int) (nact : Option SigAct)
  | sigProcMask (how : Int) (nset : Option UInt64) (sigsetsize : Nat)
  | sigReturn

def sigStep (func : UInt64) (k : Kernel) (op : SigSystem.Op) : Kern (Kernel × Option Tid) := do
  let sig ← k.sig.step func op
  .ok ({ k with sig := sig }, none)

def stepOut (func : UInt64) (k : Kernel) : Op → Kern (Kernel × Option Tid)
  | .newThread ctx => do
    let o ← k.sched.deref k.curtask
    let k ← k.newTask k.curproc o.prior ctx
    .ok (k, none)
  | .clone ctx => do
    let o ← k.sched.deref k.curtask
    let k ← (k.newProcess k.curproc (k.sig.mem k.curproc)).newTask (k.procCnt + 1) o.prior ctx
    .ok (k, none)
  | .createProcess prior ctx mem => do
    let k ← (k.newProcess 0 mem).newTask (k.procCnt + 1) prior ctx
    .ok (k, none)
  | .yield => k.schedule
  | .sleep => do
    let s ← k.sched.sleep k.curtask
    schedule { k with sched := s }
  | .wakeup t => do
    let k ← k.wakeup t
    .ok (k, none)
  | .exit status waiter => k.taskExit status waiter
  | .exitGroup status => k.exitGroup status
  | .waitpid pid => do
    let p ← k.proc pid
    if p.state = .Zombie then .ok (k.zombieExit pid p, none) else .ok (k, none)
  | .sigHandler junk => k.sigHandler func junk
  | .sigSend t sig info => k.sigStep func (.sigSend t sig info)
  | .run ctx mem => k.sigStep func (.run ctx mem)
  | .sigAction sig nact => k.sigStep func (.sigAction sig nact)
  | .sigProcMask how nset sigsetsize => k.sigStep func (.sigProcMask how nset sigsetsize)
  | .sigReturn => k.sigStep func .sigReturn

def step (func : UInt64) (k : Kernel) (op : Op) : Kern Kernel := do
  let (k, _) ← k.stepOut func op
  .ok k

def Op.Survivable (k : Kernel) : Op → Prop
  | .sigHandler _ => ∀ signum ∈ pickSignal k.sig.cur.sig,
      disposition signum (getSigAct k.sig.cur.sigacts (signum - 1)) ≠ .exit ∧
        disposition signum (getSigAct k.sig.cur.sigacts (signum - 1)) ≠ .dump
  | _ => True

/-! ## Live tasks have live processes -/

/-- What holds also while the current task is on its way out: every task that is not a zombie is one
of the tasks of a process that is not one. -/
structure Base (k : Kernel) : Prop where
  ready : ReadyLive k.sched
  alive : ∀ t o, k.sched.task t = some o → o.state ≠ .Zombie →
    ∃ p, k.procs (k.sig.proc t) = some p ∧ p.state ≠ .Zombie ∧ t ∈ p.tasks
  freshTask : ∀ t o, k.sched.task t = some o → t ≤ k.taskCnt
  freshProc : ∀ pid p, k.procs pid = some p → pid ≤ k.procCnt

/-- The invariant between two steps. -/
structure Inv (k : Kernel) : Prop extends Base k where
  cur : ∃ o, k.sched.task k.curtask = some o ∧ o.Live

def Dead (k : Kernel) (pid : Pid) : Prop := ∃ p, k.procs pid = some p ∧ p.state = .Zombie

def Gone (k : Kernel) (pid : Pid) : Prop := k.Dead pid ∨ k.procs pid = none ∧ pid ≤ k.procCnt

/-- A process that is gone stays gone. -/
structure Ages (k k' : Kernel) : Prop where
  procCnt : k.procCnt ≤ k'.procCnt
  gone : ∀ pid, k.Gone pid → k'.Gone pid

section Steps

variable {k k' k'' : Kernel} {pid : Pid} {p q : Process} {t : Tid} {out waiter : Option Tid}

theorem proc_eq_ok (h : k.proc pid = .ok p) : k.procs pid = some p := by
  unfold proc at h
  split at h
  · rename_i q hq
    rw [hq, Except.ok.inj h]
  · cases h

@[simp] theorem procs_setProc (i : Pid) :
    (k.setProc pid p).procs i = if i = pid then some p else k.procs i :=
  update_apply ..

namespace Ages

theorem refl (k : Kernel) : Ages k k := ⟨le_rfl, fun _ => id⟩

theorem trans (h : Ages k k') (h' : Ages k' k'') : Ages k k'' :=
  ⟨h.procCnt.trans h'.procCnt, fun pid hgone => h'.gone pid (h.gone pid hgone)⟩

theorem of_procs (hcnt : k'.procCnt = k.procCnt) (hprocs : k'.procs = k.procs) : Ages k k' := by
  refine ⟨hcnt.ge, fun pid hgone => ?_⟩
  unfold Gone Dead at hgone ⊢
  rwa [hcnt, hprocs]

/-- A process stays a zombie when it is changed. -/
theorem setProc (hp : k.procs pid = some p)
    (hq : p.state = .Zombie → q.state = .Zombie) : Ages k (k.setProc pid q) := by
  refine ⟨le_rfl, fun i hgone => ?_⟩
  unfold Gone Dead at hgone ⊢
  rw [procs_setProc]
  split
  · rename_i heq
    subst heq
    rcases hgone with ⟨p', hp', hz⟩ | ⟨hnone, -⟩
    · rw [hp] at hp'
      cases hp'
      exact .inl ⟨q, rfl, hq hz⟩
    · rw [hp] at hnone
      cases hnone
  · exact hgone

end Ages

variable {status : Int} {prior : Fin (maxPrior + 1)} {ctx : Context}

namespace Base

section

variable (h : Base k)
include h

theorem gone_le (hgone : k.Gone pid) : pid ≤ k.procCnt := by
  rcases hgone with ⟨p, hp, -⟩ | ⟨-, hle⟩
  · exact h.freshProc pid p hp
  · exact hle

theorem setSched {s : Scheduler} (hready : ReadyLive s) (hnone : NoRevival k.sched s) :
    Base { k with sched := s } := by
  refine ⟨hready, fun t o ht hz => ?_, fun t o ht => ?_, h.freshProc⟩
  · obtain ⟨o', ht', hz'⟩ := hnone t o ht
    exact h.alive t o' ht' fun hzombie => hz (hz' hzombie)
  · obtain ⟨o', ht', -⟩ := hnone t o ht
    exact h.freshTask t o' ht'

theorem setSig {sig : SigSystem} (hproc : sig.proc = k.sig.proc) : Base { k with sig := sig } := by
  refine ⟨h.ready, fun t o ht hz => ?_, h.freshTask, h.freshProc⟩
  rw [hproc]
  exact h.alive t o ht hz

theorem setProc (hp : k.procs pid = some p)
    (hq : ∀ t o, k.sched.task t = some o → o.state ≠ .Zombie → k.sig.proc t = pid →
      p.state ≠ .Zombie → t ∈ p.tasks → q.state ≠ .Zombie ∧ t ∈ q.tasks) :
    Base (k.setProc pid q) := by
  refine ⟨h.ready, fun t o ht hz => ?_, h.freshTask, fun i p' hi => ?_⟩
  · obtain ⟨p', hp', hstate, hmem⟩ := h.alive t o ht hz
    rw [procs_setProc]
    split
    · rename_i heq
      have heq' : k.sig.proc t = pid := heq
      rw [heq', hp] at hp'
      cases hp'
      exact ⟨q, rfl, hq t o ht hz heq' hstate hmem⟩
    · exact ⟨p', hp', hstate, hmem⟩
  · rw [procs_setProc] at hi
    split at hi
    · rename_i heq
      exact heq ▸ h.freshProc pid p hp
    · exact h.freshProc i p' hi

theorem wakeup (hwake : k.wakeup t = .ok k') :
    Base k' ∧ k'.procs = k.procs ∧ k'.procCnt = k.procCnt ∧ k'.sig = k.sig := by
  obtain ⟨s, hsched, hwake⟩ := bind_eq_ok hwake
  cases hwake
  exact ⟨h.setSched (h.ready.wakeup hsched) (.wakeup hsched), rfl, rfl, rfl⟩

theorem wakeWaiter (hwake : k.wakeWaiter waiter = .ok k') :
    Base k' ∧ k'.procs = k.procs ∧ k'.procCnt = k.procCnt ∧ k'.sig = k.sig := by
  cases waiter with
  | none =>
    cases hwake
    exact ⟨h, rfl, rfl, rfl⟩
  | some t => exact h.wakeup hwake

theorem schedule (hsched : k.schedule = .ok (k', out)) :
    Inv k' ∧ Ages k k' ∧ out = some k'.curtask := by
  obtain ⟨⟨t, s⟩, hchoice, hstep⟩ := bind_eq_ok hsched
  cases hstep
  have hnone := NoRevival.schedule hchoice
  obtain ⟨s1, i, ts, hadd, hready, rfl⟩ := schedule_eq hchoice
  have hlive := h.ready.add hadd
  obtain ⟨o, ho, -, hcur⟩ := hlive i t (hready ▸ List.mem_cons_self)
  have hbase := h.setSched (hlive.pop hready) hnone
  exact ⟨⟨hbase.setSig rfl, o, ho, hcur⟩, .of_procs rfl rfl, rfl⟩

theorem processExit (hp : k.procs pid = some p)
    (hdead : ∀ t o, k.sched.task t = some o → k.sig.proc t = pid → t ∈ p.tasks → o.state = .Zombie)
    (hexit : k.processExit pid status = .ok (k', out)) :
    Inv k' ∧ Ages k k' ∧ out = some k'.curtask := by
  obtain ⟨p', hp', hexit⟩ := bind_eq_ok hexit
  obtain rfl := Option.some.inj (hp.symm.trans (proc_eq_ok hp'))
  obtain ⟨parent, -, hexit⟩ := bind_eq_ok hexit
  obtain ⟨t, -, hexit⟩ := bind_eq_ok hexit
  obtain ⟨k1, hwake, hsched⟩ := bind_eq_ok hexit
  have hbase : Base (k.setProc pid (p.zombie status)) :=
    h.setProc hp fun t o ht hz hpid _ hmem => absurd (hdead t o ht hpid hmem) hz
  obtain ⟨hbase1, hprocs, hcnt, -⟩ := hbase.wakeup hwake
  obtain ⟨hinv, hages, hout⟩ := hbase1.schedule hsched
  exact ⟨hinv, ((Ages.setProc hp fun _ => rfl).trans (.of_procs hcnt hprocs)).trans hages, hout⟩

theorem sigSend (p : Process) (sig : Nat) : Base (k.sigSend p sig) ∧ Ages k (k.sigSend p sig) := by
  unfold Kernel.sigSend
  split
  · exact ⟨h.setSig rfl, .of_procs rfl rfl⟩
  · exact ⟨h, .refl k⟩

theorem newTask (hp : k.procs pid = some p)
    (hstate : p.state ≠ .Zombie) (hnew : k.newTask pid prior ctx = .ok k') :
    Base k' ∧ Ages k k' ∧ k'.curtask = k.curtask ∧
      ∀ t o, k.sched.task t = some o → k'.sched.task t = some o := by
  obtain ⟨p', hp', hnew⟩ := bind_eq_ok hnew
  obtain rfl := Option.some.inj (hp.symm.trans (proc_eq_ok hp'))
  obtain ⟨s, hadd, hnew⟩ := bind_eq_ok hnew
  cases hnew
  have htask := task_add hadd
  have hlt : ∀ t o, k.sched.task t = some o → t ≠ k.taskCnt + 1 :=
    fun t o ht => Nat.ne_of_lt (Nat.lt_succ_of_le (h.freshTask t o ht))
  have hnot : ∀ i, k.taskCnt + 1 ∉ k.sched.ready i := by
    intro i hmem
    obtain ⟨o, ho, -⟩ := h.ready i _ hmem
    exact hlt _ o ho rfl
  have hkeep : ∀ t o, k.sched.task t = some o → s.task t = some o := by
    intro t o ht
    rw [htask, task_setTask, if_neg (hlt t o ht)]
    exact ht
  refine ⟨⟨(h.ready.setTask hnot).add hadd, fun t o ht hz => ?_, fun t o ht => ?_,
    fun i q hi => ?_⟩, ?_, rfl, hkeep⟩
  · have ht' : s.task t = some o := ht
    rw [htask, task_setTask] at ht'
    split at ht'
    · rename_i heq
      subst heq
      simp [Kernel.setProc, hstate]
    rename_i hne
    obtain ⟨q, hq, hq', hmem⟩ := h.alive t o ht' hz
    simp only [Kernel.setProc, update_of_ne hne, update_apply]
    split
    · rename_i heq
      rw [heq, hp] at hq
      cases hq
      exact ⟨_, rfl, hq', List.mem_cons_of_mem _ hmem⟩
    · exact ⟨q, hq, hq', hmem⟩
  · have ht' : s.task t = some o := ht
    rw [htask, task_setTask] at ht'
    split at ht'
    · rename_i heq
      exact Nat.le_of_eq heq
    · exact Nat.le_succ_of_le (h.freshTask t o ht')
  · rw [procs_setProc] at hi
    split at hi
    · rename_i heq
      exact heq ▸ h.freshProc pid p hp
    · exact h.freshProc i q hi
  · exact (Ages.setProc (q := { p with tasks := (k.taskCnt + 1) :: p.tasks }) hp id).trans
      (.of_procs rfl rfl)

end

end Base

namespace Inv

theorem taskExit (h : Inv k) (hexit : k.taskExit status waiter = .ok (k', out)) :
    Inv k' ∧ Ages k k' ∧ out = some k'.curtask := by
  obtain ⟨s, hretire, hexit⟩ := bind_eq_ok hexit
  obtain ⟨p, hproc, hexit⟩ := bind_eq_ok hexit
  obtain ⟨k2, hwait, hlast⟩ := bind_eq_ok hexit
  have hp := proc_eq_ok hproc
  have hnone := NoRevival.retire hretire
  obtain ⟨o, ho, rfl⟩ := retire_eq hretire
  obtain ⟨q, hq⟩ : ∃ q, q = { p with tasks := p.tasks.erase k.curtask } := ⟨_, rfl⟩
  rw [← hq] at hwait hlast
  -- the task that exits is the only one taken from the process, and is a zombie
  have hbase : Base (Kernel.setProc { k with sched := k.sched.suspend k.curtask o .Zombie } k.curproc
      q) := by
    refine (h.toBase.setSched (h.ready.suspend ho _) hnone).setProc hp
      fun t o' ht hz hpid hstate hmem => ?_
    have hne : t ≠ k.curtask := by
      rintro rfl
      simp at ht
      exact hz (ht ▸ rfl)
    subst hq
    exact ⟨hstate, (List.mem_erase_of_ne hne).2 hmem⟩
  have hages : Ages k (Kernel.setProc { k with sched := k.sched.suspend k.curtask o .Zombie } k.curproc
      q) := by
    subst hq
    exact (Ages.setProc (q := { p with tasks := p.tasks.erase k.curtask }) hp id).trans
      (.of_procs rfl rfl)
  obtain ⟨hbase2, hprocs, hcnt, hsig⟩ := hbase.wakeWaiter hwait
  have hages2 := hages.trans (.of_procs hcnt hprocs)
  split at hlast
  · rename_i hempty
    have hq2 : k2.procs k.curproc = some q := by
      rw [hprocs]
      simp
    obtain ⟨hinv, hages3, hout⟩ := hbase2.processExit hq2
      (fun t o _ _ hmem => absurd (hempty ▸ hmem) List.not_mem_nil) hlast
    exact ⟨hinv, hages2.trans hages3, hout⟩
  · obtain ⟨hbase3, hages3⟩ := hbase2.sigSend q SIGCHLD
    obtain ⟨hinv, hages4, hout⟩ := hbase3.schedule hlast
    exact ⟨hinv, (hages2.trans hages3).trans hages4, hout⟩

theorem retireAll {s s' : Scheduler} {ts : List Tid} (hready : ReadyLive s)
    (hretire : ts.foldlM retire s = .ok s') :
    ReadyLive s' ∧ NoRevival s s' ∧ ∀ t ∈ ts, ∀ o, s'.task t = some o → o.state = .Zombie := by
  induction ts generalizing s with
  | nil =>
    obtain rfl := Except.ok.inj hretire
    exact ⟨hready, .refl s, fun t ht => absurd ht List.not_mem_nil⟩
  | cons t ts ih =>
    obtain ⟨s1, hfirst, hrest⟩ := bind_eq_ok hretire
    have hnone1 := NoRevival.retire hfirst
    obtain ⟨o, ht, rfl⟩ := retire_eq hfirst
    obtain ⟨hready', hnone, hzombie⟩ := ih (hready.suspend ht _) hrest
    refine ⟨hready', hnone1.trans hnone, fun u hu o' ho' => ?_⟩
    rcases List.mem_cons.1 hu with rfl | hu
    · -- it was made a zombie first, and the rest does not bring it back
      obtain ⟨o1, ho1, hz⟩ := hnone u o' ho'
      rw [task_suspend, if_pos rfl] at ho1
      exact hz (Option.some.inj ho1 ▸ rfl)
    · exact hzombie u hu o' ho'

section

variable (h : Inv k)
include h

theorem exitGroup (hexit : k.exitGroup status = .ok (k', out)) :
    Inv k' ∧ Ages k k' ∧ out = some k'.curtask := by
  obtain ⟨p, hp, hexit⟩ := bind_eq_ok hexit
  obtain ⟨s, hretire, hexit⟩ := bind_eq_ok hexit
  obtain ⟨hready, hnone, hzombie⟩ := retireAll h.ready hretire
  have hbase := h.toBase.setSched hready hnone
  obtain ⟨hinv, hages, hout⟩ := hbase.processExit (proc_eq_ok hp)
    (fun t o ht _ hmem => hzombie t hmem o ht) hexit
  have hages0 : Ages k { k with sched := s } := .of_procs rfl rfl
  exact ⟨hinv, hages0.trans hages, hout⟩

theorem newProcess {parent : Pid} {mem : Vm.UserMem}
    (hnew : (k.newProcess parent mem).newTask (k.procCnt + 1) prior ctx = .ok k') :
    Inv k' ∧ Ages k k' := by
  have hlt : ∀ pid p, k.procs pid = some p → pid ≠ k.procCnt + 1 :=
    fun pid p hp => Nat.ne_of_lt (Nat.lt_succ_of_le (h.freshProc pid p hp))
  have hbase : Base (k.newProcess parent mem) := by
    refine ⟨h.ready, fun t o ht hz => ?_, h.freshTask, fun pid p hp => ?_⟩
    · obtain ⟨p, hp, hrest⟩ := h.alive t o ht hz
      refine ⟨p, ?_, hrest⟩
      unfold Kernel.newProcess
      rw [procs_setProc]
      exact (if_neg (hlt _ p hp)).trans hp
    · unfold Kernel.newProcess at hp
      rw [procs_setProc] at hp
      split at hp
      · rename_i heq
        exact Nat.le_of_eq heq
      · exact Nat.le_succ_of_le (h.freshProc pid p hp)
  have hages : Ages k (k.newProcess parent mem) := by
    refine ⟨Nat.le_succ _, fun pid hgone => ?_⟩
    have hne : pid ≠ k.procCnt + 1 := Nat.ne_of_lt (Nat.lt_succ_of_le (h.gone_le hgone))
    unfold Gone Dead Kernel.newProcess
    rw [procs_setProc, if_neg hne]
    exact hgone.imp_right fun hnone => ⟨hnone.1, Nat.le_succ_of_le hnone.2⟩
  obtain ⟨hbase', hages', hcur, hkeep⟩ := hbase.newTask (p := ⟨.Init, parent, [], 0⟩)
    (by simp [Kernel.newProcess]) (by simp) hnew
  obtain ⟨o, ho, hlive⟩ := h.cur
  refine ⟨⟨hbase', o, ?_, hlive⟩, hages.trans hages'⟩
  rw [hcur]
  exact hkeep _ o ho

theorem zombieExit (hp : k.procs pid = some p) (hz : p.state = .Zombie) :
    Inv (k.zombieExit pid p) ∧ Ages k (k.zombieExit pid p) := by
  have hother : ∀ i q, i ≠ pid → k.procs i = some q →
      ∃ q', (k.zombieExit pid p).procs i = some q' ∧ q'.state = q.state ∧ q'.tasks = q.tasks := by
    intro i q hne hq
    unfold Kernel.zombieExit
    dsimp only
    rw [update_of_ne hne, hq, Option.map_some]
    split <;> exact ⟨_, rfl, rfl, rfl⟩
  have hnone : ∀ i, k.procs i = none → (k.zombieExit pid p).procs i = none := by
    intro i hi
    unfold Kernel.zombieExit
    dsimp only
    rw [update_apply, hi]
    split <;> rfl
  refine ⟨⟨⟨h.ready, fun t o ht hlive => ?_, h.freshTask, fun i q hi => ?_⟩, h.cur⟩, le_rfl,
    fun i hgone => ?_⟩
  · obtain ⟨q, hq, hstate, hmem⟩ := h.alive t o ht hlive
    have hne : k.sig.proc t ≠ pid := by
      intro heq
      rw [heq, hp] at hq
      exact hstate (Option.some.inj hq ▸ hz)
    obtain ⟨q', hq', hstate', htasks⟩ := hother _ q hne hq
    exact ⟨q', hq', hstate' ▸ hstate, htasks ▸ hmem⟩
  · cases hk : k.procs i with
    | none =>
      rw [hnone i hk] at hi
      cases hi
    | some q' => exact h.freshProc i q' hk
  · rcases eq_or_ne i pid with rfl | hne
    · refine .inr ⟨?_, h.freshProc i p hp⟩
      simp [Kernel.zombieExit]
    rcases hgone with ⟨q, hq, hstate⟩ | ⟨hi, hle⟩
    · obtain ⟨q', hq', hstate', -⟩ := hother i q hne hq
      exact .inl ⟨q', hq', hstate'.trans hstate⟩
    · exact .inr ⟨hnone i hi, hle⟩

theorem setSig (sig : SigSystem) (hproc : sig.proc = k.sig.proc)
    (hcur : sig.curtask = k.sig.curtask) :
    Inv { k with sig := sig } ∧ Ages k { k with sig := sig } := by
  refine ⟨⟨h.toBase.setSig hproc, ?_⟩, .of_procs rfl rfl⟩
  unfold curtask
  rw [hcur]
  exact h.cur

variable {func : UInt64}

theorem sigHandler {junk : Junk} (hok : (Op.sigHandler junk).Survivable k)
    (hhandler : k.sigHandler func junk = .ok (k', out)) : Inv k' ∧ Ages k k' ∧ out = none := by
  obtain ⟨⟨d, u⟩, hsig, hhandler⟩ := bind_eq_ok hhandler
  have hd := sigHandler_disposition hsig
  have hne : ∀ d', d' = .exit ∨ d' = .dump → d ≠ some d' := by
    rintro d' hd' rfl
    obtain ⟨signum, hpick, hdisp⟩ := Option.map_eq_some_iff.1 hd.symm
    obtain ⟨hexit, hdump⟩ := hok signum hpick
    rcases hd' with rfl | rfl
    · exact hexit hdisp
    · exact hdump hdisp
  dsimp only at hhandler
  split at hhandler
  · exact absurd rfl (hne .exit (.inl rfl))
  · exact absurd rfl (hne .dump (.inr rfl))
  · cases hhandler
    obtain ⟨hinv, hages⟩ := h.setSig (k.sig.setCur u) rfl rfl
    exact ⟨hinv, hages, rfl⟩

theorem sigStep {op : SigSystem.Op}
    (hswitch : ∀ t, op ≠ .switchTo t) (hnew : ∀ t pid ctx, op ≠ .newTask t pid ctx)
    (hstep : k.sigStep func op = .ok (k', out)) : Inv k' ∧ Ages k k' ∧ out = none := by
  obtain ⟨sig, hsig, hstep⟩ := bind_eq_ok hstep
  cases hstep
  obtain ⟨hproc, hcur⟩ := SigSystem.step_keeps hsig hswitch hnew
  obtain ⟨hinv, hages⟩ := h.setSig sig hproc hcur
  exact ⟨hinv, hages, rfl⟩

/-- **What a step keeps**: live tasks have live processes, a process that is gone stays gone, and
what `next` returns is the current task afterwards. -/
theorem stepOut {op : Op} (hok : op.Survivable k) (hstep : k.stepOut func op = .ok (k', out)) :
    Inv k' ∧ Ages k k' ∧ ∀ t ∈ out, t = k'.curtask := by
  have hnone : Inv k' ∧ Ages k k' ∧ out = none → Inv k' ∧ Ages k k' ∧ ∀ t ∈ out, t = k'.curtask := by
    rintro ⟨hinv, hages, rfl⟩
    exact ⟨hinv, hages, fun t ht => absurd ht (Option.not_mem_none t)⟩
  have hsome : Inv k' ∧ Ages k k' ∧ out = some k'.curtask →
      Inv k' ∧ Ages k k' ∧ ∀ t ∈ out, t = k'.curtask := by
    rintro ⟨hinv, hages, rfl⟩
    exact ⟨hinv, hages, fun t ht => (Option.mem_some.1 ht).symm⟩
  obtain ⟨oc, hoc, hlive⟩ := h.cur
  cases op with
  | newThread ctx =>
    obtain ⟨o, -, hstep⟩ := bind_eq_ok hstep
    obtain ⟨k1, hnew, hstep⟩ := bind_eq_ok hstep
    cases hstep
    obtain ⟨p, hp, hstate, -⟩ := h.alive _ oc hoc fun hz => hlive (.inl hz)
    obtain ⟨hbase, hages, hcur, hkeep⟩ := h.toBase.newTask hp hstate hnew
    exact hnone ⟨⟨hbase, oc, hcur ▸ hkeep _ oc hoc, hlive⟩, hages, rfl⟩
  | clone ctx =>
    obtain ⟨o, -, hstep⟩ := bind_eq_ok hstep
    obtain ⟨k1, hnew, hstep⟩ := bind_eq_ok hstep
    cases hstep
    obtain ⟨hinv, hages⟩ := h.newProcess hnew
    exact hnone ⟨hinv, hages, rfl⟩
  | createProcess prior ctx mem =>
    obtain ⟨k1, hnew, hstep⟩ := bind_eq_ok hstep
    cases hstep
    obtain ⟨hinv, hages⟩ := h.newProcess hnew
    exact hnone ⟨hinv, hages, rfl⟩
  | yield => exact hsome (h.toBase.schedule hstep)
  | sleep =>
    obtain ⟨s, hsleep, hstep⟩ := bind_eq_ok hstep
    obtain ⟨o, ho, rfl⟩ := sleep_eq hsleep
    obtain rfl := Option.some.inj (hoc.symm.trans ho)
    have hbase := h.toBase.setSched (h.ready.suspend ho .Pending)
      (.suspend ho fun hz => absurd (.inl hz) hlive)
    obtain ⟨hinv, hages, hout⟩ := hbase.schedule hstep
    have hages0 : Ages k { k with sched := k.sched.suspend k.curtask oc .Pending } :=
      .of_procs rfl rfl
    exact hsome ⟨hinv, hages0.trans hages, hout⟩
  | wakeup t =>
    obtain ⟨k1, hwake, hstep⟩ := bind_eq_ok hstep
    cases hstep
    obtain ⟨hbase, hprocs, hcnt, -⟩ := h.toBase.wakeup hwake
    obtain ⟨s, hsched, hwake⟩ := bind_eq_ok hwake
    cases hwake
    have hcur := task_wakeup hsched hoc fun hp => hlive (.inr hp)
    exact hnone ⟨⟨hbase, oc, hcur, hlive⟩, .of_procs hcnt hprocs, rfl⟩
  | exit status waiter => exact hsome (h.taskExit hstep)
  | exitGroup status => exact hsome (h.exitGroup hstep)
  | waitpid pid =>
    obtain ⟨p, hp, hstep⟩ := bind_eq_ok hstep
    split at hstep
    · rename_i hz
      cases hstep
      obtain ⟨hinv, hages⟩ := h.zombieExit (proc_eq_ok hp) hz
      exact hnone ⟨hinv, hages, rfl⟩
    · cases hstep
      exact hnone ⟨h, .refl k, rfl⟩
  | sigHandler junk => exact hnone (h.sigHandler hok hstep)
  | sigSend | run | sigAction | sigProcMask | sigReturn =>
    exact hnone (h.sigStep (by simp) (by simp) hstep)

end

end Inv

end Steps

/-- **A process that is dead stays dead**, unless a signal has ended it: from any state in which it
is a zombie, no later step makes `next` return one of its tasks. -/
theorem dead_of_survivable (func : UInt64) {k k' k'' : Kernel} {pid : Pid} {t : Tid} {op : Op}
    (hreach : Reach (step func) (fun k op => op.Survivable k) Inv k) (hdead : k.Dead pid)
    (hlater : Reach (step func) (fun k op => op.Survivable k) (· = k) k')
    (hok : op.Survivable k') (hstep : k'.stepOut func op = .ok (k'', some t)) :
    k''.sig.proc t ≠ pid := by
  have hkeep : ∀ {k k' : Kernel} {op}, Inv k → op.Survivable k → step func k op = .ok k' →
      Inv k' ∧ Ages k k' := by
    intro k k' op hinv hok hstep
    obtain ⟨⟨k₁, out⟩, hout, hstep⟩ := bind_eq_ok hstep
    cases hstep
    obtain ⟨hinv', hages, -⟩ := hinv.stepOut hok hout
    exact ⟨hinv', hages⟩
  have hinv : Inv k := hreach.invariant Inv (fun _ => id) fun _ _ _ hinv hok hstep =>
    (hkeep hinv hok hstep).1
  obtain ⟨hinv', hgone⟩ : Inv k' ∧ k'.Gone pid := by
    refine hlater.invariant (fun k => Inv k ∧ k.Gone pid) ?_ ?_
    · rintro _ rfl
      exact ⟨hinv, .inl hdead⟩
    · rintro k₁ k₂ op ⟨hinv₁, hgone₁⟩ hok₁ hstep₁
      obtain ⟨hinv₂, hages⟩ := hkeep hinv₁ hok₁ hstep₁
      exact ⟨hinv₂, hages.gone pid hgone₁⟩
  obtain ⟨hinv'', hages, hcur⟩ := hinv'.stepOut hok hstep
  rw [hcur t (Option.mem_some_self t)]
  -- the task that was picked is live, and so is its process
  obtain ⟨o, ho, hlive⟩ := hinv''.cur
  obtain ⟨p, hp, hstate, -⟩ := hinv''.alive _ o ho fun hz => hlive (.inl hz)
  rintro rfl
  rcases hages.gone _ hgone with ⟨q, hq, hz⟩ | ⟨hnone, -⟩
  · rw [hp] at hq
    exact hstate (Option.some.inj hq ▸ hz)
  · rw [hp] at hnone
    cases hnone

/-- The kernel at the end of `init`: the first user process, and the idle process, whose task is
current although it is in its list. -/
def boot : Kernel where
  sched := { task := fun t =>
               if t = 1 then some ⟨0, .Init⟩ else if t = 2 then some ⟨1, .Init⟩ else none
             ready := fun i => if i = 0 then [1] else [2]
             pending := ∅ }
  sig := { SigSystem.boot with proc := id, curtask := 2 }
  taskCnt := 2
  procs := fun pid => if pid = 1 ∨ pid = 2 then some ⟨.Init, 0, [pid], 0⟩ else none
  procCnt := 2

theorem inv_boot : Inv boot := by
  have htask : ∀ t o, boot.sched.task t = some o → (t = 1 ∨ t = 2) ∧ o.state = .Init := by
    intro t o ho
    unfold boot at ho
    dsimp only at ho
    split at ho
    · rename_i ht
      exact ⟨.inl ht, Option.some.inj ho ▸ rfl⟩
    split at ho
    · rename_i ht
      exact ⟨.inr ht, Option.some.inj ho ▸ rfl⟩
    · cases ho
  have hlive : ∀ i, Scheduable.Live ⟨i, .Init⟩ := by simp [Scheduable.Live]
  refine ⟨⟨fun i t ht => ?_, fun t o ho _ => ?_, fun t o ho => ?_, fun pid p hp => ?_⟩,
    ⟨1, .Init⟩, rfl, hlive 1⟩
  · unfold boot at ht
    dsimp only at ht
    split at ht
    · rename_i hi
      obtain rfl := List.mem_singleton.1 ht
      exact ⟨⟨0, .Init⟩, rfl, hi.symm, hlive 0⟩
    · rename_i hi
      obtain rfl := List.mem_singleton.1 ht
      exact ⟨⟨1, .Init⟩, rfl, (Fin.eq_one_of_ne_zero i hi).symm, hlive 1⟩
  · exact ⟨⟨.Init, 0, [t], 0⟩, if_pos (htask t o ho).1, by simp, List.mem_singleton_self t⟩
  · exact (htask t o ho).1.elim (fun h => h ▸ Nat.le_succ 1) Nat.le_of_eq
  · unfold boot at hp
    dsimp only at hp
    split at hp
    · rename_i hpid
      exact hpid.elim (fun h => h ▸ Nat.le_succ 1) Nat.le_of_eq
    · cases hp

instance (k : Kernel) : DecidablePred (Op.Survivable k) := by
  intro op
  apply @Op.casesOn _ op <;> intros <;> unfold Op.Survivable <;> infer_instance

def childExits : List Op := [.yield, .clone SigSystem.boot.cur.ctx, .sleep, .exitGroup 0]

theorem dead_childExits : ∃ k k' t, runWhile (step 0) (fun k op => op.Survivable k) childExits boot =
    some k ∧ k.Dead 3 ∧ k.stepOut 0 .yield = .ok (k', some t) ∧ k'.sig.proc t ≠ 3 := by
  obtain ⟨k, hk, hreach, hstate, hnext⟩ := exists_reach (step 0) (fun k op => op.Survivable k)
    childExits inv_boot (fun k => (k.procs 3).map (·.state) = some .Zombie ∧
      (k.stepOut 0 .yield).toOption.map (·.2) = some (some 1)) (by decide +kernel)
  obtain ⟨p, hp, hz⟩ := Option.map_eq_some_iff.1 hstate
  obtain ⟨⟨k', out⟩, hstep, rfl⟩ := Option.map_eq_some_iff.1 hnext
  have hstep := toOption_eq_some.1 hstep
  have hok : Op.Survivable k .yield := trivial
  exact ⟨k, k', 1, hk, ⟨p, hp, hz⟩, hstep,
    dead_of_survivable 0 hreach ⟨p, hp, hz⟩ (.start rfl) hok hstep⟩

def childKilled : List Op :=
  [.yield, .clone SigSystem.boot.cur.ctx, .yield, .sigSend 3 SIGKILL none, .sigHandler noJunk]

/-- The child that was killed is a zombie, and at the next tick its task runs again. -/
theorem not_dead_killed : ¬∀ (func : UInt64) (k k' k'' : Kernel) (pid : Pid) (t : Tid) (op : Op),
    Reach (step func) (fun _ _ => True) Inv k → k.Dead pid →
      Reach (step func) (fun _ _ => True) (· = k) k' → k'.stepOut func op = .ok (k'', some t) →
        k''.sig.proc t ≠ pid := by
  intro h
  obtain ⟨k, -, hreach, hstate, hnext⟩ := exists_reach (step 0) (fun _ _ => True) childKilled inv_boot
    (fun k => (k.procs 3).map (·.state) = some .Zombie ∧
      (k.stepOut 0 .yield).toOption.map (fun r => (r.1.sig.proc 3, r.2)) = some (3, some 3))
    (by decide +kernel)
  obtain ⟨p, hp, hz⟩ := Option.map_eq_some_iff.1 hstate
  obtain ⟨⟨k', out⟩, hstep, hout⟩ := Option.map_eq_some_iff.1 hnext
  obtain ⟨hproc, rfl⟩ := Prod.mk.inj hout
  exact h 0 k k k' 3 3 .yield hreach ⟨p, hp, hz⟩ (.start rfl) (toOption_eq_some.1 hstep) hproc

end Kernel

end LuoOS.Sched
