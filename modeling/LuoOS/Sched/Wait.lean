import LuoOS.Sched.Kernel

/-!
# Waiting for children

`waitpid` of `kernel/syscall/proc.cc`. A call that finds no zombie sleeps, and goes on with its loop
when its task runs again; `Waits` keeps which tasks are in such a call. `getChilds` looks at the ids
below 512 only, while `newId` counts on forever. As long as the children of whoever waits have such
ids, `waitpid(-1)` fails only without a child, and returns a zombie child that nobody had reaped
before (`answers_of_seen`).
-/

namespace LuoOS.Sched

open Signal Runs Function Scheduler

variable {func : UInt64} {p : Process} {out : Option Tid} {k : Kernel} {pid : Pid}

namespace Kernel

def getChilds (k : Kernel) (pid : Pid) : List (Pid × Process) :=
  (List.range 512).filterMap fun i =>
    match k.procs i with
    | some p => if p.parent = pid then some (i, p) else none
    | none => none

theorem mem_getChilds {i : Pid} :
    (i, p) ∈ k.getChilds pid ↔ i < 512 ∧ k.procs i = some p ∧ p.parent = pid := by
  unfold getChilds
  rw [List.mem_filterMap]
  constructor
  · rintro ⟨j, hj, heq⟩
    split at heq
    · rename_i q hq
      split_ifs at heq with hparent
      cases heq
      exact ⟨List.mem_range.1 hj, hq, hparent⟩
    · cases heq
  · rintro ⟨hi, hp, hparent⟩
    exact ⟨i, List.mem_range.2 hi, by simp [hp, hparent]⟩

/-! ## What the other calls do to processes and tasks -/

def Counted (k : Kernel) : Prop := ∀ i p, k.procs i = some p → i ≤ k.procCnt

/-- No process gets another parent. -/
structure Kin (k k' : Kernel) : Prop where
  procCnt : k.procCnt ≤ k'.procCnt
  counted : k.Counted → k'.Counted
  parent : ∀ i ≤ k.procCnt, (k'.procs i).map Process.parent = (k.procs i).map Process.parent

/-- A step that makes no zombie and puts no task to sleep. -/
structure Moves (k k' : Kernel) : Prop extends Kin k k' where
  taskCnt : k.taskCnt ≤ k'.taskCnt
  zombie : ∀ i p', k'.procs i = some p' → p'.state = .Zombie →
    ∃ p, k.procs i = some p ∧ p.state = .Zombie
  owner : ∀ t ≤ k.taskCnt, k'.sig.proc t = k.sig.proc t
  pending : ∀ t o', k'.sched.task t = some o' → o'.state = .Pending →
    ∃ o, k.sched.task t = some o ∧ o.state = .Pending

section Moves

variable {k k' k'' : Kernel} {pid : Pid} {p q : Process} {t : Tid} {out waiter : Option Tid}

namespace Kin

theorem refl (k : Kernel) : Kin k k := ⟨le_rfl, id, fun _ _ => rfl⟩

theorem of_procs (hcnt : k'.procCnt = k.procCnt) (hprocs : k'.procs = k.procs) : Kin k k' := by
  refine ⟨hcnt.ge, fun h i p hp => ?_, fun i _ => by rw [hprocs]⟩
  rw [hcnt]
  exact h i p (hprocs ▸ hp)

theorem trans (h : Kin k k') (h' : Kin k' k'') : Kin k k'' :=
  ⟨h.procCnt.trans h'.procCnt, fun hcounted => h'.counted (h.counted hcounted),
    fun i hi => (h'.parent i (hi.trans h.procCnt)).trans (h.parent i hi)⟩

theorem setProc (hp : k.procs pid = some p) (hparent : q.parent = p.parent) :
    Kin k (k.setProc pid q) := by
  refine ⟨le_rfl, fun h i p' hi => ?_, fun i _ => ?_⟩
  · rw [procs_setProc] at hi
    split at hi
    · rename_i heq
      exact heq ▸ h pid p hp
    · exact h i p' hi
  · rw [procs_setProc]
    split
    · rename_i heq
      rw [heq, hp, Option.map_some, Option.map_some, hparent]
    · rfl

theorem gone (h : Kin k k') (hle : pid ≤ k.procCnt) (hnone : k.procs pid = none) :
    k'.procs pid = none := by
  have hparent := h.parent pid hle
  rw [hnone] at hparent
  exact Option.map_eq_none_iff.1 hparent

end Kin

namespace Moves

theorem refl (k : Kernel) : Moves k k :=
  ⟨.refl k, le_rfl, fun _ p' hp hz => ⟨p', hp, hz⟩, fun _ _ => rfl, fun _ o' ho hp => ⟨o', ho, hp⟩⟩

theorem trans (h : Moves k k') (h' : Moves k' k'') : Moves k k'' := by
  refine ⟨h.toKin.trans h'.toKin, h.taskCnt.trans h'.taskCnt, fun i p' hp hz => ?_,
    fun t ht => (h'.owner t (ht.trans h.taskCnt)).trans (h.owner t ht), fun t o' ho hpend => ?_⟩
  · obtain ⟨p1, hp1, hz1⟩ := h'.zombie i p' hp hz
    exact h.zombie i p1 hp1 hz1
  · obtain ⟨o1, ho1, hpend1⟩ := h'.pending t o' ho hpend
    exact h.pending t o1 ho1 hpend1

theorem setSched {s : Scheduler} (h : ∀ t o', s.task t = some o' → o'.state = .Pending →
    ∃ o, k.sched.task t = some o ∧ o.state = .Pending) : Moves k { k with sched := s } :=
  ⟨.of_procs rfl rfl, le_rfl, fun _ p' hp hz => ⟨p', hp, hz⟩, fun _ _ => rfl, h⟩

theorem setSig {sig : SigSystem} (h : sig.proc = k.sig.proc) : Moves k { k with sig := sig } :=
  ⟨.of_procs rfl rfl, le_rfl, fun _ p' hp hz => ⟨p', hp, hz⟩, fun t _ => congrFun h t,
    fun _ o' ho hp => ⟨o', ho, hp⟩⟩

theorem setProc (hp : k.procs pid = some p) (hparent : q.parent = p.parent)
    (hstate : q.state = .Zombie → p.state = .Zombie) : Moves k (k.setProc pid q) := by
  refine ⟨.setProc hp hparent, le_rfl, fun i p' hi hz => ?_, fun _ _ => rfl,
    fun _ o' ho hpend => ⟨o', ho, hpend⟩⟩
  rw [procs_setProc] at hi
  split at hi
  · rename_i heq
    cases hi
    exact ⟨p, heq ▸ hp, hstate hz⟩
  · exact ⟨p', hi, hz⟩

theorem suspend {o : Scheduable} {st : State} (hst : st ≠ .Pending) :
    Moves k { k with sched := k.sched.suspend t o st } := by
  refine .setSched fun u o' ho' hpend => ?_
  rw [task_suspend] at ho'
  split at ho'
  · rw [← Option.some.inj ho'] at hpend
    exact absurd hpend hst
  · exact ⟨o', ho', hpend⟩

theorem retire {s : Scheduler} (h : k.sched.retire t = .ok s) : Moves k { k with sched := s } := by
  obtain ⟨o, -, rfl⟩ := retire_eq h
  exact .suspend nofun

theorem retireAll {s s' : Scheduler} {ts : List Tid} (hs : Moves k { k with sched := s })
    (h : ts.foldlM Scheduler.retire s = .ok s') : Moves k { k with sched := s' } := by
  induction ts generalizing s with
  | nil =>
    cases h
    exact hs
  | cons t ts ih =>
    obtain ⟨s1, hfirst, hrest⟩ := bind_eq_ok h
    exact ih (hs.trans (Moves.retire (k := { k with sched := s }) hfirst)) hrest

theorem wakeup (h : k.wakeup t = .ok k') : Moves k k' := by
  obtain ⟨s, hwake, h⟩ := bind_eq_ok h
  cases h
  refine .setSched fun u o' ho' hpend => ?_
  obtain ⟨o, -, ⟨-, rfl⟩ | ⟨-, hadd⟩⟩ := wakeup_cases hwake
  · exact ⟨o', ho', hpend⟩
  rw [task_add hadd, task_setTask] at ho'
  split at ho'
  · rw [← Option.some.inj ho'] at hpend
    cases hpend
  · exact ⟨o', ho', hpend⟩

theorem wakeWaiter (h : k.wakeWaiter waiter = .ok k') : Moves k k' ∧ k'.procs = k.procs := by
  cases waiter with
  | none =>
    cases h
    exact ⟨.refl k, rfl⟩
  | some t =>
    refine ⟨.wakeup h, ?_⟩
    obtain ⟨s, -, h⟩ := bind_eq_ok h
    cases h
    rfl

theorem schedule (h : k.schedule = .ok (k', out)) : Moves k k' := by
  obtain ⟨⟨t, s⟩, hchoice, h⟩ := bind_eq_ok h
  cases h
  obtain ⟨s1, i, ts, hadd, -, rfl⟩ := schedule_eq hchoice
  have hsched : Moves k { k with sched := s1.setReady i ts } := by
    refine .setSched fun u o' ho' hpend => ⟨o', ?_, hpend⟩
    rwa [task_setReady, task_add hadd] at ho'
  exact hsched.trans (.setSig rfl)

theorem sigSend (p : Process) (sig : Nat) : Moves k (k.sigSend p sig) := by
  unfold Kernel.sigSend
  split
  · exact .setSig rfl
  · exact .refl k

theorem sigStep {op : SigSystem.Op} (hswitch : ∀ t, op ≠ .switchTo t)
    (hnew : ∀ t pid ctx, op ≠ .newTask t pid ctx) (h : k.sigStep func op = .ok (k', out)) :
    Moves k k' := by
  obtain ⟨sig, hsig, h⟩ := bind_eq_ok h
  cases h
  exact .setSig (SigSystem.step_keeps hsig hswitch hnew).1

theorem newTask {prior : Fin (maxPrior + 1)} {ctx : Context}
    (h : k.newTask pid prior ctx = .ok k') : Moves k k' := by
  obtain ⟨p, hp, h⟩ := bind_eq_ok h
  obtain ⟨s, hadd, h⟩ := bind_eq_ok h
  cases h
  have hproc : k.procs pid = some p := proc_eq_ok hp
  have htask : Moves k { k with
      sched := s
      sig := { k.sig with
        task := update k.sig.task (k.taskCnt + 1) SigTask.new
        ctx := update k.sig.ctx (k.taskCnt + 1) ctx
        proc := update k.sig.proc (k.taskCnt + 1) pid }
      taskCnt := k.taskCnt + 1 } := by
    refine ⟨.of_procs rfl rfl, Nat.le_succ _, fun _ p' hp hz => ⟨p', hp, hz⟩, fun t ht => ?_,
      fun u o' ho' hpend => ?_⟩
    · exact update_of_ne (Nat.ne_of_lt (Nat.lt_succ_of_le ht)) _ _
    · rw [task_add hadd, task_setTask] at ho'
      split at ho'
      · rw [← Option.some.inj ho'] at hpend
        cases hpend
      · exact ⟨o', ho', hpend⟩
  exact htask.trans (.setProc hproc rfl id)

theorem newProcess (k : Kernel) (parent : Pid) (mem : Vm.UserMem) :
    Moves k (k.newProcess parent mem) := by
  refine ⟨⟨Nat.le_succ _, fun h i p hi => ?_, fun i hi => ?_⟩, le_rfl, fun i p' hi hz => ?_,
    fun _ _ => rfl, fun _ o' ho hpend => ⟨o', ho, hpend⟩⟩
  · unfold Kernel.newProcess at hi
    rw [procs_setProc] at hi
    split at hi
    · rename_i heq
      exact Nat.le_of_eq heq
    · exact Nat.le_succ_of_le (h i p hi)
  · unfold Kernel.newProcess
    rw [procs_setProc, if_neg (Nat.ne_of_lt (Nat.lt_succ_of_le hi))]
  · unfold Kernel.newProcess at hi
    rw [procs_setProc] at hi
    split at hi
    · rw [← Option.some.inj hi] at hz
      cases hz
    · exact ⟨p', hi, hz⟩

end Moves

variable {status : Int}

theorem processExit_eq (h : k.processExit pid status = .ok (k', out)) :
    ∃ p parent t k1, k.procs pid = some p ∧
      (k.setProc pid (p.zombie status)).procs p.parent = some parent ∧
      parent.tasks.head? = some t ∧
      (k.setProc pid (p.zombie status)).wakeup t = .ok k1 ∧
      k1.schedule = .ok (k', out) := by
  obtain ⟨p, hp, h⟩ := bind_eq_ok h
  obtain ⟨parent, hparent, h⟩ := bind_eq_ok h
  obtain ⟨t, ht, h⟩ := bind_eq_ok h
  obtain ⟨k1, hwake, hsched⟩ := bind_eq_ok h
  refine ⟨p, parent, t, k1, proc_eq_ok hp, proc_eq_ok hparent, ?_, hwake, hsched⟩
  unfold defaultTask at ht
  split at ht
  · rename_i u ts htasks
    rw [htasks, Except.ok.inj ht]
    rfl
  · cases ht

theorem Kin.processExit (h : k.processExit pid status = .ok (k', out)) : Kin k k' := by
  obtain ⟨p, parent, t, k1, hp, -, -, hwake, hsched⟩ := processExit_eq h
  have hset : Kin k (k.setProc pid (p.zombie status)) := .setProc hp rfl
  exact hset.trans ((Moves.wakeup hwake).trans (.schedule hsched)).toKin

/-- `Task::exit` of one of several tasks changes little, and of the last one ends the process. -/
theorem taskExit_cases (h : k.taskExit status waiter = .ok (k', out)) :
    ∃ p, k.procs k.curproc = some p ∧
      (p.tasks.erase k.curtask ≠ [] ∧ Moves k k' ∨
        p.tasks.erase k.curtask = [] ∧ ∃ k1, Moves k k1 ∧
          k1.procs = (k.setProc k.curproc { p with tasks := p.tasks.erase k.curtask }).procs ∧
          k1.processExit k.curproc status = .ok (k', out)) := by
  obtain ⟨s, hretire, h⟩ := bind_eq_ok h
  obtain ⟨p, hproc, h⟩ := bind_eq_ok h
  obtain ⟨k1, hwait, h⟩ := bind_eq_ok h
  have hp : k.procs k.curproc = some p := proc_eq_ok hproc
  have hret := Moves.retire hretire
  have hset : Moves { k with sched := s } (Kernel.setProc { k with sched := s } k.curproc
      { p with tasks := p.tasks.erase k.curtask }) := .setProc hp rfl id
  obtain ⟨hwake, hprocs⟩ := Moves.wakeWaiter hwait
  have hmoves := (hret.trans hset).trans hwake
  refine ⟨p, hp, ?_⟩
  split_ifs at h with hlast
  · exact .inr ⟨hlast, k1, hmoves, hprocs, h⟩
  · exact .inl ⟨hlast, (hmoves.trans (.sigSend _ _)).trans (.schedule h)⟩

theorem exitGroup_eq (h : k.exitGroup status = .ok (k', out)) :
    ∃ k1, Moves k k1 ∧ k1.procs = k.procs ∧ k1.processExit k.curproc status = .ok (k', out) := by
  obtain ⟨p, -, h⟩ := bind_eq_ok h
  obtain ⟨s, hretire, h⟩ := bind_eq_ok h
  exact ⟨_, .retireAll (.refl k) hretire, rfl, h⟩

end Moves

def Op.Mixes : Op → Prop
  | .waitpid _ | .sigHandler _ => False
  | _ => True

def Op.Exits (k : Kernel) : Op → Prop
  | .exitGroup _ => True
  | .exit _ _ => ∀ p, k.procs k.curproc = some p → p.tasks.erase k.curtask = []
  | _ => False

/-- What such a call does: nothing that matters, or it puts the current task to sleep, or it ends in
`Process::exit`, which finds the parent's default task as it was. -/
theorem stepOut_cases {k' : Kernel} {op : Op}
    (hmix : op.Mixes) (h : k.stepOut func op = .ok (k', out)) : Moves k k' ∨
    (∃ o, Moves { k with sched := k.sched.suspend k.curtask o .Pending } k') ∨
    op.Exits k ∧ ∃ status k1, Moves k k1 ∧
      (∀ i q t, k1.procs i = some q → q.tasks.head? = some t →
        ∃ q0, k.procs i = some q0 ∧ q0.tasks.head? = some t) ∧
      k1.processExit k.curproc status = .ok (k', out) := by
  cases op with
  | newThread ctx =>
    obtain ⟨o, -, h⟩ := bind_eq_ok h
    obtain ⟨k1, hnew, h⟩ := bind_eq_ok h
    cases h
    exact .inl (.newTask hnew)
  | clone ctx =>
    obtain ⟨o, -, h⟩ := bind_eq_ok h
    obtain ⟨k1, hnew, h⟩ := bind_eq_ok h
    cases h
    exact .inl ((Moves.newProcess k _ _).trans (.newTask hnew))
  | createProcess prior ctx mem =>
    obtain ⟨k1, hnew, h⟩ := bind_eq_ok h
    cases h
    exact .inl ((Moves.newProcess k _ _).trans (.newTask hnew))
  | yield => exact .inl (.schedule h)
  | sleep =>
    obtain ⟨s, hsleep, h⟩ := bind_eq_ok h
    obtain ⟨o, -, rfl⟩ := sleep_eq hsleep
    exact .inr (.inl ⟨o, .schedule h⟩)
  | wakeup t =>
    obtain ⟨k1, hwake, h⟩ := bind_eq_ok h
    cases h
    exact .inl (.wakeup hwake)
  | exit status waiter =>
    obtain ⟨p, hp, ⟨-, hmoves⟩ | ⟨hlast, k1, hmoves, hprocs, hexit⟩⟩ := taskExit_cases h
    · exact .inl hmoves
    refine .inr (.inr ⟨fun q hq => ?_, status, k1, hmoves, fun i q t hq ht => ?_, hexit⟩)
    · rw [hp] at hq
      exact Option.some.inj hq ▸ hlast
    · rw [hprocs, procs_setProc] at hq
      split at hq
      · rw [← Option.some.inj hq, hlast] at ht
        cases ht
      · exact ⟨q, hq, ht⟩
  | exitGroup status =>
    obtain ⟨k1, hmoves, hprocs, hexit⟩ := exitGroup_eq h
    exact .inr (.inr ⟨trivial, status, k1, hmoves,
      fun i q t hq ht => ⟨q, hprocs ▸ hq, ht⟩, hexit⟩)
  | waitpid | sigHandler => exact hmix.elim
  | sigSend | run | sigAction | sigProcMask | sigReturn =>
    exact .inl (.sigStep (by simp) (by simp) h)

theorem Kin.stepOut {k' : Kernel} {op : Op}
    (hmix : op.Mixes) (h : k.stepOut func op = .ok (k', out)) : Kin k k' := by
  obtain hmoves | ⟨o, hmoves⟩ | ⟨-, status, k1, hmoves, -, hexit⟩ := stepOut_cases hmix h
  · exact hmoves.toKin
  · have hsleep : Kin k { k with sched := k.sched.suspend k.curtask o .Pending } :=
      .of_procs rfl rfl
    exact hsleep.trans hmoves.toKin
  · exact hmoves.toKin.trans (.processExit hexit)

theorem clone_eq (func : UInt64) {o : Scheduable}
    (ho : k.sched.task k.curtask = some o) (ctx : Context) :
    ∃ k', k.stepOut func (.clone ctx) = .ok (k', none) ∧ k'.curtask = k.curtask ∧
      k'.procCnt = k.procCnt + 1 ∧ k'.taskCnt = k.taskCnt + 1 ∧
      k'.sched.task = update k.sched.task (k.taskCnt + 1) (some ⟨o.prior, .Init⟩) ∧
      k'.sched.ready = update k.sched.ready o.prior (k.sched.ready o.prior ++ [k.taskCnt + 1]) ∧
      k'.sig.proc = update k.sig.proc (k.taskCnt + 1) (k.procCnt + 1) ∧
      k'.procs = update k.procs (k.procCnt + 1) (some ⟨.Init, k.curproc, [k.taskCnt + 1], 0⟩) := by
  obtain ⟨k1, hk1⟩ : ∃ k1, k1 = k.newProcess k.curproc (k.sig.mem k.curproc) := ⟨_, rfl⟩
  have hp : k1.proc (k.procCnt + 1) = .ok ⟨.Init, k.curproc, [], 0⟩ := by
    simp [hk1, newProcess, proc, setProc]
  have hadd : (k1.sched.setTask (k1.taskCnt + 1) ⟨o.prior, .Init⟩).add (k1.taskCnt + 1) =
      .ok ((k1.sched.setTask (k1.taskCnt + 1) ⟨o.prior, .Init⟩).setReady o.prior
        (k1.sched.ready o.prior ++ [k1.taskCnt + 1])) := by
    simp [add, deref]
  have hderef : k.sched.deref k.curtask = .ok o := by
    simp [deref, ho]
  have hstep : k.stepOut func (.clone ctx) = (do
      let k ← k1.newTask (k.procCnt + 1) o.prior ctx
      .ok (k, none)) := by
    rw [hk1]
    simp only [stepOut, hderef, ok_bind]
  unfold newTask at hstep
  dsimp only at hstep
  rw [hp, hadd] at hstep
  refine ⟨_, hstep, ?_⟩
  subst hk1
  refine ⟨rfl, rfl, rfl, rfl, rfl, rfl, ?_⟩
  exact update_idem ..

end Kernel

/-! ## `waitpid` -/

/-- The kernel with the tasks that are in `waitpid`: for any child, or for the process with an id.
`reaped` are the ids that calls have returned. -/
structure Waits where
  k : Kernel
  waiting : Tid → Option (Option Pid)
  reaped : List Pid

namespace Waits

/-- What `waitpid` returns. -/
inductive Result where
  | err
  | pid (c : Pid)
  deriving DecidableEq

def reap (w : Waits) (c : Pid) (p : Process) : Waits where
  k := w.k.zombieExit c p
  waiting := update w.waiting w.k.curtask none
  reaped := c :: w.reaped

def park (func : UInt64) (w : Waits) (target : Option Pid) : Kern (Waits × Option Result) := do
  let (k, _) ← w.k.stepOut func .sleep
  .ok ({ w with k, waiting := update w.waiting w.k.curtask (some target) }, none)

def waitAny (func : UInt64) (w : Waits) : Kern (Waits × Option Result) :=
  match w.k.getChilds w.k.curproc with
  | [] => .ok ({ w with waiting := update w.waiting w.k.curtask none }, some .err)
  | childs =>
    match childs.find? (·.2.state = .Zombie) with
    | some (c, p) => .ok (w.reap c p, some (.pid c))
    | none => w.park func none

/-- One round of the loop of `waitpid` for a process. A call that was parked uses the pointer that
it had read before. -/
def waitPid (func : UInt64) (w : Waits) (pid : Pid) : Kern (Waits × Option Result) :=
  match w.k.procs pid with
  | some p =>
    if p.state = .Zombie then .ok (w.reap pid p, some (.pid pid)) else w.park func (some pid)
  | none =>
    if (w.waiting w.k.curtask).isSome then .error .wildPointer
    else .error (.panic "should not happen")

def wait (func : UInt64) (w : Waits) : (target : Option Pid) → Kern (Waits × Option Result)
  | none => w.waitAny func
  | some pid => w.waitPid func pid

/-- A step of the kernel or of a `waitpid`. -/
inductive Op where
  | kernel (op : Kernel.Op)
  | waitpid (target : Option Pid)
  /-- The set of a process's tasks is iterated in another order. -/
  | rehash (pid : Pid) (tasks : List Tid)

def target (w : Waits) (op : Op) : Option (Option Pid) :=
  match w.waiting w.k.curtask, op with
  | some target, _ => some target
  | none, .waitpid target => some target
  | none, _ => none

def stepOut (func : UInt64) (w : Waits) (op : Op) : Kern (Waits × Option Result) :=
  match w.target op, op with
  | some target, _ => w.wait func target
  | none, .kernel op => do
    let (k, _) ← w.k.stepOut func op
    .ok ({ w with k }, none)
  | none, .rehash pid tasks => do
    let p ← w.k.proc pid
    .ok ({ w with k := w.k.setProc pid { p with tasks } }, none)
  | none, .waitpid _ => .ok (w, none)

def step (func : UInt64) (w : Waits) (op : Op) : Kern Waits := do
  let (w, _) ← w.stepOut func op
  .ok w

def Allowed (w : Waits) : Op → Prop
  | .kernel op => op.Mixes
  | .waitpid _ => True
  | .rehash pid tasks => ∀ p ∈ w.k.procs pid, tasks.Perm p.tasks

/-- The start: nobody waits or was reaped. -/
structure Started (w : Waits) : Prop where
  inv : Kernel.Inv w.k
  waiting : ∀ t, w.waiting t = none
  reaped : w.reaped = []

/-- The condition: whoever waits for any child has children with ids below 512 only. -/
def Seen (w : Waits) (op : Op) : Prop :=
  w.target op = some none → ∀ i p, w.k.procs i = some p → p.parent = w.k.curproc → i < 512

/-! ## What `waitpid` answers -/

/-- No process is reaped twice. -/
structure Logged (w : Waits) : Prop where
  inv : Kernel.Inv w.k
  nodup : w.reaped.Nodup
  gone : ∀ c ∈ w.reaped, w.k.procs c = none ∧ c ≤ w.k.procCnt

section Steps

variable {func : UInt64} {w w' : Waits} {op : Op} {r : Option Result}

/-- **What `waitpid(-1)` answers**: an error only to a process without a child, and the id of a
zombie child that is reaped now and was not before. -/
structure Answers (w w' : Waits) (r : Result) : Prop where
  err : r = .err → ∀ i p, w.k.procs i = some p → p.parent ≠ w.k.curproc
  pid : ∀ c, r = .pid c → (∃ p, w.k.procs c = some p ∧ p.parent = w.k.curproc ∧
    p.state = .Zombie) ∧ c ∉ w.reaped ∧ w'.k.procs c = none ∧ w'.reaped = c :: w.reaped

theorem waitAny_cases (h : w.waitAny func = .ok (w', r)) :
    (r = some .err ∧ w' = { w with waiting := update w.waiting w.k.curtask none } ∧
      w.k.getChilds w.k.curproc = []) ∨
    (∃ c p, (c, p) ∈ w.k.getChilds w.k.curproc ∧ p.state = .Zombie ∧ r = some (.pid c) ∧
      w' = w.reap c p) ∨
    ((∀ c p, (c, p) ∈ w.k.getChilds w.k.curproc → p.state ≠ .Zombie) ∧
      w.park func none = .ok (w', r)) := by
  unfold waitAny at h
  generalize w.k.getChilds w.k.curproc = childs at h ⊢
  split at h
  · cases h
    exact .inl ⟨rfl, rfl, rfl⟩
  split at h
  · rename_i c p hfind
    cases h
    have hz := List.find?_some hfind
    exact .inr (.inl ⟨c, p, List.mem_of_find?_eq_some hfind, of_decide_eq_true hz, rfl, rfl⟩)
  · rename_i hfind
    refine .inr (.inr ⟨fun c p hmem hz => ?_, h⟩)
    exact absurd (decide_eq_true hz) (List.find?_eq_none.1 hfind (c, p) hmem)

theorem waitPid_cases (h : w.waitPid func pid = .ok (w', r)) :
    (∃ p, w.k.procs pid = some p ∧ p.state = .Zombie ∧ r = some (.pid pid) ∧ w' = w.reap pid p) ∨
    w.park func (some pid) = .ok (w', r) := by
  unfold waitPid at h
  split at h
  · rename_i p hp
    split_ifs at h with hz
    · cases h
      exact .inl ⟨p, hp, hz, rfl, rfl⟩
    · exact .inr h
  · split_ifs at h

variable {target : Option Pid}

theorem park_eq (h : w.park func target = .ok (w', r)) : r = none ∧ w'.reaped = w.reaped ∧
      w'.waiting = update w.waiting w.k.curtask (some target) ∧
      ∃ out, w.k.stepOut func .sleep = .ok (w'.k, out) := by
  obtain ⟨⟨k, out⟩, hsleep, h⟩ := bind_eq_ok h
  cases h
  exact ⟨rfl, rfl, rfl, out, hsleep⟩

theorem target_eq_none (h : w.target op = none) :
    w.waiting w.k.curtask = none ∧ ∀ target, op ≠ .waitpid target := by
  unfold target at h
  split at h
  · cases h
  · cases h
  · rename_i hwait hne
    exact ⟨hwait, fun target heq => hne target heq⟩

/-- **The steps**: a round of `waitpid` returns an error, reaps or sleeps, and the other steps are
those of the kernel. -/
theorem stepOut_cases (hallowed : w.Allowed op) (h : w.stepOut func op = .ok (w', r)) :
    (w.target op = some none ∧ w.waitAny func = .ok (w', r)) ∨
    (∃ pid, w.target op = some (some pid) ∧ w.waitPid func pid = .ok (w', r)) ∨
    w.target op = none ∧ r = none ∧ w'.waiting = w.waiting ∧ w'.reaped = w.reaped ∧
      w.waiting w.k.curtask = none ∧
      ((∃ kop out, op = .kernel kop ∧ kop.Mixes ∧ w.k.stepOut func kop = .ok (w'.k, out)) ∨
        ∃ pid p tasks, w.k.procs pid = some p ∧ tasks.Perm p.tasks ∧
          w'.k = w.k.setProc pid { p with tasks }) := by
  unfold stepOut at h
  split at h
  · rename_i target htarget
    cases target with
    | none => exact .inl ⟨htarget, h⟩
    | some pid => exact .inr (.inl ⟨pid, htarget, h⟩)
  · rename_i kop htarget
    obtain ⟨⟨k, out⟩, hstep, h⟩ := bind_eq_ok h
    cases h
    exact .inr (.inr ⟨htarget, rfl, rfl, rfl, (target_eq_none htarget).1,
      .inl ⟨kop, out, rfl, hallowed, hstep⟩⟩)
  · rename_i pid tasks htarget
    obtain ⟨p, hp, h⟩ := bind_eq_ok h
    cases h
    have hp := Kernel.proc_eq_ok hp
    exact .inr (.inr ⟨htarget, rfl, rfl, rfl, (target_eq_none htarget).1,
      .inr ⟨pid, p, tasks, hp, hallowed p hp, rfl⟩⟩)
  · rename_i target htarget
    exact absurd rfl ((target_eq_none htarget).2 target)

theorem zombieExit_procs {c : Pid} (i : Pid) :
    (k.zombieExit c p).procs i = if i = c then none else (k.procs i).map fun q =>
      if i < 512 ∧ q.parent = c then { q with parent := p.parent } else q := by
  unfold Kernel.zombieExit
  dsimp only
  rw [update_apply]

namespace Logged

section

variable (h : Logged w)
include h

theorem reap {c : Pid} (hp : w.k.procs c = some p)
    (hz : p.state = .Zombie) : Logged (w.reap c p) := by
  refine ⟨(h.inv.zombieExit hp hz).1, List.nodup_cons.2 ⟨fun hmem => ?_, h.nodup⟩,
    fun i hi => ?_⟩
  · rw [(h.gone c hmem).1] at hp
    cases hp
  · change (w.k.zombieExit c p).procs i = none ∧ i ≤ w.k.procCnt
    rw [zombieExit_procs]
    rcases List.mem_cons.1 hi with rfl | hi
    · exact ⟨if_pos rfl, h.inv.freshProc i p hp⟩
    obtain ⟨hnone, hle⟩ := h.gone i hi
    refine ⟨?_, hle⟩
    rw [hnone]
    split <;> rfl

theorem kin (hinv : Kernel.Inv w'.k) (hkin : Kernel.Kin w.k w'.k)
    (hreaped : w'.reaped = w.reaped) : Logged w' := by
  refine ⟨hinv, hreaped ▸ h.nodup, fun c hc => ?_⟩
  obtain ⟨hnone, hle⟩ := h.gone c (hreaped ▸ hc)
  exact ⟨hkin.gone hle hnone, hle.trans hkin.procCnt⟩

theorem kernel {kop : Kernel.Op} (hmix : kop.Mixes)
    (hstep : w.k.stepOut func kop = .ok (w'.k, out)) (hreaped : w'.reaped = w.reaped) :
    Logged w' := by
  have hsurvive : kop.Survivable w.k := by
    cases kop with
    | sigHandler => exact hmix.elim
    | _ => trivial
  exact h.kin (h.inv.stepOut hsurvive hstep).1 (.stepOut hmix hstep) hreaped

theorem park (hpark : w.park func target = .ok (w', r)) : Logged w' := by
  obtain ⟨-, hreaped, -, out, hsleep⟩ := park_eq hpark
  have hmix : Kernel.Op.Mixes .sleep := trivial
  exact h.kernel hmix hsleep hreaped

theorem rehash {tasks : List Tid} (hp : w.k.procs pid = some p) (hperm : tasks.Perm p.tasks)
    (hk : w'.k = w.k.setProc pid { p with tasks }) (hreaped : w'.reaped = w.reaped) :
    Logged w' := by
  have hbase : Kernel.Base (w.k.setProc pid { p with tasks }) :=
    h.inv.toBase.setProc hp fun t o _ _ _ hstate hmem => ⟨hstate, hperm.mem_iff.2 hmem⟩
  have hkin : Kernel.Kin w.k (w.k.setProc pid { p with tasks }) := .setProc hp rfl
  exact h.kin (hk ▸ ⟨hbase, h.inv.cur⟩) (hk ▸ hkin) hreaped

theorem step (hallowed : w.Allowed op) (hstep : w.stepOut func op = .ok (w', r)) : Logged w' := by
  obtain ⟨-, hany⟩ | ⟨pid, -, hpid⟩ | ⟨-, -, -, hreaped, -, hrest⟩ := stepOut_cases hallowed hstep
  · obtain ⟨-, rfl, -⟩ | ⟨c, p, hmem, hz, -, rfl⟩ | ⟨-, hpark⟩ := waitAny_cases hany
    · exact ⟨h.inv, h.nodup, h.gone⟩
    · exact h.reap (Kernel.mem_getChilds.1 hmem).2.1 hz
    · exact h.park hpark
  · obtain ⟨p, hp, hz, -, rfl⟩ | hpark := waitPid_cases hpid
    · exact h.reap hp hz
    · exact h.park hpark
  · obtain ⟨kop, out, -, hmix, hkernel⟩ | ⟨pid, p, tasks, hp, hperm, hk⟩ := hrest
    · exact h.kernel hmix hkernel hreaped
    · exact h.rehash hp hperm hk hreaped

end

end Logged

theorem Started.logged (h : Started w) : Logged w := by
  refine ⟨h.inv, ?_, fun c hc => ?_⟩
  · rw [h.reaped]
    exact List.nodup_nil
  · rw [h.reaped] at hc
    cases hc

theorem logged_of_reach {ok : Waits → Op → Prop} (hok : ∀ w op, ok w op → w.Allowed op)
    (hreach : Reach (step func) ok Started w) : Logged w := by
  refine hreach.invariant Logged (fun _ => Started.logged) fun w1 w2 op hlog hop hstep => ?_
  obtain ⟨⟨w3, r⟩, hout, hstep⟩ := bind_eq_ok hstep
  cases hstep
  exact hlog.step (hok _ _ hop) hout

theorem stepOut_reaped (hallowed : w.Allowed op) (h : w.stepOut func op = .ok (w', r)) :
    w'.reaped = w.reaped ∧ (∀ c, r ≠ some (.pid c)) ∨ ∃ c p, w.k.procs c = some p ∧
      p.state = .Zombie ∧ r = some (.pid c) ∧ w'.reaped = c :: w.reaped := by
  obtain ⟨-, hany⟩ | ⟨pid, -, hpid⟩ | ⟨-, rfl, -, hreaped, -⟩ := stepOut_cases hallowed h
  · obtain ⟨rfl, rfl, -⟩ | ⟨c, p, hmem, hz, rfl, rfl⟩ | ⟨-, hpark⟩ := waitAny_cases hany
    · exact .inl ⟨rfl, nofun⟩
    · exact .inr ⟨c, p, (Kernel.mem_getChilds.1 hmem).2.1, hz, rfl, rfl⟩
    · obtain ⟨rfl, hreaped, -⟩ := park_eq hpark
      exact .inl ⟨hreaped, nofun⟩
  · obtain ⟨p, hp, hz, rfl, rfl⟩ | hpark := waitPid_cases hpid
    · exact .inr ⟨pid, p, hp, hz, rfl, rfl⟩
    · obtain ⟨rfl, hreaped, -⟩ := park_eq hpark
      exact .inl ⟨hreaped, nofun⟩
  · exact .inl ⟨hreaped, nofun⟩

end Steps

/-- **No process is reaped twice**: an id that `waitpid` returns was that of a zombie, and in no
later state is there a process with the id. -/
theorem reaped_once (func : UInt64) {w w' w₁ : Waits} {op : Op} {c : Pid}
    (hreach : Reach (step func) Allowed Started w) (hallowed : w.Allowed op)
    (hstep : w.stepOut func op = .ok (w', some (.pid c)))
    (hlater : Reach (step func) Allowed (· = w') w₁) :
    (∃ p, w.k.procs c = some p ∧ p.state = .Zombie) ∧ w₁.k.procs c = none ∧
      ∀ op₁ w₂, w₁.Allowed op₁ → w₁.stepOut func op₁ ≠ .ok (w₂, some (.pid c)) := by
  obtain ⟨-, hno⟩ | ⟨_, p, hp, hz, ⟨⟩, hreaped⟩ := stepOut_reaped hallowed hstep
  · exact absurd rfl (hno c)
  have hlog := (logged_of_reach (fun _ _ h => h) hreach).step hallowed hstep
  obtain ⟨hlog₁, hmem⟩ : Logged w₁ ∧ c ∈ w₁.reaped := by
    refine hlater.invariant (fun w => Logged w ∧ c ∈ w.reaped) ?_ fun w₂ w₃ op₂ h hop hnext => ?_
    · rintro _ rfl
      exact ⟨hlog, hreaped ▸ List.mem_cons_self⟩
    · obtain ⟨⟨w₄, r⟩, hout, hnext⟩ := bind_eq_ok hnext
      cases hnext
      refine ⟨h.1.step hop hout, ?_⟩
      obtain ⟨heq, -⟩ | ⟨_, _, -, -, -, heq⟩ := stepOut_reaped hop hout <;> rw [heq]
      · exact h.2
      · exact List.mem_cons_of_mem _ h.2
  have hgone := (hlog₁.gone c hmem).1
  refine ⟨⟨p, hp, hz⟩, hgone, fun op₁ w₂ hop hout => ?_⟩
  obtain ⟨-, hno⟩ | ⟨_, q, hq, -, ⟨⟩, -⟩ := stepOut_reaped hop hout
  · exact hno c rfl
  · rw [hgone] at hq
    cases hq

/-- **`waitpid(-1)` fails only without children.** In every run in which `getChilds` looks at the
ids of the children of whoever waits, a call returns an error only to a process without a child, and
an id only of a zombie child that is reaped now and was not before. -/
theorem answers_of_seen (func : UInt64) {w w' : Waits} {op : Op} {r : Result}
    (hreach : Reach (step func) (fun w op => w.Allowed op ∧ w.Seen op) Started w)
    (hallowed : w.Allowed op) (hseen : w.Seen op) (hany : w.target op = some none)
    (hstep : w.stepOut func op = .ok (w', some r)) : Answers w w' r := by
  have hlog := logged_of_reach (fun _ _ h => h.1) hreach
  have hall : ∀ i p, w.k.procs i = some p → p.parent = w.k.curproc →
      (i, p) ∈ w.k.getChilds w.k.curproc := fun i p hp hparent =>
    Kernel.mem_getChilds.2 ⟨hseen hany i p hp hparent, hp, hparent⟩
  obtain ⟨-, hwait⟩ | ⟨pid, htarget, -⟩ | ⟨htarget, -⟩ := stepOut_cases hallowed hstep
  · obtain ⟨hr, rfl, hnone⟩ | ⟨c, p, hmem, hz, hr, rfl⟩ | ⟨-, hpark⟩ := waitAny_cases hwait
    · cases hr
      refine ⟨fun _ i p hp hparent => ?_, nofun⟩
      have hmem := hall i p hp hparent
      rw [hnone] at hmem
      cases hmem
    · cases hr
      obtain ⟨-, hp, hparent⟩ := Kernel.mem_getChilds.1 hmem
      refine ⟨nofun, fun c' hc => ?_⟩
      obtain rfl : c = c' := Result.pid.inj hc
      refine ⟨⟨p, hp, hparent, hz⟩, fun hmem => ?_, ?_, rfl⟩
      · rw [(hlog.gone c hmem).1] at hp
        cases hp
      · exact (zombieExit_procs c).trans (if_pos rfl)
    · cases (park_eq hpark).1
  · rw [hany] at htarget
    cases htarget
  · rw [hany] at htarget
    cases htarget

/-! ## Few and many processes -/

instance : DecidablePred Kernel.Op.Mixes := by
  intro op
  apply @Kernel.Op.casesOn _ op <;> intros <;> unfold Kernel.Op.Mixes <;> infer_instance

instance (w : Waits) : DecidablePred w.Allowed := by
  intro op
  apply @Op.casesOn _ op <;> intros <;> unfold Allowed <;> infer_instance

/-- As long as no more than 511 processes were made, everybody's children are seen. -/
theorem reach_of_few {w : Waits}
    (h : Reach (step func) (fun w op => w.Allowed op ∧ w.k.procCnt < 512) Started w) :
    Reach (step func) (fun w op => w.Allowed op ∧ w.Seen op) Started w := by
  induction h with
  | start h => exact .start h
  | next hreach hok hstep ih =>
    have hlog := logged_of_reach (fun _ _ h => h.1) hreach
    exact ih.next ⟨hok.1, fun _ i p hp _ => (hlog.inv.freshProc i p hp).trans_lt hok.2⟩ hstep

def boot : Waits := ⟨Kernel.boot, fun _ => none, []⟩

theorem started_boot : Started boot := ⟨Kernel.inv_boot, fun _ => rfl, rfl⟩

def childReaped : List Op :=
  [.kernel .yield, .kernel (.clone SigSystem.boot.cur.ctx), .waitpid none, .kernel (.exitGroup 0)]

theorem answers_childReaped : ∃ w w', Reach (step 0) (fun w op => w.Allowed op ∧ w.Seen op) Started w ∧
    w.target (.kernel .yield) = some none ∧
    w.stepOut 0 (.kernel .yield) = .ok (w', some (.pid 3)) ∧ Answers w w' (.pid 3) := by
  obtain ⟨w, -, hw, htarget, hfew, hout⟩ := exists_reach (step 0)
    (fun w op => w.Allowed op ∧ w.k.procCnt < 512) childReaped started_boot
    (fun w => w.target (.kernel .yield) = some none ∧ w.k.procCnt < 512 ∧
      (w.stepOut 0 (.kernel .yield)).toOption.map (·.2) = some (some (.pid 3))) (by decide +kernel)
  obtain ⟨⟨w', r⟩, hstep, hr⟩ := Option.map_eq_some_iff.1 hout
  obtain rfl : r = some (.pid 3) := hr
  have hstep := toOption_eq_some.1 hstep
  have hreach := reach_of_few hw
  have hlog := logged_of_reach (fun _ _ h => h.1) hreach
  have hseen : w.Seen (.kernel .yield) := fun _ i p hp _ =>
    (hlog.inv.freshProc i p hp).trans_lt hfew
  have hallowed : w.Allowed (.kernel .yield) := trivial
  exact ⟨w, w', hreach, htarget, hstep, answers_of_seen 0 hreach hallowed hseen htarget hstep⟩

theorem reaped_once_child : ∃ w w' : Waits,
    w.stepOut 0 (.kernel .yield) = .ok (w', some (.pid 3)) ∧ w'.k.procs 3 = none := by
  obtain ⟨w, -, hw, hout⟩ := exists_reach (step 0) Allowed childReaped started_boot
    (fun w => (w.stepOut 0 (.kernel .yield)).toOption.map (·.2) = some (some (.pid 3)))
    (by decide +kernel)
  obtain ⟨⟨w', r⟩, hstep, hr⟩ := Option.map_eq_some_iff.1 hout
  obtain rfl : r = some (.pid 3) := hr
  have hstep := toOption_eq_some.1 hstep
  have hallowed : w.Allowed (.kernel .yield) := trivial
  exact ⟨w, w', hstep, (reaped_once 0 hw hallowed hstep (.start rfl)).2.1⟩

/-- The processes 3 to 511 have come and gone. -/
def aged : Waits := { boot with k := { Kernel.boot with procCnt := 511 } }

theorem started_aged : Started aged := by
  have h := Kernel.inv_boot
  refine ⟨⟨⟨h.ready, h.alive, h.freshTask, fun pid p hp => ?_⟩, h.cur⟩, fun _ => rfl, rfl⟩
  exact (h.freshProc pid p hp).trans (show 2 ≤ 511 by decide)

/-- **A child beyond the scanned ids is not seen.** The first process makes the process 512 and waits
for any child. -/
theorem not_answers_beyond : ∃ w w' p, Reach (step 0) (fun w op => w.Allowed op) Started w ∧
    w.target (.waitpid none) = some none ∧
    w.stepOut 0 (.waitpid none) = .ok (w', some .err) ∧
    w.k.procs 512 = some p ∧ p.parent = w.k.curproc := by
  obtain ⟨w, -, hreach, htarget, hout, hchild⟩ := exists_reach (step 0) (fun w op => w.Allowed op)
    [.kernel .yield, .kernel (.clone SigSystem.boot.cur.ctx)] started_aged
    (fun w => w.target (.waitpid none) = some none ∧
      (w.stepOut 0 (.waitpid none)).toOption.map (·.2) = some (some .err) ∧
      (w.k.procs 512).map (·.parent) = some w.k.curproc) (by decide +kernel)
  obtain ⟨⟨w', r⟩, hstep, hr⟩ := Option.map_eq_some_iff.1 hout
  obtain rfl : r = some .err := hr
  obtain ⟨p, hp, hparent⟩ := Option.map_eq_some_iff.1 hchild
  exact ⟨w, w', p, hreach, htarget, toOption_eq_some.1 hstep, hp, hparent⟩

end Waits

end LuoOS.Sched
