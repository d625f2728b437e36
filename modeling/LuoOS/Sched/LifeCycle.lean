import LuoOS.Sched.Wait

/-!
# Parents of processes

`Process::exit` wakes the default task of the parent, so it needs a parent that exists and has a
task left. A process gets a new parent only when its own is reaped (`zombieExit`), and only if
`getChilds` finds it. The tasks of a zombie are still in its set after `exit_group`, but after the
`exit` of its last task the set is empty. As long as no process with such a parent exits, nobody
waits for a process that does not exist, and reaped processes have children with ids below 512 only,
every process has a parent and no call faults (`lifeCycle_of_careful`). Permanent are the first
process and that of the idle task, which is always ready.
-/

namespace LuoOS.Sched

open Signal Runs Function Scheduler

namespace Kernel

/-! ## Families -/

/-- Every process that is not permanent has a parent, along which the rank goes down; those that
are not zombies have a task, and the permanent ones are none. -/
structure Family (roots : Pid → Prop) (procs : Pid → Option Process) : Prop where
  tree : ∃ rank : Pid → Nat, ∀ i p, procs i = some p → ¬roots i →
    (procs p.parent).isSome ∧ rank p.parent < rank i
  staffed : ∀ i p, procs i = some p → p.state ≠ .Zombie → p.tasks ≠ []
  permanent : ∀ i p, roots i → procs i = some p → p.state ≠ .Zombie

namespace Family

variable {roots : Pid → Prop} {procs : Pid → Option Process} {i c : Pid} {p q : Process}

theorem parent_ne (h : Family roots procs) (hp : procs i = some p) (hi : ¬roots i) :
    p.parent ≠ i := by
  obtain ⟨rank, htree⟩ := h.tree
  intro heq
  have hlt := (htree i p hp hi).2
  rw [heq] at hlt
  exact absurd hlt (Nat.lt_irrefl _)

/-- A process changes, but not its parent. -/
theorem set (h : Family roots procs) (hp : procs i = some p) (hparent : q.parent = p.parent)
    (hstaffed : q.state ≠ .Zombie → q.tasks ≠ []) (hroot : roots i → q.state ≠ .Zombie) :
    Family roots (update procs i (some q)) := by
  obtain ⟨rank, htree⟩ := h.tree
  have hsome : ∀ j, (procs j).isSome → (update procs i (some q) j).isSome := by
    intro j hj
    rw [update_apply]
    split
    · rfl
    · exact hj
  refine ⟨⟨rank, fun j r hr hj => ?_⟩, fun j r hr => ?_, fun j r hj hr => ?_⟩
  all_goals rw [update_apply] at hr
  all_goals split at hr
  · next heq =>
    cases hr
    rw [hparent]
    obtain ⟨hexists, hlt⟩ := htree i p hp (heq ▸ hj)
    exact ⟨hsome _ hexists, heq ▸ hlt⟩
  · obtain ⟨hexists, hlt⟩ := htree j r hr hj
    exact ⟨hsome _ hexists, hlt⟩
  · cases hr
    exact hstaffed
  · exact h.staffed j r hr
  · next heq =>
    cases hr
    exact hroot (heq ▸ hj)
  · exact h.permanent j r hj hr

theorem insert (h : Family roots procs) (hnew : procs i = none) (hparent : (procs q.parent).isSome)
    (htasks : q.tasks ≠ []) (hstate : q.state ≠ .Zombie) :
    Family roots (update procs i (some q)) := by
  obtain ⟨rank, htree⟩ := h.tree
  have hne : ∀ j, (procs j).isSome → j ≠ i := by
    rintro j hj rfl
    rw [hnew] at hj
    cases hj
  have hsome : ∀ j, (procs j).isSome → (update procs i (some q) j).isSome := by
    intro j hj
    rwa [update_of_ne (hne j hj)]
  refine ⟨⟨update rank i (rank q.parent + 1), fun j r hr hj => ?_⟩, fun j r hr => ?_,
    fun j r hj hr => ?_⟩
  all_goals rw [update_apply] at hr
  all_goals split at hr
  · next heq =>
    cases hr
    refine ⟨hsome _ hparent, ?_⟩
    rw [heq, update_self, update_of_ne (hne _ hparent)]
    exact Nat.lt_succ_self _
  · next hji =>
    obtain ⟨hexists, hlt⟩ := htree j r hr hj
    refine ⟨hsome _ hexists, ?_⟩
    rwa [update_of_ne hji, update_of_ne (hne _ hexists)]
  · cases hr
    exact fun _ => htasks
  · exact h.staffed j r hr
  · cases hr
    exact hstate
  · exact h.permanent j r hj hr

theorem zombieExit {k : Kernel} (h : Family roots k.procs) (hp : k.procs c = some p)
    (hz : p.state = .Zombie) (hseen : ∀ i q, k.procs i = some q → q.parent = c → i < 512) :
    Family roots (k.zombieExit c p).procs := by
  obtain ⟨rank, htree⟩ := h.tree
  have hroot : ¬roots c := fun hc => h.permanent c p hc hp hz
  obtain ⟨hgrand, hrank⟩ := htree c p hp hroot
  have hne := h.parent_ne hp hroot
  have hsome : ∀ j, (k.procs j).isSome → j ≠ c → ((k.zombieExit c p).procs j).isSome := by
    intro j hj hjc
    rwa [Waits.zombieExit_procs, if_neg hjc, Option.isSome_map]
  have hold : ∀ j r, (k.zombieExit c p).procs j = some r → ∃ q, k.procs j = some q ∧
      r.state = q.state ∧ r.tasks = q.tasks ∧
      (q.parent = c ∧ r.parent = p.parent ∨ q.parent ≠ c ∧ r.parent = q.parent) := by
    intro j r hr
    rw [Waits.zombieExit_procs] at hr
    split at hr
    · cases hr
    obtain ⟨q, hq, rfl⟩ := Option.map_eq_some_iff.1 hr
    refine ⟨q, hq, ?_⟩
    by_cases hqc : q.parent = c
    · rw [if_pos ⟨hseen j q hq hqc, hqc⟩]
      exact ⟨rfl, rfl, .inl ⟨hqc, rfl⟩⟩
    · rw [if_neg fun hboth => hqc hboth.2]
      exact ⟨rfl, rfl, .inr ⟨hqc, rfl⟩⟩
  refine ⟨⟨rank, fun j r hr hj => ?_⟩, fun j r hr hstate => ?_, fun j r hj hr => ?_⟩
  · obtain ⟨q, hq, -, -, ⟨hqc, hparent⟩ | ⟨hqc, hparent⟩⟩ := hold j r hr
    · have hlt := (htree j q hq hj).2
      rw [hqc] at hlt
      rw [hparent]
      exact ⟨hsome _ hgrand hne, hrank.trans hlt⟩
    · obtain ⟨hexists, hlt⟩ := htree j q hq hj
      rw [hparent]
      exact ⟨hsome _ hexists hqc, hlt⟩
  · obtain ⟨q, hq, hst, htasks, -⟩ := hold j r hr
    rw [htasks]
    exact h.staffed j q hq (hst ▸ hstate)
  · obtain ⟨q, hq, hst, -⟩ := hold j r hr
    rw [hst]
    exact h.permanent j q hj hq

end Family

/-! ## The idle task -/

/-- The idle task is live, and ready unless it runs. -/
structure Awake (idle : Tid) (s : Scheduler) (cur : Tid) : Prop where
  live : ∃ o, s.task idle = some o ∧ o.Live
  ready : cur ≠ idle → ∃ i, idle ∈ s.ready i

section Awake

variable {idle cur t : Tid} {s s' : Scheduler} {o : Scheduable}

theorem add_total (h : s.task t = some o) : ∃ s', s.add t = .ok s' := by
  unfold add deref
  rw [h, ok_bind]
  split <;> exact ⟨_, rfl⟩

variable {i : Fin (maxPrior + 1)}

theorem mem_ready_add (h : s.add t = .ok s') {u : Tid} (hu : u ∈ s.ready i) : u ∈ s'.ready i := by
  obtain ⟨o, -, ⟨-, rfl⟩ | ⟨-, rfl⟩⟩ := add_cases h
  · exact hu
  rw [ready_setReady]
  split
  · next heq => exact List.mem_append_left _ (heq ▸ hu)
  · exact hu

theorem Awake.add (h : Awake idle s cur) (hadd : s.add t = .ok s') : Awake idle s' cur := by
  refine ⟨?_, fun hne => ?_⟩
  · rw [task_add hadd]
    exact h.live
  · obtain ⟨i, hi⟩ := h.ready hne
    exact ⟨i, mem_ready_add hadd hi⟩

theorem Awake.setTask (h : Awake idle s cur) (ht : t ≠ idle) : Awake idle (s.setTask t o) cur := by
  refine ⟨?_, h.ready⟩
  rw [task_setTask, if_neg ht.symm]
  exact h.live

theorem Awake.suspend (h : Awake idle s cur) (ht : t ≠ idle) (st : State) :
    Awake idle (s.suspend t o st) cur := by
  refine ⟨?_, fun hne => ?_⟩
  · rw [task_suspend, if_neg ht.symm]
    exact h.live
  · obtain ⟨i, hi⟩ := h.ready hne
    refine ⟨i, ?_⟩
    rw [ready_suspend]
    split
    · next heq => exact List.mem_filter.2 ⟨heq ▸ hi, by simpa using ht.symm⟩
    · exact hi

theorem retire_total (h : s.task t = some o) : s.retire t = .ok (s.suspend t o .Zombie) := by
  unfold retire remove deref
  rw [h, ok_bind, task_setTask, if_pos rfl, ok_bind]
  rfl

theorem wakeup_total (h : s.task t = some o) : ∃ s', s.wakeup t = .ok s' := by
  unfold Scheduler.wakeup Scheduler.deref
  rw [h, ok_bind]
  split
  · exact ⟨_, rfl⟩
  · exact add_total (o := { o with state := .Ready }) (by simp)

theorem Awake.wakeup (h : Awake idle s cur) (hwake : s.wakeup t = .ok s') : Awake idle s' cur := by
  obtain ⟨o, ho, ⟨-, rfl⟩ | ⟨hpend, hadd⟩⟩ := wakeup_cases hwake
  · exact h
  have hne : t ≠ idle := by
    rintro rfl
    obtain ⟨o', ho', hlive⟩ := h.live
    rw [ho] at ho'
    cases ho'
    exact hlive (.inr hpend)
  have hpending : Awake idle { s with pending := s.pending.erase t } cur := ⟨h.live, h.ready⟩
  exact (hpending.setTask hne).add hadd

theorem popFront_total {is : List (Fin (maxPrior + 1))} (hi : i ∈ is)
    (hready : s.ready i ≠ []) : ∃ t s', s.popFront is = (some t, s') := by
  induction is with
  | nil => cases hi
  | cons j is ih =>
    unfold popFront
    cases hj : s.ready j with
    | nil =>
      refine ih ((List.mem_cons.1 hi).resolve_left ?_)
      rintro rfl
      exact hready hj
    | cons t ts => exact ⟨t, _, rfl⟩

/-- The scheduler finds a task: the current one if it is live, and otherwise the idle one. -/
theorem Awake.schedule (h : Awake idle s cur) (hcur : s.task cur = some o) :
    ∃ t s', s.schedule cur = .ok (t, s') ∧ s'.task = s.task ∧ Awake idle s' t := by
  obtain ⟨s1, hadd⟩ := add_total hcur
  have htask := task_add hadd
  obtain ⟨i, hi⟩ : ∃ i, idle ∈ s1.ready i := by
    rcases eq_or_ne cur idle with rfl | hne
    · obtain ⟨o', ho', ⟨hdead, -⟩ | ⟨-, rfl⟩⟩ := add_cases hadd
      · obtain ⟨o'', ho'', hlive⟩ := h.live
        rw [ho'] at ho''
        cases ho''
        exact absurd hlive hdead
      · exact ⟨o'.prior, by simp⟩
    · obtain ⟨i, hi⟩ := h.ready hne
      exact ⟨i, mem_ready_add hadd hi⟩
  obtain ⟨t, s', hpop⟩ := popFront_total (List.mem_finRange i) (List.ne_nil_of_mem hi)
  obtain ⟨j, ts, hready, rfl⟩ := Scheduler.popFront_eq hpop
  refine ⟨t, s1.setReady j ts, ?_, htask, ?_, fun hne => ?_⟩
  · unfold Scheduler.schedule Scheduler.next
    simp only [hadd, ok_bind, hpop]
  · rw [Scheduler.task_setReady, htask]
    exact h.live
  · refine ⟨i, ?_⟩
    rw [Scheduler.ready_setReady]
    split
    · next heq =>
      rw [heq, hready] at hi
      exact (List.mem_cons.1 hi).resolve_left hne.symm
    · exact hi

end Awake

/-! ## The calls -/

def Held (idle : Tid) (roots : Pid → Prop) (k : Kernel) : Prop :=
  ∀ i p, k.procs i = some p → ∀ t ∈ p.tasks, (k.sched.task t).isSome ∧ (t = idle → roots i)

/-- The tasks of processes exist, and the idle task is awake. -/
structure Tended (idle : Tid) (roots : Pid → Prop) (k : Kernel) : Prop where
  held : Held idle roots k
  awake : Awake idle k.sched k.curtask

/-- What a call needs to return. -/
structure Sane (idle : Tid) (roots : Pid → Prop) (k : Kernel) : Prop
    extends Tended idle roots k where
  family : Family roots k.procs

section Calls

variable {idle t u : Tid} {roots : Pid → Prop} {k k' : Kernel} {pid : Pid} {p q : Process}
  {o : Scheduable}

/-- The processes are as they were, and no task is gone. -/
theorem Held.mono (h : Held idle roots k) (hprocs : k'.procs = k.procs)
    (htask : ∀ t, (k.sched.task t).isSome → (k'.sched.task t).isSome) : Held idle roots k' :=
  fun i p hp t ht => (h i p (hprocs ▸ hp) t ht).imp_left (htask t)

theorem Held.setProc (h : Held idle roots k)
    (htasks : ∀ t ∈ q.tasks, (k.sched.task t).isSome ∧ (t = idle → roots pid)) :
    Held idle roots (k.setProc pid q) := by
  intro i r hr t ht
  rw [procs_setProc] at hr
  split at hr
  · next heq =>
    cases hr
    exact heq ▸ htasks t ht
  · exact h i r hr t ht

theorem isSome_suspend {s : Scheduler} (st : State) (h : (s.task u).isSome) :
    ((s.suspend t o st).task u).isSome := by
  rw [task_suspend]
  split
  · rfl
  · exact h

theorem isSome_wakeup {s s' : Scheduler} (hwake : s.wakeup t = .ok s')
    (h : (s.task u).isSome) : (s'.task u).isSome := by
  obtain ⟨o, -, ⟨-, rfl⟩ | ⟨-, hadd⟩⟩ := wakeup_cases hwake
  · exact h
  rw [task_add hadd, task_setTask]
  split
  · rfl
  · exact h

theorem proc_ok (hp : k.procs pid = some p) : k.proc pid = .ok p := by
  unfold proc
  rw [hp]

variable {waiter : Option Tid}

namespace Tended

section

variable (h : Tended idle roots k)
include h

theorem wakeup (ht : (k.sched.task t).isSome) :
    ∃ k', k.wakeup t = .ok k' ∧ Tended idle roots k' ∧ k'.procs = k.procs ∧
      k'.curtask = k.curtask ∧ ∀ u, (k.sched.task u).isSome → (k'.sched.task u).isSome := by
  obtain ⟨o, ho⟩ := Option.isSome_iff_exists.1 ht
  obtain ⟨s, hwake⟩ := wakeup_total ho
  have hkeep := fun u hu => isSome_wakeup (u := u) hwake hu
  refine ⟨{ k with sched := s }, ?_, ⟨h.held.mono rfl hkeep, h.awake.wakeup hwake⟩, rfl, rfl, hkeep⟩
  unfold Kernel.wakeup
  rw [hwake, ok_bind]

theorem wakeWaiter (ht : ∀ t ∈ waiter, (k.sched.task t).isSome) :
    ∃ k', k.wakeWaiter waiter = .ok k' ∧ Tended idle roots k' ∧ k'.procs = k.procs ∧
      k'.curtask = k.curtask ∧ ∀ u, (k.sched.task u).isSome → (k'.sched.task u).isSome := by
  cases waiter with
  | none => exact ⟨k, rfl, h, rfl, rfl, fun _ hu => hu⟩
  | some t => exact h.wakeup (ht t rfl)

theorem sigSend (p : Process) (sig : Nat) :
    Tended idle roots (k.sigSend p sig) ∧ (k.sigSend p sig).procs = k.procs ∧
      (k.sigSend p sig).curtask = k.curtask ∧ (k.sigSend p sig).sched = k.sched := by
  unfold Kernel.sigSend
  split
  · exact ⟨⟨h.held, h.awake⟩, rfl, rfl, rfl⟩
  · exact ⟨h, rfl, rfl, rfl⟩

theorem schedule (hcur : (k.sched.task k.curtask).isSome) :
    ∃ k' out, k.schedule = .ok (k', out) ∧ Tended idle roots k' ∧ k'.procs = k.procs := by
  obtain ⟨o, ho⟩ := Option.isSome_iff_exists.1 hcur
  obtain ⟨t, s, hsched, htask, hawake⟩ := h.awake.schedule ho
  refine ⟨{ k with sched := s, sig := { k.sig with curtask := t } }, some t, ?_,
    ⟨h.held.mono rfl fun u hu => ?_, hawake⟩, rfl⟩
  · unfold Kernel.schedule
    rw [hsched, ok_bind]
  · rwa [htask]

theorem suspend (ht : t ≠ idle) (st : State) :
    Tended idle roots { k with sched := k.sched.suspend t o st } :=
  ⟨h.held.mono rfl fun _ hu => isSome_suspend st hu, h.awake.suspend ht st⟩

theorem processExit (hp : k.procs pid = some p) (hne : p.parent ≠ pid)
    (hq : k.procs p.parent = some q) (htasks : q.tasks ≠ [])
    (hcur : (k.sched.task k.curtask).isSome) (status : Int) :
    ∃ k' out, k.processExit pid status = .ok (k', out) ∧ Tended idle roots k' ∧
      k'.procs = update k.procs pid (some (p.zombie status)) := by
  obtain ⟨k1, hk1⟩ : ∃ k1, k1 = k.setProc pid (p.zombie status) := ⟨_, rfl⟩
  have h1 : Tended idle roots k1 := by
    rw [hk1]
    exact ⟨h.held.setProc (h.held pid p hp), h.awake⟩
  have hparent : k1.procs p.parent = some q := by
    rw [hk1, procs_setProc, if_neg hne]
    exact hq
  obtain ⟨t, ts, hts⟩ := List.exists_cons_of_ne_nil htasks
  have ht : (k1.sched.task t).isSome := (h1.held _ q hparent t (hts ▸ List.mem_cons_self)).1
  obtain ⟨k2, hwake, h2, hprocs2, hcur2, hkeep⟩ := h1.wakeup ht
  have hcur1 : (k1.sched.task k1.curtask).isSome := by
    rw [hk1]
    exact hcur
  obtain ⟨k', out, hsched, h', hprocs'⟩ := h2.schedule (hcur2 ▸ hkeep _ hcur1)
  refine ⟨k', out, ?_, h', ?_⟩
  · unfold Kernel.processExit
    rw [proc_ok hp, ok_bind, ← hk1]
    dsimp only
    rw [proc_ok hparent, ok_bind]
    unfold defaultTask
    rw [hts]
    rw [ok_bind, hwake, ok_bind, hsched]
  · rw [hprocs', hprocs2, hk1]
    rfl

end

end Tended

theorem Inv.current (h : Inv k) : ∃ o p, k.sched.task k.curtask = some o ∧ o.Live ∧
    k.procs k.curproc = some p := by
  obtain ⟨o, ho, hlive⟩ := h.cur
  obtain ⟨p, hp, -⟩ := h.alive _ o ho fun hz => hlive (.inl hz)
  exact ⟨o, p, ho, hlive, hp⟩

section

variable (func : UInt64) (h : Sane idle roots k) (hinv : Inv k)
include func h hinv

theorem Sane.sleep (hidle : k.curtask ≠ idle) :
    ∃ k' out, k.stepOut func .sleep = .ok (k', out) ∧ Sane idle roots k' := by
  obtain ⟨o, -, ho, hlive, -⟩ := hinv.current
  have hsleep : k.sched.sleep k.curtask = .ok (k.sched.suspend k.curtask o .Pending) := by
    unfold Scheduler.sleep Scheduler.deref
    rw [ho, ok_bind, if_neg fun hp => hlive (.inr hp)]
    rfl
  have hcur : (k.sched.task k.curtask).isSome := Option.isSome_of_mem ho
  obtain ⟨k', out, hsched, htended, hprocs⟩ := (h.suspend (o := o) hidle .Pending).schedule
    (isSome_suspend _ hcur)
  refine ⟨k', out, ?_, htended, hprocs ▸ h.family⟩
  change (k.sched.sleep k.curtask >>= _) = _
  rw [hsleep, ok_bind]
  exact hsched

theorem Sane.newThread (ctx : Context) :
    ∃ k' out, k.stepOut func (.newThread ctx) = .ok (k', out) ∧ Sane idle roots k' := by
  obtain ⟨o, p, ho, -, hp⟩ := hinv.current
  obtain ⟨oi, hoi, -⟩ := h.awake.live
  have hidle : k.taskCnt + 1 ≠ idle :=
    (Nat.ne_of_lt (Nat.lt_succ_of_le (hinv.freshTask idle oi hoi))).symm
  obtain ⟨s, hadd⟩ := add_total (s := k.sched.setTask (k.taskCnt + 1) ⟨o.prior, .Init⟩)
    (t := k.taskCnt + 1) (o := ⟨o.prior, .Init⟩) (by simp)
  have hkeep : ∀ u, (k.sched.task u).isSome ∨ u = k.taskCnt + 1 → (s.task u).isSome := by
    intro u hu
    rw [task_add hadd, task_setTask]
    split
    · rfl
    · next hne => exact hu.resolve_right hne
  have hproc : k.proc k.curproc = .ok p := proc_ok hp
  have hderef : k.sched.deref k.curtask = .ok o := by
    unfold deref
    rw [ho]
  have hstep : ∃ k', k.stepOut func (.newThread ctx) = .ok (k', none) ∧ k'.sched = s ∧
      k'.curtask = k.curtask ∧ k'.procs = (k.setProc k.curproc
        { p with tasks := (k.taskCnt + 1) :: p.tasks }).procs := by
    change ∃ k', (k.sched.deref k.curtask >>= _) = _ ∧ _
    rw [hderef]
    unfold newTask
    dsimp only
    rw [hproc, ok_bind, hadd, ok_bind, ok_bind]
    exact ⟨_, rfl, rfl, rfl, rfl⟩
  obtain ⟨k', hstep, rfl, hcur, hprocs⟩ := hstep
  refine ⟨k', none, hstep, ⟨fun i r hr t ht => ?_, ?_⟩, ?_⟩
  · rw [hprocs, procs_setProc] at hr
    split at hr
    · next heq =>
      cases hr
      rcases List.mem_cons.1 ht with rfl | ht
      · exact ⟨hkeep _ (.inr rfl), fun heq => absurd heq hidle⟩
      · exact heq ▸ (h.held _ p hp t ht).imp_left fun hsome => hkeep t (.inl hsome)
    · exact (h.held i r hr t ht).imp_left fun hsome => hkeep t (.inl hsome)
  · rw [hcur]
    exact (h.awake.setTask hidle).add hadd
  · rw [hprocs]
    exact h.family.set (q := { p with tasks := (k.taskCnt + 1) :: p.tasks }) hp rfl
      (fun _ => List.cons_ne_nil _ _) fun hr => h.family.permanent _ p hr hp

theorem Sane.clone (ctx : Context) :
    ∃ k' out, k.stepOut func (.clone ctx) = .ok (k', out) ∧ Sane idle roots k' := by
  obtain ⟨o, p, ho, -, hp⟩ := hinv.current
  obtain ⟨oi, hoi, hoilive⟩ := h.awake.live
  have hidle : idle ≠ k.taskCnt + 1 :=
    Nat.ne_of_lt (Nat.lt_succ_of_le (hinv.freshTask idle oi hoi))
  obtain ⟨k', hstep, hcur, -, -, htask, hready, -, hprocs⟩ := clone_eq func ho ctx
  have hnew : k.procs (k.procCnt + 1) = none := by
    cases hq : k.procs (k.procCnt + 1) with
    | none => rfl
    | some q => exact absurd (hinv.freshProc _ q hq) (Nat.not_succ_le_self _)
  refine ⟨k', none, hstep, ⟨fun i r hr t ht => ?_, ⟨oi, ?_, hoilive⟩, fun hne => ?_⟩, ?_⟩
  · rw [hprocs, update_apply] at hr
    rw [htask, update_apply]
    split at hr
    · cases hr
      rw [if_pos (List.mem_singleton.1 ht)]
      exact ⟨rfl, fun heq => absurd (heq.symm.trans (List.mem_singleton.1 ht)) hidle⟩
    refine (h.held i r hr t ht).imp_left fun hsome => ?_
    split
    · rfl
    · exact hsome
  · rwa [htask, update_of_ne hidle]
  · rw [hcur] at hne
    obtain ⟨i, hi⟩ := h.awake.ready hne
    refine ⟨i, ?_⟩
    rw [hready, update_apply]
    split
    · next heq => exact List.mem_append_left _ (heq ▸ hi)
    · exact hi
  · rw [hprocs]
    have hparent : (k.procs k.curproc).isSome := Option.isSome_of_mem hp
    exact h.family.insert (q := ⟨.Init, k.curproc, [k.taskCnt + 1], 0⟩) hnew hparent
      (List.cons_ne_nil _ _) nofun

end

def ParentStaffed (k : Kernel) : Prop :=
  ∀ p q, k.procs k.curproc = some p → k.procs p.parent = some q → q.state = .Zombie → q.tasks ≠ []

/-- The parent of a process that is not permanent is there, and under the condition has a task. -/
theorem Sane.parent (h : Sane idle roots k) (hp : k.procs k.curproc = some p)
    (hroot : ¬roots k.curproc) (hparent : k.ParentStaffed) :
    ∃ q, k.procs p.parent = some q ∧ q.tasks ≠ [] := by
  obtain ⟨rank, htree⟩ := h.family.tree
  obtain ⟨q, hq⟩ := Option.isSome_iff_exists.1 (htree _ p hp hroot).1
  refine ⟨q, hq, ?_⟩
  by_cases hz : q.state = .Zombie
  · exact hparent p q hp hq hz
  · exact h.family.staffed _ q hq hz

theorem Sane.taskExit (h : Sane idle roots k) (hinv : Inv k) {status : Int}
    (hidle : k.curtask ≠ idle) (hwaiter : ∀ t ∈ waiter, (k.sched.task t).isSome)
    (hlast : (Op.exit status waiter).Exits k → ¬roots k.curproc ∧ k.ParentStaffed) :
    ∃ k' out, k.taskExit status waiter = .ok (k', out) ∧ Sane idle roots k' := by
  obtain ⟨o, p, ho, -, hp⟩ := hinv.current
  obtain ⟨q, hq⟩ : ∃ q, q = { p with tasks := p.tasks.erase k.curtask } := ⟨_, rfl⟩
  have hcur : (k.sched.task k.curtask).isSome := Option.isSome_of_mem ho
  obtain ⟨k1, hk1⟩ : ∃ k1, k1 = Kernel.setProc
      { k with sched := k.sched.suspend k.curtask o .Zombie } k.curproc q := ⟨_, rfl⟩
  have h1 : Tended idle roots k1 := by
    have hsuspend := h.toTended.suspend (o := o) hidle .Zombie
    rw [hk1]
    refine ⟨hsuspend.held.setProc fun t ht => ?_, hsuspend.awake⟩
    rw [hq] at ht
    exact hsuspend.held _ p hp t (List.mem_of_mem_erase ht)
  have hkeep1 : ∀ u, (k.sched.task u).isSome → (k1.sched.task u).isSome := by
    rw [hk1]
    exact fun u hu => isSome_suspend _ hu
  obtain ⟨k2, hwake, h2, hprocs2, hcur2, hkeep2⟩ := h1.wakeWaiter fun t ht =>
    hkeep1 t (hwaiter t ht)
  have hprocs : k2.procs = update k.procs k.curproc (some q) := by
    rw [hprocs2, hk1]
    rfl
  have hcurtask : k2.curtask = k.curtask := by
    rw [hcur2, hk1]
    rfl
  have hcur' : (k2.sched.task k2.curtask).isSome := hcurtask ▸ hkeep2 _ (hkeep1 _ hcur)
  have hexit : k.taskExit status waiter =
      if q.tasks = [] then k2.processExit k.curproc status
      else (k2.sigSend q SIGCHLD).schedule := by
    unfold Kernel.taskExit
    rw [retire_total ho, ok_bind]
    dsimp only
    subst hq
    rw [proc_ok hp, ok_bind, ← hk1, hwake, ok_bind]
  rw [hexit]
  by_cases hempty : q.tasks = []
  · -- the last task: the process ends, and its parent is another one
    rw [if_pos hempty]
    obtain ⟨hroot, hparent⟩ := hlast fun p' hp' => by
      rw [hp] at hp'
      cases hp'
      rw [← hempty, hq]
    obtain ⟨r, hr, htasks⟩ := h.parent hp hroot hparent
    have hne : q.parent ≠ k.curproc := hq ▸ h.family.parent_ne (p := p) hp hroot
    have hr2 : k2.procs q.parent = some r := by
      rw [hprocs, update_of_ne hne, hq]
      exact hr
    obtain ⟨k', out, hstep, h', hprocs'⟩ := h2.processExit (p := q)
      (by rw [hprocs, update_self]) hne hr2 htasks hcur' status
    refine ⟨k', out, hstep, h', ?_⟩
    rw [hprocs', hprocs, update_idem]
    exact h.family.set (q := q.zombie status) hp (hq ▸ rfl)
      (fun hz => absurd rfl hz) fun hr => absurd hr hroot
  · rw [if_neg hempty]
    obtain ⟨h3, hprocs3, hcur3, hsched3⟩ := h2.sigSend q SIGCHLD
    obtain ⟨k', out, hstep, h', hprocs'⟩ := h3.schedule (by rw [hcur3, hsched3]; exact hcur')
    refine ⟨k', out, hstep, h', ?_⟩
    rw [hprocs', hprocs3, hprocs]
    exact h.family.set hp (by rw [hq]) (fun _ => hempty) fun hr => by
      rw [hq]
      exact h.family.permanent _ p hr hp

theorem retireAll_total {s : Scheduler} {ts : List Tid} (hidle : idle ∉ ts) {cur : Tid}
    (h : Awake idle s cur) (hts : ∀ t ∈ ts, (s.task t).isSome) :
    ∃ s', ts.foldlM retire s = .ok s' ∧ Awake idle s' cur ∧
      ∀ u, (s.task u).isSome → (s'.task u).isSome := by
  induction ts generalizing s with
  | nil => exact ⟨s, rfl, h, fun _ hu => hu⟩
  | cons t ts ih =>
    obtain ⟨hne, hidle⟩ : idle ≠ t ∧ idle ∉ ts := by simpa using hidle
    obtain ⟨o, ho⟩ := Option.isSome_iff_exists.1 (hts t List.mem_cons_self)
    obtain ⟨s', hrest, hawake, hkeep⟩ := ih hidle (h.suspend (o := o) hne.symm .Zombie)
      fun u hu => isSome_suspend _ (hts u (List.mem_cons_of_mem _ hu))
    refine ⟨s', ?_, hawake, fun u hu => hkeep u (isSome_suspend _ hu)⟩
    rw [List.foldlM_cons, retire_total ho, ok_bind]
    exact hrest

theorem Sane.exitGroup (h : Sane idle roots k) (hinv : Inv k) (status : Int)
    (hroot : ¬roots k.curproc) (hparent : k.ParentStaffed) :
    ∃ k' out, k.exitGroup status = .ok (k', out) ∧ Sane idle roots k' := by
  obtain ⟨o, p, ho, -, hp⟩ := hinv.current
  have hidle : idle ∉ p.tasks := fun hmem => hroot ((h.held _ p hp idle hmem).2 rfl)
  obtain ⟨s, hretire, hawake, hkeep⟩ := retireAll_total hidle h.awake fun t ht =>
    (h.held _ p hp t ht).1
  have h1 : Tended idle roots { k with sched := s } := ⟨h.held.mono rfl hkeep, hawake⟩
  obtain ⟨q, hq, htasks⟩ := h.parent hp hroot hparent
  have hcur : (k.sched.task k.curtask).isSome := Option.isSome_of_mem ho
  obtain ⟨k', out, hstep, h', hprocs⟩ := h1.processExit hp
    (h.family.parent_ne hp hroot) hq htasks (hkeep _ hcur) status
  refine ⟨k', out, ?_, h', ?_⟩
  · unfold Kernel.exitGroup
    rw [proc_ok hp, ok_bind, hretire, ok_bind]
    exact hstep
  · rw [hprocs]
    exact h.family.set (q := p.zombie status) hp rfl
      (fun hz => absurd rfl hz) fun hr => absurd hr hroot

theorem Sane.zombieExit (h : Sane idle roots k) {c : Pid} (hp : k.procs c = some p)
    (hz : p.state = .Zombie) (hseen : ∀ i q, k.procs i = some q → q.parent = c → i < 512) :
    Sane idle roots (k.zombieExit c p) := by
  refine ⟨⟨fun i r hr t ht => ?_, h.awake⟩, h.family.zombieExit hp hz hseen⟩
  rw [Waits.zombieExit_procs] at hr
  split at hr
  · cases hr
  · obtain ⟨q, hq, rfl⟩ := Option.map_eq_some_iff.1 hr
    refine h.held i q hq t ?_
    split at ht <;> exact ht

end Calls

end Kernel

/-! ## Runs -/

namespace Waits

variable {idle : Tid} {roots : Pid → Prop} {func : UInt64} {w w' : Waits} {op : Op}

/-- The calls of a run: `fork`, `exit`, `exit_group` and `waitpid`, with threads, sleeps and
wakeups. No permanent process ends, and the idle task neither sleeps nor exits. -/
def Calls (idle : Tid) (roots : Pid → Prop) (w : Waits) : Op → Prop
  | .kernel (.newThread _) => True
  | .kernel (.clone _) => True
  | .kernel .yield => True
  | .kernel .sleep => w.k.curtask ≠ idle
  | .kernel (.wakeup t) => (w.k.sched.task t).isSome
  | .kernel (.exit status waiter) =>
    w.k.curtask ≠ idle ∧ (∀ t ∈ waiter, (w.k.sched.task t).isSome) ∧
      ((Kernel.Op.exit status waiter).Exits w.k → ¬roots w.k.curproc)
  | .kernel (.exitGroup _) => ¬roots w.k.curproc
  | .kernel _ => False
  | .waitpid _ => w.k.curtask ≠ idle
  | .rehash pid tasks => ∃ p, w.k.procs pid = some p ∧ tasks.Perm p.tasks

def Ends (w : Waits) (op : Op) : Prop :=
  w.target op = none ∧ ∃ kop, op = .kernel kop ∧ kop.Exits w.k

def Reaps (w : Waits) (op : Op) (c : Pid) : Prop :=
  match w.target op with
  | none => False
  | some none => ∃ p, (w.k.getChilds w.k.curproc).find? (·.2.state = .Zombie) = some (c, p)
  | some (some pid) => c = pid ∧ ∃ p, w.k.procs pid = some p ∧ p.state = .Zombie

/-- **The condition.** A process ends only while its parent, if that is a zombie, has a task in its
set; a round of `waitpid(pid)` finds the process; and the children of a process that is reaped have
ids below 512. -/
structure Careful (w : Waits) (op : Op) : Prop where
  ends : w.Ends op → w.k.ParentStaffed
  found : ∀ pid, w.target op = some (some pid) → (w.k.procs pid).isSome
  seen : ∀ c, w.Reaps op c → ∀ i q, w.k.procs i = some q → q.parent = c → i < 512

/-- The start: nobody waits. -/
structure Begun (idle : Tid) (roots : Pid → Prop) (w : Waits) : Prop where
  inv : Kernel.Inv w.k
  sane : Kernel.Sane idle roots w.k
  waiting : ∀ t, w.waiting t = none

/-- The invariant of the runs. -/
structure Settled (idle : Tid) (roots : Pid → Prop) (w : Waits) : Prop where
  inv : Kernel.Inv w.k
  sane : Kernel.Sane idle roots w.k
  idle : w.waiting idle = none

/-- **The life cycle of processes.** Every process that is not permanent has a parent that exists;
and every call returns, with a parent that exists and has a task if it ends the process. -/
structure LifeCycle (idle : Tid) (roots : Pid → Prop) (func : UInt64) (w : Waits) : Prop where
  parents : ∀ i p, w.k.procs i = some p → ¬roots i → (w.k.procs p.parent).isSome
  ends : ∀ op, w.Calls idle roots op → w.Careful op → w.Ends op → ∃ p q,
    w.k.procs w.k.curproc = some p ∧ w.k.procs p.parent = some q ∧ q.tasks ≠ []
  returns : ∀ op, w.Calls idle roots op → w.Careful op → ∃ w' r, w.stepOut func op = .ok (w', r)

namespace Settled

/-- The idle task does not wait. -/
theorem curtask_ne (h : Settled idle roots w) (hcalls : w.Calls idle roots op)
    {target : Option Pid} (htarget : w.target op = some target) : w.k.curtask ≠ idle := by
  intro heq
  have hnone : w.waiting w.k.curtask = none := heq ▸ h.idle
  unfold Waits.target at htarget
  rw [hnone] at htarget
  cases op with
  | waitpid target => exact hcalls heq
  | kernel | rehash => cases htarget

theorem kernel (func : UInt64) (h : Settled idle roots w) {kop : Kernel.Op}
    (hcalls : w.Calls idle roots (.kernel kop)) (hends : kop.Exits w.k → w.k.ParentStaffed) :
    ∃ k' out, w.k.stepOut func kop = .ok (k', out) ∧ Kernel.Inv k' ∧ Kernel.Sane idle roots k' := by
  have hsurvive : kop.Survivable w.k := by
    cases kop with
    | sigHandler => exact hcalls.elim
    | _ => trivial
  suffices hstep : ∃ k' out, w.k.stepOut func kop = .ok (k', out) ∧ Kernel.Sane idle roots k' by
    obtain ⟨k', out, hstep, hsane⟩ := hstep
    exact ⟨k', out, hstep, (h.inv.stepOut hsurvive hstep).1, hsane⟩
  obtain ⟨o, p, ho, -, hp⟩ := h.inv.current
  have hcur : (w.k.sched.task w.k.curtask).isSome := Option.isSome_of_mem ho
  cases kop with
  | newThread ctx => exact h.sane.newThread func h.inv ctx
  | clone ctx => exact h.sane.clone func h.inv ctx
  | yield =>
    obtain ⟨k', out, hstep, htended, hprocs⟩ := h.sane.toTended.schedule hcur
    exact ⟨k', out, hstep, htended, hprocs ▸ h.sane.family⟩
  | sleep => exact h.sane.sleep func h.inv hcalls
  | wakeup t =>
    obtain ⟨k', hwake, htended, hprocs, -⟩ := h.sane.toTended.wakeup hcalls
    refine ⟨k', none, ?_, htended, hprocs ▸ h.sane.family⟩
    change (w.k.wakeup t >>= _) = _
    rw [hwake, ok_bind]
  | exit status waiter =>
    obtain ⟨hidle, hwaiter, hroot⟩ := hcalls
    exact h.sane.taskExit h.inv hidle hwaiter fun hlast => ⟨hroot hlast, hends hlast⟩
  | exitGroup status => exact h.sane.exitGroup h.inv status hcalls (hends trivial)
  | createProcess | waitpid | sigHandler | sigSend | run | sigAction | sigProcMask | sigReturn =>
    exact hcalls.elim

section

variable (h : Settled idle roots w)
include h

theorem reap {c : Pid} {p : Process} (hp : w.k.procs c = some p)
    (hz : p.state = .Zombie) (hseen : ∀ i q, w.k.procs i = some q → q.parent = c → i < 512) :
    Settled idle roots (w.reap c p) := by
  refine ⟨(h.inv.zombieExit hp hz).1, h.sane.zombieExit hp hz hseen, ?_⟩
  change update w.waiting w.k.curtask none idle = none
  rw [update_apply, h.idle]
  exact ite_self _

theorem park (hne : w.k.curtask ≠ idle) (target : Option Pid) :
    ∃ w' r, w.park func target = .ok (w', r) ∧ Settled idle roots w' := by
  have hcalls : w.Calls idle roots (.kernel .sleep) := hne
  obtain ⟨k', out, hsleep, hinv, hsane⟩ := h.kernel func hcalls nofun
  refine ⟨{ w with k := k', waiting := update w.waiting w.k.curtask (some target) }, none,
    ?_, hinv, hsane, ?_⟩
  · unfold Waits.park
    rw [hsleep, ok_bind]
  · exact (update_of_ne hne.symm ..).trans h.idle

theorem waitAny (hne : w.k.curtask ≠ idle)
    (hseen : ∀ c, (∃ p, (w.k.getChilds w.k.curproc).find? (·.2.state = .Zombie) = some (c, p)) →
      ∀ i q, w.k.procs i = some q → q.parent = c → i < 512) :
    ∃ w' r, w.waitAny func = .ok (w', r) ∧ Settled idle roots w' := by
  unfold Waits.waitAny
  have hmem : ∀ c p, (c, p) ∈ w.k.getChilds w.k.curproc → w.k.procs c = some p :=
    fun c p hcp => (Kernel.mem_getChilds.1 hcp).2.1
  generalize w.k.getChilds w.k.curproc = childs at hseen hmem
  cases childs with
  | nil =>
    refine ⟨_, some .err, rfl, h.inv, h.sane, ?_⟩
    change update w.waiting w.k.curtask none idle = none
    rw [update_apply, h.idle]
    exact ite_self _
  | cons child childs =>
    cases hfind : (child :: childs).find? (·.2.state = .Zombie) with
    | none =>
      dsimp only
      rw [hfind]
      exact h.park hne none
    | some found =>
      obtain ⟨c, p⟩ := found
      have hz := List.find?_some hfind
      have hz : p.state = .Zombie := of_decide_eq_true hz
      have hp := hmem c p (List.mem_of_find?_eq_some hfind)
      refine ⟨w.reap c p, some (.pid c), ?_, h.reap hp hz (hseen c ⟨p, hfind⟩)⟩
      dsimp only
      rw [hfind]

end

/-- **What a step keeps**: it returns, and the processes are a family afterwards. -/
theorem stepOut (func : UInt64) (h : Settled idle roots w) (hcalls : w.Calls idle roots op)
    (hcareful : w.Careful op) :
    ∃ w' r, w.stepOut func op = .ok (w', r) ∧ Settled idle roots w' := by
  unfold Waits.stepOut
  cases htarget : w.target op with
  | none =>
    cases op with
    | kernel kop =>
      obtain ⟨k', out, hstep, hinv, hsane⟩ := h.kernel func hcalls fun hexits =>
        hcareful.ends ⟨htarget, kop, rfl, hexits⟩
      refine ⟨{ w with k := k' }, none, ?_, hinv, hsane, h.idle⟩
      dsimp only
      rw [hstep, ok_bind]
    | waitpid target => exact absurd rfl ((target_eq_none htarget).2 target)
    | rehash pid tasks =>
      obtain ⟨p, hp, hperm⟩ := hcalls
      refine ⟨{ w with k := w.k.setProc pid { p with tasks } }, none, ?_, ?_, ?_, h.idle⟩
      · dsimp only
        rw [Kernel.proc_ok hp, ok_bind]
      · exact ⟨h.inv.toBase.setProc hp fun t o _ _ _ hstate hmem =>
          ⟨hstate, hperm.mem_iff.2 hmem⟩, h.inv.cur⟩
      · refine ⟨⟨h.sane.held.setProc fun t ht => h.sane.held pid p hp t (hperm.mem_iff.1 ht),
          h.sane.awake⟩, ?_⟩
        refine h.sane.family.set (q := { p with tasks }) hp rfl (fun hstate hnil => ?_)
          fun hr => h.sane.family.permanent pid p hr hp
        have hnil : tasks = [] := hnil
        rw [hnil] at hperm
        exact h.sane.family.staffed pid p hp hstate hperm.nil_eq.symm
  | some target =>
    have hne := h.curtask_ne hcalls htarget
    have hseen := hcareful.seen
    unfold Reaps at hseen
    rw [htarget] at hseen
    cases target with
    | none =>
      change ∃ w' r, w.waitAny func = .ok (w', r) ∧ _
      exact h.waitAny hne hseen
    | some pid =>
      obtain ⟨p, hp⟩ := Option.isSome_iff_exists.1 (hcareful.found pid htarget)
      change ∃ w' r, w.waitPid func pid = _ ∧ _
      unfold Waits.waitPid
      rw [hp]
      by_cases hz : p.state = .Zombie
      · dsimp only
        rw [if_pos hz]
        exact ⟨_, _, rfl, h.reap hp hz (hseen pid ⟨rfl, p, hp, hz⟩)⟩
      · dsimp only
        rw [if_neg hz]
        exact h.park hne (some pid)

end Settled

theorem Settled.lifeCycle (h : Settled idle roots w) : LifeCycle idle roots func w where
  parents i p hp hi := by
    obtain ⟨rank, htree⟩ := h.sane.family.tree
    exact (htree i p hp hi).1
  ends op hcalls hcareful hends := by
    obtain ⟨-, p, -, -, hp⟩ := h.inv.current
    obtain ⟨htarget, kop, rfl, hexits⟩ := hends
    have hroot : ¬roots w.k.curproc := by
      cases kop with
      | exit status waiter => exact hcalls.2.2 hexits
      | exitGroup status => exact hcalls
      | _ => exact hexits.elim
    obtain ⟨q, hq, htasks⟩ := h.sane.parent hp hroot (hcareful.ends ⟨htarget, kop, rfl, hexits⟩)
    exact ⟨p, q, hp, hq, htasks⟩
  returns op hcalls hcareful := by
    obtain ⟨w', r, hstep, -⟩ := h.stepOut func hcalls hcareful
    exact ⟨w', r, hstep⟩

theorem settled_of_reach (hreach : Reach (step func)
    (fun w op => w.Calls idle roots op ∧ w.Careful op) (Begun idle roots) w) :
    Settled idle roots w := by
  refine hreach.invariant (Settled idle roots) (fun w h => ⟨h.inv, h.sane, h.waiting idle⟩) ?_
  rintro w1 w2 op h ⟨hcalls, hcareful⟩ hstep
  obtain ⟨w3, r, hout, hsettled⟩ := h.stepOut func hcalls hcareful
  obtain ⟨⟨w4, r'⟩, hout', hstep⟩ := bind_eq_ok hstep
  rw [hout] at hout'
  cases hout'
  cases hstep
  exact hsettled

/-- **No missing parent.** In every run of careful calls, from any tree of processes, parents exist,
those that `Process::exit` wakes have a task, and no call faults. -/
theorem lifeCycle_of_careful (idle : Tid) (roots : Pid → Prop) (func : UInt64) {w : Waits}
    (hreach : Reach (step func) (fun w op => w.Calls idle roots op ∧ w.Careful op)
      (Begun idle roots) w) : LifeCycle idle roots func w :=
  (settled_of_reach hreach).lifeCycle

/-! ## A run without faults, and one with an empty set -/

instance (k : Kernel) : DecidablePred (Kernel.Op.Exits k) := by
  intro op
  unfold Kernel.Op.Exits
  split <;> infer_instance

instance [DecidablePred roots] (w : Waits) : DecidablePred (w.Calls idle roots) := by
  intro op
  unfold Calls
  split <;> infer_instance

def Mild (w : Waits) (op : Op) : Prop :=
  w.k.procCnt < 512 ∧
  (∀ p ∈ w.k.procs w.k.curproc, ∀ q ∈ w.k.procs p.parent, q.state ≠ .Zombie) ∧
  ∀ target ∈ w.target op, ∀ pid ∈ target, (w.k.procs pid).isSome
  deriving Decidable

theorem Settled.careful (h : Settled idle roots w) (hmild : w.Mild op) : w.Careful op := by
  obtain ⟨hcnt, hstate, hfound⟩ := hmild
  exact ⟨fun _ p q hp hq hz => absurd hz (hstate p hp q hq),
    fun pid htarget => hfound (some pid) htarget pid rfl,
    fun _ _ i q hq _ => (h.inv.freshProc i q hq).trans_lt hcnt⟩

theorem reach_of_mild (hreach : Reach (step func)
    (fun w op => w.Calls idle roots op ∧ w.Mild op) (Begun idle roots) w) :
    Reach (step func) (fun w op => w.Calls idle roots op ∧ w.Careful op) (Begun idle roots) w := by
  induction hreach with
  | start h => exact .start h
  | next _ hok hstep ih =>
    exact ih.next ⟨hok.1, (settled_of_reach ih).careful hok.2⟩ hstep

def booted (i : Pid) : Prop := i = 1 ∨ i = 2
  deriving Decidable

theorem begun_boot : Begun 2 booted boot := by
  have hprocs : ∀ i p, boot.k.procs i = some p → booted i ∧ p = ⟨.Init, 0, [i], 0⟩ := by
    intro i p hp
    change (if i = 1 ∨ i = 2 then _ else _) = _ at hp
    split at hp
    · next hi => exact ⟨hi, (Option.some.inj hp).symm⟩
    · cases hp
  refine ⟨Kernel.inv_boot, ⟨⟨fun i p hp t ht => ?_, ⟨⟨1, .Init⟩, rfl, ?_⟩, fun hne => absurd rfl hne⟩,
    ⟨fun _ => 0, fun i p hp hi => absurd (hprocs i p hp).1 hi⟩, fun i p hp _ => ?_,
    fun i p _ hp => ?_⟩, fun _ => rfl⟩
  · obtain ⟨hi, rfl⟩ := hprocs i p hp
    obtain rfl := List.mem_singleton.1 ht
    refine ⟨?_, fun _ => hi⟩
    rcases hi with rfl | rfl <;> rfl
  · simp [Scheduable.Live]
  · obtain ⟨-, rfl⟩ := hprocs i p hp
    exact List.cons_ne_nil _ _
  · obtain ⟨-, rfl⟩ := hprocs i p hp
    intro h
    cases h

def childExited : List Op :=
  [.kernel .yield, .kernel (.clone SigSystem.boot.cur.ctx), .waitpid none,
    .kernel (.exit 0 none), .kernel .yield]

theorem lifeCycle_childExited : ∃ w, Reach (step 0)
    (fun w op => w.Calls 2 booted op ∧ w.Careful op) (Begun 2 booted) w ∧
    w.reaped = [3] ∧ LifeCycle 2 booted 0 w := by
  obtain ⟨w, -, hw, hreaped⟩ := exists_reach (step 0) (fun w op => w.Calls 2 booted op ∧ w.Mild op)
    childExited begun_boot (·.reaped = [3]) (by decide +kernel)
  have hreach := reach_of_mild hw
  exact ⟨w, hreach, hreaped, lifeCycle_of_careful 2 booted 0 hreach⟩

def parentExited : List Op :=
  [.kernel .yield, .kernel (.clone SigSystem.boot.cur.ctx), .kernel .yield,
    .kernel (.clone SigSystem.boot.cur.ctx), .kernel (.exit 0 none), .kernel .yield]

/-- Its parent has no task left, so the exit of the second child fails an assertion. -/
theorem not_lifeCycle_parentExited : ∃ w, Reach (step 0) (fun w op => w.Calls 2 booted op)
    (Begun 2 booted) w ∧ w.Calls 2 booted (.kernel (.exit 0 none)) ∧
    w.stepOut 0 (.kernel (.exit 0 none)) = .error (.assertion "!tasks.empty()") := by
  obtain ⟨w, -, hreach, hcalls, hfault⟩ := exists_reach (step 0) (fun w op => w.Calls 2 booted op)
    parentExited begun_boot (fun w => w.Calls 2 booted (.kernel (.exit 0 none)) ∧
      fault (w.stepOut 0 (.kernel (.exit 0 none))) = some (.assertion "!tasks.empty()"))
    (by decide +kernel)
  exact ⟨w, hreach, hcalls, fault_eq_some.1 hfault⟩

end Waits

end LuoOS.Sched
