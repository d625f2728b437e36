import LuoOS.Sched.Wait

/-!
# Parked waiters

A task that `waitpid(-1)` has put to sleep is woken by `Process::exit` of a child, which wakes the
task that the parent's set iterates first. If no other task of the parent is parked then, and the
children of whoever waits are seen, a parked task has no zombie child to reap (`quiet_of_heard`).
Zombies that a process gets when a child of it is reaped do no harm: that child was a zombie itself.
-/

namespace LuoOS.Sched

open Signal Runs Function

namespace Waits

def Parked (k : Kernel) (waiting : Tid → Option (Option Pid)) (t : Tid) : Prop :=
  waiting t = some none ∧ ∃ o, k.sched.task t = some o ∧ o.state = .Pending

/-- **A parked waiter has nothing to reap.** -/
def Quiet (k : Kernel) (waiting : Tid → Option (Option Pid)) : Prop :=
  ∀ t, Parked k waiting t → ∀ i p, k.procs i = some p → p.parent = k.sig.proc t →
    p.state ≠ .Zombie

def ParentHears (w : Waits) : Prop :=
  ∀ p, w.k.procs w.k.curproc = some p → ∀ t, Parked w.k w.waiting t → w.k.sig.proc t = p.parent →
    ∃ q, w.k.procs p.parent = some q ∧ q.tasks.head? = some t

def Heard (w : Waits) (op : Op) : Prop :=
  w.Seen op ∧ ∀ kop, op = .kernel kop → w.target op = none → kop.Exits w.k → w.ParentHears

variable {out : Option Tid} {p : Process} {c : Pid}

section Quiet

variable {k k' : Kernel} {waiting : Tid → Option (Option Pid)} {t : Tid}

theorem Parked.waiting_ne (h : Parked k waiting t) : waiting t ≠ none := by
  rw [h.1]
  nofun

/-- Steps that put nothing to sleep park nobody. -/
theorem Parked.moves (h : Kernel.Moves k k') (hparked : Parked k' waiting t) :
    Parked k waiting t := by
  obtain ⟨hwait, o, ho, hpend⟩ := hparked
  exact ⟨hwait, h.pending t o ho hpend⟩

theorem Quiet.moves (h : Kernel.Moves k k') (hquiet : Quiet k waiting)
    (htask : ∀ t, waiting t ≠ none → t ≤ k.taskCnt) (hproc : k.Counted) : Quiet k' waiting := by
  intro t hparked i p' hp' hparent hz
  obtain ⟨p, hp, hz0⟩ := h.zombie i p' hp' hz
  have hsame := h.parent i (hproc i p hp)
  rw [hp, hp', Option.map_some, Option.map_some] at hsame
  have howner : k'.sig.proc t = k.sig.proc t := h.owner t (htask t hparked.waiting_ne)
  refine hquiet t (hparked.moves h) i p hp ?_ hz0
  rw [← howner, ← hparent]
  exact (Option.some.inj hsame).symm

theorem Quiet.suspend (hquiet : Quiet k waiting) {target : Option (Option Pid)} {o : Scheduable}
    (hcur : target = some none → ∀ i p, k.procs i = some p → p.parent = k.curproc →
      p.state ≠ .Zombie) :
    Quiet { k with sched := k.sched.suspend k.curtask o .Pending }
      (update waiting k.curtask target) := by
  rintro t ⟨hwait, o', ho', hpend⟩ i p hp hparent
  by_cases ht : t = k.curtask
  · subst ht
    rw [update_self] at hwait
    exact hcur hwait i p hp hparent
  · rw [update_of_ne ht] at hwait
    rw [Scheduler.task_suspend, if_neg ht] at ho'
    exact hquiet t ⟨hwait, o', ho', hpend⟩ i p hp hparent

theorem not_pending_wakeup {s s' : Scheduler} {o : Scheduable} (h : s.wakeup t = .ok s')
    (ht : s'.task t = some o) : o.state ≠ .Pending := by
  obtain ⟨o', ho', ⟨hne, rfl⟩ | ⟨-, hadd⟩⟩ := Scheduler.wakeup_cases h
  · rw [ho'] at ht
    exact Option.some.inj ht ▸ hne
  · rw [Scheduler.task_add hadd, Scheduler.task_setTask, if_pos rfl] at ht
    rw [← Option.some.inj ht]
    exact nofun

theorem Quiet.processExit (hquiet : Quiet k waiting)
    (htask : ∀ t, waiting t ≠ none → t ≤ k.taskCnt) (hproc : k.Counted) {pid : Pid} {status : Int}
    (hhears : ∀ p, k.procs pid = some p → ∀ t, Parked k waiting t → k.sig.proc t = p.parent →
      ∀ q u, k.procs p.parent = some q → q.tasks.head? = some u → u = t)
    (h : k.processExit pid status = .ok (k', out)) : Quiet k' waiting := by
  obtain ⟨p, parent, u, k1, hp, hparent, hhead, hwake, hsched⟩ := Kernel.processExit_eq h
  have hmoves := Kernel.Moves.wakeup hwake
  obtain ⟨s, hs, hk1⟩ := bind_eq_ok hwake
  cases hk1
  -- the parent's first task is the same before and after the process is marked
  obtain ⟨q, hq, hqhead⟩ : ∃ q, k.procs p.parent = some q ∧ q.tasks.head? = some u := by
    rw [Kernel.procs_setProc] at hparent
    split at hparent
    · rename_i heq
      rw [← Option.some.inj hparent] at hhead
      exact ⟨p, heq ▸ hp, hhead⟩
    · exact ⟨parent, hparent, hhead⟩
  have hquiet1 : Quiet { k.setProc pid (p.zombie status) with
      sched := s } waiting := by
    rintro t hparked i p' hp' hparent' hz
    have hparked0 := hparked.moves hmoves
    have htu : t ≠ u := by
      rintro rfl
      obtain ⟨-, o, ho, hpend⟩ := hparked
      exact not_pending_wakeup hs ho hpend
    have hp'' : (k.setProc pid (p.zombie status)).procs i = some p' := hp'
    rw [Kernel.procs_setProc] at hp''
    split at hp''
    · rw [← Option.some.inj hp''] at hparent'
      exact htu (hhears p hp t hparked0 hparent'.symm q u hq hqhead).symm
    · exact hquiet t hparked0 i p' hp'' hparent' hz
  have hset : Kernel.Kin k (k.setProc pid (p.zombie status)) := .setProc hp rfl
  exact hquiet1.moves (.schedule hsched) htask (hset.counted hproc)

theorem taskCnt_processExit {pid : Pid} {status : Int}
    (h : k.processExit pid status = .ok (k', out)) : k.taskCnt ≤ k'.taskCnt := by
  obtain ⟨p, parent, u, k1, -, -, -, hwake, hsched⟩ := Kernel.processExit_eq h
  exact ((Kernel.Moves.wakeup hwake).trans (.schedule hsched)).taskCnt

/-- Reaping hands the children of a zombie to its parent, which had a zombie child before. -/
theorem Quiet.zombieExit (hquiet : Quiet k waiting)
    (hp : k.procs c = some p) (hz : p.state = .Zombie) : Quiet (k.zombieExit c p) waiting := by
  intro t hparked i p' hp' hparent
  rw [zombieExit_procs] at hp'
  split at hp'
  · cases hp'
  obtain ⟨q, hq, rfl⟩ := Option.map_eq_some_iff.1 hp'
  split at hparent
  · exact absurd hz (hquiet t hparked c p hp hparent)
  · rename_i hkeep
    rw [if_neg hkeep]
    exact hquiet t hparked i q hq hparent

end Quiet

/-! ## Runs -/

/-- The invariant: whoever is parked has nothing to reap. -/
structure Inv (w : Waits) : Prop where
  logged : Logged w
  fresh : ∀ t, w.waiting t ≠ none → t ≤ w.k.taskCnt
  quiet : Quiet w.k w.waiting

namespace Inv

variable {func : UInt64} {w w' : Waits} {op : Op} {r : Option Result}

section

variable (h : Inv w)
include h

theorem curtask_le : w.k.curtask ≤ w.k.taskCnt := by
  obtain ⟨o, ho, -⟩ := h.logged.inv.cur
  exact h.logged.inv.freshTask _ o ho

theorem leave : (∀ t, update w.waiting w.k.curtask none t ≠ none → t ≤ w.k.taskCnt) ∧
      Quiet w.k (update w.waiting w.k.curtask none) := by
  have hsub : ∀ t, update w.waiting w.k.curtask none t ≠ none →
      update w.waiting w.k.curtask none t = w.waiting t := by
    intro t ht
    by_cases hcur : t = w.k.curtask
    · subst hcur
      exact absurd (update_self ..) ht
    · exact update_of_ne hcur _ _
  refine ⟨fun t ht => h.fresh t (hsub t ht ▸ ht), fun t hparked => ?_⟩
  exact h.quiet t ⟨(hsub t hparked.waiting_ne).symm.trans hparked.1, hparked.2⟩

theorem reap (hp : w.k.procs c = some p) (hz : p.state = .Zombie) : Inv (w.reap c p) :=
  ⟨h.logged.reap hp hz, h.leave.1, h.leave.2.zombieExit hp hz⟩

theorem park {target : Option Pid}
    (hcur : target = none → ∀ i p, w.k.procs i = some p → p.parent = w.k.curproc →
      p.state ≠ .Zombie) (hpark : w.park func target = .ok (w', r)) : Inv w' := by
  have hlog := h.logged.park hpark
  obtain ⟨-, -, hwait, out, hsleep⟩ := park_eq hpark
  obtain ⟨s, hs, hsched⟩ := bind_eq_ok hsleep
  obtain ⟨o, -, rfl⟩ := Scheduler.sleep_eq hs
  have hmoves := Kernel.Moves.schedule hsched
  have hfresh : ∀ t, w'.waiting t ≠ none → t ≤ w.k.taskCnt := by
    intro t ht
    rw [hwait] at ht
    by_cases hct : t = w.k.curtask
    · exact hct ▸ h.curtask_le
    · rw [update_of_ne hct] at ht
      exact h.fresh t ht
  refine ⟨hlog, fun t ht => (hfresh t ht).trans hmoves.taskCnt, ?_⟩
  refine Quiet.moves hmoves ?_ hfresh h.logged.inv.freshProc
  rw [hwait]
  exact h.quiet.suspend fun htarget => hcur (Option.some.inj htarget)

theorem kernel {kop : Kernel.Op} (hmix : kop.Mixes)
    (hidle : w.waiting w.k.curtask = none) (hwait : w'.waiting = w.waiting)
    (hreaped : w'.reaped = w.reaped) (hhears : kop.Exits w.k → w.ParentHears)
    (hstep : w.k.stepOut func kop = .ok (w'.k, out)) : Inv w' := by
  have hlog := h.logged.kernel hmix hstep hreaped
  have hproc := h.logged.inv.freshProc
  obtain hmoves | ⟨o, hmoves⟩ | ⟨hexits, status, k1, hmoves, hhead, hexit⟩ :=
    Kernel.stepOut_cases hmix hstep
  · refine ⟨hlog, fun t ht => (h.fresh t (hwait ▸ ht)).trans hmoves.taskCnt, ?_⟩
    rw [hwait]
    exact h.quiet.moves hmoves h.fresh hproc
  · refine ⟨hlog, fun t ht => (h.fresh t (hwait ▸ ht)).trans hmoves.taskCnt, ?_⟩
    rw [hwait]
    refine Quiet.moves hmoves ?_ h.fresh hproc
    have hsame : update w.waiting w.k.curtask none = w.waiting := by
      rw [← hidle]
      exact update_eq_self ..
    rw [← hsame]
    exact h.quiet.suspend nofun
  · have hfresh : ∀ t, w'.waiting t ≠ none → t ≤ w.k.taskCnt := fun t ht =>
      h.fresh t (hwait ▸ ht)
    have hquiet1 := h.quiet.moves hmoves h.fresh hproc
    obtain ⟨oc, hoc, hlive⟩ := h.logged.inv.cur
    obtain ⟨p0, hp0, -⟩ : ∃ p0, w.k.procs w.k.curproc = some p0 ∧ _ :=
      h.logged.inv.alive _ oc hoc fun hz => hlive (.inl hz)
    have hquiet' : Quiet w'.k w.waiting := by
      refine hquiet1.processExit (fun t ht => (h.fresh t ht).trans hmoves.taskCnt)
        (hmoves.counted hproc) (fun p hp t hparked howner q u hq hu => ?_) hexit
      have hparent := hmoves.parent _ (hproc _ p0 hp0)
      rw [hp0, hp] at hparent
      have hparent : p.parent = p0.parent := Option.some.inj hparent
      have howner0 := hmoves.owner t (h.fresh t hparked.waiting_ne)
      obtain ⟨q0, hq0, hhead0⟩ := hhears hexits p0 hp0 t (hparked.moves hmoves)
        (howner0.symm.trans (howner.trans hparent))
      obtain ⟨q1, hq1, hhead1⟩ := hhead _ q u hq hu
      rw [hparent, hq0] at hq1
      rw [Option.some.inj hq1, hhead1] at hhead0
      exact Option.some.inj hhead0
    refine ⟨hlog, fun t ht => (hfresh t ht).trans ?_, hwait ▸ hquiet'⟩
    exact hmoves.taskCnt.trans (taskCnt_processExit hexit)

theorem step (hallowed : w.Allowed op) (hheard : w.Heard op)
    (hstep : w.stepOut func op = .ok (w', r)) : Inv w' := by
  obtain ⟨htarget, hany⟩ | ⟨pid, -, hpid⟩ | ⟨htarget, -, hwait, hreaped, hidle, hrest⟩ :=
    stepOut_cases hallowed hstep
  · obtain ⟨-, rfl, -⟩ | ⟨c, p, hmem, hz, -, rfl⟩ | ⟨hnone, hpark⟩ := waitAny_cases hany
    · exact ⟨⟨h.logged.inv, h.logged.nodup, h.logged.gone⟩, h.leave.1, h.leave.2⟩
    · exact h.reap (Kernel.mem_getChilds.1 hmem).2.1 hz
    · -- no child that is seen is a zombie, and all of them are seen
      refine h.park (fun _ i p hp hparent => hnone i p (Kernel.mem_getChilds.2 ?_)) hpark
      exact ⟨hheard.1 htarget i p hp hparent, hp, hparent⟩
  · obtain ⟨p, hp, hz, -, rfl⟩ | hpark := waitPid_cases hpid
    · exact h.reap hp hz
    · refine h.park ?_ hpark
      exact nofun
  · obtain ⟨kop, out, rfl, hmix, hkernel⟩ | ⟨pid, p, tasks, hp, hperm, hk⟩ := hrest
    · exact h.kernel hmix hidle hwait hreaped (hheard.2 kop rfl htarget) hkernel
    have hmoves : Kernel.Moves w.k (w.k.setProc pid { p with tasks }) := .setProc hp rfl id
    refine ⟨h.logged.rehash hp hperm hk hreaped, fun t ht => ?_, ?_⟩
    · rw [hk]
      exact h.fresh t (hwait ▸ ht)
    · rw [hk, hwait]
      exact h.quiet.moves hmoves h.fresh h.logged.inv.freshProc

end

end Inv

variable {w : Waits}

theorem Started.parked (h : Started w) : Inv w := by
  refine ⟨h.logged, fun t ht => absurd (h.waiting t) ht, fun t hparked => ?_⟩
  rw [Parked, h.waiting t] at hparked
  cases hparked.1

theorem inv_of_reach {func : UInt64}
    (hreach : Reach (step func) (fun w op => w.Allowed op ∧ w.Heard op) Started w) : Inv w := by
  refine hreach.invariant Inv (fun _ => Started.parked) fun w1 w2 op hinv hok hstep => ?_
  obtain ⟨⟨w3, r⟩, hout, hstep⟩ := bind_eq_ok hstep
  cases hstep
  exact hinv.step hok.1 hok.2 hout

/-- **A parked waiter has nothing to reap** after steps in which the children of whoever waits
are seen and every process that exits wakes the only parked task of its parent. -/
theorem quiet_of_heard (func : UInt64) {w : Waits}
    (hreach : Reach (step func) (fun w op => w.Allowed op ∧ w.Heard op) Started w) :
    Quiet w.k w.waiting :=
  (inv_of_reach hreach).quiet

/-! ## Default tasks and others -/

def DefaultsWait (w : Waits) : Prop :=
  ∀ t < w.k.taskCnt + 1, w.waiting t ≠ none →
    ∃ q ∈ w.k.procs (w.k.sig.proc t), q.tasks.head? = some t

instance (w : Waits) : Decidable w.DefaultsWait :=
  inferInstanceAs (Decidable (∀ t < w.k.taskCnt + 1, _ → _))

/-- As long as only default tasks wait, and no more than 511 processes were made, every exit is
heard. -/
theorem reach_of_defaults {func : UInt64}
    (h : Reach (step func) (fun w op => w.Allowed op ∧ w.k.procCnt < 512 ∧ w.DefaultsWait)
      Started w) : Reach (step func) (fun w op => w.Allowed op ∧ w.Heard op) Started w := by
  induction h with
  | start h => exact .start h
  | next hreach hok hstep ih =>
    have hinv := inv_of_reach ih
    obtain ⟨hallowed, hfew, hdefaults⟩ := hok
    refine ih.next ⟨hallowed, fun _ i p hp _ => ?_, fun _ _ _ _ p _ t hparked hparent => ?_⟩ hstep
    · exact (hinv.logged.inv.freshProc i p hp).trans_lt hfew
    · have hlt := Nat.lt_succ_of_le (hinv.fresh t hparked.waiting_ne)
      obtain ⟨q, hq, hhead⟩ := hdefaults t hlt hparked.waiting_ne
      exact ⟨q, hparent ▸ hq, hhead⟩

def waitsAgain : List Op :=
  [.kernel .yield, .kernel (.clone SigSystem.boot.cur.ctx), .kernel (.clone SigSystem.boot.cur.ctx),
    .waitpid none, .kernel (.exitGroup 0), .kernel .yield, .kernel .yield, .waitpid none]

theorem quiet_waitsAgain : ∃ w, Reach (step 0) (fun w op => w.Allowed op ∧ w.Heard op) Started w ∧
    w.reaped = [3] ∧ Parked w.k w.waiting 1 ∧ Quiet w.k w.waiting := by
  obtain ⟨w, -, hw, hreaped, hwait, htask⟩ := exists_reach (step 0)
    (fun w op => w.Allowed op ∧ w.k.procCnt < 512 ∧ w.DefaultsWait) waitsAgain started_boot
    (fun w => w.reaped = [3] ∧ w.waiting 1 = some none ∧
      (w.k.sched.task 1).map (·.state) = some .Pending) (by decide +kernel)
  obtain ⟨o, ho, hpend⟩ := Option.map_eq_some_iff.1 htask
  have hreach := reach_of_defaults hw
  exact ⟨w, hreach, hreaped, ⟨hwait, o, ho, hpend⟩, quiet_of_heard 0 hreach⟩

def threadWaits : List Op :=
  [.kernel .yield, .kernel (.newThread SigSystem.boot.cur.ctx),
    .kernel (.clone SigSystem.boot.cur.ctx), .waitpid none, .kernel .yield, .kernel (.exitGroup 0)]

/-- **A parked waiter may have a child to reap.** The child wakes the default task of its parent,
and the thread that waits for it sleeps on. -/
theorem not_quiet_threadWaits : ∃ w p, Reach (step 0) (fun w op => w.Allowed op) Started w ∧
    Parked w.k w.waiting 1 ∧ w.k.procs 3 = some p ∧ p.parent = w.k.sig.proc 1 ∧
    p.state = .Zombie := by
  obtain ⟨w, -, hreach, hwait, htask, hproc⟩ := exists_reach (step 0) (fun w op => w.Allowed op)
    threadWaits started_boot (fun w => w.waiting 1 = some none ∧
      (w.k.sched.task 1).map (·.state) = some .Pending ∧
      (w.k.procs 3).map (fun p => (p.parent, p.state)) = some (w.k.sig.proc 1, .Zombie))
    (by decide +kernel)
  obtain ⟨o, ho, hpend⟩ := Option.map_eq_some_iff.1 htask
  obtain ⟨p, hp, hchild⟩ := Option.map_eq_some_iff.1 hproc
  obtain ⟨hparent, hz⟩ := Prod.mk.inj hchild
  exact ⟨w, p, hreach, ⟨hwait, o, ho, hpend⟩, hp, hparent, hz⟩

end Waits

end LuoOS.Sched
