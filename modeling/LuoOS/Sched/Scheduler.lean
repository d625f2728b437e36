import LuoOS.Klib
import LuoOS.Lib.Runs
import Mathlib.Data.Finset.Basic
import Mathlib.Data.List.FinRange

/-!
# The scheduler

`kernel/sched.cc`: a list of ready tasks for each priority, a set of pending ones, and the `state`
that every task carries itself. That a task is in the right place is a property of whole runs
(`Hart.queues_consistent`). `Queues s out` says that the lists are right but for the tasks of `out`,
which are in none; picking or removing a task puts it into `out`, and `add` takes it back.
-/

namespace LuoOS.Sched

open Runs Function

/-- The states of a task. -/
inductive State where
  | Init
  | Ready
  | Running
  | Pending
  | Zombie
  deriving DecidableEq

def maxPrior : Nat := 1

instance (priority := high) neZero_priors : NeZero (maxPrior + 1) := ⟨by decide⟩

/-- A task, as far as the scheduler looks at it. -/
structure Scheduable where
  prior : Fin (maxPrior + 1)
  state : State

def Scheduable.Live (o : Scheduable) : Prop := ¬(o.state = .Zombie ∨ o.state = .Pending)

/-- The tasks, the ready lists and the pending set. -/
structure Scheduler where
  task : Tid → Option Scheduable
  ready : Fin (maxPrior + 1) → List Tid
  pending : Finset Tid

namespace Scheduler

def deref (s : Scheduler) (t : Tid) : Kern Scheduable :=
  match s.task t with
  | some o => .ok o
  | none => .error .wildPointer

def setTask (s : Scheduler) (t : Tid) (o : Scheduable) : Scheduler :=
  { s with task := update s.task t (some o) }

def setReady (s : Scheduler) (i : Fin (maxPrior + 1)) (ts : List Tid) : Scheduler :=
  { s with ready := update s.ready i ts }

def add (s : Scheduler) (t : Tid) : Kern Scheduler := do
  let o ← s.deref t
  if o.state = .Zombie ∨ o.state = .Pending then .ok s
  else .ok (s.setReady o.prior (s.ready o.prior ++ [t]))

def popFront (s : Scheduler) : List (Fin (maxPrior + 1)) → Option Tid × Scheduler
  | [] => (none, s)
  | i :: is =>
    match s.ready i with
    | [] => s.popFront is
    | t :: ts => (some t, s.setReady i ts)

def next (s : Scheduler) (prev : Option Tid) : Kern (Option Tid × Scheduler) := do
  let s ← match prev with
    | some t => s.add t
    | none => .ok s
  .ok (s.popFront (List.finRange (maxPrior + 1)))

def sleep (s : Scheduler) (t : Tid) : Kern Scheduler := do
  let o ← s.deref t
  if o.state = .Pending then .error (.assertion "task->state!=Pending")
  else
    let s := (s.setTask t { o with state := .Pending }).setReady o.prior
      ((s.ready o.prior).filter (· ≠ t))
    .ok { s with pending := insert t s.pending }

def wakeup (s : Scheduler) (t : Tid) : Kern Scheduler := do
  let o ← s.deref t
  if o.state ≠ .Pending then .ok s
  else
    let s := { s with pending := s.pending.erase t }
    (s.setTask t { o with state := .Ready }).add t

def remove (s : Scheduler) (t : Tid) : Kern Scheduler := do
  let o ← s.deref t
  let s := { s with pending := insert t s.pending }
  .ok (s.setReady o.prior ((s.ready o.prior).filter (· ≠ t)))

def retire (s : Scheduler) (t : Tid) : Kern Scheduler := do
  let o ← s.deref t
  (s.setTask t { o with state := .Zombie }).remove t

def schedule (s : Scheduler) (cur : Tid) : Kern (Tid × Scheduler) := do
  match ← s.next (some cur) with
  | (some t, s) => .ok (t, s)
  | (none, _) => .error .wildPointer

end Scheduler

/-! ## What an operation does -/

variable {cur u : Tid}

section Effects

variable {s s' : Scheduler} {t : Tid} {o : Scheduable}

def Scheduler.suspend (s : Scheduler) (t : Tid) (o : Scheduable) (st : State) : Scheduler where
  task := update s.task t (some { o with state := st })
  ready := update s.ready o.prior ((s.ready o.prior).filter (· ≠ t))
  pending := insert t s.pending

namespace Scheduler

@[simp] theorem task_setTask (u : Tid) :
    (s.setTask t o).task u = if u = t then some o else s.task u :=
  update_apply ..

@[simp] theorem ready_setTask : (s.setTask t o).ready = s.ready := rfl

@[simp] theorem pending_setTask : (s.setTask t o).pending = s.pending := rfl

section

variable (i : Fin (maxPrior + 1)) (ts : List Tid)
include i ts

@[simp] theorem task_setReady : (s.setReady i ts).task = s.task := rfl

@[simp] theorem ready_setReady (j : Fin (maxPrior + 1)) :
    (s.setReady i ts).ready j = if j = i then ts else s.ready j :=
  update_apply ..

@[simp] theorem pending_setReady : (s.setReady i ts).pending = s.pending := rfl

end

@[simp] theorem task_suspend (st : State) (u : Tid) : (s.suspend t o st).task u =
    if u = t then some { o with state := st } else s.task u :=
  update_apply ..

@[simp] theorem ready_suspend (st : State) (j : Fin (maxPrior + 1)) : (s.suspend t o st).ready j =
    if j = o.prior then (s.ready o.prior).filter (· ≠ t) else s.ready j :=
  update_apply ..

@[simp] theorem pending_suspend (st : State) : (s.suspend t o st).pending = insert t s.pending := rfl

theorem deref_eq_ok (h : s.deref t = .ok o) : s.task t = some o := by
  unfold deref at h
  split at h
  · rename_i o' ho
    rw [ho, Except.ok.inj h]
  · cases h

theorem add_cases (h : s.add t = .ok s') : ∃ o, s.task t = some o ∧
    (¬o.Live ∧ s' = s ∨ o.Live ∧ s' = s.setReady o.prior (s.ready o.prior ++ [t])) := by
  obtain ⟨o, ho, h⟩ := bind_eq_ok h
  refine ⟨o, deref_eq_ok ho, ?_⟩
  split at h
  · rename_i hdead
    exact .inl ⟨not_not_intro hdead, (Except.ok.inj h).symm⟩
  · rename_i hlive
    exact .inr ⟨hlive, (Except.ok.inj h).symm⟩

theorem task_add (h : s.add t = .ok s') : s'.task = s.task := by
  obtain ⟨o, -, ⟨-, rfl⟩ | ⟨-, rfl⟩⟩ := add_cases h <;> rfl

theorem sleep_eq (h : s.sleep t = .ok s') :
    ∃ o, s.task t = some o ∧ s' = s.suspend t o .Pending := by
  obtain ⟨o, ho, h⟩ := bind_eq_ok h
  refine ⟨o, deref_eq_ok ho, ?_⟩
  split at h
  · cases h
  · exact (Except.ok.inj h).symm

theorem retire_eq (h : s.retire t = .ok s') :
    ∃ o, s.task t = some o ∧ s' = s.suspend t o .Zombie := by
  obtain ⟨o, ho, h⟩ := bind_eq_ok h
  obtain ⟨o', ho', h⟩ := bind_eq_ok h
  have heq : o' = { o with state := .Zombie } := by
    simpa using (deref_eq_ok ho').symm
  subst heq
  exact ⟨o, deref_eq_ok ho, (Except.ok.inj h).symm⟩

theorem wakeup_cases (h : s.wakeup t = .ok s') : ∃ o, s.task t = some o ∧
    (o.state ≠ .Pending ∧ s' = s ∨ o.state = .Pending ∧
      ({ s with pending := s.pending.erase t }.setTask t { o with state := .Ready }).add t =
        .ok s') := by
  obtain ⟨o, ho, h⟩ := bind_eq_ok h
  refine ⟨o, deref_eq_ok ho, ?_⟩
  split at h
  · rename_i hne
    exact .inl ⟨hne, (Except.ok.inj h).symm⟩
  · rename_i heq
    exact .inr ⟨not_not.1 heq, h⟩

theorem task_wakeup (h : s.wakeup t = .ok s') (hu : s.task u = some o)
    (hne : o.state ≠ .Pending) : s'.task u = some o := by
  obtain ⟨o', ht, ⟨-, rfl⟩ | ⟨hpending, hadd⟩⟩ := wakeup_cases h
  · exact hu
  have hut : u ≠ t := by
    rintro rfl
    rw [hu] at ht
    exact hne (Option.some.inj ht ▸ hpending)
  rw [task_add hadd, task_setTask, if_neg hut]
  exact hu

theorem popFront_eq {is : List (Fin (maxPrior + 1))} (h : s.popFront is = (some t, s')) :
    ∃ i ts, s.ready i = t :: ts ∧ s' = s.setReady i ts := by
  induction is with
  | nil => simp [popFront] at h
  | cons i is ih =>
    unfold popFront at h
    split at h
    · exact ih h
    rename_i u ts hready
    obtain ⟨hu, hs⟩ := Prod.mk.inj h
    rw [Option.some.inj hu] at hready
    exact ⟨i, ts, hready, hs.symm⟩

theorem schedule_eq (h : s.schedule cur = .ok (t, s')) :
    ∃ s1 i ts, s.add cur = .ok s1 ∧ s1.ready i = t :: ts ∧ s' = s1.setReady i ts := by
  obtain ⟨⟨t', s2⟩, hnext, h⟩ := bind_eq_ok h
  obtain ⟨s1, hadd, hpop⟩ := bind_eq_ok hnext
  split at h
  · rename_i u s3 heq
    cases heq
    cases h
    obtain ⟨i, ts, hready, hs⟩ := popFront_eq (Except.ok.inj hpop)
    exact ⟨s1, i, ts, hadd, hready, hs⟩
  · cases h

end Scheduler

end Effects

/-! ## Ready tasks are live -/

def ReadyLive (s : Scheduler) : Prop :=
  ∀ i, ∀ t ∈ s.ready i, ∃ o, s.task t = some o ∧ o.prior = i ∧ o.Live

variable {i : Fin (maxPrior + 1)} {ts : List Tid} {st : State}

section ReadyLive

variable {s s' : Scheduler} {t : Tid} {o : Scheduable}

section

variable (h : ReadyLive s)
include h

theorem ReadyLive.notMem (ht : s.task t = some o) (ho : ¬o.Live) (i : Fin (maxPrior + 1)) :
    t ∉ s.ready i := by
  intro hmem
  obtain ⟨o', ht', -, hlive⟩ := h i t hmem
  rw [ht] at ht'
  cases ht'
  exact ho hlive

theorem ReadyLive.unique {j : Fin (maxPrior + 1)} (hi : t ∈ s.ready i) (hj : t ∈ s.ready j) :
    i = j := by
  obtain ⟨o, ho, hoi, -⟩ := h i t hi
  obtain ⟨o', ho', hoj, -⟩ := h j t hj
  rw [ho] at ho'
  cases ho'
  exact hoi.symm.trans hoj

theorem ReadyLive.setTask (ht : ∀ i, t ∉ s.ready i) : ReadyLive (s.setTask t o) := by
  intro i u hu
  have hne : u ≠ t := fun heq => ht i (heq ▸ hu)
  simpa [hne] using h i u hu

theorem ReadyLive.add (hadd : s.add t = .ok s') : ReadyLive s' := by
  obtain ⟨o, ht, ⟨-, rfl⟩ | ⟨hlive, rfl⟩⟩ := Scheduler.add_cases hadd
  · exact h
  intro i u hu
  rw [Scheduler.ready_setReady] at hu
  split at hu
  · rename_i heq
    subst heq
    rcases List.mem_append.1 hu with hu | hu
    · exact h _ u hu
    · obtain rfl := List.mem_singleton.1 hu
      exact ⟨o, ht, rfl, hlive⟩
  · exact h i u hu

/-- `t` is only in the list of its own priority, so `suspend` takes it out of all of them. -/
theorem ReadyLive.mem_suspend (ht : s.task t = some o) :
    u ∈ (s.suspend t o st).ready i ↔ u ∈ s.ready i ∧ u ≠ t := by
  rw [Scheduler.ready_suspend]
  split
  · rename_i heq
    simp [heq]
  rename_i hne
  refine ⟨fun hu => ⟨hu, ?_⟩, fun hu => hu.1⟩
  rintro rfl
  obtain ⟨o', ho', rfl, -⟩ := h i u hu
  rw [ht] at ho'
  exact hne (congrArg Scheduable.prior (Option.some.inj ho').symm)

theorem ReadyLive.suspend (ht : s.task t = some o) (st : State) : ReadyLive (s.suspend t o st) := by
  intro i u hu
  obtain ⟨hu, hne⟩ := (h.mem_suspend ht).1 hu
  simpa [hne] using h i u hu

theorem ReadyLive.wakeup (hwake : s.wakeup t = .ok s') : ReadyLive s' := by
  obtain ⟨o, ht, ⟨-, rfl⟩ | ⟨hpending, hadd⟩⟩ := Scheduler.wakeup_cases hwake
  · exact h
  · have hnot := h.notMem ht fun hlive => hlive (.inr hpending)
    have herased : ReadyLive { s with pending := s.pending.erase t } := h
    exact (herased.setTask hnot).add hadd

theorem ReadyLive.pop (hready : s.ready i = t :: ts) : ReadyLive (s.setReady i ts) := by
  intro j u hu
  rw [Scheduler.ready_setReady] at hu
  split at hu
  · rename_i heq
    subst heq
    refine h _ u ?_
    rw [hready]
    exact List.mem_cons_of_mem t hu
  · exact h j u hu

end

end ReadyLive

/-! ## Zombies stay zombies -/

def NoRevival (s s' : Scheduler) : Prop :=
  ∀ t o, s'.task t = some o → ∃ o', s.task t = some o' ∧ (o'.state = .Zombie → o.state = .Zombie)

namespace NoRevival

variable {s s' s'' : Scheduler} {t : Tid} {o : Scheduable}

theorem refl (s : Scheduler) : NoRevival s s := fun _ o ho => ⟨o, ho, id⟩

theorem trans (h : NoRevival s s') (h' : NoRevival s' s'') : NoRevival s s'' := by
  intro t o ho
  obtain ⟨o', ho', hz'⟩ := h' t o ho
  obtain ⟨o'', ho'', hz''⟩ := h t o' ho'
  exact ⟨o'', ho'', hz' ∘ hz''⟩

theorem add (h : s.add t = .ok s') : NoRevival s s' := by
  intro u o hu
  rw [Scheduler.task_add h] at hu
  exact ⟨o, hu, id⟩

theorem setTask (ht : s.task t = some o) (hz : o.state ≠ .Zombie) (o' : Scheduable) :
    NoRevival s (s.setTask t o') := by
  intro u o'' hu
  rw [Scheduler.task_setTask] at hu
  split at hu
  · rename_i heq
    exact ⟨o, heq ▸ ht, fun h => absurd h hz⟩
  · exact ⟨o'', hu, id⟩

theorem suspend (ht : s.task t = some o) (hst : o.state = .Zombie → st = .Zombie) :
    NoRevival s (s.suspend t o st) := by
  intro u o' hu
  rw [Scheduler.task_suspend] at hu
  split at hu
  · rename_i heq
    cases hu
    exact ⟨o, heq ▸ ht, hst⟩
  · exact ⟨o', hu, id⟩

theorem wakeup (h : s.wakeup t = .ok s') : NoRevival s s' := by
  obtain ⟨o, ht, ⟨-, rfl⟩ | ⟨hpending, hadd⟩⟩ := Scheduler.wakeup_cases h
  · exact .refl _
  have hset : NoRevival s ({ s with pending := s.pending.erase t }.setTask t
      { o with state := .Ready }) :=
    setTask (s := { s with pending := s.pending.erase t }) ht (by simp [hpending]) _
  exact hset.trans (add hadd)

theorem schedule (h : s.schedule cur = .ok (t, s')) : NoRevival s s' := by
  obtain ⟨s1, i, ts, hadd, -, rfl⟩ := Scheduler.schedule_eq h
  exact fun u o hu => add hadd u o hu

theorem retire (h : s.retire t = .ok s') : NoRevival s s' := by
  obtain ⟨o, ht, rfl⟩ := Scheduler.retire_eq h
  exact suspend ht fun _ => rfl

end NoRevival

/-! ## The lists are right -/

/-- The lists are right but for the tasks of `out`. -/
structure Queues (s : Scheduler) (out : Finset Tid) : Prop where
  live : ReadyLive s
  nodup : ∀ i, (s.ready i).Nodup
  notMem : ∀ t ∈ out, ∀ i, t ∉ s.ready i
  pending : ∀ t o, s.task t = some o → o.state = .Pending → t ∈ s.pending
  queued : ∀ t o, s.task t = some o → o.Live → t ∈ out ∨ t ∈ s.ready o.prior

namespace Queues

variable {s s' : Scheduler} {t : Tid} {o : Scheduable} {out : Finset Tid}

section

variable (h : Queues s out)
include h

theorem add (ht : t ∈ out) (hadd : s.add t = .ok s') : Queues s' (out.erase t) := by
  obtain ⟨o, ho, hcases⟩ := Scheduler.add_cases hadd
  have hlive := h.live.add hadd
  rcases hcases with ⟨hdead, rfl⟩ | ⟨-, rfl⟩
  · refine ⟨hlive, h.nodup, fun u hu => h.notMem u (Finset.mem_of_mem_erase hu), h.pending, ?_⟩
    intro u o' hu hlive'
    refine (h.queued u o' hu hlive').imp_left fun hmem => Finset.mem_erase.2 ⟨?_, hmem⟩
    rintro rfl
    rw [ho] at hu
    exact hdead (Option.some.inj hu ▸ hlive')
  · refine ⟨hlive, fun i => ?_, fun u hu i => ?_, h.pending, fun u o' hu hlive' => ?_⟩
    · rw [Scheduler.ready_setReady]
      split
      · rw [← List.concat_eq_append]
        exact List.Nodup.concat (h.notMem t ht o.prior) (h.nodup o.prior)
      · exact h.nodup i
    · obtain ⟨hne, hu⟩ := Finset.mem_erase.1 hu
      have := h.notMem u hu
      rw [Scheduler.ready_setReady]
      split <;> simp [*]
    · rw [Scheduler.task_setReady] at hu
      rw [Scheduler.ready_setReady]
      rcases eq_or_ne u t with rfl | hne
      · rw [ho] at hu
        cases hu
        simp
      rcases h.queued u o' hu hlive' with hmem | hmem
      · exact .inl (Finset.mem_erase.2 ⟨hne, hmem⟩)
      right
      split
      · rename_i heq
        exact List.mem_append_left _ (heq ▸ hmem)
      · exact hmem

theorem pop (hready : s.ready i = t :: ts) : Queues (s.setReady i ts) (insert t out) := by
  have hnodup := h.nodup i
  rw [hready, List.nodup_cons] at hnodup
  have honly : ∀ j, j ≠ i → t ∉ s.ready j := by
    intro j hne hmem
    exact hne (h.live.unique hmem (hready ▸ List.mem_cons_self))
  refine ⟨h.live.pop hready, fun j => ?_, fun u hu j => ?_, h.pending, fun u o hu hlive => ?_⟩
  · rw [Scheduler.ready_setReady]
    split
    · exact hnodup.2
    · exact h.nodup j
  · rw [Scheduler.ready_setReady]
    rcases Finset.mem_insert.1 hu with rfl | hu
    · split
      · exact hnodup.1
      · rename_i hne
        exact honly j hne
    · split
      · intro hmem
        exact h.notMem u hu i (hready ▸ List.mem_cons_of_mem t hmem)
      · exact h.notMem u hu j
  · rw [Scheduler.ready_setReady]
    rcases h.queued u o hu hlive with hmem | hmem
    · exact .inl (Finset.mem_insert_of_mem hmem)
    split
    · rename_i heq
      rw [heq, hready] at hmem
      rcases List.mem_cons.1 hmem with rfl | hmem
      · exact .inl (Finset.mem_insert_self ..)
      · exact .inr hmem
    · exact .inr hmem

theorem suspend (ht : s.task t = some o) (hst : st = .Zombie ∨ st = .Pending) :
    Queues (s.suspend t o st) out := by
  refine ⟨h.live.suspend ht st, fun i => ?_, fun u hu i hmem => ?_, fun u o' hu hp => ?_,
    fun u o' hu hlive => ?_⟩
  · rw [Scheduler.ready_suspend]
    split
    · exact (h.nodup _).filter _
    · exact h.nodup i
  · exact h.notMem u hu i ((h.live.mem_suspend ht).1 hmem).1
  · rw [Scheduler.task_suspend] at hu
    rw [Scheduler.pending_suspend, Finset.mem_insert]
    split at hu
    · rename_i heq
      exact .inl heq
    · exact .inr (h.pending u o' hu hp)
  · rw [Scheduler.task_suspend] at hu
    split at hu
    · cases hu
      exact absurd hst hlive
    · rename_i hne
      exact (h.queued u o' hu hlive).imp_right fun hmem => (h.live.mem_suspend ht).2 ⟨hmem, hne⟩

theorem setTask (ht : ∀ i, t ∉ s.ready i) (ho : o.state ≠ .Pending) {p : Finset Tid}
    (hp : ∀ u ∈ s.pending, u ≠ t → u ∈ p) :
    Queues ({ s with pending := p }.setTask t o) (insert t out) := by
  have hlive : ReadyLive { s with pending := p } := h.live
  refine ⟨hlive.setTask ht, h.nodup, fun u hu => ?_, fun u o' hu hpending => ?_,
    fun u o' hu hlive => ?_⟩
  · rcases Finset.mem_insert.1 hu with rfl | hu
    · exact ht
    · exact h.notMem u hu
  · rw [Scheduler.task_setTask] at hu
    split at hu
    · cases hu
      exact absurd hpending ho
    · rename_i hne
      exact hp u (h.pending u o' hu hpending) hne
  · rw [Scheduler.task_setTask] at hu
    split at hu
    · rename_i heq
      exact .inl (heq ▸ Finset.mem_insert_self ..)
    · exact (h.queued u o' hu hlive).imp_left Finset.mem_insert_of_mem

theorem setTask_add (ht : ∀ i, t ∉ s.ready i) (ho : o.state ≠ .Pending) {p : Finset Tid}
    (hp : ∀ u ∈ s.pending, u ≠ t → u ∈ p) (hout : t ∉ out)
    (hadd : ({ s with pending := p }.setTask t o).add t = .ok s') : Queues s' out := by
  have hadded := (h.setTask ht ho hp).add (Finset.mem_insert_self t out) hadd
  rwa [Finset.erase_insert hout] at hadded

theorem wakeup (hout : ∀ u ∈ out, ∀ o, s.task u = some o → o.state ≠ .Pending)
    (hwake : s.wakeup t = .ok s') : Queues s' out := by
  obtain ⟨o, ht, ⟨-, rfl⟩ | ⟨hpending, hadd⟩⟩ := Scheduler.wakeup_cases hwake
  · exact h
  · have hnot := h.live.notMem ht fun hlive => hlive (.inr hpending)
    refine h.setTask_add hnot (by simp) (fun u hu hne => Finset.mem_erase.2 ⟨hne, hu⟩) ?_ hadd
    exact fun hmem => hout t hmem o ht hpending

end

theorem schedule (h : Queues s {cur}) (hsched : s.schedule cur = .ok (t, s')) :
    Queues s' {t} ∧ ∃ o, s'.task t = some o ∧ o.Live := by
  obtain ⟨s1, i, ts, hadd, hready, rfl⟩ := Scheduler.schedule_eq hsched
  have h1 := h.add (Finset.mem_singleton_self cur) hadd
  rw [Finset.erase_singleton] at h1
  obtain ⟨o, ho, -, hlive⟩ := h1.live i t (hready ▸ List.mem_cons_self)
  exact ⟨h1.pop hready, o, ho, hlive⟩

end Queues

/-! ## Runs -/

/-- The scheduler and the current task. -/
structure Hart where
  sched : Scheduler
  curtask : Tid
  idCnt : Nat

namespace Hart

def schedule (h : Hart) : Kern Hart := do
  let (t, s) ← h.sched.schedule h.curtask
  .ok { h with sched := s, curtask := t }

/-- What the tasks ask of the scheduler. -/
inductive Op where
  | create (prior : Fin (maxPrior + 1))
  | yield
  | sleep
  | wakeup (t : Tid)
  | exit
  | exitGroup (tasks : List Tid)

def step (h : Hart) : Op → Kern Hart
  | .create prior => do
    let t := h.idCnt + 1
    let s ← (h.sched.setTask t ⟨prior, .Init⟩).add t
    .ok { h with sched := s, idCnt := t }
  | .yield => h.schedule
  | .sleep => do
    let s ← h.sched.sleep h.curtask
    schedule { h with sched := s }
  | .wakeup t => do
    let s ← h.sched.wakeup t
    .ok { h with sched := s }
  | .exit => do
    let s ← h.sched.retire h.curtask
    schedule { h with sched := s }
  | .exitGroup tasks => do
    let s ← tasks.foldlM Scheduler.retire h.sched
    schedule { h with sched := s }

/-- Every task is where its state says. -/
structure Consistent (h : Hart) : Prop where
  once : ((List.finRange (maxPrior + 1)).flatMap h.sched.ready).Nodup
  cur : ∀ i, h.curtask ∉ h.sched.ready i
  pending : ∀ t o, h.sched.task t = some o → o.state = .Pending →
    t ∈ h.sched.pending ∧ ∀ i, t ∉ h.sched.ready i
  zombie : ∀ t o, h.sched.task t = some o → o.state = .Zombie → ∀ i, t ∉ h.sched.ready i
  live : ∀ t o, h.sched.task t = some o → o.state ≠ .Pending → o.state ≠ .Zombie →
    t = h.curtask ∨ (h.sched.ready o.prior).count t = 1

/-- The lists are right but for the current task. -/
structure Inv (h : Hart) : Prop where
  queues : Queues h.sched {h.curtask}
  cur : ∃ o, h.sched.task h.curtask = some o ∧ o.Live
  fresh : ∀ t o, h.sched.task t = some o → t ≤ h.idCnt

variable {h h' : Hart}

theorem Inv.consistent (hinv : Inv h) : Consistent h := by
  have hq := hinv.queues
  refine ⟨?_, hq.notMem _ (Finset.mem_singleton_self _), fun t o ht hp => ⟨hq.pending t o ht hp, ?_⟩,
    fun t o ht hz => ?_, fun t o ht hp hz => ?_⟩
  · refine List.nodup_flatMap.2 ⟨fun i _ => hq.nodup i, ?_⟩
    refine (List.nodup_finRange (maxPrior + 1)).imp fun hne t hi hj => ?_
    exact hne (hq.live.unique hi hj)
  · exact hq.live.notMem ht fun hlive => hlive (.inr hp)
  · exact hq.live.notMem ht fun hlive => hlive (.inl hz)
  · refine (hq.queued t o ht fun hdead => hdead.elim hz hp).imp Finset.mem_singleton.1 ?_
    exact fun hmem => List.count_eq_one_of_mem (hq.nodup _) hmem

/-- The current task may have been suspended before the next one is chosen. -/
theorem inv_schedule {s : Scheduler} (hq : Queues s {h.curtask})
    (hfresh : ∀ t o, s.task t = some o → t ≤ h.idCnt)
    (hsched : schedule { h with sched := s } = .ok h') : Inv h' := by
  obtain ⟨⟨t, s'⟩, hchoice, hstep⟩ := bind_eq_ok hsched
  cases hstep
  obtain ⟨hqueues, hcur⟩ := hq.schedule hchoice
  refine ⟨hqueues, hcur, fun u o hu => ?_⟩
  obtain ⟨o', hu', -⟩ := NoRevival.schedule hchoice u o hu
  exact hfresh u o' hu'

theorem queues_retireAll {s s' : Scheduler} (hq : Queues s {cur})
    (hretire : ts.foldlM Scheduler.retire s = .ok s') : Queues s' {cur} ∧ NoRevival s s' := by
  induction ts generalizing s with
  | nil =>
    obtain rfl := Except.ok.inj hretire
    exact ⟨hq, .refl s⟩
  | cons t ts ih =>
    obtain ⟨s1, hfirst, hrest⟩ := bind_eq_ok hretire
    obtain ⟨o, ht, rfl⟩ := Scheduler.retire_eq hfirst
    obtain ⟨hq', hnone⟩ := ih (hq.suspend ht (.inl rfl)) hrest
    exact ⟨hq', (NoRevival.retire hfirst).trans hnone⟩

theorem Inv.step (hinv : Inv h) {op : Op} (hstep : step h op = .ok h') : Inv h' := by
  obtain ⟨hq, ⟨oc, hoc, hlive⟩, hfresh⟩ := hinv
  have hkept : ∀ {s}, NoRevival h.sched s → ∀ t o, s.task t = some o → t ≤ h.idCnt := by
    intro s hnone t o ht
    obtain ⟨o', ht', -⟩ := hnone t o ht
    exact hfresh t o' ht'
  cases op with
  | create prior =>
    obtain ⟨s, hadd, hstep⟩ := bind_eq_ok hstep
    cases hstep
    have hnone : h.sched.task (h.idCnt + 1) = none := by
      by_contra hsome
      obtain ⟨o, ho⟩ := Option.ne_none_iff_exists'.1 hsome
      exact absurd (hfresh _ o ho) (Nat.not_succ_le_self _)
    have hne : h.curtask ≠ h.idCnt + 1 := by
      intro heq
      rw [heq, hnone] at hoc
      cases hoc
    have hnot : ∀ i, h.idCnt + 1 ∉ h.sched.ready i := by
      intro i hmem
      obtain ⟨o, ho, -⟩ := hq.live i _ hmem
      rw [hnone] at ho
      cases ho
    have htask := Scheduler.task_add hadd
    refine ⟨?_, ⟨oc, ?_, hlive⟩, fun t o ht => ?_⟩
    · exact hq.setTask_add hnot (by simp) (fun u hu _ => hu) (by simpa using hne.symm) hadd
    · simpa [htask, hne] using hoc
    · rw [htask, Scheduler.task_setTask] at ht
      split at ht
      · rename_i heq
        exact Nat.le_of_eq heq
      · exact Nat.le_succ_of_le (hfresh t o ht)
  | yield => exact inv_schedule hq hfresh hstep
  | sleep =>
    obtain ⟨s, hsleep, hstep⟩ := bind_eq_ok hstep
    obtain ⟨o, ht, rfl⟩ := Scheduler.sleep_eq hsleep
    have hz : o.state = .Zombie → State.Pending = .Zombie := by
      intro hz
      rw [hoc] at ht
      cases ht
      exact absurd (.inl hz) hlive
    exact inv_schedule (hq.suspend ht (.inr rfl)) (hkept (.suspend ht hz)) hstep
  | wakeup t =>
    obtain ⟨s, hwake, hstep⟩ := bind_eq_ok hstep
    cases hstep
    have hout : ∀ u ∈ ({h.curtask} : Finset Tid), ∀ o, h.sched.task u = some o →
        o.state ≠ .Pending := by
      intro u hu o ho hp
      rw [Finset.mem_singleton.1 hu, hoc] at ho
      cases ho
      exact hlive (.inr hp)
    have hcur := Scheduler.task_wakeup hwake hoc fun hp => hlive (.inr hp)
    exact ⟨hq.wakeup hout hwake, ⟨oc, hcur, hlive⟩, hkept (.wakeup hwake)⟩
  | exit =>
    obtain ⟨s, hretire, hstep⟩ := bind_eq_ok hstep
    obtain ⟨o, ht, rfl⟩ := Scheduler.retire_eq hretire
    exact inv_schedule (hq.suspend ht (.inl rfl)) (hkept (.retire hretire)) hstep
  | exitGroup tasks =>
    obtain ⟨s, hretire, hstep⟩ := bind_eq_ok hstep
    obtain ⟨hq', hnone⟩ := queues_retireAll hq hretire
    exact inv_schedule hq' (hkept hnone) hstep

/-- **The queue invariant.** -/
theorem queues_consistent {h : Hart} (hreach : Reach step (fun _ _ => True) Inv h) : Consistent h :=
  Inv.consistent (hreach.invariant Inv (fun _ => id) fun _ _ _ hinv _ hstep => hinv.step hstep)

def boot : Hart where
  sched := { task := fun t => if t = 1 then some ⟨1, .Init⟩ else none
             ready := fun _ => []
             pending := ∅ }
  curtask := 1
  idCnt := 1

theorem inv_boot : Inv boot := by
  have hone : ∀ t o, boot.sched.task t = some o → t = 1 ∧ o = ⟨1, .Init⟩ := by
    simp [boot, eq_comm]
  refine ⟨⟨fun i t ht => absurd ht List.not_mem_nil, fun i => List.nodup_nil,
    fun t _ i => List.not_mem_nil, fun t o ho hp => ?_, fun t o ho _ => ?_⟩,
    ⟨⟨1, .Init⟩, rfl, by simp [Scheduable.Live]⟩, fun t o ho => ?_⟩
  · rw [(hone t o ho).2] at hp
    cases hp
  · exact .inl (Finset.mem_singleton.2 (hone t o ho).1)
  · exact Nat.le_of_eq (hone t o ho).1

/-- Two tasks are made, one sleeps, is woken, and the other exits. -/
theorem consistent_boot : ∃ h, runWhile step (fun _ _ => True)
    [.create 0, .create 0, .yield, .sleep, .wakeup 2, .exit] boot = some h ∧
      h.curtask = 2 ∧ Consistent h := by
  exact Exists.imp (fun h hr => ⟨hr.1, hr.2.2, queues_consistent hr.2.1⟩)
    (exists_reach step _ _ inv_boot (·.curtask = 2) (by decide +kernel))

end Hart

end LuoOS.Sched
