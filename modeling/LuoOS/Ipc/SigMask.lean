import LuoOS.Ipc.SigFrame
import LuoOS.Lib.Runs

/-!
# The signals that cannot be blocked

All tasks with their masks, contexts and, by process, memory and actions. Three routines write a
mask. `sigProcMask` takes the bits of `SIGKILL` and `SIGSTOP` out again; `sigHandler` adds the
`sa_mask` of the action and `sigReturn` loads the mask of the frame as they are, so the two bits
stay clear only if these lack them (`unblocked_of_filtered`).
-/

namespace LuoOS.Signal

open Vm Runs Function

/-- All tasks, with the memory and the actions of their processes. -/
structure SigSystem where
  task : Tid → SigTask
  ctx : Tid → Context
  proc : Tid → Pid
  mem : Pid → UserMem
  sigacts : Pid → Nat → Option SigAct
  curtask : Tid

namespace SigSystem

def cur (s : SigSystem) : UserTask where
  sig := s.task s.curtask
  ctx := s.ctx s.curtask
  mem := s.mem (s.proc s.curtask)
  sigacts := s.sigacts (s.proc s.curtask)

def setCur (s : SigSystem) (u : UserTask) : SigSystem :=
  { s with task := update s.task s.curtask u.sig
           ctx := update s.ctx s.curtask u.ctx
           mem := update s.mem (s.proc s.curtask) u.mem
           sigacts := update s.sigacts (s.proc s.curtask) u.sigacts }

/-- What the tasks do, and the kernel with their signals. -/
inductive Op where
  | run (ctx : Context) (mem : UserMem)
  | switchTo (t : Tid)
  /-- The task `t` is made for a process; no constructor copies a mask. -/
  | newTask (t : Tid) (pid : Pid) (ctx : Context)
  | sigSend (t : Tid) (sig : Nat) (info : Option SigInfo)
  | sigAction (sig : Int) (nact : Option SigAct)
  | sigProcMask (how : Int) (nset : Option UInt64) (sigsetsize : Nat)
  | sigHandler (junk : Junk)
  | sigReturn

def step (func : UInt64) (s : SigSystem) : Op → Kern SigSystem
  | .run ctx mem => .ok (s.setCur { s.cur with ctx := ctx, mem := mem })
  | .switchTo t => .ok { s with curtask := t }
  | .newTask t pid ctx =>
    .ok { s with task := update s.task t SigTask.new
                 ctx := update s.ctx t ctx
                 proc := update s.proc t pid }
  | .sigSend t sig info =>
    .ok { s with task := update s.task t (Signal.sigSend (s.task t) sig info) }
  | .sigAction sig nact =>
    .ok (s.setCur { s.cur with sigacts := Signal.sigAction s.cur.sigacts sig nact })
  | .sigProcMask how nset sigsetsize =>
    .ok (s.setCur { s.cur with sig := Signal.sigProcMask s.cur.sig how nset sigsetsize })
  | .sigHandler junk => do
    let (_, u) ← Signal.sigHandler func junk s.cur
    .ok (s.setCur u)
  | .sigReturn => do
    let u ← Signal.sigReturn s.cur
    .ok (s.setCur u)

/-- What the user gives to `sigHandler` and `sigReturn` has neither of the two bits: the mask of a
handler that is entered, and the mask in the frame that is read. -/
def Op.Filtered (s : SigSystem) : Op → Prop
  | .sigHandler _ => ∀ signum ∈ pickSignal s.cur.sig,
      let sa := getSigAct s.cur.sigacts (signum - 1)
      disposition signum sa = .user → sa.mask &&& unblockable = 0
  | .sigReturn => ∀ uctx ∈ (readFrame s.cur).toOption, uctx.sigmask &&& unblockable = 0
  | _ => True

instance (s : SigSystem) : DecidablePred (Op.Filtered s) := by
  intro op
  unfold Op.Filtered
  split <;> infer_instance

end SigSystem

/-! ## What each routine does to the mask -/

def SigTask.Unblocked (t : SigTask) : Prop :=
  bit (SIGKILL - 1) &&& t.sigmask = 0 ∧ bit (SIGSTOP - 1) &&& t.sigmask = 0
  deriving Decidable

namespace SigTask

variable {t : SigTask}

theorem unblocked_iff : t.Unblocked ↔ t.sigmask &&& unblockable = 0 := by
  unfold Unblocked unblockable
  rw [UInt64.and_comm t.sigmask, Words.or_and_distrib, UInt64.or_eq_zero_iff]

theorem unblocked_new : new.Unblocked := by decide

theorem Unblocked.sigSend (h : t.Unblocked) (sig : Nat) (info : Option SigInfo) :
    (Signal.sigSend t sig info).Unblocked := by
  unfold Signal.sigSend
  split <;> exact h

theorem Unblocked.sigProcMask (h : t.Unblocked) (how : Int) (nset : Option UInt64)
    (sigsetsize : Nat) : (Signal.sigProcMask t how nset sigsetsize).Unblocked := by
  have hfiltered : ∀ x : UInt64, x &&& ~~~unblockable &&& unblockable = 0 := by
    intro x
    rw [UInt64.and_assoc, UInt64.not_and_self, UInt64.and_zero]
  unfold Signal.sigProcMask
  split
  · exact h
  split
  · exact h
  split
  · exact unblocked_iff.2 (hfiltered _)
  split
  · exact unblocked_iff.2 (hfiltered _)
  · split
    · exact unblocked_iff.2 (hfiltered _)
    · exact h

theorem Unblocked.enter (h : t.Unblocked) {sa : SigAct} (hmask : sa.mask &&& unblockable = 0)
    (signum : Nat) : (t.enter sa signum).Unblocked := by
  rw [unblocked_iff] at h ⊢
  unfold SigTask.enter
  rw [Words.or_and_distrib, h, hmask, UInt64.or_zero]

end SigTask

/-- A delivery leaves the mask alone or adds the one of the handler that it enters. -/
theorem sigHandler_unblocked {func : UInt64} {junk : Junk} {u u' : UserTask}
    {d : Option Disposition} (h : sigHandler func junk u = .ok (d, u')) (hu : u.sig.Unblocked)
    (hmask : ∀ signum ∈ pickSignal u.sig,
      disposition signum (getSigAct u.sigacts (signum - 1)) = .user →
        (getSigAct u.sigacts (signum - 1)).mask &&& unblockable = 0) : u'.sig.Unblocked := by
  rcases sigHandler_cases h with ⟨-, p, rfl⟩ | ⟨signum, u1, hpick, -, huser, henter, -, -, hsig⟩
  · exact hu
  · rw [hsig, enterHandler_sig henter]
    exact SigTask.Unblocked.enter hu (hmask signum hpick huser) signum

theorem sigReturn_sigmask {u u' : UserTask} (h : sigReturn u = .ok u') :
    ∃ uctx, readFrame u = .ok uctx ∧ u'.sig.sigmask = uctx.sigmask := by
  obtain ⟨uctx, hread, h⟩ := bind_eq_ok h
  cases h
  exact ⟨uctx, hread, rfl⟩

namespace SigSystem

variable {func : UInt64} {s s' : SigSystem} {op : Op}

theorem step_keeps (h : step func s op = .ok s') (hswitch : ∀ t, op ≠ .switchTo t)
    (hnew : ∀ t pid ctx, op ≠ .newTask t pid ctx) : s'.proc = s.proc ∧ s'.curtask = s.curtask := by
  cases op with
  | switchTo t => exact absurd rfl (hswitch t)
  | newTask t pid ctx => exact absurd rfl (hnew t pid ctx)
  | sigHandler junk =>
    obtain ⟨r, -, h⟩ := bind_eq_ok h
    cases h
    exact ⟨rfl, rfl⟩
  | sigReturn =>
    obtain ⟨u, -, h⟩ := bind_eq_ok h
    cases h
    exact ⟨rfl, rfl⟩
  | run | sigSend | sigAction | sigProcMask =>
    cases h
    exact ⟨rfl, rfl⟩

theorem unblocked_setCur (h : ∀ t, (s.task t).Unblocked) {u : UserTask} (hu : u.sig.Unblocked)
    (t : Tid) : ((s.setCur u).task t).Unblocked := by
  unfold setCur
  dsimp only
  rcases eq_or_ne t s.curtask with rfl | hne
  · rw [update_self]
    exact hu
  · rw [update_of_ne hne]
    exact h t

theorem unblocked_step (h : ∀ t, (s.task t).Unblocked) (hok : op.Filtered s)
    (hstep : step func s op = .ok s') : ∀ t, (s'.task t).Unblocked := by
  have hcur : s.cur.sig.Unblocked := h s.curtask
  have hupdate : ∀ {t x}, SigTask.Unblocked x →
      ∀ t', (update s.task t x t').Unblocked := by
    intro t x hx t'
    rcases eq_or_ne t' t with rfl | hne
    · rw [update_self]
      exact hx
    · rw [update_of_ne hne]
      exact h t'
  cases op with
  | run ctx mem =>
    cases hstep
    exact unblocked_setCur h hcur
  | switchTo t =>
    cases hstep
    exact h
  | newTask t pid ctx =>
    cases hstep
    exact hupdate SigTask.unblocked_new
  | sigSend t sig info =>
    cases hstep
    exact hupdate ((h t).sigSend sig info)
  | sigAction sig nact =>
    cases hstep
    exact unblocked_setCur h hcur
  | sigProcMask how nset sigsetsize =>
    cases hstep
    exact unblocked_setCur h (hcur.sigProcMask how nset sigsetsize)
  | sigHandler junk =>
    obtain ⟨⟨d, u⟩, hhandler, hstep⟩ := bind_eq_ok hstep
    cases hstep
    exact unblocked_setCur h (sigHandler_unblocked hhandler hcur hok)
  | sigReturn =>
    obtain ⟨u, hreturn, hstep⟩ := bind_eq_ok hstep
    cases hstep
    obtain ⟨uctx, hread, hmask⟩ := sigReturn_sigmask hreturn
    refine unblocked_setCur h (SigTask.unblocked_iff.2 ?_)
    rw [hmask]
    refine hok uctx ?_
    rw [hread]
    exact Option.mem_some_self uctx

/-- **`SIGKILL` and `SIGSTOP` stay unblocked** in every run whose handlers and frames do not mask
them. -/
theorem unblocked_of_filtered (func : UInt64) {s : SigSystem}
    (h : Reach (step func) (fun s op => op.Filtered s) (fun s => ∀ t, s.task t = .new) s)
    (t : Tid) : (s.task t).Unblocked := by
  refine h.invariant (fun s => ∀ t, (s.task t).Unblocked) ?_ ?_ t
  · intro s hs t
    rw [hs t]
    exact SigTask.unblocked_new
  · exact fun s s' op hs hok hstep => unblocked_step hs hok hstep

def boot : SigSystem where
  task _ := .new
  ctx _ := (interrupted 0 defaultSigAct).ctx
  proc _ := 0
  mem _ := (interrupted 0 defaultSigAct).mem
  sigacts _ _ := none
  curtask := 0

def handled (mask : UInt64) : List Op :=
  [.sigAction 10 (some { infoAct with mask := mask }), .sigSend 0 10 none, .sigHandler noJunk]

/-- A handler that masks `SIGUSR2` is entered and returns. -/
theorem unblocked_handled : ∃ s, runWhile (step 0) (fun s op => op.Filtered s)
    (handled (bit 11) ++ [.sigReturn]) boot = some s ∧ ∀ t, (s.task t).Unblocked := by
  exact Exists.imp (fun s h => ⟨h, unblocked_of_filtered 0 (reach_of_runWhile (fun _ => rfl) h)⟩)
    (Option.isSome_iff_exists.1 (by decide +kernel))

/-- A handler with `SIGKILL` in its `sa_mask` blocks it. -/
theorem not_unblocked_handled : ¬∀ (func : UInt64) (s : SigSystem),
    Reach (step func) (fun _ _ => True) (fun s => ∀ t, s.task t = .new) s →
      ∀ t, (s.task t).Unblocked := by
  intro h
  obtain ⟨s, -, hreach, hmask⟩ := exists_reach (step 0) (fun _ _ => True)
    (handled (bit (SIGKILL - 1))) (I := fun s => ∀ t, s.task t = .new) (s := boot) (fun _ => rfl) (fun s => ¬(s.task 0).Unblocked)
    (by decide +kernel)
  exact hmask (h 0 s hreach 0)

end SigSystem

end LuoOS.Signal
