import LuoOS.Lib.Words
import LuoOS.Vm.UserMem
import Mathlib.Logic.Function.Basic

/-!
# Signals

The signal part of `kernel/ipc.cc`, with the system call path of `kernel/trap.cc` that a handler
returns through. A delivery pushes a frame onto the user stack, from high addresses to low ones:

* a zero word, below which the frame proper starts (its address is `sigstack`),
* for a handler with `SA_SIGINFO` the `SigInfo`,
* the `UCtx` with the interrupted registers, `pc` and `sigmask`,
* the address `sigstack`.

`sigReturn` starts from the last of them. Whether there is a `SigInfo` to skip it takes from
`signal.hasInfo` of the task.
-/

namespace LuoOS.Signal

open Vm Words Function

/-! ## Numbers and actions -/

def numSigs : Nat := 64

def SIGKILL : Nat := 9
def SIGCHLD : Nat := 17
def SIGSTOP : Nat := 19

def SA_SIGINFO : UInt64 := 0x00000004
def SA_ONSTACK : UInt64 := 0x08000000
def SA_RESETHAND : UInt64 := 0x80000000

def SIG_DFL : UInt64 := 0
def SIG_IGN : UInt64 := 1
def SIG_ERR : UInt64 := 0 - 1

def bit (i : Nat) : UInt64 := (1 : UInt64) <<< UInt64.ofNat i

/-- A signal action, as the user gives it. -/
structure SigAct where
  handler : UInt64
  flags : UInt64
  restorer : UInt64
  mask : UInt64

def defaultSigAct : SigAct := ⟨0, 0, 0, 0⟩

/-- What is done with a signal, by default or by the user. -/
inductive Disposition where
  | exit
  | dump
  | stop
  | cont
  | ignore
  | user
  deriving DecidableEq

def defaultAction (signum : Nat) : Disposition :=
  -- SIGHUP, SIGINT, SIGKILL, SIGPIPE, SIGALRM, SIGTERM, SIGUSR1, SIGUSR2, SIGPOLL, SIGPROF, SIGVTALRM
  if signum ∈ [1, 2, 9, 13, 14, 15, 10, 12, 29, 27, 26] ∨ 32 ≤ signum ∧ signum ≤ numSigs then .exit
  -- SIGCHLD, SIGURG, SIGPWR
  else if signum ∈ [17, 23, 30] then .ignore
  -- SIGQUIT, SIGILL, SIGABRT, SIGFPE, SIGSEGV, SIGBUS, SIGSYS, SIGTRAP, SIGXCPU, SIGXFSZ
  else if signum ∈ [3, 4, 6, 8, 11, 7, 31, 5, 24, 25] then .dump
  -- SIGSTOP, SIGTSTP, SIGTTIN, SIGTTOU
  else if signum ∈ [19, 20, 21, 22] then .stop
  -- SIGCONT
  else if signum = 18 then .cont
  else .exit

def disposition (signum : Nat) (sa : SigAct) : Disposition :=
  if signum = SIGKILL then .exit
  else if signum = SIGSTOP then .stop
  else if sa.handler = SIG_ERR then .exit
  else if sa.handler = SIG_DFL then defaultAction signum
  else if sa.handler = SIG_IGN then .ignore
  else .user

/-! ## The frame -/

/-- The registers of a task, without `x0`. -/
structure Context where
  gpr : Fin 31 → UInt64
  pc : UInt64

namespace Context

def set (c : Context) (r : Fin 31) (v : UInt64) : Context :=
  { c with gpr := update c.gpr r v }

def ra (c : Context) : UInt64 := c.gpr 0
def sp (c : Context) : UInt64 := c.gpr 1
def a0 (c : Context) : UInt64 := c.gpr 9
def a7 (c : Context) : UInt64 := c.gpr 16

end Context

/-- The alternate signal stack. -/
structure SigStack where
  sp : UInt64
  flags : UInt64
  size : UInt64

abbrev SigInfo := Fin 128 → UInt8

/-- `ucontext` with its `sigcontext`, word by word. `unused` has the two gaps around
`uc_mcontext`. -/
structure UCtx where
  flags : UInt64
  link : UInt64
  stack : SigStack
  sigmask : UInt64
  unused : Fin 16 → UInt64
  pc : UInt64
  gpr : Fin 31 → UInt64
  fpregs : Fin 66 → UInt64

namespace UCtx

def toWords (u : UCtx) : List UInt64 :=
  [u.flags, u.link, u.stack.sp, u.stack.flags, u.stack.size, u.sigmask] ++ List.ofFn u.unused ++
    [u.pc] ++ List.ofFn u.gpr ++ List.ofFn u.fpregs

def numWords : Nat := 120

def ofWords (ws : List UInt64) : UCtx where
  flags := ws.getD 0 0
  link := ws.getD 1 0
  stack := ⟨ws.getD 2 0, ws.getD 3 0, ws.getD 4 0⟩
  sigmask := ws.getD 5 0
  unused i := ws.getD (6 + i) 0
  pc := ws.getD 22 0
  gpr i := ws.getD (23 + i) 0
  fpregs i := ws.getD (54 + i) 0

end UCtx

/-- What a delivery leaves uninitialised in its frame. -/
structure Junk where
  unused : Fin 16 → UInt64
  fpregs : Fin 66 → UInt64
  info : Fin 128 → UInt8

def defaultInfo (signum : Nat) (junk : Junk) : SigInfo := fun i =>
  if i = 0 then .ofNat signum else if i < 12 then 0 else junk.info i

/-! ## The task -/

/-- The signals of a task. -/
structure SigTask where
  sigmask : UInt64
  sigpending : UInt64
  siginfos : Nat → Option SigInfo
  sigstack : SigStack
  hasInfo : Bool

def SigTask.new : SigTask where
  sigmask := 0
  sigpending := 0
  siginfos _ := none
  sigstack := ⟨0, 0, 0⟩
  hasInfo := false

/-- A task as its own code and its signals see it. -/
structure UserTask where
  sig : SigTask
  ctx : Context
  mem : UserMem
  sigacts : Nat → Option SigAct

def sigSend (t : SigTask) (sig : Nat) (info : Option SigInfo) : SigTask :=
  if t.siginfos (sig - 1) = none then
    { t with sigpending := t.sigpending ||| bit (sig - 1)
             siginfos := update t.siginfos (sig - 1) info }
  else t

def sigAction (sigacts : Nat → Option SigAct) (sig : Int) (nact : Option SigAct) :
    Nat → Option SigAct :=
  if sig ≤ 0 ∨ sig > numSigs ∨ sig = SIGKILL ∨ sig = SIGSTOP then sigacts
  else match nact with
    | some act => update sigacts (sig.toNat - 1) (some act)
    | none => sigacts

def unblockable : UInt64 := bit (SIGKILL - 1) ||| bit (SIGSTOP - 1)

def sigProcMask (t : SigTask) (how : Int) (nset : Option UInt64) (sigsetsize : Nat) : SigTask :=
  if sigsetsize ≠ 8 then t
  else match nset with
    | none => t
    | some set =>
      if how = 0 then { t with sigmask := (t.sigmask ||| set) &&& ~~~unblockable }
      else if how = 1 then { t with sigmask := (t.sigmask &&& ~~~set) &&& ~~~unblockable }
      else if how = 2 then { t with sigmask := set &&& ~~~unblockable }
      else t

def pickSignal (t : SigTask) : Option Nat :=
  ((List.range numSigs).find? fun i =>
    (bit i &&& t.sigpending) ≠ 0 ∧ (bit i &&& t.sigmask) = 0).map (· + 1)

def getSigAct (sigacts : Nat → Option SigAct) (i : Nat) : SigAct :=
  (sigacts i).getD defaultSigAct

/-! ## Delivery and return -/

def vDSOBase : UInt64 := 0x9000000
def vaddrOffsetMask : UInt64 := 0xfff

/-- `vDSOBase+(addr_t)func&vm::vaddrOffsetMask`, where `+` binds tighter than `&`. -/
def vDSOfuncAddr (func : UInt64) : UInt64 := (vDSOBase + func) &&& vaddrOffsetMask

def sigStackSiz : UInt64 := 8192

def SigTask.onSigStack (t : SigTask) (ctx : Context) : Bool :=
  ctx.sp - t.sigstack.sp < t.sigstack.size

namespace SigAct

def hasInfo (sa : SigAct) : Bool := (sa.flags &&& SA_SIGINFO) ≠ 0

end SigAct

def frameStart (t : SigTask) (ctx : Context) (sa : SigAct) : UInt64 :=
  if (sa.flags &&& SA_ONSTACK) ≠ 0 ∧ !t.onSigStack ctx then t.sigstack.sp else ctx.sp

def savedCtx (t : SigTask) (ctx : Context) (sa : SigAct) (sigstack : UInt64) (junk : Junk) :
    UCtx where
  flags := 0
  link := 0
  stack :=
    if (sa.flags &&& SA_ONSTACK) ≠ 0 ∧ !t.onSigStack ctx then t.sigstack
    else ⟨sigstack, 0, sigStackSiz⟩
  sigmask := t.sigmask
  unused := junk.unused
  pc := ctx.pc
  gpr := ctx.gpr
  fpregs := junk.fpregs

def SigTask.enter (t : SigTask) (sa : SigAct) (signum : Nat) : SigTask :=
  { t with hasInfo := sa.hasInfo
           siginfos := update t.siginfos (signum - 1) none
           sigmask := t.sigmask ||| sa.mask }

def putInfo (w : Writer) (m : UserMem) (hasInfo : Bool) (info : SigInfo) :
    Kern (Writer × UserMem) :=
  if hasInfo then w.put m (List.ofFn info) else .ok (w, m)

def handlerCtx (func : UInt64) (ctx : Context) (sa : SigAct) (signum : Nat)
    (sp pinfo puctx : UInt64) : Context :=
  let ctx := ctx.set 0 (if sa.restorer ≠ 0 then sa.restorer else vDSOfuncAddr func)
  let ctx := (ctx.set 1 sp).set 9 (.ofNat signum)
  let ctx := if sa.hasInfo then (ctx.set 10 pinfo).set 11 puctx else ctx
  { ctx with pc := sa.handler }

def enterHandler (func : UInt64) (junk : Junk) (u : UserTask) (sa : SigAct) (signum : Nat) :
    Kern UserTask := do
  let (w, m) ← Writer.put ⟨frameStart u.sig u.ctx sa, true⟩ u.mem (bytes 0)
  let sigstack := w.vaddr
  let info := (u.sig.siginfos (signum - 1)).getD (defaultInfo signum junk)
  let (w, m) ← putInfo w m sa.hasInfo info
  let pinfo := w.vaddr
  let (w, m) ← w.put m (allBytes (savedCtx u.sig u.ctx sa sigstack junk).toWords)
  let puctx := w.vaddr
  let (w, m) ← w.put m (bytes sigstack)
  .ok { u with sig := u.sig.enter sa signum
               ctx := handlerCtx func u.ctx sa signum w.vaddr pinfo puctx
               mem := m }

def sigHandler (func : UInt64) (junk : Junk) (u : UserTask) :
    Kern (Option Disposition × UserTask) :=
  match pickSignal u.sig with
  | none => .ok (none, u)
  | some signum => do
    let sig := { u.sig with sigpending := u.sig.sigpending &&& ~~~bit (signum - 1) }
    let sa := getSigAct u.sigacts (signum - 1)
    match disposition signum sa with
    | .user =>
      let u ← enterHandler func junk { u with sig := sig } sa signum
      let sigacts :=
        if (sa.flags &&& SA_RESETHAND) ≠ 0 then update u.sigacts (signum - 1) none
        else u.sigacts
      .ok (some .user, { u with sigacts := sigacts })
    | d => .ok (some d, { u with sig := sig })

def skipInfo (w : Writer) (m : UserMem) (hasInfo : Bool) : Kern Writer :=
  if hasInfo then do
    let (_, w) ← w.get m 128
    .ok w
  else .ok w

def readFrame (u : UserTask) : Kern UCtx := do
  let (bs, _) ← Writer.get ⟨u.ctx.sp, false⟩ u.mem 8
  let w ← skipInfo ⟨word bs, true⟩ u.mem u.sig.hasInfo
  let (bs, _) ← w.get u.mem (8 * UCtx.numWords)
  .ok (UCtx.ofWords (words UCtx.numWords bs))

def sigReturn (u : UserTask) : Kern UserTask := do
  let uctx ← readFrame u
  .ok { u with sig := { u.sig with sigmask := uctx.sigmask }, ctx := ⟨uctx.gpr, uctx.pc⟩ }

abbrev Syscall := UserTask → Kern (Except UInt64 UInt64 × UserTask)

def nSyscalls : Int := 284
def scSigreturn : Nat := 139

def syscallPtrs (other : Nat → Option Syscall) (id : Nat) : Option Syscall :=
  if id = scSigreturn then
    some fun u => do
      let u ← sigReturn u
      .ok (.ok 0, u)
  else other id

def dispatch (other : Nat → Option Syscall) (ecallId : Int) (u : UserTask) : Kern UserTask :=
  if ecallId < nSyscalls then
    if ecallId < 0 then .error (.outOfBounds ecallId)
    else match syscallPtrs other ecallId.toNat with
      | some call => do
        let (rt, u) ← call u
        match rt with
        | .ok value => .ok { u with ctx := u.ctx.set 9 value }
        | .error err => .ok { u with ctx := u.ctx.set 9 (0 - err) }
      | none => .ok u
  else .ok { u with ctx := u.ctx.set 9 1 }

def uecallHandler (other : Nat → Option Syscall) (u : UserTask) : Kern UserTask :=
  dispatch other (toInt u.ctx.a7.toNat) { u with ctx := { u.ctx with pc := u.ctx.pc + 4 } }

end LuoOS.Signal
