import LuoOS.Klib
import LuoOS.Lib.Ring
import LuoOS.Lib.Runs

/-!
# Pipes

`pipe::Pipe` is a ring of 64 bytes with two free-running 64-bit counters, two lists of waiting tasks
and the numbers of its readers and writers. A task inside `read` or `write` gives up the processor
only in `canr.wait()` or `canw.wait()`, so a call is a sequence of segments, each from its start or
the return of a wait to the next wait or its return. Many tasks and pipes run at once; a task that
is woken is `ready` until it goes on. `Process::exit` wakes the default task of the parent wherever
it is parked, and leaves it in the list.

`off` is an `int` and `bytes.len` a `size_t`; they are compared and subtracted as the latter. The
fields `written` and `taken` of a pipe, `moved` of a call and `log` of the system are not in the
code: they record the bytes copied and the calls that have returned.
-/

namespace LuoOS.Ipc

open Function

abbrev Tid := Nat

def bufSize : Nat := 64

/-- A pipe, with the bytes that have gone through it. -/
structure Pipe where
  buf : Nat → UInt8
  head : Nat
  tail : Nat
  canr : List Tid
  canw : List Tid
  wcnt : Int
  rcnt : Int
  written : List UInt8
  taken : List UInt8

namespace Pipe

def full (p : Pipe) : Bool := p.tail == xlen (p.head + bufSize)

def empty (p : Pipe) : Bool := p.head == p.tail

def writable (p : Pipe) : Bool := !p.full || p.rcnt != 0

def readable (p : Pipe) : Bool := !p.empty || p.wcnt != 0

end Pipe

/-- The buffer of a caller. -/
structure Bytes where
  len : Nat
  buff : Int → UInt8
  len_lt : len < 2 ^ 64

/-- The two calls on a pipe. -/
inductive Op where
  | read
  | write
  deriving DecidableEq

/-- A call on its way. -/
structure Call where
  op : Op
  pipe : Nat
  bytes : Bytes
  off : Int
  moved : List UInt8

/-- How a segment ends. -/
inductive Exit where
  | wait
  | done
  deriving DecidableEq

/-! ## The loops -/

def writeLoop : Nat → Pipe → Call → Option (Pipe × Call × Exit)
  | 0, _, _ => none
  | fuel + 1, p, c =>
    if xlen c.off < c.bytes.len then
      let wlen := min (min (xlen (p.head + bufSize - p.tail)) (bufSize - p.tail % bufSize))
        (xlen (c.bytes.len - c.off))
      if wlen = 0 then
        if p.rcnt = 0 then some (p, c, .done) else some (p, c, .wait)
      else
        let src : Nat → UInt8 := fun i => c.bytes.buff (c.off + i)
        let chunk := (List.range wlen).map src
        writeLoop fuel
          { p with
            buf := Ring.put p.buf (p.tail % bufSize) wlen src
            tail := xlen (p.tail + wlen)
            written := p.written ++ chunk }
          { c with off := toInt (c.off + wlen), moved := c.moved ++ chunk }
    else some (p, c, .done)

def readLoop : Nat → Pipe → Call → Option (Pipe × Call × Exit)
  | 0, _, _ => none
  | fuel + 1, p, c =>
    if xlen c.off < c.bytes.len then
      let rlen := min (min (xlen (p.tail - p.head)) (bufSize - p.head % bufSize))
        (xlen (c.bytes.len - c.off))
      if rlen = 0 then
        if p.wcnt = 0 ∨ c.off > 0 then some (p, c, .done) else some (p, c, .wait)
      else
        let chunk := Ring.cells p.buf (p.head % bufSize) rlen
        let buff : Int → UInt8 := fun i =>
          if c.off ≤ i ∧ i < c.off + rlen then p.buf (p.head % bufSize + (i - c.off).toNat)
          else c.bytes.buff i
        readLoop fuel
          { p with head := xlen (p.head + rlen), taken := p.taken ++ chunk }
          { c with
            bytes := { c.bytes with buff }
            off := toInt (c.off + rlen)
            moved := c.moved ++ chunk }
    else some (p, c, .done)

def rounds : Nat := bufSize + 1

/-! ## Condition variables -/

def notifyOne : List Tid → List Tid × List Tid
  | [] => ([], [])
  | t :: ts => (ts, [t])

def Pipe.tryWakeup (p : Pipe) : Pipe × List Tid :=
  let (canr, wr) := if p.empty then (p.canr, []) else notifyOne p.canr
  let (canw, ww) := if p.full then (p.canw, []) else notifyOne p.canw
  ({ p with canr, canw }, wr ++ ww)

def writeSegment (t : Tid) (p : Pipe) (c : Call) : Option (Pipe × List Tid × Call × Exit) := do
  let (p, c, e) ← writeLoop rounds p c
  match e with
  | .wait =>
    let (canr, woken) := notifyOne p.canr
    return ({ p with canr, canw := p.canw ++ [t] }, woken, c, e)
  | .done =>
    let (p, woken) := p.tryWakeup
    return (p, woken, c, e)

def readSegment (t : Tid) (p : Pipe) (c : Call) : Option (Pipe × List Tid × Call × Exit) := do
  let (p, c, e) ← readLoop rounds p c
  match e with
  | .wait =>
    let (canw, woken) := notifyOne p.canw
    return ({ p with canw, canr := p.canr ++ [t] }, woken, c, e)
  | .done =>
    let (p, woken) := p.tryWakeup
    return (p, woken, c, e)

def segment (t : Tid) (p : Pipe) (c : Call) : Option (Pipe × List Tid × Call × Exit) :=
  match c.op with
  | .read => readSegment t p c
  | .write => writeSegment t p c

/-! ## The system -/

/-- Whether a task is in a call, and there on its way or waiting. -/
inductive Task where
  | out
  | ready (c : Call)
  | parked (c : Call)

/-- All pipes and tasks, and the calls that have returned. -/
structure State where
  pipe : Nat → Pipe
  task : Tid → Task
  log : List Call

def Pipe.new (garbage : Nat → UInt8) : Pipe := ⟨garbage, 0, 0, [], [], 0, 0, [], []⟩

def State.init (garbage : Nat → Nat → UInt8) : State :=
  ⟨fun i => Pipe.new (garbage i), fun _ => .out, []⟩

def wakeup (task : Tid → Task) (t : Tid) : Tid → Task :=
  match task t with
  | .parked c => update task t (.ready c)
  | _ => task

def runCall (s : State) (t : Tid) (c : Call) : Option State := do
  let (p, woken, c, e) ← segment t (s.pipe c.pipe) c
  let task := woken.foldl wakeup s.task
  match e with
  | .wait =>
    return { s with
      pipe := update s.pipe c.pipe p
      task := update task t (.parked c) }
  | .done =>
    return {
      pipe := update s.pipe c.pipe p
      task := update task t .out
      log := s.log ++ [c] }

/-- What can happen to the pipes and the tasks. -/
inductive Act where
  | call (t : Tid) (op : Op) (pipe : Nat) (bytes : Bytes)
  | resume (t : Tid)
  | addReader (pipe : Nat)
  | decReader (pipe : Nat)
  | addWriter (pipe : Nat)
  | decWriter (pipe : Nat)
  | childExit (parent : Tid)

def step (s : State) : Act → Option State
  | .call t op i bytes =>
    match s.task t with
    | .out => runCall s t ⟨op, i, bytes, 0, []⟩
    | _ => none
  | .resume t =>
    match s.task t with
    | .ready c => runCall s t c
    | _ => none
  | .addReader i =>
    let p := s.pipe i
    some { s with pipe := update s.pipe i { p with rcnt := toInt (p.rcnt + 1) } }
  | .decReader i =>
    let p := { s.pipe i with rcnt := toInt ((s.pipe i).rcnt - 1) }
    if p.rcnt = 0 then
      some { s with
        pipe := update s.pipe i { p with canw := [] }
        task := p.canw.foldl wakeup s.task }
    else some { s with pipe := update s.pipe i p }
  | .addWriter i =>
    let p := s.pipe i
    some { s with pipe := update s.pipe i { p with wcnt := toInt (p.wcnt + 1) } }
  | .decWriter i =>
    let p := { s.pipe i with wcnt := toInt ((s.pipe i).wcnt - 1) }
    if p.wcnt = 0 then
      some { s with
        pipe := update s.pipe i { p with canr := [] }
        task := p.canr.foldl wakeup s.task }
    else some { s with pipe := update s.pipe i p }
  | .childExit t => some { s with task := wakeup s.task t }

/-- The states of a system that starts without a reader or writer. -/
abbrev Reach (ok : State → Act → Prop) : State → Prop :=
  Runs.Reach (Runs.ofOption step) ok fun s => ∃ garbage, s = .init garbage

abbrev runActs (ok : State → Act → Prop) [∀ s a, Decidable (ok s a)] :
    List Act → State → Option State :=
  Runs.runWhile (Runs.ofOption step) ok

end LuoOS.Ipc
