import LuoOS.Klib
import Mathlib.Data.List.FinRange
import Mathlib.Logic.Function.Basic

/-!
# The virtio disk driver

`virtio_disk_rw` and `virtio_disk_intr` of `kernel/virtio_disk.cc`, with the device. A call is cut
where an interrupt or another task can come in between: it submits its chain in one step, polls, and
leaves the wait in a last one. The handler makes one round of its loop at a time, and the device
completes any chain it has at any time.

A pass of the loop of `virtio_disk_rw` is a request here. Each has a `ready` of its own, so a
request also stands for its address.
-/

namespace LuoOS.Virtio

open Function

def NUM : Nat := 8

instance : NeZero NUM := ⟨by decide⟩

abbrev Idx := Fin NUM

/-- A call of `virtio_disk_rw`, with its arguments. It also stands for the task that makes it. -/
structure Call where
  id : Nat
  sector : Nat
  write : Bool
  deriving DecidableEq

abbrev Request := Nat

/-- What a descriptor points to. -/
inductive Area where
  | null
  | buf0 (type sector : Nat)
  | data (c : Call)
  | status (i : Idx)
  deriving DecidableEq

/-- A descriptor of the ring. -/
structure VRingDesc where
  addr : Area
  len : Nat
  flagNext : Bool
  flagWrite : Bool
  next : Idx
  deriving DecidableEq

/-- The three descriptors of a request. -/
structure Chain where
  call : Call
  request : Request
  idx0 : Idx
  idx1 : Idx
  idx2 : Idx
  deriving DecidableEq

def Chain.descs (ch : Chain) : List Idx := [ch.idx0, ch.idx1, ch.idx2]

/-- An element of the used ring. The device writes only `id`; `chain` is the chain it completed. -/
structure VRingUsedElem where
  id : Idx
  chain : Chain

/-- The device and its used ring. -/
structure Device where
  inFlight : List Chain
  completed : List Chain
  elems : Nat → VRingUsedElem
  usedId : Nat

/-- The descriptors, and which of them are free. -/
structure Descs where
  desc : Idx → VRingDesc
  free : Idx → Bool

/-- Where a call is: before it, in the loop that allocates or asleep in it, in the wait with the
polls left, after the wait, or returned. -/
inductive Stage where
  | idle
  | allocating
  | asleep
  | spinning (ch : Chain) (retry : Nat)
  | leaving (ch : Chain) (success : Bool)
  | returned (ch : Chain)
  deriving DecidableEq

/-- `disk`, the calls and the device. `ready` has for each request the chain whose completion set
it; `made` counts the requests. -/
structure State where
  descs : Descs
  avail : Nat → Idx
  availIdx : Nat
  usedIdx : Nat
  info : Idx → Option Request
  waiting : List Call
  stage : Call → Stage
  ready : Request → Option Chain
  made : Nat
  device : Device

/-! ## Descriptors -/

namespace Descs

def allocDesc (d : Descs) : Option (Idx × Descs) :=
  ((List.finRange NUM).find? d.free).map fun i =>
    (i, { d with free := update d.free i false })

/-- `free_desc` without the tasks it wakes up. An index past the end is ruled out by its type. -/
def freeDesc (d : Descs) (i : Idx) : Kern Descs :=
  if d.free i then .error (.panic "virtio_disk_intr 2")
  else .ok
    { desc := update d.desc i { d.desc i with addr := .null }
      free := update d.free i true }

end Descs

def Stage.wakeup : Stage → Stage
  | asleep => allocating
  | st => st

namespace State

def wakeWaiting (s : State) : State :=
  { s with
    stage := fun c => if c ∈ s.waiting then (s.stage c).wakeup else s.stage c
    waiting := [] }

def freeDesc (s : State) (i : Idx) : Kern State := do
  let descs ← s.descs.freeDesc i
  .ok { s with descs }.wakeWaiting

/-- `free_chain`. A chain that comes back to a descriptor panics there, so a round for each
descriptor and one more are enough. -/
def freeChain (s : State) (i : Idx) : Nat → Kern State
  | 0 => .error .diverges
  | fuel + 1 => do
    let s ← s.freeDesc i
    if (s.descs.desc i).flagNext then s.freeChain (s.descs.desc i).next fuel else .ok s

def alloc3Desc (s : State) : Kern (Option (Idx × Idx × Idx) × State) :=
  match s.descs.allocDesc with
  | none => .ok (none, s)
  | some (i, d1) =>
    match d1.allocDesc with
    | none => do
      let s ← { s with descs := d1 }.freeDesc i
      .ok (none, s)
    | some (j, d2) =>
      match d2.allocDesc with
      | none => do
        let s ← { s with descs := d2 }.freeDesc i
        let s ← s.freeDesc j
        .ok (none, s)
      | some (k, d3) => .ok (some (i, j, k), { s with descs := d3 })

/-! ## `virtio_disk_rw` -/

def retryMax : Nat := 2 ^ 31 - 1

def blockSize : Nat := 512

def format (desc : Idx → VRingDesc) (c : Call) (i j k : Idx) : Idx → VRingDesc :=
  let d1 := update desc i
    { addr := .buf0 (if c.write then 1 else 0) c.sector, len := 16, flagNext := true
      flagWrite := false, next := j }
  let d2 := update d1 j
    { addr := .data c, len := blockSize, flagNext := true, flagWrite := !c.write, next := k }
  update d2 k
    { addr := .status i, len := 1, flagNext := false, flagWrite := true, next := 0 }

def submit (s : State) (c : Call) (i j k : Idx) : State :=
  let ch : Chain := ⟨c, s.made, i, j, k⟩
  { s with
    descs := { s.descs with desc := format s.descs.desc c i j k }
    info := update s.info i (some s.made)
    avail := update s.avail (s.availIdx % NUM) i
    availIdx := (s.availIdx + 1) % 2 ^ 16
    stage := update s.stage c (.spinning ch retryMax)
    made := s.made + 1
    device := { s.device with inFlight := s.device.inFlight ++ [ch] } }

def start (s : State) (c : Call) : Kern State := do
  let (idx, s) ← s.alloc3Desc
  match idx with
  | none =>
    .ok { s with waiting := s.waiting ++ [c], stage := update s.stage c .asleep }
  | some (i, j, k) => .ok (s.submit c i j k)

def poll (s : State) (c : Call) (ch : Chain) (retry : Nat) : State :=
  match s.ready ch.request with
  | some _ => { s with stage := update s.stage c (.leaving ch true) }
  | none =>
    match retry with
    | 0 => { s with stage := update s.stage c (.leaving ch false) }
    | retry + 1 => { s with stage := update s.stage c (.spinning ch retry) }

def leave (s : State) (c : Call) (ch : Chain) (success : Bool) : Kern State := do
  let s ← s.freeChain ch.idx0 (NUM + 1)
  .ok { s with
    stage := update s.stage c (if success then .returned ch else .allocating) }

/-! ## The device and `virtio_disk_intr` -/

def complete (s : State) (n : Nat) : State :=
  match s.device.inFlight[n]? with
  | none => s
  | some ch =>
    { s with
      device :=
        { inFlight := s.device.inFlight.eraseIdx n
          completed := ch :: s.device.completed
          elems := update s.device.elems (s.device.usedId % NUM) ⟨ch.idx0, ch⟩
          usedId := (s.device.usedId + 1) % 2 ^ 16 } }

def Used (s : State) : Prop := s.usedIdx % NUM ≠ s.device.usedId % NUM
  deriving Decidable

def target (s : State) : Option Request := s.info (s.device.elems s.usedIdx).id

def intr (s : State) : Kern State :=
  if s.Used then
    match s.target with
    | none => .error .wildPointer
    | some r =>
      .ok { s with
        ready := update s.ready r (some (s.device.elems s.usedIdx).chain)
        usedIdx := (s.usedIdx + 1) % NUM }
  else .ok s

def init : State where
  descs := { desc := fun _ => ⟨.null, 0, false, false, 0⟩, free := fun _ => true }
  avail := fun _ => 0
  availIdx := 0
  usedIdx := 0
  info := fun _ => none
  waiting := []
  stage := fun _ => .idle
  ready := fun _ => none
  made := 0
  device :=
    { inFlight := [], completed := [], elems := fun _ => ⟨0, ⟨0, 0, false⟩, 0, 0, 0, 0⟩
      usedId := 0 }

end State

/-! ## Runs -/

/-- The steps of the calls, of the device and of the handler. -/
inductive Op where
  | enter (c : Call)
  | start (c : Call)
  | poll (c : Call)
  | leave (c : Call)
  | complete (n : Nat)
  | intr

def step (s : State) : Op → Kern State
  | .enter c =>
    match s.stage c with
    | .idle => .ok { s with stage := update s.stage c .allocating }
    | _ => .ok s
  | .start c =>
    match s.stage c with
    | .allocating => s.start c
    | _ => .ok s
  | .poll c =>
    match s.stage c with
    | .spinning ch retry => .ok (s.poll c ch retry)
    | _ => .ok s
  | .leave c =>
    match s.stage c with
    | .leaving ch success => s.leave c ch success
    | _ => .ok s
  | .complete n => .ok (s.complete n)
  | .intr => s.intr

end LuoOS.Virtio
