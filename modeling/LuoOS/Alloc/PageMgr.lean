import LuoOS.Klib
import Mathlib.Logic.Function.Basic

/-!
# The page allocator

`alloc::PageMgr` hands out blocks of `2 ^ order` page frames of `[start, end)`. `buddyNodes` has one
byte per node of a complete binary tree, in breadth-first order: one more than the order of the
largest block below it (a *biased* order), 0 when there is none. `rootOrder` is not biased.

All accesses go through `get` and `set`, which fail outside of the array. Node numbers are `xlen_t`
in `alloc` and `int` in `free`, as in the source. The counters `pagesAllocated` and `pagesFreed`,
which are only written, the log, and the check in `pos2node` under `DBG`, which `moduleLevel`
disables, are left out.
-/

namespace LuoOS.Alloc

open Klib (log2up)

/-- The members of `alloc::PageMgr`. -/
structure PageMgr where
  start : Nat
  end_ : Nat
  rootOrder : Nat
  buddyTreeSize : Nat
  buddyNodes : Nat → Nat

namespace PageMgr

def lsub (x : Nat) : Nat := xlen ((x + 1) * 2 - 1)

def rsub (x : Nat) : Nat := xlen ((x + 1) * 2)

def prnt (x : Nat) : Nat := xlen ((xlen (x + 1) >>> 1 : Nat) - 1)

def get (m : PageMgr) (i : Int) : Kern Nat :=
  if 0 ≤ i ∧ i < m.buddyTreeSize then .ok (m.buddyNodes i.toNat) else .error (.outOfBounds i)

def set (m : PageMgr) (i : Int) (v : Nat) : Kern PageMgr :=
  if 0 ≤ i ∧ i < m.buddyTreeSize then
    .ok { m with buddyNodes := Function.update m.buddyNodes i.toNat (v % 2 ^ 8) }
  else .error (.outOfBounds i)

def pos2nodeLoop (pos order : Nat) : Nat → Nat → Nat
  | 0, nd => nd
  | size + 1, nd =>
    if size ≥ order then
      pos2nodeLoop pos order size (if (pos >>> size) &&& 1 ≠ 0 then rsub nd else lsub nd)
    else nd

def pos2node (m : PageMgr) (pos order : Nat) : Nat := pos2nodeLoop pos order m.rootOrder 0

/-! ## `free` -/

def freeUp : Nat → PageMgr → Int → Nat → Kern PageMgr
  | 0, _, _, _ => .error .diverges
  | fuel + 1, m, idx, order =>
    if idx > 0 then do
      let l ← m.get (lsub (xlen idx))
      let r ← m.get (rsub (xlen idx))
      let m ← m.set idx (if l = r ∧ l = order then l + 1 else max l r)
      freeUp fuel m (toInt (prnt (xlen idx))) (order + 1)
    else .ok m

def free (m : PageMgr) (ppn order : Nat) : Kern PageMgr := do
  let idx := toInt (m.pos2node (xlen (ppn - m.start)) order)
  let v ← m.get idx
  assert_ (v == 0) "buddyNodes[idx]==0"
  let m ← m.set idx (order + 1)
  let m ← freeUp 64 m (toInt (prnt (xlen idx))) (order + 1)
  let l ← m.get (lsub 0)
  let r ← m.get (rsub 0)
  m.set 0 (max l r)

def freeUnalignedLoop (pages : Nat) : Nat → PageMgr → Nat → Kern PageMgr
  | 0, m, _ => .ok m
  | i + 1, m, ppn =>
    if (pages >>> i) &&& 1 ≠ 0 then do
      let m ← m.free ppn i
      freeUnalignedLoop pages i m (xlen (ppn + 2 ^ i))
    else freeUnalignedLoop pages i m ppn

def freeUnaligned (m : PageMgr) (ppn pages : Nat) : Kern PageMgr :=
  freeUnalignedLoop pages (m.rootOrder + 1) m ppn

/-- The constructor. `new uint8_t[buddyTreeSize]` leaves arbitrary bytes, `garbage`, and the loop
that clears them starts at index 1. -/
def new (garbage : Nat → Nat) (start end_ : Nat) : Kern PageMgr :=
  let pages := xlen (end_ - start)
  let rootOrder := log2up pages
  let buddyTreeSize := xlen (2 ^ rootOrder * 2 - 1)
  let buddyNodes := fun i => if 1 ≤ i ∧ i < buddyTreeSize then 0 else garbage i % 2 ^ 8
  freeUnaligned ⟨start, end_, rootOrder, buddyTreeSize, buddyNodes⟩ start pages

/-! ## `alloc` -/

def allocStep (rounded size : Nat) (m : PageMgr) (nd node : Nat) :
    Kern (PageMgr × Nat × Nat) := do
  let v ← m.get nd
  if v = size ∧ v = rounded then return (m, nd, nd)
  else if v = size then
    -- split to smaller
    let m ← m.set (rsub nd) (size - 1)
    let m ← m.set (lsub nd) (size - 1)
    return (m, lsub nd, node)
  else
    let l ← m.get (lsub nd)
    let r ← m.get (rsub nd)
    if min l r ≥ rounded then return (m, if l < r then lsub nd else rsub nd, node)
    else return (m, if l > r then lsub nd else rsub nd, node)

/-- `for(xlen_t nd=0,size=rootOrder+1;rounded<=size;size-=1)`. `rounded` is at least 1, so `size`
stops at 0 at the latest. -/
def allocFind (rounded : Nat) : Nat → PageMgr → Nat → Nat → Kern (PageMgr × Nat)
  | 0, m, _, node => .ok (m, node)
  | size + 1, m, nd, node =>
    if rounded ≤ size + 1 then do
      let (m, nd, node) ← allocStep rounded (size + 1) m nd node
      allocFind rounded size m nd node
    else .ok (m, node)

def allocUp : Nat → PageMgr → Nat → Kern PageMgr
  | 0, _, _ => .error .diverges
  | fuel + 1, m, nd =>
    if nd > 0 then do
      let l ← m.get (lsub nd)
      let r ← m.get (rsub nd)
      let m ← m.set nd (max l r)
      allocUp fuel m (prnt nd)
    else .ok m

def outOfPages : Fault := .panic ""

def alloc (m : PageMgr) (pages : Nat) : Kern (Nat × PageMgr) := do
  let rounded := log2up pages + 1 -- biased size
  let root ← m.get 0
  if root < rounded then .error outOfPages
  else
    let (m, node) ← allocFind rounded (m.rootOrder + 1) m 0 0
    assert_ (node > 0) "node>0"
    let m ← m.set node 0
    let m ← allocUp 64 m (prnt node)
    let l ← m.get (lsub 0)
    let r ← m.get (rsub 0)
    let m ← m.set 0 (max l r)
    let ppn := xlen (m.start + (node + 1 - 2 ^ (m.rootOrder + 1 - rounded)) * 2 ^ (rounded - 1))
    assert_ (ppn < m.end_) "ppn<end"
    assert_ (ppn > 0) "ppn>0"
    return (ppn, m)

end PageMgr

end LuoOS.Alloc
