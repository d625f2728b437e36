import LuoOS.Fs.Volume

/-!
# Directory entries in memory

A `fat::DirEnt` stands for a file or a directory. It has its first cluster and a cursor: the cluster
used last and its place in the chain. Here are the functions that move the cursor, extend and give
back the chain, and read and write the contents. `mntblk`, `mount_flag` and the three times are left
out, as none of them is read.
-/

namespace LuoOS.Fs

def ATTR_READ_ONLY : UInt8 := 0x01
def ATTR_DIRECTORY : UInt8 := 0x10
def ATTR_ARCHIVE : UInt8 := 0x20
def ATTR_LONG_NAME : UInt8 := 0x0f
def ATTR_LINK : UInt8 := 0x40

/-- The values of `valid`. -/
inductive Validity where
  | unused
  | live
  | removed
  deriving DecidableEq

/-- `filename` is the array of 256 characters, `attr` the source's `attribute`, and `parent` a slot
of the entry cache. -/
structure DirEnt where
  filename : List UInt8
  attr : UInt8
  firstClus : Nat
  fileSize : Nat
  curClus : Nat
  clusCnt : Nat
  dirty : Bool
  valid : Validity
  ref : Int
  off : Nat
  parent : Option Nat
  deriving DecidableEq

def DirEnt.has (e : DirEnt) (flag : UInt8) : Bool := e.attr &&& flag != 0

def le16At (bs : List UInt8) (i : Nat) : Nat :=
  (bs.getD i 0).toNat + 2 ^ 8 * (bs.getD (i + 1) 0).toNat

namespace DirEnt

variable (sb : SuperBlock)

/-! ## Clusters -/

def findFree (d : Disk) : Option (Nat × Nat) :=
  (List.range sb.fatSz).findSome? fun i =>
    (List.range (sb.bytsPerSec / 4)).findSome? fun j =>
      if word (d.bcache sb.dev (u32 (sb.rsvdSecCnt + i : Nat))) (4 * j) = 0 then some (i, j)
      else none

def allocClus (d : Disk) : Kern (Nat × Disk) :=
  match findFree sb d with
  | none => .error (.panic "no clusters")
  | some (i, j) =>
    let clus := u32 (i * (sb.bytsPerSec / 4) + j : Nat)
    let marked := d.bcache.write sb.dev (u32 (sb.rsvdSecCnt + i : Nat)) (4 * j) (le32 (FAT32_EOC + 7))
    .ok (clus, sb.clearClus { bcache := marked, allocs := clus :: d.allocs } clus)

def relocForward (alloc : Bool) : Nat → Disk → DirEnt → Kern (Bool × Disk × DirEnt)
  | 0, d, e => .ok (true, d, e)
  | n + 1, d, e =>
    let clus := sb.fatRead d e.curClus
    -- `clus` is an `int`
    if (FAT32_EOC : Int) ≤ toInt clus then
      if alloc then do
        let (clus, d) ← allocClus sb d
        let d := (sb.fatWrite d e.curClus clus).2
        relocForward alloc n d { e with curClus := clus, clusCnt := e.clusCnt + 1 }
      else .ok (false, d, { e with curClus := e.firstClus, clusCnt := 0 })
    else relocForward alloc n d { e with curClus := clus, clusCnt := e.clusCnt + 1 }

def relocRestart (d : Disk) : Nat → DirEnt → Kern DirEnt
  | 0, e => .ok e
  | n + 1, e =>
    let clus := sb.fatRead d e.curClus
    if FAT32_EOC ≤ clus then .error (.panic "relocClus")
    else relocRestart d n { e with curClus := clus, clusCnt := e.clusCnt + 1 }

def relocBack (d : Disk) (clusNum : Nat) (e : DirEnt) : Kern DirEnt :=
  if clusNum < e.clusCnt then relocRestart sb d clusNum { e with curClus := e.firstClus, clusCnt := 0 }
  else .ok e

def relocClus (d : Disk) (e : DirEnt) (off : Nat) (alloc : Bool) : Kern (Int × Disk × DirEnt) := do
  let clusNum := off / sb.bytsPerClus
  match ← relocForward sb alloc (clusNum - e.clusCnt) d e with
  | (false, d, e) => .ok (-1, d, e)
  | (true, d, e) => do
    let e ← relocBack sb d clusNum e
    .ok ((off % sb.bytsPerClus : Nat), d, e)

/-- The loop of `entTrunc`. It frees each cluster it meets, so no table makes it longer than this.
-/
def truncLoop : Nat → Disk → Nat → Kern Disk
  | 0, _, _ => .error .diverges
  | fuel + 1, d, clus =>
    if 2 ≤ clus ∧ clus < FAT32_EOC then
      truncLoop fuel (sb.freeClus d clus) (sb.fatRead d clus)
    else .ok d

def freeChain (d : Disk) (e : DirEnt) : Kern Disk :=
  if e.has ATTR_LINK then .ok d else truncLoop sb (sb.dataClusCnt + 3) d e.firstClus

def entTrunc (d : Disk) (e : DirEnt) : Kern (Disk × DirEnt) := do
  let d ← freeChain sb d e
  .ok (d, { e with fileSize := 0, firstClus := 0, dirty := true })

/-! ## Contents -/

def resolveLink (d : Disk) (e : DirEnt) : Kern DirEnt :=
  if e.has ATTR_LINK then do
    let li ← sb.rwClusRead d e.firstClus 0 36
    .ok { e with
      firstClus := u32 ((le16At li 20 <<< 16) + le16At li 26 : Nat), attr := li.getD 11 0 }
  else .ok e

def readLoop : Nat → Disk → DirEnt → Nat → Nat → Kern (List UInt8 × Disk × DirEnt)
  | 0, d, e, _, _ => .ok ([], d, e)
  | fuel + 1, d, e, off, rest =>
    if e.curClus < FAT32_EOC ∧ 0 < rest then do
      let (_, d, e) ← relocClus sb d e off false
      let m := min (sb.bytsPerClus - off % sb.bytsPerClus) rest
      let bs ← sb.rwClusRead d e.curClus (off % sb.bytsPerClus) m
      let (bs', d, e) ← readLoop fuel d e (u32 (off + m : Nat)) (rest - m)
      .ok (bs ++ bs', d, e)
    else .ok ([], d, e)

def entRead (d : Disk) (e : DirEnt) (off len : Nat) : Kern (Int × List UInt8 × Disk × DirEnt) :=
  if e.fileSize < off ∨ u32 (off + len : Nat) < off ∨ e.has ATTR_DIRECTORY then .ok (0, [], d, e)
  else do
    let e ← resolveLink sb d e
    let len := if e.fileSize < u32 (off + len : Nat) then u32 (e.fileSize - off) else len
    let (bs, d, e) ← readLoop sb len d e off len
    .ok (toInt bs.length, bs, d, e)

def firstCluster (d : Disk) (e : DirEnt) : Kern (Disk × DirEnt) :=
  if e.firstClus = 0 then do
    let (clus, d) ← allocClus sb d
    .ok (d, { e with firstClus := clus, curClus := clus, clusCnt := 0, dirty := true })
  else .ok (d, e)

def writeLoop : Nat → Disk → DirEnt → Nat → List UInt8 → Kern (Disk × DirEnt)
  | 0, d, e, _, _ => .ok (d, e)
  | fuel + 1, d, e, off, bs =>
    if 0 < bs.length then do
      let (_, d, e) ← relocClus sb d e off true
      let m := min (sb.bytsPerClus - off % sb.bytsPerClus) bs.length
      let d ← sb.rwClusWrite d e.curClus (off % sb.bytsPerClus) (bs.take m)
      writeLoop fuel d e (u32 (off + m : Nat)) (bs.drop m)
    else .ok (d, e)

def grownTo (e : DirEnt) (len off : Nat) : DirEnt :=
  if 0 < len ∧ e.fileSize < off then { e with fileSize := off, dirty := true } else e

def entWrite (d : Disk) (e : DirEnt) (bs : List UInt8) (off : Nat) : Kern (Int × Disk × DirEnt) :=
  if e.fileSize < off ∨ u32 (off + bs.length : Nat) < off ∨ 0xffffffff < off + bs.length ∨
      e.has ATTR_READ_ONLY then .ok (-1, d, e)
  else do
    let e ← resolveLink sb d e
    let (d, e) ← firstCluster sb d e
    let (d, e) ← writeLoop sb bs.length d e off bs
    .ok (toInt bs.length, d, e.grownTo bs.length (u32 (off + bs.length : Nat)))

end DirEnt

/-- A mounted volume: the disk and the entry cache. `lru` lists the slots in the order of their
`next` links, from the one behind the head on; `root` is the slot of the root directory. -/
structure Mount where
  sb : SuperBlock
  disk : Disk
  ents : Nat → DirEnt
  lru : List Nat
  root : Nat

def Mount.setEnt (s : Mount) (i : Nat) (d : Disk) (e : DirEnt) : Mount :=
  { s with disk := d, ents := Function.update s.ents i e }

end LuoOS.Fs
