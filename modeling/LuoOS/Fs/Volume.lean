import LuoOS.Klib
import LuoOS.Lib.ChainTable

/-!
# The FAT volume

The block cache maps a device, a sector and an offset to a byte, and always holds what was written
last. Over it stand the functions of `fat::SuperBlock`: the address arithmetic in `uint32` words,
the table entry of a cluster, and the transfer of bytes in one cluster. `bufCopyIn` and `bufCopyOut`
never fail, so `rwClus` transfers all it is asked to: `rwClusRead` returns the bytes, and
`rwClusWrite` takes them.
-/

namespace LuoOS.Fs

@[irreducible] def u32 (z : Int) : Nat := (z % 2 ^ 32).toNat

theorem u32_of_lt {n : Nat} (h : n < 2 ^ 32) : u32 n = n := by
  unfold u32
  omega

theorem u32_lt (z : Int) : u32 z < 2 ^ 32 := by
  unfold u32
  omega

/-! ## The block cache -/

abbrev BCache := Nat → Nat → Nat → UInt8

def blockSize : Nat := 512

def word (f : Nat → UInt8) (a : Nat) : Nat :=
  (f a).toNat + 2 ^ 8 * (f (a + 1)).toNat + 2 ^ 16 * (f (a + 2)).toNat + 2 ^ 24 * (f (a + 3)).toNat

def le32 (v : Nat) : List UInt8 :=
  [UInt8.ofNat v, UInt8.ofNat (v / 2 ^ 8), UInt8.ofNat (v / 2 ^ 16), UInt8.ofNat (v / 2 ^ 24)]

namespace BCache

def read (b : BCache) (dev sec off len : Nat) : List UInt8 :=
  (List.range len).map fun i => b dev sec (off + i)

def write (b : BCache) (dev sec off : Nat) (bs : List UInt8) : BCache := fun dv s i =>
  if dv = dev ∧ s = sec ∧ off ≤ i ∧ i < off + bs.length then bs.getD (i - off) 0 else b dv s i

def clear (b : BCache) (dev sec : Nat) : BCache := fun dv s i =>
  if dv = dev ∧ s = sec ∧ i < blockSize then 0 else b dv s i

def byte (b : BCache) (dev a : Nat) : UInt8 := b dev (a / 512) (a % 512)

theorem byte_sector (b : BCache) {dev sec off : Nat} (h : off < 512) :
    b.byte dev (512 * sec + off) = b dev sec off := by
  unfold byte
  rw [show (512 * sec + off) / 512 = sec by omega, show (512 * sec + off) % 512 = off by omega]

theorem read_eq (b : BCache) {dev sec off len : Nat} (h : off + len ≤ 512) :
    b.read dev sec off len = (List.range len).map fun i => b.byte dev (512 * sec + off + i) := by
  apply List.map_congr_left
  intro i hi
  have hi := List.mem_range.1 hi
  rw [Nat.add_assoc, byte_sector b (by omega)]

theorem byte_write (b : BCache) {dev sec off : Nat} {bs : List UInt8} (h : off + bs.length ≤ 512)
    (dv a : Nat) : (b.write dev sec off bs).byte dv a =
      if dv = dev ∧ 512 * sec + off ≤ a ∧ a < 512 * sec + off + bs.length then
        bs.getD (a - (512 * sec + off)) 0
      else b.byte dv a := by
  unfold byte write
  by_cases hin : dv = dev ∧ 512 * sec + off ≤ a ∧ a < 512 * sec + off + bs.length
  · obtain ⟨hdv, hle, hlt⟩ := hin
    rw [if_pos ⟨hdv, by omega, by omega, by omega⟩, if_pos ⟨hdv, hle, hlt⟩,
      show a % 512 - off = a - (512 * sec + off) by omega]
  · rw [if_neg hin, if_neg]
    rintro ⟨hdv, hs, hle, hlt⟩
    exact hin ⟨hdv, by omega, by omega⟩

theorem byte_clear (b : BCache) (dev sec dv a : Nat) : (b.clear dev sec).byte dv a =
    if dv = dev ∧ a / 512 = sec then 0 else b.byte dv a := by
  unfold byte clear blockSize
  have hlt : a % 512 < 512 := Nat.mod_lt _ (by decide)
  simp only [hlt, and_true]

end BCache

theorem word_congr {f g : Nat → UInt8} {a : Nat} (h : ∀ i, a ≤ i → i < a + 4 → f i = g i) :
    word f a = word g a := by
  unfold word
  rw [h a (by omega) (by omega), h (a + 1) (by omega) (by omega), h (a + 2) (by omega) (by omega),
    h (a + 3) (by omega) (by omega)]

theorem word_sector (b : BCache) {dev sec off : Nat} (h : off + 4 ≤ 512) :
    word (b dev sec) off = word (b.byte dev) (512 * sec + off) := by
  unfold word
  simp only [Nat.add_assoc]
  rw [b.byte_sector (by omega), b.byte_sector (by omega), b.byte_sector (by omega),
    b.byte_sector (by omega)]

theorem word_le32 {f : Nat → UInt8} {a v : Nat} (hv : v < 2 ^ 32)
    (hf : ∀ i, i < 4 → f (a + i) = (le32 v).getD i 0) : word f a = v := by
  have h0 := hf 0 (by omega)
  have h1 := hf 1 (by omega)
  have h2 := hf 2 (by omega)
  have h3 := hf 3 (by omega)
  unfold word
  rw [Nat.add_zero] at h0
  rw [h0, h1, h2, h3]
  simp only [le32, List.getD_cons_zero, List.getD_cons_succ, UInt8.toNat_ofNat']
  omega

/-! ## The super block -/

def FAT32_EOC : Nat := 0x0ffffff8

/-- The members of `fat::SuperBlock`, within their widths. -/
structure SuperBlock where
  dev : Nat
  bytsPerSec : Nat
  secPerClus : Nat
  rsvdSecCnt : Nat
  fatCnt : Nat
  totSec : Nat
  fatSz : Nat
  bytsPerSec_lt : bytsPerSec < 2 ^ 16
  secPerClus_lt : secPerClus < 2 ^ 8
  rsvdSecCnt_lt : rsvdSecCnt < 2 ^ 16
  fatCnt_lt : fatCnt < 2 ^ 8
  totSec_lt : totSec < 2 ^ 32
  fatSz_lt : fatSz < 2 ^ 32

/-- What is on the device, as the block cache shows it. `allocs` is not in the code: it records the
results of `allocClus`. -/
structure Disk where
  bcache : BCache
  allocs : List Nat

namespace SuperBlock

variable (sb : SuperBlock)

def firstDataSec : Nat := u32 (sb.rsvdSecCnt + sb.fatCnt * sb.fatSz : Nat)

def dataSecCnt : Nat := u32 (sb.totSec - sb.firstDataSec)

def dataClusCnt : Nat := sb.dataSecCnt / sb.secPerClus

def bytsPerClus : Nat := u32 (sb.secPerClus * sb.bytsPerSec : Nat)

def firstSec (cluster : Nat) : Nat :=
  u32 (((cluster : Int) - 2) * sb.secPerClus + sb.firstDataSec)

def numthSec (cluster fatNum : Nat) : Nat :=
  u32 (sb.rsvdSecCnt + u32 (cluster <<< 2 : Nat) / sb.bytsPerSec + sb.fatSz * ((fatNum : Int) - 1))

def secOffset (cluster : Nat) : Nat := u32 (cluster <<< 2 : Nat) % sb.bytsPerSec

def fatRead (d : Disk) (cluster : Nat) : Nat :=
  if FAT32_EOC ≤ cluster then cluster
  else if sb.dataClusCnt + 1 < cluster then 0
  else word (d.bcache 0 (sb.numthSec cluster 1)) (sb.secOffset cluster)

def fatWrite (d : Disk) (cluster content : Nat) : Int × Disk :=
  if sb.dataClusCnt + 1 < cluster then (-1, d)
  else
    (0, { d with
      bcache := d.bcache.write 0 (sb.numthSec cluster 1) (sb.secOffset cluster) (le32 content) })

def freeClus (d : Disk) (cluster : Nat) : Disk := (sb.fatWrite d cluster 0).2

def clearClus (d : Disk) (cluster : Nat) : Disk :=
  { d with
    bcache := (List.range sb.secPerClus).foldl
      (fun b i => b.clear 0 (u32 (sb.firstSec cluster + i : Nat))) d.bcache }

def rwReadLoop (b : BCache) (dev : Nat) : Nat → Nat → Nat → Nat → List UInt8
  | 0, _, _, _ => []
  | fuel + 1, sec, off, rest =>
    if rest = 0 then []
    else
      let m := min (blockSize - off % blockSize) rest
      b.read dev sec (off % blockSize) m ++
        rwReadLoop b dev fuel (u32 (sec + 1 : Nat)) (u32 (off + m : Nat)) (rest - m)

def rwWriteLoop (dev : Nat) : Nat → BCache → Nat → Nat → List UInt8 → BCache
  | 0, b, _, _, _ => b
  | fuel + 1, b, sec, off, bs =>
    if bs.length = 0 then b
    else
      let m := min (blockSize - off % blockSize) bs.length
      rwWriteLoop dev fuel (b.write dev sec (off % blockSize) (bs.take m)) (u32 (sec + 1 : Nat))
        (u32 (off + m : Nat)) (bs.drop m)

/-- `rwClus` with `a_iswrite` false. Every round moves a byte, so the length bounds their number. -/
def rwClusRead (d : Disk) (cluster off len : Nat) : Kern (List UInt8) :=
  if sb.bytsPerClus < u32 (off + len : Nat) then .error (.panic "offset out of range")
  else .ok (rwReadLoop d.bcache sb.dev len
    (u32 (sb.firstSec cluster + off / sb.bytsPerSec : Nat)) (off % sb.bytsPerSec) len)

def rwClusWrite (d : Disk) (cluster off : Nat) (bs : List UInt8) : Kern Disk :=
  if sb.bytsPerClus < u32 (off + bs.length : Nat) then .error (.panic "offset out of range")
  else .ok { d with
    bcache := rwWriteLoop sb.dev bs.length d.bcache
      (u32 (sb.firstSec cluster + off / sb.bytsPerSec : Nat)) (off % sb.bytsPerSec) bs }

end SuperBlock

end LuoOS.Fs
