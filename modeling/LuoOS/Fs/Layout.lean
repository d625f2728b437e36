import LuoOS.Fs.Volume

/-!
# Where things are on a volume

On a volume of sound geometry the `uint32` arithmetic of the address map does not wrap around, and
the table entries and then the clusters lie one after the other. So a volume is a table `fat` of
numbers and, for each cluster, an array `clusByte` of bytes. One lemma for each function of the
super block says what it does to the two; nothing above looks at sectors again.
-/

namespace LuoOS.Fs

namespace SuperBlock

/-- The areas of a volume have room for what they hold. -/
structure Geometry (sb : SuperBlock) : Prop where
  sector : sb.bytsPerSec = 512
  cluster : 1 ≤ sb.secPerClus
  tables : 1 ≤ sb.fatCnt
  fits : sb.rsvdSecCnt + sb.fatCnt * sb.fatSz ≤ sb.totSec
  clusters : sb.dataClusCnt ≤ 0x0ffffff5
  entries : sb.dataClusCnt + 2 ≤ 128 * sb.fatSz

def InRange (sb : SuperBlock) (c : Nat) : Prop := 2 ≤ c ∧ c ≤ sb.dataClusCnt + 1
  deriving Decidable

variable {sb : SuperBlock} {c off fuel k len x : Nat}

namespace Geometry

section

variable (g : sb.Geometry)
include g

theorem firstDataSec_eq : sb.firstDataSec = sb.rsvdSecCnt + sb.fatCnt * sb.fatSz := by
  exact u32_of_lt (g.fits.trans_lt sb.totSec_lt)

theorem dataSecCnt_eq : sb.dataSecCnt = sb.totSec - sb.firstDataSec := by
  have hle : sb.firstDataSec ≤ sb.totSec := by
    rw [g.firstDataSec_eq]
    exact g.fits
  have hlt := sb.totSec_lt
  unfold dataSecCnt
  rw [← Int.ofNat_sub hle]
  exact u32_of_lt (by omega)

theorem bytsPerClus_eq : sb.bytsPerClus = 512 * sb.secPerClus := by
  have hlt := sb.secPerClus_lt
  unfold bytsPerClus
  rw [g.sector, Nat.mul_comm]
  exact u32_of_lt (by omega)

theorem bytsPerClus_pos : 0 < sb.bytsPerClus := by
  have := g.cluster
  rw [g.bytsPerClus_eq]
  omega

theorem bytsPerClus_lt : sb.bytsPerClus < 2 ^ 17 := by
  have := sb.secPerClus_lt
  rw [g.bytsPerClus_eq]
  omega

theorem clusters_fit : sb.firstDataSec + sb.dataClusCnt * sb.secPerClus ≤ sb.totSec := by
  have hdiv : sb.dataClusCnt * sb.secPerClus ≤ sb.dataSecCnt := Nat.div_mul_le_self _ _
  have hfits := g.fits
  rw [g.dataSecCnt_eq] at hdiv
  rw [g.firstDataSec_eq] at hdiv ⊢
  omega

section

variable (hc : sb.InRange c)
include hc

theorem last_sector : (c - 2) * sb.secPerClus + sb.secPerClus + sb.firstDataSec ≤ sb.totSec := by
  have hfit := g.clusters_fit
  have hmul : (c - 2 + 1) * sb.secPerClus ≤ sb.dataClusCnt * sb.secPerClus :=
    Nat.mul_le_mul_right _ (by unfold InRange at hc; omega)
  rw [Nat.succ_mul] at hmul
  omega

theorem firstSec_eq : sb.firstSec c = (c - 2) * sb.secPerClus + sb.firstDataSec := by
  have hlast := g.last_sector hc
  have hlt := sb.totSec_lt
  have hcast : ((c : Int) - 2) * sb.secPerClus + sb.firstDataSec =
      (((c - 2) * sb.secPerClus + sb.firstDataSec : Nat) : Int) := by
    have h2 : (c : Int) - 2 = ((c - 2 : Nat) : Int) := by
      rw [Int.ofNat_sub hc.1]
      rfl
    rw [h2]
    rfl
  unfold firstSec
  rw [hcast]
  exact u32_of_lt (by omega)

theorem firstSec_bounds :
    sb.firstDataSec ≤ sb.firstSec c ∧ sb.firstSec c + sb.secPerClus ≤ sb.totSec := by
  have hlast := g.last_sector hc
  rw [g.firstSec_eq hc]
  omega

theorem firstSec_apart {d : Nat} (hd : sb.InRange d) (h : c < d) :
    sb.firstSec c + sb.secPerClus ≤ sb.firstSec d := by
  have hmul : (c - 2 + 1) * sb.secPerClus ≤ (d - 2) * sb.secPerClus :=
    Nat.mul_le_mul_right _ (by unfold InRange at hc hd; omega)
  rw [Nat.succ_mul] at hmul
  rw [g.firstSec_eq hc, g.firstSec_eq hd]
  omega

end

theorem entry_sector (hc : c ≤ sb.dataClusCnt + 1) :
    sb.numthSec c 1 = sb.rsvdSecCnt + 4 * c / 512 ∧ sb.secOffset c = 4 * c % 512 := by
  have hclus := g.clusters
  have hrsvd := sb.rsvdSecCnt_lt
  have hshift : u32 ((c <<< 2 : Nat) : Int) = 4 * c := by
    rw [Nat.shiftLeft_eq, show c * 2 ^ 2 = 4 * c by omega]
    exact u32_of_lt (by omega)
  unfold numthSec secOffset
  rw [hshift, g.sector]
  refine ⟨?_, rfl⟩
  have hcast : (sb.rsvdSecCnt : Int) + ((4 * c : Nat) : Int) / (512 : Nat) +
      sb.fatSz * (((1 : Nat) : Int) - 1) = ((sb.rsvdSecCnt + 4 * c / 512 : Nat) : Int) := by
    omega
  rw [hcast]
  exact u32_of_lt (by omega)

theorem entry_address (hc : c ≤ sb.dataClusCnt + 1) :
    512 * sb.numthSec c 1 + sb.secOffset c = 512 * sb.rsvdSecCnt + 4 * c ∧
      sb.secOffset c + 4 ≤ 512 ∧ 512 * sb.rsvdSecCnt + 4 * c + 4 ≤ 512 * sb.firstDataSec := by
  have htable : sb.fatSz ≤ sb.fatCnt * sb.fatSz := Nat.le_mul_of_pos_left _ g.tables
  have hent := g.entries
  obtain ⟨hsec, hoff⟩ := g.entry_sector hc
  rw [hsec, hoff, g.firstDataSec_eq]
  omega

end

end Geometry

/-! ## The volume as a table and an array of bytes for each cluster -/

def fat (sb : SuperBlock) (d : Disk) (c : Nat) : Nat :=
  if sb.dataClusCnt + 1 < c then 0 else word (d.bcache 0 (sb.numthSec c 1)) (sb.secOffset c)

def clusByte (sb : SuperBlock) (d : Disk) (c k : Nat) : UInt8 :=
  d.bcache.byte sb.dev (512 * sb.firstSec c + k)

variable {d : Disk}

theorem fatRead_of_lt (h : c < FAT32_EOC) : sb.fatRead d c = sb.fat d c := by
  unfold fatRead
  rw [if_neg (Nat.not_le.2 h)]
  rfl

theorem fat_of_gt (h : sb.dataClusCnt + 1 < c) : sb.fat d c = 0 := by
  unfold fat
  rw [if_pos h]

namespace Geometry

section

variable (g : sb.Geometry)
include g

theorem fat_eq (hc : c ≤ sb.dataClusCnt + 1) :
    sb.fat d c = word (d.bcache.byte 0) (512 * sb.rsvdSecCnt + 4 * c) := by
  obtain ⟨haddr, hoff, -⟩ := g.entry_address hc
  unfold fat
  rw [if_neg (Nat.not_lt.2 hc), word_sector _ hoff, haddr]

/-- What is written into the data area is not written into the table. -/
theorem fat_congr {d d' : Disk}
    (h : ∀ a, a < 512 * sb.firstDataSec → d'.bcache.byte 0 a = d.bcache.byte 0 a) (c : Nat) :
    sb.fat d' c = sb.fat d c := by
  by_cases hc : c ≤ sb.dataClusCnt + 1
  · have haddr := (g.entry_address hc).2.2
    rw [g.fat_eq hc, g.fat_eq hc]
    exact word_congr fun a _ ha => h a (ha.trans_le haddr)
  · rw [fat_of_gt (Nat.lt_of_not_le hc), fat_of_gt (Nat.lt_of_not_le hc)]

theorem clusByte_address (hc : sb.InRange c)
    (hk : k < sb.bytsPerClus) : 512 * sb.firstDataSec ≤ 512 * sb.firstSec c + k ∧
      512 * sb.firstSec c + k < 512 * (sb.firstSec c + sb.secPerClus) := by
  have hb := (g.firstSec_bounds hc).1
  rw [g.bytsPerClus_eq] at hk
  omega

/-! ### Writing an entry -/

section

variable (hc : c ≤ sb.dataClusCnt + 1)
include hc

theorem byte_fatWrite (d : Disk) (v dv a : Nat) : (sb.fatWrite d c v).2.bcache.byte dv a =
      if dv = 0 ∧ 512 * sb.rsvdSecCnt + 4 * c ≤ a ∧ a < 512 * sb.rsvdSecCnt + 4 * c + 4 then
        (le32 v).getD (a - (512 * sb.rsvdSecCnt + 4 * c)) 0
      else d.bcache.byte dv a := by
  obtain ⟨haddr, hoff, -⟩ := g.entry_address hc
  unfold fatWrite
  rw [if_neg (Nat.not_lt.2 hc), ← haddr]
  exact BCache.byte_write _ hoff dv a

theorem fat_fatWrite {v : Nat} (hv : v < 2 ^ 32) (x : Nat) :
    sb.fat (sb.fatWrite d c v).2 x = if x = c then v else sb.fat d x := by
  by_cases hx : x ≤ sb.dataClusCnt + 1
  · rw [g.fat_eq hx, g.fat_eq hx]
    split
    · rename_i hxc
      subst hxc
      apply word_le32 hv
      intro i hi
      rw [g.byte_fatWrite hc, if_pos ⟨rfl, Nat.le_add_right _ _, Nat.add_lt_add_left hi _⟩,
        Nat.add_sub_cancel_left]
    · apply word_congr
      intro i hi hi'
      rw [g.byte_fatWrite hc, if_neg]
      omega
  · rw [fat_of_gt (Nat.lt_of_not_le hx), fat_of_gt (Nat.lt_of_not_le hx), if_neg]
    rintro rfl
    exact hx hc

theorem clusByte_fatWrite {v : Nat} (hx : sb.InRange x) (hk : k < sb.bytsPerClus) :
    sb.clusByte (sb.fatWrite d c v).2 x k = sb.clusByte d x k := by
  have hend := (g.entry_address hc).2.2
  have hdata := (g.clusByte_address hx hk).1
  unfold clusByte
  rw [g.byte_fatWrite hc, if_neg]
  omega

end

end

end Geometry

@[simp] theorem fatWrite_allocs (d : Disk) (c v : Nat) :
    (sb.fatWrite d c v).2.allocs = d.allocs := by
  unfold fatWrite
  split <;> rfl

/-! ### Clearing a cluster -/

theorem byte_clearLoop {first n : Nat} (h : first + n ≤ 2 ^ 32) (b : BCache) (dv a : Nat) :
    ((List.range n).foldl (fun b i => b.clear 0 (u32 (first + i : Nat))) b : BCache).byte dv a =
      if dv = 0 ∧ 512 * first ≤ a ∧ a < 512 * (first + n) then 0 else b.byte dv a := by
  induction n with
  | zero =>
    rw [if_neg (by omega)]
    rfl
  | succ n ih =>
    rw [List.range_succ, List.foldl_append, List.foldl_cons, List.foldl_nil, BCache.byte_clear,
      ih (by omega), u32_of_lt (by omega)]
    by_cases hdv : dv = 0
    · by_cases hlast : a / 512 = first + n
      · rw [if_pos ⟨hdv, hlast⟩, if_pos ⟨hdv, by omega, by omega⟩]
      rw [if_neg (fun h => hlast h.2)]
      by_cases hin : 512 * first ≤ a ∧ a < 512 * (first + n)
      · rw [if_pos ⟨hdv, hin⟩, if_pos ⟨hdv, by omega, by omega⟩]
      · rw [if_neg (fun h => hin h.2), if_neg]
        omega
    · rw [if_neg (fun h => hdv h.1), if_neg (fun h => hdv h.1), if_neg (fun h => hdv h.1)]

namespace Geometry

theorem byte_clearClus (g : sb.Geometry) (hc : sb.InRange c) (d : Disk) (dv a : Nat) :
    (sb.clearClus d c).bcache.byte dv a =
      if dv = 0 ∧ 512 * sb.firstSec c ≤ a ∧ a < 512 * (sb.firstSec c + sb.secPerClus) then 0
      else d.bcache.byte dv a :=
  byte_clearLoop (Nat.le_of_lt ((g.firstSec_bounds hc).2.trans_lt sb.totSec_lt)) _ _ _

theorem fat_clearClus (g : sb.Geometry) (hc : sb.InRange c) (d : Disk) (x : Nat) :
    sb.fat (sb.clearClus d c) x = sb.fat d x := by
  have hb := (g.firstSec_bounds hc).1
  apply g.fat_congr
  intro a ha
  rw [g.byte_clearClus hc, if_neg]
  omega

theorem clusByte_clearClus (g : sb.Geometry) (hc : sb.InRange c) (hx : sb.InRange x)
    (hk : k < sb.bytsPerClus) (hne : x ≠ c) (d : Disk) :
    sb.clusByte (sb.clearClus d c) x k = sb.clusByte d x k := by
  have hk' := (g.clusByte_address hx hk).2
  unfold clusByte
  rw [g.byte_clearClus hc, if_neg]
  rcases Nat.lt_or_gt_of_ne hne with hlt | hlt
  · have := g.firstSec_apart hx hc hlt
    omega
  · have := g.firstSec_apart hc hx hlt
    omega

end Geometry

/-! ### Transfers -/

theorem rwWriteLoop_nil (dev fuel : Nat) (b : BCache) (sec off : Nat) :
    rwWriteLoop dev fuel b sec off [] = b := by
  cases fuel <;> rfl

/-- The loop writes its bytes one after the other, across the ends of the sectors. -/
theorem byte_rwWriteLoop (dev : Nat) (b : BCache) (sec off : Nat) {bs : List UInt8}
    (hfuel : bs.length ≤ fuel) (hsec : 512 * sec + off % 512 + bs.length ≤ 2 ^ 41)
    (hoff : off + bs.length < 2 ^ 32) (dv a : Nat) : (rwWriteLoop dev fuel b sec off bs).byte dv a =
      if dv = dev ∧ 512 * sec + off % 512 ≤ a ∧ a < 512 * sec + off % 512 + bs.length then
        bs.getD (a - (512 * sec + off % 512)) 0
      else b.byte dv a := by
  induction fuel generalizing b sec off bs with
  | zero =>
    rw [if_neg (by omega)]
    rfl
  | succ fuel ih =>
    unfold rwWriteLoop blockSize
    by_cases h0 : bs.length = 0
    · rw [if_pos h0, if_neg (by omega)]
    rw [if_neg h0]
    by_cases hfit : bs.length ≤ 512 - off % 512
    · -- the last sector
      dsimp only
      rw [Nat.min_eq_right hfit, List.take_length, List.drop_length, rwWriteLoop_nil,
        BCache.byte_write _ (by omega)]
    · have hm : 512 - off % 512 ≤ bs.length := Nat.le_of_not_le hfit
      dsimp only
      rw [Nat.min_eq_left hm]
      generalize hmdef : 512 - off % 512 = m at hm hfit ⊢
      have htake : (bs.take m).length = m := List.length_take_of_le hm
      have hdrop : (bs.drop m).length = bs.length - m := List.length_drop
      have hnext : (off + m) % 512 = 0 := by omega
      have hsec' : 512 * (sec + 1) + (off + m) % 512 + (bs.drop m).length ≤ 2 ^ 41 := by
        omega
      rw [u32_of_lt (by omega), u32_of_lt (by omega), ih _ _ _ (by omega) hsec' (by omega),
        BCache.byte_write _ (by omega), htake, hdrop, hnext, Nat.add_zero]
      by_cases hdv : dv = dev
      · subst hdv
        by_cases hhi : 512 * (sec + 1) ≤ a ∧ a < 512 * sec + off % 512 + bs.length
        · rw [if_pos ⟨rfl, by omega, by omega⟩, if_pos ⟨rfl, by omega, by omega⟩,
            List.getD_eq_getElem?_getD, List.getElem?_drop, ← List.getD_eq_getElem?_getD,
            show m + (a - 512 * (sec + 1)) = a - (512 * sec + off % 512) by omega]
        rw [if_neg (by omega)]
        by_cases hlo : 512 * sec + off % 512 ≤ a ∧ a < 512 * (sec + 1)
        · rw [if_pos ⟨rfl, by omega, by omega⟩, if_pos ⟨rfl, by omega, by omega⟩,
            List.getD_eq_getElem?_getD, List.getElem?_take_of_lt (by omega),
            ← List.getD_eq_getElem?_getD]
        · rw [if_neg (by omega), if_neg (by omega)]
      · rw [if_neg (fun h => hdv h.1), if_neg (fun h => hdv h.1), if_neg (fun h => hdv h.1)]

theorem rwReadLoop_eq {b : BCache} {dev sec : Nat} (hfuel : len ≤ fuel)
    (hsec : 512 * sec + off % 512 + len ≤ 2 ^ 41) (hoff : off + len < 2 ^ 32) :
    rwReadLoop b dev fuel sec off len =
      (List.range len).map fun k => b.byte dev (512 * sec + off % 512 + k) := by
  induction fuel generalizing sec off len with
  | zero =>
    obtain rfl : len = 0 := by omega
    rfl
  | succ fuel ih =>
    unfold rwReadLoop blockSize
    by_cases h0 : len = 0
    · subst h0
      rfl
    rw [if_neg h0]
    by_cases hfit : len ≤ 512 - off % 512
    · dsimp only
      rw [Nat.min_eq_right hfit, Nat.sub_self]
      have hnil : ∀ s o, rwReadLoop b dev fuel s o 0 = [] := by
        intro s o
        cases fuel <;> rfl
      rw [hnil, List.append_nil, BCache.read_eq _ (by omega)]
    · have hm : 512 - off % 512 ≤ len := Nat.le_of_not_le hfit
      dsimp only
      rw [Nat.min_eq_left hm]
      generalize hmdef : 512 - off % 512 = m at hm hfit ⊢
      have hnext : (off + m) % 512 = 0 := by omega
      have hsec' : 512 * (sec + 1) + (off + m) % 512 + (len - m) ≤ 2 ^ 41 := by
        omega
      rw [u32_of_lt (by omega), u32_of_lt (by omega), ih (by omega) hsec' (by omega),
        BCache.read_eq _ (by omega), hnext, Nat.add_zero]
      conv => rhs; rw [← Nat.add_sub_cancel' hm]
      rw [List.range_add, List.map_append, List.map_map]
      congr 1
      apply List.map_congr_left
      intro k _
      dsimp only [Function.comp]
      congr 1
      omega

namespace Geometry

section

variable (g : sb.Geometry)
include g

theorem start_address (c off : Nat) (hroom : sb.firstSec c + off / 512 < 2 ^ 32) :
    512 * u32 (sb.firstSec c + off / sb.bytsPerSec : Nat) + off % sb.bytsPerSec % 512 =
      512 * sb.firstSec c + off := by
  rw [g.sector, u32_of_lt hroom]
  omega

theorem rwClusRead_eq (hc : sb.InRange c) (h : off + len ≤ sb.bytsPerClus) :
    sb.rwClusRead d c off len = .ok ((List.range len).map fun k => sb.clusByte d c (off + k)) := by
  have hb := g.firstSec_bounds hc
  have htot := sb.totSec_lt
  have hbpc := g.bytsPerClus_eq
  have hbl := g.bytsPerClus_lt
  have hstart := g.start_address c off (by omega)
  unfold rwClusRead
  rw [u32_of_lt (by omega), if_neg (by omega),
    rwReadLoop_eq le_rfl (by omega) (by rw [g.sector]; omega), hstart]
  unfold clusByte
  simp only [Nat.add_assoc]

theorem byte_rwClusWrite (d : Disk) (bs : List UInt8)
    (hc : sb.InRange c) (h : off + bs.length ≤ sb.bytsPerClus) :
    ∃ b, sb.rwClusWrite d c off bs = .ok { d with bcache := b } ∧ ∀ dv a, b.byte dv a =
      if dv = sb.dev ∧ 512 * sb.firstSec c + off ≤ a ∧
        a < 512 * sb.firstSec c + off + bs.length then
        bs.getD (a - (512 * sb.firstSec c + off)) 0
      else d.bcache.byte dv a := by
  have hb := g.firstSec_bounds hc
  have htot := sb.totSec_lt
  have hbpc := g.bytsPerClus_eq
  have hbl := g.bytsPerClus_lt
  have hstart := g.start_address c off (by omega)
  have hbyte := byte_rwWriteLoop sb.dev d.bcache (u32 (sb.firstSec c + off / sb.bytsPerSec : Nat))
    (off % sb.bytsPerSec) (Nat.le_refl bs.length) (by omega) (by rw [g.sector]; omega)
  unfold rwClusWrite
  rw [u32_of_lt (by omega), if_neg (by omega)]
  rw [hstart] at hbyte
  exact ⟨_, rfl, hbyte⟩

theorem rwClusWrite_ok (d : Disk) (bs : List UInt8)
    (hc : sb.InRange c) (h : off + bs.length ≤ sb.bytsPerClus) :
    ∃ d', sb.rwClusWrite d c off bs = .ok d' ∧ (∀ x, sb.fat d' x = sb.fat d x) ∧
      ∀ x k, sb.InRange x → k < sb.bytsPerClus → sb.clusByte d' x k =
        if x = c ∧ off ≤ k ∧ k < off + bs.length then bs.getD (k - off) 0
        else sb.clusByte d x k := by
  have hb := g.firstSec_bounds hc
  have hbpc := g.bytsPerClus_eq
  obtain ⟨b, hok, hbyte⟩ := g.byte_rwClusWrite d bs hc h
  refine ⟨_, hok, ?_, ?_⟩
  · apply g.fat_congr
    intro a ha
    rw [hbyte, if_neg]
    omega
  · intro x k hx hk
    unfold clusByte
    rw [hbyte]
    by_cases hin : x = c ∧ off ≤ k ∧ k < off + bs.length
    · obtain ⟨rfl, h1, h2⟩ := hin
      rw [if_pos ⟨rfl, by omega, by omega⟩, if_pos ⟨rfl, h1, h2⟩]
      congr 1
      omega
    · rw [if_neg hin, if_neg]
      rintro ⟨-, h1, h2⟩
      rcases Nat.lt_trichotomy x c with hlt | heq | hlt
      · have := g.firstSec_apart hx hc hlt
        omega
      · exact hin ⟨heq, by rw [heq] at h1; omega, by rw [heq] at h2; omega⟩
      · have := g.firstSec_apart hc hx hlt
        omega

end

/-- **The address map**: no value wraps around, clusters and table entries lie apart and inside
their areas, and a transfer looks at and changes sectors of its own cluster only. -/
theorem address_map (g : sb.Geometry) {c d off len : Nat} (hc : sb.InRange c) (hd : sb.InRange d)
    (h : off + len ≤ sb.bytsPerClus) :
    let Own := fun sec => sb.firstSec c ≤ sec ∧ sec < sb.firstSec c + sb.secPerClus
    (sb.firstDataSec = sb.rsvdSecCnt + sb.fatCnt * sb.fatSz ∧
      sb.dataSecCnt = sb.totSec - sb.firstDataSec ∧ sb.bytsPerClus = 512 * sb.secPerClus ∧
      sb.firstSec c = (c - 2) * sb.secPerClus + sb.firstDataSec ∧
      sb.numthSec c 1 = sb.rsvdSecCnt + 4 * c / 512 ∧ sb.secOffset c = 4 * c % 512) ∧
    (c ≠ d → sb.firstSec c + sb.secPerClus ≤ sb.firstSec d ∨
      sb.firstSec d + sb.secPerClus ≤ sb.firstSec c) ∧
    (sb.firstDataSec ≤ sb.firstSec c ∧ sb.firstSec c + sb.secPerClus ≤ sb.totSec) ∧
    sb.rsvdSecCnt + sb.fatSz ≤ sb.firstDataSec ∧
    (c ≠ d → (sb.numthSec c 1, sb.secOffset c) ≠ (sb.numthSec d 1, sb.secOffset d)) ∧
    (sb.rsvdSecCnt ≤ sb.numthSec c 1 ∧ sb.numthSec c 1 < sb.rsvdSecCnt + sb.fatSz ∧
      sb.secOffset c + 4 ≤ 512) ∧
    (∀ disk disk' : Disk, (∀ sec, Own sec → disk.bcache sb.dev sec = disk'.bcache sb.dev sec) →
      sb.rwClusRead disk c off len = sb.rwClusRead disk' c off len) ∧
    ∀ disk bs, bs.length = len → ∃ disk', sb.rwClusWrite disk c off bs = .ok disk' ∧
      ∀ dev a, ¬(dev = sb.dev ∧ Own (a / 512)) →
        disk'.bcache.byte dev a = disk.bcache.byte dev a := by
  have hbounds := g.firstSec_bounds hc
  have htable : sb.fatSz ≤ sb.fatCnt * sb.fatSz := Nat.le_mul_of_pos_left _ g.tables
  obtain ⟨hsec, hoff⟩ := g.entry_sector hc.2
  obtain ⟨hsecd, hoffd⟩ := g.entry_sector hd.2
  have hentries := g.entries
  have hc' := hc.2
  refine ⟨⟨g.firstDataSec_eq, g.dataSecCnt_eq, g.bytsPerClus_eq, g.firstSec_eq hc, hsec, hoff⟩,
    fun hne => ?_, hbounds, by rw [g.firstDataSec_eq]; omega, fun hne heq => ?_, by omega, ?_, ?_⟩
  · rcases Nat.lt_or_gt_of_ne hne with hlt | hlt
    · exact .inl (g.firstSec_apart hc hd hlt)
    · exact .inr (g.firstSec_apart hd hc hlt)
  · rw [Prod.mk.injEq] at heq
    omega
  · intro disk disk' hown
    rw [g.rwClusRead_eq hc h, g.rwClusRead_eq hc h]
    refine congrArg Except.ok (List.map_congr_left fun k hk => ?_)
    have hk := List.mem_range.1 hk
    have haddr := g.clusByte_address hc (k := off + k) (by omega)
    unfold clusByte BCache.byte
    rw [hown _ (by omega)]
  · rintro disk bs rfl
    obtain ⟨b, hok, hbyte⟩ := g.byte_rwClusWrite disk bs hc h
    have hbpc := g.bytsPerClus_eq
    refine ⟨_, hok, fun dev a hout => ?_⟩
    rw [hbyte, if_neg]
    rintro ⟨hdev, hlo, hhi⟩
    exact hout ⟨hdev, by omega⟩

end Geometry

end SuperBlock

def smallBlock : SuperBlock where
  dev := 0
  bytsPerSec := 512
  secPerClus := 1
  rsvdSecCnt := 1
  fatCnt := 1
  totSec := 6
  fatSz := 1
  bytsPerSec_lt := by decide
  secPerClus_lt := by decide
  rsvdSecCnt_lt := by decide
  fatCnt_lt := by decide
  totSec_lt := by decide
  fatSz_lt := by decide

theorem smallBlock_geometry : smallBlock.Geometry :=
  ⟨rfl, by decide, by decide, by decide, by decide +kernel, by decide +kernel⟩

/-- Cluster 2 is sector 2 and ends before cluster 3, and bytes that are written to it leave cluster
3 as it is. -/
theorem address_map_small : smallBlock.firstSec 2 = 2 ∧
    smallBlock.firstSec 2 + 1 ≤ smallBlock.firstSec 3 ∧
    ∀ disk, ∃ disk', smallBlock.rwClusWrite disk 2 509 [7, 8, 9] = .ok disk' ∧
      ∀ a, a / 512 = smallBlock.firstSec 3 → disk'.bcache.byte 0 a = disk.bcache.byte 0 a := by
  obtain ⟨⟨-, -, -, hsec, -⟩, hapart, -, -, -, -, -, hwrite⟩ :=
    smallBlock_geometry.address_map (show smallBlock.InRange 2 by decide +kernel)
      (show smallBlock.InRange 3 by decide +kernel)
      (show 509 + 3 ≤ smallBlock.bytsPerClus by decide +kernel)
  have hfirst : smallBlock.firstSec 2 = 2 := hsec.trans (by decide +kernel)
  have hnext : smallBlock.firstSec 2 + 1 ≤ smallBlock.firstSec 3 :=
    (hapart (by decide)).resolve_right (by decide +kernel)
  refine ⟨hfirst, hnext, fun disk => ?_⟩
  obtain ⟨disk', hok, hkept⟩ := hwrite disk [7, 8, 9] rfl
  refine ⟨disk', hok, fun a ha => hkept 0 a fun hown => ?_⟩
  have hlt : a / 512 < smallBlock.firstSec 2 + 1 := hown.2.2
  omega

end LuoOS.Fs
