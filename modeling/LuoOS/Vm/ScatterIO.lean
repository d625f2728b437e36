import LuoOS.Fs.FileStore
import LuoOS.Vm.FileMap

/-!
# Scattered reads of files

`include/scatterio.hh` copies between two lists of regions: `KMemScatteredIO` walks the memory that
is written and `SingleFileScatteredReader` the parts of the file. `INode::readPages` does it page by
page, and `VnodePager::load` with one page and one frame. The copy ends with the first read that
gives nothing, and the rest of the frame stays as it was. The offset of a read is an `uint`, which
holds 32 bits of it.
-/

namespace LuoOS.Vm

open Fs (u32)

abbrev Memory := Nat → UInt8

def Memory.store (mem : Memory) (l : Nat) (bs : List UInt8) : Memory :=
  fun a => if l ≤ a then bs[a - l]?.getD (mem a) else mem a

@[simp] theorem Memory.store_nil (mem : Memory) (l : Nat) : mem.store l [] = mem := by
  funext a
  simp [Memory.store]

def Memory.frame (mem : Memory) (ppn : Nat) : Page := fun j => mem (pn2addr ppn + j.1)

theorem Memory.frame_store (mem : Memory) (ppn : Nat) (bs : List UInt8) :
    Memory.frame (mem.store (pn2addr ppn) bs) ppn = (mem.frame ppn).write 0 bs := by
  funext j
  simp [Memory.frame, Memory.store, Page.write]

/-! ## The two ends of a copy -/

/-- A position in a list of regions. -/
structure Cursor where
  it : List Segment
  off : Nat

namespace Cursor

def start (vec : List Segment) : Cursor := ⟨vec, 0⟩

def avail (c : Cursor) : Bool := !c.it.isEmpty

/-- `if(off==it->length()){off=0;it++;}` after `off+=bytes`, with the region `seg` at the iterator. -/
def advance (seg : Segment) (rest : List Segment) (off : Nat) : Cursor :=
  if off = seg.length then ⟨rest, 0⟩ else ⟨seg :: rest, off⟩

/-- `KMemScatteredIO::next`. There is no slice if the iterator came to its end: what the source reads
there is not part of the vector. -/
def next (c : Cursor) (bytes : Nat) : Kern (Option Segment × Cursor) :=
  match c.it with
  | [] => .error .wildPointer
  | seg :: rest =>
    let c := advance seg rest (xlen (c.off + bytes))
    .ok (c.it.head?.map fun s => ⟨xlen (s.l + c.off), s.r⟩, c)

def contConsume (nodRead : Nat → Nat → List UInt8) (c : Cursor) (slice : Segment) (mem : Memory) :
    Kern (Nat × Cursor × Memory) :=
  match c.it with
  | [] => .error .wildPointer
  | seg :: rest =>
    let availbytes := min (xlen (seg.length - c.off)) slice.length
    let bs := nodRead (u32 (seg.l + c.off : Nat)) (u32 availbytes)
    let c := advance seg rest (xlen (c.off + bs.length))
    let c := if availbytes ≠ 0 ∧ bs.length = 0 then ⟨[], c.off⟩ else c
    .ok (bs.length, c, mem.store slice.l bs)

end Cursor

section Copy

variable (nodRead : Nat → Nat → List UInt8)

/-- The loop of `scatteredCopy`. Every round that does not end the file moves a byte. -/
def scatterLoop : (fuel : Nat) → (davail : Option Segment) → (dst src : Cursor) → Memory →
    Kern Memory
  | 0, _, _, _, _ => .error .diverges
  | fuel + 1, davail, dst, src, mem =>
    if src.avail then
      match davail with
      | none => .error .wildPointer
      | some slice =>
        if slice.nonempty then do
          let (cnt, src, mem) ← src.contConsume nodRead slice mem
          let (davail, dst) ← dst.next cnt
          scatterLoop fuel davail dst src mem
        else .ok mem
    else .ok mem

def readv (src dst : List Segment) (mem : Memory) : Kern Memory :=
  if (Cursor.start dst).avail then do
    let (davail, dst) ← (Cursor.start dst).next 0
    scatterLoop nodRead ((src.map Segment.length).sum + 1) davail dst (.start src) mem
  else .ok mem

def pageBytes (seg : Segment) : Segment :=
  ⟨pn2addr seg.l, xlen (pn2addr (xlen (seg.r + 1)) - 1)⟩

def readPagesTo (src dst : List Segment) (mem : Memory) : Kern Memory :=
  readv nodRead (src.map pageBytes) (dst.map pageBytes) mem

def vnodeLoadTo (offset ppn : Nat) (mem : Memory) : Kern Memory :=
  readPagesTo nodRead [⟨offset, offset⟩] [⟨ppn, ppn⟩] mem

end Copy

/-! ## One page -/

theorem pageBytes_length (i : Nat) : (pageBytes ⟨i, i⟩).length = pageSize := by
  unfold pageBytes Segment.length pn2addr xlen pageSize
  simp only [Nat.shiftLeft_eq]
  omega

theorem pageBytes_frame {ppn : Nat} (h : ppn < 2 ^ 44) :
    pageBytes ⟨ppn, ppn⟩ = ⟨pageSize * ppn, pageSize * ppn + (pageSize - 1)⟩ := by
  unfold pageBytes pn2addr xlen pageSize
  simp only [Nat.shiftLeft_eq, Segment.mk.injEq]
  omega

variable {seg : Segment}

/-- A walk over the memory of one page that is not at its end. -/
theorem Cursor.next_page (hseg : seg.length = pageSize) {off n : Nat} (h : off + n < pageSize) :
    Cursor.next ⟨[seg], off⟩ n = .ok (some ⟨xlen (seg.l + (off + n)), seg.r⟩, ⟨[seg], off + n⟩) := by
  have hx : xlen ((off : Int) + n) = off + n := by
    unfold xlen
    unfold pageSize at h
    omega
  unfold Cursor.next Cursor.advance
  dsimp only
  rw [hx, hseg, if_neg (Nat.ne_of_lt h)]
  rfl

theorem Cursor.next_page_end (hseg : seg.length = pageSize) :
    Cursor.next ⟨[seg], 0⟩ pageSize = .ok (none, ⟨[], 0⟩) := by
  unfold Cursor.next Cursor.advance
  dsimp only
  rw [hseg, if_pos (by decide)]
  rfl

section OnePage

variable {nodRead : Nat → Nat → List UInt8} {bs : List UInt8} {slice : Segment}

theorem Cursor.contConsume_page {off n : Nat}
    (hseg : seg.length = pageSize) (hoff : off < pageSize) (hslice : slice.length = pageSize - off)
    (hbs : nodRead (u32 (seg.l + off : Nat)) (pageSize - off) = bs) (hn : bs.length = n)
    (hle : off + n ≤ pageSize) (mem : Memory) : Cursor.contConsume nodRead ⟨[seg], off⟩ slice mem =
      .ok (n, if n = 0 then ⟨[], off⟩ else if off + n = pageSize then ⟨[], 0⟩
        else ⟨[seg], off + n⟩, mem.store slice.l bs) := by
  have havail : min (xlen ((seg.length : Int) - off)) slice.length = pageSize - off := by
    unfold xlen
    unfold pageSize at *
    omega
  have hu : u32 ((pageSize - off : Nat) : Int) = pageSize - off := by
    unfold u32
    unfold pageSize at *
    omega
  have hx : xlen ((off : Int) + n) = off + n := by
    unfold xlen
    unfold pageSize at *
    omega
  unfold Cursor.contConsume Cursor.advance
  dsimp only
  rw [havail, hu, hbs, hn, hx, hseg]
  by_cases h0 : n = 0
  · rw [if_pos (⟨by omega, h0⟩ : pageSize - off ≠ 0 ∧ n = 0), if_neg (by omega), if_pos h0, h0]
    rfl
  · rw [if_neg (fun h => h0 h.2), if_neg h0]

theorem scatterLoop_end (fuel : Nat) (davail : Option Segment) (dst : Cursor) (off : Nat)
    (mem : Memory) : scatterLoop nodRead (fuel + 1) davail dst ⟨[], off⟩ mem = .ok mem := rfl

theorem scatterLoop_round {fuel off cnt : Nat} {davail : Option Segment}
    {dst dst' src' : Cursor} {mem mem' : Memory} (hslice : slice.nonempty = true)
    (hsrc : Cursor.contConsume nodRead ⟨[seg], off⟩ slice mem = .ok (cnt, src', mem'))
    (hdst : dst.next cnt = .ok (davail, dst')) :
    scatterLoop nodRead (fuel + 1) (some slice) dst ⟨[seg], off⟩ mem =
      scatterLoop nodRead fuel davail dst' src' mem' := by
  conv_lhs => unfold scatterLoop
  rw [if_pos (show Cursor.avail ⟨[seg], off⟩ = true from rfl)]
  dsimp only
  rw [if_pos hslice, hsrc, ok_bind]
  rw [hdst, ok_bind]

/-- **A page is filled by its first read**, if a read behind a short one gives nothing. The rest of
the memory stays as it was. -/
theorem readv_page {src : Segment} {a : Nat} (hs : src.length = pageSize)
    (ha : a + pageSize ≤ 2 ^ 64) (hbs : nodRead (u32 src.l) pageSize = bs)
    (hle : bs.length ≤ pageSize) (hnext : 0 < bs.length → bs.length < pageSize →
      nodRead (u32 (src.l + bs.length : Nat)) (pageSize - bs.length) = []) (mem : Memory) :
    readv nodRead [src] [⟨a, a + (pageSize - 1)⟩] mem = .ok (mem.store a bs) := by
  -- the part of the memory that is left behind `n` bytes
  have hd : Segment.length ⟨a, a + (pageSize - 1)⟩ = pageSize := by
    unfold Segment.length xlen
    dsimp only
    unfold pageSize at *
    omega
  have hslice : ∀ n, n < pageSize → xlen ((a : Int) + ((0 : Nat) + (n : Nat))) = a + n ∧
      Segment.length ⟨a + n, a + (pageSize - 1)⟩ = pageSize - n ∧
      Segment.nonempty ⟨a + n, a + (pageSize - 1)⟩ = true := by
    unfold Segment.length Segment.nonempty xlen
    simp only [decide_eq_true_eq]
    unfold pageSize at *
    omega
  have hcur : ∀ n, n < pageSize → Cursor.next ⟨[⟨a, a + (pageSize - 1)⟩], 0⟩ n =
      .ok (some ⟨a + n, a + (pageSize - 1)⟩, ⟨[⟨a, a + (pageSize - 1)⟩], 0 + n⟩) := by
    intro n hn
    rw [Cursor.next_page hd (by omega)]
    rw [(hslice n hn).1]
  have hfirst := Cursor.contConsume_page hs (by decide) hd hbs rfl
    (show 0 + bs.length ≤ pageSize by omega) mem
  have hfuel : ([src].map Segment.length).sum + 1 = pageSize - 2 + 1 + 1 + 1 := by
    rw [List.map_singleton, List.sum_singleton, hs]
    rfl
  unfold readv
  rw [if_pos (show Cursor.avail (.start [⟨a, a + (pageSize - 1)⟩]) = true from rfl), hfuel]
  unfold Cursor.start
  rw [hcur 0 (by decide), ok_bind]
  dsimp only
  rcases Nat.lt_or_ge bs.length pageSize with hlt | hge
  · rw [scatterLoop_round (hslice 0 (by decide)).2.2 hfirst (hcur _ hlt)]
    rcases Nat.eq_zero_or_pos bs.length with hzero | hpos
    · rw [if_pos hzero, scatterLoop_end]
    rw [if_neg (Nat.pos_iff_ne_zero.1 hpos), if_neg (by omega), Nat.zero_add]
    -- the second read gives nothing and ends the file
    have hsecond := Cursor.contConsume_page hs hlt (hslice _ hlt).2.1 (hnext hpos hlt) rfl
      (Nat.le_of_lt hlt) (mem.store a bs)
    rw [Memory.store_nil] at hsecond
    rw [scatterLoop_round (hslice _ hlt).2.2 hsecond (Cursor.next_page hd hlt)]
    rfl
  · have hfull : bs.length = pageSize := Nat.le_antisymm hle hge
    rw [hfull] at hfirst
    rw [scatterLoop_round (hslice 0 (by decide)).2.2 hfirst (Cursor.next_page_end hd)]
    rfl

variable {offset ppn : Nat}

theorem vnodeLoadTo_eq (hppn : ppn < 2 ^ 44)
    (hbs : nodRead (u32 (pn2addr offset)) pageSize = bs) (hle : bs.length ≤ pageSize)
    (hnext : 0 < bs.length → bs.length < pageSize →
      nodRead (u32 (pn2addr offset + bs.length : Nat)) (pageSize - bs.length) = []) (mem : Memory) :
    vnodeLoadTo nodRead offset ppn mem = .ok (mem.store (pn2addr ppn) bs) := by
  unfold vnodeLoadTo readPagesTo
  rw [List.map_singleton, List.map_singleton, pageBytes_frame hppn, pn2addr_eq (by omega)]
  refine readv_page (pageBytes_length offset) ?_ hbs hle hnext mem
  unfold pageSize
  omega

end OnePage

/-! ## Files of FAT -/

theorem u32_pn2addr (offset : Nat) : u32 (pn2addr offset) = pageSize * (offset % 2 ^ 20) := by
  unfold u32 pn2addr xlen pageSize
  omega

section Fat

variable {file : List UInt8} {offset ppn : Nat} (hppn : ppn < 2 ^ 44) (mem : Memory)
include hppn

/-- `readPages` on a file of FAT is the copy of one page to a frame. -/
theorem vnodeLoadTo_fat {read : Nat → Nat → List UInt8}
    (hread : ∀ off < 2 ^ 32, ∀ len < 2 ^ 32, read off len = nodRead file off len) :
    ∃ mem', vnodeLoadTo read offset ppn mem = .ok mem' ∧
      (∀ a, a / pageSize ≠ ppn → mem' a = mem a) ∧
      mem'.frame ppn = readPages file offset (mem.frame ppn) := by
  have hle := nodRead_length_le file (u32 (pn2addr offset)) pageSize
  have hfirst := hread _ (Fs.u32_lt (pn2addr offset)) pageSize (by decide)
  refine ⟨_, vnodeLoadTo_eq hppn hfirst hle (fun hpos _ => ?_) mem, fun a ha => ?_, ?_⟩
  · have hne : (nodRead file (u32 (pn2addr offset + 0 : Nat)) pageSize).length ≠ 0 :=
      Nat.pos_iff_ne_zero.1 hpos
    have h := nodRead_next (by decide) hne
    rw [Nat.add_zero, Nat.zero_add] at h
    rw [hread _ (Fs.u32_lt _) _ (by unfold pageSize; omega), h]
  · unfold Memory.store
    rw [pn2addr_eq (by omega)]
    split
    · rw [List.getElem?_eq_none (by unfold pageSize at *; omega), Option.getD_none]
    · rfl
  · rw [Memory.frame_store, readPages_eq]
    rfl

/-- What a read of file `i` gives on the volume as it is at the time of the read. -/
def volumeRead (s : Nat → Nat → Fs.Mount) (i off len : Nat) : List UInt8 :=
  match (s off len).fileOp (.read i off len) with
  | .ok ((_, bs), _) => bs
  | .error _ => []

/-- **A page that is mapped has what was written to the file**: no read fails, and the frame gets
the bytes of the store at the page and keeps its own behind the end. The last page below 4 GiB is
not read: its end is 0 as an `uint`. -/
theorem vnodeLoadTo_volume {s : Nat → Nat → Fs.Mount} {files : List Nat} {σ : Fs.Store}
    (v : ∀ off len, Fs.FileVolume (s off len) files σ) {i : Nat} (hi : i ∈ files) :
    (∀ off < 2 ^ 32, ∀ len < 2 ^ 32, ∃ r, (s off len).fileOp (.read i off len) = .ok r) ∧
    ∃ mem', vnodeLoadTo (volumeRead s i) offset ppn mem = .ok mem' ∧
      (∀ a, a / pageSize ≠ ppn → mem' a = mem a) ∧ ∀ j : Fin pageSize, mem'.frame ppn j =
        if offset % 2 ^ 20 + 1 = 2 ^ 20 then mem.frame ppn j
        else ((σ i)[pageSize * (offset % 2 ^ 20) + j.1]?).getD (mem.frame ppn j) := by
  have hread : ∀ off < 2 ^ 32, ∀ len < 2 ^ 32, (∃ r, (s off len).fileOp (.read i off len) = .ok r) ∧
      volumeRead s i off len = nodRead (σ i) off len := by
    intro off hoff len hlen
    obtain ⟨own, hown, -⟩ := (v off len).chains
    obtain ⟨e', h, -, -⟩ := entRead_nodRead (v off len).geometry (hown i hi)
      ((v off len).regular i hi) hoff hlen
    unfold volumeRead Fs.Mount.fileOp
    dsimp only
    rw [h, ok_bind]
    exact ⟨⟨_, rfl⟩, rfl⟩
  obtain ⟨mem', hload, hother, hframe⟩ :=
    vnodeLoadTo_fat hppn mem fun off ho len hl => (hread off ho len hl).2
  refine ⟨fun off ho len hl => (hread off ho len hl).1, mem', hload, hother, fun j => ?_⟩
  rw [hframe, readPages_eq, Page.write_zero, filePage, nodRead, u32_pn2addr]
  have hwrap : u32 (pageSize * (offset % 2 ^ 20) + pageSize : Nat) < pageSize * (offset % 2 ^ 20) ↔
      offset % 2 ^ 20 + 1 = 2 ^ 20 := by
    unfold u32 pageSize
    omega
  simp only [hwrap]
  split <;> rename_i hend
  · split
    · rfl
    · rw [List.getElem?_eq_none (l := σ i) (by omega)]
      rfl
  · rw [if_neg (not_or.1 hend).2, List.getElem?_take_of_lt j.2, List.getElem?_drop]

end Fat

/-- Three bytes are written to an empty file, and its first page is mapped. -/
theorem vnodeLoadTo_volume_small : ∃ r s mem',
    (Fs.fresh Fs.smallBlock).fileOp (.write 0 [1, 2, 3] 0) = .ok (r, s) ∧
      vnodeLoadTo (volumeRead (fun _ _ => s) 0) 0 3 (fun _ => 9) = .ok mem' ∧
      mem'.frame 3 ⟨2, by decide⟩ = 3 ∧ mem'.frame 3 ⟨3, by decide⟩ = 9 := by
  obtain ⟨s, hwrite, -, v⟩ := (Fs.fileVolume_fresh Fs.smallBlock_geometry [0]).step rfl
    (by decide +kernel : (Fs.FileOp.write 0 [1, 2, 3] 0).Legal [0] _)
  obtain ⟨-, mem', hload, -, hbytes⟩ := vnodeLoadTo_volume (by decide : 3 < 2 ^ 44) (fun _ => 9)
    (fun _ _ => v) (List.mem_singleton_self 0)
  exact ⟨_, s, mem', hwrite, hload, hbytes _, hbytes _⟩

/-! ## The bytes behind the end of the file -/

section Padding

variable {file : List UInt8} {nodRead : Nat → Nat → List UInt8}

theorem vnodeLoadTo_file (hread : ∀ off len, nodRead off len = (file.drop off).take len)
    {offset ppn : Nat} (hppn : ppn < 2 ^ 44) (mem : Memory) : vnodeLoadTo nodRead offset ppn mem =
      .ok (mem.store (pn2addr ppn) ((file.drop (pageSize * (offset % 2 ^ 20))).take pageSize)) := by
  have hu := u32_pn2addr offset
  refine vnodeLoadTo_eq hppn (hu ▸ hread _ _) (List.length_take_le _ _) (fun hpos hlt => ?_) mem
  rw [List.length_take, List.length_drop] at *
  generalize hn : min pageSize (file.length - pageSize * (offset % 2 ^ 20)) = n at *
  have hstart : u32 (pn2addr offset + n : Nat) = pageSize * (offset % 2 ^ 20) + n := by
    unfold u32 at hu ⊢
    unfold pageSize at *
    omega
  rw [hread, hstart, List.drop_eq_nil_of_le (by omega), List.take_nil]

/-- **A page of a vnode pager is the page of the file, padded with zeros**, if and only if the new
frame had zeros behind the end of the file and the bytes at the page's offset are those at the
offset modulo `2 ^ 32`. -/
theorem vnodeLoadTo_padded_iff (hread : ∀ off len, nodRead off len = (file.drop off).take len)
    (offset : Nat) {ppn : Nat} (hppn : ppn < 2 ^ 44) (mem : Memory) :
    (∃ mem', vnodeLoadTo nodRead offset ppn mem = .ok mem' ∧
      ∀ j : Fin pageSize, mem'.frame ppn j = fileByte file (pageSize * offset + j.1)) ↔
    ∀ j : Fin pageSize,
      (file.length ≤ pageSize * (offset % 2 ^ 20) + j.1 → mem.frame ppn j = 0) ∧
      (2 ^ 20 ≤ offset → pageSize * (offset % 2 ^ 20) + j.1 < file.length →
        fileByte file (pageSize * (offset % 2 ^ 20) + j.1) =
          fileByte file (pageSize * offset + j.1)) := by
  rw [vnodeLoadTo_file hread hppn mem]
  simp only [Except.ok.injEq, exists_eq_left', Memory.frame_store, Page.write_zero]
  refine forall_congr' fun j => ?_
  have hj := j.2
  rw [List.getElem?_take_of_lt hj, List.getElem?_drop]
  rcases Nat.lt_or_ge (pageSize * (offset % 2 ^ 20) + j.1) file.length with hin | hout
  · -- the byte comes from the file
    have hbyte : fileByte file (pageSize * (offset % 2 ^ 20) + j.1) =
        (file[pageSize * (offset % 2 ^ 20) + j.1]?).getD (mem.frame ppn j) := by
      rw [fileByte, List.getD_eq_getElem?_getD, List.getElem?_eq_getElem hin]
      rfl
    rw [← hbyte]
    refine ⟨fun h => ⟨fun hle => absurd hin (Nat.not_lt.2 hle), fun _ _ => h⟩, fun h => ?_⟩
    rcases Nat.lt_or_ge offset (2 ^ 20) with hsmall | hlarge
    · rw [Nat.mod_eq_of_lt hsmall]
    · exact h.2 hlarge hin
  · -- the byte is what the frame held, and the page of the file does not reach it either
    have hzero : fileByte file (pageSize * offset + j.1) = 0 := by
      refine fileByte_of_le (hout.trans ?_)
      exact Nat.add_le_add_right (Nat.mul_le_mul_left _ (Nat.mod_le _ _)) _
    rw [List.getElem?_eq_none hout, Option.getD_none, hzero]
    exact ⟨fun h => ⟨fun _ => h, fun _ hlt => absurd hlt (Nat.not_lt.2 hout)⟩, fun h => h.1 hout⟩

end Padding

def fileRead (file : List UInt8) (off len : Nat) : List UInt8 := (file.drop off).take len

/-- The page of a file with one byte, read to a frame of zeros. -/
theorem vnodeLoadTo_padded_zero : ∃ mem', vnodeLoadTo (fileRead [7]) 0 3 (fun _ => 0) = .ok mem' ∧
      ∀ j : Fin pageSize, mem'.frame 3 j = fileByte [7] (pageSize * 0 + j.1) :=
  (vnodeLoadTo_padded_iff (fun _ _ => rfl) 0 (by decide) fun _ => 0).2 fun _ =>
    ⟨fun _ => rfl, fun h => absurd h (by decide)⟩

/-- **The old bytes of the frame show behind the end of the file.** -/
theorem not_vnodeLoadTo_padded : ¬∃ mem', vnodeLoadTo (fileRead [7]) 0 3 (fun _ => 1) = .ok mem' ∧
      ∀ j : Fin pageSize, mem'.frame 3 j = fileByte [7] (pageSize * 0 + j.1) := by
  rintro ⟨mem', h, hbytes⟩
  have hread : ∀ off len, fileRead [7] off len = (([7] : List UInt8).drop off).take len :=
    fun _ _ => rfl
  rw [vnodeLoadTo_file hread (by decide)] at h
  cases h
  exact absurd (hbytes ⟨1, by decide⟩) (by decide)

end LuoOS.Vm
