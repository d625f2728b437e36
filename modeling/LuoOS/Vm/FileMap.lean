import LuoOS.Vm.Pager

/-!
# Mapping a file

`syscall::mmap` of a file descriptor, with the bytes of the new region. The call puts a swap pager
over the pager of the file's VMO if the mapping is private, and fills the VMO of the region from
there. The bytes are those of the first pages of the vnode pager, since `offset` is not used
(`shows_iff_contents`). Behind the end of the file, a page that the vnode pager did not have yet
shows what the new frame held before.
-/

namespace LuoOS.Vm

open Translation PageMapping

/-- The pages of the region at page `vpn` can be read by the user, their frames are those of the
buffers of the VMO, and byte `n` of the region is `byte n`. -/
def Shows (vmar : VMAR) (vmo : VMOPaged) (vpn pages : Nat) (byte : Nat → UInt8) : Prop :=
  ∀ i < pages, ∃ x pbuf, leafAt vmar.pagetable (vpn + i) = some x ∧
    x.perm.r = true ∧ x.perm.u = true ∧
    vmo.pages i = some pbuf ∧ x.frame (vpn + i) = pbuf.ppn ∧
    ∀ j : Fin pageSize, pbuf.data j = byte (pageSize * i + j)

/-! ## The call -/

def mmapPager (flags : BitVec 32) (pages : Nat) : Option Pager → Pager
  | none => .anon fun _ => none
  | some pager =>
    if ((flags.sshiftRight 8).truncate 8).toNat = 0 then
      .swap pager ⟨0, pn2addr pages⟩ fun _ => none
    else pager

/-- `syscall::mmap` at a place of its choice, where `filePager` is the pager of the VMO of `ofile(fd)`.
The pages of the new VMO are asked for while `VMAR::map` goes over them. -/
def Process.mmapFile (p : Process) (fresh : NewFrames) (len : Nat)
    (prot flags fd _offset : BitVec 32) (filePager : Pager) : Kern (Except Nat Nat × Process × VMOPaged) := do
  let pages := bytes2pages len
  let pager := mmapPager flags pages (if fd = -1 then none else some filePager)
  let vmo ← (VMOPaged.make pages pager).reqAll fresh 0 pages
  let (ret, p) ← p.mmap 0 len prot flags fd vmo.frames
  pure (ret, p, vmo)

/-! ## What the region shows -/

theorem Page.clear_none (p : Page) (l : Nat) : p.clear l 0 = p := by
  funext j
  unfold clear
  rw [if_neg (by omega)]

variable {frames : Nat → PageBuf}

/-- A swap pager over all pages of the region shows what the pager behind it does. -/
theorem mmapPager_contents {flags : BitVec 32} {pages i : Nat}
    {pager : Pager} (hpages : pages < 2 ^ 52) (hi : i < pages) :
    (mmapPager flags pages (some pager)).contents frames i = pager.contents frames i := by
  unfold mmapPager
  dsimp only
  split
  · have hoff : xlen ((addr2pn 0 : Nat) + i) = i := by
      have hzero : addr2pn 0 = 0 := rfl
      exact (xlen_add (by omega)).trans (Nat.zero_add i)
    have hend : addr2pn (pn2addr pages) = pages := by
      rw [pn2addr_eq hpages, addr2pn_mul]
    simp only [Pager.contents, hoff, hend]
    rw [if_pos (Nat.le_of_lt hi)]
    unfold Pager.clearOutside
    rw [hend, if_neg (Nat.ne_of_lt hi)]
    split
    · rename_i hzero
      subst hzero
      exact Page.clear_none _ 0
    · rfl
  · rfl

section Region

variable {p : Process} {fresh : NewFrames} {len : Nat} {prot flags fd : BitVec 32} {pager : Pager}

theorem prot2perm_read (h : prot.getLsbD 0 = true) : (prot2perm prot).Ok ∧
      (prot2perm prot).grant = some (prot2perm prot) ∧
      (prot2perm prot).r = true ∧ (prot2perm prot).u = true := by
  have hne : prot ≠ 0 := by
    rintro rfl
    cases h
  unfold prot2perm
  rw [if_neg hne, h]
  exact ⟨rfl, rfl, rfl, rfl⟩

theorem mmap_leaves (flags : BitVec 32) (load : Frames) (hs : Sound p.vmar.pagetable)
    (hread : prot.getLsbD 0 = true) (hfile : p.files fd = true) (hlen : 0 < len)
    (hroom : (p.chooseVpn 0 len).1 + bytes2pages len ≤ 2 ^ 27) :
    ∃ p', p.mmap 0 len prot flags fd load = .ok (.ok (pageSize * (p.chooseVpn 0 len).1), p') ∧
      ∀ i < bytes2pages len, ∃ x,
        leafAt p'.vmar.pagetable ((p.chooseVpn 0 len).1 + i) = some x ∧
        x.perm = prot2perm prot ∧ x.frame ((p.chooseVpn 0 len).1 + i) = load.1 i := by
  obtain ⟨hok, hgrant, -⟩ := prot2perm_read hread
  have hpages : bytes2pages len ≠ 0 := Nat.pos_iff_ne_zero.1 (lt_bytes2pages.2 hlen)
  have hxlen : xlen (bytes2pages len) = bytes2pages len := xlen_of_lt (by omega)
  unfold Process.mmap
  dsimp only
  rw [if_neg hpages, if_neg (by rw [hfile]; simp), pn2addr_eq (by omega)]
  generalize hm : mk (p.chooseVpn 0 len).1 (bytes2pages len) 0
    (vmoPaged (bytes2pages len) load) (prot2perm prot) _ _ = m
  have hspan : m.span = bytes2pages len := by
    subst hm
    exact span_paged rfl
  have hplain : m.Plain := by
    refine ⟨?_, ?_, ?_, ?_⟩
    · rw [hspan]
      subst hm
      exact hroom
    · subst hm
      unfold vmoPaged Vmo.len
      dsimp only
      omega
    · subst hm
      exact hok
    · intro hnot
      subst hm
      exact absurd trivial hnot
  obtain ⟨vmar, hmap, -, -, hw⟩ := VMAR.map_total hplain hs
  rw [hspan] at hw
  refine ⟨{ p with vmar, heapTop := (p.chooseVpn 0 len).2 }, ?_, fun i hi => ?_⟩
  · rw [hmap]
    rfl
  · subst hm
    obtain ⟨x, hx, hframe, hperm, -⟩ := hw.grants ((p.chooseVpn 0 len).1 + i)
      (by unfold IsPage; omega) ⟨Nat.le_add_right _ _, Nat.add_lt_add_left hi _⟩ _ hgrant
    refine ⟨x, hx, hperm, hframe.trans ?_⟩
    unfold frameOf vmoPaged Vmo.frame
    rw [Nat.add_sub_cancel_left, Nat.zero_add]

/-- **The region shows the first pages of the file's pager**, whatever the offset. -/
theorem shows_iff_contents {offset : BitVec 32} {byte : Nat → UInt8} (hs : Sound p.vmar.pagetable)
    (hread : prot.getLsbD 0 = true) (hfd : fd ≠ -1) (hfile : p.files fd = true) (hlen : 0 < len)
    (hroom : (p.chooseVpn 0 len).1 + bytes2pages len ≤ 2 ^ 27) :
    (∃ p' vmo, p.mmapFile fresh len prot flags fd offset pager =
        .ok (.ok (pageSize * (p.chooseVpn 0 len).1), p', vmo) ∧
      Shows p'.vmar vmo (p.chooseVpn 0 len).1 (bytes2pages len) byte) ↔
    ∀ i < bytes2pages len, ∀ j : Fin pageSize,
      pager.contents fresh.vnode i j = byte (pageSize * i + j) := by
  obtain ⟨-, -, hr, hu⟩ := prot2perm_read hread
  obtain ⟨vmo, hreq, -, hbufs⟩ := VMOPaged.reqAll_ok fresh
    (v := VMOPaged.make (bytes2pages len) (mmapPager flags (bytes2pages len) (some pager)))
    (Nat.le_of_eq (Nat.zero_add (bytes2pages len)))
  simp only [VMOPaged.shown_make, Nat.zero_add] at hbufs
  obtain ⟨p', hmmap, hleaves⟩ := mmap_leaves flags vmo.frames hs hread hfile hlen hroom
  have hcall : p.mmapFile fresh len prot flags fd offset pager =
      .ok (.ok (pageSize * (p.chooseVpn 0 len).1), p', vmo) := by
    unfold Process.mmapFile
    dsimp only
    rw [if_neg hfd, hreq, ok_bind, hmmap]
    rfl
  constructor
  · rintro ⟨p1, vmo1, hcall1, hshows⟩ i hi j
    rw [hcall] at hcall1
    cases hcall1
    obtain ⟨pbuf, hpage, hdata⟩ := hbufs i hi
    obtain ⟨-, pbuf1, -, -, -, hpage1, -, hbytes⟩ := hshows i hi
    rw [hpage] at hpage1
    cases hpage1
    rw [← hbytes j, hdata, mmapPager_contents (by omega) hi]
  · intro hbytes
    refine ⟨p', vmo, hcall, fun i hi => ?_⟩
    obtain ⟨pbuf, hpage, hdata⟩ := hbufs i hi
    obtain ⟨x, hx, hperm, hframe⟩ := hleaves i hi
    refine ⟨x, pbuf, hx, by rw [hperm, hr], by rw [hperm, hu], hpage, ?_, fun j => ?_⟩
    · rw [hframe, VMOPaged.frames_of_pages hpage]
    · rw [hdata, mmapPager_contents (by omega) hi, hbytes i hi j]

end Region

/-! ## The file in the region -/

def fileByte (file : List UInt8) (n : Nat) : UInt8 := file.getD n 0

variable {file : List UInt8}

theorem fileByte_of_le {n : Nat} (h : file.length ≤ n) : fileByte file n = 0 := by
  rw [fileByte, List.getD_eq_getElem?_getD, List.getElem?_eq_none h, Option.getD_none]

/-- Page `i` of the vnode pager has the bytes of the file from `offset` on for page `i`. A page it
does not have yet is read from the file into `frame`, which keeps the rest. -/
def PageAgrees (file : List UInt8) (offset i : Nat) (frame : PageBuf) : Option PageBuf → Prop
  | some pbuf => ∀ j : Fin pageSize, pbuf.data j = fileByte file (offset + (pageSize * i + j))
  | none =>
    (∀ j b, (filePage file i)[j]? = some b → b = fileByte file (offset + (pageSize * i + j))) ∧
    ∀ j : Fin pageSize, (filePage file i).length ≤ j →
      frame.data j = fileByte file (offset + (pageSize * i + j))

theorem filePage_length_le (file : List UInt8) (i : Nat) : (filePage file i).length ≤ pageSize :=
  nodRead_length_le file _ _

theorem pageAgrees_iff {offset i : Nat} {pages : Nat → Option PageBuf} :
    PageAgrees file offset i (frames i) (pages i) ↔ ∀ j : Fin pageSize,
      (Pager.vnode file pages).contents frames i j =
        fileByte file (offset + (pageSize * i + j)) := by
  cases hpage : pages i with
  | some pbuf => simp only [PageAgrees, Pager.contents, hpage]
  | none =>
    simp only [PageAgrees, Pager.contents, hpage, Page.write_zero]
    constructor
    · rintro ⟨hread, hrest⟩ j
      cases hget : (filePage file i)[j.1]? with
      | some b => exact hread j b hget
      | none => exact hrest j (List.getElem?_eq_none_iff.1 hget)
    · intro h
      refine ⟨fun j b hget => ?_, fun j hle => ?_⟩
      · have hlt := (List.getElem?_eq_some_iff.1 hget).1
        have hj := h ⟨j, hlt.trans_le (filePage_length_le file i)⟩
        rw [hget] at hj
        exact hj
      · have hj := h j
        rw [List.getElem?_eq_none hle] at hj
        exact hj

/-- **The region shows the file from the offset on** if and only if the first pages of the vnode
pager do. -/
theorem mmapFile_shows_iff (p : Process) (fresh : NewFrames) (file : List UInt8)
    (pages : Nat → Option PageBuf) (len : Nat) (prot flags fd offset : BitVec 32)
    (hs : Sound p.vmar.pagetable) (hread : prot.getLsbD 0 = true)
    (hfd : fd ≠ -1) (hfile : p.files fd = true) (hlen : 0 < len)
    (hroom : (p.chooseVpn 0 len).1 + bytes2pages len ≤ 2 ^ 27) :
    (∃ p' vmo, p.mmapFile fresh len prot flags fd offset (.vnode file pages) =
        .ok (.ok (pageSize * (p.chooseVpn 0 len).1), p', vmo) ∧
      Shows p'.vmar vmo (p.chooseVpn 0 len).1 (bytes2pages len)
        fun n => fileByte file (offset.toNat + n)) ↔
    ∀ i < bytes2pages len, PageAgrees file offset.toNat i (fresh.vnode i) (pages i) := by
  rw [shows_iff_contents hs hread hfd hfile hlen hroom]
  exact forall₂_congr fun i _ => pageAgrees_iff.symm

def reader : Process := ⟨VMAR.empty, 0x10000, 0x10000, fun _ => true⟩

def framesOf (b : UInt8) : NewFrames :=
  ⟨fun _ => ⟨1, by decide, fun _ => b⟩, fun _ => ⟨2, by decide, fun _ => b⟩⟩

theorem filePage_short : filePage [7] 0 = [7] := by decide +kernel

theorem reader_room : (reader.chooseVpn 0 1).1 + bytes2pages 1 ≤ 2 ^ 27 := by decide

/-- The first page of a file of one byte, in a frame of zeros. -/
theorem mmapFile_shows_first : PageAgrees [7] 0 0 ((framesOf 0).vnode 0) none ∧
    ∃ p' vmo, reader.mmapFile (framesOf 0) 1 1 2 3 0 (.vnode [7] fun _ => none) =
        .ok (.ok (pageSize * (reader.chooseVpn 0 1).1), p', vmo) ∧
      Shows p'.vmar vmo (reader.chooseVpn 0 1).1 (bytes2pages 1)
        fun n => fileByte [7] ((0 : BitVec 32).toNat + n) := by
  have hagrees : PageAgrees [7] 0 0 ((framesOf 0).vnode 0) none := by
    unfold PageAgrees
    rw [filePage_short]
    refine ⟨fun j b hget => ?_, fun j hj => ?_⟩
    · obtain ⟨hj, rfl⟩ := List.getElem?_eq_some_iff.1 hget
      obtain rfl : j = 0 := Nat.lt_one_iff.1 hj
      rfl
    · rw [Nat.mul_zero, Nat.zero_add, Nat.zero_add, fileByte_of_le hj]
      rfl
  refine ⟨hagrees, (mmapFile_shows_iff reader (framesOf 0) [7] (fun _ => none) 1 1 2 3 0
    createPTNode_sound rfl (by decide) rfl Nat.one_pos reader_room).2 fun i hi => ?_⟩
  obtain rfl : i = 0 := Nat.lt_one_iff.1 hi
  exact hagrees

/-- With offset 4096 the byte of the same file is there all the same, where it should be 0. With
offset 0 the bytes behind it are those of the frame. -/
theorem not_mmapFile_shows :
    (¬∃ p' vmo, reader.mmapFile (framesOf 0) 1 1 2 3 4096 (.vnode [7] fun _ => none) =
        .ok (.ok (pageSize * (reader.chooseVpn 0 1).1), p', vmo) ∧
      Shows p'.vmar vmo (reader.chooseVpn 0 1).1 (bytes2pages 1)
        fun n => fileByte [7] ((4096 : BitVec 32).toNat + n)) ∧
    ¬∃ p' vmo, reader.mmapFile (framesOf 1) 1 1 2 3 0 (.vnode [7] fun _ => none) =
        .ok (.ok (pageSize * (reader.chooseVpn 0 1).1), p', vmo) ∧
      Shows p'.vmar vmo (reader.chooseVpn 0 1).1 (bytes2pages 1)
        fun n => fileByte [7] ((0 : BitVec 32).toNat + n) := by
  constructor
  · rw [shows_iff_contents createPTNode_sound rfl (by decide) rfl Nat.one_pos reader_room]
    intro h
    exact absurd (h 0 (by decide) ⟨0, by decide⟩) (by decide +kernel)
  · rw [shows_iff_contents createPTNode_sound rfl (by decide) rfl Nat.one_pos reader_room]
    intro h
    exact absurd (h 0 (by decide) ⟨1, by decide⟩) (by decide +kernel)

end LuoOS.Vm
