import LuoOS.Fs.Content
import LuoOS.Vm.Process

/-!
# Pagers

`VnodePager` and `SwapPager` of `include/vm/pager.hh`, and `VMOPaged` of `include/vm/vmo.hh`, which
keeps the pages it was asked for. The allocator does not clear a frame, so a new buffer comes with
what the frame held before. A pager keeps the pages it loads, and a swap pager makes the one behind
it load some too, which does not show: `contents` is what a stack of pagers gives for each page, the
same before and after any load (`contents_load`), and `VMOPaged` is filled with it (`reqAll_ok`).
-/

namespace LuoOS

open Function

open Fs (u32)

namespace Vm

/-! ## Page buffers -/

abbrev Page := Fin pageSize → UInt8

namespace Page

def zero : Page := fun _ => 0

def clear (p : Page) (l n : Nat) : Page := fun j => if l ≤ j.1 ∧ j.1 < l + n then 0 else p j

def write (p : Page) (l : Nat) (bs : List UInt8) : Page :=
  fun j => if l ≤ j.1 then bs[j.1 - l]?.getD (p j) else p j

@[simp] theorem write_nil (p : Page) (l : Nat) : p.write l [] = p := by
  funext j
  simp [write]

theorem write_zero (p : Page) (bs : List UInt8) (j : Fin pageSize) :
    p.write 0 bs j = bs[j.1]?.getD (p j) := by
  simp [write]

end Page

/-- A frame with the bytes in it. -/
structure PageBuf where
  ppn : Nat
  ppn_lt : ppn < 2 ^ 44
  data : Page

/-- The frames that `alloc(1)` gives for the buffers of new pages, as they are then: those of the
vnode pager and those of the swap pager that is asked. Each makes a page once. -/
structure NewFrames where
  vnode : Nat → PageBuf
  swap : Nat → PageBuf

/-! ## Reading a page of a file -/

def nodRead (file : List UInt8) (off len : Nat) : List UInt8 :=
  if file.length < off ∨ u32 (off + len : Nat) < off then [] else (file.drop off).take len

variable {file : List UInt8} {off len : Nat}

/-- `entRead` moves the bytes that `nodRead` says. -/
theorem entRead_nodRead {sb : Fs.SuperBlock} {d : Fs.Disk} {e : Fs.DirEnt} {cs : List Nat}
    (g : sb.Geometry) (h : Fs.DirEnt.Holds sb d e cs file)
    (hreg : e.Regular) (hoff : off < 2 ^ 32) (hlen : len < 2 ^ 32) :
    ∃ e', Fs.DirEnt.entRead sb d e off len =
        .ok (toInt (nodRead file off len).length, nodRead file off len, d, e') ∧
      Fs.DirEnt.SameFile e e' ∧ Fs.DirEnt.Holds sb d e' cs file := by
  by_cases hwrap : u32 (off + len : Nat) < off
  · refine ⟨e, ?_, .refl e, h⟩
    unfold Fs.DirEnt.entRead nodRead
    rw [if_pos (.inr (.inl hwrap)), if_pos (.inr hwrap)]
    rfl
  · have hlt : off + len < 2 ^ 32 := by
      unfold u32 at hwrap
      omega
    have heq : nodRead file off len = (file.drop off).take len := by
      unfold nodRead
      split
      · rename_i hor
        rw [List.drop_eq_nil_of_le (Nat.le_of_lt (hor.resolve_right hwrap)), List.take_nil]
      · rfl
    rw [heq]
    exact Fs.DirEnt.entRead_eq g h hreg hlt

theorem nodRead_length_le (file : List UInt8) (off len : Nat) :
    (nodRead file off len).length ≤ len := by
  unfold nodRead
  split
  · exact Nat.zero_le _
  · exact List.length_take_le _ _

/-- The loop of `scatteredCopy` from a page of the file at `addr` to one frame, from byte `off` on.
It ends with the page or a read that gives nothing. -/
def scatteredCopy (file : List UInt8) (addr : Nat) : (fuel off : Nat) → Page → Page
  | 0, _, page => page
  | fuel + 1, off, page =>
    if off < pageSize then
      let bs := nodRead file (u32 (addr + off : Nat)) (pageSize - off)
      if bs.length = 0 then page
      else scatteredCopy file addr fuel (off + bs.length) (page.write off bs)
    else page

def readPages (file : List UInt8) (offset : Nat) (page : Page) : Page :=
  scatteredCopy file (pn2addr offset) (pageSize + 1) 0 page

def filePage (file : List UInt8) (offset : Nat) : List UInt8 :=
  nodRead file (u32 (pn2addr offset)) pageSize

/-- A read that was cut short was at the end of the file, and the next one gives nothing. -/
theorem nodRead_next {addr : Nat} (hlen : len < 2 ^ 32)
    (hne : (nodRead file (u32 (addr + off : Nat)) len).length ≠ 0) :
    nodRead file (u32 (addr + (off + (nodRead file (u32 (addr + off : Nat)) len).length) : Nat))
      (len - (nodRead file (u32 (addr + off : Nat)) len).length) = [] := by
  have hlt := Fs.u32_lt (addr + off : Nat)
  generalize ho : u32 (addr + off : Nat) = o at hne hlt ⊢
  unfold nodRead at hne ⊢
  split at hne
  · exact absurd rfl hne
  rename_i hin
  rw [if_neg hin]
  have hwrap : o + len < 2 ^ 32 := by
    have : ¬u32 (o + len : Nat) < o := fun h => hin (.inr h)
    unfold u32 at this
    omega
  rw [List.length_take, List.length_drop]
  split
  · rfl
  -- the new position is the end of the page or of the file
  have hnext : u32 (addr + (off + min len (file.length - o)) : Nat) =
      o + min len (file.length - o) := by
    unfold u32 at ho ⊢
    omega
  rw [hnext, List.take_eq_nil_iff]
  by_cases hfull : len ≤ file.length - o
  · omega
  · right
    exact List.drop_eq_nil_of_le (by omega)

theorem scatteredCopy_eq (file : List UInt8) (addr : Nat) {fuel : Nat} {page : Page}
    (hoff : off ≤ pageSize) (hfuel : pageSize < fuel + off) :
    scatteredCopy file addr fuel off page =
      page.write off (nodRead file (u32 (addr + off : Nat)) (pageSize - off)) := by
  induction fuel generalizing off page with
  | zero => omega
  | succ fuel ih =>
    have hle := nodRead_length_le file (u32 (addr + off : Nat)) (pageSize - off)
    unfold scatteredCopy
    split
    · dsimp only
      split
      · rename_i hnil
        rw [List.length_eq_zero_iff.1 hnil, Page.write_nil]
      · rename_i hne
        rw [ih (by omega) (by omega), ← Nat.sub_sub, nodRead_next (by unfold pageSize; omega) hne,
          Page.write_nil]
    · have hnil : (nodRead file (u32 (addr + off : Nat)) (pageSize - off)).length = 0 := by omega
      rw [List.length_eq_zero_iff.1 hnil, Page.write_nil]

/-- **The bytes of the file go to the start of the frame**, and the rest of it stays as it was. -/
theorem readPages_eq (file : List UInt8) (offset : Nat) (page : Page) :
    readPages file offset page = page.write 0 (filePage file offset) :=
  scatteredCopy_eq file (pn2addr offset) (Nat.zero_le _) (by omega)

/-! ## The pagers -/

/-- A pager, with its pages; `anon` has no pager behind it. -/
inductive Pager where
  | vnode (file : List UInt8) (pages : Nat → Option PageBuf)
  | swap (backing : Pager) (backingregion : Segment) (pages : Nat → Option PageBuf)
  | anon (pages : Nat → Option PageBuf)

namespace Pager

def pages : Pager → Nat → Option PageBuf
  | vnode _ pages | swap _ _ pages | anon pages => pages

def backing : Pager → Pager
  | swap backing _ _ => backing
  | p => p

def keep : Pager → Nat → PageBuf → Pager
  | vnode file pages, offset, pbuf => vnode file (update pages offset (some pbuf))
  | swap backing region pages, offset, pbuf =>
    swap backing region (update pages offset (some pbuf))
  | anon pages, offset, pbuf => anon (update pages offset (some pbuf))

def clearOutside (region : Segment) (offset backingoff : Nat) (data : Page) : Page :=
  let data :=
    if offset = 0 then data.clear 0 (xlen (region.l - pn2addr backingoff)) else data
  if backingoff = addr2pn region.r then
    let part := xlen (region.r - pn2addr backingoff)
    data.clear part (pageSize - part)
  else data

variable (frames : Nat → PageBuf)

def vnodeLoad (file : List UInt8) (pages : Nat → Option PageBuf) (offset : Nat) :
    PageBuf × Pager :=
  match pages offset with
  | some pbuf => (pbuf, vnode file pages)
  | none =>
    let pbuf := { frames offset with data := readPages file offset (frames offset).data }
    (pbuf, (vnode file pages).keep offset pbuf)

/-- `Pager::loadTo`. It sets every byte of the buffer it is given. -/
def loadTo : Pager → Nat → Page × Pager
  | vnode file pages, offset =>
    let (pbuf, pager) := vnodeLoad frames file pages offset
    (pbuf.data, pager)
  | swap backing region pages, offset =>
    match pages offset with
    | some pbuf => (pbuf.data, swap backing region pages)
    | none =>
      let backingoff := xlen (addr2pn region.l + offset)
      if backingoff ≤ addr2pn region.r then
        let (data, backing) := loadTo backing backingoff
        (clearOutside region offset backingoff data, swap backing region pages)
      else (Page.zero, swap backing region pages)
  | anon pages, offset =>
    match pages offset with
    | some pbuf => (pbuf.data, anon pages)
    | none => (Page.zero, anon pages)

end Pager

namespace Pager

variable (fresh : NewFrames)

def swapLoad (p : Pager) (offset : Nat) : PageBuf × Pager :=
  match p.pages offset with
  | some pbuf => (pbuf, p)
  | none =>
    let (data, p) := p.loadTo fresh.vnode offset
    let pbuf := { fresh.swap offset with data }
    (pbuf, p.keep offset pbuf)

def load : Pager → Nat → PageBuf × Pager
  | vnode file pages, offset => vnodeLoad fresh.vnode file pages offset
  | p, offset => p.swapLoad fresh offset

end Pager

/-- A VMO, with the pages it was asked for. -/
structure VMOPaged where
  len : Nat
  pages : Nat → Option PageBuf
  pager : Pager

namespace VMOPaged

def make (len : Nat) (pager : Pager) : VMOPaged := ⟨len, fun _ => none, pager⟩

variable (fresh : NewFrames)

def req (v : VMOPaged) (offset : Nat) : Kern (PageBuf × VMOPaged) := do
  assert_ (offset < v.len) "offset<pages.size()"
  match v.pages offset with
  | some pbuf => pure (pbuf, v)
  | none =>
    let (pbuf, pager) := v.pager.load fresh offset
    pure (pbuf, { v with pages := update v.pages offset (some pbuf), pager })

def reqAll (start : Nat) : Nat → VMOPaged → Kern VMOPaged
  | 0, v => .ok v
  | n + 1, v => do
    let v ← reqAll start n v
    let (_, v) ← v.req fresh (start + n)
    pure v

def frames (v : VMOPaged) : Frames :=
  ⟨fun i => ((v.pages i).map PageBuf.ppn).getD 0, fun i => by
    dsimp only
    cases v.pages i with
    | none => exact Nat.two_pow_pos 44
    | some pbuf => exact pbuf.ppn_lt⟩

def data (v : VMOPaged) (i : Nat) : Page := ((v.pages i).map PageBuf.data).getD Page.zero

/-- A read of `n` bytes at `off` through a window on the VMO. A page is asked for when it is
touched. -/
def read (off : Nat) : Nat → VMOPaged → Kern (List UInt8 × VMOPaged)
  | 0, v => .ok ([], v)
  | n + 1, v => do
    let (bs, v) ← read off n v
    let (pbuf, v) ← v.req fresh ((off + n) / pageSize)
    pure (bs ++ [pbuf.data ⟨(off + n) % pageSize, Nat.mod_lt _ (by decide)⟩], v)

theorem frames_of_pages {v : VMOPaged} {i : Nat} {pbuf : PageBuf} (h : v.pages i = some pbuf) :
    v.frames.1 i = pbuf.ppn := by
  simp only [frames, h, Option.map_some, Option.getD_some]

end VMOPaged

/-! ## What a stack of pagers gives -/

variable {frames : Nat → PageBuf}

namespace Pager

section Contents

variable (frames : Nat → PageBuf)

def contents : Pager → Nat → Page
  | vnode file pages, i =>
    match pages i with
    | some pbuf => pbuf.data
    | none => (frames i).data.write 0 (filePage file i)
  | swap backing region pages, i =>
    match pages i with
    | some pbuf => pbuf.data
    | none =>
      let backingoff := xlen (addr2pn region.l + i)
      if backingoff ≤ addr2pn region.r then
        clearOutside region i backingoff (contents backing backingoff)
      else Page.zero
  | anon pages, i =>
    match pages i with
    | some pbuf => pbuf.data
    | none => Page.zero

variable {frames} {p : Pager} {i k : Nat} {pbuf : PageBuf}

theorem contents_of_pages (h : p.pages i = some pbuf) : p.contents frames i = pbuf.data := by
  cases p <;> simp only [pages] at h <;> simp only [contents, h]

theorem contents_keep :
    (p.keep i pbuf).contents frames k = if k = i then pbuf.data else p.contents frames k := by
  split
  · rename_i heq
    subst heq
    refine contents_of_pages ?_
    cases p <;> simp [keep, pages]
  · rename_i hne
    cases p <;> simp only [keep, contents, update_of_ne hne]

theorem keep_contents (h : pbuf.data = p.contents frames i) :
    (p.keep i pbuf).contents frames = p.contents frames := by
  funext k
  rw [contents_keep]
  split
  · rename_i heq
    rw [h, heq]
  · rfl

theorem vnodeLoad_spec (file : List UInt8) (pages : Nat → Option PageBuf) (i : Nat) :
    (vnodeLoad frames file pages i).1.data = (vnode file pages).contents frames i ∧
      (vnodeLoad frames file pages i).2.contents frames = (vnode file pages).contents frames := by
  cases hpage : pages i with
  | some pbuf => simp only [vnodeLoad, contents, hpage, and_self]
  | none =>
    have hdata : readPages file i (frames i).data = (vnode file pages).contents frames i := by
      simp only [contents, hpage, readPages_eq]
    simp only [vnodeLoad, hpage]
    exact ⟨hdata, keep_contents hdata⟩

/-- `loadTo` gives the contents of the page and changes those of none. -/
theorem loadTo_spec (frames : Nat → PageBuf) (p : Pager) (i : Nat) :
    (p.loadTo frames i).1 = p.contents frames i ∧
      (p.loadTo frames i).2.contents frames = p.contents frames := by
  induction p generalizing i with
  | vnode file pages => exact vnodeLoad_spec file pages i
  | swap backing region pages ih =>
    cases hpage : pages i with
    | some pbuf => simp only [loadTo, contents, hpage, and_self]
    | none =>
      obtain ⟨hdata, hsame⟩ := ih (xlen (addr2pn region.l + i))
      simp only [loadTo, contents, hpage]
      split
      · refine ⟨by rw [hdata], ?_⟩
        simp only [contents, hsame]
      · exact ⟨rfl, rfl⟩
  | anon pages => cases hpage : pages i <;> simp only [loadTo, contents, hpage, and_self]

def byte (frames : Nat → PageBuf) (p : Pager) (n : Nat) : UInt8 :=
  p.contents frames (n / pageSize) ⟨n % pageSize, mod_pageSize_lt n⟩

variable {region : Segment} {pages : Nat → Option PageBuf}

theorem swap_congr {p' : Pager} (h : p'.contents frames = p.contents frames) :
    (swap p' region pages).contents frames = (swap p region pages).contents frames := by
  simp only [contents, h]

theorem clearOutside_apply (region : Segment) (offset backingoff : Nat) (data : Page)
    (j : Fin pageSize) : clearOutside region offset backingoff data j =
      if (offset = 0 ∧ j.1 < xlen (region.l - pn2addr backingoff)) ∨
        (backingoff = addr2pn region.r ∧ xlen (region.r - pn2addr backingoff) ≤ j.1) then 0
      else data j := by
  unfold clearOutside Page.clear
  generalize xlen (region.r - pn2addr backingoff) = part
  by_cases hend : backingoff = addr2pn region.r
  · rw [if_pos hend]
    by_cases hpart : part ≤ j.1
    · rw [if_pos ⟨hpart, by omega⟩, if_pos (.inr ⟨hend, hpart⟩)]
    by_cases hfirst : offset = 0
    · rw [if_neg (by omega), if_pos hfirst]
      simp only [hfirst, hpart, true_and, and_false, or_false, Nat.zero_le, Nat.zero_add]
    · rw [if_neg (by omega), if_neg hfirst, if_neg (by tauto)]
  · by_cases hfirst : offset = 0
    · simp only [hend, hfirst, if_true, if_false, false_and, or_false, true_and, Nat.zero_le,
        Nat.zero_add]
    · rw [if_neg hend, if_neg hfirst, if_neg (by tauto)]

/-- **A page that a swap pager has not loaded shows the region of the pager behind it**, and zeros
around it. Bytes are counted from the start of the page the region starts on. -/
theorem swap_contents (frames : Nat → PageBuf) (p : Pager)
    (hle : region.l ≤ region.r) (hlt : region.r < 2 ^ 64) {k : Nat}
    (hk : k < 2 ^ 52) (hnew : pages k = none) (j : Fin pageSize) :
    (swap p region pages).contents frames k j =
      if region.l ≤ pageSize * (region.l / pageSize + k) + j.1 ∧
          pageSize * (region.l / pageSize + k) + j.1 < region.r then
        p.contents frames (region.l / pageSize + k) j
      else 0 := by
  have hr : addr2pn region.r = region.r / pageSize := addr2pn_eq region.r
  have hoff : xlen ((addr2pn region.l : Nat) + (k : Nat)) = region.l / pageSize + k := by
    rw [addr2pn_eq]
    unfold xlen pageSize
    omega
  simp only [contents, hnew, hoff, hr]
  generalize hb : region.l / pageSize + k = b
  split
  · rename_i hin
    have haddr : pn2addr b = pageSize * b := by
      refine pn2addr_eq ?_
      unfold pageSize at hin
      omega
    -- the first page is not cleared at `region.l` or behind, and the last one from `region.r` on
    have hcond : (k = 0 ∧ j.1 < xlen (region.l - (pageSize * b : Nat)) ∨
        b = region.r / pageSize ∧ xlen (region.r - (pageSize * b : Nat)) ≤ j.1) ↔
          ¬(region.l ≤ pageSize * b + j.1 ∧ pageSize * b + j.1 < region.r) := by
      unfold xlen pageSize at *
      omega
    rw [clearOutside_apply, haddr, hr, if_congr hcond rfl rfl, ite_not]
  · rw [if_neg (by unfold pageSize at *; omega)]
    rfl

theorem swap_byte (frames : Nat → PageBuf) (p : Pager)
    (hle : region.l ≤ region.r) (hlt : region.r < 2 ^ 63) {n : Nat} (hn : n < 2 ^ 63) :
    (swap p region fun _ => none).byte frames (region.l % pageSize + n) =
      if n < region.r - region.l then p.byte frames (region.l + n) else 0 := by
  have hpage : region.l / pageSize + (region.l % pageSize + n) / pageSize =
      (region.l + n) / pageSize := by
    unfold pageSize
    omega
  have hplace : (region.l % pageSize + n) % pageSize = (region.l + n) % pageSize := by
    unfold pageSize
    omega
  unfold byte
  rw [swap_contents frames p hle (by omega) (by unfold pageSize; omega) rfl]
  simp only [hpage, hplace, Nat.div_add_mod]
  exact if_congr (by omega) rfl rfl

end Contents

variable (fresh : NewFrames)

theorem swapLoad_spec (p : Pager) (i : Nat) :
    (p.swapLoad fresh i).1.data = p.contents fresh.vnode i ∧
      (p.swapLoad fresh i).2.contents fresh.vnode = p.contents fresh.vnode := by
  obtain ⟨hdata, hsame⟩ := loadTo_spec fresh.vnode p i
  cases hpage : p.pages i with
  | some pbuf =>
    simp only [swapLoad, hpage, contents_of_pages hpage, and_self]
  | none =>
    simp only [swapLoad, hpage]
    refine ⟨hdata, ?_⟩
    rw [keep_contents (hdata.trans (congrFun hsame i).symm), hsame]

/-- **A load gives the contents of the page and changes those of none.** -/
theorem load_spec (p : Pager) (i : Nat) : (p.load fresh i).1.data = p.contents fresh.vnode i ∧
      (p.load fresh i).2.contents fresh.vnode = p.contents fresh.vnode := by
  cases p with
  | vnode file pages => exact vnodeLoad_spec file pages i
  | swap backing region pages => exact swapLoad_spec fresh _ i
  | anon pages => exact swapLoad_spec fresh _ i

/-- **A swap pager shows exactly its region** of the bytes `B` that the pager behind it delivers, on
every page it has not loaded before; without a pager behind it, zeros. -/
theorem swapPager_shows {p : Pager} {B : Nat → UInt8}
    (hB : ∀ (o : Nat) (j : Fin pageSize), (p.loadTo fresh.vnode o).1 j = B (pageSize * o + j.1))
    {region : Segment} (hle : region.l ≤ region.r) (hlt : region.r < 2 ^ 64)
    {pages : Nat → Option PageBuf} {k : Nat} (hk : k < 2 ^ 52) (hnew : pages k = none)
    (j : Fin pageSize) : let a := pageSize * (region.l / pageSize + k) + j.1
    let shown := if region.l ≤ a ∧ a < region.r then B a else 0
    ((swap p region pages).load fresh k).1.data j = shown ∧
      ((swap p region pages).loadTo fresh.vnode k).1 j = shown ∧
      ((anon pages).load fresh k).1.data j = 0 ∧ ((anon pages).loadTo fresh.vnode k).1 j = 0 := by
  have hbacking : p.contents fresh.vnode (region.l / pageSize + k) j =
      B (pageSize * (region.l / pageSize + k) + j.1) := by
    rw [← hB, (loadTo_spec fresh.vnode p _).1]
  have hswap := swap_contents fresh.vnode p hle hlt hk hnew j
  have hanon : (anon pages).contents fresh.vnode k j = 0 := by
    simp only [contents, hnew]
    rfl
  rw [hbacking] at hswap
  refine ⟨?_, ?_, ?_, ?_⟩
  · rw [(load_spec fresh _ k).1, hswap]
  · rw [(loadTo_spec fresh.vnode _ k).1, hswap]
  · rw [(load_spec fresh _ k).1, hanon]
  · rw [(loadTo_spec fresh.vnode _ k).1, hanon]

theorem zero_lt_frames : 0 < 2 ^ 44 := by decide

def sevens : PageBuf := ⟨0, zero_lt_frames, fun _ => 7⟩

/-- A region of three bytes inside of the first page, over pages of sevens and to a frame of them:
the bytes before it, at its start and behind it. -/
theorem swapPager_shows_inside :
    ([⟨4, by decide⟩, ⟨5, by decide⟩, ⟨8, by decide⟩] : List (Fin pageSize)).map
      ((swap (anon fun _ => some sevens) ⟨5, 8⟩ fun _ => none).load
        ⟨fun _ => sevens, fun _ => sevens⟩ 0).1.data = [0, 7, 0] := by
  have hle : (⟨5, 8⟩ : Segment).l ≤ (⟨5, 8⟩ : Segment).r := by decide
  let pages : Nat → Option PageBuf := fun _ => none
  have hnew : pages 0 = none := rfl
  have hshows := swapPager_shows ⟨fun _ => sevens, fun _ => sevens⟩
    (p := anon fun _ => some sevens) (B := fun _ => 7) (fun _ _ => rfl) hle (by decide)
    (by decide) hnew
  rw [List.map_cons, List.map_cons, List.map_cons, (hshows _).1, (hshows _).1, (hshows _).1]
  rfl

/-- The pager `p'` gives the pages that `p` gives. -/
structure Same (frames : Nat → PageBuf) (p p' : Pager) : Prop where
  contents : p'.contents frames = p.contents frames
  backing : ∀ b region pages, p = swap b region pages → ∃ b' pages', p' = swap b' region pages' ∧
    b'.contents frames = b.contents frames

theorem Same.refl (frames : Nat → PageBuf) (p : Pager) : Same frames p p :=
  ⟨rfl, fun b _ pages h => ⟨b, pages, h, rfl⟩⟩

theorem Same.trans {p p1 p' : Pager} (h : Same frames p p1)
    (h' : Same frames p1 p') : Same frames p p' := by
  refine ⟨h'.contents.trans h.contents, fun b region pages hp => ?_⟩
  obtain ⟨b1, pages1, hp1, hb1⟩ := h.backing b region pages hp
  obtain ⟨b', pages', hp', hb'⟩ := h'.backing b1 region pages1 hp1
  exact ⟨b', pages', hp', hb'.trans hb1⟩

theorem same_load (p : Pager) (i : Nat) : Same fresh.vnode p (p.load fresh i).2 := by
  refine ⟨(load_spec fresh p i).2, fun b region pages hp => ?_⟩
  subst hp
  cases hpage : pages i with
  | some pbuf => exact ⟨b, pages, by simp only [load, swapLoad, Pager.pages, hpage], rfl⟩
  | none =>
    simp only [load, swapLoad, Pager.pages, loadTo, hpage]
    split
    · exact ⟨_, _, rfl, (loadTo_spec _ b _).2⟩
    · exact ⟨b, _, rfl, rfl⟩

end Pager

/-! ## What a VMO is filled with -/

namespace VMOPaged

variable (fresh : NewFrames) {v v' : VMOPaged} {i n : Nat}

def shown (frames : Nat → PageBuf) (v : VMOPaged) (i : Nat) : Page :=
  match v.pages i with
  | some pbuf => pbuf.data
  | none => v.pager.contents frames i

theorem shown_make (frames : Nat → PageBuf) (len : Nat) (pager : Pager) :
    (make len pager).shown frames = pager.contents frames := rfl

/-- The VMO `v'` shows what `v` shows, and keeps its pages. -/
structure Extends (frames : Nat → PageBuf) (v v' : VMOPaged) : Prop where
  len : v'.len = v.len
  shown : v'.shown frames = v.shown frames
  pager : v.pager.Same frames v'.pager
  keeps : ∀ i pbuf, v.pages i = some pbuf → v'.pages i = some pbuf

theorem Extends.refl (frames : Nat → PageBuf) (v : VMOPaged) : Extends frames v v :=
  ⟨rfl, rfl, .refl frames v.pager, fun _ _ h => h⟩

theorem Extends.trans {v1 : VMOPaged} (h : Extends frames v v1)
    (h' : Extends frames v1 v') : Extends frames v v' :=
  ⟨h'.len.trans h.len, h'.shown.trans h.shown, h.pager.trans h'.pager,
    fun i pbuf hp => h'.keeps i pbuf (h.keeps i pbuf hp)⟩

theorem req_ok (h : i < v.len) :
    ∃ pbuf v', v.req fresh i = .ok (pbuf, v') ∧ Extends fresh.vnode v v' ∧
      v'.pages i = some pbuf ∧ pbuf.data = v.shown fresh.vnode i := by
  unfold req
  rw [decide_eq_true h, assert_true, ok_bind]
  cases hpage : v.pages i with
  | some pbuf =>
    refine ⟨pbuf, v, rfl, .refl _ v, hpage, ?_⟩
    simp only [VMOPaged.shown, hpage]
  | none =>
    obtain ⟨hdata, hsame⟩ := Pager.load_spec fresh v.pager i
    refine ⟨(v.pager.load fresh i).1,
      ⟨v.len, update v.pages i (some (v.pager.load fresh i).1), (v.pager.load fresh i).2⟩,
      rfl, ⟨rfl, ?_, Pager.same_load fresh v.pager i, ?_⟩, update_self _ _ _, ?_⟩
    · funext k
      simp only [VMOPaged.shown]
      by_cases hk : k = i
      · subst hk
        simp only [update_self, hpage, hdata]
      · simp only [update_of_ne hk, hsame]
    · intro k pbuf hk
      have hne : k ≠ i := by
        rintro rfl
        rw [hpage] at hk
        cases hk
      exact (update_of_ne hne _ _).trans hk
    · simp only [VMOPaged.shown, hpage, hdata]

/-- **The pages of the VMO hold what its pager has for them.** -/
theorem reqAll_ok {start : Nat} (h : start + n ≤ v.len) :
    ∃ v', v.reqAll fresh start n = .ok v' ∧ Extends fresh.vnode v v' ∧
      ∀ i < n, ∃ pbuf, v'.pages (start + i) = some pbuf ∧
        pbuf.data = v.shown fresh.vnode (start + i) := by
  induction n with
  | zero => exact ⟨v, rfl, .refl _ v, fun i hi => absurd hi (Nat.not_lt_zero i)⟩
  | succ n ih =>
    obtain ⟨v1, hall, hext, hpages⟩ := ih (Nat.le_of_succ_le h)
    obtain ⟨pbuf, v2, hreq, hext', hpage, hdata⟩ := req_ok fresh (v := v1) (i := start + n)
      (hext.len ▸ h)
    refine ⟨v2, ?_, hext.trans hext', fun i hi => ?_⟩
    · unfold reqAll
      rw [hall, ok_bind, hreq]
      rfl
    · rcases Nat.lt_succ_iff_lt_or_eq.1 hi with hlt | rfl
      · obtain ⟨pbuf', hpage', hdata'⟩ := hpages i hlt
        exact ⟨pbuf', hext'.keeps _ pbuf' hpage', hdata'⟩
      · exact ⟨pbuf, hpage, by rw [hdata, hext.shown]⟩

def byte (frames : Nat → PageBuf) (v : VMOPaged) (n : Nat) : UInt8 :=
  v.shown frames (n / pageSize) ⟨n % pageSize, mod_pageSize_lt n⟩

/-- **A read gives the bytes that the VMO shows.** -/
theorem read_ok (h : off + n ≤ pageSize * v.len) :
    ∃ v', v.read fresh off n = .ok ((List.range n).map fun k => v.byte fresh.vnode (off + k), v') ∧
      Extends fresh.vnode v v' := by
  induction n with
  | zero => exact ⟨v, rfl, .refl _ v⟩
  | succ n ih =>
    obtain ⟨v1, hread, hext⟩ := ih (Nat.le_of_succ_le h)
    have hpage : (off + n) / pageSize < v1.len := by
      rw [hext.len]
      exact Nat.div_lt_of_lt_mul h
    obtain ⟨pbuf, v2, hreq, hext', -, hdata⟩ := req_ok fresh hpage
    refine ⟨v2, ?_, hext.trans hext'⟩
    unfold read
    rw [hread, ok_bind]
    dsimp only
    rw [hreq, ok_bind, hdata, hext.shown, List.range_succ, List.map_append]
    rfl

end VMOPaged

end Vm

end LuoOS
