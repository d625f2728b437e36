import Mathlib.Order.Bounds.Basic
import LuoOS.Proc.LoadersAgree

/-!
# The image that the file loader builds

`loadElf(file,vmar,base)` at any base that is a page address. Pages, frames and permissions are
right for every file (`builds_iff_bytes`). The bytes are, unless a segment has bytes of the last
page of 4 GiB, which the vnode pager does not read.
-/

namespace LuoOS.Ld

open Vm Translation

/-- The program break is the end of the entry that ends last. -/
theorem breakOf_isLUB (image : List UInt8) (k : Nat) :
    IsLUB {e | ∃ i < k, (phdr image i).pType = PT_LOAD ∧ e = (phdr image i).vend}
      (breakOf image k) := by
  induction k with
  | zero => exact ⟨fun e ⟨i, hi, _⟩ => absurd hi (Nat.not_lt_zero i), fun e _ => Nat.zero_le e⟩
  | succ k ih =>
    rw [breakOf]
    by_cases htype : (phdr image k).pType = PT_LOAD
    · rw [if_pos htype]
      refine ⟨?_, fun b hb => Nat.max_le.2 ⟨ih.2 ?_, hb ⟨k, Nat.lt_succ_self k, htype, rfl⟩⟩⟩
      · rintro e ⟨i, hi, hload, rfl⟩
        rcases Nat.lt_succ_iff_lt_or_eq.1 hi with hlt | rfl
        · exact (ih.1 ⟨i, hlt, hload, rfl⟩).trans (Nat.le_max_left _ _)
        · exact Nat.le_max_right _ _
      · rintro e ⟨i, hi, hload, rfl⟩
        exact hb ⟨i, Nat.lt_succ_of_lt hi, hload, rfl⟩
    · rw [if_neg htype]
      refine ⟨?_, fun b hb => ih.2 ?_⟩
      · rintro e ⟨i, hi, hload, rfl⟩
        rcases Nat.lt_succ_iff_lt_or_eq.1 hi with hlt | rfl
        · exact ih.1 ⟨i, hlt, hload, rfl⟩
        · exact absurd hload htype
      · rintro e ⟨i, hi, hload, rfl⟩
        exact hb ⟨i, Nat.lt_succ_of_lt hi, hload, rfl⟩

/-- The loader returns, with the entry point and the break of the image at `base`, and every address
of a `PT_LOAD` entry shows its byte and has the permissions of the entry. -/
def Builds (image : List UInt8) (vnode : Nat → PageBuf) (swap : Nat → Nat → PageBuf)
    (interp : Elf64Phdr → VMAR → Kern (Nat × VMAR)) (pages : Nat → Option PageBuf) (vmar : VMAR)
    (base : Nat) : Prop :=
  ∃ (brk : Nat) (info : ElfInfo) (s : FileLoading), loadElfFile vnode swap interp base (fileVmo image pages) vmar =
      .ok (xlen (base + (ehdr image).eEntry), xlen (base + brk), info, s) ∧
    IsLUB {e | ∃ i, Loads image i ∧ e = (phdr image i).pVaddr + (phdr image i).pMemsz} brk ∧
    ∀ i, Loads image i → ∀ n < (phdr image i).pMemsz,
      s.toLoading.Shows (base + (phdr image i).pVaddr + n) (segmentByte image i n) ∧
      ∃ x, leafAt s.vmar.pagetable ((base + (phdr image i).pVaddr + n) / pageSize) = some x ∧
        x.perm = flags2perm (phdr image i).pFlags

section

variable {image : List UInt8} {vmar : VMAR} {base : Nat} (hwf : WellFormed image)
  (hs : Sound vmar.pagetable) (halign : pageSize ∣ base)
  (hbelow : ∀ i, Loads image i → base + (phdr image i).pVaddr + (phdr image i).pMemsz < 2 ^ 38)
include hwf hs halign hbelow

/-- **Only the bytes can be wrong.** -/
theorem builds_iff_bytes {vnode : Nat → PageBuf} {swap : Nat → Nat → PageBuf}
    {interp : Elf64Phdr → VMAR → Kern (Nat × VMAR)} {pages : Nat → Option PageBuf}
    (hco : Coherent image pages) : Builds image vnode swap interp pages vmar base ↔
      ∀ i, Loads image i → ∀ n < (phdr image i).pMemsz,
        swapByte image pages vnode i n = segmentByte image i n := by
  obtain ⟨first, hfirst⟩ := halign
  have hva : ∀ i n, base + (phdr image i).pVaddr + n =
      pageSize * first + (phdr image i).pVaddr + n := fun i n => by rw [hfirst]
  obtain ⟨info, s, hload, hinv⟩ := loadElfFile_ok hfirst
    (fun i hi => (hbelow i hi).le.trans (by decide)) hwf vnode swap interp hco hs
  constructor
  · rintro ⟨brk, info', s', hload', -, hshows⟩ i hi n hn
    rw [hload] at hload'
    obtain rfl : s = s' := congrArg (·.2.2.2) (Except.ok.inj hload')
    exact (hinv.shows_iff hwf hi hn (hva i n)).1 (hshows i hi n hn).1
  · intro hbytes
    refine ⟨s.programbreak, info, s, hload, ?_, fun i hi n hn => ⟨?_, ?_⟩⟩
    · have hends : {e | ∃ i, Loads image i ∧ e = (phdr image i).pVaddr + (phdr image i).pMemsz} =
          {e | ∃ i < (ehdr image).ePhnum, (phdr image i).pType = PT_LOAD ∧
            e = (phdr image i).vend} := by
        ext e
        refine exists_congr fun i => and_assoc.trans (and_congr_right fun hi =>
          and_congr_right fun htype => ?_)
        have hrange := hbelow i ⟨hi, htype⟩
        rw [Elf64Phdr.vend, xlen_add (by omega)]
      rw [hends, hinv.brk]
      exact breakOf_isLUB image _
    · exact (hinv.shows_iff hwf hi hn (hva i n)).2 (hbytes i hi n hn)
    · obtain ⟨a, x, -, -, hx, -, hperm, -⟩ := hinv.area_of_addr hwf hi hn (hva i n)
      exact ⟨x, hx, hperm⟩

/-- **The loader builds the image**, whatever the frames held before, if and only if no segment has
bytes of the file's last page of 4 GiB. -/
theorem loadElfFile_builds_iff (interp : Elf64Phdr → VMAR → Kern (Nat × VMAR)) :
    (∀ vnode swap pages, Coherent image pages →
      Builds image vnode swap interp pages vmar base) ↔
    ∀ i, Loads image i → (phdr image i).pFilesz = 0 ∨
      (phdr image i).pOffset + (phdr image i).pFilesz ≤ 2 ^ 32 - pageSize := by
  constructor
  · intro hall i hi
    have hfits := hwf.fits i hi
    refine below_last hfits hwf.size fun b n hn => ?_
    have hbuilds := hall (filled b) (fun _ => filled b) (fun _ => none) (coherent_none image)
    rw [(builds_iff_bytes hwf hs halign hbelow (coherent_none image)).1 hbuilds i hi n
      (hn.trans_le hfits.filesz), segmentByte, if_pos hn]
  · intro hcond vnode swap pages hco
    refine (builds_iff_bytes hwf hs halign hbelow hco).2 fun i hi n hn => ?_
    exact swapByte_file (hwf.fits i hi) hwf.size hco hn (hcond i hi)

end

/-- A segment with a byte of bss, at a base that is not 0. -/
theorem loadElfFile_builds_tiny : WellFormed (tiny 121) ∧ ∀ vnode swap pages,
    Coherent (tiny 121) pages →
      Builds (tiny 121) vnode swap noInterp pages VMAR.empty 0x200000 := by
  obtain ⟨hehdr, hphdr⟩ := tiny_headers (.inr rfl)
  refine ⟨tiny_bss, (loadElfFile_builds_iff tiny_bss createPTNode_sound (by decide)
    (fun i hi => ?_) noInterp).2 fun i hi => ?_⟩
  · rw [hi.eq_zero hehdr, hphdr]
    decide
  · rw [hi.eq_zero hehdr, hphdr]
    decide

/-! ## A segment on the last page -/

def distantHeaders : List UInt8 :=
  (tiny 1).take 72 ++ Words.leBytes 8 (2 ^ 32 - 4096) ++ ((tiny 1).drop 80).take 16 ++
    Words.leBytes 8 1 ++ (tiny 1).drop 104

def distant : List UInt8 := distantHeaders ++ (List.replicate (2 ^ 32 - 4096 - 120) 0 ++ [7])

theorem length_distantHeaders : distantHeaders.length = 120 := by decide +kernel

theorem distant_ehdr : ehdr distant = ⟨0x10000, 64, 56, 1⟩ := by
  decide +kernel

theorem distant_phdr : phdr distant 0 = ⟨PT_LOAD, 4, 2 ^ 32 - 4096, 0x10000, 1, 1⟩ := by
  decide +kernel

theorem distant_length : distant.length = 2 ^ 32 - 4095 := by
  rw [distant, List.length_append, List.length_append, List.length_replicate,
    length_distantHeaders]
  rfl

/-- The byte of the segment is 7. The program sees what the frame of the page cache held. -/
theorem not_loadElfFile_builds_distant : WellFormed distant ∧ distant[2 ^ 32 - 4096]? = some 7 ∧
    ¬Builds distant (filled 1) (fun _ => filled 1) noInterp (fun _ => none) VMAR.empty 0 := by
  have hlen := distant_length
  have hfits : (phdr distant 0).Fits distant := by
    refine ⟨by decide, by decide, fun _ => by decide, by decide, by decide, ?_⟩
    rw [hlen]
    decide
  have hseven : distant[2 ^ 32 - 4096]? = some 7 := by
    have hlen := length_distantHeaders
    rw [distant, List.getElem?_append_right (by omega), List.getElem?_append_right (by
      rw [List.length_replicate]
      omega), List.length_replicate, hlen]
    rfl
  have hwf : WellFormed distant :=
    wellFormed_single (by omega) (by omega) distant_ehdr (by rw [distant_phdr]) hfits
  have hloads : Loads distant 0 := ⟨by rw [distant_ehdr]; decide, by rw [distant_phdr]⟩
  refine ⟨hwf, hseven, fun h => ?_⟩
  have hbyte := (builds_iff_bytes hwf createPTNode_sound (dvd_zero _) (fun i hi => by
    rw [hi.eq_zero distant_ehdr, distant_phdr]
    decide) (coherent_none _)).1 h 0 hloads 0 (by rw [distant_phdr]; decide)
  rw [swapByte_last hfits hwf.size (by rw [distant_phdr]; decide) (by rw [distant_phdr]; decide),
    segmentByte, distant_phdr, if_pos (by decide), fileByte, List.getD_eq_getElem?_getD,
    Nat.add_zero, hseven] at hbyte
  exact absurd hbyte (by decide)

end LuoOS.Ld
