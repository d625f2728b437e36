import LuoOS.Proc.Loader

/-!
# What the two loaders load

Both loops map one area after the other, and a mapping takes nothing from an area whose pages it
does not touch (`placed_of_map`). So the loaders can only differ in the bytes of an area
(`agree_iff_bytes`): the first copies as far as the file goes and does not clear what is behind,
where the swap pager of the second gives zeros.
-/

namespace LuoOS.Ld

open Vm Translation Function
open Fs (u32)

/-! ## Areas in the page table -/

/-- The area is in the page table, with `perm`. -/
structure Placed (vmar : VMAR) (a : Area) (perm : Perm) : Prop where
  fit : a.vpn + a.pages ≤ 2 ^ 27
  leaf : ∀ k < a.pages, ∃ x, leafAt vmar.pagetable (a.vpn + k) = some x ∧
    x.frame (a.vpn + k) = a.frame k ∧ x.perm = perm ∧ x.Inside (a.vpn + k) a.vpn a.pages

def Apart (a b : Area) : Prop := ∀ v, InRange a.vpn a.pages v → ¬InRange b.vpn b.pages v

variable {n i k memsz : Nat}

theorem inside_avoids {x : Leaf Perm} {v a a' n' : Nat} (h : x.Inside v a n) (hpos : 0 < n')
    (hapart : ∀ w, InRange a n w → ¬InRange a' n' w) : x.Avoids v a' n' := by
  rcases Nat.eq_zero_or_pos x.size with hzero | hsize
  · left
    unfold Leaf.base
    rw [hzero, Nat.mod_zero]
    omega
  · refine Leaf.avoids_of_covers hsize hpos fun w hw => hapart w ⟨?_, ?_⟩
    · exact h.1.trans hw.1
    · exact hw.2.trans_le h.2

variable {vmar : VMAR} {a : Area}

/-- **Mapping an area places it and displaces no other.** -/
theorem placed_of_map {m : PageMapping} (hs : Sound vmar.pagetable)
    (hm : m.Plain) (hgrant : m.perm.grant = some m.perm) (hvpn : a.vpn = m.vpn)
    (hpages : a.pages = m.span) (hframe : ∀ k < a.pages, a.frame k = m.frameOf (m.vpn + k)) :
    ∃ vmar', vmar.map m = .ok vmar' ∧ Sound vmar'.pagetable ∧ Placed vmar' a m.perm ∧
      ∀ b p, Placed vmar b p → Apart b a → Placed vmar' b p := by
  have hfit := hm.fit
  obtain ⟨vmar', hmap, -, hs', hw⟩ := VMAR.map_total hm hs
  refine ⟨vmar', hmap, hs', ⟨by rw [hvpn, hpages]; exact hfit, fun k hk => ?_⟩,
    fun b p hb hapart => ⟨hb.fit, fun k hk => ?_⟩⟩
  · rw [hpages] at hk
    obtain ⟨x, hx, hxframe, hperm, hinside⟩ := hw.grants (m.vpn + k) (by unfold IsPage; omega)
      ⟨Nat.le_add_right _ _, Nat.add_lt_add_left hk _⟩ m.perm hgrant
    rw [hvpn, hpages, hframe k (hpages ▸ hk)]
    exact ⟨x, hx, hxframe, hperm, hinside⟩
  · have hbfit := hb.fit
    obtain ⟨x, hx, hxframe, hperm, hinside⟩ := hb.leaf k hk
    refine ⟨x, ?_, hxframe, hperm, hinside⟩
    rcases Nat.eq_zero_or_pos m.span with hzero | hpos
    · -- nothing is written, also where the empty range is inside a leaf
      have hlen : m.len = 0 := Nat.le_zero.1 (hzero ▸ hm.len_le_span)
      rw [VMAR.map_of_len_zero hlen hmap, hx]
    have hout : ¬InRange m.vpn m.span (b.vpn + k) := by
      rw [← hvpn, ← hpages]
      exact hapart _ ⟨Nat.le_add_right _ _, Nat.add_lt_add_left hk _⟩
    refine hw.keeps _ ?_ hout x hx (inside_avoids hinside hpos ?_)
    · unfold IsPage
      omega
    · rw [← hvpn, ← hpages]
      exact hapart

/-! ## Well-formed images -/

def Loads (image : List UInt8) (i : Nat) : Prop :=
  i < (ehdr image).ePhnum ∧ (phdr image i).pType = PT_LOAD
  deriving Decidable

/-- A `PT_LOAD` entry that user code can reach: it has some permission, is in the address space of
Sv39, and its file part is in the image, at the same place of a page as in memory. -/
structure Elf64Phdr.Fits (entry : Elf64Phdr) (image : List UInt8) : Prop where
  flags : entry.pFlags % 8 ≠ 0
  range : entry.pVaddr + entry.pMemsz ≤ 2 ^ 39
  start : entry.pMemsz = 0 → entry.pVaddr ≠ 0
  congr : entry.pVaddr % pageSize = entry.pOffset % pageSize
  filesz : entry.pFilesz ≤ entry.pMemsz
  inside : entry.pOffset + entry.pFilesz ≤ image.length

/-- An image of a size that files have, with its table in pages that files are read in, whose
entries fit and are on different pages. -/
structure WellFormed (image : List UInt8) : Prop where
  size : image.length < 2 ^ 32
  header : Elf64Ehdr.size ≤ image.length
  table : ∀ i < (ehdr image).ePhnum, (ehdr image).ePhoff + Elf64Phdr.size * i + Elf64Phdr.size ≤
    min image.length (2 ^ 32 - pageSize)
  noInterp : ∀ i < (ehdr image).ePhnum, (phdr image i).pType ≠ PT_INTERP
  fits : ∀ i, Loads image i → (phdr image i).Fits image
  disjoint : ∀ i j, Loads image i → Loads image j → i ≠ j → ∀ v,
    InRange (addr2pn (phdr image i).pVaddr) (phdr image i).pages v →
      ¬InRange (addr2pn (phdr image j).pVaddr) (phdr image j).pages v

namespace Elf64Phdr.Fits

variable {entry : Elf64Phdr} {image : List UInt8}

section

variable (h : entry.Fits image)
include h

/-- The pages of an entry go from that of its first byte to that of its last. -/
theorem pages_eq :
    addr2pn entry.pVaddr + entry.pages = (entry.pVaddr + entry.pMemsz - 1) / pageSize + 1 := by
  have hrange := h.range
  have hstart := h.start
  unfold pages xlen
  rw [addr2pn_eq, addr2pn_eq]
  unfold pageSize
  omega

theorem pages_fit_at (first : Nat)
    (hrange : pageSize * first + entry.pVaddr + entry.pMemsz ≤ 2 ^ 39) :
    first + addr2pn entry.pVaddr + entry.pages ≤ 2 ^ 27 := by
  have hstart := h.start
  rw [Nat.add_assoc, h.pages_eq]
  unfold pageSize at hrange ⊢
  omega

theorem pages_fit : addr2pn entry.pVaddr + entry.pages ≤ 2 ^ 27 := by
  have hrange := h.range
  have hfit := h.pages_fit_at 0 (by omega)
  rwa [Nat.zero_add] at hfit

theorem page_lt (hn : n < entry.pMemsz) :
    (entry.pVaddr % pageSize + n) / pageSize < entry.pages := by
  have hpages := h.pages_eq
  rw [addr2pn_eq] at hpages
  unfold pageSize at hpages ⊢
  omega

theorem perm : (flags2perm entry.pFlags).Ok ∧
    (flags2perm entry.pFlags).grant = some (flags2perm entry.pFlags) := by
  have hflags := h.flags
  have hleaf : (flags2perm entry.pFlags).isLeaf = true := by
    simp only [Perm.isLeaf, flags2perm, Nat.testBit_eq_decide_div_mod_eq, Bool.or_eq_true,
      decide_eq_true_eq]
    omega
  refine ⟨hleaf.symm, if_pos ?_⟩
  rw [hleaf]
  rfl

end

end Elf64Phdr.Fits

/-! ## One step of either loop -/

def breakOf (image : List UInt8) : Nat → Nat
  | 0 => 0
  | k + 1 =>
    if (phdr image k).pType = PT_LOAD then max (breakOf image k) (phdr image k).vend
    else breakOf image k

/-- The first `k` entries are loaded, their addresses counted from page `first`, and byte `n` of
entry `i` is `byte i n`. -/
structure Loading.Inv (image : List UInt8) (first : Nat) (byte : Nat → Nat → UInt8) (k : Nat)
    (s : Loading) : Prop where
  sound : Sound s.vmar.pagetable
  brk : s.programbreak = breakOf image k
  made : ∀ i a, s.areas i = some a → i < k ∧ (phdr image i).pType = PT_LOAD
  area : ∀ i < k, (phdr image i).pType = PT_LOAD → ∃ a, s.areas i = some a ∧
    a.vpn = first + addr2pn (phdr image i).pVaddr ∧ a.pages = (phdr image i).pages ∧
    Placed s.vmar a (flags2perm (phdr image i).pFlags) ∧
    ∀ n < (phdr image i).pMemsz, a.byte ((phdr image i).pVaddr % pageSize + n) = byte i n

namespace Loading.Inv

variable {image : List UInt8} {first : Nat} {byte : Nat → Nat → UInt8} {k : Nat} {s : Loading}

theorem start (hs : Sound vmar.pagetable) : Inv image first byte 0 { vmar } where
  sound := hs
  brk := rfl
  made _ _ h := nomatch h
  area i hi := absurd hi (Nat.not_lt_zero i)

theorem skip (h : Inv image first byte k s) (hk : (phdr image k).pType ≠ PT_LOAD) :
    Inv image first byte (k + 1) s where
  sound := h.sound
  brk := by rw [h.brk, breakOf, if_neg hk]
  made i a ha := ⟨Nat.lt_succ_of_lt (h.made i a ha).1, (h.made i a ha).2⟩
  area i hi htype := by
    have hne : i ≠ k := by
      rintro rfl
      exact hk htype
    exact h.area i (Nat.lt_of_le_of_ne (Nat.le_of_lt_succ hi) hne) htype

/-- **A step keeps what was loaded** and adds the new area. -/
theorem load (h : Inv image first byte k s) (hwf : WellFormed image) (hk : Loads image k)
    (hsound : Sound vmar.pagetable)
    (hvpn : a.vpn = first + addr2pn (phdr image k).pVaddr) (hpages : a.pages = (phdr image k).pages)
    (hplaced : Placed vmar a (flags2perm (phdr image k).pFlags))
    (hkeep : ∀ b p, Placed s.vmar b p → Apart b a → Placed vmar b p)
    (hbyte : ∀ n < (phdr image k).pMemsz,
      a.byte ((phdr image k).pVaddr % pageSize + n) = byte k n) :
    Inv image first byte (k + 1) (s.add k (phdr image k) vmar a) where
  sound := hsound
  brk := by
    change max s.programbreak _ = _
    rw [h.brk, breakOf, if_pos hk.2]
  made i b hb := by
    change update s.areas k (some a) i = some b at hb
    by_cases hik : i = k
    · subst hik
      exact ⟨Nat.lt_succ_self i, hk.2⟩
    · rw [update_of_ne hik] at hb
      exact ⟨Nat.lt_succ_of_lt (h.made i b hb).1, (h.made i b hb).2⟩
  area i hi htype := by
    by_cases hik : i = k
    · subst hik
      exact ⟨a, update_self .., hvpn, hpages, hplaced, hbyte⟩
    have hlt : i < k := Nat.lt_of_le_of_ne (Nat.le_of_lt_succ hi) hik
    obtain ⟨b, hb, hbvpn, hbpages, hbplaced, hbbyte⟩ := h.area i hlt htype
    refine ⟨b, (update_of_ne hik ..).trans hb, hbvpn, hbpages, hkeep b _ hbplaced ?_,
      hbbyte⟩
    unfold Apart InRange
    intro v hv hv'
    refine hwf.disjoint i k ⟨hlt.trans hk.1, htype⟩ hk hik (v - first) ⟨?_, ?_⟩ ⟨?_, ?_⟩
    all_goals omega

end Loading.Inv

/-! ## What the program sees -/

def Loading.Shows (s : Loading) (va : Nat) (b : UInt8) : Prop :=
  ∃ i a x, s.areas i = some a ∧ InRange a.vpn a.pages (va / pageSize) ∧
    leafAt s.vmar.pagetable (va / pageSize) = some x ∧
    x.frame (va / pageSize) = a.frame (va / pageSize - a.vpn) ∧
    a.byte (va - pageSize * a.vpn) = b

section

variable {image : List UInt8} {first : Nat} {byte : Nat → Nat → UInt8} {s : Loading} {i n va : Nat}
  {b : UInt8} (h : s.Inv image first byte (ehdr image).ePhnum) (hwf : WellFormed image)
  (hi : Loads image i) (hn : n < (phdr image i).pMemsz)
  (hva : va = pageSize * first + (phdr image i).pVaddr + n)
include h hwf hi hn hva

/-- An address of an entry is in the area of the entry. -/
theorem Loading.Inv.area_of_addr : ∃ a x, s.areas i = some a ∧
    InRange a.vpn a.pages (va / pageSize) ∧ leafAt s.vmar.pagetable (va / pageSize) = some x ∧
    x.frame (va / pageSize) = a.frame (va / pageSize - a.vpn) ∧
    x.perm = flags2perm (phdr image i).pFlags ∧ a.byte (va - pageSize * a.vpn) = byte i n := by
  have hlt := (hwf.fits i hi).page_lt hn
  obtain ⟨a, ha, hvpn, hpages, hplaced, hbyte⟩ := h.area i hi.1 hi.2
  -- the page and the place in the area, counted from the first page
  have hpage : va / pageSize = a.vpn + ((phdr image i).pVaddr % pageSize + n) / pageSize := by
    rw [hva, hvpn, addr2pn_eq]
    unfold pageSize
    omega
  have hoff : va - pageSize * a.vpn = (phdr image i).pVaddr % pageSize + n := by
    rw [hva, hvpn, addr2pn_eq]
    unfold pageSize
    omega
  obtain ⟨x, hx, hframe, hperm, -⟩ := hplaced.leaf _ (hpages ▸ hlt)
  refine ⟨a, x, ha, ?_, hpage ▸ hx, ?_, hperm, hoff ▸ hbyte n hn⟩
  · rw [hpage]
    exact ⟨Nat.le_add_right _ _, Nat.add_lt_add_left (hpages ▸ hlt) _⟩
  · rw [hpage, Nat.add_sub_cancel_left, hframe]

theorem Loading.Inv.shows_iff : s.Shows va b ↔ byte i n = b := by
  obtain ⟨a, x, ha, hrange, hx, hframe, -, hbyte⟩ := h.area_of_addr hwf hi hn hva
  constructor
  · rintro ⟨j, c, -, hc, hcrange, -, -, hcbyte⟩
    have hji : j = i := by
      by_contra hne
      have hj := h.made j c hc
      obtain ⟨c', hc', hcvpn, hcpages, -⟩ := h.area j hj.1 hj.2
      obtain ⟨a', ha', hvpn, hpages, -⟩ := h.area i hi.1 hi.2
      cases hc.symm.trans hc'
      cases ha.symm.trans ha'
      unfold InRange at hrange hcrange
      refine hwf.disjoint j i hj hi hne (va / pageSize - first) ⟨?_, ?_⟩ ⟨?_, ?_⟩
      all_goals omega
    subst hji
    cases ha.symm.trans hc
    rw [← hbyte, hcbyte]
  · intro hb
    exact ⟨i, a, x, ha, hrange, hx, hframe, hbyte.trans hb⟩

end

/-! ## The image in memory -/

section Buffer

variable {image : List UInt8} {alloc : (i pages : Nat) → Option (Block pages)} {vmar : VMAR}

def blockByte (image : List UInt8) (alloc : (i pages : Nat) → Option (Block pages)) (i n : Nat) :
    UInt8 :=
  match alloc i (phdr image i).pages with
  | none => 0
  | some b =>
    (blockArea image (phdr image i) b).byte ((phdr image i).pVaddr % pageSize + n)

theorem blockMapping_span (entry : Elf64Phdr) (b : Block entry.pages) :
    (blockMapping entry b).span = entry.pages := by
  unfold PageMapping.span
  split
  · rename_i h
    exact h.symm
  · rfl

variable {entry : Elf64Phdr}

theorem blockMapping_plain (h : entry.Fits image) (b : Block entry.pages) :
    (blockMapping entry b).Plain where
  fit := by
    rw [blockMapping_span]
    exact h.pages_fit
  within := Nat.le_of_eq (Nat.zero_add _)
  perm := h.perm.1
  start _ := rfl

section

variable (hwf : WellFormed image) (hserves : ∀ i, Loads image i → (alloc i (phdr image i).pages).isSome)
include hwf hserves

theorem loadEntry_ok {s : Loading} (hk : k < (ehdr image).ePhnum)
    (h : s.Inv image 0 (blockByte image alloc) k) :
    ∃ s', loadEntry image alloc s k = .ok s' ∧ s'.Inv image 0 (blockByte image alloc) (k + 1) := by
  unfold loadEntry
  by_cases htype : (phdr image k).pType = PT_LOAD
  · have hloads : Loads image k := ⟨hk, htype⟩
    have hfits := hwf.fits k hloads
    obtain ⟨b, hb⟩ := Option.isSome_iff_exists.1 (hserves k hloads)
    obtain ⟨vmar', hmap, hsound, hplaced, hkeep⟩ := placed_of_map h.sound
      (blockMapping_plain hfits b) hfits.perm.2 (a := blockArea image (phdr image k) b) rfl
      (blockMapping_span _ b).symm fun i _ => by
        unfold PageMapping.frameOf blockMapping blockArea Vmo.frame
        rw [Nat.add_sub_cancel_left, Nat.zero_add]
    refine ⟨_, ?_, h.load hwf hloads hsound (Nat.zero_add _).symm rfl hplaced hkeep fun n _ => ?_⟩
    · rw [if_neg (not_not.2 htype), hb]
      dsimp only
      rw [hmap, ok_bind]
      rfl
    · simp only [blockByte, hb]
  · rw [if_pos htype]
    exact ⟨s, rfl, h.skip htype⟩

/-- **The first loader returns**, and every entry is loaded from its block. -/
theorem loadElf_ok (hs : Sound vmar.pagetable) :
    ∃ s, loadElf image alloc vmar = .ok ((ehdr image).eEntry, s.programbreak, s) ∧
      s.Inv image 0 (blockByte image alloc) (ehdr image).ePhnum := by
  obtain ⟨s, hfold, hinv⟩ := Outcome.foldlM_range
    (P := Loading.Inv image 0 (blockByte image alloc)) (Loading.Inv.start hs)
    fun k hk s h => loadEntry_ok hwf hserves hk h
  refine ⟨s, ?_, hinv⟩
  unfold loadElf
  rw [hfold]
  rfl

end

theorem blockArea_byte (h : entry.Fits image) (b : Block entry.pages)
    (n : Nat) : (blockArea image entry b).byte (entry.pVaddr % pageSize + n) =
      if n < entry.pFilesz then fileByte image (entry.pOffset + n)
      else b.data ((entry.pVaddr % pageSize + n) / pageSize)
        ⟨(entry.pVaddr % pageSize + n) % pageSize, Nat.mod_lt _ (by decide)⟩ := by
  have hinside := h.inside
  have hsum : pageSize * ((entry.pVaddr % pageSize + n) / pageSize) +
      (entry.pVaddr % pageSize + n) % pageSize = entry.pVaddr % pageSize + n :=
    Nat.div_add_mod _ _
  unfold Area.byte blockArea Block.memcpy
  dsimp only
  rw [hsum, if_pos (Nat.le_add_right _ _), Nat.add_sub_cancel_left]
  unfold slice
  split
  · rename_i hn
    rw [List.getElem?_take_of_lt hn, List.getElem?_drop, List.getElem?_eq_getElem (by omega),
      Option.getD_some, fileByte, List.getD_eq_getElem?_getD, List.getElem?_eq_getElem (by omega),
      Option.getD_some]
  · rw [List.getElem?_eq_none, Option.getD_none]
    rw [List.length_take]
    omega

end Buffer

/-! ## The file -/

def fileVmo (image : List UInt8) (pages : Nat → Option PageBuf) : VMOPaged :=
  .make (bytes2pages image.length) (.vnode image pages)

def Coherent (image : List UInt8) (pages : Nat → Option PageBuf) : Prop :=
  ∀ i pbuf, pages i = some pbuf → ∃ old : Page, pbuf.data = old.write 0 (filePage image i)

/-- The VMO `v'` shows what `v` shows. -/
structure Alike (vnode : Nat → PageBuf) (v v' : VMOPaged) : Prop where
  len : v'.len = v.len
  shown : v'.shown vnode = v.shown vnode
  contents : v'.pager.contents vnode = v.pager.contents vnode

variable {vnode : Nat → PageBuf} {v v' : VMOPaged}

theorem Alike.extends {v'' : VMOPaged} (h : Alike vnode v v')
    (h' : VMOPaged.Extends vnode v' v'') : Alike vnode v v'' :=
  ⟨h'.len.trans h.len, h'.shown.trans h.shown, h'.pager.contents.trans h.contents⟩

theorem Alike.setPager {p : Pager} (h : Alike vnode v v')
    (hp : p.contents vnode = v'.pager.contents vnode) : Alike vnode v { v' with pager := p } := by
  refine ⟨h.len, ?_, hp.trans h.contents⟩
  rw [← h.shown]
  funext i
  simp only [VMOPaged.shown, hp]

section File

variable {image : List UInt8} {pages : Nat → Option PageBuf} {vnode : Nat → PageBuf}
  (swap : Nat → Nat → PageBuf) (interp : Elf64Phdr → VMAR → Kern (Nat × VMAR)) {vmar : VMAR}

theorem fileByte_of_lt (h : n < image.length) : fileByte image n = image[n] := by
  rw [fileByte, List.getD_eq_getElem?_getD, List.getElem?_eq_getElem h, Option.getD_some]

/-- The bytes of a page below the last one of 4 GiB. -/
theorem filePage_get {j : Nat} (hi : pageSize * i + pageSize ≤ 2 ^ 32 - pageSize)
    (hj : j < pageSize) (hlt : pageSize * i + j < image.length) :
    (filePage image i)[j]? = some (fileByte image (pageSize * i + j)) := by
  have hsize : pageSize = 4096 := rfl
  unfold filePage nodRead
  rw [pn2addr_eq (by rw [hsize] at hi; omega), Fs.u32_of_lt (by omega), Fs.u32_of_lt (by omega),
    if_neg (by omega), List.getElem?_take_of_lt hj, List.getElem?_drop, List.getElem?_eq_getElem hlt,
    fileByte_of_lt hlt]

theorem vnode_byte (hco : Coherent image pages) (hlt : n < image.length)
    (hn : n < 2 ^ 32 - pageSize) : (Pager.vnode image pages).byte vnode n = fileByte image n := by
  have hget : (filePage image (n / pageSize))[n % pageSize]? = some (fileByte image n) := by
    have hpage : pageSize * (n / pageSize) + pageSize ≤ 2 ^ 32 - pageSize := by
      unfold pageSize at hn ⊢
      omega
    rw [filePage_get hpage (mod_pageSize_lt n) (by rwa [Nat.div_add_mod]), Nat.div_add_mod]
  have hwrite : ∀ old : Page, old.write 0 (filePage image (n / pageSize))
      ⟨n % pageSize, mod_pageSize_lt n⟩ = fileByte image n := by
    intro old
    rw [Page.write_zero, hget, Option.getD_some]
  unfold Pager.byte
  cases hpage : pages (n / pageSize) with
  | some pbuf =>
    obtain ⟨old, hold⟩ := hco _ pbuf hpage
    simp only [Pager.contents, hpage, hold, hwrite]
  | none => simp only [Pager.contents, hpage, hwrite]

theorem read_file (hco : Coherent image pages) (h : Alike vnode (fileVmo image pages) v) (i : Nat)
    {off : Nat} (hn : off + n ≤ min image.length (2 ^ 32 - pageSize)) :
    ∃ v', v.read (framesFor vnode swap i) off n = .ok (slice image off n, v') ∧
      Alike vnode (fileVmo image pages) v' := by
  have hlen : off + n ≤ pageSize * v.len := by
    rw [h.len]
    exact (hn.trans (Nat.min_le_left _ _)).trans (bytes2pages_le.1 le_rfl)
  obtain ⟨v', hread, hext⟩ := VMOPaged.read_ok (framesFor vnode swap i) hlen
  refine ⟨v', ?_, h.extends hext⟩
  rw [hread]
  congr 2
  apply List.ext_getElem
  · rw [List.length_map, List.length_range, slice, List.length_take, List.length_drop]
    omega
  · intro k hk hk'
    rw [List.length_map, List.length_range] at hk
    have hbyte : v.byte vnode (off + k) = (Pager.vnode image pages).byte vnode (off + k) := by
      unfold VMOPaged.byte
      rw [h.shown]
      rfl
    rw [List.getElem_map, List.getElem_range]
    change v.byte vnode (off + k) = _
    rw [hbyte, vnode_byte hco (by omega) (by omega), fileByte_of_lt (by omega)]
    simp only [slice, List.getElem_take, List.getElem_drop]

/-! ## Mapping the pages of a VMO -/

theorem mapPaged_ok (fresh : NewFrames) {vpn : Nat} (offset sharing : Nat)
    {perm : Perm} (hs : Sound vmar.pagetable) (hok : perm.Ok) (hgrant : perm.grant = some perm)
    (hfit : vpn + n ≤ 2 ^ 27) (hlen : offset + n ≤ v.len) (hlt : v.len < 2 ^ 64) :
    ∃ vmar' v' a, mapPaged fresh vmar v vpn n offset perm sharing = .ok (vmar', v', a) ∧
      v.Extends fresh.vnode v' ∧ Sound vmar'.pagetable ∧ a.vpn = vpn ∧ a.pages = n ∧
      Placed vmar' a perm ∧ (∀ b p, Placed vmar b p → Apart b a → Placed vmar' b p) ∧
      ∀ i < n, a.data i = v.shown fresh.vnode (offset + i) := by
  obtain ⟨v', hreq, hext, hpages⟩ := VMOPaged.reqAll_ok fresh hlen
  generalize hm : PageMapping.mk vpn n offset (vmoPaged v'.len v'.frames) perm .file sharing = m
  have hspan : m.span = n := by
    subst hm
    exact PageMapping.span_paged rfl
  have hplain : m.Plain := by
    subst hm
    refine ⟨?_, ?_, hok, fun hnot => absurd trivial hnot⟩
    · rw [hspan]
      exact hfit
    · change offset + n ≤ xlen v'.len
      rw [hext.len, xlen_of_lt hlt]
      exact hlen
  have hperm : m.perm = perm := by
    subst hm
    rfl
  obtain ⟨vmar', hmap, hsound, hplaced, hkeep⟩ := placed_of_map hs hplain (hperm ▸ hgrant)
    (a := ⟨vpn, n, fun i => v'.frames.1 (offset + i), fun i => v'.data (offset + i)⟩)
    (by subst hm; rfl) hspan.symm fun i _ => by
      subst hm
      unfold PageMapping.frameOf vmoPaged Vmo.frame
      rw [Nat.add_sub_cancel_left]
  refine ⟨vmar', v', _, ?_, hext, hsound, rfl, rfl, hperm ▸ hplaced, hkeep,
    fun i hi => ?_⟩
  · unfold mapPaged
    rw [hreq, ok_bind, hm, hmap, ok_bind]
    rfl
  · obtain ⟨pbuf, hpage, hdata⟩ := hpages i hi
    simp only [VMOPaged.data, hpage, Option.map_some, Option.getD_some, hdata]

/-! ## The loop over a file -/

def swapByte (image : List UInt8) (pages : Nat → Option PageBuf) (vnode : Nat → PageBuf)
    (i n : Nat) : UInt8 :=
  (Pager.swap (.vnode image pages) (phdr image i).region fun _ => none).byte vnode
    ((phdr image i).pVaddr % pageSize + n)

/-- The loop over a file, after `k` entries. -/
structure FileLoading.Inv (image : List UInt8) (first : Nat) (pages : Nat → Option PageBuf)
    (vnode : Nat → PageBuf) (k : Nat) (s : FileLoading) : Prop where
  loading : s.toLoading.Inv image first (swapByte image pages vnode) k
  vmo : Alike vnode (fileVmo image pages) s.vmo
  entry : s.programEntry = (ehdr image).eEntry

theorem permTest_flags (flags : Nat) : permTest (flags2perm flags) = 0 := by
  have hne : flags2perm flags ≠ {} := fun h => Bool.noConfusion (congrArg Perm.v h)
  unfold permTest
  rw [if_neg hne]
  rfl

section

variable {base first : Nat} (hbase : base = pageSize * first)
  (hbelow : ∀ i, Loads image i → base + (phdr image i).pVaddr + (phdr image i).pMemsz ≤ 2 ^ 39)
  (hwf : WellFormed image)
include hbase hbelow hwf

theorem loadSegment_ok {s : FileLoading} (hk : Loads image k)
    (h : s.Inv image first pages vnode k) :
    ∃ s', loadSegment vnode swap base s k (phdr image k) = .ok s' ∧
      s'.Inv image first pages vnode (k + 1) := by
  have hfits := hwf.fits k hk
  obtain ⟨hok, hgrant⟩ := hfits.perm
  have hrange := hbelow k hk
  have hpages := hfits.pages_fit_at first (hbase ▸ hrange)
  have hvpn : addr2pn (xlen ((base : Int) + (phdr image k).pVaddr)) =
      first + addr2pn (phdr image k).pVaddr := by
    rw [xlen_add (by omega), addr2pn_eq, addr2pn_eq, hbase]
    exact Nat.mul_add_div (by decide) _ _
  obtain ⟨vmar', shadow, a, hmap, hext, hsound, havpn, hapages, hplaced, hkeep, hdata⟩ :=
    mapPaged_ok (framesFor vnode swap k) 0 0
      (v := .make (phdr image k).pages (.swap s.vmo.pager (phdr image k).region fun _ => none))
      h.loading.sound hok hgrant hpages (Nat.le_of_eq (Nat.zero_add _))
      (show (phdr image k).pages < 2 ^ 64 by omega)
  -- the pager of the file is the one behind the new swap pager
  obtain ⟨b, pages', hpager, hb⟩ := hext.pager.backing _ _ _ rfl
  refine ⟨{ s with
      toLoading := s.add k (phdr image k) vmar' a, vmo := { s.vmo with pager := b } }, ?_,
    h.loading.load hwf hk hsound havpn hapages hplaced hkeep fun n hn => ?_,
    h.vmo.setPager hb, h.entry⟩
  · unfold loadSegment
    dsimp only
    rw [permTest_flags, if_neg (not_not.2 rfl), hvpn]
    rw [hmap, ok_bind, hpager]
    rfl
  · have hlt := hfits.page_lt hn
    unfold Area.byte swapByte Pager.byte
    rw [hdata _ hlt, Nat.zero_add, VMOPaged.shown_make]
    exact congrFun (congrFun (Pager.swap_congr h.vmo.contents) _) _

theorem loadFileEntry_ok {s : FileLoading} (hco : Coherent image pages)
    (hk : k < (ehdr image).ePhnum) (h : s.Inv image first pages vnode k) :
    ∃ s', loadFileEntry vnode swap interp base (ehdr image) s k = .ok s' ∧
      s'.Inv image first pages vnode (k + 1) := by
  have htable := hwf.table k hk
  have hoff : phdrOffset (ehdr image) k = (ehdr image).ePhoff + Elf64Phdr.size * k :=
    xlen_of_lt (by omega)
  obtain ⟨vmo, hread, halike⟩ := read_file swap hco h.vmo k htable
  have h1 : FileLoading.Inv image first pages vnode k { s with vmo } := ⟨h.loading, halike, h.entry⟩
  have hentry : Elf64Phdr.ofBytes
      (slice image ((ehdr image).ePhoff + Elf64Phdr.size * k) Elf64Phdr.size) = phdr image k := by
    rw [phdr, hoff]
  unfold loadFileEntry
  rw [hoff, hread, ok_bind]
  dsimp only
  rw [hentry, if_neg (hwf.noInterp k hk)]
  by_cases htype : (phdr image k).pType = PT_LOAD
  · obtain ⟨s', hload, h'⟩ := loadSegment_ok swap hbase hbelow hwf ⟨hk, htype⟩ h1
    refine ⟨{ s' with phdr := findPhdr (ehdr image) (phdr image k) s'.phdr }, ?_,
      h'.loading, h'.vmo, h'.entry⟩
    rw [if_pos htype, hload, ok_bind]
    rfl
  · rw [if_neg htype]
    split
    · exact ⟨_, rfl, h1.loading.skip htype, h1.vmo, h1.entry⟩
    · exact ⟨_, rfl, h1.loading.skip htype, h1.vmo, h1.entry⟩

/-- **The second loader returns**, and every entry is loaded from its swap pager. -/
theorem loadElfFile_ok (vnode : Nat → PageBuf) (swap : Nat → Nat → PageBuf)
    (interp : Elf64Phdr → VMAR → Kern (Nat × VMAR)) (hco : Coherent image pages)
    (hs : Sound vmar.pagetable) :
    ∃ info s, loadElfFile vnode swap interp base (fileVmo image pages) vmar =
        .ok (xlen (base + (ehdr image).eEntry), xlen (base + s.programbreak), info, s) ∧
      s.toLoading.Inv image first (swapByte image pages vnode) (ehdr image).ePhnum := by
  have hheader : 0 + Elf64Ehdr.size ≤ min image.length (2 ^ 32 - pageSize) := by
    have h := hwf.header
    unfold Elf64Ehdr.size at h ⊢
    unfold pageSize
    omega
  obtain ⟨vmo, hread, halike⟩ := read_file swap hco
    (v := fileVmo image pages) ⟨rfl, rfl, rfl⟩ 0 hheader
  obtain ⟨s, hfold, hinv⟩ : ∃ s, (List.range (ehdr image).ePhnum).foldlM
      (loadFileEntry vnode swap interp base (ehdr image))
      { vmar, vmo, programEntry := (ehdr image).eEntry } = .ok s ∧
      s.Inv image first pages vnode (ehdr image).ePhnum :=
    Outcome.foldlM_range ⟨.start hs, halike, rfl⟩
      fun k hk s h => loadFileEntry_ok swap interp hbase hbelow hwf hco hk h
  refine ⟨⟨s.phdr, (ehdr image).eEntry, (ehdr image).ePhentsize, (ehdr image).ePhnum⟩, s, ?_,
    hinv.loading⟩
  have hbytes : Elf64Ehdr.ofBytes (slice image 0 Elf64Ehdr.size) = ehdr image := rfl
  unfold loadElfFile
  rw [hread, ok_bind]
  dsimp only
  rw [hbytes, hfold, ok_bind, hinv.entry]
  rfl

end

theorem swapByte_eq (h : (phdr image i).Fits image) (hsize : image.length < 2 ^ 32)
    (hn : n < (phdr image i).pMemsz) : swapByte image pages vnode i n =
      if n < (phdr image i).pFilesz then
        (Pager.vnode image pages).byte vnode ((phdr image i).pOffset + n)
      else 0 := by
  have hinside := h.inside
  have hrange := h.range
  have hend : (phdr image i).region.r = (phdr image i).pOffset + (phdr image i).pFilesz :=
    xlen_add (by omega)
  have hlen : (phdr image i).region.r - (phdr image i).region.l = (phdr image i).pFilesz := by
    rw [hend]
    exact Nat.add_sub_cancel_left _ _
  have hbyte := Pager.swap_byte vnode (.vnode image pages) (n := n)
    (show (phdr image i).region.l ≤ (phdr image i).region.r from hend ▸ Nat.le_add_right _ _)
    (by omega) (by omega)
  unfold swapByte
  rw [h.congr]
  rw [hlen] at hbyte
  exact hbyte

end File

/-! ## Agreement -/

theorem field_lt (bs : List UInt8) (off n : Nat) : field bs off n < 256 ^ n :=
  Nat.lt_of_lt_of_le (Words.ofLe_lt _)
    (Nat.pow_le_pow_right (by decide) (List.length_take_le _ _))

theorem breakOf_lt (image : List UInt8) (k : Nat) : breakOf image k < 2 ^ 64 := by
  induction k with
  | zero => exact Nat.two_pow_pos 64
  | succ k ih =>
    rw [breakOf]
    split
    · exact Nat.max_lt.2 ⟨ih, xlen_lt _⟩
    · exact ih

/-- Both loaders return, with the same entry point and program break, and every address of every
entry shows the same byte in both address spaces. -/
def Agree (image : List UInt8) (alloc : (i pages : Nat) → Option (Block pages))
    (vnode : Nat → PageBuf) (swap : Nat → Nat → PageBuf)
    (interp : Elf64Phdr → VMAR → Kern (Nat × VMAR)) (pages : Nat → Option PageBuf)
    (vmar : VMAR) : Prop :=
  ∃ entry brk s info s', loadElf image alloc vmar = .ok (entry, brk, s) ∧
    loadElfFile vnode swap interp 0 (fileVmo image pages) vmar = .ok (entry, brk, info, s') ∧
    ∀ i, Loads image i → ∀ n < (phdr image i).pMemsz,
      ∃ b, s.Shows ((phdr image i).pVaddr + n) b ∧
        s'.toLoading.Shows ((phdr image i).pVaddr + n) b

section Agreement

variable {image : List UInt8} {alloc : (i pages : Nat) → Option (Block pages)}
  {vnode : Nat → PageBuf} {swap : Nat → Nat → PageBuf}
  {interp : Elf64Phdr → VMAR → Kern (Nat × VMAR)} {pages : Nat → Option PageBuf} {vmar : VMAR}

/-- **The loaders can only differ in the bytes of the entries.** -/
theorem agree_iff_bytes (hwf : WellFormed image)
    (hserves : ∀ i, Loads image i → (alloc i (phdr image i).pages).isSome)
    (hco : Coherent image pages) (hs : Sound vmar.pagetable) :
    Agree image alloc vnode swap interp pages vmar ↔
      ∀ i, Loads image i → ∀ n < (phdr image i).pMemsz,
        blockByte image alloc i n = swapByte image pages vnode i n := by
  obtain ⟨s, hload, hinv⟩ := loadElf_ok hwf hserves hs
  obtain ⟨info, s', hload', hinv'⟩ := loadElfFile_ok (show 0 = pageSize * 0 from rfl)
    (fun i hi => by
      rw [Nat.zero_add]
      exact (hwf.fits i hi).range) hwf vnode swap interp hco hs
  have hva : ∀ i n, (phdr image i).pVaddr + n = pageSize * 0 + (phdr image i).pVaddr + n :=
    fun i n => by rw [Nat.mul_zero, Nat.zero_add]
  have hentry : xlen (((0 : Nat) : Int) + (ehdr image).eEntry) = (ehdr image).eEntry := by
    have hlt : (ehdr image).eEntry < 256 ^ 8 := field_lt _ _ _
    rw [xlen_add (by omega), Nat.zero_add]
  have hbrk : xlen (((0 : Nat) : Int) + s'.programbreak) = s.programbreak := by
    have hlt := breakOf_lt image (ehdr image).ePhnum
    rw [hinv'.brk, hinv.brk, xlen_add (by omega), Nat.zero_add]
  rw [hentry, hbrk] at hload'
  constructor
  · rintro ⟨entry, brk, s1, info1, s1', h1, h1', hshows⟩ i hi n hn
    rw [hload] at h1
    rw [hload'] at h1'
    cases h1
    cases h1'
    obtain ⟨b, hb, hb'⟩ := hshows i hi n hn
    rw [(hinv.shows_iff hwf hi hn (hva i n)).1 hb, (hinv'.shows_iff hwf hi hn (hva i n)).1 hb']
  · intro hbytes
    refine ⟨_, _, s, info, s', hload, hload', fun i hi n hn => ?_⟩
    exact ⟨_, (hinv.shows_iff hwf hi hn (hva i n)).2 (hbytes i hi n hn), (hinv'.shows_iff hwf hi hn (hva i n)).2 rfl⟩

/-- The last page of 4 GiB is not read: its end is not a number of 32 bits. -/
theorem filePage_last (image : List UInt8) : filePage image (2 ^ 20 - 1) = [] := by
  have haddr : u32 (pn2addr (2 ^ 20 - 1)) = 2 ^ 32 - pageSize := by decide +kernel
  have hwrap : u32 ((2 ^ 32 - pageSize) + pageSize : Nat) = 0 := by decide +kernel
  unfold filePage nodRead
  rw [haddr, hwrap, if_pos (Or.inr (by decide))]

def filled (b : UInt8) (_ : Nat) : PageBuf := ⟨0, by decide, fun _ => b⟩

def segmentByte (image : List UInt8) (i n : Nat) : UInt8 :=
  if n < (phdr image i).pFilesz then fileByte image ((phdr image i).pOffset + n) else 0

section

variable {i n : Nat} (hfits : (phdr image i).Fits image) (hsize : image.length < 2 ^ 32)
include hfits hsize

theorem swapByte_file (hco : Coherent image pages) (hn : n < (phdr image i).pMemsz)
    (hor : (phdr image i).pFilesz = 0 ∨
      (phdr image i).pOffset + (phdr image i).pFilesz ≤ 2 ^ 32 - pageSize) :
    swapByte image pages vnode i n = segmentByte image i n := by
  have hinside := hfits.inside
  rw [swapByte_eq hfits hsize hn, segmentByte]
  split
  · rw [vnode_byte hco (by omega) (by omega)]
  · rfl

/-- On the last page of 4 GiB the frame of the vnode pager is shown. -/
theorem swapByte_last {b : UInt8} (hn : n < (phdr image i).pFilesz)
    (hpage : ((phdr image i).pOffset + n) / pageSize = 2 ^ 20 - 1) :
    swapByte image (fun _ => none) (filled b) i n = b := by
  rw [swapByte_eq hfits hsize (hn.trans_le hfits.filesz), if_pos hn]
  unfold Pager.byte
  rw [hpage]
  simp only [Pager.contents, filePage_last, Page.write_nil, filled]

theorem below_last (h : ∀ b, ∀ n < (phdr image i).pFilesz, swapByte image (fun _ => none) (filled b)
      i n = fileByte image ((phdr image i).pOffset + n)) : (phdr image i).pFilesz = 0 ∨
      (phdr image i).pOffset + (phdr image i).pFilesz ≤ 2 ^ 32 - pageSize := by
  by_contra hor
  have hinside := hfits.inside
  -- the last byte of the file part, over a frame that does not hold it
  have hn : (phdr image i).pFilesz - 1 < (phdr image i).pFilesz := by omega
  have hlast : ((phdr image i).pOffset + ((phdr image i).pFilesz - 1)) / pageSize = 2 ^ 20 - 1 := by
    unfold pageSize at hor ⊢
    omega
  have hbyte := h (fileByte image ((phdr image i).pOffset + ((phdr image i).pFilesz - 1)) + 1) _ hn
  rw [swapByte_last hfits hsize hn hlast] at hbyte
  simp at hbyte

end

def ones (_ pages : Nat) : Option (Block pages) :=
  if h : 0 + pages ≤ 2 ^ 44 then some ⟨0, h, fun _ _ => 1⟩ else none

theorem ones_isSome (hwf : WellFormed image) (hi : Loads image i) :
    (ones i (phdr image i).pages).isSome := by
  have hfit := (hwf.fits i hi).pages_fit
  unfold ones
  rw [dif_pos (by omega)]
  rfl

theorem coherent_none (image : List UInt8) : Coherent image fun _ => none := nofun

/-- The first loader shows the frames behind the file part. -/
theorem blockByte_ones (hwf : WellFormed image) (hi : Loads image i) : blockByte image ones i n =
      if n < (phdr image i).pFilesz then fileByte image ((phdr image i).pOffset + n) else 1 := by
  have hfits := hwf.fits i hi
  have hfit := hfits.pages_fit
  unfold blockByte ones
  rw [dif_pos (by omega)]
  dsimp only
  rw [blockArea_byte hfits]

/-- **Whatever the frames held before, the loaders agree** if and only if the image has no entry
with bytes behind its file part or with bytes of the last page of 4 GiB. -/
theorem loaders_agree_iff (image : List UInt8) (interp : Elf64Phdr → VMAR → Kern (Nat × VMAR))
    (vmar : VMAR) (hwf : WellFormed image) (hs : Sound vmar.pagetable) : (∀ alloc vnode swap pages,
      (∀ i, Loads image i → (alloc i (phdr image i).pages).isSome) → Coherent image pages →
        Agree image alloc vnode swap interp pages vmar) ↔
    ∀ i, Loads image i → (phdr image i).pFilesz = (phdr image i).pMemsz ∧
      ((phdr image i).pFilesz = 0 ∨
        (phdr image i).pOffset + (phdr image i).pFilesz ≤ 2 ^ 32 - pageSize) := by
  constructor
  · intro hall i hi
    have hfits := hwf.fits i hi
    have hfilesz := hfits.filesz
    have hinside := hfits.inside
    have hsize := hwf.size
    have hbytes : ∀ b, ∀ n < (phdr image i).pMemsz,
        blockByte image ones i n = swapByte image (fun _ => none) (filled b) i n :=
      fun b => (agree_iff_bytes hwf (fun i hi => ones_isSome hwf hi) (coherent_none image) hs).1
        (hall ones (filled b) (fun _ => filled b) (fun _ => none)
          (fun i hi => ones_isSome hwf hi) (coherent_none image)) i hi
    refine ⟨?_, ?_⟩
    · by_contra hne
      -- the first byte behind the file part
      have hn : (phdr image i).pFilesz < (phdr image i).pMemsz := Nat.lt_of_le_of_ne hfilesz hne
      have hone := hbytes 0 _ hn
      rw [blockByte_ones hwf hi, swapByte_eq hfits hsize hn, if_neg (Nat.lt_irrefl _),
        if_neg (Nat.lt_irrefl _)] at hone
      exact absurd hone (by decide)
    · refine below_last hfits hsize fun b n hn => ?_
      rw [← hbytes b n (hn.trans_le hfilesz), blockByte_ones hwf hi, if_pos hn]
  · intro hcond alloc vnode swap pages hserves hco
    rw [agree_iff_bytes hwf hserves hco hs]
    intro i hi n hn
    obtain ⟨heq, hor⟩ := hcond i hi
    have hfits := hwf.fits i hi
    obtain ⟨b, hb⟩ := Option.isSome_iff_exists.1 (hserves i hi)
    rw [swapByte_file hfits hwf.size hco hn hor]
    unfold blockByte segmentByte
    rw [hb]
    dsimp only
    rw [blockArea_byte hfits, if_pos (by omega), if_pos (by omega)]

end Agreement

/-! ## Two images -/

def tiny (memsz : Nat) : List UInt8 :=
  Words.leBytes 24 0 ++ Words.leBytes 8 0x10000 ++ Words.leBytes 8 64 ++ Words.leBytes 14 0 ++
    Words.leBytes 2 56 ++ Words.leBytes 2 1 ++ Words.leBytes 6 0 ++
  (Words.leBytes 4 PT_LOAD ++ Words.leBytes 4 4 ++ Words.leBytes 8 0 ++ Words.leBytes 8 0x10000 ++
    Words.leBytes 8 0 ++ Words.leBytes 8 120 ++ Words.leBytes 8 memsz ++ Words.leBytes 8 4096)

variable {image : List UInt8}

theorem wellFormed_single (hlen : 120 ≤ image.length)
    (hlt : image.length < 2 ^ 32) (hehdr : ehdr image = ⟨0x10000, 64, 56, 1⟩)
    (htype : (phdr image 0).pType = PT_LOAD) (hfits : (phdr image 0).Fits image) :
    WellFormed image := by
  have hzero : ∀ i < (ehdr image).ePhnum, i = 0 := by
    intro i hi
    rw [hehdr] at hi
    exact Nat.lt_one_iff.1 hi
  refine ⟨hlt, Nat.le_trans (by decide) hlen, fun i hi => ?_, fun i hi => ?_, fun i hi => ?_,
    fun i j hi hj hne => ?_⟩
  · rw [hzero i hi, hehdr]
    exact Nat.le_min.2 ⟨hlen, by decide⟩
  · rw [hzero i hi, htype]
    decide
  · rw [hzero i hi.1]
    exact hfits
  · exact absurd ((hzero i hi.1).trans (hzero j hj.1).symm) hne

theorem tiny_headers (h : memsz = 120 ∨ memsz = 121) : ehdr (tiny memsz) = ⟨0x10000, 64, 56, 1⟩ ∧
      phdr (tiny memsz) 0 = ⟨PT_LOAD, 4, 0, 0x10000, 120, memsz⟩ := by
  rcases h with rfl | rfl <;> decide +kernel

theorem Loads.eq_zero (hehdr : ehdr image = ⟨0x10000, 64, 56, 1⟩) (h : Loads image i) : i = 0 := by
  have hi := h.1
  rw [hehdr] at hi
  exact Nat.lt_one_iff.1 hi

theorem tiny_wellFormed (h : memsz = 120 ∨ memsz = 121) : WellFormed (tiny memsz) := by
  obtain ⟨hehdr, hphdr⟩ := tiny_headers h
  have hlen : (tiny memsz).length = 120 := by
    simp only [tiny, List.length_append, Words.length_leBytes]
  refine wellFormed_single hlen.ge (hlen.trans_lt (by decide)) hehdr (by rw [hphdr]) ?_
  rw [hphdr]
  refine ⟨show 4 % 8 ≠ 0 by decide, ?_, fun _ => show 0x10000 ≠ 0 by decide,
    show 0x10000 % pageSize = 0 % pageSize by decide, ?_, hlen.ge⟩ <;> dsimp only <;> omega

theorem tiny_exact : WellFormed (tiny 120) := tiny_wellFormed (.inl rfl)

theorem tiny_bss : WellFormed (tiny 121) := tiny_wellFormed (.inr rfl)

def noInterp (_ : Elf64Phdr) (_ : VMAR) : Kern (Nat × VMAR) := .error .wildPointer

/-- An image that is as long in memory as in the file. -/
theorem loaders_agree_tiny : WellFormed (tiny 120) ∧
    ∀ alloc vnode swap pages,
      (∀ i, Loads (tiny 120) i → (alloc i (phdr (tiny 120) i).pages).isSome) →
      Coherent (tiny 120) pages →
        Agree (tiny 120) alloc vnode swap noInterp pages VMAR.empty := by
  refine ⟨tiny_exact, (loaders_agree_iff (tiny 120) noInterp VMAR.empty tiny_exact
    createPTNode_sound).2 fun i hi => ?_⟩
  obtain ⟨hehdr, hphdr⟩ := tiny_headers (.inl rfl)
  rw [hi.eq_zero hehdr, hphdr]
  exact ⟨rfl, .inr (by decide)⟩

/-- One byte more in memory: the first loader shows what the frame held, the second a zero. -/
theorem not_loaders_agree_bss : Loads (tiny 121) 0 ∧
    ¬Agree (tiny 121) ones (filled 0) (fun _ => filled 0) noInterp (fun _ => none) VMAR.empty := by
  obtain ⟨hehdr, hphdr⟩ := tiny_headers (.inr rfl)
  have hloads : Loads (tiny 121) 0 := ⟨by rw [hehdr]; decide, by rw [hphdr]⟩
  refine ⟨hloads, fun h => ?_⟩
  have hn : 120 < (phdr (tiny 121) 0).pMemsz := by
    rw [hphdr]
    decide
  have hbyte := (agree_iff_bytes tiny_bss (fun i hi => ones_isSome tiny_bss hi)
    (coherent_none _) createPTNode_sound).1 h 0 hloads 120 hn
  rw [blockByte_ones tiny_bss hloads, swapByte_eq (tiny_bss.fits 0 hloads) tiny_bss.size hn,
    hphdr] at hbyte
  exact absurd hbyte (by decide)

end LuoOS.Ld
