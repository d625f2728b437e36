import LuoOS.Lib.Words
import LuoOS.Alloc.PageMgr
import LuoOS.Vm.FileMap

/-!
# The ELF loaders

The two functions `ld::loadElf` of `kernel/ld.cc`. The first copies an image in memory into
contiguous frames. The second maps a file: it reads the headers through a window on the file's VMO,
and each `PT_LOAD` entry gets a swap pager over the file's pager. The state of both loops has the
memory made for each entry that was loaded. The allocator clears nothing, so frames come with what
they held before.
-/

namespace LuoOS.Ld

open Vm Translation

/-! ## The headers -/

def PT_LOAD : Nat := 1
def PT_INTERP : Nat := 3
def PT_PHDR : Nat := 6

def field (bs : List UInt8) (off n : Nat) : Nat := Words.ofLe ((bs.drop off).take n)

/-- The fields of an ELF header that are read. -/
structure Elf64Ehdr where
  eEntry : Nat
  ePhoff : Nat
  ePhentsize : Nat
  ePhnum : Nat
  deriving DecidableEq

namespace Elf64Ehdr

def size : Nat := 64

def ofBytes (bs : List UInt8) : Elf64Ehdr :=
  { eEntry := field bs 24 8, ePhoff := field bs 32 8, ePhentsize := field bs 54 2
    ePhnum := field bs 56 2 }

end Elf64Ehdr

/-- The fields of a program header that are read. -/
structure Elf64Phdr where
  pType : Nat
  pFlags : Nat
  pOffset : Nat
  pVaddr : Nat
  pFilesz : Nat
  pMemsz : Nat
  deriving DecidableEq

namespace Elf64Phdr

def size : Nat := 56

def ofBytes (bs : List UInt8) : Elf64Phdr :=
  { pType := field bs 0 4, pFlags := field bs 4 4, pOffset := field bs 8 8
    pVaddr := field bs 16 8, pFilesz := field bs 32 8, pMemsz := field bs 40 8 }

def pages (entry : Elf64Phdr) : Nat :=
  xlen (addr2pn (xlen (entry.pVaddr + entry.pMemsz - 1)) - addr2pn entry.pVaddr + 1)

def vend (entry : Elf64Phdr) : Nat := xlen (entry.pVaddr + entry.pMemsz)

def region (entry : Elf64Phdr) : Segment :=
  ⟨entry.pOffset, xlen (entry.pOffset + entry.pFilesz)⟩

end Elf64Phdr

def flags2perm (flags : Nat) : Perm :=
  { v := true, u := true, x := flags.testBit 0, w := flags.testBit 1, r := flags.testBit 2 }

def slice (image : List UInt8) (off n : Nat) : List UInt8 := (image.drop off).take n

def ehdr (image : List UInt8) : Elf64Ehdr := .ofBytes (slice image 0 Elf64Ehdr.size)

def phdrOffset (header : Elf64Ehdr) (i : Nat) : Nat := xlen (header.ePhoff + Elf64Phdr.size * i)

def phdr (image : List UInt8) (i : Nat) : Elf64Phdr :=
  .ofBytes (slice image (phdrOffset (ehdr image) i) Elf64Phdr.size)

/-! ## The memory of an entry -/

/-- The memory made for an entry. -/
structure Area where
  vpn : Nat
  pages : Nat
  frame : Nat → Nat
  data : Nat → Page

def Area.byte (a : Area) (n : Nat) : UInt8 :=
  a.data (n / pageSize) ⟨n % pageSize, mod_pageSize_lt n⟩

/-- A block of frames from `pageMgr->alloc`. -/
structure Block (pages : Nat) where
  ppn : Nat
  fit : ppn + pages ≤ 2 ^ 44
  data : Nat → Page

def Block.memcpy {pages : Nat} (b : Block pages) (start : Nat) (bs : List UInt8) (i : Nat) : Page :=
  fun j =>
    if start ≤ pageSize * i + j then bs[pageSize * i + j - start]?.getD (b.data i j) else b.data i j

/-! ## The loader of an image in memory -/

/-- The state of the loop over an image in memory. -/
structure Loading where
  vmar : VMAR
  programbreak : Nat := 0
  areas : Nat → Option Area := fun _ => none

def Loading.add (s : Loading) (i : Nat) (entry : Elf64Phdr) (vmar : VMAR) (area : Area) : Loading :=
  { vmar
    programbreak := max s.programbreak entry.vend
    areas := Function.update s.areas i (some area) }

section Buffer

variable (image : List UInt8) (alloc : (i pages : Nat) → Option (Block pages))

def blockMapping (entry : Elf64Phdr) (b : Block entry.pages) : PageMapping :=
  { vpn := addr2pn entry.pVaddr, len := entry.pages, offset := 0
    vmo := .contiguous b.ppn entry.pages b.fit, perm := flags2perm entry.pFlags, mapping := .file }

def blockArea (entry : Elf64Phdr) (b : Block entry.pages) : Area :=
  { vpn := addr2pn entry.pVaddr, pages := entry.pages, frame := fun i => b.ppn + i
    data := b.memcpy (entry.pVaddr % pageSize) (slice image entry.pOffset entry.pFilesz) }

def loadEntry (s : Loading) (i : Nat) : Kern Loading :=
  let entry := phdr image i
  if entry.pType ≠ PT_LOAD then .ok s
  else
    match alloc i entry.pages with
    | none => .error Alloc.PageMgr.outOfPages
    | some b => do
      let vmar ← s.vmar.map (blockMapping entry b)
      pure (s.add i entry vmar (blockArea image entry b))

def loadElf (vmar : VMAR) : Kern (Nat × Nat × Loading) := do
  let s ← (List.range (ehdr image).ePhnum).foldlM (loadEntry image alloc) { vmar }
  pure ((ehdr image).eEntry, s.programbreak, s)

end Buffer

/-! ## The loader of a file -/

/-- `!perm&mask::w`: `!` binds before `&`. -/
def permTest (perm : Perm) : Nat := (if perm = {} then 1 else 0) &&& 4

def mapPaged (fresh : NewFrames) (vmar : VMAR) (vmo : VMOPaged) (vpn pages offset : Nat)
    (perm : Perm) (sharing : Nat) : Kern (VMAR × VMOPaged × Area) := do
  let vmo ← vmo.reqAll fresh offset pages
  let vmar ← vmar.map
    { vpn, len := pages, offset, vmo := vmoPaged vmo.len vmo.frames, perm, mapping := .file
      sharing }
  pure (vmar, vmo,
    { vpn, pages, frame := fun i => vmo.frames.1 (offset + i)
      data := fun i => vmo.data (offset + i) })

/-- The state of the loop over a file. -/
structure FileLoading extends Loading where
  vmo : VMOPaged
  programEntry : Nat
  phdr : Nat := 0

section File

variable (vnode : Nat → PageBuf) (swap : Nat → Nat → PageBuf)
  (interp : Elf64Phdr → VMAR → Kern (Nat × VMAR)) (base : Nat)

def framesFor (i : Nat) : NewFrames := ⟨vnode, swap i⟩

/-- A `PT_LOAD` entry of a file. The first branch is for an entry that may not be written, but the
test is never true. -/
def loadSegment (s : FileLoading) (i : Nat) (entry : Elf64Phdr) : Kern FileLoading := do
  let perm := flags2perm entry.pFlags
  let vpn := addr2pn (xlen (base + entry.pVaddr))
  if permTest perm ≠ 0 then
    let (vmar, vmo, area) ← mapPaged (framesFor vnode swap i) s.vmar s.vmo vpn entry.pages
      (addr2pn entry.pOffset) perm 1
    pure { s with toLoading := s.add i entry vmar area, vmo }
  else
    let pager := .swap s.vmo.pager entry.region fun _ => none
    let (vmar, shadow, area) ← mapPaged (framesFor vnode swap i) s.vmar (.make entry.pages pager)
      vpn entry.pages 0 perm 0
    pure { s with
      toLoading := s.add i entry vmar area
      vmo := { s.vmo with pager := shadow.pager.backing } }

def findPhdr (header : Elf64Ehdr) (entry : Elf64Phdr) (found : Nat) : Nat :=
  if found = 0 ∧ (entry.region.inter ⟨header.ePhoff, header.ePhoff⟩).nonempty then
    xlen (entry.pVaddr + header.ePhoff - entry.pOffset)
  else found

def loadFileEntry (header : Elf64Ehdr) (s : FileLoading) (i : Nat) : Kern FileLoading := do
  let (bs, vmo) ← s.vmo.read (framesFor vnode swap i) (phdrOffset header i) Elf64Phdr.size
  let s := { s with vmo }
  let entry := Elf64Phdr.ofBytes bs
  if entry.pType = PT_INTERP then
    let (programEntry, vmar) ← interp entry s.vmar
    pure { s with programEntry, vmar }
  else if entry.pType = PT_LOAD then
    let s ← loadSegment vnode swap base s i entry
    pure { s with phdr := findPhdr header entry s.phdr }
  else if entry.pType = PT_PHDR then pure { s with phdr := xlen (base + entry.pVaddr) }
  else pure s

/-- What the loader tells about an image. -/
structure ElfInfo where
  phdr : Nat
  eEntry : Nat
  ePhentsize : Nat
  ePhnum : Nat

/-- `loadElf(file,vmar,base)`: the entry point, the program break, `info` and the state. `interp`
stands for the nested call on the file that a `PT_INTERP` entry names. -/
def loadElfFile (vmo : VMOPaged) (vmar : VMAR) : Kern (Nat × Nat × ElfInfo × FileLoading) := do
  let (bs, vmo) ← vmo.read (framesFor vnode swap 0) 0 Elf64Ehdr.size
  let header := Elf64Ehdr.ofBytes bs
  let s ← (List.range header.ePhnum).foldlM (loadFileEntry vnode swap interp base header)
    { vmar, vmo, programEntry := header.eEntry }
  pure (xlen (base + s.programEntry), xlen (base + s.programbreak),
    ⟨s.phdr, header.eEntry, header.ePhentsize, header.ePhnum⟩, s)

end File

end LuoOS.Ld
