import LuoOS.Lib.KeyedSet
import LuoOS.Vm.TableSpec

/-!
# Virtual memory address regions

`VMAR` of `include/vm.hh` and `kernel/vm/vm.cc`: the set of the mappings of an address space,
ordered by their first page, next to the page table. A paged VMO keeps the pages it loads, so a VMO
is a function from pages to frames here; which frame its pager picks is left open. Frames are
physical page numbers of 44 bits.
-/

namespace LuoOS.Vm

/-! ## Segments and addresses -/

def addr2pn (addr : Nat) : Nat := addr >>> 12

/-- The pages from `l` to `r`, both included. -/
structure Segment where
  l : Nat
  r : Nat
  deriving DecidableEq, Repr

namespace Segment

def inter (s t : Segment) : Segment := ⟨max s.l t.l, min s.r t.r⟩

def nonempty (s : Segment) : Bool := s.l ≤ s.r

def length (s : Segment) : Nat := xlen (s.r - s.l + 1)

end Segment

/-! ## Virtual memory objects -/

/-- A VMO: loaded page by page, or one block of frames. -/
inductive Vmo where
  | paged (len : Nat) (frame : Nat → Nat) (len_lt : len < 2 ^ 64) (frame_lt : ∀ i, frame i < 2 ^ 44)
  | contiguous (ppn pages : Nat) (fit : ppn + pages ≤ 2 ^ 44)

namespace Vmo

def len : Vmo → Nat
  | paged len _ _ _ => len
  | contiguous _ pages _ => pages

def frame : Vmo → Nat → Nat
  | paged _ frame _ _, i => frame i
  | contiguous ppn _ _, i => ppn + i

/-- `VMO::req`: a run of pages of the VMO as its first page, their first frame and their number. A
contiguous VMO gives all it has, whatever it is asked for. -/
def req : Vmo → Nat → Kern (Nat × Nat × Nat)
  | paged len frame _ _, offset => do
    assert_ (offset < len) "offset<pages.size()"
    pure (offset, frame offset, 1)
  | contiguous ppn pages _, _ => .ok (0, ppn, pages)

def IsPaged : Vmo → Prop
  | paged _ _ _ _ => True
  | contiguous _ _ _ => False

instance : DecidablePred IsPaged
  | paged _ _ _ _ => .isTrue trivial
  | contiguous _ _ _ => .isFalse id

end Vmo

/-! ## Mappings -/

/-- Whom or what a mapping is for. -/
inductive MappingType where
  | system
  | file
  | anon
  deriving DecidableEq, Repr

/-- The `len` pages of a VMO from `offset` on, at page `vpn`. -/
structure PageMapping where
  vpn : Nat
  len : Nat
  offset : Nat
  vmo : Vmo
  perm : Perm
  mapping : MappingType := .anon
  sharing : Nat := 0

namespace PageMapping

def vend (m : PageMapping) : Nat := xlen (m.vpn + m.len - 1)

def vsegment (m : PageMapping) : Segment := ⟨m.vpn, m.vend⟩

def contains (m : PageMapping) (vpn : Nat) : Bool := m.vpn ≤ vpn && vpn ≤ m.vend

/-- `splitChild`. The default of `newperm` is 0, which keeps the bits. -/
def splitChild (m : PageMapping) (region : Segment) (newperm : Perm := {}) : PageMapping :=
  { m with
    vpn := region.l
    len := region.length
    offset := xlen (m.offset + region.l - m.vpn)
    perm := if newperm = {} then m.perm else newperm }

def req (m : PageMapping) (idx : Nat) : Kern (Nat × Nat × Nat) := m.vmo.req (xlen (m.offset + idx))

/-- `prot2perm`: `(prot&mask)<<1` puts read, write and exec at `r`, `w` and `x`. -/
def prot2perm (prot : BitVec 32) : Perm :=
  if prot = 0 then { u := true }
  else
    { v := true, u := true, r := prot.getLsbD 0, w := prot.getLsbD 1, x := prot.getLsbD 2 }

end PageMapping

/-! ## Address spaces -/

/-- An address space: its mappings and its page table. -/
structure VMAR where
  mappings : KeyedSet PageMapping PageMapping.vpn
  pagetable : Table 2

namespace VMAR

def empty : VMAR := ⟨KeyedSet.empty, createPTNode⟩

/-- The loop of `map`, `for(i=0;i<pages();)`. A run goes one page on or, for a contiguous VMO,
always sets `i` to the same value, so `len` runs are enough unless it never ends. -/
def mapLoop (m : PageMapping) : (fuel i : Nat) → (table : Table 2) → Kern (Table 2)
  | 0, i, table => if i < m.len then .error .diverges else .ok table
  | fuel + 1, i, table =>
    if i < m.len then do
      let (off, ppn, pages) ← m.req i
      let voff := xlen (off - m.offset)
      let table ← createMapping 2 table (xlen (m.vpn + voff)) ppn pages m.perm
      mapLoop m fuel (xlen (voff + pages)) table
    else .ok table

/-- `VMAR::map`. The page table is written also when the key of the mapping is taken. -/
def map (s : VMAR) (m : PageMapping) (ondemand : Bool := false) : Kern VMAR := do
  let pagetable ← if ondemand then pure s.pagetable else mapLoop m m.len 0 s.pagetable
  pure ⟨s.mappings.insert m, pagetable⟩

def mapSlice (s : VMAR) (m : PageMapping) (region : Segment) : Kern VMAR :=
  if region.nonempty then s.map (m.splitChild region) else .ok s

/-- `find`, on a page: the last mapping that starts at or before it, or the first one, if it
contains the page. In an empty set the iterator that is read is `end()`. -/
def find (s : VMAR) (vpn : Nat) : Kern (Option PageMapping) :=
  match (s.mappings.lastLe vpn).or s.mappings.first with
  | none => .error .wildPointer
  | some m => .ok (if m.contains vpn then some m else none)

def contains (s : VMAR) (vpn : Nat) : Bool := s.mappings.elems.any fun m => m.contains vpn

def pfhandler (s : VMAR) (vpn : Nat) : Kern VMAR := do
  match ← s.find vpn with
  | none => .error (.assertion "mapping!=mappings.end()")
  | some m =>
    let (off, ppn, pages) ← m.req (xlen (vpn - m.vpn))
    let voff := xlen (off - m.offset)
    let pagetable ← createMapping 2 s.pagetable (xlen (m.vpn + voff)) ppn pages m.perm
    pure { s with pagetable }

def unmapBody (region : Segment) (i : PageMapping) (s : VMAR) : Kern (Option PageMapping × VMAR) :=
  let ovlp := i.vsegment.inter region
  if ovlp.nonempty then do
    -- left part
    let s ← s.mapSlice i ⟨i.vpn, xlen (ovlp.l - 1)⟩
    -- right part
    let s ← s.mapSlice i ⟨xlen (ovlp.r + 1), i.vend⟩
    -- remove origin
    let pagetable ← removeMapping 2 s.pagetable i.vpn i.len
    pure (s.mappings.upperBound i.vpn, ⟨s.mappings.erase i.vpn, pagetable⟩)
  else .ok (s.mappings.upperBound i.vpn, s)

/-- The body of the loop of `protect`. The iterator is taken before the new mapping is inserted. -/
def protectBody (region : Segment) (perm : Perm) (i : PageMapping) (s : VMAR) :
    Kern (Option PageMapping × VMAR) :=
  let ovlp := i.vsegment.inter region
  if ovlp.nonempty then do
    let pagetable ← removeMapping 2 s.pagetable i.vpn i.len
    let s := { s with pagetable }
    -- left part
    let s ← s.mapSlice i ⟨i.vpn, xlen (ovlp.l - 1)⟩
    -- right part
    let s ← s.mapSlice i ⟨xlen (ovlp.r + 1), i.vend⟩
    let newmapping := i.splitChild ovlp perm
    -- remove origin
    let next := s.mappings.upperBound i.vpn
    let s ← map { s with mappings := s.mappings.erase i.vpn } newmapping
    pure (next, s)
  else .ok (s.mappings.upperBound i.vpn, s)

def resetBody (i : PageMapping) (s : VMAR) : Kern (Option PageMapping × VMAR) :=
  if i.mapping = .system then .ok (s.mappings.upperBound i.vpn, s)
  else do
    let pagetable ← removeMapping 2 s.pagetable i.vpn i.len
    pure (s.mappings.upperBound i.vpn, ⟨s.mappings.erase i.vpn, pagetable⟩)

def sweep (s : VMAR) (body : PageMapping → VMAR → Kern (Option PageMapping × VMAR)) : Kern VMAR :=
  KeyedSet.sweep body .diverges (2 ^ 64) s.mappings.first s

def unmap (s : VMAR) (region : Segment) : Kern VMAR := s.sweep (unmapBody region)

def protect (s : VMAR) (region : Segment) (perm : Perm) : Kern VMAR :=
  s.sweep (protectBody region perm)

def reset (s : VMAR) : Kern VMAR := s.sweep resetBody

/-! ## What a round does -/

section Rounds

variable {region : Segment} {perm : Perm} {i : PageMapping} {s s' : VMAR}
  {next : Option PageMapping} {body : PageMapping → VMAR → Kern (Option PageMapping × VMAR)}

/-- A round of `unmap` cuts the mapping or passes by it. -/
theorem unmapBody_cases (h : unmapBody region i s = .ok (next, s')) :
    ((i.vsegment.inter region).nonempty = true ∧ ∃ s1 s2 t,
      s.mapSlice i ⟨i.vpn, xlen ((i.vsegment.inter region).l - 1)⟩ = .ok s1 ∧
      s1.mapSlice i ⟨xlen ((i.vsegment.inter region).r + 1), i.vend⟩ = .ok s2 ∧
      removeMapping 2 s2.pagetable i.vpn i.len = .ok t ∧ next = s2.mappings.upperBound i.vpn ∧
      s' = ⟨s2.mappings.erase i.vpn, t⟩) ∨
    ¬(i.vsegment.inter region).nonempty = true ∧ next = s.mappings.upperBound i.vpn ∧ s' = s := by
  unfold unmapBody at h
  dsimp only at h
  split at h
  · rename_i hov
    obtain ⟨s1, hleft, h⟩ := bind_eq_ok h
    obtain ⟨s2, hright, h⟩ := bind_eq_ok h
    obtain ⟨t, hremove, h⟩ := bind_eq_ok h
    cases h
    exact .inl ⟨hov, s1, s2, t, hleft, hright, hremove, rfl, rfl⟩
  · rename_i hno
    cases h
    exact .inr ⟨hno, rfl, rfl⟩

/-- A round of `protect` replaces the mapping or passes by it. -/
theorem protectBody_cases (h : protectBody region perm i s = .ok (next, s')) :
    ((i.vsegment.inter region).nonempty = true ∧ ∃ t s1 s2,
      removeMapping 2 s.pagetable i.vpn i.len = .ok t ∧
      mapSlice { s with pagetable := t } i ⟨i.vpn, xlen ((i.vsegment.inter region).l - 1)⟩ =
        .ok s1 ∧
      s1.mapSlice i ⟨xlen ((i.vsegment.inter region).r + 1), i.vend⟩ = .ok s2 ∧
      map { s2 with mappings := s2.mappings.erase i.vpn }
        (i.splitChild (i.vsegment.inter region) perm) = .ok s' ∧
      next = s2.mappings.upperBound i.vpn) ∨
    ¬(i.vsegment.inter region).nonempty = true ∧ next = s.mappings.upperBound i.vpn ∧ s' = s := by
  unfold protectBody at h
  dsimp only at h
  split at h
  · rename_i hov
    obtain ⟨t, hremove, h⟩ := bind_eq_ok h
    obtain ⟨s1, hleft, h⟩ := bind_eq_ok h
    obtain ⟨s2, hright, h⟩ := bind_eq_ok h
    obtain ⟨s3, hmap, h⟩ := bind_eq_ok h
    cases h
    exact .inl ⟨hov, t, s1, s2, hremove, hleft, hright, hmap, rfl⟩
  · rename_i hno
    cases h
    exact .inr ⟨hno, rfl, rfl⟩

/-- **Loop rule**: what the rounds of mappings that are there keep holds at the end. -/
theorem sweep_keeps {P : VMAR → Prop} (hbody : ∀ i s next s', P s → i ∈ s.mappings →
      body i s = .ok (next, s') → P s' ∧ ∀ j, next = some j → j ∈ s'.mappings)
    (h : P s) (hr : s.sweep body = .ok s') : P s' :=
  (KeyedSet.sweep_inv (J := fun it s => P s ∧ ∀ j, it = some j → j ∈ s.mappings)
    (fun i s next s' hJ hb => hbody i s next s' hJ.1 (hJ.2 i rfl) hb) _ _ s s'
    ⟨h, fun _ hj => KeyedSet.first_mem hj⟩ hr).1

end Rounds

end VMAR

end LuoOS.Vm
