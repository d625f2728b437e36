import LuoOS.Vm.Mapper
import LuoOS.Vm.Process

/-!
# Copies to and from user memory

`VMAR::copyout` looks up the mapping of the first address, builds a window on its VMO and copies up
to the end of the VMO, not of the mapping. So the bytes are where the process reads them if the VMO
ends with the mapping or goes on in the pages mapped behind it (`Seamless`). A store in a window is
a store in its VMO (`Mappers.Separate`), and a byte of a VMO is one of its frame. What a copy does
is the list of its stores to physical addresses, in their order.
-/

namespace LuoOS.Vm

open Translation Function PageMapping

/-- A byte that is stored at a physical address. -/
structure Store where
  addr : Nat
  byte : UInt8
  deriving DecidableEq

theorem Vmo.frame_lt_of_lt (vmo : Vmo) {i : Nat} (h : i < vmo.len) : vmo.frame i < 2 ^ 44 := by
  cases vmo with
  | paged len frame hlen hframe => exact hframe i
  | contiguous ppn pages hfit =>
    have hi : i < pages := h
    show ppn + i < 2 ^ 44
    omega

def Vmo.stores (vmo : Vmo) (off : Nat) (bs : List UInt8) : List Store :=
  (bs.zipIdx off).map fun x => ⟨pn2addr (vmo.frame (x.2 / pageSize)) + x.2 % pageSize, x.1⟩

theorem Vmo.length_stores (vmo : Vmo) (off : Nat) (bs : List UInt8) :
    (vmo.stores off bs).length = bs.length := by
  rw [stores, List.length_map, List.length_zipIdx]

namespace VMAR

/-- The loop of `copyout`, with the windows at page `second`. Every round copies a byte. -/
def copyoutLoop (s : VMAR) (second : Nat) : (fuel va_begin : Nat) → List UInt8 → Kern (List Store)
  | _, _, [] => .ok []
  | 0, _, _ :: _ => .error .diverges
  | fuel + 1, va_begin, src@(_ :: _) => do
    match ← s.find (addr2pn va_begin) with
    | none => .error (.assertion "mapping!=mappings.end()")
    | some m =>
      let region := (Mappers.mapping second m.vmo).vsegment
      let start := pn2addr region.l
      let pa_begin := xlen (start + xlen (va_begin - pn2addr m.vpn + pn2addr m.offset))
      let pa_bound := xlen (pn2addr region.r + pageSize - 1)
      let pa_end := min (xlen (pa_begin + src.length - 1)) pa_bound
      let cpylen := xlen (pa_end - pa_begin + 1)
      -- `memmove` reads the buffer and writes the window
      if start ≤ pa_begin ∧ cpylen ≤ src.length then do
        let rest ← copyoutLoop s second fuel (xlen (va_begin + cpylen)) (src.drop cpylen)
        pure (m.vmo.stores (pa_begin - start) (src.take cpylen) ++ rest)
      else .error .wildPointer

def copyout (s : VMAR) (second addr : Nat) (buff : List UInt8) : Kern (List Store) :=
  s.copyoutLoop second buff.length addr buff

end VMAR

namespace PageMapping

def addrOf (m : PageMapping) (a : Nat) : Nat :=
  pn2addr (m.frameOf (addr2pn a)) + a % pageSize

def bound (m : PageMapping) : Nat := m.vpn + (m.vmo.len - m.offset)

end PageMapping

namespace VMAR

def transaddr (table : Table 2) (addr : Nat) : Kern Nat := do
  let ppn ← trans table (addr2pn addr)
  pure (pn2addr ppn + addr % pageSize)

def copyin (s : VMAR) (mem : Nat → UInt8) (addr len : Nat) : Kern (List UInt8) := do
  let paddr ← transaddr s.pagetable addr
  pure ((List.range len).map fun k => mem (paddr + k))

/-! ## What is to be stored and read -/

/-- The bytes of `buff` are stored and nothing else, each in the byte of a VMO that the mapping with
its address assigns to it. -/
structure Stored (s : VMAR) (addr : Nat) (buff : List UInt8) (stores : List Store) : Prop where
  length : stores.length = buff.length
  byte : ∀ j b, buff[j]? = some b → ∃ m ∈ s.mappings, InRange m.vpn m.len (addr2pn (addr + j)) ∧
    stores[j]? = some ⟨m.addrOf (addr + j), b⟩

def GoesOn (s : VMAR) (m : PageMapping) (addr c : Nat) : Prop :=
  ∀ j < c, ∀ m' ∈ s.mappings, InRange m'.vpn m'.len (addr2pn (addr + j)) →
    m'.frameOf (addr2pn (addr + j)) = m.frameOf (addr2pn (addr + j))

def copied (m : PageMapping) (addr n : Nat) : Nat := min n (pageSize * m.bound - addr)

/-- The mapping of the first address is found, the mappings behind it go on with its VMO up to its
end, and so on for what is left. -/
inductive Seamless (s : VMAR) : (addr n : Nat) → Prop
  | done (addr : Nat) : s.Seamless addr 0
  | round {m : PageMapping} {addr n : Nat} (found : s.find (addr2pn addr) = .ok (some m))
    (goesOn : s.GoesOn m addr (copied m addr n))
    (rest : s.Seamless (addr + copied m addr n) (n - copied m addr n)) : s.Seamless addr n

/-- Mappings are apart, inside of their VMOs, and fit a window. -/
structure Spread (s : VMAR) (second : Nat) : Prop where
  apart : Apart s.mappings
  fit : ∀ m ∈ s.mappings, m.vpn + m.len ≤ 2 ^ 52
  within : ∀ m ∈ s.mappings, m.offset + m.len ≤ m.vmo.len
  room : ∀ m ∈ s.mappings, second + m.vmo.len ≤ 2 ^ 27

/-- All `n` bytes at `addr` are mapped. -/
structure Pending (s : VMAR) (addr n : Nat) : Prop where
  fit : addr + n ≤ 2 ^ 64
  short : n < 2 ^ 63
  mapped : ∀ j < n, ∃ m ∈ s.mappings, InRange m.vpn m.len (addr2pn (addr + j))

/-! ## One round -/

section Round

variable {s : VMAR} {m m' : PageMapping} {second a n c v fuel : Nat} {bs : List UInt8}

theorem Pending.rest (h : s.Pending a n) (hle : c ≤ n) : s.Pending (a + c) (n - c) where
  fit := by have := h.fit; omega
  short := by have := h.short; omega
  mapped j hj := Nat.add_assoc a c j ▸ h.mapped (c + j) (by omega)

/-- A byte that is copied is before the end of the VMO. -/
theorem page_lt_bound {j : Nat} (hj : j < copied m a n) : addr2pn (a + j) < m.bound := by
  unfold copied at hj
  rw [addr2pn_eq, Nat.div_lt_iff_lt_mul (by decide), Nat.mul_comm]
  omega

theorem Spread.copied_pos (hs : s.Spread second) (hm : m ∈ s.mappings)
    (hv : InRange m.vpn m.len (addr2pn a)) (hn : 0 < n) : 0 < copied m a n := by
  have hwithin := hs.within m hm
  unfold InRange at hv
  rw [addr2pn_eq] at hv
  unfold copied bound pageSize at *
  omega

/-- `find` finds the mapping of a page or none: one that it finds starts behind all others. -/
theorem Spread.of_find (hs : s.Spread second) (hm : m ∈ s.mappings) (hv : InRange m.vpn m.len v)
    (hfind : s.find v = .ok (some m')) : m' = m := by
  obtain ⟨hm', hc⟩ := find_mem hfind
  obtain ⟨b, hlast⟩ := KeyedSet.exists_lastLe hm hv.1
  obtain rfl : b = m' := by
    unfold find at hfind
    rw [hlast, Option.some_or] at hfind
    dsimp only at hfind
    split at hfind <;> cases hfind
    rfl
  have hle := KeyedSet.le_lastLe hlast hm hv.1
  by_cases hkey : b.vpn = m.vpn
  · exact KeyedSet.eq_of_key_eq hm' hm hkey
  -- behind the start of `m`, so it has pages if it contains one
  refine hs.apart b hm' m hm v ?_ hv
  unfold PageMapping.contains PageMapping.vend xlen at hc
  rw [Bool.and_eq_true_iff, decide_eq_true_iff, decide_eq_true_iff] at hc
  unfold InRange
  omega

theorem Pending.seamless_iff (hs : s.Spread second) (hp : s.Pending a n) (hm : m ∈ s.mappings)
    (hin : InRange m.vpn m.len (addr2pn a)) (hn : 0 < n) :
    s.Seamless a n ↔ s.find (addr2pn a) = .ok (some m) ∧ s.GoesOn m a (copied m a n) ∧
      s.Seamless (a + copied m a n) (n - copied m a n) := by
  constructor
  · intro h
    cases h with
    | done => cases hn
    | round found goesOn rest =>
      obtain rfl := hs.of_find hm hin found
      exact ⟨found, goesOn, rest⟩
  · rintro ⟨found, goesOn, rest⟩
    exact .round found goesOn rest

def byteOf (m : PageMapping) (a : Nat) : Nat := a - pageSize * m.vpn + pageSize * m.offset

theorem getElem?_stores (hle : m.vpn ≤ addr2pn a) (bs : List UInt8) (j : Nat) :
    (m.vmo.stores (byteOf m a) bs)[j]? = bs[j]?.map fun b => ⟨m.addrOf (a + j), b⟩ := by
  rw [addr2pn_eq] at hle
  have hpage : (byteOf m a + j) / pageSize = m.offset + (addr2pn (a + j) - m.vpn) := by
    rw [addr2pn_eq]
    unfold byteOf pageSize at *
    omega
  have hbyte : (byteOf m a + j) % pageSize = (a + j) % pageSize := by
    unfold byteOf pageSize at *
    omega
  unfold Vmo.stores
  rw [List.getElem?_map, List.getElem?_zipIdx, Option.map_map]
  refine congrArg (Option.map · bs[j]?) (funext fun b => ?_)
  show Store.mk _ b = _
  rw [hpage, hbyte]
  rfl

theorem frameOf_lt_of_bound (hle : m.vpn ≤ v) (hlt : v < m.bound) : m.frameOf v < 2 ^ 44 := by
  unfold bound at hlt
  exact m.vmo.frame_lt_of_lt (by omega)

theorem addrOf_eq_iff (h : m.frameOf (addr2pn a) < 2 ^ 44) (h' : m'.frameOf (addr2pn a) < 2 ^ 44) :
    m'.addrOf a = m.addrOf a ↔ m'.frameOf (addr2pn a) = m.frameOf (addr2pn a) := by
  unfold addrOf
  rw [pn2addr_eq (by omega), pn2addr_eq (by omega)]
  unfold pageSize
  omega

/-- The stores of a round are right if and only if the mappings go on with the VMO. -/
theorem Spread.stored_iff (hs : s.Spread second) (hp : s.Pending a n)
    (hle : m.vpn ≤ addr2pn a) (hlen : bs.length = copied m a n) :
    s.Stored a bs (m.vmo.stores (byteOf m a) bs) ↔ s.GoesOn m a (copied m a n) := by
  have haddr : ∀ j < copied m a n, ∀ m' ∈ s.mappings, InRange m'.vpn m'.len (addr2pn (a + j)) →
      (m'.addrOf (a + j) = m.addrOf (a + j) ↔
        m'.frameOf (addr2pn (a + j)) = m.frameOf (addr2pn (a + j))) := by
    intro j hj m' hm' hin
    have hle' : addr2pn a ≤ addr2pn (a + j) := by
      rw [addr2pn_eq, addr2pn_eq]
      exact Nat.div_le_div_right (Nat.le_add_right _ _)
    have hbound : addr2pn (a + j) < m'.bound := by
      have hwithin := hs.within m' hm'
      unfold bound
      unfold InRange at hin
      omega
    exact addrOf_eq_iff (frameOf_lt_of_bound (hle.trans hle') (page_lt_bound hj))
      (frameOf_lt_of_bound hin.1 hbound)
  constructor
  · intro h j hj m' hm' hin
    have hget := List.getElem?_eq_getElem (hlen ▸ hj)
    obtain ⟨u, hu, hinu, hst⟩ := h.byte j _ hget
    obtain rfl := hs.apart u hu m' hm' _ hinu hin
    rw [getElem?_stores hle, hget] at hst
    exact (haddr j hj u hu hinu).1 (congrArg Store.addr (Option.some.inj hst)).symm
  · intro h
    refine ⟨m.vmo.length_stores _ _, fun j b hb => ?_⟩
    have hj : j < copied m a n := hlen ▸ (List.getElem?_eq_some_iff.1 hb).1
    obtain ⟨m', hm', hin⟩ := hp.mapped j (hj.trans_le (Nat.min_le_left _ _))
    refine ⟨m', hm', hin, ?_⟩
    rw [getElem?_stores hle, hb, (haddr j hj m' hm' hin).2 (h j hj m' hm' hin)]
    rfl

theorem stored_append {xs ys : List Store} (hxs : xs.length = c) (hc : c ≤ bs.length) :
    s.Stored a bs (xs ++ ys) ↔ s.Stored a (bs.take c) xs ∧ s.Stored (a + c) (bs.drop c) ys := by
  have hlen : (xs ++ ys).length = xs.length + ys.length := List.length_append
  have htake : (bs.take c).length = c := List.length_take_of_le hc
  have hdrop : (bs.drop c).length = bs.length - c := List.length_drop
  constructor
  · rintro ⟨hl, hb⟩
    refine ⟨⟨by omega, fun j b hj => ?_⟩, ⟨by omega, fun j b hj => ?_⟩⟩
    · rw [List.getElem?_take] at hj
      split at hj
      · obtain ⟨m, hm, hin, hst⟩ := hb j b hj
        rw [List.getElem?_append_left (by omega)] at hst
        exact ⟨m, hm, hin, hst⟩
      · cases hj
    · rw [List.getElem?_drop] at hj
      obtain ⟨m, hm, hin, hst⟩ := hb _ b hj
      rw [List.getElem?_append_right (by omega), hxs, Nat.add_sub_cancel_left] at hst
      rw [Nat.add_assoc]
      exact ⟨m, hm, hin, hst⟩
  · rintro ⟨⟨hl, hb⟩, hl', hb'⟩
    refine ⟨by omega, fun j b hj => ?_⟩
    by_cases hlt : j < c
    · rw [List.getElem?_append_left (by omega)]
      exact hb j b (by rw [List.getElem?_take, if_pos hlt, hj])
    · obtain ⟨k, rfl⟩ := Nat.exists_eq_add_of_le (Nat.not_lt.1 hlt)
      rw [List.getElem?_append_right (by omega), hxs, Nat.add_sub_cancel_left, ← Nat.add_assoc]
      exact hb' k b (by rw [List.getElem?_drop, hj])

@[simp] theorem copyoutLoop_nil : s.copyoutLoop second fuel a [] = .ok [] := by
  cases fuel <;> rfl

theorem copyoutLoop_eq (hwithin : m.offset + m.len ≤ m.vmo.len)
    (hroom : second + m.vmo.len ≤ 2 ^ 27) (hfit : a + bs.length ≤ 2 ^ 64)
    (hshort : bs.length < 2 ^ 63) (hin : InRange m.vpn m.len (addr2pn a))
    (hfind : s.find (addr2pn a) = .ok (some m)) (hn : 0 < bs.length) :
    s.copyoutLoop second (fuel + 1) a bs = (do
      let rest ← s.copyoutLoop second fuel (a + copied m a bs.length)
        (bs.drop (copied m a bs.length))
      pure (m.vmo.stores (byteOf m a) (bs.take (copied m a bs.length)) ++ rest)) := by
  unfold InRange at hin
  rw [addr2pn_eq] at hin
  unfold pageSize at hin
  have hoff : xlen ((a : Int) - pn2addr m.vpn + pn2addr m.offset) = byteOf m a := by
    rw [pn2addr_eq (by omega), pn2addr_eq (by omega)]
    unfold byteOf xlen pageSize at *
    omega
  have hbyte : byteOf m a < 4096 * m.vmo.len := by
    unfold byteOf pageSize at *
    omega
  have hstart : pn2addr (Mappers.mapping second m.vmo).vsegment.l = 4096 * second :=
    pn2addr_eq (show second < 2 ^ 52 by omega)
  have hbegin : xlen (((4096 * second : Nat) : Int) + byteOf m a) = 4096 * second + byteOf m a :=
    xlen_add (by omega)
  have hbound : xlen ((pn2addr (Mappers.mapping second m.vmo).vsegment.r : Int) + pageSize - 1) =
      4096 * (second + m.vmo.len) - 1 := by
    have hr : (Mappers.mapping second m.vmo).vsegment.r = second + m.vmo.len - 1 := by
      show xlen ((second : Int) + m.vmo.len - 1) = _
      unfold xlen
      omega
    rw [hr, pn2addr_eq (by omega)]
    have h := xlen_of_nonneg (z := (pageSize * (second + m.vmo.len - 1) : Nat) + pageSize - 1)
    unfold pageSize at *
    omega
  have hcpy : xlen ((min (xlen (((4096 * second + byteOf m a : Nat) : Int) + bs.length - 1))
      (4096 * (second + m.vmo.len) - 1) : Nat) - (4096 * second + byteOf m a : Nat) + 1) =
      copied m a bs.length := by
    have hend : xlen (((4096 * second + byteOf m a : Nat) : Int) + bs.length - 1) =
        4096 * second + byteOf m a + bs.length - 1 := by
      have h := xlen_of_nonneg (z := (4096 * second + byteOf m a : Nat) + bs.length - 1)
      omega
    rw [hend]
    have h := xlen_of_nonneg (z := ((min (4096 * second + byteOf m a + bs.length - 1)
      (4096 * (second + m.vmo.len) - 1) : Nat) : Int) - (4096 * second + byteOf m a : Nat) + 1)
    unfold copied bound byteOf pageSize at *
    omega
  -- where the address wraps, nothing is left
  have hnext : s.copyoutLoop second fuel (xlen (a + copied m a bs.length))
      (bs.drop (copied m a bs.length)) =
      s.copyoutLoop second fuel (a + copied m a bs.length) (bs.drop (copied m a bs.length)) := by
    by_cases hall : bs.length ≤ copied m a bs.length
    · rw [List.drop_eq_nil_of_le hall, copyoutLoop_nil, copyoutLoop_nil]
    · rw [xlen_add (by omega)]
  obtain ⟨b, bs', rfl⟩ := List.exists_cons_of_length_pos hn
  rw [copyoutLoop, hfind, ok_bind]
  dsimp only
  rw [hoff, hstart, hbegin, hbound, hcpy, if_pos ⟨Nat.le_add_right _ _, Nat.min_le_left _ _⟩,
    Nat.add_sub_cancel_left, hnext]

theorem find_of_copyoutLoop {st : List Store} (hn : 0 < bs.length)
    (h : s.copyoutLoop second (fuel + 1) a bs = .ok st) :
    ∃ m', s.find (addr2pn a) = .ok (some m') := by
  obtain ⟨b, bs', rfl⟩ := List.exists_cons_of_length_pos hn
  obtain ⟨found, hfind, h⟩ := bind_eq_ok h
  cases found with
  | none => cases h
  | some m' => exact ⟨m', hfind⟩

end Round

/-! ## The copy -/

section Copy

variable {s : VMAR} {second : Nat}

/-- **Rounds of a copy.** -/
theorem Spread.copyoutLoop (hs : s.Spread second) : ∀ (fuel a : Nat) (bs : List UInt8),
    bs.length ≤ fuel → s.Pending a bs.length →
      ((∃ st, s.copyoutLoop second fuel a bs = .ok st ∧ s.Stored a bs st) ↔ s.Seamless a bs.length)
  | fuel, a, [], _, _ =>
    ⟨fun _ => .done a, fun _ => ⟨[], copyoutLoop_nil, rfl, fun j b h => by simp at h⟩⟩
  | fuel + 1, a, b :: bs, hfuel, hp => by
    generalize hbs : b :: bs = src at *
    have hn : 0 < src.length := by
      rw [← hbs]
      exact Nat.succ_pos _
    obtain ⟨m, hm, hin : InRange m.vpn m.len (addr2pn a)⟩ := hp.mapped 0 hn
    have hpos := hs.copied_pos hm hin hn
    rw [hp.seamless_iff hs hm hin hn]
    have hc : copied m a src.length ≤ src.length := Nat.min_le_left _ _
    have heq := fun hfind => @copyoutLoop_eq s m second a fuel src (hs.within m hm) (hs.room m hm)
      hp.fit hp.short hin hfind hn
    have hround := fun bs => @Spread.stored_iff s m second a src.length bs hs hp hin.1
    generalize copied m a src.length = c at *
    have htake : (src.take c).length = c := List.length_take_of_le hc
    have hdrop : (src.drop c).length = src.length - c := List.length_drop
    have hlen : (m.vmo.stores (byteOf m a) (src.take c)).length = c :=
      (m.vmo.length_stores _ _).trans htake
    have ih := hs.copyoutLoop fuel (a + c) (src.drop c) (by omega) (hdrop ▸ hp.rest hc)
    rw [hdrop] at ih
    rw [← ih, ← hround _ htake]
    constructor
    · rintro ⟨st, hloop, hst⟩
      obtain ⟨m', hfind⟩ := find_of_copyoutLoop hn hloop
      obtain rfl := hs.of_find hm hin hfind
      rw [heq hfind] at hloop
      obtain ⟨rest, hrest, hloop⟩ := bind_eq_ok hloop
      cases hloop
      obtain ⟨h1, h2⟩ := (stored_append hlen hc).1 hst
      exact ⟨hfind, h1, rest, hrest, h2⟩
    · rintro ⟨hfind, h1, rest, hrest, h2⟩
      refine ⟨_, ?_, (stored_append hlen hc).2 ⟨h1, h2⟩⟩
      rw [heq hfind, hrest]
      rfl

/-- **Copying out.** A buffer is stored where the mappings assign its bytes if and only if these are
found and go on with their VMOs. -/
theorem copyout_stored_iff_seamless {addr : Nat} {buff : List UInt8} (hs : s.Spread second)
    (hp : s.Pending addr buff.length) :
    (∃ stores, s.copyout second addr buff = .ok stores ∧ s.Stored addr buff stores) ↔
      s.Seamless addr buff.length :=
  hs.copyoutLoop buff.length addr buff le_rfl hp

theorem two_frames_fit : 100 + 2 ≤ 2 ^ 44 := by decide

def firstHalf : PageMapping :=
  { vpn := 10, len := 1, offset := 0, vmo := .contiguous 100 2 two_frames_fit
    perm := { v := true, r := true, u := true } }

def behindHalf : PageMapping :=
  { firstHalf with vpn := 11, len := 2, vmo := .contiguous 50 2 (by decide) }

def halves : VMAR :=
  ⟨(KeyedSet.empty.insert firstHalf).insert behindHalf,
    ((mapLoop firstHalf 1 0 createPTNode).bind fun t => mapLoop behindHalf 2 0 t).toOption.getD
      createPTNode⟩

theorem mem_halves {m : PageMapping} (hm : m ∈ halves.mappings) :
    m = behindHalf ∨ m = firstHalf := by
  rcases KeyedSet.mem_of_mem_insert hm with rfl | hm
  · exact .inl rfl
  · rcases KeyedSet.mem_of_mem_insert hm with rfl | hm
    · exact .inr rfl
    · exact absurd hm (KeyedSet.not_mem_empty m)

theorem halves_mem : firstHalf ∈ halves.mappings ∧ behindHalf ∈ halves.mappings :=
  ⟨List.mem_cons_self, List.mem_cons_of_mem _ List.mem_cons_self⟩

theorem halves_spread : halves.Spread 1000 where
  apart := by
    intro m hm m' hm' v hv hv'
    rcases mem_halves hm with rfl | rfl <;> rcases mem_halves hm' with rfl | rfl
    · rfl
    · exact absurd (hv.1.trans (Nat.le_of_lt_succ hv'.2)) (by decide)
    · exact absurd (hv'.1.trans (Nat.le_of_lt_succ hv.2)) (by decide)
    · rfl
  fit m hm := by rcases mem_halves hm with rfl | rfl <;> decide
  within m hm := by rcases mem_halves hm with rfl | rfl <;> decide
  room m hm := by rcases mem_halves hm with rfl | rfl <;> decide

theorem halves_pending {addr : Nat} (hfit : addr + 2 ≤ 2 ^ 64)
    (hin : ∀ j < 2, InRange 10 3 (addr2pn (addr + j))) : halves.Pending addr 2 where
  fit := hfit
  short := by decide
  mapped j hj := by
    rcases Nat.lt_or_ge (addr2pn (addr + j)) 11 with h | h
    · exact ⟨_, halves_mem.1, (hin j hj).1, h⟩
    · exact ⟨_, halves_mem.2, h, (hin j hj).2⟩

theorem firstHalf_ends :
    ∀ j < 2, ¬InRange firstHalf.vpn firstHalf.len (addr2pn (4096 * 12 - 1 + j)) := by
  decide

theorem halves_seamless : halves.Seamless (4096 * 12 - 1) 2 := by
  have hc : copied behindHalf (4096 * 12 - 1) 2 = 2 := by decide
  refine .round (VMAR.find_eq halves_mem.2 (by decide) fun m hm hle => ?_) ?_ (hc ▸ .done _)
  · rcases mem_halves hm with rfl | rfl
    · exact le_rfl
    · decide
  · intro j hj m hm hin
    rcases mem_halves hm with rfl | rfl
    · rfl
    · exact absurd hin (firstHalf_ends j (by omega))

/-- Two bytes over the end of a page, in one mapping. -/
theorem copyout_stored_pages : ∃ stores, halves.copyout 1000 (4096 * 12 - 1) [7, 8] = .ok stores ∧
      halves.Stored (4096 * 12 - 1) [7, 8] stores :=
  (copyout_stored_iff_seamless halves_spread (halves_pending (by decide) (by decide))).2
    halves_seamless

/-- **A copy over the end of a mapping** goes on in its VMO: the second byte is stored in frame 101, which
is not mapped. -/
theorem not_copyout_stored : halves.Spread 1000 ∧ halves.Pending (4096 * 11 - 1) 2 ∧
    halves.copyout 1000 (4096 * 11 - 1) [7, 8] =
      .ok [⟨4096 * 100 + 4095, 7⟩, ⟨4096 * 101, 8⟩] ∧
    ∀ stores, halves.copyout 1000 (4096 * 11 - 1) [7, 8] = .ok stores →
      ¬halves.Stored (4096 * 11 - 1) [7, 8] stores := by
  have hrun : halves.copyout 1000 (4096 * 11 - 1) [7, 8] =
      .ok [⟨4096 * 100 + 4095, 7⟩, ⟨4096 * 101, 8⟩] :=
    toOption_eq_some.1 (by decide +kernel)
  refine ⟨halves_spread, halves_pending (by decide) (by decide), hrun, fun stores h hst => ?_⟩
  rw [hrun] at h
  cases h
  obtain ⟨m, hm, hin, hbyte⟩ := hst.byte 1 8 rfl
  rcases mem_halves hm with rfl | rfl
  · exact absurd hbyte (by decide)
  · exact absurd hin.2 (by decide)

/-! ## Copying in -/

def Reads (s : VMAR) (mem : Nat → UInt8) (addr len : Nat) : Prop :=
  ∃ bs, s.copyin mem addr len = .ok bs ∧ bs.length = len ∧
    ∀ k < len, ∃ p, transaddr s.pagetable (addr + k) = .ok p ∧ bs[k]? = some (mem p)

def Straight (s : VMAR) (addr len : Nat) : Prop :=
  ∃ p, transaddr s.pagetable addr = .ok p ∧
    ∀ k < len, transaddr s.pagetable (addr + k) = .ok (p + k)

def runStores (mem : Nat → UInt8) (stores : List Store) : Nat → UInt8 :=
  stores.foldl (fun mem st => update mem st.addr st.byte) mem

section CopyIn

variable {mem : Nat → UInt8} {addr len p : Nat}

theorem copyin_eq (h : transaddr s.pagetable addr = .ok p) :
    s.copyin mem addr len = .ok ((List.range len).map fun k => mem (p + k)) := by
  unfold copyin
  rw [h]
  rfl

theorem getElem?_read {k : Nat} (hk : k < len) :
    ((List.range len).map fun k => mem (p + k))[k]? = some (mem (p + k)) := by
  rw [List.getElem?_map, List.getElem?_range hk]
  rfl

/-- Whatever memory holds, it is read right if and only if it is read straight on. -/
theorem forall_reads_iff : (∀ mem, s.Reads mem addr len) ↔ s.Straight addr len := by
  constructor
  · intro h
    obtain ⟨bs, hrun, -⟩ := h fun _ => 0
    obtain ⟨p, hp, -⟩ := bind_eq_ok hrun
    refine ⟨p, hp, fun k hk => ?_⟩
    -- a memory that has a 1 at the address of byte `k` only
    obtain ⟨bs, hrun, -, hbyte⟩ := h (update (fun _ => 0) (p + k) 1)
    rw [copyin_eq hp] at hrun
    cases hrun
    obtain ⟨q, hq, hget⟩ := hbyte k hk
    rw [getElem?_read hk, update_self] at hget
    obtain rfl : q = p + k := by
      by_contra hne
      rw [update_of_ne hne] at hget
      exact absurd hget (by decide)
    exact hq
  · rintro ⟨p, hp, hall⟩ mem
    refine ⟨_, copyin_eq hp, by rw [List.length_map, List.length_range], fun k hk => ?_⟩
    exact ⟨p + k, hall k hk, getElem?_read hk⟩

variable {stores : List Store}

theorem runStores_apart {q : Nat} (h : ∀ st ∈ stores, st.addr ≠ q) :
    runStores mem stores q = mem q := by
  induction stores generalizing mem with
  | nil => rfl
  | cons st stores ih =>
    show runStores (update mem st.addr st.byte) stores q = mem q
    rw [ih fun x hx => h x (List.mem_cons_of_mem _ hx),
      update_of_ne (h st List.mem_cons_self).symm]

theorem runStores_getElem {bs : List UInt8} (hlen : stores.length = bs.length)
    (h : ∀ (k : Nat) b, bs[k]? = some b → stores[k]? = some ⟨p + k, b⟩) {k : Nat} {b : UInt8}
    (hk : bs[k]? = some b) : runStores mem stores (p + k) = b := by
  induction bs generalizing stores mem p k with
  | nil => cases hk
  | cons b' bs ih =>
    cases stores with
    | nil => cases hlen
    | cons st stores =>
      obtain rfl : st = ⟨p, b'⟩ := Option.some.inj (h 0 b' rfl)
      have hrest : ∀ (k : Nat) b, bs[k]? = some b → stores[k]? = some ⟨p + 1 + k, b⟩ := by
        intro k b hk
        have hst := h (k + 1) b hk
        rw [show p + (k + 1) = p + 1 + k by omega] at hst
        exact hst
      have hlen' := Nat.succ.inj hlen
      cases k with
      | zero =>
        obtain rfl := Option.some.inj hk
        have hrun : runStores (update mem p b') stores p = b' := by
          refine (runStores_apart fun x hx => ?_).trans (update_self p b' mem)
          obtain ⟨k, hk, rfl⟩ := List.getElem_of_mem hx
          have hst := hrest k _ (List.getElem?_eq_getElem (hlen' ▸ hk))
          rw [List.getElem?_eq_getElem hk] at hst
          rw [Option.some.inj hst]
          exact Nat.ne_of_gt (show p < p + 1 + k by omega)
        exact hrun
      | succ k =>
        rw [Nat.add_comm k 1, ← Nat.add_assoc]
        exact ih hlen' hrest hk

def Agreed (s : VMAR) (addr len : Nat) : Prop :=
  ∀ m ∈ s.mappings, ∀ k < len, InRange m.vpn m.len (addr2pn (addr + k)) →
    transaddr s.pagetable (addr + k) = .ok (m.addrOf (addr + k))

theorem Straight.copyin {buff : List UInt8} (h : s.Straight addr buff.length)
    (hagree : s.Agreed addr buff.length) (hst : s.Stored addr buff stores) :
    s.copyin (runStores mem stores) addr buff.length = .ok buff := by
  obtain ⟨p, hp, hall⟩ := h
  have hbytes : ∀ (k : Nat) b, buff[k]? = some b → stores[k]? = some ⟨p + k, b⟩ := by
    intro k b hk
    have hlt := (List.getElem?_eq_some_iff.1 hk).1
    obtain ⟨m, hm, hin, hget⟩ := hst.byte k b hk
    have haddr := hagree m hm k hlt hin
    rw [hall k hlt] at haddr
    rw [hget, ← Except.ok.inj haddr]
  rw [copyin_eq hp]
  refine congrArg Except.ok (List.ext_getElem? fun k => ?_)
  by_cases hk : k < buff.length
  · rw [getElem?_read hk, List.getElem?_eq_getElem hk,
      runStores_getElem hst.length hbytes (List.getElem?_eq_getElem hk)]
  · rw [List.getElem?_eq_none (by rw [List.length_map, List.length_range]; omega),
      List.getElem?_eq_none (by omega)]

/-- **Copying in** returns the bytes at the addresses that the page table gives, whatever they are, if
and only if these lie one behind the other. Then it returns what was copied out before. -/
theorem copyin_reads_iff_straight (s : VMAR) (second addr len : Nat) :
    ((∀ mem, s.Reads mem addr len) ↔ s.Straight addr len) ∧
    ∀ buff : List UInt8, s.Straight addr buff.length → s.Agreed addr buff.length →
      s.Spread second → s.Pending addr buff.length → s.Seamless addr buff.length →
      ∃ stores, s.copyout second addr buff = .ok stores ∧
        ∀ mem, s.copyin (runStores mem stores) addr buff.length = .ok buff := by
  refine ⟨forall_reads_iff, fun buff hstraight hagree hs hp hseam => ?_⟩
  obtain ⟨stores, hrun, hst⟩ :=
    (hs.copyoutLoop buff.length addr buff le_rfl hp).2 hseam
  exact ⟨stores, hrun, fun mem => hstraight.copyin hagree hst⟩

/-- Two bytes over the end of a page, in one mapping. -/
theorem copyin_reads_pages : (∀ mem, halves.Reads mem (4096 * 12 - 1) 2) ∧
    ∃ stores, halves.copyout 1000 (4096 * 12 - 1) [7, 8] = .ok stores ∧
      ∀ mem, halves.copyin (runStores mem stores) (4096 * 12 - 1) 2 = .ok [7, 8] := by
  have hall : ∀ k < 2, transaddr halves.pagetable (4096 * 12 - 1 + k) = .ok (4096 * 51 - 1 + k) := by
    intro k hk
    obtain rfl | rfl : k = 0 ∨ k = 1 := by omega
    · exact toOption_eq_some.1 (by decide +kernel)
    · exact toOption_eq_some.1 (by decide +kernel)
  have hstraight : halves.Straight (4096 * 12 - 1) 2 := ⟨_, hall 0 (by decide), hall⟩
  obtain ⟨hreads, hback⟩ := copyin_reads_iff_straight halves 1000 (4096 * 12 - 1) 2
  refine ⟨hreads.2 hstraight, hback [7, 8] hstraight (fun m hm k hk hin => ?_) halves_spread
    (halves_pending (by decide) (by decide)) halves_seamless⟩
  rcases mem_halves hm with rfl | rfl
  · obtain rfl | rfl : k = 0 ∨ k = 1 := Nat.le_one_iff_eq_zero_or_eq_one.1 (Nat.le_of_lt_succ hk)
    · exact hall 0 hk
    · exact hall 1 hk
  · exact absurd hin (firstHalf_ends k hk)

/-- **Two pages are read as one run of memory**: page 11 has frame 50, but frame 101 is read. -/
theorem not_copyin_reads : (∀ k < 2, ∃ p, transaddr halves.pagetable (4096 * 11 - 1 + k) = .ok p) ∧
      ¬halves.Reads (fun p => if p = 4096 * 50 then 1 else 0) (4096 * 11 - 1) 2 := by
  have h0 : transaddr halves.pagetable (4096 * 11 - 1) = .ok (4096 * 100 + 4095) :=
    toOption_eq_some.1 (by decide +kernel)
  have h1 : transaddr halves.pagetable (4096 * 11) = .ok (4096 * 50) :=
    toOption_eq_some.1 (by decide +kernel)
  constructor
  · intro k hk
    obtain rfl | rfl : k = 0 ∨ k = 1 := by omega
    · exact ⟨_, h0⟩
    · exact ⟨_, h1⟩
  · rintro ⟨bs, hrun, -, hbyte⟩
    rw [copyin_eq h0] at hrun
    cases hrun
    obtain ⟨p, hp, hget⟩ := hbyte 1 (by decide)
    obtain rfl := Except.ok.inj (h1.symm.trans hp)
    exact absurd hget (by decide)

end CopyIn

end Copy

end VMAR

end LuoOS.Vm
