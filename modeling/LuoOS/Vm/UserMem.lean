import LuoOS.Vm.UserCopy
import Mathlib.Data.UInt

/-!
# The stream that accesses user memory

`VMAR::Writer` of `include/vm.hh` stores with `VMAR::copyout` and loads with `VMAR::copyin`, which
translates the first address only. So what was stored comes back where the bytes are one behind the
other in physical memory, in the frames of the mapping (`Linear`). A stream with `reverse` set grows
downwards. What has been pushed is one list of bytes, from the stream's address upwards
(`Stored.put`), and is read back by slices (`Reads`).
-/

namespace LuoOS.Vm

open Translation PageMapping

/-- The address space of a process and the bytes of physical memory. `second` is the page at which
`copyout` has its windows. -/
structure UserMem where
  vmar : VMAR
  second : Nat
  byte : Nat → UInt8

namespace UserMem

def copyin (m : UserMem) (a : UInt64) (n : Nat) : Kern (List UInt8) :=
  m.vmar.copyin m.byte a.toNat n

def copyout (m : UserMem) (a : UInt64) (bs : List UInt8) : Kern UserMem := do
  let stores ← m.vmar.copyout m.second a.toNat bs
  .ok { m with byte := VMAR.runStores m.byte stores }

end UserMem

/-- A stream at `vaddr`. -/
structure Writer where
  vaddr : UInt64
  reverse : Bool

namespace Writer

def put (w : Writer) (m : UserMem) (bs : List UInt8) : Kern (Writer × UserMem) :=
  if !w.reverse then do
    let m ← m.copyout w.vaddr bs
    .ok ({ w with vaddr := w.vaddr + .ofNat bs.length }, m)
  else do
    let vaddr := w.vaddr - .ofNat bs.length
    let m ← m.copyout vaddr bs
    .ok ({ w with vaddr := vaddr }, m)

def get (w : Writer) (m : UserMem) (n : Nat) : Kern (List UInt8 × Writer) :=
  if !w.reverse then do
    let bs ← m.copyin w.vaddr n
    .ok (bs, { w with vaddr := w.vaddr + .ofNat n })
  else do
    let vaddr := w.vaddr - .ofNat n
    let bs ← m.copyin vaddr n
    .ok (bs, { w with vaddr := vaddr })

end Writer

namespace UserMem

variable {m m' : UserMem} {a : UInt64} {bs cs : List UInt8} {n k j : Nat}

theorem add_ofNat (a : UInt64) (i j : Nat) : a + .ofNat i + .ofNat j = a + .ofNat (i + j) := by
  rw [UInt64.ofNat_add, ← UInt64.add_assoc]

theorem add_sub_ofNat (a : UInt64) (h : k ≤ j) : a + .ofNat j - .ofNat k = a + .ofNat (j - k) := by
  obtain ⟨i, rfl⟩ := Nat.exists_eq_add_of_le' h
  rw [Nat.add_sub_cancel, UInt64.ofNat_add]
  grind

theorem toNat_add_ofNat (h : a.toNat + n ≤ 2 ^ 64) (hj : j < n) :
    (a + .ofNat j).toNat = a.toNat + j := by
  rw [UInt64.toNat_add, UInt64.toNat_ofNat_of_lt' (show j < 2 ^ 64 by omega)]
  exact Nat.mod_eq_of_lt (by omega)

/-! ## Reading -/

def transaddr (m : UserMem) (a : UInt64) : Option Nat :=
  (VMAR.transaddr m.vmar.pagetable a.toNat).toOption

def paddr (m : UserMem) (a : UInt64) : Nat := (m.transaddr a).getD 0

/-- The bytes `bs` are at `a`, in one piece of memory. -/
structure Reads (m : UserMem) (a : UInt64) (bs : List UInt8) : Prop where
  table : ∀ i < bs.length, m.transaddr (a + .ofNat i) = some (m.paddr a + i)
  byte : ∀ i < bs.length, bs[i]? = some (m.byte (m.paddr a + i))

theorem Reads.left (h : m.Reads a (bs ++ cs)) : m.Reads a bs := by
  refine ⟨fun i hi => h.table i (by rw [List.length_append]; omega), fun i hi => ?_⟩
  have := h.byte i (by rw [List.length_append]; omega)
  rwa [List.getElem?_append_left hi] at this

theorem Reads.slice (h : m.Reads a (bs ++ cs)) : m.Reads (a + .ofNat bs.length) cs := by
  have hlen : (bs ++ cs).length = bs.length + cs.length := List.length_append
  have hp : 0 < cs.length → m.paddr (a + .ofNat bs.length) = m.paddr a + bs.length := by
    intro hpos
    unfold paddr
    rw [h.table bs.length (by omega)]
    rfl
  refine ⟨fun i hi => ?_, fun i hi => ?_⟩
  · rw [add_ofNat, hp (by omega), h.table _ (by omega), Nat.add_assoc]
  · have := h.byte (bs.length + i) (by omega)
    rw [List.getElem?_append_right (by omega), Nat.add_sub_cancel_left] at this
    rw [hp (by omega), this, Nat.add_assoc]

theorem Reads.copyin (h : m.Reads a bs) (hpos : 0 < bs.length) : m.copyin a bs.length = .ok bs := by
  have htrans := h.table 0 hpos
  rw [show UInt64.ofNat 0 = 0 from rfl, UInt64.add_zero] at htrans
  unfold UserMem.copyin
  rw [VMAR.copyin_eq (toOption_eq_some.1 htrans)]
  refine congrArg _ (List.ext_getElem? fun i => ?_)
  by_cases hi : i < bs.length
  · rw [h.byte i hi, VMAR.getElem?_read hi]
    rfl
  · rw [List.getElem?_eq_none (by simpa using hi), List.getElem?_eq_none (by omega)]

theorem Reads.getUp (h : m.Reads a bs) (hpos : 0 < bs.length) :
    Writer.get ⟨a, false⟩ m bs.length = .ok (bs, ⟨a + .ofNat bs.length, false⟩) := by
  unfold Writer.get
  rw [Bool.not_false, if_pos rfl, h.copyin hpos, ok_bind]

theorem Reads.get (h : m.Reads a bs) (hpos : 0 < bs.length) :
    Writer.get ⟨a + .ofNat bs.length, true⟩ m bs.length = .ok (bs, ⟨a, true⟩) := by
  unfold Writer.get
  rw [if_neg (by simp)]
  dsimp only
  rw [UInt64.add_sub_cancel, h.copyin hpos, ok_bind]

/-! ## Storing -/

/-- The mapping is the one that is found for the pages of the `n` bytes from `a` on, and it and the
page table have them in consecutive frames. -/
def Backed (m : UserMem) (a : UInt64) (n : Nat) (pm : PageMapping) : Prop :=
  pm.offset + pm.len ≤ pm.vmo.len ∧ m.second + pm.vmo.len ≤ 2 ^ 27 ∧
    ∀ k ≤ addr2pn (a.toNat + n - 1) - addr2pn a.toNat,
      InRange pm.vpn pm.len (addr2pn a.toNat + k) ∧
        (trans m.vmar.pagetable (addr2pn a.toNat + k)).toOption =
          some (pm.frameOf (addr2pn a.toNat + k)) ∧
        pm.frameOf (addr2pn a.toNat + k) = pm.frameOf (addr2pn a.toNat) + k ∧
        ∀ pm' ∈ m.vmar.mappings.elems, pm'.vpn ≤ addr2pn a.toNat + k → pm'.vpn ≤ pm.vpn

/-- The `n` bytes from `a` on are in one mapping and in one piece of physical memory. -/
def Linear (m : UserMem) (a : UInt64) (n : Nat) : Prop :=
  (a.toNat + n ≤ 2 ^ 64 ∧ n < 2 ^ 63) ∧ ∃ pm ∈ m.vmar.mappings.elems, m.Backed a n pm

instance (m : UserMem) (a : UInt64) (n : Nat) : DecidablePred (m.Backed a n) := fun _ =>
  inferInstanceAs (Decidable (_ ∧ _ ∧ ∀ k ≤ _, (_ ≤ _ ∧ _ < _) ∧ _ ∧ _ ∧ ∀ _ ∈ _, _ → _))

instance (m : UserMem) (a : UInt64) (n : Nat) : Decidable (m.Linear a n) :=
  inferInstanceAs (Decidable (_ ∧ ∃ _ ∈ _, _))

/-- Byte by byte: a copy to `a` stores from the physical address `p` on, and one from `a` loads
there. -/
structure Placed (s : VMAR) (second : Nat) (pm : PageMapping) (a : UInt64) (n p : Nat) : Prop where
  fit : a.toNat + n ≤ 2 ^ 64
  short : n < 2 ^ 63
  mem : pm ∈ s.mappings
  within : pm.offset + pm.len ≤ pm.vmo.len
  room : second + pm.vmo.len ≤ 2 ^ 27
  table : ∀ i < n, VMAR.transaddr s.pagetable (a + .ofNat i).toNat = .ok (p + i)
  inRange : ∀ i < n, InRange pm.vpn pm.len (addr2pn (a + .ofNat i).toNat)
  addrOf : ∀ i < n, pm.addrOf (a + .ofNat i).toNat = p + i
  last : ∀ i < n, ∀ pm' ∈ s.mappings, pm'.vpn ≤ addr2pn (a + .ofNat i).toNat → pm'.vpn ≤ pm.vpn

theorem Linear.placed (h : m.Linear a n) : ∃ pm p, Placed m.vmar m.second pm a n p := by
  obtain ⟨⟨hfit, hshort⟩, pm, hpm, hwithin, hroom, hpages⟩ := h
  have hpage : ∀ i < n, ∃ k ≤ addr2pn (a.toNat + n - 1) - addr2pn a.toNat,
      addr2pn (a + .ofNat i).toNat = addr2pn a.toNat + k := by
    intro i hi
    rw [toNat_add_ofNat hfit hi]
    simp only [addr2pn_eq]
    unfold pageSize
    exact ⟨(a.toNat + i) / 4096 - a.toNat / 4096, by omega, by omega⟩
  have hframe : ∀ k ≤ addr2pn (a.toNat + n - 1) - addr2pn a.toNat,
      pn2addr (pm.frameOf (addr2pn a.toNat + k)) = pageSize * (pm.frameOf (addr2pn a.toNat) + k) := by
    intro k hk
    obtain ⟨⟨hle, hlt⟩, -, hnext, -⟩ := hpages k hk
    have hbound : addr2pn a.toNat + k < pm.bound := by
      unfold PageMapping.bound
      omega
    have := VMAR.frameOf_lt_of_bound hle hbound
    rw [← hnext, pn2addr_eq (by omega)]
  have haddr : ∀ i < n, pm.addrOf (a + .ofNat i).toNat = pm.addrOf a.toNat + i := by
    intro i hi
    obtain ⟨k, hk, hv⟩ := hpage i hi
    have h0 := hframe 0 (Nat.zero_le _)
    rw [Nat.add_zero, Nat.add_zero] at h0
    unfold PageMapping.addrOf
    rw [hv, hframe k hk, h0]
    rw [toNat_add_ofNat hfit hi] at hv ⊢
    rw [addr2pn_eq, addr2pn_eq] at hv
    unfold pageSize at *
    omega
  refine ⟨pm, pm.addrOf a.toNat, hfit, hshort, hpm, hwithin, hroom, fun i hi => ?_, fun i hi => ?_,
    haddr, fun i hi => ?_⟩
  all_goals obtain ⟨k, hk, hv⟩ := hpage i hi
  · rw [← haddr i hi]
    unfold VMAR.transaddr PageMapping.addrOf
    rw [hv, toOption_eq_some.1 (hpages k hk).2.1]
    rfl
  · exact hv ▸ (hpages k hk).1
  · exact hv ▸ (hpages k hk).2.2.2

variable {s : VMAR} {pm : PageMapping} {second p : Nat}

theorem Placed.slice (h : Placed s second pm a n p) (hj : j + k ≤ n) :
    Placed s second pm (a + .ofNat j) k (p + j) := by
  have hfit := h.fit
  have hshort := h.short
  have hle : (a + .ofNat j).toNat ≤ a.toNat + j := by
    rw [UInt64.toNat_add, UInt64.toNat_ofNat_of_lt' (show j < 2 ^ 64 by omega)]
    exact Nat.mod_le _ _
  refine ⟨by omega, by omega, h.mem, h.within, h.room, fun i hi => ?_, fun i hi => ?_,
    fun i hi => ?_, fun i hi => ?_⟩
  all_goals rw [add_ofNat]
  · rw [h.table _ (by omega), Nat.add_assoc]
  · exact h.inRange (j + i) (by omega)
  · rw [h.addrOf _ (by omega), Nat.add_assoc]
  · exact h.last (j + i) (by omega)

/-- What a store of `bs` at the physical address `p` makes of memory. -/
structure Stored (m m' : UserMem) (p : Nat) (bs : List UInt8) : Prop where
  vmar : m'.vmar = m.vmar
  second : m'.second = m.second
  holds : ∀ i < bs.length, bs[i]? = some (m'.byte (p + i))
  other : ∀ q, q < p ∨ p + bs.length ≤ q → m'.byte q = m.byte q

theorem Stored.refl (m : UserMem) (p : Nat) : Stored m m p [] :=
  ⟨rfl, rfl, fun i hi => absurd hi (Nat.not_lt_zero i), fun _ _ => rfl⟩

/-- The copy is one round of the loop of `copyout`. -/
theorem Placed.stores (h : Placed s second pm a bs.length p) (hpos : 0 < bs.length) :
    s.copyout second a.toNat bs = .ok (pm.vmo.stores (VMAR.byteOf pm a.toNat) bs) := by
  have hfirst := h.inRange 0 hpos
  have hbehind := h.last 0 hpos
  have hlast := (h.inRange (bs.length - 1) (by omega)).2
  have hwithin := h.within
  have hroom := h.room
  rw [toNat_add_ofNat h.fit hpos, Nat.add_zero] at hfirst hbehind
  rw [toNat_add_ofNat h.fit (by omega), addr2pn_eq] at hlast
  have hpage : addr2pn a.toNat < 2 ^ 52 := by
    rw [addr2pn_eq]
    exact Nat.div_lt_of_lt_mul a.toNat_lt
  obtain ⟨hle, hlt⟩ := hfirst
  have hcontains := (contains_iff (show 0 < pm.len by omega) (by omega)).2 ⟨hle, hlt⟩
  have hall : VMAR.copied pm a.toNat bs.length = bs.length := by
    unfold VMAR.copied PageMapping.bound pageSize at *
    omega
  have hround : s.copyoutLoop second (bs.length - 1 + 1) a.toNat bs = _ :=
    VMAR.copyoutLoop_eq hwithin hroom h.fit h.short ⟨hle, hlt⟩
      (VMAR.find_eq h.mem hcontains hbehind) hpos
  rw [Nat.sub_add_cancel hpos, hall, List.take_length, List.drop_length, VMAR.copyoutLoop_nil,
    ok_bind, List.append_nil] at hround
  exact hround

theorem Placed.copyout (h : Placed m.vmar m.second pm a bs.length p) (hpos : 0 < bs.length) :
    ∃ m', m.copyout a bs = .ok m' ∧ Stored m m' p bs := by
  have hle := (h.inRange 0 hpos).1
  rw [toNat_add_ofNat h.fit hpos, Nat.add_zero] at hle
  have hstore : ∀ (k : Nat) b, bs[k]? = some b →
      (pm.vmo.stores (VMAR.byteOf pm a.toNat) bs)[k]? = some ⟨p + k, b⟩ := by
    intro k b hk
    have hlt := (List.getElem?_eq_some_iff.1 hk).1
    rw [VMAR.getElem?_stores hle, hk, ← toNat_add_ofNat h.fit hlt, h.addrOf k hlt]
    rfl
  have hlen := pm.vmo.length_stores (VMAR.byteOf pm a.toNat) bs
  have hrun : m.copyout a bs = .ok { m with
      byte := VMAR.runStores m.byte (pm.vmo.stores (VMAR.byteOf pm a.toNat) bs) } := by
    unfold UserMem.copyout
    rw [h.stores hpos, ok_bind]
  refine ⟨_, hrun, rfl, rfl, fun i hi => ?_, fun q hq => ?_⟩
  · have hget := List.getElem?_eq_getElem hi
    rw [hget]
    exact congrArg some (VMAR.runStores_getElem hlen hstore hget).symm
  · refine VMAR.runStores_apart fun st hst => ?_
    obtain ⟨i, hi, rfl⟩ := List.getElem_of_mem hst
    have hst := hstore i _ (List.getElem?_eq_getElem (hlen ▸ hi))
    rw [List.getElem?_eq_getElem hi] at hst
    rw [Option.some.inj hst]
    dsimp only
    omega

/-- A push onto a downward stream that has stored `cs` so far. -/
theorem Stored.put {m0 : UserMem} (hp : Placed m0.vmar m0.second pm a n p) (hj : j ≤ n)
    (h : Stored m0 m (p + j) cs) (bs : List UInt8) (hpos : 0 < bs.length) (hle : bs.length ≤ j) :
    ∃ m', Writer.put ⟨a + .ofNat j, true⟩ m bs = .ok (⟨a + .ofNat (j - bs.length), true⟩, m') ∧
      Stored m0 m' (p + (j - bs.length)) (bs ++ cs) := by
  have hpart := hp.slice (j := j - bs.length) (k := bs.length) (by omega)
  rw [← h.vmar, ← h.second] at hpart
  obtain ⟨m', hcopy, hst⟩ := hpart.copyout hpos
  have hlen : (bs ++ cs).length = bs.length + cs.length := List.length_append
  refine ⟨m', ?_, hst.vmar.trans h.vmar, hst.second.trans h.second, fun i hi => ?_, fun q hq => ?_⟩
  · unfold Writer.put
    dsimp only
    rw [Bool.not_true, if_neg Bool.false_ne_true, add_sub_ofNat a hle, hcopy, ok_bind]
  · by_cases hlt : i < bs.length
    · rw [List.getElem?_append_left hlt, hst.holds i hlt]
    · rw [List.getElem?_append_right (by omega), h.holds _ (by omega), hst.other _ (by omega)]
      rw [show p + j + (i - bs.length) = p + (j - bs.length) + i by omega]
  · rw [hst.other q (by omega), h.other q (by omega)]

theorem Placed.paddr (h : Placed m.vmar m.second pm a n p) (hpos : 0 < n) : m.paddr a = p := by
  have h0 := h.table 0 hpos
  rw [show UInt64.ofNat 0 = 0 from rfl, UInt64.add_zero] at h0
  unfold UserMem.paddr transaddr
  rw [h0]
  rfl

/-- What was stored is read. -/
theorem Placed.reads (h : Placed m.vmar m.second pm a bs.length p) (hst : Stored m m' p bs) :
    m'.Reads a bs := by
  rw [← hst.vmar, ← hst.second] at h
  refine ⟨fun i hi => ?_, fun i hi => h.paddr (by omega) ▸ hst.holds i hi⟩
  rw [h.paddr (by omega), transaddr, h.table i hi]
  rfl

end UserMem

end LuoOS.Vm
