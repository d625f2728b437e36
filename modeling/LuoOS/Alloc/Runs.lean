import LuoOS.Alloc.Invariant
import Mathlib.Data.List.Perm.Subperm
import Mathlib.Logic.Relation

/-!
# Runs of the page allocator

A run starts from the constructor, takes blocks with `alloc` and gives them back. Three properties
of all runs over a range: the blocks are well placed and only an exhausted range stops a call
(`Safe`), no free block is overlooked (`Complete`), and the users in the kernel, which release with
`freeUnaligned`, give back what they took (`Conserves`).

All three fail in general: `free` keeps a node number in an `int`, so they need a range of at most
`2 ^ 30` pages, and `freeUnaligned` frees the binary digits of a size that `alloc` rounded up, so
the third needs sizes that are powers of two.
-/

namespace LuoOS.Alloc.PageMgr

open BuddyTree
open Klib (log2up)

/-- The states of `PageMgr(start,end_)` reached by calls of `alloc` that return and by calls
`free(ppn,order)` of an outstanding block. -/
inductive Run (start end_ : Nat) : PageMgr → List Block → Prop
  | init {garbage : Nat → Nat} {m : PageMgr} :
    new garbage start end_ = .ok m → Run start end_ m []
  | alloc {m m' : PageMgr} {bs : List Block} {n ppn : Nat} : Run start end_ m bs →
    m.alloc n = .ok (ppn, m') → Run start end_ m' (⟨ppn, log2up n⟩ :: bs)
  | free {m m' : PageMgr} {bs : List Block} {b : Block} : Run start end_ m bs → b ∈ bs →
    m.free b.ppn b.order = .ok m' → Run start end_ m' (bs.erase b)

/-- **Safety.** A failed assertion, an access outside of `buddyNodes` and an endless loop are
results other than `.ok`, which the last two parts exclude. -/
def Safe (start end_ : Nat) : Prop :=
  (∀ garbage, ∃ m, new garbage start end_ = .ok m) ∧
  ∀ m bs, Run start end_ m bs →
    (∀ b ∈ bs, start ≤ b.ppn ∧ b.ppn + 2 ^ b.order ≤ end_ ∧ 2 ^ b.order ∣ b.ppn - start) ∧
    bs.Pairwise Block.Disjoint ∧
    (∀ n, (∃ r, m.alloc n = .ok r) ∨ m.alloc n = .error outOfPages) ∧
    ∀ b ∈ bs, ∃ m', m.free b.ppn b.order = .ok m'

/-- **Completeness.** `alloc` panics only when no free block is left, and serves what the fresh
allocator serves when nothing is outstanding. -/
def Complete (start end_ : Nat) : Prop :=
  (∀ m bs n, Run start end_ m bs → m.alloc n = .error outOfPages →
    ∀ p, ¬FreeBlock start end_ bs (log2up n) p) ∧
  ∀ garbage m0 m n, new garbage start end_ = .ok m0 → Run start end_ m [] →
    (∃ r, m0.alloc n = .ok r) → ∃ r, m.alloc n = .ok r

variable {bs : List Block} {m : PageMgr} {ppn : Nat}

section Small

variable {start end_ : Nat} (he : end_ < 2 ^ 64) (h3 : start + 3 ≤ end_)
  (hpow : ∀ k, end_ - start ≠ 2 ^ k) (hsmall : end_ - start ≤ 2 ^ 30)

include he in
theorem Inv.alloc_ok {m' : PageMgr} {n : Nat} (i : Inv start end_ m bs)
    (h : m.alloc n = .ok (ppn, m')) : Inv start end_ m' (⟨ppn, log2up n⟩ :: bs) := by
  rcases i.alloc he n with ⟨herr, -⟩ | ⟨p, m1, hok, hzero, i'⟩
  · rw [herr] at h
    cases h
  rcases Nat.eq_zero_or_pos (start + p) with h0 | hpos
  · rw [hzero h0] at h
    cases h
  · rw [hok hpos] at h
    cases h
    exact i'

/-- **`log2up` is the least order that is enough**, so a block has less than twice the pages that
were asked for. -/
theorem log2up_reserves {a : Nat} (ha : a < 2 ^ 64) : log2up 0 = 0 ∧
    (∀ k, log2up a ≤ k ↔ a ≤ 2 ^ k) ∧ (1 < a → 2 ^ (log2up a - 1) < a) ∧
    (0 < a → a ≤ 2 ^ log2up a ∧ 2 ^ log2up a < 2 * a) ∧
    ∀ start end_ m m' bs ppn, end_ < 2 ^ 64 → Inv start end_ m bs → m.alloc a = .ok (ppn, m') →
      Inv start end_ m' (⟨ppn, log2up a⟩ :: bs) := by
  have hle := Klib.le_two_pow_log2up ha
  have hlt : 0 < log2up a → 2 ^ (log2up a - 1) < a :=
    fun h => Klib.two_pow_lt_of_lt_log2up ha (by omega)
  refine ⟨by decide, fun k => Klib.log2up_le_iff ha, ?_, fun h0 => ⟨hle, ?_⟩,
    fun _ _ _ _ _ _ he i h => i.alloc_ok he h⟩
  · intro h1
    refine hlt (Nat.pos_of_ne_zero fun h => ?_)
    rw [h] at hle
    omega
  · rcases Nat.eq_zero_or_pos (log2up a) with h | h
    · rw [h]
      omega
    · rw [← Nat.two_pow_pred_mul_two h]
      omega

theorem ne_two_pow {j n : Nat} (h1 : 2 ^ j < n) (h2 : n < 2 ^ (j + 1)) (k : Nat) : n ≠ 2 ^ k := by
  rintro rfl
  have hlt : j < k := (Nat.pow_lt_pow_iff_right (by omega)).1 h1
  have hgt : k < j + 1 := (Nat.pow_lt_pow_iff_right (by omega)).1 h2
  omega

/-- Five of eleven pages are served by the eight that start at page 1. -/
theorem log2up_reserves_five : log2up 5 = 3 ∧ ∃ m m', Inv 1 12 m [] ∧
    m.alloc 5 = .ok (1, m') ∧ Inv 1 12 m' [⟨1, 3⟩] := by
  obtain ⟨-, hleast, -, -, hserves⟩ := log2up_reserves (a := 5) (by decide)
  have hfive : log2up 5 = 3 := by
    have h2 := mt (hleast 2).1 (by decide)
    have h3 := (hleast 3).2 (by decide)
    omega
  obtain ⟨m, hnew, i⟩ : ∃ m, new (fun _ => 0) 1 12 = .ok m ∧ Inv 1 12 m [] :=
    new_inv_of_le (by decide) (by decide) (ne_two_pow (j := 3) (by decide) (by decide)) (by decide) _
  have hrun : (new (fun _ => 0) 1 12 >>= fun m => m.alloc 5).toOption.map (·.1) = some 1 := by
    decide +kernel
  rw [hnew, ok_bind] at hrun
  obtain ⟨⟨ppn, m'⟩, halloc, hppn⟩ := Option.map_eq_some_iff.1 hrun
  cases hppn
  refine ⟨hfive, m, m', i, toOption_eq_some.1 halloc, ?_⟩
  rw [← hfive]
  exact hserves 1 12 m m' [] 1 (by decide) i (toOption_eq_some.1 halloc)

include he h3 hpow hsmall in
theorem Run.inv (hr : Run start end_ m bs) : Inv start end_ m bs := by
  induction hr with
  | init hnew =>
    obtain ⟨m, hm, i⟩ := new_inv_of_le he h3 hpow hsmall _
    rw [hm] at hnew
    cases hnew
    exact i
  | alloc _ ha ih => exact ih.alloc_ok he ha
  | free _ hb hf ih =>
    obtain ⟨m', hm', i⟩ := ih.free he hsmall (List.perm_cons_erase hb)
    rw [hm'] at hf
    cases hf
    exact i

/-- **The allocator is safe on every range of at most `2 ^ 30` pages.** -/
theorem safe_of_range_le (hs : 0 < start) (he : end_ < 2 ^ 64) (h3 : start + 3 ≤ end_)
    (hpow : ∀ k, end_ - start ≠ 2 ^ k) (hsmall : end_ - start ≤ 2 ^ 30) : Safe start end_ := by
  refine ⟨?_, ?_⟩
  · intro garbage
    obtain ⟨m, hm, -⟩ := new_inv_of_le he h3 hpow hsmall garbage
    exact ⟨m, hm⟩
  · intro m bs hr
    have i := hr.inv he h3 hpow hsmall
    refine ⟨fun b hb => i.block hb, ?_, ?_, ?_⟩
    · obtain ⟨-, -, -, -, l, r, -, t⟩ := i
      exact t.disjoint
    · intro n
      rcases i.alloc he n with ⟨herr, -⟩ | ⟨p, m', hok, -, -⟩
      · exact .inr herr
      · exact .inl ⟨_, hok (hs.trans_le (Nat.le_add_right _ _))⟩
    · intro b hb
      obtain ⟨m', hm', -⟩ := i.free he hsmall (List.perm_cons_erase hb)
      exact ⟨m', hm'⟩

end Small

variable {m m' : PageMgr} {n start k v : Nat}

theorem safe_five_pages : Safe 1 6 :=
  safe_of_range_le (by decide) (by decide) (by decide)
    (ne_two_pow (j := 2) (by decide) (by decide)) (by decide)

/-- With `3 * 2 ^ 29` pages the first page handed out has a leaf whose number `free` turns into a
negative index. -/
theorem not_safe_large : (∀ k, 1 + 3 * 2 ^ 29 - 1 ≠ 2 ^ k) ∧ ¬Safe 1 (1 + 3 * 2 ^ 29) := by
  refine ⟨ne_two_pow (j := 30) (by decide) (by decide), ?_⟩
  intro hsafe
  have key : (do
      let m ← new (fun _ => 0) 1 (1 + 3 * 2 ^ 29)
      let (ppn, m) ← m.alloc 1
      let _ ← m.free ppn (log2up 1)
      return ()) = Except.error (.outOfBounds (-1073741825)) := by decide +kernel
  obtain ⟨m, hnew⟩ := hsafe.1 fun _ => 0
  rw [hnew, ok_bind] at key
  have run := Run.init hnew
  rcases (hsafe.2 m [] run).2.2.1 1 with ⟨⟨ppn, m₁⟩, ha⟩ | ha
  · rw [ha, ok_bind] at key
    obtain ⟨m₂, hf⟩ := (hsafe.2 m₁ _ (run.alloc ha)).2.2.2 _ List.mem_cons_self
    dsimp only at key hf
    rw [hf] at key
    cases key
  · rw [ha] at key
    cases key

/-! ## Completeness -/

/-- **`alloc` overlooks no free block on a range of at most `2 ^ 30` pages.** -/
theorem complete_of_range_le {start end_ : Nat} (he : end_ < 2 ^ 64) (h3 : start + 3 ≤ end_)
    (hpow : ∀ k, end_ - start ≠ 2 ^ k) (hsmall : end_ - start ≤ 2 ^ 30) : Complete start end_ := by
  refine ⟨?_, ?_⟩
  · intro m bs n hr ha
    rcases (hr.inv he h3 hpow hsmall).alloc he n with ⟨-, hno⟩ | ⟨p, m', hok, hzero, -⟩
    · exact hno
    rcases Nat.eq_zero_or_pos (start + p) with h0 | hpos
    · rw [hzero h0] at ha
      cases ha
    · rw [hok hpos] at ha
      cases ha
  · rintro garbage m₀ m n hnew hr ⟨⟨ppn, m₁⟩, ha⟩
    have i₀ := (Run.init hnew).inv he h3 hpow hsmall
    obtain ⟨m₁', ha'⟩ := i₀.alloc_congr he (hr.inv he h3 hpow hsmall) ha
    exact ⟨_, ha'⟩

theorem complete_five_pages : Complete 1 6 :=
  complete_of_range_le (by decide) (by decide) (ne_two_pow (j := 2) (by decide) (by decide))
    (by decide)

/-- With `3 * 2 ^ 30` pages `free` writes to a node it did not mean, and the block that the page
came from is not whole again. -/
theorem not_complete_large : (∀ k, 1 + 3 * 2 ^ 30 - 1 ≠ 2 ^ k) ∧ ¬Complete 1 (1 + 3 * 2 ^ 30) := by
  refine ⟨ne_two_pow (j := 31) (by decide) (by decide), ?_⟩
  rintro ⟨-, hagain⟩
  have fresh : (do
      let m ← new (fun _ => 0) 1 (1 + 3 * 2 ^ 30)
      let _ ← m.alloc (2 ^ 31)
      return ()) = Except.ok () := by decide +kernel
  have returned : (do
      let m ← new (fun _ => 0) 1 (1 + 3 * 2 ^ 30)
      let (ppn, m) ← m.alloc 1
      let _ ← m.free ppn (log2up 1)
      return ()) = Except.ok () := by decide +kernel
  have later : (do
      let m ← new (fun _ => 0) 1 (1 + 3 * 2 ^ 30)
      let (ppn, m) ← m.alloc 1
      let m ← m.free ppn (log2up 1)
      let _ ← m.alloc (2 ^ 31)
      return ()) = Except.error outOfPages := by decide +kernel
  obtain ⟨m₀, hnew, returned⟩ := bind_eq_ok returned
  obtain ⟨⟨ppn, m₁⟩, ha, returned⟩ := bind_eq_ok returned
  obtain ⟨m₂, hf, -⟩ := bind_eq_ok returned
  rw [hnew, ok_bind] at fresh later
  obtain ⟨r₀, ha₀, -⟩ := bind_eq_ok fresh
  have run : Run 1 (1 + 3 * 2 ^ 30) m₂ [] := by
    have := ((Run.init hnew).alloc ha).free List.mem_cons_self hf
    rwa [List.erase_cons_head] at this
  obtain ⟨r, hr⟩ := hagain _ m₀ m₂ (2 ^ 31) hnew run ⟨r₀, ha₀⟩
  rw [ha, ok_bind] at later
  dsimp only at later
  rw [hf, ok_bind, hr] at later
  cases later

/-! ## No trace of the past -/

/-- **The outstanding blocks are the state**: two states with the same ones, however reached, serve
the next request with the same block, or both refuse it. -/
def Memoryless (start end_ : Nat) : Prop :=
  ∀ m m' bs bs' n, Run start end_ m bs → Run start end_ m' bs' → bs.Perm bs' →
    (m.alloc n).map Prod.fst = (m'.alloc n).map Prod.fst

theorem Inv.perm {end_ : Nat} {bs bs' : List Block} (i : Inv start end_ m bs) (hp : bs.Perm bs') :
    Inv start end_ m bs' := by
  obtain ⟨sh, hs, he, ho, l, r, hst, t⟩ := i
  exact ⟨sh, hs, he, ho, l, r, hst, t.perm hp⟩

/-- **The allocator keeps no trace of the past** on a range of at most `2 ^ 30` pages. -/
theorem memoryless_of_range_le {end_ : Nat} (hs : 0 < start) (he : end_ < 2 ^ 64)
    (h3 : start + 3 ≤ end_) (hpow : ∀ k, end_ - start ≠ 2 ^ k) (hsmall : end_ - start ≤ 2 ^ 30) :
    Memoryless start end_ := by
  intro m m' bs bs' n hr hr' hp
  have i := (hr.inv he h3 hpow hsmall).perm hp
  have i' := hr'.inv he h3 hpow hsmall
  rcases i.alloc he n with ⟨ha, -⟩ | ⟨p, m1, ha, -⟩
  · rcases i'.alloc he n with ⟨ha', -⟩ | ⟨p, m1, ha', -⟩
    · rw [ha, ha']
    · obtain ⟨m2, hok⟩ := i'.alloc_congr he i (ha' (by omega))
      rw [ha] at hok
      cases hok
  · have ha := ha (by omega)
    obtain ⟨m2, ha'⟩ := i.alloc_congr he i' ha
    rw [ha, ha']
    rfl

theorem memoryless_five_pages : Memoryless 1 6 :=
  memoryless_of_range_le (by decide) (by decide) (by decide)
    (ne_two_pow (j := 2) (by decide) (by decide)) (by decide)

/-! ## The users in the kernel -/

/-- Frames taken with `alloc(n)`: a `VMOContiguous` releases them with `freeUnaligned(ppn,n)`, the
other users with `free(ppn,order)`. -/
inductive Holder where
  | block (ppn n : Nat)
  | contiguous (ppn n : Nat)
  deriving DecidableEq

def Holder.toBlock : Holder → Block
  | block ppn n => ⟨ppn, log2up n⟩
  | contiguous ppn n => ⟨ppn, log2up n⟩

def Holder.release (m : PageMgr) : Holder → Kern PageMgr
  | block ppn n => m.free ppn (log2up n)
  | contiguous ppn n => m.freeUnaligned ppn n

/-- What a user of the allocator may do next. -/
inductive Step (size : Nat → Prop) : PageMgr × List Holder → PageMgr × List Holder → Prop
  | block {m m' : PageMgr} {hs : List Holder} {n ppn : Nat} : m.alloc n = .ok (ppn, m') →
    Step size (m, hs) (m', .block ppn n :: hs)
  | contiguous {m m' : PageMgr} {hs : List Holder} {n ppn : Nat} : n < 2 ^ 64 → size n →
    m.alloc n = .ok (ppn, m') → Step size (m, hs) (m', .contiguous ppn n :: hs)
  | release {m m' : PageMgr} {hs : List Holder} {h : Holder} : h ∈ hs →
    h.release m = .ok m' → Step size (m, hs) (m', hs.erase h)

def freePage (m : PageMgr) (q : Nat) : Bool :=
  m.start ≤ q && q - m.start < 2 ^ m.rootOrder && offered m.buddyNodes m.rootOrder 0 (q - m.start)

/-- **Conservation of frames.** From every reachable state, what is held can be released, and once
the frames of the start are held again, the same pages are free. -/
def Conserves (size : Nat → Prop) (start end_ : Nat) : Prop :=
  ∀ garbage m0, new garbage start end_ = .ok m0 →
    ∀ m hs, Relation.ReflTransGen (Step size) (m0, []) (m, hs) →
      (∀ h ∈ hs, ∃ m', h.release m = .ok m') ∧
      ∀ m' hs', Relation.ReflTransGen (Step size) (m, hs) (m', hs') → hs'.Perm hs →
        ∀ q, m'.freePage q = m.freePage q

theorem Inv.freePage_iff {end_ : Nat} (i : Inv start end_ m bs) (q : Nat) :
    m.freePage q = true ↔ start ≤ q ∧ q < end_ ∧ ∀ b ∈ bs, q ∉ b := by
  obtain ⟨-, rfl, rfl, -, l, r, hst, t⟩ := i
  have hshort := t.short
  simp only [freePage, Bool.and_eq_true, decide_eq_true_eq]
  constructor
  · rintro ⟨⟨h1, h2⟩, h3⟩
    have := (t.isFree _ h2).1 ((hst.offered_iff h2).1 h3)
    rw [Nat.add_sub_cancel' h1] at this
    exact ⟨h1, this⟩
  · rintro ⟨h1, h2, h3⟩
    have hq : q - m.start < 2 ^ m.rootOrder := by omega
    refine ⟨⟨h1, hq⟩, (hst.offered_iff hq).2 ((t.isFree _ hq).2 ?_)⟩
    rw [Nat.add_sub_cancel' h1]
    exact ⟨h2, h3⟩

/-- `freeUnaligned` of a power of two is one `free`. -/
theorem freeUnalignedLoop_two_pow : ∀ (i : Nat) (m : PageMgr) (ppn : Nat),
    freeUnalignedLoop (2 ^ k) i m ppn = if k < i then m.free ppn k else .ok m := by
  intro i
  induction i with
  | zero =>
    intro m ppn
    rfl
  | succ i ih =>
    intro m ppn
    have hbit : (2 ^ k >>> i) &&& 1 = if k = i then 1 else 0 := by
      rw [Nat.and_one_is_mod, Nat.shiftRight_eq_div_pow, ← Nat.toNat_testBit, Nat.testBit_two_pow]
      by_cases hki : k = i <;> simp [hki]
    unfold freeUnalignedLoop
    rw [hbit]
    rcases Nat.lt_trichotomy k i with hlt | rfl | hgt
    · rw [if_neg (Nat.ne_of_lt hlt), if_neg (by simp), ih, if_pos hlt, if_pos (by omega)]
    · simp only [ih, Nat.lt_irrefl, if_true, if_false, Nat.lt_succ_self, ne_eq, Nat.one_ne_zero,
        not_false_iff]
      exact bind_pure _
    · rw [if_neg (Nat.ne_of_gt hgt), if_neg (by simp), ih, if_neg (by omega), if_neg (by omega)]

/-! ### Ranges that offer nothing

The root of the tree is computed as the larger of its halves, so a range of `2 ^ k` pages, whose
one block is the root, offers no page at all; nor does an empty one. -/

theorem get_eq_ok {i : Int} (h : m.get i = .ok v) :
    (0 ≤ i ∧ i < m.buddyTreeSize) ∧ v = m.buddyNodes i.toNat := by
  unfold get at h
  split at h
  · rename_i hi
    cases h
    exact ⟨hi, rfl⟩
  · cases h

theorem set_eq_ok {i : Int} (h : m.set i v = .ok m') :
    m' = m.withNodes (Function.update m.buddyNodes i.toNat (v % 2 ^ 8)) := by
  unfold set at h
  split at h
  · cases h
    rfl
  · cases h

theorem assert_eq_ok {cond : Bool} {s : String} {u : Unit} (h : assert_ cond s = .ok u) :
    cond = true := by
  cases cond with
  | false => cases h
  | true => rfl

theorem alloc_of_root_zero (h0 : m.buddyNodes 0 = 0) : m.alloc n ≠ .ok (ppn, m') := by
  intro h
  obtain ⟨root, hget, h⟩ := bind_eq_ok h
  rw [(get_eq_ok hget).2, Int.toNat_zero, h0, if_pos (Nat.succ_pos _)] at h
  cases h

theorem pos2nodeLoop_self (pos order nd : Nat) : pos2nodeLoop pos order order nd = nd := by
  cases order with
  | zero => rfl
  | succ o => rw [pos2nodeLoop, if_neg (Nat.not_succ_le_self o)]

/-- Freeing the whole tree leaves the larger of its halves in the root. -/
theorem free_root (hz : ∀ i, 1 ≤ i → i < m.buddyTreeSize → m.buddyNodes i = 0)
    (h : m.free m.start m.rootOrder = .ok m') : m'.buddyNodes 0 = 0 := by
  have hidx : toInt (m.pos2node (xlen ((m.start : Int) - m.start)) m.rootOrder) = 0 := by
    rw [pos2node, pos2nodeLoop_self]
    rfl
  have hprnt : toInt (prnt (xlen 0)) = -1 := by decide
  unfold free at h
  simp only [hidx, hprnt] at h
  obtain ⟨v, -, h⟩ := bind_eq_ok h
  obtain ⟨-, -, h⟩ := bind_eq_ok h
  obtain ⟨m1, hset, h⟩ := bind_eq_ok h
  obtain ⟨m2, hup, h⟩ := bind_eq_ok h
  obtain ⟨l, hl, h⟩ := bind_eq_ok h
  obtain ⟨r, hr, h⟩ := bind_eq_ok h
  have hm1 := set_eq_ok hset
  cases hup
  have hone : lsub 0 = 1 := by decide
  have htwo : rsub 0 = 2 := by decide
  rw [hone] at hl
  rw [htwo] at hr
  obtain ⟨hl1, hl2⟩ := get_eq_ok hl
  obtain ⟨hr1, hr2⟩ := get_eq_ok hr
  subst hm1
  rw [withNodes_size] at hl1 hr1
  have hl0 : l = 0 := by
    simp [hl2, hz 1 (by omega) (by omega)]
  have hr0 : r = 0 := by
    simp [hr2, hz 2 (by omega) (by omega)]
  rw [set_eq_ok h, hl0, hr0, withNodes_nodes]
  exact Function.update_self 0 _ _

variable {garbage : Nat → Nat}

theorem new_two_pow (he : start + 2 ^ k < 2 ^ 64) (h : new garbage start (start + 2 ^ k) = .ok m) :
    m.buddyNodes 0 = 0 := by
  have hpages := xlen_add_sub he
  have hk : k < 64 := (Nat.pow_lt_pow_iff_right (a := 2) (by omega)).1 (by omega)
  simp only [new, hpages, Klib.log2up_two_pow hk, freeUnaligned,
    freeUnalignedLoop_two_pow, Nat.lt_succ_self, if_true] at h
  refine free_root ?_ h
  intro i h1 h2
  exact if_pos ⟨h1, h2⟩

/-- A step of the search takes the node, splits it or goes on below it. -/
theorem allocStep_cases {rounded size nd node nd' node' : Nat}
    (h : allocStep rounded size m nd node = .ok (m', nd', node')) :
    (m' = m ∧ nd' = nd ∧ node' = nd ∧ m.buddyNodes nd = size ∧ size = rounded) ∨
      (m.buddyNodes nd = size ∧ size ≠ rounded ∧ nd' = lsub nd ∧ node' = node ∧
        ∃ m1, m.set (rsub nd) (size - 1) = .ok m1 ∧ m1.set (lsub nd) (size - 1) = .ok m') ∨
      m' = m ∧ (nd' = lsub nd ∨ nd' = rsub nd) ∧ node' = node := by
  obtain ⟨v, hv, h⟩ := bind_eq_ok h
  obtain rfl : v = m.buddyNodes nd := (get_eq_ok hv).2
  split at h
  · rename_i hv
    cases h
    exact .inl ⟨rfl, rfl, rfl, hv.1, hv.1 ▸ hv.2⟩
  rename_i hne
  refine .inr ?_
  split at h
  · rename_i hv
    obtain ⟨m1, h1, h⟩ := bind_eq_ok h
    obtain ⟨m2, h2, h⟩ := bind_eq_ok h
    cases h
    exact .inl ⟨hv, fun h => hne ⟨hv, hv.trans h⟩, rfl, rfl, m1, h1, h2⟩
  · obtain ⟨l, -, h⟩ := bind_eq_ok h
    obtain ⟨r, -, h⟩ := bind_eq_ok h
    refine .inr ?_
    split at h <;> cases h <;> exact ⟨rfl, ite_eq_or_eq .., rfl⟩

theorem new_empty (h : new garbage start start = .ok m) : m.alloc n ≠ .ok (ppn, m') := by
  intro ha
  have hpages : xlen ((start : Int) - start) = 0 := by
    rw [sub_self]
    rfl
  have horder : m.rootOrder = 0 := by
    simp only [new, hpages, freeUnaligned] at h
    cases h
    rfl
  obtain ⟨root, -, ha⟩ := bind_eq_ok ha
  split at ha
  · cases ha
  obtain ⟨⟨m1, node⟩, hfind, ha⟩ := bind_eq_ok ha
  obtain ⟨_, hassert, -⟩ := bind_eq_ok ha
  -- the one node there is has number 0, which the assertion after the search refuses
  have hnode : node = 0 := by
    rw [horder] at hfind
    unfold allocFind at hfind
    split at hfind
    · obtain ⟨⟨m2, nd, node'⟩, hstep, hfind⟩ := bind_eq_ok hfind
      cases hfind
      obtain ⟨-, -, h, -⟩ | ⟨-, -, -, h, -⟩ | ⟨-, -, h⟩ := allocStep_cases hstep <;> exact h
    · cases hfind
      rfl
  rw [hnode] at hassert
  cases assert_eq_ok hassert

/-! ### Conservation -/

section Conserve

variable {start end_ : Nat} (he : end_ < 2 ^ 64) (hsmall : end_ - start ≤ 2 ^ 30)

include he hsmall in
theorem Inv.release {hs : List Holder} (i : Inv start end_ m (hs.map Holder.toBlock))
    (hsize : ∀ ppn n, .contiguous ppn n ∈ hs → n < 2 ^ 64 ∧ ∃ k, n = 2 ^ k) {h : Holder}
    (hh : h ∈ hs) :
    ∃ m', h.release m = .ok m' ∧ Inv start end_ m' ((hs.erase h).map Holder.toBlock) := by
  have hperm := (List.perm_cons_erase hh).map Holder.toBlock
  obtain ⟨m', hfree, i'⟩ := i.free he hsmall hperm
  refine ⟨m', ?_, i'⟩
  cases h with
  | block ppn n => exact hfree
  | contiguous ppn n =>
    obtain ⟨hlt, k, rfl⟩ := hsize ppn n hh
    have hk : log2up (2 ^ k) = k :=
      Klib.log2up_two_pow ((Nat.pow_lt_pow_iff_right (by omega)).1 hlt)
    obtain ⟨h1, h2, -⟩ := i.block (List.mem_map_of_mem hh)
    obtain ⟨-, rfl, rfl, -, l, r, -, t⟩ := i
    have hshort := t.short
    simp only [Holder.toBlock, hk] at hfree h1 h2
    have hkR : k < m.rootOrder + 1 := by
      have : 2 ^ k < 2 ^ m.rootOrder := by omega
      have := (Nat.pow_lt_pow_iff_right (a := 2) (by omega)).1 this
      omega
    simp only [Holder.release, freeUnaligned, freeUnalignedLoop_two_pow, hkR, if_true, hfree]

/-- The invariant, with the sizes that the users hold. -/
structure Held (start end_ : Nat) (s : PageMgr × List Holder) : Prop where
  inv : Inv start end_ s.1 (s.2.map Holder.toBlock)
  size : ∀ ppn n, .contiguous ppn n ∈ s.2 → n < 2 ^ 64 ∧ ∃ k, n = 2 ^ k

include he hsmall in
theorem Held.step {s s' : PageMgr × List Holder} (i : Held start end_ s)
    (h : Step (fun n => ∃ k, n = 2 ^ k) s s') : Held start end_ s' := by
  cases h with
  | block ha =>
    refine ⟨i.inv.alloc_ok he ha, ?_⟩
    intro ppn n hm
    exact i.size ppn n (by simpa using hm)
  | contiguous hn hk ha =>
    refine ⟨i.inv.alloc_ok he ha, ?_⟩
    intro ppn n hm
    rcases List.mem_cons.1 hm with heq | hm
    · cases heq
      exact ⟨hn, hk⟩
    · exact i.size ppn n hm
  | release hh hr =>
    obtain ⟨m', hm', i'⟩ := i.inv.release he hsmall i.size hh
    rw [hm'] at hr
    cases hr
    exact ⟨i', fun ppn n hm => i.size ppn n (List.mem_of_mem_erase hm)⟩

include he hsmall in
theorem Held.steps {s s' : PageMgr × List Holder} (i : Held start end_ s)
    (h : Relation.ReflTransGen (Step (fun n => ∃ k, n = 2 ^ k)) s s') : Held start end_ s' := by
  induction h with
  | refl => exact i
  | tail _ hstep ih => exact ih.step he hsmall hstep

/-- An allocator that serves nothing stays as it is. -/
theorem steps_of_alloc_ne {size : Nat → Prop}
    (hno : ∀ n ppn m', m.alloc n ≠ .ok (ppn, m')) {s : PageMgr × List Holder}
    (h : Relation.ReflTransGen (Step size) (m, []) s) : s = (m, []) := by
  induction h with
  | refl => rfl
  | tail _ hstep ih =>
    subst ih
    cases hstep with
    | block ha => exact absurd ha (hno _ _ _)
    | contiguous _ _ ha => exact absurd ha (hno _ _ _)
    | release hh _ => cases hh

end Conserve

/-- **Users whose sizes are powers of two give back what they took**, on every range of at most
`2 ^ 30` pages. -/
theorem conserves_of_two_pow {start end_ : Nat} (hle : start ≤ end_) (he : end_ < 2 ^ 64)
    (hsmall : end_ - start ≤ 2 ^ 30) : Conserves (fun n => ∃ k, n = 2 ^ k) start end_ := by
  intro garbage m₀ hnew m hs hrun
  by_cases hserves : start + 3 ≤ end_ ∧ ∀ k, end_ - start ≠ 2 ^ k
  · obtain ⟨h3, hpow⟩ := hserves
    have i₀ : Held start end_ (m₀, []) := ⟨(Run.init hnew).inv he h3 hpow hsmall, by simp⟩
    have i := i₀.steps he hsmall hrun
    refine ⟨?_, ?_⟩
    · intro h hh
      obtain ⟨m', hm', -⟩ := i.inv.release he hsmall i.size hh
      exact ⟨m', hm'⟩
    · intro m' hs' hrun' hperm q
      have i' := i.steps he hsmall hrun'
      rw [Bool.eq_iff_iff, i'.inv.freePage_iff, i.inv.freePage_iff]
      simp only [(hperm.map Holder.toBlock).mem_iff]
  · have hno : ∀ n ppn m', m₀.alloc n ≠ .ok (ppn, m') := by
      obtain ⟨n, rfl⟩ := Nat.exists_eq_add_of_le hle
      rw [Nat.add_sub_cancel_left] at hserves hsmall
      rcases Nat.eq_zero_or_pos n with rfl | hpos
      · intro n ppn m'
        exact new_empty hnew
      obtain ⟨k, rfl⟩ : ∃ k, n = 2 ^ k := by
        by_contra hk
        rw [not_exists] at hk
        have h1 := hk 0
        have h2 := hk 1
        exact hserves ⟨by omega, hk⟩
      intro n ppn m'
      exact alloc_of_root_zero (new_two_pow he hnew)
    cases steps_of_alloc_ne hno hrun
    refine ⟨by simp, ?_⟩
    intro m' hs' hrun' _ q
    cases steps_of_alloc_ne hno hrun'
    rfl

theorem conserves_five_pages : Conserves (fun n => ∃ k, n = 2 ^ k) 1 6 :=
  conserves_of_two_pow (by decide) (by decide) (by decide)

/-- `alloc(3)` takes pages 1 to 4 and `freeUnaligned(1,3)` gives back 1 to 3. -/
theorem not_conserves_three : ¬Conserves (fun n => 1 ≤ n) 1 6 := by
  intro h
  have key : (do
      let m₀ ← new (fun _ => 0) 1 6
      let (ppn, m₁) ← m₀.alloc 3
      let m₂ ← m₁.freeUnaligned ppn 3
      return (m₀.freePage 4, m₂.freePage 4)) = Except.ok (true, false) := by decide +kernel
  obtain ⟨m₀, hnew, key⟩ := bind_eq_ok key
  obtain ⟨⟨ppn, m₁⟩, ha, key⟩ := bind_eq_ok key
  obtain ⟨m₂, hf, key⟩ := bind_eq_ok key
  have take : Step (fun n => 1 ≤ n) (m₀, []) (m₁, [.contiguous ppn 3]) :=
    .contiguous (by decide) (by decide) ha
  have give : Step (fun n => 1 ≤ n) (m₁, [.contiguous ppn 3]) (m₂, []) := by
    have hrel : Step (fun n => 1 ≤ n) (m₁, [.contiguous ppn 3])
        (m₂, [Holder.contiguous ppn 3].erase (.contiguous ppn 3)) :=
      .release (List.mem_singleton_self _) hf
    rwa [List.erase_cons_head] at hrel
  have same := (h _ m₀ hnew m₀ [] .refl).2 m₂ [] (.tail (.single take) give) (.refl _) 4
  obtain ⟨h0, h2⟩ := Prod.mk.inj (Except.ok.inj key)
  rw [h0, h2] at same
  cases same

end LuoOS.Alloc.PageMgr
