import LuoOS.Alloc.Refine
import Mathlib.Data.List.Pairwise

/-!
# The invariant of the page allocator

The array stores a buddy tree whose free pages are those of `[start, end)` outside of the
outstanding blocks, which are used leaves of it (`Tracks`). The constructor establishes this;
`alloc` and `free` keep it.
-/

namespace LuoOS.Alloc

open BuddyTree
open Klib (log2up)

/-! ## Outstanding blocks -/

/-- A block of `2 ^ order` frames from `ppn` on. -/
structure Block where
  ppn : Nat
  order : Nat
  deriving DecidableEq

instance : Membership Nat Block := ⟨fun b q => b.ppn ≤ q ∧ q < b.ppn + 2 ^ b.order⟩

variable {b : Block}

theorem Block.mem_iff {q : Nat} : q ∈ b ↔ b.ppn ≤ q ∧ q < b.ppn + 2 ^ b.order := Iff.rfl

theorem Block.mem_mk {p k q : Nat} : q ∈ (⟨p, k⟩ : Block) ↔ p ≤ q ∧ q < p + 2 ^ k := Iff.rfl

theorem Block.ppn_mem (b : Block) : b.ppn ∈ b :=
  ⟨le_rfl, Nat.lt_add_of_pos_right (Nat.two_pow_pos _)⟩

def Block.Disjoint (b c : Block) : Prop := ∀ q, q ∈ b → q ∉ c

theorem Block.Disjoint.symm {c : Block} (h : b.Disjoint c) : c.Disjoint b :=
  fun q hc hb => h q hb hc

/-! ## Trees that track the outstanding blocks -/

/-- The free pages of the tree are those in no block of `bs`, which are used leaves. -/
structure Tracks (start end_ R : Nat) (l r : BuddyTree) (bs : List Block) : Prop where
  short : end_ < start + 2 ^ R
  merged : Merged (node l r)
  isFree : ∀ q, q < 2 ^ R →
    (IsFree R (node l r) q ↔ start + q < end_ ∧ ∀ b ∈ bs, start + q ∉ b)
  usedAt : ∀ b ∈ bs, ∃ p, p < 2 ^ R ∧ b.ppn = start + p ∧ UsedAt b.order R (node l r) p
  inside : ∀ b ∈ bs, b.ppn + 2 ^ b.order ≤ end_
  disjoint : bs.Pairwise Block.Disjoint

section Tracks

variable {start end_ R p : Nat} {l r l' r' : BuddyTree} {bs bs' : List Block}

theorem Tracks.perm (t : Tracks start end_ R l r bs) (h : bs.Perm bs') :
    Tracks start end_ R l r bs' where
  short := t.short
  merged := t.merged
  isFree := by
    intro q hq
    rw [t.isFree q hq]
    simp only [h.mem_iff]
  usedAt := fun b hb => t.usedAt b (h.mem_iff.2 hb)
  inside := fun b hb => t.inside b (h.mem_iff.2 hb)
  disjoint := h.pairwise t.disjoint fun h => h.symm

theorem Tracks.alloc {k : Nat} (t : Tracks start end_ R l r bs)
    (a : BuddyTree.Alloc k R (node l r) p (node l' r')) :
    Tracks start end_ R l' r' (⟨start + p, k⟩ :: bs) := by
  have hk := Nat.two_pow_pos k
  have hfree : ∀ q, start + q ∈ (⟨start + p, k⟩ : Block) →
      start + q < end_ ∧ ∀ b ∈ bs, start + q ∉ b := by
    intro q hq
    obtain ⟨h1, h2⟩ := Block.mem_mk.1 hq
    refine (t.isFree q ?_).1 (a.wasFree q (by omega) (by omega))
    have := a.inside
    omega
  refine ⟨t.short, a.merged t.merged, ?_, ?_, ?_, ?_⟩
  · intro q hq
    rw [a.isFree q hq, t.isFree q hq]
    simp only [List.forall_mem_cons, Block.mem_mk]
    constructor
    · rintro ⟨⟨h1, h2⟩, h3⟩
      exact ⟨h1, by omega, h2⟩
    · rintro ⟨h1, h2, h3⟩
      exact ⟨⟨h1, h3⟩, by omega⟩
  · intro b hb
    rcases List.mem_cons.1 hb with rfl | hb
    · exact ⟨p, by have := a.inside; omega, rfl, a.usedAt⟩
    · obtain ⟨p', hp', hb', hu⟩ := t.usedAt b hb
      exact ⟨p', hp', hb', a.keepsUsed _ _ hu⟩
  · intro b hb
    rcases List.mem_cons.1 hb with rfl | hb
    · have := (hfree (p + 2 ^ k - 1) (Block.mem_mk.2 (by omega))).1
      simp only
      omega
    · exact t.inside b hb
  · refine List.pairwise_cons.2 ⟨?_, t.disjoint⟩
    intro b hb q hq
    obtain ⟨d, rfl⟩ := Nat.exists_eq_add_of_le ((Nat.le_add_right start p).trans hq.1)
    exact (hfree d hq).2 b hb

theorem Tracks.free (t : Tracks start end_ R l r (b :: bs))
    (hp : b.ppn = start + p) (a : Release b.order R p (node l r) (node l' r'))
    (hm : Merged l' ∧ Merged r') : Tracks start end_ R l' r' bs := by
  have hdis := List.pairwise_cons.1 t.disjoint
  have hfree : ∀ q, q < 2 ^ R →
      (IsFree R (node l' r') q ↔ start + q < end_ ∧ ∀ c ∈ bs, start + q ∉ c) := by
    intro q hq
    rw [a.isFree q hq, t.isFree q hq]
    have hin : start + q ∈ b ↔ p ≤ q ∧ q < p + 2 ^ b.order := by
      rw [Block.mem_iff, hp]
      omega
    rw [← hin, List.forall_mem_cons]
    constructor
    · rintro (⟨h1, h2, h3⟩ | hb)
      · exact ⟨h1, h3⟩
      · refine ⟨?_, fun c hc => hdis.1 c hc _ hb⟩
        exact hb.2.trans_le (t.inside b List.mem_cons_self)
    · rintro ⟨h1, h2⟩
      by_cases hb : start + q ∈ b
      · exact .inr hb
      · exact .inl ⟨h1, hb, h2⟩
  refine ⟨t.short, merged_node a.fits hm.1 hm.2 ?_, hfree, ?_,
    fun c hc => t.inside c (List.mem_cons_of_mem b hc), hdis.2⟩
  · -- the last page of the tree is outside of the range
    intro hlast
    have hpos := Nat.two_pow_pos R
    have hin := ((hfree _ (Nat.sub_lt hpos Nat.one_pos)).1 hlast).1
    have := t.short
    omega
  · intro c hc
    obtain ⟨p', hp', hc', hu⟩ := t.usedAt c (List.mem_cons_of_mem b hc)
    refine ⟨p', hp', hc', a.keepsUsed _ _ hu ?_⟩
    rintro rfl
    have hcb : c.ppn ∈ b := hc'.trans hp.symm ▸ b.ppn_mem
    exact hdis.1 c hc c.ppn hcb c.ppn_mem

end Tracks

/-! ## The constructor -/

namespace PageMgr

/-- The tree after the blocks of the digits of `n` above `i` are freed: the first
`n / 2 ^ i * 2 ^ i` pages are free. -/
structure Filled (n i R : Nat) (l r : BuddyTree) : Prop where
  merged : Merged l ∧ Merged r
  isFree : ∀ q, q < 2 ^ R → (IsFree R (node l r) q ↔ q < n / 2 ^ i * 2 ^ i)
  usedAt : ∀ j, j < i → n / 2 ^ j % 2 = 1 →
    UsedAt j R (node l r) (n / 2 ^ (j + 1) * 2 ^ (j + 1))

/-- The digit `i` of `n` adds its block to the part above it. -/
theorem digit_add (n i : Nat) :
    n / 2 ^ i * 2 ^ i = n / 2 ^ (i + 1) * 2 ^ (i + 1) + n / 2 ^ i % 2 * 2 ^ i := by
  have hdiv : n / 2 ^ (i + 1) = n / 2 ^ i / 2 := by rw [Nat.div_div_eq_div_mul, Nat.pow_succ]
  have hsplit := Nat.div_add_mod (n / 2 ^ i) 2
  calc n / 2 ^ i * 2 ^ i = (2 * (n / 2 ^ i / 2) + n / 2 ^ i % 2) * 2 ^ i := by rw [hsplit]
    _ = n / 2 ^ i / 2 * 2 ^ (i + 1) + n / 2 ^ i % 2 * 2 ^ i := by rw [Nat.pow_succ]; ring
    _ = _ := by rw [hdiv]

/-- The block of a digit that is set is freed, and the next one begins behind it. -/
theorem freeUnalignedLoop_digit {m : PageMgr} {start n i : Nat} (hbit : n / 2 ^ i % 2 = 1)
    (he : start + n < 2 ^ 64) :
    freeUnalignedLoop n (i + 1) m (start + n / 2 ^ (i + 1) * 2 ^ (i + 1)) =
      (m.free (start + n / 2 ^ (i + 1) * 2 ^ (i + 1)) i >>= fun m =>
        freeUnalignedLoop n i m (start + n / 2 ^ i * 2 ^ i)) := by
  have hadd := digit_add n i
  rw [hbit, Nat.one_mul] at hadd
  have hle : n / 2 ^ i * 2 ^ i ≤ n := Nat.div_mul_le_self _ _
  have hppn : ((start + n / 2 ^ (i + 1) * 2 ^ (i + 1) : Nat) + 2 ^ i : Int) =
      (start + n / 2 ^ i * 2 ^ i : Nat) := by
    rw [hadd]
    push_cast
    ring
  rw [freeUnalignedLoop, Nat.and_one_is_mod, Nat.shiftRight_eq_div_pow, hbit,
    if_pos Nat.one_ne_zero, hppn, xlen_of_lt (by omega)]

theorem freeUnalignedLoop_skip {m : PageMgr} {start n i : Nat} (hbit : ¬n / 2 ^ i % 2 = 1) :
    freeUnalignedLoop n (i + 1) m (start + n / 2 ^ (i + 1) * 2 ^ (i + 1)) =
      freeUnalignedLoop n i m (start + n / 2 ^ i * 2 ^ i) := by
  rw [freeUnalignedLoop, Nat.and_one_is_mod, Nat.shiftRight_eq_div_pow, if_neg (by omega),
    digit_add n i, Nat.mod_two_ne_one.1 hbit, Nat.zero_mul]
  rfl

/-- The number of the block that the digit `i` of `n` stands for, among those of its order, added to
the number of the first node of that order. -/
def digitNode (n i : Nat) : Nat := pos2nodeLoop (n / 2 ^ (i + 1) * 2 ^ (i + 1)) i (log2up n) 0

/-- The `int` in which `free` keeps a node has room for those of all the digits. -/
def FitsInt (n : Nat) : Prop := ∀ i, n / 2 ^ i % 2 = 1 → digitNode n i < 2 ^ 31

theorem two_pow_le_of_digit {n i : Nat} (h : n / 2 ^ i % 2 = 1) : 2 ^ i ≤ n := by
  by_contra hlt
  rw [Nat.div_eq_of_lt (Nat.lt_of_not_le hlt)] at h
  cases h

theorem digitNode_eq {n i R : Nat} (hR : log2up n = R) (hle : R ≤ 63) (hn : n < 2 ^ R)
    (hi : n / 2 ^ i % 2 = 1) : i < R ∧ n / 2 ^ (i + 1) * 2 ^ (i + 1) / 2 ^ i < 2 ^ (R - i) ∧
      digitNode n i + 1 = 2 ^ (R - i) + n / 2 ^ (i + 1) * 2 ^ (i + 1) / 2 ^ i := by
  have hiR : i < R := (Nat.pow_lt_pow_iff_right (by omega)).1 ((two_pow_le_of_digit hi).trans_lt hn)
  have hlt : n / 2 ^ (i + 1) * 2 ^ (i + 1) / 2 ^ i < 2 ^ (R - i) := by
    rw [Nat.div_lt_iff_lt_mul (Nat.two_pow_pos i), ← Nat.pow_add, Nat.sub_add_cancel (by omega)]
    exact (Nat.div_mul_le_self _ _).trans_lt hn
  have hpow : 2 ^ R ≤ 2 ^ 63 := Nat.pow_le_pow_right (by omega) hle
  have hloop := pos2nodeLoop_eq (n / 2 ^ (i + 1) * 2 ^ (i + 1)) i R 0 (by omega) (by omega)
  rw [Nat.mod_eq_of_lt hlt, Nat.zero_add, Nat.one_mul] at hloop
  exact ⟨hiR, hlt, hR ▸ hloop⟩

theorem Filled.step {m : PageMgr} (sh : Shape m) {S n i : Nat} (hS : m.rootOrder = S + 1)
    {l r : BuddyTree} (hl : Stored m.buddyNodes S 1 l) (hr : Stored m.buddyNodes S 2 r)
    (F : Filled n (i + 1) (S + 1) l r) (hn : n < 2 ^ (S + 1)) (hstart : m.start + n < 2 ^ 64)
    (hbit : n / 2 ^ i % 2 = 1)
    (hint : 2 ^ (S + 1 - i) + n / 2 ^ (i + 1) * 2 ^ (i + 1) / 2 ^ i ≤ 2 ^ 31) :
    ∃ m' l' r', freeUnalignedLoop n (i + 1) m (m.start + n / 2 ^ (i + 1) * 2 ^ (i + 1)) =
      freeUnalignedLoop n i m' (m'.start + n / 2 ^ i * 2 ^ i) ∧ Shape m' ∧ SameRange m m' ∧
      Stored m'.buddyNodes m.rootOrder 0 (node l' r') ∧ Filled n i (S + 1) l' r' := by
  have hadd := digit_add n i
  rw [hbit, Nat.one_mul] at hadd
  have hle' : n / 2 ^ i * 2 ^ i ≤ n := Nat.div_mul_le_self _ _
  have hle : n / 2 ^ (i + 1) * 2 ^ (i + 1) ≤ n := Nat.div_mul_le_self _ _
  obtain ⟨l', r', m', hfree, sh', same, hst, a, hml, hmr⟩ :=
    free_stored sh hS hl hr (by omega) (F.usedAt i (by omega) hbit) (by omega) (hS ▸ hint)
  refine ⟨m', l', r', ?_, sh', same, hst, ⟨hml F.merged.1, hmr F.merged.2⟩, ?_, ?_⟩
  · rw [freeUnalignedLoop_digit hbit hstart, hfree, ok_bind, same.1]
  · intro q hq
    rw [a.isFree q hq, F.isFree q hq, hadd]
    have := Nat.two_pow_pos i
    omega
  · intro j hj hb
    refine a.keepsUsed _ _ (F.usedAt j (by omega) hb) ?_
    -- the block of the digit `i` comes before that of the digit `j`
    have hlt : n / 2 ^ (i + 1) * 2 ^ (i + 1) < n / 2 ^ i * 2 ^ i := by
      rw [hadd]
      exact Nat.lt_add_of_pos_right (Nat.two_pow_pos i)
    have hji : n / 2 ^ i * 2 ^ i ≤ n / 2 ^ (j + 1) * 2 ^ (j + 1) := by
      have hpow : 2 ^ i = 2 ^ (i - (j + 1)) * 2 ^ (j + 1) := by
        rw [← Nat.pow_add, Nat.sub_add_cancel (by omega)]
      have hni : n / 2 ^ i * 2 ^ i ≤ n := Nat.div_mul_le_self _ _
      rw [hpow, ← Nat.mul_assoc, ← hpow] at hni ⊢
      exact Nat.mul_le_mul_right _ ((Nat.le_div_iff_mul_le (Nat.two_pow_pos _)).2 hni)
    omega

theorem freeUnalignedLoop_filled {S n : Nat} (hn : n < 2 ^ (S + 1))
    (hint : ∀ i, n / 2 ^ i % 2 = 1 →
      2 ^ (S + 1 - i) + n / 2 ^ (i + 1) * 2 ^ (i + 1) / 2 ^ i ≤ 2 ^ 31) : ∀ (i : Nat) {m : PageMgr}
    {l r : BuddyTree}, Shape m → m.rootOrder = S + 1 → m.start + n < 2 ^ 64 →
    Stored m.buddyNodes m.rootOrder 0 (node l r) → Filled n i (S + 1) l r →
    ∃ m' l' r', freeUnalignedLoop n i m (m.start + n / 2 ^ i * 2 ^ i) = .ok m' ∧ Shape m' ∧
      SameRange m m' ∧ Stored m'.buddyNodes m.rootOrder 0 (node l' r') ∧
      Filled n 0 (S + 1) l' r' := by
  intro i
  induction i with
  | zero =>
    intro m l r sh hS _ hst F
    exact ⟨m, l, r, rfl, sh, ⟨rfl, rfl, rfl⟩, hst, F⟩
  | succ i ih =>
    intro m l r sh hS hstart hst F
    by_cases hbit : n / 2 ^ i % 2 = 1
    · have hst0 := hst
      rw [hS] at hst0
      obtain ⟨m1, l1, r1, hstep, sh1, ⟨hs, he, ho⟩, hst1, F1⟩ :=
        F.step sh hS hst0.2.1 hst0.2.2 hn hstart hbit (hint i hbit)
      rw [← ho] at hst1
      obtain ⟨m', l', r', hloop, sh', ⟨hs', he', ho'⟩, hst', F'⟩ :=
        ih sh1 (ho.trans hS) (hs ▸ hstart) hst1 F1
      refine ⟨m', l', r', hstep.trans hloop, sh', ⟨hs'.trans hs, he'.trans he, ho'.trans ho⟩, ?_,
        F'⟩
      rw [← ho]
      exact hst'
    · have hskip : n / 2 ^ i * 2 ^ i = n / 2 ^ (i + 1) * 2 ^ (i + 1) := by
        rw [digit_add n i, Nat.mod_two_ne_one.1 hbit]
        omega
      rw [freeUnalignedLoop_skip hbit]
      refine ih sh hS hstart hst ⟨F.merged, ?_, fun j hj => F.usedAt j (by omega)⟩
      rw [hskip]
      exact F.isFree

/-- The allocator stores a tree that tracks the outstanding blocks `bs`. -/
structure Inv (start end_ : Nat) (m : PageMgr) (bs : List Block) : Prop where
  shape : Shape m
  start_eq : m.start = start
  end_eq : m.end_ = end_
  order_eq : m.rootOrder = log2up (end_ - start)
  tree : ∃ l r, Stored m.buddyNodes m.rootOrder 0 (node l r) ∧
    Tracks start end_ m.rootOrder l r bs

/-- The order of the root for `n` pages, when `n` is no power of two. -/
theorem log2up_eq_succ {n : Nat} (h3 : 3 ≤ n) (hpow : ∀ k, n ≠ 2 ^ k) (hbig : n < 2 ^ 63) :
    ∃ S, log2up n = S + 1 ∧ S < 63 ∧ n < 2 ^ (S + 1) ∧ 2 ^ S < n := by
  have hn64 : n < 2 ^ 64 := by omega
  have hle : log2up n ≤ 63 := (Klib.log2up_le_iff hn64).2 hbig.le
  have hgt : ¬log2up n ≤ 1 := by
    rw [Klib.log2up_le_iff hn64]
    omega
  obtain ⟨S, hS⟩ : ∃ S, log2up n = S + 1 := ⟨log2up n - 1, by omega⟩
  have hbound := Klib.le_two_pow_log2up hn64
  rw [hS] at hbound
  exact ⟨S, hS, by omega, Nat.lt_of_le_of_ne hbound (hpow _),
    Klib.two_pow_lt_of_lt_log2up hn64 (by omega)⟩

/-- Node numbers of ranges of at most `2 ^ 30` pages are below `2 ^ 31`. -/
theorem fitsInt_of_le {n : Nat} (h3 : 3 ≤ n) (hpow : ∀ k, n ≠ 2 ^ k) (hsmall : n ≤ 2 ^ 30) :
    FitsInt n := by
  intro i hi
  obtain ⟨S, hS, hS63, hlt, -⟩ := log2up_eq_succ h3 hpow (by omega)
  have hS30 : S + 1 ≤ 30 := hS ▸ (Klib.log2up_le_iff (by omega)).2 hsmall
  obtain ⟨-, hpos, heq⟩ := digitNode_eq hS (by omega) hlt hi
  have hle : 2 ^ (S + 1 - i) ≤ 2 ^ 30 := Nat.pow_le_pow_right (by omega) (by omega)
  omega

theorem xlen_size {S : Nat} (hS : S < 63) : xlen (2 ^ (S + 1) * 2 - 1) = 2 ^ (S + 1 + 1) - 1 := by
  have hle : 2 ^ (S + 1 + 1) ≤ 2 ^ 64 := Nat.pow_le_pow_right (by omega) (by omega)
  have hcast : (2 ^ (S + 1) * 2 - 1 : Int) = ((2 ^ (S + 1 + 1) - 1 : Nat) : Int) := by
    rw [Nat.cast_sub (Nat.two_pow_pos _)]
    push_cast
    ring
  rw [hcast]
  exact xlen_of_lt (by omega)

/-- The tree that the constructor starts from: every node but the root is 0, so no page is free. -/
theorem filled_zero {n S : Nat} (hlt : n < 2 ^ (S + 1)) (hge : 2 ^ S < n) :
    Filled n (S + 1) (S + 1) used (digits S (n - 2 ^ S)) := by
  have hdigits : digits (S + 1) n = node used (digits S (n - 2 ^ S)) := by
    rw [digits, if_pos (by omega)]
  have htop : n / 2 ^ (S + 1) * 2 ^ (S + 1) = 0 := by rw [Nat.div_eq_of_lt hlt, Nat.zero_mul]
  refine ⟨⟨trivial, merged_digits _ _⟩, ?_, ?_⟩
  · intro q hq
    rw [← hdigits, htop]
    exact ⟨fun h => absurd h (not_isFree_digits _ _ _), fun h => absurd h (Nat.not_lt_zero q)⟩
  · intro j hj hb
    rw [← hdigits]
    exact usedAt_digits hlt hj hb

section Range

variable {start end_ : Nat} (he : end_ < 2 ^ 64) (h3 : start + 3 ≤ end_)
  (hpow : ∀ k, end_ - start ≠ 2 ^ k) (hbig : end_ - start < 2 ^ 63) (hint : FitsInt (end_ - start))

include he h3 hpow hbig hint in
/-- **The constructor establishes the invariant**, whatever bytes `new` returns. -/
theorem new_inv (garbage : Nat → Nat) :
    ∃ m, new garbage start end_ = .ok m ∧ Inv start end_ m [] := by
  obtain ⟨n, rfl⟩ := Nat.exists_eq_add_of_le ((Nat.le_add_right start 3).trans h3)
  rw [Nat.add_sub_cancel_left] at hpow hbig hint
  have hpages := xlen_add_sub he
  obtain ⟨S, hS, hS63, hlt, hge⟩ := log2up_eq_succ (by omega) hpow hbig
  have hint : ∀ i, n / 2 ^ i % 2 = 1 →
      2 ^ (S + 1 - i) + n / 2 ^ (i + 1) * 2 ^ (i + 1) / 2 ^ i ≤ 2 ^ 31 :=
    fun i hi => (digitNode_eq hS (by omega) hlt hi).2.2 ▸ hint i hi
  simp only [new, hpages, hS, xlen_size hS63, freeUnaligned]
  generalize hnodes : (fun i => if 1 ≤ i ∧ i < 2 ^ (S + 1 + 1) - 1 then 0 else garbage i % 2 ^ 8) =
    nodes
  have hzero : ∀ i, 1 ≤ i → i < 2 ^ (S + 1 + 1) - 1 → nodes i = 0 := by
    intro i h1 h2
    rw [← hnodes]
    exact if_pos ⟨h1, h2⟩
  have hbyte : ∀ i, nodes i < 2 ^ 8 := by
    intro i
    rw [← hnodes]
    dsimp only
    split
    · omega
    · exact Nat.mod_lt _ (by omega)
  generalize hm : PageMgr.mk start (start + n) (S + 1) (2 ^ (S + 1 + 1) - 1) nodes = m
  have hms : m.start = start := by rw [← hm]
  have hme : m.end_ = start + n := by rw [← hm]
  have hmo : m.rootOrder = S + 1 := by rw [← hm]
  have sh : Shape m := by
    rw [← hm]
    exact ⟨by simp, by simp only; omega, rfl, hbyte⟩
  -- every node but the root is 0, so the halves of the digits' tree are stored
  have hl : Stored m.buddyNodes S 1 used := by
    have h1 : m.buddyNodes 1 = 0 := hm ▸ hzero 1 (by omega) (by omega)
    cases S <;> exact h1
  have hr : Stored m.buddyNodes S 2 (digits S (n - 2 ^ S)) := by
    refine stored_digits fun w hw hw2 => ?_
    rw [← hm]
    exact hzero w (by omega) (by omega)
  have htop : n / 2 ^ (S + 1) * 2 ^ (S + 1) = 0 := by rw [Nat.div_eq_of_lt hlt, Nat.zero_mul]
  have hbit : n / 2 ^ S % 2 = 1 := by
    have hone : n / 2 ^ S = 1 := Nat.div_eq_of_lt_le (by omega) (by omega)
    rw [hone]
  obtain ⟨m1, l1, r1, hstep, sh1, ⟨hs1, he1, ho1⟩, hst1, F1⟩ :=
    (filled_zero hlt hge).step sh hmo hl hr hlt (by omega) hbit (hint S hbit)
  rw [← ho1] at hst1
  obtain ⟨m', l', r', hloop, sh', ⟨hs', he', ho'⟩, hst', F'⟩ :=
    freeUnalignedLoop_filled hlt hint S sh1 (ho1.trans hmo) (by omega) hst1 F1
  rw [htop, Nat.add_zero, hms] at hstep
  refine ⟨m', ?_, sh', by omega, by omega, ?_, l', r', ho' ▸ hst', ?_⟩
  · rw [freeUnalignedLoop, Nat.and_one_is_mod, Nat.shiftRight_eq_div_pow, Nat.div_eq_of_lt hlt]
    exact hstep.trans hloop
  · rw [ho', ho1, hmo, Nat.add_sub_cancel_left, hS]
  · rw [ho', ho1, hmo]
    have hfree : ∀ q, q < 2 ^ (S + 1) → (IsFree (S + 1) (node l' r') q ↔ q < n) := by
      intro q hq
      have := F'.isFree q hq
      rwa [Nat.pow_zero, Nat.div_one, Nat.mul_one] at this
    rw [ho1, hmo] at hst'
    refine ⟨by omega, merged_node hst'.fits F'.merged.1 F'.merged.2 ?_, ?_, by simp, by simp, .nil⟩
    · rw [hfree _ (by omega)]
      omega
    · intro q hq
      rw [hfree q hq]
      simp

include he h3 hpow in
theorem new_inv_of_le (hsmall : end_ - start ≤ 2 ^ 30) (garbage : Nat → Nat) :
    ∃ m, new garbage start end_ = .ok m ∧ Inv start end_ m [] :=
  new_inv he h3 hpow (by omega) (fitsInt_of_le (by omega) hpow hsmall) garbage

end Range

/-! ## Steps -/

section Steps

variable {start end_ : Nat} (he : end_ < 2 ^ 64) {m : PageMgr} {bs bs' : List Block}

def FreeBlock (start end_ : Nat) (bs : List Block) (k p : Nat) : Prop :=
  2 ^ k ∣ p ∧ start + p + 2 ^ k ≤ end_ ∧ ∀ b ∈ bs, Block.Disjoint ⟨start + p, k⟩ b

section

variable (i : Inv start end_ m bs)
include i

include he in
/-- **`alloc` keeps the invariant**, and panics only when no block is left. -/
theorem Inv.alloc (n : Nat) :
    (m.alloc n = .error outOfPages ∧ ∀ p, ¬FreeBlock start end_ bs (log2up n) p) ∨
      ∃ p m', (0 < start + p → m.alloc n = .ok (start + p, m')) ∧
        (start + p = 0 → m.alloc n = .error (.assertion "ppn>0")) ∧
        Inv start end_ m' (⟨start + p, log2up n⟩ :: bs) := by
  obtain ⟨sh, rfl, rfl, hord, l, r, hst, t⟩ := i
  by_cases hv : log2up n + 1 ≤ val m.rootOrder (node l r)
  · right
    obtain ⟨p, l', r', m', hok, hzero, sh', ⟨hs, he', ho⟩, hst', -, a⟩ :=
      alloc_stored sh hst hv he fun q hq hf => ((t.isFree q hq).1 hf).1
    exact ⟨p, m', hok, hzero, sh', hs, he', ho.trans hord, l', r', ho ▸ hst', ho ▸ t.alloc a⟩
  · left
    constructor
    · exact alloc_outOfPages sh hst (by omega)
    · rintro p ⟨hd, hin, hdis⟩
      have hshort := t.short
      refine hv (val_of_block hst.fits t.merged hd (by omega) ?_)
      intro q h1 h2
      refine (t.isFree q (by omega)).2 ⟨by omega, fun b hb => ?_⟩
      exact hdis b hb (m.start + q) (Block.mem_mk.2 (by omega))

include he in
/-- **`free` of an outstanding block keeps the invariant.** -/
theorem Inv.free (hsmall : end_ - start ≤ 2 ^ 30) (hb : bs.Perm (b :: bs')) :
    ∃ m', m.free b.ppn b.order = .ok m' ∧ Inv start end_ m' bs' := by
  obtain ⟨sh, rfl, rfl, hord, l, r, hst, t⟩ := i
  have t := t.perm hb
  obtain ⟨S, hS⟩ : ∃ S, m.rootOrder = S + 1 := ⟨m.rootOrder - 1, by have := sh.order_pos; omega⟩
  rw [hS] at hst t
  obtain ⟨p, hp, hbp, hu⟩ := t.usedAt b List.mem_cons_self
  have hin := t.inside b List.mem_cons_self
  have hb0 := Nat.two_pow_pos b.order
  have hint : 2 ^ (m.rootOrder - b.order) + p / 2 ^ b.order ≤ 2 ^ 31 := by
    have hR : m.rootOrder ≤ 30 := hord ▸ (Klib.log2up_le_iff (by omega)).2 hsmall
    have hk := (hu.block hp).1
    have hlt : p / 2 ^ b.order < 2 ^ (m.rootOrder - b.order) := by
      rw [Nat.div_lt_iff_lt_mul hb0, ← Nat.pow_add, Nat.sub_add_cancel (by omega), hS]
      exact hp
    have hle : 2 ^ (m.rootOrder - b.order) ≤ 2 ^ 30 := Nat.pow_le_pow_right (by omega) (by omega)
    omega
  obtain ⟨l', r', m', hfree, sh', ⟨hs, he', ho⟩, hst', a, hml, hmr⟩ :=
    free_stored sh hS hst.2.1 hst.2.2 hp hu (by omega) hint
  refine ⟨m', hbp ▸ hfree, sh', hs, he', ho.trans hord, l', r', ho ▸ hst', ?_⟩
  rw [ho, hS]
  exact t.free hbp a ⟨hml t.merged.2.1, hmr t.merged.2.2⟩

include he in
/-- **Which block `alloc` returns depends only on the outstanding blocks.** -/
theorem Inv.alloc_congr {m1 m' : PageMgr} {n ppn : Nat}
    (i' : Inv start end_ m' bs) (h : m.alloc n = .ok (ppn, m1)) :
    ∃ m1', m'.alloc n = .ok (ppn, m1') := by
  obtain ⟨sh, hs, he0, ho, l, r, hst, t⟩ := i
  obtain ⟨sh', hs', he', ho', l', r', hst', t'⟩ := i'
  have hR : m.rootOrder = m'.rootOrder := ho.trans ho'.symm
  rw [hR] at hst t
  have hfree : ∀ q, q < 2 ^ m'.rootOrder →
      (IsFree m'.rootOrder (node l r) q ↔ IsFree m'.rootOrder (node l' r') q) := by
    intro q hq
    rw [t.isFree q hq, t'.isFree q hq]
  have hval := val_congr hst.fits hst'.fits t.merged t'.merged hfree
  by_cases hv : log2up n + 1 ≤ val m'.rootOrder (node l r)
  · obtain ⟨p, _, _, m2, hok, hzero, -, -, -, ha, -⟩ :=
      alloc_stored sh (hR ▸ hst) (hR ▸ hv) (he0 ▸ he)
        fun q hq hf => hs ▸ he0 ▸ ((t.isFree q (hR ▸ hq)).1 (hR ▸ hf)).1
    obtain ⟨p', _, _, m2', hok', hzero', -, -, -, ha', -⟩ :=
      alloc_stored sh' hst' (hval ▸ hv) (he' ▸ he)
        fun q hq hf => hs' ▸ he' ▸ ((t'.isFree q hq).1 hf).1
    have hp := BuddyTree.alloc_congr (k := log2up n) hst.fits hst'.fits t.merged t'.merged hfree
    rw [← hR, ha, hR, ha', Option.map_some, Option.map_some, Option.some.injEq] at hp
    obtain rfl : p = p' := hp
    rw [hs] at hok hzero
    rw [hs'] at hok' hzero'
    rcases Nat.eq_zero_or_pos (start + p) with h0 | hpos
    · rw [hzero h0] at h
      cases h
    · rw [hok hpos] at h
      cases h
      exact ⟨m2', hok' hpos⟩
  · rw [alloc_outOfPages sh (hR ▸ hst) (by rw [hR]; omega)] at h
    cases h

theorem Inv.block (hb : b ∈ bs) :
    start ≤ b.ppn ∧ b.ppn + 2 ^ b.order ≤ end_ ∧ 2 ^ b.order ∣ b.ppn - start := by
  obtain ⟨-, -, -, -, l, r, -, t⟩ := i
  obtain ⟨p, hp, hbp, hu⟩ := t.usedAt b hb
  refine ⟨by omega, t.inside b hb, ?_⟩
  rw [hbp, Nat.add_sub_cancel_left]
  exact (hu.block hp).2.1

end

end Steps

end PageMgr

end LuoOS.Alloc
