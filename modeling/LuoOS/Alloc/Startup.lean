import LuoOS.Alloc.Runs

/-!
# The pages of a new allocator

A new allocator offers every page of its range, each once, exactly if the constructor frees the
block of every digit of their number where it belongs (`servesAll_iff`). It does not if the number
is a power of two, since the root is never free as a whole; nor if the node of a block is no `int`:
its pages are lost, whatever node is changed instead (`Lost`).
-/

namespace LuoOS.Alloc.PageMgr

open BuddyTree
open Klib (log2up)

variable {m m' : PageMgr} {start end_ ppn n k v : Nat} {garbage : Nat → Nat}

/-! ## Lost pages -/

/-- The most that the byte of node `x` may be while page `P` is lost: no node has more than its
room, and none on the way down to the page is free as a whole. -/
def room (R P x : Nat) : Nat :=
  R - (x + 1).log2 + if (2 ^ R + P) / 2 ^ (R - (x + 1).log2) = x + 1 then 0 else 1

section Room

variable {R P x c : Nat}

theorem log2_child (hc : (c + 1) / 2 = x + 1) : (c + 1).log2 = (x + 1).log2 + 1 := by
  rw [Nat.log2_def (c + 1), if_pos (by omega), hc]

theorem log2_le (hin : c < 2 ^ (R + 1) - 1) : (c + 1).log2 ≤ R :=
  Nat.le_of_lt_succ ((Nat.log2_lt (Nat.succ_ne_zero c)).2 (Nat.add_lt_of_lt_sub hin))

theorem way_parent (R P h : Nat) : (2 ^ R + P) / 2 ^ (h + 1) = (2 ^ R + P) / 2 ^ h / 2 := by
  rw [Nat.div_div_eq_div_mul, Nat.pow_succ]

section

variable (hc : (c + 1) / 2 = x + 1) (hin : c < 2 ^ (R + 1) - 1)
include hc hin

theorem room_child (P : Nat) : room R P c ≤ R - (x + 1).log2 := by
  have hlog := log2_child hc
  have hle := log2_le hin
  unfold room
  split <;> omega

/-- Below a node that is not on the way to the page no node is. -/
theorem le_room_child (hx : R - (x + 1).log2 < room R P x) : R - (x + 1).log2 ≤ room R P c := by
  have hlog := log2_child hc
  have hle := log2_le hin
  have hheight : R - (x + 1).log2 = R - (c + 1).log2 + 1 := by omega
  unfold room at hx ⊢
  rw [hheight, way_parent] at hx
  split
  · rename_i hway
    rw [hway, if_pos hc] at hx
    omega
  · omega

end

/-- Halves of one order are not both free, if the node is on the way to the page. -/
theorem room_merge (hin : 2 * x + 2 < 2 ^ (R + 1) - 1) :
    min (room R P (2 * x + 1)) (room R P (2 * x + 2)) < room R P x := by
  have h1 := room_child (x := x) (c := 2 * x + 1) (R := R) (by omega) (by omega) P
  have h2 := room_child (x := x) (R := R) (by omega) hin P
  have hlog1 := log2_child (x := x) (c := 2 * x + 1) (by omega)
  have hlog2 := log2_child (x := x) (c := 2 * x + 2) (by omega)
  have hle := log2_le hin
  obtain ⟨h, hh⟩ : ∃ h, R - (x + 1).log2 = h + 1 := ⟨R - (x + 1).log2 - 1, by omega⟩
  rw [hh] at h1 h2
  conv_rhs => rw [room, hh, way_parent]
  split
  · rename_i hway
    obtain hc | hc : (2 ^ R + P) / 2 ^ h = 2 * x + 2 ∨ (2 ^ R + P) / 2 ^ h = 2 * x + 2 + 1 := by omega
    · have : room R P (2 * x + 1) = h := by
        rw [room, show R - (2 * x + 1 + 1).log2 = h by omega, if_pos hc, Nat.add_zero]
      omega
    · have : room R P (2 * x + 2) = h := by
        rw [room, show R - (2 * x + 2 + 1).log2 = h by omega, if_pos hc, Nat.add_zero]
      omega
  · omega

end Room

/-- The page `P` of a tree of order `R` is lost, as far as the nodes from `lo` on tell. -/
structure Lost (start R P lo : Nat) (m : PageMgr) : Prop where
  start_eq : m.start = start
  order_eq : m.rootOrder = R
  size_eq : m.buddyTreeSize = 2 ^ (R + 1) - 1
  le : ∀ x, lo ≤ x → x < m.buddyTreeSize → m.buddyNodes x ≤ room R P x

section Lost

variable {R P x lo : Nat}

theorem Lost.weaken (l : Lost start R P lo m) (hlo : lo ≤ 1) : Lost start R P 1 m :=
  { l with le := fun x hx => l.le x (hlo.trans hx) }

theorem Lost.set {i : Int} (l : Lost start R P lo m) (hset : m.set i v = .ok m')
    (hv : lo ≤ i.toNat → v ≤ room R P i.toNat) : Lost start R P lo m' := by
  rw [set_eq_ok hset]
  refine ⟨l.start_eq, l.order_eq, l.size_eq, fun x hx hin => ?_⟩
  rw [withNodes_nodes, Function.update_apply]
  split
  · rename_i hxi
    rw [hxi] at hx ⊢
    exact (Nat.mod_le _ _).trans (hv hx)
  · exact l.le x hx hin

section

variable (l : Lost start R P 1 m)
include l

/-- A node may get the larger of its halves, and one more if they are equal. -/
theorem Lost.halves (hl : m.get (2 * x + 1 : Nat) = .ok k) (hr : m.get (2 * x + 2 : Nat) = .ok v) :
    max k v ≤ room R P x ∧ min k v < room R P x := by
  obtain ⟨-, hl⟩ := get_eq_ok hl
  obtain ⟨hin, hr⟩ := get_eq_ok hr
  rw [Int.toNat_natCast] at hl hr
  have hsize := l.size_eq
  have hmerge := room_merge (x := x) (P := P) (R := R) (by omega)
  have h1 := room_child (x := x) (c := 2 * x + 1) (R := R) (by omega) (by omega) P
  have h2 := room_child (x := x) (c := 2 * x + 2) (R := R) (by omega) (by omega) P
  have ha := l.le (2 * x + 1) (by omega) (by omega)
  have hb := l.le (2 * x + 2) (by omega) (by omega)
  have hx : R - (x + 1).log2 ≤ room R P x := Nat.le_add_right ..
  omega

/-- The last write of `free` and of `alloc`. -/
theorem Lost.root (hl : m.get (lsub 0) = .ok k) (hr : m.get (rsub 0) = .ok v)
    (hset : m.set 0 (max k v) = .ok m') : Lost start R P 0 m' := by
  rw [lsub_eq (by decide)] at hl
  rw [rsub_eq (by decide)] at hr
  have l1 := l.set hset fun h => absurd h (by decide)
  refine { l1 with le := fun x _ hx => ?_ }
  rcases Nat.eq_zero_or_pos x with rfl | hpos
  · rw [set_eq_ok hset, withNodes_nodes, Int.toNat_zero, Function.update_self]
    exact (Nat.mod_le _ _).trans (l.halves hl hr).1
  · exact l1.le x hpos hx

end

theorem Lost.freeUp (fuel : Nat) : ∀ {m : PageMgr} {idx : Int} {o : Nat}, Lost start R P 1 m →
    idx < 2 ^ 31 → freeUp fuel m idx o = .ok m' → Lost start R P 1 m' := by
  induction fuel with
  | zero => exact fun _ _ h => nomatch h
  | succ fuel ih =>
    intro m idx o l hint h
    unfold PageMgr.freeUp at h
    split at h
    · rename_i hpos
      obtain ⟨z, rfl⟩ := Int.eq_ofNat_of_zero_le (Int.le_of_lt hpos)
      have hz : 0 < z := Int.natCast_pos.1 hpos
      have hnext := (int_node hz (by omega)).2
      rw [xlen_of_lt (show z < 2 ^ 64 by omega)] at h hnext
      rw [lsub_eq (by omega), rsub_eq (by omega), hnext] at h
      obtain ⟨a, ha, h⟩ := bind_eq_ok h
      obtain ⟨b, hb, h⟩ := bind_eq_ok h
      obtain ⟨m1, hset, h⟩ := bind_eq_ok h
      refine ih (l.set hset fun _ => ?_) (by omega) h
      have hhalves := l.halves ha hb
      rw [Int.toNat_natCast]
      split <;> omega
    · cases h
      exact l

theorem toInt_lt (z : Int) : toInt z < 2 ^ 31 := by
  unfold toInt
  have := Int.bmod_lt (x := z) (m := 2 ^ 32) (by decide)
  omega

theorem log2_toInt_lt (z : Int) : ((toInt z).toNat + 1).log2 < 32 := by
  have h := toInt_lt z
  rw [Nat.log2_lt (Nat.succ_ne_zero _)]
  omega

/-- `free` keeps a page lost that is not in the block, even where it takes another node than that
of the block for it. -/
theorem Lost.free (l : Lost start R P 1 m) {idx : Int}
    (hidx : toInt (m.pos2node (xlen (ppn - m.start)) k) = idx)
    (hroom : 0 < idx → k < room R P idx.toNat) (h : m.free ppn k = .ok m') :
    Lost start R P 0 m' := by
  unfold PageMgr.free at h
  rw [hidx] at h
  obtain ⟨w, -, h⟩ := bind_eq_ok h
  obtain ⟨-, -, h⟩ := bind_eq_ok h
  obtain ⟨m1, hset, h⟩ := bind_eq_ok h
  obtain ⟨m2, hup, h⟩ := bind_eq_ok h
  obtain ⟨a, ha, h⟩ := bind_eq_ok h
  obtain ⟨b, hb, h⟩ := bind_eq_ok h
  exact ((l.set hset fun hi => hroom (by omega)).freeUp 64 (toInt_lt _) hup).root ha hb h

end Lost

/-! ## The constructor -/

/-- The first page of the block of a digit, which the constructor frees. -/
abbrev digitPos (n i : Nat) : Nat := n / 2 ^ (i + 1) * 2 ^ (i + 1)

theorem digitPos_div {i j : Nat} (h : j < i) : digitPos n j / 2 ^ i = n / 2 ^ i := by
  obtain ⟨c, rfl⟩ := Nat.exists_eq_add_of_lt h
  rw [show j + c + 1 = j + 1 + c by omega, Nat.pow_add, ← Nat.div_div_eq_div_mul,
    ← Nat.div_div_eq_div_mul, Nat.mul_div_cancel _ (Nat.two_pow_pos _)]

section Construct

variable {R j i : Nat} (hlog : log2up n = R) (hR : R ≤ 63) (hn : n < 2 ^ R) (hhalf : 2 ^ R < 2 * n)
  (hj : j + 31 ≤ R) (he : start + n < 2 ^ 64)

include hlog hR hn hhalf hj

/-- The block of a digit has room at the node where it is freed: the nodes of digits above `R - 31`
are below `2 ^ 31`, and the blocks of the others are too small to fill such a node. -/
theorem lt_room_digit (hbit : n / 2 ^ i % 2 = 1) (hpos : 0 < toInt (digitNode n i)) :
    i < room R (digitPos n j) (toInt (digitNode n i)).toNat := by
  obtain ⟨hi, hlt, hnode⟩ := digitNode_eq hlog hR hn hbit
  have hdiv : digitPos n i / 2 ^ i = n / 2 ^ (i + 1) * 2 := by
    rw [digitPos, Nat.pow_succ, ← Nat.mul_assoc, Nat.mul_right_comm,
      Nat.mul_div_cancel _ (Nat.two_pow_pos i)]
  generalize digitNode n i = y at hnode hpos ⊢
  rcases Nat.lt_trichotomy (i + 31) R with hlow | heq | hhigh
  · have hlog2 := log2_toInt_lt y
    unfold room
    omega
  · have hpow : 2 ^ R = 2 ^ (i + 1) * 2 ^ 30 := by rw [← Nat.pow_add, ← heq]
    have hone : 0 < n / 2 ^ (i + 1) := Nat.div_pos (by omega) (Nat.two_pow_pos _)
    rw [hdiv, show R - i = 31 by omega] at hnode hlt
    unfold toInt at hpos
    rw [Int.bmod_def] at hpos
    split at hpos <;> omega
  · have hle : 2 ^ (R - i) ≤ 2 ^ 30 := Nat.pow_le_pow_right (by omega) (by omega)
    have hlog2 : (y + 1).log2 = R - i := by
      rw [Nat.log2_eq_iff (by omega), hnode, Nat.pow_succ 2 (R - i), Nat.mul_two]
      exact ⟨Nat.le_add_right _ _, Nat.add_lt_add_left hlt _⟩
    have hsplit : 2 ^ R = 2 ^ (R - i) * 2 ^ i := by rw [← Nat.pow_add, Nat.sub_add_cancel hi.le]
    rw [toInt_of_lt (by omega), Int.toNat_natCast, room, hlog2, Nat.sub_sub_self hi.le, if_neg]
    · exact Nat.lt_succ_self i
    -- the page is not in the block of another digit
    intro heq
    rw [hnode, hdiv, Nat.add_comm, hsplit, Nat.add_mul_div_right _ _ (Nat.two_pow_pos i),
      Nat.add_comm, digitPos_div (show j < i by omega)] at heq
    have := Nat.add_left_cancel heq
    rw [Nat.pow_succ, ← Nat.div_div_eq_div_mul] at this
    omega

include he

/-- The constructor frees the digits from the highest one on. -/
theorem Lost.freeUnalignedLoop (i : Nat) : ∀ {m : PageMgr} {lo : Nat},
    Lost start R (digitPos n j) lo m → lo = 0 ∨ lo = 1 ∧ n / 2 ^ i * 2 ^ i < n →
    freeUnalignedLoop n i m (start + n / 2 ^ i * 2 ^ i) = .ok m' →
    Lost start R (digitPos n j) 0 m' := by
  induction i with
  | zero =>
    intro m lo l hlo h
    rw [Nat.pow_zero, Nat.div_one, Nat.mul_one] at hlo
    obtain rfl : lo = 0 := by omega
    cases h
    exact l
  | succ i ih =>
    intro m lo l hlo h
    by_cases hbit : n / 2 ^ i % 2 = 1
    · rw [freeUnalignedLoop_digit hbit he] at h
      obtain ⟨m1, hfree, h⟩ := bind_eq_ok h
      have hpos : digitPos n i ≤ n := Nat.div_mul_le_self _ _
      have hidx : m.pos2node (xlen ((start + digitPos n i : Nat) - m.start)) i = digitNode n i := by
        rw [l.start_eq, xlen_add_sub (by omega), digitNode, hlog, pos2node, l.order_eq]
      exact ih ((l.weaken (by omega)).free (congrArg _ (congrArg _ hidx))
        (lt_room_digit hlog hR hn hhalf hj hbit) hfree) (.inl rfl) h
    · have hadd := digit_add n i
      rw [Nat.mod_two_ne_one.1 hbit, Nat.zero_mul, Nat.add_zero] at hadd
      rw [freeUnalignedLoop_skip hbit] at h
      exact ih l (hadd ▸ hlo) h

theorem Lost.new (h : new garbage start (start + n) = .ok m) :
    Lost start R (digitPos n j) 0 m := by
  have hpages := xlen_add_sub he
  obtain ⟨S, rfl⟩ : ∃ S, R = S + 1 := ⟨R - 1, by omega⟩
  simp only [PageMgr.new, hpages, hlog, xlen_size (show S < 63 by omega), freeUnaligned] at h
  have hzero : n / 2 ^ (S + 1 + 1) * 2 ^ (S + 1 + 1) = 0 := by
    rw [Nat.div_eq_of_lt (by omega), Nat.zero_mul]
  refine Lost.freeUnalignedLoop hlog hR hn hhalf hj he (S + 1 + 1)
    ⟨rfl, rfl, rfl, fun x hx hin => ?_⟩ (.inr ⟨rfl, by omega⟩) (by rwa [hzero, Nat.add_zero])
  dsimp only at hin ⊢
  rw [if_pos ⟨hx, hin⟩]
  exact Nat.zero_le _

end Construct

/-! ## Taking a page -/

theorem set_range {i : Int} (h : m.set i v = .ok m') : 0 ≤ i ∧ i < m.buddyTreeSize := by
  unfold PageMgr.set at h
  split at h
  · assumption
  · cases h

theorem alloc_one_eq_ok (h : m.alloc 1 = .ok (ppn, m')) : ∃ m1 node m2 m3 l r,
    allocFind 1 (m.rootOrder + 1) m 0 0 = .ok (m1, node) ∧ 0 < node ∧ m1.set node 0 = .ok m2 ∧
    allocUp 64 m2 (prnt node) = .ok m3 ∧ m3.get (lsub 0) = .ok l ∧ m3.get (rsub 0) = .ok r ∧
    m3.set 0 (max l r) = .ok m' ∧ ppn = xlen (m'.start + (node + 1 - 2 ^ m'.rootOrder)) := by
  have hone : log2up 1 = 0 := by decide
  unfold PageMgr.alloc at h
  rw [hone] at h
  obtain ⟨root, -, h⟩ := bind_eq_ok h
  split at h
  · cases h
  obtain ⟨⟨m1, node⟩, hfind, h⟩ := bind_eq_ok h
  obtain ⟨_, hpos, h⟩ := bind_eq_ok h
  obtain ⟨m2, hset, h⟩ := bind_eq_ok h
  obtain ⟨m3, hup, h⟩ := bind_eq_ok h
  obtain ⟨l, hl, h⟩ := bind_eq_ok h
  obtain ⟨r, hr, h⟩ := bind_eq_ok h
  obtain ⟨m4, hroot, h⟩ := bind_eq_ok h
  obtain ⟨_, -, h⟩ := bind_eq_ok h
  obtain ⟨_, -, h⟩ := bind_eq_ok h
  cases h
  refine ⟨m1, node, m2, m3, l, r, hfind, of_decide_eq_true (assert_eq_ok hpos), hset, hup, hl, hr,
    hroot, ?_⟩
  rw [Nat.zero_add, Nat.add_sub_cancel, Nat.sub_self, pow_zero, mul_one]

/-- The page gives back the leaf, as far as an `xlen_t` can tell. -/
theorem leaf_of_ppn {s q x R : Nat} (h : xlen (s + (x + 1 - 2 ^ R)) = s + q) :
    (x + 1) % 2 ^ 64 = (2 ^ R + q) % 2 ^ 64 := by
  unfold xlen at h
  have hpow : ((2 ^ R : Nat) : Int) = 2 ^ R := by push_cast; rfl
  rw [← hpow] at h
  omega

section Taking

variable {R P : Nat}

/-- The search does not come to the leaf of a lost page: a node on the way to it is never split. -/
theorem Lost.allocFind (hR : R ≤ 63) (size : Nat) : ∀ {m : PageMgr} {nd node : Nat},
    Lost start R P 0 m → size ≤ R + 1 → node + 1 ≠ 2 ^ R + P →
    (0 < size → (nd + 1).log2 = R + 1 - size) → allocFind 1 size m nd node = .ok (m', n) →
    Lost start R P 0 m' ∧ n + 1 ≠ 2 ^ R + P := by
  induction size with
  | zero =>
    intro m nd node l _ hnode _ h
    cases h
    exact ⟨l, hnode⟩
  | succ size ih =>
    intro m nd node l hsize hnode hnd hfind
    have hlog : (nd + 1).log2 = R - size := (hnd (Nat.succ_pos _)).trans (Nat.add_sub_add_right ..)
    have hlt : nd + 1 < 2 ^ (R - size + 1) := hlog ▸ Nat.lt_log2_self
    have hpow : 2 ^ (R - size + 1) ≤ 2 ^ (R + 1) := Nat.pow_le_pow_right (by omega) (by omega)
    have hroom := l.le nd (Nat.zero_le _) (by rw [l.size_eq]; omega)
    have hchild : ∀ {c : Nat}, (c + 1) / 2 = nd + 1 → 0 < size → (c + 1).log2 = R + 1 - size := by
      intro c hc _
      rw [log2_child hc]
      omega
    have h63 : 0 < size → nd + 1 < 2 ^ 63 := fun hpos =>
      hlt.trans_le (Nat.pow_le_pow_right (by omega) (by omega))
    rw [PageMgr.allocFind, if_pos (by omega)] at hfind
    obtain ⟨⟨m1, nd', node'⟩, hstep, h⟩ := bind_eq_ok hfind
    obtain ⟨rfl, rfl, rfl, hv, hone⟩ | ⟨hv, hne, rfl, rfl, m2, hset, hset'⟩ | ⟨rfl, hnext, rfl⟩ :=
      allocStep_cases hstep
    · obtain rfl : size = 0 := by omega
      refine ih l (by omega) (fun heq => ?_) (fun h => absurd h (by omega)) h
      rw [room, hlog, Nat.sub_zero, Nat.sub_self, Nat.pow_zero, Nat.div_one, if_pos heq.symm] at hroom
      omega
    · -- the node is not on the way to the page, so neither are its halves
      have hhalf : ∀ {m m' : PageMgr} {c : Nat}, (c + 1) / 2 = nd + 1 → Lost start R P 0 m →
          m.set c size = .ok m' → Lost start R P 0 m' := by
        intro m m' c hc l hset
        have hin := (set_range hset).2
        rw [l.size_eq] at hin
        have := le_room_child (R := R) (P := P) hc (by omega) (by omega)
        exact l.set hset fun _ => by rw [Int.toNat_natCast]; omega
      rw [rsub_eq (h63 (by omega))] at hset
      rw [lsub_eq (h63 (by omega))] at hset' h
      have l' := hhalf (by omega) (hhalf (by omega) l hset) hset'
      exact ih l' (by omega) hnode (hchild (by omega)) h
    · refine ih l (by omega) hnode (fun hpos => ?_) h
      rw [lsub_eq (h63 hpos), rsub_eq (h63 hpos)] at hnext
      exact hchild (by omega) hpos

theorem Lost.allocUp (fuel : Nat) : ∀ {m : PageMgr} {nd : Nat}, Lost start R P 1 m →
    nd + 1 < 2 ^ 63 → allocUp fuel m nd = .ok m' → Lost start R P 1 m' := by
  induction fuel with
  | zero => exact fun _ _ h => nomatch h
  | succ fuel ih =>
    intro m nd l hnd h
    unfold PageMgr.allocUp at h
    split at h
    · rename_i hpos
      rw [lsub_eq hnd, rsub_eq hnd, prnt_eq hpos (by omega)] at h
      obtain ⟨a, ha, h⟩ := bind_eq_ok h
      obtain ⟨b, hb, h⟩ := bind_eq_ok h
      obtain ⟨m1, hset, h⟩ := bind_eq_ok h
      refine ih (l.set hset fun _ => ?_) (by omega) h
      rw [Int.toNat_natCast]
      exact (l.halves ha hb).1
    · cases h
      exact l

/-- **A lost page is not returned, and stays lost.** -/
theorem Lost.alloc (hR : R ≤ 63) (hR0 : 0 < R) (hP : P < 2 ^ R) (l : Lost start R P 0 m)
    (h : m.alloc 1 = .ok (ppn, m')) : ppn ≠ start + P ∧ Lost start R P 0 m' := by
  obtain ⟨m1, node, m2, m3, a, b, hfind, hpos, hset, hup, ha, hb, hroot, rfl⟩ := alloc_one_eq_ok h
  have hpow : 2 ^ R ≤ 2 ^ 63 := Nat.pow_le_pow_right (by omega) hR
  have h2 : 2 ^ 1 ≤ 2 ^ R := Nat.pow_le_pow_right (by omega) hR0
  obtain ⟨l1, hnode⟩ := l.allocFind hR (R + 1) le_rfl (show 0 + 1 ≠ 2 ^ R + P by omega)
    (fun _ => by rw [Nat.sub_self]; rfl) (l.order_eq ▸ hfind)
  have hlt := (set_range hset).2
  rw [l1.size_eq, Nat.pow_succ] at hlt
  have l2 := (l1.set hset fun _ => Nat.zero_le _).weaken (Nat.zero_le 1)
  rw [prnt_eq hpos (by omega)] at hup
  have l4 := (l2.allocUp 64 (by omega) hup).root ha hb hroot
  refine ⟨fun heq => ?_, l4⟩
  rw [l4.start_eq, l4.order_eq] at heq
  have := leaf_of_ppn heq
  omega

end Taking

/-! ## All pages, one by one -/

def allocPages : Nat → PageMgr → Kern (List Nat × PageMgr)
  | 0, m => .ok ([], m)
  | n + 1, m => do
    let (ppn, m) ← m.alloc 1
    let (ppns, m) ← m.allocPages n
    pure (ppn :: ppns, m)

/-- **All pages are available at the start**: each is returned once, and then there are no more. -/
def ServesAll (start end_ : Nat) : Prop :=
  ∀ garbage, ∃ m ppns m', new garbage start end_ = .ok m ∧
    m.allocPages (end_ - start) = .ok (ppns, m') ∧ ppns.Perm (List.range' start (end_ - start)) ∧
    m'.alloc 1 = .error outOfPages

section Pages

variable {start end_ : Nat} {m : PageMgr} {ps : List Nat}

def pageBlocks (ps : List Nat) : List Block := ps.map fun p => ⟨p, 0⟩

section

variable (i : Inv start end_ m (pageBlocks ps))
include i

theorem Inv.nodup : ps.Nodup := by
  obtain ⟨-, -, -, -, l, r, -, t⟩ := i
  refine (List.pairwise_map.1 t.disjoint).imp fun {p q} hdis heq => ?_
  exact hdis p (Block.ppn_mem ⟨p, 0⟩) (heq ▸ Block.ppn_mem ⟨q, 0⟩)

theorem Inv.subset : ps ⊆ List.range' start (end_ - start) := by
  intro p hp
  obtain ⟨hle, hlt, -⟩ := i.block (List.mem_map_of_mem hp)
  have hlt : p + 1 ≤ end_ := hlt
  have hle : start ≤ p := hle
  rw [List.mem_range'_1]
  omega

theorem Inv.length_le : ps.length ≤ end_ - start := by
  have hle := (i.nodup.subperm i.subset).length_le
  rwa [List.length_range'] at hle

end

theorem exists_free_page (h : ps.length < end_ - start) :
    ∃ p, FreeBlock start end_ (pageBlocks ps) 0 p := by
  by_contra hno
  have hsub : List.range' start (end_ - start) ⊆ ps := by
    intro q hq
    rw [List.mem_range'_1] at hq
    by_contra hq'
    refine hno ⟨q - start, one_dvd _, by omega, fun b hb x hx hxb => ?_⟩
    obtain ⟨p, hp, rfl⟩ := List.mem_map.1 hb
    have h1 := Block.mem_mk.1 hx
    have h2 := Block.mem_mk.1 hxb
    obtain rfl : p = q := by omega
    exact hq' hp
  have hle := (List.Nodup.subperm List.nodup_range' hsub).length_le
  rw [List.length_range'] at hle
  omega

/-- One more page, until there is none. -/
theorem Inv.alloc_page (hs : 0 < start) (he : end_ < 2 ^ 64)
    (i : Inv start end_ m (pageBlocks ps)) :
    (m.alloc 1 = .error outOfPages ∧ ps.length = end_ - start) ∨
      ∃ p m', m.alloc 1 = .ok (p, m') ∧ Inv start end_ m' (pageBlocks (p :: ps)) := by
  have halloc := i.alloc he 1
  rcases halloc with ⟨herr, hfree⟩ | ⟨p, m', hok, -, i'⟩
  · refine .inl ⟨herr, Nat.le_antisymm i.length_le (Nat.not_lt.1 fun hlt => ?_)⟩
    obtain ⟨p, hp⟩ := exists_free_page hlt
    exact hfree p hp
  · exact .inr ⟨start + p, m', hok (by omega), i'⟩

theorem Inv.allocPages (hs : 0 < start) (he : end_ < 2 ^ 64) (n : Nat)
    (i : Inv start end_ m (pageBlocks ps)) (hn : ps.length + n ≤ end_ - start) :
    ∃ qs m', m.allocPages n = .ok (qs, m') ∧ qs.length = n ∧
      Inv start end_ m' (pageBlocks (qs.reverse ++ ps)) := by
  induction n generalizing m ps with
  | zero => exact ⟨[], m, rfl, rfl, i⟩
  | succ n ih =>
    rcases i.alloc_page hs he with ⟨-, hfull⟩ | ⟨p, m1, hp, i1⟩
    · omega
    obtain ⟨qs, m', hqs, hlen, i'⟩ := ih i1 (by rw [List.length_cons]; omega)
    refine ⟨p :: qs, m', ?_, by rw [List.length_cons, hlen], ?_⟩
    · unfold PageMgr.allocPages
      rw [hp, ok_bind]
      dsimp only
      rw [hqs]
      rfl
    · rw [List.reverse_cons, List.append_assoc]
      exact i'

/-- A page that no call returns. -/
theorem not_servesAll {Q : PageMgr → Prop} {p : Nat} (hp : start ≤ p ∧ p < end_)
    (hnew : ∀ m, new (fun _ => 0) start end_ = .ok m → Q m)
    (halloc : ∀ m ppn m', Q m → m.alloc 1 = .ok (ppn, m') → ppn ≠ p ∧ Q m') :
    ¬ServesAll start end_ := by
  intro h
  obtain ⟨m, ppns, m', hm, hrun, hperm, -⟩ := h fun _ => 0
  have hmem : p ∈ ppns := hperm.mem_iff.2 (List.mem_range'_1.2 (by omega))
  have hnot : ∀ c m ppns m', Q m → allocPages c m = .ok (ppns, m') → p ∉ ppns := by
    intro c
    induction c with
    | zero =>
      intro m ppns m' _ h
      cases h
      exact List.not_mem_nil
    | succ c ih =>
      intro m ppns m' q h
      obtain ⟨⟨ppn, m1⟩, h1, h⟩ := bind_eq_ok h
      obtain ⟨⟨ps, m2⟩, h2, h⟩ := bind_eq_ok h
      cases h
      obtain ⟨hne, q1⟩ := halloc _ _ _ q h1
      rw [List.mem_cons, not_or]
      exact ⟨hne.symm, ih _ _ _ q1 h2⟩
  exact hnot _ _ _ _ (hnew m hm) hrun hmem

theorem not_servesAll_two_pow (he : start + 2 ^ k < 2 ^ 64) : ¬ServesAll start (start + 2 ^ k) :=
  not_servesAll (Q := fun m => m.buddyNodes 0 = 0)
    ⟨le_rfl, Nat.lt_add_of_pos_right (Nat.two_pow_pos k)⟩ (fun _ h => new_two_pow he h)
    fun _ _ _ h0 h => absurd h (alloc_of_root_zero h0)

theorem not_servesAll_digit (he : start + n < 2 ^ 64) (h3 : 3 ≤ n) (hpow : ∀ k, n ≠ 2 ^ k)
    (hbig : n < 2 ^ 63) {j : Nat} (hbit : n / 2 ^ j % 2 = 1) (hj : 2 ^ 31 ≤ digitNode n j) :
    ¬ServesAll start (start + n) := by
  obtain ⟨S, hS, hS63, hlt, hge⟩ := log2up_eq_succ h3 hpow hbig
  obtain ⟨hjR, hpos, hnode⟩ := digitNode_eq hS (by omega) hlt hbit
  have hR : 31 < S + 1 - j + 1 := (Nat.pow_lt_pow_iff_right (by omega)).1
    (show 2 ^ 31 < 2 ^ (S + 1 - j + 1) by rw [Nat.pow_succ 2 (S + 1 - j)]; omega)
  have hP : digitPos n j < n := by
    have hadd := digit_add n j
    rw [hbit, Nat.one_mul] at hadd
    calc digitPos n j < digitPos n j + 2 ^ j := Nat.lt_add_of_pos_right (Nat.two_pow_pos j)
      _ = n / 2 ^ j * 2 ^ j := hadd.symm
      _ ≤ n := Nat.div_mul_le_self _ _
  exact not_servesAll (p := start + digitPos n j) (Q := Lost start (S + 1) (digitPos n j) 0)
    (by omega) (fun m h => Lost.new hS (by omega) hlt (by omega) (by omega) he h)
    fun m ppn m' l h => l.alloc (by omega) (by omega) (hP.trans hlt) h

end Pages

/-- **Every page is available at the start if and only if** their number is no power of two and the
node of the block of each of its digits is an `int`. Page numbers are those of 64-bit addresses. -/
theorem servesAll_iff {end_ : Nat} (hs : 0 < start) (hlt : start < end_) (he : end_ ≤ 2 ^ 52) :
    ServesAll start end_ ↔ (∀ k, end_ - start ≠ 2 ^ k) ∧ FitsInt (end_ - start) := by
  have he : end_ < 2 ^ 64 := by omega
  obtain ⟨n, rfl⟩ := Nat.exists_eq_add_of_le hlt.le
  rw [Nat.add_sub_cancel_left]
  constructor
  · intro h
    have hpow : ∀ k, n ≠ 2 ^ k := by
      rintro k rfl
      exact not_servesAll_two_pow he h
    have h0 := hpow 0
    have h1 := hpow 1
    refine ⟨hpow, fun j hbit => ?_⟩
    by_contra hj
    exact not_servesAll_digit he (by omega) hpow (by omega) hbit (by omega) h
  · rintro ⟨hpow, hint⟩ garbage
    have h0 := hpow 0
    have h1 := hpow 1
    have hn : start + n - start = n := Nat.add_sub_cancel_left ..
    obtain ⟨m, hnew, i⟩ := @new_inv start _ he (by omega) (by rwa [hn]) (by omega)
      (by rwa [hn]) garbage
    have i : Inv start (start + n) m (pageBlocks []) := i
    obtain ⟨qs, m', hrun, hlen, i'⟩ := i.allocPages hs he (start + n - start) (by simp)
    rw [List.append_nil] at i'
    refine ⟨m, qs, m', hnew, hrun, ?_, ?_⟩
    · have hsub := i'.nodup.subperm i'.subset
      refine (List.reverse_perm qs).symm.trans (hsub.perm_of_length_le ?_)
      rw [List.length_range', List.length_reverse, hlen]
    · rcases i'.alloc_page hs he with ⟨herr, -⟩ | ⟨p, m₁, -, i₁⟩
      · exact herr
      · have hle := i₁.length_le
        rw [List.length_cons, List.length_reverse, hlen] at hle
        omega

/-- Of `3 * 2 ^ 29` pages the constructor frees two blocks, at the nodes 1 and 5. -/
theorem servesAll_five_pages : ServesAll 1 6 ∧ ServesAll 1 (1 + 3 * 2 ^ 29) := by
  have hfits : FitsInt (3 * 2 ^ 29) := by
    intro i hi
    have hle : 2 ^ i < 2 ^ 31 := (two_pow_le_of_digit hi).trans_lt (by decide)
    have hlt : i < 31 := (Nat.pow_lt_pow_iff_right (by omega)).1 hle
    clear hle
    revert hi
    decide +revert
  refine ⟨(servesAll_iff (by decide) (by decide) (by decide)).2
    ⟨ne_two_pow (j := 2) (by decide) (by decide),
      fitsInt_of_le (by decide) (ne_two_pow (j := 2) (by decide) (by decide)) (by decide)⟩, ?_⟩
  exact (servesAll_iff (by decide) (by decide) (by decide)).2
    ⟨ne_two_pow (j := 30) (by decide) (by decide), hfits⟩

/-- Four pages are freed as one block at the root, which is then set to the larger of its halves. -/
theorem not_servesAll_four : ¬ServesAll 1 5 := not_servesAll_two_pow (k := 2) (by decide)

end LuoOS.Alloc.PageMgr
