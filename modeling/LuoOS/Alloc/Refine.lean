import LuoOS.Alloc.PageMgr
import LuoOS.Lib.BuddyArray
import Mathlib.Data.List.Iterate

/-!
# The page allocator computes on a stored buddy tree

For a range of at most `2 ^ 63` pages every node number fits an `xlen_t`, and the loops of `alloc`
are `BuddyTree.search` and `BuddyTree.rebuild`. So is that of `free`, for a node whose number fits
an `int`.
-/

namespace LuoOS.Alloc.PageMgr

open BuddyTree Function
open Klib (log2up)

/-! ## Node numbers -/

variable {f g : Nat → Nat} {k p v x y i n R S : Nat} {m : PageMgr}

theorem xlen_add_sub (h : k + n < 2 ^ 64) : xlen (((k + n : Nat) : Int) - k) = n := by
  rw [Nat.cast_add, add_sub_cancel_left]
  exact xlen_of_lt (by omega)

theorem lsub_eq (h : x + 1 < 2 ^ 63) : lsub x = 2 * x + 1 := by
  unfold lsub xlen
  omega

theorem rsub_eq (h : x + 1 < 2 ^ 63) : rsub x = 2 * x + 2 := by
  unfold rsub xlen
  omega

theorem prnt_eq (h0 : 0 < x) (h : x + 1 < 2 ^ 64) : prnt x = (x + 1) / 2 - 1 := by
  unfold prnt
  unfold xlen
  omega

theorem int_node (hy0 : 0 < y) (hy : y < 2 ^ 31) :
    toInt y = y ∧ toInt (prnt (xlen y)) = ((y + 1) / 2 - 1 : Nat) := by
  refine ⟨toInt_of_lt hy, ?_⟩
  rw [xlen_of_lt (by omega), prnt_eq hy0 (by omega)]
  exact toInt_of_lt (by omega)

theorem lt_of_mul_two_pow_le {size nd : Nat} (h : (nd + 2) * 2 ^ (size + 1) ≤ 2 ^ 64) :
    nd + 1 < 2 ^ 63 := by
  have : (nd + 2) * 2 ^ 1 ≤ (nd + 2) * 2 ^ (size + 1) :=
    Nat.mul_le_mul_left _ (Nat.pow_le_pow_right (by decide) (by omega))
  omega

theorem pos2nodeLoop_eq (pos order : Nat) : ∀ (size nd : Nat), order ≤ size →
    (nd + 2) * 2 ^ size ≤ 2 ^ 64 → pos2nodeLoop pos order size nd + 1 =
      (nd + 1) * 2 ^ (size - order) + pos / 2 ^ order % 2 ^ (size - order) := by
  intro size
  induction size with
  | zero =>
    simp [pos2nodeLoop, Nat.mod_one]
  | succ size ih =>
    intro nd ho hsz
    have hnd := lt_of_mul_two_pow_le hsz
    by_cases hso : size ≥ order
    · simp only [pos2nodeLoop, hso, if_true]
      rw [lsub_eq (by omega), rsub_eq (by omega), Nat.and_one_is_mod, Nat.shiftRight_eq_div_pow]
      have hbit : pos / 2 ^ order / 2 ^ (size - order) = pos / 2 ^ size := by
        rw [Nat.div_div_eq_div_mul, ← Nat.pow_add, show order + (size - order) = size by omega]
      have hmod := Nat.mod_pow_succ (x := pos / 2 ^ order) (b := 2) (k := size - order)
      rw [hbit] at hmod
      rw [show size + 1 - order = size - order + 1 by omega, hmod]
      rcases Nat.mod_two_eq_zero_or_one (pos / 2 ^ size) with hb | hb
      · rw [hb, if_neg (by omega), ih (2 * nd + 1) hso ((half_end (by omega)).trans hsz)]
        ring
      · rw [hb, if_pos (by omega), ih (2 * nd + 2) hso ((half_end (by omega)).trans hsz)]
        ring
    · have : order = size + 1 := by omega
      subst this
      simp [pos2nodeLoop, Nat.mod_one]

/-- The values of `nd` in the loop of `pos2node`, the last one first. -/
def visited (pos order : Nat) : Nat → Nat → List Nat
  | 0, nd => [nd]
  | size + 1, nd =>
    if size ≥ order then
      visited pos order size (if (pos >>> size) &&& 1 ≠ 0 then rsub nd else lsub nd) ++ [nd]
    else [nd]

/-- Every node on the way is the parent of the next. -/
theorem visited_eq (pos order : Nat) : ∀ (size nd : Nat), order ≤ size →
    (nd + 2) * 2 ^ size ≤ 2 ^ 64 → visited pos order size nd =
        List.iterate prnt (pos2nodeLoop pos order size nd) (size - order + 1) ∧
      prnt^[size - order] (pos2nodeLoop pos order size nd) = nd := by
  intro size
  induction size with
  | zero =>
    simp [visited, pos2nodeLoop]
  | succ size ih =>
    intro nd ho hsz
    have hnd := lt_of_mul_two_pow_le hsz
    by_cases hso : size ≥ order
    · simp only [visited, pos2nodeLoop, hso, if_true]
      generalize hc : (if (pos >>> size) &&& 1 ≠ 0 then rsub nd else lsub nd) = c
      rw [lsub_eq hnd, rsub_eq hnd] at hc
      have hprnt : prnt c = nd := by
        rw [prnt_eq (by split at hc <;> omega) (by split at hc <;> omega)]
        split at hc <;> omega
      obtain ⟨hlist, htop⟩ := ih c hso ((half_end (by split at hc <;> omega)).trans hsz)
      have hup : prnt^[size - order + 1] (pos2nodeLoop pos order size c) = nd := by
        rw [Function.iterate_succ_apply', htop, hprnt]
      rw [show size + 1 - order = size - order + 1 by omega, List.iterate_add, hup, hlist]
      exact ⟨rfl, rfl⟩
    · obtain rfl : order = size + 1 := by omega
      simp [visited, pos2nodeLoop]

/-- **Node numbers are consistent**: `free` finds the node that `alloc` computed a page from, and
the way down is the way up. -/
theorem pos2node_consistent (hR : m.rootOrder < 64) (hk : k ≤ m.rootOrder) :
    (∀ nd, 2 ^ (m.rootOrder - k) - 1 ≤ nd → nd < 2 ^ (m.rootOrder - k + 1) - 1 →
      m.pos2node ((nd + 1 - 2 ^ (m.rootOrder - k)) * 2 ^ k) k = nd) ∧
    (∀ pos pos', pos / 2 ^ k = pos' / 2 ^ k → m.pos2node pos k = m.pos2node pos' k) ∧
    ∀ pos, visited pos k m.rootOrder 0 =
        List.iterate prnt (m.pos2node pos k) (m.rootOrder - k + 1) := by
  have hsz : (0 + 2) * 2 ^ m.rootOrder ≤ 2 ^ 64 := by
    have := Nat.pow_le_pow_right (n := 2) (by decide) (Nat.le_of_lt_succ hR)
    omega
  have heq := fun pos => pos2nodeLoop_eq pos k m.rootOrder 0 hk hsz
  unfold pos2node
  refine ⟨fun nd h1 h2 => ?_, fun pos pos' h => ?_, fun pos => (visited_eq pos k _ 0 hk hsz).1⟩
  · have := heq ((nd + 1 - 2 ^ (m.rootOrder - k)) * 2 ^ k)
    rw [Nat.mul_div_cancel _ (Nat.two_pow_pos k), Nat.mod_eq_of_lt (by omega)] at this
    omega
  · have := heq pos
    rw [h, ← heq pos'] at this
    omega

theorem pos2node_consistent_three : (⟨0, 8, 3, 15, fun _ => 0⟩ : PageMgr).pos2node 4 1 = 5 :=
  (pos2node_consistent (m := ⟨0, 8, 3, 15, fun _ => 0⟩) (by decide) (by decide)).1 5 (by decide)
    (by decide)

/-! ## Array accesses -/

theorem get_ok (h : i < m.buddyTreeSize) : m.get (i : Nat) = .ok (m.buddyNodes i) := by
  unfold get
  rw [if_pos (by omega), Int.toNat_natCast]

def withNodes (m : PageMgr) (f : Nat → Nat) : PageMgr := { m with buddyNodes := f }

@[simp] theorem withNodes_nodes (m : PageMgr) (f : Nat → Nat) : (m.withNodes f).buddyNodes = f :=
  rfl

@[simp] theorem withNodes_size (m : PageMgr) (f : Nat → Nat) :
    (m.withNodes f).buddyTreeSize = m.buddyTreeSize := rfl

@[simp] theorem withNodes_order (m : PageMgr) (f : Nat → Nat) :
    (m.withNodes f).rootOrder = m.rootOrder := rfl

@[simp] theorem withNodes_start (m : PageMgr) (f : Nat → Nat) :
    (m.withNodes f).start = m.start := rfl

@[simp] theorem withNodes_end (m : PageMgr) (f : Nat → Nat) : (m.withNodes f).end_ = m.end_ := rfl

@[simp] theorem withNodes_withNodes (m : PageMgr) (f g : Nat → Nat) :
    (m.withNodes f).withNodes g = m.withNodes g := rfl

theorem set_ok (h : i < m.buddyTreeSize) (hv : v < 2 ^ 8) :
    m.set (i : Nat) v = .ok (m.withNodes (update m.buddyNodes i v)) := by
  unfold set
  rw [if_pos (by omega), Int.toNat_natCast, Nat.mod_eq_of_lt hv]
  rfl

theorem update_lt (hf : ∀ i, f i < 2 ^ 8) (i : Nat) (hv : v < 2 ^ 8) (j : Nat) :
    update f i v j < 2 ^ 8 := by
  rw [update_apply]
  split
  · exact hv
  · exact hf j

/-! ## The search of `alloc` -/

section Search

variable {m : PageMgr} {k h x d : Nat} (hin : x < m.buddyTreeSize)
  (hir : 2 * x + 2 < m.buddyTreeSize) (hl : lsub x = 2 * x + 1) (hr : rsub x = 2 * x + 2)

include hin hir hl hr in
/-- A node that is free as a whole is split. -/
theorem allocStep_split (hfx : m.buddyNodes x = h + 2) (hne : ¬h + 2 = k + 1)
    (hbyte : h + 1 < 2 ^ 8) : allocStep (k + 1) (h + 1 + 1) m x d =
      .ok (m.withNodes (update (update m.buddyNodes (2 * x + 2) (h + 1))
        (2 * x + 1) (h + 1)), 2 * x + 1, d) := by
  have hil : 2 * x + 1 < m.buddyTreeSize := Nat.lt_of_succ_lt hir
  simp only [allocStep, get_ok hin, ok_bind, hfx, hne, and_false, if_false, if_true, hl, hr,
    Nat.add_sub_cancel]
  rw [set_ok hir hbyte, ok_bind, set_ok (by exact hil) hbyte, ok_bind]
  rfl

include hin hir hl hr in
theorem allocStep_descend (hne : m.buddyNodes x ≠ h + 2) :
    allocStep (k + 1) (h + 1 + 1) m x d = .ok (m,
      if goLeft k (m.buddyNodes (2 * x + 1)) (m.buddyNodes (2 * x + 2)) then 2 * x + 1
      else 2 * x + 2, d) := by
  have hil : 2 * x + 1 < m.buddyTreeSize := Nat.lt_of_succ_lt hir
  simp only [allocStep, get_ok hin, ok_bind, hne, false_and, if_false, hl, hr, get_ok hil,
    get_ok hir, goLeft]
  by_cases hm : min (m.buddyNodes (2 * x + 1)) (m.buddyNodes (2 * x + 2)) ≥ k + 1
  · simp only [if_pos hm, decide_eq_true_eq]
    rfl
  · simp only [if_neg hm, decide_eq_true_eq]
    rfl

variable {R : Nat} (hR : R ≤ 63)

include hR in
/-- **The search loop of `alloc`** is the library's search, at a node whose subtree is stored and
can serve the request. -/
theorem allocFind_eq {k : Nat} : ∀ {h x d : Nat} {m : PageMgr} {t : BuddyTree},
    m.buddyTreeSize = 2 ^ (R + 1) - 1 → (x + 2) * 2 ^ h ≤ 2 ^ (R + 1) →
    Stored m.buddyNodes h x t → k + 1 ≤ val h t → allocFind (k + 1) (h + 1) m x d =
      .ok (m.withNodes (search k h x m.buddyNodes).1, (search k h x m.buddyNodes).2) := by
  have hRpow : 2 ^ (R + 1) ≤ 2 ^ 64 := Nat.pow_le_pow_right (by omega) (by omega)
  intro h
  induction h with
  | zero =>
    intro x node m t hsz hx s hv
    have hin : x < m.buddyTreeSize := by
      omega
    have hk : k = 0 := by
      have := val_le (h := 0) (t := t)
      omega
    subst hk
    have hfx : m.buddyNodes x = 1 := by
      have := val_le (h := 0) (t := t)
      have := s.val
      omega
    simp [allocFind, allocStep, get_ok hin, hfx, search]
    rfl
  | succ h ih =>
    intro x node m t hsz hx s hv
    have hkh : k ≤ h + 1 := by
      have := val_le (h := h + 1) (t := t)
      omega
    have hchild : ∀ c, c ≤ 2 * x + 2 → (c + 2) * 2 ^ h ≤ 2 ^ (R + 1) :=
      fun c hc => (half_end hc).trans hx
    have hbnd : 2 * x + 4 ≤ 2 ^ (R + 1) :=
      (Nat.le_mul_of_pos_right _ (Nat.two_pow_pos h)).trans (hchild _ le_rfl)
    have hh : h ≤ R + 1 := (Nat.pow_le_pow_iff_right (a := 2) (by omega)).1
      (Nat.le_trans (Nat.le_mul_of_pos_left _ (by omega)) (hchild _ le_rfl))
    have hin : x < m.buddyTreeSize := by omega
    have hir : 2 * x + 2 < m.buddyTreeSize := by omega
    have hl : lsub x = 2 * x + 1 := lsub_eq (by omega)
    have hr : rsub x = 2 * x + 2 := rsub_eq (by omega)
    have hround : k + 1 ≤ h + 1 + 1 := by omega
    cases t with
    | free =>
      have hfx := stored_free.1 s
      by_cases hk : k = h + 1
      · subst hk
        simp [allocFind, allocStep, get_ok hin, hfx, search]
        rfl
      have hbyte : h + 1 < 2 ^ 8 := by omega
      have hval : k + 1 ≤ val h BuddyTree.free := by
        rw [val_free] at hv ⊢
        omega
      let f' := update (update m.buddyNodes (2 * x + 2) (h + 1))
        (2 * x + 1) (h + 1)
      have hsl : Stored f' h (2 * x + 1) BuddyTree.free := by simp [f']
      have hrec := ih (d := node) (m := m.withNodes f') hsz (hchild _ (by omega)) hsl hval
      rw [allocFind, if_pos hround, allocStep_split hin hir hl hr hfx (by omega) hbyte]
      simp only [ok_bind]
      rw [hrec]
      simp only [search, hfx, hk, and_false, if_false, if_true, withNodes_nodes,
        withNodes_withNodes]
      rfl
    | used => simp at hv
    | node l r =>
      have hne := s.ne_of_node
      obtain ⟨hx', hsl, hsr⟩ := s
      have hgo := goLeft_val hv
      rw [← hsl.val, ← hsr.val] at hgo
      rw [allocFind, if_pos hround, allocStep_descend hin hir hl hr hne]
      simp only [ok_bind]
      by_cases hleft : goLeft k (m.buddyNodes (2 * x + 1)) (m.buddyNodes (2 * x + 2)) = true
      · rw [if_pos hleft] at hgo ⊢
        rw [ih hsz (hchild _ (by omega)) hsl (by rw [← hsl.val]; exact hgo)]
        simp [search, hne, hleft]
      · rw [if_neg hleft] at hgo ⊢
        rw [ih hsz (hchild _ (by omega)) hsr (by rw [← hsr.val]; exact hgo)]
        simp [search, hne, hleft]

end Search

/-! ## The upward loops -/

section Up

variable {R : Nat} (hR : R ≤ 63)

include hR in
theorem allocUp_eq (o : Nat) : ∀ (n z : Nat) (m : PageMgr), m.buddyTreeSize = 2 ^ (R + 1) - 1 →
    2 * z + 2 < m.buddyTreeSize → z + 1 < 2 ^ n → (∀ i, m.buddyNodes i < 2 ^ 8) →
    allocUp n m z = .ok (m.withNodes (rebuild (fun _ => max) n o m.buddyNodes z)) ∧
      ∀ i, rebuild (fun _ => max) n o m.buddyNodes z i < 2 ^ 8 := by
  have hRpow : 2 ^ (R + 1) ≤ 2 ^ 64 := Nat.pow_le_pow_right (by omega) (by omega)
  intro n
  induction n generalizing o with
  | zero =>
    omega
  | succ n ih =>
    intro z m hsz hz hn hb
    by_cases hz0 : 0 < z
    · have hmax : max (m.buddyNodes (2 * z + 1)) (m.buddyNodes (2 * z + 2)) < 2 ^ 8 :=
        Nat.max_lt.2 ⟨hb _, hb _⟩
      obtain ⟨he, hlt⟩ := ih (o + 1) ((z + 1) / 2 - 1) (m.withNodes (update m.buddyNodes z _)) hsz
        (by simp only [withNodes_size]; omega) (by rw [Nat.pow_succ] at hn; omega)
        (update_lt hb z hmax)
      simp only [allocUp, gt_iff_lt, hz0, if_true, rebuild, lsub_eq (show z + 1 < 2 ^ 63 by omega),
        rsub_eq (show z + 1 < 2 ^ 63 by omega), prnt_eq hz0 (show z + 1 < 2 ^ 64 by omega),
        get_ok (show 2 * z + 1 < m.buddyTreeSize by omega), get_ok hz, ok_bind,
        set_ok (show z < m.buddyTreeSize by omega) hmax]
      exact ⟨he, hlt⟩
    · simp only [allocUp, gt_iff_lt, hz0, if_false, rebuild]
      exact ⟨rfl, hb⟩

include hR in
theorem freeUp_eq : ∀ (n o z : Nat) (m : PageMgr), m.buddyTreeSize = 2 ^ (R + 1) - 1 →
    2 * z + 2 < m.buddyTreeSize → z < 2 ^ 31 → z + 1 < 2 ^ n → o + n < 2 ^ 8 →
    (∀ i, m.buddyNodes i < 2 ^ 8) →
    freeUp n m z o = .ok (m.withNodes (rebuild mergeVal n o m.buddyNodes z)) ∧
      ∀ i, rebuild mergeVal n o m.buddyNodes z i < 2 ^ 8 := by
  have hRpow : 2 ^ (R + 1) ≤ 2 ^ 64 := Nat.pow_le_pow_right (by omega) (by omega)
  intro n
  induction n with
  | zero =>
    omega
  | succ n ih =>
    intro o z m hsz hz hint hn ho hb
    by_cases hz0 : 0 < z
    · have hval : mergeVal o (m.buddyNodes (2 * z + 1)) (m.buddyNodes (2 * z + 2)) < 2 ^ 8 := by
        unfold mergeVal
        split
        · omega
        · exact Nat.max_lt.2 ⟨hb _, hb _⟩
      obtain ⟨he, hlt⟩ := ih (o + 1) ((z + 1) / 2 - 1) (m.withNodes (update m.buddyNodes z _)) hsz
        (by simp only [withNodes_size]; omega) (by omega) (by rw [Nat.pow_succ] at hn; omega)
        (by omega) (update_lt hb z hval)
      have hxz : xlen z = z := xlen_of_lt (by omega)
      have hset := set_ok (show z < m.buddyTreeSize by omega) hval
      unfold mergeVal at hset
      simp only [freeUp, gt_iff_lt, Int.natCast_pos, hz0, if_true, rebuild, hxz,
        lsub_eq (show z + 1 < 2 ^ 63 by omega), rsub_eq (show z + 1 < 2 ^ 63 by omega),
        prnt_eq hz0 (show z + 1 < 2 ^ 64 by omega),
        toInt_of_lt (show (z + 1) / 2 - 1 < 2 ^ 31 by omega),
        get_ok (show 2 * z + 1 < m.buddyTreeSize by omega), get_ok hz, ok_bind, hset]
      exact ⟨he, hlt⟩
    · simp only [freeUp, gt_iff_lt, Int.natCast_pos, hz0, if_false, rebuild]
      exact ⟨rfl, hb⟩

end Up

/-! ## `alloc` and `free` on trees -/

/-- What the constructor fixes, and that the entries are bytes. -/
structure Shape (m : PageMgr) : Prop where
  order_pos : 1 ≤ m.rootOrder
  order_le : m.rootOrder ≤ 63
  size : m.buddyTreeSize = 2 ^ (m.rootOrder + 1) - 1
  byte : ∀ i, m.buddyNodes i < 2 ^ 8

def SameRange (m m' : PageMgr) : Prop :=
  m'.start = m.start ∧ m'.end_ = m.end_ ∧ m'.rootOrder = m.rootOrder

theorem Shape.withNodes (s : Shape m) (hf : ∀ i, f i < 2 ^ 8) :
    Shape (m.withNodes f) := ⟨s.order_pos, s.order_le, s.size, hf⟩

/-- The reads and the write of the root in the last lines of `alloc` and `free`. -/
theorem Shape.root_ok (sh : Shape m) (hg : ∀ i, g i < 2 ^ 8) :
    (m.withNodes g).get (lsub 0) = .ok (g 1) ∧ (m.withNodes g).get (rsub 0) = .ok (g 2) ∧
      (m.withNodes g).set 0 (max (g 1) (g 2)) =
        .ok (m.withNodes (update g 0 (max (g 1) (g 2)))) := by
  have hR2 : 2 ^ 2 ≤ 2 ^ (m.rootOrder + 1) :=
    Nat.pow_le_pow_right (by omega) (by have := sh.order_pos; omega)
  have hsz : 2 < (m.withNodes g).buddyTreeSize := by
    rw [withNodes_size, sh.size]
    omega
  refine ⟨?_, ?_, ?_⟩
  · exact get_ok (i := 1) (by omega)
  · exact get_ok (i := 2) hsz
  · exact set_ok (i := 0) (by omega) (Nat.max_lt.2 ⟨hg 1, hg 2⟩)

/-- The last writes of `alloc` and `free`: the ancestors of `y` are recomputed, then the root. -/
theorem rebuilt {c : Nat → Nat → Nat → Nat} (hy0 : 0 < y) (hy : y < 2 ^ 64)
    (hg : g = rebuild c 64 (k + 1) f ((y + 1) / 2 - 1)) : let g' := update g 0 v
    g' y = f y ∧
    (∀ w d, 0 < w → 1 ≤ d → (y + 1) / 2 ^ d = w + 1 →
      g' w = c (k + d) (g' (2 * w + 1)) (g' (2 * w + 2))) ∧
    (∀ w, 0 < w → ¬Below w y → g' w = f w) := by
  intro g'
  have hpar : (y + 1) / 2 - 1 + 1 = (y + 1) / 2 := by omega
  have hup : Below ((y + 1) / 2 - 1) y := ⟨1, by rw [hpar, Nat.pow_one]⟩
  obtain ⟨hat, hoff⟩ := rebuild_spec c 64 (k + 1) f ((y + 1) / 2 - 1) (by omega)
  rw [← hg] at hat hoff
  have hg' : ∀ w, 0 < w → g' w = g w := fun w hw => update_of_ne (by omega) _ _
  refine ⟨?_, ?_, ?_⟩
  · rw [hg' y hy0, hoff y (.inr fun hb => ?_)]
    have := hb.le
    omega
  · intro w d hw hd he
    rw [hg' w hw, hg' (2 * w + 1) (by omega), hg' (2 * w + 2) (by omega),
      hat w (d - 1) hw ?_, show k + 1 + (d - 1) = k + d by omega]
    rw [hpar, Nat.div_div_eq_div_mul, ← Nat.pow_succ', show (d - 1).succ = d by omega]
    exact he
  · intro w hw hn
    rw [hg' w hw, hoff w (.inr fun hb => hn (hb.trans hup))]

theorem node_bounds (hk : k < R) (hp : p < 2 ^ R) (hy : y + 1 = 2 ^ (R - k) + p / 2 ^ k) :
    p / 2 ^ k < 2 ^ (R - k) ∧ 0 < y ∧ y < 2 ^ (R + 1) - 1 ∧
      2 * ((y + 1) / 2 - 1) + 2 < 2 ^ (R + 1) - 1 := by
  have hlt : p / 2 ^ k < 2 ^ (R - k) := by
    rw [Nat.div_lt_iff_lt_mul (Nat.two_pow_pos k), ← Nat.pow_add, Nat.sub_add_cancel (by omega)]
    exact hp
  have hle : 2 ^ (R - k) ≤ 2 ^ R := Nat.pow_le_pow_right (by omega) (by omega)
  have hge : 2 ^ 1 ≤ 2 ^ (R - k) := Nat.pow_le_pow_right (by omega) (by omega)
  generalize p / 2 ^ k = j at hlt hy
  omega

theorem ppn_eq {s : Nat} (hal : 2 ^ k ∣ p)
    (hy : y + 1 = 2 ^ (R - k) + p / 2 ^ k) (hlt : s + p < 2 ^ 64) :
    xlen ((s : Int) + ((y : Int) + 1 - 2 ^ (R + 1 - (k + 1))) * 2 ^ (k + 1 - 1)) =
      s + p := by
  have hcast : (s : Int) + ((y : Int) + 1 - 2 ^ (R + 1 - (k + 1))) * 2 ^ (k + 1 - 1) =
      ((s + p : Nat) : Int) := by
    have hnode : ((y : Int) + 1 - 2 ^ (R + 1 - (k + 1))) = ((p / 2 ^ k : Nat) : Int) := by
      rw [Nat.add_sub_add_right, sub_eq_iff_eq_add']
      exact_mod_cast hy
    rw [hnode, Nat.add_sub_cancel]
    conv_rhs => rw [← Nat.div_mul_cancel hal]
    push_cast
    ring
  rw [hcast]
  exact xlen_of_lt hlt

section

variable (sh : Shape m)
include sh

/-- **`alloc` on a stored tree** returns the block that `BuddyTree.alloc` takes and stores the tree
it leaves, unless the block starts at page 0. -/
theorem alloc_stored {l r : BuddyTree} (hst : Stored m.buddyNodes m.rootOrder 0 (node l r))
    (hv : log2up n + 1 ≤ val m.rootOrder (node l r)) (hend : m.end_ < 2 ^ 64)
    (hin : ∀ q, q < 2 ^ m.rootOrder → IsFree m.rootOrder (node l r) q → m.start + q < m.end_) :
    ∃ p l' r' m', (0 < m.start + p → m.alloc n = .ok (m.start + p, m')) ∧
      (m.start + p = 0 → m.alloc n = .error (.assertion "ppn>0")) ∧ Shape m' ∧ SameRange m m' ∧
      Stored m'.buddyNodes m.rootOrder 0 (node l' r') ∧
      BuddyTree.alloc (log2up n) m.rootOrder (node l r) = some (p, node l' r') ∧
      BuddyTree.Alloc (log2up n) m.rootOrder (node l r) p (node l' r') := by
  have hR := sh.order_le
  have hRpow : 2 ^ (m.rootOrder + 1) ≤ 2 ^ 64 := Nat.pow_le_pow_right (by omega) (by omega)
  have hsz := sh.size
  generalize hk : log2up n = k at hv ⊢
  have hkR : k + 1 ≤ m.rootOrder := hv.trans (val_node_le _ _ _)
  obtain ⟨p, t', hal, A⟩ := BuddyTree.alloc_spec hst.fits hv
  obtain ⟨f', y, p', t'', hs, hal', F⟩ := search_stored hst hv
  cases hal.symm.trans hal'
  have hfind := allocFind_eq hR (d := 0) hsz (by omega) hst hv
  rw [hs] at hfind
  -- the node found, and where it is
  have hidx := F.index
  have hdiv := index_div A.inside hidx
  have hpR : p < 2 ^ m.rootOrder := Nat.lt_of_lt_of_le (by simp) A.inside
  rw [Nat.zero_add, Nat.one_mul] at hidx
  obtain ⟨hlt, hy0, hysz, hup⟩ := node_bounds hkR hpR hidx
  generalize hj : p / 2 ^ k = j at hidx hlt
  have hfb : ∀ i, f' i < 2 ^ 8 := by
    intro i
    have := search_lt (k := k) (x := 0) sh.byte (show m.rootOrder < 2 ^ 8 by omega) i
    rw [hs] at this
    exact this
  -- the two loops and the writes between them
  have hset := set_ok (m := m.withNodes f') (i := y) (v := 0) (hsz ▸ hysz) (by omega)
  have hfu := update_lt hfb y (v := 0) (by omega)
  obtain ⟨hup, hgb⟩ := allocUp_eq hR (k + 1) 64 ((y + 1) / 2 - 1)
    (m.withNodes (update f' y 0)) hsz (by simp only [withNodes_size]; omega) (by omega) hfu
  rw [withNodes_nodes, withNodes_withNodes] at hup
  rw [withNodes_nodes] at hgb
  generalize hg : rebuild (fun _ => max) 64 (k + 1) (update f' y 0) ((y + 1) / 2 - 1) = g
    at hup hgb
  have hmaxb : max (g 1) (g 2) < 2 ^ 8 := Nat.max_lt.2 ⟨hgb 1, hgb 2⟩
  have hget0 : m.get 0 = .ok (m.buddyNodes 0) := get_ok (i := 0) (by omega)
  obtain ⟨hget1, hget2, hset0⟩ := sh.root_ok hgb
  have hpk := Nat.two_pow_pos k
  have hpin : m.start + p < m.end_ := by
    refine hin p ?_ (A.wasFree p (Nat.le_refl p) (by omega))
    omega
  have hppn := ppn_eq (s := m.start) A.aligned (hj ▸ hidx) (by omega)
  have hroot : ¬m.buddyNodes 0 < k + 1 := by
    rw [hst.val]
    omega
  obtain ⟨l', r', rfl⟩ := alloc_node hal
  have halloc : m.alloc n = (do
      assert_ (decide (0 < m.start + p)) "ppn>0"
      return (m.start + p, m.withNodes (update g 0 (max (g 1) (g 2))))) := by
    simp only [alloc, hk, hget0, ok_bind, hroot, if_false, hfind, hset,
      prnt_eq hy0 (show y + 1 < 2 ^ 64 by omega), hup,
      hget1, hget2, hset0, hy0, gt_iff_lt, decide_true,
      assert_true, hppn, hpin, withNodes_withNodes, withNodes_nodes, withNodes_start, withNodes_end,
      withNodes_order]
  refine ⟨p, l', r', m.withNodes (update g 0 (max (g 1) (g 2))), ?_, ?_, ?_, ?_, ?_,
    hal, A⟩
  · intro h0
    rw [halloc, decide_eq_true h0]
    rfl
  · intro h0
    rw [halloc, h0]
    rfl
  · exact sh.withNodes (update_lt hgb 0 hmaxb)
  · exact ⟨rfl, rfl, rfl⟩
  · obtain ⟨h1, h2, h3⟩ := rebuilt (k := k) (v := max (g 1) (g 2)) hy0 (by omega) hg.symm
    refine F.stored _ ?_ ?_ ?_
    · rw [withNodes_nodes, h1, update_self]
    · intro w d hw hd he
      rcases Nat.eq_zero_or_pos w with rfl | hw0
      · simp [update_of_ne]
      · exact h2 w d hw0 hd he
    · intro w hw hn
      have hw0 : 0 < w := by
        rcases Nat.eq_zero_or_pos w with rfl | hw0
        · exact absurd ⟨m.rootOrder - k, hdiv⟩ hn
        · exact hw0
      rw [withNodes_nodes, h3 w hw0 hn, update_of_ne]
      rintro rfl
      exact hn (.refl w)

theorem alloc_outOfPages {t : BuddyTree}
    (hst : Stored m.buddyNodes m.rootOrder 0 t) (hv : val m.rootOrder t ≤ log2up n) :
    m.alloc n = .error outOfPages := by
  have hpow := Nat.one_lt_two_pow (Nat.succ_ne_zero m.rootOrder)
  have hget : m.get 0 = .ok (m.buddyNodes 0) := get_ok (i := 0) (by rw [sh.size]; omega)
  have hroot : m.buddyNodes 0 < log2up n + 1 := by
    rw [hst.val]
    omega
  simp only [alloc, hget, ok_bind, hroot, if_true]

theorem free_eq (hk : k < m.rootOrder) (hp : p < 2 ^ m.rootOrder) (hstart : m.start + p < 2 ^ 64)
    (hy : y + 1 = 2 ^ (m.rootOrder - k) + p / 2 ^ k) (hint : y < 2 ^ 31) (h0 : m.buddyNodes y = 0) :
    ∃ g, m.free (m.start + p) k = .ok (m.withNodes g) ∧ (∀ i, g i < 2 ^ 8) ∧
      g 0 = max (g 1) (g 2) ∧ g y = k + 1 ∧ (∀ w d, 0 < w → 1 ≤ d → (y + 1) / 2 ^ d = w + 1 →
        g w = mergeVal (k + d) (g (2 * w + 1)) (g (2 * w + 2))) ∧
      (∀ w, 0 < w → ¬Below w y → g w = m.buddyNodes w) := by
  have hR := sh.order_le
  have hRpow : 2 ^ (m.rootOrder + 1) ≤ 2 ^ 64 := Nat.pow_le_pow_right (by omega) (by omega)
  have hsz := sh.size
  obtain ⟨hlt, hy0, hysz, hup⟩ := node_bounds hk hp hy
  have hnode : m.pos2node p k = y := by
    have := pos2nodeLoop_eq p k m.rootOrder 0 (by omega) (by omega)
    rw [Nat.mod_eq_of_lt hlt] at this
    unfold pos2node
    omega
  have hset := set_ok (m := m) (i := y) (v := k + 1) (hsz ▸ hysz) (by omega)
  have hfu := update_lt sh.byte y (v := k + 1) (by omega)
  obtain ⟨hfree, hgb⟩ := freeUp_eq hR 64 (k + 1) ((y + 1) / 2 - 1)
    (m.withNodes (update m.buddyNodes y (k + 1))) hsz
    (by simp only [withNodes_size]; omega) (by omega) (by omega) (by omega) hfu
  rw [withNodes_nodes, withNodes_withNodes] at hfree
  rw [withNodes_nodes] at hgb
  generalize hg : rebuild mergeVal 64 (k + 1) (update m.buddyNodes y (k + 1))
    ((y + 1) / 2 - 1) = g at hfree hgb
  have hmaxb : max (g 1) (g 2) < 2 ^ 8 := Nat.max_lt.2 ⟨hgb 1, hgb 2⟩
  obtain ⟨hget1, hget2, hset0⟩ := sh.root_ok hgb
  obtain ⟨h1, h2, h3⟩ := rebuilt (k := k) (v := max (g 1) (g 2)) hy0 (by omega) hg.symm
  refine ⟨update g 0 (max (g 1) (g 2)), ?_, update_lt hgb 0 hmaxb, ?_, ?_, h2, ?_⟩
  · have hget : m.get y = .ok 0 := h0 ▸ get_ok (hsz ▸ hysz)
    have hpos := xlen_add_sub hstart
    obtain ⟨hidx, hpr⟩ := int_node hy0 hint
    simp only [free, hpos, hnode, hidx, hget, ok_bind, beq_self_eq_true, assert_true, hset, hpr,
      hfree, hget1, hget2, hset0]
  · simp [update_of_ne]
  · rw [h1, update_self]
  · intro w hw hn
    rw [h3 w hw hn, update_of_ne]
    rintro rfl
    exact hn (.refl w)

/-- `free` of a used block inside the half at node `x`: the half is released, and the entries below
any node `z` that shares nothing with it stay. -/
theorem free_half {q : Nat} (hS : m.rootOrder = S + 1)
    (hx : x = 1 ∨ x = 2) {t : BuddyTree} (ht : Stored m.buddyNodes S x t) (hq : q < 2 ^ S)
    (hu : UsedAt k S t q) (hstart : m.start + (q + (x - 1) * 2 ^ S) < 2 ^ 64)
    (hint : 2 ^ (m.rootOrder - k) + (q + (x - 1) * 2 ^ S) / 2 ^ k ≤ 2 ^ 31) :
    ∃ g, m.free (m.start + (q + (x - 1) * 2 ^ S)) k = .ok (m.withNodes g) ∧ (∀ i, g i < 2 ^ 8) ∧
      g 0 = max (g 1) (g 2) ∧ Stored g S x (release k S q t) ∧
      (∀ z, 0 < z → (∀ w, Below x w → Below z w → False) → ∀ w, Below z w →
        g w = m.buddyNodes w) := by
  obtain ⟨hkS, -, hin⟩ := hu.block hq
  obtain ⟨y, hy⟩ : ∃ y, y + 1 = (x + 1) * 2 ^ (S - k) + q / 2 ^ k :=
    Nat.exists_eq_add_one.2 (Nat.add_pos_left (Nat.mul_pos (by omega) (Nat.two_pow_pos _)) _) |>.imp
      fun _ h => h.symm
  obtain ⟨h0, hrel⟩ := release_stored ht hu hq hy
  have hxy : Below x y := ⟨S - k, index_div hin hy⟩
  have hlevel : y + 1 = 2 ^ (m.rootOrder - k) + (q + (x - 1) * 2 ^ S) / 2 ^ k := by
    have hpow : 2 ^ S = 2 ^ (S - k) * 2 ^ k := by rw [← Nat.pow_add, Nat.sub_add_cancel hkS]
    have hdiv : (q + (x - 1) * 2 ^ S) / 2 ^ k = q / 2 ^ k + (x - 1) * 2 ^ (S - k) := by
      rw [hpow, ← Nat.mul_assoc, Nat.add_mul_div_right _ _ (Nat.two_pow_pos k)]
    rw [hy, hdiv, hS, show S + 1 - k = (S - k) + 1 by omega, Nat.pow_succ']
    rcases hx with rfl | rfl <;> ring
  have hp : q + (x - 1) * 2 ^ S < 2 ^ m.rootOrder := by
    rw [hS, Nat.pow_succ']
    rcases hx with rfl | rfl <;> omega
  obtain ⟨g, hfree, hgb, hroot, hgy, hpath, hframe⟩ :=
    free_eq sh (by omega) hp hstart hlevel (by omega) h0
  refine ⟨g, hfree, hgb, hroot, hrel g hgy ?_ ?_, ?_⟩
  · intro w d hw hd he
    exact hpath w d (Nat.lt_of_lt_of_le (by omega) hw.le) hd he
  · intro w hw hn
    exact hframe w (Nat.lt_of_lt_of_le (by omega) hw.le) hn
  · intro z hz hdis w hw
    refine hframe w (hz.trans_le hw.le) ?_
    intro hwy
    exact hdis y hxy (hw.trans hwy)

/-- **`free` on a stored tree.** Only the two halves need be stored, since `free` computes the root
from them and does not read it. -/
theorem free_stored (hS : m.rootOrder = S + 1)
    {l r : BuddyTree} (hl : Stored m.buddyNodes S 1 l) (hr : Stored m.buddyNodes S 2 r)
    (hp : p < 2 ^ (S + 1)) (hu : UsedAt k (S + 1) (node l r) p) (hstart : m.start + p < 2 ^ 64)
    (hint : 2 ^ (m.rootOrder - k) + p / 2 ^ k ≤ 2 ^ 31) :
    ∃ l' r' m', m.free (m.start + p) k = .ok m' ∧ Shape m' ∧ SameRange m m' ∧
      Stored m'.buddyNodes m.rootOrder 0 (node l' r') ∧
      Release k (S + 1) p (node l r) (node l' r') ∧ (Merged l → Merged l') ∧
      (Merged r → Merged r') := by
  by_cases hpl : p < 2 ^ S
  · have hul : UsedAt k S l p := (usedAt_left hpl).1 hu
    obtain ⟨g, hfree, hgb, hroot, hst, hframe⟩ :=
      free_half sh hS (.inl rfl) hl hpl hul (by simpa using hstart) (by simpa using hint)
    rw [Nat.sub_self, Nat.zero_mul, Nat.add_zero] at hfree
    have hst' : Stored g S 2 r := hr.congr (hframe 2 (by omega) fun w => Below.disjoint (x := 0))
    refine ⟨release k S p l, r, m.withNodes g, hfree, sh.withNodes hgb, ⟨rfl, rfl, rfl⟩, ?_,
      .left hr.fits (hul.block hpl).2.2 (release_spec hpl hl.fits hul), merged_release, id⟩
    rw [hS]
    exact ⟨by rw [withNodes_nodes, hroot, hst.val, hst'.val], hst, hst'⟩
  · have hur : UsedAt k S r (p - 2 ^ S) := (usedAt_right hpl).1 hu
    have hp' : p - 2 ^ S + (2 - 1) * 2 ^ S = p := by omega
    obtain ⟨g, hfree, hgb, hroot, hst, hframe⟩ :=
      free_half sh hS (.inr rfl) hr (by omega) hur (by rwa [hp']) (by rwa [hp'])
    rw [hp'] at hfree
    have hst' : Stored g S 1 l :=
      hl.congr (hframe 1 (by omega) fun w h1 h2 => Below.disjoint (x := 0) h2 h1)
    refine ⟨l, release k S (p - 2 ^ S) r, m.withNodes g, hfree, sh.withNodes hgb, ⟨rfl, rfl, rfl⟩,
      ?_, .right hl.fits (by omega) (release_spec (by omega) hr.fits hur), id, merged_release⟩
    rw [hS]
    exact ⟨by rw [withNodes_nodes, hroot, hst.val, hst'.val], hst', hst⟩

end

end LuoOS.Alloc.PageMgr
