import LuoOS.Lib.BuddyTree

/-!
# Buddy trees stored in an array

The halves of node `i` are nodes `2i + 1` and `2i + 2`. `Stored f h i t` says that the array `f`
holds the tree `t` of height `h` at node `i`; entries below a leaf may be anything. `search` walks
down to the block that `BuddyTree.alloc` takes, and `rebuild` recomputes the ancestors of a node
bottom up. In between the array is no stored tree, so `search_stored` and `release_stored` are about
any array `g` whose entries on the path satisfy the equations of the recomputation.
-/

namespace BuddyTree

open Function

def Below (x z : Nat) : Prop := ∃ d, (z + 1) / 2 ^ d = x + 1

theorem Below.refl (x : Nat) : Below x x := ⟨0, by simp⟩

variable {f f' g : Nat → Nat} {h k p x y z : Nat}

theorem Below.trans (h1 : Below x y) (h2 : Below y z) : Below x z := by
  obtain ⟨d, hd⟩ := h1
  obtain ⟨e, he⟩ := h2
  exact ⟨e + d, by rw [Nat.pow_add, ← Nat.div_div_eq_div_mul, he, hd]⟩

theorem Below.lsub (x : Nat) : Below x (2 * x + 1) := ⟨1, by omega⟩

theorem Below.rsub (x : Nat) : Below x (2 * x + 2) := ⟨1, by omega⟩

theorem Below.le (h : Below x z) : x ≤ z := by
  obtain ⟨d, hd⟩ := h
  have := Nat.div_le_self (z + 1) (2 ^ d)
  omega

theorem not_below_half {c : Nat} (hc : Below x c) (hlt : x < c) (hz : Below x z → z = x) :
    ¬Below c z := by
  intro hb
  have h1 := hz (hc.trans hb)
  have h2 := hb.le
  omega

/-- What is below a half is below the node by at least one step. -/
theorem Below.steps {c : Nat} (hc : Below x c) (hlt : x < c) (hb : Below c z) :
    ∃ d, 1 ≤ d ∧ (z + 1) / 2 ^ d = x + 1 := by
  obtain ⟨d, hd⟩ := hc.trans hb
  refine ⟨d, Nat.pos_of_ne_zero ?_, hd⟩
  rintro rfl
  have := hb.le
  omega

theorem Below.disjoint (hl : Below (2 * x + 1) z) (hr : Below (2 * x + 2) z) : False := by
  obtain ⟨d, hd⟩ := hl
  obtain ⟨e, he⟩ := hr
  rcases Nat.lt_trichotomy d e with h | h | h
  · obtain ⟨c, rfl⟩ : ∃ c, e = d + (c + 1) := ⟨e - d - 1, by omega⟩
    rw [Nat.pow_add, ← Nat.div_div_eq_div_mul, hd] at he
    have : (2 * x + 1 + 1) / 2 ^ (c + 1) ≤ 2 * x + 1 + 1 := Nat.div_le_self _ _
    omega
  · subst h
    omega
  · obtain ⟨c, rfl⟩ : ∃ c, d = e + (c + 1) := ⟨d - e - 1, by omega⟩
    rw [Nat.pow_add, ← Nat.div_div_eq_div_mul, he, Nat.pow_succ', ← Nat.div_div_eq_div_mul] at hd
    have : (2 * x + 2 + 1) / 2 / 2 ^ c ≤ (2 * x + 2 + 1) / 2 := Nat.div_le_self _ _
    omega

/-! ## Stored trees -/

def Stored (f : Nat → Nat) : Nat → Nat → BuddyTree → Prop
  | h, x, free => f x = h + 1
  | _, x, used => f x = 0
  | 0, _, node _ _ => False
  | h + 1, x, node l r =>
    f x = max (val h l) (val h r) ∧ Stored f h (2 * x + 1) l ∧ Stored f h (2 * x + 2) r

@[simp] theorem stored_free : Stored f h x free ↔ f x = h + 1 := by cases h <;> exact Iff.rfl

@[simp] theorem stored_used : Stored f h x used ↔ f x = 0 := by cases h <;> exact Iff.rfl

variable {t t' : BuddyTree}

theorem Stored.val (s : Stored f h x t) : f x = val h t := by
  cases t with
  | free => rw [stored_free.1 s, val_free]
  | used => rw [stored_used.1 s, val_used]
  | node l r =>
    cases h with
    | zero => exact s.elim
    | succ h => exact s.1

theorem Stored.ne_of_node {l r : BuddyTree} (s : Stored f (h + 1) x (node l r)) : f x ≠ h + 2 := by
  rw [s.val]
  exact Nat.ne_of_lt (Nat.lt_succ_of_le (val_node_le (h + 1) l r))

theorem Stored.fits (s : Stored f h x t) : Fits h t := by
  fun_induction Stored f h x t with
  | case1 h => exact fits_free h
  | case2 h => exact fits_used h
  | case3 => exact s.elim
  | case4 h x l r ihl ihr => exact ⟨ihl s.2.1, ihr s.2.2⟩

/-- Page `p` below node `x` of order `h` is in a block the array offers: a node with entry `h + 1`
offers all its pages, one with entry 0 none. -/
def offered (f : Nat → Nat) : Nat → Nat → Nat → Bool
  | 0, x, _ => f x == 1
  | h + 1, x, p =>
    if f x = h + 2 then true
    else if f x = 0 then false
    else if p < 2 ^ h then offered f h (2 * x + 1) p
    else offered f h (2 * x + 2) (p - 2 ^ h)

theorem Stored.offered_iff (s : Stored f h x t) (hp : p < 2 ^ h) :
    offered f h x p = true ↔ IsFree h t p := by
  induction t generalizing h x p with
  | free => cases h <;> simp [offered, stored_free.1 s]
  | used => cases h <;> simp [offered, stored_used.1 s]
  | node l r ihl ihr =>
    cases h with
    | zero => exact s.elim
    | succ h =>
      have hne := s.ne_of_node
      obtain ⟨hx, sl, sr⟩ := s
      by_cases h0 : f x = 0
      · -- neither half has a free page
        have hnone : ¬IsFree (h + 1) (node l r) p := by
          intro hf
          have hpos := val_pos_of_isFree hp hf
          rw [val_node] at hpos
          omega
        simp [offered, h0, hnone]
      · simp only [offered, hne, h0, if_false, IsFree]
        split
        · rename_i hl
          exact ihl sl hl
        · exact ihr sr (by omega)

/-- Where the numbers of the nodes below `x` end: the halves end no later. -/
theorem half_end {c : Nat} (hc : c ≤ 2 * x + 2) : (c + 2) * 2 ^ h ≤ (x + 2) * 2 ^ (h + 1) :=
  calc (c + 2) * 2 ^ h ≤ (2 * x + 4) * 2 ^ h := Nat.mul_le_mul_right _ (by omega)
    _ = (x + 2) * 2 ^ (h + 1) := by ring

/-- Zeros store a tree without free blocks. -/
theorem stored_digits {n : Nat} (hf : ∀ w, x ≤ w → w + 2 ≤ (x + 2) * 2 ^ h → f w = 0) :
    Stored f h x (digits h n) := by
  induction h generalizing x n with
  | zero => exact hf x le_rfl (by simp)
  | succ h ih =>
    have hx : f x = 0 := hf x le_rfl (Nat.le_mul_of_pos_right _ (Nat.two_pow_pos _))
    have hchild : ∀ c, x ≤ c → c ≤ 2 * x + 2 → ∀ w, c ≤ w → w + 2 ≤ (c + 2) * 2 ^ h → f w = 0 := by
      intro c hxc hc w hw hw2
      exact hf w (by omega) (hw2.trans (half_end hc))
    have hused : ∀ c, x ≤ c → c ≤ 2 * x + 2 → Stored f h c used := fun c hxc hc =>
      stored_used.2 (hchild c hxc hc c le_rfl (Nat.le_mul_of_pos_right _ (Nat.two_pow_pos _)))
    unfold digits
    split
    · refine ⟨?_, hused _ (by omega) (by omega), ih (hchild _ (by omega) (by omega))⟩
      rw [hx, val_used, val_digits, Nat.max_self]
    · refine ⟨?_, ih (hchild _ (by omega) (by omega)), hused _ (by omega) (by omega)⟩
      rw [hx, val_used, val_digits, Nat.max_self]

theorem Stored.congr (s : Stored f h x t) (hg : ∀ w, Below x w → g w = f w) : Stored g h x t := by
  fun_induction Stored f h x t with
  | case1 h x => exact stored_free.2 ((hg x (.refl x)).trans s)
  | case2 h x => exact stored_used.2 ((hg x (.refl x)).trans s)
  | case3 => exact s
  | case4 h x l r ihl ihr =>
    refine ⟨(hg x (.refl x)).trans s.1, ihl s.2.1 ?_, ihr s.2.2 ?_⟩
    · exact fun w hw => hg w ((Below.lsub x).trans hw)
    · exact fun w hw => hg w ((Below.rsub x).trans hw)

/-! ## Recomputing the ancestors -/

def rebuild (c : Nat → Nat → Nat → Nat) : Nat → Nat → (Nat → Nat) → Nat → (Nat → Nat)
  | 0, _, f, _ => f
  | n + 1, o, f, z =>
    if 0 < z then
      rebuild c n (o + 1) (update f z (c o (f (2 * z + 1)) (f (2 * z + 2))))
        ((z + 1) / 2 - 1)
    else f

/-- **The recomputed entries satisfy their equations**: each node on the path has the value computed
from the final ones of its halves, and nothing else changes. -/
theorem rebuild_spec (c : Nat → Nat → Nat → Nat) : ∀ (n o : Nat) (f : Nat → Nat) (z : Nat),
    z + 1 < 2 ^ n → (∀ w d, 0 < w → (z + 1) / 2 ^ d = w + 1 → rebuild c n o f z w =
      c (o + d) (rebuild c n o f z (2 * w + 1)) (rebuild c n o f z (2 * w + 2))) ∧
    (∀ w, w = 0 ∨ ¬Below w z → rebuild c n o f z w = f w) := by
  intro n
  induction n with
  | zero =>
    omega
  | succ n ih =>
    intro o f z hz
    by_cases hz0 : 0 < z
    · have hpar : (z + 1) / 2 - 1 + 1 = (z + 1) / 2 := by omega
      obtain ⟨hat, hoff⟩ := ih (o + 1)
        (update f z (c o (f (2 * z + 1)) (f (2 * z + 2)))) ((z + 1) / 2 - 1)
        (by rw [Nat.pow_succ] at hz; omega)
      have hunf : rebuild c (n + 1) o f z = rebuild c n (o + 1)
          (update f z (c o (f (2 * z + 1)) (f (2 * z + 2)))) ((z + 1) / 2 - 1) := by
        simp only [rebuild, hz0, if_true]
      rw [hunf]
      -- the recursion only writes proper ancestors of `z`
      have hbig : ∀ w, z ≤ w → rebuild c n (o + 1)
          (update f z (c o (f (2 * z + 1)) (f (2 * z + 2)))) ((z + 1) / 2 - 1) w =
          update f z (c o (f (2 * z + 1)) (f (2 * z + 2))) w := by
        intro w hw
        refine hoff w (.inr fun hb => ?_)
        have := hb.le
        omega
      refine ⟨?_, ?_⟩
      · intro w d hw hd
        cases d with
        | zero =>
          have hwz : w = z := by
            omega
          subst hwz
          rw [hbig w (Nat.le_refl w), hbig (2 * w + 1) (by omega), hbig (2 * w + 2) (by omega),
            update_self, update_of_ne (by omega),
            update_of_ne (by omega)]
          rfl
        | succ d =>
          have := hat w d hw (by
            rw [hpar, Nat.div_div_eq_div_mul, ← Nat.pow_succ']
            exact hd)
          rw [this, show o + 1 + d = o + (d + 1) by omega]
      · intro w hw
        have hne : w ≠ z := by
          rintro rfl
          rcases hw with h | h
          · omega
          · exact h (.refl w)
        rw [hoff w, update_of_ne hne]
        rcases hw with h | h
        · exact .inl h
        · refine .inr fun hb => h (hb.trans ⟨1, ?_⟩)
          rw [Nat.pow_one, hpar]
    · have hz' : z = 0 := by omega
      subst hz'
      refine ⟨?_, fun _ _ => rfl⟩
      intro w d hw hd
      have : (0 + 1) / 2 ^ d ≤ 0 + 1 := Nat.div_le_self _ _
      omega

/-! ## Searching -/

def search (k : Nat) : Nat → Nat → (Nat → Nat) → (Nat → Nat) × Nat
  | 0, x, f => (f, x)
  | h + 1, x, f =>
    if f x = h + 2 ∧ k = h + 1 then (f, x)
    else if f x = h + 2 then
      search k h (2 * x + 1) (update (update f (2 * x + 2) (h + 1))
        (2 * x + 1) (h + 1))
    else if goLeft k (f (2 * x + 1)) (f (2 * x + 2)) then search k h (2 * x + 1) f
    else search k h (2 * x + 2) f

theorem search_lt {B : Nat} (hf : ∀ i, f i < B) (hh : h < B) (i : Nat) :
    (search k h x f).1 i < B := by
  fun_induction search k h x f with
  | case1 | case2 => exact hf i
  | case3 h x f _ _ ih =>
    refine ih (fun j => ?_) (by omega)
    rw [update_apply, update_apply]
    split_ifs
    · exact hh
    · exact hh
    · exact hf j
  | case4 h x f _ _ _ ih => exact ih hf (by omega)
  | case5 h x f _ _ _ ih => exact ih hf (by omega)

/-- What `search` from node `x` finds: the node `y` of the block at offset `p`. Marking it used and
recomputing its ancestors stores `t'`. -/
structure Found (k h x : Nat) (f f' : Nat → Nat) (y p : Nat) (t' : BuddyTree) : Prop where
  index : y + 1 = (x + 1) * 2 ^ (h - k) + p / 2 ^ k
  frame : ∀ w, (Below x w → w = x) → f' w = f w
  stored : ∀ g : Nat → Nat, g y = 0 →
    (∀ w d, Below x w → 1 ≤ d → (y + 1) / 2 ^ d = w + 1 →
      g w = max (g (2 * w + 1)) (g (2 * w + 2))) →
    (∀ w, Below x w → ¬Below w y → g w = f' w) → Stored g h x t'

theorem le_of_inside (hin : p + 2 ^ k ≤ 2 ^ h) : k ≤ h :=
  (Nat.pow_le_pow_iff_right (a := 2) (by omega)).1 (by omega)

/-- The node of the block at offset `p` is `h - k` levels below the root of its tree. -/
theorem index_div (hin : p + 2 ^ k ≤ 2 ^ h)
    (hy : y + 1 = (x + 1) * 2 ^ (h - k) + p / 2 ^ k) : (y + 1) / 2 ^ (h - k) = x + 1 := by
  have hlt : p / 2 ^ k < 2 ^ (h - k) := by
    rw [Nat.div_lt_iff_lt_mul (Nat.two_pow_pos k), ← Nat.pow_add,
      Nat.sub_add_cancel (le_of_inside hin)]
    have := Nat.two_pow_pos k
    omega
  rw [hy, Nat.add_comm, Nat.add_mul_div_right _ _ (Nat.two_pow_pos _), Nat.div_eq_of_lt hlt]
  omega

theorem index_left (hkh : k ≤ h) :
    (x + 1) * 2 ^ (h + 1 - k) + p / 2 ^ k = (2 * x + 1 + 1) * 2 ^ (h - k) + p / 2 ^ k := by
  rw [show h + 1 - k = h - k + 1 by omega, Nat.pow_succ]
  ring

theorem index_right (hkh : k ≤ h) : (x + 1) * 2 ^ (h + 1 - k) + (p + 2 ^ h) / 2 ^ k =
    (2 * x + 2 + 1) * 2 ^ (h - k) + p / 2 ^ k := by
  have hpow : 2 ^ h = 2 ^ (h - k) * 2 ^ k := by rw [← Nat.pow_add, Nat.sub_add_cancel hkh]
  rw [show h + 1 - k = h - k + 1 by omega, Nat.pow_succ, hpow,
    Nat.add_mul_div_right _ _ (Nat.two_pow_pos k)]
  ring

theorem Found.below (F : Found k h x f f' y p t') (hin : p + 2 ^ k ≤ 2 ^ h) : Below x y :=
  ⟨h - k, index_div hin F.index⟩

theorem Found.left {f1 : Nat → Nat} {l' r : BuddyTree} (hin : p + 2 ^ k ≤ 2 ^ h)
    (hr : Stored f1 h (2 * x + 2) r) (hf1 : ∀ w, (Below x w → w = x) → f1 w = f w)
    (F : Found k h (2 * x + 1) f1 f' y p l') : Found k (h + 1) x f f' y p (node l' r) := by
  have hy := F.below hin
  refine ⟨F.index.trans (index_left (le_of_inside hin)).symm, ?_, ?_⟩
  · intro w hw
    have hnl := not_below_half (.lsub x) (by omega) hw
    rw [F.frame w (fun hb => absurd hb hnl), hf1 w hw]
  · intro g hgy hat hoff
    have hl : Stored g h (2 * x + 1) l' := F.stored g hgy
      (fun w d hw hd he => hat w d ((Below.lsub x).trans hw) hd he)
      (fun w hw hn => hoff w ((Below.lsub x).trans hw) hn)
    have hr' : Stored g h (2 * x + 2) r := by
      refine hr.congr fun w hw => ?_
      rw [hoff w ((Below.rsub x).trans hw) (fun hb => hy.disjoint (hw.trans hb)),
        F.frame w (fun hb => (hb.disjoint hw).elim)]
    obtain ⟨d, hd1, hd⟩ := (Below.lsub x).steps (by omega) hy
    exact ⟨by rw [hat x d (.refl x) hd1 hd, hl.val, hr'.val], hl, hr'⟩

theorem Found.right {l r' : BuddyTree} (hin : p + 2 ^ k ≤ 2 ^ h) (hl : Stored f h (2 * x + 1) l)
    (F : Found k h (2 * x + 2) f f' y p r') : Found k (h + 1) x f f' y (p + 2 ^ h) (node l r') := by
  have hy := F.below hin
  refine ⟨F.index.trans (index_right (le_of_inside hin)).symm, ?_, ?_⟩
  · intro w hw
    exact F.frame w (fun hb => absurd hb (not_below_half (.rsub x) (by omega) hw))
  · intro g hgy hat hoff
    have hr' : Stored g h (2 * x + 2) r' := F.stored g hgy
      (fun w d hw hd he => hat w d ((Below.rsub x).trans hw) hd he)
      (fun w hw hn => hoff w ((Below.rsub x).trans hw) hn)
    have hl' : Stored g h (2 * x + 1) l := by
      refine hl.congr fun w hw => ?_
      rw [hoff w ((Below.lsub x).trans hw) (fun hb => (hw.trans hb).disjoint hy),
        F.frame w (fun hb => (hw.disjoint hb).elim)]
    obtain ⟨d, hd1, hd⟩ := (Below.rsub x).steps (by omega) hy
    exact ⟨by rw [hat x d (.refl x) hd1 hd, hl'.val, hr'.val], hl', hr'⟩

theorem alloc_inside (hf : Fits h t) (hv : k + 1 ≤ val h t)
    (ha : alloc k h t = some (p, t')) : p + 2 ^ k ≤ 2 ^ h := by
  obtain ⟨q, t1, he, a⟩ := alloc_spec hf hv
  cases he.symm.trans ha
  exact a.inside

/-- **`search` finds the block that `alloc` takes.** -/
theorem search_stored (s : Stored f h x t) (hv : k + 1 ≤ val h t) :
    ∃ f' y p t', search k h x f = (f', y) ∧ alloc k h t = some (p, t') ∧
      Found k h x f f' y p t' := by
  fun_induction alloc k h t generalizing x f with
  | case1 => simp at hv
  | case2 hk =>
    subst hk
    exact ⟨f, x, 0, used, rfl, rfl, by simp, fun _ _ => rfl, fun g hg _ _ => hg⟩
  | case3 hk =>
    rw [val_free] at hv
    omega
  | case4 h hk =>
    subst hk
    refine ⟨f, x, 0, used, by simp [search, stored_free.1 s], rfl, ?_⟩
    exact ⟨by simp, fun _ _ => rfl, fun g hg _ _ => hg⟩
  | case5 h hk ih =>
    have hval : k + 1 ≤ val h free := by
      rw [val_free] at hv ⊢
      omega
    -- both halves are written before the descent
    have hsl : Stored (update (update f (2 * x + 2) (h + 1)) (2 * x + 1) (h + 1)) h (2 * x + 1)
        free := by simp
    have hsr : Stored (update (update f (2 * x + 2) (h + 1)) (2 * x + 1) (h + 1)) h (2 * x + 2)
        free := by simp
    obtain ⟨f', y, p, l', hs, ha, F⟩ := ih hsl hval
    refine ⟨f', y, p, node l' free, by simp [search, stored_free.1 s, hk, hs], by rw [ha]; rfl, ?_⟩
    refine F.left (alloc_inside (fits_free h) hval ha) hsr fun w hw => ?_
    have h1 : w ≠ 2 * x + 1 := by
      rintro rfl
      have := hw (Below.lsub x)
      omega
    have h2 : w ≠ 2 * x + 2 := by
      rintro rfl
      have := hw (Below.rsub x)
      omega
    rw [update_of_ne h1, update_of_ne h2]
  | case6 => exact s.elim
  | case7 h l r hleft ih =>
    have hne := s.ne_of_node
    obtain ⟨hx, hl, hr⟩ := s
    have hgo := goLeft_val hv
    rw [if_pos hleft] at hgo
    obtain ⟨f', y, p, l', hs, ha, F⟩ := ih hl hgo
    rw [← hl.val, ← hr.val] at hleft
    exact ⟨f', y, p, node l' r, by simp [search, hne, hleft, hs], by rw [ha]; rfl,
      F.left (alloc_inside hl.fits hgo ha) hr fun _ _ => rfl⟩
  | case8 h l r hright ih =>
    have hne := s.ne_of_node
    obtain ⟨hx, hl, hr⟩ := s
    have hgo := goLeft_val hv
    rw [if_neg hright] at hgo
    obtain ⟨f', y, p, r', hs, ha, F⟩ := ih hr hgo
    rw [← hl.val, ← hr.val] at hright
    exact ⟨f', y, p + 2 ^ h, node l r', by simp [search, hne, hright, hs], by rw [ha]; rfl,
      F.right (alloc_inside hr.fits hgo ha) hl⟩

/-! ## Freeing -/

def mergeVal (o vl vr : Nat) : Nat :=
  if vl = vr ∧ vl = o then vl + 1 else max vl vr

theorem mergeVal_val (h : Nat) (l r : BuddyTree) :
    mergeVal (h + 1) (val h l) (val h r) = val (h + 1) (merge l r) := (val_merge h l r).symm

theorem Stored.merge {l r : BuddyTree} (hx : g x = mergeVal (h + 1) (g (2 * x + 1)) (g (2 * x + 2)))
    (hl : Stored g h (2 * x + 1) l) (hr : Stored g h (2 * x + 2) r) :
    Stored g (h + 1) x (merge l r) := by
  rw [hl.val, hr.val, mergeVal_val] at hx
  unfold BuddyTree.merge at hx ⊢
  split
  · rename_i e
    rw [if_pos e, val_free] at hx
    exact hx
  · rename_i e
    rw [if_neg e] at hx
    exact ⟨hx, hl, hr⟩

/-- **Freeing a used block stores the released tree**: the entry of the block is 0 before, and any
array with the block's entry set and its ancestors recomputed stores `release`. -/
theorem release_stored (s : Stored f h x t) (hu : UsedAt k h t p) (hp : p < 2 ^ h)
    (hy : y + 1 = (x + 1) * 2 ^ (h - k) + p / 2 ^ k) : f y = 0 ∧ ∀ g : Nat → Nat, g y = k + 1 →
      (∀ w d, Below x w → 1 ≤ d → (y + 1) / 2 ^ d = w + 1 →
        g w = mergeVal (k + d) (g (2 * w + 1)) (g (2 * w + 2))) →
      (∀ w, Below x w → ¬Below w y → g w = f w) → Stored g h x (release k h p t) := by
  have hdiv := index_div (hu.block hp).2.2 hy
  have hkh := (hu.block hp).1
  fun_induction release k h p t generalizing x with
  | case1 => exact (not_usedAt_free _ _ _ hu).elim
  | case2 p =>
    obtain ⟨-, rfl⟩ := usedAt_used.1 hu
    obtain rfl : y = x := by simpa using hy
    exact ⟨stored_used.1 s, fun g hg _ _ => stored_free.2 hg⟩
  | case3 h p hk => exact absurd (usedAt_used.1 hu).1 hk
  | case4 => exact s.elim
  | case5 h p l r hpl ih =>
    obtain ⟨hx, hl, hr⟩ := s
    rw [usedAt_left hpl] at hu
    obtain ⟨hkh', -, hin⟩ := hu.block hpl
    have hy' := hy.trans (index_left hkh')
    have hdiv' := index_div hin hy'
    obtain ⟨hf0, hst⟩ := ih hl hu hpl hy' hdiv' hkh'
    refine ⟨hf0, fun g hgy hat hoff => Stored.merge ?_ (hst g hgy ?_ ?_) (hr.congr fun w hw => ?_)⟩
    · rw [hat x (h + 1 - k) (.refl x) (by omega) hdiv, show k + (h + 1 - k) = h + 1 by omega]
    · exact fun w d hw hd he => hat w d ((Below.lsub x).trans hw) hd he
    · exact fun w hw hn => hoff w ((Below.lsub x).trans hw) hn
    · exact hoff w ((Below.rsub x).trans hw) fun hb => Below.disjoint ⟨_, hdiv'⟩ (hw.trans hb)
  | case6 h p l r hpl ih =>
    obtain ⟨hx, hl, hr⟩ := s
    rw [usedAt_right hpl] at hu
    have hp' : p - 2 ^ h < 2 ^ h := by omega
    obtain ⟨hkh', -, hin⟩ := hu.block hp'
    have hy' : y + 1 = (2 * x + 2 + 1) * 2 ^ (h - k) + (p - 2 ^ h) / 2 ^ k := by
      rw [← index_right hkh', Nat.sub_add_cancel (Nat.le_of_not_lt hpl)]
      exact hy
    have hdiv' := index_div hin hy'
    obtain ⟨hf0, hst⟩ := ih hr hu hp' hy' hdiv' hkh'
    refine ⟨hf0, fun g hgy hat hoff => Stored.merge ?_ (hl.congr fun w hw => ?_) (hst g hgy ?_ ?_)⟩
    · rw [hat x (h + 1 - k) (.refl x) (by omega) hdiv, show k + (h + 1 - k) = h + 1 by omega]
    · exact hoff w ((Below.lsub x).trans hw) fun hb => (hw.trans hb).disjoint ⟨_, hdiv'⟩
    · exact fun w d hw hd he => hat w d ((Below.rsub x).trans hw) hd he
    · exact fun w hw hn => hoff w ((Below.rsub x).trans hw) hn

end BuddyTree
