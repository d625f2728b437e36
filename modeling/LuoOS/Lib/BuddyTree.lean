import Mathlib.Tactic.Ring

/-!
# Buddy trees

A buddy tree of height `h` says which pages of a block of `2 ^ h` pages are free: a leaf of its
whole block, a `node` of its two halves. `val h t` is one more than the order of the largest free
leaf (0 when there is none), the number an allocator keeps at each node. `alloc k h t` takes a free
leaf of order at least `k` and splits it; `release k h p t` frees the used block of order `k` at
offset `p` and merges free halves. The one removes exactly one aligned block from the free pages
(`IsFree`), the other adds one, and in a tree without unmerged halves (`Merged`) every aligned block
of free pages lies below one free leaf (`val_of_block`).
-/

/-- Which pages of a block are free. -/
inductive BuddyTree where
  | free
  | used
  | node (l r : BuddyTree)
  deriving DecidableEq, Repr

namespace BuddyTree

/-- One more than the order of the largest free leaf, 0 without one. -/
def val : Nat → BuddyTree → Nat
  | h, free => h + 1
  | _, used => 0
  | 0, node _ _ => 0
  | h + 1, node l r => max (val h l) (val h r)

def Fits : Nat → BuddyTree → Prop
  | _, free => True
  | _, used => True
  | 0, node _ _ => False
  | h + 1, node l r => Fits h l ∧ Fits h r

def IsFree : Nat → BuddyTree → Nat → Prop
  | _, free, _ => True
  | _, used, _ => False
  | 0, node _ _, _ => False
  | h + 1, node l r, p => if p < 2 ^ h then IsFree h l p else IsFree h r (p - 2 ^ h)

def UsedAt (k : Nat) : Nat → BuddyTree → Nat → Prop
  | _, free, _ => False
  | h, used, p => h = k ∧ p = 0
  | 0, node _ _, _ => False
  | h + 1, node l r, p => if p < 2 ^ h then UsedAt k h l p else UsedAt k h r (p - 2 ^ h)

def Merged : BuddyTree → Prop
  | free => True
  | used => True
  | node l r => ¬(l = free ∧ r = free) ∧ Merged l ∧ Merged r

def goLeft (k vl vr : Nat) : Bool :=
  if min vl vr ≥ k + 1 then vl < vr else vl > vr

def alloc (k : Nat) : Nat → BuddyTree → Option (Nat × BuddyTree)
  | _, used => none
  | 0, free => if k = 0 then some (0, used) else none
  | h + 1, free =>
    if k = h + 1 then some (0, used)
    else (alloc k h free).map fun (p, l) => (p, node l free)
  | 0, node _ _ => none
  | h + 1, node l r =>
    if goLeft k (val h l) (val h r) then (alloc k h l).map fun (p, l') => (p, node l' r)
    else (alloc k h r).map fun (p, r') => (p + 2 ^ h, node l r')

variable {h k p : Nat} {l r t t' l' r' : BuddyTree}

theorem alloc_node (ha : alloc k h (node l r) = some (p, t')) : ∃ l' r', t' = node l' r' := by
  cases h with
  | zero => simp [alloc] at ha
  | succ h =>
    unfold alloc at ha
    split at ha
    · obtain ⟨⟨q, l'⟩, _, he⟩ := Option.map_eq_some_iff.1 ha
      exact ⟨l', r, (congrArg Prod.snd he).symm⟩
    · obtain ⟨⟨q, r'⟩, _, he⟩ := Option.map_eq_some_iff.1 ha
      exact ⟨l, r', (congrArg Prod.snd he).symm⟩

def merge (l r : BuddyTree) : BuddyTree :=
  if l = free ∧ r = free then free else node l r

def release (k : Nat) : Nat → Nat → BuddyTree → BuddyTree
  | _, _, free => free
  | h, _, used => if h = k then free else used
  | 0, _, node l r => node l r
  | h + 1, p, node l r =>
    if p < 2 ^ h then merge (release k h p l) r else merge l (release k h (p - 2 ^ h) r)

/-! ## Leaves and halves -/

section Halves

variable {q : Nat}

@[simp] theorem fits_free (h : Nat) : Fits h free := by cases h <;> trivial

@[simp] theorem fits_used (h : Nat) : Fits h used := by cases h <;> trivial

@[simp] theorem isFree_free (h q : Nat) : IsFree h free q := by cases h <;> trivial

@[simp] theorem not_isFree_used (h q : Nat) : ¬IsFree h used q := by cases h <;> exact id

@[simp] theorem not_usedAt_free (k h p : Nat) : ¬UsedAt k h free p := by cases h <;> exact id

@[simp] theorem usedAt_used : UsedAt k h used p ↔ h = k ∧ p = 0 := by cases h <;> exact Iff.rfl

theorem isFree_left (hq : q < 2 ^ h) : IsFree (h + 1) (node l r) q ↔ IsFree h l q := by
  simp only [IsFree, hq, if_true]

theorem isFree_right (hq : ¬q < 2 ^ h) : IsFree (h + 1) (node l r) q ↔ IsFree h r (q - 2 ^ h) := by
  simp only [IsFree, hq, if_false]

theorem usedAt_left (hp : p < 2 ^ h) : UsedAt k (h + 1) (node l r) p ↔ UsedAt k h l p := by
  simp only [UsedAt, hp, if_true]

theorem usedAt_right (hp : ¬p < 2 ^ h) :
    UsedAt k (h + 1) (node l r) p ↔ UsedAt k h r (p - 2 ^ h) := by
  simp only [UsedAt, hp, if_false]

end Halves

/-! ## Values -/

@[simp] theorem val_free (h : Nat) : val h free = h + 1 := by cases h <;> rfl

@[simp] theorem val_used (h : Nat) : val h used = 0 := by cases h <;> rfl

theorem val_node (h : Nat) (l r : BuddyTree) :
    val (h + 1) (node l r) = max (val h l) (val h r) := rfl

theorem val_le : val h t ≤ h + 1 := by
  fun_induction val h t <;> omega

/-- A split block is never taken for a free one. -/
theorem val_node_le (h : Nat) (l r : BuddyTree) : val h (node l r) ≤ h := by
  cases h with
  | zero => exact Nat.le_refl 0
  | succ h => exact max_le val_le val_le

theorem val_eq_succ_iff : val h t = h + 1 ↔ t = free := by
  cases t with
  | free => simp
  | used => simp
  | node l r => exact iff_of_false (Nat.ne_of_lt (Nat.lt_succ_of_le (val_node_le h l r))) nofun

theorem val_pos_of_isFree (hp : p < 2 ^ h) (hf : IsFree h t p) : 0 < val h t := by
  fun_induction IsFree h t p with
  | case1 h => simp
  | case2 | case3 => exact hf.elim
  | case4 h l r p hl ih => exact lt_max_of_lt_left (ih hl hf)
  | case5 h l r p hl ih => exact lt_max_of_lt_right (ih (by omega) hf)

/-! ## Allocation -/

theorem goLeft_val {vl vr : Nat} (h : k + 1 ≤ max vl vr) :
    k + 1 ≤ if goLeft k vl vr then vl else vr := by
  unfold goLeft
  by_cases hm : min vl vr ≥ k + 1
  · simp only [hm, if_true, decide_eq_true_eq]
    split <;> omega
  · simp only [hm, if_false, decide_eq_true_eq]
    split <;> omega

/-- What `alloc` does: it takes the block of order `k` at `p`. -/
structure Alloc (k h : Nat) (t : BuddyTree) (p : Nat) (t' : BuddyTree) : Prop where
  fits : Fits h t'
  inside : p + 2 ^ k ≤ 2 ^ h
  aligned : 2 ^ k ∣ p
  wasFree : ∀ q, p ≤ q → q < p + 2 ^ k → IsFree h t q
  isFree : ∀ q, q < 2 ^ h → (IsFree h t' q ↔ IsFree h t q ∧ ¬(p ≤ q ∧ q < p + 2 ^ k))
  usedAt : UsedAt k h t' p
  keepsUsed : ∀ k' p', UsedAt k' h t p' → UsedAt k' h t' p'
  merged : Merged t → Merged t'
  notFree : t' ≠ free

theorem Alloc.here (k : Nat) : Alloc k k free 0 used where
  fits := fits_used k
  inside := by omega
  aligned := Nat.dvd_zero _
  wasFree _ _ _ := isFree_free ..
  isFree q hq := iff_of_false (not_isFree_used k q) fun h => h.2 ⟨Nat.zero_le q, by omega⟩
  usedAt := usedAt_used.2 ⟨rfl, rfl⟩
  keepsUsed _ _ hu := (not_usedAt_free _ _ _ hu).elim
  merged _ := trivial
  notFree := nofun

theorem Alloc.left (hr : Fits h r) (hfree : ∀ q, IsFree (h + 1) t q ↔ IsFree (h + 1) (node l r) q)
    (hused : ∀ k' p', UsedAt k' (h + 1) t p' → UsedAt k' (h + 1) (node l r) p')
    (hmerged : Merged t → Merged l ∧ Merged r)
    (a : Alloc k h l p l') : Alloc k (h + 1) t p (node l' r) := by
  have hpos := Nat.two_pow_pos h
  have hin := a.inside
  refine ⟨⟨a.fits, hr⟩, by omega, a.aligned, fun q h1 h2 => ?_, fun q hq => ?_, ?_,
    fun k' p' hu => ?_, fun hm => ?_, nofun⟩
  · rw [hfree, isFree_left (by omega)]
    exact a.wasFree q h1 h2
  · rw [hfree]
    by_cases hql : q < 2 ^ h
    · rw [isFree_left hql, isFree_left hql]
      exact a.isFree q hql
    · rw [isFree_right hql, isFree_right hql, and_iff_left (by omega)]
  · have hkpos := Nat.two_pow_pos k
    rw [usedAt_left (by omega)]
    exact a.usedAt
  · have hu' := hused k' p' hu
    by_cases hpl : p' < 2 ^ h
    · rw [usedAt_left hpl] at hu' ⊢
      exact a.keepsUsed k' p' hu'
    · rw [usedAt_right hpl] at hu' ⊢
      exact hu'
  · obtain ⟨hml, hmr⟩ := hmerged hm
    exact ⟨fun e => a.notFree e.1, a.merged hml, hmr⟩

theorem Alloc.right (hl : Fits h l)
    (a : Alloc k h r p r') : Alloc k (h + 1) (node l r) (p + 2 ^ h) (node l r') := by
  have hin := a.inside
  have hkh : k ≤ h := (Nat.pow_le_pow_iff_right (a := 2) (by omega)).1 (by omega)
  refine ⟨⟨hl, a.fits⟩, by omega, Nat.dvd_add a.aligned (Nat.pow_dvd_pow 2 hkh),
    fun q h1 h2 => ?_, fun q hq => ?_, ?_, fun k' p' hu => ?_, ?_, nofun⟩
  · rw [isFree_right (by omega)]
    exact a.wasFree _ (by omega) (by omega)
  · by_cases hql : q < 2 ^ h
    · rw [isFree_left hql, isFree_left hql, and_iff_left (by omega)]
    · have hiff : (p ≤ q - 2 ^ h ∧ q - 2 ^ h < p + 2 ^ k) ↔
          (p + 2 ^ h ≤ q ∧ q < p + 2 ^ h + 2 ^ k) := by omega
      rw [isFree_right hql, isFree_right hql, a.isFree (q - 2 ^ h) (by omega), hiff]
  · rw [usedAt_right (by omega), Nat.add_sub_cancel]
    exact a.usedAt
  · by_cases hpl : p' < 2 ^ h
    · rw [usedAt_left hpl] at hu ⊢
      exact hu
    · rw [usedAt_right hpl] at hu ⊢
      exact a.keepsUsed k' _ hu
  · rintro ⟨_, hml, hmr⟩
    exact ⟨fun e => a.notFree e.2, hml, a.merged hmr⟩

theorem isFree_split (h q : Nat) : IsFree (h + 1) free q ↔ IsFree (h + 1) (node free free) q := by
  simp [IsFree]

theorem merged_node (hf : Fits h (node l r)) (hl : Merged l)
    (hr : Merged r) (hlast : ¬IsFree h (node l r) (2 ^ h - 1)) : Merged (node l r) := by
  refine ⟨?_, hl, hr⟩
  rintro ⟨rfl, rfl⟩
  cases h with
  | zero => exact hf
  | succ h => exact hlast ((isFree_split h _).1 trivial)

/-- **An allocation of order `k` succeeds wherever a free leaf is large enough**, and takes one
aligned block of free pages. -/
theorem alloc_spec (hf : Fits h t) (hv : k + 1 ≤ val h t) :
    ∃ p t', alloc k h t = some (p, t') ∧ Alloc k h t p t' := by
  fun_induction alloc k h t with
  | case1 => simp at hv
  | case2 hk =>
    subst hk
    exact ⟨0, used, rfl, .here 0⟩
  | case3 hk =>
    rw [val_free] at hv
    omega
  | case4 h hk =>
    subst hk
    exact ⟨0, used, rfl, .here _⟩
  | case5 h hk ih =>
    rw [val_free] at hv
    obtain ⟨p, l', he, a⟩ := ih (fits_free h) (by rw [val_free]; omega)
    refine ⟨p, node l' free, by rw [he]; rfl, a.left (fits_free h) (isFree_split h) ?_ ?_⟩
    · exact fun _ _ hu => hu.elim
    · exact fun _ => ⟨trivial, trivial⟩
  | case6 => exact hf.elim
  | case7 h l r hl ih =>
    have hgo := goLeft_val hv
    rw [if_pos hl] at hgo
    obtain ⟨p, l', he, a⟩ := ih hf.1 hgo
    refine ⟨p, node l' r, by rw [he]; rfl, a.left hf.2 (fun _ => Iff.rfl) ?_ fun hm => hm.2⟩
    exact fun _ _ hu => hu
  | case8 h l r hl ih =>
    have hgo := goLeft_val hv
    rw [if_neg hl] at hgo
    obtain ⟨p, r', he, a⟩ := ih hf.2 hgo
    exact ⟨p + 2 ^ h, node l r', by rw [he]; rfl, a.right hf.1⟩

/-- **Every aligned block of free pages lies below a free leaf of its order**, once the free
halves are merged. -/
theorem val_of_block (hf : Fits h t) (hm : Merged t) (hd : 2 ^ k ∣ p) (hin : p + 2 ^ k ≤ 2 ^ h)
    (hq : ∀ q, p ≤ q → q < p + 2 ^ k → IsFree h t q) : k + 1 ≤ val h t := by
  have hpos := Nat.two_pow_pos k
  have hkh : k ≤ h := (Nat.pow_le_pow_iff_right (a := 2) (by omega)).1 (by omega)
  induction t generalizing h k p with
  | free =>
    rw [val_free]
    omega
  | used => exact (not_isFree_used _ _ (hq p le_rfl (by omega))).elim
  | node l r ihl ihr =>
    cases h with
    | zero => exact hf.elim
    | succ h =>
      have hleft : ∀ q, p ≤ q → q < p + 2 ^ k → q < 2 ^ h → IsFree h l q :=
        fun q h1 h2 hql => (isFree_left hql).1 (hq q h1 h2)
      have hright : ∀ q, p ≤ q + 2 ^ h → q + 2 ^ h < p + 2 ^ k → IsFree h r q := by
        intro q h1 h2
        have := (isFree_right (by omega)).1 (hq _ h1 h2)
        rwa [Nat.add_sub_cancel] at this
      rw [val_node]
      by_cases hk : k = h + 1
      · -- the block is the whole tree, so both halves are free
        subst hk
        have hpos := Nat.two_pow_pos h
        have hfl := ihl (k := h) (p := 0) hf.1 hm.2.1 (Nat.dvd_zero _) (by omega)
          (fun q _ h2 => hleft q (by omega) (by omega) (by omega)) hpos le_rfl
        have hfr := ihr (k := h) (p := 0) hf.2 hm.2.2 (Nat.dvd_zero _) (by omega)
          (fun q _ h2 => hright q (by omega) (by omega)) hpos le_rfl
        exact absurd ⟨val_eq_succ_iff.1 (val_le.antisymm hfl),
          val_eq_succ_iff.1 (val_le.antisymm hfr)⟩ hm.1
      have hdh : 2 ^ k ∣ 2 ^ h := Nat.pow_dvd_pow 2 (by omega)
      by_cases hpl : p < 2 ^ h
      · have hin' := Nat.le_of_dvd (by omega) (Nat.dvd_sub hdh hd)
        have := ihl hf.1 hm.2.1 hd (by omega) (fun q h1 h2 => hleft q h1 h2 (by omega)) hpos
          (by omega)
        omega
      · have := ihr hf.2 hm.2.2 (Nat.dvd_sub hd hdh) (by omega)
          (fun q h1 h2 => hright q (by omega) (by omega)) hpos (by omega)
        omega

/-! ## Merged trees with the same free pages -/

theorem val_le_of_isFree (hf : Fits h t) (hf' : Fits h t')
    (hm' : Merged t') (hfree : ∀ q, q < 2 ^ h → IsFree h t q → IsFree h t' q) :
    val h t ≤ val h t' := by
  rcases Nat.eq_zero_or_pos (val h t) with h0 | hpos
  · rw [h0]
    exact Nat.zero_le _
  obtain ⟨k, hk⟩ := Nat.exists_eq_add_one.2 hpos
  obtain ⟨p, t1, -, a⟩ := alloc_spec (k := k) hf (Nat.le_of_eq hk.symm)
  rw [hk]
  refine val_of_block hf' hm' a.aligned a.inside fun q h1 h2 => ?_
  have := a.inside
  exact hfree q (by omega) (a.wasFree q h1 h2)

theorem val_congr (hf : Fits h t) (hf' : Fits h t') (hm : Merged t)
    (hm' : Merged t') (hfree : ∀ q, q < 2 ^ h → (IsFree h t q ↔ IsFree h t' q)) :
    val h t = val h t' :=
  Nat.le_antisymm (val_le_of_isFree hf hf' hm' fun q hq => (hfree q hq).1)
    (val_le_of_isFree hf' hf hm fun q hq => (hfree q hq).2)

theorem alloc_eq_none (hv : val h t ≤ k) : alloc k h t = none := by
  fun_induction alloc k h t with
  | case1 | case3 | case6 => rfl
  | case2 | case4 =>
    rw [val_free] at hv
    omega
  | case5 h hk ih =>
    rw [val_free] at hv
    rw [ih (by rw [val_free]; omega), Option.map_none]
  | case7 h l r hl ih => rw [ih (le_of_max_le_left hv), Option.map_none]
  | case8 h l r hl ih => rw [ih (le_of_max_le_right hv), Option.map_none]

/-- **The block taken depends only on which pages are free.** -/
theorem alloc_congr (hf : Fits h t) (hf' : Fits h t') (hm : Merged t) (hm' : Merged t')
    (hfree : ∀ q, q < 2 ^ h → (IsFree h t q ↔ IsFree h t' q)) :
    (alloc k h t).map Prod.fst = (alloc k h t').map Prod.fst := by
  have hv := val_congr hf hf' hm hm' hfree
  induction t generalizing h t' with
  | free =>
    rw [val_free, eq_comm, val_eq_succ_iff] at hv
    rw [hv]
  | used =>
    rw [val_used] at hv
    rw [alloc_eq_none (by simp), alloc_eq_none (by omega)]
  | node l r ihl ihr =>
    cases t' with
    | free =>
      rw [val_free, val_eq_succ_iff] at hv
      cases hv
    | used =>
      rw [val_used] at hv
      rw [alloc_eq_none (by omega), alloc_eq_none (by simp)]
    | node l' r' =>
      cases h with
      | zero => exact hf.elim
      | succ h =>
        have hl : ∀ q, q < 2 ^ h → (IsFree h l q ↔ IsFree h l' q) := by
          intro q hq
          have := hfree q (by omega)
          rwa [isFree_left hq, isFree_left hq] at this
        have hr : ∀ q, q < 2 ^ h → (IsFree h r q ↔ IsFree h r' q) := by
          intro q hq
          have := hfree (q + 2 ^ h) (by omega)
          rwa [isFree_right (by omega), isFree_right (by omega), Nat.add_sub_cancel] at this
        have hvl := val_congr hf.1 hf'.1 hm.2.1 hm'.2.1 hl
        have hvr := val_congr hf.2 hf'.2 hm.2.2 hm'.2.2 hr
        have ihl := ihl hf.1 hf'.1 hm.2.1 hm'.2.1 hl hvl
        have ihr := ihr hf.2 hf'.2 hm.2.2 hm'.2.2 hr hvr
        simp only [alloc, hvl, hvr]
        split
        · simpa only [Option.map_map, Function.comp_def] using ihl
        · have hadd := congrArg (Option.map (· + 2 ^ h)) ihr
          simpa only [Option.map_map, Function.comp_def] using hadd

/-! ## Release -/

theorem fits_merge (hl : Fits h l) (hr : Fits h r) : Fits (h + 1) (merge l r) := by
  unfold merge
  split
  · trivial
  · exact ⟨hl, hr⟩

theorem merged_merge (hl : Merged l) (hr : Merged r) : Merged (merge l r) := by
  unfold merge
  split
  · trivial
  · rename_i h
    exact ⟨h, hl, hr⟩

theorem isFree_merge (h : Nat) (l r : BuddyTree) (q : Nat) :
    IsFree (h + 1) (merge l r) q ↔ IsFree (h + 1) (node l r) q := by
  unfold merge
  split
  · rename_i e
    rw [e.1, e.2]
    exact isFree_split h q
  · exact Iff.rfl

theorem usedAt_merge (hu : UsedAt k (h + 1) (node l r) p) : UsedAt k (h + 1) (merge l r) p := by
  unfold merge
  split
  · rename_i e
    rw [e.1, e.2] at hu
    simp [UsedAt] at hu
  · exact hu

theorem val_merge (h : Nat) (l r : BuddyTree) : val (h + 1) (merge l r) =
    if val h l = val h r ∧ val h l = h + 1 then val h l + 1 else max (val h l) (val h r) := by
  unfold merge
  by_cases e : l = free ∧ r = free
  · rw [if_pos e, e.1, e.2]
    simp
  · rw [if_neg e, val_node, if_neg]
    rintro ⟨h1, h2⟩
    exact e ⟨val_eq_succ_iff.1 h2, val_eq_succ_iff.1 (h1 ▸ h2)⟩

theorem UsedAt.block (hp : p < 2 ^ h) (hu : UsedAt k h t p) :
    k ≤ h ∧ 2 ^ k ∣ p ∧ p + 2 ^ k ≤ 2 ^ h := by
  fun_induction UsedAt k h t p with
  | case1 | case3 => exact hu.elim
  | case2 h p =>
    obtain ⟨rfl, rfl⟩ := hu
    exact ⟨le_rfl, Nat.dvd_zero _, by omega⟩
  | case4 h l r p hpl ih =>
    obtain ⟨h1, h2, h3⟩ := ih hpl hu
    exact ⟨by omega, h2, by omega⟩
  | case5 h l r p hpl ih =>
    obtain ⟨h1, h2, h3⟩ := ih (by omega) hu
    refine ⟨by omega, ?_, by omega⟩
    rw [← Nat.sub_add_cancel (Nat.le_of_not_lt hpl)]
    exact Nat.dvd_add h2 (Nat.pow_dvd_pow 2 h1)

/-- What `release` does: it frees the block of order `k` at `p`. -/
structure Release (k h p : Nat) (t t' : BuddyTree) : Prop where
  fits : Fits h t'
  isFree : ∀ q, q < 2 ^ h → (IsFree h t' q ↔ IsFree h t q ∨ (p ≤ q ∧ q < p + 2 ^ k))
  keepsUsed : ∀ k' p', UsedAt k' h t p' → p' ≠ p → UsedAt k' h t' p'

theorem Release.here (k : Nat) : Release k k 0 used free where
  fits := fits_free k
  isFree q hq := iff_of_true (isFree_free k q) (.inr ⟨Nat.zero_le q, by omega⟩)
  keepsUsed _ _ hu hne := absurd (usedAt_used.1 hu).2 hne

theorem Release.left (hr : Fits h r) (hin : p + 2 ^ k ≤ 2 ^ h)
    (a : Release k h p l l') : Release k (h + 1) p (node l r) (node l' r) := by
  refine ⟨⟨a.fits, hr⟩, fun q hq => ?_, fun k' p' hu hne => ?_⟩
  · by_cases hql : q < 2 ^ h
    · rw [isFree_left hql, isFree_left hql]
      exact a.isFree q hql
    · rw [isFree_right hql, isFree_right hql, or_iff_left (by omega)]
  · by_cases hpl : p' < 2 ^ h
    · rw [usedAt_left hpl] at hu ⊢
      exact a.keepsUsed k' p' hu hne
    · rw [usedAt_right hpl] at hu ⊢
      exact hu

theorem Release.right (hl : Fits h l) (hp : 2 ^ h ≤ p)
    (a : Release k h (p - 2 ^ h) r r') : Release k (h + 1) p (node l r) (node l r') := by
  refine ⟨⟨hl, a.fits⟩, fun q hq => ?_, fun k' p' hu hne => ?_⟩
  · by_cases hql : q < 2 ^ h
    · rw [isFree_left hql, isFree_left hql, or_iff_left (by omega)]
    · have hiff : (p - 2 ^ h ≤ q - 2 ^ h ∧ q - 2 ^ h < p - 2 ^ h + 2 ^ k) ↔
          (p ≤ q ∧ q < p + 2 ^ k) := by omega
      rw [isFree_right hql, isFree_right hql, a.isFree (q - 2 ^ h) (by omega), hiff]
  · by_cases hpl : p' < 2 ^ h
    · rw [usedAt_left hpl] at hu ⊢
      exact hu
    · rw [usedAt_right hpl] at hu ⊢
      exact a.keepsUsed k' _ hu (by omega)

theorem Release.merge (a : Release k (h + 1) p t (node l r)) :
    Release k (h + 1) p t (merge l r) where
  fits := fits_merge a.fits.1 a.fits.2
  isFree := by
    intro q hq
    rw [isFree_merge]
    exact a.isFree q hq
  keepsUsed := fun k' p' hu hne => usedAt_merge (a.keepsUsed k' p' hu hne)

/-- **Releasing a used block** adds exactly its pages to the free ones. -/
theorem release_spec (hp : p < 2 ^ h) (hf : Fits h t) (hu : UsedAt k h t p) :
    Release k h p t (release k h p t) := by
  fun_induction release k h p t with
  | case1 => exact (not_usedAt_free _ _ _ hu).elim
  | case2 p =>
    obtain ⟨-, rfl⟩ := usedAt_used.1 hu
    exact .here _
  | case3 h p hk => exact absurd (usedAt_used.1 hu).1 hk
  | case4 => exact hu.elim
  | case5 h p l r hpl ih =>
    rw [usedAt_left hpl] at hu
    exact ((ih hpl hf.1 hu).left hf.2 (hu.block hpl).2.2).merge
  | case6 h p l r hpl ih =>
    rw [usedAt_right hpl] at hu
    exact ((ih (by omega) hf.2 hu).right hf.1 (by omega)).merge

theorem merged_release (hm : Merged t) : Merged (release k h p t) := by
  fun_induction release k h p t with
  | case1 | case2 | case3 => trivial
  | case4 => exact hm
  | case5 h p l r hpl ih => exact merged_merge (ih hm.2.1) hm.2.2
  | case6 h p l r hpl ih => exact merged_merge hm.2.1 (ih hm.2.2)

/-! ## The blocks of a number's binary digits -/

/-- The tree with one used block for each binary digit of `n`, the largest first from offset 0, and
used blocks after them. -/
def digits : Nat → Nat → BuddyTree
  | 0, _ => used
  | h + 1, n => if 2 ^ h ≤ n then node used (digits h (n - 2 ^ h)) else node (digits h n) used

theorem not_isFree_digits (h n q : Nat) : ¬IsFree h (digits h n) q := by
  fun_induction digits h n generalizing q with
  | case1 => exact id
  | case2 h n hn ih => simp [IsFree, ih]
  | case3 h n hn ih => simp [IsFree, ih]

theorem merged_digits (h n : Nat) : Merged (digits h n) := by
  fun_induction digits h n with
  | case1 => trivial
  | case2 h n hn ih => exact ⟨by simp, trivial, ih⟩
  | case3 h n hn ih => exact ⟨by simp, ih, trivial⟩

theorem val_digits (h n : Nat) : val h (digits h n) = 0 := by
  fun_induction digits h n with
  | case1 => rfl
  | case2 h n hn ih => rw [val_node, val_used, ih, Nat.max_self]
  | case3 h n hn ih => rw [val_node, val_used, ih, Nat.max_self]

/-- The block of the digit `j` of `n` stands after those of the larger digits. -/
theorem usedAt_digits : ∀ {h n j : Nat}, n < 2 ^ h → j < h → n / 2 ^ j % 2 = 1 →
    UsedAt j h (digits h n) (n / 2 ^ (j + 1) * 2 ^ (j + 1)) := by
  intro h
  induction h with
  | zero =>
    omega
  | succ h ih =>
    intro n j hn hj hb
    have hle : ∀ a, a / 2 ^ (j + 1) * 2 ^ (j + 1) ≤ a := fun a => Nat.div_mul_le_self a _
    unfold digits
    split
    · by_cases hjh : j = h
      · subst hjh
        have h0 : n / 2 ^ (j + 1) = 0 := Nat.div_eq_of_lt hn
        rw [h0, Nat.zero_mul]
        exact (usedAt_left (Nat.two_pow_pos j)).2 (usedAt_used.2 ⟨rfl, rfl⟩)
      · -- the larger digit adds `2 ^ h`, a multiple of every smaller block, to the offset
        have hsplit : 2 ^ h = 2 ^ (h - (j + 1)) * 2 ^ (j + 1) := by
          rw [← Nat.pow_add, Nat.sub_add_cancel (by omega)]
        have hdiv : n / 2 ^ (j + 1) * 2 ^ (j + 1) =
            (n - 2 ^ h) / 2 ^ (j + 1) * 2 ^ (j + 1) + 2 ^ h := by
          have hn' : n = n - 2 ^ h + 2 ^ (h - (j + 1)) * 2 ^ (j + 1) := by omega
          conv_lhs => rw [hn', Nat.add_mul_div_right _ _ (Nat.two_pow_pos _), Nat.add_mul]
          rw [← hsplit]
        have hbit : (n - 2 ^ h) / 2 ^ j % 2 = 1 := by
          have hsplit' : 2 ^ h = 2 * 2 ^ (h - (j + 1)) * 2 ^ j := by
            rw [hsplit, Nat.pow_succ]
            ring
          have hn' : n = n - 2 ^ h + 2 * 2 ^ (h - (j + 1)) * 2 ^ j := by omega
          rw [hn', Nat.add_mul_div_right _ _ (Nat.two_pow_pos _), Nat.add_mul_mod_self_left] at hb
          exact hb
        rw [hdiv]
        rw [usedAt_right (by omega), Nat.add_sub_cancel]
        exact ih (by omega) (by omega) hbit
    · have hjh : j ≠ h := by
        rintro rfl
        rw [Nat.div_eq_of_lt (by omega)] at hb
        omega
      rw [usedAt_left ((hle n).trans_lt (by omega))]
      exact ih (by omega) (by omega) hb

end BuddyTree
