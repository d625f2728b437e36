import LuoOS.Lib.Runs
import LuoOS.Vm.EntryBits

/-!
# The page table as the hardware walks it

The kernel reads its page table with `trans`, the processor with the walk of Sv39, which is
stricter: it refuses a superpage whose frame is not aligned, a leaf that is writable and not
readable, and the address of a node next to one of the bits `u`, `a` and `d`. `createMapping` picks
the size of an entry from the virtual page alone and turns a leaf into a node by clearing `r`, `w`
and `x`, so the walks agree only on tables built with congruent calls that split no leaf with
further bits.
-/

namespace LuoOS.Vm

open Runs Translation

/-! ## The walk of Sv39 -/

/-- The walk from an entry on, as the privileged architecture describes it. The address of a node is
only followed into nodes that the kernel built. -/
def Entry.hwWalk : {level : Nat} → Entry level → Nat → Option Nat
  | level, page perm ppn, vpn =>
    if perm.v = false ∨ (perm.r = false ∧ perm.w = true) then none
    else if perm.r || perm.x then
      if ppn % bigPageSize level = 0 then
        some (ppn / bigPageSize level * bigPageSize level + vpn % bigPageSize level)
      else none -- misaligned superpage
    else none
  | level + 1, table perm _ sub, vpn =>
    -- reserved in an entry that is no leaf
    if perm.u || perm.a || perm.d then none else (sub (index level vpn)).hwWalk vpn

def hwWalk (root : Table 2) (vpn : Nat) : Option Nat := (root (index 2 vpn)).hwWalk vpn

def Entry.Shaped : {level : Nat} → Entry level → Prop
  | level, page perm ppn =>
    perm.v = true → if perm.isLeaf then ppn % bigPageSize level = 0 else perm = { v := true }
  | _ + 1, table perm _ sub => perm = { v := true } ∧ ∀ i, (sub i).Shaped

/-- **The page table is one for Sv39**, and the two walks agree. -/
structure Sv39 (root : Table 2) : Prop where
  shape : ∀ i, (root i).Shaped
  walk : ∀ vpn, hwWalk root vpn = (trans root vpn).toOption

/-! ## Runs of calls -/

/-- A call of `createMapping`. -/
structure Create where
  vpn : Nat
  ppn : Nat
  pages : Nat
  perm : Perm

def Create.step (root : Table 2) (c : Create) : Kern (Table 2) :=
  createMapping 2 root c.vpn c.ppn c.pages c.perm

def Create.Legal (_ : Table 2) (c : Create) : Prop :=
  c.vpn + c.pages ≤ 2 ^ 27 ∧ c.perm.v = true ∧ c.perm.isLeaf = true
  deriving Decidable

/-- The bits of a leaf that the processor accepts. -/
structure Perm.Usable (p : Perm) : Prop where
  v : p.v = true
  leaf : p.isLeaf = true
  readable : p.w = true → p.r = true

def Perm.Bare (p : Perm) : Prop := p.u = false ∧ p.g = false ∧ p.a = false ∧ p.d = false
  deriving Decidable

def Congruent (level vpn ppn pages : Nat) : Prop :=
  ∀ l ≤ level, ∀ b, b % bigPageSize l = 0 → vpn ≤ b → b + bigPageSize l ≤ vpn + pages →
    ppn % bigPageSize l = vpn % bigPageSize l

def Cuts (L : Nat → Option (Leaf Perm)) (vpn pages : Nat) : Prop :=
  ∀ v, v = vpn ∨ v = vpn + pages → ∀ x, L v = some x → v % x.size ≠ 0 → x.perm.Bare

/-- A call after which both walks still agree. -/
structure Create.Fitting (root : Table 2) (c : Create) : Prop where
  legal : c.Legal root
  readable : c.perm.w = true → c.perm.r = true
  congruent : Congruent 2 c.vpn c.ppn c.pages
  cuts : Cuts (leafAt root) c.vpn c.pages

/-! ## Arithmetic of the levels -/

variable {level ppn v : Nat} {x : Leaf Perm}

theorem Congruent.sub {level' vpn pages k n : Nat} (h : Congruent level vpn ppn pages)
    (hl : level' ≤ level) (hk : k + n ≤ pages) : Congruent level' (vpn + k) (ppn + k) n := by
  intro l hll b hb h1 h2
  have hmod : ppn ≡ vpn [MOD bigPageSize l] :=
    h l (hll.trans hl) b hb (by omega) (by omega)
  exact hmod.add_right k

/-- What is pushed down from an aligned leaf is congruent. -/
theorem Congruent.pushdown {big c off n : Nat} (hl : level ≤ big)
    (hp : ppn % bigPageSize big = 0) (hc : c % bigPageSize big = off) :
    Congruent level c (ppn + off) n := by
  intro l hll b _ _ _
  have hdvd := bigPageSize_dvd (hll.trans hl)
  have hzero : ppn % bigPageSize l = 0 := mod_bigPageSize_eq_zero (hll.trans hl) hp
  rw [Nat.add_mod, hzero, Nat.zero_add, Nat.mod_mod, ← hc, Nat.mod_mod_of_dvd c hdvd]

theorem Entry.leafAt_size_dvd (entry : Entry level)
    (h : entry.leafAt v = some x) : x.size ∣ bigPageSize level := by
  obtain ⟨l, hl, hsize⟩ := entry.leafAt_size h
  rw [hsize]
  exact bigPageSize_dvd hl

variable {entry : Entry level}

theorem Entry.not_cut (h : entry.leafAt v = some x) (hv : v % bigPageSize level = 0) :
    v % x.size = 0 := by
  rw [← Nat.mod_mod_of_dvd v (entry.leafAt_size_dvd h), hv, Nat.zero_mod]

theorem leafAt_of_cut {a k : Nat} {table : Table level}
    (hfit : a % bigPageSize level + k ≤ bigPageSize level)
    (hx : (table (index level a)).leafAt (a + k) = some x) (hne : (a + k) % x.size ≠ 0) :
    leafAt table (a + k) = some x := by
  have hin : a % bigPageSize level + k < bigPageSize level := by
    refine Nat.lt_of_le_of_ne hfit fun hend => hne (Entry.not_cut hx ?_)
    rw [← Nat.mod_add_mod, hend, Nat.mod_self]
  have hblk : Block level a (a + k) := (advance (m := 1) (by omega) Nat.one_pos).1
  rw [leafAt_of_block hblk.succ hblk, hx]

/-! ## Tables that only fitting calls built -/

def Entry.Strict : {level : Nat} → Entry level → Prop
  | level, page perm ppn =>
    (perm.v = false → perm = {}) ∧
      (perm.v = true → perm.Usable ∧ ppn % bigPageSize level = 0)
  | _ + 1, table perm _ sub => perm = { v := true } ∧ ∀ i, (sub i).Strict

def Strict {level : Nat} (table : Table level) : Prop := ∀ i, (table i).Strict

theorem createPTNode_strict : Strict (createPTNode : Table level) := fun _ =>
  ⟨fun _ => rfl, nofun⟩

theorem Strict.update {table : Table level} (h : Strict table)
    (he : entry.Strict) (i : Fin 512) : Strict (Function.update table i entry) := by
  intro j
  rw [Function.update_apply]
  split
  · exact he
  · exact h j

/-- The bits of an entry that was split, if there was nothing else in it. -/
theorem Perm.setPTNode_bare {p : Perm} (h : p.Bare) : p.setPTNode.setValid = { v := true } := by
  obtain ⟨hu, hg, ha, hd⟩ := h
  unfold setPTNode setValid
  rw [hu, hg, ha, hd]

section Operations

variable {level : Nat} {perm : Perm}

theorem mapWhole_strict {n i ppn : Nat} {table table' : Table level} (hlevel : level ≤ 2)
    (hp : perm.Usable) (h : Strict table) (hppn : 0 < n → ppn % bigPageSize level = 0)
    (hm : mapWhole perm n table i ppn = .ok table') : Strict table' := by
  have hdvd : bigPageSize level ∣ 2 ^ 44 := Nat.pow_dvd_pow 2 (by omega)
  intro j
  rw [mapWhole_apply _ _ _ _ _ hm j]
  split
  · refine ⟨fun hv => ?_, fun _ => ⟨hp, ?_⟩⟩
    · rw [hp.v] at hv
      cases hv
    · rw [Nat.mod_mod_of_dvd _ hdvd, Nat.add_mul_mod_self_right]
      exact hppn (by omega)
  · exact h j

def StrictSpec (level : Nat) : Prop :=
  ∀ (table : Table level) (vpn ppn pages : Nat) (perm : Perm) (table' : Table level),
    Strict table → perm.Usable → Congruent level vpn ppn pages → Cuts (leafAt table) vpn pages →
    vpn % bigPageSize (level + 1) + pages ≤ bigPageSize (level + 1) →
    createMapping level table vpn ppn pages perm = .ok table' → Strict table'

def Perm.Pushed (p : Perm) : Prop := p.Ok ∧ (p.v = true → p.Bare)

theorem tells_pushed : Tells Perm.Pushed := ⟨fun _ h => h.1, rfl, nofun⟩

theorem Entry.bare_of_pushed {x : Leaf Perm} (entry : Entry level)
    (h : entry.Each Perm.Pushed) (hx : entry.leafAt v = some x) : x.perm.Bare := by
  induction entry with
  | page perm ppn =>
    simp only [Entry.leafAt] at hx
    split at hx
    · rename_i hleaf
      cases hx
      exact h.2 (Bool.and_eq_true_iff.1 hleaf).1
    · cases hx
  | @table level perm node sub ih => exact ih _ (h _) hx

/-- **The node a range is mapped in is strict**, and no leaf that the range cuts in it has further
bits: it was there, was pushed down from a bare leaf, or is empty. -/
theorem subTable_strict {b n c k off : Nat} {entry : Entry (level + 1)}
    {node : {perm : Perm // perm.isNode = true}} {sub : Table level} (ih : StrictSpec level)
    (hs : entry.Strict) (hcut : Cuts entry.leafAt b n)
    (hne : b % bigPageSize (level + 1) ≠ 0 ∨ (b + n) % bigPageSize (level + 1) ≠ 0)
    (hc : c % bigPageSize (level + 1) = off) (hk : off + k ≤ bigPageSize (level + 1))
    (h : subTable entry (fun prevppn prevPerm =>
      createMapping level createPTNode c (prevppn + off) k prevPerm) = .ok (node, sub)) :
    node.1 = { v := true } ∧ Strict sub ∧ Cuts (leafAt sub) b n := by
  have hempty : ∀ {a m : Nat}, Cuts (leafAt (createPTNode : Table level)) a m := by
    intro a m v _ x hx
    cases hx
  cases entry with
  | table perm isNode sub0 =>
    cases h
    exact ⟨hs.1, hs.2, hcut⟩
  | page perm ppn =>
    obtain ⟨hzero, hvalid⟩ := hs
    unfold subTable at h
    cases hv : perm.v with
    | true =>
      obtain ⟨huse, hal⟩ := hvalid hv
      have hbare : perm.Bare := by
        have hleaf : ∀ v, (Entry.page perm ppn : Entry (level + 1)).leafAt v =
            some ⟨bigPageSize (level + 1), ppn, perm⟩ := by
          intro v
          simp only [Entry.leafAt, hv, huse.leaf, Bool.and_self, if_true]
        rcases hne with hne | hne
        · exact hcut b (.inl rfl) _ (hleaf b) hne
        · exact hcut (b + n) (.inr rfl) _ (hleaf (b + n)) hne
      simp only [hv, huse.leaf, if_true] at h
      obtain ⟨sub1, hpush, h⟩ := bind_eq_ok h
      cases h
      have hpushed : Each Perm.Pushed sub :=
        createMapping_each tells_pushed (createPTNode_each tells_pushed.zero)
          ⟨hv.trans huse.leaf.symm, fun _ => hbare⟩ hpush
      refine ⟨Perm.setPTNode_bare hbare, ?_, fun v _ x hx _ =>
        Entry.bare_of_pushed _ (hpushed _) hx⟩
      refine ih _ _ _ _ _ _ createPTNode_strict huse
        (Congruent.pushdown (Nat.le_succ level) hal hc) hempty ?_ hpush
      rw [hc]
      exact hk
    | false =>
      obtain rfl := hzero hv
      simp only [Bool.false_eq_true, if_false] at h
      split at h
      · cases h
        exact ⟨rfl, createPTNode_strict, hempty⟩
      · cases h

theorem mapInto_strict {b n ppn c k off : Nat} {table table' : Table (level + 1)}
    (ih : StrictSpec level) (hs : Strict table) (hp : perm.Usable) (hcong : Congruent level b ppn n)
    (hfit : b % bigPageSize (level + 1) + n ≤ bigPageSize (level + 1))
    (hcut : Cuts (table (index (level + 1) b)).leafAt b n)
    (hne : b % bigPageSize (level + 1) ≠ 0 ∨ (b + n) % bigPageSize (level + 1) ≠ 0)
    (hc : c % bigPageSize (level + 1) = off) (hk : off + k ≤ bigPageSize (level + 1))
    (h : mapInto table b
      (fun prevppn prevPerm => createMapping level createPTNode c (prevppn + off) k prevPerm)
      (fun sub => createMapping level sub b ppn n perm) = .ok table') : Strict table' := by
  obtain ⟨node, sub, sub', hsub, hcreate, rfl⟩ := mapInto_eq_ok h
  obtain ⟨hnode, hsubs, hsubc⟩ := subTable_strict ih (hs _) hcut hne hc hk hsub
  have hs' : Strict sub' := ih sub b ppn n perm sub' hsubs hp hcong hsubc hfit hcreate
  have hentry : (Entry.table node.1 node.2 sub').Strict := ⟨hnode, hs'⟩
  exact hs.update hentry _

section Steps

variable {vpn ppn pages part whole rest : Nat} {table table' t1 t2 : Table (level + 1)}

theorem Phases.first_strict (h : Phases table vpn ppn pages perm table' part whole rest t1 t2)
    (ih : StrictSpec level) (hs : Strict table) (hp : perm.Usable)
    (hcong : Congruent (level + 1) vpn ppn pages) (hcuts : Cuts (leafAt table) vpn pages) :
    Strict t1 := by
  have hsum := h.cut.sum
  have hfit := h.cut.part_fit
  have hfirst := h.first
  unfold when_ at hfirst
  split at hfirst
  · cases hfirst
    exact hs
  rename_i hun
  obtain ⟨-, h0⟩ := block_base (level + 1) vpn
  refine mapInto_strict ih hs hp (hcong.sub (k := 0) (Nat.le_succ level) (by omega)) hfit ?_
    (.inl hun) h0 (by omega) hfirst
  rintro v (rfl | rfl) x hx hne
  · exact hcuts v (.inl rfl) x hx hne
  -- the part ends with the range or with the block
  by_cases hmore : 0 < whole ∨ 0 < rest
  · exact absurd (Entry.not_cut hx (h.cut.aligned hmore)) hne
  · obtain ⟨rfl, rfl⟩ : whole = 0 ∧ rest = 0 := by omega
    obtain rfl : part = pages := by omega
    exact hcuts _ (.inr rfl) x (leafAt_of_cut hfit hx hne) hne

/-- A whole entry is congruent, so its frame is aligned as its page is. -/
theorem Cut.frame_aligned {level : Nat} (h : Cut level vpn pages part whole rest)
    (hcong : Congruent level vpn ppn pages) (hw : 0 < whole) :
    (ppn + part) % bigPageSize level = 0 := by
  have hsum := h.sum
  have hone : bigPageSize level ≤ whole * bigPageSize level := Nat.le_mul_of_pos_left _ hw
  have hal := h.aligned (.inl hw)
  have hmod : ppn ≡ vpn [MOD bigPageSize level] :=
    hcong level le_rfl (vpn + part) hal (by omega) (by omega)
  exact Eq.trans (hmod.add_right part) hal

theorem Phases.last_strict (h : Phases table vpn ppn pages perm table' part whole rest t1 t2)
    (ih : StrictSpec level) (hs : Strict t2) (hp : perm.Usable)
    (hcong : Congruent (level + 1) vpn ppn pages) (hcuts : Cuts (leafAt table) vpn pages)
    (hblock : vpn % bigPageSize (level + 2) + pages ≤ bigPageSize (level + 2)) : Strict table' := by
  have hsum := h.cut.sum
  have hlt := h.cut.rest_lt
  have hlast := h.last
  unfold when_ at hlast
  split at hlast
  · cases hlast
    exact hs
  have hentry := h.cut.rest_entry h.first h.loop hblock (by omega)
  obtain ⟨hal, -⟩ := h.cut.rest_start hblock (by omega)
  have hsub : Congruent level (vpn + (part + whole * bigPageSize (level + 1)))
      (ppn + (part + whole * bigPageSize (level + 1))) rest :=
    hcong.sub (Nat.le_succ level) (by omega)
  rw [← Nat.add_assoc, ← Nat.add_assoc] at hsub
  have hend : vpn + part + whole * bigPageSize (level + 1) + rest = vpn + pages := by omega
  generalize vpn + part + whole * bigPageSize (level + 1) = b at *
  have hoff : (b + rest) % bigPageSize (level + 1) = rest := by
    rw [Nat.add_mod, hal, Nat.zero_add, Nat.mod_mod, Nat.mod_eq_of_lt hlt]
  refine mapInto_strict ih hs hp hsub (by omega) ?_ (.inr (by omega)) hoff (by omega) hlast
  rw [hentry]
  rintro v (rfl | rfl) x hx hne
  · exact absurd (Entry.not_cut hx hal) hne
  · refine hcuts _ (.inr hend) x (leafAt_of_cut ?_ hx hne) hne
    omega

end Steps

/-- **Fitting calls keep a table strict.** -/
theorem createMapping_strict (level : Nat) (hlevel : level ≤ 2) : StrictSpec level := by
  induction level with
  | zero =>
    intro table vpn ppn pages perm table' hs hp _ _ _ h
    exact mapWhole_strict hlevel hp hs (fun _ => Nat.mod_one ppn) h
  | succ level ih =>
    intro table vpn ppn pages perm table' hs hp hcong hcuts hblock h
    replace ih := ih (by omega)
    obtain ⟨part, whole, rest, t1, t2, h⟩ := createMapping_phases h
    have hs1 : Strict t1 := h.first_strict ih hs hp hcong hcuts
    have hs2 : Strict t2 := mapWhole_strict hlevel hp hs1 (h.cut.frame_aligned hcong) h.loop
    exact h.last_strict ih hs2 hp hcong hcuts hblock

end Operations

/-! ## The two walks -/

theorem Entry.Strict.walk (entry : Entry level) (h : entry.Strict) (vpn : Nat) :
    entry.hwWalk vpn = (entry.trans vpn).toOption := by
  induction entry with
  | @page level perm ppn =>
    obtain ⟨-, hvalid⟩ := h
    unfold hwWalk trans
    cases hv : perm.v with
    | false => rfl
    | true =>
      obtain ⟨huse, hal⟩ := hvalid hv
      have hread : ¬(true = false ∨ perm.r = false ∧ perm.w = true) := by
        rintro (h | ⟨hr, hw⟩)
        · cases h
        · rw [huse.readable hw] at hr
          cases hr
      have hleaf : (perm.r || perm.x) = true := by
        have hl := huse.leaf
        unfold Perm.isLeaf at hl
        cases hw : perm.w with
        | false => rwa [hw, Bool.or_false] at hl
        | true => rw [huse.readable hw, Bool.true_or]
      have hmul : ppn / bigPageSize level * bigPageSize level = ppn :=
        Nat.div_mul_cancel (Nat.dvd_of_mod_eq_zero hal)
      rw [if_neg hread, if_pos hleaf, if_pos hal, hmul, assert_true, ok_bind, if_pos huse.leaf]
      rfl
  | @table level perm node sub ih =>
    obtain ⟨rfl, hsub⟩ := h
    exact ih _ (hsub _)

theorem Entry.Strict.shaped (entry : Entry level) (h : entry.Strict) : entry.Shaped := by
  induction entry with
  | page perm ppn =>
    intro hv
    obtain ⟨huse, hal⟩ := h.2 hv
    rw [if_pos huse.leaf]
    exact hal
  | table perm node sub ih => exact ⟨h.1, fun i => ih i (h.2 i)⟩

/-- **Sv39 and the kernel see the same page table** in every run of fitting calls. -/
theorem sv39_of_fitting {root : Table 2}
    (h : Reach Create.step Create.Fitting (· = createPTNode) root) : Sv39 root := by
  have hs : Strict root := by
    refine h.invariant (fun root : Table 2 => Strict root) ?_ ?_
    · rintro _ rfl
      exact createPTNode_strict
    · intro s s' c hs hok hstep
      obtain ⟨⟨hfit, hv, hl⟩, hr, hcong, hcuts⟩ := hok
      exact createMapping_strict 2 (Nat.le_refl 2) s _ _ _ _ s' hs ⟨hv, hl, hr⟩ hcong hcuts
        (fit_of_le hfit) hstep
  exact ⟨fun i => Entry.Strict.shaped _ (hs i), fun vpn => Entry.Strict.walk _ (hs _) vpn⟩

theorem Congruent.small {vpn pages : Nat} (h : pages < 512) : Congruent 2 vpn ppn pages := by
  intro l hl b _ h1 h2
  have h512 : l ≠ 0 → 512 ≤ bigPageSize l := fun hne =>
    Nat.pow_le_pow_right (Nat.succ_pos 1) (by omega : 9 ≤ 9 * l)
  obtain rfl : l = 0 := by
    omega
  exact (Nat.mod_one ppn).trans (Nat.mod_one vpn).symm

/-- Two superpages are mapped, and two pages in the first one mapped anew. -/
theorem sv39_split : ∃ root, Reach Create.step Create.Fitting (· = createPTNode) root ∧
    trans root 514 = .ok 1026 ∧ trans root 515 = .ok 7 ∧ Sv39 root := by
  have hrun : (do
      let t₁ ← Create.step createPTNode ⟨512, 1024, 1024, { v := true, r := true, w := true }⟩
      let t₂ ← Create.step t₁ ⟨515, 7, 2, { v := true, r := true }⟩
      pure (leafAt t₁ 515, leafAt t₁ 517, (trans t₂ 514).toOption, (trans t₂ 515).toOption) :
        Kern _).toOption =
      some (some ⟨512, 1024, { v := true, r := true, w := true }⟩,
        some ⟨512, 1024, { v := true, r := true, w := true }⟩, some 1026, some 7) := by
    decide +kernel
  obtain ⟨t₁, h₁, hrun⟩ := bind_eq_ok (toOption_eq_some.1 hrun)
  obtain ⟨t₂, h₂, hrun⟩ := bind_eq_ok hrun
  obtain ⟨hleaf₁, hrun⟩ := Prod.mk.inj (Except.ok.inj hrun)
  obtain ⟨hleaf₂, hrun⟩ := Prod.mk.inj hrun
  obtain ⟨htrans₁, htrans₂⟩ := Prod.mk.inj hrun
  have hfit₁ : Create.Fitting createPTNode
      ⟨512, 1024, 1024, { v := true, r := true, w := true }⟩ := by
    refine ⟨by decide, fun _ => rfl, ?_, ?_⟩
    · intro l hl b hb h1 h2
      obtain rfl | rfl | rfl : l = 0 ∨ l = 1 ∨ l = 2 := by omega
      · rfl
      · rfl
      · have hsize : bigPageSize 2 = 262144 := rfl
        dsimp only at h2
        omega
    · intro v _ x hx
      rw [leafAt_createPTNode] at hx
      cases hx
  have hfit₂ : Create.Fitting t₁ ⟨515, 7, 2, { v := true, r := true }⟩ := by
    refine ⟨⟨by decide, rfl, rfl⟩, nofun, Congruent.small (by decide), ?_⟩
    rintro v (rfl | rfl) x hx _
    · rw [hleaf₁] at hx
      cases hx
      decide
    change leafAt t₁ 517 = some x at hx
    rw [hleaf₂] at hx
    cases hx
    decide
  have hreach : Reach Create.step Create.Fitting (· = createPTNode) t₂ := by
    refine .next (.next (.start ?_) hfit₁ h₁) hfit₂ h₂
    rfl
  exact ⟨t₂, hreach, toOption_eq_some.1 htrans₁, toOption_eq_some.1 htrans₂,
    sv39_of_fitting hreach⟩

/-- **A superpage is mapped to frames that are not aligned**: the kernel finds page 0 at frame 1,
the hardware faults. -/
theorem not_sv39_misaligned :
    ¬∀ root, Reach Create.step Create.Legal (· = createPTNode) root → Sv39 root := by
  intro h
  obtain ⟨t, -, hreach, hhw, hkernel⟩ := exists_reach Create.step Create.Legal
    [⟨0, 1, 512, { v := true, r := true, w := true }⟩] (I := (· = createPTNode)) rfl
    (fun t => hwWalk t 0 = none ∧ (trans t 0).toOption = some 1) (by decide +kernel)
  have hwalk := (h t hreach).walk 0
  rw [hhw, hkernel] at hwalk
  cases hwalk

end LuoOS.Vm
