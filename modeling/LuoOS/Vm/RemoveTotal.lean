import LuoOS.Vm.EntryBits

/-!
# When `removeMapping` returns

`removeMapping` stops in an assertion if it meets a leaf that is not removed as a whole, and in
another if a node is not empty after all its pages were removed. The second never happens: each
entry of such a node was made invalid. The first does not happen for a range that cuts no leaf
(`Uncut`), which for an empty range means that no leaf reaches over its start.
-/

namespace LuoOS.Vm

open Translation Function

/-- The range cuts no leaf. -/
structure Uncut (D : Nat → Prop) (L : Nat → Option (Leaf Perm)) (a n : Nat) : Prop where
  inside : ∀ v, D v → InRange a n v → ∀ y, L v = some y → y.Inside v a n
  start : n = 0 → ∀ y, L a = some y → a % y.size = 0

theorem block_within {l level : Nat} (hl : l ≤ level) (v : Nat) :
    v - v % bigPageSize level ≤ v - v % bigPageSize l ∧
      v - v % bigPageSize l + bigPageSize l ≤
        v - v % bigPageSize level + bigPageSize level := by
  obtain ⟨k, hk⟩ := bigPageSize_dvd hl
  have hmod : v % bigPageSize level % bigPageSize l = v % bigPageSize l :=
    Nat.mod_mod_of_dvd v (bigPageSize_dvd hl)
  have hlt := Nat.mod_lt v (bigPageSize_pos level)
  have hle := Nat.mod_le v (bigPageSize level)
  generalize v % bigPageSize level = r at hmod hlt hle
  have hdm := Nat.div_add_mod r (bigPageSize l)
  have hquot : r / bigPageSize l + 1 ≤ k := by
    refine Nat.div_lt_of_lt_mul ?_
    rw [← hk]
    exact hlt
  have hmul := Nat.mul_le_mul_left (bigPageSize l) hquot
  rw [Nat.mul_add, Nat.mul_one, ← hk] at hmul
  constructor <;> omega

theorem leafAt_inside {level v : Nat} {table : Table level} {y : Leaf Perm}
    (h : leafAt table v = some y) {big : Nat} (hbig : level ≤ big) :
    v - v % bigPageSize big ≤ y.base v ∧
      y.base v + y.size ≤ v - v % bigPageSize big + bigPageSize big := by
  obtain ⟨l, hl, hsize⟩ := Entry.leafAt_size _ h
  unfold Leaf.base
  rw [hsize]
  exact block_within (hl.trans hbig) v

section Total

variable {level b : Nat}

/-- A call that cuts no leaf returns, and leaves nothing if it is for all pages of the node. -/
def RemovesUncut (level : Nat) : Prop :=
  ∀ (table : Table level) (vpn pages : Nat), Each Perm.Fine table →
    vpn % bigPageSize (level + 1) + pages ≤ bigPageSize (level + 1) →
    Uncut (Block (level + 1) vpn) (leafAt table) vpn pages →
    ∃ table', removeMapping level table vpn pages = .ok table' ∧
      (pages = bigPageSize (level + 1) → freePTNode table' = true)

theorem clearPage_total {perm : Perm} (hfine : perm.Fine) (ppn : Nat) :
    ∃ entry, (clearPage perm ppn : Kern (Entry level)) = .ok entry := by
  unfold clearPage
  cases hv : perm.v with
  | false => exact ⟨_, rfl⟩
  | true =>
    have hleaf : perm.isLeaf = true := hfine hv
    rw [if_pos rfl, if_pos hleaf]
    exact ⟨_, rfl⟩

/-- A whole entry is cleared, with all that hangs from it. -/
theorem clearEntry_total (ih : RemovesUncut level) {entry : Entry (level + 1)} {vpn : Nat}
    (ht : entry.Each Perm.Fine) (hal : vpn % bigPageSize (level + 1) = 0) :
    ∃ entry', clearEntry (fun sub => removeMapping level sub vpn (bigPageSize (level + 1))) entry =
      .ok entry' := by
  cases entry with
  | page perm ppn => exact clearPage_total ht ppn
  | table perm node sub =>
    have hun : Uncut (Block (level + 1) vpn) (leafAt sub) vpn (bigPageSize (level + 1)) := by
      refine ⟨fun v hv _ y hy => ?_, fun hzero => ?_⟩
      · obtain ⟨h1, h2⟩ := leafAt_inside hy (show level ≤ level + 1 by omega)
        obtain ⟨h3, h4⟩ := mod_eq_sub hv hal
        exact ⟨by omega, by omega⟩
      · have := bigPageSize_pos (level + 1)
        omega
    obtain ⟨sub', hsub, hfree⟩ := ih sub vpn _ ht (by omega) hun
    refine ⟨.page {} 0, ?_⟩
    change (removeMapping level sub vpn (bigPageSize (level + 1)) >>= _) = _
    rw [hsub, ok_bind, hfree rfl]
    rfl

theorem removeWhole_total {clear : Nat → Entry level → Kern (Entry level)}
    (hclear : ∀ vpn entry, vpn % bigPageSize level = 0 → entry.Each Perm.Fine →
      ∃ entry', clear vpn entry = .ok entry')
    (hinvalid : ∀ vpn entry entry', clear vpn entry = .ok entry' → entry'.Invalid) :
    ∀ (n : Nat) (table : Table level) (i vpn : Nat), (∀ j : Fin 512, i ≤ j →
      (table j).Each Perm.Fine) → i + n ≤ 512 → (0 < n → vpn % bigPageSize level = 0) →
    ∃ table', removeWhole clear n table i vpn = .ok table' ∧
      (∀ j : Fin 512, i ≤ j → j < i + n → (table' j).Invalid) ∧
      ∀ j : Fin 512, j < i → table' j = table j := by
  intro n
  induction n with
  | zero =>
    intro table i vpn _ _ _
    exact ⟨table, rfl, fun j h1 h2 => absurd h2 (Nat.not_lt.2 h1), fun _ _ => rfl⟩
  | succ n ih =>
    intro table i vpn ht hi hal
    have hi' : i < 512 := by omega
    have hal' := hal (Nat.succ_pos n)
    obtain ⟨entry, hentry⟩ := hclear vpn (table ⟨i, hi'⟩) hal' (ht ⟨i, hi'⟩ (Nat.le_refl i))
    have hother : ∀ j : Fin 512, (j : Nat) ≠ i →
        update table ⟨i, hi'⟩ entry j = table j := fun j hj =>
      update_of_ne (fun h => hj (congrArg Fin.val h)) _ _
    have hrest : ∀ j : Fin 512, i + 1 ≤ (j : Nat) →
        (update table ⟨i, hi'⟩ entry j).Each Perm.Fine := by
      intro j hj
      rw [hother j (by omega)]
      exact ht j (by omega)
    obtain ⟨table', hwhole, hinv, hsame⟩ := ih _ (i + 1) (vpn + bigPageSize level) hrest (by omega)
      fun _ => by rw [Nat.add_mod_right]; exact hal'
    refine ⟨table', ?_, fun j h1 h2 => ?_, fun j hj => ?_⟩
    · unfold removeWhole
      rw [dif_pos hi', hentry, ok_bind]
      exact hwhole
    · rcases Nat.lt_or_ge i j with hlt | hge
      · exact hinv j hlt (by omega)
      · have hj : j = ⟨i, hi'⟩ := Fin.ext (by dsimp only; omega)
        rw [hsame j (by omega), hj, update_self]
        exact hinvalid vpn _ entry hentry
    · rw [hsame j (by omega), hother j (by omega)]

theorem removeInto_total {n : Nat} {table : Table (level + 1)} (ih : RemovesUncut level)
    (ht : Each Perm.Fine table) (hfit : b % bigPageSize (level + 1) + n ≤ bigPageSize (level + 1))
    (hpart : b % bigPageSize (level + 1) ≠ 0 ∨ 0 < n ∧ n < bigPageSize (level + 1))
    (hun : Uncut (Block (level + 1) b) (table (index (level + 1) b)).leafAt b n) :
    ∃ table', removeInto table b (fun sub => removeMapping level sub b n) = .ok table' ∧
      Each Perm.Fine table' := by
  have hentry := ht (index (level + 1) b)
  have htame : Tame (Each Perm.Fine) (removeInto table b fun sub => removeMapping level sub b n) :=
    removeInto_tame marks_fine ht fun sub => removeMapping_tame marks_fine level sub b n
  suffices h : ∃ table', removeInto table b (fun sub => removeMapping level sub b n) = .ok table' by
    obtain ⟨table', heq⟩ := h
    exact ⟨table', heq, htame.of_ok heq⟩
  unfold removeInto
  cases hcur : table (index (level + 1) b) with
  | table perm node sub =>
    rw [hcur] at hentry hun
    obtain ⟨sub', hsub, -⟩ := ih sub b n hentry hfit hun
    refine ⟨update table (index (level + 1) b)
      (if freePTNode sub' then .page {} 0 else .table perm node sub'), ?_⟩
    change (removeMapping level sub b n >>= _) = _
    rw [hsub, ok_bind]
    rfl
  | page perm ppn =>
    rw [hcur] at hentry hun
    have hfine : perm.Fine := hentry
    dsimp only
    cases hv : perm.v with
    | false => exact ⟨table, rfl⟩
    | true =>
      -- a leaf of this size is cut by the range
      have hleaf : perm.isLeaf = true := hfine hv
      have hat : ∀ v, (Entry.page perm ppn : Entry (level + 1)).leafAt v =
          some ⟨bigPageSize (level + 1), ppn, perm⟩ := fun v => by
        simp only [Entry.leafAt, hv, hleaf, Bool.and_self, if_true]
      rcases Nat.eq_zero_or_pos n with hn | hn
      · have := hun.start hn _ (hat b)
        dsimp only at this
        omega
      · obtain ⟨h1, h2⟩ := hun.inside b rfl ⟨Nat.le_refl b, by omega⟩ _ (hat b)
        simp only [Leaf.base] at h1 h2
        omega

variable {table : Table level}

theorem when_total {cond : Nat} {step : Table level → Kern (Table level)}
    (ht : Each Perm.Fine table)
    (h : cond ≠ 0 → ∃ table', step table = .ok table' ∧ Each Perm.Fine table') :
    ∃ table', when_ cond step table = .ok table' ∧ Each Perm.Fine table' := by
  unfold when_
  split
  · exact ⟨table, rfl, ht⟩
  · rename_i hne
    exact h hne

/-! ## A whole range -/

section Range

variable {vpn pages part whole rest : Nat} {table t : Table (level + 1)}

section

variable (h : Uncut (Block (level + 2) vpn) (leafAt table) vpn pages)
include h

theorem Uncut.first
    (hcut : Cut (level + 1) vpn pages part whole rest) (hne : vpn % bigPageSize (level + 1) ≠ 0) :
    Uncut (Block (level + 1) vpn) (table (index (level + 1) vpn)).leafAt vpn part := by
  have hsum := hcut.sum
  have hfit := hcut.part_fit
  have haligned : part < pages → (vpn + part) % bigPageSize (level + 1) = 0 := by
    refine fun hlt => hcut.aligned ?_
    rcases Nat.eq_zero_or_pos whole with rfl | hw
    · exact .inr (by omega)
    · exact .inl hw
  -- the part ends with the range or with the block
  have hend : part = pages ∨ vpn % bigPageSize (level + 1) + part = bigPageSize (level + 1) := by
    refine (Decidable.em (part = pages)).imp_right fun hmore => ?_
    have hal := haligned (by omega)
    rw [← Nat.mod_add_mod] at hal
    obtain ⟨k, hk⟩ := Nat.dvd_of_mod_eq_zero hal
    have hk1 : k = 1 := by
      rcases k with - | - | k
      · omega
      · rfl
      · have : bigPageSize (level + 1) * (k + 1 + 1) =
            bigPageSize (level + 1) * k + 2 * bigPageSize (level + 1) := by
          ring
        omega
    rw [hk1, Nat.mul_one] at hk
    exact hk
  refine ⟨fun v hv hr y hy => ?_, fun hzero y hy => ?_⟩
  · have hy' : leafAt table v = some y := by
      rw [leafAt_of_block hv.succ hv]
      exact hy
    obtain ⟨h1, h2⟩ := h.inside v hv.succ ⟨hr.1, by have := hr.2; omega⟩ y hy'
    refine ⟨h1, ?_⟩
    rcases hend with rfl | hend
    · exact h2
    obtain ⟨-, h4⟩ := leafAt_inside hy' (Nat.le_refl (level + 1))
    have hv1 := Nat.div_add_mod v (bigPageSize (level + 1))
    have hv2 := Nat.div_add_mod vpn (bigPageSize (level + 1))
    rw [hv] at hv1
    omega
  · have hpages : pages = 0 := by
      by_contra hpos
      have hal := haligned (by omega)
      rw [hzero] at hal
      exact hne hal
    exact h.start hpages y hy

theorem Uncut.behind (hb : vpn ≤ b) (hend : b + rest = vpn + pages) (hB : Block (level + 2) vpn b)
    (hal : b % bigPageSize (level + 1) = 0) (hpos : 0 < rest)
    (hsame : ∀ v, Block (level + 2) vpn v → b ≤ v → leafAt t v = leafAt table v) :
    Uncut (Block (level + 1) b) (t (index (level + 1) b)).leafAt b rest := by
  refine ⟨fun v hv hr y hy => ?_, fun hzero => absurd hzero (Nat.pos_iff_ne_zero.1 hpos)⟩
  have hD : Block (level + 2) vpn v := hv.succ.trans hB
  rw [← leafAt_of_block hv.succ hv] at hy
  obtain ⟨h1, -⟩ := leafAt_inside hy (Nat.le_refl (level + 1))
  rw [hsame v hD hr.1] at hy
  obtain ⟨h2, h3⟩ := hr
  obtain ⟨-, h4⟩ := h.inside v hD ⟨by omega, by omega⟩ y hy
  obtain ⟨h5, h6⟩ := mod_eq_sub hv hal
  exact ⟨by omega, by omega⟩

end

theorem Cut.all (hcut : Cut level vpn (bigPageSize (level + 1)) part whole rest)
    (hal : vpn % bigPageSize (level + 1) = 0) : part = 0 ∧ whole = 512 ∧ rest = 0 := by
  have hpos := bigPageSize_pos level
  have hpart : part = 0 :=
    hcut.part_zero (mod_bigPageSize_eq_zero (Nat.le_succ level) hal)
  have hsum := hcut.sum
  have hlt := hcut.rest_lt
  rw [hpart, Nat.zero_add, bigPageSize_succ] at hsum
  have hwhole : whole = 512 := by
    have hdiv : (rest + whole * bigPageSize level) / bigPageSize level = whole := by
      rw [Nat.add_mul_div_right _ _ hpos, Nat.div_eq_of_lt hlt, Nat.zero_add]
    rw [Nat.add_comm, hsum, Nat.mul_div_cancel_left _ hpos] at hdiv
    exact hdiv.symm
  rw [hwhole, Nat.mul_comm] at hsum
  exact ⟨hpart, hwhole, by omega⟩

end Range

/-- **`removeMapping` returns** for a range that cuts no leaf. -/
theorem removeMapping_uncut (level : Nat) : RemovesUncut level := by
  induction level with
  | zero =>
    intro table vpn pages ht hfit _
    have hentries := (cut_zero vpn pages).whole_entries hfit
    have hroom : (index 0 vpn : Nat) + pages ≤ 512 := by
      rcases Nat.eq_zero_or_pos pages with rfl | hpos
      · exact Nat.le_of_lt (index 0 vpn).2
      · exact (hentries hpos).2
    have hclear : ∀ vpn (entry : Entry 0), vpn % bigPageSize 0 = 0 → entry.Each Perm.Fine →
        ∃ entry', clearLast entry = .ok entry' := by
      intro _ entry _ he
      cases entry with
      | page perm ppn => exact clearPage_total he ppn
    obtain ⟨table', heq, hinv, -⟩ := removeWhole_total hclear
      (fun _ _ _ h => (clearLast_invalid h).1) pages table (index 0 vpn) vpn (fun j _ => ht j) hroom
      fun _ => Nat.mod_one vpn
    refine ⟨table', heq, fun hall => freePTNode_of_invalid fun j => ?_⟩
    have hsize : bigPageSize (0 + 1) = 512 := rfl
    exact hinv j (by omega) (by omega)
  | succ level ih =>
    intro table vpn pages ht hfit hun
    have hcut := cut (level + 1) vpn pages
    unfold removeMapping
    dsimp only
    generalize unalignedPart (bigPageSize (level + 1)) vpn pages = part at hcut ⊢
    generalize (pages - part) / bigPageSize (level + 1) = whole at hcut ⊢
    generalize pages - part - whole * bigPageSize (level + 1) = rest at hcut ⊢
    have hsum := hcut.sum
    have hlt := hcut.rest_lt
    -- the pages before the first aligned one
    obtain ⟨t1, h1, ht1⟩ : ∃ t1, when_ (vpn % bigPageSize (level + 1)) (fun table =>
        removeInto table vpn fun sub => removeMapping level sub vpn part) table = .ok t1 ∧
        Each Perm.Fine t1 :=
      when_total ht fun hne =>
        removeInto_total ih ht hcut.part_fit (.inl hne) (hun.first hcut hne)
    -- the whole entries
    have hroom : (index (level + 1) (vpn + part) : Nat) + whole ≤ 512 := by
      rcases Nat.eq_zero_or_pos whole with rfl | hpos
      · exact Nat.le_of_lt (index (level + 1) (vpn + part)).2
      · exact (hcut.whole_entries hfit hpos).2
    obtain ⟨t2, h2, hinv, -⟩ := removeWhole_total
      (fun _ _ hal he => clearEntry_total ih he hal) (fun _ _ _ h => (clearEntry_invalid h).1) whole
      t1 (index (level + 1) (vpn + part)) (vpn + part) (fun j _ => ht1 j) hroom
      fun hpos => hcut.aligned (.inl hpos)
    have ht2 : Each Perm.Fine t2 :=
      (removeWhole_tame (fun _ _ he => clearEntry_tame marks_fine he fun sub =>
        removeMapping_tame marks_fine level sub _ _) whole t1 _ _ ht1).of_ok h2
    -- the pages behind them
    obtain ⟨t3, h3, -⟩ : ∃ t3, when_ rest (fun table =>
        removeInto table (vpn + part + whole * bigPageSize (level + 1)) fun sub =>
          removeMapping level sub (vpn + part + whole * bigPageSize (level + 1)) rest) t2 =
          .ok t3 ∧ Each Perm.Fine t3 := by
      refine when_total ht2 fun hne => ?_
      obtain ⟨hal, hB⟩ := hcut.rest_start hfit (by omega)
      refine removeInto_total ih ht2 (by omega) (.inr ⟨by omega, hlt⟩)
        (hun.behind (by omega) (by omega) hB hal (by omega) fun v hv hge => ?_)
      refine (hcut.head_cleared (removeMapping_clears level) hfit h1 h2).2.kept v hv fun hr => ?_
      have := hr.2
      omega
    refine ⟨t3, ?_, fun hall => ?_⟩
    · rw [h1, ok_bind, h2, ok_bind]
      exact h3
    · rw [hall] at hcut
      obtain ⟨hpart, hwhole, hrest⟩ := hcut.all (by omega)
      unfold when_ at h3
      rw [if_pos hrest] at h3
      cases h3
      refine freePTNode_of_invalid fun j => ?_
      exact hinv j (by omega) (by omega)

theorem Entry.Each.mono {P Q : Perm → Prop} (h : ∀ perm, P perm → Q perm) {level : Nat}
    (entry : Entry level) (he : entry.Each P) : entry.Each Q := by
  induction entry with
  | page perm ppn => exact h perm he
  | table perm node sub ih => exact fun i => ih i (he i)

theorem Each.fine (h : Each Perm.Ok table) : Each Perm.Fine table :=
  fun i => Entry.Each.mono (fun _ h => h.fine) _ (h i)

/-- **An empty range inside a leaf** stops in the assertion of the branch for its unaligned start. -/
theorem removeMapping_stops {y : Leaf Perm} : ∀ (level : Nat) (table : Table level) (vpn : Nat),
    leafAt table vpn = some y → vpn % y.size ≠ 0 →
      ∀ table', removeMapping level table vpn 0 ≠ .ok table' := by
  intro level
  induction level with
  | zero =>
    intro table vpn hy hne
    obtain ⟨l, hl, hsize⟩ := Entry.leafAt_size _ hy
    obtain rfl : l = 0 := Nat.le_zero.1 hl
    rw [hsize] at hne
    exact absurd (Nat.mod_one vpn) hne
  | succ level ih =>
    intro table vpn hy hne table' h
    obtain ⟨l, hl, hsize⟩ := Entry.leafAt_size _ hy
    have hun : vpn % bigPageSize (level + 1) ≠ 0 := by
      intro hz
      rw [hsize] at hne
      exact hne (mod_bigPageSize_eq_zero hl hz)
    have hpart : unalignedPart (bigPageSize (level + 1)) vpn 0 = 0 := by
      unfold unalignedPart
      rw [if_neg hun, Nat.min_zero]
    unfold removeMapping at h
    dsimp only at h
    rw [hpart] at h
    obtain ⟨t1, h1, -⟩ := bind_eq_ok h
    unfold when_ at h1
    rw [if_neg hun] at h1
    unfold leafAt at hy
    unfold removeInto at h1
    dsimp only at h1
    cases hi : table (index (level + 1) vpn) with
    | table perm node sub =>
      rw [hi] at hy h1
      obtain ⟨sub', hsub, -⟩ := bind_eq_ok h1
      exact ih sub vpn hy hne sub' hsub
    | page perm ppn =>
      rw [hi] at hy h1
      unfold Entry.leafAt at hy
      split at hy
      · rename_i hleaf
        obtain ⟨hv, hl⟩ := Bool.and_eq_true_iff.1 hleaf
        dsimp only at h1
        rw [if_pos hv, hl] at h1
        cases h1
      · cases hy

end Total

end LuoOS.Vm
