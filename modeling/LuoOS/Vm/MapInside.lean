import LuoOS.Vm.Effects
import LuoOS.Vm.MapRange

/-!
# Where `map` writes

`map` writes the run of pages that the VMO gives it: of a paged VMO the page it asks for, so the
mapping's pages and no others; of a contiguous one all it has, around the mapping if this shows a
part of it only. Such a window may reach over the ends of the address space. The root of the page
table is indexed with nine bits, so behind the last page comes page 0 (`createMapping_split`),
unless the loop over whole entries runs out of the root (`Overruns`).
-/

namespace LuoOS.Vm

open Translation

/-! ## The pages of a leaf -/

theorem block_of_div {level l v w size : Nat} (hl : l ≤ level) (hsize : size = bigPageSize l)
    (hw : w / size = v / size) : Block level v w := by
  obtain ⟨c, hc⟩ := bigPageSize_dvd hl
  unfold Block
  rw [hc, ← Nat.div_div_eq_div_mul, ← Nat.div_div_eq_div_mul, ← hsize, hw]

theorem Entry.leafAt_of_div {level v w : Nat} {x : Leaf Perm} (entry : Entry level)
    (h : entry.leafAt v = some x) (hw : w / x.size = v / x.size) : entry.leafAt w = some x := by
  induction entry with
  | page perm ppn => exact h
  | @table level perm node sub ih =>
    obtain ⟨l, hl, hsize⟩ := Entry.leafAt_size _ (show (sub (index level v)).leafAt v = some x from h)
    have hblock : Block level v w := block_of_div hl hsize hw
    have hnext := ih (index level v) h
    rw [← index_of_block hblock] at hnext
    exact hnext

theorem leafAt_of_covers {root : Table 2} {v w : Nat} {x : Leaf Perm}
    (h : leafAt root v = some x) (hw : x.Covers v w) : leafAt root w = some x := by
  obtain ⟨l, hl, hsize⟩ := Entry.leafAt_size _ h
  have hdiv : w / x.size = v / x.size := by
    obtain ⟨h1, h2⟩ := hw
    unfold Leaf.base at h1 h2
    have hv := Nat.div_add_mod v x.size
    exact div_eq_of_between (by omega) (by omega)
  have hblock : Block 2 v w := block_of_div hl hsize hdiv
  unfold leafAt
  rw [index_of_block hblock]
  exact Entry.leafAt_of_div _ h hdiv

variable {perm : Perm}

section Look

variable {root root' : Table 2} {a n v : Nat}

theorem look_eq_none : look root v = none ↔ leafAt root v = none := Option.map_eq_none_iff

theorem avoids_of_untranslated (hn : 0 < n) (h : ∀ w, InRange a n w → look root w = none)
    {y : Leaf Perm} (hy : leafAt root v = some y) : y.Avoids v a n := by
  refine Leaf.avoids_of_covers (Entry.leafAt_size_pos _ hy) hn fun w hw hin => ?_
  have hnone := look_eq_none.1 (h w hin)
  rw [leafAt_of_covers hy hw] at hnone
  cases hnone

theorem Perm.grant_of_leaf (hv : perm.v = true) (hleaf : perm.isLeaf = true) :
    perm.grant = some perm := by
  unfold Perm.grant
  rw [hv, hleaf]
  rfl

theorem look_of_writes {f : Nat → Nat}
    (hw : Writes IsPage (leafAt root) (leafAt root') a n f (some perm)) (hv : IsPage v) :
    (InRange a n v → look root' v = some (f v, perm)) ∧
      (¬InRange a n v → (∀ y, leafAt root v = some y → y.Avoids v a n) →
        look root' v = look root v) := by
  constructor
  · intro hin
    obtain ⟨x, hx, hframe, hperm, -⟩ := hw.grants v hv hin perm rfl
    unfold look
    rw [hx, Option.map_some, hframe, hperm]
  · intro hout hav
    unfold look
    rw [hw.eq_of_avoids hv hout hav]

/-- What a call of `createMapping` does to a page of its range and to one outside of it, if no
superpage reaches over the range to the page. -/
theorem createMapping_look {ppn : Nat} (hs : Sound root) (hrange : a + n ≤ 2 ^ 27)
    (hframes : ppn + n ≤ 2 ^ 44) (hv : perm.v = true) (hleaf : perm.isLeaf = true) :
    ∃ root', createMapping 2 root a ppn n perm = .ok root' ∧ Sound root' ∧ ∀ v, IsPage v →
      (InRange a n v → look root' v = some (ppn + (v - a), perm)) ∧
        (¬InRange a n v → (∀ y, leafAt root v = some y → ¬y.Straddles v a n) →
          look root' v = look root v) := by
  have hok : perm.Ok := hv.trans hleaf.symm
  obtain ⟨root', heq, -, hput⟩ := createMapping_root (fun i => (hs i).each) hrange hok
  refine ⟨root', heq, ?_, fun v hpage => ⟨fun hin => ?_, fun hout hends => ?_⟩⟩
  · rcases Nat.lt_or_ge a (2 ^ 27) with hlt | hge
    · obtain ⟨_, heq', hs', -⟩ := create_total a hs hok hrange hlt hframes
      rw [heq] at heq'
      cases heq'
      exact hs'
    · obtain ⟨rfl, rfl⟩ : a = 2 ^ 27 ∧ n = 0 := by omega
      cases heq
      exact hs
  · obtain ⟨x, hx, hperm, -, hframe⟩ :=
      hput.grants v hpage hin perm (Perm.grant_of_leaf hv hleaf)
    obtain ⟨h1, h2⟩ := hin
    unfold look
    rw [hx, Option.map_some, hframe (by omega), hperm]
  · exact look_of_puts hput hpage hout hends fun y hy => .inr ((hs _).frame_lt _ hy)

end Look

/-! ## Ranges behind the last page -/

section Split

variable {level a b : Nat}

theorem createMapping_succ (table : Table (level + 1)) (vpn ppn pages : Nat) (perm : Perm)
    {part whole rest : Nat} (hpart : unalignedPart (bigPageSize (level + 1)) vpn pages = part)
    (hwhole : (pages - part) / bigPageSize (level + 1) = whole)
    (hrest : pages - part - whole * bigPageSize (level + 1) = rest) :
    createMapping (level + 1) table vpn ppn pages perm =
      (when_ (vpn % bigPageSize (level + 1)) (mapFirst vpn ppn part perm) table >>= fun t =>
        mapWhole perm whole t (index (level + 1) (vpn + part)) (ppn + part) >>=
          when_ rest (mapRest (vpn + part + whole * bigPageSize (level + 1))
            (ppn + part + whole * bigPageSize (level + 1)) rest perm)) := by
  subst hpart hwhole hrest
  rfl

theorem mapRest_modEq {ppn rest : Nat} (h : a ≡ b [MOD bigPageSize (level + 2)]) :
    (mapRest a ppn rest perm : Table (level + 1) → _) = mapRest b ppn rest perm := by
  have hpush := fun (prevppn : Nat) (prevPerm : Perm) =>
    createMapping_modEq level createPTNode _ _ (prevppn + rest) (bigPageSize (level + 1) - rest)
      prevPerm (modEq_of_succ (h.add_right rest))
  have hcreate := fun (sub : Table level) =>
    createMapping_modEq level sub _ _ ppn rest perm (modEq_of_succ h)
  unfold mapRest mapInto
  simp only [hpush, hcreate, index_of_modEq h]

/-- **A range that reaches over the last page** is written up to it and then from page 0 on, if it
ends in the first entry of the root or begins in the last one. -/
theorem createMapping_split (root : Table 2) (ppn : Nat) (perm : Perm) {k n : Nat}
    (hend : a + k = 2 ^ 27) (hk : 0 < k) (hn : k ≤ n) (hshort : k < 2 ^ 18 ∨ n - k < 2 ^ 18) :
    createMapping 2 root a ppn n perm =
      createMapping 2 root a ppn k perm >>= fun root =>
        createMapping 2 root 0 (ppn + k) (n - k) perm := by
  have hbig : bigPageSize 2 = 2 ^ 18 := rfl
  -- what is written from page 0 on, with the page behind the last one in the place of page 0
  have hzero : ∀ (t : Table 2) (whole rest : Nat), (n - k) / bigPageSize 2 = whole →
      n - k - whole * bigPageSize 2 = rest →
      createMapping 2 t 0 (ppn + k) (n - k) perm =
        mapWhole perm whole t (index 2 (a + k)) (ppn + k) >>=
          when_ rest (mapRest (a + k + whole * bigPageSize 2) (ppn + k + whole * bigPageSize 2) rest
            perm) := by
    intro t whole rest hwhole hrest
    have hmod : 0 ≡ a + k [MOD bigPageSize 3] := by
      rw [hend]
      rfl
    have hpart : unalignedPart (bigPageSize 2) 0 (n - k) = 0 := rfl
    rw [createMapping_succ t 0 (ppn + k) (n - k) perm hpart hwhole hrest,
      ← index_of_modEq hmod, ← mapRest_modEq (hmod.add_right _), Nat.zero_add]
    rfl
  by_cases hsmall : k < 2 ^ 18
  · have hpart : ∀ m, k ≤ m → unalignedPart (bigPageSize 2) a m = k := by
      unfold unalignedPart
      rw [hbig]
      split <;> omega
    have hwhole : (k - k) / bigPageSize 2 = 0 := by rw [Nat.sub_self, Nat.zero_div]
    have hrest : k - k - 0 * bigPageSize 2 = 0 := by omega
    rw [createMapping_succ root a ppn n perm (hpart n hn) rfl rfl,
      createMapping_succ root a ppn k perm (hpart k (Nat.le_refl k)) hwhole hrest, bind_assoc]
    congr 1
    funext t
    exact (hzero t _ _ rfl rfl).symm
  · have hpart : ∀ m, k ≤ m → unalignedPart (bigPageSize 2) a m = k % 2 ^ 18 := by
      unfold unalignedPart
      rw [hbig]
      split <;> omega
    have hsum : k % 2 ^ 18 + k / 2 ^ 18 * bigPageSize 2 = k := by
      rw [hbig, Nat.mul_comm]
      exact Nat.mod_add_div _ _
    have hwhole' : (n - k % 2 ^ 18) / bigPageSize 2 = k / 2 ^ 18 := by
      rw [hbig]
      omega
    have hrest' : n - k % 2 ^ 18 - k / 2 ^ 18 * bigPageSize 2 = n - k := by
      omega
    have hwhole : (k - k % 2 ^ 18) / bigPageSize 2 = k / 2 ^ 18 := by
      rw [hbig]
      omega
    have hrest : k - k % 2 ^ 18 - k / 2 ^ 18 * bigPageSize 2 = 0 := by
      omega
    rw [createMapping_succ root a ppn n perm (hpart n hn) hwhole' hrest',
      createMapping_succ root a ppn k perm (hpart k (Nat.le_refl k)) hwhole hrest, bind_assoc]
    congr 1
    funext t
    rw [bind_assoc]
    congr 1
    funext t'
    rw [Nat.add_assoc, Nat.add_assoc, hsum]
    have hlast := hzero t' 0 (n - k) (by rw [hbig]; omega) (by omega)
    exact hlast.symm

theorem mapWhole_le : ∀ (n : Nat) (table : Table level) (i ppn : Nat)
    (table' : Table level), mapWhole perm n table i ppn = .ok table' → n = 0 ∨ i + n ≤ 512 := by
  intro n
  induction n with
  | zero => exact fun _ _ _ _ _ => .inl rfl
  | succ n ih =>
    intro table i ppn table' h
    unfold mapWhole at h
    split at h
    · rcases ih _ _ _ _ h with hzero | hle <;> omega
    · cases h

def Overruns (vpn pages : Nat) : Prop :=
  let part := unalignedPart (bigPageSize 2) vpn pages
  512 < (index 2 (vpn + part)).1 + (pages - part) / bigPageSize 2
  deriving Decidable

theorem not_overruns_of_ok {root root' : Table 2} {ppn n : Nat}
    (h : createMapping 2 root a ppn n perm = .ok root') : ¬Overruns a n := by
  obtain ⟨t, -, h⟩ := bind_eq_ok h
  obtain ⟨t', hloop, -⟩ := bind_eq_ok h
  unfold Overruns
  rcases mapWhole_le _ _ _ _ _ hloop with hzero | hle
  · change (n - unalignedPart (bigPageSize 2) a n) / bigPageSize 2 = 0 at hzero
    omega
  · exact Nat.not_lt.2 hle

/-- A range that stays in the loop ends at the last page or may be split there. -/
theorem room_of_not_overruns {n k : Nat} (hk : a + k = 2 ^ 27) (hpos : 0 < k)
    (h : ¬Overruns a n) : n ≤ k ∨ k ≤ n ∧ n - k < 2 ^ 27 + 2 ^ 18 ∧ (k < 2 ^ 18 ∨ n - k < 2 ^ 18) := by
  have hbig : bigPageSize 2 = 2 ^ 18 := rfl
  unfold Overruns unalignedPart index at h
  dsimp only at h
  rw [hbig] at h
  split at h <;> omega

section Window

variable {root : Table 2} {ppn n : Nat} {perm : Perm}

/-- Writing from page 0 on. A page is left with the last of the pages that fall on it. -/
theorem createMapping_zero (hs : Sound root) (hn : n < 2 ^ 27 + 2 ^ 18)
    (hframes : ppn + n ≤ 2 ^ 44) (hv : perm.v = true) (hleaf : perm.isLeaf = true) :
    ∃ root', createMapping 2 root 0 ppn n perm = .ok root' ∧
      (∀ j, j < n → n ≤ j + 2 ^ 27 → look root' (j % 2 ^ 27) = some (ppn + j, perm)) ∧
      ∀ v, IsPage v → n ≤ v → look root' v = look root v := by
  rcases Nat.le_total n (2 ^ 27) with hle | hge
  · obtain ⟨root', heq, -, hlook⟩ :=
      createMapping_look (a := 0) hs (by omega) hframes hv hleaf
    refine ⟨root', heq, fun j hj _ => ?_, fun v hpage hout => ?_⟩
    · have hpage : j < 2 ^ 27 := by omega
      rw [Nat.mod_eq_of_lt hpage, (hlook j hpage).1 ⟨Nat.zero_le j, by omega⟩, Nat.sub_zero]
    · exact (hlook v hpage).2 (fun hin => by have := hin.2; omega)
        fun y _ hstr => Nat.not_lt_zero _ hstr.1
  · -- all pages, and then the first ones again
    obtain ⟨root1, heq1, hs1, hlook1⟩ :=
      createMapping_look (a := 0) hs (by omega) (show ppn + 2 ^ 27 ≤ 2 ^ 44 by omega) hv hleaf
    have hframes2 : ppn + 2 ^ 27 + (n - 2 ^ 27) ≤ 2 ^ 44 := by omega
    obtain ⟨root2, heq2, -, hlook2⟩ :=
      createMapping_look (a := 0) hs1 (by omega) hframes2 hv hleaf
    refine ⟨root2, ?_, fun j hj hlast => ?_, fun v hpage hout => ?_⟩
    · rw [createMapping_split root ppn perm (a := 0) (k := 2 ^ 27) (by omega) (by omega) hge
        (.inr (by omega)), heq1, ok_bind, heq2]
    · rcases Nat.lt_or_ge j (2 ^ 27) with hlt | hge
      · rw [Nat.mod_eq_of_lt hlt, (hlook2 j hlt).2 (fun hin => by have := hin.2; omega)
          fun y _ hstr => Nat.not_lt_zero _ hstr.1, (hlook1 j hlt).1 ⟨Nat.zero_le j, by omega⟩,
          Nat.sub_zero]
      have hmod : j % 2 ^ 27 = j - 2 ^ 27 := by omega
      rw [hmod, (hlook2 _ (by unfold IsPage; omega)).1 ⟨Nat.zero_le _, by omega⟩]
      have hsum : ppn + 2 ^ 27 + (j - 2 ^ 27 - 0) = ppn + j := by omega
      rw [hsum]
    · unfold IsPage at hpage
      omega

/-- **What a range does that may reach over the last page.** A page is left with the last of the
pages that fall on it; any other is as before, unless a superpage reaches it. -/
theorem createMapping_window (hs : Sound root) (ha : a < 2 ^ 27) (hover : ¬Overruns a n)
    (hframes : ppn + n ≤ 2 ^ 44) (hv : perm.v = true) (hleaf : perm.isLeaf = true) :
    ∃ root', createMapping 2 root a ppn n perm = .ok root' ∧
      (∀ j, j < n → n ≤ j + 2 ^ 27 → look root' ((a + j) % 2 ^ 27) = some (ppn + j, perm)) ∧
      ∀ v, IsPage v → (∀ j < n, (a + j) % 2 ^ 27 ≠ v) →
        (∀ y, leafAt root v = some y → ¬y.Straddles v a n) → look root' v = look root v := by
  obtain ⟨k, hk⟩ : ∃ k, a + k = 2 ^ 27 := ⟨2 ^ 27 - a, by omega⟩
  rcases room_of_not_overruns hk (by omega) hover with hle | ⟨hge, hlt, hshort⟩
  · obtain ⟨root', heq, -, hlook⟩ := createMapping_look (a := a) hs (by omega) hframes hv hleaf
    refine ⟨root', heq, fun j hj _ => ?_, fun v hpage hmiss hstr => (hlook v hpage).2 ?_ hstr⟩
    · have hpage : a + j < 2 ^ 27 := by omega
      rw [Nat.mod_eq_of_lt hpage, (hlook _ hpage).1 ⟨Nat.le_add_right _ _, by omega⟩,
        Nat.add_sub_cancel_left]
    · rintro ⟨h1, h2⟩
      refine hmiss (v - a) (by omega) ?_
      rw [Nat.add_sub_cancel' h1]
      exact Nat.mod_eq_of_lt hpage
  · obtain ⟨root1, heq1, hs1, hlook1⟩ :=
      createMapping_look (a := a) hs (by omega) (show ppn + k ≤ 2 ^ 44 by omega) hv hleaf
    have hframes2 : ppn + k + (n - k) ≤ 2 ^ 44 := by omega
    obtain ⟨root2, heq2, hhit, hkeep⟩ := createMapping_zero hs1 hlt hframes2 hv hleaf
    refine ⟨root2, ?_, fun j hj hlast => ?_, fun v hpage hmiss _ => ?_⟩
    · rw [createMapping_split root ppn perm hk (by omega) hge hshort, heq1, ok_bind, heq2]
    · rcases Nat.lt_or_ge j k with hfirst | hsecond
      · have hpage : a + j < 2 ^ 27 := by omega
        rw [Nat.mod_eq_of_lt hpage, hkeep _ hpage (by omega),
          (hlook1 _ hpage).1 ⟨Nat.le_add_right _ _, by omega⟩, Nat.add_sub_cancel_left]
      · have hmod : (a + j) % 2 ^ 27 = (j - k) % 2 ^ 27 := by omega
        have hsum : ppn + k + (j - k) = ppn + j := by omega
        rw [hmod, hhit (j - k) (by omega) (by omega), hsum]
    · -- no page of either part falls on `v`
      unfold IsPage at hpage
      have hbefore : v < a := by
        by_contra hafter
        exact hmiss (v - a) (by omega) (by omega)
      have hbehind : n - k ≤ v := by
        by_contra hin
        exact hmiss (v + k) (by omega) (by omega)
      rw [hkeep v hpage hbehind]
      exact (hlook1 v hpage).2 (fun hin => by have := hin.1; omega)
        fun y _ hstr => by have := hstr.2; omega

end Window

end Split

/-! ## `map` -/

namespace VMAR

/-- `map` returns, every page of the mapping goes to the frame of its page of the VMO, and every
other page is translated as before. -/
def MapsInside (s : VMAR) (m : PageMapping) : Prop :=
  ∃ s', s.map m = .ok s' ∧
    (∀ v, InRange m.vpn m.len v → look s'.pagetable v = some (m.frameOf v, m.perm)) ∧
    ∀ v, IsPage v → ¬InRange m.vpn m.len v → look s'.pagetable v = look s.pagetable v

/-- A contiguous VMO can be written from its first page to its last, and where it has pages outside
of the mapping, these are translated to its frames already. -/
def ShowsRest (s : VMAR) (m : PageMapping) : Prop :=
  match m.vmo with
  | .paged _ _ _ _ => True
  | .contiguous ppn pages _ => m.len = 0 ∨ ¬Overruns (windowStart m) pages ∧
    ∀ j < pages, pages ≤ j + 2 ^ 27 → InRange m.offset m.len j ∨
      look s.pagetable ((windowStart m + j) % 2 ^ 27) = some (ppn + j, m.perm)

section

variable {s : VMAR} {m : PageMapping}

theorem mapsInside_empty (hlen : m.len = 0) : s.MapsInside m := by
  refine ⟨_, map_empty hlen s, fun v hin => ?_, fun v _ _ => rfl⟩
  rw [hlen] at hin
  exact absurd hin.2 (Nat.not_lt.2 hin.1)

theorem mapsInside_paged (hs : Sound s.pagetable) (hpaged : m.vmo.IsPaged)
    (hwithin : m.offset + m.len ≤ m.vmo.len) (hfit : m.vpn + m.len ≤ 2 ^ 27)
    (hv : m.perm.v = true) (hleaf : m.perm.isLeaf = true) (hpos : 0 < m.len)
    (hfree : ∀ v, InRange m.vpn m.len v → look s.pagetable v = none) : s.MapsInside m := by
  have hspan := PageMapping.span_of_isPaged hpaged
  have hplain : m.Plain := ⟨hspan ▸ hfit, hwithin, hv.trans hleaf.symm, fun h => absurd hpaged h⟩
  obtain ⟨s', hmap, -, -, hw⟩ := map_total hplain hs
  rw [hspan, Perm.grant_of_leaf hv hleaf] at hw
  refine ⟨s', hmap, fun v hin => ?_, fun v hpage hout => ?_⟩
  · exact (look_of_writes hw (hin.2.trans_le hfit)).1 hin
  · exact (look_of_writes hw hpage).2 hout fun y hy => avoids_of_untranslated hpos hfree hy

section Contiguous

variable {ppn pages : Nat} {hp : ppn + pages ≤ 2 ^ 44}
  (hvmo : m.vmo = .contiguous ppn pages hp) (hwithin : m.offset + m.len ≤ pages)
  (hfit : m.vpn + m.len ≤ 2 ^ 27)

include hfit in
theorem windowStart_add {j v : Nat} (hj : InRange m.offset m.len j) :
    (windowStart m + j) % 2 ^ 27 = v ↔ v = m.vpn + (j - m.offset) := by
  obtain ⟨h1, h2⟩ := hj
  unfold windowStart xlen
  omega

theorem last_on_page {a n j : Nat} (hj : j < n) :
    ∃ j' < n, n ≤ j' + 2 ^ 27 ∧ (a + j') % 2 ^ 27 = (a + j) % 2 ^ 27 :=
  ⟨n - 1 - (n - 1 - j) % 2 ^ 27, by omega, by omega, by omega⟩

include hvmo in
theorem frameOf_contiguous (v : Nat) : m.frameOf v = ppn + (m.offset + (v - m.vpn)) := by
  unfold PageMapping.frameOf
  rw [hvmo]
  rfl

include hvmo hwithin hfit in
theorem mapsInside_of_rest (hs : Sound s.pagetable) (hv : m.perm.v = true)
    (hleaf : m.perm.isLeaf = true) (hpos : 0 < m.len)
    (hfree : ∀ v, InRange m.vpn m.len v → look s.pagetable v = none)
    (hover : ¬Overruns (windowStart m) pages)
    (hrest : ∀ j < pages, pages ≤ j + 2 ^ 27 → InRange m.offset m.len j ∨
      look s.pagetable ((windowStart m + j) % 2 ^ 27) = some (ppn + j, m.perm)) :
    s.MapsInside m := by
  have hstart : windowStart m < 2 ^ 27 := Nat.mod_lt _ (by omega)
  obtain ⟨root, heq, hhit, hmiss⟩ := createMapping_window hs hstart hover hp hv hleaf
  refine ⟨⟨s.mappings.insert m, root⟩, ?_, fun v hin => ?_, fun v hpage hout => ?_⟩
  · rw [map_contiguous hvmo hwithin hpos, heq]
    rfl
  · -- the last page of the VMO that falls on `v` is the one that the mapping shows there
    have hshown : InRange m.offset m.len (m.offset + (v - m.vpn)) := by
      obtain ⟨h1, h2⟩ := hin
      exact ⟨by omega, by omega⟩
    have hv : (windowStart m + (m.offset + (v - m.vpn))) % 2 ^ 27 = v := by
      have := hin.1
      rw [windowStart_add hfit hshown]
      omega
    have hlt := hshown.2
    obtain ⟨j, hj, hlast, hfall⟩ := last_on_page (a := windowStart m) (n := pages)
      (j := m.offset + (v - m.vpn)) (by omega)
    rw [hv] at hfall
    rcases hrest j hj hlast with hin' | hlook
    · have hj := (windowStart_add hfit hin').1 hfall
      rw [← hfall, hhit j (by assumption) hlast, hfall, frameOf_contiguous hvmo]
      congr 2
      omega
    · rw [hfall, hfree v hin] at hlook
      cases hlook
  · by_cases hfalls : ∃ j < pages, (windowStart m + j) % 2 ^ 27 = v
    · obtain ⟨i, hi, hv⟩ := hfalls
      obtain ⟨j, hj, hlast, hfall⟩ := last_on_page (a := windowStart m) hi
      rw [hv] at hfall
      rcases hrest j hj hlast with hin | hlook
      · have hveq := (windowStart_add hfit hin).1 hfall
        obtain ⟨h1, h2⟩ := hin
        exact absurd ⟨by omega, by omega⟩ hout
      · rw [hfall] at hlook
        rw [hlook, ← hfall, hhit j hj hlast]
    · refine hmiss v hpage (fun j hj hv => hfalls ⟨j, hj, hv⟩) fun y hy hstr => ?_
      -- a superpage that reaches over the window would translate the mapping's first page
      obtain ⟨hbase, hbehind⟩ := hstr
      have hfirst := (windowStart_add hfit (m := m) (j := m.offset) (v := m.vpn)
        ⟨le_rfl, by omega⟩).2 (by omega)
      unfold IsPage at hpage
      have hcovers : y.Covers v m.vpn := by
        have hmod := Nat.mod_lt v (Entry.leafAt_size_pos _ hy)
        unfold Leaf.base at hbase
        unfold Leaf.Covers Leaf.base
        omega
      have hnone := look_eq_none.1 (hfree m.vpn ⟨le_rfl, by omega⟩)
      rw [leafAt_of_covers hy hcovers] at hnone
      cases hnone

include hvmo hwithin in
theorem rest_of_mapsInside (hs : Sound s.pagetable) (hv : m.perm.v = true)
    (hleaf : m.perm.isLeaf = true) (hpos : 0 < m.len) (h : s.MapsInside m) :
    ¬Overruns (windowStart m) pages ∧
      ∀ j < pages, pages ≤ j + 2 ^ 27 → InRange m.offset m.len j ∨
        look s.pagetable ((windowStart m + j) % 2 ^ 27) = some (ppn + j, m.perm) := by
  obtain ⟨s', hmap, hinside, houtside⟩ := h
  have hstart : windowStart m < 2 ^ 27 := Nat.mod_lt _ (by omega)
  rw [map_contiguous hvmo hwithin hpos] at hmap
  cases hcreate : createMapping 2 s.pagetable (windowStart m) ppn pages m.perm with
  | error e =>
    rw [hcreate] at hmap
    cases hmap
  | ok root =>
    rw [hcreate] at hmap
    cases hmap
    have hover := not_overruns_of_ok hcreate
    obtain ⟨root', heq, hhit, -⟩ := createMapping_window hs hstart hover hp hv hleaf
    rw [hcreate] at heq
    cases heq
    refine ⟨hover, fun j hj hlast => ?_⟩
    have hlook := hhit j hj hlast
    generalize hpage : (windowStart m + j) % 2 ^ 27 = v at hlook ⊢
    by_cases hin : InRange m.vpn m.len v
    · left
      rw [show look root v = _ from hinside v hin, frameOf_contiguous hvmo] at hlook
      have hframe : ppn + (m.offset + (v - m.vpn)) = ppn + j :=
        congrArg Prod.fst (Option.some.inj hlook)
      obtain ⟨h1, h2⟩ := hin
      exact ⟨by omega, by omega⟩
    · right
      have hv : IsPage v := by
        rw [← hpage]
        exact Nat.mod_lt _ (by omega)
      rw [← houtside v hv hin]
      exact hlook

end Contiguous

/-- **`map` stays inside its mapping** if and only if the VMO is paged, or it is contiguous and what
it has outside of the mapping is there already. -/
theorem map_inside_iff (hs : Sound s.pagetable) (hwithin : m.offset + m.len ≤ m.vmo.len)
    (hfit : m.vpn + m.len ≤ 2 ^ 27) (hv : m.perm.v = true) (hleaf : m.perm.isLeaf = true)
    (hfree : ∀ v, InRange m.vpn m.len v → look s.pagetable v = none) :
    s.MapsInside m ↔ s.ShowsRest m := by
  unfold ShowsRest
  rcases Nat.eq_zero_or_pos m.len with hlen | hpos
  · refine ⟨fun _ => ?_, fun _ => mapsInside_empty hlen⟩
    split
    · trivial
    · exact .inl hlen
  · cases hvmo : m.vmo with
    | paged len frame hl hf =>
      refine ⟨fun _ => trivial, fun _ => mapsInside_paged hs ?_ hwithin hfit hv hleaf hpos hfree⟩
      rw [hvmo]
      exact trivial
    | contiguous ppn pages hp =>
      rw [hvmo] at hwithin
      constructor
      · exact fun h => .inr (rest_of_mapsInside hvmo hwithin hs hv hleaf hpos h)
      · intro h
        obtain ⟨hover, hrest⟩ := h.resolve_left (Nat.pos_iff_ne_zero.1 hpos)
        exact mapsInside_of_rest hvmo hwithin hfit hs hv hleaf hpos hfree hover hrest

theorem showsRest_whole (hoff : m.offset = 0) (hlen : m.len = m.vmo.len)
    (hfit : m.vpn + m.len ≤ 2 ^ 27) : s.ShowsRest m := by
  unfold ShowsRest
  cases hvmo : m.vmo with
  | paged len frame hl hf => trivial
  | contiguous ppn pages hp =>
    rw [hvmo] at hlen
    rcases Nat.eq_zero_or_pos m.len with hzero | hpos
    · exact .inl hzero
    refine .inr ⟨?_, fun j hj _ => .inl ?_⟩
    · change m.len = pages at hlen
      have hstart : windowStart m = m.vpn := by
        unfold windowStart xlen
        omega
      have hbig : bigPageSize 2 = 2 ^ 18 := rfl
      unfold Overruns unalignedPart index
      dsimp only
      rw [hbig]
      split <;> omega
    · rw [hoff, hlen]
      exact ⟨Nat.zero_le j, by rw [Nat.zero_add]; exact hj⟩

end

def ofTwo (vpn offset len : Nat) : PageMapping :=
  ⟨vpn, len, offset, .contiguous 100 2 (by decide), { v := true, r := true }, .file, 0⟩

theorem empty_untranslated (v : Nat) : look VMAR.empty.pagetable v = none :=
  look_eq_none.2 (leafAt_createPTNode v)

/-- The VMO is mapped whole. -/
theorem map_inside_whole : VMAR.empty.MapsInside (ofTwo 5 0 2) :=
  (map_inside_iff createPTNode_sound (by decide) (by decide) rfl rfl
    fun v _ => empty_untranslated v).2 (showsRest_whole rfl rfl (by decide))

/-- **The page before the mapping is written too**: the mapping shows the second page of the VMO at
page 5, and its first page appears at page 4. -/
theorem not_map_inside_slice : (ofTwo 5 1 1).offset + (ofTwo 5 1 1).len ≤ (ofTwo 5 1 1).vmo.len ∧
      ¬VMAR.empty.MapsInside (ofTwo 5 1 1) := by
  refine ⟨by decide, fun h => ?_⟩
  obtain ⟨-, hrest⟩ := rest_of_mapsInside (m := ofTwo 5 1 1) rfl (by decide) createPTNode_sound rfl
    rfl (by decide) h
  rcases hrest 0 (by decide) (by decide) with hin | hlook
  · exact absurd hin (by decide)
  · rw [empty_untranslated] at hlook
    cases hlook

end VMAR

end LuoOS.Vm
