import LuoOS.Vm.PageTable
import Mathlib.Data.Nat.ModEq

/-!
# What the page table operations do to the translation

`createMapping` writes the range it is given and `removeMapping` clears it, in the sense of
`Translation`. At each level a range is an unaligned start inside one entry, whole entries, and a
rest inside one entry, and the three effects compose. A node of level `l` translates an aligned
block of `bigPageSize (l + 1)` pages, so a call with the page `vpn` is described on the domain
`Block (l + 1) vpn`.
-/

namespace LuoOS.Vm

open Translation Function

/-! ## Blocks -/

def Block (level a v : Nat) : Prop := v / bigPageSize level = a / bigPageSize level
  deriving Decidable

theorem bigPageSize_pos (level : Nat) : 0 < bigPageSize level := Nat.two_pow_pos _

theorem bigPageSize_succ (level : Nat) : bigPageSize (level + 1) = bigPageSize level * 512 := by
  unfold bigPageSize
  rw [Nat.mul_add, Nat.pow_add]

section

variable {l level a n v : Nat}

theorem bigPageSize_dvd (h : l ≤ level) : bigPageSize l ∣ bigPageSize level :=
  Nat.pow_dvd_pow 2 (Nat.mul_le_mul_left 9 h)

theorem mod_bigPageSize_eq_zero (h : l ≤ level)
    (hv : v % bigPageSize level = 0) : v % bigPageSize l = 0 := by
  rw [← Nat.mod_mod_of_dvd v (bigPageSize_dvd h), hv, Nat.zero_mod]

theorem div_bigPageSize_succ (level v : Nat) :
    v / bigPageSize (level + 1) = v / bigPageSize level / 512 := by
  rw [bigPageSize_succ, Nat.div_div_eq_div_mul]

theorem index_eq_iff (h : Block (level + 1) a v) :
    index level v = index level a ↔ Block level a v := by
  unfold Block at h ⊢
  rw [div_bigPageSize_succ, div_bigPageSize_succ] at h
  simp only [index, Fin.mk.injEq]
  omega

theorem Block.succ (h : Block level a v) : Block (level + 1) a v := by
  unfold Block at h ⊢
  rw [div_bigPageSize_succ, div_bigPageSize_succ, h]

theorem index_of_block (h : Block level a v) : index level v = index level a :=
  (index_eq_iff h.succ).2 h

theorem div_eq_of_between {s q b : Nat} (h1 : s * q ≤ b) (h2 : b < s * q + s) : b / s = q := by
  refine Nat.div_eq_of_lt_le ?_ ?_ <;> rw [Nat.mul_comm]
  · exact h1
  · exact h2

theorem block_of_inRange (hfit : a % bigPageSize level + n ≤ bigPageSize level)
    (hv : InRange a n v) : Block level a v := by
  obtain ⟨h1, h2⟩ := hv
  have ha := Nat.div_add_mod a (bigPageSize level)
  exact div_eq_of_between (by omega) (by omega)

theorem mod_eq_sub (h : Block level a v) (ha : a % bigPageSize level = 0) :
    a ≤ v ∧ v % bigPageSize level = v - a := by
  have h1 := Nat.div_add_mod v (bigPageSize level)
  have h2 := Nat.div_add_mod a (bigPageSize level)
  rw [h] at h1
  omega

theorem inRange_of_block (ha : a % bigPageSize level = 0)
    (h : Block level a v) : InRange a (bigPageSize level) v := by
  obtain ⟨h1, h2⟩ := mod_eq_sub h ha
  have h3 := Nat.mod_lt v (bigPageSize_pos level)
  exact ⟨h1, by omega⟩

end

theorem block_base (level a : Nat) : Block level a (a - a % bigPageSize level) ∧
      (a - a % bigPageSize level) % bigPageSize level = 0 := by
  have hsub : a - a % bigPageSize level = bigPageSize level * (a / bigPageSize level) := by
    have h := Nat.div_add_mod a (bigPageSize level)
    omega
  rw [hsub]
  exact ⟨Nat.mul_div_cancel_left _ (bigPageSize_pos level), Nat.mul_mod_right _ _⟩

theorem advance {s a k m : Nat} (hfit : a % s + (k + m) ≤ s) (hm : 0 < m) :
    (a + k) / s = a / s ∧ (a + k) % s + m ≤ s := by
  have h1 := Nat.div_add_mod a s
  have h2 : (a + k) / s = a / s := div_eq_of_between (by omega) (by omega)
  have h3 := Nat.div_add_mod (a + k) s
  rw [h2] at h3
  exact ⟨h2, by omega⟩

/-! ## Bits of the entries -/

def Perm.Ok (p : Perm) : Prop := p.v = p.isLeaf
  deriving Decidable

def Perm.grant (p : Perm) : Option Perm := if p.v && p.isLeaf then some p else none

/-! ## A property of all entries -/

def Entry.Each (P : Perm → Prop) : {level : Nat} → Entry level → Prop
  | _, page perm _ => P perm
  | _ + 1, table _ _ sub => ∀ i, (sub i).Each P

def Each (P : Perm → Prop) {level : Nat} (table : Table level) : Prop := ∀ i, (table i).Each P

variable {perm : Perm} {ppn : Nat}

section

variable {P : Perm → Prop} {level : Nat}

theorem Entry.each_page : (page perm ppn : Entry level).Each P ↔ P perm :=
  Iff.rfl

theorem Entry.each_table {node : perm.isNode = true} {sub : Table level} :
    (table perm node sub).Each P ↔ Vm.Each P sub :=
  Iff.rfl

theorem createPTNode_each (h0 : P {}) : Each P (createPTNode : Table level) := fun _ => h0

theorem Each.update {table : Table level} {entry : Entry level} (h : Each P table)
    (he : entry.Each P) (i : Fin 512) : Each P (update table i entry) := by
  intro j
  by_cases hj : j = i
  · subst hj
    rw [update_self]
    exact he
  · rw [update_of_ne hj]
    exact h j

end

/-! ## Tables whose leaves fit in the physical memory -/

def Entry.Sound : {level : Nat} → Entry level → Prop
  | level, page perm ppn => perm.Ok ∧ (perm.v = true → ppn + bigPageSize level ≤ 2 ^ 44)
  | _ + 1, table _ _ sub => ∀ i, (sub i).Sound

def Sound {level : Nat} (table : Table level) : Prop := ∀ i, (table i).Sound

variable {level i v pages vpn B : Nat}

theorem sound_update {table : Table level} {entry : Entry level} {i : Fin 512}
    (ht : Sound table) (he : entry.Sound) : Sound (update table i entry) := by
  intro j
  rw [update_apply]
  split
  · exact he
  · exact ht j

theorem invalid_sound : (Entry.page {} ppn : Entry level).Sound :=
  ⟨rfl, fun h => nomatch h⟩

theorem createPTNode_sound : Sound (createPTNode : Table level) :=
  fun _ => invalid_sound

theorem Entry.Sound.frame_lt {y : Leaf Perm} (entry : Entry level)
    (hs : entry.Sound) (hy : entry.leafAt v = some y) : y.frame v < 2 ^ 44 := by
  induction entry with
  | @page level perm ppn =>
    unfold Entry.leafAt at hy
    split at hy
    · rename_i hleaf
      cases hy
      have hfit := hs.2 (Bool.and_eq_true_iff.1 hleaf).1
      have hlt := Nat.mod_lt v (bigPageSize_pos level)
      unfold Leaf.frame
      dsimp only
      omega
    · cases hy
  | table perm node sub ih => exact ih _ (hs _) hy

theorem leafAt_createPTNode (v : Nat) : leafAt (createPTNode : Table level) v = none := by
  rfl

section

variable {level a n v : Nat} {table : Table level} {entry : Entry level} {x : Leaf Perm}

theorem leafAt_of_free (h : freePTNode table = true) (v : Nat) : leafAt table v = none := by
  have hi : (table (index level v)).isValid = false := by
    have := List.all_eq_true.1 h (index level v) (List.mem_finRange _)
    simpa using this
  unfold leafAt
  cases he : table (index level v) with
  | page perm ppn =>
    rw [he] at hi
    have hv : perm.v = false := hi
    simp only [Entry.leafAt, hv, Bool.false_and, Bool.false_eq_true, if_false]
  | table perm node sub =>
    rw [he] at hi
    have hv : perm.v = false := hi
    simp only [Perm.isNode, hv, Bool.false_and, Bool.false_eq_true] at node

/-! ## One entry -/

section

variable (hD : Block (level + 1) a v)
include hD

theorem leafAt_update_of_block (h : Block level a v) :
    leafAt (update table (index level a) entry) v = entry.leafAt v := by
  unfold leafAt
  rw [(index_eq_iff hD).2 h, update_self]

theorem leafAt_update_of_not (h : ¬Block level a v) :
    leafAt (update table (index level a) entry) v = leafAt table v := by
  unfold leafAt
  rw [update_of_ne]
  exact fun heq => h ((index_eq_iff hD).1 heq)

theorem leafAt_of_block
    (h : Block level a v) : leafAt table v = (table (index level a)).leafAt v := by
  unfold leafAt
  rw [(index_eq_iff hD).2 h]

end

theorem Entry.leafAt_size (entry : Entry level)
    (h : entry.leafAt v = some x) : ∃ l ≤ level, x.size = bigPageSize l := by
  induction entry with
  | @page level perm ppn =>
    unfold Entry.leafAt at h
    split at h
    · cases h
      exact ⟨level, le_rfl, rfl⟩
    · cases h
  | table perm node sub ih =>
    obtain ⟨l, hl, hsize⟩ := ih _ h
    exact ⟨l, Nat.le_succ_of_le hl, hsize⟩

theorem Entry.leafAt_size_pos (entry : Entry level) (h : entry.leafAt v = some x) : 0 < x.size := by
  obtain ⟨l, -, hsize⟩ := entry.leafAt_size h
  rw [hsize]
  exact bigPageSize_pos l

theorem leafAt_base (h : leafAt table v = some x) : v - v % bigPageSize level ≤ x.base v := by
  obtain ⟨l, hl, hsize⟩ := Entry.leafAt_size _ h
  have hmod : v % bigPageSize l ≤ v % bigPageSize level := by
    rw [← Nat.mod_mod_of_dvd v (bigPageSize_dvd hl)]
    exact Nat.mod_le _ _
  unfold Leaf.base
  rw [hsize]
  omega

section

variable (hfit : a % bigPageSize level + n ≤ bigPageSize level)
include hfit

theorem puts_update {g : Option Perm}
    (h : Puts (2 ^ 44) (Block level a) (table (index level a)).leafAt entry.leafAt a n ppn g) :
    Puts (2 ^ 44) (Block (level + 1) a) (leafAt table)
      (leafAt (update table (index level a) entry)) a n ppn g := by
  have hpart : Puts (2 ^ 44) (fun v => Block (level + 1) a v ∧ Block level a v) (leafAt table)
      (leafAt (update table (index level a) entry)) a n ppn g :=
    h.restrict (fun v hv => hv.2) (fun v hv => leafAt_of_block hv.1 hv.2)
      (fun v hv => leafAt_update_of_block hv.1 hv.2)
  apply hpart.extend
  intro v hD hD'
  have hblk : ¬Block level a v := fun h => hD' ⟨hD, h⟩
  refine ⟨fun hv => hblk (block_of_inRange hfit hv), leafAt_update_of_not hD hblk, fun x hx => ?_⟩
  have hbase := leafAt_base hx
  have hv := Nat.div_add_mod v (bigPageSize level)
  have ha := Nat.div_add_mod a (bigPageSize level)
  rcases Nat.lt_or_ge v a with hlt | hge
  · exact .inl hlt
  have hnext : a / bigPageSize level + 1 ≤ v / bigPageSize level :=
    Nat.lt_of_le_of_ne (Nat.div_le_div_right hge) (Ne.symm hblk)
  have hmul := Nat.mul_le_mul_left (bigPageSize level) hnext
  rw [Nat.mul_add, Nat.mul_one] at hmul
  exact .inr (by omega)

theorem clears_update (h : Clears (Block level a) (table (index level a)).leafAt entry.leafAt a n) :
    Clears (Block (level + 1) a) (leafAt table)
      (leafAt (update table (index level a) entry)) a n := by
  have hpart : Clears (fun v => Block (level + 1) a v ∧ Block level a v) (leafAt table)
      (leafAt (update table (index level a) entry)) a n :=
    h.restrict (fun v hv => hv.2) (fun v hv => leafAt_of_block hv.1 hv.2)
      (fun v hv => leafAt_update_of_block hv.1 hv.2)
  apply hpart.extend
  intro v hD hD'
  have hblk : ¬Block level a v := fun h => hD' ⟨hD, h⟩
  exact ⟨fun hv => hblk (block_of_inRange hfit hv), leafAt_update_of_not hD hblk⟩

end

/-! ## Whole entries -/

end

theorem page_puts (L : Nat → Option (Leaf Perm)) {a : Nat} (ppn : Nat) (perm : Perm)
    (ha : a % bigPageSize level = 0) :
    Puts (2 ^ 44) (Block level a) L (Entry.page perm (ppn % 2 ^ 44) : Entry level).leafAt a
      (bigPageSize level) ppn perm.grant := by
  have hin : ∀ v, Block level a v → InRange a (bigPageSize level) v := fun v hD =>
    inRange_of_block ha hD
  refine ⟨?_, ?_, fun v hD hv => absurd (hin v hD) hv, fun v hD hv => absurd (hin v hD) hv,
    fun v hD hv => absurd (hin v hD) hv⟩
  · intro v hD _ p hp
    obtain ⟨h1, h2⟩ := mod_eq_sub hD ha
    unfold Perm.grant at hp
    split at hp
    · rename_i hleaf
      cases hp
      refine ⟨⟨bigPageSize level, ppn % 2 ^ 44, perm⟩, if_pos hleaf, rfl, ?_, fun hB => ?_⟩
      · unfold Leaf.Inside Leaf.base
        dsimp only
        omega
      · unfold Leaf.frame
        rw [h2, Nat.mod_eq_of_lt (by omega : ppn < 2 ^ 44)]
    · cases hp
  · intro v _ _ hg
    unfold Perm.grant at hg
    split at hg
    · cases hg
    · rename_i hleaf
      exact if_neg hleaf

theorem entry_start (level b : Nat) (hi : i < 512) :
    index level ((512 * b + i) * bigPageSize level) = ⟨i, hi⟩ ∧
      (512 * b + i) * bigPageSize level / bigPageSize (level + 1) = b ∧
      (512 * b + i) * bigPageSize level % bigPageSize level = 0 := by
  have hpos := bigPageSize_pos level
  refine ⟨?_, ?_, Nat.mul_mod_left _ _⟩
  · simp only [index, Fin.mk.injEq, Nat.mul_div_cancel _ hpos]
    omega
  · rw [div_bigPageSize_succ, Nat.mul_div_cancel _ hpos]
    omega

/-- The result is a node of the block `B` in which the range is put. It is sound if the node was and
the new frames are in range. -/
def Placed (level B : Nat) (table : Table level) (vpn ppn pages : Nat) (perm : Perm)
    (r : Kern (Table level)) : Prop :=
  ∃ table', r = .ok table' ∧ Each Perm.Ok table' ∧
    (Sound table → ppn + pages ≤ 2 ^ 44 → Sound table') ∧
    Puts (2 ^ 44) (fun v => v / bigPageSize (level + 1) = B) (leafAt table) (leafAt table') vpn
      pages ppn perm.grant

def ClearAt (level B : Nat) (table : Table level) (a : Nat) : Prop :=
  ∀ v, v / bigPageSize (level + 1) = B → ∀ x, leafAt table v = some x → v < a ∨ a ≤ x.base v

theorem clearAt_of_aligned {a : Nat} (table : Table level)
    (h : a % bigPageSize level = 0) : ClearAt level B table a := by
  intro v _ x hx
  rcases Nat.lt_or_ge v a with hlt | hge
  · exact .inl hlt
  refine .inr (Nat.le_trans ?_ (leafAt_base hx))
  have h1 := Nat.div_add_mod v (bigPageSize level)
  have h2 := Nat.div_add_mod a (bigPageSize level)
  have h3 := Nat.mul_le_mul_left (bigPageSize level)
    (Nat.div_le_div_right hge : a / bigPageSize level ≤ v / bigPageSize level)
  omega

section

variable {level B b vpn ppn n cond : Nat} {table : Table level} {perm : Perm}
  {step : Table level → Kern (Table level)}

theorem Placed.refl (ht : Each Perm.Ok table) (hclear : ClearAt level B table vpn) :
    Placed level B table vpn ppn 0 perm (.ok table) :=
  ⟨table, rfl, ht, fun hs _ => hs, Puts.refl hclear⟩

/-- Two calls on adjacent ranges are one call. -/
theorem Placed.trans {m : Nat} {r : Kern (Table level)} (h : Placed level B table vpn ppn n perm r)
    (h' : ∀ t, Each Perm.Ok t → ClearAt level B t (vpn + n) →
      Placed level B t (vpn + n) (ppn + n) m perm (step t)) :
    Placed level B table vpn ppn (n + m) perm (r >>= step) := by
  obtain ⟨t1, rfl, ht1, hs1, hp1⟩ := h
  obtain ⟨t2, heq, ht2, hs2, hp2⟩ := h' t1 ht1 hp1.clear
  exact ⟨t2, heq, ht2, fun hs hB => hs2 (hs1 hs (by omega)) (by omega), hp1.trans hp2⟩

theorem when_placed (ht : Each Perm.Ok table) (hzero : cond = 0 → n = 0 ∧ ClearAt level B table b)
    (h : cond ≠ 0 → Placed level B table b ppn n perm (step table)) :
    Placed level B table b ppn n perm (when_ cond step table) := by
  unfold when_
  split
  · rename_i hcond
    obtain ⟨rfl, hclear⟩ := hzero hcond
    exact Placed.refl ht hclear
  · rename_i hcond
    exact h hcond

theorem page_placed (ht : Each Perm.Ok table) (hok : perm.Ok) (hi : i < 512) :
    Placed level b table ((512 * b + i) * bigPageSize level) ppn (bigPageSize level) perm
      (.ok (update table ⟨i, hi⟩ (.page perm (ppn % 2 ^ 44)))) := by
  obtain ⟨hidx, hblk, hal⟩ := entry_start level b hi
  have hone := puts_update (by omega) (page_puts
    (table (index level ((512 * b + i) * bigPageSize level))).leafAt ppn perm hal)
  unfold Block at hone
  rw [hidx, hblk] at hone
  refine ⟨_, rfl, ht.update (Entry.each_page.2 hok) _, fun hs hB => ?_, hone⟩
  refine sound_update hs ⟨hok, fun _ => ?_⟩
  omega

end

/-- **The loop over whole entries** fills as many blocks as it runs. -/
theorem mapWhole_spec (hok : perm.Ok) (b : Nat) :
    ∀ (n : Nat) (table : Table level) (i ppn : Nat), Each Perm.Ok table → i + n ≤ 512 →
    Placed level b table ((512 * b + i) * bigPageSize level) ppn (n * bigPageSize level) perm
      (mapWhole perm n table i ppn) := by
  intro n
  induction n with
  | zero =>
    intro table i ppn ht _
    rw [Nat.zero_mul]
    exact Placed.refl ht (clearAt_of_aligned table (Nat.mul_mod_left _ _))
  | succ n ih =>
    intro table i ppn ht hi
    have hi' : i < 512 := by omega
    have hlen : (n + 1) * bigPageSize level = bigPageSize level + n * bigPageSize level := by
      ring
    have hstart : (512 * b + (i + 1)) * bigPageSize level =
        (512 * b + i) * bigPageSize level + bigPageSize level := by
      ring
    rw [hlen]
    unfold mapWhole
    rw [dif_pos hi']
    have hrest : ∀ t, Each Perm.Ok t → Placed level b t
        ((512 * b + i) * bigPageSize level + bigPageSize level) (ppn + bigPageSize level)
        (n * bigPageSize level) perm (mapWhole perm n t (i + 1) (ppn + bigPageSize level)) := by
      intro t ht'
      rw [← hstart]
      exact ih t (i + 1) _ ht' (by omega)
    exact Placed.trans (page_placed ht hok hi') fun t ht' _ => hrest t ht'

/-! ## Mapping inside one entry -/

/-- The part `[c, c + k)` of a leaf that is pushed down when `[a, a + n)` is mapped inside it: what
is before the range, and only where nothing is before it what is behind it. -/
inductive Push (level a n : Nat) : (c k : Nat) → Prop
  | before (h : a % bigPageSize level ≠ 0) :
      Push level a n (a - a % bigPageSize level) (a % bigPageSize level)
  | behind (h : a % bigPageSize level = 0) (hpos : 0 < n) (hlt : n < bigPageSize level) :
      Push level a n (a + n) (bigPageSize level - n)

namespace Push

variable {level a n c k : Nat} (h : Push level a n c k)

include h

theorem block : Block level a c := by
  cases h with
  | before h => exact (block_base level a).1
  | behind h hpos hlt => exact (advance (k := n) (m := 1) (by omega) Nat.one_pos).1

theorem fit : c % bigPageSize level + k ≤ bigPageSize level := by
  cases h with
  | before h =>
    have := Nat.mod_lt a (bigPageSize_pos level)
    rw [(block_base level a).2]
    omega
  | behind h hpos hlt =>
    rw [Nat.add_mod, h, Nat.zero_add, Nat.mod_mod, Nat.mod_eq_of_lt hlt]
    omega

/-- The range cuts the block. -/
theorem cuts : 0 < a % bigPageSize level + n := by
  cases h <;> omega

theorem inRange (hv : Block level a v) (hout : ¬InRange a n v)
    (hs : ¬(a - a % bigPageSize level < a ∧ a + n ≤ v)) : InRange c k v := by
  have h1 := Nat.div_add_mod v (bigPageSize level)
  have h2 := Nat.div_add_mod a (bigPageSize level)
  have h3 := Nat.mod_lt v (bigPageSize_pos level)
  rw [hv] at h1
  unfold InRange at hout ⊢
  cases h <;> omega

theorem side : c + k ≤ a ∧ a % bigPageSize level ≠ 0 ∨ a + n ≤ c ∧ a % bigPageSize level = 0 := by
  have := Nat.mod_le a (bigPageSize level)
  cases h with
  | before h => exact .inl ⟨by omega, h⟩
  | behind h hpos hlt => exact .inr ⟨le_rfl, h⟩

end Push

def PlaceSpec (level : Nat) : Prop :=
  ∀ (table : Table level) (vpn ppn pages : Nat) (perm : Perm), Each Perm.Ok table → perm.Ok →
    vpn % bigPageSize (level + 1) + pages ≤ bigPageSize (level + 1) →
    Placed level (vpn / bigPageSize (level + 1)) table vpn ppn pages perm
      (createMapping level table vpn ppn pages perm)

section Inside

variable {level a n c k off : Nat}

/-- What pushing a leaf down leaves in the new node. -/
theorem pushdown_readies {q : Nat} {K : Nat → Option (Leaf Perm)}
    (hpush : Push (level + 1) a n c k) (hleaf : (perm.v && perm.isLeaf) = true)
    (h : Puts (2 ^ 44) (Block (level + 1) c) (fun _ => none) K c k
      (q + c % bigPageSize (level + 1)) perm.grant) :
    Readies (2 ^ 44) (Block (level + 1) a) (Entry.page perm q : Entry (level + 1)).leafAt K a n := by
  have hfit := hpush.fit
  have hgrant : perm.grant = some perm := if_pos hleaf
  have hentry : ∀ v, (Entry.page perm q : Entry (level + 1)).leafAt v =
      some ⟨bigPageSize (level + 1), q, perm⟩ := fun v => if_pos hleaf
  have hD : ∀ {v}, Block (level + 1) a v → Block (level + 1) c v := fun hv =>
    hv.trans hpush.block.symm
  have hbase : ∀ {v}, Block (level + 1) a v →
      (⟨bigPageSize (level + 1), q, perm⟩ : Leaf Perm).base v =
        a - a % bigPageSize (level + 1) := by
    intro v hv
    have h1 := Nat.div_add_mod v (bigPageSize (level + 1))
    have h2 := Nat.div_add_mod a (bigPageSize (level + 1))
    rw [hv] at h1
    simp only [Leaf.base]
    omega
  refine ⟨?_, ?_, ?_⟩
  · intro v hv x hx
    by_cases hr : InRange c k v
    · obtain ⟨y, hy, hperm, hin, hframe⟩ := h.grants v (hD hv) hr perm hgrant
      rw [hx] at hy
      cases hy
      have h1 := Nat.div_add_mod v (bigPageSize (level + 1))
      have h2 := Nat.div_add_mod c (bigPageSize (level + 1))
      rw [hD hv] at h1
      obtain ⟨hin1, hin2⟩ := hin
      refine ⟨_, hentry v, ⟨hperm, ⟨?_, ?_⟩, fun hB => ?_⟩, fun hs => absurd hs ?_⟩
      · simp only [Leaf.base] at *
        omega
      · simp only [Leaf.base] at *
        omega
      · have hsame : q + c % bigPageSize (level + 1) + (v - c) =
            (⟨bigPageSize (level + 1), q, perm⟩ : Leaf Perm).frame v := by
          have := hr.1
          unfold Leaf.frame
          dsimp only
          omega
        rw [hsame] at hframe
        exact hframe hB
      · unfold Leaf.Straddles
        rw [hbase hv]
        have hlt := hr.2
        rcases hpush.side with ⟨hside, -⟩ | ⟨hside, hal⟩
        · omega
        · omega
    · obtain ⟨-, y, hy, -⟩ := h.old v (hD hv) hr x hx
      cases hy
  · intro v hv hout y hy hs
    rw [hentry v] at hy
    cases hy
    unfold Leaf.Straddles at hs
    rw [hbase hv] at hs
    have hr := hpush.inRange hv hout hs
    obtain ⟨x, hx, -, hin, -⟩ := h.grants v (hD hv) hr perm hgrant
    refine ⟨x, hx, fun hx' => ?_⟩
    have hside := hpush.side
    obtain ⟨h1, h2⟩ := hin
    obtain ⟨h3, h4⟩ := hx'
    omega
  · -- the range cuts every leaf of this size in the block
    intro v hv y hy hav
    rw [hentry v] at hy
    cases hy
    have h1 := Nat.div_add_mod v (bigPageSize (level + 1))
    have h2 := Nat.div_add_mod a (bigPageSize (level + 1))
    have h3 := Nat.mod_lt a (bigPageSize_pos (level + 1))
    have hcuts := hpush.cuts
    rw [hv] at h1
    simp only [Leaf.Avoids, Leaf.base] at hav
    omega

/-- **The node a range is mapped in** holds the pieces of what the entry did, whatever it was. -/
theorem subTable_spec {entry : Entry (level + 1)} (ih : PlaceSpec level)
    (ht : entry.Each Perm.Ok) (hpush : Push (level + 1) a n c k)
    (hoff : c % bigPageSize (level + 1) = off) : ∃ perm sub, subTable entry (fun prevppn prevPerm =>
        createMapping level createPTNode c (prevppn + off) k prevPerm) = .ok (perm, sub) ∧
      Each Perm.Ok sub ∧ (entry.Sound → Sound sub) ∧
      Readies (2 ^ 44) (Block (level + 1) a) entry.leafAt (leafAt sub) a n := by
  subst hoff
  cases entry with
  | table perm node sub => exact ⟨⟨perm, node⟩, sub, rfl, ht, fun hs => hs, Readies.refl _ _ _ _ _⟩
  | page perm q =>
    have hok : perm.Ok := ht
    cases hv : perm.v with
    | true =>
      have hl : perm.isLeaf = true := hok.symm.trans hv
      have hleaf : (perm.v && perm.isLeaf) = true := by rw [hv, hl]; rfl
      obtain ⟨sub, hcreate, hsub, hsound, hput⟩ := ih createPTNode c
        (q + c % bigPageSize (level + 1)) k perm (createPTNode_each rfl) hok hpush.fit
      have hfit := hpush.fit
      refine ⟨⟨perm.setPTNode.setValid, perm.setPTNode_setValid_isNode⟩, sub, ?_, hsub, fun hs => ?_,
        pushdown_readies hpush hleaf ?_⟩
      · simp only [subTable, hv, hl, if_true, hcreate, ok_bind]
        rfl
      · have hq : q + bigPageSize (level + 1) ≤ 2 ^ 44 := hs.2 hv
        exact hsound createPTNode_sound (by omega)
      · exact hput.restrict (fun _ h => h) (fun v _ => (leafAt_createPTNode v).symm)
          fun _ _ => rfl
    | false =>
      have hl : perm.isLeaf = false := hok.symm.trans hv
      have hnode := Perm.setValid_isNode hl
      have hentry : ∀ v, (Entry.page perm q : Entry (level + 1)).leafAt v = none := fun v => by
        simp only [Entry.leafAt, hv, Bool.false_and, Bool.false_eq_true, if_false]
      refine ⟨⟨perm.setValid, hnode⟩, createPTNode, ?_, createPTNode_each rfl,
        fun _ => createPTNode_sound, ?_, ?_, ?_⟩
      · simp only [subTable, hv, hnode, Bool.false_eq_true, if_false, dite_true]
      · intro v _ x hx
        cases hx
      · intro v _ _ y hy
        rw [hentry] at hy
        cases hy
      · intro v _ y hy
        rw [hentry] at hy
        cases hy

/-- **Mapping inside one entry** does what the mapping in its node does. -/
theorem mapInto_placed {table : Table (level + 1)} (ih : PlaceSpec level) (ht : Each Perm.Ok table)
    (hok : perm.Ok) (hfit : a % bigPageSize (level + 1) + n ≤ bigPageSize (level + 1))
    (hpush : Push (level + 1) a n c k) (hoff : c % bigPageSize (level + 1) = off) :
    Placed (level + 1) (a / bigPageSize (level + 2)) table a ppn n perm (mapInto table a
        (fun prevppn prevPerm => createMapping level createPTNode c (prevppn + off) k prevPerm)
        (fun sub => createMapping level sub a ppn n perm)) := by
  obtain ⟨node, sub, hsub, hsubOk, hsubSound, hready⟩ :=
    subTable_spec ih (ht (index (level + 1) a)) hpush hoff
  obtain ⟨sub', hcreate, hsub', hsound', hput⟩ := ih sub a ppn n perm hsubOk hok hfit
  refine ⟨update table (index (level + 1) a) (.table node.1 node.2 sub'), ?_, ?_, ?_, ?_⟩
  · simp only [mapInto, hsub, ok_bind, hcreate]
    rfl
  · exact ht.update (Entry.each_table.2 hsub') _
  · exact fun hs hB => sound_update hs (hsound' (hsubSound (hs _)) hB)
  · exact puts_update hfit (hput.of_readies hready)

end Inside

/-! ## A whole range -/

theorem aligned_after {s a : Nat} (hs : 0 < s) (h : unalignedPart s a pages < pages) :
    (a + unalignedPart s a pages) % s = 0 := by
  unfold unalignedPart at h ⊢
  split
  · simpa using ‹a % s = 0›
  rename_i hne
  rw [if_neg hne] at h
  have hlt := Nat.mod_lt a hs
  have hmin : min (s - a % s) pages = s - a % s := by omega
  have hdm := Nat.div_add_mod a s
  have hsum : a + (s - a % s) = s * (a / s + 1) := by
    rw [Nat.mul_add]
    omega
  rw [hmin, hsum]
  exact Nat.mul_mod_right _ _

/-- How `[vpn, vpn + pages)` is cut at a level above 0: `part` pages in the first entry, `whole`
entries, and `rest` pages in the last entry. -/
structure Cut (level vpn pages part whole rest : Nat) : Prop where
  sum : part + (whole * bigPageSize level + rest) = pages
  part_zero : vpn % bigPageSize level = 0 → part = 0
  part_fit : vpn % bigPageSize level + part ≤ bigPageSize level
  aligned : 0 < whole ∨ 0 < rest → (vpn + part) % bigPageSize level = 0
  rest_lt : rest < bigPageSize level

theorem cut (level vpn pages : Nat) :
    Cut level vpn pages (unalignedPart (bigPageSize level) vpn pages)
      ((pages - unalignedPart (bigPageSize level) vpn pages) / bigPageSize level)
      (pages - unalignedPart (bigPageSize level) vpn pages -
        (pages - unalignedPart (bigPageSize level) vpn pages) / bigPageSize level *
          bigPageSize level) := by
  have hpos := bigPageSize_pos level
  have hle : unalignedPart (bigPageSize level) vpn pages ≤ pages := by
    unfold unalignedPart
    split <;> omega
  have hfit : vpn % bigPageSize level + unalignedPart (bigPageSize level) vpn pages ≤
      bigPageSize level := by
    have := Nat.mod_lt vpn hpos
    unfold unalignedPart
    split <;> omega
  have hal : unalignedPart (bigPageSize level) vpn pages < pages →
      (vpn + unalignedPart (bigPageSize level) vpn pages) % bigPageSize level = 0 :=
    aligned_after hpos
  generalize hpart : unalignedPart (bigPageSize level) vpn pages = part at *
  have hdm := Nat.div_add_mod (pages - part) (bigPageSize level)
  have hlt := Nat.mod_lt (pages - part) hpos
  rw [Nat.mul_comm] at hdm
  generalize hwhole : (pages - part) / bigPageSize level = whole at *
  refine ⟨by omega, fun h => hpart ▸ if_pos h, hfit, fun h => hal ?_, by omega⟩
  rcases h with h | h
  · have : bigPageSize level ≤ whole * bigPageSize level := Nat.le_mul_of_pos_left _ h
    omega
  · omega

/-- At level 0 every page is a whole entry. -/
theorem cut_zero (vpn pages : Nat) : Cut 0 vpn pages 0 pages 0 :=
  ⟨by simp [bigPageSize], fun _ => rfl, by simp [bigPageSize, Nat.mod_one], fun _ => Nat.mod_one _,
    Nat.one_pos⟩

section

variable {level vpn pages part whole rest : Nat}

section

variable (h : Cut level vpn pages part whole rest) (hfit : vpn % bigPageSize (level + 1) + pages ≤ bigPageSize (level + 1))
include h hfit

theorem Cut.whole_entries (hw : 0 < whole) :
    (512 * (vpn / bigPageSize (level + 1)) + index level (vpn + part)) * bigPageSize level =
        vpn + part ∧
      index level (vpn + part) + whole ≤ 512 := by
  have hpos := bigPageSize_pos level
  have hone : 0 < whole * bigPageSize level := Nat.mul_pos hw hpos
  have hal := h.aligned (.inl hw)
  obtain ⟨hB, hend⟩ := advance (a := vpn) (k := part) (m := whole * bigPageSize level)
    (Nat.le_trans (Nat.add_le_add_left (by have := h.sum; omega) _) hfit) hone
  have hdm := Nat.div_add_mod (vpn + part) (bigPageSize level)
  have hq := Nat.div_add_mod ((vpn + part) / bigPageSize level) 512
  have hmod : (vpn + part) % bigPageSize (level + 1) =
      bigPageSize level * (index level (vpn + part) : Nat) := by
    rw [bigPageSize_succ, Nat.mod_mul, hal, Nat.zero_add]
    rfl
  refine ⟨?_, ?_⟩
  · rw [← hB, div_bigPageSize_succ]
    simp only [index]
    rw [hq, Nat.mul_comm]
    omega
  · rw [hmod, bigPageSize_succ] at hend
    refine Nat.le_of_mul_le_mul_left ?_ hpos
    rw [Nat.mul_add, Nat.mul_comm _ whole]
    exact hend

theorem Cut.rest_start (hr : 0 < rest) :
    (vpn + part + whole * bigPageSize level) % bigPageSize level = 0 ∧
      (vpn + part + whole * bigPageSize level) / bigPageSize (level + 1) =
        vpn / bigPageSize (level + 1) := by
  have hsum := h.sum
  refine ⟨?_, ?_⟩
  · rw [Nat.add_mul_mod_self_right]
    exact h.aligned (.inr hr)
  · rw [Nat.add_assoc]
    exact (advance (Nat.le_trans (Nat.add_le_add_left (by omega) _) hfit) hr).1

/-- The entries behind the first one, up to that of the rest, follow each other. -/
theorem Cut.index_add {k : Nat} (hk : k < whole ∨ k = whole ∧ 0 < rest) :
    (index level (vpn + part + k * bigPageSize level) : Nat) = index level (vpn + part) + k ∧
      (vpn % bigPageSize level ≠ 0 →
        index level vpn < index level (vpn + part + k * bigPageSize level)) := by
  have hpos := bigPageSize_pos level
  have hsum := h.sum
  have hal : (vpn + part) % bigPageSize level = 0 := h.aligned (by omega)
  -- some pages are left behind the `k` entries
  have hleft : part + k * bigPageSize level < pages := by
    rcases hk with hk | ⟨rfl, hr⟩
    · have := Nat.mul_le_mul_right (bigPageSize level) (Nat.succ_le_of_lt hk)
      rw [Nat.succ_mul] at this
      omega
    · omega
  have hB : (vpn + (part + k * bigPageSize level)) / bigPageSize (level + 1) =
      vpn / bigPageSize (level + 1) := (advance (m := 1) (by omega) Nat.one_pos).1
  have hB1 : (vpn + part) / bigPageSize (level + 1) = vpn / bigPageSize (level + 1) :=
    (advance (m := 1) (by omega) Nat.one_pos).1
  have hadd : (vpn + part + k * bigPageSize level) / bigPageSize level =
      (vpn + part) / bigPageSize level + k := Nat.add_mul_div_right _ _ hpos
  rw [← Nat.add_assoc] at hB
  rw [div_bigPageSize_succ, div_bigPageSize_succ level vpn] at hB hB1
  simp only [index, Fin.lt_def]
  refine ⟨by omega, fun hne => ?_⟩
  have hlt : vpn / bigPageSize level < (vpn + part) / bigPageSize level := by
    rw [Nat.div_lt_iff_lt_mul hpos, Nat.div_mul_cancel (Nat.dvd_of_mod_eq_zero hal)]
    refine Nat.lt_of_le_of_ne (Nat.le_add_right _ _) fun heq => hne ?_
    rw [heq]
    exact hal
  omega

end

end

theorem fit_of_le (h : vpn + pages ≤ 2 ^ 27) : vpn % bigPageSize 3 + pages ≤ bigPageSize 3 :=
  (Nat.add_le_add_right (Nat.mod_le _ _) _).trans h

/-- The range is in one block, and its frames have 44 bits. -/
structure Fits (level vpn ppn pages : Nat) : Prop where
  block : vpn % bigPageSize (level + 1) + pages ≤ bigPageSize (level + 1)
  frames : ppn + pages ≤ 2 ^ 44

def Created (level B : Nat) (table : Table level) (vpn ppn pages : Nat) (perm : Perm)
    (r : Kern (Table level)) : Prop :=
  ∃ table', r = .ok table' ∧ Sound table' ∧
    Writes (fun v => v / bigPageSize (level + 1) = B) (leafAt table) (leafAt table') vpn pages
      (fun v => ppn + (v - vpn)) perm.grant

def CreateSpec (level : Nat) : Prop :=
  ∀ (table : Table level) (vpn ppn pages : Nat) (perm : Perm), Sound table → perm.Ok →
    Fits level vpn ppn pages →
    Created level (vpn / bigPageSize (level + 1)) table vpn ppn pages perm
      (createMapping level table vpn ppn pages perm)

theorem mapWhole_placed {b whole : Nat} {table : Table level}
    (ht : Each Perm.Ok table) (hok : perm.Ok) (hclear : ClearAt level B table b)
    (hent : 0 < whole → (512 * B + i) * bigPageSize level = b ∧ i + whole ≤ 512) :
    Placed level B table b ppn (whole * bigPageSize level) perm
      (mapWhole perm whole table i ppn) := by
  rcases Nat.eq_zero_or_pos whole with rfl | hw
  · rw [Nat.zero_mul]
    exact Placed.refl ht hclear
  · obtain ⟨hstart, hroom⟩ := hent hw
    rw [← hstart]
    exact mapWhole_spec hok B whole table i ppn ht hroom

/-- **`createMapping` puts its range.** A call whose range fits in the block of the node returns,
with every page of the range in place. -/
theorem createMapping_puts (level : Nat) : PlaceSpec level := by
  induction level with
  | zero =>
    intro table vpn ppn pages perm ht hok hblock
    have hpages : pages * bigPageSize 0 = pages := Nat.mul_one pages
    have h : Placed 0 _ table vpn ppn (pages * bigPageSize 0) perm _ :=
      mapWhole_placed ht hok (clearAt_of_aligned table (Nat.mod_one vpn))
        ((cut_zero vpn pages).whole_entries hblock)
    rw [hpages] at h
    exact h
  | succ level ih =>
    intro table vpn ppn pages perm ht hok hblock
    have hcut := cut (level + 1) vpn pages
    unfold createMapping
    dsimp only
    generalize unalignedPart (bigPageSize (level + 1)) vpn pages = part at hcut ⊢
    generalize (pages - part) / bigPageSize (level + 1) = whole at hcut ⊢
    generalize pages - part - whole * bigPageSize (level + 1) = rest at hcut ⊢
    have hlt := hcut.rest_lt
    rw [← hcut.sum]
    refine Placed.trans ?_ fun t1 ht1 hclear1 => Placed.trans ?_ fun t2 ht2 hclear2 => ?_
    · -- the pages before the first aligned one
      refine when_placed ht (fun hz => ⟨hcut.part_zero hz, clearAt_of_aligned table hz⟩) fun hun => ?_
      exact mapInto_placed ih ht hok hcut.part_fit (.before hun) (block_base (level + 1) vpn).2
    · exact mapWhole_placed ht1 hok hclear1 (hcut.whole_entries hblock)
    · refine when_placed ht2 (fun h => ⟨h, hclear2⟩) fun hne => ?_
      obtain ⟨hal, hB⟩ := hcut.rest_start hblock (by omega)
      generalize vpn + part + whole * bigPageSize (level + 1) = b at *
      have hoff : (b + rest) % bigPageSize (level + 1) = rest := by
        rw [Nat.add_mod, hal, Nat.zero_add, Nat.mod_mod, Nat.mod_eq_of_lt hlt]
      rw [← hB]
      exact mapInto_placed ih ht2 hok (by omega) (.behind hal (by omega) hlt) hoff

theorem Entry.Sound.each (entry : Entry level) (h : entry.Sound) : entry.Each Perm.Ok := by
  induction entry with
  | page perm ppn => exact h.1
  | table perm node sub ih => exact fun i => ih i (h i)

/-- **`createMapping` writes its range** in a sound table, where all frames are in range. -/
theorem createMapping_spec (level : Nat) : CreateSpec level := by
  intro table vpn ppn pages perm hs hok ⟨hblock, hframes⟩
  obtain ⟨table', heq, -, hs', hput⟩ :=
    createMapping_puts level table vpn ppn pages perm (fun i => (hs i).each) hok hblock
  exact ⟨table', heq, hs' hs hframes, hput.writes hframes fun v _ y hy => (hs _).frame_lt _ hy⟩

/-! ## The steps of a call -/

section Phases

variable {level vpn ppn pages part whole rest : Nat} {perm : Perm}

/-- What the loop over whole entries leaves in each of them. -/
theorem mapWhole_apply : ∀ (n : Nat) (table : Table level) (i ppn : Nat) (table' : Table level),
    mapWhole perm n table i ppn = .ok table' → ∀ j : Fin 512,
      table' j = if i ≤ j ∧ j < i + n then
        .page perm ((ppn + (j - i) * bigPageSize level) % 2 ^ 44) else table j := by
  intro n
  induction n with
  | zero =>
    intro table i ppn table' h j
    cases h
    rw [if_neg (by omega)]
  | succ n ih =>
    intro table i ppn table' h j
    unfold mapWhole at h
    split at h
    · rename_i hi
      rw [ih _ _ _ _ h j]
      rcases Nat.lt_trichotomy j i with hlt | heq | hgt
      · rw [if_neg (by omega), if_neg (by omega), update_of_ne]
        rintro rfl
        exact Nat.lt_irrefl _ hlt
      · obtain rfl : j = ⟨i, hi⟩ := Fin.ext heq
        rw [if_neg (by dsimp only; omega), if_pos (by dsimp only; omega), update_self,
          Nat.sub_self, Nat.zero_mul, Nat.add_zero]
      · have hsub : ppn + bigPageSize level + (j - (i + 1)) * bigPageSize level =
            ppn + (j - i) * bigPageSize level := by
          rw [show (j : Nat) - i = j - (i + 1) + 1 by omega, Nat.succ_mul]
          omega
        have hcond : (i + 1 ≤ (j : Nat) ∧ (j : Nat) < i + 1 + n) ↔
            (i ≤ (j : Nat) ∧ (j : Nat) < i + (n + 1)) := by
          omega
        rw [update_of_ne (by rintro rfl; exact Nat.lt_irrefl _ hgt), hsub]
        exact if_congr hcond rfl rfl
    · cases h

theorem mapInto_eq_ok {table table' : Table (level + 1)}
    {pushdown : Nat → Perm → Kern (Table level)} {create : Table level → Kern (Table level)}
    (h : mapInto table vpn pushdown create = .ok table') :
    ∃ perm sub sub', subTable (table (index (level + 1) vpn)) pushdown = .ok (perm, sub) ∧
      create sub = .ok sub' ∧
      table' = update table (index (level + 1) vpn) (.table perm.1 perm.2 sub') := by
  obtain ⟨⟨perm, sub⟩, hsub, h⟩ := bind_eq_ok h
  obtain ⟨sub', hcreate, h⟩ := bind_eq_ok h
  cases h
  exact ⟨perm, sub, sub', hsub, hcreate, rfl⟩

def mapFirst (vpn ppn part : Nat) (perm : Perm) (table : Table (level + 1)) :
    Kern (Table (level + 1)) :=
  mapInto table vpn
    (fun prevppn prevPerm => createMapping level createPTNode
      (vpn - vpn % bigPageSize (level + 1)) prevppn (vpn % bigPageSize (level + 1)) prevPerm)
    (fun sub => createMapping level sub vpn ppn part perm)

def mapRest (vpn ppn rest : Nat) (perm : Perm) (table : Table (level + 1)) :
    Kern (Table (level + 1)) :=
  mapInto table vpn
    (fun prevppn prevPerm => createMapping level createPTNode (vpn + rest) (prevppn + rest)
      (bigPageSize (level + 1) - rest) prevPerm)
    (fun sub => createMapping level sub vpn ppn rest perm)

/-- The three parts of a call of `createMapping`. -/
structure Phases (table : Table (level + 1)) (vpn ppn pages : Nat) (perm : Perm)
    (table' : Table (level + 1)) (part whole rest : Nat) (t1 t2 : Table (level + 1)) : Prop where
  cut : Cut (level + 1) vpn pages part whole rest
  first : when_ (vpn % bigPageSize (level + 1)) (mapFirst vpn ppn part perm) table = .ok t1
  loop : mapWhole perm whole t1 (index (level + 1) (vpn + part)) (ppn + part) = .ok t2
  last : when_ rest (mapRest (vpn + part + whole * bigPageSize (level + 1))
    (ppn + part + whole * bigPageSize (level + 1)) rest perm) t2 = .ok table'

theorem createMapping_phases {table table' : Table (level + 1)}
    (h : createMapping (level + 1) table vpn ppn pages perm = .ok table') :
    ∃ part whole rest t1 t2, Phases table vpn ppn pages perm table' part whole rest t1 t2 := by
  have hcut := cut (level + 1) vpn pages
  unfold createMapping at h
  dsimp only at h
  generalize unalignedPart (bigPageSize (level + 1)) vpn pages = part at hcut h
  generalize (pages - part) / bigPageSize (level + 1) = whole at hcut h
  generalize pages - part - whole * bigPageSize (level + 1) = rest at hcut h
  obtain ⟨t1, h1, h⟩ := bind_eq_ok h
  obtain ⟨t2, h2, h3⟩ := bind_eq_ok h
  exact ⟨part, whole, rest, t1, t2, hcut, h1, h2, h3⟩

variable {table t1 t2 : Table (level + 1)} {j : Fin 512}

theorem mapFirst_other
    (hfirst : when_ (vpn % bigPageSize (level + 1)) (mapFirst vpn ppn part perm) table = .ok t1)
    (hj : vpn % bigPageSize (level + 1) ≠ 0 → index (level + 1) vpn < j) : t1 j = table j := by
  unfold when_ at hfirst
  split at hfirst
  · cases hfirst
    rfl
  · rename_i hne
    obtain ⟨node, sub, sub', -, -, rfl⟩ := mapInto_eq_ok hfirst
    exact update_of_ne (Fin.ne_of_gt (hj hne)) _ _

section

variable (hcut : Cut (level + 1) vpn pages part whole rest) (hfirst : when_ (vpn % bigPageSize (level + 1)) (mapFirst vpn ppn part perm) table = .ok t1)
include hcut hfirst

theorem Cut.whole_entry (hfit : vpn % bigPageSize (level + 2) + pages ≤ bigPageSize (level + 2))
    {k : Nat} (hk : k < whole) (hj : (j : Nat) = index (level + 1) (vpn + part) + k) :
    j = index (level + 1) (vpn + part + k * bigPageSize (level + 1)) ∧ t1 j = table j := by
  obtain ⟨hidx, hlt⟩ := hcut.index_add hfit (.inl hk)
  have hj' : j = index (level + 1) (vpn + part + k * bigPageSize (level + 1)) :=
    Fin.ext (hj.trans hidx.symm)
  refine ⟨hj', mapFirst_other hfirst ?_⟩
  rw [hj']
  exact hlt

theorem Cut.rest_entry
    (hloop : mapWhole perm whole t1 (index (level + 1) (vpn + part)) (ppn + part) = .ok t2)
    (hfit : vpn % bigPageSize (level + 2) + pages ≤ bigPageSize (level + 2)) (hr : 0 < rest) :
    t2 (index (level + 1) (vpn + part + whole * bigPageSize (level + 1))) =
      table (index (level + 1) (vpn + part + whole * bigPageSize (level + 1))) := by
  obtain ⟨hidx, hlt⟩ := hcut.index_add hfit (.inr ⟨rfl, hr⟩)
  rw [mapWhole_apply _ _ _ _ _ hloop, if_neg (by omega)]
  exact mapFirst_other hfirst hlt

end

end Phases

/-! ## Removing a range -/

def Cleared (level B : Nat) (table : Table level) (vpn pages : Nat) (table' : Table level) : Prop :=
  (Sound table → Sound table') ∧
    Clears (fun v => v / bigPageSize (level + 1) = B) (leafAt table) (leafAt table') vpn pages

theorem Cleared.refl {table : Table level} : Cleared level B table vpn 0 table :=
  ⟨fun hs => hs, Clears.refl _ _ _⟩

theorem Cleared.trans {n m : Nat} {t t1 t2 : Table level}
    (h : Cleared level B t vpn n t1) (h' : Cleared level B t1 (vpn + n) m t2) :
    Cleared level B t vpn (n + m) t2 :=
  ⟨fun hs => h'.1 (h.1 hs), h.2.trans h'.2⟩

def Entry.Invalid {level : Nat} (entry : Entry level) : Prop :=
  ∃ perm ppn, entry = .page perm ppn ∧ perm.v = false

section Invalid

variable {level : Nat} {entry : Entry level}

theorem Entry.Invalid.leafAt (h : entry.Invalid) (v : Nat) : entry.leafAt v = none := by
  obtain ⟨perm, ppn, rfl, hv⟩ := h
  simp only [Entry.leafAt, hv, Bool.false_and, Bool.false_eq_true, if_false]

theorem Entry.Invalid.isValid (h : entry.Invalid) : entry.isValid = false := by
  obtain ⟨perm, ppn, rfl, hv⟩ := h
  exact hv

theorem freePTNode_of_invalid {table : Table level} (h : ∀ i, (table i).Invalid) :
    freePTNode table = true :=
  List.all_eq_true.2 fun i _ => by rw [(h i).isValid]; rfl

theorem clearPage_invalid (h : clearPage perm ppn = .ok entry) :
    entry.Invalid ∧ ((Entry.page perm ppn : Entry level).Sound → entry.Sound) := by
  unfold clearPage at h
  split at h
  · split at h
    · cases h
      exact ⟨⟨{}, ppn, rfl, rfl⟩, fun _ => invalid_sound⟩
    · cases h
  · rename_i hv
    cases h
    exact ⟨⟨perm, ppn, rfl, Bool.eq_false_of_not_eq_true hv⟩, fun hs => hs⟩

end Invalid

theorem clearLast_invalid {entry entry' : Entry 0} (h : clearLast entry = .ok entry') :
    entry'.Invalid ∧ (entry.Sound → entry'.Sound) := by
  cases entry with
  | page perm ppn => exact clearPage_invalid h

theorem clearEntry_invalid {remove : Table level → Kern (Table level)}
    {entry entry' : Entry (level + 1)} (h : clearEntry remove entry = .ok entry') :
    entry'.Invalid ∧ (entry.Sound → entry'.Sound) := by
  cases entry with
  | page perm ppn => exact clearPage_invalid h
  | table perm node sub =>
    obtain ⟨sub', -, h⟩ := bind_eq_ok h
    obtain ⟨-, -, h⟩ := bind_eq_ok h
    cases h
    exact ⟨⟨{}, 0, rfl, rfl⟩, fun _ => invalid_sound⟩

theorem removeWhole_spec {clear : Nat → Entry level → Kern (Entry level)}
    (hclear : ∀ vpn entry entry', clear vpn entry = .ok entry' →
      entry'.Invalid ∧ (entry.Sound → entry'.Sound)) (B : Nat) :
    ∀ (n : Nat) (table : Table level) (i vpn : Nat) (table' : Table level),
    removeWhole clear n table i vpn = .ok table' →
    Cleared level B table ((512 * B + i) * bigPageSize level) (n * bigPageSize level) table' := by
  intro n
  induction n with
  | zero =>
    intro table i vpn table' h
    cases h
    rw [Nat.zero_mul]
    exact Cleared.refl
  | succ n ih =>
    intro table i vpn table' h
    unfold removeWhole at h
    split at h
    · rename_i hi
      obtain ⟨entry, hent, h⟩ := bind_eq_ok h
      obtain ⟨hinv, hsound⟩ := hclear vpn _ entry hent
      obtain ⟨hidx, hblk, hal⟩ := entry_start level B hi
      have hlen : (n + 1) * bigPageSize level = bigPageSize level + n * bigPageSize level := by
        ring
      have hstart : (512 * B + (i + 1)) * bigPageSize level =
          (512 * B + i) * bigPageSize level + bigPageSize level := by
        ring
      have hone : Clears (Block (level + 1) ((512 * B + i) * bigPageSize level)) (leafAt table)
          (leafAt (update table (index level ((512 * B + i) * bigPageSize level)) entry))
          ((512 * B + i) * bigPageSize level) (bigPageSize level) := by
        refine clears_update (by omega) ⟨fun v _ _ => hinv.leafAt v, ?_⟩
        intro v hD hv
        exact absurd (inRange_of_block hal hD) hv
      unfold Block at hone
      rw [hidx, hblk] at hone
      have hrest := ih _ (i + 1) _ table' h
      rw [hstart] at hrest
      rw [hlen]
      exact Cleared.trans ⟨fun hs => sound_update hs (hsound (hs _)), hone⟩ hrest
    · cases h

def ClearSpec (level : Nat) : Prop :=
  ∀ (table : Table level) (vpn pages : Nat) (table' : Table level),
    vpn % bigPageSize (level + 1) + pages ≤ bigPageSize (level + 1) →
    removeMapping level table vpn pages = .ok table' →
    Cleared level (vpn / bigPageSize (level + 1)) table vpn pages table'

theorem removeInto_cleared {b n : Nat} {table table' : Table (level + 1)}
    (ih : ClearSpec level) (hfit : b % bigPageSize (level + 1) + n ≤ bigPageSize (level + 1))
    (h : removeInto table b (fun sub => removeMapping level sub b n) = .ok table') :
    Cleared (level + 1) (b / bigPageSize (level + 2)) table b n table' := by
  unfold removeInto at h
  split at h
  · rename_i perm ppn hent
    split at h
    · obtain ⟨-, -, h⟩ := bind_eq_ok h
      cases h
    rename_i hv
    cases h
    refine ⟨fun hs => hs, ?_⟩
    have hinv : (table (index (level + 1) b)).Invalid :=
      ⟨perm, ppn, hent, Bool.eq_false_of_not_eq_true hv⟩
    have hself : Clears (Block (level + 1) b) (table (index (level + 1) b)).leafAt
        (table (index (level + 1) b)).leafAt b n :=
      ⟨fun v _ _ => hinv.leafAt v, fun _ _ _ => rfl⟩
    have hupd := clears_update hfit hself
    rw [update_eq_self] at hupd
    exact hupd
  · rename_i perm node sub hent
    have hse : Sound table → Sound sub := fun hs => by
      have := hs (index (level + 1) b)
      rw [hent] at this
      exact this
    obtain ⟨sub', hsub, h⟩ := bind_eq_ok h
    obtain ⟨hs', hc⟩ := ih sub b n sub' hfit hsub
    cases h
    cases hfree : freePTNode sub' with
    | true =>
      refine ⟨fun hs => sound_update hs invalid_sound, clears_update hfit ?_⟩
      rw [hent]
      exact hc.restrict (fun _ h => h) (fun _ _ => rfl) fun v _ => (leafAt_of_free hfree v).symm
    | false =>
      refine ⟨fun hs => sound_update hs (hs' (hse hs)), clears_update hfit ?_⟩
      rw [hent]
      exact hc.restrict (fun _ h => h) (fun _ _ => rfl) fun _ _ => rfl

theorem when_cleared {b n cond : Nat} {table table' : Table level}
    {step : Table level → Kern (Table level)} (hzero : cond = 0 → n = 0)
    (h : when_ cond step table = .ok table')
    (hstep : cond ≠ 0 → step table = .ok table' → Cleared level B table b n table') :
    Cleared level B table b n table' := by
  unfold when_ at h
  split at h
  · rename_i hcond
    cases h
    rw [hzero hcond]
    exact Cleared.refl
  · rename_i hcond
    exact hstep hcond h

theorem Cut.head_cleared {part whole rest : Nat} {table t1 t2 : Table (level + 1)}
    (ih : ClearSpec level) (hcut : Cut (level + 1) vpn pages part whole rest)
    (hblock : vpn % bigPageSize (level + 2) + pages ≤ bigPageSize (level + 2))
    (h1 : when_ (vpn % bigPageSize (level + 1)) (fun table =>
      removeInto table vpn fun sub => removeMapping level sub vpn part) table = .ok t1)
    (h2 : removeWhole (fun vpn => clearEntry fun sub =>
      removeMapping level sub vpn (bigPageSize (level + 1))) whole t1
        (index (level + 1) (vpn + part)) (vpn + part) = .ok t2) :
    Cleared (level + 1) (vpn / bigPageSize (level + 2)) table vpn
      (part + whole * bigPageSize (level + 1)) t2 := by
  have hr1 : Cleared (level + 1) (vpn / bigPageSize (level + 2)) table vpn part t1 :=
    when_cleared hcut.part_zero h1 fun _ h => removeInto_cleared ih hcut.part_fit h
  refine hr1.trans ?_
  rcases Nat.eq_zero_or_pos whole with rfl | hpos
  · cases h2
    rw [Nat.zero_mul]
    exact Cleared.refl
  have hr := removeWhole_spec (fun _ _ _ => clearEntry_invalid)
    (vpn / bigPageSize (level + 2)) whole t1 _ _ t2 h2
  rw [(hcut.whole_entries hblock hpos).1] at hr
  exact hr

/-- **`removeMapping` clears its range** and nothing else, whenever it returns. -/
theorem removeMapping_clears (level : Nat) : ClearSpec level := by
  induction level with
  | zero =>
    intro table vpn pages table' hblock h
    have hpages : pages * bigPageSize 0 = pages := Nat.mul_one pages
    rcases Nat.eq_zero_or_pos pages with rfl | hpos
    · cases h
      exact Cleared.refl
    have hr := removeWhole_spec (fun _ _ _ => clearLast_invalid) (vpn / bigPageSize 1) pages table
      (index 0 vpn) vpn table' h
    have hstart : (512 * (vpn / bigPageSize 1) + index 0 vpn) * bigPageSize 0 = vpn :=
      ((cut_zero vpn pages).whole_entries hblock hpos).1
    rw [hstart, hpages] at hr
    exact hr
  | succ level ih =>
    intro table vpn pages table' hblock h
    have hcut := cut (level + 1) vpn pages
    have hlt := hcut.rest_lt
    obtain ⟨t1, h1, h⟩ := bind_eq_ok h
    obtain ⟨t2, h2, h3⟩ := bind_eq_ok h
    rw [← hcut.sum, ← Nat.add_assoc]
    refine (hcut.head_cleared ih hblock h1 h2).trans ?_
    rw [← Nat.add_assoc]
    refine when_cleared (fun h => h) h3 fun hne h => ?_
    obtain ⟨hal, hB⟩ := hcut.rest_start hblock (by omega)
    rw [← hB]
    exact removeInto_cleared ih (by omega) h

end LuoOS.Vm
