import Mathlib.Order.Basic

/-!
# Translations with leaves of several sizes

A translation maps a page number to the leaf that covers it, if any. A leaf covers an aligned block
of pages and sends them to consecutive frames. Three effects on a domain `D` of pages and a range
`[a, a + n)`: `Writes` gives every page of the range a new frame and may shrink the leaves the range
cuts, `Puts` also says what is left of these, and `Clears` removes the range. All compose over
adjacent ranges, as the recursion of a radix table needs.
-/

namespace Translation

variable {π : Type}

/-- The pages of an aligned block of `size` pages go to consecutive frames from `ppn` on. -/
structure Leaf (π : Type) where
  size : Nat
  ppn : Nat
  perm : π
  deriving DecidableEq

namespace Leaf

def frame (x : Leaf π) (v : Nat) : Nat := x.ppn + v % x.size

def base (x : Leaf π) (v : Nat) : Nat := v - v % x.size

def Inside (x : Leaf π) (v a n : Nat) : Prop := a ≤ x.base v ∧ x.base v + x.size ≤ a + n

def Avoids (x : Leaf π) (v a n : Nat) : Prop := x.base v + x.size ≤ a ∨ a + n ≤ x.base v

def Covers (x : Leaf π) (v w : Nat) : Prop := x.base v ≤ w ∧ w < x.base v + x.size

def Within (x y : Leaf π) (v : Nat) : Prop :=
  y.base v ≤ x.base v ∧ x.base v + x.size ≤ y.base v + y.size

variable {x y z : Leaf π} {v a n m : Nat}

theorem Within.covers {w : Nat} (h : x.Within y v) (hw : x.Covers v w) : y.Covers v w :=
  ⟨Nat.le_trans h.1 hw.1, Nat.lt_of_lt_of_le hw.2 h.2⟩

/-- A block that shares no page with a range avoids it. -/
theorem avoids_of_covers (hpos : 0 < x.size) (hn : 0 < n)
    (h : ∀ w, x.Covers v w → ¬(a ≤ w ∧ w < a + n)) : x.Avoids v a n := by
  unfold Avoids
  by_contra hcut
  refine h (max a (x.base v)) ⟨?_, ?_⟩ ⟨?_, ?_⟩ <;> omega

theorem Within.refl (x : Leaf π) (v : Nat) : x.Within x v := ⟨Nat.le_refl _, Nat.le_refl _⟩

theorem Within.trans (h : x.Within y v) (h' : y.Within z v) : x.Within z v :=
  ⟨Nat.le_trans h'.1 h.1, Nat.le_trans h.2 h'.2⟩

theorem Inside.avoids (h : x.Inside v a n) : x.Avoids v (a + n) m := .inl h.2

theorem Inside.extend (h : x.Inside v a n) : x.Inside v a (n + m) :=
  ⟨h.1, by have := h.2; omega⟩

theorem Inside.extend_left (h : x.Inside v (a + n) m) : x.Inside v a (n + m) :=
  ⟨by have := h.1; omega, by have := h.2; omega⟩

theorem Avoids.left (h : x.Avoids v a (n + m)) : x.Avoids v a n := by
  rcases h with h | h
  · exact .inl h
  · exact .inr (by omega)

theorem Avoids.right (h : x.Avoids v a (n + m)) : x.Avoids v (a + n) m := by
  rcases h with h | h
  · exact .inl (by omega)
  · exact .inr (by omega)

end Leaf

def InRange (a n v : Nat) : Prop := a ≤ v ∧ v < a + n
  deriving Decidable

variable {x : Leaf π}

theorem Leaf.Inside.inRange {a n v : Nat} (h : x.Inside v a n) (hpos : 0 < x.size) :
    InRange a n v := by
  have hmod := Nat.mod_lt v hpos
  obtain ⟨h1, h2⟩ := h
  unfold Leaf.base at h1 h2
  exact ⟨by omega, by omega⟩

theorem inRange_add {a n m v : Nat} :
    InRange a (n + m) v ↔ InRange a n v ∨ InRange (a + n) m v := by
  unfold InRange
  omega

/-! ## Writing a range -/

/-- From `L` to `L'`, the pages of `[a, a + n)` get the frames `f` and the permission `g`, or lose
their translation where `g` is `none`. Nothing appears outside, and a leaf that the range does not
cut stays. -/
structure Writes (D : Nat → Prop) (L L' : Nat → Option (Leaf π)) (a n : Nat) (f : Nat → Nat)
    (g : Option π) : Prop where
  grants : ∀ v, D v → InRange a n v → ∀ p, g = some p →
    ∃ x, L' v = some x ∧ x.frame v = f v ∧ x.perm = p ∧ x.Inside v a n
  revokes : ∀ v, D v → InRange a n v → g = none → L' v = none
  old : ∀ v, D v → ¬InRange a n v → ∀ x, L' v = some x →
    ∃ y, L v = some y ∧ y.frame v = x.frame v ∧ y.perm = x.perm ∧ x.Within y v
  keeps : ∀ v, D v → ¬InRange a n v → ∀ y, L v = some y → y.Avoids v a n → L' v = some y

namespace Writes

variable {D : Nat → Prop} {L L1 L' : Nat → Option (Leaf π)} {a n m v : Nat} {f f' : Nat → Nat}
  {g : Option π}

/-- Nothing changes when the range is empty and no leaf does. -/
theorem refl (D : Nat → Prop) (L : Nat → Option (Leaf π)) (a : Nat) (f : Nat → Nat)
    (g : Option π) : Writes D L L a 0 f g := by
  have hempty : ∀ v, ¬InRange a 0 v := by
    intro v h
    exact Nat.not_lt.2 h.1 h.2
  refine ⟨?_, ?_, ?_, ?_⟩
  · intro v _ hv
    exact absurd hv (hempty v)
  · intro v _ hv
    exact absurd hv (hempty v)
  · intro v _ _ x hx
    exact ⟨x, hx, rfl, rfl, Leaf.Within.refl x v⟩
  · intro v _ _ y hy _
    exact hy

theorem congr (h : Writes D L L' a n f g) (hf : ∀ v, InRange a n v → f v = f' v) :
    Writes D L L' a n f' g := by
  refine ⟨?_, h.revokes, h.old, h.keeps⟩
  intro v hD hv p hp
  obtain ⟨x, hx, hframe, hrest⟩ := h.grants v hD hv p hp
  exact ⟨x, hx, hframe.trans (hf v hv), hrest⟩

/-- **Two adjacent writes are one.** -/
theorem trans (h : Writes D L L1 a n f g) (h' : Writes D L1 L' (a + n) m f g) :
    Writes D L L' a (n + m) f g := by
  refine ⟨?_, ?_, ?_, ?_⟩
  · intro v hD hv p hp
    by_cases hsnd : InRange (a + n) m v
    · obtain ⟨x, hx, hframe, hperm, hin⟩ := h'.grants v hD hsnd p hp
      exact ⟨x, hx, hframe, hperm, hin.extend_left⟩
    · have hfst : InRange a n v := (inRange_add.1 hv).resolve_right hsnd
      obtain ⟨x, hx, hframe, hperm, hin⟩ := h.grants v hD hfst p hp
      exact ⟨x, h'.keeps v hD hsnd x hx hin.avoids, hframe, hperm, hin.extend⟩
  · intro v hD hv hg
    by_cases hsnd : InRange (a + n) m v
    · exact h'.revokes v hD hsnd hg
    have hfst : InRange a n v := (inRange_add.1 hv).resolve_right hsnd
    rw [Option.eq_none_iff_forall_not_mem]
    intro x hx
    obtain ⟨y, hy, -⟩ := h'.old v hD hsnd x hx
    rw [h.revokes v hD hfst hg] at hy
    cases hy
  · intro v hD hv x hx
    rw [inRange_add, not_or] at hv
    obtain ⟨y, hy, hyf, hyp, hyw⟩ := h'.old v hD hv.2 x hx
    obtain ⟨z, hz, hzf, hzp, hzw⟩ := h.old v hD hv.1 y hy
    exact ⟨z, hz, hzf.trans hyf, hzp.trans hyp, hyw.trans hzw⟩
  · intro v hD hv y hy hav
    rw [inRange_add, not_or] at hv
    exact h'.keeps v hD hv.2 y (h.keeps v hD hv.1 y hy hav.left) hav.right

section

variable (h : Writes D L L' a n f g)
include h

theorem sound (hD : D v) (hx : L' v = some x) :
    (InRange a n v ∧ x.frame v = f v ∧ g = some x.perm) ∨
      (¬InRange a n v ∧ ∃ y, L v = some y ∧ y.frame v = x.frame v ∧ y.perm = x.perm) := by
  by_cases hv : InRange a n v
  · cases hg : g with
    | none =>
      rw [h.revokes v hD hv hg] at hx
      cases hx
    | some p =>
      obtain ⟨z, hz, hframe, hperm, -⟩ := h.grants v hD hv p hg
      rw [hz] at hx
      cases hx
      exact .inl ⟨hv, hframe, congrArg some hperm.symm⟩
  · obtain ⟨y, hy, hframe, hperm, -⟩ := h.old v hD hv x hx
    exact .inr ⟨hv, y, hy, hframe, hperm⟩

theorem inside (hD : D v) (hv : InRange a n v) (hx : L' v = some x) : x.Inside v a n := by
  cases hg : g with
  | none =>
    rw [h.revokes v hD hv hg] at hx
    cases hx
  | some p =>
    obtain ⟨z, hz, -, -, hin⟩ := h.grants v hD hv p hg
    rw [hz] at hx
    cases hx
    exact hin

theorem eq_of_avoids (hD : D v) (hv : ¬InRange a n v)
    (hav : ∀ y, L v = some y → y.Avoids v a n) : L' v = L v := by
  cases hy : L v with
  | some y => exact h.keeps v hD hv y hy (hav y hy)
  | none =>
    rw [Option.eq_none_iff_forall_not_mem]
    intro x hx
    obtain ⟨y, hy', -⟩ := h.old v hD hv x hx
    rw [hy] at hy'
    cases hy'

end

end Writes

/-! ## Putting a range -/

namespace Leaf

def Straddles (x : Leaf π) (v a n : Nat) : Prop := x.base v < a ∧ a + n ≤ v

/-- What leaf `x` gives page `v` is what leaf `y` gives it, and the block of `x` is part of that of
`y`. Frames from `B` on are not followed. -/
structure PieceOf (B : Nat) (x y : Leaf π) (v : Nat) : Prop where
  perm : x.perm = y.perm
  within : x.Within y v
  frame : y.frame v < B → x.frame v = y.frame v

variable {B v : Nat} {x y z : Leaf π}

theorem PieceOf.refl (B : Nat) (x : Leaf π) (v : Nat) : x.PieceOf B x v :=
  ⟨rfl, Within.refl x v, fun _ => rfl⟩

theorem PieceOf.trans (h : x.PieceOf B y v) (h' : y.PieceOf B z v) : x.PieceOf B z v := by
  refine ⟨h.perm.trans h'.perm, h.within.trans h'.within, fun hz => ?_⟩
  have hyz := h'.frame hz
  exact (h.frame (hyz ▸ hz)).trans hyz

end Leaf

/-- From `L` to `L'` the pages of `[a, a + n)` get consecutive frames from `ppn` on and the
permission `g`. Nothing appears outside, and what goes are pages behind the range of leaves that
start before it. Frames from `B` on are not followed. -/
structure Puts (B : Nat) (D : Nat → Prop) (L L' : Nat → Option (Leaf π)) (a n ppn : Nat)
    (g : Option π) : Prop where
  grants : ∀ v, D v → InRange a n v → ∀ p, g = some p →
    ∃ x, L' v = some x ∧ x.perm = p ∧ x.Inside v a n ∧
      (ppn + (v - a) < B → x.frame v = ppn + (v - a))
  revokes : ∀ v, D v → InRange a n v → g = none → L' v = none
  old : ∀ v, D v → ¬InRange a n v → ∀ x, L' v = some x →
    (v < a ∨ a + n ≤ x.base v) ∧ ∃ y, L v = some y ∧ x.PieceOf B y v ∧ ¬y.Straddles v a n
  keeps : ∀ v, D v → ¬InRange a n v → ∀ y, L v = some y → ¬y.Straddles v a n →
    ∃ x, L' v = some x
  spares : ∀ v, D v → ¬InRange a n v → ∀ y, L v = some y → y.Avoids v a n → L' v = some y

/-- From `L` to `K` leaves are cut into pieces and some of these dropped, in the range `[a, a + n)`
and where it lets them go. -/
structure Readies (B : Nat) (D : Nat → Prop) (L K : Nat → Option (Leaf π)) (a n : Nat) :
    Prop where
  old : ∀ v, D v → ∀ x, K v = some x → ∃ y, L v = some y ∧ x.PieceOf B y v ∧
    (y.Straddles v a n → x.Straddles v a n)
  keeps : ∀ v, D v → ¬InRange a n v → ∀ y, L v = some y → ¬y.Straddles v a n →
    ∃ x, K v = some x ∧ ¬x.Straddles v a n
  spares : ∀ v, D v → ∀ y, L v = some y → y.Avoids v a n → K v = some y

theorem Readies.refl (B : Nat) (D : Nat → Prop) (L : Nat → Option (Leaf π)) (a n : Nat) :
    Readies B D L L a n :=
  ⟨fun v _ x hx => ⟨x, hx, Leaf.PieceOf.refl B x v, fun h => h⟩, fun _ _ _ y hy hs => ⟨y, hy, hs⟩,
    fun _ _ _ hy _ => hy⟩

variable {D' E : Nat → Prop}

namespace Puts

variable {B : Nat} {D : Nat → Prop} {L L1 L' K : Nat → Option (Leaf π)} {a n m ppn : Nat}
  {g : Option π}

/-- Nothing changes when the range is empty and no leaf reaches over it. -/
theorem refl {B : Nat} {D : Nat → Prop} {L : Nat → Option (Leaf π)} {a ppn : Nat} {g : Option π}
    (hclear : ∀ v, D v → ∀ x, L v = some x → v < a ∨ a ≤ x.base v) : Puts B D L L a 0 ppn g := by
  have hempty : ∀ v, ¬InRange a 0 v := fun v h => Nat.not_lt.2 h.1 h.2
  refine ⟨?_, ?_, ?_, ?_, ?_⟩
  · intro v _ hv
    exact absurd hv (hempty v)
  · intro v _ hv
    exact absurd hv (hempty v)
  · intro v hD _ x hx
    have hv := hclear v hD x hx
    refine ⟨hv, x, hx, Leaf.PieceOf.refl B x v, fun hs => ?_⟩
    obtain ⟨h1, h2⟩ := hs
    omega
  · intro v _ _ y hy _
    exact ⟨y, hy⟩
  · intro v _ _ y hy _
    exact hy

theorem restrict {K' : Nat → Option (Leaf π)} (h : Puts B D L L' a n ppn g)
    (hE : ∀ v, E v → D v) (hK : ∀ v, E v → K v = L v) (hK' : ∀ v, E v → K' v = L' v) :
    Puts B E K K' a n ppn g := by
  refine ⟨?_, ?_, ?_, ?_, ?_⟩
  · intro v hv
    rw [hK' v hv]
    exact h.grants v (hE v hv)
  · intro v hv
    rw [hK' v hv]
    exact h.revokes v (hE v hv)
  · intro v hv
    rw [hK v hv, hK' v hv]
    exact h.old v (hE v hv)
  · intro v hv
    rw [hK v hv, hK' v hv]
    exact h.keeps v (hE v hv)
  · intro v hv
    rw [hK v hv, hK' v hv]
    exact h.spares v (hE v hv)

/-- On a part of the domain, when the rest of the domain is untouched and no leaf there reaches into
the range. -/
theorem extend [DecidablePred D'] (h : Puts B D' L L' a n ppn g)
    (hrest : ∀ v, D v → ¬D' v → ¬InRange a n v ∧ L' v = L v ∧
      ∀ x, L v = some x → v < a ∨ a + n ≤ x.base v) : Puts B D L L' a n ppn g := by
  refine ⟨?_, ?_, ?_, ?_, ?_⟩
  · intro v hD hv
    by_cases hD' : D' v
    · exact h.grants v hD' hv
    · exact absurd hv (hrest v hD hD').1
  · intro v hD hv
    by_cases hD' : D' v
    · exact h.revokes v hD' hv
    · exact absurd hv (hrest v hD hD').1
  · intro v hD hv x hx
    by_cases hD' : D' v
    · exact h.old v hD' hv x hx
    obtain ⟨-, heq, hbase⟩ := hrest v hD hD'
    rw [heq] at hx
    have hside := hbase x hx
    refine ⟨hside, x, hx, Leaf.PieceOf.refl B x v, fun hs => ?_⟩
    obtain ⟨h1, h2⟩ := hs
    omega
  · intro v hD hv y hy hs
    by_cases hD' : D' v
    · exact h.keeps v hD' hv y hy hs
    · rw [(hrest v hD hD').2.1]
      exact ⟨y, hy⟩
  · intro v hD hv y hy hav
    by_cases hD' : D' v
    · exact h.spares v hD' hv y hy hav
    · rw [(hrest v hD hD').2.1]
      exact hy

/-- After the leaves that the range cuts are in pieces. -/
theorem of_readies (h : Puts B D K L' a n ppn g)
    (hr : Readies B D L K a n) : Puts B D L L' a n ppn g := by
  refine ⟨h.grants, h.revokes, ?_, ?_, ?_⟩
  · intro v hD hv x hx
    obtain ⟨hside, y, hy, hxy, hs⟩ := h.old v hD hv x hx
    obtain ⟨z, hz, hyz, hlost⟩ := hr.old v hD y hy
    exact ⟨hside, z, hz, hxy.trans hyz, fun hzs => hs (hlost hzs)⟩
  · intro v hD hv y hy hs
    obtain ⟨x, hx, hs'⟩ := hr.keeps v hD hv y hy hs
    exact h.keeps v hD hv x hx hs'
  · intro v hD hv y hy hav
    exact h.spares v hD hv y (hr.spares v hD y hy hav) hav

theorem clear (h : Puts B D L L' a n ppn g) :
    ∀ v, D v → ∀ x, L' v = some x → v < a + n ∨ a + n ≤ x.base v := by
  intro v hD x hx
  by_cases hv : InRange a n v
  · exact .inl hv.2
  · have := (h.old v hD hv x hx).1
    omega

/-- **Two adjacent ranges are one.** -/
theorem trans (h : Puts B D L L1 a n ppn g) (h' : Puts B D L1 L' (a + n) m (ppn + n) g) :
    Puts B D L L' a (n + m) ppn g := by
  refine ⟨?_, ?_, ?_, ?_, ?_⟩
  · intro v hD hv p hp
    by_cases hsnd : InRange (a + n) m v
    · obtain ⟨x, hx, hperm, hin, hframe⟩ := h'.grants v hD hsnd p hp
      refine ⟨x, hx, hperm, hin.extend_left, fun hB => ?_⟩
      have hsub : ppn + n + (v - (a + n)) = ppn + (v - a) := by
        have := hsnd.1
        omega
      rw [hsub] at hframe
      exact hframe hB
    · have hfst : InRange a n v := (inRange_add.1 hv).resolve_right hsnd
      obtain ⟨x, hx, hperm, hin, hframe⟩ := h.grants v hD hfst p hp
      exact ⟨x, h'.spares v hD hsnd x hx hin.avoids, hperm, hin.extend, hframe⟩
  · intro v hD hv hg
    by_cases hsnd : InRange (a + n) m v
    · exact h'.revokes v hD hsnd hg
    have hfst : InRange a n v := (inRange_add.1 hv).resolve_right hsnd
    rw [Option.eq_none_iff_forall_not_mem]
    intro x hx
    obtain ⟨-, y, hy, -⟩ := h'.old v hD hsnd x hx
    rw [h.revokes v hD hfst hg] at hy
    cases hy
  · intro v hD hv x hx
    rw [inRange_add, not_or] at hv
    obtain ⟨hside', y, hy, hxy, -⟩ := h'.old v hD hv.2 x hx
    obtain ⟨hside, z, hz, hyz, hs⟩ := h.old v hD hv.1 y hy
    obtain ⟨hfst, hsnd⟩ := hv
    unfold InRange at hfst hsnd
    refine ⟨by omega, z, hz, hxy.trans hyz, fun hzs => hs ?_⟩
    obtain ⟨h1, h2⟩ := hzs
    exact ⟨h1, by omega⟩
  · intro v hD hv y hy hs
    rw [inRange_add, not_or] at hv
    have hs1 : ¬y.Straddles v a n := by
      obtain ⟨hfst, hsnd⟩ := hv
      unfold InRange at hfst hsnd
      unfold Leaf.Straddles at hs ⊢
      omega
    obtain ⟨x, hx⟩ := h.keeps v hD hv.1 y hy hs1
    refine h'.keeps v hD hv.2 x hx fun hx' => ?_
    have hside := h.clear v hD x hx
    obtain ⟨h1, h2⟩ := hx'
    omega
  · intro v hD hv y hy hav
    rw [inRange_add, not_or] at hv
    exact h'.spares v hD hv.2 y (h.spares v hD hv.1 y hy hav.left) hav.right

theorem writes (h : Puts B D L L' a n ppn g) (hB : ppn + n ≤ B)
    (hframes : ∀ v, D v → ∀ y, L v = some y → y.frame v < B) :
    Writes D L L' a n (fun v => ppn + (v - a)) g := by
  refine ⟨?_, h.revokes, ?_, h.spares⟩
  · intro v hD hv p hp
    obtain ⟨x, hx, hperm, hin, hframe⟩ := h.grants v hD hv p hp
    obtain ⟨h1, h2⟩ := hv
    exact ⟨x, hx, hframe (by omega), hperm, hin⟩
  · intro v hD hv x hx
    obtain ⟨-, y, hy, hxy, -⟩ := h.old v hD hv x hx
    exact ⟨y, hy, (hxy.frame (hframes v hD y hy)).symm, hxy.perm.symm, hxy.within⟩

end Puts

/-! ## Clearing a range -/

/-- The pages of the range lose their translation, no others do. -/
structure Clears (D : Nat → Prop) (L L' : Nat → Option (Leaf π)) (a n : Nat) : Prop where
  cleared : ∀ v, D v → InRange a n v → L' v = none
  kept : ∀ v, D v → ¬InRange a n v → L' v = L v

namespace Clears

variable {D : Nat → Prop} {L L1 L' : Nat → Option (Leaf π)} {a n m : Nat}

theorem refl (D : Nat → Prop) (L : Nat → Option (Leaf π)) (a : Nat) : Clears D L L a 0 := by
  refine ⟨?_, ?_⟩
  · intro v _ hv
    exact absurd hv.2 (Nat.not_lt.2 hv.1)
  · intro v _ _
    rfl

theorem restrict {K K' : Nat → Option (Leaf π)} (h : Clears D L L' a n)
    (hE : ∀ v, E v → D v) (hK : ∀ v, E v → K v = L v) (hK' : ∀ v, E v → K' v = L' v) :
    Clears E K K' a n := by
  refine ⟨?_, ?_⟩
  · intro v hv hr
    rw [hK' v hv]
    exact h.cleared v (hE v hv) hr
  · intro v hv hr
    rw [hK v hv, hK' v hv]
    exact h.kept v (hE v hv) hr

theorem extend [DecidablePred D'] (h : Clears D' L L' a n)
    (hrest : ∀ v, D v → ¬D' v → ¬InRange a n v ∧ L' v = L v) : Clears D L L' a n := by
  refine ⟨?_, ?_⟩
  · intro v hD hv
    by_cases hD' : D' v
    · exact h.cleared v hD' hv
    · exact absurd hv (hrest v hD hD').1
  · intro v hD hv
    by_cases hD' : D' v
    · exact h.kept v hD' hv
    · exact (hrest v hD hD').2

theorem trans (h : Clears D L L1 a n) (h' : Clears D L1 L' (a + n) m) :
    Clears D L L' a (n + m) := by
  refine ⟨?_, ?_⟩
  · intro v hD hv
    by_cases hsnd : InRange (a + n) m v
    · exact h'.cleared v hD hsnd
    · rw [h'.kept v hD hsnd]
      exact h.cleared v hD ((inRange_add.1 hv).resolve_right hsnd)
  · intro v hD hv
    rw [inRange_add, not_or] at hv
    rw [h'.kept v hD hv.2, h.kept v hD hv.1]

end Clears

end Translation
