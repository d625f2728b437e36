import Mathlib.Tactic.Ring

/-!
# Machine words and the `klib` helpers

`xlen_t` is a 64-bit unsigned word and `int` a 32-bit signed one. Values of either are plain
numbers; `xlen` and `toInt` stand wherever the source stores a result in such a variable, so a
wrap-around is visible where it happens. `Fault` collects the ways a kernel function does not
return.
-/

namespace LuoOS

def xlen (z : Int) : Nat := (z % 2 ^ 64).toNat

def toInt (z : Int) : Int := z.bmod (2 ^ 32)

theorem xlen_of_lt {n : Nat} (h : n < 2 ^ 64) : xlen n = n := by
  unfold xlen
  omega

theorem xlen_of_nonneg {z : Int} (h0 : 0 ≤ z) (h : z < 2 ^ 64) : (xlen z : Int) = z := by
  unfold xlen
  omega

theorem xlen_add {a b : Nat} (h : a + b < 2 ^ 64) : xlen ((a : Int) + b) = a + b := by
  unfold xlen
  omega

theorem xlen_sub {a b : Nat} (hle : b ≤ a) (h : a < 2 ^ 64) : xlen ((a : Int) - b) = a - b := by
  unfold xlen
  omega

theorem xlen_lt (z : Int) : xlen z < 2 ^ 64 := by
  unfold xlen
  omega

theorem toInt_of_lt {n : Nat} (h : n < 2 ^ 31) : toInt n = n := by
  unfold toInt
  rw [Int.bmod_def]
  split <;> omega

theorem toInt_of_nonneg {z : Int} (h0 : 0 ≤ z) (h : z < 2 ^ 31) : toInt z = z := by
  obtain ⟨n, rfl⟩ := Int.eq_ofNat_of_zero_le h0
  exact toInt_of_lt (by omega)

abbrev Tid := Nat
abbrev Pid := Nat

instance neZero_31 : NeZero 31 := ⟨by decide⟩
instance neZero_512 : NeZero 512 := ⟨by decide⟩

/-! ## Faults -/

/-- How a kernel function ends if it does not return. -/
inductive Fault where
  | panic (s : String)
  | assertion (cond : String)
  | outOfBounds (index : Int)
  | wildPointer
  | diverges
  deriving DecidableEq, Repr

abbrev Kern := Except Fault

def assert_ (cond : Bool) (s : String) : Kern Unit :=
  if cond then .ok () else .error (.assertion s)

@[simp] theorem assert_true (s : String) : assert_ true s = .ok () := rfl

variable {α ε β : Type} {x : Except ε α}

@[simp] theorem ok_bind (a : α) (f : α → Except ε β) :
    ((Except.ok a : Except ε α) >>= f) = f a := rfl

@[simp] theorem error_bind {β : Type} (e : ε) (f : α → Except ε β) :
    ((Except.error e : Except ε α) >>= f) = .error e := rfl

/-- A `do` block that returns returns from its first step. -/
theorem bind_eq_ok {f : α → Except ε β} {b : β}
    (h : (x >>= f) = .ok b) : ∃ a, x = .ok a ∧ f a = .ok b := by
  cases x with
  | error e => cases h
  | ok a => exact ⟨a, rfl, h⟩

theorem toOption_eq_some {a : α} : x.toOption = some a ↔ x = .ok a := by
  cases x with
  | error e => simp [Except.toOption]
  | ok b => simp [Except.toOption]

def fault {ε α : Type} : Except ε α → Option ε
  | .error e => some e
  | .ok _ => none

theorem fault_eq_some {e : ε} : fault x = some e ↔ x = .error e := by
  cases x with
  | error e' =>
    exact ⟨fun h => congrArg _ (Option.some.inj h), fun h => congrArg _ (Except.error.inj h)⟩
  | ok a => exact ⟨nofun, nofun⟩

/-- What an updated table holds is the new entry or one of the others. -/
theorem update_eq_some {κ : Type} [DecidableEq κ] {f : κ → Option α} {k i : κ} {o : Option α}
    {a : α} : Function.update f k o i = some a ↔ i = k ∧ o = some a ∨ i ≠ k ∧ f i = some a := by
  by_cases h : i = k
  · simp [h]
  · simp [h]

/-! ## `log2up` -/

namespace Klib

def log2upLoop : Nat → Nat → Nat → Nat → Nat
  | 0, _, i, r => i + r
  | fuel + 1, a, i, r =>
    if a > 1 then log2upLoop fuel (a >>> 1) (i + 1) (r ||| (a &&& 1)) else i + r

/-- `klib::log2up`. The argument is an `xlen_t`, so the loop shifts at most 63 times. -/
def log2up (a : Nat) : Nat := log2upLoop 64 a 0 0

/-- Through the loop, `a + r` is the argument divided by `2 ^ i` and rounded up. -/
theorem log2upLoop_le_iff (k : Nat) : ∀ (fuel a i r : Nat), 1 ≤ a → a < 2 ^ (fuel + 1) → r ≤ 1 →
    (log2upLoop fuel a i r ≤ k ↔ i ≤ k ∧ a + r ≤ 2 ^ (k - i)) := by
  have small : ∀ (i r : Nat), r ≤ 1 → (i + r ≤ k ↔ i ≤ k ∧ 1 + r ≤ 2 ^ (k - i)) := by
    intro i r hr
    by_cases hik : i < k
    · have h2 : 2 ^ 1 ≤ 2 ^ (k - i) := Nat.pow_le_pow_right (by omega) (by omega)
      omega
    · have h1 : k - i = 0 := by omega
      rw [h1]
      omega
  intro fuel
  induction fuel with
  | zero =>
    intro a i r ha hlt hr
    have hone : a = 1 := by omega
    subst hone
    exact small i r hr
  | succ fuel ih =>
    intro a i r ha hlt hr
    unfold log2upLoop
    split
    · have hbit : r ||| (a &&& 1) = if r = 0 ∧ a % 2 = 0 then 0 else 1 := by
        have hr' : r = 0 ∨ r = 1 := by omega
        rcases hr' with rfl | rfl <;> rcases Nat.mod_two_eq_zero_or_one a with h | h <;> simp [h]
      rw [Nat.shiftRight_one, hbit]
      rw [ih (a / 2) (i + 1) _ (by omega) (by rw [pow_succ] at hlt; omega) (by split <;> omega)]
      by_cases hik : i + 1 ≤ k
      · have hpow : 2 ^ (k - i) = 2 * 2 ^ (k - (i + 1)) := by
          rw [← pow_succ', show k - i = k - (i + 1) + 1 by omega]
        split <;> omega
      have hpow : i ≤ k → 2 ^ (k - i) = 1 := by
        intro h
        rw [show k - i = 0 by omega, pow_zero]
      constructor
      · intro h
        exact absurd h.1 hik
      · omega
    · have hone : a = 1 := by omega
      subst hone
      exact small i r hr

variable {a k : Nat}

/-- **`log2up` rounds up**: it is the least `k` with `a ≤ 2 ^ k`. -/
theorem log2up_le_iff (h : a < 2 ^ 64) : log2up a ≤ k ↔ a ≤ 2 ^ k := by
  rcases Nat.eq_zero_or_pos a with rfl | hpos
  · have h0 : log2up 0 = 0 := by decide
    rw [h0]
    simp
  · unfold log2up
    rw [log2upLoop_le_iff k 64 a 0 0 hpos (by omega) (by omega)]
    simp

theorem le_two_pow_log2up (h : a < 2 ^ 64) : a ≤ 2 ^ log2up a :=
  (log2up_le_iff h).1 le_rfl

theorem two_pow_lt_of_lt_log2up (h : a < 2 ^ 64) (hk : k < log2up a) : 2 ^ k < a := by
  by_contra hle
  have := (log2up_le_iff h).2 (Nat.le_of_not_lt hle)
  omega

theorem log2up_two_pow (h : k < 64) : log2up (2 ^ k) = k := by
  have hlt : 2 ^ k < 2 ^ 64 := Nat.pow_lt_pow_right (by omega) h
  apply Nat.le_antisymm
  · exact (log2up_le_iff hlt).2 le_rfl
  · exact (Nat.pow_le_pow_iff_right (by omega)).1 (le_two_pow_log2up hlt)

end Klib

end LuoOS
