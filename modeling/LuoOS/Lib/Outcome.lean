import Mathlib.Logic.Basic

/-!
# What a fallible computation can end with

`Post E Q x` says what is known of the end of a computation that may fail: a result satisfies `Q`,
and a failure satisfies `E`. `Post.bind` puts such statements together along a `do` block. A loop
that cannot fail returns with the invariant of its rounds (`foldlM_range`).
-/

namespace Outcome

variable {ε α β : Type} {E E' : ε → Prop} {Q : α → Prop} {R : β → Prop} {x : Except ε α}
  {f : α → Except ε β}

/-- A result satisfies `Q`, and a failure satisfies `E`. -/
inductive Post (E : ε → Prop) (Q : α → Prop) : Except ε α → Prop
  | ok {a : α} (h : Q a) : Post E Q (.ok a)
  | error {e : ε} (h : E e) : Post E Q (.error e)

namespace Post

theorem bind (hx : Post E Q x) (hf : ∀ a, Q a → Post E R (f a)) : Post E R (x >>= f) := by
  cases hx with
  | ok h => exact hf _ h
  | error h => exact .error h

theorem mono {Q' : α → Prop} (hE : ∀ e, E e → E' e) (hQ : ∀ a, Q a → Q' a) (hx : Post E Q x) :
    Post E' Q' x := by
  cases hx with
  | ok h => exact .ok (hQ _ h)
  | error h => exact .error (hE _ h)

/-- The failures stay, the results are known to satisfy more. -/
theorem weaken {Q' : α → Prop} (hx : Post E Q x) (hQ : ∀ a, Q a → Q' a) : Post E Q' x :=
  hx.mono (fun _ h => h) hQ

theorem of_ok (hx : Post E Q x) {a : α} (h : x = .ok a) : Q a := by
  subst h
  cases hx with
  | ok h => exact h

theorem of_error (hx : Post E Q x) {e : ε} (h : x = .error e) : E e := by
  subst h
  cases hx with
  | error h => exact h

end Post

/-- A loop over the numbers below `n` returns if each round does, with what the rounds keep. -/
theorem foldlM_range {step : α → Nat → Except ε α} {P : Nat → α → Prop} {a : α} (ha : P 0 a)
    {n : Nat} (hstep : ∀ k < n, ∀ a, P k a → ∃ a', step a k = .ok a' ∧ P (k + 1) a') :
    ∃ a', (List.range n).foldlM step a = .ok a' ∧ P n a' := by
  induction n with
  | zero => exact ⟨a, rfl, ha⟩
  | succ n ih =>
    obtain ⟨a1, hfold, h1⟩ := ih fun k hk => hstep k (Nat.lt_succ_of_lt hk)
    obtain ⟨a2, hlast, h2⟩ := hstep n (Nat.lt_succ_self n) a1 h1
    refine ⟨a2, ?_, h2⟩
    rw [List.range_succ, List.foldlM_append, hfold]
    change List.foldlM step a1 [n] = _
    rw [List.foldlM_cons, hlast]
    rfl

end Outcome
