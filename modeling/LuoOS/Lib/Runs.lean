import Mathlib.Logic.Basic

/-!
# Runs of a fallible step function

A system is a step function on its states that may fail. Each step of a run is allowed by a
condition on the state it is made in; `Reach` are the states such runs get to, and `Reach.invariant`
is the rule for them. `runWhile` executes a run, to show by evaluation that a state is reached.
-/

namespace Runs

variable {σ ι ε : Type} {step : σ → ι → Except ε σ} {ok ok' : σ → ι → Prop} {init : σ → Prop}

/-- The states that runs from `init` reach by steps that are `ok` where they are made, and return.
-/
inductive Reach (step : σ → ι → Except ε σ) (ok : σ → ι → Prop) (init : σ → Prop) : σ → Prop
  | start {s : σ} (h : init s) : Reach step ok init s
  | next {s s' : σ} {i : ι} (h : Reach step ok init s) (hok : ok s i) (hstep : step s i = .ok s') :
      Reach step ok init s'

/-- What holds at the start and is kept by every step holds in every state reached. -/
theorem Reach.invariant (P : σ → Prop) (hinit : ∀ s, init s → P s)
    (hkeep : ∀ s s' i, P s → ok s i → step s i = .ok s' → P s') {s : σ}
    (h : Reach step ok init s) : P s := by
  induction h with
  | start h => exact hinit _ h
  | next _ hok hstep ih => exact hkeep _ _ _ ih hok hstep

def runWhile (step : σ → ι → Except ε σ) (ok : σ → ι → Prop) [∀ s i, Decidable (ok s i)] :
    List ι → σ → Option σ
  | [], s => some s
  | i :: is, s => if ok s i then (step s i).toOption.bind (runWhile step ok is) else none

theorem Reach.runWhile [∀ s i, Decidable (ok s i)] {is : List ι} {s s' : σ}
    (h : Reach step ok init s) (hrun : runWhile step ok is s = some s') :
    Reach step ok init s' := by
  induction is generalizing s with
  | nil =>
    cases hrun
    exact h
  | cons i is ih =>
    unfold Runs.runWhile at hrun
    split at hrun
    · rename_i hok
      obtain ⟨s1, hstep, hrest⟩ := Option.bind_eq_some_iff.1 hrun
      refine ih (h.next hok ?_) hrest
      cases hi : step s i with
      | error e => rw [hi] at hstep; cases hstep
      | ok s2 =>
        rw [hi] at hstep
        rw [Option.some.inj hstep]
    · cases hrun

/-- A step function that says no instead of failing. -/
def ofOption (step : σ → ι → Option σ) (s : σ) (i : ι) : Except Unit σ :=
  (step s i).elim (.error ()) .ok

@[simp] theorem ofOption_eq_ok {step : σ → ι → Option σ} {s s' : σ} {i : ι} :
    ofOption step s i = .ok s' ↔ step s i = some s' := by
  unfold ofOption
  cases step s i <;> simp

theorem ofOption_toOption (step : σ → ι → Option σ) (s : σ) (i : ι) :
    (ofOption step s i).toOption = step s i := by
  unfold ofOption
  cases step s i <;> rfl

theorem reach_of_runWhile [∀ s i, Decidable (ok s i)] {is : List ι} {s s' : σ} (hs : init s)
    (hrun : runWhile step ok is s = some s') : Reach step ok init s' :=
  (Reach.start hs).runWhile hrun

/-- A run that is computed reaches a state with what is observed of it. -/
theorem exists_reach (step : σ → ι → Except ε σ) (ok : σ → ι → Prop) [∀ s i, Decidable (ok s i)]
    (is : List ι) {I : σ → Prop} {s : σ} (hs : I s) (P : σ → Prop) [DecidablePred P]
    (h : (Runs.runWhile step ok is s).any (P ·) = true) :
    ∃ s', Runs.runWhile step ok is s = some s' ∧ Reach step ok I s' ∧ P s' := by
  obtain ⟨s', hrun, hP⟩ := (Option.any_eq_true ..).1 h
  exact ⟨s', hrun, reach_of_runWhile hs hrun, of_decide_eq_true hP⟩

end Runs
