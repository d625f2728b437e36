import LuoOS.Klib
import LuoOS.Lib.Runs
import Mathlib.Logic.Function.Basic

/-!
# The reentrant spinlock

`mutex::spinlock<true>` keeps the id of its holder in the atomic word `spin`, 0 when it is free, and
the nesting of its holder in `count`. A hart steps through `lock()` and `unlock()` one access to a
shared variable at a time, and the harts interleave freely. `maxloops` is the largest `xlen_t`: when
it runs out the loop starts over with `lockedby` as it is then, so the counter is left out.

Each round tries `compare_exchange_strong(expected,lockedby)` with `expected` 0, and then
`compare_exchange_strong(lockedby,lockedby)`, which on failure overwrites `lockedby`, the hart's own
id, with the word it found. From then on the hart tries to take the lock in the name of another, so
mutual exclusion holds only where no hart meets a lock that another has.
-/

namespace LuoOS.Mutex

open Function Runs

/-- Where a hart is in the code: outside, before one of the two compare-exchanges of `lock()`,
before `count++`, or before `count--`, the test of `count` or the store of `unlock()`. -/
inductive Pc where
  | out
  | casFree (lockedby : UInt32)
  | casOwn (lockedby : UInt32)
  | inc
  | dec
  | test
  | store
  deriving DecidableEq

/-- The lock and the harts, named by their ids. `depth` is not in the code: it counts the calls of
`lock()` that returned, less those of `unlock()`. -/
structure State where
  spin : UInt32
  count : Int
  pc : UInt32 → Pc
  depth : UInt32 → Nat

def State.init : State := ⟨0, 0, fun _ => .out, fun _ => 0⟩

def compareExchangeStrong (spin expected desired : UInt32) : Bool × UInt32 × UInt32 :=
  if spin = expected then (true, desired, expected) else (false, spin, spin)

/-- What a hart does next. -/
inductive Act where
  | lock
  | unlock
  | run

def step (h : UInt32) (s : State) : Act → Option State
  | .lock =>
    if s.pc h = .out then some { s with pc := update s.pc h (.casFree h) } else none
  | .unlock =>
    if s.pc h = .out ∧ 0 < s.depth h then some { s with pc := update s.pc h .dec }
    else none
  | .run =>
    match s.pc h with
    | .out => none
    | .casFree lockedby =>
      let (ok, spin, _) := compareExchangeStrong s.spin 0 lockedby
      some { s with spin, pc := update s.pc h (if ok then .inc else .casOwn lockedby) }
    | .casOwn lockedby =>
      let (ok, spin, lockedby) := compareExchangeStrong s.spin lockedby lockedby
      some { s with spin, pc := update s.pc h (if ok then .inc else .casFree lockedby) }
    | .inc =>
      some { s with
        count := toInt (s.count + 1)
        pc := update s.pc h .out
        depth := update s.depth h (s.depth h + 1) }
    | .dec =>
      some { s with
        count := toInt (s.count - 1)
        pc := update s.pc h .test
        depth := update s.depth h (s.depth h - 1) }
    | .test =>
      some { s with pc := update s.pc h (if s.count = 0 then .store else .out) }
    | .store => some { s with spin := 0, pc := update s.pc h .out }

def hartStep : State → UInt32 × Act → Except Unit State :=
  ofOption fun s a => step a.1 s a.2

/-- The states that harts reach, none of which has the id 0. -/
abbrev Reach (ok : UInt32 → State → Prop) : State → Prop :=
  Runs.Reach hartStep (fun s a => a.1 ≠ 0 ∧ ok a.1 s) (· = .init)

abbrev runActs (ok : UInt32 → State → Prop) [∀ h s, Decidable (ok h s)] :
    List (UInt32 × Act) → State → Option State :=
  runWhile hartStep fun s a => a.1 ≠ 0 ∧ ok a.1 s

def Exclusive (s : State) : Prop :=
  (∀ h h', 0 < s.depth h → 0 < s.depth h' → h = h') ∧ ∀ h, 0 < s.depth h → s.count = s.depth h

/-- The hart does not look for a free lock while another has it, nor nest beyond an `int`. -/
def Uncontended (h : UInt32) (s : State) : Prop :=
  match s.pc h with
  | .casFree _ => s.spin = 0 ∨ s.spin = h
  | .inc => s.count + 1 < 2 ^ 31
  | _ => True

instance : ∀ h s, Decidable (Uncontended h s) := by
  intro h s
  unfold Uncontended
  cases s.pc h with
  | casFree _ => exact instDecidableOr
  | inc => exact Int.decLt _ _
  | _ => exact instDecidableTrue

/-! ## The invariant -/

def Pc.Owns : Pc → Prop
  | casOwn _ | inc | dec | test | store => True
  | out | casFree _ => False

/-- What every uncontended run keeps. `owner` covers the harts that are inside of a call too. -/
structure Inv (s : State) : Prop where
  lockedby : ∀ h lb, s.pc h = .casFree lb ∨ s.pc h = .casOwn lb → lb = h
  owner : ∀ h, 0 < s.depth h ∨ (s.pc h).Owns → s.spin = h ∧ h ≠ 0
  count : ∀ h, s.spin = h → s.count = s.depth h
  dec : ∀ h, s.pc h = .dec → 0 < s.depth h
  store : ∀ h, s.pc h = .store → s.depth h = 0
  bound : s.count < 2 ^ 31

variable {s : State} {h : UInt32}

theorem Inv.mine {p : Pc} (i : Inv s) (hp : s.pc h = p) (ho : p.Owns) :
    s.spin = h := (i.owner h (.inr (hp ▸ ho))).1

theorem Inv.init : Inv .init where
  lockedby := by simp [State.init]
  owner := by simp [State.init, Pc.Owns]
  count := by simp [State.init]
  dec := by simp [State.init]
  store := by simp [State.init]
  bound := by decide

section Moves

variable {s : State} {h : UInt32}

/-- A hart moves on in its code. -/
theorem Inv.setPc (i : Inv s) {p : Pc} (hlb : ∀ lb, p = .casFree lb ∨ p = .casOwn lb → lb = h)
    (hown : p.Owns → s.spin = h ∧ h ≠ 0) (hdec : p = .dec → 0 < s.depth h)
    (hstore : p = .store → s.depth h = 0) : Inv { s with pc := update s.pc h p } := by
  refine ⟨?_, ?_, i.count, ?_, ?_, i.bound⟩
  · intro h' lb he
    dsimp only at he
    by_cases hh : h' = h
    · subst hh
      rw [update_self] at he
      exact hlb lb he
    · rw [update_of_ne hh] at he
      exact i.lockedby h' lb he
  · intro h' he
    dsimp only at he ⊢
    by_cases hh : h' = h
    · subst hh
      rw [update_self] at he
      rcases he with hd | hp
      · exact i.owner h' (.inl hd)
      · exact hown hp
    · rw [update_of_ne hh] at he
      exact i.owner h' he
  · intro h' he
    dsimp only at he
    by_cases hh : h' = h
    · subst hh
      rw [update_self] at he
      exact hdec he
    · rw [update_of_ne hh] at he
      exact i.dec h' he
  · intro h' he
    dsimp only at he
    by_cases hh : h' = h
    · subst hh
      rw [update_self] at he
      exact hstore he
    · rw [update_of_ne hh] at he
      exact i.store h' he

theorem Inv.setDepth (i : Inv s) (hspin : s.spin = h) (h0 : h ≠ 0) {d : Nat}
    (hd : d < 2 ^ 31) (hdec : s.pc h ≠ .dec) (hstore : s.pc h ≠ .store) :
    Inv { s with count := d, depth := update s.depth h d } := by
  refine ⟨i.lockedby, ?_, ?_, ?_, ?_, ?_⟩
  · intro h' he
    by_cases hh : h' = h
    · rw [hh]
      exact ⟨hspin, h0⟩
    · simp only [update_of_ne hh] at he
      exact i.owner h' he
  · intro h' he
    obtain rfl : h' = h := he.symm.trans hspin
    simp
  · intro h' he
    have hh : h' ≠ h := fun e => hdec (e ▸ he)
    simp only [update_of_ne hh]
    exact i.dec h' he
  · intro h' he
    have hh : h' ≠ h := fun e => hstore (e ▸ he)
    simp only [update_of_ne hh]
    exact i.store h' he
  · dsimp only
    omega

theorem Inv.depth_of_free (i : Inv s) (hspin : s.spin = 0) (h : UInt32) :
    s.depth h = 0 ∧ ¬(s.pc h).Owns := by
  constructor
  · by_contra hd
    obtain ⟨h1, h2⟩ := i.owner h (.inl (Nat.pos_of_ne_zero hd))
    exact h2 (h1.symm.trans hspin)
  · intro hp
    obtain ⟨h1, h2⟩ := i.owner h (.inr hp)
    exact h2 (h1.symm.trans hspin)

theorem Inv.acquire (i : Inv s) (hspin : s.spin = 0) : Inv { s with spin := h } := by
  refine ⟨i.lockedby, ?_, ?_, i.dec, i.store, i.bound⟩
  · rintro h' (hd | hp)
    · exact absurd (i.depth_of_free hspin h').1 (Nat.ne_of_gt hd)
    · exact absurd hp (i.depth_of_free hspin h').2
  · rintro h' -
    rw [i.count 0 hspin, (i.depth_of_free hspin 0).1, (i.depth_of_free hspin h').1]

theorem Inv.release (i : Inv s) (hspin : s.spin = h) (hd : s.depth h = 0) (hp : ¬(s.pc h).Owns) :
    Inv { s with spin := 0 } := by
  have hnone : ∀ h', ¬(0 < s.depth h' ∨ (s.pc h').Owns) := by
    intro h' ho
    obtain rfl : h = h' := hspin.symm.trans (i.owner h' ho).1
    rcases ho with ho | ho
    · exact Nat.ne_of_gt ho hd
    · exact hp ho
  refine ⟨i.lockedby, fun h' ho => absurd ho (hnone h'), ?_, i.dec, i.store, i.bound⟩
  rintro h' -
  have hd' : s.depth h' = 0 := Nat.eq_zero_of_not_pos fun ho => hnone h' (.inl ho)
  rw [i.count h hspin, hd, hd']

end Moves

/-- **A step keeps the invariant** when the hart does not meet another's lock. -/
theorem Inv.step {s' : State} {a : Act} (i : Inv s) (h0 : h ≠ 0)
    (hok : Uncontended h s) (hs : step h s a = some s') : Inv s' := by
  cases a with
  | lock =>
    simp only [Mutex.step, Option.ite_none_right_eq_some, Option.some.injEq] at hs
    obtain ⟨-, rfl⟩ := hs
    refine i.setPc ?_ ?_ ?_ ?_ <;> simp [Pc.Owns]
  | unlock =>
    simp only [Mutex.step, Option.ite_none_right_eq_some, Option.some.injEq] at hs
    obtain ⟨⟨-, hd⟩, rfl⟩ := hs
    exact i.setPc (by simp) (fun _ => i.owner h (.inl hd)) (fun _ => hd) (by simp)
  | run =>
    simp only [Mutex.step] at hs
    split at hs
    · cases hs
    · rename_i lb hp
      obtain rfl := i.lockedby h lb (.inl hp)
      have hok : s.spin = 0 ∨ s.spin = lb := by simpa only [Uncontended, hp] using hok
      rcases hok with hfree | hmine
      · simp only [compareExchangeStrong, hfree, if_true, Option.some.injEq] at hs
        subst hs
        exact (i.acquire hfree).setPc (by simp) (fun _ => ⟨rfl, h0⟩) (by simp) (by simp)
      have hne : s.spin ≠ 0 := hmine ▸ h0
      simp only [compareExchangeStrong, hne, if_false, Option.some.injEq] at hs
      subst hs
      exact i.setPc (by simp) (fun _ => ⟨hmine, h0⟩) (by simp) (by simp)
    · rename_i lb hp
      obtain rfl := i.lockedby h lb (.inr hp)
      have hmine := i.mine hp trivial
      simp only [compareExchangeStrong, hmine, if_true, Option.some.injEq] at hs
      subst hs
      have hsame : { s with spin := lb } = s := by rw [← hmine]
      rw [← hsame] at i
      exact i.setPc (by simp) (fun _ => ⟨rfl, h0⟩) (by simp) (by simp)
    · rename_i hp
      have hmine := i.mine hp trivial
      have hcount := i.count h hmine
      have hlt : s.count + 1 < 2 ^ 31 := by simpa only [Uncontended, hp] using hok
      cases hs
      have hc : toInt (s.count + 1) = ((s.depth h + 1 : Nat) : Int) := by
        rw [toInt_of_nonneg (by omega) hlt]
        omega
      rw [hc]
      have i' := i.setPc (h := h) (p := .out) (by simp) (by simp [Pc.Owns]) (by simp) (by simp)
      exact i'.setDepth hmine h0 (by omega) (by simp) (by simp)
    · rename_i hp
      have hmine := i.mine hp trivial
      have hcount := i.count h hmine
      have hpos := i.dec h hp
      have hlt := i.bound
      cases hs
      have hc : toInt (s.count - 1) = ((s.depth h - 1 : Nat) : Int) := by
        rw [toInt_of_nonneg (by omega) (by omega)]
        omega
      rw [hc]
      have i' := i.setPc (h := h) (p := .test) (by simp) (fun _ => ⟨hmine, h0⟩) (by simp) (by simp)
      exact i'.setDepth hmine h0 (by omega) (by simp) (by simp)
    · rename_i hp
      have hmine := i.mine hp trivial
      have hcount := i.count h hmine
      cases hs
      refine i.setPc ?_ (fun _ => ⟨hmine, h0⟩) ?_ ?_
      · split <;> simp
      · split <;> simp
      · split
        · omega
        · simp
    · rename_i hp
      have hmine := i.mine hp trivial
      cases hs
      have i' := i.setPc (h := h) (p := .out) (by simp) (by simp [Pc.Owns]) (by simp) (by simp)
      exact i'.release hmine (i.store h hp) (by simp [Pc.Owns])

theorem Reach.inv (hr : Reach Uncontended s) : Inv s :=
  hr.invariant Inv (by rintro _ rfl; exact .init)
    fun _ _ _ i ok h => i.step ok.1 ok.2 (ofOption_eq_ok.1 h)

theorem Inv.exclusive (i : Inv s) : Exclusive s := by
  refine ⟨?_, ?_⟩
  · intro h h' hd hd'
    exact (i.owner h (.inl hd)).1.symm.trans (i.owner h' (.inl hd')).1
  · intro h hd
    exact i.count h (i.owner h (.inl hd)).1

/-- **Mutual exclusion holds in every uncontended run.** -/
theorem exclusive_uncontended {s : State} (hr : Reach Uncontended s) : Exclusive s :=
  hr.inv.exclusive

/-- Hart 1 takes the lock twice and gives it up twice, and hart 2 takes it. -/
def handover : List (UInt32 × Act) :=
  [(1, .lock), (1, .run), (1, .run), (1, .lock), (1, .run), (1, .run), (1, .run),
    (1, .unlock), (1, .run), (1, .run), (1, .unlock), (1, .run), (1, .run), (1, .run),
    (2, .lock), (2, .run), (2, .run)]

theorem exclusive_nested : ∃ s, runActs Uncontended handover .init = some s ∧
    (s.depth 1 = 0 ∧ s.depth 2 = 1 ∧ s.spin = 2) ∧ Exclusive s := by
  obtain ⟨s, hs, hr, hd⟩ := exists_reach hartStep (fun s a => a.1 ≠ 0 ∧ Uncontended a.1 s) handover
    (I := (· = .init)) rfl (fun s => s.depth 1 = 0 ∧ s.depth 2 = 1 ∧ s.spin = 2) (by decide +kernel)
  exact ⟨s, hs, hd, exclusive_uncontended hr⟩

/-! ## A contended run -/

/-- Hart 1 takes the lock. Hart 2 fails both compare-exchanges, the second of which makes its
`lockedby` 1; in the next round the second one succeeds. -/
def contended : List (UInt32 × Act) :=
  [(1, .lock), (1, .run), (1, .run),
    (2, .lock), (2, .run), (2, .run), (2, .run), (2, .run), (2, .run)]

theorem not_exclusive : ¬∀ s, Reach (fun _ _ => True) s → Exclusive s := by
  intro h
  have hdepth : (runActs (fun _ _ => True) contended .init).map
      (fun s => (s.depth 1, s.depth 2)) = some (1, 1) := by decide +kernel
  obtain ⟨s, hs, hd⟩ := Option.map_eq_some_iff.1 hdepth
  obtain ⟨h1, h2⟩ := Prod.mk.inj hd
  have hexcl := (h s (reach_of_runWhile rfl hs)).1 1 2 (by omega) (by omega)
  exact absurd hexcl (by decide)

end LuoOS.Mutex
