import LuoOS.Klib
import Mathlib.Algebra.BigOperators.Group.Finset.Basic
import Mathlib.Tactic.IntervalCases

/-!
# FAT timestamps

`getTimeSpec` turns a date and a time of a record into Unix time by the formula for a year that
starts in March, given the month and the year as they are. `civilDays_ahead` counts the days by
which it is ahead; no timestamp is right.
-/

namespace LuoOS.Fs

/-- The fields `tv_sec` and `tv_nsec`. -/
def getTimeSpec (a_date a_time a_tenth : Nat) : Int × Int :=
  let day : Nat := a_date % 2 ^ 5
  let month : Nat := a_date / 2 ^ 5 % 2 ^ 4
  let year : Nat := a_date / 2 ^ 9 % 2 ^ 7 + 1980
  let second : Nat := a_time % 2 ^ 5 * 2 + a_tenth / 100
  let minute : Nat := a_time / 2 ^ 5 % 2 ^ 6
  let hour : Nat := a_time / 2 ^ 11 % 2 ^ 5
  let days : Nat := year / 4 - year / 100 + year / 400 + 365 * year + 367 * month / 12 + day
  (toInt (((days : Int) - 719499) * 86400 + hour * 3600 + minute * 60 + second),
    (a_tenth % 100 * 10000000 : Nat))

/-! ## The calendar -/

def leap (year : Nat) : Nat := if 4 ∣ year ∧ (¬100 ∣ year ∨ 400 ∣ year) then 1 else 0

def monthDays (year month : Nat) : Nat :=
  if month = 2 then 28 + leap year else if month ∈ [4, 6, 9, 11] then 30 else 31

/-- The days from 1970-01-01. -/
def civilDays (year month day : Nat) : Nat :=
  ∑ y ∈ Finset.range (year - 1970), (365 + leap (1970 + y)) +
    ∑ m ∈ Finset.range (month - 1), monthDays year (m + 1) + (day - 1)

/-- A date and a time of a directory record. -/
structure Stamp where
  year : Nat
  month : Nat
  day : Nat
  hour : Nat
  minute : Nat
  second : Nat
  tenth : Nat

namespace Stamp

/-- The values that FAT defines. -/
structure Valid (t : Stamp) : Prop where
  year : 1980 ≤ t.year ∧ t.year ≤ 2107
  month : 1 ≤ t.month ∧ t.month ≤ 12
  day : 1 ≤ t.day ∧ t.day ≤ monthDays t.year t.month
  hour : t.hour < 24
  minute : t.minute < 60
  second : t.second < 30
  tenth : t.tenth < 200

def date (t : Stamp) : Nat := (t.year - 1980) * 2 ^ 9 + t.month * 2 ^ 5 + t.day

/-- The seconds are counted in twos. -/
def time (t : Stamp) : Nat := t.hour * 2 ^ 11 + t.minute * 2 ^ 5 + t.second

def unix (t : Stamp) : Nat :=
  civilDays t.year t.month t.day * 86400 + t.hour * 3600 + t.minute * 60 + t.second * 2 +
    t.tenth / 100

def Right (t : Stamp) : Prop :=
  let (tv_sec, tv_nsec) := getTimeSpec t.date t.time t.tenth
  tv_sec = t.unix ∧ 0 ≤ tv_nsec ∧ tv_nsec < 10 ^ 9

end Stamp

theorem leap_le (year : Nat) : leap year ≤ 1 := by
  unfold leap
  split <;> decide

theorem monthDays_le (year month : Nat) : monthDays year month ≤ 31 := by
  have := leap_le year
  unfold monthDays
  split_ifs <;> omega

def leaps (year : Nat) : Nat := year / 4 - year / 100 + year / 400

theorem leaps_succ (n : Nat) : leaps (n + 1) = leaps n + leap (n + 1) := by
  unfold leaps leap
  rw [Nat.succ_div, Nat.succ_div, Nat.succ_div]
  split_ifs <;> omega

theorem sum_leap (n : Nat) :
    ∑ y ∈ Finset.range n, (365 + leap (1970 + y)) + 477 = 365 * n + leaps (1969 + n) := by
  induction n with
  | zero => rfl
  | succ n ih =>
    have := leaps_succ (1969 + n)
    rw [Finset.sum_range_succ]
    rw [show 1969 + n + 1 = 1970 + n by omega] at this
    rw [show 1969 + (n + 1) = 1970 + n by omega]
    omega

/-- **The formula is ahead** by 59 to 63 days. -/
theorem civilDays_ahead {year month day : Nat} (hy : 1980 ≤ year) (hm : 1 ≤ month ∧ month ≤ 12)
    (hd : 1 ≤ day) :
    civilDays year month day + 719558 ≤ leaps year + 365 * year + 367 * month / 12 + day ∧
      leaps year + 365 * year + 367 * month / 12 + day ≤ civilDays year month day + 719562 := by
  obtain ⟨n, rfl⟩ := Nat.exists_eq_add_of_le hy
  have hsum := sum_leap (10 + n)
  have hstep := leaps_succ (1979 + n)
  have hle := leap_le (1980 + n)
  rw [show 1969 + (10 + n) = 1979 + n by omega] at hsum
  rw [show 1979 + n + 1 = 1980 + n by omega] at hstep
  unfold civilDays
  rw [show 1980 + n - 1970 = 10 + n by omega]
  obtain ⟨h1, h2⟩ := hm
  interval_cases month <;> simp [Finset.sum_range_succ, monthDays] <;> omega

/-- **No timestamp is converted to its Unix time**, also where the `int` overflows: 63 days are
less than 2³² seconds. -/
theorem timeSpec_not_right {t : Stamp} (h : t.Valid) : ¬t.Right := by
  obtain ⟨⟨hy, hy'⟩, hm, ⟨hd, hd'⟩, hhour, hminute, hsecond, -⟩ := h
  have hd31 := hd'.trans (monthDays_le _ _)
  have hahead := civilDays_ahead hy hm hd
  have hday : t.date % 2 ^ 5 = t.day := by unfold Stamp.date; omega
  have hmonth : t.date / 2 ^ 5 % 2 ^ 4 = t.month := by unfold Stamp.date; omega
  have hyear : t.date / 2 ^ 9 % 2 ^ 7 + 1980 = t.year := by unfold Stamp.date; omega
  have hs : t.time % 2 ^ 5 = t.second := by unfold Stamp.time; omega
  have hmin : t.time / 2 ^ 5 % 2 ^ 6 = t.minute := by unfold Stamp.time; omega
  have hh : t.time / 2 ^ 11 % 2 ^ 5 = t.hour := by unfold Stamp.time; omega
  rintro ⟨hsec, -⟩
  have hmod := congrArg (· % ((2 ^ 32 : Nat) : Int)) hsec
  simp only [toInt, hday, hmonth, hyear, hs, hmin, hh, Int.bmod_emod, Stamp.unix] at hmod
  unfold leaps at hahead
  omega

theorem first_valid : Stamp.Valid ⟨1980, 1, 1, 0, 0, 0, 0⟩ :=
  ⟨by decide, by decide, by decide, by decide, by decide, by decide, by decide⟩

theorem timeSpec_not_right_first : ¬Stamp.Right ⟨1980, 1, 1, 0, 0, 0, 0⟩ :=
  timeSpec_not_right first_valid

/-- 1980-01-01 becomes 1980-03-01. -/
theorem not_timeSpec_right : ∃ t : Stamp, t.Valid ∧
    getTimeSpec t.date t.time t.tenth = (320716800, 0) ∧ t.unix = 315532800 :=
  ⟨_, first_valid, by decide +kernel⟩

end LuoOS.Fs
