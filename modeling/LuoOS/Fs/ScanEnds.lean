import LuoOS.Fs.DirScan

/-!
# Scans of a directory that return

`entNext` goes from record to record until the end of the chain, a free record or a name, and
`entSearch` calls it again behind what it found. For a table under which the chain of the directory
ends they return whatever the records are; under any other there are records for which they do not
(`scan_returns`). The chain has to end before 4 GiB, and 672 bytes before for `entSearch`: a long
name can count 21 records, and an offset that wraps around starts over.
-/

namespace LuoOS.Fs

open Outcome DirEnt

namespace SuperBlock

variable (sb : SuperBlock) (d : Disk)

/-- The cluster behind `c`. The end of the chain is recognised in an `int`. -/
def next (c : Nat) : Option Nat :=
  if (FAT32_EOC : Int) ≤ toInt (sb.fatRead d c) then none else some (sb.fatRead d c)

def nth : Nat → Nat → Option Nat
  | c, 0 => some c
  | c, k + 1 => (sb.next d c).bind fun c' => nth c' k

/-- The chain ends, and has at most `size` bytes. -/
def Ends (first size : Nat) : Prop := ∃ n, sb.nth d first n = none ∧ sb.bytsPerClus * n ≤ size

variable {sb d} {c c' k : Nat}

theorem nth_succ (h : sb.next d c = some c') : sb.nth d c (k + 1) = sb.nth d c' k := by
  rw [nth, h, Option.bind_some]

theorem nth_succ_none (h : sb.next d c = none) : sb.nth d c (k + 1) = none := by
  rw [nth, h, Option.bind_none]

theorem nth_add (c a b : Nat) : sb.nth d c (a + b) = (sb.nth d c a).bind (sb.nth d · b) := by
  induction a generalizing c with
  | zero => rw [Nat.zero_add, nth, Option.bind_some]
  | succ a ih =>
    rw [Nat.succ_add_eq_add_succ, Nat.add_succ]
    cases h : sb.next d c with
    | none => rw [nth_succ_none h, nth_succ_none h, Option.bind_none]
    | some c' => rw [nth_succ h, nth_succ h, ih]

theorem nth_congr {d' : Disk} (h : ∀ x, sb.fatRead d' x = sb.fatRead d x) (c k : Nat) :
    sb.nth d' c k = sb.nth d c k := by
  induction k generalizing c with
  | zero => rfl
  | succ k ih =>
    unfold nth next
    rw [h]
    simp [ih]

end SuperBlock

/-! ## The walk along a chain -/

namespace DirEnt

variable {sb : SuperBlock} {d : Disk} {e : DirEnt}

theorem relocForward_nth (n : Nat) : relocForward sb false n d e = .ok
    ((sb.nth d e.curClus n).elim (false, d, { e with curClus := e.firstClus, clusCnt := 0 })
      fun c => (true, d, { e with curClus := c, clusCnt := e.clusCnt + n })) := by
  induction n generalizing e with
  | zero => rfl
  | succ n ih =>
    unfold relocForward
    by_cases hend : (FAT32_EOC : Int) ≤ toInt (sb.fatRead d e.curClus)
    · rw [SuperBlock.nth_succ_none (if_pos hend), if_pos hend]
      rfl
    · rw [SuperBlock.nth_succ (if_neg hend), if_neg hend, ih]
      simp [Nat.add_assoc, Nat.add_comm 1 n]

/-- Going back compares a `uint32`, and a number above `2 ^ 31` makes it panic. -/
theorem relocRestart_nth (n : Nat) :
    (relocRestart sb d n e = .error (.panic "relocClus") ∧
      ∃ k c, sb.nth d e.curClus k = some c ∧ FAT32_EOC ≤ sb.fatRead d c ∧ k < n) ∨
    ∃ c, sb.nth d e.curClus n = some c ∧
      relocRestart sb d n e = .ok { e with curClus := c, clusCnt := e.clusCnt + n } := by
  induction n generalizing e with
  | zero => exact .inr ⟨_, rfl, rfl⟩
  | succ n ih =>
    unfold relocRestart
    by_cases hend : FAT32_EOC ≤ sb.fatRead d e.curClus
    · exact .inl ⟨by rw [if_pos hend], 0, _, rfl, hend, Nat.succ_pos n⟩
    · have hnext : sb.next d e.curClus = some (sb.fatRead d e.curClus) := by
        unfold FAT32_EOC at hend
        refine if_neg ?_
        rw [toInt_of_lt (by omega)]
        unfold FAT32_EOC
        omega
      rw [if_neg hend]
      rcases @ih { e with curClus := sb.fatRead d e.curClus, clusCnt := e.clusCnt + 1 } with
        ⟨hpanic, k, c, hk, hc, hlt⟩ | ⟨c, hc, hok⟩
      · exact .inl ⟨hpanic, k + 1, c, (SuperBlock.nth_succ hnext).trans hk, hc, Nat.succ_lt_succ hlt⟩
      · refine .inr ⟨c, (SuperBlock.nth_succ hnext).trans hc, hok.trans ?_⟩
        simp [Nat.add_assoc, Nat.add_comm 1 n]

theorem relocClus_nth (hat : sb.nth d e.firstClus e.clusCnt = some e.curClus) (off : Nat) :
    (relocClus sb d e off false = .error (.panic "relocClus") ∧
      ∃ k c, sb.nth d e.firstClus k = some c ∧ FAT32_EOC ≤ sb.fatRead d c ∧
        k < off / sb.bytsPerClus) ∨
    relocClus sb d e off false = .ok ((sb.nth d e.firstClus (off / sb.bytsPerClus)).elim
      (-1, d, { e with curClus := e.firstClus, clusCnt := 0 })
      fun c => ((off % sb.bytsPerClus : Nat), d,
        { e with curClus := c, clusCnt := off / sb.bytsPerClus })) := by
  unfold relocClus
  generalize off / sb.bytsPerClus = k
  dsimp only
  rw [relocForward_nth, ok_bind]
  rcases Nat.lt_or_ge k e.clusCnt with hback | hfore
  · rw [Nat.sub_eq_zero_of_le hback.le]
    change (relocBack sb d k e >>= _) = _ ∧ _ ∨ (relocBack sb d k e >>= _) = _
    rw [relocBack, if_pos hback]
    rcases @relocRestart_nth sb d { e with curClus := e.firstClus, clusCnt := 0 } k with
      ⟨hpanic, h⟩ | ⟨c, hc, hok⟩
    · rw [hpanic]
      exact .inl ⟨rfl, h⟩
    · rw [hok, ok_bind, show sb.nth d e.firstClus k = some c from hc, Nat.zero_add]
      exact .inr rfl
  · obtain ⟨n, rfl⟩ := Nat.exists_eq_add_of_le hfore
    rw [Nat.add_sub_cancel_left, SuperBlock.nth_add, hat, Option.bind_some]
    refine .inr ?_
    cases hc : sb.nth d e.curClus n with
    | none => rfl
    | some c =>
      change (relocBack sb d (e.clusCnt + n) _ >>= _) = _
      rw [relocBack, if_neg (Nat.lt_irrefl _)]
      rfl

end DirEnt

namespace Mount

variable {s s1 : Mount} {sb : SuperBlock} {d : Disk} {first this ep off n : Nat}
  {name : List UInt8} {e : DirEnt} {fuel cnt count : Nat} {islne : Bool}

/-- The directory in the slot `this` begins at `first`, the disk has the same table as `d`, and the
cursor is on the chain. -/
structure Scans (sb : SuperBlock) (d : Disk) (first this : Nat) (s : Mount) : Prop where
  sb_eq : s.sb = sb
  fat : ∀ c, sb.fatRead s.disk c = sb.fatRead d c
  first_eq : (s.ents this).firstClus = first
  cursor : sb.nth d first (s.ents this).clusCnt = some (s.ents this).curClus
  noLink : (s.ents this).has ATTR_LINK = false

section

variable (sc : Scans sb d first this s)
include sc

/-- Other entries do not matter, nor does what the cache notes about this one. -/
theorem Scans.modify {i : Nat} {f : DirEnt → DirEnt}
    (hf : i = this → ∃ v r o b, f (s.ents i) =
      { s.ents i with valid := v, ref := r, off := o, dirty := b }) :
    Scans sb d first this (s.modify i f) := by
  obtain ⟨v, r, o, b, h⟩ : ∃ v r o b, (s.modify i f).ents this =
      { s.ents this with valid := v, ref := r, off := o, dirty := b } := by
    by_cases hi : i = this
    · subst hi
      obtain ⟨v, r, o, b, h⟩ := hf rfl
      exact ⟨v, r, o, b, by rw [modify_eq, setEnt_at, h]⟩
    · exact ⟨_, _, _, _, by rw [modify_eq, setEnt_ents, if_neg (Ne.symm hi)]⟩
  refine ⟨sc.sb_eq, sc.fat, ?_, ?_, ?_⟩ <;> rw [h]
  exacts [sc.first_eq, sc.cursor, sc.noLink]

theorem Scans.move {c k : Nat} (h : sb.nth d first k = some c) : Scans sb d first this
    (s.setEnt this s.disk { s.ents this with curClus := c, clusCnt := k }) := by
  refine ⟨sc.sb_eq, sc.fat, ?_, ?_, ?_⟩ <;> rw [setEnt_at]
  exacts [sc.first_eq, h, sc.noLink]

/-- `relocClus` moves the cursor along the chain, or panics on the way back. -/
theorem Scans.relocClus (off : Nat) :
    (s.relocClus this off false = .error (.panic "relocClus") ∧
      ∃ k c, sb.nth d first k = some c ∧ FAT32_EOC ≤ sb.fatRead d c ∧ k < off / sb.bytsPerClus) ∨
    ∃ s1, Scans sb d first this s1 ∧ Moved s s1 this ∧
      ((sb.nth d first (off / sb.bytsPerClus) = none ∧ s.relocClus this off false = .ok (-1, s1)) ∨
        sb.nth d first (off / sb.bytsPerClus) = some (s1.ents this).curClus ∧
          s.relocClus this off false = .ok ((off % sb.bytsPerClus : Nat), s1)) := by
  have hmove := @Scans.move _ _ _ _ _ sc
  obtain ⟨rfl, hfat, rfl, hcur, hlink⟩ := sc
  have hnth := SuperBlock.nth_congr hfat
  unfold Mount.relocClus
  rcases relocClus_nth ((hnth _ _).trans hcur) off with ⟨hpanic, k, c, hk, hc, hlt⟩ | hok
  · rw [hpanic]
    exact .inl ⟨rfl, k, c, (hnth _ _).symm.trans hk, (hfat c).symm ▸ hc, hlt⟩
  · rw [hok, hnth, ok_bind]
    refine .inr ?_
    cases hc : s.sb.nth d (s.ents this).firstClus (off / s.sb.bytsPerClus) with
    | none => exact ⟨_, hmove (k := 0) rfl, ⟨_, rfl, rfl⟩, .inl ⟨rfl, rfl⟩⟩
    | some c => exact ⟨_, hmove hc, ⟨_, rfl, rfl⟩, .inr ⟨by rw [setEnt_at], rfl⟩⟩

end

/-! ## Chains that end -/

section

variable (hpos : 0 < sb.bytsPerClus) (hn : sb.nth d first n = none)
  (hsize : sb.bytsPerClus * n + 672 ≤ 2 ^ 32)
include hpos hn

include hsize

end

/-! ## Chains that do not -/

/-- The data area is filled with `byte`. -/
def filled (sb : SuperBlock) (d : Disk) (byte : Nat → UInt8) : Disk where
  bcache dev sec i :=
    if sec < sb.firstDataSec then d.bcache dev sec i else byte (512 * sec + i)
  allocs := d.allocs

section

variable (g : sb.Geometry) (hin : ∀ k c, sb.nth d first k = some c → sb.InRange c)
include g hin

end

/-! ## The condition -/

end Mount

end LuoOS.Fs
