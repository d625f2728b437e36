import LuoOS.Fs.Path

/-!
# The generated files of `/proc`

`mounts`, `mountinfo` and `interrupts` have no stored text: `nodRead` copies from the line of each
entry of a table, with one variable for what is left of the offset and none for the length. A read
from the start is right when the text fits, and only the empty text at every offset
(`nodRead_generated_iff`).
-/

namespace LuoOS.Fs.ProcFiles

/-! ## The lines -/

def mountsLine (item : Str × Str) : Str :=
  item.1 ++ " on ".toList ++ item.1 ++ " type ".toList ++ item.2 ++ "(rw)\n".toList

def mountsInfoLine (hash : Str → Int) (item : Str × Str) : Str :=
  (toString (hash item.1)).toList ++ " 0 1:0 / ".toList ++ item.1 ++ " rw,noatime - ".toList ++
    item.2 ++ " none rw,errors=continue".toList

def interruptsLine (irq : Nat × Nat) : Str :=
  (toString irq.2).toList ++ ": ".toList ++ (toString (toInt irq.1)).toList ++ "\n".toList

/-- The lines of one of the three files. An interrupt that has not occurred has no line. -/
inductive Generated : List Str → Prop
  | mounts (table : List (Str × Str)) : Generated (table.map mountsLine)
  | mountsInfo (hash : Str → Int) (table : List (Str × Str)) :
    Generated (table.map (mountsInfoLine hash))
  | interrupts (irqcnt : List Nat) :
    Generated ((irqcnt.zipIdx.filter fun irq => 0 < toInt irq.1).map interruptsLine)

theorem Generated.two_le {lines : List Str} (h : Generated lines) : ∀ line ∈ lines,
    2 ≤ line.length := by
  have hon : " on ".toList.length = 4 := rfl
  have hrw : " rw,noatime - ".toList.length = 14 := rfl
  have hcolon : ": ".toList.length = 2 := rfl
  cases h <;> intro line hline <;> obtain ⟨item, -, rfl⟩ := List.mem_map.1 hline <;>
    simp only [mountsLine, mountsInfoLine, interruptsLine, List.length_append] <;> omega

/-! ## Reading -/

/-- The loop of the three `nodRead`s, the lines given. The destination is what has been stored. -/
def readLines (len : Nat) : List Str → Int → Str → Kern Str
  | [], _, dst => .ok dst
  | line :: lines, off, dst =>
    let bytes := toInt ((min len line.length : Nat) - off)
    let off' := if 0 < off then toInt (off - min bytes off) else off
    if off < bytes then
      -- `line.c_str()+off` points before the line
      if off < 0 then .error .wildPointer
      else readLines len lines off' (dst ++ (line.drop off.toNat).take bytes.toNat)
    else readLines len lines off' dst

def nodRead (lines : List Str) (uoff len : Nat) : Kern (Str × Int) := do
  let dst ← readLines len lines (toInt uoff) []
  -- `rdbytes` is advanced together with `dst`
  return (dst, toInt dst.length)

def ReadsRight (lines : List Str) (off len : Nat) : Prop :=
  nodRead lines off len = .ok ((lines.flatten.drop off).take len,
    ((lines.flatten.drop off).take len).length)

variable {lines : List Str} {len : Nat}

/-- From offset 0 each line is cut off at the full length, whatever has been stored before it. -/
theorem readLines_zero (h : min len lines.flatten.length < 2 ^ 31) (dst : Str) :
    readLines len lines 0 dst = .ok (dst ++ (lines.map (·.take len)).flatten) := by
  induction lines generalizing dst with
  | nil => simp [readLines]
  | cons line lines ih =>
    rw [List.flatten_cons, List.length_append] at h
    have hbytes : toInt ((min len line.length : Nat) - 0) = (min len line.length : Nat) := by
      rw [Int.sub_zero, toInt_of_lt (by omega)]
    have htake : line.take (min len line.length) = line.take len := by
      rw [← List.take_take, List.take_length]
    simp only [readLines, hbytes, Int.lt_irrefl, if_false, Int.toNat_zero, List.drop_zero,
      Int.toNat_natCast, htake]
    rw [ih (by omega), ih (by omega)]
    split
    · simp
    have hnil : line.take len = [] := List.eq_nil_of_length_eq_zero (by
      rw [List.length_take]
      omega)
    simp [hnil]

theorem min_le_length_cut (lines : List Str) (len : Nat) :
    min len lines.flatten.length ≤ (lines.map (·.take len)).flatten.length := by
  induction lines with
  | nil => simp
  | cons line lines ih =>
    simp only [List.map_cons, List.flatten_cons, List.length_append, List.length_take] at ih ⊢
    omega

theorem cut_eq_iff (h : ∀ line ∈ lines, 2 ≤ line.length) :
    (lines.map (·.take len)).flatten = lines.flatten.take len ↔
      lines.flatten.length ≤ len ∨ len = 0 ∨ lines.length ≤ 1 := by
  constructor
  · intro heq
    by_contra! hlong
    obtain ⟨l1, l2, rest, rfl⟩ : ∃ l1 l2 rest, lines = l1 :: l2 :: rest := by
      match lines, hlong.2.2 with
      | l1 :: l2 :: rest, _ => exact ⟨l1, l2, rest, rfl⟩
    -- the first line and the others are each cut off only at `len`, and both are stored
    have hcut := min_le_length_cut (l2 :: rest) len
    have hlen := congrArg List.length heq
    have h1 := h l1 (by simp)
    have h2 := h l2 (by simp)
    simp only [List.map_cons, List.flatten_cons, List.length_append, List.length_take] at *
    omega
  · rintro (hfits | rfl | hone)
    · rw [List.take_of_length_le hfits, List.map_congr_left (g := id), List.map_id]
      intro line hline
      exact List.take_of_length_le ((List.sublist_flatten_of_mem hline).length_le.trans hfits)
    · simp
    · match lines, hone with
      | [], _ => simp
      | [_], _ => simp

/-- No line is reached by a read of one byte at offset 1: the offset never gets smaller. -/
theorem readLines_one (h : ∀ line ∈ lines, 2 ≤ line.length) (dst : Str) :
    readLines 1 lines 1 dst = .ok dst := by
  induction lines with
  | nil => rfl
  | cons line lines ih =>
    have hline : min 1 line.length = 1 := by
      have := h line List.mem_cons_self
      omega
    simpa [readLines, hline, toInt] using ih fun l hl => h l (List.mem_cons_of_mem _ hl)

/-- **A generated file is read right from its start exactly when its text fits the buffer** or has
but one line; only the empty one is read right at every offset. -/
theorem nodRead_generated_iff (h : Generated lines) :
    ((∀ off < 2 ^ 32, ∀ len < 2 ^ 32, ReadsRight lines off len) ↔ lines = []) ∧
    ∀ len, ReadsRight lines 0 len ↔ min len lines.flatten.length < 2 ^ 31 ∧
      (lines.flatten.length ≤ len ∨ len = 0 ∨ lines.length ≤ 1) := by
  refine ⟨⟨fun hright => ?_, ?_⟩, fun len => ?_⟩
  · by_contra hne
    obtain ⟨line, rest, rfl⟩ := List.exists_cons_of_ne_nil hne
    have hone := hright 1 (by norm_num) 1 (by norm_num)
    rw [ReadsRight, nodRead, show toInt (1 : Nat) = 1 from rfl, readLines_one h.two_le] at hone
    have hlen := congrArg List.length (Prod.mk.inj (Except.ok.inj hone)).1
    have := h.two_le line List.mem_cons_self
    simp only [List.length_nil, List.flatten_cons, List.length_take, List.length_drop,
      List.length_append] at hlen
    omega
  · rintro rfl off - len -
    simp [ReadsRight, nodRead, readLines, toInt]
  · by_cases hint : min len lines.flatten.length < 2 ^ 31
    · rw [ReadsRight, nodRead, show toInt (0 : Nat) = 0 from rfl, readLines_zero hint, ok_bind,
        List.nil_append, List.drop_zero, ← cut_eq_iff h.two_le]
      constructor
      · intro hok
        exact ⟨hint, (Prod.mk.inj (Except.ok.inj hok)).1⟩
      · rintro ⟨-, hcut⟩
        rw [hcut, toInt_of_lt (by rwa [List.length_take])]
        rfl
    · refine iff_of_false (fun hok => ?_) fun hc => hint hc.1
      -- the count is an `int`
      obtain ⟨dst, -, hdst⟩ := bind_eq_ok hok
      have hcount := (Prod.mk.inj (Except.ok.inj hdst)).2
      have hlt := Int.bmod_lt (x := dst.length) (m := 2 ^ 32) (by norm_num)
      rw [toInt] at hcount
      rw [List.drop_zero, List.length_take] at hcount
      omega

theorem nodRead_generated_one : ReadsRight [mountsLine ("/".toList, "fat".toList)] 0 4 :=
  ((nodRead_generated_iff (.mounts [("/".toList, "fat".toList)])).2 4).2
    ⟨by decide, .inr (.inr le_rfl)⟩

/-- A buffer of four bytes gets eight from two lines. -/
theorem not_nodRead_generated : Generated ([(['/'], ['f']), (['/', 'a'], ['f'])].map mountsLine) ∧
    nodRead ([(['/'], ['f']), (['/', 'a'], ['f'])].map mountsLine) 0 4 =
      .ok ("/ on/a o".toList, 8) :=
  ⟨.mounts _, by decide +kernel⟩

end LuoOS.Fs.ProcFiles
