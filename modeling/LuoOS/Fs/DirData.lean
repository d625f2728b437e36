import Mathlib.Tactic.MkIffOfInductiveProp
import Mathlib.Data.List.GetD
import Mathlib.Tactic.IntervalCases
import LuoOS.Fs.Ownership

/-!
# Directories as bytes

An entry is a run of records: its long name records, the last part of the name first, and a short
record. `DirData.Entry` and `DirData.name` say where it stands and what it is called, without the
functions of `fat.cc`; `listed` checks that a directory has such entries, deleted records, those of
`.` and `..`, and free records behind them.
-/

namespace LuoOS.Fs

/-- The bytes of a directory. -/
structure DirData where
  size : Nat
  byte : Nat → UInt8

def SuperBlock.data (sb : SuperBlock) (d : Disk) (cs : List Nat) : DirData :=
  ⟨sb.bytsPerClus * cs.length, sb.fileByte d cs⟩

namespace DirData

def places : List Nat := [1, 3, 5, 7, 9, 14, 16, 18, 20, 22, 24, 28, 30]

variable (D : DirData)

def record (off : Nat) : List UInt8 := (List.range 32).map fun k => D.byte (off + k)

def char (off n x : Nat) : UInt8 :=
  D.byte (off + 32 * (n - 1 - x / CHAR_LONG_NAME) + places.getD (x % CHAR_LONG_NAME) 0)

def chars (off n : Nat) : List UInt8 := (List.range (CHAR_LONG_NAME * n)).map (D.char off n)

def name (off n : Nat) : List UInt8 := cstr (D.chars off n)

/-- An entry of `n` long name records starts at `off`. -/
@[mk_iff] structure Entry (off n : Nat) : Prop where
  aligned : off % 32 = 0
  count : 1 ≤ n ∧ n ≤ 20
  inside : off + 32 * (n + 1) ≤ D.size
  long : ∀ k, k < n → D.byte (off + 32 * k) =
      (if k = 0 then UInt8.ofNat n ||| LAST_LONG_ENTRY else UInt8.ofNat (n - k)) ∧
    D.byte (off + 32 * k + 11) = ATTR_LONG_NAME
  short : D.byte (off + 32 * n) ≠ END_OF_ENTRY ∧ D.byte (off + 32 * n) ≠ EMPTY_ENTRY ∧
    D.byte (off + 32 * n + 11) ≠ ATTR_LONG_NAME
  fits : (D.name off n).length ≤ FAT32_MAX_FILENAME

instance (off n : Nat) : Decidable (D.Entry off n) := decidable_of_iff _ (D.entry_iff off n).symm

def Ends (off : Nat) : Prop := ∀ o, off ≤ o → o % 32 = 0 → o < D.size →
  D.byte o = END_OF_ENTRY ∨ D.byte o = EMPTY_ENTRY

def blank (off : Nat) : Bool := (List.range ((D.size - off) / 32 + 1)).all fun k =>
  decide (D.size ≤ off + 32 * k) || D.byte (off + 32 * k) == END_OF_ENTRY

def dots (off : Nat) : Bool :=
  decide (off ≤ 32) && decide (off + 32 ≤ D.size) && D.byte (off + 11) != ATTR_LONG_NAME &&
    (D.record off).take CHAR_SHORT_NAME == Mount.dotName off

/-- Every entry from `off` on has its long name records, but for `.` and `..`, and nothing is behind
the first free record. -/
def listed : (fuel off : Nat) → Bool
  | 0, _ => false
  | fuel + 1, off =>
    if D.size ≤ off then true
    else if D.byte off = END_OF_ENTRY then D.blank off
    else if D.byte off = EMPTY_ENTRY then listed fuel (off + 32)
    else if D.byte (off + 11) = ATTR_LONG_NAME then
      let n := (D.byte off &&& ~~~LAST_LONG_ENTRY).toNat
      decide (D.Entry off n) && listed fuel (off + 32 * (n + 1))
    else D.dots off && listed fuel (off + 32)

variable {D} {D' : DirData} {off off' n n' p : Nat}

/-! ## Records -/

theorem getD_record (hp : p < 32) (off : Nat) : (D.record off).getD p 0 = D.byte (off + p) := by
  simp [record, List.getD_eq_getElem?_getD, hp]

theorem order_last : ∀ n, n ≤ 20 → ∀ m, m ≤ 20 →
    UInt8.ofNat m ≠ UInt8.ofNat n ||| LAST_LONG_ENTRY := by
  decide

theorem order_inj : ∀ n, n ≤ 20 → ∀ m, m ≤ 20 →
    UInt8.ofNat m ||| LAST_LONG_ENTRY = UInt8.ofNat n ||| LAST_LONG_ENTRY → m = n := by
  decide

theorem order_used : ∀ n, n ≤ 20 → 1 ≤ n → (UInt8.ofNat n ≠ END_OF_ENTRY ∧ UInt8.ofNat n ≠ EMPTY_ENTRY) ∧
    UInt8.ofNat n ||| LAST_LONG_ENTRY ≠ END_OF_ENTRY ∧
    UInt8.ofNat n ||| LAST_LONG_ENTRY ≠ EMPTY_ENTRY := by
  decide

namespace Entry

section

variable (h : D.Entry off n)
include h

theorem first :
    D.byte off = UInt8.ofNat n ||| LAST_LONG_ENTRY ∧ D.byte (off + 11) = ATTR_LONG_NAME := by
  have hlong := h.long 0 (Nat.zero_lt_one.trans_le h.count.1)
  exact hlong

/-- No record of an entry is free or deleted. -/
theorem used {k : Nat} (hk : k ≤ n) :
    D.byte (off + 32 * k) ≠ END_OF_ENTRY ∧ D.byte (off + 32 * k) ≠ EMPTY_ENTRY := by
  have hcount := h.count
  rcases Nat.lt_or_eq_of_le hk with hlt | rfl
  · rw [(h.long k hlt).1]
    split
    · exact (order_used n hcount.2 hcount.1).2
    · exact (order_used (n - k) (by omega) (by omega)).1
  · exact ⟨h.short.1, h.short.2.1⟩

theorem unique (h' : D.Entry off n') : n = n' :=
  order_inj n' h'.count.2 n h.count.2 (h.first.1.symm.trans h'.first.1)

theorem apart_of_lt (h' : D.Entry off' n') (hlt : off < off') : off + 32 * (n + 1) ≤ off' := by
  by_contra hcon
  have ha := h.aligned
  have ha' := h'.aligned
  have hcount := h.count
  obtain ⟨k, rfl⟩ : ∃ k, off' = off + 32 * k := ⟨(off' - off) / 32, by omega⟩
  obtain ⟨hfirst, hattr⟩ := h'.first
  rcases Nat.lt_or_eq_of_le (show k ≤ n by omega) with hk | rfl
  · have hlong := (h.long k hk).1
    rw [if_neg (by omega)] at hlong
    exact order_last n' h'.count.2 (n - k) (by omega) (hlong.symm.trans hfirst)
  · exact h.short.2.2 hattr

/-- **Entries do not overlap**: only its first record has the mark of a first record. -/
theorem apart (h' : D.Entry off' n') (hne : off ≠ off') :
    off + 32 * (n + 1) ≤ off' ∨ off' + 32 * (n' + 1) ≤ off := by
  rcases Nat.lt_or_gt_of_ne hne with hlt | hlt
  · exact .inl (h.apart_of_lt h' hlt)
  · exact .inr (h'.apart_of_lt h hlt)

theorem le_ends (hend : D.Ends off') (ha : off' % 32 = 0) : off + 32 * (n + 1) ≤ off' := by
  have haligned := h.aligned
  have hinside := h.inside
  by_contra hcon
  have hused := h.used (Nat.le_refl n)
  rcases hend (off + 32 * n) (by omega) (by omega) (by omega) with hfree | hfree
  · exact hused.1 hfree
  · exact hused.2 hfree

end

theorem places_lt : ∀ x, x < 13 → places.getD x 0 < 32 := by
  decide

theorem char_inside (off : Nat) (hn : 1 ≤ n) (x : Nat) :
    ∃ o, (∀ D : DirData, D.char off n x = D.byte o) ∧ off ≤ o ∧ o < off + 32 * (n + 1) := by
  have hplace := places_lt (x % CHAR_LONG_NAME) (Nat.mod_lt _ (by decide))
  refine ⟨_, fun _ => rfl, by omega, ?_⟩
  have : n - 1 - x / CHAR_LONG_NAME ≤ n - 1 := Nat.sub_le ..
  omega

theorem congr (h : D.Entry off n) (hsize : off + 32 * (n + 1) ≤ D'.size)
    (hbyte : ∀ o, off ≤ o → o < off + 32 * (n + 1) → D'.byte o = D.byte o) :
    D'.Entry off n ∧ D'.name off n = D.name off n := by
  have hchars : D'.chars off n = D.chars off n := by
    refine List.map_congr_left fun x _ => ?_
    obtain ⟨o, ho, hlo, hhi⟩ := char_inside off h.count.1 x
    rw [ho, ho, hbyte o hlo hhi]
  have hname : D'.name off n = D.name off n := congrArg cstr hchars
  refine ⟨⟨h.aligned, h.count, hsize, fun k hk => ?_, ?_, hname ▸ h.fits⟩, hname⟩
  · rw [hbyte _ (by omega) (by omega), hbyte _ (by omega) (by omega)]
    exact h.long k hk
  · rw [hbyte _ (by omega) (by omega), hbyte _ (by omega) (by omega)]
    exact h.short

end Entry

/-! ## Strings -/

variable {buf de l old : List UInt8} {i k t x n y : Nat}

theorem cstr_congr {l' : List UInt8}
    (h : ∀ x, (∀ y, y < x → l'.getD y 0 ≠ 0) → l.getD x 0 = l'.getD x 0) : cstr l = cstr l' := by
  induction l' generalizing l with
  | nil =>
    cases l with
    | nil => rfl
    | cons a l =>
      have ha : a = 0 := h 0 nofun
      rw [ha]
      rfl
  | cons b l' ih =>
    have hhead := h 0 nofun
    cases l with
    | nil =>
      have hb : b = 0 := hhead.symm
      rw [hb]
      rfl
    | cons a l =>
      obtain rfl : a = b := hhead
      by_cases ha : a = 0
      · rw [ha]
        rfl
      have htail : cstr l = cstr l' := by
        refine ih fun x hx => h (x + 1) fun y hy => ?_
        cases y with
        | zero => exact ha
        | succ y => exact hx y (by omega)
      have hne : (a != 0) = true := by simpa using ha
      unfold cstr at htail ⊢
      rw [List.takeWhile_cons, List.takeWhile_cons, hne, if_pos rfl, if_pos rfl, htail]

theorem le_length_cstr (h : ∀ y, y < x → l.getD y 0 ≠ 0) : x ≤ (cstr l).length := by
  induction l generalizing x with
  | nil =>
    cases x with
    | zero => exact Nat.zero_le _
    | succ x => exact absurd rfl (h 0 (Nat.succ_pos x))
  | cons a l ih =>
    cases x with
    | zero => exact Nat.zero_le _
    | succ x =>
      have ha : (a != 0) = true := by simpa using h 0 (Nat.succ_pos x)
      have htail : x ≤ (cstr l).length := ih fun y hy => h (y + 1) (by omega)
      unfold cstr at htail ⊢
      rw [List.takeWhile_cons, ha, if_pos rfl, List.length_cons]
      omega

theorem getD_length_cstr (l : List UInt8) : l.getD (cstr l).length 0 = 0 := by
  induction l with
  | nil => rfl
  | cons a l ih =>
    unfold cstr at ih ⊢
    by_cases ha : a = 0
    · rw [ha]
      rfl
    · have hne : (a != 0) = true := by simpa using ha
      rw [List.takeWhile_cons, hne, if_pos rfl, List.length_cons, List.getD_cons_succ]
      exact ih

theorem cstr_append_zeros (h : ∀ c ∈ l, c ≠ 0) (n : Nat) : cstr (l ++ zeros n) = l := by
  unfold cstr zeros
  rw [List.takeWhile_append_of_pos (by simpa using h)]
  cases n with
  | zero => simp
  | succ n => simp [List.replicate_succ]

/-! ## Reading a long name -/

theorem length_snstr {ws : List Nat} (h : ws.length ≤ old.length) :
    (snstr ws old).length = ws.length := by
  induction ws generalizing old with
  | nil => rfl
  | cons w ws ih =>
    unfold snstr
    rw [List.length_cons] at h
    split
    · simp [zeros]
      omega
    · rw [List.length_cons, ih (by rw [List.length_tail]; omega), List.length_cons]

theorem getD_snstr {ws : List Nat} (hold : old.getD (ws.length - 1) 0 = 0)
    (hx : x < ws.length) (h : ∀ y, y < x → UInt8.ofNat (ws.getD y 0) ≠ 0) :
    (snstr ws old).getD x 0 = UInt8.ofNat (ws.getD x 0) := by
  induction ws generalizing old x with
  | nil => exact absurd hx (Nat.not_lt_zero x)
  | cons w ws ih =>
    unfold snstr
    split
    · rename_i hw
      cases x with
      | zero =>
        rw [List.getD_cons_zero, hw]
        cases ws with
        | nil => simpa [zeros] using hold
        | cons _ ws => simp [zeros, List.replicate_succ]
      | succ x =>
        refine absurd ?_ (h 0 (Nat.succ_pos x))
        rw [List.getD_cons_zero, hw]
        rfl
    · cases x with
      | zero => rfl
      | succ x =>
        refine ih ?_ (Nat.lt_of_succ_lt_succ hx) fun y hy => ?_
        · cases ws with
          | nil => exact absurd (Nat.lt_of_succ_lt_succ hx) (Nat.not_lt_zero x)
          | cons w' ws =>
            cases old with
            | nil => rfl
            | cons a old => exact hold
        · have := h (y + 1) (by omega)
          exact this

theorem ofNat_le16At (de : List UInt8) (i : Nat) : UInt8.ofNat (le16At de i) = de.getD i 0 := by
  unfold le16At
  apply UInt8.toNat_inj.1
  rw [UInt8.toNat_ofNat']
  have := (de.getD i 0).toNat_lt
  omega

theorem getD_putAt {bs : List UInt8} (h : i ≤ buf.length) (x : Nat) : (putAt buf i bs).getD x 0 =
      if i ≤ x ∧ x < i + bs.length then bs.getD (x - i) 0 else buf.getD x 0 := by
  unfold putAt
  simp only [List.getD_eq_getElem?_getD, List.append_assoc]
  by_cases hlo : x < i
  · rw [List.getElem?_append_left (by rw [List.length_take]; omega), List.getElem?_take_of_lt hlo,
      if_neg (by omega)]
  rw [List.getElem?_append_right (by rw [List.length_take]; omega), List.length_take,
    Nat.min_eq_left h]
  by_cases hhi : x < i + bs.length
  · rw [List.getElem?_append_left (by omega), if_pos ⟨by omega, hhi⟩]
  · rw [List.getElem?_append_right (by omega), List.getElem?_drop, if_neg (by omega)]
    congr 2
    omega

theorem getD_wordsAt (de : List UInt8) (i : Nat) (hy : y < n) :
    (wordsAt de i n).getD y 0 = le16At de (i + 2 * y) := by
  simp [wordsAt, List.getD_eq_getElem?_getD, hy]

theorem length_wordsAt (de : List UInt8) (i n : Nat) : (wordsAt de i n).length = n := by
  simp [wordsAt]

theorem getD_part (hold : old.getD (n - 1) 0 = 0) (hy : y < n)
    (h : ∀ z, z < y → de.getD (i + 2 * z) 0 ≠ 0) :
    (snstr (wordsAt de i n) old).getD y 0 = de.getD (i + 2 * y) 0 := by
  rw [getD_snstr (by rw [length_wordsAt]; exact hold) (by rw [length_wordsAt]; exact hy),
    getD_wordsAt de i hy, ofNat_le16At]
  intro z hz
  rw [getD_wordsAt de i (by omega), ofNat_le16At]
  exact h z hz

def parts (de old : List UInt8) : List UInt8 :=
  snstr (wordsAt de 1 5) (old.take 5) ++ snstr (wordsAt de 14 6) ((old.drop 5).take 6) ++
    snstr (wordsAt de 28 2) ((old.drop 11).take 2)

theorem length_part (de : List UInt8) (i : Nat) (h : n ≤ old.length) :
    (snstr (wordsAt de i n) old).length = n := by
  rw [length_snstr (by rwa [length_wordsAt]), length_wordsAt]

theorem length_parts (h : 13 ≤ old.length) : (parts de old).length = 13 := by
  unfold parts
  rw [List.length_append, List.length_append, length_part, length_part, length_part] <;>
    simp <;> omega

/-- The part that a place is in. -/
theorem getD_parts_eq (hlen : 13 ≤ old.length) (t : Nat) : (parts de old).getD t 0 =
    if t < 5 then (snstr (wordsAt de 1 5) (old.take 5)).getD t 0
    else if t < 11 then (snstr (wordsAt de 14 6) ((old.drop 5).take 6)).getD (t - 5) 0
    else (snstr (wordsAt de 28 2) ((old.drop 11).take 2)).getD (t - 11) 0 := by
  have hl1 : (snstr (wordsAt de 1 5) (old.take 5)).length = 5 :=
    length_part de 1 (by rw [List.length_take]; omega)
  have hl2 : (snstr (wordsAt de 14 6) ((old.drop 5).take 6)).length = 6 :=
    length_part de 14 (by rw [List.length_take, List.length_drop]; omega)
  unfold parts
  rw [List.append_assoc]
  split
  · exact List.getD_append _ _ _ _ (by omega)
  rw [List.getD_append_right _ _ _ _ (by omega), hl1]
  split
  · exact List.getD_append _ _ _ _ (by omega)
  · rw [List.getD_append_right _ _ _ _ (by omega), hl2, Nat.sub_sub]

theorem places_eq : ∀ t, t < 13 → places.getD t 0 =
    if t < 5 then 1 + 2 * t else if t < 11 then 14 + 2 * (t - 5) else 28 + 2 * (t - 11) := by
  decide

theorem getD_parts (hlen : 13 ≤ old.length)
    (hold : old.getD 4 0 = 0 ∧ old.getD 10 0 = 0 ∧ old.getD 12 0 = 0) (ht : t < 13)
    (h : ∀ y, y < t → de.getD (places.getD y 0) 0 ≠ 0) :
    (parts de old).getD t 0 = de.getD (places.getD t 0) 0 := by
  have ho1 : (old.take 5).getD 4 0 = 0 := Eq.trans (by simp [List.getD_eq_getElem?_getD]) hold.1
  have ho2 : ((old.drop 5).take 6).getD 5 0 = 0 :=
    Eq.trans (by simp [List.getD_eq_getElem?_getD]) hold.2.1
  have ho3 : ((old.drop 11).take 2).getD 1 0 = 0 :=
    Eq.trans (by simp [List.getD_eq_getElem?_getD]) hold.2.2
  rw [places_eq t ht, getD_parts_eq hlen]
  split
  · rename_i h5
    refine getD_part ho1 h5 fun z hz => ?_
    have hne := h z hz
    rw [places_eq z (by omega), if_pos (by omega)] at hne
    exact hne
  split
  · refine getD_part ho2 (by omega) fun z hz => ?_
    have hne := h (z + 5) (by omega)
    rw [places_eq (z + 5) (by omega), if_neg (by omega), if_pos (by omega),
      Nat.add_sub_cancel] at hne
    exact hne
  · refine getD_part ho3 (by omega) fun z hz => ?_
    have hne := h (z + 11) (by omega)
    rw [places_eq (z + 11) (by omega), if_neg (by omega), if_neg (by omega),
      Nat.add_sub_cancel] at hne
    exact hne

/-! ## The name while it is read -/

/-- The buffer when the last `k` of the `n` parts of a name are read. -/
structure Spelled (D : DirData) (off n k : Nat) (buf : List UInt8) : Prop where
  length : buf.length = 256
  todo : ∀ x, x < 13 * (n - k) → buf.getD x 0 = 0
  behind : ∀ x, 13 * n ≤ x → buf.getD x 0 = 0
  done : ∀ x, x < 256 → 13 * (n - k) ≤ x → x < 13 * n →
    (∀ y, 13 * (x / 13) ≤ y → y < x → D.char off n y ≠ 0) → buf.getD x 0 = D.char off n x

theorem getD_zeros (n x : Nat) : (zeros n).getD x 0 = 0 := by
  unfold zeros
  rw [List.getD_eq_getElem?_getD, List.getElem?_replicate]
  split <;> rfl

theorem spelled_zeros (D : DirData) (off n : Nat) : Spelled D off n 0 (zeros 256) :=
  ⟨List.length_replicate .., fun x _ => getD_zeros 256 x, fun x _ => getD_zeros 256 x,
    fun x _ h1 h2 => by omega⟩

theorem char_eq (hk : k < n) (hx : x = 13 * (n - k - 1) + t) (ht : t < 13) :
    D.char off n x = D.byte (off + 32 * k + places.getD t 0) := by
  have hdiv : x / 13 = n - k - 1 := by omega
  have hmod : x % 13 = t := by omega
  unfold char CHAR_LONG_NAME
  rw [hdiv, hmod, show n - 1 - (n - k - 1) = k by omega]

/-- `filename` when a long name record is read into it. -/
theorem readLong_spec {base : Nat} (de : List UInt8) (hlen : buf.length = 256)
    (hbase : base + 13 ≤ 260) (attr : UInt8) :
    ((readLong de (buf ++ attr :: zeros 3) base).take 256).length = 256 ∧
      ∀ x < 256, ((readLong de (buf ++ attr :: zeros 3) base).take 256).getD x 0 =
        if base ≤ x ∧ x < base + 13 then
          (parts de ((buf ++ attr :: zeros 3).drop base)).getD (x - base) 0
        else buf.getD x 0 := by
  have hall : (buf ++ attr :: zeros 3).length = 260 := by simp [hlen, zeros]
  have hparts : (parts de ((buf ++ attr :: zeros 3).drop base)).length = 13 :=
    length_parts (by rw [List.length_drop]; omega)
  have hread : readLong de (buf ++ attr :: zeros 3) base = putAt (buf ++ attr :: zeros 3) base
      (parts de ((buf ++ attr :: zeros 3).drop base)) := rfl
  refine ⟨?_, fun x hx => ?_⟩
  · rw [List.length_take, hread, length_putAt (by omega), hall]
    rfl
  · rw [List.getD_eq_getElem?_getD, List.getElem?_take_of_lt hx, ← List.getD_eq_getElem?_getD, hread,
      getD_putAt (by omega), hparts]
    split
    · rfl
    · exact List.getD_append _ _ _ _ (by omega)

theorem Spelled.next (h : Spelled D off n k buf) (hk : k < n) (hn : n ≤ 20) (attr : UInt8) :
    Spelled D off n (k + 1)
      ((readLong (D.record (off + 32 * k)) (buf ++ attr :: zeros 3) ((n - k - 1) * 13)).take 256) := by
  have hlen := h.length
  generalize hbase : (n - k - 1) * 13 = base
  have hold : ∀ x, x < 13 * (n - k) → x ≠ 256 → (buf ++ attr :: zeros 3).getD x 0 = 0 := by
    intro x hx hne
    by_cases hlt : x < 256
    · rw [List.getD_append _ _ _ _ (by omega)]
      exact h.todo x hx
    rw [List.getD_append_right _ _ _ _ (by omega), hlen]
    obtain ⟨z, hz⟩ : ∃ z, x - 256 = z + 1 := ⟨x - 257, by omega⟩
    rw [hz, List.getD_cons_succ]
    exact getD_zeros 3 z
  have hlen' : (buf ++ attr :: zeros 3).length = 260 := by
    simp [hlen, zeros]
  have hdrop : 13 ≤ ((buf ++ attr :: zeros 3).drop base).length := by
    rw [List.length_drop]
    omega
  have hgetD : ∀ t, ((buf ++ attr :: zeros 3).drop base).getD t 0 =
      (buf ++ attr :: zeros 3).getD (base + t) 0 := by
    simp [List.getD_eq_getElem?_getD, List.getElem?_drop]
  obtain ⟨hlength, hget⟩ :=
    readLong_spec (D.record (off + 32 * k)) hlen (show base + 13 ≤ 260 by omega) attr
  refine ⟨hlength, fun x hx => ?_, fun x hx => ?_, fun x hx hlo hhi hne => ?_⟩
  · rw [hget x (by omega), if_neg (by omega)]
    exact h.todo x (by omega)
  · by_cases hx' : x < 256
    · rw [hget x hx', if_neg (by omega)]
      exact h.behind x hx
    · rw [List.getD_eq_default]
      rw [List.length_take]
      omega
  · rw [hget x hx]
    by_cases hin : x < base + 13
    · have hchar : ∀ t, t < 13 → D.char off n (base + t) =
          (D.record (off + 32 * k)).getD (places.getD t 0) 0 := by
        intro t ht
        rw [getD_record (Entry.places_lt t ht)]
        exact char_eq hk (by omega) ht
      obtain ⟨t, rfl⟩ : ∃ t, x = base + t := ⟨x - base, by omega⟩
      rw [if_pos ⟨by omega, hin⟩, Nat.add_sub_cancel_left, hchar t (by omega)]
      refine getD_parts hdrop ⟨?_, ?_, ?_⟩ (by omega) fun y hy => ?_
      · rw [hgetD, hold _ (by omega) (by omega)]
      · rw [hgetD, hold _ (by omega) (by omega)]
      · rw [hgetD, hold _ (by omega) (by omega)]
      · rw [← hchar y (by omega)]
        exact hne (base + y) (by omega) (by omega)
    · rw [if_neg (by omega)]
      exact h.done x hx (by omega) hhi hne

/-- **The name that was read is the name that the records spell.** -/
theorem Spelled.cstr_eq (h : Spelled D off n n buf)
    (hfits : (D.name off n).length ≤ FAT32_MAX_FILENAME) : cstr buf = D.name off n := by
  have hlen : (D.chars off n).length = 13 * n := by
    simp [chars, CHAR_LONG_NAME]
  have hget : ∀ x, x < 13 * n → (D.chars off n).getD x 0 = D.char off n x := by
    intro x hx
    simp [chars, CHAR_LONG_NAME, List.getD_eq_getElem?_getD, hx]
  refine cstr_congr fun x hx => ?_
  have hle : x ≤ 255 := (le_length_cstr hx).trans hfits
  by_cases hlt : x < 13 * n
  · rw [hget x hlt]
    refine h.done x (by omega) (by omega) hlt fun y _ hy => ?_
    rw [← hget y (by omega)]
    exact hx y hy
  · rw [h.behind x (by omega), List.getD_eq_default]
    omega

/-! ## Writing a long name -/

theorem getD_longChars {p : List UInt8} (ht : t < n) (h : ∀ y, y < t → p.getD y 0 ≠ 0) :
    (longChars n false p).getD (2 * t) 0 = p.getD t 0 := by
  induction n generalizing p t with
  | zero => exact absurd ht (Nat.not_lt_zero t)
  | succ n ih =>
    unfold longChars
    cases t with
    | zero =>
      cases p <;> rfl
    | succ t =>
      have hhead : (p.headD 0 == 0) = false := by
        have hne := h 0 (Nat.succ_pos t)
        cases p with
        | nil => exact absurd rfl hne
        | cons a p => simpa using hne
      have htail : ∀ y, p.tail.getD y 0 = p.getD (y + 1) 0 := by
        intro y
        cases p <;> rfl
      rw [show 2 * (t + 1) = 2 * t + 1 + 1 by omega, List.getD_cons_succ, List.getD_cons_succ, hhead,
        ih (Nat.lt_of_succ_lt_succ ht) fun y hy => by rw [htail]; exact h (y + 1) (by omega), htail]

theorem longRecord_place (filename : List UInt8) (entcnt i : Nat) (sum : UInt8)
    (ht : t < 13) : (longRecord filename entcnt i sum).getD (places.getD t 0) 0 =
      (longChars CHAR_LONG_NAME false (filename.drop ((i - 1) * CHAR_LONG_NAME))).getD (2 * t) 0 := by
  have hlen := length_longChars CHAR_LONG_NAME false (filename.drop ((i - 1) * CHAR_LONG_NAME))
  unfold longRecord
  generalize longChars CHAR_LONG_NAME false (filename.drop ((i - 1) * CHAR_LONG_NAME)) = l at hlen ⊢
  have hl : l.length = 26 := hlen
  interval_cases t <;> simp [places, List.getD_eq_getElem?_getD, hl]

theorem longRecord_attr (filename : List UInt8) (entcnt i : Nat) (sum : UInt8) :
    (longRecord filename entcnt i sum).getD 11 0 = ATTR_LONG_NAME := by
  have hlen : (longChars CHAR_LONG_NAME false (filename.drop ((i - 1) * CHAR_LONG_NAME))).length = 26 :=
    length_longChars ..
  unfold longRecord
  simp [List.getD_eq_getElem?_getD, hlen]

def nameRecords (filename : List UInt8) (entcnt : Nat) (sum : UInt8) : Nat → List UInt8
  | 0 => []
  | i + 1 => longRecord filename entcnt (i + 1) sum ++ nameRecords filename entcnt sum i

theorem length_nameRecords (filename : List UInt8) (entcnt : Nat) (sum : UInt8) (i : Nat) :
    (nameRecords filename entcnt sum i).length = 32 * i := by
  induction i with
  | zero => rfl
  | succ i ih =>
    rw [nameRecords, List.length_append, length_longRecord, ih]
    omega

theorem getD_nameRecords (filename : List UInt8) (entcnt : Nat) (sum : UInt8)
    (hk : k < i) (hp : p < 32) : (nameRecords filename entcnt sum i).getD (32 * k + p) 0 =
      (longRecord filename entcnt (i - k) sum).getD p 0 := by
  induction i generalizing k with
  | zero => exact absurd hk (Nat.not_lt_zero k)
  | succ i ih =>
    have hlen := length_longRecord filename entcnt (i + 1) sum
    unfold nameRecords
    cases k with
    | zero =>
      rw [List.getD_append _ _ _ _ (by omega), Nat.mul_zero, Nat.zero_add, Nat.sub_zero]
    | succ k =>
      rw [List.getD_append_right _ _ _ _ (by omega), hlen,
        show 32 * (k + 1) + p - 32 = 32 * k + p by omega, ih (Nat.lt_of_succ_lt_succ hk),
        Nat.add_sub_add_right]

/-- **What is written is an entry with that name.** -/
theorem entry_of_written {filename sr : List UInt8} {sum : UInt8} (ha : off % 32 = 0)
    (hlen : 1 ≤ (cstr filename).length ∧ (cstr filename).length ≤ FAT32_MAX_FILENAME)
    (hn : n = ((cstr filename).length + CHAR_LONG_NAME - 1) / CHAR_LONG_NAME)
    (hsize : off + 32 * (n + 1) ≤ D.size) (hbyte : ∀ o, off ≤ o → o < off + 32 * (n + 1) →
      D.byte o = (nameRecords filename n sum n ++ sr).getD (o - off) 0)
    (hshort : sr.getD 0 0 ≠ END_OF_ENTRY ∧ sr.getD 0 0 ≠ EMPTY_ENTRY ∧
      sr.getD 11 0 ≠ ATTR_LONG_NAME) : D.Entry off n ∧ D.name off n = cstr filename := by
  obtain ⟨hpos, hmax⟩ := hlen
  unfold CHAR_LONG_NAME at hn
  unfold FAT32_MAX_FILENAME at hmax
  have hlong : ∀ k p, k < n → p < 32 → D.byte (off + 32 * k + p) =
      (longRecord filename n (n - k) sum).getD p 0 := by
    intro k p hk hp
    rw [hbyte _ (by omega) (by omega), Nat.add_assoc, Nat.add_sub_cancel_left,
      List.getD_append _ _ _ _ (by rw [length_nameRecords]; omega), getD_nameRecords _ _ _ hk hp]
  have hsr : ∀ p, p < 32 → D.byte (off + 32 * n + p) = sr.getD p 0 := by
    intro p hp
    rw [hbyte _ (by omega) (by omega), Nat.add_assoc, Nat.add_sub_cancel_left,
      List.getD_append_right _ _ _ _ (by rw [length_nameRecords]; omega), length_nameRecords,
      Nat.add_sub_cancel_left]
  have hname : D.name off n = cstr filename := by
    refine cstr_congr fun x hx => ?_
    by_cases hlt : x < 13 * n
    · have hchar : (D.chars off n).getD x 0 = D.char off n x := by
        simp [chars, CHAR_LONG_NAME, List.getD_eq_getElem?_getD, hlt]
      rw [hchar, char_eq (k := n - 1 - x / 13) (t := x % 13) (by omega) (by omega) (by omega),
        hlong _ _ (by omega) (Entry.places_lt _ (by omega)), longRecord_place _ _ _ _ (by omega),
        show n - (n - 1 - x / 13) - 1 = x / 13 by omega]
      have hdrop : ∀ y, (filename.drop (x / 13 * CHAR_LONG_NAME)).getD y 0 =
          filename.getD (x / 13 * 13 + y) 0 := by
        simp [List.getD_eq_getElem?_getD, CHAR_LONG_NAME]
      have hmod : x % 13 < CHAR_LONG_NAME := Nat.mod_lt x (by decide)
      rw [getD_longChars hmod, hdrop, show x / 13 * 13 + x % 13 = x by omega]
      intro y hy
      rw [hdrop]
      exact hx _ (by omega)
    · have hle := le_length_cstr hx
      obtain rfl : x = (cstr filename).length := by omega
      rw [getD_length_cstr, List.getD_eq_default]
      rw [chars, List.length_map, List.length_range]
      exact Nat.le_of_not_lt hlt
  refine ⟨⟨ha, by omega, hsize, fun k hk => ⟨?_, ?_⟩, ⟨?_, ?_, ?_⟩, ?_⟩, hname⟩
  · rw [← Nat.add_zero (off + 32 * k), hlong k 0 hk (by omega)]
    by_cases hk0 : k = 0
    · rw [if_pos hk0, hk0]
      exact if_pos rfl
    · rw [if_neg hk0]
      exact if_neg (by omega)
  · rw [hlong k 11 hk (by omega)]
    exact longRecord_attr ..
  · rw [← Nat.add_zero (off + 32 * n), hsr 0 (by omega)]
    exact hshort.1
  · rw [← Nat.add_zero (off + 32 * n), hsr 0 (by omega)]
    exact hshort.2.1
  · rw [hsr 11 (by omega)]
    exact hshort.2.2
  · rw [hname]
    exact hmax

end DirData

end LuoOS.Fs
