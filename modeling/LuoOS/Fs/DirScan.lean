import Mathlib.Data.List.DropRight
import LuoOS.Fs.OwnedRuns

/-!
# Searching a directory

In a directory all of whose entries have their long name records, a name that is found is the one
that the records at its offset spell, and a search that finds nothing ends where only deleted and
free records follow (`Sound.entSearchLoop_listed`).
-/

namespace LuoOS.Fs

open ChainTable DirEnt DirData

/-! ## Names -/

def lower (c : UInt8) : UInt8 := if 0x41 ≤ c ∧ c ≤ 0x5a then c + 0x20 else c

theorem lower_eq_iff {a b : UInt8} : lower a = lower b ↔
    a = b ∨ (0x61 ≤ a ∧ a ≤ 0x7a ∧ a = b + 0x20) ∨ (0x41 ≤ a ∧ a ≤ 0x5a ∧ b = a + 0x20) := by
  have hb := b.toNat_lt
  unfold lower
  simp only [UInt8.le_iff_toNat_le, ← UInt8.toNat_inj]
  split_ifs <;> simp only [UInt8.toNat_add, UInt8.reduceToNat] at * <;> omega

/-- The characters that `strncmpamb` may look at: at most `n`, the end of the string included. -/
def seen (n : Nat) (s : List UInt8) : List UInt8 := (s.takeWhile (· ≠ 0) ++ [0]).take n

theorem seen_succ (n : Nat) (s : List UInt8) :
    seen (n + 1) s = s.headD 0 :: if s.headD 0 = 0 then [] else seen n s.tail := by
  cases s with
  | nil => simp [seen]
  | cons c s => by_cases h : c = 0 <;> simp [seen, h]

theorem eqAmb_iff {n : Nat} {s t : List UInt8} :
    eqAmb n s t = true ↔ (seen n s).map lower = (seen n t).map lower := by
  induction n generalizing s t with
  | zero => simp [eqAmb, seen]
  | succ n ih =>
    rw [seen_succ, seen_succ, List.map_cons, List.map_cons, List.cons_eq_cons, lower_eq_iff, eqAmb]
    split
    · rename_i hhead
      have h0 : s.headD 0 = 0 ↔ t.headD 0 = 0 := by grind
      by_cases hs : s.headD 0 = 0
      · simp only [hs, h0.1 hs, true_or, if_true, and_true]
      · simp only [hs, mt h0.2 hs, hhead, false_or, if_false, true_and, ← ih]
        cases n <;> simp [eqAmb]
    · rename_i hne
      exact iff_of_false nofun fun h => hne h.1

/-- **`strncmpamb` is an equivalence**: it compares strings with all letters in lower case. The
cache and the scan give it the names in opposite order. -/
theorem eqAmb_equivalence (n : Nat) :
    (∀ s t, eqAmb n s t = true ↔ (seen n s).map lower = (seen n t).map lower) ∧
      Equivalence fun s t => eqAmb n s t = true := by
  refine ⟨fun _ _ => eqAmb_iff, fun _ => eqAmb_iff.2 rfl, fun h => ?_, fun h h' => ?_⟩
  · exact eqAmb_iff.2 (eqAmb_iff.1 h).symm
  · exact eqAmb_iff.2 ((eqAmb_iff.1 h).trans (eqAmb_iff.1 h'))

/-- A name that a caller may give: it is not empty, has no end in it, and is neither `.` nor `..`.
-/
@[mk_iff] structure Plain (name : List UInt8) : Prop where
  ne_nil : name ≠ []
  no_end : ∀ c ∈ name, c ≠ 0
  ne_dot : name ≠ [0x2e]
  ne_dots : name ≠ [0x2e, 0x2e]

instance (name : List UInt8) : Decidable (Plain name) :=
  have : Decidable (∀ c ∈ name, c ≠ 0) := List.decidableBAll _ name
  decidable_of_iff _ (plain_iff name).symm

variable {c : UInt8} {l name : List UInt8} {n : Nat}

/-- The first characters of names that fit are the same, but for the case. -/
theorem eqAmb_head {l' : List UInt8} (h : eqAmb (n + 1) l l' = true) : l.headD 0 = l'.headD 0 ∨
      (0x61 ≤ l.headD 0 ∧ l.headD 0 ≤ 0x7a ∧ l.headD 0 = l'.headD 0 + 0x20) ∨
      (0x41 ≤ l.headD 0 ∧ l.headD 0 ≤ 0x5a ∧ l'.headD 0 = l.headD 0 + 0x20) := by
  by_contra hne
  unfold eqAmb at h
  rw [if_neg hne] at h
  cases h

theorem eqAmb_nil (hz : ∀ c ∈ name, c ≠ 0) (h : eqAmb (n + 1) name [] = true) : name = [] := by
  cases name with
  | nil => rfl
  | cons a l =>
    have ha := hz a List.mem_cons_self
    have hcase := eqAmb_head h
    exact absurd (by grind) ha

theorem eqAmb_dot (h : eqAmb (n + 2) name (0x2e :: l) = true) :
    ∃ t, name = 0x2e :: t ∧ eqAmb (n + 1) t l = true := by
  have hcase := eqAmb_head h
  have hhead : name.headD 0 = 0x2e := by grind
  cases name with
  | nil => cases hhead
  | cons a t =>
    obtain rfl : a = 0x2e := hhead
    exact ⟨t, rfl, h⟩

namespace Plain

variable {name filename : List UInt8} (h : Plain name)
include h

theorem not_fits_nil (hf : cstr filename = []) : nameFits name filename = false := by
  by_contra hfits
  rw [Bool.not_eq_false, nameFits, hf, Bool.or_eq_true] at hfits
  rcases hfits with hamb | hempty
  · exact h.ne_nil (eqAmb_nil (n := 254) h.no_end hamb)
  · simp [h.ne_nil] at hempty

theorem not_fits_dots (hf : cstr filename = [0x2e] ∨ cstr filename = [0x2e, 0x2e]) :
    nameFits name filename = false := by
  by_contra hfits
  rw [Bool.not_eq_false, nameFits, Bool.or_eq_true] at hfits
  rcases hfits with hamb | hempty
  · rcases hf with hf | hf
    · rw [hf] at hamb
      obtain ⟨t, rfl, ht⟩ := eqAmb_dot (n := 253) hamb
      rw [eqAmb_nil (n := 253) (fun c hc => h.no_end c (List.mem_cons_of_mem _ hc)) ht] at h
      exact h.ne_dot rfl
    · rw [hf] at hamb
      obtain ⟨t, rfl, ht⟩ := eqAmb_dot (n := 253) hamb
      obtain ⟨t', rfl, ht'⟩ := eqAmb_dot (n := 252) ht
      rw [eqAmb_nil (n := 252) (fun c hc => h.no_end c (by simp [hc])) ht'] at h
      exact h.ne_dots rfl
  · simp [h.ne_nil] at hempty

theorem fits_iff (filename : List UInt8) :
    nameFits name filename = eqAmb FAT32_MAX_FILENAME name (cstr filename) := by
  have hne : (name == []) = false := by
    simp [h.ne_nil]
  rw [nameFits, hne, Bool.false_and, Bool.false_and, Bool.or_false]

end Plain

/-! ## The names of new entries -/

theorem flName_prefix_of (name : List UInt8) :
    (flName name).IsPrefix (name.dropWhile fun c => c == 0x20 || c == 0x2e) := by
  unfold flName flNameOf
  dsimp only [id]
  split
  · exact List.nil_prefix
  · exact List.rdropWhile_prefix _ _

theorem le_of_mem_flName (h : c ∈ flName name) : 0x20 ≤ c := by
  have hmem := (flName_prefix_of name).subset h
  unfold flName flNameOf at h
  dsimp only [id] at h
  split at h
  · cases h
  rename_i hany
  by_contra hlt
  refine hany (List.any_eq_true.2 ⟨c, hmem, ?_⟩)
  rw [Bool.or_eq_true, decide_eq_true_iff]
  exact .inl (UInt8.not_le.1 hlt)

theorem head_flName (h : flName name = c :: l) : c ≠ 0x20 ∧ c ≠ 0x2e := by
  obtain ⟨t, ht⟩ := flName_prefix_of name
  rw [h, List.cons_append] at ht
  have hhead := List.head?_dropWhile_not (fun c : UInt8 => c == 0x20 || c == 0x2e) name
  rw [← ht] at hhead
  simpa using hhead

theorem plain_flName (h : flName name ≠ []) : Plain (flName name) := by
  refine ⟨h, fun c hc => ?_, fun hdot => (head_flName hdot).2 rfl,
    fun hdots => (head_flName hdots).2 rfl⟩
  rintro rfl
  exact absurd (le_of_mem_flName hc) (by decide)

theorem shortLoop_prefix (name : List UInt8) (fuel k : Nat) (p : Option Nat) (out : List UInt8) :
    out.IsPrefix (shortLoop name fuel k p out) := by
  fun_induction shortLoop name fuel k p out with
  | case1 => exact List.prefix_refl _
  | case2 => exact List.prefix_refl _
  | case3 => exact List.prefix_refl _
  | case4 => exact List.prefix_refl _
  | case5 _ _ _ _ _ _ _ _ _ ih => exact ih
  | case6 _ _ _ _ _ _ _ ih => exact ih
  | case7 _ _ _ _ _ _ _ _ _ ih => exact (List.prefix_append _ _).trans ih
  | case8 _ _ _ _ _ _ _ _ _ ih => exact ih
  | case9 _ _ _ _ _ _ _ _ _ _ ih => exact (List.prefix_append _ _).trans ih

theorem head_getShortName (hblank : c ≠ 0x20) (hdot : c ≠ 0x2e) :
    (getShortName (c :: l)).getD 0 0 = shortChar c := by
  unfold getShortName
  dsimp only
  generalize ((List.range (c :: l).length).reverse.find? _).getD 0 = dot
  have hstep : shortLoop (c :: l) ((c :: l).length + 1) 0 (some dot) [] =
      shortLoop (c :: l) (c :: l).length 1 (some dot) [shortChar c] := by
    conv_lhs => unfold shortLoop
    simp [CHAR_SHORT_NAME, hblank, hdot]
  rw [hstep]
  obtain ⟨t, ht⟩ := shortLoop_prefix (c :: l) (c :: l).length 1 (some dot) [shortChar c]
  rw [← ht]
  rfl

theorem shortChar_ne (hc : c ≠ 0) (hne : c ≠ EMPTY_ENTRY) :
    shortChar c ≠ END_OF_ENTRY ∧ shortChar c ≠ EMPTY_ENTRY := by
  have hfin : ∀ n : Fin 256, UInt8.ofNat n ≠ 0 → UInt8.ofNat n ≠ EMPTY_ENTRY →
      shortChar (UInt8.ofNat n) ≠ END_OF_ENTRY ∧ shortChar (UInt8.ofNat n) ≠ EMPTY_ENTRY := by
    decide +kernel
  have h := hfin ⟨c.toNat, c.toNat_lt⟩
  rw [UInt8.ofNat_toNat] at h
  exact h hc hne

namespace Mount

variable {s s1 s' : Mount} {away own : Nat → List Nat} {kind : Nat → Validity} {this ep off n m : Nat}
  {cs : List Nat} {name : List UInt8} {e : DirEnt}

/-! ## One record -/

theorem Walk.readAt (w : s.Walk this cs) {len : Nat}
    (hfit : off % s.sb.bytsPerClus + len ≤ s.sb.bytsPerClus)
    (hin : off < (s.sb.data s.disk cs).size) :
    ∃ s1, s.relocClus this off false = .ok ((off % s.sb.bytsPerClus : Nat), s1) ∧
      s1.Walk this cs ∧ Moved s s1 this ∧ (s1.ents this).clusCnt = off / s.sb.bytsPerClus ∧
      s1.readCur this (u32 (off % s.sb.bytsPerClus : Nat)) len =
        .ok ((List.range len).map fun k => (s.sb.data s.disk cs).byte (off + k)) := by
  have hc := getElem?_index cs hin
  refine ⟨_, w.relocClus_inside hin, w.moved rfl ⟨w.cursor.first, hc⟩, ⟨_, rfl, rfl⟩,
    by rw [setEnt_at], ?_⟩
  have hlt := w.geometry.bytsPerClus_lt
  unfold Mount.readCur
  rw [setEnt_at, u32_of_lt (by omega)]
  refine (w.geometry.rwClusRead_eq (w.chain.node _ (List.mem_of_getElem? hc)).1 hfit).trans ?_
  refine congrArg Except.ok (List.map_congr_left fun k hk => ?_)
  have hk := List.mem_range.1 hk
  obtain ⟨hdiv, hmod⟩ := add_div_mod (a := off) (k := k) (b := s.sb.bytsPerClus) (by omega)
  unfold SuperBlock.data SuperBlock.fileByte
  dsimp only
  rw [hdiv, hmod]
  rfl

theorem Walk.readBehind (w : s.Walk this cs) (hout : (s.sb.data s.disk cs).size ≤ off) :
    ∃ s1, s.relocClus this off false = .ok (-1, s1) ∧ s1.Walk this cs ∧ Moved s s1 this := by
  have hlen : cs.length ≤ off / s.sb.bytsPerClus :=
    (Nat.le_div_iff_mul_le w.geometry.bytsPerClus_pos).2 (by rw [Nat.mul_comm]; exact hout)
  have hfirst := w.cursor.first
  refine ⟨s.setEnt this s.disk { s.ents this with curClus := (s.ents this).firstClus, clusCnt := 0 },
    ?_, w.moved rfl ⟨hfirst, by rw [← hfirst, List.head?_eq_getElem?]⟩, ⟨_, rfl, rfl⟩⟩
  unfold Mount.relocClus
  rw [relocClus_outside w.chain w.cursor hlen]
  rfl

theorem Moved.data (mv : Moved s s1 this) (cs : List Nat) :
    s1.sb.data s1.disk cs = s.sb.data s.disk cs := by
  rw [mv.disk, mv.worked.sb]

section Loop

variable {D : DirData} {fuel cnt count k off' : Nat} {islne : Bool}

theorem Walk.entNextLoop_round (w : s.Walk this cs) (hD : s.sb.data s.disk cs = D)
    (ha : off % 32 = 0) (hin : off < D.size) :
    ∃ s1, s1.Walk this cs ∧ Moved s s1 this ∧ ∀ fuel e cnt islne count,
      Mount.entNextLoop this (fuel + 1) s e off cnt islne count =
        if D.byte off = END_OF_ENTRY then .ok (-1, count, e, s1)
        else if D.byte off = EMPTY_ENTRY then
          Mount.entNextLoop this fuel s1 e (u32 (off + 32 : Nat)) (cnt + 1) islne count
        else if cnt ≠ 0 then .ok (0, cnt, e, s1)
        else if D.byte (off + 11) = ATTR_LONG_NAME then do
          let (e, islne, count) ← addLong (D.record off) e islne count
          Mount.entNextLoop this fuel s1 e (u32 (off + 32 : Nat)) cnt islne count
        else if islne then .ok (1, count, e.ofEnt (D.record off), s1)
        else .ok (1, 1, { e with filename := readShort (D.record off) e.filename }.ofEnt
          (D.record off), s1) := by
  subst hD
  obtain ⟨s1, hreloc, w1, m1, -, hread⟩ := w.readAt (record_fits w.geometry ha) hin
  change _ = Except.ok ((s.sb.data s.disk cs).record off) at hread
  refine ⟨s1, w1, m1, fun fuel e cnt islne count => ?_⟩
  have hne : ¬((off % s.sb.bytsPerClus : Nat) : Int) = -1 := by omega
  have hfirst := getD_record (D := s.sb.data s.disk cs) (p := 0) (by decide) off
  have hattr := getD_record (D := s.sb.data s.disk cs) (p := 11) (by decide) off
  rw [Nat.add_zero] at hfirst
  conv => lhs; unfold Mount.entNextLoop
  rw [hreloc, ok_bind]
  dsimp only
  rw [if_neg hne, hread, ok_bind, hfirst, hattr]

theorem Walk.entNextLoop_behind (w : s.Walk this cs) (hD : s.sb.data s.disk cs = D)
    (hout : D.size ≤ off) (fuel : Nat) (e : DirEnt) (cnt : Nat) (islne : Bool) (count : Nat) :
    ∃ s1, s1.Walk this cs ∧ Moved s s1 this ∧
      Mount.entNextLoop this (fuel + 1) s e off cnt islne count = .ok (-1, count, e, s1) := by
  obtain ⟨s1, hreloc, w1, m1⟩ := w.readBehind (hD ▸ hout)
  refine ⟨s1, w1, m1, ?_⟩
  unfold Mount.entNextLoop
  rw [hreloc, ok_bind]
  rfl

theorem ends_of_size_le (h : D.size ≤ off) : D.Ends off := by
  intro o hle _ hlt
  omega

theorem ends_of_blank (ha : off % 32 = 0) (h : D.blank off = true) : D.Ends off := by
  intro o hle hao hlt
  obtain ⟨k, rfl⟩ : ∃ k, o = off + 32 * k := ⟨(o - off) / 32, by omega⟩
  have hk := List.all_eq_true.1 h k (List.mem_range.2 (by omega))
  rw [Bool.or_eq_true, decide_eq_true_iff, beq_iff_eq] at hk
  exact .inl (hk.resolve_left (by omega))

theorem ends_of_gone (ha : off % 32 = 0) (hgone : D.byte off = EMPTY_ENTRY)
    (h : D.Ends (off + 32)) : D.Ends off := by
  intro o hle hao hlt
  by_cases heq : o = off
  · rw [heq]
    exact .inr hgone
  · exact h o (by omega) hao hlt

/-- **Deleted records** are counted up to the next entry. -/
theorem Walk.entNextLoop_gone (w : s.Walk this cs) (hD : s.sb.data s.disk cs = D)
    (hsize : D.size ≤ 2 ^ 31) (ha : off % 32 = 0) (hlisted : D.listed m off = true)
    (hfuel : m ≤ fuel) (e : DirEnt) (hcnt : cnt ≠ 0) (islne : Bool) (count : Nat) :
    ∃ s1, s1.Walk this cs ∧ Moved s s1 this ∧
      (Mount.entNextLoop this fuel s e off cnt islne count = .ok (-1, count, e, s1) ∧ D.Ends off ∨
        ∃ k m', Mount.entNextLoop this fuel s e off cnt islne count = .ok (0, cnt + k, e, s1) ∧
          m' ≤ m ∧ off + 32 * k < D.size ∧ D.listed m' (off + 32 * k) = true) := by
  induction m generalizing s off fuel cnt with
  | zero => cases hlisted
  | succ m ih =>
    obtain ⟨fuel, rfl⟩ : ∃ f, fuel = f + 1 := ⟨fuel - 1, by omega⟩
    have hthis := hlisted
    unfold DirData.listed at hlisted
    split at hlisted
    · rename_i hout
      obtain ⟨s1, w1, m1, heq⟩ := w.entNextLoop_behind hD hout fuel e cnt islne count
      exact ⟨s1, w1, m1, .inl ⟨heq, ends_of_size_le hout⟩⟩
    rename_i hin
    rw [Nat.not_le] at hin
    obtain ⟨s1, w1, m1, heq⟩ := w.entNextLoop_round hD ha hin
    rw [heq]
    split at hlisted
    · rename_i hend
      rw [if_pos hend]
      exact ⟨s1, w1, m1, .inl ⟨rfl, ends_of_blank ha hlisted⟩⟩
    rename_i hend
    rw [if_neg hend]
    split at hlisted
    · rename_i hgone
      rw [if_pos hgone, u32_of_lt (by omega)]
      obtain ⟨s2, w2, m2, hcase⟩ := ih w1 ((m1.data _).trans hD) (by omega) hlisted
        (Nat.le_of_succ_le_succ hfuel) (Nat.succ_ne_zero cnt)
      refine ⟨s2, w2, m1.trans m2, ?_⟩
      rcases hcase with ⟨hneg, hends⟩ | ⟨k, m', hzero, hle, hlt, hl⟩
      · exact .inl ⟨hneg, ends_of_gone ha hgone hends⟩
      have hoff : off + 32 + 32 * k = off + 32 * (k + 1) := by omega
      have hcount : cnt + 1 + k = cnt + (k + 1) := by omega
      rw [hoff] at hlt hl
      exact .inr ⟨k + 1, m', hcount ▸ hzero, by omega, hlt, hl⟩
    · rename_i hgone
      rw [if_neg hgone, if_pos hcnt]
      exact ⟨s1, w1, m1, .inr ⟨0, m + 1, rfl, le_rfl, hin, hthis⟩⟩

theorem order_bits : ∀ n, n ≤ 20 →
    (((UInt8.ofNat n ||| LAST_LONG_ENTRY) &&& ~~~LAST_LONG_ENTRY).toNat = n ∧
      ((UInt8.ofNat n ||| LAST_LONG_ENTRY) &&& LAST_LONG_ENTRY != 0) = true) ∧
    (UInt8.ofNat n &&& ~~~LAST_LONG_ENTRY).toNat = n ∧
      (UInt8.ofNat n &&& LAST_LONG_ENTRY != 0) = false := by
  decide

theorem addLong_entry (he : D.Entry off n) (hk : k < n) (e : DirEnt) (count : Nat) :
    ∃ e1, addLong (D.record (off + 32 * k)) e (decide (0 < k)) (if k = 0 then count else n + 1) =
        .ok (e1, true, n + 1) ∧ e1.dirty = e.dirty ∧
      e1.filename = (readLong (D.record (off + 32 * k)) (e.filename ++ e.attr :: zeros 3)
        ((n - k - 1) * CHAR_LONG_NAME)).take (FAT32_MAX_FILENAME + 1) := by
  have hcount := he.count
  have hfirst := getD_record (D := D) (p := 0) (by decide) (off + 32 * k)
  rw [Nat.add_zero, (he.long k hk).1] at hfirst
  have hbits : ((D.record (off + 32 * k)).getD 0 0 &&& ~~~LAST_LONG_ENTRY).toNat = n - k ∧
      ((D.record (off + 32 * k)).getD 0 0 &&& LAST_LONG_ENTRY != 0) = decide (k = 0) := by
    rw [hfirst]
    by_cases hk0 : k = 0
    · rw [if_pos hk0, hk0]
      exact (order_bits n hcount.2).1
    rw [if_neg hk0]
    have hbits := (order_bits (n - k) (by omega)).2
    refine ⟨hbits.1, hbits.2.trans ?_⟩
    simp [hk0]
  have hrange : ¬(n - k = 0 ∨ FAT32_MAX_FILENAME + 5 < (n - k) * CHAR_LONG_NAME) := by
    unfold FAT32_MAX_FILENAME CHAR_LONG_NAME
    omega
  unfold addLong
  dsimp only
  rw [hbits.1, hbits.2, if_neg hrange]
  refine ⟨_, congrArg Except.ok (Prod.ext rfl (Prod.ext ?_ ?_)), rfl, rfl⟩
  · by_cases hk0 : k = 0
    · simp [hk0]
    · simp [Nat.pos_of_ne_zero hk0]
  · by_cases hk0 : k = 0
    · simp [hk0]
    · simp [hk0]

/-- **An entry** is read record after record. -/
theorem Walk.entNextLoop_entry (w : s.Walk this cs) (hD : s.sb.data s.disk cs = D)
    (hsize : off + 32 * n < 2 ^ 32) (he : D.Entry off n) (hk : k ≤ n)
    (hfuel : n - k < fuel) (hbuf : Spelled D off n k e.filename) (count : Nat) :
    ∃ s1 e', s1.Walk this cs ∧ Moved s s1 this ∧
      Mount.entNextLoop this fuel s e (off + 32 * k) 0 (decide (0 < k))
        (if k = 0 then count else n + 1) = .ok (1, n + 1, e', s1) ∧
      e'.dirty = e.dirty ∧ cstr e'.filename = D.name off n ∧
      ∃ e0 : DirEnt, e' = e0.ofEnt (D.record (off + 32 * n)) := by
  obtain ⟨j, hj⟩ : ∃ j, n - k = j := ⟨_, rfl⟩
  have hinside := he.inside
  have haligned := he.aligned
  have hcount := he.count
  induction j generalizing s e k fuel with
  | zero =>
    obtain rfl : k = n := by omega
    obtain ⟨fuel, rfl⟩ : ∃ f, fuel = f + 1 := ⟨fuel - 1, by omega⟩
    have halign : (off + 32 * k) % 32 = 0 := by omega
    obtain ⟨s1, w1, m1, heq⟩ := w.entNextLoop_round hD halign (by omega)
    have hshort := he.short
    refine ⟨s1, e.ofEnt (D.record (off + 32 * k)), w1, m1, ?_, rfl, hbuf.cstr_eq he.fits, e, rfl⟩
    rw [heq, if_neg hshort.1, if_neg hshort.2.1, if_neg (by decide), if_neg hshort.2.2,
      if_pos (decide_eq_true (by omega)), if_neg (by omega)]
  | succ j ih =>
    obtain ⟨fuel, rfl⟩ : ∃ f, fuel = f + 1 := ⟨fuel - 1, by omega⟩
    have halign : (off + 32 * k) % 32 = 0 := by omega
    obtain ⟨s1, w1, m1, heq⟩ := w.entNextLoop_round hD halign (by omega)
    have hused := he.used hk
    obtain ⟨e1, hadd, hdirty1, hname1⟩ := addLong_entry he (show k < n by omega) e count
    have hbuf1 : Spelled D off n (k + 1) e1.filename := by
      rw [hname1]
      exact hbuf.next (by omega) hcount.2 e.attr
    have hfuel' : n - (k + 1) < fuel := by omega
    obtain ⟨s2, e', w2, m2, hrest, hdirty, hname⟩ := ih w1 ((m1.data _).trans hD) (k := k + 1)
      (by omega) hfuel' hbuf1 (by omega)
    refine ⟨s2, e', w2, m1.trans m2, ?_, hdirty.trans hdirty1, hname⟩
    rw [heq, if_neg hused.1, if_neg hused.2, if_neg (by decide), if_pos (he.long k (by omega)).2, hadd,
      ok_bind, u32_of_lt (by omega)]
    exact hrest

theorem dots_record (h : D.dots off = true) : D.byte off = 0x2e ∧ D.byte (off + 11) ≠ ATTR_LONG_NAME ∧
    off + 32 ≤ D.size ∧ (D.record off).take CHAR_SHORT_NAME = dotName off := by
  simp only [dots, Bool.and_eq_true, decide_eq_true_eq, beq_iff_eq, bne_iff_ne] at h
  obtain ⟨⟨⟨-, hsize⟩, hattr⟩, hname⟩ := h
  refine ⟨?_, hattr, hsize, hname⟩
  have hfirst := getD_record (D := D) (p := 0) (by decide) off
  rw [Nat.add_zero] at hfirst
  have htake : ((D.record off).take CHAR_SHORT_NAME).getD 0 0 = (D.record off).getD 0 0 := by
    simp [List.getD_eq_getElem?_getD, CHAR_SHORT_NAME]
  rw [← hfirst, ← htake, hname]
  unfold dotName
  split <;> rfl

theorem cstr_readShort_dots (h : D.dots off = true) :
    cstr (readShort (D.record off) (zeros 256)) = [0x2e] ∨
      cstr (readShort (D.record off) (zeros 256)) = [0x2e, 0x2e] := by
  obtain ⟨-, -, -, hname⟩ := dots_record h
  have hbase : (D.record off).take 8 = (dotName off).take 8 := by
    rw [← hname, List.take_take]
    rfl
  have hext : (D.record off).getD 8 0 = (dotName off).getD 8 0 := by
    rw [← hname]
    simp [List.getD_eq_getElem?_getD, CHAR_SHORT_NAME]
  unfold readShort
  rw [hbase, hext]
  unfold dotName
  split
  · exact .inl rfl
  · exact .inr rfl

/-- What a call of `entNext` at `off` can find. -/
inductive Next (D : DirData) (m off : Nat) : (r : Int) → (count : Nat) → (filename : List UInt8) → Prop
  | ends {count : Nat} {filename : List UInt8} (h : D.Ends off) : Next D m off (-1) count filename
  | skipped {r : Int} {count m' : Nat} {filename : List UInt8} (hr : r ≠ -1)
      (hname : cstr filename = [] ∨ cstr filename = [0x2e] ∨ cstr filename = [0x2e, 0x2e])
      (hm : m' < m) (hin : off + 32 * count ≤ D.size)
      (hlisted : D.listed m' (off + 32 * count) = true) : Next D m off r count filename
  | entry {n m' : Nat} {filename : List UInt8} (he : D.Entry off n)
      (hname : cstr filename = D.name off n) (hm : m' < m)
      (hlisted : D.listed m' (off + 32 * (n + 1)) = true) : Next D m off 1 (n + 1) filename

theorem order_entry (he : D.Entry off n) : (D.byte off &&& ~~~LAST_LONG_ENTRY).toNat = n := by
  rw [he.first.1]
  exact (order_bits n he.count.2).1.1

theorem Walk.entNext_eq (w : s.Walk this cs) (hlive : (s.ents this).valid = .live)
    (ha : off % 32 = 0) (he : e.valid = .unused) (count : Nat) : s.entNext this e off count =
      Mount.entNextLoop this (2 ^ 28) s { e with filename := zeros 256 } off 0 false count := by
  unfold Mount.entNext
  rw [if_neg (by rw [w.dir]; nofun), if_neg (not_not.2 he), if_neg (not_not.2 ha),
    if_neg (not_not.2 hlive), resolveLink_eq w.noLink, ok_bind]
  rfl

/-- **`entNext`** in a directory all of whose entries have their long name records. -/
theorem Walk.entNext_listed (w : s.Walk this cs) (hlive : (s.ents this).valid = .live)
    (hD : s.sb.data s.disk cs = D) (hsize : D.size ≤ 2 ^ 31) (ha : off % 32 = 0)
    (hlisted : D.listed m off = true) (hm : m ≤ 2 ^ 28) (he : e.valid = .unused) (count : Nat) :
    ∃ r count' e' s1, s.entNext this e off count = .ok (r, count', e', s1) ∧ s1.Walk this cs ∧
      Moved s s1 this ∧ e'.dirty = e.dirty ∧ Next D m off r count' e'.filename := by
  rw [w.entNext_eq hlive ha he]
  obtain ⟨fuel, hfuel⟩ : ∃ fuel, 2 ^ 28 = fuel + 1 := ⟨2 ^ 28 - 1, rfl⟩
  rw [hfuel] at hm ⊢
  cases m with
  | zero => cases hlisted
  | succ m =>
    unfold DirData.listed at hlisted
    split at hlisted
    · rename_i hout
      obtain ⟨s1, w1, m1, heq⟩ := w.entNextLoop_behind hD hout fuel
        { e with filename := zeros 256 } 0 false count
      exact ⟨_, _, _, s1, heq, w1, m1, rfl, .ends (ends_of_size_le hout)⟩
    rename_i hin
    rw [Nat.not_le] at hin
    split at hlisted
    · rename_i hend
      obtain ⟨s1, w1, m1, heq⟩ := w.entNextLoop_round hD ha hin
      rw [heq, if_pos hend]
      exact ⟨_, _, _, s1, rfl, w1, m1, rfl, .ends (ends_of_blank ha hlisted)⟩
    rename_i hend
    split at hlisted
    · rename_i hgone
      obtain ⟨s1, w1, m1, heq⟩ := w.entNextLoop_round hD ha hin
      rw [heq, if_neg hend, if_pos hgone, u32_of_lt (by omega)]
      obtain ⟨s2, w2, m2, hcase⟩ := w1.entNextLoop_gone ((m1.data _).trans hD) hsize (by omega)
        hlisted (Nat.le_of_succ_le_succ hm) { e with filename := zeros 256 } (Nat.succ_ne_zero 0)
        false count
      rcases hcase with ⟨hneg, hends⟩ | ⟨k, m', hzero, hle, hlt, hl⟩
      · exact ⟨_, _, _, s2, hneg, w2, m1.trans m2, rfl, .ends (ends_of_gone ha hgone hends)⟩
      have hoff : off + 32 + 32 * k = off + 32 * (0 + 1 + k) := by omega
      rw [hoff] at hlt hl
      exact ⟨_, _, _, s2, hzero, w2, m1.trans m2, rfl,
        .skipped (by decide) (.inl rfl) (by omega) (by omega) hl⟩
    rename_i hgone
    split at hlisted
    · simp only [Bool.and_eq_true, decide_eq_true_eq] at hlisted
      obtain ⟨hentry, hl⟩ := hlisted
      have hcount := hentry.count
      have hinside := hentry.inside
      generalize (D.byte off &&& ~~~LAST_LONG_ENTRY).toNat = n at hentry hl hcount hinside
      have hspelled : Spelled D off n 0 ({ e with filename := zeros 256 } : DirEnt).filename :=
        spelled_zeros D off n
      have hfuel' : n - 0 < fuel + 1 := by omega
      obtain ⟨s1, e', w1, m1, heq, hdirty, hname, -⟩ := w.entNextLoop_entry hD (by omega) hentry
        (Nat.zero_le n) hfuel' hspelled count
      exact ⟨_, _, e', s1, heq, w1, m1, hdirty, .entry hentry hname (Nat.lt_succ_self m) hl⟩
    · rename_i hlong
      rw [Bool.and_eq_true] at hlisted
      obtain ⟨hdots, hl⟩ := hlisted
      obtain ⟨-, -, hin', -⟩ := dots_record hdots
      obtain ⟨s1, w1, m1, heq⟩ := w.entNextLoop_round hD ha hin
      rw [heq, if_neg hend, if_neg hgone, if_neg (by decide), if_neg hlong, if_neg (by decide)]
      exact ⟨_, _, _, s1, rfl, w1, m1, rfl,
        .skipped (by decide) (.inr (cstr_readShort_dots hdots)) (Nat.lt_succ_self m) hin' hl⟩

/-- What the loop of `entSearch` finds in `D`. -/
structure Looked (D : DirData) (s s1 s' : Mount) (this ep : Nat) (name : List UInt8) (off : Nat)
    (found : Option Nat) (off' : Nat) : Prop where
  scanned : Scanned s s1 ep
  dirty : (s1.ents ep).dirty = (s.ents ep).dirty
  result : found = none ∧ s1.entRelse ep = .ok s' ∧ off' % 32 = 0 ∧ off' ≤ max off D.size ∧
      D.Ends off' ∨
    found = some ep ∧ ∃ at' n, s' = (s1.entDup this).modify ep (fun e =>
        { e with parent := some this, off := at', valid := .live }) ∧
      off ≤ at' ∧ D.Entry at' n ∧ cstr (s1.ents ep).filename = D.name at' n ∧
      nameFits name (s1.ents ep).filename = true

variable {found : Option Nat}

theorem Looked.after {s2 : Mount} {off2 : Nat} (c : Scanned s s2 ep)
    (hdirty : (s2.ents ep).dirty = (s.ents ep).dirty) (hlo : off ≤ off2) (hhi : off2 ≤ D.size)
    (l : Looked D s2 s1 s' this ep name off2 found off') :
    Looked D s s1 s' this ep name off found off' := by
  refine ⟨c.trans l.scanned, l.dirty.trans hdirty, ?_⟩
  rcases l.result with ⟨hnone, hrelse, ha, hle, hends⟩ | ⟨hfound, at', n, hs', hat, hrest⟩
  · exact .inl ⟨hnone, hrelse, ha, by omega, hends⟩
  · exact .inr ⟨hfound, at', n, hs', by omega, hrest⟩

/-- **The search for a name** in a directory all of whose entries have their long name records. -/
theorem Sound.entSearchLoop_listed (u : s.sb.Usable) (h : s.Sound away kind own)
    (hdir : s.IsDir kind this) (hlive : (s.ents this).valid = .live) (hk : kind ep = .unused)
    (hun : (s.ents ep).valid = .unused) (hD : s.sb.data s.disk (own this) = D)
    (hsize : D.size ≤ 2 ^ 31) (ha : off % 32 = 0) (hlisted : D.listed m off = true)
    (hm : m ≤ 2 ^ 28) (hplain : Plain name)
    (hok : Mount.entSearchLoop this ep name fuel s off count = .ok (found, off', s')) :
    ∃ s1, s1.Sound away kind own ∧ Looked D s s1 s' this ep name off found off' := by
  have hne : this ≠ ep := hdir.ne_of_unused hk
  induction fuel generalizing s off count m with
  | zero => cases hok
  | succ fuel ih =>
    obtain ⟨r, count1, e1, s1, hnext, w1, m1, hdirty, hcase⟩ :=
      (h.walk u hdir).entNext_listed hlive hD hsize ha hlisted hm hun count
    have h1 := h.of_moved m1 w1
    obtain ⟨-, -, hvalid, href⟩ := h.entNext hdir hnext
    have c1 := m1.scanned ep
    have c2 := c1.trans (scanned_setEnt (hvalid.trans c1.valid.symm) (href.trans c1.ref.symm))
    have h2 := h1.setUnused hk e1
    have hep : (s1.setEnt ep s1.disk e1).ents ep = e1 := by rw [setEnt_at]
    unfold Mount.entSearchLoop at hok
    rw [hnext, ok_bind] at hok
    dsimp only at hok
    -- what follows if this is not the name that is looked for
    have hrest : ∀ m', m' < m → off + 32 * count1 ≤ D.size → D.listed m' (off + 32 * count1) = true →
        Mount.entSearchLoop this ep name fuel (s1.setEnt ep s1.disk e1)
          (u32 (off + count1 <<< 5 : Nat)) count1 = .ok (found, off', s') →
        ∃ s1, s1.Sound away kind own ∧ Looked D s s1 s' this ep name off found off' := by
      intro m' hm' hin hl hloop
      rw [Nat.shiftLeft_eq, Nat.mul_comm, u32_of_lt (by omega)] at hloop
      have u2 : (s1.setEnt ep s1.disk e1).sb.Usable := c2.sb.symm ▸ u
      obtain ⟨s3, h3, l⟩ := ih u2 h2 (c2.isDir hdir hne) (by rw [c2.ents this hne]; exact hlive)
        (c2.valid.trans hun) (by rw [c2.disk, c2.sb]; exact hD) (by omega) hl (by omega) hloop
      exact ⟨s3, h3, l.after c2 (by rw [hep, hdirty]) (Nat.le_add_right ..) hin⟩
    cases hcase with
    | ends hends =>
      obtain ⟨s3, hrelse, hret⟩ := bind_eq_ok hok
      cases hret
      exact ⟨_, h2, c2, by rw [hep, hdirty], .inl ⟨rfl, hrelse, ha, Nat.le_max_left .., hends⟩⟩
    | skipped hr hname hm' hin hl =>
      have hmiss : nameFits name e1.filename = false := by
        rcases hname with hnil | hdots
        · exact hplain.not_fits_nil hnil
        · exact hplain.not_fits_dots hdots
      rw [if_neg hr, hmiss] at hok
      exact hrest _ hm' hin hl hok
    | entry hentry hname hm' hl =>
      rw [if_neg (by decide)] at hok
      split at hok
      · rename_i hfits
        cases hok
        refine ⟨_, h2, c2, by rw [hep, hdirty], .inr ⟨rfl, off, _, rfl, le_rfl, hentry, ?_, ?_⟩⟩
        · rw [hep, hname]
        · rw [hep, hfits]
      · exact hrest _ hm' hentry.inside hl hok

end Loop

end Mount

end LuoOS.Fs
