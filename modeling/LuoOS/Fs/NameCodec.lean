import LuoOS.Fs.DirScan

/-!
# Names in directory records

Where `entNext` stores the characters of a name: the place of a long name record's thirteen
characters comes from the order byte on the disk, which nothing checks. And the way of a name to the
disk and back, by `entCreateOnDisk` and `entNext`.
-/

namespace LuoOS.Fs

open DirEnt DirData

/-! ## The stores of `readEntName` -/

def snstrStores : (src : List Nat) → Nat
  | [] => 0
  | w :: ws => if w = 0 then ws.length else snstrStores ws + 1

def lcnt (de : List UInt8) : Nat := (de.getD 0 0 &&& ~~~LAST_LONG_ENTRY).toNat

def storesFrom (base : Int) (n : Nat) : List Int := (List.range n).map fun k : Nat => base + k

/-- The stores of `de.readEntName(filename+(lcnt-1)*CHAR_LONG_NAME)` for a long name record, and of
`de.readEntName(filename)` for a short one: there the memset is the longest. -/
def nameStores (de : List UInt8) : List Int :=
  if de.getD 11 0 = ATTR_LONG_NAME then
    let base : Int := (lcnt de - 1) * CHAR_LONG_NAME
    storesFrom base (snstrStores (wordsAt de 1 5)) ++
      storesFrom (base + 5) (snstrStores (wordsAt de 14 6)) ++
      storesFrom (base + 11) (snstrStores (wordsAt de 28 2))
  else storesFrom 0 (CHAR_SHORT_NAME + 2)

variable {de out : List UInt8} {base i : Int} {n m fuel k : Nat}

theorem mem_storesFrom : i ∈ storesFrom base n ↔ base ≤ i ∧ i < base + n := by
  unfold storesFrom
  rw [List.mem_map]
  constructor
  · rintro ⟨k, hk, rfl⟩
    have hk := List.mem_range.1 hk
    omega
  · rintro ⟨hlo, hhi⟩
    exact ⟨(i - base).toNat, List.mem_range.2 (by omega), by omega⟩

theorem snstrStores_bounds (ws : List Nat) :
    ws.length - 1 ≤ snstrStores ws ∧ snstrStores ws ≤ ws.length := by
  induction ws with
  | nil => exact ⟨le_rfl, le_rfl⟩
  | cons w ws ih =>
    unfold snstrStores
    rw [List.length_cons]
    split <;> omega

theorem snstrStores_wordsAt (de : List UInt8) (i n : Nat) :
    n - 1 ≤ snstrStores (wordsAt de i n) ∧ snstrStores (wordsAt de i n) ≤ n := by
  have h := snstrStores_bounds (wordsAt de i n)
  rwa [wordsAt, List.length_map, List.length_range] at h

/-- A long name record stores at its first place and at the tenth behind it at least, and nowhere
behind its thirteenth. -/
theorem nameStores_long (hlong : de.getD 11 0 = ATTR_LONG_NAME) {b : Nat}
    (hlo : CHAR_LONG_NAME * m ≤ b) (hhi : b ≤ CHAR_LONG_NAME * m + 9) :
    (∀ i ∈ nameStores de, 0 ≤ i ∧ i < b) ↔ 1 ≤ lcnt de ∧ lcnt de ≤ m := by
  have h1 := snstrStores_wordsAt de 1 5
  have h2 := snstrStores_wordsAt de 14 6
  have h3 := snstrStores_wordsAt de 28 2
  unfold nameStores
  rw [if_pos hlong]
  simp only [List.mem_append, mem_storesFrom]
  unfold CHAR_LONG_NAME at hlo hhi ⊢
  constructor
  · intro h
    have htenth := h ((lcnt de - 1) * 13 + 9) (by omega)
    omega
  · omega

theorem nameStores_short (hlong : de.getD 11 0 ≠ ATTR_LONG_NAME) (hi : i ∈ nameStores de) :
    0 ≤ i ∧ i < FAT32_MAX_FILENAME + 1 := by
  unfold nameStores at hi
  rw [if_neg hlong, mem_storesFrom] at hi
  unfold CHAR_SHORT_NAME at hi
  unfold FAT32_MAX_FILENAME
  omega

/-- Where `snstr` does not store, the byte is the one that was there. -/
theorem getD_snstr_kept {ws : List Nat} {old : List UInt8} {x : Nat} (hx : snstrStores ws ≤ x)
    (hlt : x < ws.length) : (snstr ws old).getD x 0 = old.getD x 0 := by
  induction ws generalizing old x with
  | nil => exact absurd hlt (Nat.not_lt_zero x)
  | cons w ws ih =>
    unfold snstrStores at hx
    rw [List.length_cons] at hlt
    unfold snstr
    split
    · rename_i hw
      rw [if_pos hw] at hx
      obtain rfl : x = ws.length := by omega
      rw [List.getD_append_right _ _ _ _ (by simp [zeros])]
      simp [zeros, List.getD_eq_getElem?_getD]
    · rename_i hw
      rw [if_neg hw] at hx
      obtain ⟨x, rfl⟩ : ∃ y, x = y + 1 := ⟨x - 1, by omega⟩
      rw [List.getD_cons_succ, ih (by omega) (by omega)]
      simp [List.getD_eq_getElem?_getD]

/-- What is not stored by a long name record stays in `filename`. -/
theorem readLong_kept {buf : List UInt8} {x : Nat} (hlen : buf.length = 256)
    (hcount : 1 ≤ lcnt de ∧ lcnt de ≤ 20) (hlong : de.getD 11 0 = ATTR_LONG_NAME) (attr : UInt8)
    (hx : x < 256) (h : (x : Int) ∉ nameStores de) :
    ((readLong de (buf ++ attr :: zeros 3) ((lcnt de - 1) * CHAR_LONG_NAME)).take 256).getD x 0 =
      buf.getD x 0 := by
  unfold nameStores at h
  rw [if_pos hlong] at h
  simp only [List.mem_append, mem_storesFrom] at h
  unfold CHAR_LONG_NAME at h ⊢
  generalize hbase : (lcnt de - 1) * 13 = base
  rw [(readLong_spec de hlen (show base + 13 ≤ 260 by omega) attr).2 x hx]
  split
  · obtain ⟨t, rfl⟩ : ∃ t, x = base + t := ⟨x - base, by omega⟩
    have hdrop : 13 ≤ ((buf ++ attr :: zeros 3).drop base).length := by
      simp [hlen, zeros]
      omega
    have hpart : ∀ i n, i ≤ t → t < i + n →
        (((buf ++ attr :: zeros 3).drop (base + i)).take n).getD (t - i) 0 = buf.getD (base + t) 0 := by
      intro i n hlo hhi
      rw [List.getD_eq_getElem?_getD, List.getElem?_take_of_lt (by omega), List.getElem?_drop,
        show base + i + (t - i) = base + t by omega, ← List.getD_eq_getElem?_getD,
        List.getD_append _ _ _ _ (by omega)]
    rw [Nat.add_sub_cancel_left, getD_parts_eq hdrop]
    split
    · rw [getD_snstr_kept (by omega) (by rw [length_wordsAt]; omega)]
      exact hpart 0 5 (Nat.zero_le t) (by omega)
    split
    · rw [getD_snstr_kept (by omega) (by rw [length_wordsAt]; omega), List.drop_drop]
      exact hpart 5 6 (by omega) (by omega)
    · rw [getD_snstr_kept (by omega) (by rw [length_wordsAt]; omega), List.drop_drop]
      exact hpart 11 2 (by omega) (by omega)
  · rfl

/-! ## The stores of `entNext` -/

variable {p : Option Nat}

namespace Mount

def namedLoop (this : Nat) : (fuel : Nat) → (s : Mount) → (off cnt : Nat) → (islne : Bool) →
    List (List UInt8)
  | 0, _, _, _, _ => []
  | fuel + 1, s, off, cnt, islne =>
    match s.relocClus this off false with
    | .error _ => []
    | .ok (off2, s) =>
      if off2 = -1 then []
      else
        match s.readCur this (u32 off2) 32 with
        | .error _ => []
        | .ok de =>
          if de.getD 0 0 = END_OF_ENTRY then []
          else if de.getD 0 0 = EMPTY_ENTRY then
            namedLoop this fuel s (u32 (off + 32 : Nat)) (cnt + 1) islne
          else if cnt ≠ 0 then []
          else if de.getD 11 0 = ATTR_LONG_NAME then
            de :: namedLoop this fuel s (u32 (off + 32 : Nat)) cnt
              (islne || de.getD 0 0 &&& LAST_LONG_ENTRY != 0)
          else if islne then [] else [de]

/-- What the loop does to the entry: a record with a store outside of `filename` and the four bytes
behind it stops it, and a byte that no name is stored at stays as it is. -/
structure StoresNames (e : DirEnt) (names : List (List UInt8))
    (out : Kern (Int × Nat × DirEnt × Mount)) : Prop where
  wild : (∃ de ∈ names, ¬∀ i ∈ nameStores de, 0 ≤ i ∧ i < (260 : Nat)) → out = .error .wildPointer
  kept : ∀ r, out = .ok r → ∀ x : Nat, x < 256 →
    (∀ de ∈ names, (x : Int) ∉ nameStores de) → r.2.2.1.filename.getD x 0 = e.filename.getD x 0

theorem storesNames_nil {e : DirEnt} {out : Kern (Int × Nat × DirEnt × Mount)}
    (h : ∀ r, out = .ok r → r.2.2.1.filename = e.filename) : StoresNames e [] out where
  wild := by simp
  kept r hr x _ _ := by rw [h r hr]

theorem storesNames_error {e : DirEnt} {err : Fault} : StoresNames e [] (.error err) :=
  storesNames_nil (by rintro _ ⟨⟩)

theorem StoresNames.cons {e e1 : DirEnt} {names : List (List UInt8)}
    {out : Kern (Int × Nat × DirEnt × Mount)} (h : StoresNames e1 names out)
    (hin : ∀ i ∈ nameStores de, 0 ≤ i ∧ i < (260 : Nat)) (hkept : ∀ x : Nat, x < 256 →
      (x : Int) ∉ nameStores de → e1.filename.getD x 0 = e.filename.getD x 0) :
    StoresNames e (de :: names) out where
  wild hwild := h.wild (((List.exists_mem_cons_iff ..).1 hwild).resolve_left (not_not.2 hin))
  kept r hr x hx hnone := by
    rw [h.kept r hr x hx fun de hde => hnone de (List.mem_cons_of_mem _ hde)]
    exact hkept x hx (hnone de List.mem_cons_self)

theorem length_shortName (de : List UInt8) :
    ((de.take 8).takeWhile (· != 0x20) ++ if de.getD 8 0 = 0x20 then [] else
      0x2e :: ((de.drop 8).take 3).takeWhile (· != 0x20)).length ≤ 12 := by
  have hbase := ((de.take 8).takeWhile_sublist (· != 0x20)).length_le
  have hext := (((de.drop 8).take 3).takeWhile_sublist (· != 0x20)).length_le
  rw [List.length_take] at hbase hext
  rw [List.length_append]
  split
  · rw [List.length_nil]
    omega
  · rw [List.length_cons]
    omega

theorem readShort_kept {buf : List UInt8} {x : Nat} (hlong : de.getD 11 0 ≠ ATTR_LONG_NAME)
    (h : (x : Int) ∉ nameStores de) : (readShort de buf).getD x 0 = buf.getD x 0 := by
  have hname := length_shortName de
  unfold nameStores at h
  rw [if_neg hlong, mem_storesFrom] at h
  unfold readShort
  rw [getD_putAt (Nat.zero_le _), if_neg]
  rintro ⟨-, hlt⟩
  rw [List.length_append, zeros, List.length_replicate] at hlt
  unfold CHAR_SHORT_NAME at h hlt
  omega

theorem entNextLoop_stores {this : Nat} {s : Mount} {off cnt : Nat} {islne : Bool} {e : DirEnt}
    (hlen : e.filename.length = 256) (count : Nat) :
    StoresNames e (namedLoop this fuel s off cnt islne)
      (entNextLoop this fuel s e off cnt islne count) := by
  induction fuel generalizing s e off cnt islne count with
  | zero => exact storesNames_error
  | succ fuel ih =>
    unfold namedLoop entNextLoop
    cases s.relocClus this off false with
    | error err => exact storesNames_error
    | ok r =>
    obtain ⟨off2, s⟩ := r
    rw [ok_bind]
    dsimp only
    by_cases hin : off2 = -1
    · rw [if_pos hin, if_pos hin]
      exact storesNames_nil (by rintro _ ⟨⟩; rfl)
    rw [if_neg hin, if_neg hin]
    cases s.readCur this (u32 off2) 32 with
    | error err => exact storesNames_error
    | ok de =>
    rw [ok_bind]
    dsimp only
    split_ifs with hend hgone hcnt hlong hislne
    · exact storesNames_nil (by rintro _ ⟨⟩; rfl)
    · exact ih hlen count
    · exact storesNames_nil (by rintro _ ⟨⟩; rfl)
    · unfold addLong
      dsimp only
      rw [← lcnt]
      have hiff := nameStores_long hlong (b := 260) (m := 20) (by decide) (by decide)
      split
      · exact ⟨fun _ => rfl, by rintro _ ⟨⟩⟩
      rename_i hcount
      unfold FAT32_MAX_FILENAME CHAR_LONG_NAME at hcount
      have hrange : 1 ≤ lcnt de ∧ lcnt de ≤ 20 := by omega
      rw [ok_bind]
      exact .cons (ih (readLong_spec de hlen (by unfold CHAR_LONG_NAME; omega) e.attr).1 _)
        (hiff.2 hrange) fun x hx => readLong_kept hlen hrange hlong e.attr hx
    · exact storesNames_nil (by rintro _ ⟨⟩; rfl)
    · refine .cons (storesNames_nil (by rintro _ ⟨⟩; rfl)) (fun i hi => ?_) fun x _ hx =>
        readShort_kept hlong hx
      have := nameStores_short hlong hi
      unfold FAT32_MAX_FILENAME at this
      omega

/-- The checks that `entNext` makes before it stores. -/
def EntNextGoes (s : Mount) (this : Nat) (e : DirEnt) (off : Nat) : Prop :=
  (s.ents this).has ATTR_DIRECTORY = true ∧ e.valid = .unused ∧ off % 32 = 0 ∧
    (s.ents this).valid = .live
  deriving Decidable

/-- The records whose names `entNext` reads. -/
def named (s : Mount) (this : Nat) (e : DirEnt) (off : Nat) : List (List UInt8) :=
  if s.EntNextGoes this e off then
    match s.resolveLink this with
    | .error _ => []
    | .ok s => namedLoop this (2 ^ 28) s off 0 false
  else []

/-- The indices in `filename` at which `entNext` stores: those of its memset and of the names that
it reads. -/
def entNextStores (s : Mount) (this : Nat) (e : DirEnt) (off : Nat) : List Int :=
  if s.EntNextGoes this e off then
    storesFrom 0 (FAT32_MAX_FILENAME + 1) ++ (s.named this e off).flatMap nameStores
  else []

theorem entNext_stores (s : Mount) (this : Nat) (e : DirEnt) (off count : Nat) :
    StoresNames (if s.EntNextGoes this e off then { e with filename := zeros 256 } else e)
      (s.named this e off) (s.entNext this e off count) := by
  unfold named entNext
  by_cases hgoes : s.EntNextGoes this e off
  · rw [if_pos hgoes, if_pos hgoes]
    obtain ⟨hdir, hunused, halign, hlive⟩ := hgoes
    rw [if_neg (by rw [hdir]; nofun), if_neg (not_not.2 hunused), if_neg (not_not.2 halign),
      if_neg (not_not.2 hlive)]
    cases s.resolveLink this with
    | error err => exact storesNames_error
    | ok s =>
      rw [ok_bind]
      exact entNextLoop_stores (List.length_replicate ..) count
  · rw [if_neg hgoes, if_neg hgoes]
    split_ifs with hdir hunused halign hlive
    · exact storesNames_error
    · exact storesNames_error
    · exact storesNames_error
    · exact storesNames_nil (by rintro _ ⟨⟩; rfl)
    · exact absurd ⟨Bool.eq_true_of_not_eq_false hdir, not_not.1 hunused, not_not.1 halign,
        not_not.1 hlive⟩ hgoes

/-- **The stores of `entNext` are inside of `filename`** exactly if the order byte of every long name
record that it reads is 1 to 19, but for the mark of the last one. Its stores are those listed. -/
theorem entNextStores_inside_iff (s : Mount) (this : Nat) (e : DirEnt) (off : Nat) :
    ((∀ i ∈ s.entNextStores this e off, 0 ≤ i ∧ i ≤ 255) ↔
      ∀ de ∈ s.named this e off, de.getD 11 0 = ATTR_LONG_NAME → 1 ≤ lcnt de ∧ lcnt de ≤ 19) ∧
    ∀ count, StoresNames (if s.EntNextGoes this e off then { e with filename := zeros 256 } else e)
      (s.named this e off) (s.entNext this e off count) := by
  refine ⟨?_, entNext_stores s this e off⟩
  have hbound : ∀ i : Int, i ≤ 255 ↔ i < (256 : Nat) := by omega
  unfold entNextStores
  by_cases hgoes : s.EntNextGoes this e off
  · rw [if_pos hgoes]
    simp only [List.mem_append, List.mem_flatMap, mem_storesFrom, hbound]
    constructor
    · intro h de hde hlong
      exact (nameStores_long hlong (by decide) (by decide)).1 fun i hi => h i (.inr ⟨de, hde, hi⟩)
    · rintro h i (hi | ⟨de, hde, hi⟩)
      · exact hi
      · by_cases hlong : de.getD 11 0 = ATTR_LONG_NAME
        · exact (nameStores_long hlong (by decide) (by decide)).2 (h de hde hlong) i hi
        · exact nameStores_short hlong hi
  · unfold named
    simp [hgoes]

def longest : Mount where
  sb := smallBlock
  disk := {
    bcache _ sec i := if sec = 1 ∧ i < 12 then 0xff
      else if sec = 2 then (longRecord (List.replicate 255 0x61) 20 20 0).getD i 0 else 0
    allocs := [] }
  ents _ := { emptyEnt with attr := ATTR_DIRECTORY, firstClus := 2, curClus := 2 }
  lru := []
  root := 0

theorem entNextStores_longest : ¬∀ i ∈ longest.entNextStores 0 { emptyEnt with valid := .unused } 0,
    0 ≤ i ∧ i ≤ 255 := by
  decide +kernel

/-! ## A name there and back -/

variable {s s1 s' : Mount} {this off : Nat} {cs cs1 cs' : List Nat} {as bs name : List UInt8}

/-- A directory that can be written and extended. -/
structure Growable (s : Mount) (this : Nat) (cs : List Nat) : Prop extends Walk s this cs where
  dev : s.sb.dev = 0
  low : Low s.sb s.disk

/-- The bytes `bs` were put into the directory at `off`. -/
structure Put (s s' : Mount) (this : Nat) (cs cs' : List Nat) (off : Nat) (bs : List UInt8) :
    Prop where
  growable : s'.Growable this cs'
  sb : s'.sb = s.sb
  same : SameFile (s.ents this) (s'.ents this)
  touches : s.sb.Touches s.disk s'.disk cs cs'
  wrote : Wrote s.sb s.disk s'.disk cs cs' off bs
  fits : bs ≠ [] → off + bs.length ≤ s.sb.bytsPerClus * cs'.length

theorem Put.append (p : Put s s1 this cs cs1 off as) (hne : as ≠ [])
    (p' : Put s1 s' this cs1 cs' (off + as.length) bs) : Put s s' this cs cs' off (as ++ bs) := by
  have ht := p'.touches
  have hw := p'.wrote
  have hf := p'.fits
  rw [p.sb] at ht hw hf
  have hle := Nat.mul_le_mul_left s.sb.bytsPerClus ht.grows.length_le
  refine ⟨p'.growable, p'.sb.trans p.sb, p.same.trans p'.same, p.touches.trans ht,
    p.wrote.append hw (p.fits hne) p.touches.grows.length_le, fun _ => ?_⟩
  rw [List.length_append]
  by_cases hbs : bs = []
  · rw [hbs]
    exact (p.fits hne).trans hle
  · have := hf hbs
    omega

section

variable (w : s.Growable this cs) (ha : off % 32 = 0)
include w ha

/-- **A record** is written if there is room for it. -/
theorem Growable.writeRecord (hlen : bs.length = 32)
    (hroom : off + 32 ≤ s.sb.bytsPerClus * (cs.length + s.sb.freeCount s.disk)) :
    ∃ s' cs', s.writeRecord this off bs = .ok s' ∧ Put s s' this cs cs' off bs := by
  obtain ⟨d1, e1, cs', hreloc, r⟩ := relocClus_room w.geometry w.dev w.chain w.cursor w.low off
    (Nat.div_lt_of_lt_mul (by omega))
  have hfit := record_fits w.geometry ha
  have hlt := w.geometry.bytsPerClus_lt
  obtain ⟨d2, hwrite, t, wr⟩ := r.write w.geometry bs (by omega)
  have hself : (s.setEnt this d2 e1).ents this = e1 := by rw [setEnt_at]
  refine ⟨s.setEnt this d2 e1, cs', ?_, ⟨⟨w.geometry, t.grows.chain, ?_, ?_, ?_⟩, w.dev,
    w.low.touches t⟩, rfl, ?_, t, wr, fun _ => ?_⟩
  · unfold Mount.writeRecord Mount.relocClus Mount.writeCur
    rw [hreloc, ok_bind, ok_bind]
    dsimp only
    rw [setEnt_at, u32_of_lt (by omega)]
    change (s.sb.rwClusWrite d1 e1.curClus _ bs >>= _) = _
    rw [hwrite, ok_bind]
    rfl
  · rw [hself]
    exact r.at w.cursor
  · rw [hself, r.sameFile]
    exact w.dir
  · rw [hself, r.sameFile]
    exact w.noLink
  · rw [hself]
    exact r.sameFile
  · have hidx := (List.getElem?_eq_some_iff.1 r.cur).1
    have hmul := Nat.mul_le_mul_left s.sb.bytsPerClus hidx
    have := Nat.div_add_mod off s.sb.bytsPerClus
    rw [Nat.mul_succ] at hmul
    omega

theorem Growable.writeLong (filename : List UInt8) (entcnt : Nat) (sum : UInt8) {i : Nat}
    (hlt : off + 32 * i < 2 ^ 32)
    (hroom : off + 32 * i ≤ s.sb.bytsPerClus * (cs.length + s.sb.freeCount s.disk)) :
    ∃ s' cs', Mount.writeLong this filename entcnt sum i s off = .ok (off + 32 * i, s') ∧
      Put s s' this cs cs' off (nameRecords filename entcnt sum i) := by
  induction i generalizing s cs off with
  | zero => exact ⟨s, cs, rfl, w, rfl, .refl _, .refl w.chain, .refl _ _ _, nofun⟩
  | succ i ih =>
    have hlen := length_longRecord filename entcnt (i + 1) sum
    obtain ⟨s1, cs1, hrec, p⟩ := w.writeRecord ha hlen (by omega)
    obtain ⟨s', cs', hrest, p'⟩ := ih p.growable (show (off + 32) % 32 = 0 by omega) (by omega)
      (by rw [p.sb, p.touches.room]; omega)
    rw [← hlen] at p'
    refine ⟨s', cs', ?_, p.append (List.ne_nil_of_length_pos (by omega)) p'⟩
    unfold Mount.writeLong
    rw [hrec, ok_bind, u32_of_lt (by omega), hrest]
    congr 2
    omega

/-- **The records of an entry** are written if there is room for them. -/
theorem Growable.entCreateOnDisk (hoff : 32 < off) {e : DirEnt}
    (hname : 1 ≤ (cstr e.filename).length) (hlt : off + (records e).length ≤ 2 ^ 32)
    (hroom : off + (records e).length ≤ s.sb.bytsPerClus * (cs.length + s.sb.freeCount s.disk)) :
    ∃ s' cs', s.entCreateOnDisk this e off = .ok s' ∧ Put s s' this cs cs' off (records e) := by
  rw [length_records] at hlt hroom
  have hpos : 0 < ((cstr e.filename).length + CHAR_LONG_NAME - 1) / CHAR_LONG_NAME := by
    unfold CHAR_LONG_NAME
    omega
  unfold records
  unfold Mount.entCreateOnDisk
  rw [if_neg (by rw [w.dir]; nofun), if_neg (not_not.2 ha), if_neg (by omega)]
  dsimp only
  generalize ((cstr e.filename).length + CHAR_LONG_NAME - 1) / CHAR_LONG_NAME = n at hlt hroom hpos ⊢
  generalize getCheckSum (getShortName (cstr e.filename)) = sum
  have hlong := length_nameRecords e.filename n sum n
  obtain ⟨s1, cs1, hok1, p1⟩ := w.writeLong ha e.filename n sum (i := n) (by omega) (by omega)
  obtain ⟨s', cs', hok, p⟩ := p1.growable.writeRecord (show (off + 32 * n) % 32 = 0 by omega)
    (length_shortRecord (length_getShortName (cstr e.filename)) e.attr e.firstClus e.fileSize)
    (by rw [p1.sb, p1.touches.room]; omega)
  rw [← hlong] at p
  refine ⟨s', cs', ?_, p1.append (List.ne_nil_of_length_pos (by omega)) p⟩
  rw [hok1, ok_bind]
  exact hok

end

theorem mem_shortLoop {P : UInt8 → Prop} (hblank : P 0x20)
    (hchar : ∀ c ∈ name, c ≠ 0x2e → P (shortChar c))
    (hout : ∀ c ∈ out, P c) : ∀ c ∈ shortLoop name fuel k p out, P c := by
  fun_induction shortLoop name fuel k p out
  case case1 | case2 | case3 | case4 => exact hout
  case case5 ih | case6 ih | case8 ih => exact ih hout
  case case7 ih =>
    refine ih fun c hc => (List.mem_append.1 hc).elim (hout c) fun hc => ?_
    rw [List.eq_of_mem_replicate hc]
    exact hblank
  case case9 hk _ _ hdot ih =>
    refine ih fun c hc => (List.mem_append.1 hc).elim (hout c) fun hc => ?_
    rw [List.mem_singleton.1 hc]
    exact hchar _ (List.mem_of_getElem? hk) hdot

theorem getShortName_first (h : ∀ c ∈ name, 1 ≤ c ∧ c ≤ 127) :
    (getShortName name).getD 0 0 ≠ END_OF_ENTRY ∧ (getShortName name).getD 0 0 ≠ EMPTY_ENTRY := by
  have hall : ∀ c ∈ getShortName name, c ≠ END_OF_ENTRY ∧ c ≠ EMPTY_ENTRY := by
    intro c hc
    rcases List.mem_append.1 hc with hc | hc
    · refine mem_shortLoop (P := fun c => c ≠ END_OF_ENTRY ∧ c ≠ EMPTY_ENTRY) (by decide)
        (fun c hc _ => ?_) (fun _ hc => absurd hc List.not_mem_nil) c hc
      exact shortChar_ne (by grind) (by unfold EMPTY_ENTRY; grind)
    · rw [List.eq_of_mem_replicate hc]
      decide
  have hlen := length_getShortName name
  refine hall _ ?_
  rw [List.getD_eq_getElem _ _ (by rw [hlen]; decide)]
  exact List.getElem_mem _

theorem ofEnt_shortRecord (hname : name.length = CHAR_SHORT_NAME) (e : DirEnt)
    (attr : UInt8) {firstClus fileSize : Nat} (hfirst : firstClus < 2 ^ 32)
    (hsize : fileSize < 2 ^ 32) : (e.ofEnt (shortRecord name attr firstClus fileSize)).attr = attr ∧
      (e.ofEnt (shortRecord name attr firstClus fileSize)).firstClus = firstClus ∧
      (e.ofEnt (shortRecord name attr firstClus fileSize)).fileSize = fileSize := by
  have hget : ∀ k, (shortRecord name attr firstClus fileSize).getD (11 + k) 0 =
      (attr :: zeros 8 ++ le16 (firstClus >>> 16) ++ zeros 4 ++ le16 firstClus ++
        le32 fileSize).getD k 0 := by
    intro k
    unfold shortRecord
    simp only [List.append_assoc]
    rw [List.getD_append_right _ _ _ _ (by rw [hname]; exact Nat.le_add_right ..), hname]
    exact congrArg (List.getD _ · 0) (Nat.add_sub_cancel_left ..)
  unfold ofEnt le16At
  rw [hget 0, hget 9, hget 10, hget 15, hget 16, hget 17, hget 18, hget 19, hget 20]
  simp only [zeros, le16, le32, List.replicate, List.cons_append, List.nil_append, List.getD_cons_zero,
    List.getD_cons_succ, UInt8.toNat_ofNat', true_and]
  rw [← Nat.shiftLeft_add_eq_or_of_lt (by omega), Nat.shiftLeft_eq, Nat.shiftRight_eq_div_pow]
  omega

/-- **Long names survive**: what `entCreateOnDisk` writes behind the records of `.` and `..` of a
directory with room for it, `entNext` reads. -/
theorem entNext_entCreateOnDisk (w : s.Growable this cs) (hlive : (s.ents this).valid = .live)
    {e x : DirEnt} (hname : 1 ≤ (cstr e.filename).length ∧ (cstr e.filename).length ≤ 255)
    (hascii : ∀ c ∈ cstr e.filename, 1 ≤ c ∧ c ≤ 127) (hattr : e.attr ≠ ATTR_LONG_NAME)
    (hfirst : e.firstClus < 2 ^ 32) (hsize : e.fileSize < 2 ^ 32) (hoff : 64 ≤ off)
    (ha : off % 32 = 0) (hlt : off + 32 * (((cstr e.filename).length + 12) / 13 + 1) ≤ 2 ^ 32)
    (hroom : off + 32 * (((cstr e.filename).length + 12) / 13 + 1) ≤
      s.sb.bytsPerClus * (cs.length + s.sb.freeCount s.disk)) (hx : x.valid = .unused) (count : Nat) :
    ∃ s' s'' x', s.entCreateOnDisk this e off = .ok s' ∧
      s'.entNext this x off count = .ok (1, ((cstr e.filename).length + 12) / 13 + 1, x', s'') ∧
      cstr x'.filename = cstr e.filename ∧ x'.attr = e.attr ∧ x'.firstClus = e.firstClus ∧
      x'.fileSize = e.fileSize := by
  have hlen := length_records e
  change _ = 32 * (((cstr e.filename).length + 12) / 13 + 1) at hlen
  rw [← hlen] at hlt hroom
  obtain ⟨s', cs', hok, p⟩ := w.entCreateOnDisk ha (by omega) hname.1 hlt hroom
  have hfits := p.fits (List.ne_nil_of_length_pos (by omega))
  obtain ⟨D, hD⟩ : ∃ D, s'.sb.data s'.disk cs' = D := ⟨_, rfl⟩
  have hbytes : ∀ o, off ≤ o → o < off + (records e).length →
      D.byte o = (records e).getD (o - off) 0 := by
    intro o hlo hhi
    rw [← hD, p.sb]
    exact (p.wrote o (by omega)).1 ⟨hlo, hhi⟩
  have hDsize : off + (records e).length ≤ D.size := by
    rw [← hD, p.sb]
    exact hfits
  obtain ⟨hentry, hname'⟩ := entry_of_records ha hname (getShortName_first hascii) hattr hDsize hbytes
  change D.Entry off (((cstr e.filename).length + 12) / 13) at hentry
  obtain ⟨s'', x', -, -, hnext, -, hread, x₀, rfl⟩ := p.growable.entNextLoop_entry hD (by omega) hentry
    (Nat.zero_le _) (e := { x with filename := zeros 256 }) (show _ < 2 ^ 28 by omega)
    (spelled_zeros D off _) count
  have hshort : D.record (off + 32 * (((cstr e.filename).length + 12) / 13)) =
      shortRecord (getShortName (cstr e.filename)) e.attr e.firstClus e.fileSize := by
    have hlen' := length_shortRecord (length_getShortName (cstr e.filename)) e.attr e.firstClus
      e.fileSize
    refine List.ext_getElem (by simp [record, hlen']) fun k hk hk' => ?_
    rw [← List.getD_eq_getElem _ 0, ← List.getD_eq_getElem _ 0, getD_record (by omega),
      hbytes _ (by omega) (by omega), Nat.add_assoc, Nat.add_sub_cancel_left]
    unfold records
    rw [List.getD_append_right _ _ _ _ (by rw [length_nameRecords]; exact Nat.le_add_right ..),
      length_nameRecords]
    exact congrArg (List.getD _ · 0) (Nat.add_sub_cancel_left ..)
  rw [hshort] at hnext hread
  refine ⟨s', s'', _, hok, ?_, hread.trans hname',
    ofEnt_shortRecord (length_getShortName _) x₀ e.attr hfirst hsize⟩
  rw [p.growable.entNext_eq (by rw [p.same]; exact hlive) ha hx]
  exact hnext

/-- The second record of a name of 13 characters needs another cluster. -/
theorem entNext_entCreateOnDisk_straddling : ∃ s' s'' x',
    (mounted smallBlock).entCreateOnDisk 0
      { emptyEnt with filename := List.replicate 13 0x61 } 480 = .ok s' ∧
    s'.entNext 0 { emptyEnt with valid := .unused } 480 0 = .ok (1, 2, x', s'') ∧
    cstr x'.filename = List.replicate 13 0x61 ∧ x'.attr = ATTR_ARCHIVE ∧ x'.firstClus = 0 ∧
    x'.fileSize = 0 :=
  have w : (mounted smallBlock).Growable 0 [2] :=
    ⟨⟨smallBlock_geometry, (grows_formatted smallBlock_geometry (by decide +kernel)).chain,
      ⟨rfl, rfl⟩, rfl, rfl⟩, rfl, by decide +kernel, by decide +kernel⟩
  entNext_entCreateOnDisk w (e := { emptyEnt with filename := List.replicate 13 0x61 }) rfl
    (by decide) (by decide +kernel) (by decide) (by decide) (by decide) (by decide) rfl (by decide)
    (by decide +kernel) rfl 0

end Mount

/-! ## The stores of `getShortName` -/

/-- Stores at `shortname + i`, where `i` is the length of `out`. -/
def storeAt (out bs : List UInt8) : Kern (List UInt8) :=
  if out.length + bs.length ≤ CHAR_SHORT_NAME then .ok (out ++ bs)
  else .error (.outOfBounds (out.length + bs.length - 1))

/-- The body of `shortLoop` with its stores. The length `8-i` of the `memset` is negative if `i` is
greater than 8. -/
def storeLoop (name : List UInt8) : (fuel k : Nat) → (p : Option Nat) → (out : List UInt8) →
    Kern (List UInt8)
  | 0, _, _, _ => .error .diverges
  | fuel + 1, k, p, out =>
    if CHAR_SHORT_NAME ≤ out.length then .ok out
    else
      match name[k]? with
      | none => .ok out
      | some c =>
        if out.length = 8 ∧ p.isSome then
          if p.getD 0 < k then .ok out else storeLoop name fuel (p.getD 0 + 1) none out
        else if c = 0x20 then storeLoop name fuel (k + 1) p out
        else if c = 0x2e then
          if p.getD 0 < k + 1 then
            if 8 < out.length then .error (.outOfBounds (8 - out.length))
            else storeAt out (List.replicate (8 - out.length) 0x20) >>= storeLoop name fuel (k + 1) none
          else storeLoop name fuel (k + 1) p out
        else storeAt out [shortChar c] >>= storeLoop name fuel (k + 1) p

/-- The last dot is looked for from `int j = strlen(name) - 1` on. -/
def lastDot (name : List UInt8) : Nat :=
  ((List.range (toInt ((name.length : Int) - 1) + 1).toNat).reverse.find? fun j =>
    name[j]? == some 0x2e).getD 0

def storeShortName (name : List UInt8) : Kern (List UInt8) := do
  let out ← storeLoop name (name.length + 1) 0 (some (lastDot name)) []
  storeAt out (List.replicate (CHAR_SHORT_NAME - out.length) 0x20)

/-- Neither a lower-case letter nor a dot nor a character that is illegal in a short name. -/
def IsShortChar (c : UInt8) : Prop :=
  ¬(0x61 ≤ c ∧ c ≤ 0x7a) ∧ c ∉ ([0x2e, 0x2b, 0x2c, 0x3b, 0x3d, 0x5b, 0x5d] : List UInt8)
  deriving Decidable

/-- All stores are in the field, and all its characters are stored. -/
def StaysInField (name : List UInt8) : Prop :=
  ∃ out, storeShortName name = .ok out ∧ out.length = CHAR_SHORT_NAME ∧ ∀ c ∈ out, IsShortChar c

theorem isShortChar_shortChar {c : UInt8} (h : c ≠ 0x2e) : IsShortChar (shortChar c) := by
  have hfin : ∀ n : Fin 256, UInt8.ofNat n ≠ 0x2e → IsShortChar (shortChar (UInt8.ofNat n)) := by
    decide +kernel
  have hc := hfin ⟨c.toNat, c.toNat_lt⟩
  rw [UInt8.ofNat_toNat] at hc
  exact hc h

section

variable {name : List UInt8}

/-- **No store leaves the field** as long as no dot comes behind `p`: the part before the last dot
has at most 8 characters, and behind it there is no `memset`. -/
theorem storeLoop_eq (hfuel : name.length < fuel + k) (hk : k ≤ name.length)
    (hdots : ∀ j, k ≤ j → name[j]? = some 0x2e → ∃ q, p = some q ∧ j ≤ q)
    (hp : ∀ q, p = some q → (q = 0 ∨ q < name.length) ∧ out.length ≤ 8) :
    storeLoop name fuel k p out = .ok (shortLoop name fuel k p out) := by
  fun_induction shortLoop name fuel k p out
  case case1 => omega
  case case2 hfull => exact if_pos hfull
  all_goals rw [storeLoop, if_neg ‹_›, ‹name[_]? = _›]
  case case4 h8 hlt =>
    dsimp only
    rw [if_pos h8, if_pos hlt]
  all_goals
    have hlt := (List.getElem?_eq_some_iff.1 ‹name[_]? = some _›).1
    dsimp only
  case case5 p _ _ _ _ h8 hlt ih =>
    obtain ⟨q, rfl⟩ := Option.isSome_iff_exists.1 h8.2
    have hq := (hp q rfl).1
    dsimp only [Option.getD_some] at *
    rw [if_pos h8, if_neg hlt]
    refine ih (by omega) (by omega) (fun j hj hdot => ?_) (fun _ h => by cases h)
    obtain ⟨q', hq', hle⟩ := hdots j (by omega) hdot
    cases hq'
    omega
  all_goals
    have hdots' := fun j hj => hdots j (Nat.le_of_lt hj)
    rw [if_neg ‹¬(_ ∧ _)›]
  case case6 ih =>
    rw [if_pos rfl]
    exact ih (by omega) hlt hdots' hp
  case case7 k p out _ _ hle hdot _ ih =>
    rw [if_neg (by decide), if_pos rfl, if_pos hle]
    obtain ⟨q, rfl, hq⟩ := hdots k le_rfl hdot
    have hout := (hp q rfl).2
    have hstore : storeAt out (List.replicate (8 - out.length) 0x20) =
        .ok (out ++ List.replicate (8 - out.length) 0x20) :=
      if_pos (by rw [List.length_replicate]; unfold CHAR_SHORT_NAME; omega)
    rw [if_neg (Nat.not_lt.2 hout), hstore, ok_bind]
    refine ih (by omega) hlt (fun j hj hdot => ?_) (fun _ h => by cases h)
    obtain ⟨q', hq', hle'⟩ := hdots' j hj hdot
    cases hq'
    rw [Option.getD_some] at hle
    omega
  case case8 hnot _ _ ih =>
    rw [if_neg (by decide), if_pos rfl, if_neg hnot]
    exact ih (by omega) hlt hdots' hp
  case case9 out hfull c hc hno hblank hdot ih =>
    have hstore : storeAt out [shortChar c] = .ok (out ++ [shortChar c]) :=
      if_pos (Nat.lt_of_not_le hfull)
    rw [if_neg hblank, if_neg hdot, hstore, ok_bind]
    refine ih (by omega) hlt hdots' fun q hq => ⟨(hp q hq).1, ?_⟩
    have hout := (hp q hq).2
    rw [hq] at hno
    have hne : out.length ≠ 8 := fun h => hno ⟨h, rfl⟩
    rw [List.length_append, List.length_singleton]
    omega

theorem le_find_range {P : Nat → Bool} {j : Nat} (hj : j < n) (h : P j = true) :
    ∃ q, (List.range n).reverse.find? P = some q ∧ j ≤ q := by
  induction n with
  | zero => omega
  | succ n ih =>
    rw [List.range_succ, List.reverse_append, List.reverse_singleton, List.singleton_append,
      List.find?_cons]
    cases hP : P n with
    | true => exact ⟨n, rfl, Nat.le_of_lt_succ hj⟩
    | false =>
      have hne : j ≠ n := by
        rintro rfl
        rw [h] at hP
        cases hP
      exact ih (by omega)

theorem storeShortName_eq (h : name.length ≤ 2 ^ 31) :
    storeShortName name = .ok (getShortName name) := by
  have hlen : (toInt ((name.length : Int) - 1) + 1).toNat = name.length := by
    rcases Nat.eq_zero_or_pos name.length with h0 | hpos
    · rw [h0]
      rfl
    · rw [toInt_of_nonneg (by omega) (by omega)]
      omega
  unfold storeShortName getShortName lastDot
  rw [hlen]
  dsimp only
  rw [storeLoop_eq (Nat.lt_succ_self _) (Nat.zero_le _) ?_ ?_, ok_bind]
  · refine if_pos (Nat.le_of_eq ?_)
    rw [List.length_replicate]
    exact Nat.add_sub_of_le (length_shortLoop _ _ _ _ _ (Nat.zero_le _))
  · intro j _ hj
    have hdot : (name[j]? == some 0x2e) = true := beq_iff_eq.2 hj
    obtain ⟨q, hq, hle⟩ := le_find_range (P := fun j => name[j]? == some 0x2e)
      (List.getElem?_eq_some_iff.1 hj).1 hdot
    exact ⟨q, by rw [hq]; rfl, hle⟩
  · rintro q hq
    cases hq
    refine ⟨?_, Nat.zero_le _⟩
    cases hfind : (List.range name.length).reverse.find? fun j => name[j]? == some 0x2e with
    | none => exact .inl rfl
    | some q =>
      have hmem := List.mem_of_find?_eq_some hfind
      exact .inr (List.mem_range.1 (List.mem_reverse.1 hmem))

theorem stays_of_le (h : name.length ≤ 2 ^ 31) : StaysInField name := by
  refine ⟨_, storeShortName_eq h, length_getShortName name, fun c hc => ?_⟩
  rcases List.mem_append.1 hc with hc | hc
  · exact Mount.mem_shortLoop (P := IsShortChar) (by decide) (fun c _ => isShortChar_shortChar)
      (fun _ hc => absurd hc List.not_mem_nil) c hc
  · rw [List.eq_of_mem_replicate hc]
    decide

end

/-- **`getShortName` stays in its field.** Its only caller passes an array of 256 characters; the
index of a character is an `int`. -/
theorem getShortName_stays (name : List UInt8) (h : (cstr name).length ≤ 2 ^ 31) :
    StaysInField (cstr name) :=
  stays_of_le h

/-- The name `a. b.c`. -/
theorem getShortName_stays_dots : StaysInField [0x61, 0x2e, 0x20, 0x62, 0x2e, 0x63] :=
  getShortName_stays [0x61, 0x2e, 0x20, 0x62, 0x2e, 0x63] (by decide)

end LuoOS.Fs
