import LuoOS.Fs.FileStore

/-!
# Every cluster has one owner

The entries in use own the clusters of a volume: each has the chain from its first cluster on, no
cluster is in two chains, and none that is taken is in no chain. `Mount.Sound` is this invariant;
`kind` says what the entry of a slot counts for, which is its `valid` except while `entCreate` is at
work.

The contents of the directories do not matter: a record in a wrong place is still in the data area.
What matters is that the cursor is right when a directory is extended, which is not so after its
`entTrunc`.
-/

namespace LuoOS.Fs

open ChainTable DirEnt Function

/-! ## Transfers -/

variable {bs : List UInt8}

section Transfers

variable {sb : SuperBlock} {d d' : Disk} {c off : Nat}

/-- A volume on device 0, of sound geometry, whose table has at most `2 ^ 32` entries, and that ends
more than 4 GiB before the last sector a `uint32` can name. -/
structure SuperBlock.Usable (sb : SuperBlock) : Prop where
  geometry : sb.Geometry
  dev : sb.dev = 0
  entries : 128 * sb.fatSz ≤ 2 ^ 32
  sectors : sb.totSec + 2 ^ 23 ≤ 2 ^ 32

section

variable (u : sb.Usable) (hc : sb.InRange c) (hoff : off < 2 ^ 32)
include u hc hoff

/-- Wherever in its cluster or behind it a transfer starts, no sector number wraps around. -/
theorem SuperBlock.Usable.start_sector :
    sb.firstDataSec ≤ sb.firstSec c + off / 512 ∧ sb.firstSec c + off / 512 + 1 < 2 ^ 32 := by
  have hb := u.geometry.firstSec_bounds hc
  have hspc := u.geometry.cluster
  have hsec := u.sectors
  omega

/-- **No transfer reaches the table**, not even one that starts behind the end of its cluster. -/
theorem SuperBlock.Usable.fat_rwClusWrite (hlen : bs.length ≤ 512)
    (h : sb.rwClusWrite d c off bs = .ok d') (x : Nat) : sb.fat d' x = sb.fat d x := by
  obtain ⟨hlo, hhi⟩ := u.start_sector hc hoff
  have hstart := u.geometry.start_address c off (by omega)
  have hbyte := byte_rwWriteLoop sb.dev d.bcache (u32 (sb.firstSec c + off / sb.bytsPerSec : Nat))
    (off % sb.bytsPerSec) (Nat.le_refl bs.length) (by omega) (by rw [u.geometry.sector]; omega)
  unfold rwClusWrite at h
  split at h
  · cases h
  cases h
  apply u.geometry.fat_congr
  intro a ha
  rw [hbyte, if_neg]
  omega

theorem SuperBlock.Usable.length_rwClusRead {len : Nat} (hlen : len ≤ 512)
    (h : sb.rwClusRead d c off len = .ok bs) : bs.length = len := by
  obtain ⟨hlo, hhi⟩ := u.start_sector hc hoff
  have hstart := u.geometry.start_address c off (by omega)
  unfold rwClusRead at h
  split at h
  · cases h
  · cases h
    rw [rwReadLoop_eq le_rfl (by omega) (by rw [u.geometry.sector]; omega)]
    simp

end

end Transfers

/-! ## Records -/

theorem length_longChars (n : Nat) (ended : Bool) (p : List UInt8) :
    (longChars n ended p).length = 2 * n := by
  induction n generalizing ended p with
  | zero => rfl
  | succ n ih => cases ended <;> simp [longChars, ih] <;> omega

theorem length_longRecord (filename : List UInt8) (entcnt i : Nat) (sum : UInt8) :
    (longRecord filename entcnt i sum).length = 32 := by
  simp [longRecord, length_longChars, CHAR_LONG_NAME]

theorem length_shortLoop (name : List UInt8) (fuel k : Nat) (p : Option Nat) (out : List UInt8)
    (h : out.length ≤ CHAR_SHORT_NAME) :
    (shortLoop name fuel k p out).length ≤ CHAR_SHORT_NAME := by
  fun_induction shortLoop name fuel k p out
  case case1 | case2 | case3 | case4 => exact h
  case case5 ih | case6 ih | case8 ih => exact ih h
  case case7 ih | case9 ih =>
    simp [CHAR_SHORT_NAME] at *
    omega

theorem length_getShortName (name : List UInt8) : (getShortName name).length = CHAR_SHORT_NAME := by
  have h := length_shortLoop name (name.length + 1) 0
    (some (((List.range name.length).reverse.find? fun j => name[j]? == some 0x2e).getD 0)) []
    (Nat.zero_le _)
  simp only [getShortName, List.length_append, List.length_replicate]
  omega

theorem length_dotName (off : Nat) : (Mount.dotName off).length = CHAR_SHORT_NAME := by
  unfold Mount.dotName
  split <;> rfl

theorem length_shortRecord {name : List UInt8} (h : name.length = CHAR_SHORT_NAME) (attr : UInt8)
    (firstClus fileSize : Nat) : (shortRecord name attr firstClus fileSize).length = 32 := by
  simp [shortRecord, h, CHAR_SHORT_NAME, zeros, le16, le32]

theorem length_putAt {buf : List UInt8} {i : Nat} (h : i + bs.length ≤ buf.length) :
    (putAt buf i bs).length = buf.length := by
  simp only [putAt, List.length_append, List.length_take, List.length_drop]
  omega

theorem length_updated {de : List UInt8} (h : de.length = 32) (hi lo size : Nat) :
    (putAt (putAt de 20 (le16 hi)) 26 (le16 lo ++ le32 size)).length = 32 := by
  have hfirst : (putAt de 20 (le16 hi)).length = 32 := by
    rw [length_putAt (by simp [h, le16]), h]
  rw [length_putAt (by rw [hfirst]; exact Nat.le_refl 32), hfirst]

/-! ## Giving a chain back -/

def SuperBlock.SameBytes (sb : SuperBlock) (d d' : Disk) : Prop :=
  ∀ c k, sb.InRange c → k < sb.bytsPerClus → sb.clusByte d' c k = sb.clusByte d c k

namespace DirEnt

variable {sb : SuperBlock} {d d' : Disk} {e e' : DirEnt} {cs : List Nat}

/-- The clusters that `entTrunc` meets from `first` on. -/
inductive Met (sb : SuperBlock) (d : Disk) (first : Nat) : Nat → Prop
  | first : Met sb d first first
  | next {c : Nat} : Met sb d first c → sb.InRange c → Met sb d first (sb.fat d c)

/-- What was met is free, and nothing else has changed. -/
structure Emptied (sb : SuperBlock) (d d' : Disk) (first : Nat) : Prop where
  free : ∀ c, sb.InRange c → Met sb d first c → sb.fat d' c = 0
  keep : ∀ c, ¬(sb.InRange c ∧ Met sb d first c) → sb.fat d' c = sb.fat d c
  bytes : ∀ dv a, (∀ c, sb.InRange c → Met sb d first c → ¬(dv = 0 ∧
    512 * sb.rsvdSecCnt + 4 * c ≤ a ∧ a < 512 * sb.rsvdSecCnt + 4 * c + 4)) →
      d'.bcache.byte dv a = d.bcache.byte dv a
  allocs : d'.allocs = d.allocs

section Truncation

variable {c first x : Nat}

theorem Met.eq_of_not (h : Met sb d first x) (hfirst : ¬sb.InRange first) : x = first := by
  induction h with
  | first => rfl
  | next _ hc ih => exact absurd (ih ▸ hc) hfirst

theorem emptied_refl (h : ¬sb.InRange first) : Emptied sb d d first where
  free _ hc hmet := absurd (hmet.eq_of_not h ▸ hc) h
  keep _ _ := rfl
  bytes _ _ _ := rfl
  allocs := rfl

variable {d1 : Disk} (hfat : ∀ y, sb.fat d1 y = if y = c then 0 else sb.fat d y)
include hfat

/-- What is met behind `c` is met from its entry on, also after `c` has been freed. -/
theorem Met.freed (h : Met sb d c x) : x = c ∨ Met sb d1 (sb.fat d c) x := by
  induction h with
  | first => exact .inl rfl
  | @next y _ hy ih =>
    by_cases hyc : y = c
    · rw [hyc]
      exact .inr .first
    · have hnext := (ih.resolve_left hyc).next hy
      rw [hfat, if_neg hyc] at hnext
      exact .inr hnext

theorem Met.of_freed (hc : sb.InRange c) (h : Met sb d1 (sb.fat d c) x) (hx : sb.InRange x) :
    Met sb d c x := by
  induction h with
  | first => exact .next .first hc
  | @next y _ hy ih =>
    by_cases hyc : y = c
    · rw [hfat, if_pos hyc] at hx
      exact absurd hx.1 (by decide)
    · rw [hfat, if_neg hyc]
      exact .next (ih hy) hy

theorem Emptied.step (hc : sb.InRange c) (h : Emptied sb d1 d' (sb.fat d c))
    (hbytes : ∀ dv a, ¬(dv = 0 ∧ 512 * sb.rsvdSecCnt + 4 * c ≤ a ∧
      a < 512 * sb.rsvdSecCnt + 4 * c + 4) → d1.bcache.byte dv a = d.bcache.byte dv a)
    (hallocs : d1.allocs = d.allocs) : Emptied sb d d' c where
  free x hx hmet := by
    by_cases hagain : Met sb d1 (sb.fat d c) x
    · exact h.free x hx hagain
    · rw [h.keep x (fun hmem => hagain hmem.2), hfat, if_pos ((hmet.freed hfat).resolve_right hagain)]
  keep x hx := by
    rw [h.keep x (fun hmem => hx ⟨hmem.1, hmem.2.of_freed hfat hc hmem.1⟩), hfat, if_neg]
    rintro rfl
    exact hx ⟨hc, .first⟩
  bytes dv a ha := by
    rw [h.bytes dv a (fun x hx hmet => ha x hx (hmet.of_freed hfat hc hx)),
      hbytes dv a (ha c hc .first)]
  allocs := h.allocs.trans hallocs

omit hfat

/-- **The loop of `entTrunc` ends on every table**: it meets no cluster twice whose entry is not 0,
and behind an entry that is 0 it stops. -/
theorem truncLoop_emptied (g : sb.Geometry) {fuel : Nat} (hpos : 0 < fuel)
    (hfuel : 2 ≤ c → c < FAT32_EOC → sb.dataClusCnt + 3 ≤ fuel + sb.freeCount d) :
    ∃ d', truncLoop sb fuel d c = .ok d' ∧ Emptied sb d d' c := by
  induction fuel generalizing d c with
  | zero => exact absurd hpos (Nat.lt_irrefl 0)
  | succ fuel ih =>
    unfold truncLoop
    split
    · rename_i hloop
      have hle : sb.freeCount d ≤ sb.dataClusCnt :=
        (List.countP_le_length ..).trans (Nat.le_of_eq (List.length_range' ..))
      rw [SuperBlock.fatRead_of_lt hloop.2]
      by_cases hc : c ≤ sb.dataClusCnt + 1
      · have hrange : sb.InRange c := ⟨hloop.1, hc⟩
        have hfat : ∀ y, sb.fat (sb.freeClus d c) y = if y = c then 0 else sb.fat d y :=
          g.fat_fatWrite hc (by decide)
        obtain ⟨d', hok, hd'⟩ := @ih (sb.freeClus d c) (sb.fat d c) (by omega) (by
          intro h2 _
          have hcount : sb.freeCount (sb.freeClus d c) = sb.freeCount d + 1 := by
            refine SuperBlock.freeCount_taken hrange (by rw [hfat, if_pos rfl])
              (v := sb.fat d c) (by omega) fun x => ?_
            rw [hfat]
            split
            · rename_i hx
              rw [hx]
            · rfl
          omega)
        refine ⟨d', hok, hd'.step hfat hrange (fun dv a ha => ?_) (SuperBlock.fatWrite_allocs ..)⟩
        unfold SuperBlock.freeClus
        rw [g.byte_fatWrite hc, if_neg ha]
      · -- there is no such cluster: its entry reads as 0 and is not written
        have hsame : sb.freeClus d c = d := by
          unfold SuperBlock.freeClus SuperBlock.fatWrite
          rw [if_pos (Nat.lt_of_not_le hc)]
        rw [hsame, SuperBlock.fat_of_gt (Nat.lt_of_not_le hc)]
        obtain ⟨fuel, rfl⟩ : ∃ n, fuel = n + 1 := ⟨fuel - 1, by omega⟩
        exact ⟨d, rfl, emptied_refl fun h => hc h.2⟩
    · rename_i hstop
      refine ⟨d, rfl, emptied_refl fun h => hstop ⟨h.1, ?_⟩⟩
      exact (g.node_iff.2 h).2

end Truncation

theorem entTrunc_emptied (g : sb.Geometry) (hlink : e.has ATTR_LINK = false) :
    ∃ d', entTrunc sb d e = .ok (d', { e with fileSize := 0, firstClus := 0, dirty := true }) ∧
      Emptied sb d d' e.firstClus := by
  obtain ⟨d', hok, hd'⟩ := truncLoop_emptied (d := d) (c := e.firstClus) g
    (Nat.succ_pos (sb.dataClusCnt + 2)) fun _ _ => Nat.le_add_right ..
  refine ⟨d', ?_, hd'⟩
  unfold entTrunc freeChain
  rw [hlink, if_neg nofun, hok]
  rfl

/-- **`entTrunc` returns on every table and frees exactly what it meets.** -/
theorem entTrunc_frees_met (g : sb.Geometry) (hlink : e.has ATTR_LINK = false) :
    ∃ d' e', entTrunc sb d e = .ok (d', e') ∧ Emptied sb d d' e.firstClus ∧ e'.firstClus = 0 ∧
      e'.fileSize = 0 := by
  obtain ⟨d', hok, hd'⟩ := entTrunc_emptied (d := d) g hlink
  exact ⟨d', _, hok, hd', rfl, rfl⟩

def looped : Disk := (smallBlock.fatWrite (smallBlock.fatWrite (tableOf 24) 3 5).2 5 3).2

theorem entTrunc_frees_looped : ∃ d' e',
    entTrunc smallBlock looped { emptyEnt with firstClus := 3 } = .ok (d', e') ∧
      smallBlock.fat d' 5 = 0 ∧ e'.firstClus = 0 ∧ e'.fileSize = 0 := by
  obtain ⟨d', e', hok, hd', hfields⟩ :=
    entTrunc_frees_met (d := looped) (e := { emptyEnt with firstClus := 3 }) smallBlock_geometry rfl
  have hnext := (Met.first (d := looped)).next (show smallBlock.InRange 3 by decide +kernel)
  rw [show smallBlock.fat looped 3 = 5 by decide +kernel] at hnext
  exact ⟨d', e', hok, hd'.free 5 (by decide +kernel) hnext, hfields⟩

theorem Met.mem (g : sb.Geometry) (h : IsChain sb.marks (sb.fat d) cs) {first x : Nat}
    (hhead : cs.head? = some first) (hmet : Met sb d first x) (hx : sb.InRange x) : x ∈ cs := by
  induction hmet with
  | first => exact List.mem_of_mem_head? hhead
  | next _ hy ih =>
    obtain ⟨i, hi⟩ := List.mem_iff_getElem?.1 (ih hy)
    cases hd : cs[i + 1]? with
    | some z =>
      rw [h.linked.succ hi hd]
      exact List.mem_of_getElem? hd
    | none => exact absurd (g.node_iff.2 hx) (sb.marks.not_node_of_final (h.linked.last hi hd))

theorem Met.of_mem (h : IsChain sb.marks (sb.fat d) cs) {first x : Nat}
    (hhead : cs.head? = some first) (hx : x ∈ cs) : Met sb d first x := by
  obtain ⟨i, hi⟩ := List.mem_iff_getElem?.1 hx
  clear hx
  induction i generalizing x with
  | zero =>
    rw [← List.head?_eq_getElem?, hhead] at hi
    cases hi
    exact .first
  | succ i ih =>
    have hlt := (List.getElem?_eq_some_iff.1 hi).1
    have hy : cs[i]? = some cs[i] := List.getElem?_eq_getElem _
    rw [← h.linked.succ hy hi]
    exact .next (ih hy) (h.node _ (List.mem_of_getElem? hy)).1

/-- **`entTrunc` frees the chain of the entry.** -/
theorem entTrunc_frees (g : sb.Geometry) (h : Chained sb d e cs) (hlink : e.has ATTR_LINK = false) :
    ∃ d', entTrunc sb d e = .ok (d', { e with fileSize := 0, firstClus := 0, dirty := true }) ∧
      sb.SameBytes d d' ∧ Frees sb.marks (sb.fat d) (sb.fat d') cs := by
  obtain ⟨d', hok, hd'⟩ := entTrunc_emptied g hlink
  have hmet : ∀ c, sb.InRange c → (Met sb d e.firstClus c ↔ c ∈ cs) := by
    intro c hc
    by_cases hnil : cs = []
    · rw [hnil, h.empty hnil]
      refine ⟨fun hm => ?_, nofun⟩
      rw [hm.eq_of_not (fun h0 => absurd h0.1 (by decide))] at hc
      exact absurd hc.1 (by decide)
    · have hfirst := (h.cursor hnil).first
      exact ⟨fun hm => hm.mem g h.chain hfirst hc, .of_mem h.chain hfirst⟩
  refine ⟨d', hok, ?_, ?_, ?_⟩
  · intro c k hc hk
    have hdata := (g.clusByte_address hc hk).1
    refine hd'.bytes _ _ fun x hx _ => ?_
    have hend := (g.entry_address hx.2).2.2
    omega
  · intro c hc
    have hrange := (h.chain.node c hc).1
    exact hd'.free c hrange ((hmet c hrange).2 hc)
  · intro c hc
    exact hd'.keep c fun hm => hc ((hmet c hm.1).1 hm.2)

/-! ## One entry -/

theorem At.ne_nil (h : At e cs) : cs ≠ [] := by
  rintro rfl
  cases h.first

/-- The cursor of `e` is right for the chain `cs`. -/
structure Cursor (e : DirEnt) (cs : List Nat) : Prop where
  empty : cs = [] → e.firstClus = 0
  inside : cs ≠ [] → At e cs

/-- What an entry that counts as `k` has to do with the clusters it owns. A removed entry has given
them back when nothing refers to it any more. -/
structure Fits (k : Validity) (e : DirEnt) (cs : List Nat) : Prop where
  unused : k = .unused → cs = []
  cursor : k ≠ .unused → Cursor e cs
  noLink : k ≠ .unused → e.has ATTR_LINK = false
  dir : k = .live → e.has ATTR_DIRECTORY = true → cs ≠ []
  gone : k = .removed → e.ref ≤ 0 → cs = []

theorem has_congr (h : e'.attr = e.attr) (flag : UInt8) : e'.has flag = e.has flag := by
  unfold has
  rw [h]

theorem Cursor.of_at (h : At e cs) : Cursor e cs := ⟨fun hnil => absurd hnil h.ne_nil, fun _ => h⟩

theorem Cursor.congr (h : Cursor e cs) (hfirst : e'.firstClus = e.firstClus)
    (hcur : e'.curClus = e.curClus) (hcnt : e'.clusCnt = e.clusCnt) : Cursor e' cs := by
  refine ⟨fun hnil => hfirst.trans (h.empty hnil), fun hne => ⟨?_, ?_⟩⟩
  · rw [hfirst]
    exact (h.inside hne).first
  · rw [hcur, hcnt]
    exact (h.inside hne).cur

theorem fits_unused (e : DirEnt) : Fits .unused e [] :=
  ⟨fun _ => rfl, fun h => absurd rfl h, fun h => absurd rfl h, nofun, nofun⟩

variable {k : Validity}

/-- Only the cursor has moved. -/
theorem Fits.moved (h : Fits k e cs) (hsame : SameFile e e') (hat : At e' cs) : Fits k e' cs where
  unused := h.unused
  cursor _ := .of_at hat
  noLink hk := by
    rw [hsame]
    exact h.noLink hk
  dir hk hd := hat.ne_nil
  gone hk href := h.gone hk (by rw [hsame] at href; exact href)

theorem Fits.congr (h : Fits k e cs) (hattr : e'.attr = e.attr)
    (hfirst : e'.firstClus = e.firstClus) (hcur : e'.curClus = e.curClus)
    (hcnt : e'.clusCnt = e.clusCnt) (href : e'.ref = e.ref) : Fits k e' cs where
  unused := h.unused
  cursor hk := (h.cursor hk).congr hfirst hcur hcnt
  noLink hk := (has_congr hattr _).trans (h.noLink hk)
  dir hk hd := h.dir hk ((has_congr hattr _).symm.trans hd)
  gone hk hle := h.gone hk (href ▸ hle)

theorem Fits.setRef (h : Fits k e cs) {ref : Int}
    (href : k = .removed → ref ≤ 0 → cs = []) : Fits k { e with ref } cs :=
  ⟨h.unused, fun hk => (h.cursor hk).congr rfl rfl rfl, h.noLink, h.dir, href⟩

end DirEnt

namespace Mount

def valids (s : Mount) : Nat → Validity := fun i => (s.ents i).valid

def IsDir (s : Mount) (kind : Nat → Validity) (i : Nat) : Prop :=
  kind i = .live ∧ (s.ents i).has ATTR_DIRECTORY = true

/-- **The invariant**: every slot owns a chain that its entry fits; every taken cluster is in one of
these or of the chains `away` of the files outside of the cache. The parent of a live entry is a
live directory; the root is never let go. -/
structure Sound (away : Nat → List Nat) (s : Mount) (kind : Nat → Validity) (own : Nat → List Nat) :
    Prop where
  family : Family s.sb.marks (s.sb.fat s.disk) (Sum.elim own away)
  covers : Covers s.sb.marks (s.sb.fat s.disk) (Sum.elim own away)
  heads : ∀ c, away c ≠ [] → (away c).head? = some c
  fits : ∀ i, Fits (kind i) (s.ents i) (own i)
  parent : ∀ i p, kind i = .live → (s.ents i).parent = some p → s.IsDir kind p
  slots : ∀ i, kind i ≠ .unused → i ∈ s.lru
  rootLive : kind s.root = .live
  rootParent : (s.ents s.root).parent = none
  rootRef : 1 ≤ (s.ents s.root).ref

variable {s s' s1 : Mount} {away own : Nat → List Nat} {kind : Nat → Validity} {i : Nat} {d' : Disk}
  {e' : DirEnt}

/-- A slot that counts for nothing is no directory. -/
theorem IsDir.ne_of_unused {this ep : Nat} (hdir : s.IsDir kind this) (hk : kind ep = .unused) :
    this ≠ ep := by
  rintro rfl
  rw [hdir.1] at hk
  cases hk

namespace Sound

section

variable (h : s.Sound away kind own)
include h

theorem ne_root_of_unused (hk : kind i = .unused) : i ≠ s.root := by
  rintro rfl
  rw [h.rootLive] at hk
  cases hk

theorem replace (i : Nat) (d' : Disk) (e' : DirEnt) (cs' : List Nat) (k' : Validity)
    {away' : Nat → List Nat}
    (hfam : Family s.sb.marks (s.sb.fat d') (Sum.elim (update own i cs') away'))
    (hcov : Covers s.sb.marks (s.sb.fat d') (Sum.elim (update own i cs') away'))
    (hheads : ∀ c, away' c ≠ [] → (away' c).head? = some c) (hfit : Fits k' e' cs')
    (hparent : k' = .live → ∀ p, e'.parent = some p →
      if p = i then e'.has ATTR_DIRECTORY = true else s.IsDir kind p)
    (hkids : s.IsDir kind i → k' = .live ∧ e'.has ATTR_DIRECTORY = true ∨
      ∀ j, kind j = .live → (s.ents j).parent ≠ some i) (hslot : k' ≠ .unused → i ∈ s.lru)
    (hroot : i = s.root → k' = .live ∧ e'.parent = none ∧ 1 ≤ e'.ref) :
    (s.setEnt i d' e').Sound away' (update kind i k') (update own i cs') := by
  refine ⟨hfam, hcov, hheads, ?_, ?_, ?_, ?_, ?_, ?_⟩
  · intro j
    by_cases hj : j = i
    · subst hj
      simpa using hfit
    · simpa [hj] using h.fits j
  · intro j p hj hp
    unfold IsDir
    by_cases hji : j = i
    · subst hji
      simp only [update_self, setEnt_ents, if_true] at hj hp
      have hpar := hparent hj p hp
      by_cases hpi : p = j
      · subst hpi
        rw [if_pos rfl] at hpar
        simpa using ⟨hj, hpar⟩
      · rw [if_neg hpi] at hpar
        rw [update_of_ne hpi, setEnt_ents, if_neg hpi]
        exact hpar
    · rw [update_of_ne hji] at hj
      rw [setEnt_ents, if_neg hji] at hp
      have hpar := h.parent j p hj hp
      by_cases hpi : p = i
      · subst hpi
        rcases hkids hpar with hlive | hnone
        · simpa using hlive
        · exact absurd hp (hnone j hj)
      · rw [update_of_ne hpi, setEnt_ents, if_neg hpi]
        exact hpar
  · intro j hj
    by_cases hji : j = i
    · subst hji
      rw [update_self] at hj
      exact hslot hj
    · rw [update_of_ne hji] at hj
      exact h.slots j hj
  all_goals by_cases hri : s.root = i
  · simpa [hri] using (hroot hri.symm).1
  · simpa [hri] using h.rootLive
  · simpa [hri] using (hroot hri.symm).2.1
  · simpa [hri] using h.rootParent
  · simpa [hri] using (hroot hri.symm).2.2
  · simpa [hri] using h.rootRef

theorem setEnt (i : Nat) (d' : Disk) (e' : DirEnt) (cs' : List Nat)
    (hfam : Family s.sb.marks (s.sb.fat d') (Sum.elim (update own i cs') away))
    (hcov : Covers s.sb.marks (s.sb.fat d') (Sum.elim (update own i cs') away))
    (hfit : Fits (kind i) e' cs') (hattr : e'.attr = (s.ents i).attr)
    (hparent : e'.parent = (s.ents i).parent) (href : i = s.root → 1 ≤ e'.ref) :
    (s.setEnt i d' e').Sound away kind (update own i cs') := by
  have hnew := h.replace i d' e' cs' (kind i) hfam hcov h.heads hfit ?_ ?_ (h.slots i) ?_
  · rw [update_eq_self] at hnew
    exact hnew
  · intro hk p hp
    have hdir := h.parent i p hk (hparent ▸ hp)
    split
    · rename_i hpi
      rw [has_congr hattr, ← hpi]
      exact hdir.2
    · exact hdir
  · intro hdir
    exact .inl ⟨hdir.1, (has_congr hattr _).trans hdir.2⟩
  · rintro rfl
    exact ⟨h.rootLive, hparent.trans h.rootParent, href rfl⟩

theorem keep (hfit : Fits (kind i) e' (own i)) (hattr : e'.attr = (s.ents i).attr)
    (hparent : e'.parent = (s.ents i).parent) (href : i = s.root → 1 ≤ e'.ref) :
    (s.setEnt i s.disk e').Sound away kind own := by
  have hnew := h.setEnt i s.disk e' (own i)
    (by rw [update_eq_self]; exact h.family)
    (by rw [update_eq_self]; exact h.covers) hfit hattr hparent href
  rw [update_eq_self] at hnew
  exact hnew

theorem setUnused (hk : kind i = .unused) (e' : DirEnt) :
    (s.setEnt i s.disk e').Sound away kind own := by
  have hown := (h.fits i).unused hk
  have hnew := h.replace i s.disk e' (own i) (kind i)
    (by rw [update_eq_self]; exact h.family)
    (by rw [update_eq_self]; exact h.covers) h.heads
    (by rw [hk, hown]; exact fits_unused e') ?_ ?_ (h.slots i) ?_
  · rw [update_eq_self, update_eq_self] at hnew
    exact hnew
  · intro hlive
    rw [hk] at hlive
    cases hlive
  · intro hdir
    exact absurd rfl (hdir.ne_of_unused hk)
  · intro hi
    exact absurd hi (h.ne_root_of_unused hk)

theorem setKind {k' : Validity} (hfit : Fits k' (s.ents i) (own i))
    (hparent : k' = .live → ∀ p, (s.ents i).parent = some p → p ≠ i ∧ s.IsDir kind p)
    (hkids : s.IsDir kind i → ∀ j, kind j = .live → (s.ents j).parent ≠ some i)
    (hslot : k' ≠ .unused → i ∈ s.lru) (hroot : i ≠ s.root) :
    s.Sound away (update kind i k') own := by
  have hnew := h.replace i s.disk (s.ents i) (own i) k'
    (by rw [update_eq_self]; exact h.family)
    (by rw [update_eq_self]; exact h.covers) h.heads hfit ?_
    (fun hdir => .inr (hkids hdir)) hslot (fun heq => absurd heq hroot)
  · rw [setEnt_self, update_eq_self] at hnew
    exact hnew
  · intro hk p hp
    obtain ⟨hpi, hdir⟩ := hparent hk p hp
    rw [if_neg hpi]
    exact hdir

theorem setDisk (hfat : ∀ x, s.sb.fat d' x = s.sb.fat s.disk x) :
    { s with disk := d' }.Sound away kind own := by
  have heq : s.sb.fat d' = s.sb.fat s.disk := funext hfat
  refine ⟨?_, ?_, h.heads, h.fits, h.parent, h.slots, h.rootLive, h.rootParent, h.rootRef⟩
  · rw [heq]
    exact h.family
  · rw [heq]
    exact h.covers

theorem setLru {lru : List Nat} (hsub : ∀ i ∈ s.lru, i ∈ lru) :
    { s with lru }.Sound away kind own :=
  ⟨h.family, h.covers, h.heads, h.fits, h.parent, fun i hi => hsub i (h.slots i hi), h.rootLive,
    h.rootParent, h.rootRef⟩

theorem setRef {ref : Int} (hgone : kind i = .removed → ref ≤ 0 → own i = [])
    (hroot : i = s.root → 1 ≤ ref) : (s.modify i fun e => { e with ref }).Sound away kind own :=
  h.keep ((h.fits i).setRef hgone) rfl rfl hroot

theorem entDup (i : Nat) : (s.entDup i).Sound away kind own := by
  refine h.keep ((h.fits i).setRef fun hk hle => (h.fits i).gone hk (by omega)) rfl rfl ?_
  rintro rfl
  have := h.rootRef
  dsimp only
  omega

theorem chain (i : Nat) : IsChain s.sb.marks (s.sb.fat s.disk) (own i) :=
  h.family.chain (Sum.inl i)

theorem grown {cs' : List Nat} (hg : Grows s.sb.marks (s.sb.fat s.disk) (s.sb.fat d') (own i) cs') :
    Family s.sb.marks (s.sb.fat d') (Sum.elim (update own i cs') away) ∧
      Covers s.sb.marks (s.sb.fat d') (Sum.elim (update own i cs') away) := by
  rw [← Sum.update_elim_inl]
  exact ⟨h.family.grow (i := Sum.inl i) hg, h.covers.grow (i := Sum.inl i) hg⟩

theorem freed (hf : Frees s.sb.marks (s.sb.fat s.disk) (s.sb.fat d') (own i)) :
    Family s.sb.marks (s.sb.fat d') (Sum.elim (update own i []) away) ∧
      Covers s.sb.marks (s.sb.fat d') (Sum.elim (update own i []) away) := by
  rw [← Sum.update_elim_inl]
  exact ⟨h.family.free (i := Sum.inl i) hf, h.covers.free (i := Sum.inl i) hf⟩

theorem chained (hk : kind i ≠ .unused) : Chained s.sb s.disk (s.ents i) (own i) :=
  ⟨h.chain i, ((h.fits i).cursor hk).empty, ((h.fits i).cursor hk).inside⟩

theorem own_ne_nil (hdir : s.IsDir kind i) : own i ≠ [] :=
  (h.fits i).dir hdir.1 hdir.2

theorem cursor_at (hdir : s.IsDir kind i) : At (s.ents i) (own i) :=
  ((h.fits i).cursor (by rw [hdir.1]; decide)).inside (h.own_ne_nil hdir)

theorem curClus_inRange (hdir : s.IsDir kind i) : s.sb.InRange (s.ents i).curClus :=
  (h.cursor_at hdir).inRange (h.chain i)

end

end Sound

/-! ## The cursor of a directory -/

def Moved (s s' : Mount) (i : Nat) : Prop :=
  ∃ e', s' = s.setEnt i s.disk e' ∧ SameFile (s.ents i) e'

/-- Work on the volume: the cache has the entries it had. -/
structure Worked (s s' : Mount) : Prop where
  sb : s'.sb = s.sb
  lru : s'.lru = s.lru
  root : s'.root = s.root
  ents : ∀ j, SameName (s.ents j) (s'.ents j)

theorem Worked.refl (s : Mount) : Worked s s := ⟨rfl, rfl, rfl, fun _ => .refl _⟩

theorem Worked.trans (w : Worked s s1) (w' : Worked s1 s') : Worked s s' :=
  ⟨w'.sb.trans w.sb, w'.lru.trans w.lru, w'.root.trans w.root,
    fun j => (w.ents j).trans (w'.ents j)⟩

theorem Worked.isDir (w : Worked s s') (h : s.IsDir kind i) : s'.IsDir kind i := by
  refine ⟨h.1, ?_⟩
  rw [w.ents i]
  exact h.2

theorem Worked.valids (w : Worked s s') : s'.valids = s.valids := by
  funext j
  unfold Mount.valids
  rw [w.ents j]

theorem worked_setEnt (hsame : SameName (s.ents i) e') : Worked s (s.setEnt i d' e') := by
  refine ⟨rfl, rfl, rfl, fun j => ?_⟩
  rw [setEnt_ents]
  split
  · rename_i hj
    rw [hj]
    exact hsame
  · exact .refl _

theorem Moved.refl (s : Mount) (i : Nat) : Moved s s i :=
  ⟨s.ents i, (s.setEnt_self i).symm, .refl _⟩

theorem Moved.trans (m : Moved s s1 i) (m' : Moved s1 s' i) : Moved s s' i := by
  obtain ⟨e1, rfl, h1⟩ := m
  obtain ⟨e2, rfl, h2⟩ := m'
  rw [setEnt_at] at h2
  refine ⟨e2, ?_, h1.trans h2⟩
  unfold setEnt
  rw [update_idem]

theorem Moved.disk (m : Moved s s' i) : s'.disk = s.disk := by
  obtain ⟨e', rfl, -⟩ := m
  rfl

theorem Moved.worked (m : Moved s s' i) : Worked s s' := by
  obtain ⟨e', rfl, hsame⟩ := m
  exact worked_setEnt hsame.sameName

theorem Moved.ents (m : Moved s s' i) (j : Nat) : SameFile (s.ents j) (s'.ents j) := by
  obtain ⟨e', rfl, hsame⟩ := m
  rw [setEnt_ents]
  split
  · rename_i hj
    rw [hj]
    exact hsame
  · exact .refl _

theorem Sound.moved (h : s.Sound away kind own) (hsame : SameFile (s.ents i) e')
    (hat : At e' (own i)) : (s.setEnt i s.disk e').Sound away kind own := by
  refine h.keep ((h.fits i).moved hsame hat) (by rw [hsame]) (by rw [hsame]) ?_
  rintro rfl
  rw [hsame]
  exact h.rootRef

variable {off : Nat} {r : Int}

theorem Sound.relocClus (h : s.Sound away kind own) (hdir : s.IsDir kind i)
    (hok : s.relocClus i off false = .ok (r, s')) : s'.Sound away kind own ∧ Moved s s' i := by
  have hat := h.cursor_at hdir
  have hchain := h.chain i
  unfold Mount.relocClus at hok
  cases hc : (own i)[off / s.sb.bytsPerClus]? with
  | some c =>
    rw [relocClus_inside hchain hat hc, ok_bind] at hok
    cases hok
    exact ⟨h.moved rfl ⟨hat.first, hc⟩, _, rfl, rfl⟩
  | none =>
    rw [relocClus_outside hchain hat (List.getElem?_eq_none_iff.1 hc), ok_bind] at hok
    cases hok
    refine ⟨h.moved rfl ⟨hat.first, ?_⟩, _, rfl, rfl⟩
    rw [← List.head?_eq_getElem?]
    exact hat.first

theorem Sound.relocClus_alloc (u : s.sb.Usable) (h : s.Sound away kind own) (hdir : s.IsDir kind i)
    (hok : s.relocClus i off true = .ok (r, s')) (hs : s.sb.Sane s'.disk) :
    r = (off % s.sb.bytsPerClus : Nat) ∧ s' = s.setEnt i s'.disk (s'.ents i) ∧
      ∃ cs', s'.Sound away kind (update own i cs') ∧
        Reached s.sb s.disk s'.disk (s.ents i) (s'.ents i) (own i) cs' (off / s.sb.bytsPerClus) := by
  have hat := h.cursor_at hdir
  obtain ⟨⟨r1, d1, e1⟩, hreloc, hret⟩ := bind_eq_ok hok
  cases hret
  obtain ⟨hr, cs', reached⟩ :=
    relocClus_ok u.geometry u.dev u.entries (h.chain i) hat hreloc hs
  have hsame := reached.sameFile
  have hself : (s.setEnt i d1 e1).ents i = e1 := by rw [setEnt_at]
  rw [setEnt_disk, hself]
  refine ⟨hr, rfl, cs', ?_, reached⟩
  obtain ⟨hfam, hcov⟩ := h.grown reached.touches.grows
  refine h.setEnt i _ _ cs' hfam hcov ?_ (by rw [hsame]) (by rw [hsame]) ?_
  · have hat' := reached.at hat
    have hfit := h.fits i
    have hk : kind i ≠ .unused := by rw [hdir.1]; decide
    refine ⟨fun hu => absurd hu hk, fun _ => .of_at hat', fun _ => ?_, fun _ _ => hat'.ne_nil, ?_⟩
    · rw [hsame]
      exact hfit.noLink hk
    · intro hrem
      rw [hdir.1] at hrem
      cases hrem
  · rintro rfl
    rw [hsame]
    exact h.rootRef

theorem Sound.writeCur (u : s.sb.Usable) (h : s.Sound away kind own) (hdir : s.IsDir kind i)
    (hoff : off < 2 ^ 32) (hlen : bs.length ≤ 512)
    (hok : s.writeCur i off bs = .ok s') : s'.Sound away kind own ∧ Worked s s' := by
  obtain ⟨d, hwrite, hret⟩ := bind_eq_ok hok
  cases hret
  exact ⟨h.setDisk (u.fat_rwClusWrite (h.curClus_inRange hdir) hoff hlen hwrite),
    rfl, rfl, rfl, fun _ => .refl _⟩

/-! ## Letting entries go -/

theorem Sound.parentUpdate (u : s.sb.Usable) (h : s.Sound away s.valids own)
    (hok : s.parentUpdate i = .ok s') : s'.Sound away s.valids own ∧ Worked s s' := by
  unfold Mount.parentUpdate at hok
  split at hok
  · cases hok
    exact ⟨h, .refl _⟩
  rename_i hcond
  split at hok
  · cases hok
  rename_i p hp
  have hlive : s.valids i = .live := by
    by_contra hne
    exact hcond (.inr hne)
  have hdir := h.parent i p hlive hp
  obtain ⟨⟨r1, s1⟩, hreloc1, hok⟩ := bind_eq_ok hok
  obtain ⟨order, -, hok⟩ := bind_eq_ok hok
  obtain ⟨⟨r2, s2⟩, hreloc2, hok⟩ := bind_eq_ok hok
  obtain ⟨de, hread, hok⟩ := bind_eq_ok hok
  obtain ⟨s3, hwrite, hok⟩ := bind_eq_ok hok
  cases hok
  obtain ⟨h1, m1⟩ := h.relocClus hdir hreloc1
  obtain ⟨h2, m2⟩ := h1.relocClus (m1.worked.isDir hdir) hreloc2
  have w2 := m1.worked.trans m2.worked
  have u2 : s2.sb.Usable := w2.sb ▸ u
  have hdir2 := w2.isDir hdir
  have hlen : de.length = 32 :=
    u2.length_rwClusRead (h2.curClus_inRange hdir2) (u32_lt r2) (by decide) hread
  obtain ⟨h3, w3⟩ := h2.writeCur u2 hdir2 (u32_lt r2)
    ((Nat.le_of_eq (length_updated hlen ..)).trans (by decide)) hwrite
  have hfit : Fits (s.valids i) { s3.ents i with dirty := false } (own i) :=
    (h3.fits i).congr rfl rfl rfl rfl rfl
  refine ⟨h3.keep hfit rfl rfl ?_, (w2.trans w3).trans (worked_setEnt rfl)⟩
  rintro rfl
  exact h3.rootRef

theorem Sound.entTrunc (g : s.sb.Geometry) (h : s.Sound away kind own) (hk : kind i ≠ .unused)
    (hdir : ¬s.IsDir kind i) (hok : s.entTrunc i = .ok s') :
    s'.Sound away kind (update own i []) ∧ Worked s s' := by
  have hf := h.fits i
  obtain ⟨d', heq, -, hfrees⟩ := entTrunc_frees g (h.chained hk) (hf.noLink hk)
  unfold Mount.entTrunc at hok
  rw [heq, ok_bind] at hok
  cases hok
  refine ⟨?_, worked_setEnt rfl⟩
  obtain ⟨hfam, hcov⟩ := h.freed hfrees
  refine h.setEnt i _ _ [] hfam hcov ?_ rfl rfl ?_
  · exact ⟨fun _ => rfl, fun _ => ⟨fun _ => rfl, fun hne => absurd rfl hne⟩, hf.noLink,
      fun hlive hd => absurd ⟨hlive, hd⟩ hdir, fun _ _ => rfl⟩
  · rintro rfl
    exact h.rootRef

theorem modify_valids {f : DirEnt → DirEnt} (hf : ∀ e, (f e).valid = e.valid) :
    (s.modify i f).valids = s.valids := by
  funext j
  simp only [Mount.valids, modify_eq, setEnt_ents]
  split
  · rename_i hj
    rw [hj]
    exact hf _
  · rfl

theorem entDup_valids (s : Mount) (i : Nat) : (s.entDup i).valids = s.valids :=
  modify_valids fun _ => rfl

theorem unref_valids (s : Mount) (i : Nat) : (s.unref i).valids = s.valids :=
  modify_valids fun _ => rfl

/-- What the last release of an entry does first: the entry is written to its directory, or gives
back its clusters. -/
theorem Sound.lastRelse (u : s.sb.Usable) (h : s.Sound away s.valids own)
    (hk : s.valids i ≠ .unused) (hok : s.lastRelse i = .ok s') :
    ∃ own', s'.Sound away s.valids own' ∧ Worked s s' ∧
      (s.valids i = .removed → own' i = []) := by
  unfold Mount.lastRelse at hok
  split at hok
  · rename_i hrem
    have hdir : ¬s.IsDir s.valids i := by
      intro hdir
      have hlive : (s.ents i).valid = .live := hdir.1
      rw [hrem] at hlive
      cases hlive
    obtain ⟨h', w⟩ := h.entTrunc u.geometry hk hdir hok
    exact ⟨_, h', w, fun _ => update_self ..⟩
  · rename_i hrem
    obtain ⟨h', w⟩ := h.parentUpdate u hok
    exact ⟨own, h', w, fun hr => absurd hr hrem⟩

section

variable (h : s.Sound away s.valids own)
include h

theorem Sound.behindRoot (i : Nat) : (s.behindRoot i).Sound away (s.behindRoot i).valids own := by
  change (s.behindRoot i).Sound away (s.entDup s.root).valids own
  rw [entDup_valids]
  refine (h.entDup s.root).setLru fun j hj => (insertBehind_perm ..).mem_iff.2 (List.mem_cons.2 ?_)
  by_cases hji : j = i
  · exact .inl hji
  · exact .inr ((List.mem_erase_of_ne hji).2 hj)

theorem Sound.unref_last (hroot : i ≠ s.root) (hgone : s.valids i = .removed → own i = []) :
    (s.unref i).Sound away (s.unref i).valids own := by
  rw [unref_valids]
  exact h.setRef (fun hr _ => hgone hr) fun hr => absurd hr hroot

/-- Another reference goes. The root has one more now, so it keeps at least one. -/
theorem Sound.unref_other
    (hcond : ¬(i ≠ s.root ∧ (s.ents i).valid ≠ .unused ∧ (s.ents i).ref = 1)) :
    ((s.entDup s.root).unref i).Sound away ((s.entDup s.root).unref i).valids own := by
  rw [unref_valids, entDup_valids]
  refine (h.entDup s.root).setRef (fun hrem hle => ?_) fun hroot => ?_
  · have hroot : i ≠ s.root := by
      rintro rfl
      cases h.rootLive.symm.trans hrem
    have hused : (s.ents i).valid ≠ .unused := fun hun => by cases hun.symm.trans hrem
    rw [entDup_ents, if_neg hroot] at hle
    have hne : (s.ents i).ref ≠ 1 := fun hone => hcond ⟨hroot, hused, hone⟩
    exact (h.fits i).gone hrem (by omega)
  · have href := h.rootRef
    rw [show i = s.root from hroot, entDup_ents, if_pos rfl]
    dsimp only
    omega

end

/-- **`entRelse`**: on the way up, live entries are written to their directories and removed ones
give back their clusters. -/
theorem Sound.entRelseLoop (u : s.sb.Usable) (h : s.Sound away s.valids own) {fuel : Nat}
    (hok : entRelseLoop fuel s i = .ok s') :
    s'.sb = s.sb ∧ ∃ own', s'.Sound away s'.valids own' := by
  induction fuel generalizing s own i with
  | zero => cases hok
  | succ fuel ih =>
    rw [entRelseLoop_succ] at hok
    split at hok
    · rename_i hcond
      obtain ⟨s1, hlast, hok⟩ := bind_eq_ok hok
      have hused : (s.behindRoot i).valids i ≠ .unused :=
        fun hun => hcond.2.1 ((congrFun (entDup_valids s s.root) i).symm.trans hun)
      obtain ⟨own1, h1, w, hgone⟩ := Sound.lastRelse (s := s.behindRoot i) u (h.behindRoot i) hused hlast
      rw [← w.valids] at h1 hgone
      have h2 := h1.unref_last (w.root ▸ hcond.1) hgone
      cases hp : (s1.ents i).parent with
      | none =>
        rw [hp] at hok
        cases hok
      | some p =>
        rw [hp] at hok
        obtain ⟨hsb, hsound⟩ := ih (w.sb.symm ▸ u) h2 hok
        exact ⟨hsb.trans w.sb, hsound⟩
    · rename_i hcond
      cases hok
      exact ⟨rfl, own, h.unref_other hcond⟩

end Mount

end LuoOS.Fs
