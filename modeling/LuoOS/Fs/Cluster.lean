import LuoOS.Fs.Frames

/-!
# Chains of clusters

The clusters of a file form a chain in the table of its volume. This module says what `allocClus`
and `relocClus` do to it: `Touches` is the effect on the disk of anything that works on one chain,
and `At` says that the cursor of an entry is right. `allocClus` takes the first entry of the table
that is 0, wherever that is, so all results are for one within the data clusters: one of these is
free (`allocClus_of_free`), or the record `allocs` has it (`Sane`).
-/

namespace LuoOS.Fs

open ChainTable

namespace SuperBlock

variable (sb : SuperBlock)

def marks : Marks Nat where
  node c := sb.InRange c ∧ c < FAT32_EOC
  final w := FAT32_EOC ≤ w ∧ w ≤ 0x0fffffff
  nil := 0
  not_node_nil h := absurd h.1.1 (by decide)
  not_final_nil h := absurd h.1 (by decide)
  not_node_of_final h h' := Nat.not_lt.2 h.1 h'.2

def freeCount (d : Disk) : Nat := (List.range' 2 sb.dataClusCnt).countP fun c => sb.fat d c = 0

def Sane (d : Disk) : Prop := ∀ c ∈ d.allocs, sb.InRange c
  deriving Decidable

variable {sb}

variable {c : Nat}

theorem Geometry.node_iff (g : sb.Geometry) : sb.marks.node c ↔ sb.InRange c := by
  have := g.clusters
  refine ⟨fun h => h.1, fun h => ⟨h, ?_⟩⟩
  have h2 := h.2
  unfold FAT32_EOC
  omega

theorem final_mark : sb.marks.final (FAT32_EOC + 7) :=
  (by decide : FAT32_EOC ≤ FAT32_EOC + 7 ∧ FAT32_EOC + 7 ≤ 0x0fffffff)

theorem Sane.of_suffix {d d' : Disk} (h : sb.Sane d') (hs : d.allocs <:+ d'.allocs) : sb.Sane d :=
  fun c hc => h c (hs.subset hc)

theorem freeCount_congr {d d' : Disk} (h : ∀ c, sb.fat d' c = sb.fat d c) :
    sb.freeCount d' = sb.freeCount d := by
  unfold freeCount
  simp only [h]

theorem mem_dataClusters : c ∈ List.range' 2 sb.dataClusCnt ↔ sb.InRange c := by
  rw [List.mem_range'_1]
  unfold InRange
  omega

theorem exists_free {d : Disk} (h : 0 < sb.freeCount d) : ∃ c, sb.InRange c ∧ sb.fat d c = 0 := by
  obtain ⟨c, hc, hfree⟩ := List.countP_pos_iff.1 h
  exact ⟨c, mem_dataClusters.1 hc, of_decide_eq_true hfree⟩

theorem countP_erase {l : List Nat} (hl : l.Nodup) (hc : c ∈ l) {p q : Nat → Bool}
    (hp : p c = true) (hq : q c = false) (h : ∀ x, x ≠ c → q x = p x) :
    l.countP p = l.countP q + 1 := by
  induction l with
  | nil => cases hc
  | cons x l ih =>
    obtain ⟨hx, hl⟩ := List.nodup_cons.1 hl
    rw [List.countP_cons, List.countP_cons]
    rcases List.mem_cons.1 hc with rfl | hc
    · have hsame : l.countP q = l.countP p :=
        List.countP_congr fun y hy => by
          rw [h y (fun heq => hx (heq ▸ hy))]
      rw [hsame, hp, hq]
      rfl
    · rw [h x (fun heq => hx (heq ▸ hc)), ih hl hc]
      omega

theorem freeCount_taken {d d' : Disk} {v : Nat} (hc : sb.InRange c) (hfree : sb.fat d c = 0)
    (hv : v ≠ 0) (h : ∀ x, sb.fat d' x = if x = c then v else sb.fat d x) :
    sb.freeCount d = sb.freeCount d' + 1 := by
  refine countP_erase (List.nodup_range' ..) (mem_dataClusters.2 hc) ?_ ?_ ?_
  · exact decide_eq_true hfree
  · rw [h, if_pos rfl]
    exact decide_eq_false hv
  · intro x hx
    rw [h, if_neg hx]

/-! ## What working on one chain does to the disk -/

/-- Work on the chain `cs`, which is `cs'` afterwards. -/
structure Touches (sb : SuperBlock) (d d' : Disk) (cs cs' : List Nat) : Prop where
  grows : Grows sb.marks (sb.fat d) (sb.fat d') cs cs'
  room : cs'.length + sb.freeCount d' = cs.length + sb.freeCount d
  bytes : ∀ c, sb.InRange c → c ∉ cs' → ∀ k, k < sb.bytsPerClus →
    sb.clusByte d' c k = sb.clusByte d c k

def Keeps (sb : SuperBlock) (d d' : Disk) (cs : List Nat) : Prop :=
  ∀ c ∈ cs, ∀ k, k < sb.bytsPerClus → sb.clusByte d' c k = sb.clusByte d c k

variable {d d' d1 : Disk} {cs cs' ds : List Nat}

theorem Touches.refl (h : IsChain sb.marks (sb.fat d) cs) : sb.Touches d d cs cs :=
  ⟨.refl h, rfl, fun _ _ _ _ _ => rfl⟩

theorem Touches.trans (t : sb.Touches d d1 cs ds) (t' : sb.Touches d1 d' ds cs') :
    sb.Touches d d' cs cs' := by
  refine ⟨t.grows.trans t'.grows, t'.room.trans t.room, ?_⟩
  intro c hc hmem k hk
  rw [t'.bytes c hc hmem k hk, t.bytes c hc (fun h => hmem (t'.grows.sub h)) k hk]

theorem Keeps.refl (d : Disk) (cs : List Nat) : sb.Keeps d d cs := fun _ _ _ _ => rfl

theorem Keeps.trans (k : sb.Keeps d d1 cs) (k' : sb.Keeps d1 d' ds) (hsub : ∀ c ∈ cs, c ∈ ds) :
    sb.Keeps d d' cs := by
  intro c hc i hi
  rw [k' c (hsub c hc) i hi, k c hc i hi]

theorem Touches.of_write (h : IsChain sb.marks (sb.fat d) cs) (hc : c ∈ cs)
    (hfat : ∀ x, sb.fat d' x = sb.fat d x)
    (hbytes : ∀ x k, sb.InRange x → k < sb.bytsPerClus → x ≠ c →
      sb.clusByte d' x k = sb.clusByte d x k) : sb.Touches d d' cs cs := by
  refine ⟨⟨⟨[], (List.append_nil cs).symm, nofun⟩, h.congr fun c _ => hfat c, fun c _ => hfat c⟩,
    ?_, ?_⟩
  · rw [freeCount_congr hfat]
  · intro x hx hmem k hk
    exact hbytes x k hx hk (fun heq => hmem (heq ▸ hc))

end SuperBlock

/-! ## `allocClus` -/

namespace DirEnt

variable {sb : SuperBlock}

theorem findSome?_range {β : Type} {n : Nat} {f : Nat → Option β} {b : β}
    (h : (List.range n).findSome? f = some b) :
    ∃ i, i < n ∧ f i = some b ∧ ∀ k, k < i → f k = none := by
  induction n with
  | zero => cases h
  | succ n ih =>
    rw [List.range_succ, List.findSome?_append] at h
    cases hn : (List.range n).findSome? f with
    | some b' =>
      rw [hn] at h
      obtain ⟨i, hi, hb, hk⟩ := ih (hn.trans h)
      exact ⟨i, Nat.lt_succ_of_lt hi, hb, hk⟩
    | none =>
      rw [hn] at h
      refine ⟨n, Nat.lt_succ_self n, ?_, ?_⟩
      · simpa using h
      · intro k hk
        exact List.findSome?_eq_none_iff.1 hn k (List.mem_range.2 hk)

variable {c i j x : Nat} {d d1 d' : Disk}

theorem entry_word (g : sb.Geometry) (hdev : sb.dev = 0) (d : Disk) (hj : j < 128)
    (hc : 128 * i + j ≤ sb.dataClusCnt + 1) :
    word (d.bcache sb.dev (u32 (sb.rsvdSecCnt + i : Nat))) (4 * j) = sb.fat d (128 * i + j) := by
  have hclus := g.clusters
  have hrsvd := sb.rsvdSecCnt_lt
  obtain ⟨hsec, hoff⟩ := g.entry_sector hc
  unfold SuperBlock.fat
  rw [if_neg (Nat.not_lt.2 hc), hdev, u32_of_lt (by omega), hsec, hoff,
    show 4 * (128 * i + j) / 512 = i by omega, show 4 * (128 * i + j) % 512 = 4 * j by omega]

theorem allocClus_of_findFree (g : sb.Geometry) (hdev : sb.dev = 0)
    (hfind : findFree sb d = some (i, j)) (hj : j < 128) (hc : 128 * i + j ≤ sb.dataClusCnt + 1) :
    allocClus sb d = .ok (128 * i + j, sb.clearClus
      (sb.fatWrite { d with allocs := (128 * i + j) :: d.allocs } (128 * i + j) (FAT32_EOC + 7)).2
      (128 * i + j)) := by
  have hclus := g.clusters
  have hrsvd := sb.rsvdSecCnt_lt
  obtain ⟨hsec, hoff⟩ := g.entry_sector hc
  unfold allocClus SuperBlock.fatWrite
  rw [hfind, if_neg (Nat.not_lt.2 hc), hsec, hoff]
  dsimp only
  rw [g.sector, hdev, u32_of_lt (by omega), u32_of_lt (by omega),
    show 4 * (128 * i + j) / 512 = i by omega, show 4 * (128 * i + j) % 512 = 4 * j by omega,
    show i * (512 / 4) + j = 128 * i + j by omega]

/-- Cluster `c` was free, and now is taken and cleared. -/
structure Allocated (sb : SuperBlock) (d d' : Disk) (c : Nat) : Prop where
  range : sb.InRange c
  free : sb.fat d c = 0
  fat : ∀ x, sb.fat d' x = if x = c then FAT32_EOC + 7 else sb.fat d x
  bytes : ∀ x k, sb.InRange x → k < sb.bytsPerClus → x ≠ c → sb.clusByte d' x k = sb.clusByte d x k
  zero : ∀ k, k < sb.bytsPerClus → sb.clusByte d' c k = 0
  allocs : d'.allocs = c :: d.allocs

section

variable (g : sb.Geometry)
include g

theorem allocated_clear (hdev : sb.dev = 0) (hc : sb.InRange c)
    (hfree : sb.fat d c = 0) : Allocated sb d (sb.clearClus
      (sb.fatWrite { d with allocs := c :: d.allocs } c (FAT32_EOC + 7)).2 c) c where
  range := hc
  free := hfree
  fat x := by
    rw [g.fat_clearClus hc, g.fat_fatWrite hc.2 (by decide)]
    rfl
  bytes x k hx hk hne := by
    rw [g.clusByte_clearClus hc hx hk hne, g.clusByte_fatWrite hc.2 hx hk]
    rfl
  zero k hk := by
    unfold SuperBlock.clusByte
    rw [g.byte_clearClus hc, hdev, if_pos ⟨rfl, Nat.le_add_right _ _, (g.clusByte_address hc hk).2⟩]
  allocs := SuperBlock.fatWrite_allocs _ _ _

theorem findFree_spec (h : findFree sb d = some (i, j)) : i < sb.fatSz ∧ j < 128 ∧
      word (d.bcache sb.dev (u32 (sb.rsvdSecCnt + i : Nat))) (4 * j) = 0 ∧
      ∀ i' j', j' < 128 → 128 * i' + j' < 128 * i + j →
        word (d.bcache sb.dev (u32 (sb.rsvdSecCnt + i' : Nat))) (4 * j') ≠ 0 := by
  unfold findFree at h
  rw [g.sector] at h
  obtain ⟨i0, hi, hrow, hrows⟩ := findSome?_range h
  obtain ⟨j0, hj, hword, hbefore⟩ := findSome?_range hrow
  split at hword
  · rename_i hzero
    cases hword
    refine ⟨hi, hj, hzero, ?_⟩
    intro i' j' hj' hlt hz
    by_cases hii : i' = i
    · subst hii
      have := hbefore j' (by omega)
      rw [if_pos hz] at this
      cases this
    · have := List.findSome?_eq_none_iff.1 (hrows i' (by omega)) j' (List.mem_range.2 hj')
      rw [if_pos hz] at this
      cases this
  · cases hword

theorem allocClus_ok (hdev : sb.dev = 0) (hsz : 128 * sb.fatSz ≤ 2 ^ 32)
    (h : allocClus sb d = .ok (c, d')) (hc : sb.InRange c) : Allocated sb d d' c := by
  cases hfind : findFree sb d with
  | none =>
    unfold allocClus at h
    rw [hfind] at h
    cases h
  | some ij =>
    obtain ⟨i, j⟩ := ij
    obtain ⟨hi, hj, hword, -⟩ := findFree_spec g hfind
    have hclus : c = 128 * i + j := by
      unfold allocClus at h
      rw [hfind] at h
      have heq := (Prod.mk.inj (Except.ok.inj h)).1
      rw [g.sector, u32_of_lt (by omega)] at heq
      omega
    subst hclus
    rw [allocClus_of_findFree g hdev hfind hj hc.2] at h
    cases h
    rw [entry_word g hdev d hj hc.2] at hword
    exact allocated_clear g hdev hc hword

theorem findFree_of_free (hdev : sb.dev = 0) (h0 : sb.fat d 0 ≠ 0)
    (h1 : sb.fat d 1 ≠ 0) (hc : sb.InRange c) (hzero : sb.fat d c = 0) :
    ∃ i j, findFree sb d = some (i, j) ∧ j < 128 ∧ sb.InRange (128 * i + j) ∧
      sb.fat d (128 * i + j) = 0 := by
  have hent := g.entries
  have hc2 := hc.2
  have hidx : 128 * (c / 128) + c % 128 = c := by omega
  have hword := entry_word g hdev d (i := c / 128) (j := c % 128) (Nat.mod_lt _ (by decide))
    (by omega)
  rw [hidx, hzero] at hword
  cases hfind : findFree sb d with
  | none =>
    have hrow := List.findSome?_eq_none_iff.1 hfind (c / 128) (List.mem_range.2 (by omega))
    have hnone := List.findSome?_eq_none_iff.1 hrow (c % 128)
      (List.mem_range.2 (by rw [g.sector]; omega))
    rw [if_pos hword] at hnone
    cases hnone
  | some ij =>
    obtain ⟨i, j⟩ := ij
    obtain ⟨hi, hj, hw, hfirst⟩ := findFree_spec g hfind
    have hle : 128 * i + j ≤ c := by
      by_contra hgt
      exact hfirst (c / 128) (c % 128) (Nat.mod_lt _ (by decide)) (by omega) hword
    rw [entry_word g hdev d hj (by omega)] at hw
    refine ⟨i, j, rfl, hj, ⟨?_, by omega⟩, hw⟩
    by_contra hlt
    have hcases : 128 * i + j = 0 ∨ 128 * i + j = 1 := by omega
    rcases hcases with heq | heq
    · exact h0 (heq ▸ hw)
    · exact h1 (heq ▸ hw)

theorem allocClus_of_free (hdev : sb.dev = 0)
    (h0 : sb.fat d 0 ≠ 0) (h1 : sb.fat d 1 ≠ 0) (hfree : 0 < sb.freeCount d) :
    ∃ c d', allocClus sb d = .ok (c, d') ∧ Allocated sb d d' c := by
  obtain ⟨c, hc, hzero⟩ := SuperBlock.exists_free hfree
  obtain ⟨i, j, hfind, hj, hrange, hw⟩ := findFree_of_free g hdev h0 h1 hc hzero
  exact ⟨_, _, allocClus_of_findFree g hdev hfind hj hrange.2, allocated_clear g hdev hrange hw⟩

end

/-- **What a caller relies on**: a free data cluster is marked and cleared and nothing else changes,
or there is none. -/
def Serves (sb : SuperBlock) (d : Disk) : Prop :=
  match allocClus sb d with
  | .error f => f = .panic "no clusters" ∧ ∀ c, sb.InRange c → sb.fat d c ≠ 0
  | .ok (c, d') => sb.InRange c ∧ sb.fat d c = 0 ∧ sb.marks.final (sb.fat d' c) ∧
      (∀ k, k < sb.bytsPerClus → sb.clusByte d' c k = 0) ∧
      ∀ dv a, ¬(dv = 0 ∧ 512 * sb.rsvdSecCnt + 4 * c ≤ a ∧ a < 512 * sb.rsvdSecCnt + 4 * c + 4) →
        ¬(dv = 0 ∧ 512 * sb.firstSec c ≤ a ∧ a < 512 * (sb.firstSec c + sb.secPerClus)) →
        d'.bcache.byte dv a = d.bcache.byte dv a

/-- `allocClus` serves its callers as long as a data cluster is free, or no entry of the whole table
is 0. -/
theorem allocClus_serves_iff (g : sb.Geometry) (hdev : sb.dev = 0) (h0 : sb.fat d 0 ≠ 0)
    (h1 : sb.fat d 1 ≠ 0) : Serves sb d ↔ (∃ c, sb.InRange c ∧ sb.fat d c = 0) ∨
      ∀ i, i < sb.fatSz → ∀ j, j < 128 → word (d.bcache 0 (sb.rsvdSecCnt + i)) (4 * j) ≠ 0 := by
  have hsec : ∀ i, i < sb.fatSz → u32 (sb.rsvdSecCnt + i : Nat) = sb.rsvdSecCnt + i := by
    intro i hi
    have hfits := g.fits
    have htot := sb.totSec_lt
    have htable : sb.fatSz ≤ sb.fatCnt * sb.fatSz := Nat.le_mul_of_pos_left _ g.tables
    exact u32_of_lt (by omega)
  cases hfind : findFree sb d with
  | none =>
    have hnone : Serves sb d := by
      unfold Serves allocClus
      rw [hfind]
      refine ⟨rfl, fun c hc hzero => ?_⟩
      obtain ⟨i, j, hsome, -⟩ := findFree_of_free g hdev h0 h1 hc hzero
      rw [hfind] at hsome
      cases hsome
    refine ⟨fun _ => .inr fun i hi j hj hz => ?_, fun _ => hnone⟩
    have hrow := List.findSome?_eq_none_iff.1 hfind i (List.mem_range.2 hi)
    have hentry := List.findSome?_eq_none_iff.1 hrow j (List.mem_range.2 (by rw [g.sector]; exact hj))
    rw [hdev, hsec i hi, if_pos hz] at hentry
    cases hentry
  | some ij =>
    obtain ⟨i, j⟩ := ij
    obtain ⟨hi, hj, hw, -⟩ := findFree_spec g hfind
    refine ⟨fun h => .inl ?_, ?_⟩
    · unfold Serves allocClus at h
      rw [hfind] at h
      exact ⟨_, h.1, h.2.1⟩
    · rintro (⟨c, hc, hzero⟩ | hfull)
      · obtain ⟨i', j', hsome, -, hrange, hfree⟩ := findFree_of_free g hdev h0 h1 hc hzero
        obtain ⟨rfl, rfl⟩ := Prod.mk.inj (Option.some.inj (hfind.symm.trans hsome))
        have a := allocated_clear g hdev hrange hfree
        unfold Serves
        rw [allocClus_of_findFree g hdev hfind hj hrange.2]
        refine ⟨hrange, hfree, ?_, fun k hk => ?_, fun dv a' hentry hclus => ?_⟩
        · rw [a.fat, if_pos rfl]
          exact SuperBlock.final_mark
        · exact a.zero k hk
        · rw [g.byte_clearClus hrange, if_neg hclus, g.byte_fatWrite hrange.2, if_neg hentry]
      · rw [hdev, hsec i hi] at hw
        exact absurd hw (hfull i hi j hj)

def tableOf (n : Nat) : Disk := ⟨fun _ sec off => if sec = 1 ∧ off < n then 0xff else 0, []⟩

theorem allocClus_serves_last : Serves smallBlock (tableOf 20) :=
  (allocClus_serves_iff smallBlock_geometry rfl (by decide +kernel) (by decide +kernel)).2
    (.inl ⟨5, by decide +kernel, by decide +kernel⟩)

/-- **A full volume gives out a cluster that it does not have**: the table has entries for 126
clusters, the volume has four. -/
theorem not_serves_full : ¬∀ (sb : SuperBlock) (d : Disk), sb.Geometry → sb.dev = 0 →
    sb.fat d 0 ≠ 0 → sb.fat d 1 ≠ 0 → Serves sb d := by
  intro h
  have hserves := h smallBlock (tableOf 24) smallBlock_geometry rfl (by decide +kernel)
    (by decide +kernel)
  have hclus : (allocClus smallBlock (tableOf 24)).map Prod.fst = .ok 6 := by decide +kernel
  unfold Serves at hserves
  cases hrun : allocClus smallBlock (tableOf 24) with
  | error f =>
    rw [hrun] at hclus
    cases hclus
  | ok r =>
    rw [hrun] at hclus hserves
    obtain ⟨c, d'⟩ := r
    cases hclus
    exact absurd hserves.1 (by decide +kernel)

theorem Allocated.touches (g : sb.Geometry) (a : Allocated sb d d' c) : sb.Touches d d' [] [c] where
  grows := by
    refine .single (g.node_iff.2 a.range) a.free ?_ ?_
    · rw [a.fat, if_pos rfl]
      exact SuperBlock.final_mark
    · intro x hx
      rw [a.fat, if_neg hx]
  room := by
    have := SuperBlock.freeCount_taken a.range a.free (by decide) a.fat
    simp only [List.length_singleton, List.length_nil]
    omega
  bytes x hx hmem k hk := a.bytes x k hx hk (fun heq => hmem (heq ▸ List.mem_singleton_self _))

theorem Allocated.link (g : sb.Geometry) {cs : List Nat} (a : Allocated sb d d1 c)
    (h : IsChain sb.marks (sb.fat d) cs) (hx : cs[i]? = some x) (hlast : cs[i + 1]? = none) :
    sb.Touches d (sb.fatWrite d1 x c).2 cs (cs ++ [c]) ∧ sb.Keeps d (sb.fatWrite d1 x c).2 cs ∧
      ∀ k, k < sb.bytsPerClus → sb.clusByte (sb.fatWrite d1 x c).2 c k = 0 := by
  have hmem : x ∈ cs := List.mem_of_getElem? hx
  have hxr := (h.node x hmem).1
  have hnot : ∀ y ∈ cs, y ≠ c := fun y hy heq => h.next_ne_nil hy (heq ▸ a.free)
  have hclt : c < 2 ^ 32 := by
    have := a.range.2
    have := g.clusters
    omega
  have hc0 : c ≠ 0 := by
    have := a.range.1
    omega
  have hfat : ∀ y, sb.fat (sb.fatWrite d1 x c).2 y =
      if y = x then c else if y = c then FAT32_EOC + 7 else sb.fat d y := by
    intro y
    rw [g.fat_fatWrite hxr.2 hclt, a.fat]
  have hbytes : ∀ y k, sb.InRange y → k < sb.bytsPerClus → y ≠ c →
      sb.clusByte (sb.fatWrite d1 x c).2 y k = sb.clusByte d y k := by
    intro y k hy hk hne
    rw [g.clusByte_fatWrite hxr.2 hy hk, a.bytes y k hy hk hne]
  refine ⟨⟨?_, ?_, ?_⟩, ?_, fun k hk => ?_⟩
  · refine .snoc h hx hlast (g.node_iff.2 a.range) a.free ?_ ?_ ?_
    · rw [hfat, if_pos rfl]
    · rw [hfat, if_neg (hnot x hmem).symm, if_pos rfl]
      exact SuperBlock.final_mark
    · intro y hyx hyc
      rw [hfat, if_neg hyx, if_neg hyc]
  · have hcount : sb.freeCount d = sb.freeCount (sb.fatWrite d1 x c).2 + 1 := by
      refine SuperBlock.countP_erase (List.nodup_range' ..) (SuperBlock.mem_dataClusters.2 a.range)
        (decide_eq_true a.free) ?_ ?_
      · rw [hfat, if_neg (hnot x hmem).symm, if_pos rfl]
        rfl
      · intro y hy
        have hx0 : sb.fat d x ≠ 0 := h.next_ne_nil hmem
        rw [hfat, if_neg hy]
        split
        · rename_i heq
          rw [heq, decide_eq_false hc0, decide_eq_false hx0]
        · rfl
    rw [List.length_append, List.length_singleton]
    omega
  · intro y hy hny k hk
    exact hbytes y k hy hk fun heq =>
      hny (List.mem_append_right _ (heq ▸ List.mem_singleton_self _))
  · intro y hy k hk
    exact hbytes y k (h.node y hy).1 hk (hnot y hy)
  · rw [g.clusByte_fatWrite hxr.2 a.range hk, a.zero k hk]

/-! ## `relocClus` -/

/-- The cursor of `e` is in the chain `cs`. -/
structure At (e : DirEnt) (cs : List Nat) : Prop where
  first : cs.head? = some e.firstClus
  cur : cs[e.clusCnt]? = some e.curClus

section Reloc

variable {d d' : Disk} {e e' : DirEnt} {cs : List Nat}

variable {c i n off y : Nat} {cs' : List Nat}

section

variable (h : IsChain sb.marks (sb.fat d) cs)
include h

theorem fatRead_next (hx : cs[i]? = some x) (hy : cs[i + 1]? = some y) :
    sb.fatRead d x = y ∧ y < FAT32_EOC := by
  have hxlt := (h.node x (List.mem_of_getElem? hx)).2
  refine ⟨?_, (h.node y (List.mem_of_getElem? hy)).2⟩
  rw [SuperBlock.fatRead_of_lt hxlt, h.linked.succ hx hy]

theorem fatRead_last (hx : cs[i]? = some x) (hlast : cs[i + 1]? = none) :
    FAT32_EOC ≤ sb.fatRead d x ∧ sb.fatRead d x ≤ 0x0fffffff := by
  rw [SuperBlock.fatRead_of_lt (h.node x (List.mem_of_getElem? hx)).2]
  exact h.linked.last hx hlast

theorem relocForward_next (hat : At e cs) (hy : cs[e.clusCnt + 1]? = some y) (alloc : Bool)
    (n : Nat) : relocForward sb alloc (n + 1) d e =
      relocForward sb alloc n d { e with curClus := y, clusCnt := e.clusCnt + 1 } := by
  obtain ⟨heq, hlt⟩ := fatRead_next h hat.cur hy
  have hint : ¬(FAT32_EOC : Int) ≤ toInt y := by
    rw [toInt_of_lt (hlt.trans_le (by decide))]
    omega
  conv => lhs; unfold relocForward
  rw [heq, if_neg hint]

theorem relocForward_last (hat : At e cs) (hlast : cs[e.clusCnt + 1]? = none) (alloc : Bool)
    (n : Nat) : relocForward sb alloc (n + 1) d e =
      if alloc then do
        let (clus, d) ← allocClus sb d
        relocForward sb alloc n (sb.fatWrite d e.curClus clus).2
          { e with curClus := clus, clusCnt := e.clusCnt + 1 }
      else .ok (false, d, { e with curClus := e.firstClus, clusCnt := 0 }) := by
  obtain ⟨hge, hle⟩ := fatRead_last h hat.cur hlast
  have hint : (FAT32_EOC : Int) ≤ toInt (sb.fatRead d e.curClus) := by
    rw [toInt_of_lt (by omega)]
    omega
  conv => lhs; unfold relocForward
  rw [if_pos hint]

end

variable (g : sb.Geometry) (hdev : sb.dev = 0) (hsz : 128 * sb.fatSz ≤ 2 ^ 32)
  (h : IsChain sb.marks (sb.fat d) cs) (hat : At e cs)

theorem At.next (hat : At e cs) (hy : cs[e.clusCnt + 1]? = some y) :
    At { e with curClus := y, clusCnt := e.clusCnt + 1 } cs := ⟨hat.first, hy⟩

include h hat in
/-- Up to the last cluster the first loop only moves the cursor. -/
theorem relocForward_walk (hc : cs[e.clusCnt + n]? = some c) (alloc : Bool) (rest : Nat) :
    relocForward sb alloc (n + rest) d e =
      relocForward sb alloc rest d { e with curClus := c, clusCnt := e.clusCnt + n } := by
  induction n generalizing e with
  | zero =>
    rw [Nat.add_zero, hat.cur] at hc
    cases hc
    rw [Nat.zero_add]
    rfl
  | succ n ih =>
    have hlen := (List.getElem?_eq_some_iff.1 hc).1
    have hy : cs[e.clusCnt + 1]? = some (cs.get ⟨e.clusCnt + 1, by omega⟩) :=
      List.getElem?_eq_getElem _
    rw [show e.clusCnt + (n + 1) = e.clusCnt + 1 + n by omega] at hc ⊢
    rw [show n + 1 + rest = n + rest + 1 by omega, relocForward_next h hat hy, ih (hat.next hy) hc]

theorem At.last (hat : At e cs) : ∃ n c, cs[n]? = some c ∧ cs.length = n + 1 := by
  have hlen := (List.getElem?_eq_some_iff.1 hat.cur).1
  exact ⟨cs.length - 1, _, List.getElem?_eq_getElem (by omega), by omega⟩

include h hat in
/-- Behind the end of the chain it goes on from the last cluster. -/
theorem relocForward_end (hc : cs[n]? = some c) (hlast : cs.length = n + 1) (alloc : Bool)
    (hi : n ≤ i) : relocForward sb alloc (i - e.clusCnt) d e =
      relocForward sb alloc (i - n) d { e with curClus := c, clusCnt := n } := by
  have hcnt := (List.getElem?_eq_some_iff.1 hat.cur).1
  have hn : e.clusCnt + (n - e.clusCnt) = n := by omega
  have hwalk := relocForward_walk (n := n - e.clusCnt) h hat (hn.symm ▸ hc) alloc (i - n)
  rw [hn] at hwalk
  rw [← hwalk]
  congr 1
  omega

/-- The cursor is at cluster `i` of the chain, which may have grown. -/
structure Reached (sb : SuperBlock) (d d' : Disk) (e e' : DirEnt) (cs cs' : List Nat) (i : Nat) :
    Prop where
  touches : sb.Touches d d' cs cs'
  keeps : sb.Keeps d d' cs
  length : cs'.length = max cs.length (i + 1)
  zero : ∀ c ∈ cs', c ∉ cs → ∀ k, k < sb.bytsPerClus → sb.clusByte d' c k = 0
  cur : cs'[i]? = some e'.curClus
  entry : e' = { e with curClus := e'.curClus, clusCnt := i }

theorem Reached.at (r : Reached sb d d' e e' cs cs' i) (hat : At e cs) : At e' cs' := by
  have hfirst := r.touches.grows.head? hat.first
  have hcur := r.cur
  rw [r.entry]
  exact ⟨hfirst, hcur⟩

include g h hat in
theorem Reached.extend (hlast : cs[e.clusCnt + 1]? = none)
    (a : Allocated sb d d1 c) (hi : e.clusCnt + 1 ≤ i) (r : Reached sb (sb.fatWrite d1 e.curClus c).2 d'
      { e with curClus := c, clusCnt := e.clusCnt + 1 } e' (cs ++ [c]) cs' i) :
    Reached sb d d' e e' cs cs' i := by
  obtain ⟨t, k, hzero⟩ := a.link g h hat.cur hlast
  have hlen := List.getElem?_eq_none_iff.1 hlast
  refine ⟨t.trans r.touches, k.trans r.keeps fun y hy => List.mem_append_left _ hy, ?_, ?_, r.cur,
    r.entry⟩
  · rw [r.length, List.length_append, List.length_singleton]
    omega
  · intro y hy hnot j hj
    rcases eq_or_ne y c with rfl | hne
    · rw [r.keeps y (List.mem_append_right _ (List.mem_singleton_self y)) j hj, hzero j hj]
    · refine r.zero y hy (fun hmem => ?_) j hj
      rcases List.mem_append.1 hmem with hmem | hmem
      · exact hnot hmem
      · exact hne (List.mem_singleton.1 hmem)

theorem At.extend (hat : At e cs) (hlast : cs[e.clusCnt + 1]? = none) (c : Nat) :
    At { e with curClus := c, clusCnt := e.clusCnt + 1 } (cs ++ [c]) := by
  have hlen : cs.length = e.clusCnt + 1 := by
    have h1 := (List.getElem?_eq_some_iff.1 hat.cur).1
    have h2 := List.getElem?_eq_none_iff.1 hlast
    omega
  refine ⟨?_, ?_⟩
  · rw [List.head?_append, hat.first]
    rfl
  · dsimp only
    rw [List.getElem?_append_right (by omega), hlen, Nat.sub_self]
    rfl

include h hat in
theorem Reached.refl : Reached sb d d e e cs cs e.clusCnt := by
  have hlen := (List.getElem?_eq_some_iff.1 hat.cur).1
  exact ⟨.refl h, .refl d cs, by omega, fun c hc hnot => absurd hc hnot, hat.cur, rfl⟩

theorem Reached.next
    (r : Reached sb d d' { e with curClus := y, clusCnt := e.clusCnt + 1 } e' cs cs' i) :
    Reached sb d d' e e' cs cs' i :=
  ⟨r.touches, r.keeps, r.length, r.zero, r.cur, r.entry⟩

include g hdev hsz h hat in
/-- The first loop with allocation, when what it allocates are data clusters. -/
theorem relocForward_ok {b : Bool}
    (hok : relocForward sb true n d e = .ok (b, d', e')) (hs : sb.Sane d') :
    b = true ∧ ∃ cs', Reached sb d d' e e' cs cs' (e.clusCnt + n) := by
  induction n generalizing d e cs with
  | zero =>
    cases hok
    exact ⟨rfl, cs, .refl h hat⟩
  | succ n ih =>
    rw [show e.clusCnt + (n + 1) = e.clusCnt + 1 + n by omega]
    cases hy : cs[e.clusCnt + 1]? with
    | some y =>
      rw [relocForward_next h hat hy] at hok
      obtain ⟨hb, cs', r⟩ := ih h (hat.next hy) hok
      exact ⟨hb, cs', r.next⟩
    | none =>
      rw [relocForward_last h hat hy, if_pos rfl] at hok
      obtain ⟨⟨c, d1⟩, halloc, hrest⟩ := bind_eq_ok hok
      have hmem : c ∈ d'.allocs := by
        have hsuf := (relocForward_post.of_ok hrest).2
        rw [SuperBlock.fatWrite_allocs, allocClus_post.of_ok halloc] at hsuf
        exact hsuf.subset List.mem_cons_self
      have a := allocClus_ok g hdev hsz halloc (hs c hmem)
      have hchain := (a.link g h hat.cur hy).1.grows.chain
      obtain ⟨hb, cs', r⟩ := ih hchain (hat.extend hy c) hrest
      exact ⟨hb, cs', r.extend g h hat hy a (by omega)⟩

def Low (sb : SuperBlock) (d : Disk) : Prop := sb.fat d 0 ≠ 0 ∧ sb.fat d 1 ≠ 0

theorem Low.touches (hl : Low sb d) (t : sb.Touches d d' cs cs') : Low sb d' := by
  have hnot : ∀ c, c < 2 → c ∉ cs' := fun c hc hmem =>
    absurd (t.grows.chain.node c hmem).1.1 (Nat.not_le.2 hc)
  exact ⟨by rw [t.grows.keep 0 (hnot 0 (by decide))]; exact hl.1,
    by rw [t.grows.keep 1 (hnot 1 (by decide))]; exact hl.2⟩

include g hdev h hat in
/-- The first loop with allocation, when enough data clusters are free. -/
theorem relocForward_room (hl : Low sb d) (hroom : e.clusCnt + n < cs.length + sb.freeCount d) :
    ∃ d' e' cs', relocForward sb true n d e = .ok (true, d', e') ∧
      Reached sb d d' e e' cs cs' (e.clusCnt + n) := by
  induction n generalizing d e cs with
  | zero => exact ⟨d, e, cs, rfl, .refl h hat⟩
  | succ n ih =>
    rw [show e.clusCnt + (n + 1) = e.clusCnt + 1 + n by omega] at hroom ⊢
    cases hy : cs[e.clusCnt + 1]? with
    | some y =>
      rw [relocForward_next h hat hy]
      obtain ⟨d', e', cs', hok, r⟩ := ih h (hat.next hy) hl hroom
      exact ⟨d', e', cs', hok, r.next⟩
    | none =>
      have hlen := List.getElem?_eq_none_iff.1 hy
      obtain ⟨c, d1, halloc, a⟩ := allocClus_of_free g hdev hl.1 hl.2 (by omega)
      have t := (a.link g h hat.cur hy).1
      obtain ⟨d', e', cs', hok, r⟩ :=
        ih t.grows.chain (hat.extend hy c) (hl.touches t) (by rw [t.room]; exact hroom)
      refine ⟨d', e', cs', ?_, r.extend g h hat hy a (by omega)⟩
      rw [relocForward_last h hat hy, if_pos rfl, halloc]
      exact hok

include h hat in
theorem relocRestart_eq (hc : cs[e.clusCnt + n]? = some c) :
    relocRestart sb d n e = .ok { e with curClus := c, clusCnt := e.clusCnt + n } := by
  induction n generalizing e with
  | zero =>
    rw [Nat.add_zero, hat.cur] at hc
    cases hc
    rfl
  | succ n ih =>
    have hlen := (List.getElem?_eq_some_iff.1 hc).1
    have hy : cs[e.clusCnt + 1]? = some (cs.get ⟨e.clusCnt + 1, by omega⟩) :=
      List.getElem?_eq_getElem _
    obtain ⟨heq, hlt⟩ := fatRead_next h hat.cur hy
    unfold relocRestart
    rw [heq, if_neg (Nat.not_le.2 hlt), ih (hat.next hy)]
    · rw [show e.clusCnt + 1 + n = e.clusCnt + (n + 1) by omega]
    · rw [show e.clusCnt + 1 + n = e.clusCnt + (n + 1) by omega]
      exact hc

include h hat in
theorem relocBack_eq (hi : i ≤ e.clusCnt) (hc : cs[i]? = some c) :
    relocBack sb d i e = .ok { e with curClus := c, clusCnt := i } := by
  unfold relocBack
  split
  · have hhead : At { e with curClus := e.firstClus, clusCnt := 0 } cs :=
      ⟨hat.first, by rw [← List.head?_eq_getElem?]; exact hat.first⟩
    have hc' : cs[0 + i]? = some c := by
      rw [Nat.zero_add]
      exact hc
    rw [relocRestart_eq h hhead hc']
    rw [Nat.zero_add]
  · have heq : i = e.clusCnt := by omega
    rw [heq, hat.cur] at hc
    cases hc
    rw [heq]

theorem relocClus_of_forward {e1 : DirEnt} {alloc : Bool} (hat : At e cs)
    (hok : relocForward sb alloc (off / sb.bytsPerClus - e.clusCnt) d e = .ok (true, d1, e1))
    (r : Reached sb d d1 e e1 cs cs' (e.clusCnt + (off / sb.bytsPerClus - e.clusCnt))) :
    ∃ e', relocClus sb d e off alloc = .ok ((off % sb.bytsPerClus : Nat), d1, e') ∧
      Reached sb d d1 e e' cs cs' (off / sb.bytsPerClus) := by
  have hlen := (List.getElem?_eq_some_iff.1 r.cur).1
  have hcur := (List.getElem?_eq_some_iff.1 hat.cur).1
  have hc : cs'[off / sb.bytsPerClus]? = some (cs'.get ⟨off / sb.bytsPerClus, by omega⟩) :=
    List.getElem?_eq_getElem _
  have hcnt : off / sb.bytsPerClus ≤ e1.clusCnt := by
    rw [r.entry]
    dsimp only
    omega
  refine ⟨{ e1 with curClus := _, clusCnt := off / sb.bytsPerClus }, ?_,
    ⟨r.touches, r.keeps, by rw [r.length]; omega, r.zero, hc, by rw [r.entry]⟩⟩
  unfold relocClus
  dsimp only
  rw [hok, ok_bind]
  dsimp only
  rw [relocBack_eq r.touches.grows.chain (r.at hat) hcnt hc]
  rfl

include g hdev hsz h hat in
/-- **`relocClus` with allocation**, when what it allocates are data clusters. -/
theorem relocClus_ok {r : Int} (hok : relocClus sb d e off true = .ok (r, d', e')) (hs : sb.Sane d') :
    r = (off % sb.bytsPerClus : Nat) ∧
      ∃ cs', Reached sb d d' e e' cs cs' (off / sb.bytsPerClus) := by
  have hok' := hok
  obtain ⟨⟨b, d1, e1⟩, hfwd, hrest⟩ := bind_eq_ok hok'
  have hd1 : d1 = d' := by
    cases b with
    | false =>
      cases hrest
      rfl
    | true =>
      obtain ⟨e2, -, hrest⟩ := bind_eq_ok hrest
      cases hrest
      rfl
  subst hd1
  obtain ⟨rfl, cs', hr⟩ := relocForward_ok g hdev hsz h hat hfwd hs
  obtain ⟨e2, heq, hr'⟩ := relocClus_of_forward hat hfwd hr
  rw [heq] at hok
  cases hok
  exact ⟨rfl, cs', hr'⟩

include g hdev h hat in
/-- **`relocClus` with allocation**, when enough data clusters are free. -/
theorem relocClus_room (hl : Low sb d) (off : Nat)
    (hroom : off / sb.bytsPerClus < cs.length + sb.freeCount d) :
    ∃ d' e' cs', relocClus sb d e off true = .ok ((off % sb.bytsPerClus : Nat), d', e') ∧
      Reached sb d d' e e' cs cs' (off / sb.bytsPerClus) := by
  have hcnt := (List.getElem?_eq_some_iff.1 hat.cur).1
  obtain ⟨d1, e1, cs', hfwd, r⟩ :=
    relocForward_room g hdev h hat hl (n := off / sb.bytsPerClus - e.clusCnt) (by omega)
  obtain ⟨e', heq, r'⟩ := relocClus_of_forward hat hfwd r
  exact ⟨d1, e', cs', heq, r'⟩

include h hat in
/-- **`relocClus` inside the chain** goes to the cluster of the offset. -/
theorem relocClus_inside {alloc : Bool} (hc : cs[off / sb.bytsPerClus]? = some c) :
    relocClus sb d e off alloc = .ok ((off % sb.bytsPerClus : Nat), d,
      { e with curClus := c, clusCnt := off / sb.bytsPerClus }) := by
  have hcnt := (List.getElem?_eq_some_iff.1 hat.cur).1
  have hlen := (List.getElem?_eq_some_iff.1 hc).1
  have hx : cs[e.clusCnt + (off / sb.bytsPerClus - e.clusCnt)]? =
      some (cs.get ⟨e.clusCnt + (off / sb.bytsPerClus - e.clusCnt), by omega⟩) :=
    List.getElem?_eq_getElem _
  obtain ⟨e', heq, r⟩ := relocClus_of_forward hat (relocForward_walk h hat hx alloc 0)
    ⟨.refl h, .refl d cs, by omega, fun c hc hnot => absurd hc hnot, hx, rfl⟩
  rw [heq, r.entry, ← Option.some.inj (hc.symm.trans r.cur)]

include h hat in
theorem relocClus_outside (hlen : cs.length ≤ off / sb.bytsPerClus) :
    relocClus sb d e off false = .ok (-1, d, { e with curClus := e.firstClus, clusCnt := 0 }) := by
  obtain ⟨n, c, hc, hn⟩ := hat.last
  obtain ⟨rest, hrest⟩ : ∃ rest, off / sb.bytsPerClus - n = rest + 1 :=
    Nat.exists_eq_add_one_of_ne_zero (by omega)
  have hend : At { e with curClus := c, clusCnt := n } cs := ⟨hat.first, hc⟩
  unfold relocClus
  dsimp only
  rw [relocForward_end h hat hc hn false (by omega), hrest,
    relocForward_last h hend (List.getElem?_eq_none_iff.2 (Nat.le_of_eq hn))]
  rfl

/-- **The cursor.** Inside the chain `relocClus` moves it to the cluster of the offset; behind the
end it fails and goes back to the start, or appends cleared clusters. -/
theorem relocClus_cursor (g : sb.Geometry) (hdev : sb.dev = 0)
    (h : IsChain sb.marks (sb.fat d) cs) (hat : At e cs) (off : Nat) :
    (∀ alloc c, cs[off / sb.bytsPerClus]? = some c →
      relocClus sb d e off alloc = .ok ((off % sb.bytsPerClus : Nat), d,
        { e with curClus := c, clusCnt := off / sb.bytsPerClus })) ∧
    (cs.length ≤ off / sb.bytsPerClus → relocClus sb d e off false =
      .ok (-1, d, { e with curClus := e.firstClus, clusCnt := 0 })) ∧
    (cs.length ≤ off / sb.bytsPerClus → Low sb d →
      off / sb.bytsPerClus < cs.length + sb.freeCount d →
        ∃ d' e' cs', relocClus sb d e off true = .ok ((off % sb.bytsPerClus : Nat), d', e') ∧
          Reached sb d d' e e' cs cs' (off / sb.bytsPerClus)) ∧
    ∀ alloc k x, cs[k]? = some x →
      relocClus sb d { e with curClus := x, clusCnt := k } off alloc =
        relocClus sb d e off alloc := by
  refine ⟨fun _ _ => relocClus_inside h hat, relocClus_outside h hat,
    fun _ hl => relocClus_room g hdev h hat hl off, fun alloc k x hx => ?_⟩
  have hat' : At { e with curClus := x, clusCnt := k } cs := ⟨hat.first, hx⟩
  cases hc : cs[off / sb.bytsPerClus]? with
  | some c => rw [relocClus_inside h hat hc, relocClus_inside h hat' hc]
  | none =>
    have hlen := List.getElem?_eq_none_iff.1 hc
    obtain ⟨n, c, hlast, hn⟩ := hat.last
    have hle : n ≤ off / sb.bytsPerClus := by omega
    have hfwd := relocForward_end h hat hlast hn alloc hle
    have hfwd' := relocForward_end h hat' hlast hn alloc hle
    unfold relocClus
    dsimp only at hfwd' ⊢
    rw [hfwd, hfwd']

/-- Behind a chain of one cluster, the second one is allocated. -/
theorem relocClus_cursor_second : ∃ d e d' e' cs', IsChain smallBlock.marks (smallBlock.fat d) [2] ∧
    relocClus smallBlock d e 600 true = .ok (88, d', e') ∧ Reached smallBlock d d' e e' [2] cs' 1 := by
  have a := allocated_clear (d := tableOf 8) (c := 2) smallBlock_geometry rfl (by decide +kernel)
    (by decide +kernel)
  have h := (a.touches smallBlock_geometry).grows.chain
  have hfree := SuperBlock.freeCount_taken a.range a.free (by decide) a.fat
  have hcount : smallBlock.freeCount (tableOf 8) = 4 := by decide +kernel
  have hat : At ⟨[], 0, 2, 0, 2, 0, false, .live, 1, 0, none⟩ [2] := ⟨rfl, rfl⟩
  have hbpc : smallBlock.bytsPerClus = 512 := by decide +kernel
  obtain ⟨-, -, happend, -⟩ := relocClus_cursor smallBlock_geometry rfl h hat 600
  rw [hbpc] at happend
  obtain ⟨d', e', cs', hok, r⟩ := happend (by decide)
    ⟨by rw [a.fat]; decide +kernel, by rw [a.fat]; decide +kernel⟩ (by simp; omega)
  exact ⟨_, _, d', e', cs', h, hok, r⟩

end Reloc

end DirEnt

end LuoOS.Fs
