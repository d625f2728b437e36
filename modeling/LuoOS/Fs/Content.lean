import LuoOS.Fs.Cluster

/-!
# The contents of a file

The bytes of a file are those of the clusters of its chain. `Holds` relates an entry and the disk to
the list of these bytes: `entRead` returns a slice of it, and `entWrite` replaces one, extending the
chain when it has to.
-/

namespace LuoOS.Fs

open ChainTable

namespace SuperBlock

def fileByte (sb : SuperBlock) (d : Disk) (cs : List Nat) (i : Nat) : UInt8 :=
  sb.clusByte d (cs.getD (i / sb.bytsPerClus) 0) (i % sb.bytsPerClus)

end SuperBlock

/-- Inside one block of `b` elements the block number stays and the offset grows. -/
theorem add_div_mod {a b k : Nat} (h : a % b + k < b) :
    (a + k) / b = a / b ∧ (a + k) % b = a % b + k := by
  have hb : 0 < b := by omega
  have heq : a + k = (a % b + k) + b * (a / b) := by
    have := Nat.mod_add_div a b
    omega
  constructor
  · rw [heq, Nat.add_mul_div_left _ _ hb, Nat.div_eq_of_lt h, Nat.zero_add]
  · rw [heq, Nat.add_mul_mod_self_left, Nat.mod_eq_of_lt h]

namespace DirEnt

variable {sb : SuperBlock} {d d' : Disk} {e e' : DirEnt} {cs cs' : List Nat}

theorem At.inRange (hat : At e cs) (h : IsChain sb.marks (sb.fat d) cs) : sb.InRange e.curClus :=
  (h.node _ (List.mem_of_getElem? hat.cur)).1

def SameFile (e e' : DirEnt) : Prop := e' = { e with curClus := e'.curClus, clusCnt := e'.clusCnt }

theorem SameFile.refl (e : DirEnt) : SameFile e e := rfl

variable {bs : List UInt8} {cs1 : List Nat} {d1 : Disk} {e1 : DirEnt} {off m fuel i : Nat}

theorem SameFile.trans (h : SameFile e e1) (h' : SameFile e1 e') : SameFile e e' := by
  unfold SameFile at h h' ⊢
  rw [h', h]

theorem Reached.sameFile (r : Reached sb d d' e e' cs cs' i) : SameFile e e' := by
  unfold SameFile
  rw [r.entry]

/-! ## `entRead` -/

theorem readLoop_eq (g : sb.Geometry) (h : IsChain sb.marks (sb.fat d) cs)
    {rest : Nat} (off : Nat) (hat : At e cs) (hfuel : rest ≤ fuel)
    (hfit : off + rest ≤ sb.bytsPerClus * cs.length) (hlt : off + rest < 2 ^ 32) :
    ∃ e', readLoop sb fuel d e off rest =
        .ok ((List.range rest).map fun k => sb.fileByte d cs (off + k), d, e') ∧
      At e' cs ∧ SameFile e e' := by
  induction fuel generalizing e off rest with
  | zero =>
    obtain rfl : rest = 0 := by omega
    exact ⟨e, rfl, hat, .refl e⟩
  | succ fuel ih =>
    unfold readLoop
    by_cases hrest : rest = 0
    · subst hrest
      rw [if_neg (fun hc => absurd hc.2 (by decide))]
      exact ⟨e, rfl, hat, .refl e⟩
    have hpos := g.bytsPerClus_pos
    have hcur : e.curClus < FAT32_EOC := (h.node _ (List.mem_of_getElem? hat.cur)).2
    have hidx : off / sb.bytsPerClus < cs.length := Nat.div_lt_of_lt_mul (by omega)
    have hmod : off % sb.bytsPerClus < sb.bytsPerClus := Nat.mod_lt _ hpos
    have hc : cs[off / sb.bytsPerClus]? = some (cs.getD (off / sb.bytsPerClus) 0) := by
      rw [List.getD_eq_getElem?_getD, List.getElem?_eq_getElem hidx]
      rfl
    have hmin : min (sb.bytsPerClus - off % sb.bytsPerClus) rest ≤ rest := Nat.min_le_right _ _
    have hmin' : off % sb.bytsPerClus + min (sb.bytsPerClus - off % sb.bytsPerClus) rest ≤
        sb.bytsPerClus := by omega
    have hmpos : 0 < min (sb.bytsPerClus - off % sb.bytsPerClus) rest := by omega
    rw [if_pos ⟨hcur, by omega⟩, relocClus_inside h hat hc, ok_bind]
    dsimp only
    generalize min (sb.bytsPerClus - off % sb.bytsPerClus) rest = m at hmin hmin' hmpos ⊢
    obtain ⟨e', hrest', hat', hsame⟩ :=
      ih (e := { e with curClus := cs.getD (off / sb.bytsPerClus) 0,
                        clusCnt := off / sb.bytsPerClus })
        (off + m) ⟨hat.first, hc⟩ (show rest - m ≤ fuel by omega) (by omega) (by omega)
    refine ⟨e', ?_, hat', hsame⟩
    rw [g.rwClusRead_eq (h.node _ (List.mem_of_getElem? hc)).1 hmin', ok_bind, u32_of_lt (by omega),
      hrest', ok_bind]
    have hsplit : List.range rest = List.range m ++ (List.range (rest - m)).map (m + ·) := by
      rw [← List.range_add, Nat.add_sub_cancel' hmin]
    rw [hsplit, List.map_append, List.map_map]
    congr 3
    · apply List.map_congr_left
      intro k hk
      have hk := List.mem_range.1 hk
      obtain ⟨hdiv, hmod'⟩ := add_div_mod (a := off) (k := k) (b := sb.bytsPerClus) (by omega)
      unfold SuperBlock.fileByte
      rw [hdiv, hmod']
    · apply List.map_congr_left
      intro k _
      dsimp only [Function.comp]
      rw [Nat.add_assoc]

/-! ## `entWrite` -/

def Wrote (sb : SuperBlock) (d d' : Disk) (cs cs' : List Nat) (off : Nat) (bs : List UInt8) : Prop :=
  ∀ i, i < sb.bytsPerClus * cs'.length →
    (off ≤ i ∧ i < off + bs.length → sb.fileByte d' cs' i = bs.getD (i - off) 0) ∧
    (¬(off ≤ i ∧ i < off + bs.length) → i < sb.bytsPerClus * cs.length →
      sb.fileByte d' cs' i = sb.fileByte d cs i)

theorem Wrote.refl (d : Disk) (cs : List Nat) (off : Nat) : Wrote sb d d cs cs off [] :=
  fun _ _ => ⟨fun h => absurd h (by rw [List.length_nil]; omega), fun _ _ => rfl⟩

theorem Wrote.trans
    (w : Wrote sb d d1 cs cs1 off (bs.take m)) (w' : Wrote sb d1 d' cs1 cs' (off + m) (bs.drop m))
    (hm : m ≤ bs.length) (hfit : off + m ≤ sb.bytsPerClus * cs1.length)
    (hle : cs.length ≤ cs1.length) : Wrote sb d d' cs cs' off bs := by
  have htake : (bs.take m).length = m := List.length_take_of_le hm
  have hdrop : (bs.drop m).length = bs.length - m := List.length_drop
  have hcap : sb.bytsPerClus * cs.length ≤ sb.bytsPerClus * cs1.length := Nat.mul_le_mul_left _ hle
  intro i hi
  obtain ⟨hin', hout'⟩ := w' i hi
  refine ⟨?_, ?_⟩
  · rintro ⟨h1, h2⟩
    by_cases hlow : i < off + m
    · obtain ⟨hin, -⟩ := w i (by omega)
      rw [htake] at hin
      rw [hout' (by omega) (by omega), hin ⟨h1, hlow⟩, List.getD_eq_getElem?_getD,
        List.getElem?_take_of_lt (by omega), ← List.getD_eq_getElem?_getD]
    · rw [hin' (by omega), List.getD_eq_getElem?_getD, List.getElem?_drop,
        ← List.getD_eq_getElem?_getD, show m + (i - (off + m)) = i - off by omega]
  · intro hnot hlt
    obtain ⟨-, hout⟩ := w i (by omega)
    rw [hout' (by omega) (by omega), hout (by omega) hlt]

theorem getElem?_index {B : Nat} (cs : List Nat) (hi : i < B * cs.length) :
    cs[i / B]? = some (cs.getD (i / B) 0) := by
  rw [List.getD_eq_getElem?_getD, List.getElem?_eq_getElem (Nat.div_lt_of_lt_mul hi)]
  rfl

/-- One round of the loop of `entWrite`: the cursor goes to the offset and bytes are transferred
into the cluster there. -/
theorem Reached.write (g : sb.Geometry)
    (bs : List UInt8) (r : Reached sb d d1 e e1 cs cs1 (off / sb.bytsPerClus))
    (hfit : off % sb.bytsPerClus + bs.length ≤ sb.bytsPerClus) :
    ∃ d2, sb.rwClusWrite d1 e1.curClus (off % sb.bytsPerClus) bs = .ok d2 ∧
      sb.Touches d d2 cs cs1 ∧ Wrote sb d d2 cs cs1 off bs := by
  have hchain := r.touches.grows.chain
  have hcur : e1.curClus ∈ cs1 := List.mem_of_getElem? r.cur
  obtain ⟨d2, hok, hfat, hbytes⟩ := g.rwClusWrite_ok d1 bs (hchain.node _ hcur).1 hfit
  refine ⟨d2, hok, r.touches.trans (.of_write hchain hcur hfat ?_), ?_⟩
  · intro x k hx hk hne
    rw [hbytes x k hx hk, if_neg (fun h => hne h.1)]
  intro i hi
  have hx := getElem?_index cs1 hi
  have hxr := (hchain.node _ (List.mem_of_getElem? hx)).1
  have hk : i % sb.bytsPerClus < sb.bytsPerClus := Nat.mod_lt _ g.bytsPerClus_pos
  have hsame : cs1.getD (i / sb.bytsPerClus) 0 = e1.curClus ↔
      i / sb.bytsPerClus = off / sb.bytsPerClus := by
    constructor
    · intro heq
      rw [heq, ← r.cur] at hx
      exact (List.getElem?_inj (Nat.div_lt_of_lt_mul hi) hchain.nodup).1 hx
    · intro heq
      rw [heq, r.cur] at hx
      rw [heq]
      exact (Option.some.inj hx).symm
  unfold SuperBlock.fileByte
  rw [hbytes _ _ hxr hk]
  refine ⟨?_, ?_⟩
  · rintro ⟨h1, h2⟩
    obtain ⟨hdiv, hmod⟩ := add_div_mod (a := off) (k := i - off) (b := sb.bytsPerClus) (by omega)
    rw [Nat.add_sub_cancel' h1] at hdiv hmod
    rw [if_pos ⟨hsame.2 hdiv, by omega, by omega⟩, hmod, Nat.add_sub_cancel_left]
  · intro hnot hlt
    have hold := getElem?_index cs hlt
    have hgetD : cs1.getD (i / sb.bytsPerClus) 0 = cs.getD (i / sb.bytsPerClus) 0 := by
      rw [r.touches.grows.getElem? hold] at hx
      exact (Option.some.inj hx).symm
    rw [if_neg]
    · rw [hgetD]
      exact r.keeps _ (List.mem_of_getElem? hold) _ hk
    · rintro ⟨hc, h1, h2⟩
      have hdiv := hsame.1 hc
      have hi' := Nat.div_add_mod i sb.bytsPerClus
      have ho' := Nat.div_add_mod off sb.bytsPerClus
      rw [hdiv] at hi'
      omega

/-- The bytes `bs` were written at `off` of the chain. -/
structure Written (sb : SuperBlock) (d d' : Disk) (e e' : DirEnt) (cs cs' : List Nat) (off : Nat)
    (bs : List UInt8) : Prop where
  touches : sb.Touches d d' cs cs'
  cursor : At e' cs'
  same : SameFile e e'
  fits : 0 < bs.length → off + bs.length ≤ sb.bytsPerClus * cs'.length
  wrote : Wrote sb d d' cs cs' off bs

theorem Written.refl (h : IsChain sb.marks (sb.fat d) cs) (hat : At e cs) (off : Nat) :
    Written sb d d e e cs cs off [] :=
  ⟨.refl h, hat, .refl e, fun h => absurd h (by decide), .refl d cs off⟩

theorem Written.step {d2 : Disk}
    (hat : At e cs) (r : Reached sb d d1 e e1 cs cs1 (off / sb.bytsPerClus))
    (t : sb.Touches d d2 cs cs1) (w : Wrote sb d d2 cs cs1 off (bs.take m)) (hm : m ≤ bs.length)
    (hfit : off % sb.bytsPerClus + m ≤ sb.bytsPerClus)
    (next : At e1 cs1 → Written sb d2 d' e1 e' cs1 cs' (off + m) (bs.drop m)) :
    Written sb d d' e e' cs cs' off bs := by
  have n := next (r.at hat)
  have hidx := (List.getElem?_eq_some_iff.1 r.cur).1
  have hcap : off + m ≤ sb.bytsPerClus * cs1.length := by
    have hmul : sb.bytsPerClus * (off / sb.bytsPerClus + 1) ≤ sb.bytsPerClus * cs1.length :=
      Nat.mul_le_mul_left _ hidx
    have := Nat.div_add_mod off sb.bytsPerClus
    rw [Nat.mul_succ] at hmul
    omega
  refine ⟨t.trans n.touches, n.cursor, r.sameFile.trans n.same, ?_,
    w.trans n.wrote hm hcap t.grows.length_le⟩
  have hle : sb.bytsPerClus * cs1.length ≤ sb.bytsPerClus * cs'.length :=
    Nat.mul_le_mul_left _ n.touches.grows.length_le
  have hdrop : (bs.drop m).length = bs.length - m := List.length_drop
  have hn := n.fits
  by_cases hpos : 0 < bs.length - m
  · omega
  · omega

theorem writeLoop_allocs (h : writeLoop sb fuel d e off bs = .ok (d', e')) :
    d.allocs <:+ d'.allocs := by
  induction fuel generalizing d e off bs with
  | zero =>
    cases h
    exact List.suffix_refl _
  | succ fuel ih =>
    unfold writeLoop at h
    split at h
    · obtain ⟨⟨r, d1, e1⟩, hreloc, h⟩ := bind_eq_ok h
      obtain ⟨d2, hwrite, h⟩ := bind_eq_ok h
      have hsuf := ih h
      rw [rwClusWrite_post.of_ok hwrite] at hsuf
      exact (relocClus_post.of_ok hreloc).2.trans hsuf
    · cases h
      exact List.suffix_refl _

section Loop

variable {fuel off : Nat} {bs : List UInt8}

theorem chunk_le (g : sb.Geometry) (off len : Nat) :
    min (sb.bytsPerClus - off % sb.bytsPerClus) len ≤ len ∧
      off % sb.bytsPerClus + min (sb.bytsPerClus - off % sb.bytsPerClus) len ≤ sb.bytsPerClus ∧
      (0 < len → 0 < min (sb.bytsPerClus - off % sb.bytsPerClus) len) := by
  have hmod : off % sb.bytsPerClus < sb.bytsPerClus := Nat.mod_lt _ g.bytsPerClus_pos
  omega

theorem writeLoop_room (g : sb.Geometry) (hdev : sb.dev = 0) (h : IsChain sb.marks (sb.fat d) cs)
    (hat : At e cs) (hl : Low sb d) (hfuel : bs.length ≤ fuel) (hlt : off + bs.length < 2 ^ 32)
    (hroom : off + bs.length ≤ sb.bytsPerClus * (cs.length + sb.freeCount d)) :
    ∃ d' e' cs', writeLoop sb fuel d e off bs = .ok (d', e') ∧
      Written sb d d' e e' cs cs' off bs := by
  induction fuel generalizing d e cs off bs with
  | zero =>
    obtain rfl := List.eq_nil_of_length_eq_zero (Nat.le_zero.1 hfuel)
    exact ⟨d, e, cs, rfl, .refl h hat off⟩
  | succ fuel ih =>
    unfold writeLoop
    by_cases hpos : 0 < bs.length
    · obtain ⟨d1, e1, cs1, hreloc, r⟩ :=
        relocClus_room g hdev h hat hl off (Nat.div_lt_of_lt_mul (by omega))
      obtain ⟨hm, hfit, hmpos⟩ := chunk_le g off bs.length
      rw [if_pos hpos, hreloc, ok_bind]
      dsimp only
      generalize min (sb.bytsPerClus - off % sb.bytsPerClus) bs.length = m at hm hfit hmpos ⊢
      have htake : (bs.take m).length = m := List.length_take_of_le hm
      have hdrop : (bs.drop m).length = bs.length - m := List.length_drop
      obtain ⟨d2, hwrite, t, w⟩ := r.write g (bs.take m) (by rw [htake]; exact hfit)
      have hroom' : off + m + (bs.drop m).length ≤
          sb.bytsPerClus * (cs1.length + sb.freeCount d2) := by
        rw [t.room, hdrop, Nat.add_assoc, Nat.add_sub_cancel' hm]
        exact hroom
      obtain ⟨d', e', cs', hrest, n⟩ :=
        ih t.grows.chain (r.at hat) (hl.touches t) (by omega) (by omega) hroom'
      rw [hwrite, ok_bind, u32_of_lt (by omega)]
      exact ⟨d', e', cs', hrest, .step hat r t w hm hfit fun _ => n⟩
    · obtain rfl := List.eq_nil_of_length_eq_zero (Nat.eq_zero_of_not_pos hpos)
      exact ⟨d, e, cs, rfl, .refl h hat off⟩

theorem writeLoop_ok (g : sb.Geometry) (hdev : sb.dev = 0) (hsz : 128 * sb.fatSz ≤ 2 ^ 32)
    (h : IsChain sb.marks (sb.fat d) cs) (hat : At e cs) (hlt : off + bs.length < 2 ^ 32)
    (hfuel : bs.length ≤ fuel) (hok : writeLoop sb fuel d e off bs = .ok (d', e'))
    (hs : sb.Sane d') : ∃ cs', Written sb d d' e e' cs cs' off bs := by
  induction fuel generalizing d e cs off bs with
  | zero =>
    obtain rfl := List.eq_nil_of_length_eq_zero (Nat.le_zero.1 hfuel)
    cases hok
    exact ⟨cs, .refl h hat off⟩
  | succ fuel ih =>
    unfold writeLoop at hok
    split at hok
    · obtain ⟨⟨ret, d1, e1⟩, hreloc, hok⟩ := bind_eq_ok hok
      obtain ⟨d2, hwrite, hok⟩ := bind_eq_ok hok
      have hs1 : sb.Sane d1 := by
        refine hs.of_suffix ?_
        rw [← rwClusWrite_post.of_ok hwrite]
        exact writeLoop_allocs hok
      obtain ⟨-, cs1, r⟩ := relocClus_ok g hdev hsz h hat hreloc hs1
      obtain ⟨hm, hfit, hmpos⟩ := chunk_le g off bs.length
      generalize min (sb.bytsPerClus - off % sb.bytsPerClus) bs.length = m at *
      have htake : (bs.take m).length = m := List.length_take_of_le hm
      have hdrop : (bs.drop m).length = bs.length - m := List.length_drop
      obtain ⟨d3, hwrite', t, w⟩ := r.write g (bs.take m) (by rw [htake]; exact hfit)
      rw [hwrite] at hwrite'
      cases hwrite'
      rw [u32_of_lt (by omega)] at hok
      obtain ⟨cs', n⟩ := ih t.grows.chain (r.at hat) (by omega) (by omega) hok
      exact ⟨cs', .step hat r t w hm hfit fun _ => n⟩
    · rename_i hpos
      obtain rfl := List.eq_nil_of_length_eq_zero (Nat.eq_zero_of_not_pos hpos)
      cases hok
      exact ⟨cs, .refl h hat off⟩

end Loop

/-- The entry has the chain `cs`, and its cursor in it. -/
structure Chained (sb : SuperBlock) (d : Disk) (e : DirEnt) (cs : List Nat) : Prop where
  chain : IsChain sb.marks (sb.fat d) cs
  empty : cs = [] → e.firstClus = 0
  cursor : cs ≠ [] → At e cs

theorem Chained.of_at (h : IsChain sb.marks (sb.fat d) cs) (hat : At e cs) : Chained sb d e cs :=
  ⟨h, fun hnil => absurd hat.first (by rw [hnil]; nofun), fun _ => hat⟩

theorem Chained.eq_nil_iff (h : Chained sb d e cs) : cs = [] ↔ e.firstClus = 0 := by
  refine ⟨h.empty, fun h0 => ?_⟩
  by_contra hne
  have hmem := List.mem_of_mem_head? (h.cursor hne).first
  have := (h.chain.node _ hmem).1.1
  omega

theorem Chained.frame {ds ds' : List Nat} (h : Chained sb d e cs) (t : sb.Touches d d' ds ds')
    (hapart : ∀ c ∈ cs, c ∉ ds') : Chained sb d' e cs :=
  ⟨h.chain.congr fun c hc => t.grows.keep c (hapart c hc), h.empty, h.cursor⟩

def SameName (e e' : DirEnt) : Prop :=
  e' = { e with
    firstClus := e'.firstClus, fileSize := e'.fileSize, curClus := e'.curClus, clusCnt := e'.clusCnt,
    dirty := e'.dirty }

theorem SameName.refl (e : DirEnt) : SameName e e := rfl

theorem SameName.trans (h : SameName e e1) (h' : SameName e1 e') : SameName e e' := by
  unfold SameName at h h' ⊢
  rw [h', h]

theorem SameFile.sameName (h : SameFile e e') : SameName e e' := by
  unfold SameName
  rw [h]

theorem sameName_grownTo (e : DirEnt) (len off : Nat) : SameName e (e.grownTo len off) := by
  unfold grownTo
  split <;> rfl

/-- What `entWrite` does to the entry and its chain. -/
structure EntWritten (sb : SuperBlock) (d d' : Disk) (e e' : DirEnt) (cs cs' : List Nat) (off : Nat)
    (bs : List UInt8) : Prop where
  touches : sb.Touches d d' cs cs'
  cursor : At e' cs'
  name : SameName e e'
  size : e'.fileSize = if 0 < bs.length ∧ e.fileSize < off + bs.length then off + bs.length
    else e.fileSize
  fits : 0 < bs.length → off + bs.length ≤ sb.bytsPerClus * cs'.length
  wrote : Wrote sb d d' cs cs' off bs

/-- The file has a first cluster, a new one if it had none. -/
structure Opened (sb : SuperBlock) (d d' : Disk) (e e' : DirEnt) (cs cs' : List Nat) : Prop where
  touches : sb.Touches d d' cs cs'
  cursor : At e' cs'
  name : SameName e e'
  size : e'.fileSize = e.fileSize
  bytes : cs = [] ∨ d' = d ∧ cs' = cs

theorem firstCluster_of_alloc (g : sb.Geometry) {c : Nat} (h0 : e.firstClus = 0)
    (halloc : allocClus sb d = .ok (c, d1)) (a : Allocated sb d d1 c) :
    ∃ e1, firstCluster sb d e = .ok (d1, e1) ∧ Opened sb d d1 e e1 [] [c] := by
  refine ⟨{ e with firstClus := c, curClus := c, clusCnt := 0, dirty := true }, ?_, a.touches g,
    ⟨rfl, rfl⟩, rfl, rfl, .inl rfl⟩
  unfold firstCluster
  rw [if_pos h0, halloc]
  rfl

theorem Opened.written (o : Opened sb d d1 e e1 cs cs1)
    (w : Written sb d1 d' e1 e' cs1 cs' off bs) :
    EntWritten sb d d' e (e'.grownTo bs.length (off + bs.length)) cs cs' off bs := by
  have hsize : e'.fileSize = e.fileSize := by
    rw [w.same]
    exact o.size
  have hname := sameName_grownTo e' bs.length (off + bs.length)
  refine ⟨o.touches.trans w.touches, ?_, (o.name.trans w.same.sameName).trans hname, ?_, w.fits, ?_⟩
  · unfold grownTo
    split
    · exact ⟨w.cursor.first, w.cursor.cur⟩
    · exact w.cursor
  · unfold grownTo
    rw [hsize]
    split
    · rfl
    · exact hsize
  · rcases o.bytes with hnil | ⟨rfl, rfl⟩
    · intro i hi
      refine ⟨(w.wrote i hi).1, ?_⟩
      rw [hnil]
      intro _ hlt
      exact absurd hlt (Nat.not_lt_zero i)
    · exact w.wrote

/-- `entWrite` on a writable entry that is no link, within the bounds it checks. -/
theorem entWrite_eq (hlink : e.has ATTR_LINK = false)
    (hro : e.has ATTR_READ_ONLY = false) (hoff : off ≤ e.fileSize)
    (hlen : off + bs.length ≤ 0xffffffff) : entWrite sb d e bs off = (do
      let (d, e) ← firstCluster sb d e
      let (d, e) ← writeLoop sb bs.length d e off bs
      .ok (toInt bs.length, d, e.grownTo bs.length (off + bs.length))) := by
  have hres : resolveLink sb d e = .ok e := by
    unfold resolveLink
    rw [hlink]
    rfl
  unfold entWrite
  rw [u32_of_lt (by omega), if_neg, hres, ok_bind]
  rintro (h | h | h | h)
  · omega
  · omega
  · omega
  · rw [hro] at h
    cases h

/-- **`entWrite` returns, and writes what it is told to**, while there are free clusters. -/
theorem entWrite_room (g : sb.Geometry) (hdev : sb.dev = 0) (h : Chained sb d e cs) (hl : Low sb d)
    (hlink : e.has ATTR_LINK = false) (hro : e.has ATTR_READ_ONLY = false) (hoff : off ≤ e.fileSize)
    (hlen : off + bs.length ≤ 0xffffffff) (hfirst : e.firstClus = 0 → 0 < sb.freeCount d)
    (hroom : off + bs.length ≤ sb.bytsPerClus * (cs.length + sb.freeCount d)) :
    ∃ d' e' cs', entWrite sb d e bs off = .ok (toInt bs.length, d', e') ∧
      EntWritten sb d d' e e' cs cs' off bs := by
  have hopen : ∃ d1 e1 cs1, firstCluster sb d e = .ok (d1, e1) ∧ Opened sb d d1 e e1 cs cs1 := by
    by_cases h0 : e.firstClus = 0
    · obtain ⟨c, d1, halloc, a⟩ := allocClus_of_free g hdev hl.1 hl.2 (hfirst h0)
      obtain ⟨e1, hok, o⟩ := firstCluster_of_alloc g h0 halloc a
      obtain rfl := h.eq_nil_iff.2 h0
      exact ⟨d1, e1, [c], hok, o⟩
    · refine ⟨d, e, cs, ?_, .refl h.chain, h.cursor (fun hn => h0 (h.empty hn)), .refl e, rfl,
        .inr ⟨rfl, rfl⟩⟩
      unfold firstCluster
      rw [if_neg h0]
  obtain ⟨d1, e1, cs1, hok, o⟩ := hopen
  obtain ⟨d', e', cs', hloop, w⟩ := writeLoop_room g hdev o.touches.grows.chain o.cursor
    (hl.touches o.touches) (Nat.le_refl bs.length) (show off + bs.length < 2 ^ 32 by omega)
    (by rw [o.touches.room]; exact hroom)
  refine ⟨d', _, cs', ?_, o.written w⟩
  rw [entWrite_eq hlink hro hoff hlen, hok, ok_bind]
  dsimp only
  rw [hloop]
  rfl

theorem entWrite_ok (g : sb.Geometry) (hdev : sb.dev = 0) (hsz : 128 * sb.fatSz ≤ 2 ^ 32) {r : Int} (h : Chained sb d e cs) (hlink : e.has ATTR_LINK = false)
    (hok : entWrite sb d e bs off = .ok (r, d', e')) (hs : sb.Sane d') :
    (d' = d ∧ e' = e) ∨ ∃ cs', EntWritten sb d d' e e' cs cs' off bs := by
  by_cases hguard : off ≤ e.fileSize ∧ off + bs.length ≤ 0xffffffff ∧ e.has ATTR_READ_ONLY = false
  · obtain ⟨hoff, hlen, hro⟩ := hguard
    rw [entWrite_eq hlink hro hoff hlen] at hok
    obtain ⟨⟨d1, e1⟩, hfirst, hok⟩ := bind_eq_ok hok
    obtain ⟨⟨d2, e2⟩, hloop, hok⟩ := bind_eq_ok hok
    obtain ⟨rfl, rfl⟩ := Prod.mk.inj (Prod.mk.inj (Except.ok.inj hok)).2
    right
    have hopen : ∃ cs1, Opened sb d d1 e e1 cs cs1 := by
      by_cases h0 : e.firstClus = 0
      · have hfirst' := hfirst
        unfold firstCluster at hfirst'
        rw [if_pos h0] at hfirst'
        obtain ⟨⟨c, d3⟩, halloc, hret⟩ := bind_eq_ok hfirst'
        cases hret
        have hmem : c ∈ d2.allocs := by
          have hsuf := writeLoop_allocs hloop
          rw [allocClus_post.of_ok halloc] at hsuf
          exact hsuf.subset List.mem_cons_self
        have a := allocClus_ok g hdev hsz halloc (hs c hmem)
        obtain ⟨e3, hfirst', o⟩ := firstCluster_of_alloc g h0 halloc a
        rw [hfirst] at hfirst'
        cases hfirst'
        obtain rfl := h.eq_nil_iff.2 h0
        exact ⟨[c], o⟩
      · unfold firstCluster at hfirst
        rw [if_neg h0] at hfirst
        cases hfirst
        exact ⟨cs, .refl h.chain, h.cursor (fun hn => h0 (h.empty hn)), .refl e, rfl,
          .inr ⟨rfl, rfl⟩⟩
    obtain ⟨cs1, o⟩ := hopen
    obtain ⟨cs', w⟩ := writeLoop_ok g hdev hsz o.touches.grows.chain o.cursor (by omega)
      le_rfl hloop hs
    exact ⟨cs', o.written w⟩
  · left
    unfold entWrite at hok
    rw [if_pos] at hok
    · cases hok
      exact ⟨rfl, rfl⟩
    · by_cases hoff : off ≤ e.fileSize
      · by_cases hlen : off + bs.length ≤ 0xffffffff
        · have hro : e.has ATTR_READ_ONLY = true := by
            cases hro : e.has ATTR_READ_ONLY
            · exact absurd ⟨hoff, hlen, hro⟩ hguard
            · rfl
          exact .inr (.inr (.inr hro))
        · exact .inr (.inr (.inl (Nat.lt_of_not_le hlen)))
      · exact .inl (Nat.lt_of_not_le hoff)

end DirEnt

/-! ## Files as lists of bytes -/

def splice (f : List UInt8) (off : Nat) (bs : List UInt8) : List UInt8 :=
  f.take off ++ bs ++ f.drop (off + bs.length)

section Splice

variable {f bs : List UInt8} {off : Nat}

theorem length_splice (bs : List UInt8) (h : off ≤ f.length) : (splice f off bs).length =
    if 0 < bs.length ∧ f.length < off + bs.length then off + bs.length else f.length := by
  unfold splice
  rw [List.length_append, List.length_append, List.length_take, List.length_drop,
    Nat.min_eq_left h]
  split <;> omega

theorem getD_splice (h : off ≤ f.length) (i : Nat) : (splice f off bs).getD i 0 =
    if off ≤ i ∧ i < off + bs.length then bs.getD (i - off) 0 else f.getD i 0 := by
  have htake : (f.take off).length = off := by rw [List.length_take, Nat.min_eq_left h]
  unfold splice
  simp only [List.getD_eq_getElem?_getD]
  by_cases h1 : i < off
  · rw [if_neg (by omega), List.append_assoc, List.getElem?_append_left (by omega),
      List.getElem?_take_of_lt h1]
  by_cases h2 : i < off + bs.length
  · rw [if_pos (by omega), List.getElem?_append_left (by rw [List.length_append]; omega),
      List.getElem?_append_right (by omega), htake]
  · rw [if_neg (by omega), List.getElem?_append_right (by rw [List.length_append]; omega),
      List.length_append, htake, List.getElem?_drop,
      show off + bs.length + (i - (off + bs.length)) = i by omega]

end Splice

namespace DirEnt

def Regular (e : DirEnt) : Prop :=
  e.has ATTR_DIRECTORY = false ∧ e.has ATTR_READ_ONLY = false ∧ e.has ATTR_LINK = false
  deriving Decidable

/-- The file `e` with the chain `cs` has the bytes `f`. -/
structure Holds (sb : SuperBlock) (d : Disk) (e : DirEnt) (cs : List Nat) (f : List UInt8) : Prop
    extends Chained sb d e cs where
  size : e.fileSize = f.length
  size_lt : f.length < 2 ^ 32
  fits : f.length ≤ sb.bytsPerClus * cs.length
  bytes : ∀ i, i < f.length → f.getD i 0 = sb.fileByte d cs i

variable {sb : SuperBlock} {d d' : Disk} {e e' : DirEnt} {cs cs' : List Nat} {f bs : List UInt8}
  {off : Nat}

theorem Holds.frame (g : sb.Geometry) {ds ds' : List Nat} (h : Holds sb d e cs f)
    (t : sb.Touches d d' ds ds') (hapart : ∀ c ∈ cs, c ∉ ds') : Holds sb d' e cs f where
  toChained := h.toChained.frame t hapart
  size := h.size
  size_lt := h.size_lt
  fits := h.fits
  bytes i hi := by
    have hx := getElem?_index cs (hi.trans_le h.fits)
    have hmem := List.mem_of_getElem? hx
    rw [h.bytes i hi]
    exact (t.bytes _ (h.chain.node _ hmem).1 (hapart _ hmem) _
      (Nat.mod_lt _ g.bytsPerClus_pos)).symm

theorem Holds.written (h : Holds sb d e cs f) (w : EntWritten sb d d' e e' cs cs' off bs)
    (hoff : off ≤ f.length) (hlt : off + bs.length < 2 ^ 32) :
    Holds sb d' e' cs' (splice f off bs) := by
  have hcap : sb.bytsPerClus * cs.length ≤ sb.bytsPerClus * cs'.length :=
    Nat.mul_le_mul_left _ w.touches.grows.length_le
  have hlen := length_splice bs hoff
  have hfits : (splice f off bs).length ≤ sb.bytsPerClus * cs'.length := by
    rw [hlen]
    split
    · rename_i hgrow
      exact w.fits hgrow.1
    · exact h.fits.trans hcap
  refine ⟨.of_at w.touches.grows.chain w.cursor, ?_, ?_, hfits, ?_⟩
  · rw [w.size, hlen, h.size]
  · have := h.size_lt
    rw [hlen]
    split <;> omega
  · intro i hi
    obtain ⟨hin, hout⟩ := w.wrote i (hi.trans_le hfits)
    rw [getD_splice hoff]
    split
    · rename_i hcond
      exact (hin hcond).symm
    rename_i hcond
    have hold : i < f.length := by
      rw [hlen] at hi
      split at hi <;> omega
    rw [hout hcond (hold.trans_le h.fits), h.bytes i hold]

theorem Holds.moved (h : Holds sb d e cs f) (hsame : SameFile e e') (hat : cs ≠ [] → At e' cs) :
    Holds sb d e' cs f where
  chain := h.chain
  empty hn := by
    rw [hsame]
    exact h.empty hn
  cursor := hat
  size := by
    rw [hsame]
    exact h.size
  size_lt := h.size_lt
  fits := h.fits
  bytes := h.bytes

/-- **`entRead` returns a slice of the file** and only moves the cursor. -/
theorem entRead_eq (g : sb.Geometry) (h : Holds sb d e cs f) (hreg : e.Regular) {len : Nat}
    (hlt : off + len < 2 ^ 32) : ∃ e', entRead sb d e off len =
        .ok (toInt ((f.drop off).take len).length, (f.drop off).take len, d, e') ∧
      SameFile e e' ∧ Holds sb d e' cs f := by
  obtain ⟨hdir, -, hlink⟩ := hreg
  have hres : resolveLink sb d e = .ok e := by
    unfold resolveLink
    rw [hlink]
    rfl
  unfold entRead
  rw [u32_of_lt hlt, h.size, hdir]
  by_cases hend : f.length < off
  · rw [if_pos (.inl hend), List.drop_eq_nil_of_le (Nat.le_of_lt hend), List.take_nil]
    exact ⟨e, rfl, .refl e, h⟩
  rw [if_neg (by simp; omega), hres, ok_bind]
  dsimp only
  rw [h.size]
  have hclamp : (if f.length < off + len then u32 ((f.length : Int) - off) else len) =
      min len (f.length - off) := by
    split
    · rw [← Int.ofNat_sub (by omega), u32_of_lt (by omega)]
      omega
    · omega
  rw [hclamp]
  have hslice : (List.range (min len (f.length - off))).map (fun k => sb.fileByte d cs (off + k)) =
      (f.drop off).take len := by
    apply List.ext_getElem
    · rw [List.length_map, List.length_range, List.length_take, List.length_drop]
    · intro k hk hk'
      rw [List.length_map, List.length_range] at hk
      have hget := h.bytes (off + k) (by omega)
      rw [List.getElem_map, List.getElem_range, List.getElem_take, List.getElem_drop, ← hget,
        List.getD_eq_getElem?_getD, List.getElem?_eq_getElem (by omega), Option.getD_some]
  by_cases hnil : cs = []
  · have hf : f.length = 0 := by
      have := h.fits
      rw [hnil] at this
      exact Nat.le_zero.1 this
    have h0 : min len (f.length - off) = 0 := by omega
    rw [h0] at hslice ⊢
    rw [← hslice]
    exact ⟨e, rfl, .refl e, h⟩
  · obtain ⟨e', hloop, hat, hsame⟩ := readLoop_eq g h.chain off (h.cursor hnil)
      (Nat.le_refl (min len (f.length - off)))
      (by have := h.fits; omega) (by omega)
    refine ⟨e', ?_, hsame, h.moved hsame fun _ => hat⟩
    rw [hloop, hslice]
    rfl

end DirEnt

end LuoOS.Fs
