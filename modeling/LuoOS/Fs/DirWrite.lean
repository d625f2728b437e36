import LuoOS.Fs.DirData

/-!
# Writing into a directory

`entCreateOnDisk` puts the records of a name where it is told to, and `markEmpty` changes no byte
outside of the records of its entry. Neither of them reaches another directory.
-/

namespace LuoOS.Fs

open ChainTable DirEnt DirData Function

namespace DirData

/-- `D'` has the bytes of `D` at the offsets in `keep`. -/
structure Within (D D' : DirData) (keep : Nat → Prop) : Prop where
  size : D.size ≤ D'.size
  byte : ∀ o, o < D.size → keep o → D'.byte o = D.byte o

variable {D D' D1 : DirData} {keep keep' : Nat → Prop} {off n : Nat}

theorem Within.refl (D : DirData) (keep : Nat → Prop) : Within D D keep :=
  ⟨le_rfl, fun _ _ _ => rfl⟩

theorem Within.trans (w : Within D D1 keep) (w' : Within D1 D' keep) : Within D D' keep :=
  ⟨w.size.trans w'.size, fun o ho hk => (w'.byte o (ho.trans_le w.size) hk).trans
    (w.byte o ho hk)⟩

theorem Within.mono (w : Within D D' keep) (h : ∀ o, keep' o → keep o) : Within D D' keep' :=
  ⟨w.size, fun o ho hk => w.byte o ho (h o hk)⟩

theorem Entry.within (h : D.Entry off n) (w : Within D D' keep)
    (hk : ∀ o, off ≤ o → o < off + 32 * (n + 1) → keep o) :
    D'.Entry off n ∧ D'.name off n = D.name off n :=
  h.congr (h.inside.trans w.size) fun o hlo hhi =>
    w.byte o (hhi.trans_le h.inside) (hk o hlo hhi)

end DirData

variable {bs : List UInt8} {off : Nat}

theorem DirEnt.Wrote.append {sb : SuperBlock} {d d1 d' : Disk} {cs cs1 cs' : List Nat}
    {as : List UInt8} (w : Wrote sb d d1 cs cs1 off as)
    (w' : Wrote sb d1 d' cs1 cs' (off + as.length) bs)
    (hfit : off + as.length ≤ sb.bytsPerClus * cs1.length) (hle : cs.length ≤ cs1.length) :
    Wrote sb d d' cs cs' off (as ++ bs) := by
  have hw : Wrote sb d d1 cs cs1 off ((as ++ bs).take as.length) := by
    rw [List.take_left]
    exact w
  have hw' : Wrote sb d1 d' cs1 cs' (off + as.length) ((as ++ bs).drop as.length) := by
    rw [List.drop_left]
    exact w'
  exact hw.trans hw' (by simp) hfit hle

namespace Mount

theorem u32_aligned (h : off % 32 = 0) : u32 off % 32 = 0 := by
  unfold u32
  omega

def dir (s : Mount) (own : Nat → List Nat) (i : Nat) : DirData := s.sb.data s.disk (own i)

variable {s s1 s' : Mount} {away own own' : Nat → List Nat} {kind : Nat → Validity}
  {this off n p : Nat} {cs cs' : List Nat} {d' : Disk}

theorem within_of_bytes (g : s.sb.Geometry)
    (h : ∀ c ∈ cs, ∀ k, k < s.sb.bytsPerClus → s.sb.clusByte d' c k = s.sb.clusByte s.disk c k) :
    Within (s.sb.data s.disk cs) (s.sb.data d' cs) fun _ => True := by
  refine ⟨le_rfl, fun o ho _ => ?_⟩
  have hc := getElem?_index cs ho
  exact h _ (List.mem_of_getElem? hc) _ (Nat.mod_lt _ g.bytsPerClus_pos)

theorem within_of_wrote (hle : cs.length ≤ cs'.length)
    (h : Wrote s.sb s.disk d' cs cs' off bs) : Within (s.sb.data s.disk cs) (s.sb.data d' cs')
      fun o => o < off ∨ off + bs.length ≤ o := by
  have hsize : s.sb.bytsPerClus * cs.length ≤ s.sb.bytsPerClus * cs'.length :=
    Nat.mul_le_mul_left _ hle
  refine ⟨hsize, fun o ho hk => ?_⟩
  exact (h o (ho.trans_le hsize)).2 (by omega) ho

/-- From `s` to `s'` the directory in slot `i` has got the clusters `cs'`, and nothing else has
changed but for cursors. -/
structure Extends (own : Nat → List Nat) (s s' : Mount) (i : Nat) (cs' : List Nat) : Prop where
  sb : s'.sb = s.sb
  lru : s'.lru = s.lru
  root : s'.root = s.root
  ents : ∀ j, SameFile (s.ents j) (s'.ents j)
  touches : s.sb.Touches s.disk s'.disk (own i) cs'

theorem Extends.trans (x : Extends own s s1 this cs)
    (x' : Extends (update own this cs) s1 s' this cs') : Extends own s s' this cs' := by
  have ht := x'.touches
  rw [update_self, x.sb] at ht
  exact ⟨x'.sb.trans x.sb, x'.lru.trans x.lru, x'.root.trans x.root,
    fun j => (x.ents j).trans (x'.ents j), x.touches.trans ht⟩

theorem Extends.worked (x : Extends own s s' this cs') : Worked s s' :=
  ⟨x.sb, x.lru, x.root, fun j => (x.ents j).sameName⟩

/-- What is written into the clusters of one entry is not in those of another. -/
theorem Sound.within_other (g : s.sb.Geometry) (hsb : s'.sb = s.sb)
    (ht : s.sb.Touches s.disk s'.disk cs cs')
    (h' : s'.Sound away kind (update own this cs')) (hp : p ≠ this) :
    Within (s.dir own p) (s'.dir (update own this cs') p) fun _ => True := by
  unfold dir
  rw [update_of_ne hp, hsb]
  refine within_of_bytes g fun c hc k hk => ?_
  have hown : update own this cs' p = own p := update_of_ne hp ..
  have hnode := (h'.chain p).node c (hown.symm ▸ hc)
  rw [hsb] at hnode
  refine ht.bytes c hnode.1 ?_ k hk
  have hapart := h'.family.apart (Sum.inl p) (Sum.inl this) (fun heq => hp (Sum.inl.inj heq)) c
  simp only [Sum.elim_inl, update_self, hown] at hapart
  exact hapart hc

/-- **The other directories** keep their bytes. -/
theorem Extends.other (g : s.sb.Geometry) (x : Extends own s s' this cs')
    (h' : s'.Sound away kind (update own this cs')) (hp : p ≠ this) :
    Within (s.dir own p) (s'.dir (update own this cs') p) fun _ => True :=
  h'.within_other g x.sb x.touches hp

theorem record_fits (g : s.sb.Geometry) (ha : off % 32 = 0) :
    off % s.sb.bytsPerClus + 32 ≤ s.sb.bytsPerClus := by
  have hdvd : 32 ∣ s.sb.bytsPerClus := by
    rw [g.bytsPerClus_eq]
    exact Dvd.dvd.mul_right (by decide) _
  have hmod : off % s.sb.bytsPerClus % 32 = 0 := by
    rw [Nat.mod_mod_of_dvd _ hdvd]
    exact ha
  have hlt : off % s.sb.bytsPerClus < s.sb.bytsPerClus := Nat.mod_lt _ g.bytsPerClus_pos
  omega

section

variable (u : s.sb.Usable) (h : s.Sound away kind own) (hdir : s.IsDir kind this) (ha : off % 32 = 0)
include u h hdir ha

/-- **A record** is written, and the directory gets longer if it has to. -/
theorem Sound.writeRecord {de : List UInt8} (hlen : de.length = 32)
    (hok : s.writeRecord this off de = .ok s') (hs : s.sb.Sane s'.disk) :
    ∃ cs', s'.Sound away kind (update own this cs') ∧ Extends own s s' this cs' ∧
      Wrote s.sb s.disk s'.disk (own this) cs' off de ∧ off + 32 ≤ s.sb.bytsPerClus * cs'.length := by
  obtain ⟨⟨r, s1⟩, hreloc, hok⟩ := bind_eq_ok hok
  have hs1 : s.sb.Sane s1.disk := hs.of_suffix (writeCur_post.of_ok hok).allocs
  obtain ⟨rfl, heq, cs', h1, reached⟩ := h.relocClus_alloc u hdir hreloc hs1
  have hsb : s1.sb = s.sb := by rw [heq]; rfl
  have hlru : s1.lru = s.lru := by rw [heq]; rfl
  have hroot : s1.root = s.root := by rw [heq]; rfl
  have hents : ∀ j, SameFile (s.ents j) (s1.ents j) := by
    intro j
    by_cases hj : j = this
    · rw [hj]
      exact reached.sameFile
    · rw [heq, setEnt_ents, if_neg hj]
      exact .refl _
  have hfit := record_fits u.geometry ha
  have hlt := u.geometry.bytsPerClus_lt
  dsimp only at hok
  rw [u32_of_lt (by omega)] at hok
  have u1 : s1.sb.Usable := hsb ▸ u
  have hdir1 : s1.IsDir kind this := ⟨hdir.1, by rw [hents this]; exact hdir.2⟩
  have hsound := (h1.writeCur u1 hdir1 (by omega) (by omega) hok).1
  obtain ⟨d2, hwrite, t, w⟩ := reached.write u.geometry de (by omega)
  unfold Mount.writeCur at hok
  rw [hsb, hwrite, ok_bind] at hok
  cases hok
  refine ⟨cs', hsound, ⟨rfl, hlru, hroot, hents, t⟩, w, ?_⟩
  have hidx := (List.getElem?_eq_some_iff.1 reached.cur).1
  have hmul : s.sb.bytsPerClus * (off / s.sb.bytsPerClus + 1) ≤ s.sb.bytsPerClus * cs'.length :=
    Nat.mul_le_mul_left _ hidx
  have := Nat.div_add_mod off s.sb.bytsPerClus
  rw [Nat.mul_succ] at hmul
  omega

/-- **The long name records** of a name are written one after the other. Their offsets may wrap
around. -/
theorem Sound.writeLong {filename : List UInt8} {entcnt : Nat} {sum : UInt8} {i off' : Nat}
    (hok : Mount.writeLong this filename entcnt sum i s off = .ok (off', s'))
    (hs : s.sb.Sane s'.disk) :
    ∃ cs', s'.Sound away kind (update own this cs') ∧ Extends own s s' this cs' ∧
      off' % 32 = 0 ∧ (off + 32 * i < 2 ^ 32 → off' = off + 32 * i ∧
        Wrote s.sb s.disk s'.disk (own this) cs' off (nameRecords filename entcnt sum i) ∧
        (0 < i → off + 32 * i ≤ s.sb.bytsPerClus * cs'.length)) := by
  induction i generalizing s own off with
  | zero =>
    cases hok
    refine ⟨own this, ?_, ⟨rfl, rfl, rfl, fun _ => .refl _, .refl (h.chain this)⟩, ha,
      fun _ => ⟨rfl, .refl _ _ _, nofun⟩⟩
    rw [update_eq_self]
    exact h
  | succ i ih =>
    obtain ⟨s1, hrec, hok⟩ := bind_eq_ok hok
    have hs1 : s.sb.Sane s1.disk := hs.of_suffix (writeLong_post.of_ok hok).allocs
    have hlen := length_longRecord filename entcnt (i + 1) sum
    obtain ⟨cs1, h1, x1, w1, hfit1⟩ := h.writeRecord u hdir ha hlen hrec hs1
    have u1 : s1.sb.Usable := x1.sb ▸ u
    obtain ⟨cs', h', x', ha', hwrote⟩ := ih u1 h1 (x1.worked.isDir hdir) (u32_aligned (by omega)) hok
      (x1.sb ▸ hs)
    rw [update_idem] at h'
    refine ⟨cs', h', x1.trans x', ha', fun hlt => ?_⟩
    rw [u32_of_lt (by omega)] at hwrote
    obtain ⟨hoff, w', hfit'⟩ := hwrote (by omega)
    rw [update_self, x1.sb] at w'
    rw [x1.sb] at hfit'
    have hle : s.sb.bytsPerClus * cs1.length ≤ s.sb.bytsPerClus * cs'.length := by
      have ht := x'.touches.grows.length_le
      rw [update_self] at ht
      exact Nat.mul_le_mul_left _ ht
    refine ⟨by omega, ?_, fun _ => ?_⟩
    · rw [← hlen] at w' hfit1
      exact w1.append w' hfit1 x1.touches.grows.length_le
    · by_cases hi : 0 < i
      · omega
      · omega

end

def records (e : DirEnt) : List UInt8 :=
  let name := cstr e.filename
  let entcnt := (name.length + CHAR_LONG_NAME - 1) / CHAR_LONG_NAME
  nameRecords e.filename entcnt (getCheckSum (getShortName name)) entcnt ++
    shortRecord (getShortName name) e.attr e.firstClus e.fileSize

theorem length_records (e : DirEnt) : (records e).length =
    32 * (((cstr e.filename).length + CHAR_LONG_NAME - 1) / CHAR_LONG_NAME + 1) := by
  unfold records
  rw [List.length_append, length_nameRecords, length_shortRecord (length_getShortName _)]
  omega

/-- **The records of an entry** are an entry with its name, unless its short name begins with the mark
of a free or a deleted record. -/
theorem entry_of_records {e : DirEnt} {D : DirData} (ha : off % 32 = 0)
    (hlen : 1 ≤ (cstr e.filename).length ∧ (cstr e.filename).length ≤ FAT32_MAX_FILENAME)
    (hfirst : (getShortName (cstr e.filename)).getD 0 0 ≠ END_OF_ENTRY ∧
      (getShortName (cstr e.filename)).getD 0 0 ≠ EMPTY_ENTRY) (hattr : e.attr ≠ ATTR_LONG_NAME)
    (hsize : off + (records e).length ≤ D.size)
    (hbyte : ∀ o, off ≤ o → o < off + (records e).length → D.byte o = (records e).getD (o - off) 0) :
    D.Entry off (((cstr e.filename).length + CHAR_LONG_NAME - 1) / CHAR_LONG_NAME) ∧
      D.name off (((cstr e.filename).length + CHAR_LONG_NAME - 1) / CHAR_LONG_NAME) =
        cstr e.filename := by
  rw [length_records] at hsize hbyte
  have hshort := length_getShortName (cstr e.filename)
  refine entry_of_written ha hlen rfl hsize hbyte ?_
  unfold shortRecord
  simp only [List.append_assoc]
  rw [List.getD_append _ _ _ _ (by rw [hshort]; decide),
    List.getD_append_right _ _ _ _ (by rw [hshort]; decide), hshort]
  exact ⟨hfirst.1, hfirst.2, hattr⟩

/-- **The records of a name** are written into the directory. Only behind the first two records are
they those of the name. -/
theorem Sound.entCreateOnDisk (u : s.sb.Usable) (h : s.Sound away kind own)
    (hdir : s.IsDir kind this) {e : DirEnt} (hok : s.entCreateOnDisk this e off = .ok s')
    (hs : s.sb.Sane s'.disk) :
    ∃ cs', s'.Sound away kind (update own this cs') ∧ Extends own s s' this cs' ∧
      (32 < off → 1 ≤ (cstr e.filename).length → off + (records e).length < 2 ^ 32 →
        Wrote s.sb s.disk s'.disk (own this) cs' off (records e) ∧
        off + (records e).length ≤ s.sb.bytsPerClus * cs'.length) := by
  rw [length_records]
  unfold Mount.entCreateOnDisk at hok
  split at hok
  · cases hok
  split at hok
  · cases hok
  rename_i ha
  rw [not_not] at ha
  split at hok
  · rename_i hdots
    obtain ⟨cs', h', x', -⟩ := h.writeRecord u hdir ha (length_shortRecord (length_dotName off) ..) hok hs
    exact ⟨cs', h', x', fun hoff => absurd hdots (Nat.not_le.2 hoff)⟩
  obtain ⟨⟨off', s1⟩, hlong, hok⟩ := bind_eq_ok hok
  have hs1 : s.sb.Sane s1.disk := hs.of_suffix (writeRecord_post.of_ok hok).allocs
  obtain ⟨cs1, h1, x1, ha1, hwrote⟩ := h.writeLong u hdir ha hlong hs1
  have u1 : s1.sb.Usable := x1.sb ▸ u
  obtain ⟨cs', h', x', w', hfit'⟩ := h1.writeRecord u1 (x1.worked.isDir hdir) ha1
    (length_shortRecord (length_getShortName _) ..) hok (x1.sb ▸ hs)
  rw [update_idem] at h'
  rw [update_self, x1.sb] at w'
  rw [x1.sb] at hfit'
  refine ⟨cs', h', x1.trans x', fun hoff hname hlt => ?_⟩
  obtain ⟨rfl, w1, hfit1⟩ := hwrote (by omega)
  have hpos : 0 < ((cstr e.filename).length + CHAR_LONG_NAME - 1) / CHAR_LONG_NAME := by
    unfold CHAR_LONG_NAME
    omega
  have hlong := length_nameRecords e.filename (((cstr e.filename).length + CHAR_LONG_NAME - 1) /
    CHAR_LONG_NAME) (getCheckSum (getShortName (cstr e.filename)))
  refine ⟨?_, by omega⟩
  rw [← hlong] at w'
  exact w1.append w' (by rw [hlong]; exact hfit1 hpos) x1.touches.grows.length_le

/-! ## Deleting records -/

/-- Entry `i` is a directory with the chain `cs`. -/
structure Walk (s : Mount) (i : Nat) (cs : List Nat) : Prop where
  geometry : s.sb.Geometry
  chain : IsChain s.sb.marks (s.sb.fat s.disk) cs
  cursor : At (s.ents i) cs
  dir : (s.ents i).has ATTR_DIRECTORY = true
  noLink : (s.ents i).has ATTR_LINK = false

theorem Sound.walk (u : s.sb.Usable) (h : s.Sound away kind own) (hdir : s.IsDir kind this) :
    s.Walk this (own this) :=
  ⟨u.geometry, h.chain this, h.cursor_at hdir, hdir.2, (h.fits this).noLink (by rw [hdir.1]; decide)⟩

theorem Walk.moved (w : s.Walk this cs) {e' : DirEnt} (hsame : SameFile (s.ents this) e')
    (hat : At e' cs) : (s.setEnt this s.disk e').Walk this cs := by
  have hself : (s.setEnt this s.disk e').ents this = e' := by rw [setEnt_at]
  refine ⟨w.geometry, w.chain, by rw [hself]; exact hat, ?_, ?_⟩
  · rw [hself, hsame]
    exact w.dir
  · rw [hself, hsame]
    exact w.noLink

theorem Sound.of_moved (h : s.Sound away kind own) (m : Moved s s1 this)
    (w : s1.Walk this (own this)) : s1.Sound away kind own := by
  obtain ⟨e', rfl, hsame⟩ := m
  have hat := w.cursor
  rw [setEnt_at] at hat
  exact h.moved hsame hat

theorem Walk.relocClus_inside (w : s.Walk this cs) (hin : off < (s.sb.data s.disk cs).size) :
    s.relocClus this off false = .ok ((off % s.sb.bytsPerClus : Nat),
      s.setEnt this s.disk { s.ents this with
        curClus := cs.getD (off / s.sb.bytsPerClus) 0, clusCnt := off / s.sb.bytsPerClus }) := by
  unfold Mount.relocClus
  rw [DirEnt.relocClus_inside w.chain w.cursor (getElem?_index cs hin)]
  rfl

theorem Moved.extends (m : Moved s s' this) (h : s.Sound away kind own) :
    Extends own s s' this (own this) := by
  refine ⟨m.worked.sb, m.worked.lru, m.worked.root, m.ents, ?_⟩
  rw [m.disk]
  exact .refl (h.chain this)

section

variable (u : s.sb.Usable) (h : s.Sound away kind own) (hdir : s.IsDir kind this) (hcnt : (s.ents this).clusCnt = off / s.sb.bytsPerClus)
include u h hdir hcnt

theorem Sound.writeCur_wrote (hfit : off % s.sb.bytsPerClus + bs.length ≤ s.sb.bytsPerClus)
    (hlen : bs.length ≤ 512) (hok : s.writeCur this (off % s.sb.bytsPerClus) bs = .ok s') :
    s'.Sound away kind own ∧ Extends own s s' this (own this) ∧
      Wrote s.sb s.disk s'.disk (own this) (own this) off bs := by
  have hlt := u.geometry.bytsPerClus_lt
  have hsound := (h.writeCur u hdir (by omega) hlen hok).1
  have reached := Reached.refl (h.chain this) (h.cursor_at hdir)
  rw [hcnt] at reached
  obtain ⟨d2, hwrite, t, w⟩ := reached.write u.geometry bs hfit
  unfold Mount.writeCur at hok
  rw [hwrite, ok_bind] at hok
  cases hok
  exact ⟨hsound, ⟨rfl, rfl, rfl, fun _ => .refl _, t⟩, w⟩

/-- **Deleting `n` records** changes none but them. -/
theorem Sound.markEmpty_within (ha : off % 32 = 0) (hsize : (s.dir own this).size ≤ 2 ^ 31)
    (hin : off + 32 * n ≤ (s.dir own this).size)
    (hok : markEmpty this n s off (off % s.sb.bytsPerClus) = .ok s') :
    s'.Sound away kind own ∧ Extends own s s' this (own this) ∧
      Within (s.dir own this) (s'.dir own this) fun o => o < off ∨ off + 32 * n ≤ o := by
  induction n generalizing s off with
  | zero =>
    cases hok
    exact ⟨h, (Moved.refl _ this).extends h, .refl ..⟩
  | succ n ih =>
    obtain ⟨s1, hwrite, hok⟩ := bind_eq_ok hok
    obtain ⟨⟨r, s2⟩, hreloc, hok⟩ := bind_eq_ok hok
    have hfit := record_fits u.geometry ha
    obtain ⟨h1, x1, w1⟩ := h.writeCur_wrote u hdir hcnt
      (by rw [List.length_singleton]; omega) (by decide) hwrite
    have hdir1 := x1.worked.isDir hdir
    obtain ⟨h2, m2⟩ := h1.relocClus hdir1 hreloc
    have x2 : Extends own s s2 this (own this) := by
      refine x1.trans ?_
      rw [update_eq_self]
      exact m2.extends h1
    have hdata : s2.dir own this = s.sb.data s1.disk (own this) := by
      unfold dir
      rw [m2.disk, x2.sb]
    have hkeep : Within (s.dir own this) (s2.dir own this)
        fun o => o < off ∨ off + 32 * (n + 1) ≤ o := by
      rw [hdata]
      refine (within_of_wrote le_rfl w1).mono fun o ho => ?_
      rw [List.length_singleton]
      omega
    have hsame : (s2.dir own this).size = (s.dir own this).size := by
      rw [hdata]
      rfl
    cases n with
    | zero =>
      cases hok
      exact ⟨h2, x2, hkeep⟩
    | succ n =>
      have hbpc : s1.sb.bytsPerClus = s.sb.bytsPerClus := by rw [x1.sb]
      have hin1 : off + 32 < (s1.dir own this).size := by
        change off + 32 < s1.sb.bytsPerClus * _
        rw [hbpc]
        change off + 32 < (s.dir own this).size
        omega
      rw [u32_of_lt (by omega), (h1.walk (x1.sb ▸ u) hdir1).relocClus_inside hin1] at hreloc
      obtain ⟨rfl, hs2⟩ := Prod.mk.inj (Except.ok.inj hreloc)
      have hlt : (off + 32) % s1.sb.bytsPerClus < 2 ^ 32 := by
        have := Nat.mod_le (off + 32) s1.sb.bytsPerClus
        omega
      have hcnt2 : (s2.ents this).clusCnt = (off + 32) / s2.sb.bytsPerClus := by
        rw [← hs2, setEnt_at]
        rfl
      dsimp only at hok
      rw [u32_of_lt (by omega), u32_of_lt hlt, x1.sb, ← x2.sb] at hok
      obtain ⟨h', x', w'⟩ := ih (x2.sb ▸ u) h2 (x2.worked.isDir hdir) hcnt2 (by omega)
        (hsame ▸ hsize) (by omega) hok
      refine ⟨h', x2.trans ?_, hkeep.trans (w'.mono fun o ho => ?_)⟩
      · rw [update_eq_self]
        exact x'
      · omega

end

end Mount

end LuoOS.Fs
