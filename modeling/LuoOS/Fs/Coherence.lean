import LuoOS.Fs.Filed

/-!
# The entry cache over whole runs

A search looks into the entry cache first. Over any run of `entSearch`, `entCreate`, `entRemove` and
`entRelse` that meets the condition, an entry that `eCacheHit` finds is on the disk, in the
directory that is searched, under the name that was asked for, and no directory leaves the cache
before the entries below it (`Cached.coherent_of_careful`). Without it, the first entry of an empty
root directory is written as the record of `.`, and the cache still finds it
(`Cached.not_coherent_first`).
-/

namespace LuoOS.Fs

open ChainTable DirEnt DirData Outcome RefForest Runs Function

/-! ## Names -/

/-- Names that `strncmpamb` does not tell apart differ in the case of letters only, if it looks at
them as a whole. -/
theorem map_lower_of_eqAmb {n : Nat} {l l' : List UInt8} (hz : ∀ c ∈ l, c ≠ 0)
    (hz' : ∀ c ∈ l', c ≠ 0) (hlen : l.length ≤ n) (hlen' : l'.length ≤ n)
    (h : eqAmb n l l' = true) : l.map lower = l'.map lower := by
  have hend : ∀ {s : List UInt8}, (∀ c ∈ s, c ≠ 0) → s.length ≤ n →
      ((seen n s).map lower).takeWhile (· ≠ 0) = s.map lower := by
    intro s hs hn
    have hlow : ∀ c ∈ s.map lower, decide (c ≠ 0) = true := by
      intro c hc
      obtain ⟨a, ha, rfl⟩ := List.mem_map.1 hc
      have hne : lower a ≠ lower 0 := by
        rw [Ne, lower_eq_iff]
        grind
      exact decide_eq_true hne
    have hself : s.takeWhile (· ≠ 0) = s := List.takeWhile_eq_self_iff.2 (by simpa using hs)
    rw [seen, hself, List.take_append, List.take_of_length_le hn, List.map_append,
      List.takeWhile_append_of_pos hlow]
    cases n - s.length <;> simp [lower]
  rw [← hend hz hlen, eqAmb_iff.1 h, hend hz' hlen']

namespace Mount

variable {s s' : Mount} {away own : Nat → List Nat} {kind : Nat → Validity} {held : Nat → Nat}
  {i this off off' : Nat} {name : List UInt8} {found : Option Nat}

/-! ## Directories on the disk -/

def listing (s : Mount) (i : Nat) : DirData :=
  s.sb.data s.disk (s.sb.chainOf s.disk (s.ents i).firstClus)

def Listed (s : Mount) (i off : Nat) : Prop := (s.listing i).listed (2 ^ 28) off = true
  deriving Decidable

theorem Sound.listing_eq (h : s.Sound away kind own) (hk : kind i ≠ .unused) :
    s.listing i = s.dir own i := by
  unfold listing dir
  rw [chainOf_eq (h.chained hk)]

/-- **An entry in the cache is on the disk** under its name. -/
theorem Filed.on_disk (f : s.Filed s.valids own) (h : s.Sound away s.valids own)
    (hfit : s.lru.find? (s.fits this name off) = some i) (hplain : Plain name)
    (hlen : name.length ≤ FAT32_MAX_FILENAME) : ∃ n, (s.listing this).Entry (s.ents i).off n ∧
      name.map lower = ((s.listing this).name (s.ents i).off n).map lower := by
  have hfits := List.find?_some hfit
  simp only [Mount.fits, Bool.and_eq_true, decide_eq_true_eq] at hfits
  obtain ⟨⟨⟨hlive, hparent⟩, -⟩, hname⟩ := hfits
  have hdir := h.parent i this hlive hparent
  obtain ⟨n, he, hcstr⟩ := f.entry i this hlive hparent
  rw [h.listing_eq (by rw [hdir.1]; decide)]
  refine ⟨n, he, ?_⟩
  rw [hplain.fits_iff, hcstr] at hname
  refine map_lower_of_eqAmb hplain.no_end (fun c hc => ?_) hlen he.fits hname
  have hne := List.mem_takeWhile_imp hc
  simpa using hne

/-! ## Searching -/

def search (s : Mount) (this : Nat) (name : List UInt8) (off : Option Nat) :
    Kern (Option Nat × Mount) := do
  let (found, _, s) ← s.entSearch this name off
  .ok (found, s)

def slotFor (s : Mount) (this : Nat) (name : List UInt8) (off : Nat) : Option Nat :=
  if (s.ents this).valid ≠ .live then none
  else
    match s.lru.find? (s.fits this name off) with
    | some _ => none
    | none => s.evictee

theorem slotFor_live (h : s.valids this = .live) : s.slotFor this name off =
    match s.lru.find? (s.fits this name off) with
    | some _ => none
    | none => s.evictee :=
  if_neg fun hne => hne h

def lookedUp (s : Mount) (this : Nat) (name : List UInt8) (off : Option Nat) : Option DirEnt :=
  match s.search this name off with
  | .ok (some j, s') => some (s'.ents j)
  | _ => none

def awayWith (s : Mount) (away : Nat → List Nat) : (ep : Option Nat) → (e : Option DirEnt) →
    Nat → List Nat
  | none, _ => away
  | some ep, some e => update (s.evicted away ep) e.firstClus []
  | some ep, none => s.evicted away ep

variable {start : Option Nat}

theorem Sound.search_sought (h : s.Sound away s.valids own) (hk : s.valids this ≠ .unused)
    (hok : s.search this name start = .ok (found, s')) :
    ∃ off', Sought s this name (start.getD 0) found off' s' := by
  obtain ⟨⟨found1, off1, s1⟩, hsearch, hok⟩ := bind_eq_ok hok
  cases hok
  exact ⟨off1, h.entSearch_sought hk hsearch⟩

theorem Tallied.search (h : s.Tallied held) (hthis : 0 < (s.ents this).ref)
    (hok : s.search this name start = .ok (found, s')) : s'.Tallied (opened held found) := by
  obtain ⟨⟨found1, off1, s1⟩, hsearch, hok⟩ := bind_eq_ok hok
  cases hok
  rcases (h.entSearch hthis).of_ok hsearch with ⟨-, hnone, h'⟩ | h'
  · dsimp only at hnone
    rw [hnone]
    exact h'
  · exact h'.tallied

/-- **A search** in a directory that the caller holds. -/
theorem Consistent.sought (c : s.Consistent away held own) (hthis : 0 < held this)
    (hplain : Plain name) (hsize : (s.listing this).size ≤ 2 ^ 31) (ha : off % 32 = 0)
    (hlisted : s.Listed this off) (hs : Sought s this name off found off' s')
    (ht : s'.Tallied (opened held found))
    (hdisk : ∀ ep ∈ s.slotFor this name off, ∀ j, found = some j →
      FromDisk (s.evicted away ep) (s'.ents j)) :
    ∃ own', s'.Consistent (s.awayWith away (s.slotFor this name off) (found.map s'.ents))
        (opened held found) own' ∧
      (found = none → s.valids this = .live → ∃ ep, s.slotFor this name off = some ep ∧
        NotFound s s' this name off ep ∧ s'.IsDir s'.valids this ∧
        s'.dir own' this = s.dir own this ∧ off' % 32 = 0 ∧
        off' ≤ max off (s.dir own this).size ∧ (s.dir own this).Ends off') := by
  have hused := c.used hthis
  unfold Listed at hlisted
  rw [c.sound.listing_eq hused] at hsize hlisted
  cases hs with
  | gone hv =>
    have hslot : s.slotFor this name off = none := if_pos hv
    rw [hslot]
    exact ⟨own, ⟨c.usable, c.sound, c.filed, ht, c.queued⟩, fun _ hlive => absurd hlive hv⟩
  | cached hdir hfit m hsound =>
    have hslot : s.slotFor this name off = none := by
      rw [slotFor_live hdir.1, hfit]
    rw [hslot]
    exact ⟨own, c.cached m (hsound c.sound) ht, nofun⟩
  | @disk ep _ _ s1 _ r hdir hmiss hev hreloc hloop =>
    have hslot : s.slotFor this name off = some ep := by
      rw [slotFor_live hdir.1, hmiss]
      exact hev
    have hne : this ≠ ep := by
      rintro rfl
      have := c.tallied.ref_pos hthis
      have := (evictee_spec c.tallied.rootRef hev).2.2
      omega
    have hkids := c.queued.childless c.tallied hev
    obtain ⟨s2, -, l⟩ := c.sound.sought_disk c.usable hdir hev hkids hne hsize ha hlisted hplain
      hreloc hloop
    rw [hslot] at hdisk ⊢
    rcases c.sound.searchDisk hdir hev (fun _ => hkids) hne hmiss hreloc hloop with
      ⟨rfl, n, hdir', hsound⟩ | ⟨rfl, -, hload⟩
    · obtain ⟨⟨hfiled, hqueued⟩, hoff⟩ := c.missed hev l
      refine ⟨_, ⟨n.sb ▸ c.usable, hsound, hfiled, ht, hqueued⟩, fun _ _ =>
        ⟨ep, rfl, n, hdir', ?_, hoff⟩⟩
      unfold dir
      rw [update_of_ne hne, n.sb, n.disk]
    · obtain ⟨cs', hsound⟩ := hload (hdisk ep rfl ep rfl)
      exact ⟨_, c.loaded hev hmiss hne l hsound ht, nofun⟩

/-! ## Creating -/

def newOff (s : Mount) (this : Nat) (name : List UInt8) : Option Nat :=
  if (s.ents this).valid ≠ .live ∨ flName name = [] then none
  else
    match s.entSearch this (flName name) (some 0) with
    | .ok (none, off, _) => some off
    | _ => none

/-- **`entCreate`** in a directory that the caller holds. -/
theorem Consistent.entCreate (c : s.Consistent away held own) (hthis : 0 < held this) {attr : Nat}
    (hattr : attr = ATTR_DIRECTORY.toNat ∨ FileAttr attr)
    (hgone : (flName name).head? ≠ some EMPTY_ENTRY)
    (hsize : (s.listing this).size ≤ 2 ^ 31) (hlisted : s.Listed this 0)
    (hdisk : ∀ ep ∈ s.missed this name, ∀ e ∈ s.searched this name, FromDisk (s.evicted away ep) e)
    (hoff : ∀ off ∈ s.newOff this name, 64 ≤ off)
    (hok : s.entCreate this name attr = .ok (found, s')) (hs : s.sb.Sane s'.disk) :
    ∃ own', s'.Consistent (s.awayAfter away this name) (opened held found) own' := by
  have ht := (c.tallied.entCreate hthis).of_ok hok
  unfold Mount.entCreate at hok
  split at hok
  · cases hok
  split at hok
  · rename_i hcond
    cases hok
    have hmissed : s.missed this name = none := if_pos hcond
    unfold awayAfter
    rw [hmissed]
    exact ⟨own, c⟩
  rename_i hcond
  have hlive : s.valids this = .live := by
    by_contra hne
    exact hcond (.inl hne)
  have hname : flName name ≠ [] := fun hnil => hcond (.inr hnil)
  have hmissed : s.missed this name = s.slotFor this (flName name) 0 :=
    (if_neg hcond).trans (slotFor_live hlive).symm
  obtain ⟨⟨found1, off, s1⟩, hsearch, hok⟩ := bind_eq_ok hok
  have hsearched : s.searched this name = found1.map s1.ents := by
    unfold searched
    rw [hsearch]
    cases found1 <;> rfl
  have haway : s.awayAfter away this name =
      s.awayWith away (s.slotFor this (flName name) 0) (found1.map s1.ents) := by
    unfold awayAfter awayWith
    rw [hmissed, hsearched]
    cases s.slotFor this (flName name) 0 <;> cases found1 <;> rfl
  rw [hmissed, hsearched] at hdisk
  rw [haway]
  have ht1 : s1.Tallied (opened held found1) := by
    rcases (c.tallied.entSearch (c.tallied.ref_pos hthis)).of_ok hsearch with ⟨hv, -⟩ | h'
    · exact absurd hlive hv
    · exact h'.tallied
  obtain ⟨own1, c1, hnone⟩ := c.sought hthis (plain_flName hname) hsize rfl hlisted
    (c.sound.entSearch_sought (c.used hthis) hsearch) ht1 fun ep hep j hj =>
      hdisk ep hep _ (by rw [hj]; rfl)
  cases found1 with
  | some j =>
    cases hok
    exact ⟨own1, c1⟩
  | none =>
    obtain ⟨ep, hslot, n, hdir1, hdata, ha, hle, hends⟩ := hnone rfl hlive
    have hnew : s.newOff this name = some off := by
      unfold newOff
      rw [if_neg hcond, hsearch]
    have hbound := hoff off hnew
    rw [c.sound.listing_eq (c.used hthis)] at hsize
    dsimp only at hok
    rw [n.eCacheHit, ok_bind] at hok
    obtain ⟨s3, hinit, hok⟩ := bind_eq_ok hok
    obtain ⟨s4, hwrite, hok⟩ := bind_eq_ok hok
    cases hok
    rw [← hdata] at hle hsize hends
    exact c1.create n.unused n.evictee hdir1 hattr hname hgone (by omega) ha hle hsize hends hinit
      hwrite (n.sb.symm ▸ hs) ht

end Mount

open Mount

/-- A volume, the chains of the files outside of the cache, and the references held. -/
structure Cached where
  mount : Mount
  away : Nat → List Nat
  held : Nat → Nat

namespace Cached

/-- The operations on the cache. -/
inductive Op where
  | search (dir : Nat) (name : List UInt8) (off : Option Nat)
  | create (dir : Nat) (name : List UInt8) (attr : Nat)
  | remove (i : Nat)
  | relse (i : Nat)

/-- The calls of `eCacheHit` that an operation makes, but for that of `entCreate` after its search has
found nothing. -/
inductive Asks : Op → (dir : Nat) → (name : List UInt8) → (off : Nat) → Prop
  | search {dir : Nat} {name : List UInt8} {off : Option Nat} :
      Asks (.search dir name off) dir name (off.getD 0)
  | create {dir attr : Nat} {name : List UInt8} (h : flName name ≠ []) :
      Asks (.create dir name attr) dir (flName name) 0

def step (v : Cached) : Op → Kern Cached
  | .search dir name off => do
    let (found, s) ← v.mount.search dir name off
    .ok ⟨s, v.mount.awayWith v.away (v.mount.slotFor dir name (off.getD 0)) (found.map s.ents),
      opened v.held found⟩
  | .create dir name attr => do
    let (found, s) ← v.mount.entCreate dir name attr
    .ok ⟨s, v.mount.awayAfter v.away dir name, opened v.held found⟩
  | .remove i => do .ok { v with mount := ← v.mount.entRemove i }
  | .relse i => do
    .ok { v with mount := ← v.mount.entRelse i, held := update v.held i (v.held i - 1) }

/-- What callers may do: they hold the entries they use, and search for names that are not empty, in
directories whose entries have their long name records. -/
def Legal (v : Cached) : Op → Prop
  | .search dir name _ => (0 < v.held dir ∧ name ≠ []) ∧ v.mount.Listed dir 0
  | .create dir _ _ => 0 < v.held dir ∧ v.mount.Listed dir 0
  | .remove i => 0 < v.held i
  | .relse i => 0 < v.held i

instance (v : Cached) : DecidablePred v.Legal := by
  intro op
  unfold Legal
  split <;> infer_instance

/-- The names and offsets that a search is given: no `.` or `..`, no name longer than those on the
disk, and offsets at which an entry starts. -/
def Fair (v : Cached) (dir : Nat) (name : List UInt8) (off : Nat) : Prop :=
  (Plain name ∧ name.length ≤ FAT32_MAX_FILENAME) ∧ (v.mount.listing dir).size ≤ 2 ^ 31 ∧
    off % 32 = 0 ∧ v.mount.Listed dir off
  deriving Decidable

/-- The condition. What a search loads is a file that is not in the cache. A new entry is a file or a
directory with data clusters, its name does not start with the mark of a deleted record, and its
records go behind those of `.` and `..`. Directories that are removed are empty. -/
def Careful (v : Cached) : Op → Prop
  | .search dir name off => v.Fair dir name (off.getD 0) ∧
      ∀ ep ∈ v.mount.slotFor dir name (off.getD 0), ∀ e ∈ v.mount.lookedUp dir name off,
        FromDisk (v.mount.evicted v.away ep) e
  | .create dir name attr =>
      ((attr = ATTR_DIRECTORY.toNat ∨ FileAttr attr) ∧ v.mount.AllocsInRange (.create dir name attr)) ∧
      ((flName name).length ≤ FAT32_MAX_FILENAME ∧ (flName name).head? ≠ some EMPTY_ENTRY) ∧
      (v.mount.listing dir).size ≤ 2 ^ 31 ∧
      (∀ ep ∈ v.mount.missed dir name, ∀ e ∈ v.mount.searched dir name,
        FromDisk (v.mount.evicted v.away ep) e) ∧
      ∀ off ∈ v.mount.newOff dir name, 64 ≤ off
  | .remove i => ((v.mount.ents i).has ATTR_DIRECTORY = true → v.mount.Childless i) ∧
      ∀ p ∈ (v.mount.ents i).parent, (v.mount.listing p).size ≤ 2 ^ 31
  | .relse _ => True

instance (v : Cached) : DecidablePred v.Careful := by
  intro op
  unfold Careful
  split <;> infer_instance

/-- A volume that was just mounted. -/
structure Mounted (v : Cached) : Prop where
  volume : v.mount.WellFormed v.away
  inodes : (Inodes.mk v.mount v.held).Mounted
  cache : ∀ i, i ≠ v.mount.root → v.mount.valids i = .unused
  clean : (v.mount.ents v.mount.root).dirty = false

/-- **The cache agrees with the disk.** When an `ok` operation gets a live entry for a name, the
directory has one with that name, up to the case of letters, at its offset. A slot that is taken is
not the directory of a live entry. -/
structure Coherent (ok : Cached → Op → Prop) (v : Cached) : Prop where
  hit : ∀ op dir name off, ok v op → Asks op dir name off → ∀ i s',
    v.mount.eCacheHit dir name off = .ok (i, s') → (s'.ents i).valid = .live →
    ∃ n, (v.mount.listing dir).Entry (v.mount.ents i).off n ∧
      name.map lower = ((v.mount.listing dir).name (v.mount.ents i).off n).map lower
  kids : ∀ ep, v.mount.evictee = some ep → v.mount.Childless ep

variable {v v' : Cached} {op : Op}

theorem Mounted.consistent (h : v.Mounted) : ∃ own, v.mount.Consistent v.away v.held own := by
  obtain ⟨u, own, hsound⟩ := h.volume
  have hroot : ∀ j, v.mount.valids j = .live → j = v.mount.root := by
    intro j hj
    by_contra hne
    cases (h.cache j hne).symm.trans hj
  have hparent : ∀ j p, v.mount.valids j = .live → (v.mount.ents j).parent ≠ some p := by
    intro j p hj hp
    rw [hroot j hj] at hp
    cases h.inodes.rootParent.symm.trans hp
  refine ⟨own, u, hsound, ⟨fun j p hj hp => absurd hp (hparent j p hj),
    fun i j p hi _ hp => absurd hp (hparent i p hi), fun j hj => ?_⟩, h.inodes.tallied,
    ⟨?_, fun j hj hlive => absurd (hroot j hlive) hj, fun j p hj hlive => absurd (hroot j hlive) hj⟩⟩
  · rw [hroot j hj]
    exact h.clean
  · exact hsound.slots _ (by rw [hsound.rootLive]; nofun)

/-- One operation. -/
theorem consistent_step (h : ∃ own, v.mount.Consistent v.away v.held own) (hlegal : v.Legal op)
    (hcareful : v.Careful op) (hok : v.step op = .ok v') :
    ∃ own, v'.mount.Consistent v'.away v'.held own := by
  obtain ⟨own, c⟩ := h
  cases op with
  | search dir name off =>
    obtain ⟨⟨found, s⟩, hsearch, hok⟩ := bind_eq_ok hok
    cases hok
    obtain ⟨⟨hheld, -⟩, -⟩ := hlegal
    obtain ⟨⟨⟨hplain, -⟩, hsize, ha, hlisted⟩, hdisk⟩ := hcareful
    obtain ⟨off', hs⟩ := c.sound.search_sought (c.used hheld) hsearch
    obtain ⟨own', c', -⟩ := c.sought hheld hplain hsize ha hlisted hs
      (c.tallied.search (c.tallied.ref_pos hheld) hsearch) fun ep hep j hj => hdisk ep hep _ (by
        unfold lookedUp
        rw [hsearch, hj]
        rfl)
    exact ⟨own', c'⟩
  | create dir name attr =>
    obtain ⟨⟨found, s⟩, hcreate, hok⟩ := bind_eq_ok hok
    cases hok
    obtain ⟨⟨hattr, hrange⟩, ⟨-, hgone⟩, hsize, hdisk, hoff⟩ := hcareful
    refine c.entCreate hlegal.1 hattr hgone hsize hlegal.2 hdisk hoff hcreate (hrange s ?_)
    have hstep : v.mount.step (.create dir name attr) = .ok s := by
      change (v.mount.entCreate dir name attr >>= fun r => pure r.2) = .ok s
      rw [hcreate]
      rfl
    rw [hstep]
    rfl
  | remove i =>
    obtain ⟨s, hremove, hok⟩ := bind_eq_ok hok
    cases hok
    refine ⟨own, c.remove hlegal hcareful.1 (fun p hlive hp => ?_) hremove⟩
    have hdir := c.sound.parent i p hlive hp
    rw [← c.sound.listing_eq (by rw [hdir.1]; nofun)]
    exact hcareful.2 p hp
  | relse i =>
    obtain ⟨s, hrelse, hok⟩ := bind_eq_ok hok
    cases hok
    rw [← bump_drop hlegal] at c
    exact c.entRelseLoop hrelse

theorem coherent_of_consistent {own : Nat → List Nat} (c : v.mount.Consistent v.away v.held own) :
    v.Coherent fun v op => v.Legal op ∧ v.Careful op where
  hit op dir name off hop hasks i s' hhit hlive := by
    have hfit : v.mount.lru.find? (v.mount.fits dir name off) = some i := by
      rcases eCacheHit_cases hhit with ⟨hfit, -⟩ | ⟨-, -, -, hun⟩
      · exact hfit
      · cases hun.symm.trans hlive
    cases hasks with
    | search =>
      obtain ⟨⟨⟨hplain, hlen⟩, -⟩, -⟩ := hop.2
      exact c.filed.on_disk c.sound hfit hplain hlen
    | create hname =>
      obtain ⟨-, ⟨hlen, -⟩, -⟩ := hop.2
      exact c.filed.on_disk c.sound hfit (plain_flName hname) hlen
  kids _ hev := c.queued.childless c.tallied hev

/-- **The cache over whole runs**: from a volume that was just mounted, in every run of legal
operations that meet the condition, the cache agrees with the disk. -/
theorem coherent_of_careful (h : Reach step (fun v op => v.Legal op ∧ v.Careful op) Mounted v) :
    v.Coherent fun v op => v.Legal op ∧ v.Careful op := by
  have hinv : ∃ own, v.mount.Consistent v.away v.held own := by
    refine h.invariant (fun v => ∃ own, v.mount.Consistent v.away v.held own)
      (fun _ hv => hv.consistent) ?_
    rintro v₁ v₂ op hv ⟨hlegal, hcareful⟩ hok
    exact consistent_step hv hlegal hcareful hok
  obtain ⟨own, c⟩ := hinv
  exact coherent_of_consistent c

/-! ## Two volumes -/

def empty : Cached :=
  ⟨Mount.mounted Mount.sixClusters, fun _ => [], fun i => if i = 0 then 1 else 0⟩

theorem mounted_empty : empty.Mounted where
  volume := allCached_sixClusters
  inodes := Inodes.mounted_empty
  cache i hi := by
    have hents : empty.mount.ents i = { emptyEnt with valid := .unused, ref := 0 } := if_neg hi
    unfold valids
    rw [hents]
  clean := rfl

/-- **The first entry of an empty root directory**: `entCreateOnDisk` writes the record of `.` in its
place. The cache finds the entry, the directory has none. -/
theorem not_coherent_first :
    ¬∀ v, Reach step (fun v op => v.Legal op) Mounted v → v.Coherent fun v op => v.Legal op := by
  intro h
  obtain ⟨v, -, hreach, hlegal, hhit, hoff, hbyte⟩ := exists_reach step (fun v op => v.Legal op)
    [.create 0 [0x61] 0] mounted_empty (fun v => v.Legal (.search 0 [0x61] none) ∧
      (v.mount.eCacheHit 0 [0x61] 0).toOption.map (fun r => (r.1, (r.2.ents r.1).valid)) =
        some (4, .live) ∧
      (v.mount.ents 4).off = 0 ∧ (v.mount.listing 0).byte 0 = 0x2e) (by decide +kernel)
  obtain ⟨⟨i, s'⟩, hok, hi⟩ := Option.map_eq_some_iff.1 hhit
  obtain ⟨hi, hlive⟩ := Prod.mk.inj hi
  subst hi
  obtain ⟨n, he, -⟩ := (h v hreach).hit _ 0 [0x61] 0 hlegal .search 4 s' (toOption_eq_some.1 hok)
    hlive
  rw [hoff] at he
  have hfirst := he.first.1
  rw [hbyte] at hfirst
  have hall : ∀ m, m ≤ 20 → (0x2e : UInt8) ≠ UInt8.ofNat m ||| LAST_LONG_ENTRY := by
    decide
  exact hall n he.count.2 hfirst

def dotRecords (s : Mount) : Kern Mount := do
  let s ← s.entCreateOnDisk s.root (s.ents s.root) 0
  s.entCreateOnDisk s.root (s.ents s.root) 32

/-- A volume whose root directory has got these records is one to start from too. -/
theorem Mounted.dots (h : v.Mounted) (hdir : (v.mount.ents v.mount.root).has ATTR_DIRECTORY = true)
    {s : Mount} (hok : dotRecords v.mount = .ok s) (hs : v.mount.sb.Sane s.disk) :
    ({ v with mount := s } : Cached).Mounted := by
  obtain ⟨u, own, hsound⟩ := h.volume
  have hroot : v.mount.IsDir v.mount.valids v.mount.root := ⟨hsound.rootLive, hdir⟩
  obtain ⟨s1, hdot, hdots⟩ := bind_eq_ok hok
  have hs1 : v.mount.sb.Sane s1.disk := hs.of_suffix (entCreateOnDisk_post.of_ok hdots).allocs
  obtain ⟨cs1, h1, x1, -⟩ := hsound.entCreateOnDisk u hroot hdot hs1
  rw [x1.root] at hdots
  obtain ⟨cs2, h2, x2, -⟩ := h1.entCreateOnDisk (x1.sb ▸ u) (x1.worked.isDir hroot) hdots
    (x1.sb ▸ hs)
  have x := x1.trans x2
  have hv : s.valids = v.mount.valids := x.worked.valids
  refine ⟨⟨x.sb ▸ u, _, hv ▸ h2⟩, ⟨?_, ?_, ?_, fun i hi => ?_, fun i => ?_⟩, fun i hi => ?_, ?_⟩
  · rw [x.lru]
    exact h.inodes.slots
  · rw [x.root, x.ents]
    exact h.inodes.rootRef
  · rw [x.root, x.ents]
    exact h.inodes.rootParent
  · rw [x.ents]
    exact h.inodes.idle i (x.root ▸ hi)
  · rw [x.root]
    exact h.inodes.held i
  · rw [hv]
    exact h.cache i (x.root ▸ hi)
  · rw [x.root, x.ents]
    exact h.clean

/-- A directory and a file in it are created, let go, pushed out of the cache by two other files, and
found again in other slots. -/
theorem coherent_reloaded :
    ∃ v₀ v, v₀.Mounted ∧ runWhile step (fun v op => v.Legal op ∧ v.Careful op)
        [.create 0 [0x64] 0x10, .create 4 [0x66] 0, .search 0 [0x44] none, .relse 3, .relse 4,
          .relse 4, .create 0 [0x61] 0, .create 0 [0x62] 0, .search 0 [0x44] (some 0),
          .search 2 [0x46] none] v₀ = some v ∧
      (v.mount.ents 1).parent = some 2 ∧ v.Coherent fun v op => v.Legal op ∧ v.Careful op := by
  have hrun : ((dotRecords empty.mount).toOption.bind fun s =>
      if empty.mount.sb.Sane s.disk then
        (runWhile step (fun v op => v.Legal op ∧ v.Careful op)
          [.create 0 [0x64] 0x10, .create 4 [0x66] 0, .search 0 [0x44] none, .relse 3, .relse 4,
            .relse 4, .create 0 [0x61] 0, .create 0 [0x62] 0, .search 0 [0x44] (some 0),
            .search 2 [0x46] none] { empty with mount := s }).map fun v => (v.mount.ents 1).parent
      else none) = some (some 2) := by
    decide +kernel
  obtain ⟨s, hdots, hrun⟩ := Option.bind_eq_some_iff.1 hrun
  split at hrun
  · rename_i hs
    have hstart := mounted_empty.dots (by decide) (toOption_eq_some.1 hdots) hs
    obtain ⟨v, hv, hparent⟩ := Option.map_eq_some_iff.1 hrun
    exact ⟨_, v, hstart, hv, hparent, coherent_of_careful (reach_of_runWhile hstart hv)⟩
  · cases hrun

end Cached

end LuoOS.Fs
