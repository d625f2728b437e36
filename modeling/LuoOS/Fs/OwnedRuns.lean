import LuoOS.Lib.Runs
import LuoOS.Fs.DirWrite

/-!
# Clusters over whole runs

What `entCreate`, `entWrite`, `entTrunc`, `entRemove` and `entRelse` do to the clusters of a volume.
Files leave the entry cache and are loaded again; `away` has the chains of those outside. Every
taken cluster stays with one entry in the cache over any run in which no directory in use is
truncated and no clusters go out of the cache or come into it (`clusters_owned_of_careful`); in
`not_clusters_owned_truncated` one is truncated.
-/

namespace LuoOS.Fs

open ChainTable DirEnt Runs Function

namespace Mount

variable {s s' : Mount} {away own : Nat → List Nat} {kind : Nat → Validity} {i this off : Nat}
  {d' : Disk} {e' : DirEnt}

theorem entRelse_unused (h : s.valids i = .unused) :
    s.entRelse i = .ok ((s.entDup s.root).unref i) := by
  have hun : ((s.entDup s.root).ents i).valid = .unused := (congrFun (entDup_valids s _) i).trans h
  unfold Mount.entRelse Mount.entRelseLoop
  rw [if_neg]
  exact fun hcond => hcond.2.1 hun

/-! ## Searching -/

variable {ep p : Nat} {name : List UInt8}

theorem resolveLink_eq (h : (s.ents i).has ATTR_LINK = false) : s.resolveLink i = .ok s := by
  have heq : DirEnt.resolveLink s.sb s.disk (s.ents i) = .ok (s.ents i) := by
    unfold DirEnt.resolveLink
    rw [h]
    rfl
  unfold Mount.resolveLink
  rw [heq, ok_bind, modify_eq, setEnt_self]

theorem Sound.noLink (h : s.Sound away kind own) (hdir : s.IsDir kind i) :
    (s.ents i).has ATTR_LINK = false :=
  (h.fits i).noLink (by rw [hdir.1]; decide)

variable {attr count count' fuel off' j : Nat} {cs' : List Nat} {e e' : DirEnt} {found : Option Nat}
  {r : Int} {s1 : Mount}

theorem addLong_keeps {de : List UInt8} {islne islne' : Bool}
    (hok : addLong de e islne count = .ok (e', islne', count')) :
    e'.valid = e.valid ∧ e'.ref = e.ref := by
  unfold addLong at hok
  dsimp only at hok
  split at hok
  · cases hok
  · cases hok
    exact ⟨rfl, rfl⟩

/-- The loop of `entNext` moves the cursor of the directory, and leaves alone what the cache knows
of the entry it fills. -/
theorem Sound.entNextLoop (h : s.Sound away kind own) (hdir : s.IsDir kind this) {cnt : Nat}
    {islne : Bool} (hok : entNextLoop this fuel s e off cnt islne count = .ok (r, count', e', s')) :
    s'.Sound away kind own ∧ Moved s s' this ∧ e'.valid = e.valid ∧ e'.ref = e.ref := by
  induction fuel generalizing s e off cnt islne count with
  | zero => cases hok
  | succ fuel ih =>
    obtain ⟨⟨r1, s1⟩, hreloc, hok⟩ := bind_eq_ok hok
    obtain ⟨h1, m1⟩ := h.relocClus hdir hreloc
    have hdir1 := m1.worked.isDir hdir
    dsimp only at hok
    split at hok
    · cases hok
      exact ⟨h1, m1, rfl, rfl⟩
    obtain ⟨de, -, hok⟩ := bind_eq_ok hok
    split at hok
    · cases hok
      exact ⟨h1, m1, rfl, rfl⟩
    split at hok
    · obtain ⟨h', m', hkeep⟩ := ih h1 hdir1 hok
      exact ⟨h', m1.trans m', hkeep⟩
    split at hok
    · cases hok
      exact ⟨h1, m1, rfl, rfl⟩
    split at hok
    · obtain ⟨⟨e1, islne1, count1⟩, hlong, hok⟩ := bind_eq_ok hok
      obtain ⟨hvalid, href⟩ := addLong_keeps hlong
      obtain ⟨h', m', hvalid', href'⟩ := ih h1 hdir1 hok
      exact ⟨h', m1.trans m', hvalid'.trans hvalid, href'.trans href⟩
    split at hok
    · cases hok
      exact ⟨h1, m1, rfl, rfl⟩
    · cases hok
      exact ⟨h1, m1, rfl, rfl⟩

theorem Sound.entNext (h : s.Sound away kind own) (hdir : s.IsDir kind this) (hok : s.entNext this e off count = .ok (r, count', e', s')) :
    s'.Sound away kind own ∧ Moved s s' this ∧ e'.valid = e.valid ∧ e'.ref = e.ref := by
  unfold Mount.entNext at hok
  split at hok
  · cases hok
  split at hok
  · cases hok
  split at hok
  · cases hok
  split at hok
  · cases hok
    exact ⟨h, .refl _ this, rfl, rfl⟩
  rw [resolveLink_eq (h.noLink hdir), ok_bind] at hok
  obtain ⟨h', m', hkeep⟩ := h.entNextLoop hdir hok
  exact ⟨h', m', hkeep⟩

/-- A scan that fills `ep` and changes nothing else. -/
structure Scanned (s s' : Mount) (ep : Nat) : Prop where
  sb : s'.sb = s.sb
  disk : s'.disk = s.disk
  lru : s'.lru = s.lru
  root : s'.root = s.root
  ents : ∀ j, j ≠ ep → SameFile (s.ents j) (s'.ents j)
  valid : (s'.ents ep).valid = (s.ents ep).valid
  ref : (s'.ents ep).ref = (s.ents ep).ref

theorem Scanned.trans (c : Scanned s s1 ep) (c' : Scanned s1 s' ep) : Scanned s s' ep :=
  ⟨c'.sb.trans c.sb, c'.disk.trans c.disk, c'.lru.trans c.lru, c'.root.trans c.root,
    fun j hj => (c.ents j hj).trans (c'.ents j hj), c'.valid.trans c.valid, c'.ref.trans c.ref⟩

theorem Moved.scanned (m : Moved s s' this) (ep : Nat) : Scanned s s' ep :=
  ⟨m.worked.sb, m.disk, m.worked.lru, m.worked.root, fun j _ => m.ents j, by rw [m.ents ep],
    by rw [m.ents ep]⟩

theorem scanned_setEnt (hvalid : e'.valid = (s.ents ep).valid)
    (href : e'.ref = (s.ents ep).ref) : Scanned s (s.setEnt ep s.disk e') ep := by
  refine ⟨rfl, rfl, rfl, rfl, fun j hj => ?_, ?_, ?_⟩
  · rw [setEnt_ents, if_neg hj]
    exact .refl _
  · rw [setEnt_at, hvalid]
  · rw [setEnt_at, href]

theorem Scanned.isDir (c : Scanned s s' ep) (hdir : s.IsDir kind this) (hne : this ≠ ep) :
    s'.IsDir kind this := by
  refine ⟨hdir.1, ?_⟩
  rw [c.ents this hne]
  exact hdir.2

/-- The loop of `entSearch` loads an entry into the slot, or lets go the slot as it found it. -/
theorem Sound.entSearchLoop (h : s.Sound away kind own) (hdir : s.IsDir kind this)
    (hk : kind ep = .unused)
    (hok : entSearchLoop this ep name fuel s off count = .ok (found, off', s')) :
    ∃ s1, Scanned s s1 ep ∧ s1.Sound away kind own ∧
      (found = none ∧ s1.entRelse ep = .ok s' ∨
        found = some ep ∧ ∃ at', s' = (s1.entDup this).modify ep fun e =>
          { e with parent := some this, off := at', valid := .live }) := by
  have hne : this ≠ ep := hdir.ne_of_unused hk
  induction fuel generalizing s off count with
  | zero => cases hok
  | succ fuel ih =>
    obtain ⟨⟨r, count1, e1, s1⟩, hnext, hok⟩ := bind_eq_ok hok
    obtain ⟨h1, m1, hvalid, href⟩ := h.entNext hdir hnext
    have c1 := m1.scanned ep
    have c2 := c1.trans (scanned_setEnt (hvalid.trans c1.valid.symm) (href.trans c1.ref.symm))
    have h2 := h1.setUnused hk e1
    dsimp only at hok
    split at hok
    · obtain ⟨s3, hrelse, hret⟩ := bind_eq_ok hok
      cases hret
      exact ⟨_, c2, h2, .inl ⟨rfl, hrelse⟩⟩
    split at hok
    · cases hok
      exact ⟨_, c2, h2, .inr ⟨rfl, off, rfl⟩⟩
    · obtain ⟨s3, c3, hrest⟩ := ih h2 (c2.isDir hdir hne) hok
      exact ⟨s3, c2.trans c3, hrest⟩

/-! ## Leaving and entering the cache -/

theorem evictee_spec (hroot : 0 < (s.ents s.root).ref) (hev : s.evictee = some ep) :
    ep ∈ s.lru ∧ ep ≠ s.root ∧ (s.ents ep).ref = 0 := by
  have href : (s.ents ep).ref = 0 := by simpa using List.find?_some hev
  refine ⟨List.mem_reverse.1 (List.mem_of_find?_eq_some hev), ?_, href⟩
  rintro rfl
  omega

def Childless (s : Mount) (i : Nat) : Prop :=
  ∀ j ∈ s.lru, (s.ents j).valid = .live → (s.ents j).parent ≠ some i
  deriving Decidable

def evicted (s : Mount) (away : Nat → List Nat) (ep : Nat) : Nat → List Nat :=
  if (s.ents ep).valid = .live then
    update away (s.ents ep).firstClus (s.sb.chainOf s.disk (s.ents ep).firstClus)
  else away

/-- No file outside of the cache starts with the first cluster of an entry that is in it. -/
theorem Sound.away_firstClus (h : s.Sound away kind own) (hk : kind i ≠ .unused) :
    away (s.ents i).firstClus = [] := by
  by_contra hne
  have hmem := List.mem_of_mem_head? (h.heads _ hne)
  have hc := (h.fits i).cursor hk
  by_cases hnil : own i = []
  · rw [hc.empty hnil] at hmem
    have hrange := ((h.family.chain (Sum.inr 0)).node 0 hmem).1.1
    omega
  · exact h.family.apart (Sum.inl i) (Sum.inr _) Sum.inl_ne_inr _
      (List.mem_of_mem_head? (hc.inside hnil).first) hmem

theorem Sound.head_own (h : s.Sound away kind own) (hk : kind i ≠ .unused) : (own i).head? =
    if (s.ents i).firstClus = 0 then none else some (s.ents i).firstClus := by
  have hc := (h.fits i).cursor hk
  by_cases hnil : own i = []
  · rw [hnil, hc.empty hnil]
    rfl
  · have hfirst := (hc.inside hnil).first
    have hrange := ((h.chain i).node _ (List.mem_of_mem_head? hfirst)).1.1
    rw [hfirst, if_neg (by omega)]

theorem Sound.leave (h : s.Sound away s.valids own) (href : (s.ents ep).ref = 0) :
    Family s.sb.marks (s.sb.fat s.disk) (Sum.elim (update own ep []) (s.evicted away ep)) ∧
      Covers s.sb.marks (s.sb.fat s.disk) (Sum.elim (update own ep []) (s.evicted away ep)) ∧
      ∀ c, s.evicted away ep c ≠ [] → (s.evicted away ep c).head? = some c := by
  unfold evicted
  split
  · rename_i hlive
    have hk : s.valids ep ≠ .unused := by
      unfold valids
      rw [hlive]
      nofun
    rw [chainOf_eq (h.chained hk), ← Sum.update_elim_inr, ← Sum.update_elim_inl]
    have hfree : Sum.elim own away (Sum.inr (s.ents ep).firstClus) = [] := h.away_firstClus hk
    refine ⟨h.family.move (i := Sum.inl ep) hfree, h.covers.move (i := Sum.inl ep) hfree, ?_⟩
    intro c hc
    by_cases heq : c = (s.ents ep).firstClus
    · subst heq
      rw [update_self] at hc ⊢
      exact (((h.fits ep).cursor hk).inside hc).first
    · rw [update_of_ne heq] at hc ⊢
      exact h.heads c hc
  · rename_i hlive
    have hown : own ep = [] := by
      cases hv : s.valids ep with
      | unused => exact (h.fits ep).unused hv
      | live => exact absurd hv hlive
      | removed => exact (h.fits ep).gone hv (Int.le_of_eq href)
    have hself : update own ep [] = own := by rw [← hown, update_eq_self]
    rw [hself]
    exact ⟨h.family, h.covers, h.heads⟩

/-- The slot that `eCacheAlloc` takes. -/
def slotTaken (s : Mount) (ep : Nat) : Mount :=
  s.modify ep fun e => { e with ref := 1, off := 0, valid := .unused, dirty := false }

theorem slotTaken_ents (s : Mount) (ep j : Nat) : (s.slotTaken ep).ents j =
    if j = ep then { s.ents ep with ref := 1, off := 0, valid := .unused, dirty := false }
    else s.ents j := by
  unfold slotTaken
  rw [modify_eq, setEnt_ents]

theorem slotTaken_isDir (hdir : s.IsDir s.valids this) (hne : this ≠ ep) :
    (s.slotTaken ep).IsDir (update s.valids ep .unused) this := by
  unfold IsDir
  rw [update_of_ne hne, slotTaken_ents, if_neg hne]
  exact hdir

theorem Sound.slotTaken (h : s.Sound away s.valids own) (hev : s.evictee = some ep)
    (hkids : s.IsDir s.valids ep → s.Childless ep) :
    (s.slotTaken ep).Sound (s.evicted away ep) (update s.valids ep .unused) (update own ep []) := by
  obtain ⟨-, hroot, href⟩ := evictee_spec h.rootRef hev
  obtain ⟨hfam, hcov, hheads⟩ := h.leave href
  refine h.replace ep s.disk _ [] .unused hfam hcov hheads (fits_unused _) nofun ?_
    (fun hne => absurd rfl hne) (fun heq => absurd heq hroot)
  intro hdir
  right
  intro j hj
  exact hkids hdir j (h.slots j (by rw [hj]; nofun)) hj

def FromDisk (away : Nat → List Nat) (e : DirEnt) : Prop :=
  (e.curClus = e.firstClus ∧ e.clusCnt = 0) ∧ e.has ATTR_LINK = false ∧
    (e.has ATTR_DIRECTORY = true → e.firstClus ≠ 0) ∧ (e.firstClus = 0 ∨ away e.firstClus ≠ [])
  deriving Decidable

theorem FromDisk.fits (f : FromDisk away e)
    (hheads : ∀ c, away c ≠ [] → (away c).head? = some c) : Fits .live e (away e.firstClus) := by
  obtain ⟨⟨hcur, hcnt⟩, hlink, hdir, haway⟩ := f
  refine ⟨nofun, fun _ => ⟨fun hnil => ?_, fun hne => ⟨hheads _ hne, ?_⟩⟩, fun _ => hlink, ?_,
    nofun⟩
  · exact haway.resolve_right fun hne => hne hnil
  · rw [hcnt, hcur, ← List.head?_eq_getElem?]
    exact hheads _ hne
  · intro _ hd
    exact haway.resolve_left (hdir hd)

section

variable (h : s.Sound away kind own) (hk : kind ep = .unused) (hmem : ep ∈ s.lru) (hdir : s.IsDir kind this)
include h hk hmem hdir

/-- A slot that was not used gets a live entry, which owns the clusters `cs'`. -/
theorem Sound.settle {away' : Nat → List Nat}
    (hfam : Family s.sb.marks (s.sb.fat d') (Sum.elim (update own ep cs') away'))
    (hcov : Covers s.sb.marks (s.sb.fat d') (Sum.elim (update own ep cs') away'))
    (hheads : ∀ c, away' c ≠ [] → (away' c).head? = some c) (hfit : Fits .live e' cs')
    (hparent : e'.parent = some this) :
    (s.setEnt ep d' e').Sound away' (update kind ep .live) (update own ep cs') ∧
      (s.setEnt ep d' e').IsDir (update kind ep .live) this := by
  have hne : this ≠ ep := hdir.ne_of_unused hk
  have hroot : ep ≠ s.root := h.ne_root_of_unused hk
  refine ⟨h.replace ep d' e' cs' .live hfam hcov hheads hfit ?_ ?_ (fun _ => hmem)
    (fun heq => absurd heq hroot), ?_, ?_⟩
  · intro _ p hp
    obtain rfl : this = p := Option.some.inj (hparent.symm.trans hp)
    rw [if_neg hne]
    exact hdir
  · intro hdir'
    rw [hdir'.1] at hk
    cases hk
  · rw [update_of_ne hne]
    exact hdir.1
  · rw [setEnt_ents, if_neg hne]
    exact hdir.2

theorem Sound.enter (hparent : e'.parent = some this) (f : FromDisk away e') :
    (s.setEnt ep s.disk e').Sound (update away e'.firstClus [])
      (update kind ep .live) (update own ep (away e'.firstClus)) := by
  have hfree : Sum.elim own away (Sum.inl ep) = [] := (h.fits ep).unused hk
  have hfam := h.family.move (i := Sum.inr e'.firstClus) hfree
  have hcov := h.covers.move (i := Sum.inr e'.firstClus) hfree
  rw [Sum.update_elim_inr, Sum.update_elim_inl] at hfam hcov
  refine (h.settle hk hmem hdir hfam hcov ?_ (f.fits h.heads) hparent).1
  intro c hc
  by_cases heq : c = e'.firstClus
  · subst heq
    rw [update_self] at hc
    exact absurd rfl hc
  · rw [update_of_ne heq] at hc ⊢
    exact h.heads c hc

end

theorem valids_setEnt (s : Mount) (i : Nat) (d' : Disk) (e' : DirEnt) :
    (s.setEnt i d' e').valids = update s.valids i e'.valid := by
  funext j
  simp only [valids, setEnt_ents, update_apply]
  split <;> rfl

/-- The cache has no such entry, and `ep` is the slot to take. -/
structure NotFound (s s' : Mount) (this : Nat) (name : List UInt8) (off ep : Nat) : Prop where
  sb : s'.sb = s.sb
  disk : s'.disk = s.disk
  unused : s'.valids ep = .unused
  evictee : s'.evictee = some ep
  misses : s'.lru.find? (s'.fits this name off) = none

/-- What the search has done to another entry than `ep`. -/
theorem Scanned.searched (c : Scanned (s.slotTaken ep) s' ep) (hj : j ≠ ep) : ∃ cur cnt, ((s'.entDup s'.root).unref ep).ents j =
      { s.ents j with
        curClus := cur, clusCnt := cnt
        ref := if j = s.root then (s.ents j).ref + 1 else (s.ents j).ref } := by
  have hroot : s'.root = s.root := c.root
  have hsame := c.ents j hj
  rw [slotTaken_ents, if_neg hj] at hsame
  refine ⟨(s'.ents j).curClus, (s'.ents j).clusCnt, ?_⟩
  simp only [Mount.unref, Mount.entDup, modify_eq, setEnt_ents, hroot]
  rw [if_neg hj]
  split
  · rename_i hjr
    rw [← hjr, hsame]
  · rw [hsame]

theorem Scanned.notFound (c : Scanned (s.slotTaken ep) s' ep) (hroot : ep ≠ s.root)
    (hrootRef : 1 ≤ (s.ents s.root).ref) (hev : s.evictee = some ep)
    (hmiss : s.lru.find? (s.fits this name off) = none) :
    NotFound s ((s'.entDup s'.root).unref ep) this name off ep := by
  have hzero : (s.ents ep).ref = 0 := by
    simpa using List.find?_some hev
  have hslot : (s'.ents ep).valid = .unused ∧ (s'.ents ep).ref = 1 := by
    rw [c.valid, c.ref, slotTaken_ents, if_pos rfl]
    exact ⟨rfl, rfl⟩
  have hne : ep ≠ s'.root := by
    rw [c.root]
    exact hroot
  have hep : ((s'.entDup s'.root).unref ep).ents ep = { s'.ents ep with ref := 0 } := by
    simp [Mount.unref, Mount.entDup, modify_eq, hne, hslot.2]
  refine ⟨c.sb, c.disk, ?_, ?_, ?_⟩
  · unfold Mount.valids
    rw [hep]
    exact hslot.1
  · have hrefs : (fun j => decide ((((s'.entDup s'.root).unref ep).ents j).ref = 0)) =
        fun j => decide ((s.ents j).ref = 0) := by
      funext j
      by_cases hj : j = ep
      · rw [hj, hep, hzero]
      obtain ⟨cur, cnt, heq⟩ := c.searched hj
      rw [heq]
      split
      · rename_i hjr
        rw [decide_eq_decide]
        rw [← hjr] at hrootRef
        dsimp only
        omega
      · rfl
    have hlru : ((s'.entDup s'.root).unref ep).lru = s.lru := c.lru
    unfold Mount.evictee at hev ⊢
    rw [hrefs, hlru]
    exact hev
  · have hlru : ((s'.entDup s'.root).unref ep).lru = s.lru := c.lru
    rw [hlru, List.find?_eq_none]
    intro j hj hfit
    by_cases hje : j = ep
    · subst hje
      unfold Mount.fits at hfit
      rw [hep] at hfit
      simp [hslot.1] at hfit
    · obtain ⟨cur, cnt, heq⟩ := c.searched hje
      refine List.find?_eq_none.1 hmiss j hj ?_
      unfold Mount.fits at hfit ⊢
      rw [heq] at hfit
      exact hfit

theorem entDup_isDir (h : s.IsDir kind this) (i : Nat) : (s.entDup i).IsDir kind this := by
  refine ⟨h.1, ?_⟩
  simp only [Mount.entDup, modify_eq, setEnt_ents]
  split
  · rename_i heq
    rw [heq] at h
    exact h.2
  · exact h.2

theorem Sound.hit (h : s.Sound away kind own) (hdir : s.IsDir kind this) (i : Nat) :
    (s.hit this i).Sound away kind own ∧ (s.hit this i).IsDir kind this := by
  unfold Mount.hit
  split
  · exact ⟨(h.entDup i).entDup this, entDup_isDir (entDup_isDir hdir i) this⟩
  · exact ⟨h.entDup i, entDup_isDir hdir i⟩

theorem hit_valids (s : Mount) (this i : Nat) : (s.hit this i).valids = s.valids := by
  unfold Mount.hit
  split
  · rw [entDup_valids, entDup_valids]
  · exact entDup_valids s i

theorem hit_sb (s : Mount) (this i : Nat) : (s.hit this i).sb = s.sb := by
  unfold Mount.hit
  split <;> rfl

theorem hit_disk (s : Mount) (this i : Nat) : (s.hit this i).disk = s.disk := by
  unfold Mount.hit
  split <;> rfl

theorem Scanned.valids (c : Scanned (s.slotTaken ep) s' ep) :
    s'.valids = update s.valids ep .unused := by
  funext j
  by_cases hj : j = ep
  · subst hj
    rw [update_self]
    refine c.valid.trans ?_
    rw [slotTaken_ents, if_pos rfl]
  · rw [update_of_ne hj]
    have hsame := c.ents j hj
    rw [slotTaken_ents, if_neg hj] at hsame
    unfold Mount.valids
    rw [hsame]

def SlotTaken (away own : Nat → List Nat) (s s' : Mount) (this : Nat) (name : List UInt8)
    (off ep : Nat) (found : Option Nat) : Prop :=
  found = none ∧ NotFound s s' this name off ep ∧ s'.IsDir s'.valids this ∧
      s'.Sound (s.evicted away ep) s'.valids (update own ep []) ∨
    found = some ep ∧ s'.sb = s.sb ∧ (FromDisk (s.evicted away ep) (s'.ents ep) → ∃ cs',
      s'.Sound (update (s.evicted away ep) (s'.ents ep).firstClus []) s'.valids (update own ep cs'))

/-- The part of `entSearch` that reads the directory, into a slot that was taken for it. -/
theorem Sound.searchDisk (h : s.Sound away s.valids own) (hdir : s.IsDir s.valids this)
    (hev : s.evictee = some ep) (hkids : s.IsDir s.valids ep → s.Childless ep)
    (hne : this ≠ ep) (hmiss : s.lru.find? (s.fits this name off) = none)
    (hreloc : (s.slotTaken ep).relocClus this 0 false = .ok (r, s1))
    (hok : Mount.entSearchLoop this ep name fuel s1 off count = .ok (found, off', s')) :
    SlotTaken away own s s' this name off ep found := by
  have hun : update s.valids ep .unused ep = .unused := update_self ..
  have hdir' := slotTaken_isDir hdir hne
  obtain ⟨hmem, hroot, -⟩ := evictee_spec h.rootRef hev
  obtain ⟨h1, m1⟩ := (h.slotTaken hev hkids).relocClus hdir' hreloc
  have c1 := m1.scanned ep
  obtain ⟨s2, c2, h2, hcase⟩ := h1.entSearchLoop (c1.isDir hdir' hne) hun hok
  have c := c1.trans c2
  have hv := c.valids
  have hdir2 := c.isDir hdir' hne
  rcases hcase with ⟨hnone, hrelse⟩ | ⟨hfound, at', rfl⟩
  · rw [entRelse_unused ((congrFun hv ep).trans hun)] at hrelse
    cases hrelse
    refine .inl ⟨hnone, c.notFound hroot h.rootRef hev hmiss, ?_, ?_⟩
    · rw [unref_valids, entDup_valids, hv]
      refine ⟨hdir'.1, ?_⟩
      obtain ⟨cur, cnt, heq⟩ := c.searched hne
      rw [heq]
      exact hdir.2
    · rw [unref_valids, entDup_valids, hv]
      exact (h2.entDup s2.root).setUnused hun _
  · refine .inr ⟨hfound, c.sb, fun f => ?_⟩
    have hself : ∀ e', (((s2.entDup this).setEnt ep (s2.entDup this).disk e').ents ep) = e' :=
      fun e' => by rw [setEnt_at]
    rw [modify_eq, hself] at f
    have h3 := (h2.entDup this).enter hun (c.lru ▸ hmem) (entDup_isDir hdir2 this) rfl f
    rw [update_idem _ _ own] at h3
    rw [modify_eq, hself, valids_setEnt, entDup_valids, hv]
    exact ⟨_, h3⟩

/-- What a search in `this` from `off` on can do: nothing in a removed directory; find the name in
the cache; or read the directory into a slot that it takes. -/
inductive Sought (s : Mount) (this : Nat) (name : List UInt8) (off : Nat) :
    Option Nat → Nat → Mount → Prop
  | gone {off' : Nat} (hv : s.valids this ≠ .live) : Sought s this name off none off' s
  | cached {j off' : Nat} {s' : Mount} (hdir : s.IsDir s.valids this)
      (hfit : s.lru.find? (s.fits this name off) = some j) (m : Moved (s.hit this j) s' this)
      (hsound : ∀ {away own : Nat → List Nat}, s.Sound away s.valids own →
        s'.Sound away s'.valids own) : Sought s this name off (some j) off' s'
  | disk {ep off' : Nat} {found : Option Nat} {s1 s' : Mount} {r : Int}
      (hdir : s.IsDir s.valids this) (hmiss : s.lru.find? (s.fits this name off) = none)
      (hev : s.evictee = some ep) (hreloc : (s.slotTaken ep).relocClus this 0 false = .ok (r, s1))
      (hloop : entSearchLoop this ep name (2 ^ 28) s1 off 0 = .ok (found, off', s')) :
      Sought s this name off found off' s'

theorem live_of_find (hj : s.lru.find? (s.fits this name off) = some j) : s.valids j = .live := by
  have hfits := List.find?_some hj
  simp only [Mount.fits, Bool.and_eq_true, decide_eq_true_eq] at hfits
  exact hfits.1.1.1

theorem eCacheHit_cases (hok : s.eCacheHit this name off = .ok (ep, s')) :
    s.lru.find? (s.fits this name off) = some ep ∧ s' = s.hit this ep ∧
        (s'.ents ep).valid = .live ∨
      s.lru.find? (s.fits this name off) = none ∧ s.evictee = some ep ∧ s' = s.slotTaken ep ∧
        (s'.ents ep).valid = .unused := by
  unfold Mount.eCacheHit at hok
  split at hok
  · rename_i j hj
    cases hok
    exact .inl ⟨hj, rfl, (congrFun (hit_valids s this ep) ep).trans (live_of_find hj)⟩
  rename_i hmiss
  unfold Mount.eCacheAlloc at hok
  split at hok
  · cases hok
  rename_i j hev
  cases hok
  exact .inr ⟨hmiss, hev, rfl, by rw [modify_eq, setEnt_at]⟩

/-- **`entSearch`** in an entry in use. -/
theorem Sound.entSearch_sought {start : Option Nat} (h : s.Sound away s.valids own)
    (hk : s.valids this ≠ .unused) (hok : s.entSearch this name start = .ok (found, off', s')) :
    Sought s this name (start.getD 0) found off' s' := by
  unfold Mount.entSearch at hok
  split at hok
  · cases hok
  rename_i hattr
  rw [resolveLink_eq ((h.fits this).noLink hk), ok_bind] at hok
  split at hok
  · rename_i hv
    cases hok
    exact .gone hv
  rename_i hv
  have hdir : s.IsDir s.valids this := ⟨not_not.1 hv, by simpa using hattr⟩
  obtain ⟨⟨ep, s1⟩, hhit, hok⟩ := bind_eq_ok hok
  dsimp only at hok
  rcases eCacheHit_cases hhit with ⟨hj, rfl, hlive⟩ | ⟨hmiss, hev, rfl, hun⟩
  · rw [if_pos hlive] at hok
    split at hok
    · cases hok
      refine .cached hdir hj (.refl _ this) fun h => ?_
      rw [hit_valids]
      exact (h.hit hdir ep).1
    obtain ⟨⟨r, count, e, s2⟩, hnext, hok⟩ := bind_eq_ok hok
    cases hok
    have m := (Sound.entNext (h.hit hdir ep).1 (h.hit hdir ep).2 hnext).2.1
    refine .cached hdir hj m fun h => ?_
    rw [m.worked.valids, hit_valids]
    exact (Sound.entNext (h.hit hdir ep).1 (h.hit hdir ep).2 hnext).1
  · rw [if_neg (by rw [hun]; nofun)] at hok
    obtain ⟨⟨r, s2⟩, hreloc, hloop⟩ := bind_eq_ok hok
    exact .disk hdir hmiss hev hreloc hloop

/-- **`entSearch`** in a live directory finds the name in the cache, or takes a slot. -/
theorem Sound.entSearch (h : s.Sound away s.valids own) (hdir : s.IsDir s.valids this)
    (href : 1 ≤ (s.ents this).ref) (hok : s.entSearch this name off = .ok (found, off', s')) :
    (∃ j, s.lru.find? (s.fits this name off) = some j ∧ found = some j ∧ s'.sb = s.sb ∧
        s'.Sound away s'.valids own) ∨
      s.lru.find? (s.fits this name off) = none ∧ ∃ ep, s.evictee = some ep ∧
        ((s.IsDir s.valids ep → s.Childless ep) →
          SlotTaken away own s s' this name off ep found) := by
  have hk : s.valids this ≠ .unused := by
    rw [hdir.1]
    nofun
  cases h.entSearch_sought hk hok with
  | gone hv => exact absurd hdir.1 hv
  | @cached j _ _ _ hj m hsound =>
    exact .inl ⟨j, hj, rfl, m.worked.sb.trans (hit_sb s this j), hsound h⟩
  | @disk ep _ _ _ _ _ _ hmiss hev hreloc hloop =>
    have hne : this ≠ ep := by
      rintro rfl
      have hzero := (evictee_spec h.rootRef hev).2.2
      omega
    exact .inr ⟨hmiss, ep, hev, fun hkids =>
      h.searchDisk hdir hev hkids hne hmiss hreloc hloop⟩

/-! ## Creating -/

def FileAttr (attr : Nat) : Prop :=
  UInt8.ofNat attr &&& ATTR_DIRECTORY = 0 ∧ UInt8.ofNat attr &&& ATTR_LINK = 0
  deriving Decidable

theorem or_has {a b flag : UInt8} (ha : a &&& flag = 0) (hb : b &&& flag = 0) :
    (a ||| b) &&& flag = 0 := by
  apply UInt8.toNat_inj.1
  have ha := congrArg UInt8.toNat ha
  have hb := congrArg UInt8.toNat hb
  simp only [UInt8.toNat_and, UInt8.toNat_or, Nat.and_or_distrib_right] at *
  rw [ha, hb]
  rfl

theorem archive_ne (a : UInt8) : a ||| ATTR_ARCHIVE ≠ ATTR_LONG_NAME := by
  intro h
  have hbit := congrArg (fun x : UInt8 => x.toNat.testBit 5) h
  have hor : (a ||| ATTR_ARCHIVE).toNat.testBit 5 = (a.toNat.testBit 5 || true) := by
    rw [UInt8.toNat_or, Nat.testBit_or]
    rfl
  rw [Bool.or_true] at hor
  exact absurd (hor.symm.trans hbit) (by decide)

theorem Sound.fill (h : s.Sound away kind own) (hk : kind ep = .unused) (hmem : ep ∈ s.lru)
    (hdir : s.IsDir kind this) (hg : Grows s.sb.marks (s.sb.fat s.disk) (s.sb.fat d') [] cs')
    (hfit : Fits .live e' cs') (hparent : e'.parent = some this) :
    (s.setEnt ep d' e').Sound away (update kind ep .live) (update own ep cs') ∧
      (s.setEnt ep d' e').IsDir (update kind ep .live) this := by
  rw [← (h.fits ep).unused hk] at hg
  obtain ⟨hfam, hcov⟩ := h.grown hg
  exact h.settle hk hmem hdir hfam hcov h.heads hfit hparent

/-- The fields of the new entry `ep` are filled. -/
structure Filled (s s' : Mount) (ep : Nat) (cs' : List Nat) : Prop where
  sb : s'.sb = s.sb
  lru : s'.lru = s.lru
  root : s'.root = s.root
  others : ∀ j, j ≠ ep → SameFile (s.ents j) (s'.ents j)
  self : s'.ents ep = { s.ents ep with
    attr := (s'.ents ep).attr, firstClus := (s'.ents ep).firstClus, curClus := (s'.ents ep).curClus
    clusCnt := (s'.ents ep).clusCnt }
  short : (s'.ents ep).attr ≠ ATTR_LONG_NAME
  touches : s.sb.Touches s.disk s'.disk [] cs'

theorem Filled.valids (f : Filled s s' ep cs') : s'.valids = s.valids := by
  funext j
  unfold Mount.valids
  by_cases hj : j = ep
  · rw [hj, f.self]
  · rw [f.others j hj]

theorem Filled.other (g : s.sb.Geometry) (f : Filled s s' ep cs')
    (h' : s'.Sound away kind (update own ep cs')) (hp : p ≠ ep) :
    DirData.Within (s.dir own p) (s'.dir (update own ep cs') p) fun _ => True :=
  h'.within_other g f.sb f.touches hp

section

variable (u : s.sb.Usable) (h : s.Sound away kind own) (hk : kind ep = .unused) (hmem : ep ∈ s.lru) (hdir : s.IsDir kind this)
include u h hk hmem hdir

theorem Sound.initDir (hattr : (s.ents ep).attr = ATTR_DIRECTORY) (hcnt : (s.ents ep).clusCnt = 0)
    (hparent : (s.ents ep).parent = some this) (hok : s.initDir this ep = .ok s')
    (hs : s.sb.Sane s'.disk) : ∃ cs', s'.Sound away (update kind ep .live) (update own ep cs') ∧
      s'.IsDir (update kind ep .live) this ∧ Filled s s' ep cs' := by
  obtain ⟨⟨c, d⟩, halloc, hok⟩ := bind_eq_ok hok
  obtain ⟨s2, hdot, hdots⟩ := bind_eq_ok hok
  have hs2 : s.sb.Sane s2.disk := hs.of_suffix (entCreateOnDisk_post.of_ok hdots).allocs
  have hs1 : s.sb.Sane d := hs2.of_suffix (entCreateOnDisk_post.of_ok hdot).allocs
  have a : Allocated s.sb s.disk d c := by
    refine allocClus_ok u.geometry u.dev u.entries halloc (hs1 c ?_)
    rw [allocClus_post.of_ok halloc]
    exact List.mem_cons_self
  generalize he : ({ s.ents ep with
    attr := (s.ents ep).attr ||| ATTR_DIRECTORY, curClus := c, firstClus := c } : DirEnt) = e1
    at hdot
  have hattr1 : e1.attr = ATTR_DIRECTORY := by
    rw [← he]
    rw [hattr]
    rfl
  have hfit : Fits .live e1 [c] := by
    refine ⟨nofun, fun _ => .of_at ⟨?_, ?_⟩, fun _ => ?_, fun _ _ => List.cons_ne_nil _ _, nofun⟩
    · rw [← he]
      rfl
    · rw [← he]
      rw [hcnt]
      rfl
    · rw [has, hattr1]
      decide
  have hparent1 : e1.parent = some this := by rw [← he, ← hparent]
  have halloc := a.touches u.geometry
  obtain ⟨h1, hdir1⟩ := h.fill hk hmem hdir halloc.grows hfit hparent1
  have hself : (s.setEnt ep d e1).ents ep = e1 := by rw [setEnt_at]
  have hnew : (s.setEnt ep d e1).IsDir (update kind ep .live) ep := by
    refine ⟨update_self .., ?_⟩
    rw [hself, has, hattr1]
    decide
  obtain ⟨cs2, h2, x2, -⟩ :=
    Sound.entCreateOnDisk (s := s.setEnt ep d e1) u h1 hnew hdot hs2
  have hsb : s2.sb = s.sb := x2.sb
  rw [← hsb] at hs u
  obtain ⟨cs3, h3, x3, -⟩ := h2.entCreateOnDisk u (x2.worked.isDir hnew) hdots hs
  have x := x2.trans x3
  rw [update_idem, update_idem] at h3
  refine ⟨cs3, h3, x.worked.isDir hdir1, x.sb, x.lru, x.root, fun j hj => ?_, ?_, ?_, ?_⟩
  · have hsame := x.ents j
    rw [setEnt_ents, if_neg hj] at hsame
    exact hsame
  · have hsame := x.ents ep
    rw [hself] at hsame
    rw [hsame, ← he]
  · have hsame := x.ents ep
    rw [hself] at hsame
    rw [hsame]
    rw [hattr1]
    decide
  · have ht := x.touches
    rw [update_self] at ht
    exact halloc.trans ht

/-- **A new entry** counts as live from the moment its fields are filled. -/
theorem Sound.initEnt (hattr : attr = ATTR_DIRECTORY.toNat ∨ FileAttr attr)
    (hnew : s.ents ep = newEnt e this name attr off) (hok : s.initEnt this ep attr = .ok s')
    (hs : s.sb.Sane s'.disk) : ∃ cs', s'.Sound away (update kind ep .live) (update own ep cs') ∧
      s'.IsDir (update kind ep .live) this ∧ Filled s s' ep cs' := by
  unfold Mount.initEnt at hok
  split at hok
  · rename_i heq
    exact h.initDir u hk hmem hdir (by rw [hnew, heq]; rfl) (by rw [hnew]; rfl) (by rw [hnew]; rfl)
      hok hs
  rename_i hne
  obtain ⟨hnodir, hnolink⟩ := hattr.resolve_left hne
  cases hok
  have hfit : Fits .live { s.ents ep with attr := (s.ents ep).attr ||| ATTR_ARCHIVE } [] := by
    rw [hnew]
    refine ⟨nofun, fun _ => ⟨fun _ => rfl, fun hne => absurd rfl hne⟩, fun _ => ?_, ?_, nofun⟩
    · unfold has newEnt
      rw [or_has hnolink (by decide)]
      rfl
    · intro _ hd
      unfold has newEnt at hd
      rw [or_has hnodir (by decide)] at hd
      cases hd
  obtain ⟨h', hdir'⟩ := h.fill hk hmem hdir (.refl .nil) hfit (by rw [hnew]; rfl)
  refine ⟨[], h', hdir', rfl, rfl, rfl, fun j hj => ?_, ?_, ?_, .refl .nil⟩
  · rw [modify_eq, setEnt_ents, if_neg hj]
    exact .refl _
  · rw [modify_eq, setEnt_at]
  · rw [modify_eq, setEnt_at]
    exact archive_ne _

end

theorem NotFound.eCacheHit (n : NotFound s s' this name off ep) :
    s'.eCacheHit this name off = .ok (ep, s'.slotTaken ep) := by
  unfold Mount.eCacheHit Mount.eCacheAlloc
  rw [n.misses, n.evictee]
  rfl

def taken (s : Mount) (this ep : Nat) (name : List UInt8) (attr off : Nat) : Mount :=
  ((s.slotTaken ep).entDup this).modify ep fun e => newEnt e this name attr off

theorem Sound.taken (h : s.Sound away s.valids own) (hun : s.valids ep = .unused)
    (hdir : s.IsDir s.valids this) (name : List UInt8) (attr off : Nat) :
    (s.taken this ep name attr off).Sound away s.valids own ∧
      (s.taken this ep name attr off).valids = s.valids ∧
      (s.taken this ep name attr off).IsDir s.valids this := by
  have hne : this ≠ ep := hdir.ne_of_unused hun
  refine ⟨((h.setUnused hun _).entDup this).setUnused hun _, ?_, hdir.1, ?_⟩
  · refine (modify_valids (f := fun e => newEnt e this name attr off) fun _ => rfl).trans ?_
    rw [entDup_valids, Mount.slotTaken, modify_eq, valids_setEnt, ← hun]
    exact update_eq_self ..
  · have hents : (s.taken this ep name attr off).ents this =
        { s.ents this with ref := (s.ents this).ref + 1 } := by
      simp [Mount.taken, Mount.entDup, modify_eq, slotTaken_ents, hne]
    rw [hents]
    exact hdir.2

/-- The part of `entCreate` behind the search: a slot is filled, and its record is written. -/
theorem Sound.createEnt (u : s.sb.Usable) (h : s.Sound away kind own) (hk : kind ep = .unused)
    (hv : s.valids = kind) (hmem : ep ∈ s.lru) (hdir : s.IsDir kind this)
    (hattr : attr = ATTR_DIRECTORY.toNat ∨ FileAttr attr)
    (hnew : s.ents ep = newEnt e this name attr off) {s2 : Mount}
    (hinit : s.initEnt this ep attr = .ok s1)
    (hdisk : s1.entCreateOnDisk this (s1.ents ep) off = .ok s2) (hs : s.sb.Sane s2.disk) :
    ∃ cs1 cs2, Filled s s1 ep cs1 ∧ Extends (update own ep cs1) s1 s2 this cs2 ∧
      s1.Sound away (update kind ep .live) (update own ep cs1) ∧
      s2.Sound away (update kind ep .live) (update (update own ep cs1) this cs2) ∧
      (s2.modify ep fun e => { e with valid := .live }).Sound away
        (s2.modify ep fun e => { e with valid := .live }).valids
        (update (update own ep cs1) this cs2) ∧
      (32 < off → 1 ≤ (cstr (s1.ents ep).filename).length →
        off + (records (s1.ents ep)).length < 2 ^ 32 →
        Wrote s.sb s1.disk s2.disk (own this) cs2 off (records (s1.ents ep)) ∧
        off + (records (s1.ents ep)).length ≤ s.sb.bytsPerClus * cs2.length) := by
  obtain ⟨cs1, h1, hdir1, f⟩ := h.initEnt u hk hmem hdir hattr hnew hinit
    (hs.of_suffix (entCreateOnDisk_post.of_ok hdisk).allocs)
  rw [← f.sb] at hs u
  obtain ⟨cs2, h2, x2, hwrote⟩ := h1.entCreateOnDisk u hdir1 hdisk hs
  rw [update_of_ne (hdir.ne_of_unused hk), f.sb] at hwrote
  have hvalids : (s2.modify ep fun e => { e with valid := .live }).valids =
      update kind ep .live := by
    rw [modify_eq, valids_setEnt, x2.worked.valids, f.valids, hv]
  refine ⟨cs1, cs2, f, x2, h1, h2, ?_, hwrote⟩
  rw [hvalids]
  refine h2.keep ((h2.fits ep).congr rfl rfl rfl rfl rfl) rfl rfl ?_
  rintro rfl
  exact h2.rootRef

def missed (s : Mount) (this : Nat) (name : List UInt8) : Option Nat :=
  if (s.ents this).valid ≠ .live ∨ flName name = [] then none
  else
    match s.lru.find? (s.fits this (flName name) 0) with
    | some _ => none
    | none => s.evictee

def searched (s : Mount) (this : Nat) (name : List UInt8) : Option DirEnt :=
  match s.entSearch this (flName name) (some 0) with
  | .ok (some j, _, s') => some (s'.ents j)
  | _ => none

def awayAfter (s : Mount) (away : Nat → List Nat) (this : Nat) (name : List UInt8) :
    Nat → List Nat :=
  match s.missed this name with
  | none => away
  | some ep =>
    match s.searched this name with
    | some e => update (s.evicted away ep) e.firstClus []
    | none => s.evicted away ep

section

variable (u : s.sb.Usable)
include u

/-- **`entCreate`** of a file or a directory, when the slot that it takes holds no directory of an
entry in the cache, and what it loads is a file that is not in the cache. -/
theorem Sound.entCreate (h : s.Sound away s.valids own)
    (href : 1 ≤ (s.ents this).ref) (hattr : attr = ATTR_DIRECTORY.toNat ∨ FileAttr attr)
    (hkids : ∀ ep ∈ s.missed this name, s.IsDir s.valids ep → s.Childless ep)
    (hdisk : ∀ ep ∈ s.missed this name, ∀ e ∈ s.searched this name, FromDisk (s.evicted away ep) e)
    {r : Option Nat} (hok : s.entCreate this name attr = .ok (r, s')) (hs : s.sb.Sane s'.disk) :
    s'.sb = s.sb ∧ ∃ own', s'.Sound (s.awayAfter away this name) s'.valids own' := by
  unfold Mount.entCreate at hok
  split at hok
  · cases hok
  rename_i hisDir
  split at hok
  · rename_i hcond
    cases hok
    unfold awayAfter missed
    rw [if_pos hcond]
    exact ⟨rfl, own, h⟩
  rename_i hcond
  have hdir : s.IsDir s.valids this := by
    refine ⟨?_, by simpa using hisDir⟩
    by_contra hne
    exact hcond (.inl hne)
  have hmissed : s.missed this name = match s.lru.find? (s.fits this (flName name) 0) with
      | some _ => none
      | none => s.evictee := if_neg hcond
  obtain ⟨⟨found, off, s1⟩, hsearch, hok⟩ := bind_eq_ok hok
  have hsearched : s.searched this name = found.map s1.ents := by
    unfold searched
    rw [hsearch]
    cases found <;> rfl
  unfold awayAfter
  rcases h.entSearch hdir href hsearch with ⟨j, hj, rfl, hsb, h1⟩ | ⟨hmiss, ep, hev, htaken⟩
  · rw [hmissed, hj]
    cases hok
    exact ⟨hsb, own, h1⟩
  rw [hmiss] at hmissed
  have hep : ep ∈ s.missed this name := hmissed.trans hev
  rw [hmissed, hsearched]
  rw [hev]
  rcases htaken (hkids ep hep) with ⟨rfl, n, hdir1, h1⟩ | ⟨rfl, hsb, hload⟩
  · dsimp only at hok
    rw [n.eCacheHit, ok_bind] at hok
    obtain ⟨s3, hinit, hok⟩ := bind_eq_ok hok
    obtain ⟨s4, hdisk, hok⟩ := bind_eq_ok hok
    cases hok
    have hmem := (evictee_spec h1.rootRef n.evictee).1
    obtain ⟨h2, hv2, hdir2⟩ := h1.taken n.unused hdir1 (flName name) attr off
    rw [← n.sb] at hs u ⊢
    obtain ⟨cs1, cs2, f, x, -, -, h', -⟩ := Sound.createEnt (s := s1.taken this ep (flName name) attr off)
      u h2 n.unused hv2 hmem hdir2 hattr (by simp [Mount.taken, modify_eq]; rfl) hinit hdisk hs
    exact ⟨x.sb.trans f.sb, _, h'⟩
  · cases hok
    obtain ⟨cs', h'⟩ := hload (hdisk ep hep _ hsearched)
    exact ⟨hsb, _, h'⟩

/-! ## Removing and writing -/

theorem Sound.markEmpty {n off2 : Nat} (h : s.Sound away kind own)
    (hdir : s.IsDir kind p) (hoff : off2 < 2 ^ 32) (hok : markEmpty p n s off off2 = .ok s') :
    s'.Sound away kind own ∧ Worked s s' := by
  induction n generalizing s off off2 with
  | zero =>
    cases hok
    exact ⟨h, .refl _⟩
  | succ n ih =>
    obtain ⟨s1, hwrite, hok⟩ := bind_eq_ok hok
    obtain ⟨⟨r, s2⟩, hreloc, hok⟩ := bind_eq_ok hok
    obtain ⟨h1, w1⟩ := h.writeCur u hdir hoff (by decide) hwrite
    obtain ⟨h2, m2⟩ := h1.relocClus (w1.isDir hdir) hreloc
    have w2 := w1.trans m2.worked
    rw [← w2.sb] at u
    obtain ⟨h', w'⟩ := ih u h2 (w2.isDir hdir) (u32_lt r) hok
    exact ⟨h', w2.trans w'⟩

/-- **`entRemove`** of an entry that someone holds and that is no directory of a live entry. The
entry keeps its clusters until it is let go. -/
theorem Sound.entRemove (h : s.Sound away s.valids own) (href : 1 ≤ (s.ents i).ref)
    (hkids : s.IsDir s.valids i → ∀ j, s.valids j = .live → (s.ents j).parent ≠ some i)
    (hok : s.entRemove i = .ok s') : s'.sb = s.sb ∧ s'.Sound away s'.valids own := by
  unfold Mount.entRemove at hok
  split at hok
  · cases hok
    exact ⟨rfl, h⟩
  rename_i hlive
  rw [not_not] at hlive
  split at hok
  · cases hok
  rename_i p hp
  have hdir := h.parent i p hlive hp
  have hroot : i ≠ s.root := by
    rintro rfl
    rw [h.rootParent] at hp
    cases hp
  obtain ⟨⟨r, s1⟩, hreloc, hok⟩ := bind_eq_ok hok
  obtain ⟨order, -, hok⟩ := bind_eq_ok hok
  obtain ⟨s2, hmark, hok⟩ := bind_eq_ok hok
  cases hok
  obtain ⟨h1, m1⟩ := h.relocClus hdir hreloc
  have u1 : s1.sb.Usable := m1.worked.sb.symm ▸ u
  obtain ⟨h2, w2⟩ := h1.markEmpty u1 (m1.worked.isDir hdir) (u32_lt r) hmark
  have w := m1.worked.trans w2
  have hf := h2.fits i
  have hvi : s.valids i = .live := hlive
  rw [hvi] at hf
  have href2 : (s2.ents i).ref = (s.ents i).ref := by rw [w.ents i]
  have hgone : (s2.ents i).ref ≤ 0 → own i = [] := by omega
  refine ⟨w.sb, ?_⟩
  rw [modify_eq, valids_setEnt, w.valids]
  have h3 : s2.Sound away (update s.valids i .removed) own := by
    refine h2.setKind ⟨nofun, fun _ => hf.cursor nofun, fun _ => hf.noLink nofun, nofun,
      fun _ => hgone⟩ nofun ?_ (fun _ => h2.slots i (by rw [hvi]; nofun)) (w.root ▸ hroot)
    intro hdir2 j hj
    have hattr : (s2.ents i).has ATTR_DIRECTORY = (s.ents i).has ATTR_DIRECTORY := by
      rw [w.ents i]
      rfl
    have hpar : (s2.ents j).parent = (s.ents j).parent := by rw [w.ents j]
    rw [hpar]
    exact hkids ⟨hvi, hattr ▸ hdir2.2⟩ j hj
  refine h3.keep ((h3.fits i).congr rfl rfl rfl rfl rfl) rfl rfl ?_
  rintro rfl
  exact h2.rootRef

/-- **`entWrite`** to an entry that someone holds. -/
theorem Sound.entWrite (h : s.Sound away s.valids own)
    (hk : s.valids i ≠ .unused) (href : 1 ≤ (s.ents i).ref) {bs : List UInt8}
    (hok : s.entWrite i bs off = .ok (r, s')) (hs : s.sb.Sane s'.disk) :
    s'.sb = s.sb ∧ ∃ own', s'.Sound away s'.valids own' := by
  obtain ⟨⟨r1, d1, e1⟩, hwrite, hok⟩ := bind_eq_ok hok
  cases hok
  have hf := h.fits i
  rcases entWrite_ok u.geometry u.dev u.entries (h.chained hk) (hf.noLink hk) hwrite hs with
    ⟨rfl, rfl⟩ | ⟨cs', w⟩
  · rw [setEnt_self]
    exact ⟨rfl, own, h⟩
  have hname := w.name
  have href1 : e1.ref = (s.ents i).ref := by rw [hname]
  refine ⟨rfl, update own i cs', ?_⟩
  rw [(worked_setEnt hname).valids]
  obtain ⟨hfam, hcov⟩ := h.grown w.touches.grows
  refine h.setEnt i _ _ cs' hfam hcov ?_ (by rw [hname]) (by rw [hname])
    (by rw [href1]; exact fun _ => href)
  refine ⟨fun hu => absurd hu hk, fun _ => .of_at w.cursor, fun _ => ?_,
    fun _ _ => w.cursor.ne_nil, fun _ hle => ?_⟩
  · rw [hname]
    exact hf.noLink hk
  · omega

end

/-! ## Runs -/

/-- The operations on the entries of a volume. -/
inductive Op where
  | create (dir : Nat) (name : List UInt8) (attr : Nat)
  | write (i : Nat) (bs : List UInt8) (off : Nat)
  | trunc (i : Nat)
  | remove (i : Nat)
  | relse (i : Nat)

def step (s : Mount) : Op → Kern Mount
  | .create dir name attr => do pure (← s.entCreate dir name attr).2
  | .write i bs off => do pure (← s.entWrite i bs off).2
  | .trunc i => s.entTrunc i
  | .remove i => s.entRemove i
  | .relse i => s.entRelse i

def Held (s : Mount) (i : Nat) : Prop := (s.ents i).valid ≠ .unused ∧ 1 ≤ (s.ents i).ref
  deriving Decidable

def AllocsInRange (s : Mount) (op : Op) : Prop := ∀ s' ∈ (s.step op).toOption, s.sb.Sane s'.disk
  deriving Decidable

/-- What callers may do: they hold the entries that they use, create files and directories, and
remove files and directories that are empty. -/
def Op.Legal (s : Mount) : Op → Prop
  | .create dir _ attr => s.Held dir ∧ (attr = ATTR_DIRECTORY.toNat ∨ FileAttr attr)
  | .write i _ _ => s.Held i
  | .trunc i => s.Held i
  | .remove i => s.Held i ∧ ((s.ents i).has ATTR_DIRECTORY = true → s.Childless i)
  | .relse i => s.Held i

instance (s : Mount) (op : Op) : Decidable (op.Legal s) := by
  unfold Op.Legal
  split <;> infer_instance

/-- The condition: no directory in use is truncated, and neither what leaves the cache nor what is
loaded into it has clusters. -/
def Careful (s : Mount) : Op → Prop
  | .create dir name _ => ∀ ep ∈ s.missed dir name,
      ((s.ents ep).valid = .live → (s.ents ep).firstClus = 0) ∧
      ∀ e ∈ s.searched dir name, FromDisk (fun _ => []) e
  | .trunc i => ¬((s.ents i).valid = .live ∧ (s.ents i).has ATTR_DIRECTORY = true)
  | _ => True

instance (s : Mount) (op : Op) : Decidable (s.Careful op) := by
  unfold Careful
  split <;> infer_instance

/-- A volume with the chains `away` of the files that are not in the cache. -/
def WellFormed (s : Mount) (away : Nat → List Nat) : Prop :=
  s.sb.Usable ∧ ∃ own, s.Sound away s.valids own

/-- A well-formed volume whose clusters are those of entries in the cache. -/
def AllCached (s : Mount) : Prop := s.WellFormed fun _ => []

section Empty

variable (h : s.Sound (fun _ => []) s.valids own) (hlive : (s.ents ep).valid = .live →
  (s.ents ep).firstClus = 0)
include h hlive

theorem Sound.own_evicted (hv : s.valids ep = .live) : own ep = [] := by
  have hhead := h.head_own (i := ep) (by rw [hv]; nofun)
  rwa [if_pos (hlive hv), List.head?_eq_none_iff] at hhead

theorem Sound.evicted_empty : s.evicted (fun _ => []) ep = fun _ => [] := by
  unfold evicted
  split
  · rename_i hv
    rw [chainOf_eq (h.chained (by rw [show s.valids ep = .live from hv]; nofun)),
      h.own_evicted hlive hv]
    exact update_eq_self (f := fun _ : Nat => ([] : List Nat)) _
  · rfl

end Empty

/-- One step. -/
theorem AllCached.step (h : s.AllCached) {op : Op} (hlegal : op.Legal s)
    (hrange : s.AllocsInRange op) (hcareful : s.Careful op) (hok : s.step op = .ok s') :
    s'.AllCached := by
  obtain ⟨u, own, h⟩ := h
  have hs : s.sb.Sane s'.disk := hrange s' (by rw [hok]; rfl)
  have hnew : s'.sb = s.sb ∧ ∃ own', s'.Sound (fun _ => []) s'.valids own' := by
    cases op with
    | create dir name attr =>
      obtain ⟨⟨r, s1⟩, hcreate, hret⟩ := bind_eq_ok hok
      cases hret
      have haway : s.awayAfter (fun _ => []) dir name = fun _ => [] := by
        unfold awayAfter
        cases hep : s.missed dir name with
        | none => rfl
        | some ep =>
          dsimp only
          rw [h.evicted_empty (hcareful ep hep).1]
          cases s.searched dir name with
          | none => rfl
          | some e => exact update_eq_self (f := fun _ : Nat => ([] : List Nat)) _
      rw [← haway]
      refine h.entCreate u hlegal.1.2 hlegal.2 (fun ep hep hdir => ?_) (fun ep hep => ?_) hcreate hs
      · exact absurd (h.own_evicted (hcareful ep hep).1 hdir.1) ((h.fits ep).dir hdir.1 hdir.2)
      · rw [h.evicted_empty (hcareful ep hep).1]
        exact (hcareful ep hep).2
    | write i bs off =>
      obtain ⟨⟨r, s1⟩, hwrite, hret⟩ := bind_eq_ok hok
      cases hret
      exact h.entWrite u hlegal.1 hlegal.2 hwrite hs
    | trunc i =>
      obtain ⟨h', w⟩ := h.entTrunc u.geometry hlegal.1 hcareful hok
      rw [← w.valids] at h'
      exact ⟨w.sb, _, h'⟩
    | remove i =>
      have hkids : s.IsDir s.valids i → ∀ j, s.valids j = .live → (s.ents j).parent ≠ some i :=
        fun hdir j hj => hlegal.2 hdir.2 j (h.slots j (by rw [hj]; nofun)) hj
      obtain ⟨hsb, h'⟩ := h.entRemove u hlegal.1.2 hkids hok
      exact ⟨hsb, own, h'⟩
    | relse i => exact h.entRelseLoop u hok
  obtain ⟨hsb, h'⟩ := hnew
  exact ⟨hsb ▸ u, h'⟩

def formatted (sb : SuperBlock) : Disk := (sb.fatWrite (blank sb) 2 (FAT32_EOC + 7)).2

def rootEnt : DirEnt := { emptyEnt with attr := 0x14, firstClus := 2, curClus := 2 }

def mounted (sb : SuperBlock) : Mount where
  sb := sb
  disk := formatted sb
  ents i := if i = 0 then rootEnt else { emptyEnt with valid := .unused, ref := 0 }
  lru := [1, 2, 3, 4, 0]
  root := 0

theorem grows_formatted {sb : SuperBlock} (g : sb.Geometry) (h2 : sb.InRange 2) :
    Grows sb.marks (sb.fat (blank sb)) (sb.fat (formatted sb)) [] [2] := by
  have hfat : ∀ x, sb.fat (formatted sb) x = if x = 2 then FAT32_EOC + 7 else sb.fat (blank sb) x :=
    g.fat_fatWrite h2.2 (by decide)
  refine .single (g.node_iff.2 h2) ?_ ?_ ?_
  · rw [fat_blank g h2.2]
    rfl
  · rw [hfat, if_pos rfl]
    exact SuperBlock.final_mark
  · intro x hx
    rw [hfat, if_neg hx]

theorem allCached_mounted {sb : SuperBlock} (u : sb.Usable) (h2 : sb.InRange 2) :
    (mounted sb).AllCached := by
  have hfam : Family sb.marks (sb.fat (blank sb))
      (Sum.elim (fun _ : Nat => []) fun _ : Nat => []) :=
    ⟨fun i => by cases i <;> exact .nil, fun i j _ c hc => by cases i <;> cases hc⟩
  have hcov : Covers sb.marks (sb.fat (blank sb))
      (Sum.elim (fun _ : Nat => []) fun _ : Nat => []) := by
    intro c hc hne
    rw [fat_blank u.geometry hc.1.2, if_neg (Nat.not_lt.2 hc.1.1)] at hne
    exact absurd rfl hne
  have hgrow := grows_formatted u.geometry h2
  have hroot : (mounted sb).ents 0 = rootEnt := rfl
  have hlink : rootEnt.has ATTR_LINK = false := by decide
  have hother : ∀ i, i ≠ 0 →
      (mounted sb).ents i = { emptyEnt with valid := .unused, ref := 0 } :=
    fun i hi => if_neg hi
  refine ⟨u, update (fun _ => []) 0 [2], ?_, ?_, fun c hc => absurd rfl hc, ?_, ?_, ?_,
    rfl, rfl, Int.le_refl 1⟩
  · rw [← Sum.update_elim_inl]
    exact hfam.grow (i := Sum.inl 0) hgrow
  · rw [← Sum.update_elim_inl]
    exact hcov.grow (i := Sum.inl 0) hgrow
  · intro i
    by_cases hi : i = 0
    · subst hi
      exact ⟨nofun, fun _ => .of_at ⟨rfl, rfl⟩, fun _ => hlink, fun _ _ => List.cons_ne_nil _ _,
        nofun⟩
    · rw [update_of_ne hi, Mount.valids, hother i hi]
      exact fits_unused _
  · intro i p hi hp
    by_cases h0 : i = 0
    · rw [h0, hroot] at hp
      cases hp
    · rw [Mount.valids, hother i h0] at hi
      cases hi
  · intro i hi
    by_cases h0 : i = 0
    · rw [h0]
      exact (by decide : 0 ∈ [1, 2, 3, 4, 0])
    · rw [Mount.valids, hother i h0] at hi
      exact absurd rfl hi

def sixClusters : SuperBlock :=
  { smallBlock with
    totSec := 9
    fatSz := 2
    totSec_lt := by decide
    fatSz_lt := by decide }

theorem allCached_sixClusters : (mounted sixClusters).AllCached :=
  allCached_mounted
    ⟨⟨rfl, by decide, by decide, by decide, by decide +kernel, by decide +kernel⟩, rfl, by decide,
      by decide⟩ (by decide +kernel)

end Mount

end LuoOS.Fs
