import LuoOS.Fs.CacheOrder
import LuoOS.Fs.DirScan

/-!
# Cached entries and their records

`Filed` says that every live entry but the root has its records in the directory that is its parent,
at its `off`, under its name, and shares them with no other. The operations keep this: an entry that
is loaded stands where the search has found it, the records of a new one are written behind all
others, and those that are deleted are the records of no other entry.
-/

namespace LuoOS.Fs

open ChainTable DirEnt DirData Outcome RefForest Function

/-- The entry stands where it did, under the same name. -/
structure DirEnt.SamePlace (e e' : DirEnt) : Prop where
  parent : e'.parent = e.parent
  off : e'.off = e.off
  name : e'.filename = e.filename
  dirty : e'.dirty = e.dirty

namespace DirEnt

variable {e e1 e' : DirEnt}

theorem SamePlace.refl (e : DirEnt) : SamePlace e e := ⟨rfl, rfl, rfl, rfl⟩

theorem SamePlace.trans (h : SamePlace e e1) (h' : SamePlace e1 e') : SamePlace e e' :=
  ⟨h'.parent.trans h.parent, h'.off.trans h.off, h'.name.trans h.name, h'.dirty.trans h.dirty⟩

theorem SameFile.samePlace (h : SameFile e e') : SamePlace e e' := by
  rw [h]
  exact ⟨rfl, rfl, rfl, rfl⟩

end DirEnt

namespace Mount

variable {s s1 s2 s' : Mount} {away own own' : Nat → List Nat} {kind kind' : Nat → Validity}
  {held : Nat → Nat} {i this ep off off' : Nat} {name : List UInt8} {found : Option Nat}

/-! ## What a search does -/

/-- **The directory is read** into a slot that was taken for it. -/
theorem Sound.sought_disk (u : s.sb.Usable) (h : s.Sound away s.valids own)
    (hdir : s.IsDir s.valids this) (hev : s.evictee = some ep) (hkids : s.Childless ep)
    (hne : this ≠ ep) (hsize : (s.dir own this).size ≤ 2 ^ 31) (ha : off % 32 = 0)
    (hlisted : (s.dir own this).listed (2 ^ 28) off = true) (hplain : Plain name) {r : Int}
    (hreloc : (s.slotTaken ep).relocClus this 0 false = .ok (r, s1))
    (hloop : Mount.entSearchLoop this ep name (2 ^ 28) s1 off 0 = .ok (found, off', s')) :
    ∃ s2, s2.Sound (s.evicted away ep) (update s.valids ep .unused) (update own ep []) ∧
      Looked (s.dir own this) (s.slotTaken ep) s2 s' this ep name off found off' := by
  have hun : update s.valids ep .unused ep = .unused := update_self ..
  have hdir' := slotTaken_isDir hdir hne
  obtain ⟨h1, m1⟩ := (h.slotTaken hev fun _ => hkids).relocClus hdir' hreloc
  have c1 := m1.scanned ep
  have hslot : (s1.ents ep).valid = .unused := by
    rw [c1.valid, slotTaken_ents, if_pos rfl]
  have hlive : (s1.ents this).valid = .live := by
    rw [c1.ents this hne, slotTaken_ents, if_neg hne]
    exact hdir.1
  have hD : s1.sb.data s1.disk (update own ep [] this) = s.dir own this := by
    rw [update_of_ne hne, m1.data]
    rfl
  have hdirty : (s1.ents ep).dirty = ((s.slotTaken ep).ents ep).dirty := by
    obtain ⟨e', rfl, -⟩ := m1
    rw [setEnt_ents, if_neg hne.symm]
  have u1 : s1.sb.Usable := c1.sb.symm ▸ u
  obtain ⟨s2, h2, l⟩ := h1.entSearchLoop_listed u1 (c1.isDir hdir' hne) hlive hun hslot hD hsize ha
    hlisted le_rfl hplain hloop
  exact ⟨s2, h2, c1.trans l.scanned, l.dirty.trans hdirty, l.result⟩

/-! ## Entries and records -/

theorem entDup_place (s : Mount) (i j : Nat) : SamePlace (s.ents j) ((s.entDup i).ents j) := by
  rw [entDup_ent]
  exact ⟨rfl, rfl, rfl, rfl⟩

theorem unref_place (s : Mount) (i j : Nat) : SamePlace (s.ents j) ((s.unref i).ents j) := by
  rw [unref_ent]
  exact ⟨rfl, rfl, rfl, rfl⟩

/-- **Every live entry has its records** in the directory that is its parent, no two have the same,
and none has anything to be written there. -/
structure Filed (s : Mount) (kind : Nat → Validity) (own : Nat → List Nat) : Prop where
  entry : ∀ j p, kind j = .live → (s.ents j).parent = some p →
    ∃ n, (s.dir own p).Entry (s.ents j).off n ∧
      cstr (s.ents j).filename = (s.dir own p).name (s.ents j).off n
  apart : ∀ i j p, kind i = .live → kind j = .live → (s.ents i).parent = some p →
    (s.ents j).parent = some p → (s.ents i).off = (s.ents j).off → i = j
  clean : ∀ j, kind j = .live → (s.ents j).dirty = false

/-- The entries that are left keep their records. -/
theorem Filed.keep (f : s.Filed kind own)
    (hents : ∀ j, kind' j = .live → kind j = .live ∧ SamePlace (s.ents j) (s'.ents j))
    (hdirs : ∀ j p n, kind' j = .live → (s.ents j).parent = some p →
      (s.dir own p).Entry (s.ents j).off n → (s'.dir own' p).Entry (s.ents j).off n ∧
        (s'.dir own' p).name (s.ents j).off n = (s.dir own p).name (s.ents j).off n) :
    s'.Filed kind' own' := by
  refine ⟨fun j p hj hp => ?_, fun i j p hi hj hpi hpj hoff => ?_, fun j hj => ?_⟩
  · obtain ⟨hlive, hsame⟩ := hents j hj
    rw [hsame.parent] at hp
    obtain ⟨n, he, hname⟩ := f.entry j p hlive hp
    obtain ⟨he', hname'⟩ := hdirs j p n hj hp he
    rw [hsame.off, hsame.name]
    exact ⟨n, he', hname.trans hname'.symm⟩
  · obtain ⟨hli, hsi⟩ := hents i hi
    obtain ⟨hlj, hsj⟩ := hents j hj
    rw [hsi.parent] at hpi
    rw [hsj.parent] at hpj
    rw [hsi.off, hsj.off] at hoff
    exact f.apart i j p hli hlj hpi hpj hoff
  · obtain ⟨hlive, hsame⟩ := hents j hj
    exact hsame.dirty.trans (f.clean j hlive)

theorem Filed.same (f : s.Filed kind own)
    (hents : ∀ j, kind' j = .live → kind j = .live ∧ SamePlace (s.ents j) (s'.ents j))
    (hdirs : ∀ j p, kind' j = .live → (s.ents j).parent = some p →
      s'.dir own' p = s.dir own p) : s'.Filed kind' own' := by
  refine f.keep hents fun j p n hj hp he => ?_
  rw [hdirs j p hj hp]
  exact ⟨he, rfl⟩

theorem Filed.insert (f : s.Filed kind own) (hparent : (s.ents ep).parent = some this)
    (hnew : ∃ n, (s.dir own this).Entry (s.ents ep).off n ∧
      cstr (s.ents ep).filename = (s.dir own this).name (s.ents ep).off n)
    (hclean : (s.ents ep).dirty = false)
    (hfresh : ∀ j, j ≠ ep → kind j = .live → (s.ents j).parent = some this →
      (s.ents j).off ≠ (s.ents ep).off) : s.Filed (update kind ep .live) own := by
  have hlive : ∀ j, j ≠ ep → update kind ep .live j = .live → kind j = .live := by
    intro j hj hk
    rw [update_of_ne hj] at hk
    exact hk
  refine ⟨fun j p hj hp => ?_, fun i j p hi hj hpi hpj hoff => ?_, fun j hj => ?_⟩
  · by_cases hje : j = ep
    · subst hje
      obtain rfl : this = p := Option.some.inj (hparent.symm.trans hp)
      exact hnew
    · exact f.entry j p (hlive j hje hj) hp
  · by_cases hie : i = ep
    · by_contra hne
      have hje : j ≠ ep := fun h => hne (hie.trans h.symm)
      rw [hie] at hpi hoff
      rw [hparent.symm.trans hpi] at hfresh
      exact hfresh j hje (hlive j hje hj) hpj hoff.symm
    · by_cases hje : j = ep
      · rw [hje] at hpj hoff
        obtain rfl : this = p := Option.some.inj (hparent.symm.trans hpj)
        exact absurd hoff (hfresh i hie (hlive i hie hi) hpi)
      · exact f.apart i j p (hlive i hie hi) (hlive j hje hj) hpi hpj hoff
  · by_cases hje : j = ep
    · rw [hje]
      exact hclean
    · exact f.clean j (hlive j hje hj)

/-! ## Finding -/

theorem hit_place (s : Mount) (this i j : Nat) : SamePlace (s.ents j) ((s.hit this i).ents j) := by
  unfold Mount.hit
  split
  · exact (entDup_place s i j).trans (entDup_place _ this j)
  · exact entDup_place s i j

theorem Filed.hit (f : s.Filed s.valids own) (m : Moved (s.hit this i) s' this) :
    s'.Filed s'.valids own := by
  rw [m.worked.valids, hit_valids]
  refine f.same (fun j hj => ⟨hj, (hit_place s this i j).trans (m.ents j).samePlace⟩) ?_
  intro j p _ _
  unfold dir
  rw [m.data, hit_disk, hit_sb]

theorem live_of_update (h : update kind ep .unused i = .live) : i ≠ ep ∧ kind i = .live := by
  by_cases hi : i = ep
  · rw [hi, update_self] at h
    cases h
  · rw [update_of_ne hi] at h
    exact ⟨hi, h⟩

theorem Filed.scanned (f : s.Filed s.valids own) (h : s.Sound away s.valids own)
    (hkids : s.Childless ep) (c : Scanned (s.slotTaken ep) s2 ep) :
    s2.Filed (update s.valids ep .unused) (update own ep []) := by
  refine f.same (fun j hj => ?_) fun j p hj hp => ?_
  · obtain ⟨hje, hv⟩ := live_of_update hj
    have hsame := c.ents j hje
    rw [slotTaken_ents, if_neg hje] at hsame
    exact ⟨hv, hsame.samePlace⟩
  · obtain ⟨-, hv⟩ := live_of_update hj
    have hpe : p ≠ ep := by
      rintro rfl
      exact hkids j (h.slots j (by rw [hv]; nofun)) hv hp
    unfold dir
    rw [update_of_ne hpe, c.sb, c.disk]
    rfl

/-- The new entry `ep` of `this` is in the cache. -/
structure Entered (s s' : Mount) (this ep : Nat) : Prop where
  lru : s'.lru = s.lru
  root : s'.root = s.root
  valids : s'.valids = update s.valids ep .live
  places : ∀ j, j ≠ ep → SamePlace (s.ents j) (s'.ents j)
  refs : ∀ j, j ≠ ep → (s'.ents j).ref = if j = this then (s.ents j).ref + 1 else (s.ents j).ref
  parent : (s'.ents ep).parent = some this
  ref : (s'.ents ep).ref = 1
  clean : (s'.ents ep).dirty = false

theorem Entered.queued (e : Entered s s' this ep) (q : s.Queued) (t : s.Tallied held)
    (hzero : (s.ents ep).ref = 0) : s'.Queued := by
  refine q.mono e.lru e.root (fun j hlive href => ?_) fun j hj href => ?_
  · have hje : j ≠ ep := by
      rintro rfl
      rw [e.ref] at href
      cases href
    have hv := congrFun e.valids j
    rw [update_of_ne hje] at hv
    exact ⟨hv.symm.trans hlive, (e.places j hje).parent⟩
  · by_cases hje : j = ep
    · rw [hje]
      exact hzero
    rw [e.refs j hje] at href
    split at href
    · have hnonneg := t.ref_nonneg hj
      omega
    · exact href

/-- The entry in the slot has its records, and no other entry has them. -/
theorem Entered.filed (e : Entered s s' this ep) (f : s.Filed s.valids own)
    (hdirs : ∀ j p n, j ≠ ep → s.valids j = .live → (s.ents j).parent = some p →
      (s.dir own p).Entry (s.ents j).off n → (s'.dir own' p).Entry (s.ents j).off n ∧
        (s'.dir own' p).name (s.ents j).off n = (s.dir own p).name (s.ents j).off n)
    (hnew : ∃ n, (s'.dir own' this).Entry (s'.ents ep).off n ∧
      cstr (s'.ents ep).filename = (s'.dir own' this).name (s'.ents ep).off n)
    (hfresh : ∀ j, j ≠ ep → s.valids j = .live → (s.ents j).parent = some this →
      (s.ents j).off ≠ (s'.ents ep).off) : s'.Filed s'.valids own' := by
  have hothers : s'.Filed (update s.valids ep .unused) own' := by
    refine f.keep (fun j hj => ?_) fun j p n hj hp he => ?_
    · obtain ⟨hje, hv⟩ := live_of_update hj
      exact ⟨hv, e.places j hje⟩
    · obtain ⟨hje, hv⟩ := live_of_update hj
      exact hdirs j p n hje hv hp he
  have hself := hothers.insert e.parent hnew e.clean fun j hje hj hp => ?_
  · rw [e.valids]
    rw [update_idem] at hself
    exact hself
  · have hsame := e.places j hje
    rw [hsame.parent] at hp
    rw [hsame.off]
    exact hfresh j hje (live_of_update hj).2 hp

/-! ## The invariant -/

/-- All invariants of a volume and its cache. -/
structure Consistent (away : Nat → List Nat) (s : Mount) (held : Nat → Nat) (own : Nat → List Nat) :
    Prop where
  usable : s.sb.Usable
  sound : s.Sound away s.valids own
  filed : s.Filed s.valids own
  tallied : s.Tallied held
  queued : s.Queued

section Search

variable {held' : Nat → Nat} (c : s.Consistent away held own)

include c

/-- A holder of the entry has it in use. -/
theorem Consistent.used (hthis : 0 < held this) : s.valids this ≠ .unused := by
  by_cases hroot : this = s.root
  · rw [hroot, c.sound.rootLive]
    nofun
  · exact c.tallied.used this hroot (c.tallied.ref_pos hthis)

theorem Consistent.cached (m : Moved (s.hit this i) s' this) (hsound : s'.Sound away s'.valids own)
    (ht : s'.Tallied held') : s'.Consistent away held' own := by
  refine ⟨?_, hsound, c.filed.hit m, ht, ?_⟩
  · rw [m.worked.sb, hit_sb]
    exact c.usable
  · refine (c.queued.hit c.tallied).mono m.worked.lru m.worked.root (fun j hv _ => ?_) fun j _ hr => ?_
    · rw [m.ents j] at hv ⊢
      exact ⟨hv, rfl⟩
    · rw [m.ents j] at hr
      exact hr

section

variable (hev : s.evictee = some ep)
include hev

theorem Consistent.missed {D : DirData}
    (l : Looked D (s.slotTaken ep) s2 s' this ep name off none off') :
    (s'.Filed s'.valids (update own ep []) ∧ s'.Queued) ∧ off' % 32 = 0 ∧ off' ≤ max off D.size ∧
      D.Ends off' := by
  have hzero := (evictee_spec c.tallied.rootRef hev).2.2
  have hkids := c.queued.childless c.tallied hev
  have cs := l.scanned
  have hv := cs.valids
  have hun : s2.valids ep = .unused := (congrFun hv ep).trans (update_self ..)
  rcases l.result with ⟨-, hrelse, hoff⟩ | ⟨hfound, -⟩
  · rw [entRelse_unused hun] at hrelse
    cases hrelse
    refine ⟨⟨?_, ?_⟩, hoff⟩
    · rw [unref_valids, entDup_valids, hv]
      refine (c.filed.scanned c.sound hkids cs).same (fun j hj => ⟨hj, ?_⟩) fun _ _ _ _ => rfl
      exact (entDup_place s2 _ j).trans (unref_place _ ep j)
    · refine c.queued.mono cs.lru cs.root (fun j hlive _ => ?_) fun j hj href => ?_
      · have hje : j ≠ ep := by
          rintro rfl
          rw [unref_ent, entDup_ent] at hlive
          cases hun.symm.trans hlive
        obtain ⟨cur, cnt, heq⟩ := cs.searched hje
        rw [heq] at hlive ⊢
        exact ⟨hlive, rfl⟩
      · by_cases hje : j = ep
        · rw [hje]
          exact hzero
        · obtain ⟨cur, cnt, heq⟩ := cs.searched hje
          rw [heq, if_neg hj] at href
          exact href
  · cases hfound

theorem Consistent.loaded (hmiss : s.lru.find? (s.fits this name off) = none) (hne : this ≠ ep)
    (l : Looked (s.dir own this) (s.slotTaken ep) s2 s' this ep name off (some i) off')
    {away' : Nat → List Nat} {cs' : List Nat}
    (hsound : s'.Sound away' s'.valids (update own ep cs')) (ht : s'.Tallied held') :
    s'.Consistent away' held' (update own ep cs') := by
  have hzero := (evictee_spec c.tallied.rootRef hev).2.2
  have hkids := c.queued.childless c.tallied hev
  have cs := l.scanned
  rcases l.result with ⟨hfound, -⟩ | ⟨hfound, at', n, hs', hat, hentry, hname, hfits⟩
  · cases hfound
  cases hfound
  have hself : s'.ents i = { s2.ents i with parent := some this, off := at', valid := .live } := by
    rw [hs', modify_eq, setEnt_at, entDup_ents, if_neg hne.symm]
  have hv : s'.valids = update (update s.valids i .unused) i .live := by
    rw [hs', modify_eq, valids_setEnt, entDup_valids, cs.valids]
  have hsame : ∀ j, j ≠ i → SameFile (s.ents j) (s2.ents j) := by
    intro j hj
    have hfile := cs.ents j hj
    rw [slotTaken_ents, if_neg hj] at hfile
    exact hfile
  have hother : ∀ j, j ≠ i → s'.ents j = (s2.entDup this).ents j := by
    intro j hj
    rw [hs', modify_eq, setEnt_ents, if_neg hj]
  have entered : Entered s s' this i := by
    refine ⟨?_, ?_, ?_, fun j hj => ?_, fun j hj => ?_, ?_, ?_, ?_⟩
    · rw [hs']
      exact cs.lru
    · rw [hs']
      exact cs.root
    · rw [hv, update_idem]
    · rw [hother j hj]
      exact (hsame j hj).samePlace.trans (entDup_place s2 this j)
    · rw [hother j hj, entDup_ents]
      split
      · rename_i hjt
        rw [← hjt, hsame j hj]
      · rw [hsame j hj]
    · rw [hself]
    · rw [hself]
      refine cs.ref.trans ?_
      rw [slotTaken_ents, if_pos rfl]
    · rw [hself]
      refine l.dirty.trans ?_
      rw [slotTaken_ents, if_pos rfl]
  have hdata : ∀ p, p ≠ i → s'.dir (update own i cs') p = s.dir own p := by
    intro p hp
    unfold dir
    rw [update_of_ne hp, hs']
    exact congrArg₂ (fun sb d => SuperBlock.data sb d (own p)) cs.sb cs.disk
  refine ⟨?_, hsound, ?_, ht, entered.queued c.queued c.tallied hzero⟩
  · rw [hs']
    exact cs.sb.symm ▸ c.usable
  · refine entered.filed c.filed (fun j p m hj hlive hp he => ?_) ⟨n, ?_⟩ fun j hj hlive hp => ?_
    · have hpi : p ≠ i := by
        rintro rfl
        exact hkids j (c.sound.slots j (by rw [hlive]; nofun)) hlive hp
      rw [hdata p hpi]
      exact ⟨he, rfl⟩
    · rw [hdata this hne, hself]
      exact ⟨hentry, hname⟩
    · -- an entry at the same place would have been found in the cache
      rw [hself]
      intro hoff
      obtain ⟨m, he, hcstr⟩ := c.filed.entry j this hlive hp
      rw [show (s.ents j).off = at' from hoff] at he hcstr
      rw [he.unique hentry] at hcstr
      refine List.find?_eq_none.1 hmiss j (c.sound.slots j (by rw [hlive]; nofun)) ?_
      have hlive' : (s.ents j).valid = .live := hlive
      have hj : nameFits name (s.ents j).filename = true := by
        unfold nameFits at hfits ⊢
        rw [hcstr, ← hname]
        exact hfits
      simp [Mount.fits, hlive', hp, hj, hat, show (s.ents j).off = at' from hoff]

end

end Search

/-! ## Creating -/

theorem taken_ents (s : Mount) (this : Nat) {ep : Nat} (hne : this ≠ ep) (name : List UInt8)
    (attr off j : Nat) : (s.taken this ep name attr off).ents j =
      if j = ep then newEnt ((s.slotTaken ep).ents ep) this name attr off
      else (s.entDup this).ents j := by
  unfold Mount.taken
  rw [modify_eq, setEnt_ents, entDup_ents, if_neg hne.symm]
  split
  · rfl
  · rename_i hj
    rw [entDup_ents, entDup_ents, slotTaken_ents, slotTaken_ents, if_neg hj, if_neg hne]

theorem cstr_newEnt {e : DirEnt} {attr : Nat} (h : ∀ c ∈ name, c ≠ 0) :
    cstr (newEnt e this name attr off).filename = name.take FAT32_MAX_FILENAME :=
  cstr_append_zeros (fun c hc => h c (List.mem_of_mem_take hc)) _

/-- **The records of a new entry** are an entry with its name. -/
theorem entry_of_new {e : DirEnt} {D : DirData} (ha : off % 32 = 0) (hne : flName name ≠ [])
    (hname : cstr e.filename = (flName name).take FAT32_MAX_FILENAME)
    (hgone : (flName name).head? ≠ some EMPTY_ENTRY) (hattr : e.attr ≠ ATTR_LONG_NAME)
    (hsize : off + (records e).length ≤ D.size)
    (hbyte : ∀ o, off ≤ o → o < off + (records e).length → D.byte o = (records e).getD (o - off) 0) :
    ∃ n, D.Entry off n ∧ cstr e.filename = D.name off n := by
  obtain ⟨c, l, hcons⟩ := List.exists_cons_of_ne_nil hne
  obtain ⟨hblank, hdot⟩ := head_flName hcons
  have hmem : c ∈ flName name := hcons ▸ List.mem_cons_self
  rw [hcons] at hname hgone
  have hlen : 1 ≤ (cstr e.filename).length ∧ (cstr e.filename).length ≤ FAT32_MAX_FILENAME := by
    rw [hname, List.length_take, List.length_cons]
    unfold FAT32_MAX_FILENAME
    omega
  have hfirst : (getShortName (cstr e.filename)).getD 0 0 = shortChar c := by
    rw [hname]
    exact head_getShortName hblank hdot
  have hchar := shortChar_ne ((plain_flName hne).no_end c hmem) fun heq => hgone (by rw [heq]; rfl)
  obtain ⟨he, hn⟩ := entry_of_records ha hlen (hfirst.symm ▸ hchar) hattr hsize hbyte
  exact ⟨_, he, hn.symm⟩

/-- **A new entry** in a slot that is not used. Its records go behind those of all other entries. -/
theorem Consistent.create (c : s.Consistent away held own) {held' : Nat → Nat}
    (hun : s.valids ep = .unused) (hev : s.evictee = some ep) (hdir : s.IsDir s.valids this)
    {attr : Nat} (hattr : attr = ATTR_DIRECTORY.toNat ∨ FileAttr attr) (hne : flName name ≠ [])
    (hgone : (flName name).head? ≠ some EMPTY_ENTRY) (hoff : 32 < off) (ha : off % 32 = 0)
    (hle : off ≤ (s.dir own this).size) (hsize : (s.dir own this).size ≤ 2 ^ 31)
    (hends : (s.dir own this).Ends off)
    (hinit : (s.taken this ep (flName name) attr off).initEnt this ep attr = .ok s1)
    (hdisk : s1.entCreateOnDisk this (s1.ents ep) off = .ok s2) (hs : s.sb.Sane s2.disk)
    (ht : (s2.modify ep fun e => { e with valid := .live }).Tallied held') :
    ∃ own', (s2.modify ep fun e => { e with valid := .live }).Consistent away held' own' := by
  obtain ⟨hmem, hroot, hzero⟩ := evictee_spec c.tallied.rootRef hev
  have hthis : this ≠ ep := hdir.ne_of_unused hun
  obtain ⟨h0, hv0, hdir0⟩ := c.sound.taken hun hdir (flName name) attr off
  obtain ⟨cs1, cs2, f, x, h1, h2, h', hwrote⟩ := Sound.createEnt
    (s := s.taken this ep (flName name) attr off) c.usable h0 hun hv0 hmem hdir0 hattr
    (by rw [taken_ents s this hthis, if_pos rfl]) hinit hdisk hs
  generalize hfinal : (s2.modify ep fun e => { e with valid := .live }) = s' at h' ht ⊢
  have hself : s'.ents ep = { s2.ents ep with valid := .live } := by
    rw [← hfinal, modify_eq, setEnt_at]
  have hother : ∀ j, j ≠ ep → s'.ents j = s2.ents j := by
    intro j hj
    rw [← hfinal, modify_eq, setEnt_ents, if_neg hj]
  have hfile : ∀ j, j ≠ ep → SameFile ((s.entDup this).ents j) (s'.ents j) := by
    intro j hj
    have hfill := f.others j hj
    rw [taken_ents s this hthis, if_neg hj] at hfill
    rw [hother j hj]
    exact hfill.trans (x.ents j)
  have hplace1 : SamePlace (newEnt ((s.slotTaken ep).ents ep) this (flName name) attr off)
      (s1.ents ep) := by
    rw [f.self, taken_ents s this hthis, if_pos rfl]
    exact ⟨rfl, rfl, rfl, rfl⟩
  have hplace : SamePlace (s1.ents ep) (s'.ents ep) := by
    rw [hself]
    exact ⟨(x.ents ep).samePlace.parent, (x.ents ep).samePlace.off, (x.ents ep).samePlace.name,
      (x.ents ep).samePlace.dirty⟩
  have entered : Entered s s' this ep := by
    refine ⟨?_, ?_, ?_, fun j hj => ?_, fun j hj => ?_, hplace.parent.trans hplace1.parent, ?_,
      hplace.dirty.trans hplace1.dirty⟩
    · rw [← hfinal]
      exact x.lru.trans f.lru
    · rw [← hfinal]
      exact x.root.trans f.root
    · rw [← hfinal, modify_eq, valids_setEnt, x.worked.valids, f.valids, hv0]
    · exact (entDup_place s this j).trans (hfile j hj).samePlace
    · rw [hfile j hj, entDup_ents]
      split
      · rename_i hjt
        rw [hjt]
      · rfl
    · rw [hself, x.ents ep, f.self, taken_ents s this hthis, if_pos rfl, slotTaken_ents, if_pos rfl]
      rfl
  have hsb : s2.sb = s.sb := x.sb.trans f.sb
  have hdata : ∀ p, s'.dir (update (update own ep cs1) this cs2) p =
      s2.dir (update (update own ep cs1) this cs2) p := by
    intro p
    rw [← hfinal]
    rfl
  have hname : cstr (s1.ents ep).filename = (flName name).take FAT32_MAX_FILENAME := by
    rw [hplace1.name]
    exact cstr_newEnt (plain_flName hne).no_end
  have hlen : 1 ≤ (cstr (s1.ents ep).filename).length ∧
      (cstr (s1.ents ep).filename).length ≤ 255 := by
    have hpos := List.length_pos_iff.2 hne
    rw [hname, List.length_take]
    unfold FAT32_MAX_FILENAME
    omega
  have hrecords := length_records (s1.ents ep)
  unfold CHAR_LONG_NAME at hrecords
  obtain ⟨w, hfit⟩ := hwrote hoff hlen.1 (by omega)
  have hsize2 : (s2.dir (update (update own ep cs1) this cs2) this).size =
      s.sb.bytsPerClus * cs2.length := by
    unfold dir
    rw [update_self, hsb]
    rfl
  have hbefore : ∀ j n, s.valids j = .live → (s.ents j).parent = some this →
      (s.dir own this).Entry (s.ents j).off n → (s.ents j).off + 32 * (n + 1) ≤ off :=
    fun j n _ _ he => he.le_ends hends ha
  refine ⟨_, ?_, h', ?_, ht, entered.queued c.queued c.tallied hzero⟩
  · rw [← hfinal]
    exact hsb.symm ▸ c.usable
  · refine entered.filed c.filed (fun j p n hj hlive hp he => ?_) ?_ fun j hj hlive hp hsame => ?_
    · have hpe : p ≠ ep := (c.sound.parent j p hlive hp).ne_of_unused hun
      have hinit : Within (s.dir own p) (s1.dir (update own ep cs1) p) fun _ => True :=
        f.other (s := s.taken this ep (flName name) attr off) c.usable.geometry h1 hpe
      rw [hdata]
      by_cases hpt : p = this
      · rw [hpt] at hp he hinit ⊢
        have hrest : Within (s1.dir (update own ep cs1) this)
            (s2.dir (update (update own ep cs1) this cs2) this)
            fun o => o < off ∨ off + (records (s1.ents ep)).length ≤ o := by
          unfold dir
          rw [update_self, update_of_ne hthis, x.sb]
          refine within_of_wrote ?_ (f.sb ▸ w)
          have hgrows := x.touches.grows.length_le
          rw [update_of_ne hthis] at hgrows
          exact hgrows
        have hlast := hbefore j n hlive hp he
        exact he.within ((hinit.mono fun _ _ => trivial).trans hrest) fun o _ hhi =>
          .inl (by omega)
      · have hrest := x.other (f.sb.symm ▸ c.usable.geometry) h2 hpt
        exact he.within (hinit.trans hrest) fun _ _ _ => trivial
    · rw [hplace.name, hplace.off, hplace1.off]
      refine entry_of_new ha hne hname hgone f.short ?_ fun o hlo hhi => ?_
      · rw [hdata, hsize2]
        exact hfit
      · rw [hdata]
        unfold dir
        rw [update_self, hsb]
        exact (w o (hhi.trans_le hfit)).1 ⟨hlo, hhi⟩
    · obtain ⟨n, he, -⟩ := c.filed.entry j this hlive hp
      have := hbefore j n hlive hp he
      rw [hplace.off, hplace1.off] at hsame
      change _ = off at hsame
      omega

/-! ## Removing -/

theorem Consistent.remove (c : s.Consistent away held own) (hi : 0 < held i)
    (hkids : (s.ents i).has ATTR_DIRECTORY = true → s.Childless i)
    (hsize : ∀ p, s.valids i = .live → (s.ents i).parent = some p → (s.dir own p).size ≤ 2 ^ 31)
    (hok : s.entRemove i = .ok s') : s'.Consistent away held own := by
  have hkids' : s.IsDir s.valids i → ∀ j, s.valids j = .live → (s.ents j).parent ≠ some i :=
    fun hdir j hj => hkids hdir.2 j (c.sound.slots j (by rw [hj]; nofun)) hj
  obtain ⟨hsb, hsound⟩ := c.sound.entRemove c.usable (c.tallied.ref_pos hi) hkids' hok
  have ht := c.tallied.entRemove.of_ok hok
  unfold Mount.entRemove at hok
  split at hok
  · cases hok
    exact c
  rename_i hlive
  rw [not_not] at hlive
  split at hok
  · cases hok
  rename_i p hp
  obtain ⟨n, he, -⟩ := c.filed.entry i p hlive hp
  have hdir := c.sound.parent i p hlive hp
  have hin : (s.ents i).off < (s.dir own p).size := by
    have := he.inside
    omega
  have hfit := record_fits c.usable.geometry he.aligned
  have hone : (s.ents i).off % s.sb.bytsPerClus + 1 ≤ s.sb.bytsPerClus := by omega
  obtain ⟨s1, hreloc, w1, m1, hcnt, hread⟩ := (c.sound.walk c.usable hdir).readAt hone hin
  have h1 := c.sound.of_moved m1 w1
  have hlt := c.usable.geometry.bytsPerClus_lt
  have hoff : (s1.ents i).off = (s.ents i).off := by rw [m1.ents i]
  rw [hreloc, ok_bind] at hok
  dsimp only at hok
  rw [hread, ok_bind] at hok
  obtain ⟨s2, hmark, hok⟩ := bind_eq_ok hok
  cases hok
  -- the first record tells how many there are
  have horder : (((List.range 1).map fun k => (s.sb.data s.disk (own p)).byte
      ((s.ents i).off + k)).getD 0 0 &&& ~~~LAST_LONG_ENTRY).toNat = n := order_entry he
  have hdata : s1.dir own p = s.dir own p := m1.data _
  have hsb1 : s1.sb = s.sb := m1.worked.sb
  rw [horder, hoff, u32_of_lt (by omega), ← hsb1] at hmark
  rw [← hsb1] at hcnt
  obtain ⟨h2, x, w⟩ := h1.markEmpty_within (hsb1 ▸ c.usable) (m1.worked.isDir hdir) hcnt he.aligned
    (by rw [hdata]; exact hsize p hlive hp) (by rw [hdata]; exact he.inside) hmark
  rw [hdata] at w
  have hplace : ∀ j, SamePlace (s.ents j) ((s2.modify i fun e => { e with valid := .removed }).ents j) := by
    intro j
    have hsame := ((m1.ents j).trans (x.ents j)).samePlace
    rw [modify_eq, setEnt_ents]
    split
    · rename_i hj
      rw [hj] at hsame ⊢
      exact ⟨hsame.parent, hsame.off, hsame.name, hsame.dirty⟩
    · exact hsame
  have hv : (s2.modify i fun e => { e with valid := .removed }).valids =
      update s.valids i .removed := by
    rw [modify_eq, valids_setEnt, x.worked.valids, m1.worked.valids]
  have hleft : ∀ j, (s2.modify i fun e => { e with valid := .removed }).valids j = .live →
      j ≠ i ∧ s.valids j = .live := by
    intro j hj
    rw [hv] at hj
    by_cases hji : j = i
    · rw [hji, update_self] at hj
      cases hj
    · rw [update_of_ne hji] at hj
      exact ⟨hji, hj⟩
  refine ⟨hsb ▸ c.usable, hsound, ?_, ht, ?_⟩
  · refine c.filed.keep (fun j hj => ⟨(hleft j hj).2, hplace j⟩) fun j q m hj hq hej => ?_
    obtain ⟨hji, hlj⟩ := hleft j hj
    by_cases hqp : q = p
    · rw [hqp] at hq hej ⊢
      have hne : (s.ents i).off ≠ (s.ents j).off := fun heq =>
        hji (c.filed.apart i j p hlive hlj hp hq heq).symm
      have hapart := he.apart hej hne
      exact hej.within w fun o hlo hhi => by omega
    · have hrest : Within (s1.dir own q) (s2.dir own q) fun _ => True := by
        have hother := x.other (p := q) (hsb1 ▸ c.usable.geometry) (by rw [update_eq_self]; exact h2) hqp
        rw [update_eq_self] at hother
        exact hother
      rw [show s1.dir own q = s.dir own q from m1.data _] at hrest
      exact hej.within hrest fun _ _ _ => trivial
  · refine c.queued.mono (x.lru.trans m1.worked.lru) (x.root.trans m1.worked.root)
      (fun j hj _ => ⟨(hleft j hj).2, (hplace j).parent⟩) fun j _ hr => ?_
    rw [modify_eq, setEnt_ents] at hr
    split at hr
    · rename_i hji
      rw [hji]
      rw [x.ents i, m1.ents i] at hr
      exact hr
    · rw [x.ents j, m1.ents j] at hr
      exact hr

/-! ## Letting go -/

theorem Filed.lastRelse (u : s.sb.Usable) (h : s.Sound away s.valids own) (f : s.Filed s.valids own)
    (hk : s.valids i ≠ .unused) (hok : s.lastRelse i = .ok s') :
    ∃ own', s'.Sound away s.valids own' ∧ s'.Filed s.valids own' ∧ s'.sb = s.sb ∧
      (s.valids i = .removed → own' i = []) := by
  unfold Mount.lastRelse at hok
  split at hok
  · rename_i hrem
    have hdir : ¬s.IsDir s.valids i := fun hdir => by
      have hlive : (s.ents i).valid = .live := hdir.1
      rw [hrem] at hlive
      cases hlive
    obtain ⟨h', w⟩ := h.entTrunc u.geometry hk hdir hok
    obtain ⟨d', heq, hbytes, -⟩ := entTrunc_frees u.geometry (h.chained hk) ((h.fits i).noLink hk)
    unfold Mount.entTrunc at hok
    rw [heq, ok_bind] at hok
    cases hok
    refine ⟨_, h', f.keep (fun j hj => ⟨hj, ?_⟩) fun j p n hj hp he => ?_, rfl,
      fun _ => update_self ..⟩
    · have hji : j ≠ i := by
        rintro rfl
        cases hrem.symm.trans hj
      rw [setEnt_ents, if_neg hji]
      exact .refl _
    · have hpi : p ≠ i := by
        rintro rfl
        exact hdir (h.parent j p hj hp)
      have hsame : Within (s.dir own p) (s.sb.data d' (own p)) fun _ => True := by
        refine within_of_bytes u.geometry fun x hx k hk => ?_
        exact hbytes x k ((h.chain p).node x hx).1 hk
      unfold dir
      rw [update_of_ne hpi]
      exact he.within hsame fun _ _ _ => trivial
  · rename_i hrem
    have hclean : s.parentUpdate i = .ok s := by
      unfold Mount.parentUpdate
      rw [if_pos]
      by_cases hlive : (s.ents i).valid = .live
      · exact .inl (f.clean i hlive)
      · exact .inr hlive
    rw [hclean] at hok
    cases hok
    exact ⟨own, h, f, rfl, fun hr => absurd hr hrem⟩

/-- **`entRelse`** by a holder. -/
theorem Consistent.entRelseLoop {fuel : Nat} (c : s.Consistent away (bump held i) own)
    (hok : entRelseLoop fuel s i = .ok s') : ∃ own', s'.Consistent away held own' := by
  induction fuel generalizing s own i with
  | zero => cases hok
  | succ fuel ih =>
    have ht := c.tallied.entRelseLoop.of_ok hok
    rw [entRelseLoop_succ] at hok
    split at hok
    · rename_i hcond
      obtain ⟨hroot, hused, hone⟩ := hcond
      obtain ⟨s1, hlast, hok⟩ := bind_eq_ok hok
      have k := lastRelse_post.of_ok hlast
      have hv0 : (s.behindRoot i).valids = s.valids := entDup_valids s s.root
      have hv1 : s1.valids = (s.behindRoot i).valids := funext fun j => (k.ents j).valid
      have f0 : (s.behindRoot i).Filed (s.behindRoot i).valids own := by
        rw [hv0]
        exact c.filed.same (fun j hj => ⟨hj, entDup_place s s.root j⟩) fun _ _ _ _ => rfl
      obtain ⟨own1, h1, f1, hsb, hgone⟩ := Filed.lastRelse (s := s.behindRoot i) c.usable
        (c.sound.behindRoot i) f0 (by rw [hv0]; exact hused) hlast
      rw [← hv1] at h1 f1 hgone
      have f2 : (s1.unref i).Filed (s1.unref i).valids own1 := by
        rw [unref_valids]
        exact f1.same (fun j hj => ⟨hj, unref_place s1 i j⟩) fun _ _ _ _ => rfl
      cases hp : (s1.ents i).parent with
      | none =>
        rw [hp] at hok
        cases hok
      | some p =>
        rw [hp] at hok
        exact ih ⟨hsb ▸ c.usable, h1.unref_last (k.root ▸ hroot) hgone, f2,
          c.tallied.letGo hroot hone k hp, c.queued.letGo c.tallied hroot hone k⟩ hok
    · rename_i hcond
      cases hok
      refine ⟨own, c.usable, c.sound.unref_other hcond, ?_, ht, ?_⟩
      · rw [unref_valids, entDup_valids]
        refine c.filed.same (fun j hj => ⟨hj, ?_⟩) fun _ _ _ _ => rfl
        exact (entDup_place s s.root j).trans (unref_place _ i j)
      · refine c.queued.mono rfl rfl (fun j hj _ => ?_) fun j hj hr => ?_
        · rw [unref_ent, entDup_ent] at hj ⊢
          exact ⟨hj, rfl⟩
        · rw [unref_ents] at hr
          split at hr
          · rename_i hji
            rw [hji] at hj
            rw [entDup_ents, if_neg hj] at hr
            have htwo := c.tallied.two_le hj hcond
            dsimp only at hr
            omega
          · rw [entDup_ents, if_neg hj] at hr
            exact hr

end Mount

end LuoOS.Fs
