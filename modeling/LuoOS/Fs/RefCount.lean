import LuoOS.Lib.RefForest
import LuoOS.Fs.OwnedRuns

/-!
# The reference counts of the entry cache

A `fat::INode` holds a reference to its `DirEnt`, and an entry in use one to the entry of its
directory. The counts are exact over any run of `lookup`, `mknod`, `readDir`, `nodRemove` and
destruction in which `readDir` lists nothing, so the cache is full only if all its slots are open
(`accounted_of_quiet`). `readDir` never lets go the entries it lists (`not_accounted_listed`).
-/

namespace LuoOS.Fs

open Outcome RefForest Runs Function

namespace Mount

/-! ## Counts -/

def counts (s : Mount) : Counts Nat := ⟨fun i => (s.ents i).ref, fun i => (s.ents i).parent⟩

/-- The counts are those of the inodes and of the entries below. -/
structure Tallied (s : Mount) (held : Nat → Nat) : Prop where
  balanced : Balanced s.counts s.lru s.root held
  used : ∀ i, i ≠ s.root → 0 < (s.ents i).ref → (s.ents i).valid ≠ .unused
  rootRef : 0 < (s.ents s.root).ref

variable {s s1 s' : Mount} {held held' : Nat → Nat} {i this ep off fuel : Nat} {name : List UInt8}

theorem Kept.counts (k : Kept s s') : s'.counts = s.counts := by
  unfold Mount.counts
  simp only [fun j => (k.ents j).ref, fun j => (k.ents j).parent]

theorem ref_eq_of_counts (h : s'.counts = s.counts) (j : Nat) : (s'.ents j).ref = (s.ents j).ref :=
  congrFun (congrArg Counts.ref h) j

/-- The cache counts the same, and no entry in use has changed. -/
theorem Tallied.of_counts (h : s.Tallied held) (hcounts : s'.counts = s.counts)
    (hlru : s'.lru = s.lru) (hroot : s'.root = s.root)
    (hv : ∀ j, 0 < (s.ents j).ref → (s'.ents j).valid = (s.ents j).valid) : s'.Tallied held := by
  refine ⟨?_, fun j hj hpos => ?_, ?_⟩
  · rw [hcounts, hlru, hroot]
    exact h.balanced
  · rw [ref_eq_of_counts hcounts] at hpos
    rw [hv j hpos]
    exact h.used j (hroot ▸ hj) hpos
  · rw [hroot, ref_eq_of_counts hcounts]
    exact h.rootRef

theorem Kept.tallied (k : Kept s s') (h : s.Tallied held) : s'.Tallied held :=
  h.of_counts k.counts k.lru k.root fun j _ => (k.ents j).valid

theorem counts_setEnt (s : Mount) (i : Nat) (d' : Disk) (e' : DirEnt) : (s.setEnt i d' e').counts =
      ⟨update s.counts.ref i e'.ref, update s.counts.parent i e'.parent⟩ := by
  unfold counts
  congr 1 <;> funext j <;> by_cases hj : j = i <;> simp [hj]

theorem counts_setRef (s : Mount) (i : Nat) {e' : DirEnt} (h : e'.parent = (s.ents i).parent) :
    (s.setEnt i s.disk e').counts = s.counts.setRef i e'.ref := by
  rw [counts_setEnt, h]
  congr 1
  exact update_eq_self i s.counts.parent

theorem counts_entDup (s : Mount) (i : Nat) :
    (s.entDup i).counts = s.counts.setRef i ((s.ents i).ref + 1) := counts_setRef s i rfl

theorem counts_unref (s : Mount) (i : Nat) :
    (s.unref i).counts = s.counts.setRef i ((s.ents i).ref - 1) := counts_setRef s i rfl

theorem counts_setValid (s : Mount) (i : Nat) (v : Validity) :
    (s.modify i fun e => { e with valid := v }).counts = s.counts := by
  rw [modify_eq, counts_setRef s i (by rfl)]
  unfold Counts.setRef
  congr 1
  exact update_eq_self i s.counts.ref

section

variable (h : s.Tallied held)
include h

theorem Tallied.ref_pos (hi : 0 < held i) : 0 < (s.ents i).ref := by
  by_cases hroot : i = s.root
  · rw [hroot]
    exact h.rootRef
  · have hcount : (s.ents i).ref = held i + s.counts.kids s.lru i := h.balanced.count i hroot
    omega

theorem Tallied.ref_nonneg (hroot : i ≠ s.root) : 0 ≤ (s.ents i).ref := by
  have hcount : (s.ents i).ref = held i + s.counts.kids s.lru i := h.balanced.count i hroot
  omega

theorem Tallied.setRef {n : Int} (hb : Balanced (s.counts.setRef i n) s.lru s.root held')
    (hcounts : s'.counts = s.counts.setRef i n) (hlru : s'.lru = s.lru) (hroot : s'.root = s.root)
    (hv : s'.valids = s.valids) (huse : 0 < n → 0 < (s.ents i).ref) (hn : i = s.root → 0 < n) :
    s'.Tallied held' := by
  have href : ∀ j, (s'.ents j).ref = if j = i then n else (s.ents j).ref := by
    intro j
    have := congrFun (congrArg Counts.ref hcounts) j
    simpa [Mount.counts, Counts.setRef, update_apply] using this
  refine ⟨?_, fun j hj hpos => ?_, ?_⟩
  · rw [hcounts, hlru, hroot]
    exact hb
  · have hvj : (s'.ents j).valid = (s.ents j).valid := congrFun hv j
    rw [hvj]
    refine h.used j (hroot ▸ hj) ?_
    rw [href] at hpos
    split at hpos
    · rename_i hji
      rw [hji]
      exact huse hpos
    · exact hpos
  · rw [hroot, href]
    split
    · rename_i hri
      exact hn hri.symm
    · exact h.rootRef

theorem Tallied.entDup (hi : 0 < (s.ents i).ref) : (s.entDup i).Tallied (bump held i) :=
  h.setRef (h.balanced.dup hi) (counts_entDup s i) rfl rfl (entDup_valids s i) (fun _ => hi)
    fun _ => Int.lt_add_one_of_le (Int.le_of_lt hi)

theorem Tallied.entDup_root : (s.entDup s.root).Tallied held := by
  have hroot := h.rootRef
  refine h.setRef (h.balanced.setRoot ?_) (counts_entDup s _) rfl rfl (entDup_valids s _)
    (fun _ => hroot) fun _ => by omega
  exact iff_of_true (by omega) hroot

end

/-! ## Letting go -/

theorem Tallied.toFront (h : s.Tallied held) (hi : i ∈ s.lru) :
    { s with lru := insertBehind s.root i (s.lru.erase i) }.Tallied held := by
  refine ⟨h.balanced.perm ?_, h.used, h.rootRef⟩
  exact (insertBehind_perm ..).trans (List.perm_cons_erase hi).symm

section

variable (h : s.Tallied (bump held i))
include h

/-- The last holder lets the entry go. The reference of the entry to its directory is still to be
dropped. -/
theorem Tallied.letGo (hroot : i ≠ s.root) (hone : (s.ents i).ref = 1)
    (k : Kept (s.behindRoot i) s1) {p : Nat}
    (hp : (s1.ents i).parent = some p) : (s1.unref i).Tallied (bump held p) := by
  have h1 := h.entDup_root
  have hone1 : ((s.entDup s.root).ents i).ref = 1 := by
    simpa [Mount.entDup, modify_eq, hroot] using hone
  have hmem : i ∈ s.lru := h1.balanced.within i hroot (by
    change 0 < ((s.entDup s.root).ents i).ref
    omega)
  have h3 := k.tallied (h1.toFront hmem)
  have hone3 : (s1.ents i).ref = 1 := (k.ents i).ref.trans hone1
  have hroot3 : i ≠ s1.root := by
    rw [k.root]
    exact hroot
  refine h3.setRef (h3.balanced.detach hroot3 hone3 hp) ?_ rfl rfl (unref_valids s1 i)
    (fun h => absurd h (lt_irrefl 0))
    fun heq => absurd heq hroot3
  rw [counts_unref, hone3]
  rfl

/-- An entry that a holder drops and that is not let go has another reference. -/
theorem Tallied.two_le (hroot : i ≠ s.root)
    (hcond : ¬(i ≠ s.root ∧ (s.ents i).valid ≠ .unused ∧ (s.ents i).ref = 1)) :
    2 ≤ (s.ents i).ref := by
  have hpos := h.ref_pos (i := i) (by rw [bump_self]; omega)
  have hne : (s.ents i).ref ≠ 1 := fun hone => hcond ⟨hroot, h.used i hroot hpos, hone⟩
  omega

/-- **`entRelse`** drops the reference of one holder, and those of the directories that go out of use
by it. -/
theorem Tallied.entRelseLoop : Post Other (fun s' => s'.Tallied held) (entRelseLoop fuel s i) := by
  induction fuel generalizing s i with
  | zero => exact .error (by decide)
  | succ fuel ih =>
    rw [entRelseLoop_succ]
    split
    · rename_i hcond
      refine lastRelse_post.bind fun s1 k => ?_
      cases hp : (s1.ents i).parent with
      | none => exact .error (by decide)
      | some p => exact ih (h.letGo hcond.1 hcond.2.2 k hp)
    · rename_i hcond
      have h1 := h.entDup_root
      have htwo : 2 ≤ ((s.entDup s.root).ents i).ref := by
        rw [entDup_ents]
        split
        · exact Int.add_le_add_right h.rootRef 1
        · rename_i hroot
          exact h.two_le hroot hcond
      have hleft : 0 < ((s.entDup s.root).ents i).ref - 1 := by omega
      exact .ok (h1.setRef (h1.balanced.drop htwo) (counts_unref ..) rfl rfl (unref_valids ..)
        (fun _ => by omega) fun _ => hleft)

theorem Tallied.entRelse : Post Other (fun s' => s'.Tallied held) (s.entRelse i) := h.entRelseLoop

end

/-! ## Finding -/

theorem Tallied.attach (h : s.Tallied held) (hep : ep ≠ s.root) (hmem : ep ∈ s.lru)
    (hfree : (s.ents ep).ref = 0) (hthis : 0 < (s.ents this).ref)
    (hcounts : s'.counts = s.counts.attach ep this) (hlru : s'.lru = s.lru)
    (hroot : s'.root = s.root) (hv : ∀ j, j ≠ ep → (s'.ents j).valid = (s.ents j).valid)
    (hlive : (s'.ents ep).valid = .live) : s'.Tallied (bump held ep) := by
  have hne : this ≠ ep := by
    rintro rfl
    omega
  have huse : ∀ j, j ≠ ep → 0 < (s'.ents j).ref → 0 < (s.ents j).ref := by
    intro j hj hpos
    have href := congrFun (congrArg Counts.ref hcounts) j
    by_cases hjt : j = this
    · rw [hjt]
      exact hthis
    · simp only [Mount.counts, Counts.attach, update_of_ne hjt, update_of_ne hj]
        at href
      omega
  refine ⟨?_, fun j hj hpos => ?_, ?_⟩
  · rw [hcounts, hlru, hroot]
    exact h.balanced.attach hep hmem hfree hthis
  · by_cases hje : j = ep
    · rw [hje, hlive]
      decide
    · rw [hv j hje]
      exact h.used j (hroot ▸ hj) (huse j hje hpos)
  · have hpos := h.rootRef
    have href := congrFun (congrArg Counts.ref hcounts) s.root
    rw [hroot]
    by_cases hrt : s.root = this
    · rw [hrt] at hpos href ⊢
      simp only [Mount.counts, Counts.attach, update_self, update_of_ne hne] at href
      omega
    · simp only [Mount.counts, Counts.attach, update_of_ne hrt,
        update_of_ne hep.symm] at href
      omega

theorem Tallied.hit (h : s.Tallied held) (hthis : 0 < (s.ents this).ref) (hmem : ep ∈ s.lru)
    (hfits : s.fits this name off ep = true) : (s.hit this ep).Tallied (bump held ep) := by
  simp only [Mount.fits, Bool.and_eq_true, decide_eq_true_eq] at hfits
  obtain ⟨⟨⟨hlive, hparent⟩, -⟩, -⟩ := hfits
  have hroot : ep ≠ s.root := by
    rintro rfl
    cases h.balanced.top.symm.trans hparent
  have hnonneg := h.ref_nonneg hroot
  unfold Mount.hit
  split
  · rename_i hzero
    have hne : this ≠ ep := by
      rintro rfl
      omega
    refine h.attach hroot hmem hzero hthis ?_ rfl rfl (fun j _ => ?_) ?_
    · rw [counts_entDup, counts_entDup]
      unfold Counts.setRef Counts.attach
      congr 1
      · have href : ((s.entDup ep).ents this).ref = (s.ents this).ref := by
          simp [Mount.entDup, modify_eq, hne]
        rw [href, hzero]
        simp [counts, hne]
      · rw [← hparent]
        exact (update_eq_self ep s.counts.parent).symm
    · exact congrFun ((entDup_valids _ _).trans (entDup_valids s ep)) j
    · exact (congrFun ((entDup_valids _ _).trans (entDup_valids s ep)) ep).trans hlive
  · exact h.entDup (by omega)

/-- **`eCacheHit`** finds an entry, which gets another holder, or takes a slot. -/
theorem Tallied.eCacheHit (h : s.Tallied held) (hthis : 0 < (s.ents this).ref) :
    Post (fun f => f = insufficient → s.evictee = none)
      (fun r => (r.2.ents r.1).valid = .live ∧ r.2.Tallied (bump held r.1) ∨
        s.lru.find? (s.fits this name off) = none ∧ s.evictee = some r.1 ∧ r.2 = s.slotTaken r.1)
      (s.eCacheHit this name off) := by
  unfold Mount.eCacheHit
  split
  · rename_i ep hep
    have hfits := List.find?_some hep
    refine .ok (.inl ⟨?_, h.hit hthis (List.mem_of_find?_eq_some hep) hfits⟩)
    exact (congrFun (hit_valids s this ep) ep).trans (live_of_find hep)
  · rename_i hmiss
    unfold Mount.eCacheAlloc
    split
    · rename_i hev
      exact .error fun _ => hev
    · rename_i ep hev
      exact .ok (.inr ⟨hmiss, hev, rfl⟩)

def opened (held : Nat → Nat) : Option Nat → Nat → Nat
  | none => held
  | some j => bump held j

/-- The counts after a search, and why it found nothing. -/
structure Searched (s' : Mount) (held : Nat → Nat) (this : Nat) (name : List UInt8) (off : Nat)
    (found : Option Nat) : Prop where
  tallied : s'.Tallied (opened held found)
  missed : found = none → s'.lru.find? (s'.fits this name off) = none ∧ s'.evictee ≠ none

/-- The loop of `entSearch` fills the slot, which it keeps or lets go. -/
theorem entSearchLoop_post {count off : Nat} (hv : (s.ents ep).valid = .unused) :
    Post Other (fun r => ∃ s1, Kept s s1 ∧
        (r.1 = none ∧ r.2.2 = (s1.entDup s1.root).unref ep ∨
          r.1 = some ep ∧ ∃ at', r.2.2 = (s1.entDup this).modify ep fun e =>
            { e with parent := some this, off := at', valid := .live }))
      (entSearchLoop this ep name fuel s off count) := by
  induction fuel generalizing s off count with
  | zero => exact .error (by decide)
  | succ fuel ih =>
    refine entNext_post.bind ?_
    rintro ⟨r, count1, e1, s1⟩ ⟨k1, hsame⟩
    dsimp only at k1 hsame ⊢
    have k2 : Kept s (s1.modify ep fun _ => e1) :=
      k1.trans (kept_setEnt ((k1.ents ep).symm.trans hsame) (List.suffix_refl _))
    have hv2 : ((s1.modify ep fun _ => e1).ents ep).valid = .unused := (k2.ents ep).valid.trans hv
    split
    · rw [entRelse_unused hv2]
      exact .ok ⟨_, k2, .inl ⟨rfl, rfl⟩⟩
    split
    · exact .ok ⟨_, k2, .inr ⟨rfl, off, rfl⟩⟩
    · exact (ih hv2).weaken fun r ⟨s3, k3, hr⟩ => ⟨s3, k2.trans k3, hr⟩

theorem fits_setRef (s : Mount) (i : Nat) (f : DirEnt → Int) :
    (s.modify i fun e => { e with ref := f e }).fits this name off = s.fits this name off := by
  funext j
  unfold Mount.fits
  simp only [modify_eq, setEnt_ents]
  split
  · rename_i hj
    rw [hj]
  · rfl

theorem counts_slotTaken (s : Mount) (ep : Nat) :
    (s.slotTaken ep).counts = s.counts.setRef ep 1 := counts_setRef s ep rfl

section

variable (h : s.Tallied held)
include h

theorem Tallied.slotBack (hev : s.evictee = some ep)
    (hmiss : s.lru.find? (s.fits this name off) = none) (k : Kept (s.slotTaken ep) s1) :
    Searched ((s1.entDup s1.root).unref ep) held this name off none := by
  obtain ⟨hmem, hroot, hzero⟩ := evictee_spec h.rootRef hev
  have hlru : s1.lru = s.lru := k.lru
  have hroot1 : s1.root = s.root := k.root
  have hrootRef : (s1.ents s.root).ref = (s.ents s.root).ref := by
    rw [(k.ents _).ref, slotTaken_ents, if_neg hroot.symm]
  have hone : ((s1.entDup s.root).ents ep).ref = 1 := by
    have hkept := (k.ents ep).ref
    rw [slotTaken_ents, if_pos rfl] at hkept
    simpa [Mount.entDup, modify_eq, hroot] using hkept
  have hcounts : ((s1.entDup s1.root).unref ep).counts = (s.entDup s.root).counts := by
    rw [hroot1, counts_unref, hone, counts_entDup, hrootRef, counts_entDup, k.counts,
      counts_slotTaken]
    have hself : update s.counts.ref ep 0 = s.counts.ref := by
      rw [← hzero]
      exact update_eq_self ep s.counts.ref
    simp only [Counts.setRef, Int.sub_self]
    rw [update_comm hroot.symm, update_idem, hself]
  have hvalid : ∀ j, (((s1.entDup s1.root).unref ep).ents j).valid = (s1.ents j).valid :=
    fun j => congrFun ((unref_valids ..).trans (entDup_valids ..)) j
  have hfits : ((s1.entDup s1.root).unref ep).fits this name off =
      (s.slotTaken ep).fits this name off := by
    unfold Mount.unref Mount.entDup
    rw [fits_setRef, fits_setRef, k.fits]
  refine ⟨h.entDup_root.of_counts hcounts hlru hroot1 fun j hpos => ?_, fun _ => ⟨?_, ?_⟩⟩
  · have hje : j ≠ ep := by
      rintro rfl
      simp [Mount.entDup, modify_eq, hroot, hzero] at hpos
    have hsame : (s1.ents j).valid = (s.ents j).valid := by
      rw [(k.ents j).valid, slotTaken_ents, if_neg hje]
    exact (hvalid j).trans (hsame.trans (congrFun (entDup_valids s s.root) j).symm)
  · change s1.lru.find? _ = none
    rw [hfits, hlru, List.find?_eq_none]
    intro j hj
    unfold Mount.fits
    rw [slotTaken_ents]
    split
    · simp
    · exact List.find?_eq_none.1 hmiss j hj
  · intro hnone
    refine List.find?_eq_none.1 hnone ep (List.mem_reverse.2 (hlru ▸ hmem)) ?_
    rw [decide_eq_true_iff, ref_eq_of_counts hcounts]
    simp [Mount.entDup, modify_eq, hroot, hzero]

section

variable (hthis : 0 < (s.ents this).ref)
include hthis

theorem Tallied.slotKept (hev : s.evictee = some ep) (k : Kept (s.slotTaken ep) s1) {e' : DirEnt}
    {d' : Disk} (hparent : e'.parent = some this) (href : e'.ref = 1) (hlive : e'.valid = .live) :
    ((s1.entDup this).setEnt ep d' e').Tallied (bump held ep) := by
  obtain ⟨hmem, hroot, hzero⟩ := evictee_spec h.rootRef hev
  have hne : this ≠ ep := by
    rintro rfl
    omega
  refine h.attach hroot hmem hzero hthis ?_ k.lru k.root (fun j hj => ?_) ?_
  · have hthis1 : (s1.ents this).ref = (s.ents this).ref := by
      rw [(k.ents _).ref, slotTaken_ents, if_neg hne]
    have hcounts1 : (s1.entDup this).counts =
        (s.counts.setRef ep 1).setRef this ((s.ents this).ref + 1) := by
      rw [counts_entDup, k.counts, counts_slotTaken, hthis1]
    rw [counts_setEnt, hcounts1, hparent, href]
    simp only [Counts.setRef, Counts.attach]
    rw [update_comm hne, update_idem, update_of_ne hne]
    rfl
  · have hsame : (s1.ents j).valid = (s.ents j).valid := by
      rw [(k.ents j).valid, slotTaken_ents, if_neg hj]
    rw [setEnt_ents, if_neg hj, ← hsame]
    exact congrFun (entDup_valids s1 this) j
  · rw [setEnt_at, hlive]

theorem Tallied.searchDisk (hev : s.evictee = some ep)
    (hmiss : s.lru.find? (s.fits this name off) = none) {start count : Nat}
    (k : Kept (s.slotTaken ep) s1) : Post Other (fun r => Searched r.2.2 held this name off r.1)
      (entSearchLoop this ep name fuel s1 start count) := by
  have hslot := k.ents ep
  rw [slotTaken_ents, if_pos rfl] at hslot
  refine (entSearchLoop_post hslot.valid).weaken ?_
  rintro ⟨found, off', s'⟩ ⟨s2, k2, ⟨rfl, rfl⟩ | ⟨rfl, at', rfl⟩⟩
  · exact h.slotBack hev hmiss (k.trans k2)
  refine ⟨?_, nofun⟩
  have hne : ep ≠ this := by
    rintro rfl
    have := (evictee_spec h.rootRef hev).2.2
    omega
  refine h.slotKept hthis hev (k.trans k2) rfl ?_ rfl
  have href := ((k2.ents ep).ref.trans hslot.ref)
  simpa [Mount.entDup, modify_eq, hne] using href

/-- **`entSearch`** in a directory in use. -/
theorem Tallied.entSearch {start : Option Nat} :
    Post (fun f => f = insufficient → s.evictee = none)
      (fun r => (s.ents this).valid ≠ .live ∧ r.1 = none ∧ r.2.2.Tallied held ∨
        Searched r.2.2 held this name (start.getD 0) r.1) (s.entSearch this name start) := by
  unfold Mount.entSearch
  split
  · exact .error nofun
  refine (resolveLink_post.mono (fun f => Other.absurd) fun _ k => k).bind fun s1 k1 => ?_
  have h1 := k1.tallied h
  have hthis1 : 0 < (s1.ents this).ref := by
    rw [(k1.ents this).ref]
    exact hthis
  split
  · rename_i hv
    exact .ok (.inl ⟨(k1.ents this).valid ▸ hv, rfl, h1⟩)
  rw [← k1.evictee]
  refine (h1.eCacheHit hthis1).bind ?_
  rintro ⟨ep, s2⟩ (⟨hlive, h2⟩ | ⟨hmiss, hev, hs2⟩)
  · dsimp only at hlive h2 ⊢
    rw [if_pos hlive]
    split
    · exact .ok (.inr ⟨h2, nofun⟩)
    refine (entNext_post.mono (fun f => Other.absurd) fun _ k => k).bind ?_
    rintro ⟨r, count, e, s3⟩ ⟨k3, -⟩
    exact .ok (.inr ⟨k3.tallied h2, nofun⟩)
  · dsimp only at hev hs2 ⊢
    subst hs2
    rw [if_neg (by rw [slotTaken_ents, if_pos rfl]; nofun)]
    refine (relocClus_post.mono (fun f => Other.absurd) fun _ k => k).bind ?_
    rintro ⟨r, s3⟩ k3
    refine (h1.searchDisk hthis1 hev hmiss k3).mono (fun f => Other.absurd) ?_
    rintro ⟨found, off', s'⟩ hs
    exact .inr ⟨hs.tallied, hs.missed⟩

end

end

/-! ## Creating and removing -/

/-- **`entCreate`** in a directory in use. -/
theorem Tallied.entCreate (h : s.Tallied held) (hthis : 0 < held this) {attr : Nat} :
    Post (fun f => f = insufficient → s.evictee = none) (fun r => r.2.Tallied (opened held r.1))
      (s.entCreate this name attr) := by
  unfold Mount.entCreate
  split
  · exact .error nofun
  split
  · exact .ok h
  rename_i hcond
  refine (h.entSearch (h.ref_pos hthis)).bind ?_
  rintro ⟨found, off, s1⟩ (⟨hv, -⟩ | ⟨h1, hmissed⟩)
  · exact absurd (.inl hv) hcond
  cases found with
  | some ep => exact .ok h1
  | none =>
    obtain ⟨hmiss, hfree⟩ := hmissed rfl
    rw [Option.getD_some] at hmiss
    have hthis1 := h1.ref_pos hthis
    dsimp only [opened] at h1 ⊢
    obtain ⟨ep, hev⟩ := Option.ne_none_iff_exists'.1 hfree
    have hhit : s1.eCacheHit this (flName name) 0 = .ok (ep, s1.slotTaken ep) := by
      unfold Mount.eCacheHit Mount.eCacheAlloc
      rw [hmiss, hev]
      rfl
    rw [hhit, ok_bind]
    refine (initEnt_post.mono (fun f => Other.absurd) fun _ k => k).bind fun s2 k2 => ?_
    refine (entCreateOnDisk_post.mono (fun f => Other.absurd) fun _ k => k).bind fun s3 k3 => .ok ?_
    -- the entry counts from the moment it is filled, whatever becomes of the disk then
    have k := k2.trans k3
    have hne : ep ≠ this := by
      rintro rfl
      exact absurd (evictee_spec h1.rootRef hev).2.2 (Int.ne_of_gt hthis1)
    have hnew : (((s1.slotTaken ep).entDup this).setEnt ep s1.disk
        { newEnt (((s1.slotTaken ep).entDup this).ents ep) this (flName name) attr off with
          valid := .live }).Tallied (bump held ep) := by
      refine h1.slotKept hthis1 hev (.refl _) rfl ?_ rfl
      simp [newEnt, Mount.entDup, modify_eq, hne, slotTaken_ents]
    refine hnew.of_counts ?_ k.lru k.root fun j _ => ?_
    · rw [counts_setValid, k.counts, modify_eq, counts_setEnt, counts_setEnt]
    · rw [modify_eq, setEnt_ents, setEnt_ents]
      split
      · rfl
      · rename_i hj
        rw [(k.ents j).valid, modify_eq, setEnt_ents, if_neg hj]

/-- **`entRemove`** changes no count. -/
theorem Tallied.entRemove (h : s.Tallied held) :
    Post Other (fun s' => s'.Tallied held) (s.entRemove i) := by
  unfold Mount.entRemove
  split
  · exact .ok h
  split
  · exact .error (by decide)
  refine relocClus_post.bind ?_
  rintro ⟨r, s1⟩ k1
  refine readCur_post.bind fun order _ => ?_
  refine markEmpty_post.bind fun s2 k2 => .ok ?_
  have h2 := (k1.trans k2).tallied h
  refine ⟨?_, fun j hj hpos => ?_, ?_⟩
  · rw [counts_setValid]
    exact h2.balanced
  · rw [modify_eq, setEnt_ents]
    split
    · nofun
    · rw [ref_eq_of_counts (counts_setValid ..)] at hpos
      exact h2.used j hj hpos
  · rw [ref_eq_of_counts (counts_setValid ..)]
    exact h2.rootRef

end Mount

/-! ## Inodes -/

def S_IFMT : Nat := 0xf000
def S_IFDIR : Nat := 0x4000
def S_IFREG : Nat := 0x8000
def O_RDONLY : Nat := 0

def modeAttr (mode : Nat) : Nat :=
  (if mode &&& S_IFMT = S_IFDIR then ATTR_DIRECTORY.toNat else ATTR_ARCHIVE.toNat) |||
    if mode &&& O_RDONLY ≠ 0 then ATTR_READ_ONLY.toNat else 0

def DSTAT_SIZE : Nat := 280

/-- An entry as `readDir` returns it. -/
structure DStat where
  ino : Nat
  off : Int
  reclen : Nat
  type : UInt8
  name : List UInt8

namespace Mount

/-- The loop of `readDir`, which has room for `n` more entries. The offset is an `off_t`, of which
`entSearch` sees and sets the low half. -/
def readDirLoop (this : Nat) : (n : Nat) → (s : Mount) → (off : Int) →
    Kern (List DStat × Int × Mount)
  | 0, s, off => .ok ([], off, s)
  | n + 1, s, off => do
    let (found, low, s) ← s.entSearch this [] (some (u32 off))
    let off := off - u32 off + low
    match found with
    | none => .ok ([], off, s)
    | some ep =>
      let e := s.ents ep
      let type := if e.has ATTR_DIRECTORY then S_IFDIR else S_IFREG
      let (rest, off', s) ← readDirLoop this n s off
      .ok (⟨e.firstClus, off - e.off, DSTAT_SIZE, UInt8.ofNat type, e.filename⟩ :: rest, off', s)

def readDir (s : Mount) (this len : Nat) (off : Int) : Kern (Int × List DStat × Int × Mount) := do
  let (l, off, s) ← readDirLoop this len s off
  .ok (toInt (l.length * DSTAT_SIZE : Nat), l.modifyLast fun d => { d with off := 0 }, off, s)

end Mount

/-- A volume, with the number of inodes of each entry. -/
structure Inodes where
  mount : Mount
  held : Nat → Nat

namespace Inodes

/-- The operations on inodes. -/
inductive Op where
  | lookup (i : Nat) (name : List UInt8) (off : Option Nat)
  | mknod (i : Nat) (name : List UInt8) (mode : Nat)
  | readDir (i len : Nat) (off : Int)
  | nodRemove (i : Nat)
  | destroy (i : Nat)

def Op.inode : Op → Nat
  | .lookup i .. => i
  | .mknod i .. => i
  | .readDir i .. => i
  | .nodRemove i => i
  | .destroy i => i

def make (v : Inodes) (found : Option Nat) (s : Mount) : Inodes := ⟨s, Mount.opened v.held found⟩

def step (v : Inodes) : Op → Kern Inodes
  | .lookup i name off => do
    let (found, _, s) ← v.mount.entSearch i name off
    .ok (v.make found s)
  | .mknod i name mode => do
    let (found, s) ← v.mount.entCreate i name (modeAttr mode)
    .ok (v.make found s)
  | .readDir i len off => do
    let (_, _, _, s) ← v.mount.readDir i len off
    .ok { v with mount := s }
  | .nodRemove i => do .ok { v with mount := ← v.mount.entRemove i }
  | .destroy i => do
    .ok ⟨← v.mount.entRelse i, update v.held i (v.held i - 1)⟩

def Legal (v : Inodes) (op : Op) : Prop := 0 < v.held op.inode
  deriving Decidable

def Quiet (v : Inodes) : Op → Prop
  | .readDir i len off => len = 0 ∨
    ∀ r ∈ (v.mount.entSearch i [] (some (u32 off))).toOption, r.1 = none
  | _ => True

instance (v : Inodes) (op : Op) : Decidable (v.Quiet op) := by
  unfold Quiet
  split <;> infer_instance

/-- Only the root is in use, with one inode. -/
structure Mounted (v : Inodes) : Prop where
  slots : v.mount.lru.Nodup
  rootRef : (v.mount.ents v.mount.root).ref = 1
  rootParent : (v.mount.ents v.mount.root).parent = none
  idle : ∀ i, i ≠ v.mount.root → (v.mount.ents i).ref = 0
  held : ∀ i, v.held i = if i = v.mount.root then 1 else 0

/-- **The counts are accounted for**: the count of every slot but the root's is the number of inodes
that hold it and of slots in use below it, and an `ok` operation finds no slot only if an inode holds
each entry or one below it. -/
structure Accounted (ok : Inodes → Op → Prop) (v : Inodes) : Prop where
  count : ∀ i, i ≠ v.mount.root → (v.mount.ents i).ref = v.held i + v.mount.lru.countP fun j =>
    decide (0 < (v.mount.ents j).ref ∧ (v.mount.ents j).parent = some i)
  full : ∀ op, ok v op → v.step op = .error (.panic "entHit: insufficient ecache") →
    ∀ i ∈ v.mount.lru, i ≠ v.mount.root → Open v.mount.counts v.held i

variable {v v' : Inodes} {op : Op}

theorem Mounted.tallied (h : v.Mounted) : v.mount.Tallied v.held := by
  have hroot := h.rootRef
  have hidle : ∀ i j, ¬v.mount.counts.Refers i j := by
    rintro i j ⟨hpos, hparent⟩
    by_cases hj : j = v.mount.root
    · rw [hj] at hparent
      cases h.rootParent.symm.trans hparent
    · have := h.idle j hj
      change 0 < (v.mount.ents j).ref at hpos
      omega
  refine ⟨⟨fun i hi => ?_, fun i hi hpos => ?_, h.slots, ⟨fun _ => 0, fun i p hr => ?_⟩, h.rootParent⟩,
    fun i hi hpos => ?_, by omega⟩
  · rw [Counts.kids_eq_zero fun j _ => hidle i j, h.held i, if_neg hi]
    exact h.idle i hi
  · exact absurd (h.idle i hi) (Int.ne_of_gt hpos)
  · exact absurd hr (hidle p i)
  · exact absurd (h.idle i hi) (Int.ne_of_gt hpos)

theorem readDir_post {s : Mount} {held : Nat → Nat} {i len : Nat} {off : Int} (h : s.Tallied held)
    (hi : 0 < held i) (hquiet : len = 0 ∨ ∀ r ∈ (s.entSearch i [] (some (u32 off))).toOption, r.1 = none) :
    Post (fun f => f = insufficient → s.evictee = none) (fun r => r.2.2.2.Tallied held)
      (s.readDir i len off) := by
  refine Post.bind (Q := fun r => r.2.2.Tallied held) ?_ fun r hr => .ok hr
  cases len with
  | zero => exact .ok h
  | succ len =>
    have hnone := hquiet.resolve_left (Nat.succ_ne_zero len)
    have hsearch : Post _ _ (s.entSearch i [] (some (u32 off))) := h.entSearch (h.ref_pos hi)
    unfold Mount.readDirLoop
    cases heq : s.entSearch i [] (some (u32 off)) with
    | error f => exact .error (hsearch.of_error heq)
    | ok r =>
      obtain ⟨found, low, s'⟩ := r
      obtain rfl : found = none := hnone (found, low, s') (by rw [heq]; rfl)
      rcases hsearch.of_ok heq with ⟨-, -, h'⟩ | ⟨h', -⟩
      · exact .ok h'
      · exact .ok h'

/-- One operation. -/
theorem step_post (h : v.mount.Tallied v.held) (hlegal : v.Legal op) (hquiet : v.Quiet op) :
    Post (fun f => f = insufficient → v.mount.evictee = none) (fun v' => v'.mount.Tallied v'.held)
      (v.step op) := by
  cases op with
  | lookup i name off =>
    refine (h.entSearch (h.ref_pos hlegal)).bind ?_
    rintro ⟨found, off', s'⟩ (⟨-, hfound, h'⟩ | ⟨h', -⟩)
    · subst hfound
      exact .ok h'
    · exact .ok h'
  | mknod i name mode => exact (h.entCreate hlegal).bind fun r hr => .ok hr
  | readDir i len off => exact (readDir_post h hlegal hquiet).bind fun r hr => .ok hr
  | nodRemove i =>
    exact (h.entRemove.mono (fun f => Other.absurd) fun _ h' => h').bind fun s' hs => .ok hs
  | destroy i =>
    rw [← bump_drop hlegal] at h
    exact (h.entRelse.mono (fun f => Other.absurd) fun _ h' => h').bind fun s' hs => .ok hs

theorem accounted_of_tallied (h : v.mount.Tallied v.held) :
    v.Accounted fun v op => v.Legal op ∧ v.Quiet op where
  count := h.balanced.count
  full op hop hpanic i hi hroot := by
    have hev : v.mount.evictee = none := (step_post h hop.1 hop.2).of_error hpanic rfl
    have hne : (v.mount.ents i).ref ≠ 0 := by
      simpa using List.find?_eq_none.1 hev i (List.mem_reverse.2 hi)
    have hcount : (v.mount.ents i).ref = v.held i + v.mount.counts.kids v.mount.lru i :=
      h.balanced.count i hroot
    refine h.balanced.isOpen hroot ?_
    change 0 < (v.mount.ents i).ref
    omega

/-- **Reference counts over whole runs**: in every run of legal operations in which `readDir` lists
nothing, all counts are accounted for. -/
theorem accounted_of_quiet (h : Reach step (fun v op => v.Legal op ∧ v.Quiet op) Mounted v) :
    v.Accounted fun v op => v.Legal op ∧ v.Quiet op := by
  refine accounted_of_tallied ?_
  refine h.invariant (fun v => v.mount.Tallied v.held) (fun _ hv => hv.tallied) ?_
  intro v₁ v₂ op hv hop hok
  exact (step_post hv hop.1 hop.2).of_ok hok

def empty : Inodes := ⟨Mount.mounted Mount.sixClusters, fun i => if i = 0 then 1 else 0⟩

theorem mounted_empty : empty.Mounted where
  slots := by decide
  rootRef := rfl
  rootParent := rfl
  idle i hi := by
    have hents : empty.mount.ents i = { emptyEnt with valid := .unused, ref := 0 } := if_neg hi
    rw [hents]
  held _ := rfl

/-- A directory is listed while it is empty, and let go when it has a file in it. The file keeps it
in use, and the cache is full. -/
theorem accounted_fullCache : ∃ v, runWhile step (fun v op => v.Legal op ∧ v.Quiet op)
        [.mknod 0 [0x61] S_IFREG, .mknod 0 [0x62] S_IFREG, .mknod 0 [0x64] S_IFDIR,
          .readDir 2 5 0, .mknod 2 [0x66] S_IFREG, .destroy 2] empty = some v ∧
      (v.mount.ents 2).ref = 1 ∧ v.held 2 = 0 ∧
      v.Accounted fun v op => v.Legal op ∧ v.Quiet op := by
  exact Exists.imp (fun v h => ⟨h.1, h.2.2.1, h.2.2.2, accounted_of_quiet h.2.1⟩)
    (exists_reach step _ _ mounted_empty (fun v => (v.mount.ents 2).ref = 1 ∧ v.held 2 = 0)
      (by decide +kernel))

/-- **`readDir` keeps the entries it lists**: an inode holds the file `a`, and when the root has been
listed there are two references to it. -/
theorem not_accounted_listed :
    ¬∀ v, Reach step (fun v op => v.Legal op) Mounted v → v.Accounted fun v op => v.Legal op := by
  intro h
  obtain ⟨v, -, hreach, href, hheld, hkids, hroot⟩ := exists_reach step (fun v op => v.Legal op)
    [.mknod 0 [0x61] S_IFREG, .readDir 0 1 0] mounted_empty
    (fun v => (v.mount.ents 4).ref = 2 ∧ v.held 4 = 1 ∧ v.mount.lru.countP (fun j =>
      decide (0 < (v.mount.ents j).ref ∧ (v.mount.ents j).parent = some 4)) = 0 ∧
      v.mount.root = 0) (by decide +kernel)
  have hcount := (h v hreach).count 4 (by rw [hroot]; decide)
  rw [href, hheld, hkids] at hcount
  cases hcount

end Inodes

end LuoOS.Fs
