import LuoOS.Lib.Outcome
import LuoOS.Fs.Layout
import LuoOS.Fs.Directory

/-!
# What the work on the disk leaves alone

The entry cache finds an entry by its `valid`, `parent`, `off` and `filename`, and counts the
references to it. The functions of `fat.cc` on the disk change none of these, on any volume; at most
they fill the name of an entry that is not used yet. None of them takes a slot or panics for want of
one. The record of allocated clusters only grows.
-/

namespace LuoOS.Fs

open Function Outcome DirEnt

def insufficient : Fault := .panic "entHit: insufficient ecache"

def Other (f : Fault) : Prop := f ≠ insufficient
  deriving Decidable

theorem Other.absurd {f : Fault} {P : Prop} (h : Other f) (heq : f = insufficient) : P :=
  (h heq).elim

/-- What the cache knows of an entry is the same. The name of an entry that is not used does not
matter. -/
structure DirEnt.SameEntry (e e' : DirEnt) : Prop where
  ref : e'.ref = e.ref
  parent : e'.parent = e.parent
  valid : e'.valid = e.valid
  off : e'.off = e.off
  name : e.valid ≠ .unused → e'.filename = e.filename

variable {alloc : Bool} {bs : List UInt8} {n len : Nat}

namespace DirEnt

variable {sb : SuperBlock} {d : Disk} {e e1 e' : DirEnt}

theorem SameEntry.refl (e : DirEnt) : SameEntry e e := ⟨rfl, rfl, rfl, rfl, fun _ => rfl⟩

theorem SameEntry.trans (h : SameEntry e e1) (h' : SameEntry e1 e') : SameEntry e e' :=
  ⟨h'.ref.trans h.ref, h'.parent.trans h.parent, h'.valid.trans h.valid, h'.off.trans h.off,
    fun hv => (h'.name (by rw [h.valid]; exact hv)).trans (h.name hv)⟩

theorem SameEntry.symm (h : SameEntry e e') : SameEntry e' e :=
  ⟨h.ref.symm, h.parent.symm, h.valid.symm, h.off.symm,
    fun hv => (h.name (by rw [← h.valid]; exact hv)).symm⟩

theorem SameEntry.of_moved {cur cnt : Nat}
    (h : SameEntry { e with curClus := cur, clusCnt := cnt } e') : SameEntry e e' :=
  ⟨h.ref, h.parent, h.valid, h.off, h.name⟩

/-! ## One entry -/

theorem allocClus_post : Post Other (fun r => r.2.allocs = r.1 :: d.allocs) (allocClus sb d) := by
  unfold allocClus
  split
  · exact .error (by decide)
  · exact .ok rfl

theorem relocForward_post : Post Other (fun r => SameEntry e r.2.2 ∧ d.allocs <:+ r.2.1.allocs)
      (relocForward sb alloc n d e) := by
  induction n generalizing d e with
  | zero => exact .ok ⟨.refl e, List.suffix_refl _⟩
  | succ n ih =>
    unfold relocForward
    dsimp only
    split
    · split
      · refine allocClus_post.bind ?_
        rintro ⟨clus, d1⟩ hd1
        refine ih.weaken fun r h => ⟨h.1.of_moved, List.IsSuffix.trans ?_ h.2⟩
        rw [SuperBlock.fatWrite_allocs, hd1]
        exact List.suffix_cons ..
      · exact .ok ⟨⟨rfl, rfl, rfl, rfl, fun _ => rfl⟩, List.suffix_refl _⟩
    · exact ih.weaken fun r h => ⟨h.1.of_moved, h.2⟩

theorem relocRestart_post : Post Other (SameEntry e) (relocRestart sb d n e) := by
  induction n generalizing e with
  | zero => exact .ok (.refl e)
  | succ n ih =>
    unfold relocRestart
    dsimp only
    split
    · exact .error (by decide)
    · exact ih.weaken fun r h => h.of_moved

theorem relocClus_post {off : Nat} :
    Post Other (fun r => SameEntry e r.2.2 ∧ d.allocs <:+ r.2.1.allocs)
      (relocClus sb d e off alloc) := by
  refine relocForward_post.bind ?_
  rintro ⟨_ | _, d1, e1⟩ ⟨h1, hsuf⟩
  · exact .ok ⟨h1, hsuf⟩
  refine Post.bind (Q := SameEntry e1) ?_ fun e2 h2 => .ok ⟨h1.trans h2, hsuf⟩
  unfold relocBack
  split
  · exact relocRestart_post.weaken fun r h => h.of_moved
  · exact .ok (.refl _)

theorem truncLoop_post {fuel clus : Nat} :
    Post Other (fun d' => d.allocs <:+ d'.allocs) (truncLoop sb fuel d clus) := by
  induction fuel generalizing d clus with
  | zero => exact .error (by decide)
  | succ fuel ih =>
    unfold truncLoop
    split
    · refine ih.weaken fun d' h => ?_
      rwa [SuperBlock.freeClus, SuperBlock.fatWrite_allocs] at h
    · exact .ok (List.suffix_refl _)

theorem entTrunc_post :
    Post Other (fun r => SameEntry e r.2 ∧ d.allocs <:+ r.1.allocs) (entTrunc sb d e) := by
  refine Post.bind (Q := fun d1 => d.allocs <:+ d1.allocs) ?_
    fun d1 h => .ok ⟨⟨rfl, rfl, rfl, rfl, fun _ => rfl⟩, h⟩
  unfold freeChain
  split
  · exact .ok (List.suffix_refl _)
  · exact truncLoop_post

theorem rwClusRead_post {c off : Nat} : Post Other (fun _ => True) (sb.rwClusRead d c off len) := by
  unfold SuperBlock.rwClusRead
  split
  · exact .error (by decide)
  · exact .ok trivial

theorem rwClusWrite_post {c off : Nat} :
    Post Other (fun d' => d'.allocs = d.allocs) (sb.rwClusWrite d c off bs) := by
  unfold SuperBlock.rwClusWrite
  split
  · exact .error (by decide)
  · exact .ok rfl

theorem resolveLink_post : Post Other (SameEntry e) (resolveLink sb d e) := by
  unfold resolveLink
  split
  · exact rwClusRead_post.bind fun li _ => .ok ⟨rfl, rfl, rfl, rfl, fun _ => rfl⟩
  · exact .ok (.refl e)

end DirEnt

namespace Mount

variable {s s1 s' : Mount} {i this off count : Nat} {d' : Disk} {e' e : DirEnt}

@[simp] theorem setEnt_sb : (s.setEnt i d' e').sb = s.sb := rfl
@[simp] theorem setEnt_disk : (s.setEnt i d' e').disk = d' := rfl
@[simp] theorem setEnt_lru : (s.setEnt i d' e').lru = s.lru := rfl
@[simp] theorem setEnt_root : (s.setEnt i d' e').root = s.root := rfl

@[simp] theorem setEnt_ents (j : Nat) :
    (s.setEnt i d' e').ents j = if j = i then e' else s.ents j := update_apply ..

theorem setEnt_at : (s.setEnt i d' e').ents i = e' := update_self ..

theorem modify_eq (s : Mount) (i : Nat) (f : DirEnt → DirEnt) :
    s.modify i f = s.setEnt i s.disk (f (s.ents i)) := rfl

theorem setEnt_self (s : Mount) (i : Nat) : s.setEnt i s.disk (s.ents i) = s := by
  unfold setEnt
  rw [update_eq_self]

/-- Work on the disk, which leaves the cache as it is. -/
structure Kept (s s' : Mount) : Prop where
  lru : s'.lru = s.lru
  root : s'.root = s.root
  ents : ∀ j, SameEntry (s.ents j) (s'.ents j)
  allocs : s.disk.allocs <:+ s'.disk.allocs

theorem Kept.refl (s : Mount) : Kept s s := ⟨rfl, rfl, fun _ => .refl _, List.suffix_refl _⟩

theorem Kept.trans (k : Kept s s1) (k' : Kept s1 s') : Kept s s' :=
  ⟨k'.lru.trans k.lru, k'.root.trans k.root, fun j => (k.ents j).trans (k'.ents j),
    k.allocs.trans k'.allocs⟩

theorem kept_setEnt (h : SameEntry (s.ents i) e') (hd : s.disk.allocs <:+ d'.allocs) :
    Kept s (s.setEnt i d' e') := by
  refine ⟨rfl, rfl, fun j => ?_, hd⟩
  rw [setEnt_ents]
  split
  · rename_i hj
    rw [hj]
    exact h
  · exact .refl _

/-- The cache finds the same entries. -/
theorem Kept.fits (k : Kept s s') (name : List UInt8) :
    s'.fits this name off = s.fits this name off := by
  funext j
  have h := k.ents j
  unfold Mount.fits
  rw [h.valid, h.parent, h.off]
  by_cases hv : (s.ents j).valid = .unused
  · simp [hv]
  · rw [h.name hv]

theorem Kept.evictee (k : Kept s s') : s'.evictee = s.evictee := by
  have href : (fun j => decide ((s'.ents j).ref = 0)) = fun j => decide ((s.ents j).ref = 0) := by
    funext j
    rw [(k.ents j).ref]
  unfold Mount.evictee
  rw [k.lru, href]

/-! ## A directory -/

theorem relocClus_post : Post Other (fun r => Kept s r.2) (s.relocClus i off alloc) := by
  refine DirEnt.relocClus_post.bind ?_
  rintro ⟨r, d, e⟩ ⟨h, hd⟩
  exact .ok (kept_setEnt h hd)

theorem readCur_post : Post Other (fun _ => True) (s.readCur i off len) :=
  rwClusRead_post

theorem writeCur_post : Post Other (Kept s) (s.writeCur i off bs) :=
  rwClusWrite_post.bind fun _ hd => .ok ⟨rfl, rfl, fun _ => .refl _, hd ▸ List.suffix_refl _⟩

theorem resolveLink_post : Post Other (Kept s) (s.resolveLink i) :=
  DirEnt.resolveLink_post.bind fun _ h => .ok (kept_setEnt h (List.suffix_refl _))

theorem entTrunc_post : Post Other (Kept s) (s.entTrunc i) := by
  refine DirEnt.entTrunc_post.bind ?_
  rintro ⟨d, e⟩ ⟨h, hd⟩
  exact .ok (kept_setEnt h hd)

theorem addLong_post {de : List UInt8} {islne : Bool} (hv : e.valid = .unused) :
    Post Other (fun r => SameEntry e r.1) (addLong de e islne count) := by
  unfold addLong
  dsimp only
  split
  · exact .error (by decide)
  · exact .ok ⟨rfl, rfl, rfl, rfl, fun hne => (hne hv).elim⟩

theorem entNextLoop_post {fuel cnt : Nat} {islne : Bool}
    (hv : e.valid = .unused) : Post Other (fun r => Kept s r.2.2.2 ∧ SameEntry e r.2.2.1)
      (entNextLoop this fuel s e off cnt islne count) := by
  induction fuel generalizing s e off cnt islne count with
  | zero => exact .error (by decide)
  | succ fuel ih =>
    refine relocClus_post.bind ?_
    rintro ⟨off2, s1⟩ k1
    dsimp only at k1 ⊢
    split
    · exact .ok ⟨k1, .refl e⟩
    refine readCur_post.bind fun de _ => ?_
    split
    · exact .ok ⟨k1, .refl e⟩
    split
    · exact (ih hv).weaken fun r h => ⟨k1.trans h.1, h.2⟩
    split
    · exact .ok ⟨k1, .refl e⟩
    split
    · refine (addLong_post hv).bind ?_
      rintro ⟨e1, islne1, count1⟩ h1
      exact (ih (h1.valid.trans hv)).weaken fun r h => ⟨k1.trans h.1, h1.trans h.2⟩
    split
    · exact .ok ⟨k1, rfl, rfl, rfl, rfl, fun _ => rfl⟩
    · exact .ok ⟨k1, rfl, rfl, rfl, rfl, fun hne => (hne hv).elim⟩

theorem entNext_post :
    Post Other (fun r => Kept s r.2.2.2 ∧ SameEntry e r.2.2.1) (s.entNext this e off count) := by
  unfold Mount.entNext
  split
  · exact .error (by decide)
  split
  · exact .error (by decide)
  split
  · exact .error (by decide)
  split
  · exact .ok ⟨.refl s, .refl e⟩
  rename_i hv _ _
  rw [not_not] at hv
  refine resolveLink_post.bind fun s1 k1 => ?_
  refine (entNextLoop_post (e := { e with filename := zeros (FAT32_MAX_FILENAME + 1) }) hv).weaken ?_
  intro r h
  exact ⟨k1.trans h.1, h.2.ref, h.2.parent, h.2.valid, h.2.off, fun hne => (hne hv).elim⟩

/-! ## Writing -/

theorem parentUpdate_post : Post Other (Kept s) (s.parentUpdate i) := by
  unfold Mount.parentUpdate
  split
  · exact .ok (.refl s)
  split
  · exact .error (by decide)
  refine relocClus_post.bind ?_
  rintro ⟨r1, s1⟩ k1
  refine readCur_post.bind fun order _ => ?_
  refine relocClus_post.bind ?_
  rintro ⟨r2, s2⟩ k2
  refine readCur_post.bind fun de _ => ?_
  refine writeCur_post.bind fun s3 k3 => .ok ?_
  exact ((k1.trans k2).trans k3).trans
    (kept_setEnt ⟨rfl, rfl, rfl, rfl, fun _ => rfl⟩ (List.suffix_refl _))

theorem lastRelse_post : Post Other (Kept s) (s.lastRelse i) := by
  unfold Mount.lastRelse
  split
  · exact entTrunc_post
  · exact parentUpdate_post

theorem writeRecord_post {de : List UInt8} : Post Other (Kept s) (s.writeRecord this off de) := by
  refine relocClus_post.bind ?_
  rintro ⟨r, s1⟩ k1
  exact writeCur_post.weaken fun s2 k2 => k1.trans k2

theorem writeLong_post {filename : List UInt8} {entcnt : Nat} {sum : UInt8} :
    Post Other (fun r => Kept s r.2) (writeLong this filename entcnt sum n s off) := by
  induction n generalizing s off with
  | zero => exact .ok (.refl s)
  | succ n ih =>
    refine writeRecord_post.bind fun s1 k1 => ?_
    exact ih.weaken fun r k => k1.trans k

theorem entCreateOnDisk_post : Post Other (Kept s) (s.entCreateOnDisk this e off) := by
  unfold Mount.entCreateOnDisk
  split
  · exact .error (by decide)
  split
  · exact .error (by decide)
  split
  · exact writeRecord_post
  · refine writeLong_post.bind ?_
    rintro ⟨off1, s1⟩ k1
    exact writeRecord_post.weaken fun s2 k2 => k1.trans k2

theorem initEnt_post {ep attr : Nat} : Post Other (Kept s) (s.initEnt this ep attr) := by
  unfold Mount.initEnt
  split
  · refine allocClus_post.bind ?_
    rintro ⟨clus, d⟩ hd
    refine entCreateOnDisk_post.bind fun s1 k1 => ?_
    refine entCreateOnDisk_post.weaken fun s2 k2 => Kept.trans ?_ (k1.trans k2)
    exact kept_setEnt ⟨rfl, rfl, rfl, rfl, fun _ => rfl⟩ (hd ▸ List.suffix_cons ..)
  · exact .ok (kept_setEnt ⟨rfl, rfl, rfl, rfl, fun _ => rfl⟩ (List.suffix_refl _))

theorem markEmpty_post {p off2 : Nat} : Post Other (Kept s) (markEmpty p n s off off2) := by
  induction n generalizing s off off2 with
  | zero => exact .ok (.refl s)
  | succ n ih =>
    refine writeCur_post.bind fun s1 k1 => ?_
    refine relocClus_post.bind ?_
    rintro ⟨r, s2⟩ k2
    exact ih.weaken fun s3 k3 => (k1.trans k2).trans k3

/-! ## Letting go -/

theorem entDup_ents (s : Mount) (i j : Nat) : (s.entDup i).ents j =
    if j = i then { s.ents i with ref := (s.ents i).ref + 1 } else s.ents j := by
  unfold Mount.entDup
  rw [modify_eq, setEnt_ents]

theorem unref_ents (s : Mount) (i j : Nat) : (s.unref i).ents j =
    if j = i then { s.ents i with ref := (s.ents i).ref - 1 } else s.ents j := by
  unfold Mount.unref
  rw [modify_eq, setEnt_ents]

theorem insertBehind_perm (root i : Nat) (l : List Nat) : (insertBehind root i l).Perm (i :: l) := by
  induction l with
  | nil => exact .refl _
  | cons j l ih =>
    unfold insertBehind
    split
    · exact .swap ..
    · exact (ih.cons j).trans (.swap ..)

def behindRoot (s : Mount) (i : Nat) : Mount :=
  { s.entDup s.root with lru := insertBehind s.root i (s.lru.erase i) }

/-- One round of `entRelse`. An entry that was held once is held by nobody after it, so its directory
is the next to let go. -/
theorem entRelseLoop_succ (fuel : Nat) (s : Mount) (i : Nat) : entRelseLoop (fuel + 1) s i =
    if i ≠ s.root ∧ (s.ents i).valid ≠ .unused ∧ (s.ents i).ref = 1 then
      (s.behindRoot i).lastRelse i >>= fun s1 =>
        (s1.ents i).parent.elim (.error .wildPointer) (entRelseLoop fuel (s1.unref i))
    else .ok ((s.entDup s.root).unref i) := by
  have hent : i ≠ s.root → (s.entDup s.root).ents i = s.ents i := fun hi => by
    rw [entDup_ents, if_neg hi]
  refine ite_congr (propext (and_congr_right fun hi => by rw [hent hi])) (fun hcond => ?_) fun _ => rfl
  change (s.behindRoot i).lastRelse i >>= _ = _
  cases hlast : (s.behindRoot i).lastRelse i with
  | error => rfl
  | ok s1 =>
    have hone : (s1.ents i).ref = 1 := by
      rw [((lastRelse_post.of_ok hlast).ents i).ref]
      exact (congrArg DirEnt.ref (hent hcond.1)).trans hcond.2.2
    rw [ok_bind, ok_bind, if_pos (by rw [unref_ents, if_pos rfl]; dsimp only; omega)]
    cases (s1.ents i).parent <;> rfl

end Mount

end LuoOS.Fs
