import Mathlib.Data.List.Perm.Subperm
import LuoOS.Fs.Content

/-!
# Files are independent byte arrays

The abstract store maps each file to a list of bytes; reading returns a slice of one and writing
splices bytes into one. `entRead` and `entWrite`, in any interleaving on the regular files of a
volume, do exactly that while there are free clusters (`runFileOps_refines`). Both return a `uint`
number of bytes as an `int`, so the values agree while less than `2 ^ 31` bytes are moved at once.
-/

namespace LuoOS.Fs

open ChainTable DirEnt Function

/-- A read or a write of a file. -/
inductive FileOp where
  | read (i off len : Nat)
  | write (i : Nat) (bs : List UInt8) (off : Nat)

abbrev Out := Int × List UInt8

/-! ## The abstract store -/

abbrev Store := Nat → List UInt8

namespace Store

def op (σ : Store) : FileOp → Out × Store
  | .read i off len =>
    let bs := ((σ i).drop off).take len
    ((bs.length, bs), σ)
  | .write i bs off => ((bs.length, []), update σ i (splice (σ i) off bs))

def runOps : List FileOp → Store → List Out × Store
  | [], σ => ([], σ)
  | op :: ops, σ =>
    let rest := runOps ops (σ.op op).2
    ((σ.op op).1 :: rest.1, rest.2)

end Store

/-! ## The file system -/

namespace Mount

def fileOp (s : Mount) : FileOp → Kern (Out × Mount)
  | .read i off len => do
    let (r, bs, d, e) ← DirEnt.entRead s.sb s.disk (s.ents i) off len
    .ok ((r, bs), s.setEnt i d e)
  | .write i bs off => do
    let (r, d, e) ← DirEnt.entWrite s.sb s.disk (s.ents i) bs off
    .ok ((r, []), s.setEnt i d e)

def runFileOps : List FileOp → Mount → Kern (List Out × Mount)
  | [], s => .ok ([], s)
  | op :: ops, s => do
    let (out, s) ← s.fileOp op
    let (outs, s) ← runFileOps ops s
    .ok (out :: outs, s)

end Mount

def SuperBlock.chainOf (sb : SuperBlock) (d : Disk) (first : Nat) : List Nat :=
  follow (sb.fat d) (fun c => 2 ≤ c && c < FAT32_EOC) sb.dataClusCnt first

/-- What the callers may do: operations on one of the files, within a `uint`, not beyond the end,
and with enough free clusters for the bytes. -/
def FileOp.Legal (files : List Nat) (s : Mount) : FileOp → Prop
  | .read i off len => i ∈ files ∧ off + len < 2 ^ 32
  | .write i bs off =>
    i ∈ files ∧ off ≤ (s.ents i).fileSize ∧ off + bs.length ≤ 0xffffffff ∧
      ((s.ents i).firstClus = 0 → 0 < s.sb.freeCount s.disk) ∧
      off + bs.length ≤ s.sb.bytsPerClus *
        ((s.sb.chainOf s.disk (s.ents i).firstClus).length + s.sb.freeCount s.disk)

def FileOp.Short (s : Mount) : FileOp → Prop
  | .read i off len => min len ((s.ents i).fileSize - off) < 2 ^ 31
  | .write _ bs _ => bs.length < 2 ^ 31

instance (files : List Nat) (s : Mount) (op : FileOp) : Decidable (op.Legal files s) := by
  unfold FileOp.Legal
  split <;> infer_instance

instance (s : Mount) (op : FileOp) : Decidable (op.Short s) :=
  match op with
  | .read .. | .write .. => inferInstanceAs (Decidable (_ < _))

def Admits (files : List Nat) (ok : Mount → FileOp → Prop) : List FileOp → Mount → Prop
  | [], _ => True
  | op :: ops, s => op.Legal files s ∧ ok s op ∧
    match s.fileOp op with
    | .ok (_, s') => Admits files ok ops s'
    | .error _ => True

instance Admits.decidable (files : List Nat) (ok : Mount → FileOp → Prop)
    [∀ s op, Decidable (ok s op)] : ∀ ops s, Decidable (Admits files ok ops s)
  | [], _ => isTrue trivial
  | op :: ops, s =>
    have : Decidable (match s.fileOp op with
        | .ok (_, s') => Admits files ok ops s'
        | .error _ => True) :=
      match s.fileOp op with
      | .ok (_, s') => Admits.decidable files ok ops s'
      | .error _ => isTrue trivial
    inferInstanceAs (Decidable (_ ∧ _ ∧ _))

/-- The files have the contents `σ`, in chains that are apart. -/
structure FileVolume (s : Mount) (files : List Nat) (σ : Store) : Prop where
  geometry : s.sb.Geometry
  low : Low s.sb s.disk
  regular : ∀ i ∈ files, (s.ents i).Regular
  chains : ∃ own : Nat → List Nat,
    (∀ i ∈ files, Holds s.sb s.disk (s.ents i) (own i) (σ i)) ∧
      ∀ i ∈ files, ∀ j ∈ files, i ≠ j → ∀ c ∈ own i, c ∉ own j

/-! ## One operation -/

variable {op : FileOp}

section Step

variable {s : Mount} {files cs : List Nat} {σ : Store} {sb : SuperBlock} {d : Disk}

/-- A chain has no more clusters than the volume. -/
theorem chain_length_le (h : IsChain sb.marks (sb.fat d) cs) : cs.length ≤ sb.dataClusCnt := by
  have hsub : cs ⊆ List.range' 2 sb.dataClusCnt := fun c hc =>
    SuperBlock.mem_dataClusters.2 (h.node c hc).1
  have hle := (h.nodup.subperm hsub).length_le
  rw [List.length_range'] at hle
  exact hle

theorem chainOf_eq {e : DirEnt} (h : Chained sb d e cs) : sb.chainOf d e.firstClus = cs := by
  by_cases hnil : cs = []
  · rw [h.empty hnil, hnil]
    exact follow_of_not rfl _
  refine h.chain.follow_eq ?_ ?_ (h.cursor hnil).first (chain_length_le h.chain)
  · intro x hx
    rw [Bool.and_eq_true, decide_eq_true_iff, decide_eq_true_iff]
    exact ⟨hx.1.1, hx.2⟩
  · intro x hx
    rw [Bool.and_eq_false_iff, decide_eq_false_iff_not, decide_eq_false_iff_not]
    exact Or.inr (Nat.not_lt.2 hx.1)

theorem FileVolume.update (v : FileVolume s files σ) {own : Nat → List Nat} {i : Nat} {d' : Disk}
    {e' : DirEnt} {cs' : List Nat} {f' : List UInt8}
    (hown : ∀ i ∈ files, Holds s.sb s.disk (s.ents i) (own i) (σ i))
    (hapart : ∀ i ∈ files, ∀ j ∈ files, i ≠ j → ∀ c ∈ own i, c ∉ own j) (hi : i ∈ files)
    (t : s.sb.Touches s.disk d' (own i) cs') (hnew : Holds s.sb d' e' cs' f')
    (hreg : e'.Regular) : FileVolume (s.setEnt i d' e') files (update σ i f') := by
  -- The clusters that were appended were free, so no other file has them.
  have hother : ∀ j ∈ files, j ≠ i → ∀ c ∈ own j, c ∉ cs' := by
    intro j hj hji c hc hmem
    obtain ⟨new, rfl, hfresh⟩ := t.grows.fresh
    rcases List.mem_append.1 hmem with hold | hnew
    · exact hapart j hj i hi hji c hc hold
    · exact (hown j hj).chain.next_ne_nil hc (hfresh c hnew).2
  refine ⟨v.geometry, v.low.touches t, ?_, Function.update own i cs', ?_, ?_⟩
  · intro j hj
    unfold Mount.setEnt
    dsimp only
    by_cases hji : j = i
    · rw [hji, update_self]
      exact hreg
    · rw [update_of_ne hji]
      exact v.regular j hj
  · intro j hj
    unfold Mount.setEnt
    dsimp only
    by_cases hji : j = i
    · rw [hji, update_self, update_self, update_self]
      exact hnew
    · rw [update_of_ne hji, update_of_ne hji, update_of_ne hji]
      exact (hown j hj).frame v.geometry t (hother j hj hji)
  · intro j hj k hk hjk c hc
    by_cases hji : j = i
    · subst hji
      rw [update_self] at hc
      rw [update_of_ne hjk.symm]
      exact fun hck => hother k hk hjk.symm c hck hc
    · rw [update_of_ne hji] at hc
      by_cases hki : k = i
      · subst hki
        rw [update_self]
        exact hother j hj hji c hc
      · rw [update_of_ne hki]
        exact hapart j hj k hk hjk c hc

theorem SameFile.regular {e e' : DirEnt} (h : SameFile e e') (hr : e.Regular) : e'.Regular := by
  rw [h]
  exact hr

theorem SameName.regular {e e' : DirEnt} (h : SameName e e') (hr : e.Regular) : e'.Regular := by
  rw [h]
  exact hr

/-- A legal operation returns, and does to the files what it does to the store. The number that it
returns is an `int`. -/
theorem FileVolume.step (v : FileVolume s files σ) (hdev : s.sb.dev = 0)
    (hlegal : op.Legal files s) :
    ∃ s', s.fileOp op = .ok ((toInt (σ.op op).1.1, (σ.op op).1.2), s') ∧ s'.sb = s.sb ∧
      FileVolume s' files (σ.op op).2 := by
  obtain ⟨own, hown, hapart⟩ := v.chains
  cases op with
  | read i off len =>
    obtain ⟨hi, hlt⟩ := hlegal
    obtain ⟨e', heq, hsame, hholds⟩ := entRead_eq v.geometry (hown i hi) (v.regular i hi) hlt
    refine ⟨s.setEnt i s.disk e', ?_, rfl, ?_⟩
    · unfold Mount.fileOp Store.op
      dsimp only
      rw [heq, ok_bind]
    · have hup := v.update hown hapart hi (.refl (hown i hi).chain) hholds
        (SameFile.regular hsame (v.regular i hi))
      rw [update_eq_self] at hup
      exact hup
  | write i bs off =>
    obtain ⟨hi, hoff, hlen, hfirst, hroom⟩ := hlegal
    have hh := hown i hi
    obtain ⟨-, hro, hlink⟩ := v.regular i hi
    rw [chainOf_eq hh.toChained] at hroom
    obtain ⟨d', e', cs', heq, w⟩ :=
      entWrite_room v.geometry hdev hh.toChained v.low hlink hro hoff hlen hfirst hroom
    refine ⟨s.setEnt i d' e', ?_, rfl, ?_⟩
    · unfold Mount.fileOp Store.op
      dsimp only
      rw [heq, ok_bind]
    · exact v.update hown hapart hi w.touches (hh.written w (hh.size ▸ hoff) (by omega))
        (SameName.regular w.name (v.regular i hi))

theorem FileVolume.short (v : FileVolume s files σ) (hlegal : op.Legal files s)
    (hshort : op.Short s) : toInt (σ.op op).1.1 = (σ.op op).1.1 := by
  obtain ⟨own, hown, -⟩ := v.chains
  cases op with
  | read i off len =>
    have hsize := (hown i hlegal.1).size
    have hlen : (((σ i).drop off).take len).length < 2 ^ 31 := by
      rw [List.length_take, List.length_drop, ← hsize]
      exact hshort
    exact toInt_of_lt hlen
  | write i bs off => exact toInt_of_lt hshort

end Step

/-! ## Every interleaving -/

/-- **Files are independent byte arrays**: on a well-formed volume, every interleaving of legal
reads and writes of less than `2 ^ 31` bytes each does what it does on the abstract store. -/
theorem runFileOps_refines {s : Mount} {files : List Nat} {σ : Store} (v : FileVolume s files σ)
    (hdev : s.sb.dev = 0) {ops : List FileOp} (hadm : Admits files FileOp.Short ops s) :
    ∃ s', s.runFileOps ops = .ok ((σ.runOps ops).1, s') ∧
      FileVolume s' files (σ.runOps ops).2 := by
  induction ops generalizing s σ with
  | nil => exact ⟨s, rfl, v⟩
  | cons op ops ih =>
    obtain ⟨hlegal, hshort, hrest⟩ := hadm
    obtain ⟨s₁, heq, hsb, v₁⟩ := v.step hdev hlegal
    rw [heq] at hrest
    obtain ⟨s', hrun, v'⟩ := ih v₁ (by rw [hsb]; exact hdev) hrest
    refine ⟨s', ?_, v'⟩
    unfold Mount.runFileOps Store.runOps
    rw [heq, ok_bind]
    dsimp only
    rw [hrun, ok_bind, v.short hlegal hshort]

/-! ## Empty volumes -/

def blank (sb : SuperBlock) : Disk where
  bcache dev sec i := if dev = 0 ∧ sec = sb.rsvdSecCnt ∧ i < 8 then 0xff else 0
  allocs := []

def emptyEnt : DirEnt where
  filename := []
  attr := ATTR_ARCHIVE
  firstClus := 0
  fileSize := 0
  curClus := 0
  clusCnt := 0
  dirty := false
  valid := .live
  ref := 1
  off := 0
  parent := none

def fresh (sb : SuperBlock) : Mount where
  sb := sb
  disk := blank sb
  ents := fun _ => emptyEnt
  lru := []
  root := 0

section Blank

variable {sb : SuperBlock}

theorem fat_blank (g : sb.Geometry) {c : Nat} (hc : c ≤ sb.dataClusCnt + 1) :
    sb.fat (blank sb) c = if c < 2 then 0xffffffff else 0 := by
  obtain ⟨hsec, hoff⟩ := g.entry_sector hc
  unfold SuperBlock.fat blank word
  rw [if_neg (Nat.not_lt.2 hc), hsec, hoff]
  dsimp only
  by_cases hlow : c < 2
  · rw [if_pos (by omega), if_pos (by omega), if_pos (by omega), if_pos (by omega), if_pos hlow]
    rfl
  · rw [if_neg (by omega), if_neg (by omega), if_neg (by omega), if_neg (by omega), if_neg hlow]
    rfl

theorem freeCount_blank (g : sb.Geometry) : sb.freeCount (blank sb) = sb.dataClusCnt := by
  have hall : ∀ c ∈ List.range' 2 sb.dataClusCnt, decide (sb.fat (blank sb) c = 0) = true := by
    intro c hc
    have hr := SuperBlock.mem_dataClusters.1 hc
    rw [fat_blank g hr.2, if_neg (Nat.not_lt.2 hr.1)]
    rfl
  unfold SuperBlock.freeCount
  rw [List.countP_eq_length.2 hall, List.length_range']

theorem fileVolume_fresh (g : sb.Geometry) (files : List Nat) :
    FileVolume (fresh sb) files fun _ => [] where
  geometry := g
  low := by
    refine ⟨?_, ?_⟩
    · change sb.fat (blank sb) 0 ≠ 0
      rw [fat_blank g (by omega)]
      decide
    · change sb.fat (blank sb) 1 ≠ 0
      rw [fat_blank g (by omega)]
      decide
  regular _ _ := (by decide : emptyEnt.Regular)
  chains := by
    refine ⟨fun _ => [], fun i _ => ?_, fun _ _ _ _ _ _ hc => absurd hc List.not_mem_nil⟩
    exact ⟨⟨.nil, fun _ => rfl, fun h => absurd rfl h⟩, rfl, by decide, Nat.le_refl 0, nofun⟩

end Blank

/-- Two files are written in turn, across the end of a cluster, and read back. -/
theorem runFileOps_refines_small : ∃ s',
    (fresh smallBlock).runFileOps [.write 0 [1, 2, 3] 0, .write 1 (List.replicate 511 7) 0,
        .write 1 [8, 9] 511, .write 0 [5] 1, .read 1 510 9, .read 0 0 2] =
      .ok ([(3, []), (511, []), (2, []), (1, []), (3, [7, 8, 9]), (2, [1, 5])], s') := by
  have hadm : Admits [0, 1] FileOp.Short [.write 0 [1, 2, 3] 0, .write 1 (List.replicate 511 7) 0,
      .write 1 [8, 9] 511, .write 0 [5] 1, .read 1 510 9, .read 0 0 2] (fresh smallBlock) := by
    decide +kernel
  obtain ⟨s', hrun, -⟩ :=
    runFileOps_refines (fileVolume_fresh smallBlock_geometry [0, 1]) rfl hadm
  have hout : (Store.runOps [.write 0 [1, 2, 3] 0, .write 1 (List.replicate 511 7) 0,
      .write 1 [8, 9] 511, .write 0 [5] 1, .read 1 510 9, .read 0 0 2] fun _ => []).1 =
      [(3, []), (511, []), (2, []), (1, []), (3, [7, 8, 9]), (2, [1, 5])] := by
    decide +kernel
  rw [hout] at hrun
  exact ⟨s', hrun⟩

def largeBlock : SuperBlock :=
  { smallBlock with
    secPerClus := 128
    totSec := 4194562
    fatSz := 257
    secPerClus_lt := by decide
    totSec_lt := by decide
    fatSz_lt := by decide }

theorem largeBlock_geometry : largeBlock.Geometry :=
  ⟨rfl, by decide, by decide, by decide, by decide +kernel, by decide +kernel⟩

theorem admits_singleton {files : List Nat} {ok : Mount → FileOp → Prop} {s : Mount}
    (hlegal : op.Legal files s) (hok : ok s op) : Admits files ok [op] s := by
  refine ⟨hlegal, hok, ?_⟩
  split <;> exact True.intro

theorem runFileOps_singleton {s s1 : Mount} {out : Out}
    (h : s.fileOp op = .ok (out, s1)) : s.runFileOps [op] = .ok ([out], s1) := by
  unfold Mount.runFileOps
  rw [h, ok_bind]
  rfl

/-- **A write of `2 ^ 31` bytes reports a failure**: it writes all of them and returns `-2 ^ 31`. -/
theorem not_refines_long_write : ¬∀ (s : Mount) (files : List Nat) (σ : Store) (ops : List FileOp),
    FileVolume s files σ → s.sb.dev = 0 → Admits files (fun _ _ => True) ops s →
      ∃ s', s.runFileOps ops = .ok ((σ.runOps ops).1, s') ∧
        FileVolume s' files (σ.runOps ops).2 := by
  intro h
  have hlen : (List.replicate (2 ^ 31) (0 : UInt8)).length = 2 ^ 31 := List.length_replicate
  have hfree : (fresh largeBlock).sb.freeCount (fresh largeBlock).disk = 32768 := by
    refine (freeCount_blank largeBlock_geometry).trans ?_
    decide +kernel
  have hsize : (fresh largeBlock).sb.bytsPerClus = 65536 := by decide +kernel
  generalize List.replicate (2 ^ 31) (0 : UInt8) = bs at hlen
  have hlegal : (FileOp.write 0 bs 0).Legal [0] (fresh largeBlock) := by
    refine ⟨List.mem_singleton_self 0, Nat.le_refl 0, ?_, fun _ => ?_, ?_⟩
    · rw [hlen]
      decide
    · rw [hfree]
      decide
    · rw [hlen, hsize, hfree]
      exact Nat.le_trans (by decide) (Nat.mul_le_mul_left 65536 (Nat.le_add_left 32768 _))
  have v := fileVolume_fresh largeBlock_geometry [0]
  have hdev : (fresh largeBlock).sb.dev = 0 := rfl
  -- the volume is a variable from here on: nothing below may evaluate it
  generalize fresh largeBlock = s at hlegal v hdev
  obtain ⟨s₁, hop, -, -⟩ := v.step hdev hlegal
  have hadm : Admits [0] (fun _ _ => True) [.write 0 bs 0] s := admits_singleton hlegal True.intro
  obtain ⟨s', hrun, -⟩ := h s [0] (fun _ => []) _ v hdev hadm
  rw [runFileOps_singleton hop] at hrun
  have hout := (Prod.mk.inj (List.cons.inj (Prod.mk.inj (Except.ok.inj hrun)).1).1).1
  change toInt (bs.length : Int) = bs.length at hout
  rw [hlen] at hout
  exact absurd hout (by decide +kernel)

end LuoOS.Fs
