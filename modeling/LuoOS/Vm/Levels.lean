import LuoOS.Lib.Runs
import LuoOS.Vm.Agree
import LuoOS.Vm.EntryBits
import LuoOS.Vm.SystemPages

/-!
# Walks stay within three levels

A valid entry of level 0 without `r`, `w` and `x` sends a walk one level further down, into a frame
of a mapping. A table is `Typed` if its entries are valid exactly if they have the bits of a leaf;
the operations keep that for all ranges if the permissions they are given are of that kind, and on
typed tables no walk is wild. The permissions come from the `prot` argument of `mmap` and
`mprotect`.
-/

namespace LuoOS.Vm

open KeyedSet

/-! ## The three levels -/

abbrev Typed {level : Nat} (table : Table level) : Prop := Each Perm.Ok table

def Entry.Lowest : {level : Nat} → Entry level → Perm → Prop
  | 0, page perm _, q => perm = q
  | _ + 1, page _ _, _ => False
  | _ + 1, table _ _ sub, q => ∃ i, (sub i).Lowest q

theorem Entry.Lowest.ok {level : Nat} {q : Perm} (entry : Entry level)
    (h : entry.Each Perm.Ok) (hq : entry.Lowest q) : q.Ok := by
  induction entry with
  | @page level perm ppn =>
    cases level with
    | zero =>
      obtain rfl : perm = q := hq
      exact h
    | succ level => exact absurd hq id
  | table perm node sub ih =>
    obtain ⟨i, hi⟩ := hq
    exact ih i (h i) hi

/-- **Walks of the table stay within three levels**: a valid entry of level 0 is a leaf, and no walk
takes the frame of an entry for a node. -/
structure ThreeLevels (root : Table 2) : Prop where
  lowest : ∀ i q, (root i).Lowest q → q.v = true → q.isLeaf = true
  trans : ∀ vpn, trans root vpn ≠ .error .wildPointer
  create : ∀ vpn ppn pages perm, Perm.Ok perm →
    createMapping 2 root vpn ppn pages perm ≠ .error .wildPointer
  remove : ∀ vpn pages, removeMapping 2 root vpn pages ≠ .error .wildPointer

theorem Typed.threeLevels {root : Table 2} (h : Typed root) : ThreeLevels root where
  lowest i _ hq hv := (Entry.Lowest.ok _ (h i) hq).symm.trans hv
  trans vpn := Entry.trans_ne_wild tells_ok.marks _ (h _) vpn
  create vpn ppn pages perm hok :=
    (createMapping_tame tells_ok 2 root vpn ppn pages perm h hok).ne_wild
  remove vpn pages := (removeMapping_tame tells_ok.marks 2 root vpn pages h).ne_wild

/-! ## Address spaces -/

namespace VMAR

/-- The table and the mappings have the bits of leaves. -/
structure AllTyped (s : VMAR) : Prop where
  table : Typed s.pagetable
  perms : ∀ m ∈ s.mappings, m.perm.Ok

section

variable {s s' : VMAR} {m : PageMapping} {region : Segment} {perm : Perm}

theorem mapLoop_typed (hok : m.perm.Ok) : ∀ (fuel i : Nat) (table table' : Table 2), Typed table →
    mapLoop m fuel i table = .ok table' → Typed table' := by
  intro fuel
  induction fuel with
  | zero =>
    intro i table table' h hl
    unfold mapLoop at hl
    split at hl
    · cases hl
    · cases hl
      exact h
  | succ fuel ih =>
    intro i table table' h hl
    unfold mapLoop at hl
    split at hl
    · obtain ⟨⟨off, ppn, pages⟩, -, hl⟩ := bind_eq_ok hl
      obtain ⟨t, hc, hl⟩ := bind_eq_ok hl
      exact ih _ _ _ (createMapping_each tells_ok h hok hc) hl
    · cases hl
      exact h

theorem AllTyped.map (h : s.AllTyped) (hok : m.perm.Ok) (hmap : s.map m = .ok s') :
    s'.AllTyped := by
  obtain ⟨t, hloop, hs⟩ := bind_eq_ok hmap
  cases hs
  refine ⟨mapLoop_typed hok _ _ _ _ h.table hloop, fun x hx => ?_⟩
  rcases mem_of_mem_insert hx with rfl | hx
  · exact hok
  · exact h.perms x hx

/-- The bits of a slice are those of the mapping, or the new ones. -/
theorem splitChild_ok (hm : m.perm.Ok) (hp : perm.Ok) : (m.splitChild region perm).perm.Ok := by
  unfold PageMapping.splitChild
  split
  · exact hm
  · exact hp

theorem AllTyped.mapSlice (h : s.AllTyped) (hok : m.perm.Ok) (hmap : s.mapSlice m region = .ok s') :
    s'.AllTyped := by
  unfold VMAR.mapSlice at hmap
  split at hmap
  · exact h.map (splitChild_ok hok (by decide)) hmap
  · cases hmap
    exact h

theorem AllTyped.erase {table : Table 2} {k : Nat} (h : s.AllTyped) (ht : Typed table) :
    AllTyped ⟨s.mappings.erase k, table⟩ :=
  ⟨ht, fun m hm => h.perms m (mem_erase.1 hm).1⟩

def Visiting (i : Option PageMapping) (s : VMAR) : Prop := (∀ m ∈ i, m.perm.Ok) ∧ s.AllTyped

theorem AllTyped.upperBound (h : s.AllTyped) (k : Nat) :
    ∀ m ∈ s.mappings.upperBound k, m.perm.Ok := fun m hm =>
  h.perms m (upperBound_mem hm)

theorem unmapBody_visiting (i : PageMapping) (s : VMAR) (next : Option PageMapping) (s' : VMAR)
    (h : Visiting (some i) s) (hbody : unmapBody region i s = .ok (next, s')) :
    Visiting next s' := by
  obtain ⟨hi, h⟩ := h
  replace hi := hi i rfl
  rcases unmapBody_cases hbody with ⟨-, s1, s2, t, hleft, hright, hr, rfl, rfl⟩ | ⟨-, rfl, rfl⟩
  · have h2 := (h.mapSlice hi hleft).mapSlice hi hright
    exact ⟨h2.upperBound _, h2.erase (removeMapping_each tells_ok.marks h2.table hr)⟩
  · exact ⟨h.upperBound _, h⟩

theorem protectBody_visiting (hp : perm.Ok) (i : PageMapping) (s : VMAR)
    (next : Option PageMapping) (s' : VMAR) (h : Visiting (some i) s)
    (hbody : protectBody region perm i s = .ok (next, s')) : Visiting next s' := by
  obtain ⟨hi, h⟩ := h
  replace hi := hi i rfl
  rcases protectBody_cases hbody with ⟨-, t, s1, s2, hr, hleft, hright, hmap, rfl⟩ | ⟨-, rfl, rfl⟩
  · have h0 : AllTyped { s with pagetable := t } :=
      ⟨removeMapping_each tells_ok.marks h.table hr, h.perms⟩
    have h2 := (h0.mapSlice hi hleft).mapSlice hi hright
    exact ⟨h2.upperBound _, (h2.erase h2.table).map (splitChild_ok hi hp) hmap⟩
  · exact ⟨h.upperBound _, h⟩

theorem AllTyped.sweep {body : PageMapping → VMAR → Kern (Option PageMapping × VMAR)}
    (h : s.AllTyped)
    (hbody : ∀ i s next s', Visiting (some i) s → body i s = .ok (next, s') → Visiting next s')
    (hs : s.sweep body = .ok s') : s'.AllTyped :=
  (sweep_inv hbody _ _ _ _
    ⟨fun m hm => h.perms m (first_mem hm), h⟩ hs).2

theorem AllTyped.pfhandler {vpn : Nat} (h : s.AllTyped) (hpf : s.pfhandler vpn = .ok s') :
    s'.AllTyped := by
  obtain ⟨found, hfind, hpf⟩ := bind_eq_ok hpf
  cases found with
  | none => cases hpf
  | some m =>
    obtain ⟨⟨off, ppn, pages⟩, -, hpf⟩ := bind_eq_ok hpf
    obtain ⟨t, hc, hpf⟩ := bind_eq_ok hpf
    cases hpf
    exact ⟨createMapping_each tells_ok h.table (h.perms m (find_mem hfind).1) hc, h.perms⟩

end

theorem AllTyped.foldlM {ms : List PageMapping} (hms : ∀ m ∈ ms, m.perm.Ok) :
    ∀ {s s' : VMAR}, s.AllTyped → ms.foldlM (fun s m => s.map m) s = .ok s' → s'.AllTyped := by
  induction ms with
  | nil =>
    intro s s' h hf
    cases hf
    exact h
  | cons m ms ih =>
    intro s s' h hf
    obtain ⟨s1, hmap, hf⟩ := bind_eq_ok hf
    exact ih (fun m hm => hms m (List.mem_cons_of_mem _ hm)) (h.map (hms m List.mem_cons_self) hmap)
      hf

end VMAR

theorem newAddressSpace_typed {k : KernelInfo} {s : VMAR} (h : newAddressSpace k = .ok s) :
    s.AllTyped :=
  VMAR.AllTyped.foldlM (fun m hm => (k.systemMappings_plain m hm).2.1.perm)
    ⟨createPTNode_each tells_ok.zero, fun m hm => absurd hm (not_mem_empty m)⟩ h

/-! ## Processes -/

namespace Process

/-- A memory system call or a page fault. -/
inductive MemOp where
  | call (c : Call)
  | fault (addr : Nat)

def memStep (p : Process) : MemOp → Kern Process
  | .call c => do
    let (_, p) ← p.call c
    pure p
  | .fault addr => do
    let vmar ← p.vmar.pfhandler (addr2pn addr)
    pure { p with vmar }

def Fresh (p : Process) : Prop := ∃ k, newAddressSpace k = .ok p.vmar

def Below39 (_ : Process) : MemOp → Prop
  | .call (.brk addr _) => addr < 2 ^ 39
  | .call (.mmap addr len _ _ _ _) => addr + len ≤ 2 ^ 39
  | .call (.munmap addr len) => addr + len ≤ 2 ^ 39
  | .call (.mprotect addr len _) => addr + len ≤ 2 ^ 39
  | .call (.mremap addr oldsize newsize) => addr + max oldsize newsize ≤ 2 ^ 39
  | .fault addr => addr < 2 ^ 39

instance (p : Process) (op : MemOp) : Decidable (Below39 p op) := by
  unfold Below39
  split <;> infer_instance

def Plainly (_ : Process) : MemOp → Prop
  | .call (.mmap _ _ prot _ _ _) => prot = 0 ∨ prot &&& 7 ≠ 0
  | .call (.mprotect _ _ prot) => prot = 0 ∨ prot &&& 7 ≠ 0
  | _ => True

instance (p : Process) (op : MemOp) : Decidable (Plainly p op) := by
  unfold Plainly
  split <;> infer_instance

theorem prot2perm_ok {prot : BitVec 32} (h : prot = 0 ∨ prot &&& 7 ≠ 0) :
    (PageMapping.prot2perm prot).Ok := by
  rcases h with rfl | h
  · decide
  have hne : prot ≠ 0 := by
    rintro rfl
    exact h (BitVec.zero_and)
  rw [PageMapping.prot2perm, if_neg hne]
  -- a mask without the three bits is zero
  by_contra hnot
  obtain ⟨⟨h0, h1⟩, h2⟩ :
      (prot.getLsbD 0 = false ∧ prot.getLsbD 1 = false) ∧ prot.getLsbD 2 = false := by
    simpa [Perm.Ok, Perm.isLeaf] using hnot
  have h7 : ∀ i < 32, 3 ≤ i → (7 : BitVec 32).getLsbD i = false := by decide
  refine h (BitVec.eq_of_getLsbD_eq fun i hi => ?_)
  rw [BitVec.getLsbD_and]
  rcases Nat.lt_or_ge i 3 with h3 | h3
  · obtain rfl | rfl | rfl : i = 0 ∨ i = 1 ∨ i = 2 := by omega
    · rw [h0, Bool.false_and]
      rfl
    · rw [h1, Bool.false_and]
      rfl
    · rw [h2, Bool.false_and]
      rfl
  · rw [h7 i hi h3]
    simp

theorem AllTyped.call {p p' : Process} {c : Call} {ret : Except Nat Nat} (h : p.vmar.AllTyped)
    (hok : p.Plainly (.call c)) (hcall : p.call c = .ok (ret, p')) : p'.vmar.AllTyped := by
  cases c with
  | brk addr load =>
    change p.brk addr load = _ at hcall
    unfold brk at hcall
    split at hcall
    · cases hcall
      exact h
    split at hcall
    · cases hcall
      exact h
    obtain ⟨vmar, hmap, hcall⟩ := bind_eq_ok hcall
    cases hcall
    refine h.map ?_ hmap
    rfl
  | mmap addr len prot flags fd load =>
    change p.mmap addr len prot flags fd load = _ at hcall
    dsimp only [mmap] at hcall
    split at hcall
    · cases hcall
      exact h
    split at hcall
    · cases hcall
    · obtain ⟨vmar, hmap, hcall⟩ := bind_eq_ok hcall
      cases hcall
      exact h.map (prot2perm_ok hok) hmap
  | munmap addr len =>
    change p.munmap addr len = _ at hcall
    unfold munmap at hcall
    split at hcall
    · cases hcall
      exact h
    · obtain ⟨vmar, hun, hcall⟩ := bind_eq_ok hcall
      cases hcall
      exact h.sweep VMAR.unmapBody_visiting hun
  | mprotect addr len prot =>
    change p.mprotect addr len prot = _ at hcall
    unfold mprotect at hcall
    split at hcall
    · cases hcall
      exact h
    · obtain ⟨vmar, hpr, hcall⟩ := bind_eq_ok hcall
      cases hcall
      exact h.sweep (VMAR.protectBody_visiting (prot2perm_ok hok)) hpr
  | mremap oldaddr oldsize newsize =>
    change p.mremap oldaddr oldsize newsize = _ at hcall
    unfold mremap at hcall
    split at hcall
    · cases hcall
      exact h
    split at hcall
    · cases hcall
      exact h
    · obtain ⟨vmar, hun, hcall⟩ := bind_eq_ok hcall
      cases hcall
      exact h.sweep VMAR.unmapBody_visiting hun

theorem AllTyped.memStep {p p' : Process} {op : MemOp} (h : p.vmar.AllTyped) (hok : p.Plainly op)
    (hstep : p.memStep op = .ok p') : p'.vmar.AllTyped := by
  cases op with
  | call c =>
    obtain ⟨⟨ret, p1⟩, hcall, hstep⟩ := bind_eq_ok hstep
    cases hstep
    exact AllTyped.call h hok hcall
  | fault addr =>
    obtain ⟨vmar, hpf, hstep⟩ := bind_eq_ok hstep
    cases hstep
    exact h.pfhandler hpf

/-- **Walks stay within three levels** in every run whose protections have one of read, write and
exec, or nothing at all. -/
theorem threeLevels_of_plainly {p : Process} (h : Runs.Reach memStep Plainly Fresh p) :
    ThreeLevels p.vmar.pagetable :=
  (h.invariant (fun p : Process => p.vmar.AllTyped) (fun _ ⟨_, hk⟩ => newAddressSpace_typed hk)
    fun _ _ _ hp hok hstep => AllTyped.memStep hp hok hstep).table.threeLevels

def runFresh (ok : Process → MemOp → Prop) [∀ p op, Decidable (ok p op)] (ops : List MemOp) :
    Option Process :=
  (newAddressSpace smallKernel).toOption.bind fun s =>
    Runs.runWhile memStep ok ops ⟨s, 0x10000, 0x10000, fun _ => false⟩

theorem reach_of_runFresh {ok : Process → MemOp → Prop} [∀ p op, Decidable (ok p op)]
    {ops : List MemOp} {p : Process} (h : runFresh ok ops = some p) :
    Runs.Reach memStep ok Fresh p := by
  obtain ⟨s, hs, hrun⟩ := Option.bind_eq_some_iff.1 h
  exact Runs.reach_of_runWhile (s := ⟨s, 0x10000, 0x10000, fun _ => false⟩)
    ⟨smallKernel, toOption_eq_some.1 hs⟩ hrun

/-- Memory is mapped without access, made readable, read and unmapped in part. -/
theorem threeLevels_protected : ∃ p, Runs.Reach memStep Plainly Fresh p ∧
    (trans p.vmar.pagetable 17).toOption = some 0x81000 ∧ ThreeLevels p.vmar.pagetable := by
  have hrun : (runFresh Plainly
      [.call (.mmap 0x10000 0x3000 0 0 (-1) oneFrame), .call (.mprotect 0x11000 0x1000 1),
        .fault 0x11000, .call (.munmap 0x12000 0x1000)]).map
      (fun p => (trans p.vmar.pagetable 17).toOption) = some (some 0x81000) := by
    decide +kernel
  obtain ⟨p, hp, hobs⟩ := Option.map_eq_some_iff.1 hrun
  have hreach := reach_of_runFresh hp
  exact ⟨p, hreach, hobs, threeLevels_of_plainly hreach⟩

/-- **A protection without the three bits makes a level below the last one**: after
`mmap(0x10000, 0x1000, 8)` the entry of the page is valid and not a leaf, and `trans` follows its
frame. -/
theorem not_threeLevels_prot :
    ¬∀ p, Runs.Reach memStep Below39 Fresh p → ThreeLevels p.vmar.pagetable := by
  intro h
  have hrun : (runFresh Below39 [.call (.mmap 0x10000 0x1000 8 0 (-1) oneFrame)]).map
      (fun p => fault (trans p.vmar.pagetable 16)) = some (some .wildPointer) := by
    decide +kernel
  obtain ⟨p, hp, hobs⟩ := Option.map_eq_some_iff.1 hrun
  exact (h p (reach_of_runFresh hp)).trans 16 (fault_eq_some.1 hobs)

end Process

end LuoOS.Vm
