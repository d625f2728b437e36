import LuoOS.Bio.Coherence

/-!
# The block cache on top of a disk

`BCacheMgr` of `include/bio.hh` and the buffers of `kernel/fs/bio.cc`: a buffer is read from the
disk when it is made and written back, changed or not, when it is deleted. There is one disk, and
the sector is the key's `secno` whatever its `dev`; the file system has the device number 0 in all
its accesses.

The specification is a store of blocks (`Blocks`). Accesses that drop their reference before the
next one cannot tell the two apart, as long as no sector is accessed under two device numbers
(`access_transparent`).
-/

namespace LuoOS.Bio

open SharedLru Function

/-- A sector of a device. -/
structure BlockKey where
  dev : Nat
  secno : Nat
  deriving DecidableEq

abbrev Sector := Fin 512 → UInt8

abbrev Disk := Nat → Sector

/-- A buffer: its key and the bytes of the sector. -/
structure BlockBuf where
  key : BlockKey
  d : Sector

def virtioDiskRw (buf : BlockBuf) (disk : Disk) (write : Bool) : BlockBuf × Disk :=
  let sector := buf.key.secno
  if write then (buf, update disk sector buf.d) else ({ buf with d := disk sector }, disk)

namespace BlockBuf

def reload (buf : BlockBuf) (disk : Disk) : BlockBuf := (virtioDiskRw buf disk false).1

def flush (buf : BlockBuf) (disk : Disk) : Disk := (virtioDiskRw buf disk true).2

def new (key : BlockKey) (disk : Disk) : BlockBuf := reload ⟨key, fun _ => 0⟩ disk

end BlockBuf

def blockBacking : Backing BlockKey BlockBuf Disk where
  refill key disk := (BlockBuf.new key disk, disk)
  destroy buf disk := buf.flush disk

/-- What the file system does with a block. -/
inductive Access where
  | read (key : BlockKey)
  | write (key : BlockKey) (stores : List (Fin 512 × UInt8))

namespace Access

def key : Access → BlockKey
  | read key => key
  | write key _ => key

def apply (d : Sector) : Access → Sector
  | read _ => d
  | write _ stores => stores.foldl (fun d p => update d p.1 p.2) d

def result (d : Sector) : Access → Option Sector
  | read _ => some d
  | write _ _ => none

end Access

namespace BCacheMgr

def access (s : SharedLru BlockKey BlockBuf) (disk : Disk) (a : Access) :
    Kern (Option Sector × SharedLru BlockKey BlockBuf × Disk) := do
  let (rt, s, disk) ← getOrSet blockBacking s disk a.key
  match rt.bind fun b => (s.heap b).map fun p => (b, p.2) with
  | some (b, buf) =>
    .ok (a.result buf.d,
      drop blockBacking (s.modify b fun buf => { buf with d := a.apply buf.d }) disk b)
  | none => .error .wildPointer

def runAccesses : List Access → SharedLru BlockKey BlockBuf → Disk →
    Kern (List (Option Sector) × SharedLru BlockKey BlockBuf × Disk)
  | [], s, disk => .ok ([], s, disk)
  | a :: as, s, disk => do
    let (r, s, disk) ← access s disk a
    let (rs, s, disk) ← runAccesses as s disk
    .ok (r :: rs, s, disk)

end BCacheMgr

/-! ## The store of blocks -/

abbrev Blocks := BlockKey → Sector

namespace Blocks

def access (σ : Blocks) (a : Access) : Option Sector × Blocks :=
  (a.result (σ a.key), update σ a.key (a.apply (σ a.key)))

def runAccesses : List Access → Blocks → List (Option Sector)
  | [], _ => []
  | a :: as, σ => (σ.access a).1 :: runAccesses as (σ.access a).2

end Blocks

/-! ## The refinement -/

variable {ks : List BlockKey} {s s' : SharedLru BlockKey BlockBuf} {disk disk' : Disk} {σ : Blocks}

/-- The cache and the disk together hold the blocks `ks` of `σ`; nobody holds a reference. -/
structure Represents (ks : List BlockKey) (s : SharedLru BlockKey BlockBuf) (disk : Disk)
    (σ : Blocks) : Prop where
  inj : ∀ k ∈ ks, ∀ k' ∈ ks, k.secno = k'.secno → k = k'
  inBuf : ∀ k buf, s.cached k = some buf → k ∈ ks ∧ buf.key = k ∧ buf.d = σ k
  onDisk : ∀ k ∈ ks, s.cached k = none → disk k.secno = σ k

section

variable (h : Represents ks s disk σ)
include h

/-- A deleted buffer leaves its bytes on the disk. -/
theorem Represents.shed (hs : Shed blockBacking s disk s' disk') : Represents ks s' disk' σ := by
  cases hs with
  | keep hcached he =>
    subst he
    refine ⟨h.inj, ?_, ?_⟩ <;> rw [hcached]
    · exact h.inBuf
    · exact h.onDisk
  | delete j buf hj hcached he =>
    obtain ⟨hjk, hkey, hd⟩ := h.inBuf j buf hj
    have hdisk : disk' = update disk j.secno (σ j) := by
      rw [he, ← hd, ← hkey]
      rfl
    refine ⟨h.inj, fun k b hk => ?_, fun k hk hnone => ?_⟩
    · rw [hcached] at hk
      by_cases hkj : k = j
      · rw [hkj, update_self] at hk
        cases hk
      · rw [update_of_ne hkj] at hk
        exact h.inBuf k b hk
    · rw [hdisk]
      by_cases hkj : k = j
      · rw [hkj, update_self]
      · rw [hcached, update_of_ne hkj] at hnone
        rw [update_of_ne fun hsec => hkj (h.inj k hk j hjk hsec)]
        exact h.onDisk k hk hnone

theorem Represents.set {k : BlockKey} (hk : k ∈ ks) {d : Sector}
    (hcached : s'.cached = update s.cached k (some ⟨k, d⟩)) :
    Represents ks s' disk (update σ k d) := by
  refine ⟨h.inj, fun k' buf hk' => ?_, fun k' hk' hnone => ?_⟩
  · rw [hcached] at hk'
    by_cases hkk : k' = k
    · subst hkk
      rw [update_self] at hk' ⊢
      cases hk'
      exact ⟨hk, rfl, rfl⟩
    · rw [update_of_ne hkk] at hk' ⊢
      exact h.inBuf k' buf hk'
  · rw [hcached] at hnone
    by_cases hkk : k' = k
    · rw [hkk, update_self] at hnone
      cases hnone
    · rw [update_of_ne hkk] at hnone ⊢
      exact h.onDisk k' hk' hnone

theorem Represents.getOrSet (hinv : Inv s) (hheld : s.held = []) {k : BlockKey} (hk : k ∈ ks) :
    ∃ b s' disk',
      getOrSet blockBacking s disk k = .ok (some b, s', disk') ∧ Got s k b s' ∧
        Represents ks s' disk' σ ∧ s'.cached k = some ⟨k, σ k⟩ := by
  cases hact : s.active k with
  | none =>
    obtain ⟨b, s1, disk1, s', hget, hgot, hshed, hnone, hcached⟩ := hinv.miss blockBacking disk hact
    have h1 := h.shed hshed
    have hnew : (blockBacking.refill k disk1).1 = ⟨k, σ k⟩ := by
      rw [← h1.onDisk k hk hnone]
      rfl
    rw [hnew] at hcached
    have h' := h1.set hk hcached
    rw [update_eq_self] at h'
    exact ⟨b, s', disk1, hget, hgot, h', by rw [hcached, update_self]⟩
  | some p =>
    obtain ⟨b, it⟩ := p
    obtain ⟨buf, hbuf⟩ := hinv.entry k b it hact
    have hcached := cached_eq hact hbuf
    obtain ⟨-, hkey, hd⟩ := h.inBuf k buf hcached
    -- without a caller's reference the buffer is in the list
    have hnode : ∃ n ∈ s.lru, n.ref = some b := by
      rcases mem_owners.1 ((hinv.live b).1 (by rw [hbuf]; exact Option.some_ne_none _)) with
        hn | hn
      · exact hn
      · rw [hheld] at hn
        cases hn
    obtain ⟨n, hn, href⟩ := hnode
    obtain ⟨b', href', hact'⟩ := hinv.node n hn
    obtain ⟨buf', hbuf'⟩ := hinv.entry n.key b' _ hact'
    rw [href] at href'
    cases href'
    rw [hbuf] at hbuf'
    cases hbuf'
    obtain ⟨s', hget, hgot, hsame⟩ := hinv.hit blockBacking disk hact'
    refine ⟨b, s', disk, hget, hgot, ⟨h.inj, ?_, ?_⟩, ?_⟩
    · rw [hsame]
      exact h.inBuf
    · rw [hsame]
      exact h.onDisk
    · rw [hsame, hcached, ← hd, ← hkey]

theorem Represents.access (hinv : Inv s) (hheld : s.held = []) {a : Access} (ha : a.key ∈ ks) :
    ∃ s' disk',
      BCacheMgr.access s disk a = .ok ((σ.access a).1, s', disk') ∧ Inv s' ∧ s'.held = [] ∧
        Represents ks s' disk' (σ.access a).2 := by
  obtain ⟨b, s1, disk1, hget, hgot, h1, hcached⟩ := h.getOrSet hinv hheld ha
  obtain ⟨it, hact⟩ := hgot.active
  obtain ⟨buf, hbuf⟩ := hgot.inv.entry a.key b it hact
  obtain rfl : buf = ⟨a.key, σ a.key⟩ :=
    Option.some.inj ((cached_eq hact hbuf).symm.trans hcached)
  have hb : b ∈ s1.held := by
    rw [hgot.held]
    exact List.mem_cons_self
  have hmod := hgot.inv.cached_modify hact hbuf fun buf => { buf with d := a.apply buf.d }
  have hset := h1.set ha hmod
  have hinv1 := hgot.inv.modify hb fun buf => { buf with d := a.apply buf.d }
  obtain ⟨hinv', hshed⟩ := hinv1.drop blockBacking disk1 hb
  refine ⟨_, _, ?_, hinv', ?_, hset.shed hshed⟩
  · unfold BCacheMgr.access
    rw [hget, ok_bind]
    dsimp only
    rw [Option.bind_some, hbuf]
    rfl
  · refine (released blockBacking _ disk1 (some b)).held.trans ?_
    change s1.held.erase b = []
    rw [hgot.held, hheld, List.erase_cons_head]

theorem Represents.runAccesses {as : List Access} (hinv : Inv s) (hheld : s.held = [])
    (has : ∀ a ∈ as, a.key ∈ ks) :
    ∃ s' disk', BCacheMgr.runAccesses as s disk = .ok (σ.runAccesses as, s', disk') := by
  induction as generalizing s disk σ with
  | nil => exact ⟨s, disk, rfl⟩
  | cons a as ih =>
    obtain ⟨s1, disk1, haccess, hinv1, hheld1, h1⟩ := h.access hinv hheld (has a List.mem_cons_self)
    obtain ⟨s', disk', hrun⟩ := ih h1 hinv1 hheld1 fun a' ha' => has a' (List.mem_cons_of_mem _ ha')
    refine ⟨s', disk', ?_⟩
    unfold BCacheMgr.runAccesses
    rw [haccess, ok_bind]
    dsimp only
    rw [hrun]
    rfl

end

/-- **The cache is transparent**: every read sees the latest stores to its block. All accesses to a
sector are under the one device number that it has. -/
theorem access_transparent (c : Nat) (disk : Disk) (as : List Access)
    (hone : ∀ a ∈ as, ∀ a' ∈ as, a.key.secno = a'.key.secno → a.key = a'.key) :
    ∃ s' disk', BCacheMgr.runAccesses as (new c) disk =
      .ok (Blocks.runAccesses as fun k => disk k.secno, s', disk') := by
  have hnew : Represents (as.map Access.key) (new c) disk fun k => disk k.secno := by
    refine ⟨?_, ?_, fun k _ _ => rfl⟩
    · intro k hk k' hk' hsec
      obtain ⟨a, ha, rfl⟩ := List.mem_map.1 hk
      obtain ⟨a', ha', rfl⟩ := List.mem_map.1 hk'
      exact hone a ha a' ha' hsec
    · intro k buf hk
      cases hk
  exact hnew.runAccesses (inv_new c) rfl fun a ha => List.mem_map_of_mem ha

/-- A block is stored to, evicted, and read again. -/
theorem access_transparent_reload : ∃ s' disk',
    BCacheMgr.runAccesses [.write ⟨0, 0⟩ [(3, 7)], .read ⟨0, 1⟩, .read ⟨0, 2⟩, .read ⟨0, 0⟩]
      (new 1) (fun _ _ => 0) =
        .ok ([none, some fun _ => 0, some fun _ => 0, some (update (fun _ => 0) 3 7)],
          s', disk') :=
  access_transparent 1 (fun _ _ => 0)
    [.write ⟨0, 0⟩ [(3, 7)], .read ⟨0, 1⟩, .read ⟨0, 2⟩, .read ⟨0, 0⟩] (by decide)

end LuoOS.Bio
