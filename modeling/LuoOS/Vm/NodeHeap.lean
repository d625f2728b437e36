import LuoOS.Alloc.PageMgr
import LuoOS.Lib.Runs
import LuoOS.Vm.EntryBits
import Mathlib.Algebra.BigOperators.Fin
import Mathlib.Algebra.Order.BigOperators.Group.Finset

/-!
# Page table nodes in memory

`PageTable` one level closer to the source: an entry holds a page frame number, and the node is what
memory has in that frame. `createPTNode` takes a frame from the page allocator and `freePTNode`
gives one back; `ledger` counts this for each frame. What the operations do to the entries is the
tree model's (`NodeSim`); here are the definitions and the number of ways from a node to a frame, in
which leaks and double frees are counted.
-/

namespace LuoOS.Vm

open Function

/-- An entry of a node in memory. -/
structure Pte where
  perm : Perm := {}
  ppn : Nat := 0

/-- Memory as far as page tables use it: the frames as nodes, the frames taken from the allocator
less those given back, and those that it hands out next. -/
structure Mem where
  node : Nat → Fin 512 → Pte
  ledger : Nat → Int
  supply : List Nat

namespace Mem

def setEntry (mem : Mem) (n : Nat) (i : Fin 512) (e : Pte) : Mem :=
  { mem with node := update mem.node n (update (mem.node n) i e) }

def createPTNode (mem : Mem) : Kern (Nat × Mem) :=
  match mem.supply with
  | [] => .error Alloc.PageMgr.outOfPages
  | f :: supply =>
    .ok (f,
      { node := update mem.node f fun _ => {}
        ledger := update mem.ledger f (mem.ledger f + 1)
        supply })

def freePTNode (mem : Mem) (n : Nat) : Bool × Mem :=
  if (List.finRange 512).all fun i => !(mem.node n i).perm.v then
    (true, { mem with ledger := update mem.ledger n (mem.ledger n - 1) })
  else (false, mem)

/-! ## `createMapping` -/

/-- The node that a range inside entry `i` is mapped in. While a leaf is pushed down its entry is
already no leaf any more, and still has the frame of the leaf. -/
def subTable (mem : Mem) (table : Nat) (i : Fin 512)
    (pushdown : Mem → (sub prevppn : Nat) → (prevPerm : Perm) → Kern Mem) : Kern (Nat × Mem) :=
  let entry := mem.node table i
  if entry.perm.v && !entry.perm.isLeaf then .ok (entry.ppn, mem)
  else do
    let (sub, mem) ← mem.createPTNode
    let mem ← if entry.perm.v && entry.perm.isLeaf then
        pushdown (mem.setEntry table i { entry with perm := entry.perm.setPTNode }) sub entry.ppn
          entry.perm
      else pure mem
    pure (sub, mem.setEntry table i ⟨(mem.node table i).perm.setValid, sub % 2 ^ 44⟩)

def mapInto (mem : Mem) (table : Nat) (i : Fin 512)
    (pushdown : Mem → (sub prevppn : Nat) → (prevPerm : Perm) → Kern Mem)
    (create : Mem → (sub : Nat) → Kern Mem) : Kern Mem := do
  let (sub, mem) ← mem.subTable table i pushdown
  create mem sub

def when_ (cond : Nat) (step : Mem → Kern Mem) (mem : Mem) : Kern Mem :=
  if cond = 0 then .ok mem else step mem

def mapWhole (level : Nat) (perm : Perm) (table : Nat) :
    (n : Nat) → (mem : Mem) → (i ppn : Nat) → Kern Mem
  | 0, mem, _, _ => .ok mem
  | n + 1, mem, i, ppn =>
    if h : i < 512 then
      mapWhole level perm table n (mem.setEntry table ⟨i, h⟩ ⟨perm, ppn % 2 ^ 44⟩) (i + 1)
        (ppn + bigPageSize level)
    else .error (.outOfBounds i)

def createMapping : (level : Nat) → (mem : Mem) → (table vpn ppn pages : Nat) → (perm : Perm) →
    Kern Mem
  | 0, mem, table, vpn, ppn, pages, perm => mapWhole 0 perm table pages mem (index 0 vpn) ppn
  | level + 1, mem, table, vpn, ppn, pages, perm => do
    let big := bigPageSize (level + 1)
    let unaligned := vpn % big
    -- align vpn to boundary
    let part := unalignedPart big vpn pages
    let mem ← when_ unaligned (fun mem =>
      mem.mapInto table (index (level + 1) vpn)
        (fun mem sub prevppn prevPerm =>
          createMapping level mem sub (vpn - unaligned) prevppn unaligned prevPerm)
        (fun mem sub => createMapping level mem sub vpn ppn part perm)) mem
    -- map aligned whole pages
    let whole := (pages - part) / big
    let mem ←
      mapWhole (level + 1) perm table whole mem (index (level + 1) (vpn + part)) (ppn + part)
    -- map rest pages
    let vpn := vpn + part + whole * big
    let ppn := ppn + part + whole * big
    let rest := pages - part - whole * big
    when_ rest (fun mem =>
      mem.mapInto table (index (level + 1) vpn)
        (fun mem sub prevppn prevPerm =>
          createMapping level mem sub (vpn + rest) (prevppn + rest) (big - rest) prevPerm)
        (fun mem sub => createMapping level mem sub vpn ppn rest perm)) mem

/-! ## `removeMapping` -/

def setInvalid (mem : Mem) (table : Nat) (i : Fin 512) : Mem :=
  mem.setEntry table i { mem.node table i with perm := {} }

def removeInto (mem : Mem) (table : Nat) (i : Fin 512) (remove : Mem → (sub : Nat) → Kern Mem) :
    Kern Mem :=
  let entry := mem.node table i
  if entry.perm.v then do
    assert_ (!entry.perm.isLeaf) "!entry.isLeaf()"
    let mem ← remove mem entry.ppn
    let (freed, mem) := mem.freePTNode entry.ppn
    pure (if freed then mem.setInvalid table i else mem)
  else .ok mem

/-- One whole entry. The child of an entry of level 0 is not a node. -/
def clearEntry (mem : Mem) (table : Nat) (i : Fin 512) (remove : Mem → (sub : Nat) → Kern Mem) :
    Kern Mem :=
  let entry := mem.node table i
  if entry.perm.v then
    if entry.perm.isLeaf then .ok (mem.setInvalid table i)
    else do
      let mem ← remove mem entry.ppn
      let (freed, mem) := mem.freePTNode entry.ppn
      assert_ freed "freePTNode(entry.child())"
      pure (mem.setInvalid table i)
  else .ok mem

def removeWhole (level table : Nat) (remove : (vpn : Nat) → Mem → (sub : Nat) → Kern Mem) :
    (n : Nat) → (mem : Mem) → (i vpn : Nat) → Kern Mem
  | 0, mem, _, _ => .ok mem
  | n + 1, mem, i, vpn =>
    if h : i < 512 then do
      let mem ← mem.clearEntry table ⟨i, h⟩ (remove vpn)
      removeWhole level table remove n mem (i + 1) (vpn + bigPageSize level)
    else .error (.outOfBounds i)

def removeMapping : (level : Nat) → (mem : Mem) → (table vpn pages : Nat) → Kern Mem
  | 0, mem, table, vpn, pages =>
    removeWhole 0 table (fun _ _ _ => .error .wildPointer) pages mem (index 0 vpn) vpn
  | level + 1, mem, table, vpn, pages => do
    let big := bigPageSize (level + 1)
    let unaligned := vpn % big
    -- align vpn to boundary
    let part := unalignedPart big vpn pages
    let mem ← when_ unaligned (fun mem =>
      mem.removeInto table (index (level + 1) vpn) fun mem sub =>
        removeMapping level mem sub vpn part) mem
    -- unmap aligned whole pages
    let whole := (pages - part) / big
    let mem ← removeWhole (level + 1) table (fun vpn mem sub => removeMapping level mem sub vpn big)
      whole mem (index (level + 1) (vpn + part)) (vpn + part)
    -- unmap rest pages
    let vpn := vpn + part + whole * big
    let rest := pages - part - whole * big
    when_ rest (fun mem =>
      mem.removeInto table (index (level + 1) vpn) fun mem sub =>
        removeMapping level mem sub vpn rest) mem

/-! ## Runs of one page table -/

/-- The two operations on a page table. -/
inductive Op where
  | create (vpn ppn pages : Nat) (perm : Perm) (frames : List Nat)
  | remove (vpn pages : Nat)

def step (root : Nat) (mem : Mem) : Op → Kern Mem
  | .create vpn ppn pages perm frames =>
    createMapping 2 { mem with supply := frames } root vpn ppn pages perm
  | .remove vpn pages => removeMapping 2 mem root vpn pages

/-- The root is empty, and no frame is out. -/
structure Start (root : Nat) (mem : Mem) : Prop where
  empty : ∀ i, mem.node root i = {}
  ledger : ∀ f, mem.ledger f = 0

def Below (mem : Mem) : (level n f : Nat) → Prop
  | 0, _, _ => False
  | level + 1, n, f => ∃ i, (mem.node n i).perm.isNode = true ∧
      ((mem.node n i).ppn = f ∨ mem.Below level (mem.node n i).ppn f)

instance decidableBelow (mem : Mem) : (level n f : Nat) → Decidable (mem.Below level n f)
  | 0, _, _ => .isFalse id
  | level + 1, n, f =>
    have := fun m g => decidableBelow mem level m g
    inferInstanceAs (Decidable (∃ i, _ = true ∧ (_ ∨ mem.Below level (mem.node n i).ppn f)))

/-- **The nodes are conserved**: a frame is out exactly once if it is a node below the root, and not
at all otherwise. -/
structure Conserved (root : Nat) (mem : Mem) : Prop where
  once : ∀ f, mem.ledger f = 0 ∨ mem.ledger f = 1
  live : ∀ f, mem.ledger f = 1 ↔ f ≠ root ∧ mem.Below 2 root f

def NodeAt (mem : Mem) : (level n l v : Nat) → Prop
  | 0, _, _, _ => False
  | level + 1, n, l, v =>
    (mem.node n (index (level + 1) v)).perm.isNode = true ∧
      (l = level + 1 ∨ mem.NodeAt level (mem.node n (index (level + 1) v)).ppn l v)

def Legal (root : Nat) (mem : Mem) : Op → Prop
  | .create vpn _ pages perm frames =>
    vpn + pages ≤ 2 ^ 27 ∧ perm.v = true ∧ perm.isLeaf = true ∧
      frames.Nodup ∧ ∀ f ∈ frames, f ≠ root ∧ mem.ledger f ≤ 0 ∧ f < 2 ^ 44
  | .remove vpn pages => vpn + pages ≤ 2 ^ 27

instance (root : Nat) (mem : Mem) (op : Op) : Decidable (Legal root mem op) := by
  unfold Legal
  split <;> infer_instance

def Sparing (root : Nat) (mem : Mem) (op : Op) : Prop :=
  Legal root mem op ∧
    match op with
    | .create vpn _ pages _ _ => ∀ l b, b % bigPageSize l = 0 → vpn ≤ b →
        b + bigPageSize l ≤ vpn + pages → ¬mem.NodeAt 2 root l b
    | .remove _ _ => True

/-! ## Counting the ways to a frame -/

section Count

open Finset

def below (mem : Mem) : (level : Nat) → Pte → (f : Nat) → Nat
  | 0, _, _ => 0
  | level + 1, e, f =>
    if e.perm.isNode then
      (if e.ppn = f then 1 else 0) + ∑ i, mem.below level (mem.node e.ppn i) f
    else 0

def count (mem : Mem) (level n f : Nat) : Nat := ∑ i, mem.below level (mem.node n i) f

variable {mem mem' : Mem} {level n f : Nat} {e : Pte}

theorem below_node (h : e.perm.isNode = true) :
    mem.below (level + 1) e f = (if e.ppn = f then 1 else 0) + mem.count level e.ppn f := by
  exact if_pos h

theorem below_leaf (h : e.perm.isNode = false) : mem.below level e f = 0 := by
  unfold below
  split
  · rfl
  · exact if_neg (by rw [h]; exact Bool.false_ne_true)

theorem below_le_count (i : Fin 512) : mem.below level (mem.node n i) f ≤ mem.count level n f :=
  single_le_sum (f := fun i => mem.below level (mem.node n i) f) (fun _ _ => Nat.zero_le _)
    (mem_univ i)

/-- Two entries of a node together. -/
theorem below_add_le_count {i j : Fin 512} (h : j ≠ i) :
    mem.below level (mem.node n i) f + mem.below level (mem.node n j) f ≤ mem.count level n f := by
  have hj : mem.below level (mem.node n j) f ≤
      ∑ k ∈ univ.erase i, mem.below level (mem.node n k) f :=
    single_le_sum (f := fun k => mem.below level (mem.node n k) f) (fun _ _ => Nat.zero_le _)
      (mem_erase.2 ⟨h, mem_univ j⟩)
  have hsum := add_sum_erase univ (fun k => mem.below level (mem.node n k) f) (mem_univ i)
  unfold count
  omega

theorem count_pos_iff : 0 < mem.count level n f ↔ mem.Below level n f := by
  induction level generalizing n with
  | zero =>
    have hzero : mem.count 0 n f = 0 := sum_eq_zero fun _ _ => rfl
    simp only [hzero, Nat.lt_irrefl, Below]
  | succ level ih =>
    have hentry : ∀ i, 0 < mem.below (level + 1) (mem.node n i) f ↔
        (mem.node n i).perm.isNode = true ∧
          ((mem.node n i).ppn = f ∨ mem.Below level (mem.node n i).ppn f) := by
      intro i
      cases hnode : (mem.node n i).perm.isNode with
      | true =>
        rw [below_node hnode, ← ih]
        split
        · rename_i heq
          simp [heq]
        · rename_i hne
          simp [hne]
      | false => simp [below_leaf hnode]
    unfold count Below
    rw [sum_pos_iff]
    simp only [mem_univ, true_and, hentry]

/-- Changing one entry changes the count by what hangs from it. -/
theorem count_change {i : Fin 512}
    (h : ∀ j, j ≠ i → mem'.below level (mem'.node n j) f = mem.below level (mem.node n j) f) :
    mem'.count level n f + mem.below level (mem.node n i) f =
      mem.count level n f + mem'.below level (mem'.node n i) f := by
  have hsum := add_sum_erase univ (fun k => mem.below level (mem.node n k) f) (mem_univ i)
  have hsum' := add_sum_erase univ (fun k => mem'.below level (mem'.node n k) f) (mem_univ i)
  have hrest : ∑ k ∈ univ.erase i, mem'.below level (mem'.node n k) f =
      ∑ k ∈ univ.erase i, mem.below level (mem.node n k) f :=
    sum_congr rfl fun k hk => h k (ne_of_mem_erase hk)
  unfold count
  omega

theorem below_frame (h : ∀ g, 0 < mem.below level e g → mem'.node g = mem.node g) :
    mem'.below level e f = mem.below level e f := by
  induction level generalizing e f with
  | zero => rfl
  | succ level ih =>
    cases hnode : e.perm.isNode with
    | false => rw [below_leaf hnode, below_leaf hnode]
    | true =>
      have hself : mem'.node e.ppn = mem.node e.ppn := by
        refine h _ ?_
        rw [below_node hnode, if_pos rfl]
        omega
      have hcount : mem'.count level e.ppn f = mem.count level e.ppn f := by
        unfold count
        rw [hself]
        refine sum_congr rfl fun i _ => ih fun g hg => h g ?_
        rw [below_node hnode]
        exact hg.trans_le ((below_le_count i).trans (Nat.le_add_left _ _))
      rw [below_node hnode, below_node hnode, hcount]

theorem count_frame (hn : mem'.node n = mem.node n)
    (h : ∀ g, 0 < mem.count level n g → mem'.node g = mem.node g) :
    mem'.count level n f = mem.count level n f := by
  unfold count
  rw [hn]
  refine sum_congr rfl fun i _ => below_frame fun g hg => h g ?_
  exact hg.trans_le (below_le_count i)

theorem count_eq_zero (h : ∀ i, (mem.node n i).perm.v = false) : mem.count level n f = 0 := by
  refine sum_eq_zero fun i _ => below_leaf ?_
  unfold Perm.isNode
  rw [h i, Bool.false_and]

end Count

end Mem

end LuoOS.Vm
