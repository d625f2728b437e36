import LuoOS.Klib
import LuoOS.Lib.Translation

/-!
# The page table

`PageTable` of `kernel/vm/pagetable.cc`: a radix tree of three levels with 512 entries a node, where
an entry of level `l` stands for `2 ^ (9 * l)` pages and is invalid, a leaf, or the address of a
node one level down. Nodes are not shared, so an entry holds its node here, and the frame of a node
is left out. Virtual page numbers are only used modulo `2 ^ 27` and physical ones are stored in 44
bits; both divide `2 ^ 64`, so no wrap-around of `xlen_t` is written.
-/

namespace LuoOS.Vm

open Translation Function

/-! ## Entries -/

/-- The bits of an entry. -/
structure Perm where
  v : Bool := false
  r : Bool := false
  w : Bool := false
  x : Bool := false
  u : Bool := false
  g : Bool := false
  a : Bool := false
  d : Bool := false
  deriving DecidableEq, Repr

namespace Perm

def isLeaf (p : Perm) : Bool := p.r || p.w || p.x

def setValid (p : Perm) : Perm := { p with v := true }

def setPTNode (p : Perm) : Perm := { p with r := false, w := false, x := false }

def isNode (p : Perm) : Bool := p.v && !p.isLeaf

theorem setPTNode_setValid_isNode (p : Perm) : p.setPTNode.setValid.isNode = true := rfl

theorem setValid_isNode {p : Perm} (h : p.isLeaf = false) : p.setValid.isNode = true :=
  congrArg Bool.not h

end Perm

def bigPageSize (level : Nat) : Nat := 2 ^ (9 * level)

/-- An entry of a level, with its node if it has one. -/
inductive Entry : Nat → Type
  | page {level : Nat} (perm : Perm) (ppn : Nat) : Entry level
  | table {level : Nat} (perm : Perm) (node : perm.isNode = true) (sub : Fin 512 → Entry level) :
      Entry (level + 1)

abbrev Table (level : Nat) := Fin 512 → Entry level

namespace Entry

def perm {level : Nat} : Entry level → Perm
  | page perm _ => perm
  | table perm _ _ => perm

def isValid {level : Nat} (entry : Entry level) : Bool := entry.perm.v

end Entry

def index (level vpn : Nat) : Fin 512 :=
  ⟨vpn / bigPageSize level % 512, Nat.mod_lt _ (by decide)⟩

def createPTNode {level : Nat} : Table level := fun _ => .page {} 0

def freePTNode {level : Nat} (table : Table level) : Bool :=
  (List.finRange 512).all fun i => !(table i).isValid

/-! ## `trans` -/

def Entry.trans : {level : Nat} → Entry level → Nat → Kern Nat
  | level, page perm ppn, vpn => do
    assert_ perm.v "entry.isValid()"
    if perm.isLeaf then pure (ppn + vpn % bigPageSize level) else .error .wildPointer
  | level + 1, table _ _ sub, vpn => (sub (index level vpn)).trans vpn

def trans (root : Table 2) (vpn : Nat) : Kern Nat := (root (index 2 vpn)).trans vpn

def Entry.leafAt : {level : Nat} → Entry level → Nat → Option (Leaf Perm)
  | level, page perm ppn, _ =>
    if perm.v && perm.isLeaf then some ⟨bigPageSize level, ppn, perm⟩ else none
  | level + 1, table _ _ sub, vpn => (sub (index level vpn)).leafAt vpn

def leafAt {level : Nat} (table : Table level) (vpn : Nat) : Option (Leaf Perm) :=
  (table (index level vpn)).leafAt vpn

/-- What a page is translated to: the frame and the permission that its leaf gives it. -/
def look (root : Table 2) (v : Nat) : Option (Nat × Perm) :=
  (leafAt root v).map fun x => (x.frame v, x.perm)

theorem trans_eq_ok {root : Table 2} {vpn ppn : Nat} :
    trans root vpn = .ok ppn ↔ ∃ x, leafAt root vpn = some x ∧ x.frame vpn = ppn := by
  have hentry : ∀ {level : Nat} (entry : Entry level),
      entry.trans vpn = .ok ppn ↔ ∃ x, entry.leafAt vpn = some x ∧ x.frame vpn = ppn := by
    intro level entry
    induction entry with
    | page perm q =>
      cases hv : perm.v <;> cases hl : perm.isLeaf <;>
        simp [Entry.trans, Entry.leafAt, Leaf.frame, assert_, hv, hl, pure, Except.pure]
    | @table level perm node sub ih => exact ih (index level vpn)
  exact hentry _

/-! ## `createMapping` -/

/-- The node that a range inside one entry is mapped in, with the entry's new bits: the node that
exists, a new one with the pages of a leaf pushed down, or an empty one. The faults are a frame that
is taken for a node, and a new node that is made a leaf. -/
def subTable {level : Nat} (entry : Entry (level + 1))
    (pushdown : (prevppn : Nat) → (prevPerm : Perm) → Kern (Table level)) :
    Kern ({perm : Perm // perm.isNode = true} × Table level) :=
  match entry with
  | .table perm node sub => .ok (⟨perm, node⟩, sub)
  | .page perm ppn =>
    if perm.v then
      if perm.isLeaf then do
        let sub ← pushdown ppn perm
        pure (⟨perm.setPTNode.setValid, perm.setPTNode_setValid_isNode⟩, sub)
      else .error .wildPointer
    else if h : perm.setValid.isNode = true then .ok (⟨perm.setValid, h⟩, createPTNode)
    else .error .wildPointer

def mapInto {level : Nat} (table : Table (level + 1)) (vpn : Nat)
    (pushdown : (prevppn : Nat) → (prevPerm : Perm) → Kern (Table level))
    (create : Table level → Kern (Table level)) : Kern (Table (level + 1)) := do
  let (perm, sub) ← subTable (table (index (level + 1) vpn)) pushdown
  let sub ← create sub
  pure (update table (index (level + 1) vpn) (.table perm.1 perm.2 sub))

def when_ {level : Nat} (cond : Nat) (step : Table level → Kern (Table level))
    (table : Table level) : Kern (Table level) :=
  if cond = 0 then .ok table else step table

/-- The pages of a range before its first aligned one: `partial` in the source, and 0 where the
range starts aligned. -/
def unalignedPart (big vpn pages : Nat) : Nat :=
  if vpn % big = 0 then 0 else min (big - vpn % big) pages

/-- The loop over aligned whole entries, `for(i=...;pages>=bigPageSize;i++)`, which runs
`pages / bigPageSize` times. Nothing in it bounds `i`. -/
def mapWhole {level : Nat} (perm : Perm) :
    (n : Nat) → (table : Table level) → (i ppn : Nat) → Kern (Table level)
  | 0, table, _, _ => .ok table
  | n + 1, table, i, ppn =>
    if h : i < 512 then
      mapWhole perm n (update table ⟨i, h⟩ (.page perm (ppn % 2 ^ 44))) (i + 1)
        (ppn + bigPageSize level)
    else .error (.outOfBounds i)

/-- `PageTable::createMapping`. At level 0 an entry is one page, so no part of the range is
unaligned and none is left over. -/
def createMapping : (level : Nat) → (table : Table level) → (vpn ppn pages : Nat) → (perm : Perm) →
    Kern (Table level)
  | 0, table, vpn, ppn, pages, perm => mapWhole perm pages table (index 0 vpn) ppn
  | level + 1, table, vpn, ppn, pages, perm => do
    let big := bigPageSize (level + 1)
    let unaligned := vpn % big
    -- align vpn to boundary
    let part := unalignedPart big vpn pages
    let table ← when_ unaligned (fun table =>
      mapInto table vpn
        (fun prevppn prevPerm =>
          createMapping level createPTNode (vpn - unaligned) prevppn unaligned prevPerm)
        (fun sub => createMapping level sub vpn ppn part perm)) table
    -- map aligned whole pages
    let whole := (pages - part) / big
    let table ← mapWhole perm whole table (index (level + 1) (vpn + part)) (ppn + part)
    -- map rest pages
    let vpn := vpn + part + whole * big
    let ppn := ppn + part + whole * big
    let rest := pages - part - whole * big
    when_ rest (fun table =>
      mapInto table vpn
        (fun prevppn prevPerm =>
          createMapping level createPTNode (vpn + rest) (prevppn + rest) (big - rest) prevPerm)
        (fun sub => createMapping level sub vpn ppn rest perm)) table

/-! ## `removeMapping` -/

/-- `entry.setInvalid()` on a leaf; an invalid entry stays as it is. -/
def clearPage {level : Nat} (perm : Perm) (ppn : Nat) : Kern (Entry level) :=
  if perm.v then
    if perm.isLeaf then .ok (.page {} ppn) else .error .wildPointer
  else .ok (.page perm ppn)

def removeInto {level : Nat} (table : Table (level + 1)) (vpn : Nat)
    (remove : Table level → Kern (Table level)) : Kern (Table (level + 1)) :=
  match table (index (level + 1) vpn) with
  | .page perm _ =>
    if perm.v then do
      assert_ (!perm.isLeaf) "!entry.isLeaf()"
      .error .wildPointer
    else .ok table
  | .table perm node sub => do
    let sub ← remove sub
    pure (update table (index (level + 1) vpn)
      (if freePTNode sub then .page {} 0 else .table perm node sub))

def clearEntry {level : Nat} (remove : Table level → Kern (Table level)) :
    Entry (level + 1) → Kern (Entry (level + 1))
  | .page perm ppn => clearPage perm ppn
  | .table _ _ sub => do
    let sub ← remove sub
    assert_ (freePTNode sub) "freePTNode(entry.child())"
    pure (.page {} 0)

def clearLast : Entry 0 → Kern (Entry 0)
  | .page perm ppn => clearPage perm ppn

def removeWhole {level : Nat} (clear : (vpn : Nat) → Entry level → Kern (Entry level)) :
    (n : Nat) → (table : Table level) → (i vpn : Nat) → Kern (Table level)
  | 0, table, _, _ => .ok table
  | n + 1, table, i, vpn =>
    if h : i < 512 then do
      let entry ← clear vpn (table ⟨i, h⟩)
      removeWhole clear n (update table ⟨i, h⟩ entry) (i + 1) (vpn + bigPageSize level)
    else .error (.outOfBounds i)

def removeMapping : (level : Nat) → (table : Table level) → (vpn pages : Nat) → Kern (Table level)
  | 0, table, vpn, pages => removeWhole (fun _ => clearLast) pages table (index 0 vpn) vpn
  | level + 1, table, vpn, pages => do
    let big := bigPageSize (level + 1)
    let unaligned := vpn % big
    -- align vpn to boundary
    let part := unalignedPart big vpn pages
    let table ← when_ unaligned (fun table =>
      removeInto table vpn fun sub => removeMapping level sub vpn part) table
    -- unmap aligned whole pages
    let whole := (pages - part) / big
    let table ←
      removeWhole (fun vpn => clearEntry fun sub => removeMapping level sub vpn big) whole table
        (index (level + 1) (vpn + part)) (vpn + part)
    -- unmap rest pages
    let vpn := vpn + part + whole * big
    let rest := pages - part - whole * big
    when_ rest (fun table =>
      removeInto table vpn fun sub => removeMapping level sub vpn rest) table

end LuoOS.Vm
