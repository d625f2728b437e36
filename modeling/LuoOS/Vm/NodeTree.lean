import LuoOS.Vm.NodeHeap

/-!
# Trees in memory

Memory holds a tree of the abstract model (`Tree`) if its entries say what the tree's do, and there
is at most one way from the root to a frame. An operation may change the ledger of a frame only by
as much as the number of ways to it (`Effect`). `Tree.replace` carries this: whatever an operation
does at one entry, with frames that hang from it or come from the allocator, the other entries do
not notice. It is used for an operation below a node, a new node that is linked, and one that is
freed.
-/

namespace LuoOS.Vm

open Function

namespace Mem

/-! ## What memory holds -/

/-- Memory holds what the entry says. The frame of an entry that is not valid is left over from what
was there before. -/
def Stored (mem : Mem) : {level : Nat} → Entry level → Pte → Prop
  | _, .page perm ppn, e => e.perm = perm ∧ (perm.v = true → e.ppn = ppn)
  | _ + 1, .table perm _ sub, e => e.perm = perm ∧ ∀ i, mem.Stored (sub i) (mem.node e.ppn i)

/-- Memory holds the tree at node `n`, with one way at most to each frame and none back. -/
structure Tree (mem : Mem) {level : Nat} (table : Table level) (n : Nat) : Prop where
  stored : ∀ i, mem.Stored (table i) (mem.node n i)
  typed : Each Perm.Ok table
  once : ∀ f, mem.count level n f ≤ 1
  apart : mem.count level n n = 0

/-- What an operation below node `n` does with the frames `used` of the supply. -/
structure Effect (used : List Nat) (mem mem' : Mem) (level n : Nat) : Prop where
  supply : mem.supply = used ++ mem'.supply
  grows : ∀ f, 0 < mem'.count level n f → 0 < mem.count level n f ∨ f ∈ used
  ledger : ∀ f, mem'.ledger f + mem.count level n f = mem.ledger f + mem'.count level n f
  other : ∀ f, f ≠ n → mem.count level n f = 0 → f ∉ used → mem'.node f = mem.node f

/-- The frames of the supply are distinct and not in use. -/
structure Fresh (mem : Mem) (level n : Nat) : Prop where
  nodup : mem.supply.Nodup
  unused : ∀ f ∈ mem.supply, f ≠ n ∧ mem.count level n f = 0 ∧ f < 2 ^ 44

section Trees

variable {mem mem' mem'' : Mem} {level n f f : Nat} {used used' : List Nat} {perm : Perm}

theorem isNode_of_ok (h : perm.Ok) : perm.isNode = false := by
  unfold Perm.isNode
  rw [show perm.v = perm.isLeaf from h, Bool.and_not_self]

variable {e : Pte} {table : Table level} {entry : Entry level}

theorem Stored.perm_eq (h : mem.Stored entry e) : e.perm = entry.perm := by
  cases entry with
  | page perm ppn => exact h.1
  | table perm node sub => exact h.1

/-- What hangs from an entry is stored in the frames that hang from it. -/
theorem Stored.frame (h : mem.Stored entry e)
    (hf : ∀ g, 0 < mem.below level e g → mem'.node g = mem.node g) : mem'.Stored entry e := by
  induction entry generalizing e with
  | page perm ppn => exact h
  | table perm node sub ih =>
    obtain ⟨hperm, hsub⟩ := h
    have hnode : e.perm.isNode = true := by
      rw [hperm]
      exact node
    have hself : mem'.node e.ppn = mem.node e.ppn := by
      refine hf _ ?_
      rw [below_node hnode, if_pos rfl]
      omega
    refine ⟨hperm, fun i => ?_⟩
    rw [hself]
    refine ih i (hsub i) fun g hg => hf g ?_
    rw [below_node hnode]
    exact hg.trans_le ((below_le_count i).trans (Nat.le_add_left _ _))

theorem Tree.frame (h : Tree mem table n) (hn : mem'.node n = mem.node n)
    (hf : ∀ g, 0 < mem.count level n g → mem'.node g = mem.node g) : Tree mem' table n := by
  refine ⟨fun i => ?_, h.typed, fun f => ?_, ?_⟩
  · rw [hn]
    exact (h.stored i).frame fun g hg => hf g (hg.trans_le (below_le_count i))
  · rw [count_frame hn hf]
    exact h.once f
  · rw [count_frame hn hf]
    exact h.apart

/-! ## Effects -/

theorem Effect.refl : Effect [] mem mem level n :=
  ⟨rfl, fun _ h => .inl h, fun _ => rfl, fun _ _ _ _ => rfl⟩

theorem Effect.trans (h : Effect used mem mem' level n) (h' : Effect used' mem' mem'' level n) :
    Effect (used ++ used') mem mem'' level n := by
  refine ⟨?_, fun f hf => ?_, fun f => ?_, fun f hne hz hf => ?_⟩
  · rw [h.supply, h'.supply, List.append_assoc]
  · rcases h'.grows f hf with hf | hf
    · exact (h.grows f hf).imp_right (List.mem_append_left _)
    · exact .inr (List.mem_append_right _ hf)
  · have h1 := h.ledger f
    have h2 := h'.ledger f
    omega
  · rw [List.mem_append, not_or] at hf
    have hz' : mem'.count level n f = 0 := by
      by_contra hpos
      rcases h.grows f (Nat.pos_of_ne_zero hpos) with hp | hp
      · omega
      · exact hf.1 hp
    rw [h'.other f hne hz' hf.2, h.other f hne hz hf.1]

theorem Effect.mem_supply (h : Effect used mem mem' level n) (hf : f ∈ used) : f ∈ mem.supply := by
  rw [h.supply]
  exact List.mem_append_left _ hf

theorem Fresh.after (hfr : Fresh mem level n) (h : Effect used mem mem' level n) :
    Fresh mem' level n := by
  have hnodup := hfr.nodup
  rw [h.supply] at hnodup
  refine ⟨(List.nodup_append'.1 hnodup).2.1, fun f hf => ?_⟩
  have hmem : f ∈ mem.supply := by
    rw [h.supply]
    exact List.mem_append_right _ hf
  obtain ⟨hne, hz, hlt⟩ := hfr.unused f hmem
  refine ⟨hne, ?_, hlt⟩
  by_contra hpos
  rcases h.grows f (Nat.pos_of_ne_zero hpos) with hp | hp
  · omega
  · exact (List.nodup_append'.1 hnodup).2.2 hp hf

/-! ## One entry -/

/-- What an operation does at entry `i` of node `n`: it changes that entry, the frames that hang
from it and frames of the supply, and leaves there what the new entry says. -/
structure Change (used : List Nat) (mem mem' : Mem) {level : Nat} (n : Nat) (i : Fin 512)
    (entry : Entry level) : Prop where
  supply : mem.supply = used ++ mem'.supply
  unused : ∀ f ∈ used, f ≠ n ∧ mem.count level n f = 0
  entries : ∀ j, j ≠ i → mem'.node n j = mem.node n j
  other : ∀ f, f ≠ n → mem.below level (mem.node n i) f = 0 → f ∉ used → mem'.node f = mem.node f
  stored : mem'.Stored entry (mem'.node n i)
  typed : entry.Each Perm.Ok
  once : ∀ f, mem'.below level (mem'.node n i) f ≤ 1
  grows : ∀ f, 0 < mem'.below level (mem'.node n i) f →
    0 < mem.below level (mem.node n i) f ∨ f ∈ used
  ledger : ∀ f, mem'.ledger f + mem.below level (mem.node n i) f =
    mem.ledger f + mem'.below level (mem'.node n i) f

section

variable {table : Table level} {i : Fin 512} {entry : Entry level}

/-- The frames that hang from the other entries are as they were. -/
theorem Change.others (h : Change used mem mem' n i entry) (ht : Tree mem table n) {j : Fin 512}
    (hj : j ≠ i) {g : Nat} (hg : 0 < mem.below level (mem.node n j) g) :
    mem'.node g = mem.node g := by
  have hone := ht.once g
  have hsum : mem.below level (mem.node n i) g + mem.below level (mem.node n j) g ≤
      mem.count level n g := below_add_le_count hj
  refine h.other g ?_ (by omega) fun hused => ?_
  · rintro rfl
    have := ht.apart
    omega
  · have := (h.unused g hused).2
    omega

theorem Change.count (h : Change used mem mem' n i entry) (ht : Tree mem table n) (f : Nat) :
    mem'.count level n f + mem.below level (mem.node n i) f =
      mem.count level n f + mem'.below level (mem'.node n i) f := by
  refine count_change fun j hj => ?_
  rw [h.entries j hj]
  exact below_frame fun g hg => h.others ht hj hg

/-- **A change at one entry is a change of the tree at that entry.** -/
theorem Tree.replace (ht : Tree mem table n) (h : Change used mem mem' n i entry) :
    Tree mem' (update table i entry) n ∧ Effect used mem mem' level n := by
  have hle : ∀ f, mem.below level (mem.node n i) f ≤ mem.count level n f := fun f =>
    below_le_count i
  have hnew : ∀ f ∈ used, mem.count level n f = 0 := fun f hf => (h.unused f hf).2
  refine ⟨⟨fun j => ?_, ht.typed.update h.typed i, fun f => ?_, ?_⟩,
    ⟨h.supply, fun f hf => ?_, fun f => ?_, fun f hne hz hf => ?_⟩⟩
  · by_cases hj : j = i
    · subst hj
      rw [update_self]
      exact h.stored
    · rw [update_of_ne hj, h.entries j hj]
      exact (ht.stored j).frame fun g hg => h.others ht hj hg
  · -- the way through the new entry is an old one, or the only one to a new frame
    have h1 := h.count ht f
    have h2 := ht.once f
    have h3 := h.once f
    rcases Nat.eq_zero_or_pos (mem'.below level (mem'.node n i) f) with hz | hpos
    · omega
    rcases h.grows f hpos with hold | hused
    · omega
    · have := hnew f hused
      omega
  · have h1 := h.count ht n
    have h2 := ht.apart
    rcases Nat.eq_zero_or_pos (mem'.below level (mem'.node n i) n) with hz | hpos
    · omega
    rcases h.grows n hpos with hold | hused
    · have := hle n
      omega
    · exact absurd rfl (h.unused n hused).1
  · have h1 := h.count ht f
    rcases Nat.eq_zero_or_pos (mem'.below level (mem'.node n i) f) with hz | hpos
    · exact .inl (by omega)
    · rcases h.grows f hpos with hold | hused
      · exact .inl (hold.trans_le (hle f))
      · exact .inr hused
  · have h1 := h.count ht f
    have h2 := h.ledger f
    omega
  · exact h.other f hne (Nat.le_zero.1 (hz ▸ hle f)) hf

end

/-! ## Nodes below an entry -/

section

variable {table : Table (level + 1)} {i : Fin 512} {sub sub' : Table level}
  {node : perm.isNode = true}

section

variable (ht : Tree mem table n) (hi : table i = .table perm node sub)
include ht hi

theorem Tree.below_child (f : Nat) : mem.below (level + 1) (mem.node n i) f =
      (if (mem.node n i).ppn = f then 1 else 0) + mem.count level (mem.node n i).ppn f := by
  have hs := ht.stored i
  rw [hi] at hs
  refine below_node ?_
  rw [hs.1]
  exact node

theorem Tree.child : Tree mem sub (mem.node n i).ppn := by
  have hs := ht.stored i
  have htyped := ht.typed i
  rw [hi] at hs htyped
  have hle : ∀ f, (if (mem.node n i).ppn = f then 1 else 0) +
      mem.count level (mem.node n i).ppn f ≤ 1 := by
    intro f
    rw [← ht.below_child hi]
    exact (below_le_count i).trans (ht.once f)
  refine ⟨hs.2, htyped, fun f => (Nat.le_add_left _ _).trans (hle f), ?_⟩
  have := hle (mem.node n i).ppn
  rw [if_pos rfl] at this
  omega

theorem Tree.child_pos :
    0 < mem.count (level + 1) n (mem.node n i).ppn ∧ (mem.node n i).ppn ≠ n := by
  have hpos : 0 < mem.count (level + 1) n (mem.node n i).ppn := by
    refine Nat.lt_of_lt_of_le ?_ (below_le_count i)
    rw [ht.below_child hi, if_pos rfl]
    omega
  refine ⟨hpos, fun heq => ?_⟩
  rw [heq, ht.apart] at hpos
  exact Nat.lt_irrefl _ hpos

theorem Tree.count_child_le (f : Nat) :
    mem.count level (mem.node n i).ppn f ≤ mem.count (level + 1) n f := by
  refine Nat.le_trans ?_ (below_le_count i)
  rw [ht.below_child hi]
  exact Nat.le_add_left _ _

end

theorem Fresh.child (hfr : Fresh mem (level + 1) n) (ht : Tree mem table n)
    (hi : table i = .table perm node sub) : Fresh mem level (mem.node n i).ppn := by
  refine ⟨hfr.nodup, fun f hf => ?_⟩
  obtain ⟨-, hz, hlt⟩ := hfr.unused f hf
  refine ⟨?_, Nat.le_zero.1 (hz ▸ ht.count_child_le hi f), hlt⟩
  rintro rfl
  have := (ht.child_pos hi).1
  omega

/-- **What is done below the node of an entry is done below the node.** -/
theorem Tree.lift (ht : Tree mem table n) (hi : table i = .table perm node sub)
    (hunused : ∀ f ∈ used, f ≠ n ∧ mem.count (level + 1) n f = 0)
    (hc : Tree mem' sub' (mem.node n i).ppn) (he : Effect used mem mem' level (mem.node n i).ppn) :
    Tree mem' (update table i (.table perm node sub')) n ∧
      Effect used mem mem' (level + 1) n ∧ mem'.node n = mem.node n := by
  have hn : mem'.node n = mem.node n := by
    refine he.other n (ht.child_pos hi).2.symm ?_ fun hused => (hunused n hused).1 rfl
    exact Nat.le_zero.1 (ht.apart ▸ ht.count_child_le hi n)
  have hs := ht.stored i
  rw [hi] at hs
  have hnode : (mem.node n i).perm.isNode = true := by
    rw [hs.1]
    exact node
  have hbelow := ht.below_child hi
  have hbelow' : ∀ f, mem'.below (level + 1) (mem'.node n i) f =
      (if (mem.node n i).ppn = f then 1 else 0) + mem'.count level (mem.node n i).ppn f := by
    intro f
    rw [hn, below_node hnode]
  have hchange : Change used mem mem' n i (.table perm node sub') := by
    refine ⟨he.supply, hunused, fun j _ => by rw [hn], fun f hne hz hf => ?_, ?_, hc.typed,
      fun f => ?_, fun f hpos => ?_, fun f => ?_⟩
    · rw [hbelow] at hz
      refine he.other f ?_ (by omega) hf
      rintro rfl
      rw [if_pos rfl] at hz
      omega
    · rw [hn]
      exact ⟨hs.1, hc.stored⟩
    · rw [hbelow']
      split
      · rename_i heq
        have := hc.apart
        rw [← heq]
        omega
      · have := hc.once f
        omega
    · rw [hbelow'] at hpos
      rw [hbelow]
      split at hpos
      · rename_i heq
        rw [if_pos heq]
        exact .inl (by omega)
      · rcases he.grows f (by omega) with hold | hused
        · exact .inl (by omega)
        · exact .inr hused
    · have := he.ledger f
      rw [hbelow, hbelow']
      omega
  obtain ⟨htree, heffect⟩ := ht.replace hchange
  exact ⟨htree, heffect, hn⟩

end

/-! ## New nodes -/

section

variable {i : Fin 512} {sub : Table level} {mem0 mem2 : Mem}

@[simp] theorem setEntry_self (mem : Mem) (n : Nat) (i : Fin 512) (e : Pte) :
    (mem.setEntry n i e).node n i = e := by
  simp [setEntry]

theorem setEntry_entry (mem : Mem) (n : Nat) {i j : Fin 512} (e : Pte) (h : j ≠ i) :
    (mem.setEntry n i e).node n j = mem.node n j := by
  simp [setEntry, h]

theorem setEntry_other (mem : Mem) {n : Nat} (i : Fin 512) (e : Pte) (h : f ≠ n) :
    (mem.setEntry n i e).node f = mem.node f := by
  simp [setEntry, h]

theorem tree_zero (h : ∀ j, mem.node f j = {}) : Tree mem (Vm.createPTNode : Table level) f := by
  have hz : ∀ g, mem.count level f g = 0 := fun g => count_eq_zero fun j => by rw [h j]
  refine ⟨fun j => ?_, createPTNode_each rfl, fun g => by rw [hz]; exact Nat.zero_le _, hz f⟩
  rw [h j]
  exact ⟨rfl, nofun⟩

/-- A new node `f` for entry `i`, which is not linked yet. -/
structure Built (used : List Nat) (mem mem2 : Mem) (n : Nat) (i : Fin 512) (f : Nat)
    {level : Nat} (sub : Table level) : Prop where
  supply : mem.supply = f :: used ++ mem2.supply
  tree : Tree mem2 sub f
  entries : ∀ j, j ≠ i → mem2.node n j = mem.node n j
  other : ∀ g, g ≠ n → g ≠ f → g ∉ used → mem2.node g = mem.node g
  grows : ∀ g, 0 < mem2.count level f g → g ∈ used
  ledger : ∀ g, mem2.ledger g =
    mem.ledger g + (if f = g then 1 else 0 : Nat) + mem2.count level f g

theorem Built.of_effect (hfr : Fresh mem (level + 1) n) (hsup : mem.supply = f :: mem0.supply)
    (hzero : ∀ j, mem0.node f j = {}) (hentries : ∀ j, j ≠ i → mem0.node n j = mem.node n j)
    (hother : ∀ g, g ≠ n → g ≠ f → mem0.node g = mem.node g)
    (hledger : ∀ g, mem0.ledger g = mem.ledger g + (if f = g then 1 else 0 : Nat))
    (htree : Tree mem2 sub f) (he : Effect used mem0 mem2 level f) :
    Built used mem mem2 n i f sub ∧ mem2.node n = mem0.node n := by
  have hz : ∀ g, mem0.count level f g = 0 := fun g => count_eq_zero fun j => by rw [hzero j]
  have hused : ∀ g ∈ used, g ∈ mem.supply := fun g hg => by
    rw [hsup]
    exact List.mem_cons_of_mem _ (he.mem_supply hg)
  have hn : mem2.node n = mem0.node n := by
    refine he.other n ?_ (hz n) fun hmem => (hfr.unused n (hused n hmem)).1 rfl
    rintro rfl
    refine (hfr.unused n ?_).1 rfl
    rw [hsup]
    exact List.mem_cons_self
  refine ⟨⟨?_, htree, fun j hj => ?_, fun g h1 h2 h3 => ?_, fun g hg => ?_, fun g => ?_⟩, hn⟩
  · rw [hsup, he.supply]
    rfl
  · rw [hn]
    exact hentries j hj
  · rw [he.other g h2 (hz g) h3, hother g h1 h2]
  · refine (he.grows g hg).resolve_left ?_
    rw [hz]
    exact Nat.lt_irrefl 0
  · have h1 := he.ledger g
    have h2 := hledger g
    rw [hz] at h1
    omega

/-- **Linking a new node** into an entry that held none. -/
theorem Tree.link {table : Table (level + 1)} (ht : Tree mem table n)
    (hfr : Fresh mem (level + 1) n) (hold : ∀ g, mem.below (level + 1) (mem.node n i) g = 0)
    (hb : Built used mem mem2 n i f sub) (node : perm.isNode = true) :
    Tree (mem2.setEntry n i ⟨perm, f % 2 ^ 44⟩) (update table i (.table perm node sub)) n ∧
      Effect (f :: used) mem (mem2.setEntry n i ⟨perm, f % 2 ^ 44⟩) (level + 1) n := by
  have hmem : ∀ g ∈ f :: used, g ∈ mem.supply := fun g hg => by
    rw [hb.supply]
    exact List.mem_append_left _ hg
  have hne : f ≠ n := (hfr.unused f (hmem f List.mem_cons_self)).1
  have hmod : f % 2 ^ 44 = f :=
    Nat.mod_eq_of_lt (hfr.unused f (hmem f List.mem_cons_self)).2.2
  have hself : (mem2.setEntry n i ⟨perm, f % 2 ^ 44⟩).node n i = ⟨perm, f⟩ := by
    rw [setEntry_self, hmod]
  -- the entry is no part of the new node
  have hf : (mem2.setEntry n i ⟨perm, f % 2 ^ 44⟩).node f = mem2.node f :=
    setEntry_other _ _ _ hne
  have hframe : ∀ g, 0 < mem2.count level f g →
      (mem2.setEntry n i ⟨perm, f % 2 ^ 44⟩).node g = mem2.node g := fun g hg =>
    setEntry_other _ _ _ (hfr.unused g (hmem g (List.mem_cons_of_mem _ (hb.grows g hg)))).1
  have htree := hb.tree.frame hf hframe
  have hbelow : ∀ g, (mem2.setEntry n i ⟨perm, f % 2 ^ 44⟩).below (level + 1) ⟨perm, f⟩ g =
      (if f = g then 1 else 0) + mem2.count level f g := by
    intro g
    rw [below_node node, count_frame hf hframe]
  refine ht.replace ⟨hb.supply, fun g hg => ?_, fun j hj => ?_, fun g h1 _ h3 => ?_, ?_,
    htree.typed, fun g => ?_, fun g hpos => ?_, fun g => ?_⟩
  · exact ⟨(hfr.unused g (hmem g hg)).1, (hfr.unused g (hmem g hg)).2.1⟩
  · rw [setEntry_entry _ _ _ hj, hb.entries j hj]
  · rw [List.mem_cons, not_or] at h3
    rw [setEntry_other _ _ _ h1, hb.other g h1 h3.1 h3.2]
  · rw [hself]
    exact ⟨rfl, htree.stored⟩
  · rw [hself, hbelow]
    have h1 := hb.tree.once g
    have h2 := hb.tree.apart
    split
    · rename_i heq
      subst heq
      omega
    · omega
  · rw [hself, hbelow] at hpos
    right
    split at hpos
    · rename_i heq
      rw [heq]
      exact List.mem_cons_self
    · exact List.mem_cons_of_mem _ (hb.grows g (by omega))
  · have h1 := hb.ledger g
    rw [hself, hbelow, hold g]
    change mem2.ledger g + _ = _
    omega

end

/-! ## Leaves and freed nodes -/

theorem Tree.setPage {i : Fin 512} (ht : Tree mem table n)
    (hold : (mem.node n i).perm.isNode = false) (hok : e.perm.Ok) :
    Tree (mem.setEntry n i e) (update table i (.page e.perm e.ppn)) n ∧
      Effect [] mem (mem.setEntry n i e) level n := by
  have hz : ∀ f, mem.below level (mem.node n i) f = 0 := fun f => below_leaf hold
  have hz' : ∀ f, (mem.setEntry n i e).below level ((mem.setEntry n i e).node n i) f = 0 := by
    intro f
    rw [setEntry_self]
    exact below_leaf (isNode_of_ok hok)
  refine ht.replace ⟨rfl, nofun, fun j hj => setEntry_entry _ _ _ hj,
    fun f hne _ _ => setEntry_other _ _ _ hne, ?_, hok, fun f => ?_, fun f hpos => ?_, fun f => ?_⟩
  · rw [setEntry_self]
    exact ⟨rfl, fun _ => rfl⟩
  · rw [hz']
    exact Nat.zero_le _
  · rw [hz'] at hpos
    exact absurd hpos (Nat.lt_irrefl 0)
  · rw [hz, hz']
    rfl

theorem freePTNode_eq (ht : Tree mem table n) :
    ((List.finRange 512).all fun i => !(mem.node n i).perm.v) = Vm.freePTNode table := by
  unfold Vm.freePTNode Entry.isValid
  congr 1
  funext i
  rw [(ht.stored i).perm_eq]

theorem Tree.setInvalid {i : Fin 512} (ht : Tree mem table n)
    (hold : (mem.node n i).perm.isNode = false) :
    Tree (mem.setInvalid n i) (update table i (.page {} (mem.node n i).ppn)) n ∧
      Effect [] mem (mem.setInvalid n i) level n :=
  ht.setPage (e := { mem.node n i with perm := {} }) hold rfl

section

variable {table : Table (level + 1)} {i : Fin 512} {sub : Table level} {node : perm.isNode = true}

/-- **Freeing the node of an entry** and making the entry invalid. -/
theorem Tree.unlink (ht : Tree mem table n) (hi : table i = .table perm node sub)
    (hfree : Vm.freePTNode sub = true) (hm : mem.freePTNode (mem.node n i).ppn = (true, mem')) :
    Tree (mem'.setInvalid n i) (update table i (.page {} 0)) n ∧
      Effect [] mem (mem'.setInvalid n i) (level + 1) n := by
  have hc := ht.child hi
  have hz : ∀ f, mem.count level (mem.node n i).ppn f = 0 := by
    intro f
    refine count_eq_zero fun j => ?_
    rw [← freePTNode_eq hc] at hfree
    have := List.all_eq_true.1 hfree j (List.mem_finRange _)
    simpa using this
  have hnodes : mem'.node = mem.node := by
    unfold freePTNode at hm
    split at hm
    · cases hm
      rfl
    · cases hm
  have hledger : ∀ f, mem'.ledger f =
      mem.ledger f - (if (mem.node n i).ppn = f then 1 else 0 : Nat) := by
    intro f
    unfold freePTNode at hm
    split at hm
    · cases hm
      by_cases hf : f = (mem.node n i).ppn
      · subst hf
        simp
      · rw [if_neg (Ne.symm hf)]
        simp [hf]
    · cases hm
  have hsupply : mem.supply = [] ++ (mem'.setInvalid n i).supply := by
    unfold freePTNode at hm
    split at hm
    · cases hm
      rfl
    · cases hm
  have hbelow : ∀ f, mem.below (level + 1) (mem.node n i) f =
      if (mem.node n i).ppn = f then 1 else 0 := by
    intro f
    rw [ht.below_child hi, hz, Nat.add_zero]
  have hself : (mem'.setInvalid n i).node n i = { mem'.node n i with perm := {} } :=
    setEntry_self ..
  have hbelow' : ∀ f,
      (mem'.setInvalid n i).below (level + 1) ((mem'.setInvalid n i).node n i) f = 0 := by
    intro f
    rw [hself]
    exact below_leaf rfl
  refine ht.replace ⟨hsupply, nofun, fun j hj => ?_, fun f hne _ _ => ?_, ?_,
    Entry.each_page.2 rfl, fun f => ?_, fun f hpos => ?_, fun f => ?_⟩
  · unfold Mem.setInvalid
    rw [setEntry_entry _ _ _ hj, hnodes]
  · unfold Mem.setInvalid
    rw [setEntry_other _ _ _ hne, hnodes]
  · rw [hself]
    exact ⟨rfl, nofun⟩
  · rw [hbelow']
    exact Nat.zero_le _
  · rw [hbelow'] at hpos
    exact absurd hpos (Nat.lt_irrefl 0)
  · rw [hbelow', hbelow]
    have := hledger f
    change mem'.ledger f + _ = _
    omega

end

end Trees

end Mem

end LuoOS.Vm
