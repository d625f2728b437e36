import LuoOS.Vm.NodeSim
import LuoOS.Vm.RemoveTotal

/-!
# What `removeMapping` does in memory

The page table in memory, with any bits in the entries that are not valid. The tree is read off
memory (`treeOf`), and the bits of invalid entries are cleared first (`clean`), which no step of
`removeMapping` notices. A call for a range that cuts no superpage then returns, clears the range,
and frees the nodes that it empties, each once. An empty range inside a superpage is the exception:
the branch for an unaligned start meets the leaf.
-/

namespace LuoOS.Vm

open Translation Function

namespace Mem

/-! ## Walks -/

def leafOf (level : Nat) (e : Pte) : Option (Leaf Perm) :=
  if e.perm.v && e.perm.isLeaf then some ⟨bigPageSize level, e.ppn, e.perm⟩ else none

def leafAt (mem : Mem) : (level n v : Nat) → Option (Leaf Perm)
  | 0, n, v => leafOf 0 (mem.node n (index 0 v))
  | level + 1, n, v =>
    let e := mem.node n (index (level + 1) v)
    if e.perm.isNode then mem.leafAt level e.ppn v else leafOf (level + 1) e

def Lowest (mem : Mem) : (level n : Nat) → Prop
  | 0, n => ∀ i, (mem.node n i).perm.v = true → (mem.node n i).perm.isLeaf = true
  | level + 1, n => ∀ i, (mem.node n i).perm.isNode = true → mem.Lowest level (mem.node n i).ppn

/-- A tree of three levels hangs from `root`. -/
structure WellFormed (mem : Mem) (root : Nat) : Prop where
  once : ∀ f, mem.count 2 root f ≤ 1
  apart : mem.count 2 root root = 0
  lowest : mem.Lowest 2 root

/-! ## The tree in memory -/

def treeOf (mem : Mem) : (level n : Nat) → Table level
  | 0, n => fun i => .page (mem.node n i).perm (mem.node n i).ppn
  | level + 1, n => fun i =>
    if h : (mem.node n i).perm.isNode = true then
      .table (mem.node n i).perm h (mem.treeOf level (mem.node n i).ppn)
    else .page (mem.node n i).perm (mem.node n i).ppn

def Clean (mem : Mem) : Prop := ∀ n i, (mem.node n i).perm.v = false → (mem.node n i).perm = {}

variable {root : Nat}

section

variable {mem : Mem} {level n : Nat}

theorem stored_treeOf (mem : Mem) (level n : Nat) (i : Fin 512) :
    mem.Stored (mem.treeOf level n i) (mem.node n i) := by
  induction level generalizing n i with
  | zero => exact ⟨rfl, fun _ => rfl⟩
  | succ level ih =>
    unfold treeOf
    split
    · exact ⟨rfl, fun j => ih _ j⟩
    · exact ⟨rfl, fun _ => rfl⟩

/-- An entry without a node is a leaf or has no bits. -/
theorem Clean.ok (hclean : mem.Clean) {i : Fin 512}
    (h : (mem.node n i).perm.v = true → (mem.node n i).perm.isLeaf = true) :
    (mem.node n i).perm.Ok := by
  cases hv : (mem.node n i).perm.v with
  | true => exact hv.trans (h hv).symm
  | false =>
    rw [hclean n i hv]
    decide

theorem typed_treeOf (hclean : mem.Clean) (h : mem.Lowest level n) :
    Each Perm.Ok (mem.treeOf level n) := by
  induction level generalizing n with
  | zero => exact fun i => hclean.ok (h i)
  | succ level ih =>
    intro i
    unfold treeOf
    split
    · rename_i hnode
      exact ih (h i hnode)
    rename_i hnode
    refine hclean.ok fun hv => ?_
    unfold Perm.isNode at hnode
    rw [hv, Bool.true_and, Bool.not_eq_true', Bool.not_eq_false] at hnode
    exact hnode

theorem WellFormed.tree (h : mem.WellFormed root) (hclean : mem.Clean) :
    Tree mem (mem.treeOf 2 root) root :=
  ⟨stored_treeOf mem 2 root, typed_treeOf hclean h.lowest, h.once, h.apart⟩

variable {table : Table level}

theorem Tree.lowest (ht : Tree mem table n) : mem.Lowest level n := by
  induction level generalizing n with
  | zero =>
    intro i hv
    have hs := ht.stored i
    have htyped := ht.typed i
    cases hi : table i with
    | page perm ppn =>
      rw [hi] at hs htyped
      rw [hs.1] at hv ⊢
      exact htyped.symm.trans hv
  | succ level ih =>
    intro i hnode
    have hs := ht.stored i
    have htyped := ht.typed i
    cases hi : table i with
    | table perm node sub => exact ih (ht.child hi)
    | page perm ppn =>
      rw [hi] at hs htyped
      rw [hs.1, isNode_of_ok htyped] at hnode
      cases hnode

theorem Tree.leafAt_eq (ht : Tree mem table n) (v : Nat) :
    mem.leafAt level n v = Vm.leafAt table v := by
  unfold Vm.leafAt
  induction level generalizing n with
  | zero =>
    have hs := ht.stored (index 0 v)
    cases hi : table (index 0 v) with
    | page perm ppn =>
      rw [hi] at hs
      obtain ⟨hperm, hppn⟩ := hs
      unfold leafAt leafOf Entry.leafAt
      rw [hperm]
      split
      · rename_i hleaf
        rw [hppn (Bool.and_eq_true_iff.1 hleaf).1]
      · rfl
  | succ level ih =>
    have hs := ht.stored (index (level + 1) v)
    have htyped := ht.typed (index (level + 1) v)
    unfold leafAt
    dsimp only
    cases hi : table (index (level + 1) v) with
    | table perm node sub =>
      rw [hi] at hs
      rw [hs.1, if_pos node, ih (ht.child hi)]
      rfl
    | page perm ppn =>
      rw [hi] at hs htyped
      obtain ⟨hperm, hppn⟩ := hs
      rw [hperm, isNode_of_ok htyped, if_neg Bool.false_ne_true]
      unfold leafOf Entry.leafAt
      rw [hperm]
      split
      · rename_i hleaf
        rw [hppn (Bool.and_eq_true_iff.1 hleaf).1]
      · rfl

end

/-! ## Bits of invalid entries -/

def clean (mem : Mem) : Mem :=
  { mem with node := fun n i =>
      if (mem.node n i).perm.v then mem.node n i else { mem.node n i with perm := {} } }

section Clean

variable (mem : Mem) (n : Nat) (i : Fin 512)

theorem clean_node : mem.clean.node n i =
      if (mem.node n i).perm.v then mem.node n i else { mem.node n i with perm := {} } :=
  rfl

@[simp] theorem clean_ppn : (mem.clean.node n i).ppn = (mem.node n i).ppn := by
  rw [clean_node]
  split <;> rfl

@[simp] theorem clean_valid : (mem.clean.node n i).perm.v = (mem.node n i).perm.v := by
  rw [clean_node]
  split
  · rfl
  · rename_i hv
    rw [Bool.not_eq_true] at hv
    rw [hv]

theorem clean_of_valid {mem : Mem} {n : Nat} {i : Fin 512} (h : (mem.node n i).perm.v = true) :
    mem.clean.node n i = mem.node n i := by
  rw [clean_node, if_pos h]

@[simp] theorem clean_isNode : (mem.clean.node n i).perm.isNode = (mem.node n i).perm.isNode := by
  cases hv : (mem.node n i).perm.v with
  | true => rw [clean_of_valid hv]
  | false =>
    unfold Perm.isNode
    rw [clean_valid, hv, Bool.false_and, Bool.false_and]

theorem clean_clean : mem.clean.Clean := by
  intro n i hv
  rw [clean_valid] at hv
  rw [clean_node, hv, if_neg Bool.false_ne_true]

theorem leafOf_clean (level : Nat) :
    leafOf level (mem.clean.node n i) = leafOf level (mem.node n i) := by
  cases hv : (mem.node n i).perm.v with
  | true => rw [clean_of_valid hv]
  | false =>
    unfold leafOf
    rw [clean_valid, hv, Bool.false_and, Bool.false_and, if_neg Bool.false_ne_true,
      if_neg Bool.false_ne_true]

theorem leafAt_clean (level v : Nat) : mem.clean.leafAt level n v = mem.leafAt level n v := by
  induction level generalizing n with
  | zero => exact leafOf_clean mem n _ 0
  | succ level ih =>
    unfold leafAt
    dsimp only
    rw [clean_isNode, clean_ppn, leafOf_clean, ih]

theorem below_clean (level f : Nat) :
    mem.clean.below level (mem.clean.node n i) f = mem.below level (mem.node n i) f := by
  induction level generalizing n i with
  | zero => rfl
  | succ level ih =>
    unfold below
    rw [clean_isNode, clean_ppn]
    simp only [ih]

theorem count_clean (level f : Nat) : mem.clean.count level n f = mem.count level n f :=
  Finset.sum_congr rfl fun i _ => below_clean mem n i level f

theorem lowest_clean {level : Nat} (h : mem.Lowest level n) : mem.clean.Lowest level n := by
  induction level generalizing n with
  | zero =>
    intro i hv
    rw [clean_valid] at hv
    rw [clean_of_valid hv]
    exact h i hv
  | succ level ih =>
    intro i hnode
    rw [clean_isNode] at hnode
    rw [clean_ppn]
    exact ih _ (h i hnode)

theorem WellFormed.clean {mem : Mem} (h : mem.WellFormed root) : mem.clean.WellFormed root :=
  ⟨fun f => by rw [count_clean]; exact h.once f, by rw [count_clean]; exact h.apart,
    lowest_clean mem root h.lowest⟩

end Clean

section Commutes

def Commutes (step : Mem → Kern Mem) : Prop :=
  ∀ mem, step mem.clean = step mem >>= fun mem => .ok mem.clean

variable {step : Mem → Kern Mem}

theorem Commutes.bind {next : Mem → Kern Mem} (h : Commutes step)
    (h' : Commutes next) : Commutes fun mem => step mem >>= next := by
  intro mem
  dsimp only
  rw [h mem, bind_assoc, bind_assoc]
  exact bind_congr fun mem' => h' mem'

theorem Commutes.when {cond : Nat} (h : Commutes step) : Commutes (when_ cond step) := by
  intro mem
  unfold when_
  split
  · rfl
  · exact h mem

theorem setInvalid_clean (mem : Mem) (n : Nat) (i : Fin 512) :
    mem.clean.setInvalid n i = (mem.setInvalid n i).clean := by
  unfold setInvalid setEntry clean
  congr 1
  funext m j
  by_cases hm : m = n
  · subst hm
    by_cases hj : j = i
    · subst hj
      simp only [update_self]
      split <;> rfl
    · simp only [update_self, update_of_ne hj]
  · simp only [update_of_ne hm]

theorem freePTNode_clean (mem : Mem) (n : Nat) :
    mem.clean.freePTNode n = ((mem.freePTNode n).1, (mem.freePTNode n).2.clean) := by
  unfold freePTNode
  simp only [clean_valid]
  split <;> rfl

variable {remove : Mem → Nat → Kern Mem}

theorem removeInto_commutes (h : ∀ sub, Commutes fun mem => remove mem sub) (n : Nat)
    (i : Fin 512) : Commutes fun mem => mem.removeInto n i remove := by
  intro mem
  unfold removeInto
  dsimp only
  cases hv : (mem.node n i).perm.v with
  | false => rw [clean_valid, hv, if_neg Bool.false_ne_true, if_neg Bool.false_ne_true, ok_bind]
  | true =>
    have hremove : remove mem.clean (mem.node n i).ppn = remove mem (mem.node n i).ppn >>= fun mem =>
        .ok mem.clean := h _ mem
    rw [clean_of_valid hv, hv, if_pos rfl, if_pos rfl]
    cases (mem.node n i).perm.isLeaf with
    | true => rfl
    | false =>
      rw [Bool.not_false, assert_true, ok_bind, ok_bind, hremove, bind_assoc, bind_assoc]
      refine bind_congr fun mem1 => ?_
      rw [ok_bind, freePTNode_clean]
      generalize mem1.freePTNode (mem.node n i).ppn = r
      obtain ⟨freed, mem2⟩ := r
      cases freed with
      | false => rfl
      | true => exact congrArg Except.ok (setInvalid_clean ..)

theorem clearEntry_commutes (h : ∀ sub, Commutes fun mem => remove mem sub) (n : Nat)
    (i : Fin 512) : Commutes fun mem => mem.clearEntry n i remove := by
  intro mem
  unfold clearEntry
  dsimp only
  cases hv : (mem.node n i).perm.v with
  | false => rw [clean_valid, hv, if_neg Bool.false_ne_true, if_neg Bool.false_ne_true, ok_bind]
  | true =>
    have hremove : remove mem.clean (mem.node n i).ppn = remove mem (mem.node n i).ppn >>= fun mem =>
        .ok mem.clean := h _ mem
    rw [clean_of_valid hv, hv, if_pos rfl, if_pos rfl]
    split
    · exact congrArg Except.ok (setInvalid_clean ..)
    rw [hremove, bind_assoc, bind_assoc]
    refine bind_congr fun mem1 => ?_
    rw [ok_bind, freePTNode_clean]
    generalize mem1.freePTNode (mem.node n i).ppn = r
    obtain ⟨freed, mem2⟩ := r
    cases freed with
    | false => rfl
    | true => exact congrArg Except.ok (setInvalid_clean ..)

theorem removeWhole_commutes {remove : Nat → Mem → Nat → Kern Mem}
    (h : ∀ vpn sub, Commutes fun mem => remove vpn mem sub) (level n : Nat) :
    ∀ k i vpn, Commutes fun mem => mem.removeWhole level n remove k i vpn := by
  intro k
  induction k with
  | zero => exact fun _ _ _ => rfl
  | succ k ih =>
    intro i vpn mem
    unfold removeWhole
    split
    · rename_i hi
      exact ((clearEntry_commutes (h vpn) n ⟨i, hi⟩).bind (ih (i + 1) (vpn + bigPageSize level))) mem
    · rfl

/-- **`removeMapping` does not notice the bits of invalid entries.** -/
theorem removeMapping_commutes (level n vpn pages : Nat) :
    Commutes fun mem => mem.removeMapping level n vpn pages := by
  induction level generalizing n vpn pages with
  | zero => exact removeWhole_commutes (fun _ _ _ => rfl) _ _ _ _ _
  | succ level ih =>
    intro mem
    exact ((removeInto_commutes (fun sub => ih sub vpn _) n _).when.bind
      ((removeWhole_commutes (fun vpn sub => ih sub vpn _) _ n _ _ _).bind
        (removeInto_commutes (fun sub => ih sub _ _) n _).when)) mem

end Commutes

/-! ## Whole calls -/

def CutsNone (mem : Mem) (root vpn pages : Nat) : Prop :=
  ∀ v, v < 2 ^ 27 → ∀ y, mem.leafAt 2 root v = some y →
    ∀ w, InRange (y.base v) y.size w → (InRange vpn pages w ↔ InRange vpn pages v)

/-- The range, and nothing else, has lost its translation. The nodes that became empty are unlinked
and given back once, and no other is. -/
structure RangeRemoved (mem mem' : Mem) (root vpn pages : Nat) : Prop where
  gone : ∀ v, v < 2 ^ 27 → InRange vpn pages v → mem'.leafAt 2 root v = none
  kept : ∀ v, v < 2 ^ 27 → ¬InRange vpn pages v → mem'.leafAt 2 root v = mem.leafAt 2 root v
  freed : ∀ f, mem.Below 2 root f → (∃ i, (mem.node f i).perm.v = true) →
    (∀ i, (mem'.node f i).perm.v = false) →
      ¬mem'.Below 2 root f ∧ mem'.ledger f = mem.ledger f - 1
  held : ∀ f, (mem'.Below 2 root f ↔ mem.Below 2 root f) → mem'.ledger f = mem.ledger f

section Calls

variable {mem mem' : Mem} {root vpn pages : Nat}

theorem CutsNone.inside (h : mem.CutsNone root vpn pages) {v : Nat} (hv : v < 2 ^ 27)
    (hr : InRange vpn pages v) {y : Leaf Perm} (hy : mem.leafAt 2 root v = some y)
    (hpos : 0 < y.size) : y.Inside v vpn pages := by
  have hfirst := (h v hv y hy (y.base v) ⟨le_rfl, by omega⟩).2 hr
  have hlast := (h v hv y hy (y.base v + y.size - 1) ⟨by omega, by omega⟩).2 hr
  have h1 := hfirst.1
  have h2 := hlast.2
  exact ⟨h1, by omega⟩

/-- Memory before and after, seen without the bits of invalid entries. -/
theorem Prunes.rangeRemoved {table : Table 2} {table' : Table 2}
    (ht : Tree mem.clean table root) (hp : Prunes mem.clean mem'.clean table' root)
    (hclears : Clears (· < 2 ^ 27) (Vm.leafAt table) (Vm.leafAt table') vpn pages) :
    RangeRemoved mem mem' root vpn pages := by
  have hleaf : ∀ v, mem.leafAt 2 root v = Vm.leafAt table v := fun v => by
    rw [← leafAt_clean, ht.leafAt_eq]
  have hleaf' : ∀ v, mem'.leafAt 2 root v = Vm.leafAt table' v := fun v => by
    rw [← leafAt_clean, hp.tree.leafAt_eq]
  have hledger : ∀ f, mem'.ledger f + mem.count 2 root f = mem.ledger f + mem'.count 2 root f := by
    intro f
    have h := hp.effect.ledger f
    rw [count_clean, count_clean] at h
    exact h
  have honce : ∀ f, mem.count 2 root f ≤ 1 := fun f => by
    have h := ht.once f
    rwa [count_clean] at h
  have honce' : ∀ f, mem'.count 2 root f ≤ 1 := fun f => by
    have h := hp.tree.once f
    rwa [count_clean] at h
  refine ⟨fun v hv hr => ?_, fun v hv hr => ?_, fun f hbelow ⟨i, hi⟩ hempty => ?_, fun f hiff => ?_⟩
  · rw [hleaf', hclears.cleared v hv hr]
  · rw [hleaf', hleaf, hclears.kept v hv hr]
  · -- a node that is still linked is as before or has a valid entry
    have hgone : ¬0 < mem'.count 2 root f := by
      intro hpos
      rw [← count_clean] at hpos
      rcases hp.trims f hpos with heq | ⟨j, hj⟩
      · have hsame := congrArg (·.perm.v) (congrFun heq i)
        rw [clean_valid, clean_valid, hempty i, hi] at hsame
        cases hsame
      · rw [clean_valid, hempty j] at hj
        cases hj
    refine ⟨fun hb => hgone (count_pos_iff.2 hb), ?_⟩
    have h1 := hledger f
    have h2 := honce f
    have h3 : 0 < mem.count 2 root f := count_pos_iff.2 hbelow
    omega
  · rw [← count_pos_iff, ← count_pos_iff] at hiff
    have h1 := hledger f
    have h2 := honce f
    have h3 := honce' f
    omega

theorem WellFormed.removeMapping_outcome (hwf : mem.WellFormed root) (vpn pages : Nat) :
    (∃ e e', mem.removeMapping 2 root vpn pages = .error e ∧
        Vm.removeMapping 2 (mem.clean.treeOf 2 root) vpn pages = .error e') ∨
      ∃ mem' table', mem.removeMapping 2 root vpn pages = .ok mem' ∧
        Vm.removeMapping 2 (mem.clean.treeOf 2 root) vpn pages = .ok table' ∧
          Prunes mem.clean mem'.clean table' root := by
  have ht := hwf.clean.tree mem.clean_clean
  have hcomm : mem.clean.removeMapping 2 root vpn pages =
      mem.removeMapping 2 root vpn pages >>= fun mem => .ok mem.clean :=
    removeMapping_commutes 2 root vpn pages mem
  rcases (removeMapping_matches 2 _ _ _ vpn pages ht).outcome with
    ⟨e, e', hmem, htable⟩ | ⟨mem1, table', hmem, htable, hp⟩
  · left
    cases hr : mem.removeMapping 2 root vpn pages with
    | error e => exact ⟨e, e', rfl, htable⟩
    | ok mem' =>
      rw [hmem, hr] at hcomm
      cases hcomm
  · right
    rw [hmem] at hcomm
    obtain ⟨mem', hr, heq⟩ := bind_eq_ok hcomm.symm
    cases heq
    exact ⟨mem', table', hr, htable, hp⟩

/-- **`removeMapping` removes exactly its range**, for every range that cuts no leaf, unless the
range is empty and begins inside a leaf. -/
theorem removeMapping_removes (hwf : mem.WellFormed root) (hfit : vpn + pages ≤ 2 ^ 27)
    (hcuts : mem.CutsNone root vpn pages) : (∃ mem', mem.removeMapping 2 root vpn pages = .ok mem' ∧
        RangeRemoved mem mem' root vpn pages) ↔
      (pages = 0 → ∀ y, mem.leafAt 2 root vpn = some y → vpn % y.size = 0) := by
  have ht := hwf.clean.tree mem.clean_clean
  have hleaf : ∀ v, mem.leafAt 2 root v = Vm.leafAt (mem.clean.treeOf 2 root) v := fun v => by
    rw [← leafAt_clean, ht.leafAt_eq]
  constructor
  · rintro ⟨mem', hr, -⟩ rfl y hy
    by_contra hne
    rcases hwf.removeMapping_outcome vpn 0 with ⟨e, -, herr, -⟩ | ⟨-, table', -, htable, -⟩
    · rw [hr] at herr
      cases herr
    · rw [hleaf] at hy
      exact removeMapping_stops 2 _ vpn hy hne table' htable
  · intro hstart
    have hblock : vpn % bigPageSize 3 + pages ≤ bigPageSize 3 := fit_of_le hfit
    have hun : Uncut (Block 3 vpn) (Vm.leafAt (mem.clean.treeOf 2 root)) vpn pages := by
      refine ⟨fun v _ hr y hy => ?_, fun hzero y hy => hstart hzero y ((hleaf vpn).trans hy)⟩
      have hv := hr.2
      exact hcuts.inside (by omega) hr ((hleaf v).trans hy) (Entry.leafAt_size_pos _ hy)
    obtain ⟨table', htotal, -⟩ := removeMapping_uncut 2 _ vpn pages ht.typed.fine hblock hun
    rcases hwf.removeMapping_outcome vpn pages with
      ⟨-, e', -, herr⟩ | ⟨mem', table₁, hr, htable, hp⟩
    · rw [htotal] at herr
      cases herr
    refine ⟨mem', hr, hp.rangeRemoved ht ?_⟩
    rcases Nat.lt_or_ge vpn (2 ^ 27) with hlt | hge
    · have hspec := (removeMapping_clears 2 _ vpn pages _ hblock htable).2
      have hB : ∀ v, v < 2 ^ 27 → v / bigPageSize 3 = vpn / bigPageSize 3 := fun v hv =>
        (Nat.div_eq_of_lt hv).trans (Nat.div_eq_of_lt hlt).symm
      exact ⟨fun v hv => hspec.cleared v (hB v hv), fun v hv => hspec.kept v (hB v hv)⟩
    · -- behind the last page only the empty range is left, and nothing is done
      obtain rfl : pages = 0 := by omega
      obtain rfl : vpn = 2 ^ 27 := by omega
      cases htable
      exact Clears.refl _ _ _

end Calls

theorem Inv.wellFormed {mem : Mem} (h : Inv root mem) : mem.WellFormed root := by
  obtain ⟨table, ht, -⟩ := h
  exact ⟨ht.once, ht.apart, ht.lowest⟩

theorem Tree.cutsNone_all {mem : Mem} {table : Table 2} (ht : Tree mem table root) :
    mem.CutsNone root 0 (2 ^ 27) := by
  intro v hv y hy w hw
  rw [ht.leafAt_eq] at hy
  obtain ⟨l, hl, hsize⟩ := Entry.leafAt_size _ hy
  have hwithin : v - v % bigPageSize l + bigPageSize l ≤ v - v % 2 ^ 27 + 2 ^ 27 :=
    (block_within (Nat.le_succ_of_le hl) v).2
  have hbelow : w < v - v % bigPageSize l + bigPageSize l := by
    have h := hw.2
    unfold Leaf.base at h
    rwa [hsize] at h
  exact ⟨fun _ => ⟨Nat.zero_le _, by omega⟩, fun _ => ⟨Nat.zero_le _, by omega⟩⟩

/-- One page is mapped and everything is removed again: its node is given back. -/
theorem removeMapping_removes_page : ∃ mem mem',
    blank.step 1 (.create 5 100 1 rw_ [2, 3]) = .ok mem ∧
      mem.removeMapping 2 1 0 (2 ^ 27) = .ok mem' ∧ RangeRemoved mem mem' 1 0 (2 ^ 27) ∧
        mem.ledger 3 = 1 ∧ mem'.ledger 3 = 0 := by
  have hrun : (do
      let mem ← blank.step 1 (.create 5 100 1 rw_ [2, 3])
      let mem' ← mem.removeMapping 2 1 0 (2 ^ 27)
      pure (mem.ledger 3, mem'.ledger 3) : Kern _).toOption = some (1, 0) := by
    decide +kernel
  obtain ⟨mem, h₁, hrun⟩ := bind_eq_ok (toOption_eq_some.1 hrun)
  obtain ⟨mem₂, h₂, hrun⟩ := bind_eq_ok hrun
  obtain ⟨hl, hl'⟩ := Prod.mk.inj (Except.ok.inj hrun)
  have hinv : Inv 1 mem := blank_start.inv.step (sparing_small (by decide) (by decide)) h₁
  obtain ⟨table, ht, -⟩ := id hinv
  obtain ⟨mem', h, hremoved⟩ :=
    (removeMapping_removes hinv.wellFormed (by decide) ht.cutsNone_all).2 nofun
  cases h₂.symm.trans h
  exact ⟨mem, _, h₁, h₂, hremoved, hl, hl'⟩

def giant : Mem := blank.setEntry 1 0 ⟨rw_, 0⟩

theorem giant_wellFormed : giant.WellFormed 1 := by
  have hnode : ∀ n i, (giant.node n i).perm.isNode = false := by
    intro n i
    unfold giant setEntry
    dsimp only
    by_cases hn : n = 1
    · subst hn
      rw [update_self]
      by_cases hi : i = 0
      · subst hi
        rfl
      · rw [update_of_ne hi]
        rfl
    · rw [update_of_ne hn]
      rfl
  have hcount : ∀ f, giant.count 2 1 f = 0 := by
    intro f
    refine Nat.eq_zero_of_not_pos fun hpos => ?_
    obtain ⟨i, hi, -⟩ := count_pos_iff.1 hpos
    rw [hnode 1 i] at hi
    cases hi
  refine ⟨fun f => ?_, hcount 1, fun i hi => ?_⟩
  · rw [hcount f]
    exact Nat.zero_le 1
  · rw [hnode 1 i] at hi
    cases hi

/-- **An empty range inside a superpage stops the call**, although it cuts nothing. -/
theorem not_removeMapping_removes :
    giant.WellFormed 1 ∧ giant.CutsNone 1 5 0 ∧ ∀ mem', giant.removeMapping 2 1 5 0 ≠ .ok mem' := by
  refine ⟨giant_wellFormed, fun v _ y _ w _ => ?_, fun mem' h => ?_⟩
  · unfold InRange
    omega
  · have herr : (giant.removeMapping 2 1 5 0).toOption.isNone = true := by decide +kernel
    rw [h] at herr
    cases herr

end Mem

end LuoOS.Vm
