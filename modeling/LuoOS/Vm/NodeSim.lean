import LuoOS.Vm.NodePlaces
import LuoOS.Vm.NodeTree

/-!
# Nodes are neither leaked nor freed twice

Every operation on the page table in memory simulates the one on the tree, and the ledger follows
the number of ways to each frame: a frame is out exactly if it is a node below the root. The
exception is a mapping over a whole entry that holds a node: the node is lost.
-/

namespace LuoOS.Vm

open Function

namespace Mem

section Trees

variable {mem mem' mem1 : Mem} {level n f b m ppn : Nat} {used : List Nat} {perm : Perm}

/-! ## `createMapping` -/

variable {i : Fin 512}

section Create

def CreateSim (level : Nat) : Prop :=
  ∀ (mem : Mem) (n : Nat) (table : Table level) (vpn ppn pages : Nat) (perm : Perm) (mem' : Mem),
    Tree mem table n → Fresh mem level n → perm.v = true → perm.isLeaf = true →
    Spares (nodesOf table) vpn pages →
    vpn % bigPageSize (level + 1) + pages ≤ bigPageSize (level + 1) →
    mem.createMapping level n vpn ppn pages perm = .ok mem' →
    ∃ table' used, Vm.createMapping level table vpn ppn pages perm = .ok table' ∧
      Tree mem' table' n ∧ Effect used mem mem' level n

theorem createPTNode_eq_ok (h : mem.createPTNode = .ok (f, mem1)) :
    mem.supply = f :: mem1.supply ∧ (∀ j, mem1.node f j = {}) ∧
      (∀ g, g ≠ f → mem1.node g = mem.node g) ∧
      ∀ g, mem1.ledger g = mem.ledger g + (if f = g then 1 else 0 : Nat) := by
  unfold createPTNode at h
  split at h
  · cases h
  rename_i f' fs hs
  cases h
  refine ⟨hs, fun j => by simp, fun g hg => update_of_ne hg _ _, fun g => ?_⟩
  by_cases hg : g = f
  · subst hg
    simp
  · rw [if_neg (Ne.symm hg)]
    simp [hg]

theorem Fresh.newNode {mem0 : Mem} (hfr : Fresh mem (level + 1) n)
    (hsup : mem.supply = f :: mem0.supply) (hzero : ∀ j, mem0.node f j = {}) :
    Fresh mem0 level f := by
  have hnodup := hfr.nodup
  rw [hsup] at hnodup
  obtain ⟨hnot, hnodup⟩ := List.nodup_cons.1 hnodup
  refine ⟨hnodup, fun g hg => ⟨?_, count_eq_zero fun j => by rw [hzero j], ?_⟩⟩
  · rintro rfl
    exact hnot hg
  · refine (hfr.unused g ?_).2.2
    rw [hsup]
    exact List.mem_cons_of_mem _ hg

section

variable {table : Table (level + 1)} {i : Fin 512}

/-- The end of `subTable` for an entry without a node: the new node is linked. -/
theorem Tree.linkEntry {mem0 mem2 : Mem} {sub : Table level} {p : Perm} (ht : Tree mem table n)
    (hfr : Fresh mem (level + 1) n) (hold : (mem.node n i).perm.isNode = false)
    (hsup : mem.supply = f :: mem0.supply) (hzero : ∀ j, mem0.node f j = {})
    (hentries : ∀ j, j ≠ i → mem0.node n j = mem.node n j)
    (hother : ∀ g, g ≠ n → g ≠ f → mem0.node g = mem.node g)
    (hledger : ∀ g, mem0.ledger g = mem.ledger g + (if f = g then 1 else 0 : Nat))
    (htree : Tree mem2 sub f) (he : Effect used mem0 mem2 level f)
    (hp : (mem0.node n i).perm = p) (node : p.setValid.isNode = true) :
    Tree (mem2.setEntry n i ⟨(mem2.node n i).perm.setValid, f % 2 ^ 44⟩)
        (update table i (.table p.setValid node sub)) n ∧
      ((mem2.setEntry n i ⟨(mem2.node n i).perm.setValid, f % 2 ^ 44⟩).node n i).ppn = f ∧
      Effect (f :: used) mem (mem2.setEntry n i ⟨(mem2.node n i).perm.setValid, f % 2 ^ 44⟩)
        (level + 1) n := by
  obtain ⟨hb, hn⟩ := Built.of_effect hfr hsup hzero hentries hother hledger htree he
  have hlt : f < 2 ^ 44 := (hfr.unused f (by rw [hsup]; exact List.mem_cons_self)).2.2
  rw [hn, hp]
  obtain ⟨htree', heffect⟩ := ht.link hfr (fun g => below_leaf hold) hb node
  refine ⟨htree', ?_, heffect⟩
  rw [setEntry_self]
  exact Nat.mod_eq_of_lt hlt

/-- **The node that a range is mapped in** is the tree's, linked to its entry. -/
theorem subTable_sim {c k off s : Nat} (ih : CreateSim level)
    (ht : Tree mem table n) (hfr : Fresh mem (level + 1) n) (hpush : PushEnds (level + 1) b m c k)
    (h : mem.subTable n i (fun mem sub prevppn prevPerm =>
      mem.createMapping level sub c (prevppn + off) k prevPerm) = .ok (s, mem1)) :
    ∃ node sub used, Vm.subTable (table i) (fun prevppn prevPerm =>
        Vm.createMapping level Vm.createPTNode c (prevppn + off) k prevPerm) = .ok (node, sub) ∧
      Tree mem1 (update table i (.table node.1 node.2 sub)) n ∧
      (mem1.node n i).ppn = s ∧ Effect used mem mem1 (level + 1) n := by
  have hs := ht.stored i
  have htyped := ht.typed i
  unfold subTable at h
  cases hi : table i with
  | table perm node sub =>
    rw [hi] at hs
    have hnode : ((mem.node n i).perm.v && !(mem.node n i).perm.isLeaf) = true := by
      rw [hs.1]
      exact node
    rw [if_pos hnode] at h
    cases h
    refine ⟨⟨perm, node⟩, sub, [], rfl, ?_, rfl, Effect.refl⟩
    rw [← hi, update_eq_self]
    exact ht
  | page perm ppn =>
    rw [hi] at hs htyped
    obtain ⟨hperm, hppn⟩ := hs
    have hok : perm.Ok := htyped
    have hnot : (mem.node n i).perm.isNode = false := by
      rw [hperm]
      exact isNode_of_ok hok
    rw [if_neg (show ¬((mem.node n i).perm.v && !(mem.node n i).perm.isLeaf) = true from
      ne_true_of_eq_false hnot)] at h
    obtain ⟨⟨f, mem0⟩, halloc, h⟩ := bind_eq_ok h
    obtain ⟨hsup, hzero, hother, hledger⟩ := createPTNode_eq_ok halloc
    have hne : f ≠ n := (hfr.unused f (by rw [hsup]; exact List.mem_cons_self)).1
    have hn : mem0.node n = mem.node n := hother n hne.symm
    dsimp only at h
    cases hv : perm.v with
    | false =>
      have hnode := Perm.setValid_isNode (hok.symm.trans hv)
      rw [hperm, hv, Bool.false_and, if_neg Bool.false_ne_true] at h
      cases h
      refine ⟨⟨perm.setValid, hnode⟩, Vm.createPTNode, _, ?_, ht.linkEntry hfr hnot hsup hzero
        (fun j _ => by rw [hn]) (fun g _ hg => hother g hg) hledger (tree_zero hzero) Effect.refl
        (by rw [hn]; exact hperm) hnode⟩
      unfold Vm.subTable
      dsimp only
      rw [hv, if_neg Bool.false_ne_true, dif_pos hnode]
    | true =>
      have hleaf : perm.isLeaf = true := hok.symm.trans hv
      rw [hperm, hv, hleaf, Bool.and_self, if_pos rfl, hppn hv] at h
      obtain ⟨mem2, hmem2, h⟩ := bind_eq_ok h
      cases h
      have hzero' : ∀ j, (mem0.setEntry n i ⟨perm.setPTNode, ppn⟩).node s j = {} := by
        intro j
        rw [setEntry_other _ _ _ hne]
        exact hzero j
      have hsup' : mem.supply = s :: (mem0.setEntry n i ⟨perm.setPTNode, ppn⟩).supply := hsup
      obtain ⟨sub, used, hcreate, htree, heffect⟩ := ih _ _ Vm.createPTNode _ _ _ _ _
        (tree_zero hzero') (hfr.newNode hsup' hzero') hv hleaf
        (fun _ _ _ _ _ => not_nodesOf_createPTNode) hpush.fit hmem2
      refine ⟨⟨perm.setPTNode.setValid, perm.setPTNode_setValid_isNode⟩, sub, _, ?_,
        ht.linkEntry hfr hnot hsup' hzero' (fun j hj => ?_) (fun g hg hg' => ?_) hledger htree
          heffect (by rw [setEntry_self]) perm.setPTNode_setValid_isNode⟩
      · unfold Vm.subTable
        dsimp only
        rw [hv, if_pos rfl, if_pos hleaf, hcreate]
        rfl
      · rw [setEntry_entry _ _ _ hj, hn]
      · rw [setEntry_other _ _ _ hg, hother g hg']

theorem mapInto_sim {c k o : Nat} (ih : CreateSim level) (ht : Tree mem table n)
    (hfr : Fresh mem (level + 1) n) (hv : perm.v = true) (hleaf : perm.isLeaf = true)
    (hpush : PushEnds (level + 1) b m c k)
    (hfit : b % bigPageSize (level + 1) + m ≤ bigPageSize (level + 1))
    (hspare : Spares (table (index (level + 1) b)).nodeAt b m)
    (h : mem.mapInto n (index (level + 1) b) (fun mem sub prevppn prevPerm =>
        mem.createMapping level sub c (prevppn + o) k prevPerm)
      (fun mem sub => mem.createMapping level sub b ppn m perm) = .ok mem') :
    ∃ table' used, Vm.mapInto table b (fun prevppn prevPerm =>
        Vm.createMapping level Vm.createPTNode c (prevppn + o) k prevPerm)
        (fun sub => Vm.createMapping level sub b ppn m perm) = .ok table' ∧
      Tree mem' table' n ∧ Effect used mem mem' (level + 1) n := by
  obtain ⟨⟨s, mem1⟩, hsub, h⟩ := bind_eq_ok h
  obtain ⟨node, sub, used1, hpure, ht1, rfl, he1⟩ := subTable_sim ih ht hfr hpush hsub
  have hfr1 := hfr.after he1
  have hi : update table (index (level + 1) b) (.table node.1 node.2 sub)
      (index (level + 1) b) = .table node.1 node.2 sub := update_self ..
  obtain ⟨sub', used2, hcreate, htree, he2⟩ := ih _ _ sub _ _ _ _ _ (ht1.child hi)
    (hfr1.child ht1 hi) hv hleaf (subTable_spares hpush hfit hpure hspare) hfit h
  have hunused : ∀ f ∈ used2, f ≠ n ∧ mem1.count (level + 1) n f = 0 := fun f hf =>
    ⟨(hfr1.unused f (he2.mem_supply hf)).1, (hfr1.unused f (he2.mem_supply hf)).2.1⟩
  obtain ⟨htree', he', -⟩ := ht1.lift hi hunused htree he2
  rw [update_idem] at htree'
  refine ⟨_, used1 ++ used2, ?_, htree', he1.trans he'⟩
  unfold Vm.mapInto
  rw [hpure, ok_bind]
  dsimp only
  rw [hcreate, ok_bind]
  rfl

end

theorem mapWhole_sim (hok : perm.Ok) : ∀ (k : Nat) (mem : Mem) (table : Table level) (i ppn : Nat)
    (mem' : Mem), Tree mem table n →
    (∀ j : Fin 512, i ≤ j → j < i + k → (mem.node n j).perm.isNode = false) →
    mem.mapWhole level perm n k i ppn = .ok mem' →
    ∃ table', Vm.mapWhole perm k table i ppn = .ok table' ∧ Tree mem' table' n ∧
      Effect [] mem mem' level n := by
  intro k
  induction k with
  | zero =>
    intro mem table i ppn mem' ht _ h
    cases h
    exact ⟨table, rfl, ht, Effect.refl⟩
  | succ k ih =>
    intro mem table i ppn mem' ht hnode h
    unfold mapWhole at h
    split at h
    · rename_i hi
      obtain ⟨ht1, he1⟩ := ht.setPage (e := ⟨perm, ppn % 2 ^ 44⟩)
        (hnode ⟨i, hi⟩ le_rfl (by dsimp only; omega)) hok
      have hnode1 : ∀ j : Fin 512, i + 1 ≤ j → j < i + 1 + k →
          ((mem.setEntry n ⟨i, hi⟩ ⟨perm, ppn % 2 ^ 44⟩).node n j).perm.isNode = false := by
        intro j h1 h2
        have hji : j ≠ ⟨i, hi⟩ := by
          rintro rfl
          dsimp only at h1
          omega
        rw [setEntry_entry _ _ _ hji]
        exact hnode j (by omega) (by omega)
      obtain ⟨table', hpure, ht2, he2⟩ := ih _ _ _ _ _ ht1 hnode1 h
      refine ⟨table', ?_, ht2, he1.trans he2⟩
      unfold Vm.mapWhole
      rw [dif_pos hi]
      exact hpure
    · cases h

theorem Tree.isNode_false {table : Table level} (ht : Tree mem table n)
    {v : Nat} (h : ¬(table i).nodeAt level v) : (mem.node n i).perm.isNode = false := by
  have hs := ht.stored i
  have htyped := ht.typed i
  cases hi : table i with
  | page perm ppn =>
    rw [hi] at hs htyped
    rw [hs.1]
    exact isNode_of_ok htyped
  | table perm node sub =>
    rw [hi] at h
    exact absurd (.inl rfl) h

section Steps

variable {vpn ppn pages part whole rest : Nat} {table t1 t2 : Table (level + 1)}

theorem first_sim (ih : CreateSim level) (ht : Tree mem table n) (hfr : Fresh mem (level + 1) n)
    (hv : perm.v = true) (hleaf : perm.isLeaf = true)
    (hcut : Cut (level + 1) vpn pages part whole rest) (hspare : Spares (nodesOf table) vpn pages)
    (h : when_ (vpn % bigPageSize (level + 1)) (fun mem =>
      mem.mapInto n (index (level + 1) vpn)
        (fun mem sub prevppn prevPerm => mem.createMapping level sub
          (vpn - vpn % bigPageSize (level + 1)) prevppn (vpn % bigPageSize (level + 1)) prevPerm)
        (fun mem sub => mem.createMapping level sub vpn ppn part perm)) mem = .ok mem') : ∃ t1 used,
      Vm.when_ (vpn % bigPageSize (level + 1)) (mapFirst vpn ppn part perm) table = .ok t1 ∧
      Tree mem' t1 n ∧ Effect used mem mem' (level + 1) n := by
  unfold when_ at h
  unfold Vm.when_
  split at h
  · rename_i hz
    cases h
    rw [if_pos hz]
    exact ⟨table, [], rfl, ht, Effect.refl⟩
  · rename_i hne
    rw [if_neg hne]
    refine mapInto_sim (o := 0) ih ht hfr hv hleaf (pushEnds_first (level + 1) vpn part)
      hcut.part_fit ?_ h
    intro l b hal hb hend hnode
    have hsum := hcut.sum
    have hpos := bigPageSize_pos l
    have hblk : Block (level + 1) vpn b := block_of_inRange hcut.part_fit ⟨hb, by omega⟩
    refine hspare l b hal hb (by omega) ?_
    unfold nodesOf
    rw [index_of_block hblk]
    exact hnode

theorem loop_sim (ht : Tree mem t1 n) (hok : perm.Ok)
    (hcut : Cut (level + 1) vpn pages part whole rest) (hspare : Spares (nodesOf table) vpn pages)
    (hfirst : Vm.when_ (vpn % bigPageSize (level + 1)) (mapFirst vpn ppn part perm) table = .ok t1)
    (hfit : vpn % bigPageSize (level + 2) + pages ≤ bigPageSize (level + 2))
    (h : mem.mapWhole (level + 1) perm n whole (index (level + 1) (vpn + part)) (ppn + part) =
      .ok mem') :
    ∃ t2, Vm.mapWhole perm whole t1 (index (level + 1) (vpn + part)) (ppn + part) = .ok t2 ∧
      Tree mem' t2 n ∧ Effect [] mem mem' (level + 1) n := by
  refine mapWhole_sim hok _ _ _ _ _ _ ht (fun j h1 h2 => ?_) h
  have hsum := hcut.sum
  obtain ⟨k, hk⟩ := Nat.exists_eq_add_of_le h1
  obtain ⟨hj, hentry⟩ := hcut.whole_entry hfirst hfit (k := k) (by omega) hk
  have hal := hcut.aligned (.inl (by omega))
  have hroom := Nat.mul_le_mul_right (bigPageSize (level + 1)) (show k + 1 ≤ whole by omega)
  rw [Nat.succ_mul] at hroom
  refine ht.isNode_false (v := vpn + part + k * bigPageSize (level + 1)) ?_
  rw [hentry, hj]
  refine hspare (level + 1) _ ?_ (by omega) (by omega)
  rw [Nat.add_mul_mod_self_right]
  exact hal

theorem last_sim (ih : CreateSim level) (ht : Tree mem t2 n) (hfr : Fresh mem (level + 1) n)
    (hv : perm.v = true) (hleaf : perm.isLeaf = true)
    (hcut : Cut (level + 1) vpn pages part whole rest) (hspare : Spares (nodesOf table) vpn pages)
    (hfirst : Vm.when_ (vpn % bigPageSize (level + 1)) (mapFirst vpn ppn part perm) table = .ok t1)
    (hloop : Vm.mapWhole perm whole t1 (index (level + 1) (vpn + part)) (ppn + part) = .ok t2)
    (hfit : vpn % bigPageSize (level + 2) + pages ≤ bigPageSize (level + 2)) {q : Nat}
    (hb : vpn + part + whole * bigPageSize (level + 1) = b) (h : when_ rest (fun mem =>
      mem.mapInto n (index (level + 1) b)
        (fun mem sub prevppn prevPerm => mem.createMapping level sub (b + rest) (prevppn + rest)
          (bigPageSize (level + 1) - rest) prevPerm)
        (fun mem sub => mem.createMapping level sub b q rest perm)) mem = .ok mem') :
    ∃ table' used, Vm.when_ rest (mapRest b q rest perm) t2 = .ok table' ∧
      Tree mem' table' n ∧ Effect used mem mem' (level + 1) n := by
  unfold when_ at h
  unfold Vm.when_
  split at h
  · rename_i hz
    cases h
    rw [if_pos hz]
    exact ⟨t2, [], rfl, ht, Effect.refl⟩
  · rename_i hne
    rw [if_neg hne]
    have hlt := hcut.rest_lt
    have hsum := hcut.sum
    have hentry := hcut.rest_entry hfirst hloop hfit (by omega)
    obtain ⟨hal, -⟩ := hcut.rest_start hfit (by omega)
    rw [hb] at hentry hal
    refine mapInto_sim ih ht hfr hv hleaf (pushEnds_rest hal hlt) (by omega) ?_ h
    intro l x hx hbx hend hnode
    have hpos := bigPageSize_pos l
    have hblk : Block (level + 1) b x := block_of_inRange (n := rest) (by omega) ⟨hbx, by omega⟩
    refine hspare l x hx (by omega) (by omega) ?_
    unfold nodesOf
    rw [index_of_block hblk, ← hentry]
    exact hnode

end Steps

/-- **`createMapping` on memory is `createMapping` on the tree**, and no frame of the supply that it
uses is lost. -/
theorem createMapping_sim (level : Nat) : CreateSim level := by
  induction level with
  | zero =>
    intro mem n table vpn ppn pages perm mem' ht hfr hv hleaf hspare _ h
    have hnode : ∀ j : Fin 512, ¬(table j).nodeAt 0 0 := fun j => by
      cases table j with
      | page perm ppn => exact id
    obtain ⟨table', hpure, ht', he⟩ := mapWhole_sim (hv.trans hleaf.symm) _ _ _ _ _ _ ht
      (fun j _ _ => ht.isNode_false (hnode j)) h
    exact ⟨table', [], hpure, ht', he⟩
  | succ level ih =>
    intro mem n table vpn ppn pages perm mem' ht hfr hv hleaf hspare hfit h
    have hcut := cut (level + 1) vpn pages
    unfold createMapping at h
    unfold Vm.createMapping
    dsimp only at h ⊢
    generalize unalignedPart (bigPageSize (level + 1)) vpn pages = part at hcut h ⊢
    generalize (pages - part) / bigPageSize (level + 1) = whole at hcut h ⊢
    generalize pages - part - whole * bigPageSize (level + 1) = rest at hcut h ⊢
    obtain ⟨mem1, h1, h⟩ := bind_eq_ok h
    obtain ⟨mem2, h2, h3⟩ := bind_eq_ok h
    obtain ⟨t1, used1, hp1, ht1, he1⟩ := first_sim ih ht hfr hv hleaf hcut hspare h1
    obtain ⟨t2, hp2, ht2, he2⟩ := loop_sim ht1 (hv.trans hleaf.symm) hcut hspare hp1 hfit h2
    obtain ⟨t3, used3, hp3, ht3, he3⟩ := last_sim ih ht2 ((hfr.after he1).after he2) hv hleaf hcut
      hspare hp1 hp2 hfit rfl h3
    refine ⟨t3, _, ?_, ht3, (he1.trans he2).trans he3⟩
    unfold mapFirst at hp1
    rw [hp1, ok_bind, hp2, ok_bind]
    exact hp3

end Create

/-! ## `removeMapping` -/

section Remove

def RemoveSim (level : Nat) : Prop :=
  ∀ (mem : Mem) (n : Nat) (table : Table level) (vpn pages : Nat) (mem' : Mem),
    Tree mem table n → mem.removeMapping level n vpn pages = .ok mem' →
    ∃ table', Vm.removeMapping level table vpn pages = .ok table' ∧ Tree mem' table' n ∧
      Effect [] mem mem' level n

/-- What `removeMapping` does: no node that stays is emptied. -/
structure Prunes (mem mem' : Mem) {level : Nat} (table' : Table level) (n : Nat) : Prop where
  tree : Tree mem' table' n
  effect : Effect [] mem mem' level n
  trims : ∀ f, 0 < mem'.count level n f →
    mem'.node f = mem.node f ∨ ∃ i, (mem'.node f i).perm.v = true

variable {table : Table level}

theorem Prunes.refl (ht : Tree mem table n) : Prunes mem mem table n :=
  ⟨ht, Effect.refl, fun _ _ => .inl rfl⟩

theorem Prunes.trans {t1 t2 : Table level} (h : Prunes mem mem1 t1 n)
    (h' : Prunes mem1 mem' t2 n) : Prunes mem mem' t2 n := by
  refine ⟨h'.tree, h.effect.trans h'.effect, fun f hf => ?_⟩
  rcases h'.trims f hf with heq | hvalid
  · have hf1 : 0 < mem1.count level n f := by
      rcases h'.effect.grows f hf with hold | hused
      · exact hold
      · cases hused
    rw [heq]
    exact h.trims f hf1
  · exact .inr hvalid

def Matches (mem : Mem) (n : Nat) {level : Nat} : Kern Mem → Kern (Table level) → Prop
  | .ok mem', .ok table' => Prunes mem mem' table' n
  | .error _, .error _ => True
  | _, _ => False

variable {t : Kern (Table level)} {r : Kern Mem}

theorem Matches.outcome (h : Matches mem n r t) : (∃ e e', r = .error e ∧ t = .error e') ∨
      ∃ mem' table', r = .ok mem' ∧ t = .ok table' ∧ Prunes mem mem' table' n := by
  cases r with
  | error e =>
    cases t with
    | error e' => exact .inl ⟨e, e', rfl, rfl⟩
    | ok table' => exact absurd h id
  | ok mem' =>
    cases t with
    | error e => exact absurd h id
    | ok table' => exact .inr ⟨mem', table', rfl, rfl, h⟩

theorem Matches.bind {f : Mem → Kern Mem} {g : Table level → Kern (Table level)}
    (h : Matches mem n r t) (hstep : ∀ mem1 t1, Tree mem1 t1 n → Matches mem1 n (f mem1) (g t1)) :
    Matches mem n (r >>= f) (t >>= g) := by
  rcases h.outcome with ⟨e, e', rfl, rfl⟩ | ⟨mem1, t1, rfl, rfl, hp⟩
  · trivial
  rw [ok_bind, ok_bind]
  rcases (hstep mem1 t1 hp.tree).outcome with ⟨e, e', hf, hg⟩ | ⟨mem2, t2, hf, hg, hp'⟩
  · rw [hf, hg]
    trivial
  · rw [hf, hg]
    exact hp.trans hp'

def RemoveMatches (level : Nat) : Prop :=
  ∀ (mem : Mem) (n : Nat) (table : Table level) (vpn pages : Nat), Tree mem table n →
    Matches mem n (mem.removeMapping level n vpn pages) (Vm.removeMapping level table vpn pages)

def giveBack (mem : Mem) (n : Nat) : Mem :=
  { mem with ledger := update mem.ledger n (mem.ledger n - 1) }

theorem freePTNode_cases (mem : Mem) (n : Nat) (ht : Tree mem table n) :
    mem.freePTNode n = if Vm.freePTNode table then (true, mem.giveBack n) else (false, mem) := by
  unfold freePTNode
  rw [freePTNode_eq ht]
  rfl

section

variable {table : Table (level + 1)} {i : Fin 512} {sub sub' : Table level}
  {node : perm.isNode = true}

variable {mem1 : Mem}

section

variable (ht : Tree mem table n) (hi : table i = .table perm node sub)
  (h : Prunes mem mem1 sub' (mem.node n i).ppn)
include ht hi h

omit hi in
/-- A call below the node of an entry trims all but that node. -/
theorem Prunes.below (he : Effect [] mem mem1 (level + 1) n) {f : Nat}
    (hf : 0 < mem1.count (level + 1) n f) (hne : f ≠ (mem.node n i).ppn) :
    mem1.node f = mem.node f ∨ ∃ j, (mem1.node f j).perm.v = true := by
  rcases Nat.eq_zero_or_pos (mem.count level (mem.node n i).ppn f) with hz | hpos
  · exact .inl (h.effect.other f hne hz List.not_mem_nil)
  -- it is still below the entry, since the ways to it change by what hangs from the entry
  refine h.trims f ?_
  have h1 := he.ledger f
  have h2 := h.effect.ledger f
  have h3 := ht.once f
  omega

theorem Prunes.keep (hfree : Vm.freePTNode sub' = false) :
    Prunes mem mem1 (update table i (.table perm node sub')) n := by
  obtain ⟨ht1, he1, -⟩ := ht.lift hi (fun f hf => absurd hf List.not_mem_nil) h.tree h.effect
  refine ⟨ht1, he1, fun f hf => ?_⟩
  by_cases hne : f = (mem.node n i).ppn
  · subst hne
    rw [← freePTNode_eq h.tree, List.all_eq_false] at hfree
    obtain ⟨j, -, hj⟩ := hfree
    exact .inr ⟨j, by simpa using hj⟩
  · exact Prunes.below ht h he1 hf hne

theorem Prunes.unlink (hfree : Vm.freePTNode sub' = true) :
    Prunes mem ((mem1.giveBack (mem.node n i).ppn).setInvalid n i)
      (update table i (.page {} 0)) n := by
  obtain ⟨ht1, he1, hn⟩ := ht.lift hi (fun f hf => absurd hf List.not_mem_nil) h.tree h.effect
  have hi1 : update table i (.table perm node sub') i = .table perm node sub' :=
    update_self ..
  have hm := freePTNode_cases mem1 (mem.node n i).ppn h.tree
  rw [hfree, if_pos rfl, ← hn] at hm
  obtain ⟨ht2, he2⟩ := ht1.unlink hi1 hfree hm
  rw [update_idem] at ht2
  rw [hn] at ht2 he2
  refine ⟨ht2, he1.trans he2, fun f hf => ?_⟩
  have hf1 : 0 < mem1.count (level + 1) n f := by
    rcases he2.grows f hf with hold | hused
    · exact hold
    · cases hused
  have hfn : f ≠ n := by
    rintro rfl
    rw [ht2.apart] at hf
    exact Nat.lt_irrefl 0 hf
  have hfc : f ≠ (mem.node n i).ppn := by
    rintro rfl
    have h1 := he2.ledger (mem.node n i).ppn
    have h2 := ht1.once (mem.node n i).ppn
    change update mem1.ledger (mem.node n i).ppn (mem1.ledger (mem.node n i).ppn - 1)
      (mem.node n i).ppn + _ = _ at h1
    rw [update_self] at h1
    omega
  have hsame : ∀ (m : Mem), (m.setInvalid n i).node f = m.node f := fun m =>
    setEntry_other _ _ _ hfn
  rw [hsame]
  exact Prunes.below ht h he1 hf1 hfc

end

variable {remove : Table level → Kern (Table level)}

theorem removeInto_table (hi : table (index (level + 1) b) = .table perm node sub) :
    Vm.removeInto table b remove = remove sub >>= fun sub' =>
      .ok (update table (index (level + 1) b)
        (if Vm.freePTNode sub' then .page {} 0 else .table perm node sub')) := by
  unfold Vm.removeInto
  rw [hi]
  rfl

theorem clearEntry_table : Vm.clearEntry remove (.table perm node sub) = remove sub >>= fun sub' =>
      assert_ (Vm.freePTNode sub') "freePTNode(entry.child())" >>= fun _ => .ok (.page {} 0) :=
  rfl

theorem removeInto_matches (ih : RemoveMatches level) (ht : Tree mem table n) :
    Matches mem n (mem.removeInto n (index (level + 1) b) fun mem sub =>
        mem.removeMapping level sub b m)
      (Vm.removeInto table b fun sub => Vm.removeMapping level sub b m) := by
  have hs := ht.stored (index (level + 1) b)
  have htyped := ht.typed (index (level + 1) b)
  unfold removeInto
  dsimp only
  cases hi : table (index (level + 1) b) with
  | page perm ppn =>
    rw [hi] at hs htyped
    unfold Vm.removeInto
    rw [hi]
    dsimp only
    rw [hs.1]
    cases hv : perm.v with
    | false =>
      exact Prunes.refl ht
    | true =>
      have hleaf : perm.isLeaf = true := (show perm.Ok from htyped).symm.trans hv
      rw [hleaf, if_pos rfl, if_pos rfl]
      exact trivial
  | table perm node sub =>
    rw [hi] at hs
    obtain ⟨hv, hleaf⟩ := Bool.and_eq_true_iff.1 node
    rw [removeInto_table hi, hs.1, hv, if_pos rfl, hleaf, assert_true, ok_bind]
    rcases (ih mem (mem.node n (index (level + 1) b)).ppn sub b m (ht.child hi)).outcome with
      ⟨e, e', hmem, hr⟩ | ⟨mem1, sub', hmem, hr, hp⟩
    · rw [hmem, hr]
      trivial
    rw [hmem, hr, ok_bind, ok_bind, freePTNode_cases _ _ hp.tree]
    cases hfree : Vm.freePTNode sub' with
    | false => exact hp.keep ht hi hfree
    | true => exact hp.unlink ht hi hfree

end

theorem clearPage_matches {remove : Mem → Nat → Kern Mem} (ht : Tree mem table n)
    (hi : table i = .page perm ppn) : Matches mem n (mem.clearEntry n i remove)
      (clearPage perm ppn >>= fun entry => .ok (update table i entry)) := by
  have hs := ht.stored i
  have htyped := ht.typed i
  rw [hi] at hs htyped
  obtain ⟨hperm, hppn⟩ := hs
  unfold clearEntry clearPage
  dsimp only
  rw [hperm]
  cases hv : perm.v with
  | false =>
    rw [if_neg Bool.false_ne_true, if_neg Bool.false_ne_true, ok_bind, ← hi,
      update_eq_self]
    exact Prunes.refl ht
  | true =>
    have hleaf : perm.isLeaf = true := (show perm.Ok from htyped).symm.trans hv
    rw [if_pos rfl, if_pos rfl, hleaf, if_pos rfl, if_pos rfl, ok_bind, ← hppn hv]
    have hnot : (mem.node n i).perm.isNode = false := by
      rw [hperm]
      exact isNode_of_ok htyped
    obtain ⟨ht', he'⟩ := ht.setInvalid hnot
    refine ⟨ht', he', fun f hf => .inl (setEntry_other _ _ _ ?_)⟩
    rintro rfl
    rw [ht'.apart] at hf
    exact Nat.lt_irrefl 0 hf

theorem clearEntry_matches {table : Table (level + 1)} {vpn pages : Nat}
    (ih : RemoveMatches level) (ht : Tree mem table n) :
    Matches mem n (mem.clearEntry n i fun mem sub => mem.removeMapping level sub vpn pages)
      (Vm.clearEntry (fun sub => Vm.removeMapping level sub vpn pages) (table i) >>= fun entry =>
        .ok (update table i entry)) := by
  cases hi : table i with
  | page perm ppn => exact clearPage_matches ht hi
  | table perm node sub =>
    have hs := ht.stored i
    rw [hi] at hs
    obtain ⟨hv, hleaf⟩ := Bool.and_eq_true_iff.1 node
    rw [Bool.not_eq_true'] at hleaf
    unfold clearEntry
    dsimp only
    rw [hs.1, hv, if_pos rfl, hleaf, if_neg Bool.false_ne_true]
    rw [clearEntry_table]
    rcases (ih mem (mem.node n i).ppn sub vpn pages (ht.child hi)).outcome with
      ⟨e, e', hmem, hr⟩ | ⟨mem1, sub', hmem, hr, hp⟩
    · rw [hmem, hr]
      trivial
    rw [hmem, hr, ok_bind, ok_bind, freePTNode_cases _ _ hp.tree]
    cases hfree : Vm.freePTNode sub' with
    | false => trivial
    | true => exact hp.unlink ht hi hfree

theorem removeWhole_matches {remove : Nat → Mem → Nat → Kern Mem}
    {clear : Nat → Entry level → Kern (Entry level)}
    (hclear : ∀ (mem : Mem) (table : Table level) (i : Fin 512) (vpn : Nat), Tree mem table n →
      Matches mem n (mem.clearEntry n i (remove vpn))
        (clear vpn (table i) >>= fun entry => .ok (update table i entry))) :
    ∀ (k : Nat) (mem : Mem) (table : Table level) (i vpn : Nat), Tree mem table n →
      Matches mem n (mem.removeWhole level n remove k i vpn)
        (Vm.removeWhole clear k table i vpn) := by
  intro k
  induction k with
  | zero =>
    intro mem table i vpn ht
    exact Prunes.refl ht
  | succ k ih =>
    intro mem table i vpn ht
    unfold removeWhole Vm.removeWhole
    split
    · rename_i hi
      have hone := hclear mem table ⟨i, hi⟩ vpn ht
      have hnext := hone.bind fun mem1 t1 ht1 => ih mem1 t1 (i + 1) (vpn + bigPageSize level) ht1
      rw [bind_assoc] at hnext
      exact hnext
    · trivial

theorem when_matches {cond : Nat} {step : Mem → Kern Mem} {p : Table level → Kern (Table level)}
    (ht : Tree mem table n) (hstep : Matches mem n (step mem) (p table)) :
    Matches mem n (when_ cond step mem) (Vm.when_ cond p table) := by
  unfold when_ Vm.when_
  split
  · exact Prunes.refl ht
  · exact hstep

/-- **`removeMapping` on memory is `removeMapping` on the tree**: it stops when that stops, every
node that the tree loses is given back once, and no other node is emptied. -/
theorem removeMapping_matches (level : Nat) : RemoveMatches level := by
  induction level with
  | zero =>
    intro mem n table vpn pages ht
    refine removeWhole_matches (fun mem table i vpn ht => ?_) _ _ _ _ _ ht
    cases hi : table i with
    | page perm ppn => exact clearPage_matches ht hi
  | succ level ih =>
    intro mem n table vpn pages ht
    refine (when_matches ht (removeInto_matches ih ht)).bind fun mem1 t1 ht1 => ?_
    refine (removeWhole_matches (fun _ _ _ _ => clearEntry_matches ih) _ _ _ _ _ ht1).bind
      fun mem2 t2 ht2 => ?_
    exact when_matches ht2 (removeInto_matches ih ht2)

theorem removeMapping_sim (level : Nat) : RemoveSim level := by
  intro mem n table vpn pages mem' ht h
  rcases (removeMapping_matches level mem n table vpn pages ht).outcome with
    ⟨e, e', hmem, -⟩ | ⟨mem1, table', hmem, hr, hp⟩
  · rw [h] at hmem
    cases hmem
  · rw [h] at hmem
    cases hmem
    exact ⟨table', hr, hp.tree, hp.effect⟩

end Remove

end Trees

/-! ## Runs -/

section Runs

variable {mem mem' : Mem} {level n root : Nat}

theorem Tree.nodeAt_iff {table : Table level} {l v : Nat} (ht : Tree mem table n) :
    mem.NodeAt level n l v ↔ nodesOf table l v := by
  unfold nodesOf
  induction level generalizing n with
  | zero =>
    cases table (index 0 v) with
    | page perm ppn => exact Iff.rfl
  | succ level ih =>
    have hs := ht.stored (index (level + 1) v)
    have htyped := ht.typed (index (level + 1) v)
    unfold NodeAt
    cases hi : table (index (level + 1) v) with
    | page perm ppn =>
      rw [hi] at hs htyped
      rw [hs.1, isNode_of_ok htyped]
      exact ⟨fun h => absurd h.1 Bool.false_ne_true, fun h => absurd h id⟩
    | table perm node sub =>
      rw [hi] at hs
      rw [hs.1, ih (ht.child hi)]
      exact ⟨fun h => h.2, fun h => ⟨node, h⟩⟩

def Inv (root : Nat) (mem : Mem) : Prop :=
  ∃ table : Table 2, Tree mem table root ∧ ∀ f, mem.ledger f = mem.count 2 root f

theorem Start.inv (h : Start root mem) : Inv root mem := by
  refine ⟨Vm.createPTNode, tree_zero h.empty, fun f => ?_⟩
  rw [h.ledger, count_eq_zero fun j => by rw [h.empty j]]
  rfl

/-- An effect keeps the ledger equal to the count. -/
theorem Effect.inv {used : List Nat} {table : Table 2} (he : Effect used mem mem' 2 root)
    (ht : Tree mem' table root) (hl : ∀ f, mem.ledger f = mem.count 2 root f) : Inv root mem' := by
  refine ⟨table, ht, fun f => ?_⟩
  have h1 := he.ledger f
  have h2 := hl f
  omega

theorem Inv.step {op : Op} (h : Inv root mem) (hok : Sparing root mem op)
    (hstep : mem.step root op = .ok mem') : Inv root mem' := by
  obtain ⟨table, ht, hl⟩ := h
  cases op with
  | create vpn ppn pages perm frames =>
    obtain ⟨⟨hfit, hv, hleaf, hnodup, hframes⟩, hspare⟩ := hok
    -- the supply is no part of the tree
    have hcount : ∀ f, ({ mem with supply := frames } : Mem).count 2 root f = mem.count 2 root f :=
      fun f => count_frame rfl fun _ _ => rfl
    have ht0 : Tree { mem with supply := frames } table root := ht.frame rfl fun _ _ => rfl
    have hfr : Fresh { mem with supply := frames } 2 root := by
      refine ⟨hnodup, fun f hf => ?_⟩
      obtain ⟨hne, hout, hlt⟩ := hframes f hf
      rw [hcount]
      have := hl f
      omega
    obtain ⟨table', used, -, ht', he⟩ := createMapping_sim 2 _ _ table _ _ _ _ _ ht0 hfr hv hleaf
      (fun l b hal hb hend hnode => hspare l b hal hb hend (ht.nodeAt_iff.2 hnode))
      (fit_of_le hfit) hstep
    refine he.inv ht' fun f => ?_
    exact hl f
  | remove vpn pages =>
    obtain ⟨table', -, ht', he⟩ := removeMapping_sim 2 _ _ _ _ _ _ ht hstep
    exact he.inv ht' hl

theorem Inv.conserved (h : Inv root mem) : Conserved root mem := by
  obtain ⟨table, ht, hl⟩ := h
  refine ⟨fun f => ?_, fun f => ?_⟩
  · have h1 := hl f
    have h2 := ht.once f
    omega
  · rw [← count_pos_iff]
    have h1 := hl f
    have h2 := ht.once f
    constructor
    · intro hone
      refine ⟨?_, by omega⟩
      rintro rfl
      have := ht.apart
      omega
    · omega

end Runs

/-- **Page table nodes are conserved** in every run in which no mapping is made over a whole entry
that holds a node. -/
theorem conserved_of_sparing {root : Nat} {mem : Mem}
    (h : Runs.Reach (step root) (Sparing root) (Start root) mem) : Conserved root mem :=
  (h.invariant (Inv root) (fun _ hs => hs.inv) fun _ _ _ hinv hok hstep =>
    hinv.step hok hstep).conserved

def blank : Mem := ⟨fun _ _ => {}, fun _ => 0, []⟩

theorem blank_start : Start 1 blank := ⟨fun _ => rfl, fun _ => rfl⟩

def rw_ : Perm := { v := true, r := true, w := true }

/-- A call for fewer pages than a superpage has spares every node. -/
theorem sparing_small {root vpn ppn pages : Nat} {mem : Mem} {perm : Perm} {frames : List Nat}
    (h : Legal root mem (.create vpn ppn pages perm frames)) (hsmall : pages < 512) :
    Sparing root mem (.create vpn ppn pages perm frames) := by
  refine ⟨h, fun l b _ hb hend hnode => ?_⟩
  have hpos : l ≠ 0 := by
    rintro rfl
    obtain ⟨-, hl | ⟨-, hl | hl⟩⟩ := hnode
    · cases hl
    · cases hl
    · exact hl
  have hbig : 512 ≤ bigPageSize l := Nat.pow_le_pow_right (Nat.succ_pos 1) (by omega : 9 ≤ 9 * l)
  omega

/-- A page, a superpage next to it, and the page removed: its node is given back and the node above
stays. -/
theorem conserved_removed : ∃ mem, Runs.Reach (step 1) (Sparing 1) (Start 1) mem ∧
    mem.ledger 2 = 1 ∧ mem.ledger 3 = 0 ∧ Conserved 1 mem := by
  have hrun : (do
      let mem₁ ← blank.step 1 (.create 0 100 1 rw_ [2, 3])
      let mem₂ ← mem₁.step 1 (.create 1024 1024 512 rw_ [])
      let mem₃ ← mem₂.step 1 (.remove 0 1)
      pure ((mem₁.node 1 0).ppn, (mem₁.node 2 2).perm.isNode, mem₃.ledger 2, mem₃.ledger 3) :
        Kern _).toOption = some (2, false, 1, 0) := by
    decide +kernel
  obtain ⟨mem₁, h₁, hrun⟩ := bind_eq_ok (toOption_eq_some.1 hrun)
  obtain ⟨mem₂, h₂, hrun⟩ := bind_eq_ok hrun
  obtain ⟨mem₃, h₃, hrun⟩ := bind_eq_ok hrun
  obtain ⟨hsub, hrun⟩ := Prod.mk.inj (Except.ok.inj hrun)
  obtain ⟨hnode, hrun⟩ := Prod.mk.inj hrun
  obtain ⟨hl₂, hl₃⟩ := Prod.mk.inj hrun
  have hok₂ : Sparing 1 mem₁ (.create 1024 1024 512 rw_ []) := by
    refine ⟨⟨by decide, rfl, rfl, List.nodup_nil, nofun⟩, fun l b hal hb hend hat => ?_⟩
    obtain ⟨-, rfl | ⟨hat, rfl | hl⟩⟩ := hat
    · rw [show bigPageSize (1 + 1) = 262144 from rfl] at hend
      omega
    · rw [show bigPageSize (0 + 1) = 512 from rfl] at hal hend
      obtain rfl : b = 1024 := by omega
      change (mem₁.node (mem₁.node 1 0).ppn 2).perm.isNode = true at hat
      rw [hsub, hnode] at hat
      cases hat
    · exact hl
  have hok₃ : Sparing 1 mem₂ (.remove 0 1) := by
    refine ⟨?_, trivial⟩
    change 0 + 1 ≤ 2 ^ 27
    decide
  have hreach := (((Runs.Reach.start blank_start).next (sparing_small (by decide) (by decide))
    h₁).next hok₂ h₂).next hok₃ h₃
  exact ⟨mem₃, hreach, hl₂, hl₃, conserved_of_sparing hreach⟩

/-- **A superpage over a node leaks it**: the entry of the node of page 0 is overwritten, and the
node of frame 3 is out and not below the root any more. -/
theorem not_conserved_overwritten :
    ¬∀ mem, Runs.Reach (step 1) (Legal 1) (Start 1) mem → Conserved 1 mem := by
  intro h
  obtain ⟨mem, -, hreach, hout, hbelow⟩ := Runs.exists_reach (step 1) (Legal 1)
    [.create 0 100 1 rw_ [2, 3], .create 0 512 512 rw_ []] blank_start
    (fun mem => mem.ledger 3 = 1 ∧ ¬mem.Below 2 1 3) (by decide +kernel)
  exact hbelow (((h mem hreach).live 3).1 hout).2

end Mem

end LuoOS.Vm
