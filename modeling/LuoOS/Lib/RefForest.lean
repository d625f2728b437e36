import Mathlib.Data.List.Perm.Basic
import Mathlib.Data.List.Nodup
import Mathlib.Data.List.Count
import Mathlib.Algebra.Order.BigOperators.Group.List
import Mathlib.Algebra.Order.Ring.Nat
import Mathlib.Logic.Function.Basic

/-!
# Reference counts in a forest

Nodes with a parent and a count of references each. A node in use refers to its parent; the other
references are held from outside. `Balanced` says that the counts are exact and the nodes in use
form a forest. Four operations keep it: another holder (`dup`), a node that comes into use
(`attach`), a holder less (`drop`), and a node that goes out of use, whose reference to its parent
is then still to be dropped (`detach`). The root is not counted.
-/

namespace RefForest

open Function

variable {ι : Type} [DecidableEq ι]

/-- The parent and the reference count of every node. -/
structure Counts (ι : Type) where
  ref : ι → Int
  parent : ι → Option ι

def bump (held : ι → Nat) (i : ι) : ι → Nat := update held i (held i + 1)

@[simp] theorem bump_self (held : ι → Nat) (i : ι) : bump held i i = held i + 1 :=
  update_self ..

theorem bump_of_ne (held : ι → Nat) {i j : ι} (h : j ≠ i) : bump held i j = held j :=
  update_of_ne h ..

theorem bump_drop {held : ι → Nat} {i : ι} (h : 0 < held i) :
    bump (update held i (held i - 1)) i = held := by
  unfold bump
  rw [update_self, update_idem, Nat.sub_add_cancel h, update_eq_self]

namespace Counts

variable (c : Counts ι)

def Refers (i j : ι) : Prop := 0 < c.ref j ∧ c.parent j = some i

instance (i j : ι) : Decidable (c.Refers i j) := inferInstanceAs (Decidable (_ ∧ _))

def kids (nodes : List ι) (i : ι) : Nat := nodes.countP fun j => decide (c.Refers i j)

def setRef (i : ι) (n : Int) : Counts ι := { c with ref := update c.ref i n }

def attach (i p : ι) : Counts ι where
  ref := update (update c.ref i 1) p (update c.ref i 1 p + 1)
  parent := update c.parent i (some p)

end Counts

/-- **The counts are exact.** -/
structure Balanced (c : Counts ι) (nodes : List ι) (root : ι) (held : ι → Nat) : Prop where
  count : ∀ i, i ≠ root → c.ref i = held i + c.kids nodes i
  within : ∀ i, i ≠ root → 0 < c.ref i → i ∈ nodes
  nodup : nodes.Nodup
  ranked : ∃ rank : ι → Nat, ∀ i p, c.Refers p i → rank p < rank i
  top : c.parent root = none

variable {c c' : Counts ι} {nodes nodes' : List ι} {root i j p : ι} {held held' : ι → Nat}

/-! ## The nodes that refer to a node -/

theorem Counts.Refers.mem (hb : Balanced c nodes root held) (h : c.Refers i j) : j ∈ nodes := by
  refine hb.within j ?_ h.1
  rintro rfl
  have := hb.top.symm.trans h.2
  cases this

theorem Counts.kids_eq_zero (h : ∀ j ∈ nodes, ¬c.Refers i j) : c.kids nodes i = 0 := by
  rw [kids, List.countP_eq_zero]
  simpa using h

theorem Counts.kids_pos : 0 < c.kids nodes i ↔ ∃ j ∈ nodes, c.Refers i j := by
  rw [kids, List.countP_pos_iff]
  simp

theorem Counts.kids_congr (h : ∀ j ∈ nodes, (c'.Refers i j ↔ c.Refers i j)) :
    c'.kids nodes i = c.kids nodes i := by
  refine List.countP_congr fun j hj => ?_
  rw [decide_eq_true_iff, decide_eq_true_iff]
  exact h j hj

/-- One more node refers to `i`. -/
theorem Counts.kids_succ (hnodup : nodes.Nodup) (hj : j ∈ nodes) (hnew : c'.Refers i j)
    (hold : ¬c.Refers i j) (hrest : ∀ k ∈ nodes, k ≠ j → (c'.Refers i k ↔ c.Refers i k)) :
    c'.kids nodes i = c.kids nodes i + 1 := by
  have hperm : nodes.Perm (j :: nodes.erase j) := List.perm_cons_erase hj
  have hnot : j ∉ nodes.erase j := hnodup.not_mem_erase
  have htail : c'.kids (nodes.erase j) i = c.kids (nodes.erase j) i := by
    refine kids_congr fun k hk => ?_
    refine hrest k (List.mem_of_mem_erase hk) ?_
    rintro rfl
    exact hnot hk
  unfold kids at htail ⊢
  rw [hperm.countP_eq, hperm.countP_eq, List.countP_cons_of_pos (by simpa using hnew),
    List.countP_cons_of_neg (by simpa using hold), htail]

namespace Balanced

/-! ## What does not matter -/

section

variable (h : Balanced c nodes root held)
include h

theorem perm (hp : nodes'.Perm nodes) : Balanced c nodes' root held := by
  refine ⟨fun i hi => ?_, fun i hi href => hp.mem_iff.2 (h.within i hi href), hp.nodup_iff.2 h.nodup,
    h.ranked, h.top⟩
  rw [h.count i hi, Counts.kids, Counts.kids, hp.countP_eq]

theorem idle (hi : i ≠ root) (href : c.ref i = 0) : held i = 0 ∧ ∀ j, ¬c.Refers i j := by
  have hcount := h.count i hi
  refine ⟨by omega, fun j hj => ?_⟩
  have hpos := Counts.kids_pos.2 ⟨j, hj.mem h, hj⟩
  omega

/-- A count changes in a way that leaves the node in use or out of use; its holders change with it.
-/
theorem setRef {n : Int} (hsame : 0 < n ↔ 0 < c.ref i)
    (hheld : ∀ j, j ≠ root → j ≠ i → held' j = held j)
    (hn : i ≠ root → n - c.ref i = (held' i : Int) - held i) :
    Balanced (c.setRef i n) nodes root held' := by
  have href : ∀ j, j ≠ i → (c.setRef i n).ref j = c.ref j := fun j hj => update_of_ne hj ..
  have hself : (c.setRef i n).ref i = n := update_self ..
  have huse : ∀ j, 0 < (c.setRef i n).ref j ↔ 0 < c.ref j := by
    intro j
    by_cases hj : j = i
    · rw [hj, hself]
      exact hsame
    · rw [href j hj]
  have hrefers : ∀ p j, (c.setRef i n).Refers p j ↔ c.Refers p j :=
    fun p j => and_congr_left' (huse j)
  have hkids : ∀ p, (c.setRef i n).kids nodes p = c.kids nodes p :=
    fun p => Counts.kids_congr fun j _ => hrefers p j
  obtain ⟨rank, hrank⟩ := h.ranked
  refine ⟨fun j hj => ?_, fun j hj hpos => h.within j hj ((huse j).1 hpos), h.nodup,
    ⟨rank, fun j p hr => hrank j p ((hrefers p j).1 hr)⟩, h.top⟩
  have hcount := h.count j hj
  rw [hkids]
  by_cases hji : j = i
  · subst hji
    have hn := hn hj
    omega
  · rw [href j hji, hheld j hj hji]
    exact hcount

end

/-! ## The operations -/

/-- Another holder of a node in use. -/
theorem dup (h : Balanced c nodes root held) (hi : 0 < c.ref i) :
    Balanced (c.setRef i (c.ref i + 1)) nodes root (bump held i) := by
  refine h.setRef (by omega) (fun j _ hj => bump_of_ne held hj) fun _ => ?_
  rw [bump_self]
  omega

theorem drop (h : Balanced c nodes root (bump held i)) (hi : 2 ≤ c.ref i) :
    Balanced (c.setRef i (c.ref i - 1)) nodes root held := by
  refine h.setRef (by omega) (fun j _ hj => (bump_of_ne held hj).symm) fun _ => ?_
  rw [bump_self]
  omega

theorem setRoot (h : Balanced c nodes root held) {n : Int} (hsame : 0 < n ↔ 0 < c.ref root) :
    Balanced (c.setRef root n) nodes root held :=
  h.setRef hsame (fun _ _ _ => rfl) fun hne => absurd rfl hne

theorem attach (h : Balanced c nodes root held) (hi : i ≠ root) (hmem : i ∈ nodes)
    (hfree : c.ref i = 0) (hp : 0 < c.ref p) :
    Balanced (c.attach i p) nodes root (bump held i) := by
  have hne : p ≠ i := by
    rintro rfl
    omega
  obtain ⟨hheld, hidle⟩ := h.idle hi hfree
  have hrefi : (c.attach i p).ref i = 1 := by
    simp [Counts.attach, hne.symm]
  have hrefp : (c.attach i p).ref p = c.ref p + 1 := by
    simp [Counts.attach, hne]
  have href : ∀ j, j ≠ i → j ≠ p → (c.attach i p).ref j = c.ref j := by
    intro j hji hjp
    simp [Counts.attach, hji, hjp]
  have hpari : (c.attach i p).parent i = some p := update_self ..
  have hpar : ∀ j, j ≠ i → (c.attach i p).parent j = c.parent j :=
    fun j hj => update_of_ne hj ..
  have huse : ∀ j, j ≠ i → (0 < (c.attach i p).ref j ↔ 0 < c.ref j) := by
    intro j hji
    by_cases hjp : j = p
    · subst hjp
      omega
    · rw [href j hji hjp]
  have hrefers : ∀ q j, j ≠ i → ((c.attach i p).Refers q j ↔ c.Refers q j) := by
    intro q j hji
    unfold Counts.Refers
    rw [huse j hji, hpar j hji]
  have hkids : ∀ q, q ≠ p → (c.attach i p).kids nodes q = c.kids nodes q := by
    intro q hq
    refine Counts.kids_congr fun j _ => ?_
    by_cases hji : j = i
    · subst hji
      refine iff_of_false (fun hr => hq ?_) fun hr => ?_
      · exact (Option.some.inj (hpari.symm.trans hr.2)).symm
      · have := hr.1
        omega
    · exact hrefers q j hji
  have hkidsp : (c.attach i p).kids nodes p = c.kids nodes p + 1 := by
    refine Counts.kids_succ h.nodup hmem ⟨by omega, hpari⟩ (fun hr => ?_)
      fun j _ hji => hrefers p j hji
    have := hr.1
    omega
  obtain ⟨rank, hrank⟩ := h.ranked
  refine ⟨fun j hj => ?_, fun j hj hpos => ?_, h.nodup,
    ⟨update rank i (rank p + 1), fun j q hr => ?_⟩, ?_⟩
  · have hcount := h.count j hj
    by_cases hji : j = i
    · subst hji
      rw [hrefi, bump_self, hkids j hne.symm]
      omega
    rw [bump_of_ne held hji]
    by_cases hjp : j = p
    · subst hjp
      omega
    · rw [href j hji hjp, hkids j hjp]
      exact hcount
  · by_cases hji : j = i
    · rw [hji]
      exact hmem
    · exact h.within j hj ((huse j hji).1 hpos)
  · by_cases hji : j = i
    · subst hji
      obtain rfl : p = q := Option.some.inj (hpari.symm.trans hr.2)
      rw [update_self, update_of_ne hne]
      exact Nat.lt_succ_self _
    · have hold := (hrefers q j hji).1 hr
      have hqi : q ≠ i := by
        rintro rfl
        exact hidle j hold
      rw [update_of_ne hji, update_of_ne hqi]
      exact hrank j q hold
  · rw [hpar root hi.symm]
    exact h.top

theorem detach (h : Balanced c nodes root (bump held i)) (hi : i ≠ root) (hone : c.ref i = 1)
    (hp : c.parent i = some p) : Balanced (c.setRef i 0) nodes root (bump held p) := by
  have hself : (c.setRef i 0).ref i = 0 := update_self ..
  have href : ∀ j, j ≠ i → (c.setRef i 0).ref j = c.ref j := fun j hj => update_of_ne hj ..
  have hrefers : ∀ q j, j ≠ i → ((c.setRef i 0).Refers q j ↔ c.Refers q j) := by
    intro q j hji
    unfold Counts.Refers
    rw [href j hji]
    exact Iff.rfl
  have hnot : ∀ q, ¬(c.setRef i 0).Refers q i := by
    intro q hr
    have := hr.1
    omega
  have hle : ∀ q j, (c.setRef i 0).Refers q j → c.Refers q j := by
    intro q j hr
    by_cases hji : j = i
    · rw [hji] at hr
      exact absurd hr (hnot q)
    · exact (hrefers q j hji).1 hr
  have hmem : i ∈ nodes := h.within i hi (by omega)
  have hkids : ∀ q, q ≠ p → (c.setRef i 0).kids nodes q = c.kids nodes q := by
    intro q hq
    refine Counts.kids_congr fun j _ => ?_
    by_cases hji : j = i
    · subst hji
      refine iff_of_false (hnot q) fun hr => hq ?_
      exact Option.some.inj (hr.2.symm.trans hp)
    · exact hrefers q j hji
  have hkidsp : c.kids nodes p = (c.setRef i 0).kids nodes p + 1 :=
    Counts.kids_succ h.nodup hmem ⟨by omega, hp⟩ (hnot p) fun j _ hji => (hrefers p j hji).symm
  have hcounti := h.count i hi
  rw [bump_self] at hcounti
  obtain ⟨rank, hrank⟩ := h.ranked
  have hne : p ≠ i := by
    rintro rfl
    exact absurd (hrank p p ⟨by omega, hp⟩) (Nat.lt_irrefl _)
  refine ⟨fun j hj => ?_, fun j hj hpos => ?_, h.nodup,
    ⟨rank, fun j q hr => hrank j q (hle q j hr)⟩, h.top⟩
  · have hcount := h.count j hj
    by_cases hji : j = i
    · subst hji
      rw [hself, hkids j hne.symm, bump_of_ne held hne.symm]
      omega
    rw [bump_of_ne held hji] at hcount
    rw [href j hji]
    by_cases hjp : j = p
    · subst hjp
      rw [bump_self]
      omega
    · rw [bump_of_ne held hjp, hkids j hjp]
      exact hcount
  · refine h.within j hj ?_
    by_cases hji : j = i
    · rw [hji] at hpos
      omega
    · rw [href j hji] at hpos
      exact hpos

end Balanced

/-! ## Nodes that are really in use -/

/-- The node, or one below it, is held from outside. -/
inductive Open (c : Counts ι) (held : ι → Nat) : ι → Prop
  | held {i : ι} (h : 0 < held i) : Open c held i
  | through {i j : ι} (h : Open c held j) (hr : c.Refers i j) : Open c held i

/-- **A node in use has been opened**: the references to it come from holders in the end. -/
theorem Balanced.isOpen (h : Balanced c nodes root held) (hi : i ≠ root) (hpos : 0 < c.ref i) :
    Open c held i := by
  obtain ⟨rank, hrank⟩ := h.ranked
  -- the ranks of the nodes are bounded, so the induction goes down from the bound
  have hbound : ∀ j ∈ nodes, rank j ≤ (nodes.map rank).sum := fun j hj =>
    List.single_le_sum (fun _ _ => Nat.zero_le _) _ (List.mem_map_of_mem hj)
  generalize hn : (nodes.map rank).sum - rank i = n
  induction n using Nat.strong_induction_on generalizing i with
  | _ n ih =>
    by_cases hheld : 0 < held i
    · exact .held hheld
    have hcount := h.count i hi
    obtain ⟨j, hj, hr⟩ := Counts.kids_pos.1 (show 0 < c.kids nodes i by omega)
    have hlt := hrank j i hr
    have hle := hbound j hj
    have hroot : j ≠ root := by
      rintro rfl
      have := h.top.symm.trans hr.2
      cases this
    exact .through (ih _ (by omega) hroot hr.1 rfl) hr

end RefForest
