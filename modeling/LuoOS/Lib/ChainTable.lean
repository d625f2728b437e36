import Mathlib.Logic.Equiv.Basic
import Mathlib.Data.List.Nodup

/-!
# Chains in a successor table

A table `next` maps each node to the one that follows it, to an end mark, or to `nil`, which marks
it as free. A chain is a list of distinct nodes linked up to an end mark. `Family` says that no node
is in the chains of two owners, `Covers` that every node that is not free is in one. An owner may
append free nodes to its chain (`Grows`), give it back (`Frees`) or hand it over; all keep a family
a family, and a covering one covering.
-/

namespace ChainTable

open Function

/-- The values that are nodes, those that end a chain, and `nil`. -/
structure Marks (α : Type) where
  node : α → Prop
  final : α → Prop
  nil : α
  not_node_nil : ¬node nil
  not_final_nil : ¬final nil
  not_node_of_final : ∀ {x}, final x → ¬node x

variable {α ι : Type}

/-- Every node of `cs` is followed by the next one. -/
structure Linked (m : Marks α) (next : α → α) (cs : List α) : Prop where
  succ : ∀ {i c d}, cs[i]? = some c → cs[i + 1]? = some d → next c = d
  last : ∀ {i c}, cs[i]? = some c → cs[i + 1]? = none → m.final (next c)

/-- The list `cs` is a chain of the table. -/
structure IsChain (m : Marks α) (next : α → α) (cs : List α) : Prop where
  linked : Linked m next cs
  nodup : cs.Nodup
  node : ∀ c ∈ cs, m.node c

variable {m : Marks α} {next next' next1 : α → α} {cs cs' ds : List α} {c : α}

namespace Linked

theorem nil : Linked m next [] := ⟨nofun, nofun⟩

theorem tail (h : Linked m next (c :: cs)) : Linked m next cs where
  succ {i _ _} hc hd := h.succ (i := i + 1) hc hd
  last {i _} hc hd := h.last (i := i + 1) hc hd

theorem congr (h : Linked m next cs) (heq : ∀ c ∈ cs, next' c = next c) : Linked m next' cs where
  succ hc hd := by
    rw [heq _ (List.mem_of_getElem? hc)]
    exact h.succ hc hd
  last hc hd := by
    rw [heq _ (List.mem_of_getElem? hc)]
    exact h.last hc hd

theorem node_or_final (h : Linked m next cs) (hnode : ∀ c ∈ cs, m.node c) (hc : c ∈ cs) :
    m.node (next c) ∨ m.final (next c) := by
  obtain ⟨i, hi⟩ := List.mem_iff_getElem?.1 hc
  cases hd : cs[i + 1]? with
  | some d =>
    rw [h.succ hi hd]
    exact .inl (hnode d (List.mem_of_getElem? hd))
  | none => exact .inr (h.last hi hd)

end Linked

namespace IsChain

theorem nil : IsChain m next [] := ⟨.nil, List.nodup_nil, nofun⟩

theorem congr (h : IsChain m next cs) (heq : ∀ c ∈ cs, next' c = next c) : IsChain m next' cs :=
  ⟨h.linked.congr heq, h.nodup, h.node⟩

theorem tail (h : IsChain m next (c :: cs)) : IsChain m next cs :=
  ⟨h.linked.tail, (List.nodup_cons.1 h.nodup).2, fun d hd => h.node d (List.mem_cons_of_mem _ hd)⟩

theorem next_ne_nil (h : IsChain m next cs) (hc : c ∈ cs) : next c ≠ m.nil := by
  intro hn
  have hor := h.linked.node_or_final h.node hc
  rw [hn] at hor
  exact hor.elim m.not_node_nil m.not_final_nil

end IsChain

/-! ## Following the table -/

def follow (next : α → α) (isNode : α → Bool) : Nat → α → List α
  | 0, _ => []
  | fuel + 1, c => if isNode c then c :: follow next isNode fuel (next c) else []

variable {isNode : α → Bool}

theorem follow_of_not (h : isNode c = false) (fuel : Nat) : follow next isNode fuel c = [] := by
  cases fuel with
  | zero => rfl
  | succ fuel =>
    unfold follow
    rw [h]
    rfl

theorem IsChain.follow_eq (hn : ∀ x, m.node x → isNode x = true)
    (hf : ∀ x, m.final x → isNode x = false) {fuel : Nat} (h : IsChain m next cs)
    (hhead : cs.head? = some c) (hlen : cs.length ≤ fuel) : follow next isNode fuel c = cs := by
  induction fuel generalizing cs c with
  | zero =>
    rw [List.eq_nil_of_length_eq_zero (Nat.le_zero.1 hlen)] at hhead
    cases hhead
  | succ fuel ih =>
    cases cs with
    | nil => cases hhead
    | cons d cs =>
      obtain rfl : d = c := Option.some.inj hhead
      unfold follow
      rw [if_pos (hn d (h.node d List.mem_cons_self))]
      congr 1
      cases hcs : cs with
      | nil =>
        subst hcs
        exact follow_of_not (hf _ (h.linked.last (i := 0) rfl rfl)) fuel
      | cons x xs =>
        subst hcs
        have hnext : next d = x := h.linked.succ (i := 0) rfl rfl
        exact ih h.tail (by rw [hnext]; rfl) (Nat.le_of_succ_le_succ hlen)

/-! ## Growing and freeing one chain -/

/-- Free nodes are appended to the chain. -/
structure Grows (m : Marks α) (next next' : α → α) (cs cs' : List α) : Prop where
  fresh : ∃ new, cs' = cs ++ new ∧ ∀ c ∈ new, m.node c ∧ next c = m.nil
  chain : IsChain m next' cs'
  keep : ∀ c, c ∉ cs' → next' c = next c

/-- The nodes of the chain become free. -/
structure Frees (m : Marks α) (next next' : α → α) (cs : List α) : Prop where
  free : ∀ c ∈ cs, next' c = m.nil
  keep : ∀ c, c ∉ cs → next' c = next c

namespace Grows

theorem refl (h : IsChain m next cs) : Grows m next next cs cs :=
  ⟨⟨[], (List.append_nil cs).symm, nofun⟩, h, fun _ _ => rfl⟩

section

variable (g : Grows m next next' cs cs')
include g

theorem sub (hc : c ∈ cs) : c ∈ cs' := by
  obtain ⟨new, rfl, -⟩ := g.fresh
  exact List.mem_append_left _ hc

theorem getElem? {i : Nat} (hc : cs[i]? = some c) : cs'[i]? = some c := by
  obtain ⟨new, rfl, -⟩ := g.fresh
  rw [List.getElem?_append_left (List.getElem?_eq_some_iff.1 hc).1]
  exact hc

theorem head? (hc : cs.head? = some c) : cs'.head? = some c := by
  rw [List.head?_eq_getElem?] at hc ⊢
  exact g.getElem? hc

theorem length_le : cs.length ≤ cs'.length := by
  obtain ⟨new, rfl, -⟩ := g.fresh
  rw [List.length_append]
  exact Nat.le_add_right _ _

end

theorem trans (g : Grows m next next1 cs ds) (g' : Grows m next1 next' ds cs') :
    Grows m next next' cs cs' := by
  obtain ⟨new, rfl, hnew⟩ := g.fresh
  obtain ⟨new', rfl, hnew'⟩ := g'.fresh
  refine ⟨⟨new ++ new', List.append_assoc _ _ _, ?_⟩, g'.chain, ?_⟩
  · intro c hc
    rcases List.mem_append.1 hc with hc | hc
    · exact hnew c hc
    obtain ⟨hnode, hfree⟩ := hnew' c hc
    refine ⟨hnode, ?_⟩
    have hnot : c ∉ cs ++ new := by
      intro hmem
      exact List.disjoint_of_nodup_append g'.chain.nodup hmem hc
    rw [← g.keep c hnot]
    exact hfree
  · intro c hc
    rw [g'.keep c hc, g.keep c (fun hmem => hc (List.mem_append_left _ hmem))]

theorem single (hnode : m.node c) (hfree : next c = m.nil) (hfin : m.final (next' c))
    (hkeep : ∀ x, x ≠ c → next' x = next x) : Grows m next next' [] [c] where
  fresh := ⟨[c], rfl, by
    intro x hx
    rw [List.mem_singleton.1 hx]
    exact ⟨hnode, hfree⟩⟩
  chain := by
    refine ⟨⟨?_, ?_⟩, List.nodup_singleton c, ?_⟩
    · intro i x d _ hd
      simp at hd
    · intro i x hx _
      rw [List.mem_singleton.1 (List.mem_of_getElem? hx)]
      exact hfin
    · intro x hx
      rw [List.mem_singleton.1 hx]
      exact hnode
  keep x hx := hkeep x (fun h => hx (h ▸ List.mem_singleton_self _))

theorem snoc {x : α} {i : Nat} (h : IsChain m next cs) (hx : cs[i]? = some x)
    (hlast : cs[i + 1]? = none) (hnode : m.node c) (hfree : next c = m.nil) (hlink : next' x = c)
    (hfin : m.final (next' c)) (hkeep : ∀ y, y ≠ x → y ≠ c → next' y = next y) :
    Grows m next next' cs (cs ++ [c]) := by
  have hlen : cs.length = i + 1 := by
    have h1 := (List.getElem?_eq_some_iff.1 hx).1
    have h2 := List.getElem?_eq_none_iff.1 hlast
    omega
  have hc : c ∉ cs := fun hmem => h.next_ne_nil hmem hfree
  have hend : (cs ++ [c])[i + 1]? = some c := by
    rw [List.getElem?_append_right (by omega), hlen, Nat.sub_self]
    rfl
  have hold : ∀ {j y}, (cs ++ [c])[j]? = some y → j ≤ i → cs[j]? = some y := by
    intro j y hy hj
    rw [List.getElem?_append_left (by omega)] at hy
    exact hy
  -- An index before the last one holds a node whose entry has not changed.
  have hsame : ∀ {j y}, cs[j]? = some y → j < i → next' y = next y := by
    intro j y hy hj
    refine hkeep y ?_ (fun h => hc (h ▸ List.mem_of_getElem? hy))
    rintro rfl
    have hidx := (List.getElem?_inj (List.getElem?_eq_some_iff.1 hx).1 h.nodup).1
      (hx.trans hy.symm)
    omega
  refine ⟨⟨[c], rfl, ?_⟩, ⟨⟨?_, ?_⟩, ?_, ?_⟩, ?_⟩
  · intro y hy
    rw [List.mem_singleton.1 hy]
    exact ⟨hnode, hfree⟩
  · intro j y d hy hd
    have hj : j + 1 < (cs ++ [c]).length := (List.getElem?_eq_some_iff.1 hd).1
    rw [List.length_append, List.length_singleton] at hj
    by_cases hji : j = i
    · subst hji
      rw [hend] at hd
      cases hd
      have := (hold hy (Nat.le_refl _)).symm.trans hx
      cases this
      exact hlink
    · have hlt : j < i := by omega
      have hyo := hold hy (Nat.le_of_lt hlt)
      rw [hsame hyo hlt]
      exact h.linked.succ hyo (hold hd hlt)
  · intro j y hy hn
    have hj := List.getElem?_eq_none_iff.1 hn
    have hj' := (List.getElem?_eq_some_iff.1 hy).1
    rw [List.length_append, List.length_singleton] at hj hj'
    have hji : j = i + 1 := by omega
    rw [hji, hend] at hy
    cases hy
    exact hfin
  · exact List.nodup_append.2 ⟨h.nodup, List.nodup_singleton c, fun a ha b hb hab =>
      hc (List.mem_singleton.1 hb ▸ hab ▸ ha)⟩
  · intro y hy
    rcases List.mem_append.1 hy with hy | hy
    · exact h.node y hy
    · rw [List.mem_singleton.1 hy]
      exact hnode
  · intro y hy
    have hyx : y ≠ x := fun h =>
      hy (List.mem_append_left _ (h ▸ List.mem_of_getElem? hx))
    exact hkeep y hyx (fun h => hy (List.mem_append_right _ (h ▸ List.mem_singleton_self _)))

end Grows

/-! ## Owners -/

/-- Every owner has a chain, and the chains are apart. -/
structure Family (m : Marks α) (next : α → α) (own : ι → List α) : Prop where
  chain : ∀ i, IsChain m next (own i)
  apart : ∀ i j, i ≠ j → ∀ c ∈ own i, c ∉ own j

def Covers (m : Marks α) (next : α → α) (own : ι → List α) : Prop :=
  ∀ c, m.node c → next c ≠ m.nil → ∃ i, c ∈ own i

section Owners

variable [DecidableEq ι] {own : ι → List α} {i j : ι}

theorem Family.grow (f : Family m next own) (g : Grows m next next' (own i) cs') :
    Family m next' (update own i cs') := by
  obtain ⟨new, rfl, hnew⟩ := g.fresh
  have hother : ∀ j, j ≠ i → ∀ c ∈ own j, c ∉ own i ++ new := by
    intro j hj c hc hmem
    rcases List.mem_append.1 hmem with h | h
    · exact f.apart j i hj c hc h
    · exact (f.chain j).next_ne_nil hc (hnew c h).2
  refine ⟨?_, ?_⟩
  · intro j
    by_cases hj : j = i
    · subst hj
      rw [update_self]
      exact g.chain
    · rw [update_of_ne hj]
      exact (f.chain j).congr fun c hc => g.keep c (hother j hj c hc)
  · intro j k hjk c hc
    by_cases hj : j = i
    · subst hj
      rw [update_self] at hc
      rw [update_of_ne (Ne.symm hjk)]
      exact fun hck => hother k (Ne.symm hjk) c hck hc
    · rw [update_of_ne hj] at hc
      by_cases hk : k = i
      · subst hk
        rw [update_self]
        exact hother j hj c hc
      · rw [update_of_ne hk]
        exact f.apart j k hjk c hc

theorem Covers.grow (h : Covers m next own) (g : Grows m next next' (own i) cs') :
    Covers m next' (update own i cs') := by
  intro c hnode hne
  by_cases hc : c ∈ cs'
  · exact ⟨i, by rw [update_self]; exact hc⟩
  rw [g.keep c hc] at hne
  obtain ⟨j, hj⟩ := h c hnode hne
  refine ⟨j, ?_⟩
  rw [update_of_ne]
  · exact hj
  · rintro rfl
    exact hc (g.sub hj)

theorem Family.free (f : Family m next own) (g : Frees m next next' (own i)) :
    Family m next' (update own i []) := by
  refine ⟨?_, ?_⟩
  · intro j
    by_cases hj : j = i
    · subst hj
      rw [update_self]
      exact .nil
    · rw [update_of_ne hj]
      exact (f.chain j).congr fun c hc => g.keep c (f.apart j i hj c hc)
  · intro j k hjk c hc
    by_cases hj : j = i
    · subst hj
      rw [update_self] at hc
      cases hc
    rw [update_of_ne hj] at hc
    by_cases hk : k = i
    · subst hk
      rw [update_self]
      exact List.not_mem_nil
    · rw [update_of_ne hk]
      exact f.apart j k hjk c hc

theorem Covers.free (h : Covers m next own) (g : Frees m next next' (own i)) :
    Covers m next' (update own i []) := by
  intro c hnode hne
  have hc : c ∉ own i := fun hmem => hne (g.free c hmem)
  rw [g.keep c hc] at hne
  obtain ⟨j, hj⟩ := h c hnode hne
  refine ⟨j, ?_⟩
  rw [update_of_ne]
  · exact hj
  · rintro rfl
    exact hc hj

/-- One owner hands its chain to one that has none. -/
theorem Family.move (f : Family m next own) (hj : own j = []) :
    Family m next (update (update own i []) j (own i)) := by
  rw [← hj, ← Equiv.comp_swap_eq_update]
  exact ⟨fun k => f.chain _, fun k l hkl => f.apart _ _ ((Equiv.swap j i).injective.ne hkl)⟩

theorem Covers.move (h : Covers m next own) (hj : own j = []) :
    Covers m next (update (update own i []) j (own i)) := by
  rw [← hj, ← Equiv.comp_swap_eq_update]
  intro c hnode hne
  obtain ⟨k, hk⟩ := h c hnode hne
  refine ⟨(Equiv.swap j i).symm k, ?_⟩
  rw [comp_apply, Equiv.apply_symm_apply]
  exact hk

end Owners

end ChainTable
