import LuoOS.Fs.RefCount

/-!
# The order of the entry cache

The slots of the cache form a list. An entry that goes out of use is put right behind the root, and
a slot is taken from the other end. A directory goes out of use after the entries below it, so it
never leaves the cache before they do, and no entry is left whose directory is a slot with another
entry in it (`Queued.childless`).
-/

namespace LuoOS.Fs

open DirEnt Outcome RefForest

/-! ## Places in a list -/

def Before (l : List Nat) (a b : Nat) : Prop := [a, b].Sublist l

section Before

variable {l : List Nat} {a b i root : Nat}

theorem Before.erase (h : Before l a b) (ha : a ≠ i) (hb : b ≠ i) : Before (l.erase i) a b := by
  have hsub := List.Sublist.erase i h
  rw [List.erase_of_not_mem (by simp [ha.symm, hb.symm])] at hsub
  exact hsub

theorem sublist_insertBehind (root i : Nat) (l : List Nat) :
    l.Sublist (Mount.insertBehind root i l) := by
  induction l with
  | nil => exact List.nil_sublist _
  | cons x l ih =>
    unfold Mount.insertBehind
    split
    · exact (List.sublist_cons_self i l).cons_cons x
    · exact ih.cons_cons x

theorem before_inserted (h : root ∈ l) : Before (Mount.insertBehind root i l) root i := by
  induction l with
  | nil => cases h
  | cons x l ih =>
    unfold Mount.insertBehind
    split
    · rename_i hx
      rw [hx]
      exact ((List.nil_sublist l).cons_cons i).cons_cons root
    · rename_i hx
      exact (ih ((List.mem_cons.1 h).resolve_left (Ne.symm hx))).cons x

/-- What was behind the root is behind what was put there. -/
theorem inserted_before (h : Before l root b) : Before (Mount.insertBehind root i l) i b := by
  induction l with
  | nil => cases h
  | cons x l ih =>
    unfold Mount.insertBehind
    split
    · rename_i hx
      rw [hx] at h ⊢
      exact ((List.cons_sublist_cons.1 h).cons_cons i).cons root
    rename_i hx
    cases h with
    | cons _ h => exact (ih h).cons x
    | cons_cons _ h => exact absurd rfl hx

theorem Before.find?_reverse {q : Nat → Bool} (h : Before l a b) (hl : l.Nodup) (hb : q b = true) :
    l.reverse.find? q ≠ some a := by
  intro hfind
  obtain ⟨-, front, back, hl', hfront⟩ := List.find?_eq_some_iff_append.1 hfind
  have heq : l = back.reverse ++ a :: front.reverse := by
    rw [← List.reverse_reverse l, hl']
    simp
  rw [heq] at h hl
  have hback : a ∉ back.reverse := fun hmem =>
    (List.disjoint_of_nodup_append hl) hmem List.mem_cons_self
  obtain ⟨l1, l2, hsplit, h1, h2⟩ := List.sublist_append_iff.1 h
  cases l1 with
  | nil =>
    rw [List.nil_append] at hsplit
    rw [← hsplit] at h2
    have hmem : b ∈ front.reverse := (List.cons_sublist_cons.1 h2).subset List.mem_cons_self
    have hnot := hfront b (List.mem_reverse.1 hmem)
    simp [hb] at hnot
  | cons x l1 =>
    obtain ⟨rfl, -⟩ := List.cons.inj hsplit
    exact hback (h1.subset List.mem_cons_self)

end Before

namespace Mount

variable {s s1 s' : Mount} {held : Nat → Nat} {i ep : Nat}

/-- An entry out of use stands behind the root, and behind its directory. -/
structure Queued (s : Mount) : Prop where
  top : s.root ∈ s.lru
  behind : ∀ j, j ≠ s.root → (s.ents j).valid = .live → (s.ents j).ref = 0 → Before s.lru s.root j
  below : ∀ j p, j ≠ s.root → (s.ents j).valid = .live → (s.ents j).parent = some p → p ≠ s.root →
    (s.ents j).ref = 0 → (s.ents p).ref = 0 → Before s.lru p j

theorem Tallied.ne_root (t : s.Tallied held) {j p : Nat} (hparent : (s.ents j).parent = some p) :
    j ≠ s.root := by
  rintro rfl
  cases t.balanced.top.symm.trans hparent

/-- An entry in use keeps its directory in use. -/
theorem Tallied.parent_pos (t : s.Tallied held) {j p : Nat} (hparent : (s.ents j).parent = some p)
    (hp : p ≠ s.root) (href : (s.ents j).ref ≠ 0) : (s.ents p).ref ≠ 0 := by
  intro hzero
  have hnonneg := t.ref_nonneg (t.ne_root hparent)
  have hpos : 0 < (s.ents j).ref := by omega
  exact (t.balanced.idle hp hzero).2 j ⟨hpos, hparent⟩

/-- **No directory leaves the cache before the entries below it.** -/
theorem Queued.childless (h : s.Queued) (t : s.Tallied held) (hev : s.evictee = some ep) :
    s.Childless ep := by
  intro j _ hlive hparent
  obtain ⟨-, hroot, hzero⟩ := evictee_spec t.rootRef hev
  have href : (s.ents j).ref = 0 := by
    by_contra hne
    exact t.parent_pos hparent hroot hne hzero
  have hbefore := h.below j ep (t.ne_root hparent) hlive hparent hroot href hzero
  exact hbefore.find?_reverse t.balanced.nodup (decide_eq_true href) hev

theorem Queued.mono (h : s.Queued) (hlru : s'.lru = s.lru) (hroot : s'.root = s.root)
    (hlive : ∀ j, (s'.ents j).valid = .live → (s'.ents j).ref = 0 →
      (s.ents j).valid = .live ∧ (s'.ents j).parent = (s.ents j).parent)
    (href : ∀ j, j ≠ s.root → (s'.ents j).ref = 0 → (s.ents j).ref = 0) : s'.Queued := by
  refine ⟨?_, fun j hj hv hr => ?_, fun j p hj hv hpar hp hr hpr => ?_⟩
  · rw [hlru, hroot]
    exact h.top
  · rw [hroot] at hj
    rw [hlru, hroot]
    exact h.behind j hj (hlive j hv hr).1 (href j hj hr)
  · rw [hroot] at hj hp
    rw [hlru]
    obtain ⟨hv', hpar'⟩ := hlive j hv hr
    exact h.below j p hj hv' (hpar'.symm.trans hpar) hp (href j hj hr) (href p hp hpr)

theorem entDup_ent (s : Mount) (i j : Nat) :
    (s.entDup i).ents j = { s.ents j with ref := ((s.entDup i).ents j).ref } := by
  rw [entDup_ents]
  split
  · rename_i hj
    rw [hj]
  · rfl

theorem unref_ent (s : Mount) (i j : Nat) :
    (s.unref i).ents j = { s.ents j with ref := ((s.unref i).ents j).ref } := by
  rw [unref_ents]
  split
  · rename_i hj
    rw [hj]
  · rfl

theorem Queued.entDup (h : s.Queued) (hi : i ≠ s.root → 0 ≤ (s.ents i).ref) :
    (s.entDup i).Queued := by
  refine h.mono rfl rfl (fun j hv _ => ?_) fun j hj hr => ?_
  · rw [entDup_ent] at hv ⊢
    exact ⟨hv, rfl⟩
  · rw [entDup_ents] at hr
    split at hr
    · dsimp only at hr
      omega
    · exact hr

theorem Queued.hit (h : s.Queued) (t : s.Tallied held) {this : Nat} : (s.hit this i).Queued := by
  have hi : (s.entDup i).Queued := h.entDup fun hroot => t.ref_nonneg hroot
  unfold Mount.hit
  split
  · refine hi.entDup fun hroot => ?_
    have hnonneg := t.ref_nonneg hroot
    rw [entDup_ents]
    split
    · dsimp only
      omega
    · exact hnonneg
  · exact hi

/-! ## Letting go -/

theorem Queued.letGo (h : s.Queued) (t : s.Tallied held) (hroot : i ≠ s.root)
    (href : (s.ents i).ref = 1) (k : Kept (s.behindRoot i) s1) : (s1.unref i).Queued := by
  have hroot1 : (s1.unref i).root = s.root := k.root
  have hlru : (s1.unref i).lru = insertBehind s.root i (s.lru.erase i) := k.lru
  have hsame : ∀ j, ((s1.unref i).ents j).valid = (s.ents j).valid ∧
      ((s1.unref i).ents j).parent = (s.ents j).parent := by
    intro j
    have hk : SameEntry ((s.entDup s.root).ents j) (s1.ents j) := k.ents j
    rw [unref_ent]
    rw [entDup_ent] at hk
    exact ⟨hk.valid, hk.parent⟩
  have hcount : ∀ j, j ≠ s.root → j ≠ i → ((s1.unref i).ents j).ref = (s.ents j).ref := by
    intro j hj hji
    have hk : SameEntry ((s.entDup s.root).ents j) (s1.ents j) := k.ents j
    rw [unref_ents, if_neg hji, hk.ref, entDup_ents, if_neg hj]
  -- the order of the others stays
  have hkeep : ∀ a b, a ≠ i → b ≠ i → Before s.lru a b → Before (s1.unref i).lru a b := by
    intro a b ha hb hab
    rw [hlru]
    exact (hab.erase ha hb).trans (sublist_insertBehind ..)
  have htop : s.root ∈ s.lru.erase i := (List.mem_erase_of_ne hroot.symm).2 h.top
  refine ⟨?_, fun j hj hv hr => ?_, fun j p hj hv hpar hp hr hpr => ?_⟩
  · rw [hlru, hroot1]
    exact (sublist_insertBehind ..).subset htop
  · rw [hroot1] at hj ⊢
    by_cases hji : j = i
    · rw [hji, hlru]
      exact before_inserted htop
    · rw [hcount j hj hji] at hr
      exact hkeep _ _ hroot.symm hji (h.behind j hj ((hsame j).1 ▸ hv) hr)
  · rw [hroot1] at hj hp
    rw [(hsame j).1] at hv
    rw [(hsame j).2] at hpar
    by_cases hji : j = i
    · -- the directory of an entry that was in use is in use
      have hpi : p ≠ i := by
        rintro rfl
        obtain ⟨rank, hrank⟩ := t.balanced.ranked
        have hpos : 0 < (s.ents p).ref := by omega
        exact Nat.lt_irrefl _ (hrank p p ⟨hpos, hji ▸ hpar⟩)
      rw [hcount p hp hpi] at hpr
      rw [hji] at hpar
      exact absurd hpr (t.parent_pos hpar hp (by omega))
    · rw [hcount j hj hji] at hr
      by_cases hpi : p = i
      · rw [hpi, hlru]
        exact inserted_before ((h.behind j hj hv hr).erase hroot.symm hji)
      · rw [hcount p hp hpi] at hpr
        exact hkeep p j hpi hji (h.below j p hj hv hpar hp hr hpr)

end Mount

end LuoOS.Fs
