import Mathlib.Data.List.Pairwise

/-!
# Sets ordered by a key

A set ordered by a numeric key, no two elements of which have the same key, with the operations of
an ordered container: an `insert` that does nothing when the key is taken, `erase`, and the searches
by key. `sweep` is a loop over such a set whose body may change it and says where it goes on.
-/

/-- A set in the order of its keys. -/
structure KeyedSet (α : Type) (key : α → Nat) where
  elems : List α
  sorted : elems.Pairwise fun a b => key a < key b

namespace KeyedSet

variable {α : Type} {key : α → Nat}

instance : Membership α (KeyedSet α key) := ⟨fun s a => a ∈ s.elems⟩

variable {a b x : α} {k : Nat} {l : List α} {s : KeyedSet α key}

theorem mem_def : a ∈ s ↔ a ∈ s.elems := Iff.rfl

def empty : KeyedSet α key := ⟨[], List.Pairwise.nil⟩

theorem not_mem_empty (a : α) : a ∉ (empty : KeyedSet α key) := List.not_mem_nil

theorem eq_of_key_eq (ha : a ∈ s) (hb : b ∈ s) (h : key a = key b) : a = b := by
  have hne : s.elems.Pairwise fun a b => key a ≠ key b := s.sorted.imp Nat.ne_of_lt
  have hsymm : Std.Symm fun a b : α => key a ≠ key b := ⟨fun _ _ h => h.symm⟩
  by_contra hab
  exact hne.forall ha hb hab h

/-! ## Insertion -/

def insertList (key : α → Nat) (a : α) : List α → List α
  | [] => [a]
  | b :: l =>
    if key a < key b then a :: b :: l
    else if key a = key b then b :: l
    else b :: insertList key a l

theorem mem_of_mem_insertList (h : x ∈ insertList key a l) : x = a ∨ x ∈ l := by
  induction l with
  | nil => exact .inl (List.mem_singleton.1 h)
  | cons b l ih =>
    unfold insertList at h
    split at h
    · exact List.mem_cons.1 h
    split at h
    · exact .inr h
    rcases List.mem_cons.1 h with rfl | h
    · exact .inr List.mem_cons_self
    · rcases ih h with hx | hx
      · exact .inl hx
      · exact .inr (List.mem_cons_of_mem _ hx)

theorem insertList_sorted (h : l.Pairwise fun a b => key a < key b) :
    (insertList key a l).Pairwise fun a b => key a < key b := by
  induction l with
  | nil => exact List.pairwise_singleton _ _
  | cons b l ih =>
    obtain ⟨hb, hl⟩ := List.pairwise_cons.1 h
    unfold insertList
    split
    · rename_i hab
      refine List.pairwise_cons.2 ⟨?_, h⟩
      intro x hx
      rcases List.mem_cons.1 hx with rfl | hx
      · exact hab
      · exact Nat.lt_trans hab (hb x hx)
    · split
      · exact h
      refine List.pairwise_cons.2 ⟨?_, ih hl⟩
      intro x hx
      rcases mem_of_mem_insertList hx with rfl | hx
      · omega
      · exact hb x hx

/-- An element is found in the list, or its key is. -/
theorem subset_insertList (h : x ∈ l) : x ∈ insertList key a l := by
  induction l with
  | nil => exact absurd h List.not_mem_nil
  | cons b l ih =>
    unfold insertList
    split
    · exact List.mem_cons_of_mem _ h
    split
    · exact h
    · rcases List.mem_cons.1 h with rfl | h
      · exact List.mem_cons_self
      · exact List.mem_cons_of_mem _ (ih h)

theorem mem_insertList_self (h : ∀ b ∈ l, key b ≠ key a) : a ∈ insertList key a l := by
  induction l with
  | nil => exact List.mem_singleton_self a
  | cons b l ih =>
    unfold insertList
    split
    · exact List.mem_cons_self
    · rw [if_neg fun heq => h b List.mem_cons_self heq.symm]
      exact List.mem_cons_of_mem _ (ih fun c hc => h c (List.mem_cons_of_mem _ hc))

theorem insertList_of_mem (hs : l.Pairwise fun a b => key a < key b)
    (hb : b ∈ l) (hkey : key b = key a) : insertList key a l = l := by
  induction l with
  | nil => exact absurd hb List.not_mem_nil
  | cons c l ih =>
    obtain ⟨hc, hl⟩ := List.pairwise_cons.1 hs
    unfold insertList
    rcases List.mem_cons.1 hb with rfl | hb
    · rw [if_neg (by omega), if_pos hkey.symm]
    · have := hc b hb
      rw [if_neg (by omega), if_neg (by omega), ih hl hb]

def insert (s : KeyedSet α key) (a : α) : KeyedSet α key :=
  ⟨insertList key a s.elems, insertList_sorted s.sorted⟩

theorem mem_of_mem_insert (h : x ∈ s.insert a) : x = a ∨ x ∈ s :=
  mem_of_mem_insertList h

theorem subset_insert (h : x ∈ s) : x ∈ s.insert a :=
  subset_insertList h

theorem mem_insert_self (h : ∀ b ∈ s, key b ≠ key a) : a ∈ s.insert a :=
  mem_insertList_self h

/-- **Inserting a second element with a key does nothing.** -/
theorem insert_of_mem (hb : b ∈ s) (hkey : key b = key a) : s.insert a = s := by
  cases s with
  | mk elems sorted =>
    simp only [insert, mk.injEq]
    exact insertList_of_mem sorted hb hkey

/-! ## Removal and search -/

def erase (s : KeyedSet α key) (k : Nat) : KeyedSet α key :=
  ⟨s.elems.filter fun a => key a != k, s.sorted.filter _⟩

@[simp] theorem mem_erase : a ∈ s.erase k ↔ a ∈ s ∧ key a ≠ k := by
  simp [erase, mem_def]

def first (s : KeyedSet α key) : Option α := s.elems.head?

def upperBound (s : KeyedSet α key) (k : Nat) : Option α := s.elems.find? fun a => k < key a

def lastLe (s : KeyedSet α key) (k : Nat) : Option α :=
  (s.elems.filter fun a => key a ≤ k).getLast?

theorem first_mem (h : s.first = some a) : a ∈ s :=
  List.mem_of_head? h

section

variable (h : s.upperBound k = some a)
include h

theorem upperBound_mem : a ∈ s :=
  List.mem_of_find?_eq_some h

theorem lt_of_upperBound : k < key a := by
  have := List.find?_some h
  exact of_decide_eq_true this

theorem mem_erase_of_upperBound : a ∈ s.erase k :=
  mem_erase.2 ⟨upperBound_mem h, Nat.ne_of_gt (lt_of_upperBound h)⟩

end

theorem first_le (ha : a ∈ s) : ∃ b, s.first = some b ∧ key b ≤ key a := by
  obtain ⟨elems, sorted⟩ := s
  cases elems with
  | nil => exact absurd ha List.not_mem_nil
  | cons b l =>
    refine ⟨b, rfl, ?_⟩
    rcases List.mem_cons.1 ha with rfl | ha
    · exact Nat.le_refl _
    · exact Nat.le_of_lt ((List.pairwise_cons.1 sorted).1 a ha)

theorem upperBound_le (ha : a ∈ s) (hk : k < key a) :
    ∃ b, s.upperBound k = some b ∧ key b ≤ key a := by
  obtain ⟨elems, sorted⟩ := s
  induction elems with
  | nil => exact absurd ha List.not_mem_nil
  | cons b l ih =>
    obtain ⟨hlt, hsorted⟩ := List.pairwise_cons.1 sorted
    by_cases hb : k < key b
    · refine ⟨b, List.find?_cons_of_pos (decide_eq_true hb), ?_⟩
      rcases List.mem_cons.1 ha with rfl | ha
      · exact Nat.le_refl _
      · exact Nat.le_of_lt (hlt a ha)
    · rcases List.mem_cons.1 ha with rfl | ha
      · exact absurd hk hb
      obtain ⟨c, hc, hle⟩ := ih hsorted ha
      refine ⟨c, ?_, hle⟩
      unfold upperBound
      rw [List.find?_cons_of_neg (by simpa using hb)]
      exact hc

theorem lastLe_mem (h : s.lastLe k = some a) : a ∈ s :=
  (List.mem_filter.1 (List.mem_of_getLast? h)).1

theorem le_lastLe (h : s.lastLe k = some b) (ha : a ∈ s) (hk : key a ≤ k) : key a ≤ key b := by
  have hmem : a ∈ s.elems.filter fun b => key b ≤ k :=
    List.mem_filter.2 ⟨ha, decide_eq_true hk⟩
  obtain ⟨init, hsplit⟩ := List.getLast?_eq_some_iff.1 h
  rw [hsplit] at hmem
  rcases List.mem_append.1 hmem with hin | hin
  · have hsorted := s.sorted.filter fun b => decide (key b ≤ k)
    rw [hsplit] at hsorted
    exact Nat.le_of_lt
      ((List.pairwise_append.1 hsorted).2.2 a hin b (List.mem_singleton_self b))
  · exact Nat.le_of_eq (congrArg key (List.mem_singleton.1 hin))

theorem exists_lastLe (ha : a ∈ s) (hk : key a ≤ k) : ∃ b, s.lastLe k = some b := by
  cases hl : s.lastLe k with
  | none =>
    have hmem : a ∈ s.elems.filter fun b => key b ≤ k :=
      List.mem_filter.2 ⟨ha, decide_eq_true hk⟩
    rw [List.getLast?_eq_none_iff.1 hl] at hmem
    exact absurd hmem List.not_mem_nil
  | some b => exact ⟨b, rfl⟩

/-- The last element with a key up to `k`, if no element comes between it and `k`. -/
theorem lastLe_eq (ha : a ∈ s) (hk : key a ≤ k)
    (hlast : ∀ b ∈ s, key b ≤ k → key b ≤ key a) : s.lastLe k = some a := by
  obtain ⟨b, hl⟩ := exists_lastLe ha hk
  have hb := List.mem_filter.1 (List.mem_of_getLast? hl)
  have hle := hlast b hb.1 (of_decide_eq_true hb.2)
  rw [hl, eq_of_key_eq hb.1 ha (Nat.le_antisymm hle (le_lastLe hl ha hk))]

/-! ## Loops over a set -/

variable {ε σ : Type}

/-- `for(i=begin;i!=end;)` with a body that returns the iterator it goes on with. -/
def sweep (body : α → σ → Except ε (Option α × σ)) (stuck : ε) :
    (fuel : Nat) → Option α → σ → Except ε σ
  | _, none, s => .ok s
  | 0, some _, _ => .error stuck
  | fuel + 1, some i, s => do
    let (next, s) ← body i s
    sweep body stuck fuel next s

variable {body : α → σ → Except ε (Option α × σ)} {J : Option α → σ → Prop} {stuck : ε}

/-- **Loop rule**: what every run of the body preserves, with the iterator, holds at the end. -/
theorem sweep_inv (hbody : ∀ i s next s', J (some i) s → body i s = .ok (next, s') → J next s') :
    ∀ (fuel : Nat) (i : Option α) (s s' : σ), J i s → sweep body stuck fuel i s = .ok s' →
      J none s' := by
  intro fuel
  induction fuel with
  | zero =>
    intro i s s' hJ h
    cases i with
    | none =>
      cases h
      exact hJ
    | some i => cases h
  | succ fuel ih =>
    intro i s s' hJ h
    cases i with
    | none =>
      cases h
      exact hJ
    | some i =>
      unfold sweep at h
      cases hb : body i s with
      | error e =>
        rw [hb] at h
        cases h
      | ok r =>
        rw [hb] at h
        exact ih r.1 r.2 s' (hbody i s r.1 r.2 hJ hb) h

/-- **Total loop rule**: a loop whose body returns and goes on with larger keys below a bound ends. -/
theorem sweep_total {bound : Nat} (hbound : ∀ i s, J (some i) s → key i < bound)
    (hbody : ∀ i s, J (some i) s → ∃ next s', body i s = .ok (next, s') ∧ J next s' ∧
      ∀ j, next = some j → key i < key j) :
    ∀ (fuel : Nat) (i : Option α) (s : σ), J i s → (∀ j, i = some j → bound ≤ key j + fuel) →
      ∃ s', sweep body stuck fuel i s = .ok s' ∧ J none s' := by
  intro fuel
  induction fuel with
  | zero =>
    intro i s hJ hfuel
    cases i with
    | none => exact ⟨s, rfl, hJ⟩
    | some i => exact absurd (hbound i s hJ) (Nat.not_lt.2 (hfuel i rfl))
  | succ fuel ih =>
    intro i s hJ hfuel
    cases i with
    | none => exact ⟨s, rfl, hJ⟩
    | some i =>
      obtain ⟨next, s1, hb, hJ1, hlt⟩ := hbody i s hJ
      have hleft := hfuel i rfl
      obtain ⟨s', hs', hJ'⟩ := ih next s1 hJ1 fun j hj => by
        have := hlt j hj
        omega
      refine ⟨s', ?_, hJ'⟩
      unfold sweep
      rw [hb]
      exact hs'

end KeyedSet
