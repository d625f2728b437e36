import LuoOS.Vm.Unmap

/-!
# What `reset` leaves of an address space

`reset` drops the mappings that are not of the system, each with its pages in the page table. A node
of the table is shared by all mappings with pages in its block, and is freed as soon as it looks
empty. The pages of the mappings that stay are translated as they were.
-/

namespace LuoOS.Vm.VMAR

open Translation KeyedSet

/-- The mappings have pages, of 27 bits, and share none. The page table is well formed and
translates only pages of mappings, and no leaf crosses a boundary of one. -/
structure Laid (s : VMAR) : Prop where
  pos : ∀ m ∈ s.mappings, 0 < m.len
  below : ∀ m ∈ s.mappings, m.vpn + m.len ≤ 2 ^ 27
  apart : Apart s.mappings
  fine : Each Perm.Fine s.pagetable
  mapped : ∀ v p, IsPage v → trans s.pagetable v = .ok p →
    ∃ m ∈ s.mappings, InRange m.vpn m.len v
  uncrossed : ∀ v y, IsPage v → leafAt s.pagetable v = some y →
    ∀ m ∈ s.mappings, InRange m.vpn m.len v → y.Inside v m.vpn m.len

section

variable {s t t' : VMAR} {it next : Option PageMapping} {i : PageMapping}

theorem Laid.covers (h : s.Laid) : Covers s.mappings (leafAt s.pagetable) := by
  intro v y hv hy
  obtain ⟨m, hm, hin⟩ := h.mapped v _ hv (trans_eq_ok.2 ⟨y, hy, rfl⟩)
  exact ⟨m, hm, h.uncrossed v y hv hy m hm hin⟩

/-- What the rounds before `it` have left of `s`. -/
structure Dropped (s : VMAR) (it : Option PageMapping) (t : VMAR) : Prop where
  here : ∀ j, it = some j → j ∈ t.mappings
  subset : ∀ m ∈ t.mappings, m ∈ s.mappings
  kept : ∀ m ∈ s.mappings, m.mapping = .system → m ∈ t.mappings
  ahead : ∀ m ∈ t.mappings, m.mapping ≠ .system → ∃ j, it = some j ∧ j.vpn ≤ m.vpn
  fine : Each Perm.Fine t.pagetable
  same : ∀ m ∈ t.mappings, ∀ v, InRange m.vpn m.len v →
    leafAt t.pagetable v = leafAt s.pagetable v
  gone : ∀ v, IsPage v → (∀ m ∈ t.mappings, ¬InRange m.vpn m.len v) →
    leafAt t.pagetable v = none

theorem Dropped.start (h : s.Laid) : Dropped s s.mappings.first s := by
  refine ⟨fun _ hj => first_mem hj, fun _ hm => hm, fun _ hm _ => hm,
    fun _ hm _ => first_le hm, h.fine, fun _ _ _ _ => rfl, fun v hv hout => ?_⟩
  refine Option.eq_none_iff_forall_ne_some.2 fun y hy => ?_
  obtain ⟨m, hm, hin⟩ := h.covers v y hv hy
  exact hout m hm (hin.inRange (Entry.leafAt_size_pos _ hy))

theorem Dropped.apart (hd : Dropped s it t) (h : s.Laid) : Apart t.mappings :=
  fun m hm m' hm' => h.apart m (hd.subset m hm) m' (hd.subset m' hm')

/-- The leaves that are left lie in mappings that are left. -/
theorem Dropped.covers (hd : Dropped s it t) (h : s.Laid) :
    Covers t.mappings (leafAt t.pagetable) := by
  intro v y hv hy
  by_cases hmem : ∃ m ∈ t.mappings, InRange m.vpn m.len v
  · obtain ⟨m, hm, hin⟩ := hmem
    rw [hd.same m hm v hin] at hy
    exact ⟨m, hm, h.uncrossed v y hv hy m (hd.subset m hm) hin⟩
  · rw [hd.gone v hv fun m hm hin => hmem ⟨m, hm, hin⟩] at hy
    cases hy

section

variable (hd : Dropped s (some i) t)
include hd

theorem Dropped.ahead_next {m : PageMapping} (hm : m ∈ t.mappings) (hne : m.mapping ≠ .system)
    (hkey : m.vpn ≠ i.vpn) : ∃ j, t.mappings.upperBound i.vpn = some j ∧ j.vpn ≤ m.vpn := by
  obtain ⟨j, hj, hle⟩ := hd.ahead m hm hne
  cases hj
  exact upperBound_le hm (Nat.lt_of_le_of_ne hle (Ne.symm hkey))

theorem Dropped.skip (hsys : i.mapping = .system) : Dropped s (t.mappings.upperBound i.vpn) t := by
  refine { hd with
    here := fun j hj => upperBound_mem hj
    ahead := fun m hm hne => hd.ahead_next hm hne fun hkey => hne ?_ }
  rw [eq_of_key_eq hm (hd.here i rfl) hkey]
  exact hsys

/-- The round of any other mapping, whose pages can be removed as no leaf reaches out of it. -/
theorem Dropped.drop (h : s.Laid) (hne : i.mapping ≠ .system) :
    ∃ table, removeMapping 2 t.pagetable i.vpn i.len = .ok table ∧
      Dropped s (t.mappings.upperBound i.vpn) ⟨t.mappings.erase i.vpn, table⟩ := by
  have hi := hd.here i rfl
  have his := hd.subset i hi
  have hpos := h.pos i his
  have hbelow := h.below i his
  have hfit := fit_root hbelow (show i.vpn < 2 ^ 27 by omega)
  have hun := (hd.covers h).uncut (hd.apart h) hi hpos
    fun v hv => show IsPage v from hv.2.trans_le hbelow
  obtain ⟨table, hremove, -⟩ := removeMapping_uncut 2 t.pagetable i.vpn i.len hd.fine hfit hun
  have hclear := (removeMapping_clears 2 _ _ _ _ hfit hremove).2
  rw [block_root (by omega)] at hclear
  -- the page of another mapping is none of the pages of `i`
  have hother : ∀ m ∈ t.mappings, m.vpn ≠ i.vpn → ∀ v, InRange m.vpn m.len v →
      ¬InRange i.vpn i.len v := by
    intro m hm hkey v hv hv'
    rw [hd.apart h m hm i hi v hv hv'] at hkey
    exact hkey rfl
  refine ⟨table, hremove, fun j hj => ?_, fun m hm => ?_, fun m hm hsys => ?_,
    fun m hm hms => ?_, removeMapping_each marks_fine hd.fine hremove, fun m hm v hv => ?_,
    fun v hv hout => ?_⟩
  · exact mem_erase_of_upperBound hj
  · exact hd.subset m (mem_erase.1 hm).1
  · refine mem_erase.2 ⟨hd.kept m hm hsys, fun hkey => hne ?_⟩
    rw [← eq_of_key_eq hm his hkey]
    exact hsys
  · obtain ⟨hm, hkey⟩ := mem_erase.1 hm
    exact hd.ahead_next hm hms hkey
  · obtain ⟨hm, hkey⟩ := mem_erase.1 hm
    have hpage : IsPage v := hv.2.trans_le (h.below m (hd.subset m hm))
    exact (hclear.kept v hpage (hother m hm hkey v hv)).trans (hd.same m hm v hv)
  · by_cases hin : InRange i.vpn i.len v
    · exact hclear.cleared v hv hin
    refine (hclear.kept v hv hin).trans (hd.gone v hv fun m hm hv' => ?_)
    refine hout m (mem_erase.2 ⟨hm, fun hkey => hin ?_⟩) hv'
    rw [← eq_of_key_eq hm hi hkey]
    exact hv'

theorem Dropped.step (h : s.Laid) : ∃ next t', resetBody i t = .ok (next, t') ∧ Dropped s next t' ∧
      ∀ j, next = some j → i.vpn < j.vpn := by
  unfold resetBody
  by_cases hsys : i.mapping = .system
  · rw [if_pos hsys]
    exact ⟨_, _, rfl, hd.skip hsys, fun j hj => lt_of_upperBound hj⟩
  · obtain ⟨table, hremove, hd'⟩ := hd.drop h hsys
    rw [if_neg hsys, hremove]
    exact ⟨_, _, rfl, hd', fun j hj => lt_of_upperBound hj⟩

end

end

end LuoOS.Vm.VMAR
