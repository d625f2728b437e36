import LuoOS.Vm.Agree
import LuoOS.Vm.MapInside

/-!
# Demand paging

With `ondemand` set, `map` only inserts the mapping, and `pfhandler` writes one page of it at a
time. After any faults each page that faulted has a leaf of its own, and all others are as they were
(`Faulted`); once every page has faulted the table translates what `map` would have written at once.
`find` takes the last mapping that starts at or before the page, so a mapping without pages inside
of the new one hides it from there on.
-/

namespace LuoOS.Vm

open Translation KeyedSet PageMapping

namespace VMAR

variable {s t t' : VMAR} {m : PageMapping} {v : Nat}

def faults (s : VMAR) (vs : List Nat) : Kern VMAR := vs.foldlM pfhandler s

/-! ## One fault -/

theorem pfhandler_of_find (hfind : t.find v = .ok (some m)) (hpaged : m.vmo.IsPaged)
    (hwithin : m.offset + m.len ≤ m.vmo.len) (hfit : m.vpn + m.len ≤ 2 ^ 27)
    (hin : InRange m.vpn m.len v) :
    t.pfhandler v = (createMapping 2 t.pagetable v (m.frameOf v) 1 m.perm).map fun table =>
      { t with pagetable := table } := by
  obtain ⟨h1, h2⟩ := hin
  obtain ⟨hreq, hvoff⟩ := req_paged hpaged hwithin (show v - m.vpn < m.len by omega)
  rw [Nat.add_sub_cancel' h1] at hreq
  have hidx : xlen ((v : Int) - m.vpn) = v - m.vpn := xlen_sub h1 (by omega)
  have hvpn : xlen ((m.vpn : Int) + (v - m.vpn : Nat)) = v := by
    rw [xlen_add (by omega), Nat.add_sub_cancel' h1]
  unfold pfhandler
  rw [hfind, ok_bind]
  dsimp only
  rw [hidx, hreq, ok_bind]
  rw [hvoff, hvpn]
  cases createMapping 2 t.pagetable v (m.frameOf v) 1 m.perm <;> rfl

/-- The mapping is found for its pages if no other starts inside of it. -/
theorem find_of_mem (hm : m ∈ t.mappings) (hin : InRange m.vpn m.len v)
    (hfit : m.vpn + m.len ≤ 2 ^ 27) (hclear : ∀ e ∈ t.mappings, InRange m.vpn m.len e.vpn → e = m) :
    t.find v = .ok (some m) := by
  obtain ⟨h1, h2⟩ := hin
  refine find_eq hm ((contains_iff (by omega) (by omega)).2 ⟨h1, h2⟩) fun e he hle => ?_
  by_contra hlt
  have heq := hclear e he ⟨by omega, by omega⟩
  exact hlt (heq ▸ le_rfl)

/-! ## Any faults -/

/-- The page table after faults on the pages `vs` of `m`. -/
structure Faulted (s : VMAR) (m : PageMapping) (vs : List Nat) (table : Table 2) : Prop where
  sound : Sound table
  inside : ∀ v ∈ vs, InRange m.vpn m.len v
  done : ∀ v ∈ vs, ∃ x, leafAt table v = some x ∧ x.size = 1 ∧ x.frame v = m.frameOf v ∧
    x.perm = m.perm
  kept : ∀ v, IsPage v → v ∉ vs → leafAt table v = leafAt s.pagetable v

section Faults

variable (hfit : m.vpn + m.len ≤ 2 ^ 27) (hv : m.perm.v = true) (hleaf : m.perm.isLeaf = true)
  (hfree : ∀ v, InRange m.vpn m.len v → look s.pagetable v = none)

include hfit hv hleaf hfree in
/-- **One more fault.** No leaf reaches over the page: those of the mapping have one page, and no
other has pages of the mapping. -/
theorem Faulted.step {vs : List Nat} {table : Table 2} (h : Faulted s m vs table)
    (hpaged : m.vmo.IsPaged) (hin : InRange m.vpn m.len v) :
    ∃ table', createMapping 2 table v (m.frameOf v) 1 m.perm = .ok table' ∧
      Faulted s m (vs ++ [v]) table' := by
  have hpage : v < 2 ^ 27 := hin.2.trans_le hfit
  obtain ⟨table', heq, hs', hw⟩ := create_total v h.sound (hv.trans hleaf.symm) (by omega) hpage
    (frameOf_lt hpaged v)
  rw [Perm.grant_of_leaf hv hleaf] at hw
  have hother : ∀ w, IsPage w → w ≠ v → leafAt table' w = leafAt table w := by
    intro w hwpage hne
    refine hw.eq_of_avoids hwpage (fun hin => hne ?_) fun y hy => ?_
    · obtain ⟨h1, h2⟩ := hin
      omega
    · by_cases hmem : w ∈ vs
      · obtain ⟨x, hx, hsize, -⟩ := h.done w hmem
        rw [hx] at hy
        cases hy
        unfold Leaf.Avoids Leaf.base
        rw [hsize]
        omega
      · rw [h.kept w hwpage hmem] at hy
        obtain ⟨h1, h2⟩ := hin
        have hav := avoids_of_untranslated (by omega) hfree hy
        unfold Leaf.Avoids at hav ⊢
        omega
  have hold : ∀ w, w ∈ vs ++ [v] → w ≠ v → w ∈ vs := by
    intro w hmem hne
    rcases List.mem_append.1 hmem with hmem | hmem
    · exact hmem
    · exact absurd (List.mem_singleton.1 hmem) hne
  refine ⟨table', heq, hs', fun w hmem => ?_, fun w hmem => ?_, fun w hwpage hmem => ?_⟩
  · by_cases hwv : w = v
    · exact hwv ▸ hin
    · exact h.inside w (hold w hmem hwv)
  · by_cases hwv : w = v
    · subst hwv
      obtain ⟨x, hx, hxframe, hperm, hinside⟩ :=
        hw.grants w hpage ⟨le_rfl, by omega⟩ m.perm rfl
      have hpos := Entry.leafAt_size_pos _ hx
      refine ⟨x, hx, ?_, ?_, hperm⟩
      · obtain ⟨h1, h2⟩ := hinside
        omega
      · rw [hxframe, Nat.sub_self, Nat.add_zero]
    · have hmem := hold w hmem hwv
      rw [hother w ((h.inside w hmem).2.trans_le hfit) hwv]
      exact h.done w hmem
  · have hne : w ≠ v := by
      rintro rfl
      exact hmem (List.mem_append_right _ (List.mem_singleton_self w))
    rw [hother w hwpage hne]
    exact h.kept w hwpage fun hin => hmem (List.mem_append_left _ hin)

include hfit hv hleaf hfree in
theorem faults_ok (hpaged : m.vmo.IsPaged) (hwithin : m.offset + m.len ≤ m.vmo.len)
    (hm : m ∈ t.mappings)
    (hclear : ∀ e ∈ t.mappings, InRange m.vpn m.len e.vpn → e = m) (vs done : List Nat)
    (hvs : ∀ v ∈ vs, InRange m.vpn m.len v) (h : Faulted s m done t.pagetable) :
    ∃ t', t.faults vs = .ok t' ∧ Faulted s m (done ++ vs) t'.pagetable := by
  induction vs generalizing t done with
  | nil =>
    rw [List.append_nil]
    exact ⟨t, rfl, h⟩
  | cons v vs ih =>
    have hin := hvs v List.mem_cons_self
    obtain ⟨table, hcreate, hnext⟩ := h.step hfit hv hleaf hfree hpaged hin
    have hfind := find_of_mem hm hin hfit hclear
    have hstep : t.pfhandler v = .ok { t with pagetable := table } := by
      rw [pfhandler_of_find hfind hpaged hwithin hfit hin, hcreate]
      rfl
    obtain ⟨t', hrun, hdone⟩ := ih (t := { t with pagetable := table }) hm hclear (done ++ [v])
      (fun w hw => hvs w (List.mem_cons_of_mem v hw)) hnext
    refine ⟨t', ?_, by rwa [List.append_assoc] at hdone⟩
    unfold faults at hrun ⊢
    rw [List.foldlM_cons, hstep, ok_bind]
    exact hrun

end Faults

/-! ## Demand paging and eager mapping -/

/-- However the pages of the mapping fault, in any order and any number of times, the page table
comes to translate what `map` writes at once. -/
def PagesOnDemand (s : VMAR) (m : PageMapping) : Prop :=
  ∀ vs : List Nat, (∀ v, v ∈ vs ↔ InRange m.vpn m.len v) →
    ∃ s1 s2 s3, s.map m true = .ok s1 ∧ s1.faults vs = .ok s2 ∧ s.map m = .ok s3 ∧
      (∀ v, IsPage v → look s2.pagetable v = look s3.pagetable v) ∧
      (∀ v, InRange m.vpn m.len v → look s2.pagetable v = some (m.frameOf v, m.perm)) ∧
      ∀ v, IsPage v → ¬InRange m.vpn m.len v → look s2.pagetable v = look s.pagetable v

/-- A mapping that starts inside of the new one hides it where it starts, and has no page there. -/
theorem pfhandler_hidden {e : PageMapping} (he : e ∈ t.mappings) (hempty : e.contains e.vpn = false) :
    t.pfhandler e.vpn = .error (.assertion "mapping!=mappings.end()") := by
  have hlast : t.mappings.lastLe e.vpn = some e :=
    lastLe_eq he le_rfl fun _ _ hle => hle
  have hfind : t.find e.vpn = .ok none := by
    unfold find
    rw [hlast]
    dsimp only [Option.some_or]
    rw [hempty, if_neg Bool.false_ne_true]
  unfold pfhandler
  rw [hfind, ok_bind]

/-- **Demand paging gives what eager mapping gives** if and only if no mapping starts inside of the
new one. A mapping that does and still does not overlap it has no pages. -/
theorem demand_eq_eager (hs : Sound s.pagetable) (hpaged : m.vmo.IsPaged) (hpos : 0 < m.len)
    (hwithin : m.offset + m.len ≤ m.vmo.len) (hfit : m.vpn + m.len ≤ 2 ^ 27)
    (hv : m.perm.v = true) (hleaf : m.perm.isLeaf = true)
    (hapart : ∀ e ∈ s.mappings, (e.vsegment.inter m.vsegment).nonempty = false)
    (hfree : ∀ v, InRange m.vpn m.len v → look s.pagetable v = none) :
    s.PagesOnDemand m ↔ ∀ e ∈ s.mappings, ¬InRange m.vpn m.len e.vpn := by
  have hmap : s.map m true = .ok ⟨s.mappings.insert m, s.pagetable⟩ := rfl
  constructor
  · intro h e he hin
    obtain ⟨s₁, s₂, -, h₁, hrun, -⟩ := h (e.vpn :: (List.range m.len).map (m.vpn + ·)) fun v => by
      rw [List.mem_cons, List.mem_map]
      constructor
      · rintro (rfl | ⟨i, hi, rfl⟩)
        · exact hin
        · exact ⟨Nat.le_add_right _ _, Nat.add_lt_add_left (List.mem_range.1 hi) _⟩
      · rintro ⟨h1, h2⟩
        exact Or.inr ⟨v - m.vpn, List.mem_range.2 (by omega), by omega⟩
    rw [hmap] at h₁
    cases h₁
    have hempty : e.contains e.vpn = false := by
      have hap := hapart e he
      obtain ⟨h1, h2⟩ := hin
      unfold Segment.nonempty Segment.inter PageMapping.vsegment at hap
      rw [decide_eq_false_iff_not] at hap
      unfold PageMapping.contains
      rw [Bool.and_eq_false_iff, decide_eq_false_iff_not, decide_eq_false_iff_not]
      have hvend : m.vend = m.vpn + m.len - 1 := by
        unfold PageMapping.vend xlen
        omega
      dsimp only at hap
      omega
    unfold faults at hrun
    rw [List.foldlM_cons, pfhandler_hidden (subset_insert he) hempty] at hrun
    cases hrun
  · intro hclear vs hvs
    have hmem : m ∈ s.mappings.insert m := mem_insert_self fun e he hkey =>
      hclear e he ⟨Nat.le_of_eq hkey.symm, by omega⟩
    have hsole : ∀ e ∈ s.mappings.insert m, InRange m.vpn m.len e.vpn → e = m := by
      intro e he hin
      exact (mem_of_mem_insert he).resolve_right fun he => hclear e he hin
    have hstart : Faulted s m [] s.pagetable :=
      ⟨hs, fun v hmem => absurd hmem List.not_mem_nil, fun v hmem => absurd hmem List.not_mem_nil,
        fun _ _ _ => rfl⟩
    obtain ⟨s₂, hrun, hdone⟩ := faults_ok (t := ⟨s.mappings.insert m, s.pagetable⟩) hfit hv hleaf
      hfree hpaged hwithin hmem hsole vs [] (fun v hv => (hvs v).1 hv) hstart
    rw [List.nil_append] at hdone
    have hinside : ∀ v, InRange m.vpn m.len v →
        look s₂.pagetable v = some (m.frameOf v, m.perm) := by
      intro v hin
      obtain ⟨x, hx, -, hframe, hperm⟩ := hdone.done v ((hvs v).2 hin)
      unfold look
      rw [hx, Option.map_some, hframe, hperm]
    have houtside : ∀ v, IsPage v → ¬InRange m.vpn m.len v →
        look s₂.pagetable v = look s.pagetable v := by
      intro v hpage hout
      unfold look
      rw [hdone.kept v hpage fun hmem => hout ((hvs v).1 hmem)]
    obtain ⟨s₃, hmap₃, hinside₃, houtside₃⟩ :=
      mapsInside_paged hs hpaged hwithin hfit hv hleaf hpos hfree
    refine ⟨_, s₂, s₃, hmap, hrun, hmap₃, fun v hpage => ?_, hinside, houtside⟩
    by_cases hin : InRange m.vpn m.len v
    · rw [hinside v hin, hinside₃ v hin]
    · rw [houtside v hpage hin, houtside₃ v hpage hin]

theorem two_lt_wrap : 2 < 2 ^ 64 := by decide

def twoPages : PageMapping :=
  ⟨4, 2, 0, .paged 2 (fun i => 100 + i % 2) two_lt_wrap (fun i => by omega),
    { v := true, r := true }, .file, 1⟩

def beside : PageMapping := { twoPages with vpn := 6 }

/-- The next two pages are mapped already. -/
theorem demand_eq_eager_beside :
    ∃ s, VMAR.empty.map beside = .ok s ∧ s.PagesOnDemand twoPages := by
  obtain ⟨s, hmap, hmem, hs, hw⟩ := map_total (m := beside) (s := VMAR.empty)
    ⟨by decide, by decide, by decide, fun h => absurd trivial h⟩ createPTNode_sound
  have hsole : ∀ e ∈ s.mappings, e = beside := by
    intro e he
    rw [hmem] at he
    exact (mem_of_mem_insert he).resolve_right (not_mem_empty e)
  refine ⟨s, hmap, (demand_eq_eager (m := twoPages) hs trivial (by decide) (by decide)
    (by decide) rfl rfl (fun e he => ?_) fun v hin => ?_).2 fun e he => ?_⟩
  · rw [hsole e he]
    decide
  · have hpage : IsPage v := hin.2.trans (by decide)
    rw [(look_of_writes hw hpage).2 (fun h => absurd (h.1.trans_lt hin.2) (by decide))
      fun y hy => absurd hy (by rw [look_eq_none.1 (empty_untranslated v)]; exact nofun)]
    exact empty_untranslated v
  · rw [hsole e he]
    decide

def hollow : VMAR :=
  ⟨KeyedSet.empty.insert { twoPages with vpn := 5, len := 0 }, createPTNode⟩

/-- **A mapping without pages hides the new one**: it overlaps none, but the fault of page 5 is not
handled. -/
theorem not_demand_eq_eager :
    (∀ e ∈ hollow.mappings, (e.vsegment.inter twoPages.vsegment).nonempty = false) ∧
      ¬hollow.PagesOnDemand twoPages := by
  refine ⟨fun e he => ?_, fun h => ?_⟩
  · rcases KeyedSet.mem_of_mem_insert he with rfl | he
    · decide
    · exact absurd he (KeyedSet.not_mem_empty e)
  · obtain ⟨s₁, s₂, -, h₁, hrun, -⟩ := h [4, 5] fun v => by
      simp only [List.mem_cons, List.not_mem_nil, or_false, InRange, twoPages]
      omega
    have hfails : (hollow.map twoPages true >>= fun s => s.faults [4, 5]).toOption.isSome = false := by
      decide +kernel
    rw [h₁, ok_bind, hrun] at hfails
    cases hfails

end VMAR

end LuoOS.Vm
