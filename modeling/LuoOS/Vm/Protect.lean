import LuoOS.Vm.Unmap

/-!
# What `protect` does to the mappings

`protect` cuts every mapping that its region overlaps into the part before the region, the part in
it, which gets the new permission, and the part behind. The first has the key of the mapping, which
is still in the set when the part is inserted, so it is dropped, and then the mapping is erased. The
other two take its place.
-/

namespace LuoOS.Vm

open Translation KeyedSet PageMapping

def PageInfo.recast (info : PageInfo) (region : Segment) (perm : Perm) (v : Nat) : PageInfo :=
  if region.l ≤ v ∧ v ≤ region.r then { info with perm := perm } else info

namespace VMAR

/-- Only permissions have changed, and only in the region. -/
structure Protected (s s' : VMAR) (region : Segment) (perm : Perm) : Prop where
  shows : ∀ v info, s'.Shows v info ↔ ∃ old, s.Shows v old ∧ info = old.recast region perm v
  apart : Apart s'.mappings

/-! ## The loop -/

section Loop

variable {s t t' : VMAR} {region : Segment} {perm : Perm} {it next : Option PageMapping}
  {i m : PageMapping}

theorem protectBody_skip (hov : ¬Overlaps region i) :
    protectBody region perm i t = .ok (t.mappings.upperBound i.vpn, t) := by
  exact if_neg hov

def Ahead (it : Option PageMapping) (m : PageMapping) : Prop := ∃ j, it = some j ∧ j.vpn ≤ m.vpn

theorem ahead_some : Ahead (some i) m ↔ i.vpn ≤ m.vpn := by
  constructor
  · rintro ⟨j, hj, hle⟩
    cases hj
    exact hle
  · exact fun hle => ⟨i, rfl, hle⟩

/-- What the rounds before `it` have made of `s`. -/
structure Recast (region : Segment) (perm : Perm) (s : VMAR) (it : Option PageMapping) (t : VMAR) :
    Prop where
  here : ∀ j, it = some j → j ∈ t.mappings
  /-- A part that has the new permission is not visited. -/
  old : ∀ j, it = some j → Overlaps region j → j ∈ s.mappings
  mem : ∀ m, m ∈ t.mappings ↔ m ∈ s.mappings ∧ (Overlaps region m → Ahead it m) ∨
    ∃ i ∈ s.mappings, Overlaps region i ∧ ¬Ahead it i ∧ IsPart region perm i m

/-- What is mapped begins in a mapping of `s`. -/
theorem Recast.inside (h : Recast region perm s it t) (hs : ∀ m ∈ s.mappings, m.Ranged)
    (hm : m ∈ t.mappings) : ∃ i ∈ s.mappings, InRange i.vpn i.len m.vpn := by
  rcases (h.mem m).1 hm with ⟨hms, -⟩ | ⟨i, hi, hov, -, hpart⟩
  · exact ⟨m, hms, (hs m hms).first⟩
  · exact ⟨i, hi, (hpart.inRange (hs i hi) hov (hpart.first (hs i hi) hov)).1⟩

theorem Recast.start (region : Segment) (perm : Perm) (s : VMAR) :
    Recast region perm s s.mappings.first s := by
  have hahead : ∀ m ∈ s.mappings, Ahead s.mappings.first m := fun m hm => first_le hm
  refine ⟨fun j hj => first_mem hj, fun j hj _ => first_mem hj, fun m => ?_⟩
  constructor
  · exact fun hm => .inl ⟨hm, fun _ => hahead m hm⟩
  · rintro (⟨hm, -⟩ | ⟨i, hi, -, hnot, -⟩)
    · exact hm
    · exact absurd (hahead i hi) hnot

section

variable (h : Recast region perm s it t) (hs : ∀ m ∈ s.mappings, m.Ranged) (hapart : Apart s.mappings) (hi : i ∈ s.mappings)
include h hs hapart hi

/-- Where a mapping has been cut, its parts are what begins there. -/
theorem Recast.isPart (hov : Overlaps region i) (hcut : ¬Ahead it i) (hm : m ∈ t.mappings)
    (hin : InRange i.vpn i.len m.vpn) : IsPart region perm i m := by
  rcases (h.mem m).1 hm with ⟨hms, hahead⟩ | ⟨i', hi', hov', -, hpart⟩
  · obtain rfl := hapart m hms i hi _ ((hs m hms).first) hin
    exact absurd (hahead hov) hcut
  · have hfirst := (hpart.inRange (hs i' hi') hov' (hpart.first (hs i' hi') hov')).1
    obtain rfl := hapart i' hi' i hi _ hfirst hin
    exact hpart

theorem Recast.eq_of_inRange (hahead : Ahead it i) (hm : m ∈ t.mappings)
    (hin : InRange i.vpn i.len m.vpn) : m = i := by
  rcases (h.mem m).1 hm with ⟨hms, -⟩ | ⟨i', hi', hov', hcut, hpart⟩
  · exact hapart m hms i hi _ ((hs m hms).first) hin
  · have hfirst := (hpart.inRange (hs i' hi') hov' (hpart.first (hs i' hi') hov')).1
    obtain rfl := hapart i' hi' i hi _ hfirst hin
    exact absurd hahead hcut

end

section

variable (h : Recast region perm s (some i) t) (hs : ∀ m ∈ s.mappings, m.Ranged) (hapart : Apart s.mappings)
include h hs hapart

theorem Recast.old_next (hm : m ∈ t.mappings) (hlt : i.vpn < m.vpn) (hov : Overlaps region m) :
    m ∈ s.mappings := by
  rcases (h.mem m).1 hm with ⟨hms, -⟩ | ⟨i', hi', hov', hcut, hpart⟩
  · exact hms
  have hp := hs i' hi'
  have hbehind : i'.vpn < i.vpn := Nat.not_le.1 fun hle => hcut (ahead_some.2 hle)
  rw [hpart.eq_recast hp hov' hov] at hlt
  have hfirst : i.vpn < max i'.vpn region.l := hlt
  -- so `i` begins between the start of `i'` and the region, where nothing is left
  have hle := overlaps_le hov'
  have hvend := hp.vend_eq
  have hin : InRange i'.vpn i'.len i.vpn := ⟨by omega, by omega⟩
  have hpart' := h.isPart hs hapart hi' hov' hcut (h.here i rfl) hin
  have hge := (hpart'.inRange hp hov' (hpart'.first hp hov')).2
  omega

theorem Recast.skip (hov : ¬Overlaps region i) :
    Recast region perm s (t.mappings.upperBound i.vpn) t := by
  have hi := h.here i rfl
  -- nothing that overlaps the region begins where `i` does
  have hahead : ∀ m ∈ s.mappings, Overlaps region m →
      (Ahead (t.mappings.upperBound i.vpn) m ↔ Ahead (some i) m) := by
    intro m hm hom
    rw [ahead_some]
    constructor
    · rintro ⟨j, hj, hle⟩
      exact (Nat.le_of_lt (lt_of_upperBound hj)).trans hle
    · intro hle
      have hmt : m ∈ t.mappings := (h.mem m).2 (.inl ⟨hm, fun _ => ahead_some.2 hle⟩)
      refine upperBound_le hmt (Nat.lt_of_le_of_ne hle fun hkey => hov ?_)
      rw [eq_of_key_eq hi hmt hkey]
      exact hom
  refine ⟨fun j hj => upperBound_mem hj, fun j hj => ?_, fun m => ?_⟩
  · exact h.old_next hs hapart (upperBound_mem hj) (lt_of_upperBound hj)
  · rw [h.mem m]
    constructor
    · rintro (⟨hm, ho⟩ | ⟨i', hi', hov', hcut, hpart⟩)
      · exact .inl ⟨hm, fun hom => (hahead m hm hom).2 (ho hom)⟩
      · exact .inr ⟨i', hi', hov', fun ha => hcut ((hahead i' hi' hov').1 ha), hpart⟩
    · rintro (⟨hm, ho⟩ | ⟨i', hi', hov', hcut, hpart⟩)
      · exact .inl ⟨hm, fun hom => (hahead m hm hom).1 (ho hom)⟩
      · exact .inr ⟨i', hi', hov', fun ha => hcut ((hahead i' hi' hov').2 ha), hpart⟩

/-- The keys of both parts are free, so that they take the place of the mapping. -/
theorem Recast.mem_cut (hov : Overlaps region i) :
    m ∈ ((withRest t.mappings i region.r).erase i.vpn).insert (i.recast region perm) ↔
      IsPart region perm i m ∨ m ∈ t.mappings ∧ m.vpn ≠ i.vpn := by
  have his := h.old i rfl hov
  have hp := hs i his
  have hl := (overlaps_bounds hov hp).1
  have hle := overlaps_le hov
  have hvend := hp.vend_eq
  have honly : ∀ b ∈ t.mappings, InRange i.vpn i.len b.vpn → b = i := fun b hb =>
    h.eq_of_inRange hs hapart his (ahead_some.2 le_rfl) hb
  have hrest : region.r < i.vend → i.rest region.r ∈ withRest t.mappings i region.r := fun hr =>
    rest_mem_of_only hp hl hr honly
  have hself : i.recast region perm ∈
      ((withRest t.mappings i region.r).erase i.vpn).insert (i.recast region perm) := by
    refine mem_insert_self fun b hb hkey => ?_
    obtain ⟨hb, hne⟩ := mem_erase.1 hb
    have hkey : b.vpn = max i.vpn region.l := hkey
    rcases mem_withRest hb with hb | ⟨-, rfl⟩
    · exact hne (congrArg vpn (honly b hb ⟨by omega, by omega⟩))
    · have hkey : region.r + 1 = max i.vpn region.l := hkey
      omega
  constructor
  · intro hm
    rcases mem_of_mem_insert hm with heq | hm
    · exact .inl (.inl heq)
    obtain ⟨hm, hne⟩ := mem_erase.1 hm
    rcases mem_withRest hm with hm | hrest
    · exact .inr ⟨hm, hne⟩
    · exact .inl (.inr hrest)
  · rintro ((rfl | ⟨hr, rfl⟩) | ⟨hm, hne⟩)
    · exact hself
    · exact subset_insert (mem_erase.2
        ⟨hrest hr, Nat.ne_of_gt (Nat.lt_succ_of_le hl)⟩)
    · exact subset_insert (mem_erase.2 ⟨subset_withRest hm, hne⟩)

end

theorem Recast.step (hperm : perm ≠ {}) (hs : ∀ m ∈ s.mappings, m.Ranged)
    (hapart : Apart s.mappings) (h : Recast region perm s (some i) t)
    (hb : protectBody region perm i t = .ok (next, t')) : Recast region perm s next t' := by
  by_cases hov : Overlaps region i
  · have hi := h.here i rfl
    have his := h.old i rfl hov
    have hp := hs i his
    obtain ⟨hnext, hmap⟩ := protectBody_mappings hi hp hov hb
    rw [if_neg hperm] at hmap
    have hahead : ∀ m ∈ s.mappings, Overlaps region m → (Ahead next m ↔ i.vpn < m.vpn) := by
      intro m hm hom
      rw [hnext]
      constructor
      · rintro ⟨j, hj, hle⟩
        exact (lt_of_upperBound hj).trans_le hle
      · intro hlt
        have hmt : m ∈ t.mappings :=
          (h.mem m).2 (.inl ⟨hm, fun _ => ahead_some.2 (Nat.le_of_lt hlt)⟩)
        exact upperBound_le (subset_withRest hmt) hlt
    refine ⟨fun j hj => ?_, fun j hj hoj => ?_, fun m => ?_⟩
    · rw [hnext] at hj
      rw [hmap]
      exact subset_insert (mem_erase_of_upperBound hj)
    · rw [hnext] at hj
      rcases mem_withRest (upperBound_mem hj) with hjt | ⟨hr, rfl⟩
      · exact h.old_next hs hapart hjt (lt_of_upperBound hj) hoj
      · exact absurd hoj (rest_not_overlaps hov hp hr)
    · rw [hmap, h.mem_cut hs hapart hov]
      constructor
      · rintro (hpart | ⟨hm, hne⟩)
        · exact .inr ⟨i, his, hov, fun ha => Nat.lt_irrefl _ ((hahead i his hov).1 ha), hpart⟩
        rcases (h.mem m).1 hm with ⟨hms, ho⟩ | ⟨i', hi', hov', hcut, hpart⟩
        · refine .inl ⟨hms, fun hom => (hahead m hms hom).2 ?_⟩
          exact Nat.lt_of_le_of_ne (ahead_some.1 (ho hom)) (Ne.symm hne)
        · refine .inr ⟨i', hi', hov', fun ha => hcut (ahead_some.2 ?_), hpart⟩
          exact Nat.le_of_lt ((hahead i' hi' hov').1 ha)
      · rintro (⟨hms, ho⟩ | ⟨i', hi', hov', hcut, hpart⟩)
        · have hlt : Overlaps region m → i.vpn < m.vpn := fun hom => (hahead m hms hom).1 (ho hom)
          refine .inr ⟨(h.mem m).2 (.inl ⟨hms, fun hom => ahead_some.2 ?_⟩), fun hkey => ?_⟩
          · exact Nat.le_of_lt (hlt hom)
          · rw [eq_of_key_eq hms his hkey] at hlt
            exact Nat.lt_irrefl _ (hlt hov)
        · by_cases heq : i' = i
          · rw [heq] at hpart
            exact .inl hpart
          have hle : ¬i.vpn < i'.vpn := fun hlt => hcut ((hahead i' hi' hov').2 hlt)
          have hne : i'.vpn ≠ i.vpn := fun hkey => heq (eq_of_key_eq hi' his hkey)
          have hcut' : ¬Ahead (some i) i' := by
            rw [ahead_some]
            omega
          refine .inr ⟨(h.mem m).2 (.inr ⟨i', hi', hov', hcut', hpart⟩), fun hkey => heq ?_⟩
          have hfirst := (hpart.inRange (hs i' hi') hov' (hpart.first (hs i' hi') hov')).1
          rw [hkey] at hfirst
          exact hapart i' hi' i his _ hfirst hp.first
  · rw [protectBody_skip hov] at hb
    cases hb
    exact h.skip hs hapart hov

theorem protect_recast {s' : VMAR} (hperm : perm ≠ {}) (hs : ∀ m ∈ s.mappings, m.Ranged)
    (hapart : Apart s.mappings) (h : s.protect region perm = .ok s') :
    Recast region perm s none s' :=
  sweep_inv (fun _ _ _ _ hJ hb => hJ.step hperm hs hapart hb) _ _ s s'
    (Recast.start region perm s) h

/-- **What `protect` leaves of the mappings**: all pages, but of a mapping that the region overlaps
those before the region. -/
theorem Recast.shows (h : Recast region perm s none t) (hs : ∀ m ∈ s.mappings, m.Ranged) {v : Nat}
    {info : PageInfo} : t.Shows v info ↔ ∃ m ∈ s.mappings, InRange m.vpn m.len v ∧
      (Overlaps region m → region.l ≤ v) ∧ info = (m.pageAt v).recast region perm v := by
  have hnone : ∀ m, ¬Ahead none m := fun m ⟨j, hj, _⟩ => nomatch hj
  constructor
  · rintro ⟨m, hm, hv, rfl⟩
    rcases (h.mem m).1 hm with ⟨hms, ho⟩ | ⟨i, hi, hov, -, hpart⟩
    · have hno : ¬Overlaps region m := fun hom => hnone m (ho hom)
      refine ⟨m, hms, hv, fun hom => absurd hom hno, (if_neg fun hreg => hno ?_).symm⟩
      exact (hs m hms).overlaps_iff.2 ⟨v, hv, hreg⟩
    have hp := hs i hi
    have hl := (overlaps_bounds hov hp).1
    obtain ⟨hin, hge⟩ := hpart.inRange hp hov hv
    refine ⟨i, hi, hin, fun _ => hge, ?_⟩
    rcases hpart with rfl | ⟨-, rfl⟩
    · obtain ⟨-, hreg⟩ := (recast_inRange hp).1 hv
      refine (slice_pageAt (Nat.le_max_left _ _) hv.1).trans (if_pos hreg).symm
    · have hlt := ((rest_inRange hl).1 hv).2
      rw [rest_pageAt hl hlt]
      exact (if_neg fun hreg => Nat.not_le.2 hlt hreg.2).symm
  · rintro ⟨m, hm, hv, hge, rfl⟩
    have hp := hs m hm
    by_cases hov : Overlaps region m
    · have hl := (overlaps_bounds hov hp).1
      have hparts : ∀ m', IsPart region perm m m' → m' ∈ t.mappings := fun m' hpart =>
        (h.mem m').2 (.inr ⟨m, hm, hov, hnone m, hpart⟩)
      rcases Nat.lt_or_ge region.r v with hlt | hle
      · have hvend := hp.vend_eq
        have hr : region.r < m.vend := by
          have := hv.2
          omega
        refine ⟨_, hparts _ (.inr ⟨hr, rfl⟩), (rest_inRange hl).2 ⟨hv, hlt⟩, ?_⟩
        rw [rest_pageAt hl hlt]
        exact (if_neg fun hreg => Nat.not_le.2 hlt hreg.2).symm
      · have hreg : region.l ≤ v ∧ v ≤ region.r := ⟨hge hov, hle⟩
        have hin : InRange (m.recast region perm).vpn (m.recast region perm).len v :=
          (recast_inRange hp).2 ⟨hv, hreg⟩
        refine ⟨_, hparts _ (.inl rfl), hin, ?_⟩
        exact (slice_pageAt (Nat.le_max_left _ _) hin.1).trans (if_pos hreg).symm
    · refine ⟨m, (h.mem m).2 (.inl ⟨hm, fun hom => absurd hom hov⟩), hv, ?_⟩
      exact (if_neg fun hreg => hov (hp.overlaps_iff.2 ⟨v, hv, hreg⟩)).symm

theorem Recast.apart (h : Recast region perm s none t) (hs : ∀ m ∈ s.mappings, m.Ranged)
    (hapart : Apart s.mappings) : Apart t.mappings := by
  have hnone : ∀ m, ¬Ahead none m := fun m ⟨j, hj, _⟩ => nomatch hj
  intro m hm m' hm' v hv hv'
  rcases (h.mem m).1 hm with ⟨hms, ho⟩ | ⟨i, hi, hov, -, hpart⟩
  · rcases (h.mem m').1 hm' with ⟨hms', -⟩ | ⟨i', hi', hov', -, hpart'⟩
    · exact hapart m hms m' hms' v hv hv'
    · obtain rfl := hapart m hms i' hi' v hv (hpart'.inRange (hs i' hi') hov' hv').1
      exact absurd (ho hov') (hnone m)
  · have hin := (hpart.inRange (hs i hi) hov hv).1
    rcases (h.mem m').1 hm' with ⟨hms', ho'⟩ | ⟨i', hi', hov', -, hpart'⟩
    · obtain rfl := hapart m' hms' i hi v hv' hin
      exact absurd (ho' hov) (hnone m')
    · obtain rfl := hapart i' hi' i hi v (hpart'.inRange (hs i' hi') hov' hv').1 hin
      exact hpart.eq_of_inRange hpart' (hs i' hi') hov hv hv'

end Loop

/-! ## The page table -/

section Table

variable {s t : VMAR} {region : Segment} {perm : Perm} {i : PageMapping}
  {ms : KeyedSet PageMapping vpn}

theorem Covers.clear {L L' : Nat → Option (Leaf Perm)} {a n : Nat} (h : Covers ms L)
    (hc : Clears IsPage L L' a n) : Covers ms L' := by
  intro v y hv hy
  by_cases hin : InRange a n v
  · rw [hc.cleared v hv hin] at hy
    cases hy
  · rw [hc.kept v hv hin] at hy
    exact h v y hv hy

/-- **One round of `protect` returns**, and all leaves stay in the mappings of the beginning. The
part before the region is lost, and its pages are still translated. -/
theorem protectBody_ok (hok : perm.Ok) (hperm : perm ≠ {}) (hs : Sound t.pagetable)
    (hc : Covers ms (leafAt t.pagetable)) (hapart : Apart ms) (hi : i ∈ ms) (hit : i ∈ t.mappings)
    (hp : i.Housed) (hov : Overlaps region i)
    (hwhole : i.vmo.IsPaged ∨ i.offset = 0 ∧ i.len = i.vmo.len) :
    ∃ next t', protectBody region perm i t = .ok (next, t') ∧ Sound t'.pagetable ∧
      Covers ms (leafAt t'.pagetable) ∧ ∀ j, next = some j → i.vpn < j.vpn := by
  have hle := overlaps_le hov
  have hfit := hp.fit
  have hvend := hp.vend_eq
  obtain ⟨table, hremove, hs0, hclear⟩ := removeMapping_proper hp hapart hi hs hc
    fun v hv => show IsPage v from hv.2.trans_le hfit
  have hc0 := hc.clear hclear
  obtain ⟨t1, hleft, hs1, hc1⟩ : ∃ t1, mapSlice { t with pagetable := table } i
      ⟨i.vpn, xlen ((max i.vpn region.l : Nat) - 1)⟩ = .ok t1 ∧ Sound t1.pagetable ∧
        Covers ms (leafAt t1.pagetable) := by
    rcases Nat.lt_or_ge i.vpn region.l with hlt | hge
    · have hx : xlen ((max i.vpn region.l : Nat) - 1) = region.l - 1 := by
        unfold xlen
        omega
      exact mapSlice_covers (t := { t with pagetable := table }) (fun _ h => h) hs0 hc0 hi hp le_rfl
        (by omega) fun _ => hwhole
    · rw [Nat.max_eq_left hge]
      exact ⟨_, mapSlice_no_left (t := { t with pagetable := table }) hit (by omega), hs0, hc0⟩
  have hx : xlen ((min i.vend region.r : Nat) + 1) = min i.vend region.r + 1 := by
    unfold xlen
    omega
  obtain ⟨t2, hright, hs2, hc2⟩ := mapSlice_covers (fun _ h => h) hs1 hc1 hi hp
    (show i.vpn ≤ min i.vend region.r + 1 by omega) le_rfl fun _ => hwhole
  obtain ⟨t3, c, n, f, hmap, hs3, hw, hfirst, hlast⟩ :=
    map_slice (t := { t2 with mappings := t2.mappings.erase i.vpn }) hs2 hp (Nat.le_max_left _ _)
      hle (Nat.min_le_left _ _) hok hwhole
  refine ⟨t2.mappings.upperBound i.vpn, t3, ?_, hs3, hc2.write (fun _ h => h) hw hi hfirst hlast,
    fun j hj => lt_of_upperBound hj⟩
  have hnew := splitChild_recast hp.ranged hov perm
  rw [if_neg hperm, PageMapping.recast] at hnew
  unfold protectBody
  rw [if_pos (show (i.vsegment.inter region).nonempty = true from hov), hnew, hremove, ok_bind]
  unfold Segment.inter vsegment
  dsimp only
  rw [hleft, ok_bind, hx, hright, ok_bind, hmap]
  rfl

theorem protect_total (hs : s.Proper) (hok : perm.Ok) (hperm : perm ≠ {})
    (hwhole : ∀ m ∈ s.mappings, Overlaps region m →
      m.vmo.IsPaged ∨ m.offset = 0 ∧ m.len = m.vmo.len) : ∃ s', s.protect region perm = .ok s' := by
  let J : Option PageMapping → VMAR → Prop := fun it t => Recast region perm s it t ∧
    Sound t.pagetable ∧ Covers s.mappings (leafAt t.pagetable)
  have hbody : ∀ i t, J (some i) t → ∃ next t', protectBody region perm i t = .ok (next, t') ∧
      J next t' ∧ ∀ j, next = some j → i.vpn < j.vpn := by
    rintro i t ⟨hJ, hsound, hcovers⟩
    by_cases hov : Overlaps region i
    · have his := hJ.old i rfl hov
      obtain ⟨next, t', hb, hsound', hcovers', hlt⟩ := protectBody_ok hok hperm hsound hcovers
        hs.apart his (hJ.here i rfl) (hs.housed i his) hov (hwhole i his hov)
      exact ⟨next, t', hb, ⟨hJ.step hperm hs.ranged hs.apart hb, hsound', hcovers'⟩, hlt⟩
    · exact ⟨_, t, protectBody_skip hov, ⟨hJ.skip hs.ranged hs.apart hov, hsound, hcovers⟩,
        fun j hj => lt_of_upperBound hj⟩
  have hbound : ∀ i t, J (some i) t → i.vpn < 2 ^ 64 := by
    rintro i t ⟨hJ, -⟩
    obtain ⟨m, hm, hin⟩ := hJ.inside hs.ranged (hJ.here i rfl)
    have hfit := (hs.housed m hm).fit
    have := hin.2
    omega
  obtain ⟨s', h, -⟩ := sweep_total hbound hbody (2 ^ 64) s.mappings.first s
    ⟨Recast.start region perm s, hs.sound, hs.covers⟩ fun j _ => Nat.le_add_left _ _
  exact ⟨s', h⟩

end Table

/-! ## Whole calls -/

/-- **`protect` changes only permissions, and only in its region**, if and only if the region does
not start inside a mapping. It returns if the address space is proper and contiguous VMOs in the
region are mapped whole. -/
theorem protect_protects {s : VMAR} {perm : Perm} (hs : ∀ m ∈ s.mappings, m.Ranged)
    (hapart : Apart s.mappings) (hperm : perm ≠ {}) (region : Segment) :
    (∀ s', s.protect region perm = .ok s' →
      (s.Protected s' region perm ↔
        ∀ m ∈ s.mappings, Overlaps region m → region.l ≤ m.vpn)) ∧
    (s.Proper → perm.Ok →
      (∀ m ∈ s.mappings, Overlaps region m →
        m.vmo.IsPaged ∨ m.offset = 0 ∧ m.len = m.vmo.len) →
      ∃ s', s.protect region perm = .ok s') := by
  refine ⟨fun s' h => ?_, fun hproper hok hwhole => protect_total hproper hok hperm hwhole⟩
  have hrecast := protect_recast hperm hs hapart h
  constructor
  · intro hprot m hm hov
    by_contra hlt
    -- the first page of `m` is before the region and mapped no more
    have hfirst := (hs m hm).first
    have hshows := (hprot.shows m.vpn _).2 ⟨_, ⟨m, hm, hfirst, rfl⟩, rfl⟩
    obtain ⟨m', hm', hin, hge, -⟩ := (hrecast.shows hs).1 hshows
    obtain rfl := hapart m' hm' m hm _ hin hfirst
    exact hlt (hge hov)
  · refine fun hleft => ⟨fun v info => ?_, hrecast.apart hs hapart⟩
    rw [hrecast.shows hs]
    constructor
    · rintro ⟨m, hm, hin, -, hinfo⟩
      exact ⟨_, ⟨m, hm, hin, rfl⟩, hinfo⟩
    · rintro ⟨old, ⟨m, hm, hin, rfl⟩, hinfo⟩
      exact ⟨m, hm, hin, fun hov => (hleft m hm hov).trans hin.1, hinfo⟩

def readOnly : Perm := { v := true, r := true, u := true }

/-- A region that starts before the mapping and ends in it. -/
theorem protect_protects_head :
    ∃ s', lone.protect ⟨5, 13⟩ readOnly = .ok s' ∧ lone.Protected s' ⟨5, 13⟩ readOnly := by
  have hperm : readOnly ≠ {} := by decide
  obtain ⟨hprotects, htotal⟩ :=
    protect_protects lone_proper.ranged lone_proper.apart hperm ⟨5, 13⟩
  obtain ⟨s', h⟩ := htotal lone_proper (by decide) fun m hm _ => .inl <| by
    rw [lone_mem hm]
    exact trivial
  refine ⟨s', h, (hprotects s' h).2 fun m hm _ => ?_⟩
  rw [lone_mem hm]
  decide

/-- **The part before the region is lost**: page 10 is mapped no more when pages 12 and 13 become
read-only. -/
theorem not_protect_protects : lone.Proper ∧ ∃ s', lone.protect ⟨12, 13⟩ readOnly = .ok s' ∧
      s'.mappings.elems.map (fun m => (m.vpn, m.len)) = [(12, 2), (14, 6)] ∧
        ¬lone.Protected s' ⟨12, 13⟩ readOnly := by
  have hrun : ((lone.protect ⟨12, 13⟩ readOnly).toOption.map fun s =>
      s.mappings.elems.map fun m => (m.vpn, m.len)) = some [(12, 2), (14, 6)] := by
    decide +kernel
  obtain ⟨s', h, hkeys⟩ := Option.map_eq_some_iff.1 hrun
  refine ⟨lone_proper, s', toOption_eq_some.1 h, hkeys, fun hprot => ?_⟩
  have hmem : tenPages ∈ lone.mappings :=
    mem_insert_self fun b hb => absurd hb (not_mem_empty b)
  obtain ⟨m, hm, hin, -⟩ := (hprot.shows 10 _).2 ⟨_, ⟨tenPages, hmem, by decide, rfl⟩, rfl⟩
  have hkey : (m.vpn, m.len) ∈ s'.mappings.elems.map fun m => (m.vpn, m.len) :=
    List.mem_map_of_mem hm
  have hfirst := hin.1
  rw [hkeys, List.mem_cons, List.mem_singleton, Prod.mk.injEq, Prod.mk.injEq] at hkey
  omega

end VMAR

end LuoOS.Vm
