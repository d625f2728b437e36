import LuoOS.Vm.Agree
import LuoOS.Vm.RemoveTotal

/-!
# What `unmap` leaves of the mappings

`mappings` is a partial function from pages to pages of VMOs, and `unmap` is to restrict it to the
pages outside of a region. Of every mapping that the region overlaps only the part behind it is
left: the part before has the key of the mapping, which is still there when the part is inserted, so
it is dropped.
-/

namespace LuoOS.Vm

open Translation KeyedSet PageMapping

/-- What the mappings say of a page. -/
structure PageInfo where
  vmo : Vmo
  page : Nat
  perm : Perm
  mapping : MappingType
  sharing : Nat

namespace PageMapping

def pageAt (m : PageMapping) (v : Nat) : PageInfo :=
  ⟨m.vmo, m.offset + (v - m.vpn), m.perm, m.mapping, m.sharing⟩

/-- The mapping is inside of its VMO and of the `2 ^ 27` pages. -/
structure Housed (m : PageMapping) : Prop where
  pos : 0 < m.len
  fit : m.vpn + m.len ≤ 2 ^ 27
  within : m.offset + m.len ≤ m.vmo.len
  perm : m.perm.Ok

section

variable {m : PageMapping} {a b r v : Nat}

theorem Housed.ranged (h : m.Housed) : m.Ranged := by
  have hfit := h.fit
  have hwithin := h.within
  have hlen := m.vmo.len_lt
  exact ⟨h.pos, by omega, by omega⟩

theorem Housed.vend_eq (h : m.Housed) : m.vend = m.vpn + m.len - 1 := h.ranged.vend_eq

theorem slice_pageAt {perm : Perm} (ha : m.vpn ≤ a) (hv : a ≤ v) :
    (m.slice a b perm).pageAt v = { m.pageAt v with perm := perm } := by
  unfold pageAt slice
  dsimp only
  congr 1
  omega

theorem rest_pageAt (hl : m.vpn ≤ r) (hv : r < v) : (m.rest r).pageAt v = m.pageAt v := by
  unfold pageAt rest
  dsimp only
  congr 1
  omega

end

end PageMapping

namespace VMAR

def Shows (s : VMAR) (v : Nat) (info : PageInfo) : Prop :=
  ∃ m ∈ s.mappings, InRange m.vpn m.len v ∧ m.pageAt v = info

/-- The mappings show the same pages as before, but for those of the region. -/
def Restricted (s s' : VMAR) (region : Segment) : Prop :=
  ∀ v info, s'.Shows v info ↔ s.Shows v info ∧ ¬(region.l ≤ v ∧ v ≤ region.r)

/-- The region is gone, and nothing else. -/
structure Removed (s s' : VMAR) (region : Segment) : Prop where
  restricted : s.Restricted s' region
  untranslated : ∀ v, IsPage v → region.l ≤ v → v ≤ region.r →
    ∀ p, trans s'.pagetable v ≠ .ok p

/-- The leaves of the pages `Z` are parts of mappings. -/
def CoversOn (Z : Nat → Prop) (ms : KeyedSet PageMapping vpn) (L : Nat → Option (Leaf Perm)) :
    Prop :=
  ∀ v y, Z v → L v = some y → ∃ m ∈ ms, y.Inside v m.vpn m.len

abbrev Covers (ms : KeyedSet PageMapping vpn) (L : Nat → Option (Leaf Perm)) : Prop :=
  CoversOn IsPage ms L

/-- An address space whose mappings share no page, and whose page table has nothing but pages of
them. -/
structure Proper (s : VMAR) : Prop where
  housed : ∀ m ∈ s.mappings, m.Housed
  apart : Apart s.mappings
  sound : Sound s.pagetable
  covers : Covers s.mappings (leafAt s.pagetable)

theorem Proper.ranged {s : VMAR} (h : s.Proper) : ∀ m ∈ s.mappings, m.Ranged :=
  fun m hm => (h.housed m hm).ranged

/-! ## The mappings -/

variable {m : PageMapping} {it : Option PageMapping}

section Mappings

variable {s s' t t' : VMAR} {i : PageMapping} {next : Option PageMapping} {region : Segment}

/-- What the rounds before `it` have left of `s`. -/
structure Swept (region : Segment) (s : VMAR) (it : Option PageMapping) (t : VMAR) : Prop where
  here : ∀ j, it = some j → j ∈ t.mappings
  source : ∀ m ∈ t.mappings,
    m ∈ s.mappings ∨ ∃ i ∈ s.mappings, Overlaps region i ∧ region.r < i.vend ∧ m = i.rest region.r
  kept : ∀ m ∈ s.mappings, ¬Overlaps region m → m ∈ t.mappings
  tail : ∀ i ∈ s.mappings, Overlaps region i →
    i ∈ t.mappings ∨ (region.r < i.vend → i.rest region.r ∈ t.mappings)
  ahead : ∀ m ∈ t.mappings, Overlaps region m → ∃ j, it = some j ∧ j.vpn ≤ m.vpn

theorem Swept.start (region : Segment) (s : VMAR) : Swept region s s.mappings.first s :=
  ⟨fun _ hj => first_mem hj, fun _ hm => .inl hm, fun _ hm _ => hm,
    fun _ hi _ => .inl hi, fun _ hm _ => first_le hm⟩

/-- Elements that are not behind the iterator of a round are not behind that of the next. -/
theorem Swept.ahead_next (h : Swept region s (some i) t) (hm : m ∈ t.mappings)
    (hov : Overlaps region m) (hne : m.vpn ≠ i.vpn) : i.vpn < m.vpn := by
  obtain ⟨j, hj, hle⟩ := h.ahead m hm hov
  cases hj
  exact Nat.lt_of_le_of_ne hle (Ne.symm hne)

theorem Swept.rest_mem (hs : ∀ m ∈ s.mappings, m.Ranged)
    (hapart : Apart s.mappings) (h : Swept region s it t) (hi : i ∈ s.mappings)
    (hov : Overlaps region i) (hr : region.r < i.vend) :
    i.rest region.r ∈ withRest t.mappings i region.r := by
  have hvend := (hs i hi).vend_eq
  have hl := (overlaps_bounds hov (hs i hi)).1
  have hnext : InRange i.vpn i.len (region.r + 1) := ⟨by omega, by omega⟩
  unfold withRest
  rw [if_pos hr]
  by_cases hkey : ∃ b ∈ t.mappings, b.vpn = region.r + 1
  · obtain ⟨b, hb, hkey⟩ := hkey
    rcases h.source b hb with hbs | ⟨i', hi', hov', hr', rfl⟩
    · have hpos := (hs b hbs).pos
      obtain rfl := hapart b hbs i hi _ ⟨Nat.le_of_eq hkey, by omega⟩ hnext
      omega
    have hvend' := (hs i' hi').vend_eq
    have hl' := (overlaps_bounds hov' (hs i' hi')).1
    obtain rfl := hapart i' hi' i hi _ ⟨by omega, by omega⟩ hnext
    exact subset_insert hb
  · exact mem_insert_self fun b hb heq => hkey ⟨b, hb, heq⟩

theorem Swept.step (hs : ∀ m ∈ s.mappings, Overlaps region m → m.Ranged)
    (hrest : ∀ m ∈ s.mappings, Overlaps region m → region.r < m.vend →
      m.rest region.r ∈ withRest t.mappings m region.r)
    (h : Swept region s (some i) t) (hb : unmapBody region i t = .ok (next, t')) :
    Swept region s next t' := by
  have hi := h.here i rfl
  by_cases hov : Overlaps region i
  · -- only mappings of `s` overlap the region
    have his : i ∈ s.mappings := by
      rcases h.source i hi with his | ⟨i', hi', hov', hr, rfl⟩
      · exact his
      · exact absurd hov (rest_not_overlaps hov' (hs i' hi' hov') hr)
    have hp := hs i his hov
    have hl := (overlaps_bounds hov hp).1
    obtain ⟨hnext, hmap⟩ := unmapBody_mappings hi hp hov hb
    have hsub : ∀ {m}, m ∈ t.mappings → m.vpn ≠ i.vpn → m ∈ t'.mappings := by
      intro m hm hne
      rw [hmap]
      exact mem_erase.2 ⟨subset_withRest hm, hne⟩
    have hfrom : ∀ m ∈ t'.mappings,
        (m ∈ t.mappings ∧ m.vpn ≠ i.vpn) ∨ region.r < i.vend ∧ m = i.rest region.r := by
      intro m hm
      rw [hmap] at hm
      obtain ⟨hm, hne⟩ := mem_erase.1 hm
      exact (mem_withRest hm).imp_left fun hm => ⟨hm, hne⟩
    refine ⟨fun j hj => ?_, fun m hm => ?_, fun m hm hno => ?_, fun i' hi' hov' => ?_,
      fun m hm hom => ?_⟩
    · rw [hnext] at hj
      rw [hmap]
      exact mem_erase_of_upperBound hj
    · rcases hfrom m hm with ⟨hm, -⟩ | ⟨hr, rfl⟩
      · exact h.source m hm
      · exact .inr ⟨i, his, hov, hr, rfl⟩
    · refine hsub (h.kept m hm hno) fun hkey => hno ?_
      rw [eq_of_key_eq (h.kept m hm hno) hi hkey]
      exact hov
    · by_cases heq : i' = i
      · subst heq
        refine .inr fun hr => ?_
        rw [hmap]
        refine mem_erase.2 ⟨?_, Nat.ne_of_gt (Nat.lt_succ_of_le hl)⟩
        exact hrest _ his hov hr
      · refine (h.tail i' hi' hov').imp (fun hm => hsub hm fun hkey => ?_) fun hm hr => ?_
        · exact heq (eq_of_key_eq hi' his hkey)
        · refine hsub (hm hr) (Nat.ne_of_gt (Nat.lt_succ_of_le ?_))
          exact hl
    · rcases hfrom m hm with ⟨hm, hne⟩ | ⟨hr, rfl⟩
      · rw [hnext]
        exact upperBound_le (subset_withRest hm) (h.ahead_next hm hom hne)
      · exact absurd hom (rest_not_overlaps hov hp hr)
  · rw [unmapBody_skip hov] at hb
    cases hb
    refine ⟨fun j hj => upperBound_mem hj, h.source, h.kept, h.tail, fun m hm hom => ?_⟩
    refine upperBound_le hm (h.ahead_next hm hom fun hkey => hov ?_)
    rw [← eq_of_key_eq hm hi hkey]
    exact hom

theorem Swept.gone (h : Swept region s none t) (hm : m ∈ t.mappings) : ¬Overlaps region m := by
  intro hov
  obtain ⟨j, hj, -⟩ := h.ahead m hm hov
  cases hj

/-- **What `unmap` leaves of the mappings**: all of those that the region does not overlap, and of
the others the pages behind the region. -/
theorem Swept.shows (hs : ∀ m ∈ s.mappings, m.Ranged) (h : Swept region s none t) {v : Nat}
    {info : PageInfo} :
    t.Shows v info ↔ ∃ m ∈ s.mappings, InRange m.vpn m.len v ∧ m.pageAt v = info ∧
      (Overlaps region m → region.r < v) := by
  constructor
  · rintro ⟨m, hm, hv, hinfo⟩
    rcases h.source m hm with hms | ⟨i, hi, hov, hr, rfl⟩
    · exact ⟨m, hms, hv, hinfo, fun hov => absurd hov (h.gone hm)⟩
    have hl := (overlaps_bounds hov (hs i hi)).1
    obtain ⟨hv, hlt⟩ := (rest_inRange hl).1 hv
    rw [rest_pageAt hl hlt] at hinfo
    exact ⟨i, hi, hv, hinfo, fun _ => hlt⟩
  · rintro ⟨m, hm, hv, hinfo, hbehind⟩
    by_cases hov : Overlaps region m
    · have hlt := hbehind hov
      have hl := (overlaps_bounds hov (hs m hm)).1
      have hvend := (hs m hm).vend_eq
      have hr : region.r < m.vend := by
        have := hv.2
        omega
      rcases h.tail m hm hov with hmt | hmt
      · exact absurd hov (h.gone hmt)
      · refine ⟨_, hmt hr, (rest_inRange hl).2 ⟨hv, hlt⟩, ?_⟩
        rw [rest_pageAt hl hlt]
        exact hinfo
    · exact ⟨m, h.kept m hm hov, hv, hinfo⟩

end Mappings

/-! ## Regions that cut no mapping -/

section Within

variable {s s' t t' : VMAR} {i : PageMapping} {next : Option PageMapping} {region : Segment}

/-- The mapping lies in the region. -/
structure Within (region : Segment) (m : PageMapping) : Prop where
  plain : m.Plain
  pos : 0 < m.len
  left : region.l ≤ m.vpn
  right : m.vend ≤ region.r

theorem unmapBody_within (hi : i ∈ t.mappings) (hs : Sound t.pagetable) (hw : Within region i)
    (hov : Overlaps region i) (hb : unmapBody region i t = .ok (next, t')) : Sound t'.pagetable ∧
      Clears IsPage (leafAt t.pagetable) (leafAt t'.pagetable) i.vpn i.len := by
  have hvend := hw.plain.vend_eq hw.pos
  have hlt := hw.plain.vend_lt hw.pos
  have hpos := hw.pos
  have hl := hw.left
  have hr := hw.right
  obtain ⟨-, s1, s2, t, hleft, hright, hremove, -, rfl⟩ :=
    (unmapBody_cases hb).resolve_right fun h => h.1 hov
  -- there is neither a left nor a right part
  obtain ⟨-, hs1, n, -, hzero, hpt, -⟩ := mapSlice_left (l := max i.vpn region.l) hi hw.plain
    hw.pos (by omega) (by omega) hs hleft
  obtain ⟨-, -, hend, -⟩ := mapSlice_right (r := min i.vend region.r) hw.plain hw.pos (by omega)
    (by omega) hs1 (.inr (by omega)) hright
  rw [hend (by omega)] at hremove
  rw [← hpt (hzero (by omega))]
  exact remove_root hs1 (by omega) (by omega) hremove

theorem unmap_within (hs : Sound s.pagetable)
    (hcut : ∀ m ∈ s.mappings, Overlaps region m → Within region m) (hr : s.unmap region = .ok s') :
    (∀ m, m ∈ s'.mappings ↔ m ∈ s.mappings ∧ ¬Overlaps region m) ∧ Sound s'.pagetable ∧
      ∀ v x, IsPage v → leafAt s'.pagetable v = some x → leafAt s.pagetable v = some x ∧
        ∀ m ∈ s.mappings, Overlaps region m → ¬InRange m.vpn m.len v := by
  let J : Option PageMapping → VMAR → Prop := fun it t =>
    Swept region s it t ∧ Sound t.pagetable ∧
      ∀ v x, IsPage v → leafAt t.pagetable v = some x → leafAt s.pagetable v = some x ∧
        ∀ m ∈ s.mappings, Overlaps region m → InRange m.vpn m.len v → m ∈ t.mappings
  have hno : ∀ m ∈ s.mappings, Overlaps region m → ¬region.r < m.vend := fun m hm hov =>
    Nat.not_lt.2 (hcut m hm hov).right
  have hsub : ∀ {it t m}, Swept region s it t → m ∈ t.mappings → m ∈ s.mappings := fun h hm =>
    (h.source _ hm).resolve_right fun ⟨i, hi, hov, hr, _⟩ => hno i hi hov hr
  have hranged : ∀ m ∈ s.mappings, Overlaps region m → m.Ranged := fun m hm hov =>
    (hcut m hm hov).plain.ranged (hcut m hm hov).pos
  have hbody : ∀ i t next t', J (some i) t → VMAR.unmapBody region i t = .ok (next, t') →
      J next t' := by
    rintro i t next t' ⟨hJ, hs, hleaf⟩ hb
    have hstep := hJ.step hranged (fun m hm hov hr => absurd hr (hno m hm hov)) hb
    have hi := hJ.here i rfl
    by_cases hov : Overlaps region i
    · have his := hsub hJ hi
      obtain ⟨hs', hc⟩ := unmapBody_within hi hs (hcut i his hov) hov hb
      refine ⟨hstep, hs', fun v x hv hx => ?_⟩
      have hout : ¬InRange i.vpn i.len v := by
        intro hin
        rw [hc.cleared v hv hin] at hx
        cases hx
      rw [hc.kept v hv hout] at hx
      obtain ⟨hold, hmem⟩ := hleaf v x hv hx
      refine ⟨hold, fun m hm hom hin => ?_⟩
      rw [(unmapBody_mappings hi (hranged i his hov) hov hb).2]
      refine mem_erase.2 ⟨subset_withRest (hmem m hm hom hin), fun hkey => hout ?_⟩
      rw [← eq_of_key_eq (hmem m hm hom hin) hi hkey]
      exact hin
    · rw [unmapBody_skip hov] at hb
      cases hb
      exact ⟨hstep, hs, hleaf⟩
  obtain ⟨hJ, hs', hleaf⟩ := sweep_inv (J := J) hbody _ _ s s'
    ⟨Swept.start region s, hs, fun v x _ hx => ⟨hx, fun m hm _ _ => hm⟩⟩ hr
  refine ⟨fun m => ⟨fun hm => ⟨hsub hJ hm, hJ.gone hm⟩, fun h => hJ.kept m h.1 h.2⟩, hs', ?_⟩
  intro v x hv hx
  obtain ⟨hold, hmem⟩ := hleaf v x hv hx
  exact ⟨hold, fun m hm hov hin => hJ.gone (hmem m hm hov hin) hov⟩

end Within

/-! ## The page table -/

section Table

variable {s s' t t' : VMAR} {i : PageMapping} {region : Segment}
  {ms : KeyedSet PageMapping vpn} {L L' : Nat → Option (Leaf Perm)} {Z : Nat → Prop}
  (hZ : ∀ v, Z v → IsPage v)

include hZ in
theorem CoversOn.write {a n : Nat} {f : Nat → Nat} {g : Option Perm} (h : CoversOn Z ms L)
    (hw : Writes IsPage L L' a n f g) (hi : i ∈ ms) (ha : i.vpn ≤ a)
    (hn : a + n ≤ i.vpn + i.len) : CoversOn Z ms L' := by
  intro v y hz hy
  have hv := hZ v hz
  by_cases hr : InRange a n v
  · cases hg : g with
    | none =>
      rw [hw.revokes v hv hr hg] at hy
      cases hy
    | some p =>
      obtain ⟨x, hx, -, -, hin⟩ := hw.grants v hv hr p hg
      rw [hx] at hy
      cases hy
      exact ⟨i, hi, ha.trans hin.1, hin.2.trans hn⟩
  · obtain ⟨x, hx, -, -, hwithin⟩ := hw.old v hv hr y hy
    obtain ⟨m, hm, hin⟩ := h v x hz hx
    exact ⟨m, hm, hin.1.trans hwithin.1, hwithin.2.trans hin.2⟩

/-- The pages of the region and of the mappings that it overlaps. -/
def Zone (s : VMAR) (region : Segment) (v : Nat) : Prop :=
  IsPage v ∧ (region.l ≤ v ∧ v ≤ region.r ∨
    ∃ m ∈ s.mappings, Overlaps region m ∧ InRange m.vpn m.len v)

/-- The mapping that `region` overlaps starts in it, and one that keeps a part behind it is paged or
a contiguous VMO from its first page to its last. -/
structure Supported (region : Segment) (m : PageMapping) : Prop where
  left : region.l ≤ m.vpn
  right : m.vmo.IsPaged ∨ m.vend ≤ region.r ∨ m.offset = 0 ∧ m.len = m.vmo.len

/-- There is no part before the region if it does not start inside the mapping. -/
theorem mapSlice_no_left (hi : i ∈ t.mappings) (hfit : i.vpn < 2 ^ 27) :
    t.mapSlice i ⟨i.vpn, xlen (i.vpn - 1)⟩ = .ok t := by
  unfold mapSlice
  rcases Nat.eq_zero_or_pos i.vpn with hzero | hpos
  · -- `ovlp.l-1` wraps around, and the slice has no page
    have hlen : (i.splitChild ⟨i.vpn, xlen (i.vpn - 1)⟩).len = 0 := by
      rw [hzero]
      rfl
    have hmap : t.mappings.insert (i.splitChild ⟨i.vpn, xlen (i.vpn - 1)⟩) = t.mappings :=
      insert_of_mem hi rfl
    split
    · unfold map
      rw [hlen, hmap, if_neg Bool.false_ne_true]
      unfold mapLoop
      rw [if_neg (by omega), ok_bind]
      rfl
    · rfl
  · have hx : xlen ((i.vpn : Int) - 1) = i.vpn - 1 := by
      unfold xlen
      omega
    rw [hx]
    refine if_neg fun h => ?_
    have hle : i.vpn ≤ i.vpn - 1 := of_decide_eq_true h
    omega

theorem map_slice {a b : Nat} {perm : Perm} (hs : Sound t.pagetable) (hp : i.Housed)
    (ha : i.vpn ≤ a) (hab : a ≤ b) (hb : b ≤ i.vend) (hok : perm.Ok)
    (hwhole : i.vmo.IsPaged ∨ i.offset = 0 ∧ i.len = i.vmo.len) :
    ∃ t' c n f, t.map (i.slice a b perm) = .ok t' ∧ Sound t'.pagetable ∧
      Writes IsPage (leafAt t.pagetable) (leafAt t'.pagetable) c n f perm.grant ∧
        i.vpn ≤ c ∧ c + n ≤ i.vpn + i.len := by
  have hpos := hp.pos
  have hfit := hp.fit
  have hwithin := hp.within
  have hvend := hp.vend_eq
  by_cases hpaged : i.vmo.IsPaged
  · have hplain : (i.slice a b perm).Plain := slice_plain
      ⟨(span_of_isPaged hpaged).symm ▸ hfit, hwithin, hp.perm, fun h => absurd hpaged h⟩ hpos ha hab
      hb hok (.inl hpaged)
    obtain ⟨t', hmap, -, hs', hw⟩ := map_total hplain hs
    rw [span_of_isPaged (m := i.slice a b perm) hpaged] at hw
    refine ⟨t', _, _, _, hmap, hs', hw, ?_, ?_⟩
    all_goals
      unfold slice
      dsimp only
      omega
  · obtain ⟨hoff, hlen⟩ := hwhole.resolve_left hpaged
    cases hv : i.vmo with
    | paged len frame hlt hf =>
      rw [hv] at hpaged
      exact absurd trivial hpaged
    | contiguous ppn pages hfits =>
      rw [hv] at hlen
      change i.len = pages at hlen
      have hpart : (i.slice a b perm).offset + (i.slice a b perm).len ≤ pages := by
        unfold slice
        dsimp only
        omega
      -- a slice begins behind the first page of the VMO, and the way back is taken modulo `2 ^ 64`
      have hstart : windowStart (i.slice a b perm) = i.vpn := by
        unfold windowStart slice xlen
        dsimp only
        omega
      obtain ⟨table, hcreate, hs', hw⟩ := create_total i.vpn hs hok (by omega) (by omega) hfits
      rw [map_contiguous (m := i.slice a b perm) hv hpart (by unfold slice; dsimp only; omega), hstart]
      rw [show (i.slice a b perm).perm = perm from rfl, hcreate]
      exact ⟨_, _, _, _, rfl, hs', hw, le_rfl, by omega⟩

theorem CoversOn.uncut {table : Table 2} (hc : CoversOn Z ms (leafAt table)) (hapart : Apart ms)
    (hi : i ∈ ms) (hpos : 0 < i.len) (hin : ∀ v, InRange i.vpn i.len v → Z v) :
    Uncut (Block 3 i.vpn) (leafAt table) i.vpn i.len := by
  refine ⟨fun v _ hr y hy => ?_, fun hzero => absurd hzero (Nat.pos_iff_ne_zero.1 hpos)⟩
  obtain ⟨m, hm, hinside⟩ := hc v y (hin v hr) hy
  obtain rfl := hapart m hm i hi v (hinside.inRange (Entry.leafAt_size_pos _ hy)) hr
  exact hinside

theorem removeMapping_proper (hp : i.Housed) (hapart : Apart ms) (hi : i ∈ ms) {table : Table 2}
    (hs : Sound table) (hc : CoversOn Z ms (leafAt table))
    (hin : ∀ v, InRange i.vpn i.len v → Z v) :
    ∃ table', removeMapping 2 table i.vpn i.len = .ok table' ∧ Sound table' ∧
      Clears IsPage (leafAt table) (leafAt table') i.vpn i.len := by
  have hpos := hp.pos
  have hfit := hp.fit
  have hun := hc.uncut hapart hi hpos hin
  obtain ⟨table', hr, -⟩ := removeMapping_uncut 2 table i.vpn i.len (Each.fine fun j => (hs j).each)
    (fit_root hfit (by omega)) hun
  exact ⟨table', hr, remove_root hs hfit (by omega) hr⟩

include hZ in
theorem mapSlice_covers {a b : Nat} (hs : Sound t.pagetable) (hc : CoversOn Z ms (leafAt t.pagetable))
    (hi : i ∈ ms) (hp : i.Housed) (ha : i.vpn ≤ a) (hb : b ≤ i.vend)
    (hwhole : a ≤ b → i.vmo.IsPaged ∨ i.offset = 0 ∧ i.len = i.vmo.len) :
    ∃ t', t.mapSlice i ⟨a, b⟩ = .ok t' ∧ Sound t'.pagetable ∧
      CoversOn Z ms (leafAt t'.pagetable) := by
  unfold mapSlice
  split
  · rename_i hne
    have hab : a ≤ b := of_decide_eq_true hne
    rw [hp.ranged.splitChild_eq ha hab hb, if_pos rfl]
    obtain ⟨t', c, n, f, hmap, hs', hw, hc', hn⟩ :=
      map_slice hs hp ha hab hb hp.perm (hwhole hab)
    exact ⟨t', hmap, hs', hc.write hZ hw hi hc' hn⟩
  · exact ⟨t, rfl, hs, hc⟩

include hZ in
/-- **One round of `unmap` returns**, and no page of the mapping is translated any more. -/
theorem unmapBody_ok (hs : Sound t.pagetable) (hc : CoversOn Z t.mappings (leafAt t.pagetable))
    (hapart : Apart t.mappings) (hi : i ∈ t.mappings) (hp : i.Housed) (hov : Overlaps region i)
    (hsup : Supported region i) (hiZ : ∀ v, InRange i.vpn i.len v → Z v) :
    ∃ next t', unmapBody region i t = .ok (next, t') ∧ Sound t'.pagetable ∧
      CoversOn Z t'.mappings (leafAt t'.pagetable) ∧ Apart t'.mappings ∧
      ∀ j, next = some j → i.vpn < j.vpn := by
  have hpos := hp.pos
  have hfit := hp.fit
  have hvend := hp.vend_eq
  obtain ⟨hleft, hright⟩ := hsup
  have hl := (overlaps_bounds hov hp.ranged).1
  have hmax : max i.vpn region.l = i.vpn := Nat.max_eq_left hleft
  have hx : xlen ((min i.vend region.r : Nat) + 1) = min i.vend region.r + 1 := by
    unfold xlen
    omega
  obtain ⟨t1, hslice, hs1, hc1⟩ := mapSlice_covers hZ hs hc hi hp
    (show i.vpn ≤ xlen ((min i.vend region.r : Nat) + 1) by omega) le_rfl
    fun hle => hright.imp_right fun h => h.resolve_left (by omega)
  obtain ⟨table, hremove, hs2, hclear⟩ := removeMapping_proper hp hapart hi hs1 hc1 hiZ
  have hmap : t1.mappings = withRest t.mappings i region.r := by
    rw [← withRest_min]
    exact mapSlice_rest hp.ranged (by omega) (by omega) hslice
  refine ⟨t1.mappings.upperBound i.vpn, ⟨t1.mappings.erase i.vpn, table⟩, ?_, hs2, ?_, ?_,
    fun j hj => lt_of_upperBound hj⟩
  · unfold VMAR.unmapBody
    rw [if_pos (show (i.vsegment.inter region).nonempty = true from hov)]
    unfold Segment.inter vsegment
    rw [hmax, mapSlice_no_left hi (by omega), ok_bind, hslice, ok_bind, hremove, ok_bind]
    rfl
  · -- what is still translated is outside of `i`
    intro v y hz hy
    have hv := hZ v hz
    have hout : ¬InRange i.vpn i.len v := by
      intro hr
      rw [hclear.cleared v hv hr] at hy
      cases hy
    rw [hclear.kept v hv hout] at hy
    obtain ⟨m, hm, hin⟩ := hc1 v y hz hy
    refine ⟨m, ?_, hin⟩
    rw [hmap]
    refine mem_erase.2 ⟨subset_withRest hm, fun hkey => hout ?_⟩
    rw [← eq_of_key_eq hm hi hkey]
    exact hin.inRange (Entry.leafAt_size_pos _ hy)
  · rw [hmap]
    exact hapart.withRest hi hl

end Table

/-! ## Whole calls -/

section Calls

variable {s s' t : VMAR} {region : Segment} {i : PageMapping}

section

variable (hs : ∀ m ∈ s.mappings, m.Ranged) (hapart : Apart s.mappings)
include hs

include hapart in
theorem Swept.step_ranged {t' : VMAR} {next : Option PageMapping} (h : Swept region s (some i) t)
    (hb : unmapBody region i t = .ok (next, t')) : Swept region s next t' :=
  h.step (fun m hm _ => hs m hm) (fun _ hm hov hr => h.rest_mem hs hapart hm hov hr) hb

include hapart in
theorem unmap_swept (h : s.unmap region = .ok s') : Swept region s none s' :=
  sweep_inv (fun _ _ _ _ hJ hb => hJ.step_ranged hs hapart hb) _ _ s s' (Swept.start region s) h

/-- Only mappings of `s` overlap the region. -/
theorem Swept.old (h : Swept region s it t) (hi : i ∈ t.mappings) (hov : Overlaps region i) :
    i ∈ s.mappings := by
  rcases h.source i hi with his | ⟨i', hi', hov', hr, rfl⟩
  · exact his
  · exact absurd hov (rest_not_overlaps hov' (hs i' hi') hr)

theorem Swept.vpn_lt (h : Swept region s it t) (hi : i ∈ t.mappings) : i.vpn < 2 ^ 64 := by
  rcases h.source i hi with his | ⟨i', hi', hov', hr, rfl⟩
  · have := (hs i his).fit
    omega
  · have := (hs i' hi').fit
    have := (hs i' hi').vend_eq
    change region.r + 1 < 2 ^ 64
    omega

end

/-- What `unmap` needs for its calls on the page table, of the mappings that the region overlaps,
and of the leaves of their pages and of the region's. -/
structure Clean (s : VMAR) (region : Segment) : Prop where
  sound : Sound s.pagetable
  housed : ∀ m ∈ s.mappings, Overlaps region m → m.Housed
  right : ∀ m ∈ s.mappings, Overlaps region m →
    m.vmo.IsPaged ∨ m.vend ≤ region.r ∨ m.offset = 0 ∧ m.len = m.vmo.len
  covers : CoversOn (s.Zone region) s.mappings (leafAt s.pagetable)

theorem unmap_total (hs : ∀ m ∈ s.mappings, m.Ranged) (hapart : Apart s.mappings)
    (hclean : s.Clean region) (hleft : ∀ m ∈ s.mappings, Overlaps region m → region.l ≤ m.vpn) :
    ∃ s', s.unmap region = .ok s' ∧ CoversOn (s.Zone region) s'.mappings (leafAt s'.pagetable) := by
  let J : Option PageMapping → VMAR → Prop := fun it t => Swept region s it t ∧
    Sound t.pagetable ∧ CoversOn (s.Zone region) t.mappings (leafAt t.pagetable) ∧ Apart t.mappings
  have hbody : ∀ i t, J (some i) t → ∃ next t', VMAR.unmapBody region i t = .ok (next, t') ∧
      J next t' ∧ ∀ j, next = some j → i.vpn < j.vpn := by
    rintro i t ⟨hswept, hsound, hc, hat⟩
    have hi := hswept.here i rfl
    by_cases hov : Overlaps region i
    · have his := hswept.old hs hi hov
      obtain ⟨next, t', hb, hsound', hc', hat', hlt⟩ := unmapBody_ok (fun _ h => h.1) hsound hc hat hi
        (hclean.housed i his hov) hov ⟨hleft i his hov, hclean.right i his hov⟩ fun v hv =>
          ⟨hv.2.trans_le (hclean.housed i his hov).fit, .inr ⟨i, his, hov, hv⟩⟩
      exact ⟨next, t', hb, ⟨hswept.step_ranged hs hapart hb, hsound', hc', hat'⟩, hlt⟩
    · have hb := unmapBody_skip (t := t) hov
      exact ⟨_, t, hb, ⟨hswept.step_ranged hs hapart hb, hsound, hc, hat⟩,
        fun j hj => lt_of_upperBound hj⟩
  obtain ⟨s', h, -, -, hc, -⟩ := sweep_total (fun i t hJ => hJ.1.vpn_lt hs (hJ.1.here i rfl)) hbody
    (2 ^ 64) s.mappings.first s ⟨Swept.start region s, hclean.sound, hclean.covers, hapart⟩
    fun j _ => Nat.le_add_left _ _
  exact ⟨s', h, hc⟩

/-- **`unmap` removes exactly its region** if and only if the region does not start inside a
mapping: the mappings whenever it returns; and it returns, and removes the translations, if the
mappings in question lie in the 2 ^ 27 pages and nothing else is translated there. -/
theorem unmap_removes (hs : ∀ m ∈ s.mappings, m.Ranged) (hapart : Apart s.mappings) :
    (∀ s', s.unmap region = .ok s' → (s.Restricted s' region ↔
      ∀ m ∈ s.mappings, Overlaps region m → region.l ≤ m.vpn)) ∧
    (s.Clean region → ((∃ s', s.unmap region = .ok s' ∧ s.Removed s' region) ↔
      ∀ m ∈ s.mappings, Overlaps region m → region.l ≤ m.vpn)) := by
  have hmaps : ∀ s', s.unmap region = .ok s' → (s.Restricted s' region ↔
      ∀ m ∈ s.mappings, Overlaps region m → region.l ≤ m.vpn) := by
    intro s' h
    have hswept := unmap_swept hs hapart h
    constructor
    · intro hres m hm hov
      by_contra hlt
      -- the first page of `m` is before the region and mapped no more
      have hbounds := overlaps_bounds hov (hs m hm)
      have hfirst := (hs m hm).first
      have hshows := (hres m.vpn (m.pageAt m.vpn)).2
        ⟨⟨m, hm, hfirst, rfl⟩, fun hin => hlt hin.1⟩
      obtain ⟨m', hm', hin, -, hbehind⟩ := (hswept.shows hs).1 hshows
      obtain rfl := hapart m' hm' m hm _ hin hfirst
      have := hbehind hov
      omega
    · intro hleft v info
      rw [hswept.shows hs]
      constructor
      · rintro ⟨m, hm, hin, hinfo, hbehind⟩
        refine ⟨⟨m, hm, hin, hinfo⟩, fun hreg => ?_⟩
        have hov := (hs m hm).overlaps_iff.2 ⟨v, hin, hreg⟩
        exact Nat.not_lt.2 hreg.2 (hbehind hov)
      · rintro ⟨⟨m, hm, hin, hinfo⟩, hout⟩
        refine ⟨m, hm, hin, hinfo, fun hov => ?_⟩
        have hge := (hleft m hm hov).trans hin.1
        exact Nat.not_le.1 fun hle => hout ⟨hge, hle⟩
  refine ⟨hmaps, fun hclean => ⟨fun ⟨s', h, hremoved⟩ => (hmaps s' h).1 hremoved.restricted, ?_⟩⟩
  intro hleft
  obtain ⟨s', h, hc⟩ := unmap_total hs hapart hclean hleft
  refine ⟨s', h, (hmaps s' h).2 hleft, fun v hv hl hr p htrans => ?_⟩
  obtain ⟨x, hx, -⟩ := trans_eq_ok.1 htrans
  obtain ⟨m, hm, hin⟩ := hc v x ⟨hv, .inl ⟨hl, hr⟩⟩ hx
  have hinm := hin.inRange (Entry.leafAt_size_pos _ hx)
  have hswept := unmap_swept hs hapart h
  rcases hswept.source m hm with hms | ⟨i, hi, hov, -, rfl⟩
  · exact hswept.gone hm ((hs m hms).overlaps_iff.2 ⟨v, hinm, hl, hr⟩)
  · exact Nat.not_lt.2 hr ((rest_inRange (overlaps_bounds hov (hs i hi)).1).1 hinm).2

end Calls

def lone : VMAR := ⟨KeyedSet.empty.insert tenPages, createPTNode⟩

theorem lone_mem (h : m ∈ lone.mappings) : m = tenPages := by
  rcases KeyedSet.mem_of_mem_insert h with rfl | h
  · rfl
  · exact absurd h (KeyedSet.not_mem_empty m)

theorem lone_member : tenPages ∈ lone.mappings :=
  KeyedSet.mem_insert_self fun b hb => absurd hb (KeyedSet.not_mem_empty b)

theorem lone_proper : lone.Proper := by
  refine ⟨fun m hm => ?_, fun m hm m' hm' _ _ _ => (lone_mem hm).trans (lone_mem hm').symm,
    createPTNode_sound, fun v y _ hy => ?_⟩
  · rw [lone_mem hm]
    exact ⟨by decide, by decide, by decide, by decide⟩
  · cases hy

/-- A region that starts before the mapping and ends in it. -/
theorem unmap_removes_head : ∃ s', lone.unmap ⟨5, 13⟩ = .ok s' ∧ lone.Removed s' ⟨5, 13⟩ := by
  refine ((unmap_removes lone_proper.ranged lone_proper.apart).2 ⟨lone_proper.sound,
    fun m hm _ => lone_proper.housed m hm, fun m hm _ => .inl ?_,
    fun v y hz => lone_proper.covers v y hz.1⟩).2 fun m hm _ => ?_
  · rw [lone_mem hm]
    exact trivial
  · rw [lone_mem hm]
    decide

/-- **The part before the region is lost**: page 10 is mapped no more when pages 12 and 13 are
unmapped. -/
theorem not_unmap_removes :
    lone.Proper ∧ ¬∃ s', lone.unmap ⟨12, 13⟩ = .ok s' ∧ lone.Removed s' ⟨12, 13⟩ := by
  refine ⟨lone_proper, ?_⟩
  rintro ⟨s', h, hremoved⟩
  have hrun : ((lone.unmap ⟨12, 13⟩).toOption.map fun s => s.mappings.elems.map (·.vpn)) =
      some [14] := by
    decide +kernel
  rw [h] at hrun
  have hkeys : s'.mappings.elems.map (·.vpn) = [14] := Option.some.inj hrun
  obtain ⟨m', hm', hin, -⟩ := (hremoved.restricted 10 (tenPages.pageAt 10)).2
    ⟨⟨tenPages, lone_member, by decide, rfl⟩, by decide⟩
  have hkey : m'.vpn ∈ s'.mappings.elems.map (·.vpn) := List.mem_map_of_mem hm'
  rw [hkeys] at hkey
  have h14 : m'.vpn = 14 := List.mem_singleton.1 hkey
  have h10 := hin.1
  omega

/-! ## The search for a mapping -/

/-- **`find` agrees with the scan** over mappings that have pages and share none. -/
theorem find_agrees {s : VMAR} (hne : s.mappings.elems ≠ [])
    (hfit : ∀ m ∈ s.mappings, 0 < m.len ∧ m.vpn + m.len ≤ 2 ^ 64) (hapart : Apart s.mappings)
    (addr : Nat) : ∃ found, s.find (addr2pn addr) = .ok found ∧
      (∀ m, found = some m ↔ m ∈ s.mappings ∧ InRange m.vpn m.len (addr2pn addr)) ∧
      (found.isSome ↔ s.contains (addr2pn addr)) := by
  generalize addr2pn addr = v
  have hc : ∀ m ∈ s.mappings, (m.contains v = true ↔ InRange m.vpn m.len v) :=
    fun m hm => contains_iff (hfit m hm).1 (hfit m hm).2
  have hscan : s.contains v = true ↔ ∃ m ∈ s.mappings, InRange m.vpn m.len v :=
    List.any_eq_true.trans (exists_congr fun m => and_congr_right (hc m))
  rw [hscan]
  by_cases h : ∃ m ∈ s.mappings, InRange m.vpn m.len v
  · obtain ⟨m, hm, hv⟩ := h
    refine ⟨some m, find_eq hm ((hc m hm).2 hv) ?_, fun m' => ?_, fun _ => ⟨m, hm, hv⟩, fun _ => rfl⟩
    · -- a mapping that starts between `m` and the page would share its first page with `m`
      intro m' hm' hle
      have hpos := (hfit m' hm').1
      by_contra hlt
      have := hapart m' hm' m hm m'.vpn ⟨le_rfl, by omega⟩ ⟨by omega, hle.trans_lt hv.2⟩
      exact hlt (this ▸ le_rfl)
    · rw [Option.some_inj]
      exact ⟨fun he => he ▸ ⟨hm, hv⟩, fun h => hapart m hm m' h.1 v hv h.2⟩
  · have hnone : ∀ m ∈ s.mappings, ¬InRange m.vpn m.len v := fun m hm hv => h ⟨m, hm, hv⟩
    obtain ⟨b, hb⟩ : ∃ b, (s.mappings.lastLe v).or s.mappings.first = some b := by
      obtain ⟨a, l, hl⟩ := List.exists_cons_of_ne_nil hne
      cases s.mappings.lastLe v with
      | none => exact ⟨a, congrArg List.head? hl⟩
      | some b => exact ⟨b, rfl⟩
    have hfind : s.find v = .ok (if b.contains v then some b else none) := by
      unfold find
      rw [hb]
    refine ⟨none, ?_, fun m => ⟨nofun, fun hm => absurd hm.2 (hnone m hm.1)⟩, nofun, fun hv => absurd hv h⟩
    rw [hfind]
    split
    · rename_i hcb
      rw [if_pos hcb] at hfind
      obtain ⟨hm, hv⟩ := find_mem hfind
      exact absurd ((hc b hm).1 hv) (hnone b hm)
    · rfl

theorem find_agrees_lone : lone.mappings.elems ≠ [] ∧ lone.find 10 = .ok (some tenPages) := by
  have hne : lone.mappings.elems ≠ [] := by decide
  obtain ⟨found, hfind, h, -⟩ := find_agrees hne
    (fun m hm => lone_mem hm ▸ ⟨by decide, by decide⟩) lone_proper.apart (10 * 4096)
  rw [(h tenPages).2 ⟨lone_member, by decide⟩] at hfind
  exact ⟨hne, hfind⟩

end VMAR

end LuoOS.Vm
