import LuoOS.Lib.Runs
import LuoOS.Vm.Effects

/-!
# The page table agrees with the mappings

`mappings` says what an address space is to translate and `pagetable` what it does. The five
operations that change them are the steps of a machine, from an empty address space on. They agree
as long as no operation cuts a mapping in a way the code does not support: `protect` drops the part
before its region, whose key is still taken, but leaves its pages in the page table; a slice of a
contiguous VMO is mapped with all pages of the VMO; and `createMapping` looks at 27 bits of a page
number and takes an entry with only the valid bit for a node.
-/

namespace LuoOS.Vm

open Translation KeyedSet PageMapping

variable {s s' : VMAR}

namespace VMAR

/-! ## Runs -/

/-- The operations on an address space. -/
inductive Op where
  | map (m : PageMapping)
  | unmap (region : Segment)
  | protect (region : Segment) (perm : Perm)
  | pfhandler (vpn : Nat)
  | reset

def step (s : VMAR) : Op → Kern VMAR
  | .map m => s.map m
  | .unmap region => s.unmap region
  | .protect region perm => s.protect region perm
  | .pfhandler vpn => s.pfhandler vpn
  | .reset => s.reset

/-- What the caller has to see to: a new mapping overlaps none that is there and lies within its
VMO, and a page fault is handled for a page that is mapped. -/
def Legal (s : VMAR) : Op → Prop
  | .map m =>
    (∀ m' ∈ s.mappings, (m'.vsegment.inter m.vsegment).nonempty = false) ∧
      m.offset + m.len ≤ m.vmo.len
  | .pfhandler vpn => ∃ m ∈ s.mappings, m.contains vpn = true
  | _ => True

/-- The address spaces that legal operations get to from the empty one on. -/
abbrev Reach (ok : VMAR → Op → Prop) : VMAR → Prop :=
  Runs.Reach step (fun s op => s.Legal op ∧ ok s op) (· = empty)

/-- **The page table agrees with the mappings**: a page that is translated is in exactly one
mapping, goes to the frame that the mapping's VMO has for it, and has the mapping's permission. -/
def Agrees (s : VMAR) : Prop :=
  ∀ v p, IsPage v → trans s.pagetable v = .ok p →
    ∃ m ∈ s.mappings, m.contains v = true ∧
      (∀ m' ∈ s.mappings, m'.contains v = true → m' = m) ∧
      p = m.frameOf v ∧ ∀ x, leafAt s.pagetable v = some x → x.perm = m.perm

def Overlaps (region : Segment) (m : PageMapping) : Prop :=
  (m.vsegment.inter region).nonempty = true
  deriving Decidable

/-- Operations on 27-bit pages with the permissions of a leaf or of no page. A contiguous VMO is
mapped whole and never keeps a right part, and `protect` does not start inside a mapping. -/
def Regular (s : VMAR) : Op → Prop
  | .map m =>
    0 < m.len ∧ m.vpn + m.len ≤ 2 ^ 27 ∧ m.perm.Ok ∧
      (m.vmo.IsPaged ∨ m.offset = 0 ∧ m.len = m.vmo.len)
  | .unmap region => ∀ m ∈ s.mappings, Overlaps region m → m.vmo.IsPaged ∨ m.vend ≤ region.r
  | .protect region perm =>
    (perm = {} ∨ perm.Ok) ∧
      ∀ m ∈ s.mappings, Overlaps region m →
        region.l ≤ m.vpn ∧ (m.vmo.IsPaged ∨ m.vend ≤ region.r)
  | _ => True

instance (s : VMAR) (op : Op) : Decidable (s.Legal op) := by
  unfold Legal
  split <;> infer_instance

instance (s : VMAR) (op : Op) : Decidable (s.Regular op) := by
  unfold Regular
  split <;> infer_instance

end VMAR

/-! ## The invariant -/

/-- A mapping with pages, and of all of a contiguous VMO. -/
structure PageMapping.Good (m : PageMapping) : Prop where
  plain : m.Plain
  pos : 0 < m.len
  whole : ¬m.vmo.IsPaged → m.len = m.vmo.len

theorem PageMapping.Ranged.overlaps_iff {m : PageMapping} (h : m.Ranged) {region : Segment} :
    VMAR.Overlaps region m ↔ ∃ v, InRange m.vpn m.len v ∧ region.l ≤ v ∧ v ≤ region.r := by
  have hpos := h.pos
  unfold VMAR.Overlaps Segment.nonempty Segment.inter vsegment InRange
  rw [h.vend_eq, decide_eq_true_iff]
  dsimp only
  constructor
  · intro hle
    exact ⟨max m.vpn region.l, by omega⟩
  · omega

/-- A paged mapping is written page by page, and a contiguous one that is whole too. -/
theorem PageMapping.span_eq_len {m : PageMapping} (hpos : 0 < m.len)
    (h : m.vmo.IsPaged ∨ m.len = m.vmo.len) : m.span = m.len := by
  cases hv : m.vmo with
  | paged len frame hl hf => exact span_paged hv
  | contiguous ppn pages hp =>
    rw [hv] at h
    rw [span_contiguous hv hpos]
    exact (h.resolve_left fun h => h).symm

namespace PageMapping.Good

variable {m : PageMapping}

section

variable (h : m.Good)
include h

theorem span_eq : m.span = m.len :=
  span_eq_len h.pos (Decidable.or_iff_not_imp_left.2 h.whole)

theorem fit : m.vpn + m.len ≤ 2 ^ 27 := by
  rw [← h.span_eq]
  exact h.plain.fit

theorem vend_eq : m.vend = m.vpn + m.len - 1 := h.plain.vend_eq h.pos

theorem contains_iff {v : Nat} : m.contains v = true ↔ InRange m.vpn m.len v :=
  PageMapping.contains_iff h.pos (h.fit.trans (by decide))

theorem ranged : m.Ranged := h.plain.ranged h.pos

/-- What a good mapping is given on request: a run of its own pages, with their frames. -/
theorem req_run {idx : Nat} (hidx : idx < m.len) :
    ∃ off voff ppn pages, m.req idx = .ok (off, ppn, pages) ∧ xlen (off - m.offset) = voff ∧
      InRange voff pages idx ∧ voff + pages ≤ m.len ∧ ppn + pages ≤ 2 ^ 44 ∧
      ∀ v, InRange (m.vpn + voff) pages v → ppn + (v - (m.vpn + voff)) = m.frameOf v := by
  by_cases hpaged : m.vmo.IsPaged
  · obtain ⟨hreq, hvoff⟩ := req_paged hpaged h.plain.within hidx
    refine ⟨_, idx, _, 1, hreq, hvoff, ⟨le_rfl, Nat.lt_succ_self _⟩, hidx, frameOf_lt hpaged _, ?_⟩
    intro v hr
    obtain ⟨h1, h2⟩ := hr
    have heq : v = m.vpn + idx := by omega
    rw [heq, Nat.sub_self, Nat.add_zero]
  · have h0 := h.plain.start hpaged
    have hlen := h.whole hpaged
    cases hv : m.vmo with
    | paged len frame hl hf =>
      rw [hv] at hpaged
      exact absurd trivial hpaged
    | contiguous p n hp =>
      rw [hv] at hlen
      change m.len = n at hlen
      refine ⟨0, 0, p, n, ?_, ?_, ⟨Nat.zero_le _, by omega⟩, by omega, hp, fun v _ => ?_⟩
      · unfold req
        rw [hv]
        rfl
      · rw [h0]
        rfl
      · simp only [frameOf, hv, Vmo.frame, h0, Nat.zero_add, Nat.add_zero]

theorem slice {l r : Nat} (hl : m.vpn ≤ l) (hlr : l ≤ r) (hr : r ≤ m.vend) {p : Perm}
    (hp : p.Ok) (hpaged : m.vmo.IsPaged ∨ l = m.vpn ∧ r = m.vend) : (m.slice l r p).Good := by
  have hplain := slice_plain h.plain h.pos hl hlr hr hp (hpaged.imp_right And.left)
  refine ⟨hplain, Nat.sub_pos_of_lt (Nat.lt_succ_of_le hlr), fun hnp => ?_⟩
  have hpos := h.pos
  have hvend := h.vend_eq
  have hwhole : m.len = m.vmo.len := h.whole hnp
  obtain ⟨h1, h2⟩ := hpaged.resolve_left hnp
  unfold PageMapping.slice
  dsimp only
  omega

theorem rest {r : Nat} (hl : m.vpn ≤ r) (hr : r < m.vend) (hpaged : m.vmo.IsPaged) :
    (m.rest r).Good := by
  rw [h.ranged.rest_eq]
  exact h.slice (by omega) hr le_rfl h.plain.perm (.inl hpaged)

end

end PageMapping.Good

namespace VMAR

def AgreeOn (L : Nat → Option (Leaf Perm)) (ms : KeyedSet PageMapping vpn) : Prop :=
  ∀ v x, IsPage v → L v = some x →
    ∃ m ∈ ms, InRange m.vpn m.len v ∧ x.frame v = m.frameOf v ∧ x.perm = m.perm

/-- Good mappings share no page, and the table agrees with them. -/
structure Inv (s : VMAR) : Prop where
  sound : Sound s.pagetable
  good : ∀ m ∈ s.mappings, m.Good
  uniq : ∀ m ∈ s.mappings, ∀ m' ∈ s.mappings, ∀ v, InRange m.vpn m.len v →
    InRange m'.vpn m'.len v → m = m'
  agree : AgreeOn (leafAt s.pagetable) s.mappings

section AgreeOn

variable {L L' : Nat → Option (Leaf Perm)} {ms ms' : KeyedSet PageMapping vpn}

/-- Writing for a mapping that is there keeps the agreement. -/
theorem AgreeOn.write {a n : Nat} {f : Nat → Nat} {g : Option Perm} (h : AgreeOn L ms)
    (hw : Writes IsPage L L' a n f g) (hsub : ∀ m ∈ ms, m ∈ ms') (hm : ∀ v, InRange a n v →
      ∃ m ∈ ms', InRange m.vpn m.len v ∧ f v = m.frameOf v ∧ g = m.perm.grant) :
    AgreeOn L' ms' := by
  intro v x hv hx
  rcases hw.sound hv hx with ⟨hr, hframe, hg⟩ | ⟨-, y, hy, hframe, hperm⟩
  · obtain ⟨m, hmem, hmr, hf, hgm⟩ := hm v hr
    refine ⟨m, hmem, hmr, hframe.trans hf, ?_⟩
    exact Perm.grant_eq_some (hgm.symm.trans hg)
  · obtain ⟨m, hmem, hmr, hf, hp⟩ := h v y hv hy
    exact ⟨m, hsub m hmem, hmr, hframe.symm.trans hf, hperm.symm.trans hp⟩

theorem AgreeOn.clear {i : PageMapping} (h : AgreeOn L ms)
    (hc : Clears IsPage L L' i.vpn i.len) (hi : i ∈ ms) : AgreeOn L' (ms.erase i.vpn) := by
  intro v x hv hx
  by_cases hr : InRange i.vpn i.len v
  · rw [hc.cleared v hv hr] at hx
    cases hx
  rw [hc.kept v hv hr] at hx
  obtain ⟨m, hmem, hmr, hrest⟩ := h v x hv hx
  refine ⟨m, mem_erase.2 ⟨hmem, fun hkey => ?_⟩, hmr, hrest⟩
  have heq : m = i := eq_of_key_eq hmem hi hkey
  exact hr (heq ▸ hmr)

end AgreeOn

theorem Inv.agrees (h : s.Inv) : s.Agrees := by
  intro v p hv htrans
  obtain ⟨x, hx, hframe⟩ := trans_eq_ok.1 htrans
  obtain ⟨m, hm, hmr, hf, hp⟩ := h.agree v x hv hx
  refine ⟨m, hm, (h.good m hm).contains_iff.2 hmr, ?_, hframe.symm.trans hf, ?_⟩
  · intro m' hm' hc
    exact h.uniq m' hm' m hm v ((h.good m' hm').contains_iff.1 hc) hmr
  · intro y hy
    rw [hx] at hy
    cases hy
    exact hp

def Apart (ms : KeyedSet PageMapping vpn) : Prop :=
  ∀ m ∈ ms, ∀ m' ∈ ms, ∀ v, InRange m.vpn m.len v → InRange m'.vpn m'.len v → m = m'

theorem Inv.apart (h : s.Inv) : Apart s.mappings := h.uniq

theorem Inv.empty : VMAR.empty.Inv := by
  refine ⟨createPTNode_sound, ?_, ?_, ?_⟩
  · intro m hm
    exact absurd hm (not_mem_empty m)
  · intro m hm
    exact absurd hm (not_mem_empty m)
  · intro v x _ hx
    cases hx

/-! ## Replacing a mapping by parts of it -/

section Parts

variable {region : Segment} {perm : Perm} {ms ms' : KeyedSet PageMapping vpn}
  {i m : PageMapping} {r v : Nat}

theorem overlaps_le (hov : Overlaps region i) : max i.vpn region.l ≤ min i.vend region.r :=
  of_decide_eq_true hov

theorem overlaps_bounds (h : Overlaps region i) (hp : i.Ranged) :
    i.vpn ≤ region.r ∧ region.l ≤ region.r := by
  obtain ⟨v, hv, hl, hr⟩ := hp.overlaps_iff.1 h
  have := hv.1
  omega

theorem rest_not_overlaps (hov : Overlaps region i) (hp : i.Ranged) (hr : region.r < i.vend) :
    ¬Overlaps region (i.rest region.r) := by
  intro h
  have hl := (overlaps_bounds hov hp).1
  obtain ⟨v, hv, -, hle⟩ := (hp.rest hl hr).overlaps_iff.1 h
  exact Nat.not_lt.2 hle ((rest_inRange hl).1 hv).2

/-- Mappings stay apart when one of them is replaced by parts of it that are apart. -/
theorem Apart.parts {P : PageMapping → Prop} (h : Apart ms) (hi : i ∈ ms)
    (hmem : ∀ m ∈ ms', m ∈ ms ∧ m.vpn ≠ i.vpn ∨ P m)
    (hpart : ∀ m, P m → ∀ v, InRange m.vpn m.len v → InRange i.vpn i.len v)
    (hapart : ∀ m m' v, P m → P m' → InRange m.vpn m.len v → InRange m'.vpn m'.len v → m = m') :
    Apart ms' := by
  intro m hm m' hm' v hv hv'
  rcases hmem m hm with ⟨hold, hkey⟩ | hp
  · rcases hmem m' hm' with ⟨hold', -⟩ | hp'
    · exact h m hold m' hold' v hv hv'
    · have := h m hold i hi v hv (hpart m' hp' v hv')
      exact absurd (congrArg vpn this) hkey
  · rcases hmem m' hm' with ⟨hold', hkey'⟩ | hp'
    · have := h m' hold' i hi v hv' (hpart m hp v hv)
      exact absurd (congrArg vpn this) hkey'
    · exact hapart m m' v hp hp' hv hv'

theorem Apart.withRest (h : Apart ms) (hi : i ∈ ms) (hl : i.vpn ≤ r) :
    Apart ((withRest ms i r).erase i.vpn) := by
  refine h.parts (P := fun m => m = i.rest r) hi (fun m hm => ?_) ?_ ?_
  · obtain ⟨hm, hne⟩ := mem_erase.1 hm
    exact (mem_withRest hm).imp (fun hm => ⟨hm, hne⟩) And.right
  · rintro m rfl v hv
    exact ((rest_inRange hl).1 hv).1
  · rintro m m' v rfl rfl - -
    rfl

theorem Apart.insert (h : Apart ms)
    (hnew : ∀ m' ∈ ms, ∀ v, InRange m.vpn m.len v → ¬InRange m'.vpn m'.len v) :
    Apart (ms.insert m) := by
  intro a ha b hb v hva hvb
  rcases mem_of_mem_insert ha with rfl | ha'
  · rcases mem_of_mem_insert hb with rfl | hb'
    · rfl
    · exact absurd hvb (hnew b hb' v hva)
  · rcases mem_of_mem_insert hb with rfl | hb'
    · exact absurd hva (hnew a ha' v hvb)
    · exact h a ha' b hb' v hva hvb

def IsPart (region : Segment) (perm : Perm) (i m : PageMapping) : Prop :=
  m = i.recast region perm ∨ region.r < i.vend ∧ m = i.rest region.r

theorem recast_inRange (hp : i.Ranged) :
    InRange (i.recast region perm).vpn (i.recast region perm).len v ↔
      InRange i.vpn i.len v ∧ region.l ≤ v ∧ v ≤ region.r := by
  have hpos := hp.pos
  unfold recast
  rw [slice_inRange, hp.vend_eq]
  unfold InRange
  omega

section

variable (h : IsPart region perm i m) (hp : i.Ranged) (hov : Overlaps region i)
include h hp hov

/-- The pages of a part are pages of the mapping, behind the start of the region. -/
theorem IsPart.inRange (hv : InRange m.vpn m.len v) : InRange i.vpn i.len v ∧ region.l ≤ v := by
  obtain ⟨hl, hlr⟩ := overlaps_bounds hov hp
  rcases h with rfl | ⟨-, rfl⟩
  · obtain ⟨hin, hle, -⟩ := (recast_inRange hp).1 hv
    exact ⟨hin, hle⟩
  · obtain ⟨hin, hlt⟩ := (rest_inRange hl).1 hv
    exact ⟨hin, by omega⟩

theorem IsPart.first : InRange m.vpn m.len m.vpn := by
  have hle := overlaps_le hov
  rcases h with rfl | ⟨hr, rfl⟩
  · exact slice_inRange.2 ⟨le_rfl, hle⟩
  · exact (hp.rest (overlaps_bounds hov hp).1 hr).first

theorem IsPart.eq_recast (hm : Overlaps region m) : m = i.recast region perm := by
  rcases h with heq | ⟨hr, rfl⟩
  · exact heq
  · exact absurd hm (rest_not_overlaps hov hp hr)

end

theorem IsPart.eq_of_inRange {m' : PageMapping} (h : IsPart region perm i m)
    (h' : IsPart region perm i m') (hp : i.Ranged) (hov : Overlaps region i)
    (hv : InRange m.vpn m.len v) (hv' : InRange m'.vpn m'.len v) : m = m' := by
  have hl := (overlaps_bounds hov hp).1
  have hdisjoint : ∀ {v}, InRange (i.recast region perm).vpn (i.recast region perm).len v →
      ¬InRange (i.rest region.r).vpn (i.rest region.r).len v := fun hin hrest =>
    Nat.not_lt.2 ((recast_inRange hp).1 hin).2.2 ((rest_inRange hl).1 hrest).2
  rcases h with rfl | ⟨-, rfl⟩
  · rcases h' with rfl | ⟨-, rfl⟩
    · rfl
    · exact absurd hv' (hdisjoint hv)
  · rcases h' with rfl | ⟨-, rfl⟩
    · exact absurd hv (hdisjoint hv')
    · rfl

theorem rest_mem_of_only (hp : i.Ranged) (hl : i.vpn ≤ r) (hr : r < i.vend)
    (honly : ∀ b ∈ ms, InRange i.vpn i.len b.vpn → b = i) : i.rest r ∈ VMAR.withRest ms i r := by
  have hvend := hp.vend_eq
  refine rest_mem hr fun b hb hkey => ?_
  have heq := honly b hb ⟨by omega, by omega⟩
  rw [heq] at hkey
  omega

theorem splitChild_recast (hp : i.Ranged) (hov : Overlaps region i) (perm : Perm) :
    i.splitChild (i.vsegment.inter region) perm =
      i.recast region (if perm = {} then i.perm else perm) :=
  hp.splitChild_eq (Nat.le_max_left _ _) (overlaps_le hov) (Nat.min_le_left _ _) perm

end Parts

/-! ## `unmap` -/

section Unmap

variable {region : Segment} {s s' : VMAR} {i : PageMapping} {next : Option PageMapping}

def UnmapOk (region : Segment) (m : PageMapping) : Prop :=
  Overlaps region m → m.vmo.IsPaged ∨ m.vend ≤ region.r

/-- One round of `unmap` on a mapping that the region overlaps. -/
theorem unmapBody_mappings (hi : i ∈ t.mappings) (hp : i.Ranged) (hov : Overlaps region i)
    (hb : unmapBody region i t = .ok (next, t')) :
    next = (withRest t.mappings i region.r).upperBound i.vpn ∧
      t'.mappings = (withRest t.mappings i region.r).erase i.vpn := by
  have hle : max i.vpn region.l ≤ min i.vend region.r := of_decide_eq_true hov
  obtain ⟨-, t1, t2, table, hleft, hright, -, rfl, rfl⟩ :=
    (unmapBody_cases hb).resolve_right fun h => h.1 hov
  have hmap : t2.mappings = withRest t1.mappings i (min i.vend region.r) :=
    mapSlice_rest hp (by omega) (by omega) hright
  rw [mapSlice_first hi hleft, withRest_min] at hmap
  rw [hmap]
  exact ⟨rfl, rfl⟩

theorem unmapBody_skip (hov : ¬Overlaps region i) :
    unmapBody region i t = .ok (t.mappings.upperBound i.vpn, t) := by
  exact if_neg hov

/-- **One round of `unmap`.** The pages of the mapping are cleared after its slices were written,
so only the right part is left, with no page in the page table. -/
theorem Inv.unmapBody (h : s.Inv) (hi : i ∈ s.mappings)
    (hok : ∀ m ∈ s.mappings, UnmapOk region m) (hb : unmapBody region i s = .ok (next, s')) :
    (s'.Inv ∧ ∀ m ∈ s'.mappings, UnmapOk region m) ∧ ∀ j, next = some j → j ∈ s'.mappings := by
  have hg := h.good i hi
  rcases unmapBody_cases hb with
    ⟨hov, s1, s2, t, hleft, hright, hremove, rfl, rfl⟩ | ⟨-, rfl, rfl⟩
  · have hle := overlaps_le hov
    have hl := (overlaps_bounds hov hg.ranged).1
    have hvend := hg.vend_eq
    have hfit := hg.fit
    -- the left part is written but not inserted
    obtain ⟨hmap1, hs1, n, hn, -, -, hw1⟩ :=
      mapSlice_left (l := max i.vpn region.l) hi hg.plain hg.pos
      (by omega) (by omega) h.sound hleft
    rw [hg.span_eq] at hn
    have hagree1 : AgreeOn (leafAt s1.pagetable) s.mappings :=
      h.agree.write hw1 (fun m hm => hm) fun v hv =>
        ⟨i, hi, ⟨hv.1, hv.2.trans_le (by omega)⟩, rfl, rfl⟩
    -- the right part is written and inserted
    obtain ⟨hmap2, hs2, -, hw2⟩ := mapSlice_right (r := min i.vend region.r) hg.plain hg.pos
      (by omega) (by omega) hs1 ((hok i hi hov).imp_right fun hle => by omega) hright
    rw [hmap1, withRest_min] at hmap2
    have hi2 : i ∈ withRest s.mappings i region.r := subset_withRest hi
    have hagree2 : AgreeOn (leafAt s2.pagetable) (withRest s.mappings i region.r) := by
      refine hagree1.write hw2 (fun m hm => subset_withRest hm) fun v hv => ⟨i, hi2, ?_, rfl, rfl⟩
      unfold InRange at *
      omega
    obtain ⟨hs3, hc⟩ := remove_root hs2 hfit (by omega) hremove
    rw [hmap2]
    refine ⟨⟨⟨hs3, fun m hm => ?_, h.apart.withRest hi hl, hagree2.clear hc hi2⟩, fun m hm => ?_⟩,
      fun j hj => mem_erase_of_upperBound hj⟩
    · rcases mem_withRest (mem_erase.1 hm).1 with hm | ⟨hr, rfl⟩
      · exact h.good m hm
      · exact hg.rest hl hr ((hok i hi hov).resolve_right (Nat.not_le.2 hr))
    · rcases mem_withRest (mem_erase.1 hm).1 with hm | ⟨hr, rfl⟩
      · exact hok m hm
      · exact fun hov' => absurd hov' (rest_not_overlaps hov hg.ranged hr)
  · exact ⟨⟨h, hok⟩, fun j hj => upperBound_mem hj⟩

theorem Inv.unmap (h : s.Inv) (hok : ∀ m ∈ s.mappings, UnmapOk region m)
    (hr : s.unmap region = .ok s') : s'.Inv :=
  (sweep_keeps (P := fun s => s.Inv ∧ ∀ m ∈ s.mappings, UnmapOk region m)
    (fun _ _ _ _ h hi hb => h.1.unmapBody hi h.2 hb) ⟨h, hok⟩ hr).1

end Unmap

/-! ## `protect` -/

section Protect

variable {region : Segment} {perm : Perm} {s s' : VMAR} {i : PageMapping}
  {next : Option PageMapping}

def ProtectOk (region : Segment) (m : PageMapping) : Prop :=
  Overlaps region m → region.l ≤ m.vpn ∧ (m.vmo.IsPaged ∨ m.vend ≤ region.r)

theorem protectBody_mappings (hi : i ∈ s.mappings) (hp : i.Ranged) (hov : Overlaps region i)
    (hb : protectBody region perm i s = .ok (next, s')) :
    next = (withRest s.mappings i region.r).upperBound i.vpn ∧
      s'.mappings = ((withRest s.mappings i region.r).erase i.vpn).insert
        (i.recast region (if perm = {} then i.perm else perm)) := by
  have hle := overlaps_le hov
  obtain ⟨-, table, t1, t2, -, hleft, hright, hmap, rfl⟩ :=
    (protectBody_cases hb).resolve_right fun h => h.1 hov
  have hrest : t2.mappings = withRest t1.mappings i (min i.vend region.r) :=
    mapSlice_rest hp (by omega) (by omega) hright
  rw [mapSlice_first (s := { s with pagetable := table }) hi hleft, withRest_min] at hrest
  rw [map_mappings hmap, hrest, splitChild_recast hp hov]
  exact ⟨rfl, rfl⟩

/-- **One round of `protect`.** A mapping that does not begin before the region is replaced by the
part in the region, with the new permission, and the part behind it. -/
theorem Inv.protectBody (h : s.Inv) (hperm : perm = {} ∨ perm.Ok) (hi : i ∈ s.mappings)
    (hok : ∀ m ∈ s.mappings, ProtectOk region m)
    (hb : protectBody region perm i s = .ok (next, s')) :
    (s'.Inv ∧ ∀ m ∈ s'.mappings, ProtectOk region m) ∧ ∀ j, next = some j → j ∈ s'.mappings := by
  have hg := h.good i hi
  by_cases hov : Overlaps region i
  · have hp := hg.ranged
    have hle := overlaps_le hov
    have hl := (overlaps_bounds hov hp).1
    have hvend := hg.vend_eq
    have hfit := hg.fit
    obtain ⟨hstart, hwhole⟩ := hok i hi hov
    obtain ⟨hnext, hins⟩ := protectBody_mappings hi hp hov hb
    obtain ⟨-, t, s1, s2, hremove, hleft, hright, hmap, -⟩ :=
      (protectBody_cases hb).resolve_right fun h => h.1 hov
    obtain ⟨hs0, hc⟩ := remove_root h.sound hfit (by omega) hremove
    -- there is no left part
    obtain ⟨hmap1, hs1, n, -, hn, -, hw1⟩ := mapSlice_left (l := max i.vpn region.l)
      (s := { s with pagetable := t }) hi hg.plain hg.pos (by omega) (by omega) hs0 hleft
    rw [hn (by omega)] at hw1
    have hagree1 : AgreeOn (leafAt s1.pagetable) (s.mappings.erase i.vpn) :=
      (h.agree.clear hc hi).write hw1 (fun m hm => hm) fun v hv =>
        absurd hv.2 (Nat.not_lt.2 hv.1)
    -- the right part is written and inserted
    obtain ⟨-, hs2, -, hw2⟩ := mapSlice_right (r := min i.vend region.r) hg.plain hg.pos
      (by omega) (by omega) hs1 (hwhole.imp_right fun hle => by omega) hright
    have hagree2 : AgreeOn (leafAt s2.pagetable)
        ((withRest s.mappings i region.r).erase i.vpn) := by
      refine hagree1.write hw2 (fun m hm => ?_) fun v hv => ?_
      · obtain ⟨hm, hkey⟩ := mem_erase.1 hm
        exact mem_erase.2 ⟨subset_withRest hm, hkey⟩
      · have hlt := hv.1
        have hend := hv.2
        have hmem := rest_mem_of_only (r := region.r) hp hl (by omega) fun b hb hin =>
          h.uniq b hb i hi _ (h.good b hb).ranged.first hin
        refine ⟨_, mem_erase.2 ⟨hmem, Nat.ne_of_gt (Nat.lt_succ_of_le hl)⟩,
          (rest_inRange hl).2 ⟨⟨?_, ?_⟩, ?_⟩, (rest_frameOf hl ?_).symm, rfl⟩
        all_goals omega
    -- the part in the region takes the key of the mapping
    have hperm' : (if perm = {} then i.perm else perm).Ok := by
      split
      · exact hg.plain.perm
      · rename_i hne
        exact hperm.resolve_left hne
    rw [splitChild_recast hp hov] at hmap
    generalize (if perm = {} then i.perm else perm) = perm' at *
    have hgnew : (i.recast region perm').Good := hg.slice (Nat.le_max_left _ _) hle
      (Nat.min_le_left _ _) hperm' (hwhole.imp_right fun hle => ⟨by omega, by omega⟩)
    have hkey : (i.recast region perm').vpn = i.vpn := Nat.max_eq_left hstart
    obtain ⟨-, hs3, hw3⟩ := map_spec (s := ⟨s2.mappings.erase i.vpn, s2.pagetable⟩) hgnew.plain
      hs2 hmap
    rw [hgnew.span_eq] at hw3
    have hnew : i.recast region perm' ∈ s'.mappings := by
      rw [hins]
      exact mem_insert_self fun m hm => hkey ▸ (mem_erase.1 hm).2
    have hmem : ∀ m ∈ s'.mappings,
        (m ∈ s.mappings ∧ m.vpn ≠ i.vpn) ∨ IsPart region perm' i m := by
      intro m hm
      rw [hins] at hm
      rcases mem_of_mem_insert hm with heq | hm
      · exact .inr (.inl heq)
      obtain ⟨hm, hkey⟩ := mem_erase.1 hm
      exact (mem_withRest hm).imp (fun hm => ⟨hm, hkey⟩) .inr
    refine ⟨⟨⟨hs3, ?_, h.apart.parts hi hmem ?_ ?_, ?_⟩, ?_⟩, ?_⟩
    · intro m hm
      rcases hmem m hm with ⟨hm, -⟩ | rfl | ⟨hr, rfl⟩
      · exact h.good m hm
      · exact hgnew
      · exact hg.rest hl hr (hwhole.resolve_right (Nat.not_le.2 hr))
    · exact fun m hpart v hv => (hpart.inRange hp hov hv).1
    · exact fun m m' v hpart hpart' hv hv' => hpart.eq_of_inRange hpart' hp hov hv hv'
    · refine hagree2.write hw3 (fun m hm => hins ▸ subset_insert hm) fun v hv => ?_
      exact ⟨_, hnew, hv, rfl, rfl⟩
    · intro m hm
      rcases hmem m hm with ⟨hm, -⟩ | rfl | ⟨hr, rfl⟩
      · exact hok m hm
      · intro hov'
        have hend : (i.recast region perm').vend = min i.vend region.r := by
          rw [hgnew.vend_eq]
          exact Nat.sub_eq_of_eq_add (Nat.add_sub_cancel' (Nat.le_succ_of_le hle))
        exact ⟨hkey ▸ hstart, .inr (hend ▸ Nat.min_le_right _ _)⟩
      · exact fun hov' => absurd hov' (rest_not_overlaps hov hp hr)
    · intro j hj
      rw [hnext] at hj
      rw [hins]
      exact subset_insert (mem_erase_of_upperBound hj)
  · obtain ⟨-, rfl, rfl⟩ := (protectBody_cases hb).resolve_left fun h => hov h.1
    exact ⟨⟨h, hok⟩, fun j hj => upperBound_mem hj⟩

theorem Inv.protect (h : s.Inv) (hperm : perm = {} ∨ perm.Ok)
    (hok : ∀ m ∈ s.mappings, ProtectOk region m) (hr : s.protect region perm = .ok s') : s'.Inv :=
  (sweep_keeps (P := fun s => s.Inv ∧ ∀ m ∈ s.mappings, ProtectOk region m)
    (fun _ _ _ _ h hi hb => h.1.protectBody hperm hi h.2 hb) ⟨h, hok⟩ hr).1

end Protect

/-! ## `map`, `pfhandler` and `reset` -/

section Others

variable {s s' : VMAR} {m i : PageMapping} {next : Option PageMapping}

theorem Inv.map (h : s.Inv) (hlegal : s.Legal (.map m)) (hreg : s.Regular (.map m))
    (hmap : s.map m = .ok s') : s'.Inv := by
  obtain ⟨hover, hwithin⟩ := hlegal
  obtain ⟨hpos, hfit, hperm, hwhole⟩ := hreg
  have hspan : m.span = m.len := span_eq_len hpos (hwhole.imp_right And.right)
  have hg : m.Good := by
    refine ⟨⟨hspan.symm ▸ hfit, hwithin, hperm, ?_⟩, hpos, ?_⟩
    · intro hnp
      exact (hwhole.resolve_left hnp).1
    · intro hnp
      exact (hwhole.resolve_left hnp).2
  -- the new mapping has no page of another one
  have hapart : ∀ m' ∈ s.mappings, ∀ v, InRange m'.vpn m'.len v → ¬InRange m.vpn m.len v := by
    intro m' hm' v hv hv'
    have h1 := hover m' hm'
    have h2 := (h.good m' hm').vend_eq
    have h3 := hg.vend_eq
    unfold Segment.nonempty Segment.inter vsegment at h1
    have h4 := of_decide_eq_false h1
    dsimp only at h4
    unfold InRange at hv hv'
    omega
  have hfree : ∀ m' ∈ s.mappings, m'.vpn ≠ m.vpn := by
    intro m' hm' hkey
    have := (h.good m' hm').pos
    exact hapart m' hm' m'.vpn ⟨le_rfl, by omega⟩ ⟨by omega, by omega⟩
  obtain ⟨hins, hs, hw⟩ := map_spec hg.plain h.sound hmap
  have hself : m ∈ s'.mappings := hins ▸ mem_insert_self hfree
  refine ⟨hs, ?_, ?_, ?_⟩
  · intro m' hm'
    rw [hins] at hm'
    rcases mem_of_mem_insert hm' with rfl | hm'
    · exact hg
    · exact h.good m' hm'
  · rw [hins]
    exact h.apart.insert fun m' hm' v hv hv' => hapart m' hm' v hv' hv
  · refine h.agree.write hw (fun m' hm' => hins ▸ subset_insert hm') fun v hv => ?_
    exact ⟨m, hself, hspan ▸ hv, rfl, rfl⟩

variable {vpn : Nat}

theorem find_mem (h : s.find vpn = .ok (some m)) : m ∈ s.mappings ∧ m.contains vpn = true := by
  unfold find at h
  split at h
  · cases h
  rename_i m' hsome
  have hmem : m' ∈ s.mappings := by
    rcases Option.or_eq_some_iff.1 hsome with hlast | ⟨-, hfirst⟩
    · exact lastLe_mem hlast
    · exact first_mem hfirst
  split at h
  · rename_i hc
    cases h
    exact ⟨hmem, hc⟩
  · cases h

theorem find_eq (hm : m ∈ s.mappings) (hc : m.contains vpn = true)
    (hlast : ∀ m' ∈ s.mappings, m'.vpn ≤ vpn → m'.vpn ≤ m.vpn) : s.find vpn = .ok (some m) := by
  have hle : m.vpn ≤ vpn := of_decide_eq_true (Bool.and_eq_true_iff.1 hc).1
  unfold find
  rw [lastLe_eq hm hle hlast]
  exact congrArg Except.ok (if_pos hc)

/-- A page fault writes pages of the mapping that is found, the one that faulted among them. -/
theorem pfhandler_writes (hs : Sound s.pagetable) (hfind : s.find vpn = .ok (some m))
    (hg : m.Good) (hin : InRange m.vpn m.len vpn) :
    ∃ table a n, s.pfhandler vpn = .ok { s with pagetable := table } ∧ Sound table ∧
      Writes IsPage (leafAt s.pagetable) (leafAt table) a n m.frameOf m.perm.grant ∧ m.vpn ≤ a ∧
        a + n ≤ m.vpn + m.len ∧ InRange a n vpn := by
  obtain ⟨h1, h2⟩ := hin
  have hfit := hg.fit
  obtain ⟨off, voff, ppn, pages, hreq, hvoff, ⟨hle, hlt⟩, hend, hppn, hframe⟩ :=
    hg.req_run (show vpn - m.vpn < m.len by omega)
  obtain ⟨table, hcreate, hs', hw⟩ :=
    create_total (m.vpn + voff) hs hg.plain.perm (by omega) (by omega) hppn
  refine ⟨table, m.vpn + voff, pages, ?_, hs', hw.congr hframe, by omega, by omega, by omega,
    by omega⟩
  unfold pfhandler
  rw [hfind, ok_bind]
  dsimp only
  rw [xlen_sub h1 (by omega), hreq, ok_bind]
  dsimp only
  rw [hvoff, xlen_add (by omega), hcreate]
  rfl

/-- **A page fault.** -/
theorem Inv.pfhandler (h : s.Inv) (hpf : s.pfhandler vpn = .ok s') : s'.Inv := by
  obtain ⟨found, hfind, hfound⟩ := bind_eq_ok hpf
  cases found with
  | none => cases hfound
  | some m =>
    obtain ⟨hm, hc⟩ := find_mem hfind
    have hg := h.good m hm
    obtain ⟨table, a, n, hok, hs, hw, ha, hn, -⟩ :=
      pfhandler_writes h.sound hfind hg (hg.contains_iff.1 hc)
    rw [hpf] at hok
    cases hok
    refine ⟨hs, h.good, h.uniq, h.agree.write hw (fun m hm => hm) fun v hv => ?_⟩
    exact ⟨m, hm, ⟨ha.trans hv.1, hv.2.trans_le hn⟩, rfl, rfl⟩

/-- **One round of `reset`.** -/
theorem Inv.resetBody (h : s.Inv) (hi : i ∈ s.mappings) (hb : resetBody i s = .ok (next, s')) :
    s'.Inv ∧ ∀ j, next = some j → j ∈ s'.mappings := by
  have hg := h.good i hi
  have hfit := hg.fit
  have hpos := hg.pos
  unfold VMAR.resetBody at hb
  split at hb
  · cases hb
    exact ⟨h, fun j hj => upperBound_mem hj⟩
  obtain ⟨t, hremove, hb⟩ := bind_eq_ok hb
  cases hb
  obtain ⟨hs, hc⟩ := remove_root h.sound hfit (by omega) hremove
  refine ⟨⟨hs, ?_, ?_, h.agree.clear hc hi⟩, ?_⟩
  · intro m hm
    exact h.good m (mem_erase.1 hm).1
  · intro m hm m' hm'
    exact h.uniq m (mem_erase.1 hm).1 m' (mem_erase.1 hm').1
  · intro j hj
    exact mem_erase_of_upperBound hj

theorem Inv.reset (h : s.Inv) (hr : s.reset = .ok s') : s'.Inv :=
  sweep_keeps (fun _ _ _ _ h hi hb => h.resetBody hi hb) h hr

end Others

/-! ## Every run -/

theorem Inv.step {op : Op} (h : s.Inv) (hlegal : s.Legal op) (hreg : s.Regular op)
    (hstep : s.step op = .ok s') : s'.Inv := by
  cases op with
  | map m => exact h.map hlegal hreg hstep
  | unmap region => exact h.unmap hreg hstep
  | protect region perm => exact h.protect hreg.1 hreg.2 hstep
  | pfhandler vpn => exact h.pfhandler hstep
  | reset => exact h.reset hstep

/-- **In a run of regular operations the page table agrees with the mappings**, in every state. -/
theorem agrees_of_regular {s : VMAR} (h : Reach Regular s) : s.Agrees :=
  (h.invariant Inv (by rintro _ rfl; exact Inv.empty)
    fun _ _ _ hi hok hstep => hi.step hok.1 hok.2 hstep).agrees

def tenPages : PageMapping :=
  { vpn := 10, len := 10, offset := 0
    vmo := .paged 10 (fun i => 256 + i % 16) (by decide) fun i => by
      have := Nat.mod_lt i (y := 16) (by decide)
      omega
    perm := { v := true, r := true, w := true, u := true } }

/-- Unmapping the middle of the ten pages and touching one behind it is a regular run. -/
theorem agrees_unmap : ∃ s, Reach Regular s ∧ trans s.pagetable 18 = .ok 264 ∧ s.Agrees := by
  obtain ⟨s, -, hr, htrans⟩ := Runs.exists_reach step (fun s op => s.Legal op ∧ s.Regular op)
    [.map tenPages, .unmap ⟨15, 17⟩, .pfhandler 18] (I := (· = empty)) rfl
    (fun s => (trans s.pagetable 18).toOption = some 264) (by decide +kernel)
  exact ⟨s, hr, toOption_eq_some.1 htrans, agrees_of_regular hr⟩

/-- **Protecting pages 15 to 17 of the ten pages loses the mapping of the five before them**: page
10 is still translated and in no mapping. -/
theorem not_agrees : ¬∀ s, Reach (fun _ _ => True) s → s.Agrees := by
  intro h
  obtain ⟨s, -, hr, htrans, hnone⟩ := Runs.exists_reach step (fun s op => s.Legal op ∧ True)
    [.map tenPages, .protect ⟨15, 17⟩ { v := true, r := true, u := true }] (I := (· = empty)) rfl
    (fun s => (trans s.pagetable 10).toOption = some 256 ∧
      ∀ m ∈ s.mappings.elems, m.contains 10 = false) (by decide +kernel)
  obtain ⟨m, hm, hc, -⟩ := h s hr 10 256 (by unfold IsPage; omega) (toOption_eq_some.1 htrans)
  rw [hnone m hm] at hc
  cases hc

end VMAR

end LuoOS.Vm
