import LuoOS.Vm.Vmar

/-!
# What the operations on an address space do to the page table

The virtual pages of Sv39 have 27 bits. For ranges of such pages the root of the page table is
written by `map` and its slices as `createMapping` says, and cleared by `removeMapping`.
-/

namespace LuoOS.Vm

open Translation KeyedSet PageMapping

def IsPage (v : Nat) : Prop := v < 2 ^ 27

/-! ## The root -/

section ModEq

variable {level a b : Nat}

theorem index_of_modEq (h : a ≡ b [MOD bigPageSize (level + 1)]) : index level a = index level b := by
  unfold index
  rw [Fin.mk.injEq, ← Nat.mod_mul_right_div_self, ← Nat.mod_mul_right_div_self, ← bigPageSize_succ]
  exact congrArg (· / bigPageSize level) h

theorem modEq_of_succ (h : a ≡ b [MOD bigPageSize (level + 1)]) : a ≡ b [MOD bigPageSize level] :=
  h.of_dvd (bigPageSize_dvd (Nat.le_succ level))

/-- A node is only told the page in its block. -/
theorem createMapping_modEq : ∀ (level : Nat) (table : Table level) (a b ppn pages : Nat)
    (perm : Perm), a ≡ b [MOD bigPageSize (level + 1)] →
    createMapping level table a ppn pages perm = createMapping level table b ppn pages perm := by
  intro level
  induction level with
  | zero =>
    intro table a b ppn pages perm h
    unfold createMapping
    rw [index_of_modEq h]
  | succ level ih =>
    intro table a b ppn pages perm h
    have hlow : a % bigPageSize (level + 1) = b % bigPageSize (level + 1) := modEq_of_succ h
    have hpart : unalignedPart (bigPageSize (level + 1)) a pages =
        unalignedPart (bigPageSize (level + 1)) b pages := by
      unfold unalignedPart
      rw [hlow]
    unfold createMapping
    dsimp only
    rw [hpart, hlow]
    generalize unalignedPart (bigPageSize (level + 1)) b pages = part
    generalize (pages - part) / bigPageSize (level + 1) = whole
    generalize pages - part - whole * bigPageSize (level + 1) = rest
    have hend := (h.add_right part).add_right (whole * bigPageSize (level + 1))
    have hbase : a - b % bigPageSize (level + 1) ≡ b - b % bigPageSize (level + 1)
        [MOD bigPageSize (level + 1)] := by
      have ha := (block_base (level + 1) a).2
      rw [hlow] at ha
      exact ha.trans (block_base (level + 1) b).2.symm
    -- the calls for the node below agree
    have hpush := fun (prevppn : Nat) (prevPerm : Perm) =>
      ih createPTNode _ _ prevppn (b % bigPageSize (level + 1)) prevPerm hbase
    have hcreate := fun (sub : Table level) => ih sub _ _ ppn part perm (modEq_of_succ h)
    have hpush' := fun (prevppn : Nat) (prevPerm : Perm) =>
      ih createPTNode _ _ (prevppn + rest) (bigPageSize (level + 1) - rest) prevPerm
        (modEq_of_succ (hend.add_right rest))
    have hcreate' := fun (sub : Table level) =>
      ih sub _ _ (ppn + part + whole * bigPageSize (level + 1)) rest perm (modEq_of_succ hend)
    unfold mapInto
    simp only [hpush, hcreate, hpush', hcreate', index_of_modEq h, index_of_modEq (h.add_right part),
      index_of_modEq hend]

end ModEq

section Root

variable {table table' : Table 2} {vpn ppn pages : Nat} {perm : Perm}

theorem block_root (h : vpn < 2 ^ 27) :
    (fun v => v / bigPageSize 3 = vpn / bigPageSize 3) = IsPage := by
  have hsize : bigPageSize 3 = 2 ^ 27 := rfl
  funext v
  rw [hsize, Nat.div_eq_of_lt h, IsPage, Nat.div_eq_zero_iff]
  simp

theorem fit_root (h : vpn + pages ≤ 2 ^ 27) (hvpn : vpn < 2 ^ 27) :
    vpn % bigPageSize 3 + pages ≤ bigPageSize 3 := by
  have hsize : bigPageSize 3 = 2 ^ 27 := rfl
  rw [hsize, Nat.mod_eq_of_lt hvpn]
  exact h

theorem create_total (vpn : Nat) (hs : Sound table) (hok : perm.Ok) (hfit : vpn + pages ≤ 2 ^ 27)
    (hvpn : vpn < 2 ^ 27) (hppn : ppn + pages ≤ 2 ^ 44) :
    ∃ table', createMapping 2 table vpn ppn pages perm = .ok table' ∧ Sound table' ∧
      Writes IsPage (leafAt table) (leafAt table') vpn pages (fun v => ppn + (v - vpn))
        perm.grant := by
  have hspec := createMapping_spec 2 table vpn ppn pages perm hs hok ⟨fit_root hfit hvpn, hppn⟩
  rw [Created, block_root hvpn] at hspec
  exact hspec

theorem remove_root (hs : Sound table) (hfit : vpn + pages ≤ 2 ^ 27) (hvpn : vpn < 2 ^ 27)
    (h : removeMapping 2 table vpn pages = .ok table') :
    Sound table' ∧ Clears IsPage (leafAt table) (leafAt table') vpn pages := by
  obtain ⟨hs', hc⟩ := removeMapping_clears 2 table vpn pages table' (fit_root hfit hvpn) h
  rw [block_root hvpn] at hc
  exact ⟨hs' hs, hc⟩

end Root

theorem Perm.grant_eq_some {p q : Perm} (h : p.grant = some q) : q = p := by
  unfold grant at h
  split at h
  · cases h
    rfl
  · cases h

/-! ## Mappings that fit -/

theorem Vmo.len_lt (vmo : Vmo) : vmo.len < 2 ^ 64 := by
  cases vmo with
  | paged len frame hl hf => exact hl
  | contiguous ppn pages hp =>
    simp only [len]
    omega

variable {m : PageMapping} {r l : Nat}

namespace PageMapping

def span (m : PageMapping) : Nat :=
  if m.len = 0 then 0
  else
    match m.vmo with
    | .paged _ _ _ _ => m.len
    | .contiguous _ pages _ => pages

theorem span_paged {len : Nat} {frame : Nat → Nat} {hl : len < 2 ^ 64}
    {hf : ∀ i, frame i < 2 ^ 44} (hv : m.vmo = .paged len frame hl hf) : m.span = m.len := by
  unfold span
  rw [hv]
  split
  · rename_i h
    exact h.symm
  · rfl

theorem span_of_isPaged (h : m.vmo.IsPaged) : m.span = m.len := by
  cases hv : m.vmo with
  | paged len frame hl hf => exact span_paged hv
  | contiguous ppn pages hp =>
    rw [hv] at h
    cases h

theorem span_contiguous {ppn pages : Nat} {hp : ppn + pages ≤ 2 ^ 44}
    (hv : m.vmo = .contiguous ppn pages hp) (hpos : 0 < m.len) : m.span = pages := by
  unfold span
  rw [hv, if_neg (Nat.pos_iff_ne_zero.1 hpos)]

def frameOf (m : PageMapping) (v : Nat) : Nat := m.vmo.frame (m.offset + (v - m.vpn))

def rest (m : PageMapping) (r : Nat) : PageMapping :=
  { m with vpn := r + 1, len := m.vpn + m.len - (r + 1), offset := m.offset + (r + 1 - m.vpn) }

def slice (m : PageMapping) (a b : Nat) (perm : Perm) : PageMapping :=
  { m with vpn := a, len := b + 1 - a, offset := m.offset + (a - m.vpn), perm := perm }

def recast (m : PageMapping) (region : Segment) (perm : Perm) : PageMapping :=
  m.slice (max m.vpn region.l) (min m.vend region.r) perm

/-- A mapping with pages whose bounds do not wrap around. -/
structure Ranged (m : PageMapping) : Prop where
  pos : 0 < m.len
  fit : m.vpn + m.len < 2 ^ 64
  within : m.offset + m.len ≤ 2 ^ 64

section

variable {m : PageMapping} {a b r v : Nat}

theorem contains_iff (hpos : 0 < m.len) (hfit : m.vpn + m.len ≤ 2 ^ 64) :
    m.contains v = true ↔ InRange m.vpn m.len v := by
  unfold contains vend xlen InRange
  rw [Bool.and_eq_true, decide_eq_true_iff, decide_eq_true_iff]
  omega

section

variable (h : m.Ranged)
include h

theorem Ranged.vend_eq : m.vend = m.vpn + m.len - 1 := by
  have hpos := h.pos
  have hfit := h.fit
  unfold vend xlen
  omega

theorem Ranged.first : InRange m.vpn m.len m.vpn := by
  have hpos := h.pos
  exact ⟨le_rfl, by omega⟩

/-- `splitChild` for pages of the mapping. -/
theorem Ranged.splitChild_eq (ha : m.vpn ≤ a) (hab : a ≤ b) (hb : b ≤ m.vend) (perm : Perm) :
    m.splitChild ⟨a, b⟩ perm = m.slice a b (if perm = {} then m.perm else perm) := by
  have hpos := h.pos
  have hfit := h.fit
  have hwithin := h.within
  have hvend := h.vend_eq
  have hlength : Segment.length ⟨a, b⟩ = b + 1 - a := by
    unfold Segment.length xlen
    dsimp only
    omega
  have hoff : xlen (m.offset + (a : Int) - m.vpn) = m.offset + (a - m.vpn) := by
    unfold xlen
    omega
  unfold splitChild slice
  rw [hlength, hoff]

theorem Ranged.rest_eq : m.rest r = m.slice (r + 1) m.vend m.perm := by
  have hpos := h.pos
  unfold rest slice
  rw [h.vend_eq, Nat.sub_add_cancel (by omega)]

theorem Ranged.splitChild_rest (hl : m.vpn ≤ r) (hr : r < m.vend) :
    m.splitChild ⟨r + 1, m.vend⟩ = m.rest r := by
  rw [h.splitChild_eq (by omega) hr le_rfl, if_pos rfl, h.rest_eq]

end

theorem slice_inRange {perm : Perm} :
    InRange (m.slice a b perm).vpn (m.slice a b perm).len v ↔ a ≤ v ∧ v ≤ b := by
  unfold InRange slice
  dsimp only
  omega

theorem rest_inRange (hl : m.vpn ≤ r) :
    InRange (m.rest r).vpn (m.rest r).len v ↔ InRange m.vpn m.len v ∧ r < v := by
  unfold InRange rest
  dsimp only
  omega

theorem Ranged.rest (h : m.Ranged) (hl : m.vpn ≤ r) (hr : r < m.vend) : (m.rest r).Ranged := by
  have hfit := h.fit
  have hwithin := h.within
  have hvend := h.vend_eq
  refine ⟨?_, ?_, ?_⟩
  all_goals
    unfold PageMapping.rest
    dsimp only
    omega

theorem slice_frameOf {perm : Perm} (ha : m.vpn ≤ a) (hv : a ≤ v) :
    (m.slice a b perm).frameOf v = m.frameOf v := by
  unfold frameOf slice
  dsimp only
  congr 1
  omega

theorem rest_frameOf (hl : m.vpn ≤ r) (hv : r < v) : (m.rest r).frameOf v = m.frameOf v := by
  unfold frameOf rest
  dsimp only
  congr 1
  omega

end

/-- What is written for the mapping stays in the virtual and the physical pages, and a contiguous
VMO is mapped from its first page on. -/
structure Plain (m : PageMapping) : Prop where
  fit : m.vpn + m.span ≤ 2 ^ 27
  within : m.offset + m.len ≤ m.vmo.len
  perm : m.perm.Ok
  start : ¬m.vmo.IsPaged → m.offset = 0

variable {m : PageMapping}

section

variable (h : m.Plain)
include h

theorem Plain.len_le_span : m.len ≤ m.span := by
  cases hv : m.vmo with
  | paged len frame hl hf => exact Nat.le_of_eq (span_paged hv).symm
  | contiguous ppn pages hp =>
    rcases Nat.eq_zero_or_pos m.len with hzero | hpos
    · rw [hzero]
      exact Nat.zero_le _
    have hw := h.within
    rw [hv] at hw
    rw [span_contiguous hv hpos]
    exact (Nat.le_add_left _ _).trans hw

section

variable (hpos : 0 < m.len)
include hpos

theorem Plain.ranged : m.Ranged := by
  have hfit := h.fit
  have hspan := h.len_le_span
  have hwithin := h.within
  have hlen := m.vmo.len_lt
  exact ⟨hpos, by omega, by omega⟩

/-- The last page of a mapping that is not empty. -/
theorem Plain.vend_eq : m.vend = m.vpn + m.len - 1 := (h.ranged hpos).vend_eq

theorem Plain.vend_lt : m.vend < 2 ^ 27 := by
  have h1 := h.fit
  have h2 := h.len_le_span
  rw [h.vend_eq hpos]
  omega

theorem slice_plain (hl : m.vpn ≤ l) (hlr : l ≤ r) (hr : r ≤ m.vend) {p : Perm}
    (hp : p.Ok) (hpaged : m.vmo.IsPaged ∨ l = m.vpn) : (m.slice l r p).Plain := by
  have hvend := h.vend_eq hpos
  have hwithin := h.within
  have hfit := h.fit
  have hspan := h.len_le_span
  unfold slice
  refine ⟨?_, ?_, hp, fun hnp => ?_⟩
  · cases hv : m.vmo with
    | paged len frame hl hf =>
      rw [span_paged rfl]
      dsimp only
      omega
    | contiguous ppn pages hp =>
      rw [span_contiguous rfl (Nat.sub_pos_of_lt (Nat.lt_succ_of_le hlr))]
      rw [span_contiguous hv hpos] at hfit
      rw [hv] at hpaged
      have := hpaged.resolve_left fun h => h
      dsimp only
      omega
  · dsimp only
    omega
  · have hzero := h.start hnp
    have := hpaged.resolve_left hnp
    dsimp only
    omega

theorem splitChild_plain (hl : m.vpn ≤ l) (hlr : l ≤ r) (hr : r ≤ m.vend) {p : Perm}
    (hp : p = {} ∨ p.Ok) (hpaged : m.vmo.IsPaged ∨ l = m.vpn) : (m.splitChild ⟨l, r⟩ p).Plain := by
  rw [(h.ranged hpos).splitChild_eq hl hlr hr]
  refine slice_plain h hpos hl hlr hr ?_ hpaged
  split
  · exact h.perm
  · rename_i hne
    exact hp.resolve_left hne

theorem slice_span_le (hlr : m.vpn ≤ r) (hr : r ≤ m.vend) (p : Perm) :
    (m.slice m.vpn r p).span ≤ m.span := by
  have hvend := h.vend_eq hpos
  unfold slice
  cases hv : m.vmo with
  | paged len frame hl hf =>
    rw [span_paged rfl, span_paged hv]
    dsimp only
    omega
  | contiguous ppn pages hp =>
    rw [span_contiguous rfl (Nat.sub_pos_of_lt (Nat.lt_succ_of_le hlr)), span_contiguous hv hpos]

end

end

/-! ## Requests -/

section

variable {m : PageMapping}

theorem frameOf_lt (hpaged : m.vmo.IsPaged) (v : Nat) : m.frameOf v + 1 ≤ 2 ^ 44 := by
  unfold frameOf
  cases hvmo : m.vmo with
  | paged len frame hl hf => exact hf _
  | contiguous ppn pages hp =>
    rw [hvmo] at hpaged
    exact absurd hpaged id

/-- A paged VMO is asked for one page at a time. -/
theorem req_paged {idx : Nat} (hpaged : m.vmo.IsPaged) (hwithin : m.offset + m.len ≤ m.vmo.len)
    (hidx : idx < m.len) : m.req idx = .ok (m.offset + idx, m.frameOf (m.vpn + idx), 1) ∧
      xlen (((m.offset + idx : Nat) : Int) - m.offset) = idx := by
  have hlt := m.vmo.len_lt
  have hoff : xlen ((m.offset : Int) + idx) = m.offset + idx := xlen_add (by omega)
  refine ⟨?_, by rw [xlen_sub (Nat.le_add_right _ _) (by omega), Nat.add_sub_cancel_left]⟩
  unfold req frameOf
  rw [hoff, Nat.add_sub_cancel_left]
  cases hvmo : m.vmo with
  | paged len frame hl hf =>
    rw [hvmo] at hwithin
    have hin : decide (m.offset + idx < len) = true :=
      decide_eq_true (Nat.lt_of_lt_of_le (by omega) hwithin)
    unfold Vmo.req
    dsimp only
    rw [hin, assert_true, ok_bind]
    rfl
  | contiguous ppn pages hp =>
    rw [hvmo] at hpaged
    exact absurd hpaged id

end

end PageMapping

/-! ## `map` -/

namespace VMAR

variable {m : PageMapping} {table table' : Table 2}

/-- The loop of `map` on a paged VMO writes the pages that are left, one at a time. -/
theorem mapLoop_paged (hpaged : m.vmo.IsPaged) (hm : m.Plain) :
    ∀ (fuel i : Nat) (table : Table 2), Sound table → m.len = i + fuel →
    ∃ table', mapLoop m fuel i table = .ok table' ∧ Sound table' ∧
      Writes IsPage (leafAt table) (leafAt table') (m.vpn + i) fuel m.frameOf m.perm.grant := by
  have hfit : m.vpn + m.len ≤ 2 ^ 27 :=
    (Nat.add_le_add_left hm.len_le_span _).trans hm.fit
  intro fuel
  induction fuel with
  | zero =>
    intro i table hs hi
    unfold mapLoop
    rw [if_neg (by omega)]
    exact ⟨table, rfl, hs, Writes.refl _ _ _ _ _⟩
  | succ fuel ih =>
    intro i table hs hi
    obtain ⟨hreq, hvoff⟩ := req_paged hpaged hm.within (show i < m.len by omega)
    have hvpn : xlen ((m.vpn : Int) + i) = m.vpn + i := xlen_add (by omega)
    have hnext : xlen ((i : Int) + (1 : Nat)) = i + 1 := xlen_add (by omega)
    obtain ⟨t, hcreate, hs', hw⟩ :=
      create_total (m.vpn + i) hs hm.perm (by omega) (by omega) (frameOf_lt hpaged (m.vpn + i))
    obtain ⟨t', hrest, hs'', hw'⟩ := ih (i + 1) t hs' (by omega)
    refine ⟨t', ?_, hs'', ?_⟩
    · unfold mapLoop
      rw [if_pos (by omega), hreq, ok_bind]
      dsimp only
      rw [hvoff, hvpn, hnext, hcreate, ok_bind]
      exact hrest
    · rw [Nat.add_comm fuel 1]
      refine Writes.trans (hw.congr ?_) hw'
      intro v hrange
      obtain ⟨h1, h2⟩ := hrange
      have hveq : v = m.vpn + i := by omega
      rw [hveq, Nat.sub_self, Nat.add_zero]

/-- The page of the first page of a contiguous VMO, which may lie in front of the mapping's. -/
def windowStart (m : PageMapping) : Nat := xlen (m.vpn - m.offset) % 2 ^ 27

/-- A contiguous VMO is written with one call. -/
theorem map_contiguous {ppn pages : Nat} {hp : ppn + pages ≤ 2 ^ 44}
    (hvmo : m.vmo = .contiguous ppn pages hp) (hwithin : m.offset + m.len ≤ pages)
    (hpos : 0 < m.len) (s : VMAR) :
    s.map m = (createMapping 2 s.pagetable (windowStart m) ppn pages m.perm).map fun table =>
      ⟨s.mappings.insert m, table⟩ := by
  obtain ⟨n, hn⟩ : ∃ n, m.len = n + 1 := ⟨m.len - 1, by omega⟩
  have hreq : m.req 0 = .ok (0, ppn, pages) := by
    unfold PageMapping.req
    rw [hvmo]
    rfl
  have hstart : xlen ((m.vpn : Int) + xlen (((0 : Nat) : Int) - m.offset)) ≡ windowStart m
      [MOD bigPageSize 3] := by
    unfold windowStart xlen bigPageSize Nat.ModEq
    omega
  have hnext : xlen ((xlen (((0 : Nat) : Int) - m.offset) : Int) + pages) = pages - m.offset := by
    unfold xlen
    omega
  unfold map
  rw [if_neg Bool.false_ne_true, hn]
  unfold mapLoop
  rw [if_pos hpos, hreq, ok_bind]
  dsimp only
  rw [createMapping_modEq 2 _ _ _ _ _ _ hstart, hnext]
  have hlast : ∀ table, mapLoop m n (pages - m.offset) table = .ok table := by
    intro table
    unfold mapLoop
    split <;> rw [if_neg (by omega)]
  cases createMapping 2 s.pagetable (windowStart m) ppn pages m.perm with
  | error e => rfl
  | ok table =>
    rw [ok_bind, hlast]
    rfl

theorem map_empty (hlen : m.len = 0) (s : VMAR) :
    s.map m = .ok ⟨s.mappings.insert m, s.pagetable⟩ := by
  unfold map
  rw [if_neg Bool.false_ne_true, hlen]
  unfold mapLoop
  rw [if_neg (by omega)]
  rfl

/-- **`map` returns, writes the pages of the mapping**, and inserts it if its key is free. -/
theorem map_total {s : VMAR} (hm : m.Plain) (hs : Sound s.pagetable) :
    ∃ s', s.map m = .ok s' ∧ s'.mappings = s.mappings.insert m ∧ Sound s'.pagetable ∧
      Writes IsPage (leafAt s.pagetable) (leafAt s'.pagetable) m.vpn m.span m.frameOf
        m.perm.grant := by
  have hfit := hm.fit
  have hlen := hm.len_le_span
  cases hv : m.vmo with
  | paged len frame hl hf =>
    obtain ⟨t, hloop, hs', hw⟩ :=
      mapLoop_paged (hv ▸ trivial) hm m.len 0 s.pagetable hs (Nat.zero_add _).symm
    rw [span_paged hv]
    refine ⟨⟨s.mappings.insert m, t⟩, ?_, rfl, hs', hw⟩
    unfold map
    rw [if_neg Bool.false_ne_true, hloop, ok_bind]
    rfl
  | contiguous ppn pages hp =>
    rcases Nat.eq_zero_or_pos m.len with hzero | hpos
    · have hspan : m.span = 0 := if_pos hzero
      rw [hspan]
      exact ⟨_, map_empty hzero s, rfl, hs, Writes.refl _ _ _ _ _⟩
    · have hspan : m.span = pages := span_contiguous hv hpos
      have hoff : m.offset = 0 := hm.start fun h => by rw [hv] at h; exact h
      have hstart : windowStart m = m.vpn := by
        unfold windowStart xlen
        omega
      obtain ⟨t, hcreate, hs', hw⟩ := create_total m.vpn hs hm.perm (by omega) (by omega) hp
      rw [map_contiguous hv (by omega) hpos, hstart, hcreate, hspan]
      refine ⟨_, rfl, rfl, hs', hw.congr fun v _ => ?_⟩
      simp only [frameOf, hv, Vmo.frame, hoff, Nat.zero_add]

theorem map_spec {s s' : VMAR} (hm : m.Plain) (hs : Sound s.pagetable) (h : s.map m = .ok s') :
    s'.mappings = s.mappings.insert m ∧ Sound s'.pagetable ∧
      Writes IsPage (leafAt s.pagetable) (leafAt s'.pagetable) m.vpn m.span m.frameOf
        m.perm.grant := by
  obtain ⟨s1, h1, hspec⟩ := map_total hm hs
  rw [h] at h1
  cases h1
  exact hspec

theorem map_mappings {s s' : VMAR} (h : s.map m = .ok s') : s'.mappings = s.mappings.insert m := by
  obtain ⟨t, -, h⟩ := bind_eq_ok h
  cases h
  rfl

theorem map_of_len_zero {s s' : VMAR} (hlen : m.len = 0) (h : s.map m = .ok s') :
    s'.pagetable = s.pagetable := by
  rw [map_empty hlen] at h
  cases h
  rfl

/-! ## Slices -/

variable {i : PageMapping} {s s' : VMAR}

def withRest (ms : KeyedSet PageMapping vpn) (i : PageMapping) (r : Nat) :
    KeyedSet PageMapping vpn :=
  if r < i.vend then ms.insert (i.rest r) else ms

theorem mapSlice_rest (hp : i.Ranged) (hl : i.vpn ≤ r) (hr : r ≤ i.vend)
    (h : s.mapSlice i ⟨xlen (r + 1), i.vend⟩ = .ok s') : s'.mappings = withRest s.mappings i r := by
  have hvend := hp.vend_eq
  have hfit := hp.fit
  have hx : xlen ((r : Int) + 1) = r + 1 := by
    unfold xlen
    omega
  unfold withRest
  unfold mapSlice at h
  rw [hx] at h
  split at h
  · rename_i hne
    have hlt : r < i.vend := of_decide_eq_true hne
    rw [map_mappings h, if_pos hlt, hp.splitChild_rest hl hlt]
  rename_i hne
  have hge : ¬r < i.vend := fun hlt => hne (decide_eq_true hlt)
  cases h
  rw [if_neg hge]

theorem withRest_min (ms : KeyedSet PageMapping vpn) (i : PageMapping) (r : Nat) :
    withRest ms i (min i.vend r) = withRest ms i r := by
  unfold withRest
  rcases Nat.lt_or_ge r i.vend with hlt | hge
  · rw [Nat.min_eq_right (Nat.le_of_lt hlt)]
  · rw [Nat.min_eq_left hge, if_neg (Nat.lt_irrefl _), if_neg (Nat.not_lt.2 hge)]

variable {ms : KeyedSet PageMapping vpn}

theorem mem_withRest (h : m ∈ withRest ms i r) : m ∈ ms ∨ r < i.vend ∧ m = i.rest r := by
  unfold withRest at h
  split at h
  · rename_i hlt
    exact (mem_of_mem_insert h).symm.imp_right fun heq => ⟨hlt, heq⟩
  · exact .inl h

theorem subset_withRest (h : m ∈ ms) : m ∈ withRest ms i r := by
  unfold withRest
  split
  · exact subset_insert h
  · exact h

theorem rest_mem (hr : r < i.vend)
    (hfree : ∀ b ∈ ms, b.vpn ≠ r + 1) : i.rest r ∈ withRest ms i r := by
  unfold withRest
  rw [if_pos hr]
  exact mem_insert_self hfree

/-- The left part of a mapping is never inserted: the mapping still has its key. -/
theorem mapSlice_first (hi : i ∈ s.mappings) (h : s.mapSlice i ⟨i.vpn, r⟩ = .ok s') :
    s'.mappings = s.mappings := by
  unfold mapSlice at h
  split at h
  · rw [map_mappings h]
    exact KeyedSet.insert_of_mem hi rfl
  · cases h
    rfl

/-- The pages of the left part are written all the same. -/
theorem mapSlice_left (hi : i ∈ s.mappings) (hm : i.Plain) (hpos : 0 < i.len) (hl : i.vpn ≤ l)
    (hr : l ≤ i.vend) (hs : Sound s.pagetable) (h : s.mapSlice i ⟨i.vpn, xlen (l - 1)⟩ = .ok s') :
    s'.mappings = s.mappings ∧ Sound s'.pagetable ∧
      ∃ n, n ≤ i.span ∧ (l = i.vpn → n = 0) ∧ (n = 0 → s'.pagetable = s.pagetable) ∧
        Writes IsPage (leafAt s.pagetable) (leafAt s'.pagetable) i.vpn n i.frameOf
          i.perm.grant := by
  have hvend := hm.vend_lt hpos
  unfold mapSlice at h
  split at h
  · rename_i hne
    have hkey : s.mappings.insert (i.splitChild ⟨i.vpn, xlen (l - 1)⟩) = s.mappings :=
      KeyedSet.insert_of_mem hi rfl
    rcases Nat.eq_zero_or_pos l with rfl | hlpos
    · -- `ovlp.l-1` wraps around, and the slice has no page
      have hslice : i.splitChild ⟨i.vpn, xlen (((0 : Nat) : Int) - 1)⟩ = { i with len := 0 } := by
        have h1 := hm.within
        have h2 := i.vmo.len_lt
        have h3 : i.vpn = 0 := Nat.le_zero.1 hl
        have hoff : xlen ((i.offset : Int) + i.vpn - i.vpn) = i.offset := by
          rw [add_sub_cancel_right]
          exact xlen_of_lt (by omega)
        have hlen : Segment.length ⟨i.vpn, xlen (((0 : Nat) : Int) - 1)⟩ = 0 := by
          rw [h3]
          rfl
        unfold splitChild
        rw [hlen, hoff]
        rfl
      have hplain : ({ i with len := 0 } : PageMapping).Plain := by
        refine ⟨?_, ?_, hm.perm, hm.start⟩
        · exact (Nat.le_add_right _ _).trans hm.fit
        · exact (Nat.add_le_add_left (Nat.zero_le _) _).trans hm.within
      rw [hslice] at h hkey
      have hpt := map_of_len_zero rfl h
      obtain ⟨hmap, hs', hw⟩ := map_spec hplain hs h
      rw [hkey] at hmap
      exact ⟨hmap, hs', 0, Nat.zero_le _, fun _ => rfl, fun _ => hpt, hw⟩
    · have hx : xlen ((l : Int) - 1) = l - 1 := xlen_sub hlpos (by omega)
      rw [hx] at h hne hkey
      have hlr : i.vpn ≤ l - 1 := of_decide_eq_true hne
      rw [(hm.ranged hpos).splitChild_eq le_rfl hlr (by omega), if_pos rfl] at h hkey
      have hplain := slice_plain hm hpos le_rfl hlr (by omega) hm.perm (.inr rfl)
      obtain ⟨hmap, hs', hw⟩ := map_spec hplain hs h
      rw [hkey] at hmap
      refine ⟨hmap, hs', _, ?_, fun heq => ?_, fun hzero => ?_, hw.congr fun v hv => ?_⟩
      · exact slice_span_le hm hpos hlr (by omega) _
      · omega
      · have hlen : l - 1 + 1 - i.vpn ≤ _ := hplain.len_le_span
        omega
      · exact slice_frameOf le_rfl hv.1
  · cases h
    exact ⟨rfl, hs, 0, Nat.zero_le _, fun _ => rfl, fun _ => rfl, Writes.refl _ _ _ _ _⟩

theorem mapSlice_right (hm : i.Plain) (hpos : 0 < i.len) (hl : i.vpn ≤ r)
    (hr : r ≤ i.vend) (hs : Sound s.pagetable) (hp : i.vmo.IsPaged ∨ r = i.vend)
    (h : s.mapSlice i ⟨xlen (r + 1), i.vend⟩ = .ok s') :
    s'.mappings = withRest s.mappings i r ∧ Sound s'.pagetable ∧
      (i.vend = r → s' = s) ∧
        Writes IsPage (leafAt s.pagetable) (leafAt s'.pagetable) (r + 1) (i.vend - r) i.frameOf
          i.perm.grant := by
  have hvend := hm.vend_lt hpos
  have hx : xlen ((r : Int) + 1) = r + 1 := xlen_add (b := 1) (by omega)
  refine ⟨mapSlice_rest (hm.ranged hpos) hl hr h, ?_⟩
  unfold mapSlice at h
  rw [hx] at h
  split at h
  · rename_i hne
    have hlr : r + 1 ≤ i.vend := of_decide_eq_true hne
    have hpaged := hp.resolve_right (by omega)
    rw [(hm.ranged hpos).splitChild_eq (by omega) hlr le_rfl, if_pos rfl] at h
    obtain ⟨-, hs', hw⟩ :=
      map_spec (slice_plain hm hpos (by omega) hlr le_rfl hm.perm (.inl hpaged)) hs h
    have hspan : (i.slice (r + 1) i.vend i.perm).span = i.vend - r :=
      (span_of_isPaged (m := i.slice _ _ _) hpaged).trans (Nat.add_sub_add_right _ _ _)
    rw [hspan] at hw
    exact ⟨hs', fun heq => by omega, hw.congr fun v hv => slice_frameOf (by omega) hv.1⟩
  · rename_i hne
    cases h
    have hle : i.vend ≤ r := Nat.not_lt.1 fun hlt => hne (decide_eq_true hlt)
    rw [Nat.sub_eq_zero_of_le hle]
    exact ⟨hs, fun _ => rfl, Writes.refl _ _ _ _ _⟩

end VMAR

end LuoOS.Vm
