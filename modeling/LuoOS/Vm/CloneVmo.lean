import LuoOS.Lib.Runs
import LuoOS.Vm.Pager

/-!
# Clones of paged VMOs

`VMOPaged::clone` makes a VMO without pages over a new `SwapPager` in front of the pager of the VMO
it copies. The buffers a VMO has loaded are those of its pager, so what is written to them shows in
the pager, and in a clone that loads the page from there. One pager can be behind several others, so
pagers are objects here: a file has one `VnodePager`, and swap pagers have numbers. A buffer is
named by the pager and the page it was made for, and has a frame of its own. What the frames of a
file's pages hold before they are loaded is left open.
-/

namespace LuoOS.Vm

open Runs Function

/-- The buffer of a page, by the pager that made it. -/
inductive PBufRef where
  | vnode (file offset : Nat)
  | swap (id offset : Nat)
  deriving DecidableEq

/-- A pager, with those behind it. -/
inductive PagerRef where
  | vnode (file : Nat)
  | swap (id : Nat) (backing : PagerRef) (backingregion : Segment)
  | anon (id : Nat)

abbrev Buffers := PBufRef → Option Page

/-- A paged VMO and its pager. -/
structure VmoRef where
  len : Nat
  pages : Nat → Option PBufRef := fun _ => none
  pager : PagerRef

/-- The buffers, the swap pagers and the VMOs. -/
structure Vmos where
  bufs : Buffers
  swaps : Nat
  vmos : List VmoRef

/-- What is done with VMOs. -/
inductive Vmos.Op where
  | file (file len : Nat)
  | privt (file len : Nat) (region : Segment)
  | anon (len : Nat)
  | req (v offset : Nat)
  | write (v offset : Nat) (data : Page)
  | clone (v : Nat)

/-- The files, and what new frames for their pages hold. -/
structure Inodes where
  file : Nat → List UInt8
  frame : Nat → Nat → Page

def PagerRef.buf : PagerRef → Nat → PBufRef
  | vnode file, i => .vnode file i
  | swap id _ _, i => .swap id i
  | anon id, i => .swap id i

def VmoRef.clone (w : VmoRef) (id : Nat) : VmoRef :=
  { len := w.len, pager := .swap id w.pager ⟨0, pn2addr w.len⟩ }

section Ops

variable (d : Inodes)

def Inodes.read (file i : Nat) : Page := readPages (d.file file) i (d.frame file i)

def PagerRef.loadTo : PagerRef → Nat → Buffers → Page × Buffers
  | vnode file, i, bufs =>
    match bufs (.vnode file i) with
    | some data => (data, bufs)
    | none => (d.read file i, update bufs (.vnode file i) (some (d.read file i)))
  | swap id backing region, i, bufs =>
    match bufs (.swap id i) with
    | some data => (data, bufs)
    | none =>
      let backingoff := xlen (addr2pn region.l + i)
      if backingoff ≤ addr2pn region.r then
        let (data, bufs) := backing.loadTo backingoff bufs
        (Pager.clearOutside region i backingoff data, bufs)
      else (Page.zero, bufs)
  | anon id, i, bufs => ((bufs (.swap id i)).getD Page.zero, bufs)

def PagerRef.load (p : PagerRef) (i : Nat) (bufs : Buffers) : Buffers :=
  match bufs (p.buf i) with
  | some _ => bufs
  | none =>
    let loaded := p.loadTo d i bufs
    update loaded.2 (p.buf i) (some loaded.1)

def PagerRef.contents : PagerRef → Nat → Buffers → Page
  | vnode file, i, bufs => (bufs (.vnode file i)).getD (d.read file i)
  | swap id backing region, i, bufs =>
    match bufs (.swap id i) with
    | some data => data
    | none =>
      let backingoff := xlen (addr2pn region.l + i)
      if backingoff ≤ addr2pn region.r then
        Pager.clearOutside region i backingoff (backing.contents backingoff bufs)
      else Page.zero
  | anon id, i, bufs => (bufs (.swap id i)).getD Page.zero

namespace Vmos

def push (s : Vmos) (w : VmoRef) (swaps : Nat) : Vmos := ⟨s.bufs, swaps, s.vmos ++ [w]⟩

def step (s : Vmos) : Op → Kern Vmos
  | .file file len => .ok (s.push { len, pager := .vnode file } s.swaps)
  | .privt file len region =>
    .ok (s.push { len, pager := .swap s.swaps (.vnode file) region } (s.swaps + 1))
  | .anon len => .ok (s.push { len, pager := .anon s.swaps } (s.swaps + 1))
  | .req v i =>
    match s.vmos[v]? with
    | none => .error .wildPointer
    | some w => do
      assert_ (i < w.len) "offset<pages.size()"
      match w.pages i with
      | some _ => pure s
      | none =>
        let w := { w with pages := update w.pages i (some (w.pager.buf i)) }
        pure { s with bufs := w.pager.load d i s.bufs, vmos := s.vmos.set v w }
  | .write v i data =>
    match s.vmos[v]?.bind fun w => w.pages i with
    | none => .error .wildPointer
    | some b => .ok { s with bufs := update s.bufs b (some data) }
  | .clone v =>
    match s.vmos[v]? with
    | none => .error .wildPointer
    | some w => .ok (s.push (w.clone s.swaps) (s.swaps + 1))

def run (s : Vmos) (ops : List Op) : Kern Vmos := ops.foldlM (step d) s

def page (s : Vmos) (w : VmoRef) (i : Nat) : Page :=
  match w.pages i with
  | some b => (s.bufs b).getD Page.zero
  | none => w.pager.contents d i s.bufs

/-- A page of VMO `x` is asked for or written. -/
def Op.On (x : Nat) : Op → Prop
  | .req v _ => v = x
  | .write v _ _ => v = x
  | _ => False

/-- What is loaded and written in VMO `x` later does not show in `w`. -/
def Hidden (s : Vmos) (x : Nat) (w : VmoRef) : Prop :=
  ∀ ops t, (∀ op ∈ ops, Op.On x op) → s.run d ops = .ok t →
    ∀ i < w.len, t.page d w i = s.page d w i

/-- **A snapshot.** VMO `c` has the pages of `w` in buffers of its own, `w` is as it was, and what
is loaded and written in one does not show in the other. -/
structure Snapshot (s s' : Vmos) (v c : Nat) (w : VmoRef) : Prop where
  source : s'.vmos[v]? = some w
  same : ∀ i, s'.page d w i = s.page d w i
  copy : ∃ w', s'.vmos[c]? = some w' ∧ w'.len = w.len ∧
    (∀ i < w.len, ∃ b, w'.pages i = some b ∧ s'.bufs b = some (s.page d w i)) ∧
    (∀ i j b, w'.pages i = some b → w.pages j ≠ some b) ∧ s'.Hidden d v w' ∧ s'.Hidden d c w

def Start (s : Vmos) : Prop := s.bufs = (fun _ => none) ∧ s.swaps = 0 ∧ s.vmos = []

end Vmos

end Ops

/-! ## Pagers below a number -/

section Loads

variable {d : Inodes} {bufs bufs' : Buffers} {p : PagerRef} {i j n id : Nat} {b : PBufRef}

def PagerRef.Below (n : Nat) : PagerRef → Prop
  | vnode _ => True
  | swap id backing _ => id < n ∧ backing.Below n
  | anon id => id < n

theorem PagerRef.Below.mono {n' : Nat} (h : p.Below n) (hle : n ≤ n') : p.Below n' := by
  induction p with
  | vnode file => trivial
  | swap id backing region ih => exact ⟨h.1.trans_le hle, ih h.2⟩
  | anon id => exact h.trans_le hle

theorem PagerRef.Below.lt (h : p.Below n) (hb : PBufRef.swap id j = p.buf i) : id < n := by
  cases p with
  | vnode file => cases hb
  | swap id' backing region =>
    cases hb
    exact h.1
  | anon id' =>
    cases hb
    exact h

variable (d) in
/-- No pager below `n` gives another page than before. -/
structure SameBelow (n : Nat) (bufs bufs' : Buffers) : Prop where
  vnode : ∀ file i, (bufs' (.vnode file i)).getD (d.read file i) =
    (bufs (.vnode file i)).getD (d.read file i)
  swap : ∀ id < n, ∀ i, bufs' (.swap id i) = bufs (.swap id i)
  made : ∀ b, bufs b ≠ none → bufs' b ≠ none

theorem SameBelow.refl (n : Nat) (bufs : Buffers) : SameBelow d n bufs bufs :=
  ⟨fun _ _ => rfl, fun _ _ _ => rfl, fun _ h => h⟩

theorem SameBelow.trans {bufs'' : Buffers} (h : SameBelow d n bufs bufs')
    (h' : SameBelow d n bufs' bufs'') : SameBelow d n bufs bufs'' where
  vnode file i := (h'.vnode file i).trans (h.vnode file i)
  swap id hid i := (h'.swap id hid i).trans (h.swap id hid i)
  made b hb := h'.made b (h.made b hb)

theorem SameBelow.contents (h : SameBelow d n bufs bufs') (hp : p.Below n) :
    p.contents d i bufs' = p.contents d i bufs := by
  induction p generalizing i with
  | vnode file => exact h.vnode file i
  | swap id backing region ih => simp only [PagerRef.contents, h.swap id hp.1, ih hp.2]
  | anon id => simp only [PagerRef.contents, h.swap id hp]

/-- A buffer of another swap pager. -/
theorem SameBelow.update (hid : n ≤ id) (data : Page) :
    SameBelow d n bufs (update bufs (.swap id i) (some data)) where
  vnode file j := by simp
  swap id' hlt j := by
    have hne : id' ≠ id := by omega
    simp [hne]
  made b hb := by by_cases heq : b = .swap id i <;> simp [heq, hb]

theorem loadTo_spec (p : PagerRef) (i n : Nat) (bufs : Buffers) :
    (p.loadTo d i bufs).1 = p.contents d i bufs ∧ SameBelow d n bufs (p.loadTo d i bufs).2 := by
  induction p generalizing i with
  | vnode file =>
    cases hb : bufs (.vnode file i) with
    | some data => simp [PagerRef.loadTo, PagerRef.contents, hb, SameBelow.refl]
    | none =>
      simp only [PagerRef.loadTo, PagerRef.contents, hb, Option.getD_none, true_and]
      refine ⟨fun file' j => ?_, fun id _ j => by simp, fun b hne => ?_⟩
      · by_cases heq : PBufRef.vnode file' j = .vnode file i
        · cases heq
          simp [hb]
        · simp only [update_of_ne heq]
      · by_cases heq : b = .vnode file i <;> simp [heq, hne]
  | swap id backing region ih =>
    simp only [PagerRef.loadTo, PagerRef.contents]
    split
    · exact ⟨rfl, .refl n bufs⟩
    · split
      · exact ⟨by rw [(ih _).1], (ih _).2⟩
      · exact ⟨rfl, .refl n bufs⟩
  | anon id => exact ⟨rfl, .refl n bufs⟩

theorem contents_of_buf {data : Page} (h : bufs (p.buf i) = some data) :
    p.contents d i bufs = data := by
  cases p <;> simp only [PagerRef.buf] at h <;> simp [PagerRef.contents, h]

variable (d) in
/-- The buffer is there, or it is made with what the pager shows. -/
theorem load_cases (p : PagerRef) (i : Nat) (bufs : Buffers) :
    (p.load d i bufs = bufs ∧ bufs (p.buf i) = some (p.contents d i bufs)) ∨ p.load d i bufs =
      update (p.loadTo d i bufs).2 (p.buf i) (some (p.contents d i bufs)) := by
  cases hb : bufs (p.buf i) with
  | some data => exact .inl ⟨by simp [PagerRef.load, hb], by rw [contents_of_buf hb]⟩
  | none => exact .inr (by simp [PagerRef.load, hb, (loadTo_spec p i 0 bufs).1])

theorem load_self (p : PagerRef) (i : Nat) (bufs : Buffers) :
    p.load d i bufs (p.buf i) = some (p.contents d i bufs) := by
  rcases load_cases d p i bufs with ⟨h, hb⟩ | h
  · rw [h, hb]
  · rw [h, update_self]

theorem load_swap_of_ne (hne : PBufRef.swap id j ≠ p.buf i) :
    p.load d i bufs (.swap id j) = bufs (.swap id j) := by
  rcases load_cases d p i bufs with ⟨h, -⟩ | h
  · rw [h]
  · rw [h, update_of_ne hne]
    exact (loadTo_spec p i (id + 1) bufs).2.swap id (Nat.lt_succ_self id) j

theorem load_made (hb : bufs b ≠ none) : p.load d i bufs b ≠ none := by
  rcases load_cases d p i bufs with ⟨h, -⟩ | h
  · rwa [h]
  · rw [h]
    have hmade := (loadTo_spec (d := d) p i 0 bufs).2.made b hb
    by_cases heq : b = p.buf i <;> simp [heq, hmade]

theorem SameBelow.load (hbuf : p.buf i = .swap id i) (hid : n ≤ id) :
    SameBelow d n bufs (p.load d i bufs) := by
  rcases load_cases d p i bufs with ⟨h, -⟩ | h
  · rw [h]
    exact .refl n bufs
  · rw [h, hbuf]
    exact (loadTo_spec p i n bufs).2.trans (.update hid _)

end Loads

/-! ## What holds in every run -/

namespace Vmos

section Run

variable {d : Inodes} {s t : Vmos} {w : VmoRef} {v i : Nat} {done : List Nat}

/-- The buffers of `w` are those of its pager. -/
structure Fits (s : Vmos) (w : VmoRef) : Prop where
  pages : ∀ i b, w.pages i = some b → b = w.pager.buf i ∧ s.bufs b ≠ none
  below : w.pager.Below s.swaps

/-- Every VMO has the buffers of its pager. -/
structure Inv (s : Vmos) : Prop where
  fits : ∀ w ∈ s.vmos, s.Fits w
  made : ∀ id i, s.bufs (.swap id i) ≠ none → id < s.swaps

theorem Fits.mono (h : s.Fits w) (hmade : ∀ b, s.bufs b ≠ none → t.bufs b ≠ none)
    (hle : s.swaps ≤ t.swaps) : t.Fits w where
  pages i b hb := ⟨(h.pages i b hb).1, hmade b (h.pages i b hb).2⟩
  below := h.below.mono hle

theorem Inv.push (h : s.Inv) {len swaps : Nat} {pager : PagerRef} (hle : s.swaps ≤ swaps)
    (hbelow : pager.Below swaps) : (s.push { len, pager } swaps).Inv where
  fits w hw := by
    rcases List.mem_append.1 hw with hw | hw
    · exact (h.fits w hw).mono (fun _ hb => hb) hle
    · rw [List.mem_singleton.1 hw]
      exact ⟨fun _ _ hb => absurd hb (Option.some_ne_none _).symm, hbelow⟩
  made id i hb := (h.made id i hb).trans_le hle

theorem Inv.req (h : s.Inv) (hv : s.vmos[v]? = some w) : Inv { s with
      bufs := w.pager.load d i s.bufs
      vmos := s.vmos.set v
        { w with pages := update w.pages i (some (w.pager.buf i)) } } := by
  have hw := h.fits w (List.mem_of_getElem? hv)
  refine ⟨fun w' hw' => ?_, fun id j hne => ?_⟩
  · rcases List.mem_or_eq_of_mem_set hw' with hw' | rfl
    · exact (h.fits w' hw').mono (fun _ => load_made) le_rfl
    refine ⟨fun j b hb => ?_, hw.below⟩
    by_cases heq : j = i
    · subst heq
      simp only [update_self, Option.some.injEq] at hb
      exact ⟨hb.symm, by simp [← hb, load_self]⟩
    · simp only [update_of_ne heq] at hb
      exact ⟨(hw.pages j b hb).1, load_made (hw.pages j b hb).2⟩
  · by_cases heq : PBufRef.swap id j = w.pager.buf i
    · exact hw.below.lt heq
    · exact h.made id j (by simpa only [load_swap_of_ne heq] using hne)

theorem Inv.step {op : Op} (h : s.Inv) (hstep : s.step d op = .ok t) : t.Inv := by
  cases op with
  | file file len =>
    cases hstep
    exact h.push le_rfl trivial
  | privt file len region =>
    cases hstep
    exact h.push (Nat.le_succ _) ⟨Nat.lt_succ_self _, trivial⟩
  | anon len =>
    cases hstep
    exact h.push (Nat.le_succ _) (Nat.lt_succ_self _)
  | req v i =>
    dsimp only [Vmos.step] at hstep
    split at hstep
    · cases hstep
    rename_i w hv
    obtain ⟨-, -, hstep⟩ := bind_eq_ok hstep
    split at hstep
    · cases hstep
      exact h
    · cases hstep
      exact h.req hv
  | write v i data =>
    dsimp only [Vmos.step] at hstep
    split at hstep
    · cases hstep
    rename_i b hb
    cases hstep
    obtain ⟨w, hv, hb⟩ := Option.bind_eq_some_iff.1 hb
    have hmade := ((h.fits w (List.mem_of_getElem? hv)).pages i b hb).2
    have hsame : ∀ b', update s.bufs b (some data) b' ≠ none ↔ s.bufs b' ≠ none := by
      intro b'
      by_cases heq : b' = b <;> simp [heq, hmade]
    exact ⟨fun w hw => (h.fits w hw).mono (fun b' => (hsame b').2) le_rfl,
      fun id j hne => h.made id j ((hsame _).1 hne)⟩
  | clone v =>
    dsimp only [Vmos.step] at hstep
    split at hstep
    · cases hstep
    rename_i w hv
    cases hstep
    have hw := h.fits w (List.mem_of_getElem? hv)
    exact h.push (Nat.le_succ _) ⟨Nat.lt_succ_self _, hw.below.mono (Nat.le_succ _)⟩

theorem Fits.page_eq (h : s.Fits w) (i : Nat) : s.page d w i = w.pager.contents d i s.bufs := by
  unfold page
  split
  · rename_i b hb
    obtain ⟨rfl, hmade⟩ := h.pages i b hb
    obtain ⟨data, hdata⟩ := Option.ne_none_iff_exists'.1 hmade
    rw [hdata, contents_of_buf hdata]
    rfl
  · rfl

theorem Inv.run {ops : List Op} (h : s.Inv) (hrun : s.run d ops = .ok t) : t.Inv := by
  induction ops generalizing s with
  | nil =>
    cases hrun
    exact h
  | cons op ops ih =>
    obtain ⟨s1, hstep, hrun⟩ := bind_eq_ok hrun
    exact ih (h.step hstep) hrun

/-- A page of a VMO is loaded by its pager, or written in a buffer of its pager. -/
theorem Inv.step_on {op : Op} (h : s.Inv) (hv : s.vmos[v]? = some w) (hop : op.On v)
    (hstep : s.step d op = .ok t) :
    t.swaps = s.swaps ∧ (∃ w', t.vmos[v]? = some w' ∧ w'.pager = w.pager) ∧
      (t.bufs = s.bufs ∨ (∃ i, t.bufs = w.pager.load d i s.bufs) ∨
        ∃ i data, t.bufs = update s.bufs (w.pager.buf i) (some data)) := by
  cases op with
  | req x i =>
    obtain rfl : x = v := hop
    simp only [Vmos.step, hv] at hstep
    obtain ⟨-, -, hstep⟩ := bind_eq_ok hstep
    split at hstep
    · cases hstep
      exact ⟨rfl, ⟨w, hv, rfl⟩, .inl rfl⟩
    · cases hstep
      refine ⟨rfl, ⟨_, List.getElem?_set_self (List.getElem?_eq_some_iff.1 hv).1, rfl⟩, ?_⟩
      exact .inr (.inl ⟨i, rfl⟩)
  | write x i data =>
    obtain rfl : x = v := hop
    simp only [Vmos.step, hv, Option.bind_some] at hstep
    split at hstep
    · cases hstep
    rename_i b hb
    cases hstep
    obtain ⟨rfl, -⟩ := (h.fits w (List.mem_of_getElem? hv)).pages i b hb
    exact ⟨rfl, ⟨w, hv, rfl⟩, .inr (.inr ⟨i, data, rfl⟩)⟩
  | _ => exact hop.elim

/-- What loads and writes of a pager keep of the buffers is kept when its VMO is used. -/
theorem Inv.run_on {R : Buffers → Buffers → Prop} {ops : List Op} (h : s.Inv)
    (hv : s.vmos[v]? = some w) (hops : ∀ op ∈ ops, Op.On v op) (hrun : s.run d ops = .ok t)
    (hrefl : ∀ bufs, R bufs bufs) (htrans : ∀ {x y z}, R x y → R y z → R x z)
    (hload : ∀ i bufs, R bufs (w.pager.load d i bufs))
    (hwrite : ∀ i data bufs, R bufs (update bufs (w.pager.buf i) (some data))) :
    t.swaps = s.swaps ∧ R s.bufs t.bufs := by
  induction ops generalizing s w with
  | nil =>
    cases hrun
    exact ⟨rfl, hrefl _⟩
  | cons op ops ih =>
    obtain ⟨s1, hstep, hrun⟩ := bind_eq_ok hrun
    obtain ⟨hswaps, ⟨w', hv', hpager⟩, hbufs⟩ := h.step_on hv (hops op List.mem_cons_self) hstep
    obtain ⟨hswaps', hrest⟩ := ih (h.step hstep) hv'
      (fun op hop => hops op (List.mem_cons_of_mem _ hop)) hrun (hpager ▸ hload) (hpager ▸ hwrite)
    refine ⟨hswaps'.trans hswaps, htrans ?_ hrest⟩
    obtain heq | ⟨i, heq⟩ | ⟨i, data, heq⟩ := hbufs
    · exact heq ▸ hrefl _
    · exact heq ▸ hload i _
    · exact heq ▸ hwrite i data _

/-! ## The pages of a clone -/

/-- A clone shows what the VMO does whose pager is behind its own. -/
theorem contents_clone {bufs : Buffers} {p : PagerRef} {id len : Nat}
    (hnew : bufs (.swap id i) = none) (hi : i < len) (hlen : len < 2 ^ 52) :
    (PagerRef.swap id p ⟨0, pn2addr len⟩).contents d i bufs = p.contents d i bufs := by
  have hoff : xlen ((addr2pn 0 : Nat) + (i : Nat)) = i := by
    rw [addr2pn_eq, Nat.zero_div, xlen_add (by omega), Nat.zero_add]
  have hend : addr2pn (pn2addr len) = len := by
    rw [pn2addr_eq hlen, addr2pn_eq, Nat.mul_div_cancel_left _ (by decide)]
  conv => lhs; unfold PagerRef.contents
  simp only [hnew, hoff, hend, if_pos (Nat.le_of_lt hi)]
  funext j
  rw [Pager.clearOutside_apply, if_neg]
  rintro (⟨rfl, hlt⟩ | ⟨heq, -⟩)
  · exact absurd hlt (Nat.not_lt_zero _)
  · rw [hend] at heq
    omega

variable (d) in
/-- The clone of `w` when the pages of `done` are copied. -/
structure Copying (s t : Vmos) (w : VmoRef) (done : List Nat) : Prop where
  vmos : ∃ w', t.vmos = s.vmos ++ [w'] ∧ w'.len = w.len ∧
    w'.pager = .swap s.swaps w.pager ⟨0, pn2addr w.len⟩ ∧
    ∀ i, w'.pages i = if i ∈ done then some (.swap s.swaps i) else none
  swaps : s.swaps ≤ t.swaps
  below : SameBelow d s.swaps s.bufs t.bufs
  copied : ∀ i, t.bufs (.swap s.swaps i) =
    if i ∈ done then some (w.pager.contents d i s.bufs) else none

theorem Copying.req (h : Copying d s t w done) (hw : s.Fits w) (hlen : w.len < 2 ^ 52)
    (hi : i < w.len) :
    ∃ t', t.step d (.req s.vmos.length i) = .ok t' ∧ Copying d s t' w (i :: done) := by
  obtain ⟨⟨w', hvmos, hlen', hpager, hpages⟩, hswaps, hbelow, hcopied⟩ := h
  have hget : t.vmos[s.vmos.length]? = some w' := by rw [hvmos, List.getElem?_concat_length]
  have hbuf : w'.pager.buf i = .swap s.swaps i := by rw [hpager]; rfl
  simp only [Vmos.step, hget, hlen', hi, decide_true, assert_true, ok_bind, hpages]
  by_cases hmem : i ∈ done
  · have hiff : ∀ j, j ∈ i :: done ↔ j ∈ done := by
      intro j
      rw [List.mem_cons, or_iff_right_of_imp]
      rintro rfl
      exact hmem
    rw [if_pos hmem]
    exact ⟨t, rfl, ⟨w', hvmos, hlen', hpager, by simpa only [hiff] using hpages⟩, hswaps, hbelow,
      by simpa only [hiff] using hcopied⟩
  · rw [if_neg hmem]
    refine ⟨_, rfl, ⟨⟨w.len, update w'.pages i (some (w'.pager.buf i)), w'.pager⟩, ?_, rfl,
      hpager, fun j => ?_⟩, hswaps, hbelow.trans (.load hbuf le_rfl), fun j => ?_⟩
    · simp [hvmos]
    · by_cases heq : j = i <;> simp [heq, hpages, hbuf]
    · by_cases heq : j = i
      · have hnew : t.bufs (.swap s.swaps i) = none := by rw [hcopied, if_neg hmem]
        simp only [heq, List.mem_cons_self, if_true]
        rw [← hbuf, load_self, hpager, contents_clone hnew hi hlen, hbelow.contents hw.below]
      · have hne : PBufRef.swap s.swaps j ≠ w'.pager.buf i := by simp [hbuf, heq]
        simp only [load_swap_of_ne hne, hcopied, List.mem_cons, heq, false_or]

theorem Copying.reqs {is : List Nat} (h : Copying d s t w done) (hw : s.Fits w)
    (hlen : w.len < 2 ^ 52) (his : ∀ i ∈ is, i < w.len) :
    ∃ t', t.run d (is.map fun i => .req s.vmos.length i) = .ok t' ∧
      Copying d s t' w (is.reverse ++ done) := by
  induction is generalizing t done with
  | nil => exact ⟨t, rfl, h⟩
  | cons i is ih =>
    obtain ⟨t1, hstep, h1⟩ := h.req hw hlen (his i List.mem_cons_self)
    obtain ⟨t', hrun, h'⟩ := ih h1 fun j hj => his j (List.mem_cons_of_mem _ hj)
    refine ⟨t', ?_, by simpa using h'⟩
    unfold run at hrun ⊢
    rw [List.map_cons, List.foldlM_cons, hstep, ok_bind, hrun]

theorem Inv.copying (h : s.Inv) (w : VmoRef) :
    Copying d s (s.push (w.clone s.swaps) (s.swaps + 1)) w [] where
  vmos := ⟨_, rfl, rfl, rfl, fun _ => rfl⟩
  swaps := Nat.le_succ _
  below := .refl _ _
  copied i := by
    by_contra hne
    exact Nat.lt_irrefl _ (h.made _ i hne)

theorem Copying.snapshot (h : Copying d s t w done) (ht : t.Inv) (hw : s.Fits w)
    (hv : s.vmos[v]? = some w) (hdone : ∀ i, i ∈ done ↔ i < w.len) : Snapshot d s t v s.vmos.length w := by
  obtain ⟨⟨w', hvmos, hlen, hpager, hpages⟩, hswaps, hbelow, hcopied⟩ := h
  simp only [hdone] at hpages hcopied
  have hvt : t.vmos[v]? = some w := by
    rw [hvmos, List.getElem?_append_left (List.getElem?_eq_some_iff.1 hv).1, hv]
  have hct : t.vmos[s.vmos.length]? = some w' := by rw [hvmos, List.getElem?_concat_length]
  have hwt : t.Fits w := hw.mono hbelow.made hswaps
  have hbuf : ∀ i b, w'.pages i = some b → b = .swap s.swaps i := by
    intro i b hb
    rw [hpages] at hb
    split at hb
    · exact (Option.some.inj hb).symm
    · cases hb
  have hown : ∀ i j b, w'.pages i = some b → w.pages j ≠ some b := by
    intro i j b hb hb'
    obtain rfl := hbuf i b hb
    exact Nat.lt_irrefl _ (hw.below.lt (hw.pages j _ hb').1)
  have hpage : ∀ i < w.len, w'.pages i = some (.swap s.swaps i) := by
    intro i hi
    rw [hpages, if_pos hi]
  refine ⟨hvt, fun i => ?_, w', hct, hlen, fun i hi => ⟨_, hpage i hi, ?_⟩, hown, ?_, ?_⟩
  · rw [hwt.page_eq, hw.page_eq, hbelow.contents hw.below]
  · rw [hcopied, if_pos hi, hw.page_eq]
  · intro ops u hops hrun i hi
    -- the pager of the source has no buffer of the clone
    have hother : ∀ k, PBufRef.swap s.swaps i ≠ w.pager.buf k :=
      fun k heq => Nat.lt_irrefl _ (hw.below.lt heq)
    obtain ⟨-, hsame⟩ := ht.run_on (R := fun x y => y (.swap s.swaps i) = x (.swap s.swaps i))
      hvt hops hrun (fun _ => rfl) (fun h h' => h'.trans h) (fun k _ => load_swap_of_ne (hother k))
      fun k _ _ => update_of_ne (hother k) ..
    simp only [page, hpage i (hlen ▸ hi), hsame]
  · intro ops u hops hrun i _
    have hbuf' : ∀ k, w'.pager.buf k = .swap s.swaps k := fun k => by rw [hpager]; rfl
    obtain ⟨hswaps', hbelow'⟩ := ht.run_on (R := SameBelow d s.swaps) hct hops hrun (.refl _) .trans
      (fun k _ => .load (hbuf' k) le_rfl) fun k data _ => by
        rw [hbuf' k]
        exact .update le_rfl data
    rw [(hwt.mono hbelow'.made (Nat.le_of_eq hswaps'.symm)).page_eq, hwt.page_eq,
      hbelow'.contents hw.below]

/-- **Cloning takes a snapshot**, once each page of the clone was asked for. -/
theorem clone_snapshot (hr : Reach (step d) (fun _ _ => True) Start s)
    (hv : s.vmos[v]? = some w) (hlen : w.len < 2 ^ 52) {is : List Nat}
    (his : ∀ i, i ∈ is ↔ i < w.len) :
    ∃ s', s.run d (.clone v :: is.map fun i => .req s.vmos.length i) = .ok s' ∧
      Snapshot d s s' v s.vmos.length w := by
  have hinv : s.Inv := by
    refine hr.invariant Inv (fun s hs => ?_) fun s t op h _ hstep => h.step hstep
    obtain ⟨hbufs, -, hvmos⟩ := hs
    exact ⟨by simp [hvmos], by simp [hbufs]⟩
  have hw := hinv.fits w (List.mem_of_getElem? hv)
  obtain ⟨s', hrun, h⟩ := (hinv.copying w).reqs hw hlen fun i hi => (his i).1 hi
  have hclone : s.run d (.clone v :: is.map fun i => .req s.vmos.length i) = .ok s' := by
    unfold run at hrun ⊢
    simp only [List.foldlM_cons, step, hv]
    exact hrun
  refine ⟨s', hclone, h.snapshot (hinv.run hclone) hw hv fun i => ?_⟩
  rw [List.append_nil, List.mem_reverse]
  exact his i

def onePage : VmoRef :=
  { len := 1, pages := update (fun _ => none) 0 (some (.swap 0 0)), pager := .anon 0 }

/-- The page is written and cloned. -/
theorem clone_snapshot_written : ∃ s s' : Vmos,
    s.page ⟨fun _ => [], fun _ _ => Page.zero⟩ onePage 0 = (fun _ => 7) ∧
    s.run ⟨fun _ => [], fun _ _ => Page.zero⟩ [.clone 0, .req 1 0] = .ok s' ∧
    Snapshot ⟨fun _ => [], fun _ _ => Page.zero⟩ s s' 0 1 onePage := by
  have hrun : runWhile (step ⟨fun _ => [], fun _ _ => Page.zero⟩) (fun _ _ => True)
      [.anon 1, .req 0 0, .write 0 0 fun _ => 7] ⟨fun _ => none, 0, []⟩ =
        some ⟨_, 1, [onePage]⟩ := rfl
  have hr := reach_of_runWhile (show Start _ from ⟨rfl, rfl, rfl⟩) hrun
  have his : ∀ i, i ∈ [0] ↔ i < onePage.len := by simp [onePage]
  have hv : [onePage][0]? = some onePage := rfl
  obtain ⟨s', hclone, hsnap⟩ := clone_snapshot hr hv (show onePage.len < 2 ^ 52 by decide) his
  exact ⟨_, s', rfl, hclone, hsnap⟩

end Run

end Vmos

end LuoOS.Vm
