import LuoOS.Dev.VirtioDisk
import LuoOS.Lib.Ring
import LuoOS.Lib.Runs
import Mathlib.Data.List.Nodup
import Mathlib.Data.Fintype.Card

/-!
# Completion of disk requests

As long as no wait gives up, the descriptors that are taken are those of the calls in their wait,
every chain with the device belongs to such a call, and `info` at its head has the `ready` of the
call (`Inv`). So the handler sets the flag of the right call, and a call returns only when its own
chain is complete.

A wait that gives up frees descriptors that the device still has. The next pass takes them again, so
they are in two chains (`not_safe_giveUp`).
-/

namespace LuoOS.Virtio

open Runs Function

def Stage.chain? : Stage → Option Chain
  | spinning ch _ => some ch
  | leaving ch _ => some ch
  | _ => none

def Stage.Outside : Stage → Prop
  | idle => True
  | allocating => True
  | asleep => True
  | _ => False

/-- The descriptors of the chain are taken and linked. -/
structure Linked (d : Descs) (ch : Chain) : Prop where
  nodup : ch.descs.Nodup
  taken : ∀ i ∈ ch.descs, d.free i = false
  first : (d.desc ch.idx0).flagNext = true ∧ (d.desc ch.idx0).next = ch.idx1
  second : (d.desc ch.idx1).flagNext = true ∧ (d.desc ch.idx1).next = ch.idx2
  last : (d.desc ch.idx2).flagNext = false

/-- The chain `ch` is the one of the call `c`. -/
structure Held (s : State) (c : Call) (ch : Chain) : Prop where
  call : ch.call = c
  made : ch.request < s.made
  linked : Linked s.descs ch
  info : s.info ch.idx0 = some ch.request

def Stage.Fits (s : State) (c : Call) : Stage → Prop
  | spinning ch _ => Held s c ch ∧ (s.ready ch.request = none ∨ s.ready ch.request = some ch)
  | leaving ch _ => Held s c ch ∧ s.ready ch.request = some ch
  | returned ch => ch.call = c ∧ s.ready ch.request = some ch
  | _ => True

/-- The used ring holds the chains that are not yet handled. -/
structure Posted (dev : Device) (usedIdx : Nat) (pend : List Chain) : Prop where
  completed : ∀ ch ∈ pend, ch ∈ dev.completed
  ring : Ring.contents NUM dev.elems usedIdx pend.length = pend.map fun ch => ⟨ch.idx0, ch⟩
  count : dev.usedId % NUM = (usedIdx + pend.length) % NUM
  bound : usedIdx < NUM

/-- The invariant, where `pend` are the chains not yet handled. -/
structure Inv (s : State) (pend : List Chain) : Prop where
  calls : ∀ c, (s.stage c).Fits s c
  apart : ∀ c c' ch ch', (s.stage c).chain? = some ch → (s.stage c').chain? = some ch' → c ≠ c' →
    ch.descs.Disjoint ch'.descs ∧ ch.request ≠ ch'.request
  set : ∀ r ch, s.ready r = some ch → r < s.made ∧ ch ∈ s.device.completed
  busy : ∀ ch ∈ s.device.inFlight ++ pend,
    (∃ retry, s.stage ch.call = .spinning ch retry) ∧ s.ready ch.request = none
  nodup : (s.device.inFlight ++ pend).Nodup
  posted : Posted s.device s.usedIdx pend

variable {st : Stage}

section Frames

variable {d d' : Descs} {g g' g'' : Call → Stage} {s s' : State} {c : Call} {ch : Chain}
  {pend : List Chain} {i j k : Idx}

theorem Linked.congr (h : Linked d ch) (hfree : ∀ i ∈ ch.descs, d'.free i = false)
    (hdesc : ∀ i ∈ ch.descs, (d'.desc i).flagNext = (d.desc i).flagNext ∧
      (d'.desc i).next = (d.desc i).next) : Linked d' ch := by
  obtain ⟨hnodup, -, hfirst, hsecond, hlast⟩ := h
  obtain ⟨hf0, hn0⟩ := hdesc ch.idx0 (by simp [Chain.descs])
  obtain ⟨hf1, hn1⟩ := hdesc ch.idx1 (by simp [Chain.descs])
  obtain ⟨hf2, -⟩ := hdesc ch.idx2 (by simp [Chain.descs])
  exact ⟨hnodup, hfree, ⟨hf0 ▸ hfirst.1, hn0 ▸ hfirst.2⟩, ⟨hf1 ▸ hsecond.1, hn1 ▸ hsecond.2⟩,
    hf2 ▸ hlast⟩

def Shifts (g g' : Call → Stage) : Prop := ∀ c, g' c = g c ∨ (g c).Outside ∧ (g' c).Outside

namespace Shifts

theorem refl : Shifts g g := fun _ => .inl rfl

theorem trans (h : Shifts g g') (h' : Shifts g' g'') : Shifts g g'' := by
  intro c
  rcases h c with h | ⟨h, h1⟩
  · rcases h' c with h' | ⟨h', h2⟩
    · exact .inl (h'.trans h)
    · exact .inr ⟨h ▸ h', h2⟩
  · rcases h' c with h' | ⟨-, h2⟩
    · exact .inr ⟨h, h'.symm ▸ h1⟩
    · exact .inr ⟨h, h2⟩

theorem update (h : (g c).Outside) (hst : st.Outside) : Shifts g (update g c st) := by
  intro c'
  rcases eq_or_ne c' c with rfl | hne
  · exact .inr ⟨h, (update_self c' st g).symm ▸ hst⟩
  · exact .inl (update_of_ne hne ..)

theorem keeps (h : Shifts g g') (hst : ¬st.Outside) (hc : g c = st) : g' c = st := by
  rcases h c with h | ⟨h, -⟩
  · exact h.trans hc
  · exact absurd (hc ▸ h) hst

theorem chain? (h : Shifts g g') (c : Call) : (g' c).chain? = (g c).chain? := by
  have hnone : ∀ st : Stage, st.Outside → st.chain? = none := by
    rintro (_ | _ | _ | _ | _ | _) hst
    all_goals first | rfl | exact hst.elim
  rcases h c with h | ⟨h, h'⟩
  · rw [h]
  · rw [hnone _ h, hnone _ h']

end Shifts

theorem Inv.held (h : Inv s pend) (hc : (s.stage c).chain? = some ch) : Held s c ch := by
  have hfits := h.calls c
  cases hst : s.stage c with
  | spinning ch' retry =>
    rw [hst] at hc hfits
    cases hc
    exact hfits.1
  | leaving ch' success =>
    rw [hst] at hc hfits
    cases hc
    exact hfits.1
  | _ => rw [hst] at hc; cases hc

theorem Held.congr (h : Held s c ch) (hmade : s'.made = s.made) (hdescs : s'.descs = s.descs)
    (hinfo : s'.info = s.info) : Held s' c ch :=
  ⟨h.call, hmade ▸ h.made, hdescs ▸ h.linked, hinfo ▸ h.info⟩

/-- A stage fits also after a step that leaves its chain and its flag alone. -/
theorem Stage.Fits.mono (h : st.Fits s c)
    (hheld : ∀ ch, st.chain? = some ch → Held s c ch → Held s' c ch)
    (hready : s'.ready = s.ready) : st.Fits s' c := by
  cases st with
  | spinning ch retry => exact ⟨hheld ch rfl h.1, hready ▸ h.2⟩
  | leaving ch success => exact ⟨hheld ch rfl h.1, hready ▸ h.2⟩
  | returned ch => exact ⟨h.1, hready ▸ h.2⟩
  | _ => trivial

theorem Stage.Outside.fits (h : st.Outside) : st.Fits s c := by
  cases st with
  | spinning | leaving | returned => exact h.elim
  | _ => trivial

theorem Inv.shift (h : Inv s pend) (hg : Shifts s.stage g) (l : List Call)
    (hd : ∀ c ch, (s.stage c).chain? = some ch → Linked d ch) :
    Inv { s with descs := d, stage := g, waiting := l } pend where
  calls c := by
    rcases hg c with hsame | ⟨-, hout⟩
    · change (g c).Fits _ c
      rw [hsame]
      exact (h.calls c).mono
        (fun ch hch hheld => ⟨hheld.call, hheld.made, hd c ch hch, hheld.info⟩) rfl
    · exact hout.fits
  apart c c' ch ch' hc hc' :=
    h.apart c c' ch ch' ((hg.chain? c).symm.trans hc) ((hg.chain? c').symm.trans hc')
  set := h.set
  busy ch hch := by
    obtain ⟨⟨retry, hstage⟩, hready⟩ := h.busy ch hch
    exact ⟨⟨retry, hg.keeps id hstage⟩, hready⟩
  nodup := h.nodup
  posted := h.posted

theorem Inv.not_mem_of_free (h : Inv s pend) (hfree : s.descs.free i = true)
    (hc : (s.stage c).chain? = some ch) : i ∉ ch.descs := by
  intro hi
  rw [(h.held hc).linked.taken i hi] at hfree
  cases hfree

end Frames

/-! ## Descriptors -/

section Descriptors

variable {d d' : Descs} {s s' : State} {K : Idx → Prop} {i j k : Idx}

/-- A step that leaves the descriptors in `K` alone. -/
structure Keeps (K : Idx → Prop) (s s' : State) : Prop where
  same : ∃ d g l, s' = { s with descs := d, stage := g, waiting := l } ∧ Shifts s.stage g
  free : ∀ i, K i → s'.descs.free i = s.descs.free i
  desc : ∀ i, K i → s'.descs.desc i = s.descs.desc i

theorem Keeps.trans {s'' : State} (h : Keeps K s s') (h' : Keeps K s' s'') : Keeps K s s'' := by
  obtain ⟨⟨d, g, l, rfl, hg⟩, hfree, hdesc⟩ := h
  obtain ⟨⟨d', g', l', rfl, hg'⟩, hfree', hdesc'⟩ := h'
  exact ⟨⟨d', g', l', rfl, hg.trans hg'⟩, fun i hi => (hfree' i hi).trans (hfree i hi),
    fun i hi => (hdesc' i hi).trans (hdesc i hi)⟩

/-- What `alloc_desc` does: the descriptor was free, and is the only one that has changed. -/
theorem allocDesc_eq_some (h : d.allocDesc = some (i, d')) :
    d.free i = true ∧ d'.free i = false ∧ d'.desc = d.desc ∧ ∀ j ≠ i, d'.free j = d.free j := by
  obtain ⟨i', hfind, heq⟩ := Option.map_eq_some_iff.1 h
  cases heq
  exact ⟨List.find?_some hfind, update_self .., rfl,
    fun j hj => update_of_ne hj ..⟩

theorem keeps_allocDesc (h : s.descs.allocDesc = some (i, d')) (hi : ¬K i) :
    Keeps K s { s with descs := d' } := by
  obtain ⟨-, -, hdesc, hfree⟩ := allocDesc_eq_some h
  exact ⟨⟨d', s.stage, s.waiting, rfl, .refl⟩, fun j hj => hfree j fun h => hi (h ▸ hj),
    fun j _ => congrFun hdesc j⟩

theorem shifts_wakeWaiting (s : State) : Shifts s.stage s.wakeWaiting.stage := by
  intro c
  unfold State.wakeWaiting
  dsimp only
  by_cases hc : c ∈ s.waiting
  · rw [if_pos hc]
    cases hst : s.stage c with
    | asleep => exact .inr ⟨trivial, trivial⟩
    | _ => exact .inl rfl
  · rw [if_neg hc]
    exact .inl rfl

theorem freeDesc_eq_ok (h : s.freeDesc i = .ok s') (hi : ¬K i) :
    Keeps K s s' ∧ ∀ j, (s'.descs.desc j).flagNext = (s.descs.desc j).flagNext ∧
      (s'.descs.desc j).next = (s.descs.desc j).next := by
  obtain ⟨d, hd, h⟩ := bind_eq_ok h
  cases h
  unfold Descs.freeDesc at hd
  split at hd
  · cases hd
  cases hd
  refine ⟨⟨⟨_, _, _, rfl, shifts_wakeWaiting _⟩, fun j hj => ?_, fun j hj => ?_⟩, fun j => ?_⟩
  · have hne : j ≠ i := fun h => hi (h ▸ hj)
    exact update_of_ne hne ..
  · have hne : j ≠ i := fun h => hi (h ▸ hj)
    exact update_of_ne hne ..
  · change (update s.descs.desc i _ j).flagNext = _ ∧
      (update s.descs.desc i _ j).next = _
    rcases eq_or_ne j i with rfl | hne
    · rw [update_self]
      exact ⟨rfl, rfl⟩
    · rw [update_of_ne hne]
      exact ⟨rfl, rfl⟩

theorem alloc3Desc_eq_ok {r : Option (Idx × Idx × Idx)} (h : s.alloc3Desc = .ok (r, s')) :
    Keeps (fun i => s.descs.free i = false) s s' ∧
      ∀ i j k, r = some (i, j, k) →
        s' = { s with descs := s'.descs } ∧ [i, j, k].Nodup ∧
        ∀ l ∈ [i, j, k], s.descs.free l = true ∧ s'.descs.free l = false := by
  have hK : ∀ i, s.descs.free i = true → ¬s.descs.free i = false := fun i hi => by
    rw [hi]
    decide
  unfold State.alloc3Desc at h
  split at h
  · cases h
    exact ⟨⟨⟨_, _, _, rfl, .refl⟩, fun _ _ => rfl, fun _ _ => rfl⟩, fun _ _ _ h => nomatch h⟩
  next i d1 h1 =>
  obtain ⟨hi, hi1, -, hd1⟩ := allocDesc_eq_some h1
  have hkeep1 := keeps_allocDesc (K := fun i => s.descs.free i = false) h1 (hK i hi)
  split at h
  · obtain ⟨s1, hfree, h⟩ := bind_eq_ok h
    cases h
    exact ⟨hkeep1.trans (freeDesc_eq_ok hfree (hK i hi)).1, fun _ _ _ h => nomatch h⟩
  next j d2 h2 =>
  obtain ⟨hj1, hj2, -, hd2⟩ := allocDesc_eq_some h2
  have hji : j ≠ i := by
    rintro rfl
    rw [hi1] at hj1
    cases hj1
  have hj := (hd1 j hji).symm.trans hj1
  have hkeep2 := hkeep1.trans (keeps_allocDesc h2 (hK j hj))
  split at h
  · obtain ⟨s1, hfree, h⟩ := bind_eq_ok h
    obtain ⟨s2, hfree', h⟩ := bind_eq_ok h
    cases h
    exact ⟨(hkeep2.trans (freeDesc_eq_ok hfree (hK i hi)).1).trans
      (freeDesc_eq_ok hfree' (hK j hj)).1, fun _ _ _ h => nomatch h⟩
  next k d3 h3 =>
  obtain ⟨hk2, hk3, -, hd3⟩ := allocDesc_eq_some h3
  have hkj : k ≠ j := by
    rintro rfl
    rw [hj2] at hk2
    cases hk2
  have hk1 := (hd2 k hkj).symm.trans hk2
  have hki : k ≠ i := by
    rintro rfl
    rw [hi1] at hk1
    cases hk1
  have hk := (hd1 k hki).symm.trans hk1
  cases h
  refine ⟨hkeep2.trans (keeps_allocDesc h3 (hK k hk)), fun i' j' k' hr => ?_⟩
  cases hr
  refine ⟨rfl, by simp [hji.symm, hki.symm, hkj.symm], fun l hl => ?_⟩
  simp only [List.mem_cons, List.not_mem_nil, or_false] at hl
  rcases hl with rfl | rfl | rfl
  · exact ⟨hi, (hd3 l hki.symm).trans ((hd2 l hji.symm).trans hi1)⟩
  · exact ⟨hj, (hd3 l hkj.symm).trans hj2⟩
  · exact ⟨hk, hk3⟩

theorem freeChain_eq_ok {ch : Chain} {fuel : Nat} (hch : Linked s.descs ch)
    (h : s.freeChain ch.idx0 (fuel + 3) = .ok s') : Keeps (· ∉ ch.descs) s s' := by
  obtain ⟨s1, h1, h⟩ := bind_eq_ok h
  obtain ⟨hkeep1, hsame1⟩ := freeDesc_eq_ok (K := (· ∉ ch.descs)) h1 (by simp [Chain.descs])
  rw [(hsame1 ch.idx0).1, (hsame1 ch.idx0).2, hch.first.1, hch.first.2, if_pos rfl] at h
  obtain ⟨s2, h2, h⟩ := bind_eq_ok h
  obtain ⟨hkeep2, hsame2⟩ := freeDesc_eq_ok (K := (· ∉ ch.descs)) h2 (by simp [Chain.descs])
  rw [(hsame2 ch.idx1).1, (hsame2 ch.idx1).2, (hsame1 ch.idx1).1, (hsame1 ch.idx1).2,
    hch.second.1, hch.second.2, if_pos rfl] at h
  obtain ⟨s3, h3, h⟩ := bind_eq_ok h
  obtain ⟨hkeep3, hsame3⟩ := freeDesc_eq_ok (K := (· ∉ ch.descs)) h3 (by simp [Chain.descs])
  rw [(hsame3 ch.idx2).1, (hsame2 ch.idx2).1, (hsame1 ch.idx2).1, hch.last,
    if_neg Bool.false_ne_true] at h
  cases h
  exact (hkeep1.trans hkeep2).trans hkeep3

end Descriptors

/-! ## The steps -/

section Steps

variable {s s' : State} {pend : List Chain} {c : Call} {ch : Chain} {i j k : Idx}

section

variable (h : Inv s pend)
include h

theorem Inv.linked_of_keeps {K : Idx → Prop} {s' : State} (hkeep : Keeps K s s')
    (hc : (s.stage c).chain? = some ch) (hK : ∀ i ∈ ch.descs, K i) : Linked s'.descs ch := by
  have hlinked := (h.held hc).linked
  refine hlinked.congr (fun i hi => ?_) fun i hi => ?_
  · rw [hkeep.free i (hK i hi), hlinked.taken i hi]
  · rw [hkeep.desc i (hK i hi)]
    exact ⟨rfl, rfl⟩

theorem Inv.chain_of_busy (hch : ch ∈ s.device.inFlight ++ pend) :
    (s.stage ch.call).chain? = some ch := by
  obtain ⟨⟨retry, hstage⟩, -⟩ := h.busy ch hch
  rw [hstage]
  rfl

theorem Inv.calls_ne {ch' : Chain} (hch : ch ∈ s.device.inFlight ++ pend)
    (hch' : ch' ∈ s.device.inFlight ++ pend) (hne : ch ≠ ch') : ch.call ≠ ch'.call := by
  intro hcall
  have hstage := h.chain_of_busy hch
  rw [hcall, h.chain_of_busy hch'] at hstage
  exact hne (Option.some.inj hstage).symm

theorem Inv.pairwise :
    (s.device.inFlight ++ pend).Pairwise fun ch ch' => ch.descs.Disjoint ch'.descs := by
  refine h.nodup.imp_of_mem fun hch hch' hne => ?_
  exact (h.apart _ _ _ _ (h.chain_of_busy hch) (h.chain_of_busy hch') (h.calls_ne hch hch' hne)).1

theorem Inv.length_le : 3 * (s.device.inFlight.length + pend.length) ≤ NUM := by
  have hnodup : ((s.device.inFlight ++ pend).flatMap Chain.descs).Nodup := by
    refine List.nodup_flatMap.2 ⟨fun ch hch => ?_, h.pairwise⟩
    exact (h.held (h.chain_of_busy hch)).linked.nodup
  have hlen := hnodup.length_le_card
  rw [List.length_flatMap, Fintype.card_fin] at hlen
  have hsum : ((s.device.inFlight ++ pend).map fun ch => ch.descs.length).sum =
      (s.device.inFlight ++ pend).length * 3 := by
    simp [Chain.descs]
  rw [hsum, List.length_append] at hlen
  omega

end

/-! ### Submitting -/

theorem linked_format (d : Descs) (c : Call) (r : Request) (hnodup : [i, j, k].Nodup)
    (htaken : ∀ l ∈ [i, j, k], d.free l = false) :
    Linked { d with desc := State.format d.desc c i j k } ⟨c, r, i, j, k⟩ := by
  obtain ⟨⟨hij, hik⟩, hjk⟩ : (i ≠ j ∧ i ≠ k) ∧ j ≠ k := by simpa using hnodup
  refine ⟨hnodup, htaken, ?_, ?_, ?_⟩
  · dsimp only [State.format]
    rw [update_of_ne hik, update_of_ne hij, update_self]
    exact ⟨rfl, rfl⟩
  · dsimp only [State.format]
    rw [update_of_ne hjk, update_self]
    exact ⟨rfl, rfl⟩
  · dsimp only [State.format]
    rw [update_self]

theorem format_of_not_mem {l : Idx} (desc : Idx → VRingDesc) (c : Call) (h : l ∉ [i, j, k]) :
    State.format desc c i j k l = desc l := by
  obtain ⟨hi, hj, hk⟩ : l ≠ i ∧ l ≠ j ∧ l ≠ k := by simpa using h
  dsimp only [State.format]
  rw [update_of_ne hk, update_of_ne hj, update_of_ne hi]

theorem Inv.submit (h : Inv s pend) (hc : s.stage c = .allocating) (hnodup : [i, j, k].Nodup)
    (htaken : ∀ l ∈ [i, j, k], s.descs.free l = false)
    (hnew : ∀ c' ch, (s.stage c').chain? = some ch → ∀ l ∈ [i, j, k], l ∉ ch.descs) :
    Inv (s.submit c i j k) pend := by
  have hself : (s.submit c i j k).stage c = .spinning ⟨c, s.made, i, j, k⟩ State.retryMax :=
    update_self ..
  have hother : ∀ c' ≠ c, (s.submit c i j k).stage c' = s.stage c' :=
    fun c' hne => update_of_ne hne ..
  have hready : s.ready s.made = none := by
    cases hr : s.ready s.made with
    | none => rfl
    | some ch => exact absurd (h.set _ _ hr).1 (Nat.lt_irrefl _)
  have hapart : ∀ c' ch, (s.stage c').chain? = some ch →
      ch.descs.Disjoint [i, j, k] ∧ ch.request ≠ s.made := fun c' ch hch =>
    ⟨fun l hl hl' => hnew c' ch hch l hl' hl, Nat.ne_of_lt (h.held hch).made⟩
  have hbusy : ∀ ch ∈ s.device.inFlight ++ pend, ch.call ≠ c := by
    intro ch hch hcall
    obtain ⟨⟨retry, hstage⟩, -⟩ := h.busy ch hch
    rw [hcall, hc] at hstage
    cases hstage
  have hperm : ((s.submit c i j k).device.inFlight ++ pend).Perm
      (⟨c, s.made, i, j, k⟩ :: (s.device.inFlight ++ pend)) := by
    change (s.device.inFlight ++ [_] ++ pend).Perm _
    rw [List.append_assoc]
    exact List.perm_middle
  refine ⟨fun c' => ?_, fun c1 c2 ch1 ch2 h1 h2 hne => ?_, fun r ch hr => ?_, fun ch hch => ?_, ?_,
    ⟨h.posted.completed, h.posted.ring, h.posted.count, h.posted.bound⟩⟩
  · rcases eq_or_ne c' c with rfl | hne
    · rw [hself]
      exact ⟨⟨rfl, Nat.lt_succ_self _, linked_format s.descs c' s.made hnodup htaken,
        update_self ..⟩, .inl hready⟩
    rw [hother c' hne]
    refine (h.calls c').mono (fun ch hch hheld => ?_) rfl
    have hdisj := (hapart c' ch hch).1
    refine ⟨hheld.call, Nat.lt_succ_of_lt hheld.made,
      hheld.linked.congr hheld.linked.taken fun l hl => ?_, ?_⟩
    · dsimp only [State.submit]
      rw [format_of_not_mem _ _ (hdisj hl)]
      exact ⟨rfl, rfl⟩
    · have hidx : ch.idx0 ≠ i := fun heq =>
        hdisj (a := i) (by simp [Chain.descs, heq]) List.mem_cons_self
      exact (update_of_ne hidx ..).trans hheld.info
  · rcases eq_or_ne c1 c with rfl | hne1
    · rw [hother c2 hne.symm] at h2
      rw [hself] at h1
      cases h1
      obtain ⟨hdisj, hreq⟩ := hapart c2 ch2 h2
      exact ⟨hdisj.symm, hreq.symm⟩
    · rw [hother c1 hne1] at h1
      rcases eq_or_ne c2 c with rfl | hne2
      · rw [hself] at h2
        cases h2
        exact hapart c1 ch1 h1
      · rw [hother c2 hne2] at h2
        exact h.apart c1 c2 ch1 ch2 h1 h2 hne
  · obtain ⟨hlt, hdone⟩ := h.set r ch hr
    exact ⟨Nat.lt_succ_of_lt hlt, hdone⟩
  · rcases List.mem_cons.1 (hperm.mem_iff.1 hch) with rfl | hold
    · exact ⟨⟨_, hself⟩, hready⟩
    · rw [hother ch.call (hbusy ch hold)]
      exact h.busy ch hold
  · refine hperm.nodup_iff.2 (List.nodup_cons.2 ⟨fun hold => ?_, h.nodup⟩)
    exact hbusy _ hold rfl

theorem Inv.start (h : Inv s pend) (hc : s.stage c = .allocating) (hstep : s.start c = .ok s') :
    Inv s' pend := by
  obtain ⟨⟨idx, s1⟩, halloc, hstep⟩ := bind_eq_ok hstep
  obtain ⟨hkeep, hsome⟩ := alloc3Desc_eq_ok halloc
  have hlinked : ∀ c ch, (s.stage c).chain? = some ch → Linked s1.descs ch := fun c ch hch =>
    h.linked_of_keeps hkeep hch fun i hi => (h.held hch).linked.taken i hi
  cases idx with
  | none =>
    cases hstep
    obtain ⟨d, g, l, rfl, hg⟩ := hkeep.same
    have hout : (g c).Outside := by
      rcases hg c with hsame | ⟨-, hout⟩
      · rw [hsame, hc]
        trivial
      · exact hout
    have hasleep : Shifts g (update g c .asleep) := .update hout trivial
    exact h.shift (hg.trans hasleep) _ hlinked
  | some idx =>
    obtain ⟨i, j, k⟩ := idx
    cases hstep
    obtain ⟨hs1, hnodup, htaken⟩ := hsome i j k rfl
    have hinv : Inv s1 pend := hs1 ▸ h.shift .refl s.waiting hlinked
    have hstage : s1.stage = s.stage := by rw [hs1]
    refine hinv.submit (hstage ▸ hc) hnodup (fun l hl => (htaken l hl).2) fun c' ch hch l hl => ?_
    rw [hstage] at hch
    exact h.not_mem_of_free (htaken l hl).1 hch

/-! ### The wait -/

theorem chain?_of_update {g : Call → Stage} (h : ∀ ch, st.chain? = some ch → (g c).chain? = some ch)
    {c' : Call} (hc : (update g c st c').chain? = some ch) : (g c').chain? = some ch := by
  rcases eq_or_ne c' c with rfl | hne
  · rw [update_self] at hc
    exact h ch hc
  · rwa [update_of_ne hne] at hc

theorem Inv.restage (h : Inv s pend)
    (hst : ∀ ch, st.chain? = some ch → (s.stage c).chain? = some ch)
    (hfits : st.Fits s c) (hbusy : ∀ ch ∈ s.device.inFlight ++ pend, ch.call = c →
      ∃ retry, st = .spinning ch retry) :
    Inv { s with stage := update s.stage c st } pend where
  calls c' := by
    rcases eq_or_ne c' c with rfl | hne
    · change (update s.stage c' st c').Fits _ c'
      rw [update_self]
      exact hfits.mono (fun _ _ hheld => hheld.congr rfl rfl rfl) rfl
    · change (update s.stage c st c').Fits _ c'
      rw [update_of_ne hne]
      exact (h.calls c').mono (fun _ _ hheld => hheld.congr rfl rfl rfl) rfl
  apart c1 c2 ch1 ch2 h1 h2 :=
    h.apart c1 c2 ch1 ch2 (chain?_of_update hst h1) (chain?_of_update hst h2)
  set := h.set
  busy ch hch := by
    obtain ⟨hstage, hready⟩ := h.busy ch hch
    refine ⟨?_, hready⟩
    dsimp only
    rcases eq_or_ne ch.call c with hcall | hne
    · rw [hcall, update_self]
      exact hbusy ch hch hcall
    · rw [update_of_ne hne]
      exact hstage
  nodup := h.nodup
  posted := h.posted

theorem Inv.poll (h : Inv s pend) {retry : Nat} (hc : s.stage c = .spinning ch retry)
    (hintime : retry = 0 → s.ready ch.request ≠ none) : Inv (s.poll c ch retry) pend := by
  have hfits : (Stage.spinning ch retry).Fits s c := hc ▸ h.calls c
  have hsame : ∀ ch' ∈ s.device.inFlight ++ pend, ch'.call = c → ch' = ch := by
    intro ch' hch' hcall
    have hchain := h.chain_of_busy hch'
    rw [hcall, hc] at hchain
    exact (Option.some.inj hchain).symm
  unfold State.poll
  cases hready : s.ready ch.request with
  | some ch' =>
    refine h.restage (fun _ hch => hc ▸ hch) ⟨hfits.1, ?_⟩ fun ch1 hch1 hcall => ?_
    · exact hfits.2.resolve_left (by rw [hready]; exact Option.some_ne_none _)
    · have hnone := (h.busy ch1 hch1).2
      rw [hsame ch1 hch1 hcall, hready] at hnone
      cases hnone
  | none =>
    cases retry with
    | zero => exact absurd hready (hintime rfl)
    | succ retry =>
      exact h.restage (fun _ hch => hc ▸ hch) hfits fun ch1 hch1 hcall =>
        ⟨retry, by rw [hsame ch1 hch1 hcall]⟩

theorem Shifts.update_both {g g' : Call → Stage} (h : Shifts g g') (c : Call) (st : Stage) :
    Shifts (Function.update g c st) (Function.update g' c st) := by
  intro c'
  rcases eq_or_ne c' c with rfl | hne
  · rw [update_self, update_self]
    exact .inl rfl
  · rw [update_of_ne hne, update_of_ne hne]
    exact h c'

theorem Inv.leave (h : Inv s pend) {success : Bool} (hc : s.stage c = .leaving ch success)
    (hstep : s.leave c ch success = .ok s') : Inv s' pend := by
  obtain ⟨s1, hfree, hstep⟩ := bind_eq_ok hstep
  cases hstep
  have hleaving : (Stage.leaving ch success).Fits s c := hc ▸ h.calls c
  obtain ⟨hheld, hset⟩ := hleaving
  have hkeep := freeChain_eq_ok hheld.linked hfree
  obtain ⟨d, g, l, rfl, hg⟩ := hkeep.same
  have hchain : (s.stage c).chain? = some ch := by
    rw [hc]
    rfl
  let st : Stage := if success then .returned ch else .allocating
  have hnone : ∀ ch', st.chain? ≠ some ch' := by
    intro ch'
    cases success <;> exact fun h => nomatch h
  have hfits : st.Fits s c := by
    cases success
    · trivial
    · exact ⟨hheld.call, hset⟩
  have hinv : Inv { s with stage := update s.stage c st } pend := by
    refine h.restage (fun ch' hch' => absurd hch' (hnone ch')) hfits fun ch' hch' hcall => ?_
    have hchain' := h.chain_of_busy hch'
    have hready := (h.busy ch' hch').2
    rw [hcall, hchain] at hchain'
    rw [← Option.some.inj hchain', hset] at hready
    cases hready
  refine hinv.shift (hg.update_both c st) l fun c' ch' hch' => ?_
  have hne : c' ≠ c := by
    rintro rfl
    dsimp only at hch'
    rw [update_self] at hch'
    exact hnone ch' hch'
  have hold : (s.stage c').chain? = some ch' :=
    chain?_of_update (fun ch1 hch1 => absurd hch1 (hnone ch1)) hch'
  exact h.linked_of_keeps hkeep hold fun i hi hi' => (h.apart c' c ch' ch hold hchain hne).1 hi hi'

/-! ### The device and the handler -/

theorem Inv.complete (h : Inv s pend) (n : Nat) : ∃ pend', Inv (s.complete n) pend' := by
  unfold State.complete
  cases hn : s.device.inFlight[n]? with
  | none => exact ⟨pend, h⟩
  | some ch =>
    obtain ⟨hlt, hget⟩ := List.getElem?_eq_some_iff.1 hn
    have hperm : (s.device.inFlight.eraseIdx n ++ (pend ++ [ch])).Perm
        (s.device.inFlight ++ pend) := by
      have herase := List.getElem_cons_eraseIdx_perm hlt
      rw [hget] at herase
      rw [← List.append_assoc]
      exact (List.perm_append_singleton ch _).trans (herase.append_right pend)
    have hlen := h.length_le
    have hbound : pend.length < NUM := by
      omega
    refine ⟨pend ++ [ch], fun c => (h.calls c).mono (fun _ _ hheld => hheld.congr rfl rfl rfl) rfl,
      h.apart, fun r ch' hr => ?_, fun ch' hch' => ?_,
      hperm.nodup_iff.2 h.nodup, ?_⟩
    · obtain ⟨hlt', hdone⟩ := h.set r ch' hr
      exact ⟨hlt', List.mem_cons_of_mem _ hdone⟩
    · exact h.busy ch' (hperm.mem_iff.1 hch')
    · obtain ⟨hcompleted, hring, hcount, hidx⟩ := h.posted
      refine ⟨fun ch' hch' => ?_, ?_, ?_, hidx⟩
      · rcases List.mem_append.1 hch' with hold | hnew
        · exact List.mem_cons_of_mem _ (hcompleted ch' hold)
        · rw [List.mem_singleton.1 hnew]
          exact List.mem_cons_self
      · rw [hcount, List.length_append, List.length_singleton, Ring.contents_update hbound, hring,
          List.map_append]
        rfl
      · rw [Nat.mod_mod_of_dvd _ (by decide), List.length_append, List.length_singleton,
          Nat.add_mod, hcount, ← Nat.add_mod]
        rfl

/-- What the handler has before it is the completion of a chain that its call waits for. -/
theorem Inv.used (h : Inv s pend) (hused : s.Used) :
    ∃ ch rest retry, pend = ch :: rest ∧ (s.device.elems s.usedIdx).chain = ch ∧
      s.stage ch.call = .spinning ch retry ∧ s.target = some ch.request := by
  obtain ⟨-, hring, hcount, hbound⟩ := h.posted
  cases pend with
  | nil => exact absurd hcount.symm hused
  | cons ch rest =>
    have hch : ch ∈ s.device.inFlight ++ ch :: rest := by simp
    obtain ⟨⟨retry, hstage⟩, -⟩ := h.busy ch hch
    have helem : s.device.elems s.usedIdx = ⟨ch.idx0, ch⟩ := by
      rw [List.length_cons, Nat.add_comm, Ring.contents_add, List.map_cons] at hring
      have hhead := (List.cons.inj hring).1
      dsimp only at hhead
      rwa [Nat.add_zero, Nat.mod_eq_of_lt hbound] at hhead
    refine ⟨ch, rest, retry, rfl, by rw [helem], hstage, ?_⟩
    unfold State.target
    rw [helem]
    exact (h.held (h.chain_of_busy hch)).info

theorem Inv.intr (h : Inv s pend) (hstep : s.intr = .ok s') : ∃ pend', Inv s' pend' := by
  unfold State.intr at hstep
  by_cases hused : s.Used
  · obtain ⟨ch, rest, retry, rfl, helem, hstage, htarget⟩ := h.used hused
    rw [if_pos hused, htarget, helem] at hstep
    cases hstep
    have hch : ch ∈ s.device.inFlight ++ ch :: rest := by simp
    have hnone : s.ready ch.request = none := (h.busy ch hch).2
    have hchain := h.chain_of_busy hch
    have hold : ∀ r ch', s.ready r = some ch' →
        update s.ready ch.request (some ch) r = some ch' := by
      intro r ch' hr
      rwa [update_of_ne]
      rintro rfl
      rw [hnone] at hr
      cases hr
    have hkeep : ∀ c' ch', Held s c' ch' → Held { s with
        ready := update s.ready ch.request (some ch)
        usedIdx := (s.usedIdx + 1) % NUM } c' ch' := fun _ _ hheld => hheld.congr rfl rfl rfl
    refine ⟨rest, fun c' => ?_, h.apart, fun r ch' hr => ?_, fun ch' hch' => ?_, ?_, ?_⟩
    · have hfits := h.calls c'
      cases hst : s.stage c' with
      | spinning ch' retry' =>
        rw [hst] at hfits
        refine ⟨hkeep c' ch' hfits.1, ?_⟩
        dsimp only
        rcases eq_or_ne c' ch.call with rfl | hne
        · rw [hst] at hstage
          cases hstage
          exact .inr (update_self ..)
        have hchain' : (s.stage c').chain? = some ch' := by
          rw [hst]
          rfl
        rw [update_of_ne (h.apart _ _ _ _ hchain' hchain hne).2]
        exact hfits.2
      | leaving ch' success =>
        rw [hst] at hfits
        exact ⟨hkeep c' ch' hfits.1, hold _ _ hfits.2⟩
      | returned ch' =>
        rw [hst] at hfits
        exact ⟨hfits.1, hold _ _ hfits.2⟩
      | _ => trivial
    · dsimp only at hr ⊢
      rcases eq_or_ne r ch.request with rfl | hne
      · rw [update_self] at hr
        cases hr
        exact ⟨(h.held hchain).made, h.posted.completed ch List.mem_cons_self⟩
      · rw [update_of_ne hne] at hr
        exact h.set r ch' hr
    · have hmem : ch' ∈ s.device.inFlight ++ ch :: rest := by
        rcases List.mem_append.1 hch' with hmem | hmem
        · exact List.mem_append_left _ hmem
        · exact List.mem_append_right _ (List.mem_cons_of_mem _ hmem)
      obtain ⟨hstage', hnone'⟩ := h.busy ch' hmem
      refine ⟨hstage', ?_⟩
      have hne : ch' ≠ ch := by
        rintro rfl
        exact (List.nodup_cons.1 (List.nodup_middle.1 h.nodup)).1 hch'
      dsimp only
      rwa [update_of_ne
        (h.apart _ _ _ _ (h.chain_of_busy hmem) hchain (h.calls_ne hmem hch hne)).2]
    · exact (List.nodup_middle.1 h.nodup).of_cons
    · obtain ⟨hcompleted, hring, hcount, hbound⟩ := h.posted
      refine ⟨fun ch' hch' => hcompleted ch' (List.mem_cons_of_mem _ hch'), ?_, ?_,
        Nat.mod_lt _ (by decide)⟩
      · rw [List.length_cons, Nat.add_comm, Ring.contents_add, List.map_cons] at hring
        rw [Ring.contents_congr (Nat.mod_mod _ _)]
        exact (List.cons.inj hring).2
      · rw [hcount, List.length_cons, Nat.add_mod ((s.usedIdx + 1) % NUM), Nat.mod_mod,
          ← Nat.add_mod, Nat.add_assoc, Nat.add_comm 1]
  · rw [if_neg hused] at hstep
    cases hstep
    exact ⟨pend, h⟩

end Steps

/-! ## Runs -/

/-- **What is to hold in every state**: a call that returned found its flag set by the completion of
its own chain; no descriptor is in two chains of the device; and the handler writes next to the
`ready` of a request that its call still waits for. -/
structure Safe (s : State) : Prop where
  returned : ∀ c ch, s.stage c = .returned ch →
    ∃ ch', s.ready ch.request = some ch' ∧ ch'.call = c ∧ ch' ∈ s.device.completed
  chains : s.device.inFlight.Pairwise fun ch ch' => ch.descs.Disjoint ch'.descs
  writes : s.Used → ∃ c ch retry, s.stage c = .spinning ch retry ∧ s.target = some ch.request

def Stage.InTime (s : State) : Stage → Prop
  | spinning ch 0 => s.ready ch.request ≠ none
  | _ => True

instance (s : State) : DecidablePred (Stage.InTime s) := by
  intro op
  unfold Stage.InTime
  split <;> infer_instance

def InTime (s : State) : Op → Prop
  | .poll c => (s.stage c).InTime s
  | _ => True

instance (s : State) : DecidablePred (InTime s) := by
  intro op
  unfold InTime
  split <;> infer_instance

section Runs

variable {s s' : State} {op : Op}

theorem inv_init : Inv .init [] :=
  ⟨fun _ => trivial, fun _ _ _ _ h => (nomatch h), fun _ _ h => (nomatch h),
    fun _ h => (nomatch h), List.nodup_nil, ⟨fun _ h => (nomatch h), rfl, rfl, by decide⟩⟩

variable {pend : List Chain}

theorem Inv.step (h : Inv s pend) (hok : InTime s op)
    (hstep : step s op = .ok s') : ∃ pend', Inv s' pend' := by
  cases op with
  | enter c =>
    dsimp only [Virtio.step] at hstep
    split at hstep
    · next hc =>
      cases hstep
      have hg : Shifts s.stage (update s.stage c .allocating) :=
        .update (by rw [hc]; trivial) trivial
      exact ⟨pend, h.shift hg s.waiting fun _ _ hch => (h.held hch).linked⟩
    · cases hstep
      exact ⟨pend, h⟩
  | start c =>
    dsimp only [Virtio.step] at hstep
    split at hstep
    · next hc => exact ⟨pend, h.start hc hstep⟩
    · cases hstep
      exact ⟨pend, h⟩
  | poll c =>
    dsimp only [Virtio.step] at hstep
    split at hstep
    · next ch retry hc =>
      cases hstep
      refine ⟨pend, h.poll hc fun hzero => ?_⟩
      subst hzero
      have hintime : (Stage.spinning ch 0).InTime s := hc ▸ hok
      exact hintime
    · cases hstep
      exact ⟨pend, h⟩
  | leave c =>
    dsimp only [Virtio.step] at hstep
    split at hstep
    · next ch success hc => exact ⟨pend, h.leave hc hstep⟩
    · cases hstep
      exact ⟨pend, h⟩
  | complete n =>
    cases hstep
    exact h.complete n
  | intr => exact h.intr hstep

theorem Inv.safe (h : Inv s pend) : Safe s where
  returned c ch hc := by
    have hfits : (Stage.returned ch).Fits s c := hc ▸ h.calls c
    exact ⟨ch, hfits.2, hfits.1, (h.set _ _ hfits.2).2⟩
  chains := (List.pairwise_append.1 h.pairwise).1
  writes hused := by
    obtain ⟨ch, -, retry, -, -, hstage, htarget⟩ := h.used hused
    exact ⟨ch.call, ch, retry, hstage, htarget⟩

/-- **Requests complete as they should** in every run in which no wait gives up. -/
theorem safe_of_inTime (h : Reach step InTime (· = .init) s) : Safe s := by
  obtain ⟨pend, hinv⟩ := h.invariant (fun s => ∃ pend, Inv s pend)
    (by rintro _ rfl; exact ⟨[], inv_init⟩)
    (by rintro s s' op ⟨pend, hinv⟩ hok hstep; exact hinv.step hok hstep)
  exact hinv.safe

def readSeven : Call := ⟨0, 7, false⟩

/-- The call submits its chain, the device completes it, the handler sets the flag, and the call
returns. -/
theorem safe_of_inTime_read : ∃ s, Reach step InTime (· = .init) s ∧ Safe s ∧
    s.device.completed = [⟨readSeven, 0, 0, 1, 2⟩] := by
  obtain ⟨s, -, hreach, hdone⟩ := exists_reach step InTime [.enter readSeven, .start readSeven,
    .poll readSeven, .complete 0, .intr, .poll readSeven, .leave readSeven] (I := (· = .init)) rfl
    (fun s => s.device.completed = [⟨readSeven, 0, 0, 1, 2⟩]) (by decide +kernel)
  exact ⟨s, hreach, safe_of_inTime hreach, hdone⟩

/-- A wait whose flag is not set runs out of polls. -/
theorem reach_leaving {c : Call} {ch : Chain} {retry : Nat}
    (h : Reach step (fun _ _ => True) (· = .init) s) (hc : s.stage c = .spinning ch retry)
    (hready : s.ready ch.request = none) : Reach step (fun _ _ => True) (· = .init)
      { s with stage := update s.stage c (.leaving ch false) } := by
  induction retry generalizing s with
  | zero =>
    refine h.next (i := .poll c) trivial ?_
    dsimp only [step]
    rw [hc]
    dsimp only [State.poll]
    rw [hready]
  | succ retry ih =>
    have hpoll : Reach step (fun _ _ => True) (· = .init)
        { s with stage := update s.stage c (.spinning ch retry) } := by
      refine h.next (i := .poll c) trivial ?_
      dsimp only [step]
      rw [hc]
      dsimp only [State.poll]
      rw [hready]
    have hrest := ih hpoll (update_self ..) hready
    rwa [update_idem] at hrest

def submitted : State :=
  (runWhile step (fun _ _ => True) [.enter readSeven, .start readSeven] .init).getD .init

/-- The device does not answer, so the read gives up and submits the same descriptors again. -/
theorem not_safe_giveUp : ∃ s, Reach step (fun _ _ => True) (· = .init) s ∧ ¬Safe s := by
  have hsubmit : Reach step (fun _ _ => True) (· = .init) submitted := by
    have hsome : (runWhile step (fun _ _ => True) [.enter readSeven, .start readSeven]
        .init).isSome := by decide +kernel
    obtain ⟨s, hs⟩ := Option.isSome_iff_exists.1 hsome
    unfold submitted
    rw [hs]
    exact reach_of_runWhile rfl hs
  have hleave := reach_leaving (c := readSeven) hsubmit
    (by decide +kernel : _ = Stage.spinning ⟨readSeven, 0, 0, 1, 2⟩ State.retryMax)
    (by decide +kernel)
  have hrun : (runWhile step (fun _ _ => True) [.leave readSeven, .start readSeven]
      { submitted with
        stage := update submitted.stage readSeven
          (.leaving ⟨readSeven, 0, 0, 1, 2⟩ false) }).map (·.device.inFlight) =
      some [⟨readSeven, 0, 0, 1, 2⟩, ⟨readSeven, 1, 0, 1, 2⟩] := by decide +kernel
  obtain ⟨s, hs, hchains⟩ := Option.map_eq_some_iff.1 hrun
  refine ⟨s, hleave.runWhile hs, fun hsafe => ?_⟩
  have hpair := hsafe.chains
  rw [hchains] at hpair
  have hdisj := (List.pairwise_cons.1 hpair).1 _ List.mem_cons_self
  exact hdisj (a := 0) (by decide) (by decide)

end Runs

end LuoOS.Virtio
