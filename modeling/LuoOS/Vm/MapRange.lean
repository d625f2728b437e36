import LuoOS.Vm.TableSpec

/-!
# What `createMapping` does to the pages

The range is mapped whatever was there, and outside it a page changes only if its superpage is cut.
For a range that begins inside a superpage the part before it is pushed down and the part behind it
is not, so a range that ends in the same superpage takes all pages behind it from the translation.
-/

namespace LuoOS.Vm

open Translation

section

variable {root root' : Table 2} {vpn ppn pages v frame : Nat} {perm : Perm}

theorem trans_of_look (h : look root v = some (frame, perm)) : trans root v = .ok frame := by
  obtain ⟨x, hx, heq⟩ := Option.map_eq_some_iff.1 h
  obtain ⟨hframe, -⟩ := Prod.mk.inj heq
  exact trans_eq_ok.2 ⟨x, hx, hframe⟩

theorem createMapping_root (hroot : Each Perm.Ok root) (hrange : vpn + pages ≤ 2 ^ 27)
    (hok : perm.Ok) :
    ∃ root', createMapping 2 root vpn ppn pages perm = .ok root' ∧ Each Perm.Ok root' ∧
      Puts (2 ^ 44) (fun v => v < 2 ^ 27) (leafAt root) (leafAt root') vpn pages ppn
        perm.grant := by
  rcases Nat.lt_or_ge vpn (2 ^ 27) with hvpn | hvpn
  · obtain ⟨root', heq, hroot', -, hput⟩ :=
      createMapping_puts 2 root vpn ppn pages perm hroot hok (fit_of_le hrange)
    refine ⟨root', heq, hroot', hput.restrict (fun v hv => ?_) (fun _ _ => rfl) fun _ _ => rfl⟩
    have hsize : bigPageSize 3 = 2 ^ 27 := rfl
    rw [hsize, Nat.div_eq_of_lt hv, Nat.div_eq_of_lt hvpn]
  · -- no pages, behind the last one
    obtain ⟨rfl, rfl⟩ : vpn = 2 ^ 27 ∧ pages = 0 := by omega
    exact ⟨root, rfl, hroot, Puts.refl fun v hv _ _ => .inl hv⟩

/-- **`createMapping` maps its range**, over whatever the table holds there. -/
theorem createMapping_maps (hroot : Each Perm.Ok root) (hrange : vpn + pages ≤ 2 ^ 27)
    (hframes : ppn + pages ≤ 2 ^ 44) (hv : perm.v = true) (hleaf : perm.isLeaf = true) :
    ∃ root', createMapping 2 root vpn ppn pages perm = .ok root' ∧ Each Perm.Ok root' ∧
      ∀ v, vpn ≤ v → v < vpn + pages →
        trans root' v = .ok (ppn + (v - vpn)) ∧ look root' v = some (ppn + (v - vpn), perm) := by
  obtain ⟨root', heq, hroot', hput⟩ := createMapping_root hroot hrange (hv.trans hleaf.symm)
  refine ⟨root', heq, hroot', fun v h1 h2 => ?_⟩
  have hgrant : perm.grant = some perm := by
    unfold Perm.grant
    rw [hv, hleaf]
    rfl
  obtain ⟨x, hx, hperm, -, hframe⟩ := hput.grants v (by omega) ⟨h1, h2⟩ perm hgrant
  have hlook : look root' v = some (ppn + (v - vpn), perm) := by
    unfold look
    rw [hx, Option.map_some, hframe (by omega), hperm]
  exact ⟨trans_of_look hlook, hlook⟩

theorem look_of_puts {g : Option Perm}
    (hput : Puts (2 ^ 44) (fun v => v < 2 ^ 27) (leafAt root) (leafAt root') vpn pages ppn g)
    (hpage : v < 2 ^ 27) (hout : ¬InRange vpn pages v)
    (hends : ∀ y, leafAt root v = some y → ¬y.Straddles v vpn pages)
    (hframes : ∀ y, leafAt root v = some y → y.Avoids v vpn pages ∨ y.frame v < 2 ^ 44) :
    look root' v = look root v := by
  unfold look
  cases hy : leafAt root v with
  | none =>
    cases hx : leafAt root' v with
    | none => rfl
    | some x =>
      obtain ⟨-, y, hy', -⟩ := hput.old v hpage hout x hx
      rw [hy] at hy'
      cases hy'
  | some y =>
    rcases hframes y hy with hav | hframe
    · rw [hput.spares v hpage hout y hy hav]
    obtain ⟨x, hx⟩ := hput.keeps v hpage hout y hy (hends y hy)
    obtain ⟨-, z, hz, hpiece, -⟩ := hput.old v hpage hout x hx
    rw [hy] at hz
    cases hz
    rw [hx, Option.map_some, Option.map_some, hpiece.frame hframe, hpiece.perm]

def FramesFit (root : Table 2) (vpn pages : Nat) : Prop :=
  ∀ v < 2 ^ 27, ¬InRange vpn pages v → ∀ y, leafAt root v = some y →
    y.Avoids v vpn pages ∨ y.frame v < 2 ^ 44

def EndsApart (root : Table 2) (vpn pages : Nat) : Prop :=
  ∀ v < 2 ^ 27, ∀ y, leafAt root v = some y → ¬y.Straddles v vpn pages

/-- **`createMapping` leaves the other pages alone** exactly if no superpage reaches over its
range. -/
theorem createMapping_others (hroot : Each Perm.Ok root) (hrange : vpn + pages ≤ 2 ^ 27)
    (hv : perm.v = true) (hleaf : perm.isLeaf = true) (hframes : FramesFit root vpn pages) :
    (∃ root', createMapping 2 root vpn ppn pages perm = .ok root' ∧
      ∀ v < 2 ^ 27, ¬InRange vpn pages v → look root' v = look root v) ↔
    EndsApart root vpn pages := by
  obtain ⟨root', heq, -, hput⟩ := createMapping_root hroot hrange (hv.trans hleaf.symm)
  constructor
  · rintro ⟨root'', heq', hsame⟩ v hpage y hy hs
    rw [heq] at heq'
    cases heq'
    have hout : ¬InRange vpn pages v := fun hin => Nat.not_lt.2 hs.2 hin.2
    have hlook := hsame v hpage hout
    unfold look at hlook
    rw [hy, Option.map_some] at hlook
    obtain ⟨x, hx, -⟩ := Option.map_eq_some_iff.1 hlook
    obtain ⟨-, z, hz, -, hstr⟩ := hput.old v hpage hout x hx
    rw [hy] at hz
    cases hz
    exact hstr hs
  · intro hends
    exact ⟨root', heq, fun v hpage hout =>
      look_of_puts hput hpage hout (hends v hpage) (hframes v hpage hout)⟩

end

/-! ## A superpage -/

def oneSuperpage : Table 2 :=
  Function.update createPTNode 0 (.page { v := true, r := true } 0)

theorem oneSuperpage_ok : Each Perm.Ok oneSuperpage := by
  have hzero : Each Perm.Ok (createPTNode : Table 2) := createPTNode_each rfl
  refine hzero.update ?_ 0
  exact Entry.each_page.2 (show Perm.Ok { v := true, r := true } by decide)

theorem oneSuperpage_leaf {v : Nat} {y : Leaf Perm} (h : leafAt oneSuperpage v = some y) :
    y = ⟨2 ^ 18, 0, { v := true, r := true }⟩ := by
  unfold leafAt oneSuperpage at h
  rw [Function.update_apply] at h
  split at h
  · cases h
    rfl
  · cases h

/-- A page inside the superpage is mapped elsewhere. -/
theorem createMapping_maps_inside : ∃ root',
    createMapping 2 oneSuperpage 5 7 1 { v := true, w := true } = .ok root' ∧
      look root' 5 = some (7, { v := true, w := true }) := by
  obtain ⟨root', heq, -, hmaps⟩ :=
    @createMapping_maps oneSuperpage 5 7 1 { v := true, w := true } oneSuperpage_ok (by decide)
      (by decide) rfl rfl
  exact ⟨root', heq, (hmaps 5 (by decide) (by decide)).2⟩

/-- The first pages of the superpage are mapped elsewhere, and the others stay. -/
theorem createMapping_others_first : ∃ root',
    createMapping 2 oneSuperpage 0 7 5 { v := true, w := true } = .ok root' ∧
      look root' 5 = some (5, { v := true, r := true }) := by
  have hframes : FramesFit oneSuperpage 0 5 := by
    intro v hv _ y hy
    rw [oneSuperpage_leaf hy]
    refine .inr ?_
    unfold Leaf.frame
    dsimp only
    omega
  obtain ⟨root', heq, hothers⟩ :=
    (@createMapping_others oneSuperpage 0 7 5 { v := true, w := true } oneSuperpage_ok (by decide)
      rfl rfl hframes).2 fun _ _ _ _ hs => Nat.not_lt_zero _ hs.1
  refine ⟨root', heq, (hothers 5 (by decide) (by decide)).trans ?_⟩
  decide +kernel

/-- **A range inside a superpage takes the pages behind it**: page 5 of the superpage is mapped
elsewhere, and page 6 is not translated any more. -/
theorem not_createMapping_others :
    ¬∀ (root : Table 2) (vpn ppn pages : Nat) (perm : Perm), Each Perm.Ok root →
      vpn + pages ≤ 2 ^ 27 → ppn + pages ≤ 2 ^ 44 → perm.v = true → perm.isLeaf = true →
      ∃ root', createMapping 2 root vpn ppn pages perm = .ok root' ∧
        ∀ v < 2 ^ 27, ¬InRange vpn pages v → look root' v = look root v := by
  intro h
  obtain ⟨root', heq, hothers⟩ := h oneSuperpage 5 7 1 { v := true, w := true } oneSuperpage_ok
    (by decide) (by decide) rfl rfl
  have hafter : (createMapping 2 oneSuperpage 5 7 1 { v := true, w := true }).toOption.map
      (fun root' => look root' 6) = some none := by
    decide +kernel
  have hbefore : look oneSuperpage 6 = some (6, { v := true, r := true }) := by
    decide +kernel
  rw [heq] at hafter
  have hlost : look root' 6 = none := Option.some.inj hafter
  rw [hothers 6 (by decide) (by decide), hbefore] at hlost
  cases hlost

end LuoOS.Vm
