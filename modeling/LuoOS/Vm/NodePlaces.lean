import LuoOS.Vm.TableSpec

/-!
# Where `createMapping` makes nodes

A call makes a node only in an entry that one end of its range cuts. So when the pages of a leaf are
pushed down into a new node next to the range, the range is then mapped there without meeting a
node in one of its whole entries, as long as it met none before.
-/

namespace LuoOS.Vm

/-! ## The nodes on a walk -/

def Entry.nodeAt : {level : Nat} → Entry level → (l v : Nat) → Prop
  | _, page _ _, _, _ => False
  | level + 1, table _ _ sub, l, v => l = level + 1 ∨ (sub (index level v)).nodeAt l v

def Spares (L : Nat → Nat → Prop) (vpn pages : Nat) : Prop :=
  ∀ l b, b % bigPageSize l = 0 → vpn ≤ b → b + bigPageSize l ≤ vpn + pages → ¬L l b

def nodesOf {level : Nat} (table : Table level) (l v : Nat) : Prop :=
  (table (index level v)).nodeAt l v

def CutBy (l b vpn pages : Nat) : Prop :=
  ∃ x, (x = vpn ∨ x = vpn + pages) ∧ Block l b x ∧ x % bigPageSize l ≠ 0

section Nodes

variable {level l b v n c k off : Nat} {perm : Perm}

theorem Entry.nodeAt_le {level : Nat} (entry : Entry level) (h : entry.nodeAt l v) : l ≤ level := by
  induction entry with
  | page perm ppn => exact absurd h id
  | @table level perm node sub ih =>
    rcases h with rfl | h
    · exact le_rfl
    · exact Nat.le_succ_of_le (ih _ h)

theorem not_nodesOf_createPTNode : ¬nodesOf (createPTNode : Table level) l v := fun h => h

/-- The pages `[c, c + k)` of a leaf that are pushed down for the range `[b, b + n)`: they end at
the range or with the block of the leaf. -/
structure PushEnds (level b n c k : Nat) : Prop where
  block : Block level b c
  fit : c % bigPageSize level + k ≤ bigPageSize level
  ends : ∀ x, x = c ∨ x = c + k → x % bigPageSize level = 0 ∨ x = b ∨ x = b + n

def NodesSpec (level : Nat) : Prop :=
  ∀ (table : Table level) (vpn ppn pages : Nat) (perm : Perm) (table' : Table level),
    vpn % bigPageSize (level + 1) + pages ≤ bigPageSize (level + 1) →
    createMapping level table vpn ppn pages perm = .ok table' →
    ∀ l b, Block (level + 1) vpn b → nodesOf table' l b →
      nodesOf table l b ∨ CutBy l b vpn pages

variable {node : {perm : Perm // perm.isNode = true}} {entry : Entry (level + 1)}

variable {sub : Table level}

/-- The nodes in the node a range is mapped in. -/
theorem subTable_nodes (ih : NodesSpec level)
    (hpush : PushEnds (level + 1) b n c k) (h : subTable entry (fun prevppn prevPerm =>
      createMapping level createPTNode c (prevppn + off) k prevPerm) = .ok (node, sub))
    (hv : Block (level + 1) b v) (hnode : nodesOf sub l v) : entry.nodeAt l v ∨ CutBy l v b n := by
  have hl : l ≤ level := Entry.nodeAt_le _ hnode
  cases entry with
  | table perm isNode sub0 =>
    cases h
    exact .inl (.inr hnode)
  | page perm ppn =>
    unfold subTable at h
    dsimp only at h
    split at h
    · split at h
      · obtain ⟨sub1, hcreate, h⟩ := bind_eq_ok h
        cases h
        rcases ih _ _ _ _ _ _ hpush.fit hcreate l v (hv.trans hpush.block.symm) hnode with
          hold | ⟨x, hx, hblk, hne⟩
        · exact absurd hold not_nodesOf_createPTNode
        · rcases hpush.ends x hx with hal | hx
          · exact absurd (mod_bigPageSize_eq_zero (Nat.le_succ_of_le hl) hal) hne
          · exact .inr ⟨x, hx, hblk, hne⟩
      · cases h
    · split at h
      · cases h
        exact absurd hnode not_nodesOf_createPTNode
      · cases h

def EndsIn (level b n vpn pages : Nat) : Prop :=
  ∀ x, x = b ∨ x = b + n → x % bigPageSize level = 0 ∨ x = vpn ∨ x = vpn + pages

theorem CutBy.of_endsIn {vpn pages : Nat} (h : CutBy l v b n) (hends : EndsIn level b n vpn pages)
    (hl : l ≤ level) : CutBy l v vpn pages := by
  obtain ⟨x, hx, hblk, hne⟩ := h
  rcases hends x hx with hal | hx
  · exact absurd (mod_bigPageSize_eq_zero hl hal) hne
  · exact ⟨x, hx, hblk, hne⟩

theorem mapInto_nodes {vpn ppn pages o : Nat} {table table' : Table (level + 1)}
    (ih : NodesSpec level) (hpush : PushEnds (level + 1) b n c k)
    (hfit : b % bigPageSize (level + 1) + n ≤ bigPageSize (level + 1))
    (hends : EndsIn (level + 1) b n vpn pages) (hin : CutBy (level + 1) b b n) (h : mapInto table b
      (fun prevppn prevPerm => createMapping level createPTNode c (prevppn + o) k prevPerm)
      (fun sub => createMapping level sub b ppn n perm) = .ok table')
    (hv : Block (level + 2) b v) (hnode : nodesOf table' l v) :
    nodesOf table l v ∨ CutBy l v vpn pages := by
  obtain ⟨node, sub, sub', hsub, hcreate, rfl⟩ := mapInto_eq_ok h
  unfold nodesOf at hnode ⊢
  by_cases hblk : Block (level + 1) b v
  · have hidx : index (level + 1) v = index (level + 1) b := (index_eq_iff hv).2 hblk
    rw [hidx] at hnode ⊢
    rw [Function.update_self] at hnode
    have hl : l ≤ level + 1 := Entry.nodeAt_le _ hnode
    rcases hnode with rfl | hnode
    · -- the entry itself: a node before, or cut by the range
      obtain ⟨x, hx, hbx, hne⟩ := hin
      exact .inr (CutBy.of_endsIn ⟨x, hx, hbx.trans hblk.symm, hne⟩ hends hl)
    rcases ih _ _ _ _ _ _ hfit hcreate l v hblk hnode with hold | hcut
    · rcases subTable_nodes ih hpush hsub hblk hold with hold | hcut
      · exact .inl hold
      · exact .inr (hcut.of_endsIn hends hl)
    · exact .inr (hcut.of_endsIn hends hl)
  · rw [Function.update_of_ne (fun heq => hblk ((index_eq_iff hv).1 heq))] at hnode
    exact .inl hnode

/-- What is pushed down before the range. -/
theorem pushEnds_first (level vpn n : Nat) :
    PushEnds level vpn n (vpn - vpn % bigPageSize level) (vpn % bigPageSize level) := by
  obtain ⟨hb, h0⟩ := block_base level vpn
  have hle := Nat.mod_le vpn (bigPageSize level)
  have hlt := Nat.mod_lt vpn (bigPageSize_pos level)
  refine ⟨hb, by omega, ?_⟩
  rintro x (rfl | rfl)
  · exact .inl h0
  · exact .inr (.inl (Nat.sub_add_cancel hle))

theorem pushEnds_rest {rest : Nat} (hal : b % bigPageSize level = 0)
    (hlt : rest < bigPageSize level) :
    PushEnds level b rest (b + rest) (bigPageSize level - rest) := by
  have hoff : (b + rest) % bigPageSize level = rest := by
    rw [Nat.add_mod, hal, Nat.zero_add, Nat.mod_mod, Nat.mod_eq_of_lt hlt]
  refine ⟨(advance (m := 1) (by omega) Nat.one_pos).1, by omega, ?_⟩
  rintro x (rfl | rfl)
  · exact .inr (.inr rfl)
  · refine .inl ?_
    rw [Nat.add_assoc, Nat.add_sub_cancel' (Nat.le_of_lt hlt), Nat.add_mod_right]
    exact hal

section Ends

variable {vpn pages part whole rest : Nat} (hcut : Cut level vpn pages part whole rest)

include hcut

theorem Cut.endsIn_first : EndsIn level vpn part vpn pages := by
  have hsum := hcut.sum
  rintro x (rfl | rfl)
  · exact .inr (.inl rfl)
  by_cases hmore : 0 < whole ∨ 0 < rest
  · exact .inl (hcut.aligned hmore)
  · obtain ⟨rfl, rfl⟩ : whole = 0 ∧ rest = 0 := by omega
    exact .inr (.inr (by omega))

theorem Cut.endsIn_rest (hal : (vpn + part + whole * bigPageSize level) % bigPageSize level = 0) :
    EndsIn level (vpn + part + whole * bigPageSize level) rest vpn pages := by
  have hsum := hcut.sum
  rintro x (rfl | rfl)
  · exact .inl hal
  · exact .inr (.inr (by omega))

end Ends

/-- **Nodes appear only where the range cuts an entry.** -/
theorem createMapping_nodes (level : Nat) : NodesSpec level := by
  induction level with
  | zero =>
    intro table vpn ppn pages perm table' _ _ l b _ hnode
    unfold nodesOf at hnode
    cases hentry : table' (index 0 b) with
    | page perm ppn =>
      rw [hentry] at hnode
      exact absurd hnode id
  | succ level ih =>
    intro table vpn ppn pages perm table' hblock h l v hv hnode
    obtain ⟨part, whole, rest, t1, t2, h⟩ := createMapping_phases h
    have hcut := h.cut
    have hlt := hcut.rest_lt
    -- back through the three steps
    have hlast : nodesOf t2 l v ∨ CutBy l v vpn pages := by
      have hstep := h.last
      unfold when_ at hstep
      split at hstep
      · cases hstep
        exact .inl hnode
      rename_i hne
      obtain ⟨hal, hB⟩ := hcut.rest_start hblock (by omega)
      have hends := hcut.endsIn_rest hal
      generalize vpn + part + whole * bigPageSize (level + 1) = b at *
      have hpush := pushEnds_rest hal hlt
      refine mapInto_nodes ih hpush (by omega) hends ⟨b + rest, .inr rfl, hpush.block, ?_⟩
        hstep (hv.trans hB.symm) hnode
      rw [Nat.add_mod, hal, Nat.zero_add, Nat.mod_mod, Nat.mod_eq_of_lt hlt]
      exact hne
    rcases hlast with hnode | hdone
    · have hloop : nodesOf t1 l v := by
        unfold nodesOf at hnode ⊢
        rw [mapWhole_apply _ _ _ _ _ h.loop] at hnode
        split at hnode
        · exact absurd hnode id
        · exact hnode
      have hstep := h.first
      unfold when_ at hstep
      split at hstep
      · cases hstep
        exact .inl hloop
      · rename_i hne
        exact mapInto_nodes (o := 0) ih (pushEnds_first (level + 1) vpn part) hcut.part_fit
          hcut.endsIn_first ⟨vpn, .inl rfl, rfl, hne⟩ hstep hv hloop
    · exact .inr hdone

theorem CutBy.not_inside (h : CutBy l v b n) (hal : v % bigPageSize l = 0) (hb : b ≤ v)
    (hend : v + bigPageSize l ≤ b + n) : False := by
  obtain ⟨x, hx, hblk, hne⟩ := h
  obtain ⟨h1, h2⟩ := inRange_of_block hal hblk
  rcases hx with rfl | rfl
  · obtain rfl : v = x := by omega
    exact hne hal
  · omega

theorem subTable_spares (hpush : PushEnds (level + 1) b n c k)
    (hfit : b % bigPageSize (level + 1) + n ≤ bigPageSize (level + 1))
    (h : subTable entry (fun prevppn prevPerm =>
      createMapping level createPTNode c (prevppn + off) k prevPerm) = .ok (node, sub))
    (hspare : Spares entry.nodeAt b n) : Spares (nodesOf sub) b n := by
  intro l v hal hb hend hnode
  have hpos := bigPageSize_pos l
  have hv : Block (level + 1) b v := block_of_inRange hfit ⟨hb, by omega⟩
  rcases subTable_nodes (createMapping_nodes level) hpush h hv hnode with hold | hcut
  · exact hspare l v hal hb hend hold
  · exact hcut.not_inside hal hb hend

end Nodes

end LuoOS.Vm
