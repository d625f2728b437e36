import LuoOS.Vm.TableSpec

/-!
# The bits of the entries

The bits `r`, `w` and `x` alone tell a leaf from the address of a node. A property `P` of the bits
of every entry that holds no node, `Each P`, is kept by `createMapping` and `removeMapping` for all
ranges: they write the bits they are given, those they find, and zeroes. If `P` says that valid
entries are leaves, no walk takes the frame of an entry for a node.
-/

namespace LuoOS.Vm

/-! ## Telling leaves from nodes -/

/-- A property of the bits that tells a leaf from an entry that is not valid, and holds of those of
a new node. -/
structure Tells (P : Perm → Prop) : Prop where
  ok : ∀ perm, P perm → perm.Ok
  zero : P {}

theorem tells_ok : Tells Perm.Ok := ⟨fun _ h => h, rfl⟩

def Perm.Fine (p : Perm) : Prop := p.v = true → p.isLeaf = true

theorem Perm.Ok.fine {p : Perm} (h : p.Ok) : p.Fine := fun hv => h.symm.trans hv

/-- A property of the bits under which valid entries are leaves, and that holds of those of a new
node. The bits of an entry that is not valid may be any. -/
structure Marks (P : Perm → Prop) : Prop where
  fine : ∀ perm, P perm → perm.Fine
  zero : P {}

theorem marks_fine : Marks Perm.Fine := ⟨fun _ h => h, fun h => nomatch h⟩

theorem Tells.marks {P : Perm → Prop} (h : Tells P) : Marks P :=
  ⟨fun perm hp => (h.ok perm hp).fine, h.zero⟩

def Tame {α : Type} (P : α → Prop) : Kern α → Prop
  | .ok a => P a
  | .error e => e ≠ .wildPointer

variable {α : Type} {P : α → Prop} {r : Kern α}

theorem Tame.ne_wild (h : Tame P r) : r ≠ .error .wildPointer := by
  rintro rfl
  exact h rfl

theorem Tame.of_ok {a : α} (h : Tame P r) (hr : r = .ok a) : P a := by
  subst hr
  exact h

theorem Tame.bind {β : Type} {Q : β → Prop} {f : α → Kern β}
    (h : Tame P r) (hf : ∀ a, P a → Tame Q (f a)) : Tame Q (r >>= f) := by
  cases r with
  | error e => exact h
  | ok a => exact hf a h

section Operations

variable {P : Perm → Prop} {level : Nat} {perm : Perm}

variable {table table' : Table level} {vpn pages ppn : Nat}

theorem when_tame {cond : Nat} {step : Table level → Kern (Table level)}
    (h : Each P table) (hstep : Tame (Each P) (step table)) :
    Tame (Each P) (when_ cond step table) := by
  unfold when_
  split
  · exact h
  · exact hstep

/-! ## `createMapping` -/

theorem mapWhole_tame (hp : P perm) : ∀ (n : Nat) (table : Table level) (i ppn : Nat),
    Each P table → Tame (Each P) (mapWhole perm n table i ppn) := by
  intro n
  induction n with
  | zero => exact fun _ _ _ h => h
  | succ n ih =>
    intro table i ppn h
    unfold mapWhole
    split
    · exact ih _ _ _ (h.update (Entry.each_page.2 hp) _)
    · intro h
      cases h

/-- The node that a range is mapped in is there, or is made: an entry that is no node is a leaf or
not valid. -/
theorem mapInto_tame {table : Table (level + 1)} {pushdown : Nat → Perm → Kern (Table level)}
    {create : Table level → Kern (Table level)} (hP : Tells P) (h : Each P table)
    (hpush : ∀ ppn perm, P perm → Tame (Each P) (pushdown ppn perm))
    (hcreate : ∀ sub, Each P sub → Tame (Each P) (create sub)) :
    Tame (Each P) (mapInto table vpn pushdown create) := by
  -- what is left to do once the node is known
  have hrest : ∀ (perm : Perm) (node : perm.isNode = true) (sub : Table level), Each P sub →
      Tame (Each P) (do
        let sub ← create sub
        pure (Function.update table (index (level + 1) vpn) (.table perm node sub))) :=
    fun _ _ sub hsub => (hcreate sub hsub).bind fun _ hs => h.update (Entry.each_table.2 hs) _
  have hentry := h (index (level + 1) vpn)
  unfold mapInto subTable
  cases hcur : table (index (level + 1) vpn) with
  | table perm node sub =>
    rw [hcur] at hentry
    exact hrest perm node sub hentry
  | page perm ppn =>
    rw [hcur] at hentry
    have hok := hP.ok perm hentry
    dsimp only
    cases hv : perm.v with
    | true =>
      have hleaf : perm.isLeaf = true := hok.symm.trans hv
      rw [if_pos rfl, if_pos hleaf, bind_assoc]
      exact (hpush ppn perm hentry).bind fun sub hsub => hrest _ _ sub hsub
    | false =>
      have hnode := Perm.setValid_isNode (hok.symm.trans hv)
      rw [if_neg Bool.false_ne_true, dif_pos hnode]
      exact hrest _ hnode _ (createPTNode_each hP.zero)

/-- **`createMapping` keeps a property of the bits**, whatever the range is. -/
theorem createMapping_tame (hP : Tells P) : ∀ (level : Nat) (table : Table level)
    (vpn ppn pages : Nat) (perm : Perm), Each P table → P perm →
      Tame (Each P) (createMapping level table vpn ppn pages perm) := by
  intro level
  induction level with
  | zero => exact fun table vpn ppn pages perm h hp => mapWhole_tame hp _ _ _ _ h
  | succ level ih =>
    intro table vpn ppn pages perm h hp
    refine Tame.bind (when_tame h (mapInto_tame hP h ?_ ?_)) fun table h => ?_
    · exact fun _ _ hprev => ih _ _ _ _ _ (createPTNode_each hP.zero) hprev
    · exact fun _ hsub => ih _ _ _ _ _ hsub hp
    refine Tame.bind (mapWhole_tame hp _ _ _ _ h) fun table h => ?_
    refine when_tame h (mapInto_tame hP h ?_ ?_)
    · exact fun _ _ hprev => ih _ _ _ _ _ (createPTNode_each hP.zero) hprev
    · exact fun _ hsub => ih _ _ _ _ _ hsub hp

/-! ## `removeMapping` and `trans` -/

theorem clearPage_tame (hP : Marks P) (hp : P perm) :
    Tame (Entry.Each P) (clearPage perm ppn : Kern (Entry level)) := by
  unfold clearPage
  cases hv : perm.v with
  | true =>
    have hleaf : perm.isLeaf = true := hP.fine perm hp hv
    rw [if_pos rfl, if_pos hleaf]
    exact hP.zero
  | false => exact hp

theorem clearLast_tame (hP : Marks P) {entry : Entry 0} (h : entry.Each P) :
    Tame (Entry.Each P) (clearLast entry) := by
  cases entry with
  | page perm ppn => exact clearPage_tame hP h

variable {remove : Table level → Kern (Table level)}

theorem clearEntry_tame (hP : Marks P) {entry : Entry (level + 1)} (h : entry.Each P)
    (hremove : ∀ sub, Each P sub → Tame (Each P) (remove sub)) :
    Tame (Entry.Each P) (clearEntry remove entry) := by
  cases entry with
  | page perm ppn => exact clearPage_tame hP h
  | table perm node sub =>
    refine (hremove sub h).bind fun sub' _ => ?_
    cases hfree : freePTNode sub' with
    | true => exact hP.zero
    | false => exact nofun

theorem removeWhole_tame {clear : Nat → Entry level → Kern (Entry level)}
    (hclear : ∀ vpn entry, entry.Each P → Tame (Entry.Each P) (clear vpn entry)) :
    ∀ (n : Nat) (table : Table level) (i vpn : Nat), Each P table →
      Tame (Each P) (removeWhole clear n table i vpn) := by
  intro n
  induction n with
  | zero => exact fun _ _ _ h => h
  | succ n ih =>
    intro table i vpn h
    unfold removeWhole
    split
    · rename_i hi
      exact (hclear vpn _ (h ⟨i, hi⟩)).bind fun entry he => ih _ _ _ (h.update he _)
    · intro h
      cases h

theorem removeInto_tame {table : Table (level + 1)} (hP : Marks P) (h : Each P table)
    (hremove : ∀ sub, Each P sub → Tame (Each P) (remove sub)) :
    Tame (Each P) (removeInto table vpn remove) := by
  have hentry := h (index (level + 1) vpn)
  unfold removeInto
  cases hcur : table (index (level + 1) vpn) with
  | table perm node sub =>
    rw [hcur] at hentry
    refine (hremove sub hentry).bind fun sub' hsub => h.update ?_ _
    cases hfree : freePTNode sub' with
    | true => exact hP.zero
    | false => exact hsub
  | page perm ppn =>
    rw [hcur] at hentry
    have hfine := hP.fine perm hentry
    dsimp only
    cases hv : perm.v with
    | true =>
      -- a leaf: the assertion stops the walk
      have hleaf : perm.isLeaf = true := hfine hv
      rw [if_pos rfl, hleaf]
      exact nofun
    | false => exact h

/-- **`removeMapping` keeps a property of the bits**, whatever the range is. -/
theorem removeMapping_tame (hP : Marks P) : ∀ (level : Nat) (table : Table level)
    (vpn pages : Nat), Each P table → Tame (Each P) (removeMapping level table vpn pages) := by
  intro level
  induction level with
  | zero =>
    exact fun table vpn pages h => removeWhole_tame (fun _ _ => clearLast_tame hP) _ _ _ _ h
  | succ level ih =>
    intro table vpn pages h
    refine Tame.bind (when_tame h (removeInto_tame hP h fun sub => ih sub _ _)) fun table h => ?_
    refine Tame.bind (removeWhole_tame ?_ _ _ _ _ h) fun table h => ?_
    · exact fun _ _ he => clearEntry_tame hP he fun sub => ih sub _ _
    · exact when_tame h (removeInto_tame hP h fun sub => ih sub _ _)

theorem createMapping_each (hP : Tells P) (h : Each P table) (hp : P perm)
    (hc : createMapping level table vpn ppn pages perm = .ok table') : Each P table' := by
  have ht := createMapping_tame hP level table vpn ppn pages perm h hp
  rw [hc] at ht
  exact ht

theorem removeMapping_each (hP : Marks P) (h : Each P table)
    (hr : removeMapping level table vpn pages = .ok table') : Each P table' := by
  have ht := removeMapping_tame hP level table vpn pages h
  rw [hr] at ht
  exact ht

theorem Entry.trans_ne_wild (hP : Marks P) (entry : Entry level) (h : entry.Each P) (vpn : Nat) :
    entry.trans vpn ≠ .error .wildPointer := by
  induction entry with
  | page perm ppn =>
    have hfine := hP.fine perm h
    cases hv : perm.v with
    | true =>
      have hleaf : perm.isLeaf = true := hfine hv
      simp [Entry.trans, hv, hleaf, pure, Except.pure]
    | false => simp [Entry.trans, hv, assert_]
  | @table level perm node sub ih => exact ih (index level vpn) (h _)

end Operations

end LuoOS.Vm
