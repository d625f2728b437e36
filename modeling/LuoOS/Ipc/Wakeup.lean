import LuoOS.Ipc.Fifo

/-!
# No lost wakeup

A segment that ends with something for a waiting task wakes one, so a task is parked with work to do
only while another is on its way through the pipe. This needs the lists of a pipe to hold exactly
the tasks parked in it. A child's exit breaks that: it wakes the parent's task and leaves it in the
list, and a later `notify_one` is spent on that entry.
-/

namespace LuoOS.Ipc

open Function

/-! ## The property -/

/-- When no task is on its way through a pipe, a parked reader has an empty pipe with a writer left,
and a parked writer a full one with a reader left. -/
def NoLostWakeup (s : State) : Prop :=
  (∀ t c, s.task t ≠ .ready c) → ∀ t c, s.task t = .parked c →
    match c.op with
    | .read => (s.pipe c.pipe).empty = true ∧ 0 < (s.pipe c.pipe).wcnt
    | .write => (s.pipe c.pipe).full = true ∧ 0 < (s.pipe c.pipe).rcnt

def Balanced (s : State) : Act → Prop
  | .addReader i => (s.pipe i).rcnt + 1 < 2 ^ 31
  | .decReader i => 0 < (s.pipe i).rcnt
  | .addWriter i => (s.pipe i).wcnt + 1 < 2 ^ 31
  | .decWriter i => 0 < (s.pipe i).wcnt
  | _ => True

instance : ∀ s a, Decidable (Balanced s a) := by
  intro s a
  apply @Act.casesOn _ a <;> intros <;> unfold Balanced <;> infer_instance

def Task.isParked : Task → Bool
  | parked _ => true
  | _ => false

/-- Besides, no child exits while its parent's default task is parked in a pipe. -/
def Orderly (s : State) (a : Act) : Prop :=
  Balanced s a ∧ ∀ t, a = .childExit t → (s.task t).isParked = false

/-! ## Lists and tasks -/

def Parked (task : Tid → Task) (t : Tid) (i : Nat) (op : Op) : Prop :=
  ∃ c, task t = .parked c ∧ c.pipe = i ∧ c.op = op

variable {c : Call} {i j : Nat} {o : Op} {p q : Pipe} {s s' : State} {t u : Tid} {task : Tid → Task}

theorem Parked.unique {o' : Op}
    (h : Parked task t i o) (h' : Parked task t j o') : i = j ∧ o = o' := by
  obtain ⟨c, hc, hi, ho⟩ := h
  obtain ⟨c', hc', hi', ho'⟩ := h'
  rw [hc] at hc'
  cases hc'
  exact ⟨hi.symm.trans hi', ho.symm.trans ho'⟩

theorem Parked.wake (h : Parked task t i o) {woken : List Tid} (hw : t ∈ woken) :
    ∃ c, woken.foldl wakeup task t = .ready c ∧ c.pipe = i := by
  obtain ⟨c, hc, hi, -⟩ := h
  rw [foldl_wakeup, if_pos hw, hc]
  exact ⟨c, rfl, hi⟩

theorem ready_foldl (h : task t = .ready c)
    (woken : List Tid) : woken.foldl wakeup task t = .ready c := by
  rw [foldl_wakeup, h]
  split <;> rfl

theorem parked_foldl {woken : List Tid} :
    Parked (woken.foldl wakeup task) t i o ↔ t ∉ woken ∧ Parked task t i o := by
  unfold Parked
  rw [foldl_wakeup]
  by_cases hw : t ∈ woken
  · rw [if_pos hw]
    refine ⟨?_, fun h => absurd hw h.1⟩
    rintro ⟨c, hc, -⟩
    cases ht : task t with
    | out =>
      rw [ht] at hc
      cases hc
    | ready d =>
      rw [ht] at hc
      cases hc
    | parked d =>
      rw [ht] at hc
      cases hc
  · rw [if_neg hw]
    exact ⟨fun h => ⟨hw, h⟩, fun h => h.2⟩

/-- A pipe whose lists are the tasks parked in it, each once. Whoever waits has peers, and a task
that waits for what is there waits behind one that is on its way. -/
structure PipeOk (task : Tid → Task) (i : Nat) (p : Pipe) : Prop where
  fifo : p.Fifo
  nodup : ∀ o, (p.waiting o).Nodup
  waiting : ∀ o t, t ∈ p.waiting o ↔ Parked task t i o
  count : ∀ o, 0 ≤ p.peers o ∧ p.peers o < 2 ^ 31
  peers : ∀ o, p.waiting o ≠ [] → 0 < p.peers o
  handed : ∀ o, p.waiting o ≠ [] → p.lacks o = false → ∃ t c, task t = .ready c ∧ c.pipe = i

def WakeInv (s : State) : Prop := ∀ i, PipeOk s.task i (s.pipe i)

theorem WakeInv.noLostWakeup (inv : WakeInv s) : NoLostWakeup s := by
  intro hquiet t c hc
  have hmem := ((inv c.pipe).waiting c.op t).2 ⟨c, hc, rfl, rfl⟩
  have hne := List.ne_nil_of_mem hmem
  have hpeers := (inv c.pipe).peers c.op hne
  have hlacks : (s.pipe c.pipe).lacks c.op = true := by
    by_contra hl
    obtain ⟨u, d, hd, -⟩ := (inv c.pipe).handed c.op hne (Bool.eq_false_of_not_eq_true hl)
    exact hquiet u d hd
  cases hop : c.op with
  | read =>
    rw [hop] at hpeers hlacks
    exact ⟨hlacks, hpeers⟩
  | write =>
    rw [hop] at hpeers hlacks
    exact ⟨hlacks, hpeers⟩

/-- One pipe is replaced, and the tasks of the other pipes are neither parked nor woken. -/
theorem WakeInv.setPipe (inv : WakeInv s)
    (hp : PipeOk task i p) (hparked : ∀ j o u, j ≠ i → (Parked s.task u j o ↔ Parked task u j o))
    (hready : ∀ u d, d.pipe ≠ i → s.task u = .ready d → task u = .ready d)
    (log : List Call) : WakeInv ⟨update s.pipe i p, task, log⟩ := by
  intro j
  change PipeOk task j (update s.pipe i p j)
  by_cases hj : j = i
  · subst hj
    rw [update_self]
    exact hp
  rw [update_of_ne hj]
  have hold := inv j
  refine ⟨hold.fifo, hold.nodup, fun o u => ?_, hold.count, hold.peers, fun o hne hl => ?_⟩
  · rw [hold.waiting, hparked j o u hj]
  · obtain ⟨u, d, hd, hdp⟩ := hold.handed o hne hl
    exact ⟨u, d, hready u d (hdp ▸ hj) hd, hdp⟩

/-! ## The end of a segment -/

/-- What the end of a segment does to the two lists. -/
structure Notified (t : Tid) (op : Op) (q : Pipe) (e : Exit) (p : Pipe) (woken : List Tid)
    (b : Op → Bool) : Prop where
  waiting : ∀ o, p.waiting o = (if b o then (q.waiting o).tail else q.waiting o) ++
    if e = .wait ∧ o = op then [t] else []
  woken : ∀ w, w ∈ woken ↔ ∃ o, b o = true ∧ (q.waiting o).head? = some w
  lacks : ∀ o, b o = false → q.lacks o = true
  same : p.lacks = q.lacks ∧ p.peers = q.peers

theorem notifyOne_eq (l : List Tid) : notifyOne l = (l.tail, l.head?.toList) := by
  cases l <;> rfl

theorem tryWakeup_eq (q : Pipe) : q.tryWakeup = ({ q with
      canr := if q.empty then q.canr else q.canr.tail
      canw := if q.full then q.canw else q.canw.tail },
      (if q.empty then [] else q.canr.head?.toList) ++
        if q.full then [] else q.canw.head?.toList) := by
  unfold Pipe.tryWakeup
  cases q.empty <;> cases q.full <;> simp [notifyOne_eq]

theorem Op.exists_iff {P : Op → Prop} : (∃ o, P o) ↔ P .read ∨ P .write := by
  constructor
  · rintro ⟨o, ho⟩
    cases o with
    | read => exact .inl ho
    | write => exact .inr ho
  · rintro (h | h)
    · exact ⟨_, h⟩
    · exact ⟨_, h⟩

theorem finish_notified (t : Tid) (op : Op) (q : Pipe) (e : Exit)
    (hwait : e = .wait → q.lacks op = true) :
    ∃ b, Notified t op q e (finish t op q e).1 (finish t op q e).2 b := by
  cases e with
  | done =>
    unfold finish
    rw [tryWakeup_eq]
    refine ⟨fun o => !q.lacks o, ?_, ?_, fun o ho => by simpa using ho, ?_⟩
    · intro o
      cases o with
      | read => cases hl : q.empty <;> simp [Pipe.waiting, Pipe.lacks, hl]
      | write => cases hl : q.full <;> simp [Pipe.waiting, Pipe.lacks, hl]
    · intro w
      rw [Op.exists_iff]
      cases hr : q.empty <;> cases hw : q.full <;>
        simp [Pipe.waiting, Pipe.lacks, hr, hw, Option.mem_toList]
    · exact ⟨by funext o; cases o <;> rfl, by funext o; cases o <;> rfl⟩
  | wait =>
    refine ⟨fun o => decide (o ≠ op), ?_, ?_, ?_, ?_⟩
    · intro o
      cases op <;> cases o <;> simp [finish, Pipe.waiting, notifyOne_eq]
    · intro w
      rw [Op.exists_iff]
      cases op <;> simp [finish, Pipe.waiting, notifyOne_eq, Option.mem_toList]
    · intro o ho
      obtain rfl : o = op := by simpa using ho
      exact hwait rfl
    · cases op <;> exact ⟨by funext o; cases o <;> rfl, by funext o; cases o <;> rfl⟩

theorem mem_tail_iff {l : List Tid} (hn : l.Nodup) : u ∈ l.tail ↔ u ∈ l ∧ l.head? ≠ some u := by
  cases l with
  | nil => simp
  | cons w ws =>
    have hw := (List.nodup_cons.1 hn).1
    simp only [List.tail_cons, List.mem_cons, List.head?_cons, ne_eq, Option.some.injEq]
    constructor
    · intro hu
      exact ⟨.inr hu, fun e => hw (e ▸ hu)⟩
    · rintro ⟨rfl | hu, hne⟩
      · exact absurd rfl hne
      · exact hu

section Segment

variable {s : State} (inv : WakeInv s) {t : Tid} {c c' : Call} {q p : Pipe} {e : Exit}
  {woken : List Tid} {b : Op → Bool}
  (hout : (s.task t).isParked = false) (r : LoopRun (s.pipe c.pipe) c q c' e)
  (n : Notified t c.op q e p woken b)

theorem not_parked {task : Tid → Task} (h : (task t).isParked = false) (i : Nat) (o : Op) :
    ¬Parked task t i o := by
  rintro ⟨d, hd, -⟩
  rw [hd] at h
  cases h

include inv r n in
theorem Notified.parked {w : Tid} (hw : w ∈ woken) :
    ∃ o, b o = true ∧ (q.waiting o).head? = some w ∧ Parked s.task w c.pipe o := by
  obtain ⟨o, hb, hhead⟩ := (n.woken w).1 hw
  refine ⟨o, hb, hhead, ((inv c.pipe).waiting o w).1 ?_⟩
  rw [← r.waiting]
  exact List.mem_of_mem_head? hhead

include hout r in
theorem parked_after {o : Op} : Parked (update (woken.foldl wakeup s.task) t (e.task c')) u j o ↔
      (u = t ∧ e = .wait ∧ j = c.pipe ∧ o = c.op) ∨ (u ∉ woken ∧ Parked s.task u j o) := by
  by_cases hu : u = t
  · subst hu
    have hno := not_parked hout j o
    have hself : Parked (update (woken.foldl wakeup s.task) u (e.task c')) u j o ↔
        ∃ d, e.task c' = .parked d ∧ d.pipe = j ∧ d.op = o := by
      unfold Parked
      rw [update_self]
    rw [hself]
    cases e with
    | wait =>
      constructor
      · rintro ⟨d, hd, hj, ho⟩
        cases hd
        exact .inl ⟨rfl, rfl, hj ▸ r.pipe, ho ▸ r.op⟩
      · rintro (⟨-, -, rfl, rfl⟩ | ⟨-, hp⟩)
        · exact ⟨c', rfl, r.pipe, r.op⟩
        · exact absurd hp hno
    | done =>
      constructor
      · rintro ⟨d, hd, -⟩
        cases hd
      · rintro (⟨-, hw, -⟩ | ⟨-, hp⟩)
        · cases hw
        · exact absurd hp hno
  · have hother : Parked (update (woken.foldl wakeup s.task) t (e.task c')) u j o ↔
        Parked (woken.foldl wakeup s.task) u j o := by
      unfold Parked
      rw [update_of_ne hu]
    rw [hother, parked_foldl]
    exact ⟨.inr, fun h => h.resolve_left fun h => hu h.1⟩

include inv hout r n in
theorem waiting_after (o : Op) (u : Tid) :
    u ∈ p.waiting o ↔ Parked (update (woken.foldl wakeup s.task) t (e.task c')) u c.pipe o := by
  rw [parked_after hout r, n.waiting o, List.mem_append]
  have hlist : u ∈ (if b o = true then (q.waiting o).tail else q.waiting o) ↔
      u ∉ woken ∧ Parked s.task u c.pipe o := by
    rw [← (inv _).waiting, ← r.waiting]
    have hnd : (q.waiting o).Nodup := r.waiting ▸ (inv c.pipe).nodup o
    have hwoken : u ∈ q.waiting o → (u ∈ woken ↔ b o = true ∧ (q.waiting o).head? = some u) := by
      intro hu
      rw [r.waiting, (inv _).waiting] at hu
      constructor
      · intro hw
        obtain ⟨o', hb, hhead, hp⟩ := n.parked inv r hw
        obtain rfl := (hu.unique hp).2
        exact ⟨hb, hhead⟩
      · intro hw
        exact (n.woken u).2 ⟨o, hw⟩
    by_cases hb : b o = true
    · rw [if_pos hb, mem_tail_iff hnd]
      constructor
      · rintro ⟨hu, hne⟩
        exact ⟨fun hw => hne ((hwoken hu).1 hw).2, hu⟩
      · rintro ⟨hnw, hu⟩
        exact ⟨hu, fun hh => hnw ((hwoken hu).2 ⟨hb, hh⟩)⟩
    · rw [if_neg hb]
      exact ⟨fun hu => ⟨fun hw => hb ((hwoken hu).1 hw).1, hu⟩, fun h => h.2⟩
  rw [hlist]
  by_cases he : e = .wait ∧ o = c.op
  · rw [if_pos he, List.mem_singleton]
    constructor
    · rintro (h | h)
      · exact .inr h
      · exact .inl ⟨h, he.1, rfl, he.2⟩
    · rintro (h | h)
      · exact .inr h.1
      · exact .inl h
  · rw [if_neg he]
    constructor
    · rintro (h | h)
      · exact .inr h
      · cases h
    · rintro (h | h)
      · exact absurd ⟨h.2.1, h.2.2.2⟩ he
      · exact .inl h

include inv hout r n in
/-- **The end of a segment keeps the invariant.** -/
theorem WakeInv.segment (hready : ∀ d, s.task t = .ready d → d.pipe = c.pipe) (f : p.Fifo)
    (log : List Call) : WakeInv ⟨update s.pipe c.pipe p,
      update (woken.foldl wakeup s.task) t (e.task c'), log⟩ := by
  have hlists := waiting_after inv hout r n
  have htq : ∀ o, t ∉ q.waiting o := by
    intro o ht
    rw [r.waiting, (inv _).waiting] at ht
    exact not_parked hout _ _ ht
  -- a wait adds the task only where the pipe has nothing for it, and with peers
  have hwait : ∀ o, e = .wait ∧ o = c.op → p.lacks o = true ∧ 0 < p.peers o := by
    rintro o ⟨he, rfl⟩
    obtain ⟨hl, hp⟩ := r.wait he
    have hnn := ((inv c.pipe).count c.op).1
    rw [n.same.1, n.same.2]
    rw [← r.peers] at hnn
    exact ⟨hl, by omega⟩
  have hpeers : ∀ o, p.peers o = (s.pipe c.pipe).peers o := by
    intro o
    rw [n.same.2, r.peers]
  refine inv.setPipe ⟨f, ?_, hlists, ?_, ?_, ?_⟩ ?_ ?_ log
  · intro o
    rw [n.waiting o]
    have hnd : (q.waiting o).Nodup := r.waiting ▸ (inv c.pipe).nodup o
    have hnd' : (if b o = true then (q.waiting o).tail else q.waiting o).Nodup := by
      split
      · exact hnd.tail
      · exact hnd
    by_cases he : e = .wait ∧ o = c.op
    · rw [if_pos he]
      refine List.nodup_append.2 ⟨hnd', by simp, ?_⟩
      rintro u hu w hw rfl
      obtain rfl := List.mem_singleton.1 hw
      split at hu
      · exact htq o (List.mem_of_mem_tail hu)
      · exact htq o hu
    · rw [if_neg he, List.append_nil]
      exact hnd'
  · intro o
    rw [hpeers]
    exact (inv _).count o
  · intro o hne
    by_cases he : e = .wait ∧ o = c.op
    · exact (hwait o he).2
    rw [hpeers]
    refine (inv _).peers o fun hnil => hne ?_
    rw [n.waiting o, if_neg he, r.waiting, hnil, List.append_nil]
    simp
  · intro o hne hl
    -- the waiters were notified, and the first of them is on its way
    have hb : b o = true := by
      by_contra hb
      rw [n.same.1, n.lacks o (Bool.eq_false_of_not_eq_true hb)] at hl
      cases hl
    have he : ¬(e = .wait ∧ o = c.op) := by
      intro he
      rw [(hwait o he).1] at hl
      cases hl
    rw [n.waiting o, if_pos hb, if_neg he, List.append_nil] at hne
    obtain ⟨w, ws, hws⟩ := List.exists_cons_of_ne_nil fun hnil : q.waiting o = [] => hne (by
      rw [hnil]
      rfl)
    have hww : w ∈ woken := (n.woken w).2 ⟨o, hb, by rw [hws]; rfl⟩
    obtain ⟨o', -, -, hp⟩ := n.parked inv r hww
    have hwt : w ≠ t := by
      rintro rfl
      exact not_parked hout _ _ hp
    obtain ⟨d, hd, hdp⟩ := hp.wake hww
    exact ⟨w, d, by rw [update_of_ne hwt, hd], hdp⟩
  · intro j o u hj
    rw [parked_after hout r]
    constructor
    · intro hp
      refine .inr ⟨fun hw => ?_, hp⟩
      obtain ⟨o', -, -, hp'⟩ := n.parked inv r hw
      exact hj (hp.unique hp').1
    · rintro (h | h)
      · exact absurd h.2.2.1 hj
      · exact h.2
  · intro u d hdp hd
    have hut : u ≠ t := by
      rintro rfl
      exact hdp (hready d hd)
    rw [update_of_ne hut, ready_foldl hd]

end Segment

theorem WakeInv.runCall (inv : WakeInv s)
    (hout : (s.task t).isParked = false) (hready : ∀ d, s.task t = .ready d → d.pipe = c.pipe)
    (h : runCall s t c = some s') : WakeInv s' := by
  obtain ⟨q, c', e, r, hrun⟩ := runCall_eq t c (inv c.pipe).fifo
  obtain ⟨b, n⟩ := finish_notified t c.op q e fun he => (r.wait he).1
  rw [hrun] at h
  cases h
  exact inv.segment hout r n hready (r.fifo.finish t c.op e) _

/-! ## The other steps -/

theorem lacks_congr (hh : p.head = q.head) (ht : p.tail = q.tail) : p.lacks = q.lacks := by
  funext o
  cases o with
  | read => simp only [Pipe.lacks, Pipe.empty, hh, ht]
  | write => simp only [Pipe.lacks, Pipe.full, hh, ht]

/-- A pipe whose lists stay, or lose all waiters of `op`, who are woken. -/
theorem WakeInv.setPeers (inv : WakeInv s) {op op' : Op} (hops : ∀ o, o = op ∨ o = op')
    (woken : List Tid) (f : p.Fifo) (hring : p.head = (s.pipe i).head ∧ p.tail = (s.pipe i).tail)
    (hkeep : p.waiting op' = (s.pipe i).waiting op' ∧ p.peers op' = (s.pipe i).peers op')
    (hcount : 0 ≤ p.peers op ∧ p.peers op < 2 ^ 31)
    (hop : (p.waiting op = (s.pipe i).waiting op ∧ woken = [] ∧ 0 < p.peers op) ∨
      (p.waiting op = [] ∧ woken = (s.pipe i).waiting op)) :
    WakeInv { s with pipe := update s.pipe i p, task := woken.foldl wakeup s.task } := by
  have hold := inv i
  have hwoken : ∀ u, u ∈ woken → Parked s.task u i op := by
    intro u hu
    rcases hop with ⟨-, rfl, -⟩ | ⟨-, rfl⟩
    · cases hu
    · exact (hold.waiting op u).1 hu
  have hlist : ∀ o, p.waiting o = (s.pipe i).waiting o ∨ p.waiting o = [] := by
    intro o
    rcases hops o with rfl | rfl
    · exact hop.imp And.left And.left
    · exact .inl hkeep.1
  refine inv.setPipe ⟨f, ?_, ?_, ?_, ?_, ?_⟩ ?_ (fun u d _ hd => ready_foldl hd woken) s.log
  · intro o
    rcases hlist o with h | h
    · rw [h]
      exact hold.nodup o
    · rw [h]
      exact List.nodup_nil
  · intro o u
    rw [parked_foldl]
    by_cases ho : o = op
    · subst ho
      rcases hop with ⟨h, rfl, -⟩ | ⟨h, rfl⟩
      · rw [h, hold.waiting]
        exact ⟨fun hp => ⟨List.not_mem_nil, hp⟩, And.right⟩
      · rw [h, ← hold.waiting]
        exact ⟨nofun, fun hp => absurd hp.2 hp.1⟩
    · obtain rfl := (hops o).resolve_left ho
      rw [hkeep.1, hold.waiting]
      exact ⟨fun hp => ⟨fun hw => ho (hp.unique (hwoken u hw)).2, hp⟩, And.right⟩
  · intro o
    rcases hops o with rfl | rfl
    · exact hcount
    · rw [hkeep.2]
      exact hold.count o
  · intro o hne
    rcases hops o with rfl | rfl
    · exact (hop.resolve_right fun h => hne h.1).2.2
    · rw [hkeep.1] at hne
      rw [hkeep.2]
      exact hold.peers o hne
  · intro o hne hl
    rw [lacks_congr hring.1 hring.2] at hl
    obtain ⟨u, d, hd, hdp⟩ := hold.handed o ((hlist o).resolve_right hne ▸ hne) hl
    exact ⟨u, d, ready_foldl hd woken, hdp⟩
  · intro j o u hj
    rw [parked_foldl]
    exact ⟨fun hp => ⟨fun hw => hj (hp.unique (hwoken u hw)).1, hp⟩, And.right⟩

theorem Op.write_or_read (o : Op) : o = .write ∨ o = .read := by
  cases o with
  | read => exact .inr rfl
  | write => exact .inl rfl

theorem Op.read_or_write (o : Op) : o = .read ∨ o = .write := o.write_or_read.symm

theorem WakeInv.step {a : Act} (inv : WakeInv s) (ok : Orderly s a)
    (h : step s a = some s') : WakeInv s' := by
  cases a with
  | call t op i bytes =>
    simp only [Ipc.step] at h
    split at h
    · rename_i ht
      refine inv.runCall ?_ ?_ h
      · rw [ht]
        rfl
      · intro d hd
        rw [ht] at hd
        cases hd
    · cases h
  | resume t =>
    simp only [Ipc.step] at h
    split at h
    · rename_i c ht
      refine inv.runCall ?_ ?_ h
      · rw [ht]
        rfl
      · intro d hd
        rw [ht] at hd
        cases hd
        rfl
    · cases h
  | addReader i =>
    cases h
    have hok : (s.pipe i).rcnt + 1 < 2 ^ 31 := ok.1
    have hnn : 0 ≤ (s.pipe i).rcnt := ((inv i).count .write).1
    rw [toInt_of_nonneg (by omega) hok]
    exact inv.setPeers Op.write_or_read [] ((inv i).fifo.lists ..) ⟨rfl, rfl⟩ ⟨rfl, rfl⟩
      ⟨Int.add_nonneg hnn Int.one_nonneg, hok⟩ (.inl ⟨rfl, rfl, Int.lt_add_one_of_le hnn⟩)
  | addWriter i =>
    cases h
    have hok : (s.pipe i).wcnt + 1 < 2 ^ 31 := ok.1
    have hnn : 0 ≤ (s.pipe i).wcnt := ((inv i).count .read).1
    rw [toInt_of_nonneg (by omega) hok]
    exact inv.setPeers Op.read_or_write [] ((inv i).fifo.lists ..) ⟨rfl, rfl⟩ ⟨rfl, rfl⟩
      ⟨Int.add_nonneg hnn Int.one_nonneg, hok⟩ (.inl ⟨rfl, rfl, Int.lt_add_one_of_le hnn⟩)
  | decReader i =>
    have hok : 0 < (s.pipe i).rcnt := ok.1
    have hbound : (s.pipe i).rcnt < 2 ^ 31 := ((inv i).count .write).2
    have hnn : 0 ≤ (s.pipe i).rcnt - 1 := by omega
    have hlt : (s.pipe i).rcnt - 1 < 2 ^ 31 := by omega
    simp only [Ipc.step, toInt_of_nonneg hnn hlt] at h
    split at h
    · cases h
      exact inv.setPeers Op.write_or_read _ ((inv i).fifo.lists ..) ⟨rfl, rfl⟩ ⟨rfl, rfl⟩ ⟨hnn, hlt⟩
        (.inr ⟨rfl, rfl⟩)
    rename_i h0
    cases h
    exact inv.setPeers Op.write_or_read [] ((inv i).fifo.lists ..) ⟨rfl, rfl⟩ ⟨rfl, rfl⟩ ⟨hnn, hlt⟩
      (.inl ⟨rfl, rfl, lt_of_le_of_ne hnn (Ne.symm h0)⟩)
  | decWriter i =>
    have hok : 0 < (s.pipe i).wcnt := ok.1
    have hbound : (s.pipe i).wcnt < 2 ^ 31 := ((inv i).count .read).2
    have hnn : 0 ≤ (s.pipe i).wcnt - 1 := by omega
    have hlt : (s.pipe i).wcnt - 1 < 2 ^ 31 := by omega
    simp only [Ipc.step, toInt_of_nonneg hnn hlt] at h
    split at h
    · cases h
      exact inv.setPeers Op.read_or_write _ ((inv i).fifo.lists ..) ⟨rfl, rfl⟩ ⟨rfl, rfl⟩ ⟨hnn, hlt⟩
        (.inr ⟨rfl, rfl⟩)
    rename_i h0
    cases h
    exact inv.setPeers Op.read_or_write [] ((inv i).fifo.lists ..) ⟨rfl, rfl⟩ ⟨rfl, rfl⟩ ⟨hnn, hlt⟩
      (.inl ⟨rfl, rfl, lt_of_le_of_ne hnn (Ne.symm h0)⟩)
  | childExit t =>
    cases h
    have hsame : wakeup s.task t = s.task := by
      have := ok.2 t rfl
      unfold wakeup
      cases ht : s.task t with
      | parked c =>
        rw [ht] at this
        cases this
      | out => rfl
      | ready c => rfl
    rw [hsame]
    exact inv

theorem WakeInv.init (garbage : Nat → Nat → UInt8) : WakeInv (.init garbage) := fun i => {
  fifo := (FifoInv.init garbage).fifo i
  nodup := fun o => by cases o <;> exact List.nodup_nil
  waiting := by
    intro o t
    refine ⟨fun h => ?_, ?_⟩
    · cases o <;> cases h
    · rintro ⟨c, h, -⟩
      cases h
  count := fun o => by cases o <;> exact ⟨Int.le_refl 0, Int.pow_pos (by decide)⟩
  peers := fun o h => by cases o <;> exact absurd rfl h
  handed := fun o h => by cases o <;> exact absurd rfl h }

/-- **No wakeup is lost in an orderly run.** -/
theorem noLostWakeup_orderly {s : State} (hr : Reach Orderly s) : NoLostWakeup s := by
  refine WakeInv.noLostWakeup (hr.invariant WakeInv ?_ ?_)
  · rintro _ ⟨garbage, rfl⟩
    exact .init garbage
  · exact fun _ _ _ inv ok h => inv.step ok (Runs.ofOption_eq_ok.1 h)

instance : ∀ s a, Decidable (Orderly s a) := by
  intro s a
  apply @Act.casesOn _ a
  case childExit =>
    intro t
    refine decidable_of_iff (Balanced s (.childExit t) ∧ (s.task t).isParked = false) ?_
    refine and_congr_right fun _ => ⟨?_, fun h => h t rfl⟩
    intro h t' ht'
    cases ht'
    exact h
  all_goals
    intros
    exact decidable_of_iff (Balanced s _) ⟨fun h => ⟨h, nofun⟩, And.left⟩

/-- Reader 1 waits, is woken by writer 2 and returns with its bytes, and reader 3 waits. -/
def readers : List Act := handover ++ [.call 3 .read 0 ⟨1, fun _ => 0, by decide⟩]

theorem noLostWakeup_reader : ∃ s, runActs Orderly readers (.init fun _ _ => 0) = some s ∧
    (s.log.map (fun c => (c.op, c.moved)) = [(.write, [7, 8]), (.read, [7, 8])] ∧
      (s.task 3).isParked = true) ∧ NoLostWakeup s := by
  obtain ⟨s, hs, hr, hend⟩ := Runs.exists_reach (Runs.ofOption step) Orderly readers
    (I := fun s => ∃ garbage, s = .init garbage) ⟨fun _ _ => 0, rfl⟩
    (fun s => s.log.map (fun c => (c.op, c.moved)) = [(.write, [7, 8]), (.read, [7, 8])] ∧
      (s.task 3).isParked = true) (by decide +kernel)
  exact ⟨s, hs, hend, noLostWakeup_orderly hr⟩

/-! ## A lost wakeup -/

theorem out_foldl (h : task t = .out) (woken : List Tid) : woken.foldl wakeup task t = .out := by
  rw [foldl_wakeup, h]
  split <;> rfl

theorem runCall_out (h : runCall s u c = some s')
    (hu : t ≠ u) (ht : s.task t = .out) : s'.task t = .out := by
  obtain ⟨⟨p, woken, c', e⟩, -, h⟩ := Option.bind_eq_some_iff.1 h
  cases e with
  | wait =>
    cases h
    exact (update_of_ne hu _ _).trans (out_foldl ht woken)
  | done =>
    cases h
    exact (update_of_ne hu _ _).trans (out_foldl ht woken)

theorem step_out {a : Act} (h : step s a = some s')
    (hno : ∀ op i bytes, a ≠ .call t op i bytes) (ht : s.task t = .out) : s'.task t = .out := by
  cases a with
  | call u op i bytes =>
    simp only [step] at h
    split at h
    · exact runCall_out h (fun e => hno op i bytes (e ▸ rfl)) ht
    · cases h
  | resume u =>
    simp only [step] at h
    split at h
    · rename_i c hc
      refine runCall_out h ?_ ht
      rintro rfl
      rw [ht] at hc
      cases hc
    · cases h
  | addReader i =>
    cases h
    exact ht
  | addWriter i =>
    cases h
    exact ht
  | decReader i =>
    simp only [step] at h
    split at h <;> cases h
    · exact out_foldl ht _
    · exact ht
  | decWriter i =>
    simp only [step] at h
    split at h <;> cases h
    · exact out_foldl ht _
    · exact ht
  | childExit u =>
    cases h
    exact out_foldl ht [u]

theorem runActs_out {ok : State → Act → Prop} [∀ s a, Decidable (ok s a)] :
    ∀ {as : List Act} {s s' : State}, runActs ok as s = some s' →
    (∀ a ∈ as, ∀ op i bytes, a ≠ .call t op i bytes) → s.task t = .out → s'.task t = .out := by
  intro as
  induction as with
  | nil =>
    intro s s' h _ ht
    cases h
    exact ht
  | cons a as ih =>
    intro s s' h hno ht
    unfold runActs Runs.runWhile at h
    split at h
    · rw [Runs.ofOption_toOption] at h
      obtain ⟨s1, hs, h⟩ := Option.bind_eq_some_iff.1 h
      exact ih h (fun b hb => hno b (List.mem_cons_of_mem a hb))
        (step_out hs (hno a List.mem_cons_self) ht)
    · cases h

/-- Task 1 waits for a byte, is woken by the exit of a child and waits again, so it is in the list
twice. It takes a byte of task 2; then task 3 waits, and the next wakeup goes to task 1. -/
def stranded : List Act :=
  [.addReader 0, .addWriter 0, .call 1 .read 0 ⟨1, fun _ => 0, by decide⟩, .childExit 1, .resume 1,
    .call 2 .write 0 ⟨1, fun _ => 0, by decide⟩, .resume 1,
    .call 3 .read 0 ⟨1, fun _ => 0, by decide⟩, .call 2 .write 0 ⟨1, fun _ => 0, by decide⟩]

def Task.isReady : Task → Bool
  | ready _ => true
  | _ => false

def Task.parkedIn : Task → Option (Op × Nat)
  | parked c => some (c.op, c.pipe)
  | _ => none

theorem not_noLostWakeup : ¬∀ s, Reach Balanced s → NoLostWakeup s := by
  intro hall
  have hend : (runActs Balanced stranded (.init fun _ _ => 0)).map (fun s =>
      ((s.pipe 0).empty, [1, 2, 3].map (fun t => (s.task t).isReady), (s.task 3).parkedIn)) =
      some (false, [false, false, false], some (.read, 0)) := by decide +kernel
  obtain ⟨s, hs, hend⟩ := Option.map_eq_some_iff.1 hend
  simp only [List.map_cons, List.map_nil, Prod.mk.injEq, List.cons.injEq, and_true] at hend
  obtain ⟨hempty, ⟨h1, h2, h3⟩, hparked⟩ := hend
  have hquiet : ∀ t c, s.task t ≠ .ready c := by
    intro t c ht
    by_cases hcalls : t = 1 ∨ t = 2 ∨ t = 3
    · rcases hcalls with rfl | rfl | rfl
      · rw [ht] at h1
        cases h1
      · rw [ht] at h2
        cases h2
      · rw [ht] at h3
        cases h3
    · have hno : ∀ a ∈ stranded, ∀ op i bytes, a ≠ .call t op i bytes := by
        intro a ha op i bytes he
        subst he
        simp only [stranded, List.mem_cons, Act.call.injEq, reduceCtorEq, false_or,
          List.not_mem_nil, or_false] at ha
        refine hcalls ?_
        rcases ha with h | h | h | h <;> simp [h.1]
      have hout := runActs_out hs hno rfl
      rw [ht] at hout
      cases hout
  cases ht : s.task 3 with
  | out =>
    rw [ht] at hparked
    cases hparked
  | ready c => exact hquiet 3 c ht
  | parked c =>
    rw [ht] at hparked
    obtain ⟨hop, hpipe⟩ := Prod.mk.inj (Option.some.inj hparked)
    have hlost := hall s (Runs.reach_of_runWhile ⟨_, rfl⟩ hs) hquiet 3 c ht
    rw [hop, hpipe] at hlost
    exact absurd hlost.1 (Bool.eq_false_iff.1 hempty)

end LuoOS.Ipc
