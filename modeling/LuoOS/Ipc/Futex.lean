import LuoOS.Sched.Scheduler

/-!
# Futexes

`kernel/syscall/futex.cc` over the condition variables of `kernel/lock.cc`. A task that waits is
pending in the scheduler and in the list of one address. A requeue moves the list of the first
address over that of the second and then erases the first entry, so it loses the waiters of the
second address, or all if the two are the same (`not_kept_requeue`). Where there are none to lose,
every waiter stays in exactly one list (`kept_of_fits`).
-/

namespace LuoOS.Futex

open Sched Runs Function Scheduler

abbrev Paddr := Nat

/-- The tasks, the waiters of each address and the futex words. -/
structure State where
  hart : Hart
  futexes : Paddr → Option (List Tid)
  value : Paddr → Int

/-- The arguments of `futex`. -/
structure Call where
  futexOp : UInt32
  paddr : Paddr
  val : Int
  timeout : Bool
  paddr2 : Paddr
  val3 : Int

def FUTEX_WAIT : UInt32 := 0
def FUTEX_WAKE : UInt32 := 1
def FUTEX_REQUEUE : UInt32 := 3
def FUTEX_CMP_REQUEUE : UInt32 := 4

def FUTEX_CMD_MASK : UInt32 := ~~~(128 ||| 256)

def Call.cmd (c : Call) : UInt32 := c.futexOp &&& FUTEX_CMD_MASK

def intMax : Int := 2 ^ 31 - 1

def EAGAIN : Nat := 11
def EINVAL : Nat := 22

namespace State

def waiters (s : State) (a : Paddr) : List Tid := (s.futexes a).getD []

def setWaiters (s : State) (a : Paddr) (ts : List Tid) : State :=
  { s with futexes := update s.futexes a (some ts) }

def erase (s : State) (a : Paddr) : State :=
  { s with futexes := update s.futexes a none }

def wakeup (s : State) (t : Tid) : Kern State := do
  let hart ← s.hart.step (.wakeup t)
  .ok { s with hart := hart }

def notifyOne (s : State) (a : Paddr) : Kern State :=
  match s.waiters a with
  | [] => .ok s
  | t :: ts => do
    let s ← s.wakeup t
    .ok (s.setWaiters a ts)

def notifyTimes : Nat → State → Paddr → Kern State
  | 0, s, _ => .ok s
  | n + 1, s, a => do
    let s ← s.notifyOne a
    notifyTimes n s a

def notifyAll (s : State) (a : Paddr) : Kern State := do
  let s' ← (s.waiters a).foldlM wakeup s
  .ok (s'.setWaiters a [])

def wait (s : State) (a : Paddr) : Kern State := do
  let s := s.setWaiters a (s.waiters a ++ [s.hart.curtask])
  let hart ← s.hart.step .sleep
  .ok { s with hart := hart }

def futexWait (s : State) (c : Call) : Kern (Except Nat Int × State) :=
  let s := s.setWaiters c.paddr (s.waiters c.paddr)
  if s.value c.paddr ≠ c.val then .ok (.error EAGAIN, s)
  else if c.timeout then .ok (.ok 0, s)
  else do
    let s ← s.wait c.paddr
    .ok (.ok 0, s)

def futexWake (s : State) (c : Call) : Kern (Except Nat Int × State) :=
  match s.futexes c.paddr with
  | none => .ok (.ok 0, s)
  | some waiting =>
    if c.val = intMax then do
      let s ← s.notifyAll c.paddr
      .ok (.ok waiting.length, s)
    else do
      let s ← notifyTimes c.val.toNat s c.paddr
      .ok (.ok c.val, s)

def futexRequeue (s : State) (c : Call) : Kern (Except Nat Int × State) :=
  let s := s.setWaiters c.paddr (s.waiters c.paddr)
  if c.val = intMax then .ok (.error EINVAL, s)
  else do
    let s ← notifyTimes c.val.toNat s c.paddr
    let s := s.setWaiters c.paddr2 (s.waiters c.paddr)
    .ok (.ok c.val, s.erase c.paddr)

def futex (s : State) (c : Call) : Kern (Except Nat Int × State) :=
  if c.cmd = FUTEX_WAIT then s.futexWait c
  else if c.cmd = FUTEX_WAKE then s.futexWake c
  else if c.cmd = FUTEX_CMP_REQUEUE then
    if s.value c.paddr ≠ c.val3 then .ok (.error EAGAIN, s) else s.futexRequeue c
  else if c.cmd = FUTEX_REQUEUE then s.futexRequeue c
  else .ok (.error EINVAL, s)

/-- What the tasks do. -/
inductive Op where
  | create (prior : Fin (maxPrior + 1))
  | yield
  | store (a : Paddr) (v : Int)
  | futex (c : Call)

def step (s : State) : Op → Kern State
  | .create prior => do
    let hart ← s.hart.step (.create prior)
    .ok { s with hart := hart }
  | .yield => do
    let hart ← s.hart.step .yield
    .ok { s with hart := hart }
  | .store a v => .ok { s with value := update s.value a v }
  | .futex c => do
    let (_, s) ← s.futex c
    .ok s

end State

def Call.Requeues (c : Call) (s : State) : Prop :=
  (c.cmd = FUTEX_REQUEUE ∨ c.cmd = FUTEX_CMP_REQUEUE ∧ s.value c.paddr = c.val3) ∧ c.val ≠ intMax
  deriving Decidable

/-- A requeue finds nobody on its second address, or wakes everybody if it is the first one, too. -/
def Fits (s : State) : State.Op → Prop
  | .futex c => c.Requeues s → if c.paddr = c.paddr2 then (s.waiters c.paddr).length ≤ c.val.toNat
      else s.waiters c.paddr2 = []
  | _ => True

instance (s : State) : DecidablePred (Fits s) := by
  intro op
  unfold Fits
  split <;> infer_instance

/-! ## Pending tasks -/

section Pending

def Parked (h : Hart) (t : Tid) : Prop := ∃ o, h.sched.task t = some o ∧ o.state = .Pending

variable {h h' : Hart} {t u : Tid}

theorem parked_schedule (hstep : h.schedule = .ok h') : Parked h' u ↔ Parked h u := by
  obtain ⟨⟨t, s⟩, hchoice, hstep⟩ := bind_eq_ok hstep
  cases hstep
  obtain ⟨s1, i, ts, hadd, -, rfl⟩ := schedule_eq hchoice
  unfold Parked
  simp [task_add hadd]

theorem parked_wakeup (hstep : h.step (.wakeup t) = .ok h') : Parked h' u ↔ Parked h u ∧ u ≠ t := by
  obtain ⟨s, hwake, hstep⟩ := bind_eq_ok hstep
  cases hstep
  unfold Parked
  obtain ⟨o, ht, ⟨hne, rfl⟩ | ⟨-, hadd⟩⟩ := wakeup_cases hwake
  · refine ⟨fun hu => ⟨hu, ?_⟩, fun hu => hu.1⟩
    rintro rfl
    obtain ⟨o', ho', hp⟩ := hu
    rw [ht] at ho'
    exact hne (Option.some.inj ho' ▸ hp)
  · rcases eq_or_ne u t with rfl | hut
    · simp [task_add hadd]
    · simp [task_add hadd, hut]

theorem parked_sleep (hstep : h.step .sleep = .ok h') :
    Parked h' u ↔ u = h.curtask ∨ Parked h u := by
  obtain ⟨s, hsleep, hstep⟩ := bind_eq_ok hstep
  obtain ⟨o, ho, rfl⟩ := sleep_eq hsleep
  rw [parked_schedule hstep]
  unfold Parked
  rcases eq_or_ne u h.curtask with rfl | hne
  · simp
  · simp [hne]

theorem parked_create (hinv : Hart.Inv h) {prior : Fin (maxPrior + 1)}
    (hstep : h.step (.create prior) = .ok h') : Parked h' u ↔ Parked h u := by
  obtain ⟨s, hadd, hstep⟩ := bind_eq_ok hstep
  cases hstep
  unfold Parked
  rcases eq_or_ne u (h.idCnt + 1) with rfl | hne
  · have hnone : ¬∃ o, h.sched.task (h.idCnt + 1) = some o ∧ o.state = .Pending := by
      rintro ⟨o, ho, -⟩
      exact absurd (hinv.fresh _ o ho) (Nat.not_succ_le_self _)
    simpa [task_add hadd] using hnone
  · simp [task_add hadd, hne]

end Pending

/-! ## Every waiter is in one list -/

/-- Every parked task is in exactly one list, once. -/
structure Inv (s : State) : Prop where
  hart : Hart.Inv s.hart
  parked : ∀ a, ∀ t ∈ s.waiters a, Parked s.hart t
  nodup : ∀ a, (s.waiters a).Nodup
  unique : ∀ a b t, t ∈ s.waiters a → t ∈ s.waiters b → a = b
  listed : ∀ t, Parked s.hart t → ∃ a, t ∈ s.waiters a

variable {r : Except Nat Int} {c : Call}

section Lists

variable {s s' : State} {a : Paddr}

@[simp] theorem hart_setWaiters (ts : List Tid) : (s.setWaiters a ts).hart = s.hart := rfl

@[simp] theorem waiters_setWaiters (ts : List Tid) (b : Paddr) :
    (s.setWaiters a ts).waiters b = if b = a then ts else s.waiters b := by
  unfold State.waiters State.setWaiters
  dsimp only
  rw [update_apply]
  split <;> rfl

@[simp] theorem hart_erase : (s.erase a).hart = s.hart := rfl

@[simp] theorem waiters_erase (b : Paddr) :
    (s.erase a).waiters b = if b = a then [] else s.waiters b := by
  unfold State.waiters State.erase
  dsimp only
  rw [update_apply]
  split <;> rfl

namespace Inv

section

variable (h : Inv s)
include h

theorem congr (hhart : s'.hart = s.hart) (hwaiters : ∀ a, s'.waiters a = s.waiters a) : Inv s' := by
  refine ⟨hhart ▸ h.hart, fun a t ht => ?_, fun a => ?_, fun a b t ha hb => ?_, fun t ht => ?_⟩
  · rw [hhart]
    exact h.parked a t (hwaiters a ▸ ht)
  · exact hwaiters a ▸ h.nodup a
  · exact h.unique a b t (hwaiters a ▸ ha) (hwaiters b ▸ hb)
  · obtain ⟨a, ha⟩ := h.listed t (hhart ▸ ht)
    exact ⟨a, hwaiters a ▸ ha⟩

/-- `futexes[paddr]` does not change the lists. -/
theorem touch (a : Paddr) : Inv (s.setWaiters a (s.waiters a)) := by
  refine h.congr rfl fun b => ?_
  rw [waiters_setWaiters]
  split
  · rename_i heq
    rw [heq]
  · rfl

theorem setHart {hart : Hart} (hinv : Hart.Inv hart)
    (hparked : ∀ u, Parked hart u ↔ Parked s.hart u) : Inv { s with hart := hart } :=
  ⟨hinv, fun a t ht => (hparked t).2 (h.parked a t ht), h.nodup, h.unique,
    fun t ht => h.listed t ((hparked t).1 ht)⟩

theorem leave {hart : Hart} (hinv : Hart.Inv hart) {ts us : List Tid}
    (hlist : s.waiters a = ts ++ us) (hparked : ∀ u, Parked hart u ↔ Parked s.hart u ∧ u ∉ ts) :
    Inv (State.setWaiters { s with hart := hart } a us) := by
  have hsub : ∀ b, ∀ t ∈ (State.setWaiters { s with hart := hart } a us).waiters b,
      t ∈ s.waiters b := by
    intro b t ht
    rw [waiters_setWaiters] at ht
    split at ht
    · rename_i heq
      rw [heq, hlist]
      exact List.mem_append_right ts ht
    · exact ht
  have hnodup := h.nodup a
  rw [hlist] at hnodup
  refine ⟨hinv, fun b t ht => (hparked t).2 ⟨h.parked b t (hsub b t ht), fun hmem => ?_⟩, fun b => ?_,
    fun b c t hb hc => h.unique b c t (hsub b t hb) (hsub c t hc), fun t ht => ?_⟩
  · have hab : a = b := h.unique a b t (hlist ▸ List.mem_append_left us hmem) (hsub b t ht)
    rw [waiters_setWaiters, if_pos hab.symm] at ht
    exact (List.nodup_append.1 hnodup).2.2 t hmem t ht rfl
  · rw [waiters_setWaiters]
    split
    · exact (List.nodup_append.1 hnodup).2.1
    · exact h.nodup b
  · obtain ⟨hp, hnot⟩ := (hparked t).1 ht
    obtain ⟨b, hb⟩ := h.listed t hp
    refine ⟨b, ?_⟩
    rw [waiters_setWaiters]
    split
    · rename_i heq
      rw [heq, hlist] at hb
      exact (List.mem_append.1 hb).resolve_left hnot
    · exact hb

theorem notifyOne (hnotify : s.notifyOne a = .ok s') : Inv s' ∧ s'.value = s.value ∧
      ∀ b, s'.waiters b = if b = a then (s.waiters a).tail else s.waiters b := by
  unfold State.notifyOne at hnotify
  split at hnotify
  · rename_i hnil
    cases hnotify
    refine ⟨h, rfl, fun b => ?_⟩
    split
    · rename_i heq
      rw [heq, hnil]
      rfl
    · rfl
  · rename_i t ts hcons
    obtain ⟨s1, hwake, hset⟩ := bind_eq_ok hnotify
    obtain ⟨hart, hstep, hwake⟩ := bind_eq_ok hwake
    cases hwake
    cases hset
    refine ⟨?_, rfl, fun b => ?_⟩
    · have hsplit : s.waiters a = [t] ++ ts := hcons
      refine h.leave (h.hart.step hstep) hsplit fun u => ?_
      rw [parked_wakeup hstep, List.mem_singleton]
    · rw [waiters_setWaiters, hcons]
      rfl

theorem notifyTimes {n : Nat} (hnotify : State.notifyTimes n s a = .ok s') :
    Inv s' ∧ s'.value = s.value ∧
      ∀ b, s'.waiters b = if b = a then (s.waiters a).drop n else s.waiters b := by
  induction n generalizing s with
  | zero =>
    cases hnotify
    refine ⟨h, rfl, fun b => ?_⟩
    split
    · rename_i heq
      rw [heq, List.drop_zero]
    · rfl
  | succ n ih =>
    obtain ⟨s1, hone, hrest⟩ := bind_eq_ok hnotify
    obtain ⟨h1, hvalue1, hw1⟩ := h.notifyOne hone
    obtain ⟨h', hvalue, hw⟩ := ih h1 hrest
    refine ⟨h', hvalue.trans hvalue1, fun b => ?_⟩
    rw [hw b, hw1 a, hw1 b, if_pos rfl, List.drop_tail]
    split <;> rfl

end

theorem wakeupAll {ts : List Tid} (hinv : Hart.Inv s.hart)
    (hwake : ts.foldlM State.wakeup s = .ok s') :
    ∃ hart, s' = { s with hart := hart } ∧ Hart.Inv hart ∧
      ∀ u, Parked hart u ↔ Parked s.hart u ∧ u ∉ ts := by
  induction ts generalizing s with
  | nil =>
    obtain rfl := Except.ok.inj hwake
    exact ⟨s.hart, rfl, hinv, fun u => by simp⟩
  | cons t ts ih =>
    rw [List.foldlM_cons] at hwake
    obtain ⟨s1, hfirst, hrest⟩ := bind_eq_ok hwake
    obtain ⟨hart1, hstep, hfirst⟩ := bind_eq_ok hfirst
    cases hfirst
    obtain ⟨hart, rfl, hinv', hparked⟩ := ih (hinv.step hstep) hrest
    refine ⟨hart, rfl, hinv', fun u => ?_⟩
    rw [hparked u, parked_wakeup hstep, List.mem_cons, not_or, and_assoc]

section

variable (h : Inv s)
include h

theorem notifyAll (hnotify : s.notifyAll a = .ok s') : Inv s' := by
  obtain ⟨s1, hwake, hset⟩ := bind_eq_ok hnotify
  cases hset
  obtain ⟨hart, rfl, hinv, hparked⟩ := wakeupAll h.hart hwake
  exact h.leave hinv (List.append_nil _).symm hparked

/-- The current task runs, so it is in no list before it waits. -/
theorem wait (hwait : s.wait a = .ok s') : Inv s' := by
  obtain ⟨hart, hstep, hwait⟩ := bind_eq_ok hwait
  cases hwait
  have hcur : ¬Parked s.hart s.hart.curtask := by
    rintro ⟨o, ho, hp⟩
    obtain ⟨o', ho', hlive⟩ := h.hart.cur
    rw [ho] at ho'
    exact hlive (.inr (Option.some.inj ho' ▸ hp))
  have hnot : ∀ b, s.hart.curtask ∉ s.waiters b := fun b hmem => hcur (h.parked b _ hmem)
  have hmem : ∀ b t, t ∈ (State.setWaiters s a (s.waiters a ++ [s.hart.curtask])).waiters b ↔
      t ∈ s.waiters b ∨ b = a ∧ t = s.hart.curtask := by
    intro b t
    rw [waiters_setWaiters]
    split
    · rename_i heq
      simp [heq]
    · rename_i hne
      simp [hne]
  refine ⟨h.hart.step hstep, fun b t ht => (parked_sleep hstep).2 ?_, fun b => ?_,
    fun b c t hb hc => ?_, fun t ht => ?_⟩
  · exact ((hmem b t).1 ht).symm.imp (fun ht => ht.2) (h.parked b t)
  · have hset : (State.setWaiters s a (s.waiters a ++ [s.hart.curtask])).waiters b |>.Nodup := by
      rw [waiters_setWaiters]
      split
      · rw [← List.concat_eq_append]
        exact List.Nodup.concat (hnot a) (h.nodup a)
      · exact h.nodup b
    exact hset
  · rcases (hmem b t).1 hb with hold | ⟨hba, hcur⟩
    · rcases (hmem c t).1 hc with hold' | ⟨-, hcur⟩
      · exact h.unique b c t hold hold'
      · exact absurd (hcur ▸ hold) (hnot b)
    · rcases (hmem c t).1 hc with hold | ⟨hca, -⟩
      · exact absurd (hcur ▸ hold) (hnot c)
      · exact hba.trans hca.symm
  · rcases (parked_sleep hstep).1 ht with rfl | ht
    · exact ⟨a, (hmem a _).2 (.inr ⟨rfl, rfl⟩)⟩
    · obtain ⟨b, hb⟩ := h.listed t ht
      exact ⟨b, (hmem b t).2 (.inl hb)⟩

theorem move {b : Paddr} (hfits : if a = b then s.waiters a = [] else s.waiters b = []) :
    Inv ((s.setWaiters b (s.waiters a)).erase a) := by
  split at hfits
  · rename_i heq
    subst heq
    refine h.congr rfl fun c => ?_
    rw [waiters_erase, waiters_setWaiters]
    split
    · rename_i hca
      rw [hca, hfits]
    · rfl
  · rename_i hne
    -- where the list of an address comes from
    have hfrom : ∀ c, ((s.setWaiters b (s.waiters a)).erase a).waiters c =
        if c = a then [] else s.waiters (if c = b then a else c) := by
      intro c
      rw [waiters_erase, waiters_setWaiters]
      split
      · rfl
      · split <;> rfl
    have hmem : ∀ c t, t ∈ ((s.setWaiters b (s.waiters a)).erase a).waiters c →
        c ≠ a ∧ t ∈ s.waiters (if c = b then a else c) := by
      intro c t ht
      rw [hfrom] at ht
      split at ht
      · cases ht
      · rename_i hca
        exact ⟨hca, ht⟩
    refine ⟨h.hart, fun c t ht => h.parked _ t (hmem c t ht).2, fun c => ?_, fun c d t hc hd => ?_,
      fun t ht => ?_⟩
    · rw [hfrom]
      split
      · exact List.nodup_nil
      · exact h.nodup _
    · obtain ⟨hca, hc⟩ := hmem c t hc
      obtain ⟨hda, hd⟩ := hmem d t hd
      have heq := h.unique _ _ t hc hd
      split at heq <;> split at heq <;> grind
    · obtain ⟨c, hc⟩ := h.listed t ht
      have hcb : c ≠ b := by
        rintro rfl
        rw [hfits] at hc
        cases hc
      rcases eq_or_ne c a with rfl | hca
      · refine ⟨b, ?_⟩
        rw [hfrom, if_neg (Ne.symm hne), if_pos rfl]
        exact hc
      · refine ⟨c, ?_⟩
        rw [hfrom, if_neg hca, if_neg hcb]
        exact hc

theorem futexWait (hcall : s.futexWait c = .ok (r, s')) : Inv s' := by
  have htouch := h.touch c.paddr
  unfold State.futexWait at hcall
  dsimp only at hcall
  split at hcall
  · cases hcall
    exact htouch
  split at hcall
  · cases hcall
    exact htouch
  · obtain ⟨s1, hwait, hcall⟩ := bind_eq_ok hcall
    cases hcall
    exact htouch.wait hwait

theorem futexWake (hcall : s.futexWake c = .ok (r, s')) : Inv s' := by
  unfold State.futexWake at hcall
  split at hcall
  · cases hcall
    exact h
  split at hcall
  · obtain ⟨s1, hnotify, hcall⟩ := bind_eq_ok hcall
    cases hcall
    exact h.notifyAll hnotify
  · obtain ⟨s1, hnotify, hcall⟩ := bind_eq_ok hcall
    cases hcall
    exact (h.notifyTimes hnotify).1

/-- A requeue that fits keeps every waiter that it does not wake, on its second address. -/
theorem futexRequeue
    (hfits : c.val ≠ intMax → if c.paddr = c.paddr2 then (s.waiters c.paddr).length ≤ c.val.toNat
      else s.waiters c.paddr2 = []) (hcall : s.futexRequeue c = .ok (r, s')) :
    Inv s' ∧ ∀ v, r = .ok v → ∀ t, t ∈ s.waiters c.paddr ∨ t ∈ s.waiters c.paddr2 →
      Parked s'.hart t → t ∈ s'.waiters c.paddr2 := by
  have htouch := h.touch c.paddr
  have hsame : ∀ b, (s.setWaiters c.paddr (s.waiters c.paddr)).waiters b = s.waiters b := by
    intro b
    rw [waiters_setWaiters]
    split
    · rename_i heq
      rw [heq]
    · rfl
  unfold State.futexRequeue at hcall
  split at hcall
  · cases hcall
    exact ⟨htouch, fun v hv => by cases hv⟩
  rename_i hval
  obtain ⟨s1, hnotify, hcall⟩ := bind_eq_ok hcall
  cases hcall
  obtain ⟨h1, -, hw⟩ := htouch.notifyTimes hnotify
  simp only [hsame] at hw
  have hfits1 : if c.paddr = c.paddr2 then s1.waiters c.paddr = []
      else s1.waiters c.paddr2 = [] := by
    have hfits := hfits hval
    split
    · rename_i heq
      rw [if_pos heq] at hfits
      rw [hw, if_pos rfl, List.drop_eq_nil_of_le hfits]
    · rename_i hne
      rw [if_neg hne] at hfits
      rw [hw, if_neg (Ne.symm hne), hfits]
  refine ⟨h1.move hfits1, fun v _ t ht hparked => ?_⟩
  obtain ⟨e, he⟩ := h1.listed t hparked
  have hold : t ∈ s.waiters e := by
    rw [hw] at he
    split at he
    · rename_i heq
      exact heq ▸ List.mem_of_mem_drop he
    · exact he
  have he' : e = c.paddr ∨ e = c.paddr2 := ht.imp (h.unique _ _ t hold) (h.unique _ _ t hold)
  split at hfits1
  · rename_i heq
    obtain rfl : e = c.paddr := he'.elim id fun h => h.trans heq.symm
    rw [hfits1] at he
    cases he
  · rename_i hne
    rcases he' with rfl | rfl
    · rw [waiters_erase, if_neg (Ne.symm hne), waiters_setWaiters, if_pos rfl]
      exact he
    · rw [hfits1] at he
      cases he

end

end Inv

end Lists

/-! ## Runs -/

/-- Each task that sleeps is in the list of exactly one address, and a requeue moves the waiters of
both of its addresses that it does not wake to the second one. -/
structure Kept (ok : State → State.Op → Prop) (s : State) : Prop where
  one : ∀ t, Parked s.hart t → ∃ a, ∀ b, t ∈ s.waiters b ↔ b = a
  requeue : ∀ (c : Call) (v : Int) (s' : State), ok s (.futex c) →
    c.cmd = FUTEX_REQUEUE ∨ c.cmd = FUTEX_CMP_REQUEUE → s.futex c = .ok (.ok v, s') →
      ∀ t, t ∈ s.waiters c.paddr ∨ t ∈ s.waiters c.paddr2 → Parked s'.hart t →
        t ∈ s'.waiters c.paddr2

/-- Nobody waits yet. -/
structure Start (s : State) : Prop where
  hart : Hart.Inv s.hart
  awake : ∀ t, ¬Parked s.hart t
  empty : ∀ a, s.waiters a = []

theorem Start.inv {s : State} (h : Start s) : Inv s := by
  refine ⟨h.hart, fun a t ht => ?_, fun a => ?_, fun a b t ha => ?_, fun t ht => absurd ht (h.awake t)⟩
  · rw [h.empty] at ht
    cases ht
  · rw [h.empty]
    exact List.nodup_nil
  · rw [h.empty] at ha
    cases ha

theorem Inv.futex {s s' : State} (h : Inv s)
    (hfits : Fits s (.futex c)) (hcall : s.futex c = .ok (r, s')) :
    Inv s' ∧ (c.cmd = FUTEX_REQUEUE ∨ c.cmd = FUTEX_CMP_REQUEUE → ∀ v, r = .ok v →
      ∀ t, t ∈ s.waiters c.paddr ∨ t ∈ s.waiters c.paddr2 → Parked s'.hart t →
        t ∈ s'.waiters c.paddr2) := by
  unfold State.futex at hcall
  split at hcall
  · rename_i hcmd
    refine ⟨h.futexWait hcall, fun hreq => ?_⟩
    rw [hcmd] at hreq
    exact absurd hreq (by decide)
  · split at hcall
    · rename_i hcmd
      refine ⟨h.futexWake hcall, fun hreq => ?_⟩
      rw [hcmd] at hreq
      exact absurd hreq (by decide)
    · split at hcall
      · rename_i hcmd
        split at hcall
        · cases hcall
          exact ⟨h, fun _ v hv => by cases hv⟩
        rename_i heq
        obtain ⟨h', hkept⟩ := h.futexRequeue
          (fun hval => hfits ⟨.inr ⟨hcmd, not_not.1 heq⟩, hval⟩) hcall
        exact ⟨h', fun _ => hkept⟩
      · split at hcall
        · rename_i hcmd
          obtain ⟨h', hkept⟩ := h.futexRequeue (fun hval => hfits ⟨.inl hcmd, hval⟩) hcall
          exact ⟨h', fun _ => hkept⟩
        · cases hcall
          exact ⟨h, fun _ v hv => by cases hv⟩

theorem Inv.step {s s' : State} (h : Inv s) {op : State.Op} (hfits : Fits s op)
    (hstep : s.step op = .ok s') : Inv s' := by
  cases op with
  | create prior =>
    obtain ⟨hart, hhart, hstep⟩ := bind_eq_ok hstep
    cases hstep
    exact h.setHart (h.hart.step hhart) fun u => parked_create h.hart hhart
  | yield =>
    obtain ⟨hart, hhart, hstep⟩ := bind_eq_ok hstep
    cases hstep
    exact h.setHart (h.hart.step hhart) fun u => parked_schedule hhart
  | store a v =>
    cases hstep
    exact h.congr rfl fun _ => rfl
  | futex c =>
    obtain ⟨⟨r, s1⟩, hcall, hstep⟩ := bind_eq_ok hstep
    cases hstep
    exact (h.futex hfits hcall).1

/-- **No waiter is lost** in a run whose requeues fit. -/
theorem kept_of_fits {s : State} (h : Reach State.step Fits Start s) : Kept Fits s := by
  have hinv : Inv s := h.invariant Inv (fun _ hs => hs.inv) fun _ _ _ hs hok hstep =>
    hs.step hok hstep
  refine ⟨fun t ht => ?_, fun c v s' hok hreq hcall => (hinv.futex hok hcall).2 hreq v rfl⟩
  obtain ⟨a, ha⟩ := hinv.listed t ht
  refine ⟨a, fun b => ⟨fun hb => hinv.unique b a t hb ha, ?_⟩⟩
  rintro rfl
  exact ha

def boot : State := ⟨Hart.boot, fun _ => none, fun _ => 0⟩

theorem start_boot : Start boot := by
  refine ⟨Hart.inv_boot, ?_, fun _ => rfl⟩
  rintro t ⟨o, ho, hp⟩
  exact Finset.notMem_empty t (Hart.inv_boot.queues.pending t o ho hp)

def bothWait : List State.Op :=
  [.create 0, .create 0, .yield, .futex ⟨FUTEX_WAIT, 0, 0, false, 0, 0⟩,
    .futex ⟨FUTEX_WAIT, 1, 0, false, 0, 0⟩]

/-- The waiters of address 0 are moved to address 2. -/
theorem kept_moved : ∃ s, runWhile State.step Fits
    (bothWait ++ [.futex ⟨FUTEX_REQUEUE, 0, 0, false, 2, 0⟩]) boot = some s ∧
      s.waiters 2 = [2] ∧ Kept Fits s := by
  exact Exists.imp (fun s h => ⟨h.1, h.2.2, kept_of_fits h.2.1⟩)
    (exists_reach State.step _ _ start_boot (·.waiters 2 = [2]) (by decide +kernel))

/-- Moved to address 1 instead, they replace the waiter that is there: it sleeps, and is on no
list. -/
theorem not_kept_requeue : ¬∀ s : State, Reach State.step (fun _ _ => True) Start s →
    Kept (fun _ _ => True) s := by
  intro h
  let c : Call := ⟨FUTEX_REQUEUE, 0, 0, false, 1, 0⟩
  obtain ⟨s, -, hreach, hbefore, hobs⟩ := exists_reach State.step (fun _ _ => True) bothWait
    start_boot (fun s => s.waiters 1 = [3] ∧ (s.futex c).toOption.map (fun r =>
      (r.1.toOption, r.2.waiters 1, (r.2.hart.sched.task 3).map (·.state))) =
        some (some 0, [2], some .Pending)) (by decide +kernel)
  obtain ⟨⟨r, s'⟩, hcall, hobs⟩ := Option.map_eq_some_iff.1 hobs
  obtain ⟨hr, hobs⟩ := Prod.mk.inj hobs
  obtain ⟨hafter, hstate⟩ := Prod.mk.inj hobs
  obtain rfl := toOption_eq_some.1 hr
  obtain ⟨o, ho, hp⟩ := Option.map_eq_some_iff.1 hstate
  have hkept := (h s hreach).requeue c 0 s' trivial (.inl (by decide)) (toOption_eq_some.1 hcall) 3
    (.inr (hbefore ▸ List.mem_singleton_self 3)) ⟨o, ho, hp⟩
  rw [show s'.waiters c.paddr2 = [2] from hafter] at hkept
  exact absurd hkept (by decide)

end LuoOS.Futex
