import LuoOS.Ipc.Pipe

/-!
# A pipe is a lossless queue

Between segments the bytes written to a pipe are those taken from it followed by the ring's, and a
call that has moved `off` bytes has moved the first `off` of its caller's buffer. One round of
either loop keeps this, so every segment and every run does, whatever wakes the tasks.
-/

namespace LuoOS.Ipc

open Function

/-! ## Counters -/

def Pipe.used (p : Pipe) : Nat := xlen (p.tail - p.head)

/-- The bytes written are those taken, followed by the ring's. -/
structure Pipe.Fifo (p : Pipe) : Prop where
  head_lt : p.head < 2 ^ 64
  tail_lt : p.tail < 2 ^ 64
  used_le : p.used ≤ bufSize
  bytes : p.written = p.taken ++ Ring.contents bufSize p.buf p.head p.used

variable {n : Nat}

namespace Pipe

variable {p : Pipe}

theorem Fifo.room (f : p.Fifo) : xlen (p.head + bufSize - p.tail) = bufSize - p.used := by
  obtain ⟨h1, h2, h3, -⟩ := f
  unfold used xlen bufSize at *
  omega

theorem tail_mod (p : Pipe) : p.tail % bufSize = (p.head + p.used) % bufSize := by
  unfold used xlen bufSize at *
  omega

theorem Fifo.full_iff (f : p.Fifo) : p.full = true ↔ p.used = bufSize := by
  obtain ⟨h1, h2, h3, -⟩ := f
  unfold full
  rw [beq_iff_eq]
  unfold used xlen bufSize at *
  omega

theorem Fifo.empty_iff (f : p.Fifo) : p.empty = true ↔ p.used = 0 := by
  obtain ⟨h1, h2, h3, -⟩ := f
  unfold empty
  rw [beq_iff_eq]
  unfold used xlen at *
  omega

theorem Fifo.put (f : p.Fifo) (hroom : p.used + n ≤ bufSize)
    (hend : p.tail % bufSize + n ≤ bufSize) (src : Nat → UInt8) :
    Fifo { p with
      buf := Ring.put p.buf (p.tail % bufSize) n src
      tail := xlen (p.tail + n)
      written := p.written ++ (List.range n).map src } ∧
    xlen (xlen (p.tail + n) - p.head) = p.used + n := by
  have hused : xlen (xlen (p.tail + n) - p.head) = p.used + n := by
    unfold used xlen bufSize at *
    omega
  refine ⟨⟨f.head_lt, xlen_lt (p.tail + n), ?_, ?_⟩, hused⟩
  · unfold used
    rw [hused]
    exact hroom
  · unfold used
    rw [hused, Ring.contents_put hroom p.tail_mod hend, ← List.append_assoc, ← f.bytes]

theorem Fifo.take (f : p.Fifo) (hn : n ≤ p.used) (hend : p.head % bufSize + n ≤ bufSize) :
    let q := { p with
      head := xlen (p.head + n)
      taken := p.taken ++ Ring.cells p.buf (p.head % bufSize) n }
    q.Fifo ∧ q.used = p.used - n := by
  have hused : xlen (p.tail - xlen (p.head + n)) = p.used - n := by
    unfold used xlen bufSize at *
    omega
  have hmod : xlen (p.head + n) % bufSize = (p.head + n) % bufSize := by
    unfold xlen bufSize
    omega
  refine ⟨⟨xlen_lt (p.head + n), f.tail_lt, ?_, ?_⟩, hused⟩
  · unfold used
    rw [hused]
    exact (Nat.sub_le _ _).trans f.used_le
  · unfold used
    rw [hused, f.bytes, Ring.contents_congr hmod, ← Ring.contents_eq_cells _ hend,
      List.append_assoc, ← Ring.contents_add, Nat.add_sub_cancel' hn]

end Pipe

/-! ## The loops -/

def Bytes.first (b : Bytes) (n : Nat) : List UInt8 := (List.range n).map fun i : Nat => b.buff i

/-- The call has moved the first `off` bytes of its buffer. -/
structure Call.Sound (c : Call) : Prop where
  len_lt : c.bytes.len < 2 ^ 31
  off_le : c.off ≤ c.bytes.len
  length : (c.moved.length : Int) = c.off
  moved : c.moved = c.bytes.first c.moved.length

/-- What goes on the record of the pipe goes on that of the call, and a write leaves the buffer of
its caller as it is. -/
structure Copies (p : Pipe) (c : Call) (p' : Pipe) (c' : Call) : Prop where
  chunk : ∃ chunk, c'.moved = c.moved ++ chunk ∧
    p'.written = p.written ++ (if c.op = .write then chunk else []) ∧
    p'.taken = p.taken ++ (if c.op = .read then chunk else [])
  source : c.op = .write → c'.bytes = c.bytes

def Pipe.waiting (p : Pipe) : Op → List Tid
  | .read => p.canr
  | .write => p.canw

def Pipe.lacks (p : Pipe) : Op → Bool
  | .read => p.empty
  | .write => p.full

def Pipe.peers (p : Pipe) : Op → Int
  | .read => p.wcnt
  | .write => p.rcnt

/-- What the loop of a call does until it ends. -/
structure LoopRun (p : Pipe) (c : Call) (p' : Pipe) (c' : Call) (e : Exit) : Prop where
  fifo : p'.Fifo
  waiting : p'.waiting = p.waiting
  peers : p'.peers = p.peers
  op : c'.op = c.op
  pipe : c'.pipe = c.pipe
  sound : c.Sound → c'.Sound
  copies : Copies p c p' c'
  wait : e = .wait → p'.lacks c.op = true ∧ p'.peers c.op ≠ 0

variable {c : Call} {p : Pipe} {s : State}

theorem Copies.refl (p : Pipe) (c : Call) : Copies p c p c :=
  ⟨⟨[], by simp⟩, fun _ => rfl⟩

theorem Copies.trans {p₁ p₂ : Pipe} {c₁ c₂ : Call} (h : Copies p c p₁ c₁)
    (h' : Copies p₁ c₁ p₂ c₂) (hop : c₁.op = c.op) : Copies p c p₂ c₂ := by
  obtain ⟨a, ha, hwa, hta⟩ := h.chunk
  obtain ⟨b, hb, hwb, htb⟩ := h'.chunk
  rw [hop] at hwb htb
  refine ⟨⟨a ++ b, by rw [hb, ha, List.append_assoc], ?_, ?_⟩, fun hw => ?_⟩
  · rw [hwb, hwa, List.append_assoc]
    split <;> simp
  · rw [htb, hta, List.append_assoc]
    split <;> simp
  · exact (h'.source (hop.trans hw)).trans (h.source hw)

theorem LoopRun.done (f : p.Fifo) (c : Call) : LoopRun p c p c .done :=
  ⟨f, rfl, rfl, rfl, rfl, id, .refl p c, nofun⟩

/-- The length of a chunk, as a `size_t`, and the `int` after it. -/
theorem Call.Sound.advance (s : c.Sound) (h : xlen c.off < c.bytes.len)
    (hn : n ≤ xlen (c.bytes.len - c.off)) {chunk : List UInt8} {buff : Int → UInt8}
    (hold : ∀ i < c.off, buff i = c.bytes.buff i)
    (hc : chunk = (List.range n).map fun i : Nat => buff (c.off + i)) :
    Call.Sound { c with
      bytes := { c.bytes with buff }
      off := toInt (c.off + n)
      moved := c.moved ++ chunk } := by
  obtain ⟨h1, h2, h3, h4⟩ := s
  have hlen : xlen (c.bytes.len - c.off) = c.bytes.len - c.off.toNat := by
    unfold xlen
    omega
  have hoff : toInt (c.off + n) = c.off + n := by
    obtain ⟨o, ho⟩ := Int.eq_ofNat_of_zero_le (h3 ▸ Int.natCast_nonneg _)
    rw [ho, ← Nat.cast_add]
    exact toInt_of_lt (by omega)
  have hn' : chunk.length = n := by simp [hc]
  refine ⟨h1, ?_, ?_, ?_⟩
  · dsimp only
    omega
  · simp only [List.length_append, hn']
    omega
  · have hmoved : c.moved = (List.range c.moved.length).map fun i : Nat => buff i := by
      refine h4.trans (List.map_congr_left fun i hi => (hold i ?_).symm)
      have := List.mem_range.1 hi
      omega
    unfold Bytes.first
    rw [List.length_append, hn', List.range_add, List.map_append, List.map_map, ← hmoved, hc, ← h3]
    simp [Function.comp_def]

theorem remaining_pos (h : xlen c.off < c.bytes.len) : 0 < xlen (c.bytes.len - c.off) := by
  have := c.bytes.len_lt
  unfold xlen at *
  omega

theorem writeLoop_run : ∀ (fuel : Nat) {p : Pipe} {c : Call}, p.Fifo → c.op = .write →
    bufSize - p.used < fuel →
    ∃ p' c' e, writeLoop fuel p c = some (p', c', e) ∧ LoopRun p c p' c' e := by
  intro fuel
  induction fuel with
  | zero =>
    intro p c _ _ hf
    exact absurd hf (Nat.not_lt_zero _)
  | succ fuel ih =>
    intro p c f hop hfuel
    unfold writeLoop
    by_cases hlen : xlen c.off < c.bytes.len
    · rw [if_pos hlen, f.room]
      have hrem := remaining_pos hlen
      generalize hw : min (min (bufSize - p.used) (bufSize - p.tail % bufSize))
        (xlen (c.bytes.len - c.off)) = wlen
      have hmod : p.tail % bufSize < bufSize := Nat.mod_lt _ (by decide)
      by_cases h0 : wlen = 0
      · have hfull : p.full = true := by
          have := f.used_le
          rw [f.full_iff]
          omega
        rw [if_pos h0]
        by_cases hr : p.rcnt = 0
        · rw [if_pos hr]
          exact ⟨p, c, .done, rfl, .done f c⟩
        rw [if_neg hr]
        refine ⟨p, c, .wait, rfl, f, rfl, rfl, rfl, rfl, id, .refl p c, fun _ => ?_⟩
        rw [hop]
        exact ⟨hfull, hr⟩
      · rw [if_neg h0]
        generalize hsrc : (fun i : Nat => c.bytes.buff (c.off + i)) = src
        obtain ⟨f', hused⟩ := f.put (n := wlen) (by omega) (by omega) src
        have hfuel' : bufSize - xlen (xlen (p.tail + wlen) - p.head) < fuel := by
          omega
        obtain ⟨p', c', e, hrun, r⟩ := ih (c := { c with
          off := toInt (c.off + wlen)
          moved := c.moved ++ (List.range wlen).map src }) f' hop hfuel'
        refine ⟨p', c', e, hrun, r.fifo, r.waiting, r.peers, r.op, r.pipe, ?_, ?_, r.wait⟩
        · intro hs
          exact r.sound (hs.advance hlen (by omega) (fun _ _ => rfl) (by rw [← hsrc]))
        · refine Copies.trans ?_ r.copies rfl
          exact ⟨⟨_, rfl, by simp [hop], by simp [hop]⟩, fun _ => rfl⟩
    · rw [if_neg hlen]
      exact ⟨p, c, .done, rfl, .done f c⟩

theorem readLoop_run : ∀ (fuel : Nat) {p : Pipe} {c : Call}, p.Fifo → c.op = .read →
    p.used < fuel → ∃ p' c' e, readLoop fuel p c = some (p', c', e) ∧ LoopRun p c p' c' e ∧
      (0 < c.off → c.off + p.used < 2 ^ 31 → e = .done) := by
  intro fuel
  induction fuel with
  | zero =>
    intro p c _ _ hf
    exact absurd hf (Nat.not_lt_zero _)
  | succ fuel ih =>
    intro p c f hop hfuel
    unfold readLoop
    by_cases hlen : xlen c.off < c.bytes.len
    · rw [if_pos hlen]
      have hrem := remaining_pos hlen
      generalize hr : min (min (xlen (p.tail - p.head)) (bufSize - p.head % bufSize))
        (xlen (c.bytes.len - c.off)) = rlen
      change min (min p.used (bufSize - p.head % bufSize)) (xlen (c.bytes.len - c.off)) = rlen at hr
      have hmod : p.head % bufSize < bufSize := Nat.mod_lt _ (by decide)
      by_cases h0 : rlen = 0
      · have hempty : p.empty = true := by
          rw [f.empty_iff]
          omega
        rw [if_pos h0]
        by_cases hw : p.wcnt = 0 ∨ c.off > 0
        · rw [if_pos hw]
          exact ⟨p, c, .done, rfl, .done f c, fun _ _ => rfl⟩
        rw [if_neg hw]
        refine ⟨p, c, .wait, rfl, ⟨f, rfl, rfl, rfl, rfl, id, .refl p c, fun _ => ?_⟩,
          fun hoff _ => absurd (.inr hoff) hw⟩
        rw [hop]
        exact ⟨hempty, fun h => hw (.inl h)⟩
      · rw [if_neg h0]
        obtain ⟨f', hused⟩ := f.take (n := rlen) (by omega) (by omega)
        obtain ⟨p', c', e, hrun, r, hdone⟩ := ih (c := { c with
          bytes := { c.bytes with
            buff := fun i =>
              if c.off ≤ i ∧ i < c.off + rlen then p.buf (p.head % bufSize + (i - c.off).toNat)
              else c.bytes.buff i }
          off := toInt (c.off + rlen)
          moved := c.moved ++ Ring.cells p.buf (p.head % bufSize) rlen }) f' hop (by omega)
        refine ⟨p', c', e, hrun, ⟨r.fifo, r.waiting, r.peers, r.op, r.pipe, fun hs => ?_, ?_, r.wait⟩,
          fun hoff hlt => ?_⟩
        · refine r.sound (hs.advance hlen (by omega) ?_ ?_)
          · exact fun i hi => if_neg fun h => by omega
          · exact List.map_congr_left fun i hi => by
              have := List.mem_range.1 hi
              simp [this]
        · refine Copies.trans ?_ r.copies rfl
          exact ⟨⟨_, rfl, by simp [hop], by simp [hop]⟩, by simp [hop]⟩
        · dsimp only at hdone
          rw [toInt_of_nonneg (by omega) (by omega)] at hdone
          exact hdone (by omega) (by omega)
    · rw [if_neg hlen]
      exact ⟨p, c, .done, rfl, .done f c, fun _ _ => rfl⟩

/-! ## Segments -/

def finish (t : Tid) (op : Op) (p : Pipe) : Exit → Pipe × List Tid
  | .done => p.tryWakeup
  | .wait =>
    match op with
    | .read =>
      ({ p with canw := (notifyOne p.canw).1, canr := p.canr ++ [t] }, (notifyOne p.canw).2)
    | .write =>
      ({ p with canr := (notifyOne p.canr).1, canw := p.canw ++ [t] }, (notifyOne p.canr).2)

/-- **A segment ends**, after a loop that keeps the queue. -/
theorem segment_run (t : Tid) (c : Call) (f : p.Fifo) : ∃ q c' e, LoopRun p c q c' e ∧
      segment t p c = some ((finish t c.op q e).1, (finish t c.op q e).2, c', e) := by
  have hused := f.used_le
  unfold segment
  cases hop : c.op with
  | read =>
    obtain ⟨q, c', e, hloop, r, -⟩ := readLoop_run rounds f hop (by unfold rounds; omega)
    refine ⟨q, c', e, r, ?_⟩
    cases e <;> simp [readSegment, hloop, finish]
  | write =>
    obtain ⟨q, c', e, hloop, r⟩ := writeLoop_run rounds f hop (by unfold rounds; omega)
    refine ⟨q, c', e, r, ?_⟩
    cases e <;> simp [writeSegment, hloop, finish]

def Exit.task (c : Call) : Exit → Task
  | .wait => .parked c
  | .done => .out

def Exit.log (c : Call) : Exit → List Call
  | .wait => []
  | .done => [c]

theorem runCall_eq (t : Tid) (c : Call) (f : (s.pipe c.pipe).Fifo) :
    ∃ q c' e, LoopRun (s.pipe c.pipe) c q c' e ∧ runCall s t c =
      some ⟨update s.pipe c.pipe (finish t c.op q e).1,
        update ((finish t c.op q e).2.foldl wakeup s.task) t (e.task c'), s.log ++ e.log c'⟩ := by
  obtain ⟨q, c', e, r, hseg⟩ := segment_run t c f
  refine ⟨q, c', e, r, ?_⟩
  unfold runCall
  rw [hseg]
  cases e <;> simp [Exit.task, Exit.log, r.pipe]

theorem Pipe.Fifo.lists (f : p.Fifo) (canr canw : List Tid) (wcnt rcnt : Int) :
    Fifo { p with canr, canw, wcnt, rcnt } := ⟨f.head_lt, f.tail_lt, f.used_le, f.bytes⟩

theorem Pipe.Fifo.finish {q : Pipe} (f : q.Fifo) (t : Tid) (op : Op) (e : Exit) :
    (Ipc.finish t op q e).1.Fifo := by
  cases e with
  | done => exact f.lists _ _ _ _
  | wait => cases op <;> exact f.lists _ _ _ _

/-! ## Waking -/

def Task.wake : Task → Task
  | parked c => ready c
  | t => t

theorem wakeup_apply (task : Tid → Task) (w t : Tid) :
    wakeup task w t = if t = w then (task t).wake else task t := by
  unfold wakeup
  by_cases htw : t = w
  · subst htw
    cases ht : task t with
    | parked c => simp [Task.wake]
    | out => simp [ht, Task.wake]
    | ready c => simp [ht, Task.wake]
  · rw [if_neg htw]
    cases task w with
    | parked c => exact update_of_ne htw _ _
    | out => rfl
    | ready c => rfl

theorem wake_wake (t : Task) : t.wake.wake = t.wake := by
  cases t <;> rfl

theorem foldl_wakeup (woken : List Tid) : ∀ (task : Tid → Task) (t : Tid),
    woken.foldl wakeup task t = if t ∈ woken then (task t).wake else task t := by
  induction woken with
  | nil =>
    intro task t
    rfl
  | cons w ws ih =>
    intro task t
    rw [List.foldl_cons, ih, wakeup_apply]
    by_cases htw : t = w
    · subst htw
      simp [wake_wake]
    · by_cases hws : t ∈ ws <;> simp [htw, hws]

/-! ## Runs -/

def ShortCalls (_ : State) : Act → Prop
  | .call _ _ _ bytes => bytes.len < 2 ^ 31
  | _ => True

instance : ∀ s a, Decidable (ShortCalls s a) := by
  intro s a
  apply @Act.casesOn _ a <;> intros <;> unfold ShortCalls <;> infer_instance

/-- The call of a task goes on to its next wait or to its return, and touches its own pipe only. -/
structure GoesOn (s : State) (t : Tid) (c : Call) (s' : State) : Prop where
  call : ∃ c', (s'.task t = .parked c' ∨ s'.task t = .out ∧ s'.log = s.log ++ [c']) ∧
    Copies (s.pipe c.pipe) c (s'.pipe c.pipe) c'
  pipes : ∀ i ≠ c.pipe, s'.pipe i = s.pipe i

/-- **What a lossless queue is**: `tail-head` is at most 64, and the bytes written are those taken
followed by the ring's. Every call has moved the bytes its caller's buffer starts with, and returns
their number. A task that calls or is woken reaches its next wait or its return, and adds what it
has moved to the bytes written or taken. -/
structure Lossless (s : State) : Prop where
  used : ∀ i, xlen ((s.pipe i).tail - (s.pipe i).head) ≤ bufSize
  bytes : ∀ i, (s.pipe i).written = (s.pipe i).taken ++ Ring.contents bufSize (s.pipe i).buf
    (s.pipe i).head (xlen ((s.pipe i).tail - (s.pipe i).head))
  taken : ∀ i, (s.pipe i).taken <+: (s.pipe i).written
  moved : ∀ c, (∃ t, s.task t = .ready c ∨ s.task t = .parked c) ∨ c ∈ s.log →
    c.moved = c.bytes.first c.moved.length
  returned : ∀ c ∈ s.log, c.off = c.moved.length
  callEnds : ∀ t op i bytes, s.task t = .out →
    ∃ s', step s (.call t op i bytes) = some s' ∧ GoesOn s t ⟨op, i, bytes, 0, []⟩ s'
  resumeEnds : ∀ t c, s.task t = .ready c → ∃ s', step s (.resume t) = some s' ∧ GoesOn s t c s'

/-- All pipes are queues, and all calls are sound. -/
structure FifoInv (s : State) : Prop where
  fifo : ∀ i, (s.pipe i).Fifo
  sound : ∀ t c, s.task t = .ready c ∨ s.task t = .parked c → c.Sound
  log : ∀ c ∈ s.log, c.Sound

theorem FifoInv.wake (i : FifoInv s) (woken : List Tid) {t : Tid}
    (h : woken.foldl wakeup s.task t = .ready c ∨ woken.foldl wakeup s.task t = .parked c) :
    c.Sound := by
  rw [foldl_wakeup] at h
  split at h
  · cases ht : s.task t with
    | out =>
      rw [ht] at h
      rcases h with h | h <;> cases h
    | ready c' =>
      rw [ht] at h
      rcases h with h | h <;> cases h
      exact i.sound t c (.inl ht)
    | parked c' =>
      rw [ht] at h
      rcases h with h | h <;> cases h
      exact i.sound t c (.inr ht)
  · exact i.sound t c h

section

variable (inv : FifoInv s)
include inv

theorem FifoInv.setPipe {i : Nat} (f : p.Fifo) : ∀ j, (update s.pipe i p j).Fifo := by
  intro j
  by_cases hj : j = i
  · subst hj
    rw [update_self]
    exact f
  · rw [update_of_ne hj]
    exact inv.fifo j

/-- A segment of a sound call keeps the invariant. -/
theorem FifoInv.runCall (t : Tid) (hc : c.Sound) :
    ∃ s', Ipc.runCall s t c = some s' ∧ FifoInv s' := by
  obtain ⟨q, c', e, r, hrun⟩ := runCall_eq t c (inv.fifo c.pipe)
  have hc' := r.sound hc
  refine ⟨_, hrun, inv.setPipe (r.fifo.finish t c.op e), fun u d hd => ?_, fun d hd => ?_⟩
  · dsimp only at hd
    by_cases hu : u = t
    · rw [hu, update_self] at hd
      cases e <;> rcases hd with h | h <;> cases h
      exact hc'
    · rw [update_of_ne hu] at hd
      exact inv.wake _ hd
  · rcases List.mem_append.1 hd with hd | hd
    · exact inv.log d hd
    · cases e with
      | wait => cases hd
      | done => exact List.mem_singleton.1 hd ▸ hc'

theorem FifoInv.setLists (i : Nat) (canr canw : List Tid) (wcnt rcnt : Int) (woken : List Tid) :
    FifoInv { s with
      pipe := update s.pipe i { s.pipe i with canr, canw, wcnt, rcnt }
      task := woken.foldl wakeup s.task } :=
  ⟨inv.setPipe ((inv.fifo i).lists _ _ _ _), fun _ _ h => inv.wake woken h, inv.log⟩

theorem FifoInv.step {s' : State} {a : Act} (ok : ShortCalls s a)
    (h : step s a = some s') : FifoInv s' := by
  cases a with
  | call t op i bytes =>
    simp only [Ipc.step] at h
    split at h
    · obtain ⟨s1, hs1, inv1⟩ := inv.runCall t (c := ⟨op, i, bytes, 0, []⟩)
        ⟨ok, Int.natCast_nonneg _, rfl, rfl⟩
      rw [hs1] at h
      cases h
      exact inv1
    · cases h
  | resume t =>
    simp only [Ipc.step] at h
    split at h
    · rename_i c hc
      obtain ⟨s1, hs1, inv1⟩ := inv.runCall t (inv.sound t c (.inl hc))
      rw [hs1] at h
      cases h
      exact inv1
    · cases h
  | addReader i =>
    cases h
    exact inv.setLists i _ _ _ _ []
  | addWriter i =>
    cases h
    exact inv.setLists i _ _ _ _ []
  | decReader i =>
    simp only [Ipc.step] at h
    split at h <;> cases h
    · exact inv.setLists i _ _ _ _ _
    · exact inv.setLists i _ _ _ _ []
  | decWriter i =>
    simp only [Ipc.step] at h
    split at h <;> cases h
    · exact inv.setLists i _ _ _ _ _
    · exact inv.setLists i _ _ _ _ []
  | childExit t =>
    cases h
    exact ⟨inv.fifo, fun _ _ h => inv.wake [t] h, inv.log⟩

end

theorem FifoInv.init (garbage : Nat → Nat → UInt8) : FifoInv (.init garbage) where
  fifo := fun _ => ⟨Nat.two_pow_pos 64, Nat.two_pow_pos 64, Nat.zero_le 64, rfl⟩
  sound := by
    rintro t c (h | h) <;> cases h
  log := by
    intro r hr
    cases hr

theorem Reach.fifoInv (hr : Reach ShortCalls s) : FifoInv s := by
  refine hr.invariant FifoInv ?_ fun _ _ _ inv ok h => inv.step ok (Runs.ofOption_eq_ok.1 h)
  rintro _ ⟨garbage, rfl⟩
  exact .init garbage

theorem finish_copied (t : Tid) (op : Op) (q : Pipe) (e : Exit) :
    (finish t op q e).1.written = q.written ∧ (finish t op q e).1.taken = q.taken := by
  cases e with
  | done => exact ⟨rfl, rfl⟩
  | wait => cases op <;> exact ⟨rfl, rfl⟩

theorem runCall_goesOn (t : Tid) (c : Call) (f : (s.pipe c.pipe).Fifo) :
    ∃ s', runCall s t c = some s' ∧ GoesOn s t c s' := by
  obtain ⟨q, c', e, r, hrun⟩ := runCall_eq t c f
  refine ⟨_, hrun, ⟨c', ?_, ?_⟩, fun i hi => update_of_ne hi ..⟩
  · dsimp only
    rw [update_self]
    cases e with
    | wait => exact .inl rfl
    | done => exact .inr ⟨rfl, rfl⟩
  · obtain ⟨hw, ht⟩ := finish_copied t c.op q e
    dsimp only
    rw [update_self]
    refine ⟨?_, r.copies.source⟩
    rw [hw, ht]
    exact r.copies.chunk

/-- **Every pipe is a lossless queue in every run** of calls of lengths below `2 ^ 31`. -/
theorem pipe_lossless {s : State} (hr : Reach ShortCalls s) : Lossless s := by
  have inv := hr.fifoInv
  refine ⟨fun i => (inv.fifo i).used_le, fun i => (inv.fifo i).bytes, ?_, ?_,
    fun c hc => (inv.log c hc).length.symm, ?_, ?_⟩
  · intro i
    rw [(inv.fifo i).bytes]
    exact List.prefix_append _ _
  · rintro c (⟨t, ht⟩ | hc)
    · exact (inv.sound t c ht).moved
    · exact (inv.log c hc).moved
  · intro t op i bytes ht
    simp only [step, ht]
    exact runCall_goesOn t ⟨op, i, bytes, 0, []⟩ (inv.fifo i)
  · intro t c ht
    simp only [step, ht]
    exact runCall_goesOn t c (inv.fifo c.pipe)

def handover : List Act :=
  [.addReader 0, .addWriter 0, .call 1 .read 0 ⟨2, fun _ => 0, by decide⟩,
    .call 2 .write 0 ⟨2, fun i => if i = 0 then 7 else 8, by decide⟩, .resume 1]

/-- The writer returns 2, and the reader returns 2 with 7 and 8 in its buffer. -/
theorem pipe_lossless_handover : ∃ s, runActs ShortCalls handover (.init fun _ _ => 0) = some s ∧
      s.log.map (fun c => (c.op, c.off, c.bytes.first 2)) =
        [(.write, 2, [7, 8]), (.read, 2, [7, 8])] ∧ Lossless s := by
  obtain ⟨s, hs, hr, hlog⟩ := Runs.exists_reach (Runs.ofOption step) ShortCalls handover
    (I := fun s => ∃ garbage, s = .init garbage) ⟨fun _ _ => 0, rfl⟩
    (fun s => s.log.map (fun c => (c.op, c.off, c.bytes.first 2)) =
      [(.write, 2, [7, 8]), (.read, 2, [7, 8])]) (by decide +kernel)
  exact ⟨s, hs, hlog, pipe_lossless hr⟩

/-! ## Readiness -/

/-- The call goes through without a wait. -/
def Pipe.AtOnce (p : Pipe) (op : Op) (bytes : Bytes) : Prop :=
  ∃ r, segment 0 p ⟨op, 0, bytes, 0, []⟩ = some r ∧ r.2.2.2 = .done

/-- What `select` makes of `readable` and `writable`. -/
structure Pipe.ReadyAtOnce (p : Pipe) : Prop where
  read : p.readable → ∀ bytes, 1 ≤ bytes.len → p.AtOnce .read bytes
  write : p.writable → ∀ bytes, bytes.len = 1 → p.AtOnce .write bytes
  readable : ∀ bytes, bytes.len = 1 → p.AtOnce .read bytes → p.readable
  writable : ∀ bytes, bytes.len = 1 → p.AtOnce .write bytes → p.writable

theorem Pipe.Fifo.atOnce_read (f : p.Fifo) {bytes : Bytes} (h : 1 ≤ bytes.len) :
    p.AtOnce .read bytes ↔ p.empty = false ∨ p.wcnt = 0 := by
  have hlt : xlen (0 : Int) < bytes.len := h
  have hrem : 0 < xlen (bytes.len - (0 : Int)) := remaining_pos (c := ⟨.read, 0, bytes, 0, []⟩) hlt
  have hmod : p.head % bufSize < bufSize := Nat.mod_lt _ (by decide)
  unfold AtOnce segment readSegment
  dsimp only
  unfold rounds readLoop
  dsimp only
  rw [if_pos hlt]
  generalize hr : min (min (xlen (p.tail - p.head)) (bufSize - p.head % bufSize))
    (xlen (bytes.len - (0 : Int))) = rlen
  change min (min p.used (bufSize - p.head % bufSize)) _ = rlen at hr
  by_cases h0 : rlen = 0
  · have hempty : p.empty = true := f.empty_iff.2 (by omega)
    by_cases hw : p.wcnt = 0 <;> simp [h0, hw, hempty]
  have hempty : p.empty = false := by
    rw [← Bool.not_eq_true, f.empty_iff]
    omega
  have hle := f.used_le
  have hb : bufSize = 64 := rfl
  obtain ⟨f', hused⟩ := f.take (n := rlen) (by omega) (by omega)
  rw [if_neg h0, Int.zero_add, toInt_of_lt (by omega)]
  obtain ⟨q, c', e, hrun, -, hdone⟩ := readLoop_run bufSize (c := ⟨.read, 0, _, rlen, _⟩) f' rfl
    (by omega)
  rw [hrun, hdone (by dsimp only; omega) (by dsimp only; omega)]
  simp [hempty]

theorem Pipe.Fifo.atOnce_write (f : p.Fifo) {bytes : Bytes} (h : bytes.len = 1) :
    p.AtOnce .write bytes ↔ p.full = false ∨ p.rcnt = 0 := by
  have hlt : xlen (0 : Int) < bytes.len := h ▸ Nat.one_pos
  have hrem : xlen (bytes.len - (0 : Int)) = 1 := by rw [h]; rfl
  have hmod : p.tail % bufSize < bufSize := Nat.mod_lt _ (by decide)
  have hle := f.used_le
  unfold AtOnce segment writeSegment
  dsimp only
  unfold rounds writeLoop
  dsimp only
  rw [if_pos hlt, f.room, hrem]
  by_cases hfull : p.full = true
  · rw [f.full_iff.1 hfull, if_pos (by simp)]
    by_cases hr : p.rcnt = 0 <;> simp [hr, hfull]
  have hused : p.used ≠ bufSize := fun hu => hfull (f.full_iff.2 hu)
  rw [show min (min (bufSize - p.used) (bufSize - p.tail % bufSize)) 1 = 1 by omega]
  simp only [Bool.not_eq_true] at hfull
  unfold bufSize writeLoop
  simp [hfull, h, toInt, xlen]

/-- **Readiness tells whether a call waits only while the pipe is neither empty nor full**: an
empty pipe is called readable when it has writers, and that is when a read waits. -/
theorem readyAtOnce_iff (f : p.Fifo) : p.ReadyAtOnce ↔ p.empty = false ∧ p.full = false := by
  let one : Bytes := ⟨1, fun _ => 0, by decide⟩
  constructor
  · intro h
    have hr : p.readable = true ↔ p.empty = false ∨ p.wcnt = 0 :=
      ⟨fun hr => (f.atOnce_read le_rfl).1 (h.read hr one le_rfl),
        fun ho => h.readable one rfl ((f.atOnce_read le_rfl).2 ho)⟩
    have hw : p.writable = true ↔ p.full = false ∨ p.rcnt = 0 :=
      ⟨fun hw => (f.atOnce_write rfl).1 (h.write hw one rfl),
        fun ho => h.writable one rfl ((f.atOnce_write rfl).2 ho)⟩
    unfold Pipe.readable at hr
    unfold Pipe.writable at hw
    constructor
    · cases he : p.empty <;> simp_all
    · cases he : p.full <;> simp_all
  · rintro ⟨he, hf⟩
    exact ⟨fun _ _ hlen => (f.atOnce_read hlen).2 (.inl he),
      fun _ _ hlen => (f.atOnce_write hlen).2 (.inl hf),
      fun _ _ _ => by simp [Pipe.readable, he], fun _ _ _ => by simp [Pipe.writable, hf]⟩

theorem readyAtOnce_one : Pipe.ReadyAtOnce ⟨fun _ => 7, 0, 1, [], [], 1, 1, [7], []⟩ :=
  (readyAtOnce_iff ⟨by decide, by decide, by decide, rfl⟩).2 (by decide)

/-- **A new pipe with a writer is readable, and a read of it waits.** -/
theorem not_readyAtOnce : ∃ s, Reach ShortCalls s ∧ ¬(s.pipe 0).ReadyAtOnce := by
  have hr : Reach ShortCalls _ := .next (.start ⟨fun _ _ => 0, rfl⟩) (i := .addWriter 0) trivial rfl
  refine ⟨_, hr, fun h => ?_⟩
  have hread := h.read rfl ⟨1, fun _ => 0, by decide⟩ le_rfl
  exact absurd (((hr.fifoInv.fifo 0).atOnce_read le_rfl).1 hread) (by decide)

end LuoOS.Ipc
