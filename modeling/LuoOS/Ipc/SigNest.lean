import LuoOS.Ipc.SigFrame
import LuoOS.Lib.Runs

/-!
# Nested signals

A run of one task is a sequence of user code, calls that change its signals, deliveries and returns;
`Nest` remembers the active deliveries and what each has to bring back. Frames that are each in one
piece of physical memory and apart from one another stay there (`Nest.Inv`), but there is one
`signal.hasInfo` to parse them with: `unwinds_of_uniform` needs the active handlers to agree on
`SA_SIGINFO`, and `not_unwinds` is a run in which they do not.
-/

namespace LuoOS.Signal

open Vm Runs

/-- A delivery, with what its return has to bring back. -/
structure Active where
  ctx : Context
  sigmask : UInt64
  hasInfo : Bool
  sp : UInt64

/-- A task and its active deliveries, the innermost first. -/
structure Nest where
  u : UserTask
  active : List Active

namespace Nest

/-- What the task and the kernel do. -/
inductive Op where
  | run (ctx : Context) (mem : UserMem)
  | sigSend (sig : Nat) (info : Option SigInfo)
  | sigAction (sig : Int) (nact : Option SigAct)
  | sigProcMask (how : Int) (nset : Option UInt64) (sigsetsize : Nat)
  | sigHandler (junk : Junk)
  | sigReturn

def step (func : UInt64) (s : Nest) : Op → Kern Nest
  | .run ctx mem => .ok { s with u := { s.u with ctx := ctx, mem := mem } }
  | .sigSend sig info => .ok { s with u := { s.u with sig := sigSend s.u.sig sig info } }
  | .sigAction sig nact => .ok { s with u := { s.u with sigacts := sigAction s.u.sigacts sig nact } }
  | .sigProcMask how nset sigsetsize =>
    .ok { s with u := { s.u with sig := sigProcMask s.u.sig how nset sigsetsize } }
  | .sigHandler junk => do
    let (d, u) ← sigHandler func junk s.u
    if d = some .user then
      .ok ⟨u, ⟨s.u.ctx, s.u.sig.sigmask, u.sig.hasInfo, u.ctx.sp⟩ :: s.active⟩
    else .ok { s with u := u }
  | .sigReturn => do
    let u ← sigReturn s.u
    .ok ⟨u, s.active.tail⟩

def Op.Proper (s : Nest) : Op → Prop
  | .run _ mem => ∀ f ∈ s.active, ∀ i < frameSize f.hasInfo,
      mem.transaddr (f.sp + .ofNat i) = s.u.mem.transaddr (f.sp + .ofNat i) ∧
        mem.byte (s.u.mem.paddr f.sp + i) = s.u.mem.byte (s.u.mem.paddr f.sp + i)
  | .sigReturn => ∃ f ∈ s.active.head?, s.u.ctx.sp = f.sp
  | _ => True

/-- Two frames, in physical memory. -/
def Apart (m : UserMem) (f : Active) (sp : UInt64) (hasInfo : Bool) : Prop :=
  m.paddr f.sp + frameSize f.hasInfo ≤ m.paddr sp ∨ m.paddr sp + frameSize hasInfo ≤ m.paddr f.sp

instance (m : UserMem) (f : Active) (sp : UInt64) (hasInfo : Bool) :
    Decidable (Apart m f sp hasInfo) := inferInstanceAs (Decidable (_ ∨ _))

def Op.Uniform (s : Nest) : Op → Prop
  | .sigHandler _ => ∀ signum ∈ pickSignal s.u.sig,
      let sa := getSigAct s.u.sigacts (signum - 1)
      let sp := frameStart s.u.sig s.u.ctx sa - .ofNat (frameSize sa.hasInfo)
      disposition signum sa = .user → s.u.mem.Linear sp (frameSize sa.hasInfo) ∧
        ∀ f ∈ s.active, f.hasInfo = sa.hasInfo ∧ Apart s.u.mem f sp sa.hasInfo
  | _ => True

instance (s : Nest) : DecidablePred (Op.Proper s) := by
  intro op
  unfold Op.Proper
  split <;> infer_instance

instance (s : Nest) : DecidablePred (Op.Uniform s) := by
  intro op
  unfold Op.Uniform
  split <;> infer_instance

end Nest

/-! ## Frames that stay -/

theorem Frame.congr {m m' : UserMem} {sp : UInt64} {hasInfo : Bool} {uctx : UCtx}
    (h : Frame m sp hasInfo uctx)
    (hsame : ∀ i < frameSize hasInfo, m'.transaddr (sp + .ofNat i) = m.transaddr (sp + .ofNat i) ∧
      m'.byte (m.paddr sp + i) = m.byte (m.paddr sp + i)) : Frame m' sp hasInfo uctx := by
  obtain ⟨info, hlen, htable, hbyte⟩ := h
  have hsize : (Words.bytes (sp + .ofNat (968 + infoSize hasInfo)) ++
      (Words.allBytes uctx.toWords ++ info)).length ≤ frameSize hasInfo := by
    simp only [List.length_append, Words.length_bytes, Words.length_allBytes, UCtx.length_toWords,
      UCtx.numWords, hlen, frameSize]
    omega
  have hp : m'.paddr sp = m.paddr sp := by
    have h0 := (hsame 0 (by unfold frameSize; omega)).1
    rw [show UInt64.ofNat 0 = 0 from rfl, UInt64.add_zero] at h0
    unfold UserMem.paddr
    rw [h0]
  refine ⟨info, hlen, fun i hi => ?_, fun i hi => ?_⟩
  · rw [hp, (hsame i (by omega)).1, htable i hi]
  · rw [hp, (hsame i (by omega)).2, hbyte i hi]

namespace Nest

def Active.Saved (m : UserMem) (f : Active) : Prop :=
  ∃ uctx : UCtx, uctx.gpr = f.ctx.gpr ∧ uctx.pc = f.ctx.pc ∧ uctx.sigmask = f.sigmask ∧
    Frame m f.sp f.hasInfo uctx

/-- The frames of all active deliveries are in memory. -/
structure Inv (s : Nest) : Prop where
  saved : ∀ f ∈ s.active, Active.Saved s.u.mem f
  uniform : ∀ f ∈ s.active, f.hasInfo = s.u.sig.hasInfo

variable {func : UInt64} {s s' : Nest}

theorem sigSend_hasInfo (t : SigTask) (sig : Nat) (info : Option SigInfo) :
    (sigSend t sig info).hasInfo = t.hasInfo := by
  unfold sigSend
  split <;> rfl

theorem sigProcMask_hasInfo (t : SigTask) (how : Int) (nset : Option UInt64) (sigsetsize : Nat) :
    (sigProcMask t how nset sigsetsize).hasInfo = t.hasInfo := by
  unfold sigProcMask
  split
  · rfl
  split
  · rfl
  split
  · rfl
  · split
    · rfl
    · split <;> rfl

theorem sigReturn_keeps {u u' : UserTask} (h : sigReturn u = .ok u') :
    u'.mem = u.mem ∧ u'.sig.hasInfo = u.sig.hasInfo := by
  obtain ⟨uctx, -, h⟩ := bind_eq_ok h
  cases h
  exact ⟨rfl, rfl⟩

/-- A delivery leaves the frames that are apart from its own alone. -/
theorem Active.Saved.entered {sa : SigAct} {signum : Nat} {u u' : UserTask} {f : Active}
    (h : Entered func sa signum u u') (hf : Active.Saved u.mem f)
    (hapart : Apart u.mem f u'.ctx.sp sa.hasInfo) : Active.Saved u'.mem f := by
  obtain ⟨uctx, hgpr, hpc, hmask, hframe⟩ := hf
  obtain ⟨bs, hlen, hst⟩ := h.stored
  refine ⟨uctx, hgpr, hpc, hmask, hframe.congr fun i hi => ⟨?_, hst.other _ ?_⟩⟩
  · unfold UserMem.transaddr
    rw [hst.vmar]
  · unfold Apart at hapart
    omega

theorem Inv.step (h : Inv s) {op : Op} (hproper : op.Proper s) (huniform : op.Uniform s)
    (hstep : step func s op = .ok s') : Inv s' := by
  cases op with
  | run ctx mem =>
    cases hstep
    refine ⟨fun f hf => ?_, h.uniform⟩
    obtain ⟨uctx, hgpr, hpc, hmask, hframe⟩ := h.saved f hf
    exact ⟨uctx, hgpr, hpc, hmask, hframe.congr (hproper f hf)⟩
  | sigSend sig info =>
    cases hstep
    exact ⟨h.saved, fun f hf => (h.uniform f hf).trans (sigSend_hasInfo ..).symm⟩
  | sigAction sig nact =>
    cases hstep
    exact ⟨h.saved, h.uniform⟩
  | sigProcMask how nset sigsetsize =>
    cases hstep
    exact ⟨h.saved, fun f hf => (h.uniform f hf).trans (sigProcMask_hasInfo ..).symm⟩
  | sigHandler junk =>
    obtain ⟨⟨d, u⟩, hhandler, hstep⟩ := bind_eq_ok hstep
    dsimp only at hstep
    rcases sigHandler_cases hhandler with ⟨hd, p, rfl⟩ |
      ⟨signum, u1, hpick, rfl, huser, henter, hmem, hctx, hsig⟩
    · rw [if_neg hd] at hstep
      cases hstep
      exact ⟨h.saved, h.uniform⟩
    cases hstep
    obtain ⟨hlin, hactive⟩ := huniform signum hpick huser
    obtain ⟨u2, hok, hentered⟩ := enterHandler_ok func junk
      (u := { s.u with sig := { s.u.sig with
        sigpending := s.u.sig.sigpending &&& ~~~bit (signum - 1) } }) signum hlin
    rw [henter] at hok
    cases hok
    have hinfo : u.sig.hasInfo = (getSigAct s.u.sigacts (signum - 1)).hasInfo := by
      rw [hsig, hentered.sig]
      rfl
    refine ⟨fun f hf => ?_, fun f hf => ?_⟩
    · rw [hmem]
      rcases List.mem_cons.1 hf with rfl | hf
      · rw [hinfo, hctx]
        exact hentered.frame
      · refine Active.Saved.entered hentered (h.saved f hf) ?_
        rw [hentered.sp]
        exact (hactive f hf).2
    · rcases List.mem_cons.1 hf with rfl | hf
      · rfl
      · exact (hactive f hf).1.trans hinfo.symm
  | sigReturn =>
    obtain ⟨u, hreturn, hstep⟩ := bind_eq_ok hstep
    cases hstep
    obtain ⟨hmem, hinfo⟩ := sigReturn_keeps hreturn
    refine ⟨fun f hf => ?_, fun f hf => ?_⟩
    · rw [hmem]
      exact h.saved f (List.mem_of_mem_tail hf)
    · rw [hinfo]
      exact h.uniform f (List.mem_of_mem_tail hf)

/-- **Nested handlers that agree on `SA_SIGINFO`** and whose frames are apart and each in one piece
unwind: the return of the innermost handler brings back what its own delivery saved. -/
theorem unwinds_of_uniform (func : UInt64) {s : Nest}
    (h : Reach (step func) (fun s op => op.Proper s ∧ op.Uniform s) (fun s => s.active = []) s)
    {f : Active} {fs : List Active} (hact : s.active = f :: fs) (hsp : s.u.ctx.sp = f.sp) :
    ∃ u', Signal.sigReturn s.u = .ok u' ∧ u'.ctx = f.ctx ∧ u'.sig.sigmask = f.sigmask := by
  have hinv : Inv s := by
    refine h.invariant Inv ?_ ?_
    · intro s hs
      refine ⟨?_, ?_⟩ <;> rw [hs] <;> exact fun f hf => absurd hf List.not_mem_nil
    · exact fun s s' op hs hok hstep => hs.step hok.1 hok.2 hstep
  have hf : f ∈ s.active := by
    rw [hact]
    exact List.mem_cons_self
  obtain ⟨uctx, hgpr, hpc, hmask, hframe⟩ := hinv.saved f hf
  rw [← hsp, hinv.uniform f hf] at hframe
  refine ⟨_, sigReturn_ok hframe, ?_, hmask⟩
  rw [hgpr, hpc]

def start (sa sa' : SigAct) : Nest :=
  let u := interrupted 0 sa
  ⟨{ u with sigacts := Function.update u.sigacts 11 (some sa') }, []⟩

def nested : List Op := [.sigHandler noJunk, .sigSend 12 none, .sigHandler noJunk]

theorem unwinds_nested : ∃ s f fs, runWhile (step 0)
    (fun s op => op.Proper s ∧ op.Uniform s) nested (start infoAct infoAct) = some s ∧
      s.active = f :: fs ∧
        ∃ u', Signal.sigReturn s.u = .ok u' ∧ u'.ctx = f.ctx ∧ u'.sig.sigmask = f.sigmask := by
  obtain ⟨s, hs, hreach, hhead⟩ := exists_reach (step 0) (fun s op => op.Proper s ∧ op.Uniform s)
    nested (I := (·.active = [])) (s := start infoAct infoAct) rfl
    (fun s => s.active.head?.map (·.sp == s.u.ctx.sp) = some true) (by decide +kernel)
  obtain ⟨f, hf, hsp⟩ := Option.map_eq_some_iff.1 hhead
  obtain ⟨fs, hact⟩ := List.head?_eq_some_iff.1 hf
  exact ⟨s, f, fs, hs, hact, unwinds_of_uniform 0 hreach hact (eq_of_beq hsp).symm⟩

def plainAct : SigAct := ⟨0x2000, 0, 0x3000, 0⟩

/-- After a handler with `SA_SIGINFO` has interrupted one without and returned, the return of the
outer one skips a `SigInfo` that is not there. -/
theorem not_unwinds : ¬∀ (func : UInt64) (s : Nest) (f : Active) (fs : List Active),
    Reach (step func) (fun s op => op.Proper s) (fun s => s.active = []) s →
      s.active = f :: fs → s.u.ctx.sp = f.sp →
        ∃ u', Signal.sigReturn s.u = .ok u' ∧ u'.ctx = f.ctx ∧ u'.sig.sigmask = f.sigmask := by
  intro h
  obtain ⟨s, -, hreach, hhead⟩ := exists_reach (step 0) (fun s op => op.Proper s)
    (nested ++ [.sigReturn]) (I := (·.active = [])) (s := start plainAct infoAct) rfl
    (fun s => s.active.head?.map (fun f => f.sp == s.u.ctx.sp && f.ctx.pc == 0x1000 &&
      (Signal.sigReturn s.u).toOption.any (·.ctx.pc == 0)) = some true) (by decide +kernel)
  obtain ⟨f, hf, hobs⟩ := Option.map_eq_some_iff.1 hhead
  obtain ⟨fs, hact⟩ := List.head?_eq_some_iff.1 hf
  simp only [Bool.and_eq_true, beq_iff_eq] at hobs
  obtain ⟨⟨hsp, hpc⟩, hzero⟩ := hobs
  obtain ⟨u', hreturn, hctx, -⟩ := h 0 s f fs hreach hact hsp.symm
  rw [hreturn] at hzero
  have hpc' : u'.ctx.pc = 0 := eq_of_beq hzero
  rw [hctx, hpc] at hpc'
  exact absurd hpc' (by decide)

end Nest

end LuoOS.Signal
