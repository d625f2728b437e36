import LuoOS.Ipc.Signal
import Mathlib.Data.List.GetD

/-!
# The signal frame

`enterHandler_ok` says what a delivery leaves in memory, `readFrame_ok` that `sigReturn` reads it
back if it looks for a `SigInfo` exactly when there is one. So a handler that returns at once leaves
all as it was (`transparent_iff`), except that the system call path stores its result, zero, to
`a0`, and that the address of the vDSO's trampoline has lost its base.
-/

namespace LuoOS.Signal

open Vm Words

/-! ## The saved context -/

theorem getD_append_ofFn {α : Type} {n : Nat} (l r : List α) (f : Fin n → α) (i : Fin n) (d : α) :
    (l ++ List.ofFn f ++ r).getD (l.length + i) d = f i := by
  rw [List.append_assoc, List.getD_append_right _ _ _ _ (Nat.le_add_right _ _),
    Nat.add_sub_cancel_left, List.getD_append _ _ _ _ (by simp), List.getD_eq_getElem?_getD,
    List.getElem?_ofFn, dif_pos i.2]
  rfl

namespace UCtx

@[simp] theorem length_toWords (u : UCtx) : u.toWords.length = numWords := by
  simp [toWords, numWords]

theorem ofWords_toWords (u : UCtx) : ofWords u.toWords = u := by
  obtain ⟨flags, link, stack, sigmask, unused, pc, gpr, fpregs⟩ := u
  have hunused : ∀ i : Fin 16, (toWords ⟨flags, link, stack, sigmask, unused, pc, gpr, fpregs⟩).getD
      (6 + i) 0 = unused i := by
    intro i
    unfold toWords
    rw [List.append_assoc, List.append_assoc]
    exact getD_append_ofFn _ _ unused i 0
  have hgpr : ∀ i : Fin 31, (toWords ⟨flags, link, stack, sigmask, unused, pc, gpr, fpregs⟩).getD
      (23 + i) 0 = gpr i := by
    intro i
    unfold toWords
    rw [← getD_append_ofFn ([flags, link, stack.sp, stack.flags, stack.size, sigmask] ++
      List.ofFn unused ++ [pc]) (List.ofFn fpregs) gpr i 0]
    simp
  have hfp : ∀ i : Fin 66, (toWords ⟨flags, link, stack, sigmask, unused, pc, gpr, fpregs⟩).getD
      (54 + i) 0 = fpregs i := by
    intro i
    unfold toWords
    rw [← getD_append_ofFn ([flags, link, stack.sp, stack.flags, stack.size, sigmask] ++
      List.ofFn unused ++ [pc] ++ List.ofFn gpr) [] fpregs i 0]
    simp
  unfold ofWords
  simp only [hunused, hgpr, hfp]
  rfl

end UCtx

/-! ## What a delivery leaves in memory -/

def infoSize (hasInfo : Bool) : Nat := if hasInfo then 128 else 0

def Frame (m : UserMem) (sp : UInt64) (hasInfo : Bool) (uctx : UCtx) : Prop :=
  ∃ info : List UInt8, info.length = infoSize hasInfo ∧
    m.Reads sp (bytes (sp + .ofNat (968 + infoSize hasInfo)) ++ (allBytes uctx.toWords ++ info))

variable {a func : UInt64} {hasInfo : Bool} {junk : Junk} {m m' : UserMem} {sa : SigAct}
  {u u' : UserTask} {uctx : UCtx}

variable {info : List UInt8}

theorem skipInfo_ok (hlen : info.length = infoSize hasInfo) (h : m.Reads a info) :
    skipInfo ⟨a + .ofNat (infoSize hasInfo), true⟩ m hasInfo = .ok ⟨a, true⟩ := by
  cases hasInfo with
  | false =>
    change Except.ok (Writer.mk (a + 0) true) = _
    rw [UInt64.add_zero]
  | true =>
    have hget := h.get (by rw [hlen]; decide)
    rw [hlen] at hget
    change (Writer.get _ m (infoSize true) >>= _) = _
    rw [hget]
    rfl

/-- `sigReturn` finds the saved context if it knows whether there is a `SigInfo`. -/
theorem readFrame_ok (h : Frame u.mem u.ctx.sp u.sig.hasInfo uctx) : readFrame u = .ok uctx := by
  obtain ⟨info, hinfo, hreads⟩ := h
  have hwords : (allBytes uctx.toWords).length = 960 := by simp [UCtx.numWords]
  -- the address word
  have hsp := hreads.left.getUp (by simp)
  rw [length_bytes] at hsp
  -- the saved context above it
  have hrest := hreads.slice
  rw [length_bytes] at hrest
  have huctx := hrest.left.get (by rw [hwords]; decide)
  rw [hwords, UserMem.add_ofNat] at huctx
  -- the `SigInfo` above that
  have hinfo' := hrest.slice
  rw [hwords, UserMem.add_ofNat] at hinfo'
  have hskip := skipInfo_ok hinfo hinfo'
  rw [UserMem.add_ofNat] at hskip
  have hws := words_allBytes uctx.toWords
  rw [UCtx.length_toWords] at hws
  unfold readFrame
  rw [hsp, ok_bind]
  dsimp only
  rw [word_bytes, hskip, ok_bind]
  change (Writer.get _ u.mem 960 >>= _) = _
  rw [huctx, ok_bind]
  rw [hws, UCtx.ofWords_toWords]

def frameSize (hasInfo : Bool) : Nat := 976 + infoSize hasInfo

theorem putInfo_ok {m0 : UserMem} {cs : List UInt8} {n j p : Nat} {pm : PageMapping}
    (hp : UserMem.Placed m0.vmar m0.second pm a n p) (hj : j ≤ n) (hasInfo : Bool) (info : SigInfo)
    (h : UserMem.Stored m0 m (p + j) cs) (hle : infoSize hasInfo ≤ j) : ∃ bs m', bs.length = infoSize hasInfo ∧
      putInfo ⟨a + .ofNat j, true⟩ m hasInfo info =
        .ok (⟨a + .ofNat (j - infoSize hasInfo), true⟩, m') ∧
          UserMem.Stored m0 m' (p + (j - infoSize hasInfo)) (bs ++ cs) := by
  cases hasInfo with
  | false => exact ⟨[], m, rfl, rfl, h⟩
  | true =>
    have hofFn : (List.ofFn info).length = infoSize true := List.length_ofFn
    obtain ⟨m', hput, hstored⟩ := h.put hp hj (List.ofFn info) (hofFn ▸ (by decide))
      (hofFn ▸ hle)
    exact ⟨List.ofFn info, m', hofFn, hput, hstored⟩

theorem sp_handlerCtx (func : UInt64) (ctx : Context) (sa : SigAct) (signum : Nat)
    (sp pinfo puctx : UInt64) : (handlerCtx func ctx sa signum sp pinfo puctx).sp = sp := by
  unfold handlerCtx
  cases sa.hasInfo <;> rfl

theorem ra_handlerCtx (func : UInt64) (ctx : Context) (sa : SigAct) (signum : Nat)
    (sp pinfo puctx : UInt64) : (handlerCtx func ctx sa signum sp pinfo puctx).ra =
      if sa.restorer ≠ 0 then sa.restorer else vDSOfuncAddr func := by
  unfold handlerCtx
  cases sa.hasInfo <;> rfl

/-- The task after a delivery, with the frame in its memory. -/
structure Entered (func : UInt64) (sa : SigAct) (signum : Nat) (u u' : UserTask) : Prop where
  sp : u'.ctx.sp = frameStart u.sig u.ctx sa - .ofNat (frameSize sa.hasInfo)
  ra : u'.ctx.ra = if sa.restorer ≠ 0 then sa.restorer else vDSOfuncAddr func
  sig : u'.sig = u.sig.enter sa signum
  frame : ∃ uctx : UCtx, uctx.gpr = u.ctx.gpr ∧ uctx.pc = u.ctx.pc ∧
    uctx.sigmask = u.sig.sigmask ∧ Frame u'.mem u'.ctx.sp sa.hasInfo uctx
  stored : ∃ bs : List UInt8, bs.length = frameSize sa.hasInfo ∧
    UserMem.Stored u.mem u'.mem (u.mem.paddr u'.ctx.sp) bs

/-- A delivery whose frame has a place in one piece builds it there. -/
theorem enterHandler_ok (func : UInt64) (junk : Junk) (signum : Nat)
    (hlin : u.mem.Linear (frameStart u.sig u.ctx sa - .ofNat (frameSize sa.hasInfo))
      (frameSize sa.hasInfo)) :
    ∃ u', enterHandler func junk u sa signum = .ok u' ∧ Entered func sa signum u u' := by
  generalize hsp : frameStart u.sig u.ctx sa - .ofNat (frameSize sa.hasInfo) = sp at hlin
  have hstart : frameStart u.sig u.ctx sa = sp + .ofNat (976 + infoSize sa.hasInfo) := by
    rw [← hsp]
    exact (UInt64.sub_add_cancel _ _).symm
  obtain ⟨pm, p, hp⟩ := hlin.placed
  unfold frameSize at hp
  unfold enterHandler
  rw [hstart]
  generalize hinfo : infoSize sa.hasInfo = n at hp
  -- the parts of the frame, as offsets from its lower end
  have hz : (bytes 0).length = 8 := length_bytes 0
  obtain ⟨m1, hput1, h1⟩ := (UserMem.Stored.refl u.mem _).put hp le_rfl (bytes 0) (by simp)
    (by omega)
  rw [hz, show 976 + n - 8 = 968 + n by omega] at hput1 h1
  rw [hput1, ok_bind]
  dsimp only
  obtain ⟨bs, m2, hbs, hput2, h2⟩ := putInfo_ok hp (by omega) sa.hasInfo
    ((u.sig.siginfos (signum - 1)).getD (defaultInfo signum junk)) h1 (by omega)
  rw [hinfo, Nat.add_sub_cancel] at hput2 h2
  rw [hput2, ok_bind]
  generalize huctx : savedCtx u.sig u.ctx sa (sp + UInt64.ofNat (968 + n)) junk = uctx
  have hw : (allBytes uctx.toWords).length = 960 := by simp [UCtx.numWords]
  obtain ⟨m3, hput3, h3⟩ := h2.put hp (by omega) (allBytes uctx.toWords) (by omega) (by omega)
  rw [hw, show 968 - 960 = 8 from rfl] at hput3 h3
  rw [hput3, ok_bind]
  have hs : (bytes (sp + UInt64.ofNat (968 + n))).length = 8 := length_bytes _
  obtain ⟨m4, hput4, h4⟩ := h3.put hp (by omega) (bytes (sp + UInt64.ofNat (968 + n))) (by omega)
    (by omega)
  rw [hs, Nat.sub_self, Nat.add_zero] at h4
  rw [hs, Nat.sub_self, show UInt64.ofNat 0 = 0 from rfl, UInt64.add_zero] at hput4
  rw [hput4, ok_bind]
  have hlen : (bytes (sp + UInt64.ofNat (968 + n)) ++
      (allBytes uctx.toWords ++ (bs ++ (bytes 0 ++ [])))).length = 976 + n := by
    simp only [List.length_append, hw, hbs, hinfo, hz, hs, List.length_nil]
    omega
  have hpaddr := hp.paddr (by omega)
  rw [← hlen] at hp
  have hreads := hp.reads h4
  refine ⟨_, rfl, (sp_handlerCtx ..).trans hsp.symm, ra_handlerCtx .., rfl,
    ⟨uctx, ?_, ?_, ?_, bs, hbs, ?_⟩, _, hlen.trans (hinfo ▸ rfl), ?_⟩
  · rw [← huctx]
    rfl
  · rw [← huctx]
    rfl
  · rw [← huctx]
    rfl
  · rw [sp_handlerCtx, hinfo]
    simp only [← List.append_assoc] at hreads ⊢
    exact hreads.left.left
  · rw [sp_handlerCtx, hpaddr]
    exact h4

theorem enterHandler_sig {signum : Nat} (h : enterHandler func junk u sa signum = .ok u') :
    u'.sig = u.sig.enter sa signum := by
  obtain ⟨_, -, h⟩ := bind_eq_ok h
  obtain ⟨_, -, h⟩ := bind_eq_ok h
  obtain ⟨_, -, h⟩ := bind_eq_ok h
  obtain ⟨_, -, h⟩ := bind_eq_ok h
  cases h
  rfl

variable {d : Option Disposition}

/-- **The cases of `sigHandler`**: only `sigpending` changes, or a user handler is entered. -/
theorem sigHandler_cases (h : sigHandler func junk u = .ok (d, u')) :
    (d ≠ some .user ∧ ∃ p, u' = { u with sig := { u.sig with sigpending := p } }) ∨
      ∃ signum u1, pickSignal u.sig = some signum ∧ d = some .user ∧
        disposition signum (getSigAct u.sigacts (signum - 1)) = .user ∧
        enterHandler func junk
          { u with sig := { u.sig with sigpending := u.sig.sigpending &&& ~~~bit (signum - 1) } }
          (getSigAct u.sigacts (signum - 1)) signum = .ok u1 ∧
            u'.mem = u1.mem ∧ u'.ctx = u1.ctx ∧ u'.sig = u1.sig := by
  unfold sigHandler at h
  cases hpick : pickSignal u.sig with
  | none =>
    rw [hpick] at h
    cases h
    exact .inl ⟨by simp, u.sig.sigpending, rfl⟩
  | some signum =>
    rw [hpick] at h
    dsimp only at h
    split at h
    · rename_i huser
      obtain ⟨u1, henter, h⟩ := bind_eq_ok h
      cases h
      exact .inr ⟨signum, u1, rfl, rfl, huser, henter, rfl, rfl, rfl⟩
    · rename_i hne
      cases h
      exact .inl ⟨fun h => hne (Option.some.inj h), _, rfl⟩

theorem sigHandler_disposition (h : sigHandler func junk u = .ok (d, u')) :
    d = (pickSignal u.sig).map fun signum =>
      disposition signum (getSigAct u.sigacts (signum - 1)) := by
  unfold sigHandler at h
  cases hpick : pickSignal u.sig with
  | none =>
    rw [hpick] at h
    exact (Prod.mk.inj (Except.ok.inj h)).1.symm
  | some signum =>
    rw [hpick] at h
    dsimp only at h
    split at h
    · rename_i huser
      obtain ⟨u1, -, h⟩ := bind_eq_ok h
      rw [Option.map_some, huser]
      exact (Prod.mk.inj (Except.ok.inj h)).1.symm
    · exact (Prod.mk.inj (Except.ok.inj h)).1.symm

theorem sigReturn_ok (h : Frame u.mem u.ctx.sp u.sig.hasInfo uctx) : sigReturn u =
      .ok { u with sig := { u.sig with sigmask := uctx.sigmask }, ctx := ⟨uctx.gpr, uctx.pc⟩ } := by
  unfold sigReturn
  rw [readFrame_ok h, ok_bind]

/-! ## A handler that returns at once -/

section Transparent

variable {func : UInt64} {junk : Junk} {other : Nat → Option Syscall} {u : UserTask} {signum : Nat}
  {sa : SigAct}

theorem dispatch_sigreturn {u' : UserTask} (h : sigReturn u = .ok u') :
    dispatch other scSigreturn u = .ok { u' with ctx := u'.ctx.set 9 0 } := by
  unfold dispatch
  rw [if_pos (by decide), if_neg (by decide), Int.toNat_natCast, syscallPtrs, if_pos rfl]
  dsimp only
  rw [h]
  rfl

theorem uecallHandler_sigreturn {uctx : UCtx} (h7 : u.ctx.a7 = .ofNat scSigreturn)
    (h : Frame u.mem u.ctx.sp u.sig.hasInfo uctx) : uecallHandler other u =
      .ok { u with sig := { u.sig with sigmask := uctx.sigmask }
                   ctx := Context.set ⟨uctx.gpr, uctx.pc⟩ 9 0 } := by
  have hid : (UInt64.ofNat scSigreturn).toNat = scSigreturn :=
    UInt64.toNat_ofNat_of_lt' (show 139 < 2 ^ 64 by decide)
  unfold uecallHandler
  rw [h7, hid, toInt_of_lt (by decide)]
  exact dispatch_sigreturn (sigReturn_ok (u := { u with ctx := { u.ctx with pc := u.ctx.pc + 4 } }) h)

def trampoline (func : UInt64) (sa : SigAct) : UInt64 :=
  if sa.restorer ≠ 0 then sa.restorer else vDSOBase + (func &&& vaddrOffsetMask)

/-- A delivery enters a handler that returns to the trampoline, and the system call made there brings
back the registers, `pc` and the mask. -/
def Transparent (func : UInt64) (junk : Junk) (other : Nat → Option Syscall) (u : UserTask)
    (sa : SigAct) : Prop :=
  ∃ u1, sigHandler func junk u = .ok (some .user, u1) ∧ u1.ctx.ra = trampoline func sa ∧
    ∀ ctx : Context, ctx.sp = u1.ctx.sp → ctx.a7 = .ofNat scSigreturn →
      ∃ u2, uecallHandler other { u1 with ctx := ctx } = .ok u2 ∧ u2.ctx.gpr = u.ctx.gpr ∧
        u2.ctx.pc = u.ctx.pc ∧ u2.sig.sigmask = u.sig.sigmask

/-- The trampoline's address is never what `vDSOfuncAddr` computes. -/
theorem vDSOfuncAddr_ne (func : UInt64) :
    vDSOfuncAddr func ≠ vDSOBase + (func &&& vaddrOffsetMask) := by
  intro h
  have hlow : ((vDSOBase + func) &&& vaddrOffsetMask).toNat ≤ 0xfff := by
    exact Nat.and_le_right
  have hoff : (func &&& vaddrOffsetMask).toNat ≤ 0xfff := by
    exact Nat.and_le_right
  have hsum : (vDSOBase + (func &&& vaddrOffsetMask)).toNat =
      0x9000000 + (func &&& vaddrOffsetMask).toNat := by
    rw [UInt64.toNat_add]
    exact Nat.mod_eq_of_lt (by change 0x9000000 + _ < _; omega)
  have heq := congrArg UInt64.toNat h
  unfold vDSOfuncAddr at heq
  omega

/-- What comes back from a delivery of `signum` to its handler `sa`. -/
theorem sigHandler_return (func : UInt64) (junk : Junk) (other : Nat → Option Syscall)
    (hpick : pickSignal u.sig = some signum) (hsa : getSigAct u.sigacts (signum - 1) = sa)
    (huser : disposition signum sa = .user)
    (hlin : u.mem.Linear (frameStart u.sig u.ctx sa - .ofNat (frameSize sa.hasInfo))
      (frameSize sa.hasInfo)) : ∃ u1, sigHandler func junk u = .ok (some .user, u1) ∧
      u1.ctx.ra = (if sa.restorer ≠ 0 then sa.restorer else vDSOfuncAddr func) ∧
        ∀ ctx : Context, ctx.sp = u1.ctx.sp → ctx.a7 = .ofNat scSigreturn →
          ∃ u2, uecallHandler other { u1 with ctx := ctx } = .ok u2 ∧
            u2.ctx = u.ctx.set 9 0 ∧ u2.sig.sigmask = u.sig.sigmask := by
  obtain ⟨u1, henter, h⟩ := enterHandler_ok func junk
    (u := { u with sig := { u.sig with sigpending := u.sig.sigpending &&& ~~~bit (signum - 1) } })
    signum hlin
  obtain ⟨uctx, hgpr, hpc, hmask, hframe⟩ := h.frame
  let acts := if (sa.flags &&& SA_RESETHAND) ≠ 0 then Function.update u1.sigacts (signum - 1) none
    else u1.sigacts
  refine ⟨{ u1 with sigacts := acts }, ?_, h.ra, fun ctx hsp h7 => ?_⟩
  · unfold sigHandler
    rw [hpick]
    dsimp only
    rw [hsa, huser]
    rw [henter, ok_bind]
  · have hframe' : Frame u1.mem ctx.sp u1.sig.hasInfo uctx := by
      rw [hsp, h.sig]
      exact hframe
    refine ⟨_, uecallHandler_sigreturn h7 hframe', ?_, hmask⟩
    rw [hgpr, hpc]

section

variable (hpick : pickSignal u.sig = some signum) (hsa : getSigAct u.sigacts (signum - 1) = sa)
  (huser : disposition signum sa = .user)
  (hlin : u.mem.Linear (frameStart u.sig u.ctx sa - .ofNat (frameSize sa.hasInfo))
    (frameSize sa.hasInfo))
include hpick hsa huser hlin

theorem Transparent.restorer_ne (h : Transparent func junk other u sa) : sa.restorer ≠ 0 := by
  obtain ⟨u1, hdeliver, hra, -⟩ := sigHandler_return func junk other hpick hsa huser hlin
  obtain ⟨u1', hdeliver', hra', -⟩ := h
  rw [hdeliver] at hdeliver'
  cases hdeliver'
  intro hnull
  rw [hra, trampoline, if_neg (not_not.2 hnull), if_neg (not_not.2 hnull)] at hra'
  exact vDSOfuncAddr_ne func hra'

theorem Transparent.a0_eq (h : Transparent func junk other u sa) : u.ctx.a0 = 0 := by
  obtain ⟨u1, hdeliver, -, hreturn⟩ := sigHandler_return func junk other hpick hsa huser hlin
  obtain ⟨u1', hdeliver', -, hreturn'⟩ := h
  rw [hdeliver] at hdeliver'
  cases hdeliver'
  obtain ⟨u2, hcall, hgpr, -⟩ := hreturn' (u1.ctx.set 16 (.ofNat scSigreturn)) rfl rfl
  obtain ⟨u2', hcall', hctx, -⟩ := hreturn (u1.ctx.set 16 (.ofNat scSigreturn)) rfl rfl
  rw [hcall] at hcall'
  cases hcall'
  rw [hctx] at hgpr
  exact (congrFun hgpr 9).symm

end

/-- **A delivery is transparent exactly when** the action names a restorer and `a0` was zero. -/
theorem transparent_iff (func : UInt64) (junk : Junk) (other : Nat → Option Syscall)
    (hpick : pickSignal u.sig = some signum) (hsa : getSigAct u.sigacts (signum - 1) = sa)
    (huser : disposition signum sa = .user)
    (hlin : u.mem.Linear (frameStart u.sig u.ctx sa - .ofNat (frameSize sa.hasInfo))
      (frameSize sa.hasInfo)) :
    Transparent func junk other u sa ↔ sa.restorer ≠ 0 ∧ u.ctx.a0 = 0 := by
  refine ⟨fun h => ⟨h.restorer_ne hpick hsa huser hlin, h.a0_eq hpick hsa huser hlin⟩, ?_⟩
  rintro ⟨hrestorer, ha0⟩
  obtain ⟨u₁, hdeliver, hra, hreturn⟩ := sigHandler_return func junk other hpick hsa huser hlin
  refine ⟨u₁, hdeliver, ?_, fun ctx hsp h7 => ?_⟩
  · rw [hra, trampoline, if_pos hrestorer, if_pos hrestorer]
  · obtain ⟨u₂, hcall, hctx, hmask⟩ := hreturn ctx hsp h7
    have hset : u.ctx.set 9 0 = u.ctx := by
      rw [← ha0]
      exact congrArg (Context.mk · u.ctx.pc) (Function.update_eq_self 9 u.ctx.gpr)
    rw [hset] at hctx
    exact ⟨u₂, hcall, congrArg Context.gpr hctx, congrArg Context.pc hctx, hmask⟩

def noJunk : Junk := ⟨fun _ => 0, fun _ => 0, fun _ => 0⟩

theorem stack_fits : 0x500 + 4 ≤ 2 ^ 44 := by decide

/-- Four pages of stack in four frames that lie one behind the other. -/
def stack : PageMapping :=
  { vpn := 0x7ffc, len := 4, offset := 0, vmo := .contiguous 0x500 4 stack_fits
    perm := { v := true, r := true, w := true, u := true } }

def stackMem : UserMem where
  vmar := (VMAR.empty.map stack).toOption.getD .empty
  second := 0x1000
  byte _ := 0

def interrupted (a0 : UInt64) (sa : SigAct) : UserTask where
  sig := { SigTask.new with sigpending := bit 9 }
  ctx := ⟨fun r => if r = 9 then a0 else if r = 1 then 0x7fff200 else 5, 0x1000⟩
  mem := stackMem
  sigacts i := if i = 9 then some sa else none

def infoAct : SigAct := ⟨0x2000, SA_SIGINFO, 0x3000, 0⟩

theorem transparent_zero :
    Transparent 0x80200123 noJunk (fun _ => none) (interrupted 0 infoAct) infoAct := by
  have hpick : pickSignal (interrupted 0 infoAct).sig = some 10 := by decide +kernel
  exact (transparent_iff 0x80200123 noJunk (fun _ => none) hpick rfl (by decide)
    (by decide +kernel)).2 ⟨by decide, rfl⟩

/-- With another value in `a0` than zero the handler's return loses it. -/
theorem not_transparent : ¬∀ (func : UInt64) (junk : Junk) (other : Nat → Option Syscall)
    (u : UserTask) (signum : Nat) (sa : SigAct), pickSignal u.sig = some signum →
      getSigAct u.sigacts (signum - 1) = sa → disposition signum sa = .user →
        u.mem.Linear (frameStart u.sig u.ctx sa - .ofNat (frameSize sa.hasInfo))
          (frameSize sa.hasInfo) → Transparent func junk other u sa := by
  intro h
  have hpick : pickSignal (interrupted 1 infoAct).sig = some 10 := by decide +kernel
  have htransp := h 0x80200123 noJunk (fun _ => none) (interrupted 1 infoAct) 10 infoAct hpick rfl
    (by decide) (by decide +kernel)
  exact absurd (htransp.a0_eq hpick rfl (by decide) (by decide +kernel)) (by decide)

end Transparent

end LuoOS.Signal
