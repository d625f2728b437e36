import LuoOS.Fs.Content
import LuoOS.Vm.Process

/-!
# `sendFile`

Bytes go from one open file to another through a page, with the input moved to the caller's offset.
The offset put back afterwards is that of the *output*, none is put back after a write that fails,
and the page of the round that meets the end of the input is not freed. `sendFile_iff` says when
none of this matters.
-/

namespace LuoOS.Fs.Send

open LuoOS.Vm (pageSize)

/-! ## Open files -/

/-- A regular file and the offset of one descriptor of it. -/
structure Open where
  bytes : List UInt8
  off : Nat
deriving DecidableEq

namespace Open

/-- `lSeek(off, SEEK_SET)`; at the file's own offset it is `lSeek(0, SEEK_CUR)`. -/
def lSeek (f : Open) (off : Nat) : Int × Open :=
  if off ≤ f.bytes.length then (off, { f with off := off }) else (-22, f)

def read (f : Open) (len : Nat) : List UInt8 × Open :=
  let bs := (f.bytes.drop f.off).take len
  (bs, { f with off := f.off + bs.length })

/-- `File::write`, with what `nodWrite` does to the contents at an offset: `none` if it stores and
counts all bytes, otherwise the contents that it leaves or its fault. -/
def write (nodWrite : List UInt8 → Nat → List UInt8 → Option (Kern (List UInt8))) (f : Open)
    (bs : List UInt8) : Kern (Int × Open) :=
  match nodWrite f.bytes f.off bs with
  | none => .ok (bs.length, ⟨splice f.bytes f.off bs, f.off + bs.length⟩)
  | some fails => do .ok (-1, ⟨← fails, f.off⟩)

theorem lSeek_of_le {f : Open} {off : Nat} (h : off ≤ f.bytes.length) :
    f.lSeek off = ((off : Int), ⟨f.bytes, off⟩) :=
  if_pos h

end Open

/-! ## The loop -/

/-- What a call leaves: its result, `*a_offset`, the pages it keeps, and the two files. -/
structure Sent where
  nsend : Int
  offset : Int
  pages : Nat
  input : Open
  output : Open
deriving DecidableEq

section Model

variable (nodWrite : List UInt8 → Nat → List UInt8 → Option (Kern (List UInt8)))

/-- The loop, and whether it was left by a `return`. -/
def sendLoop : Nat → Nat → Sent → Kern (Bool × Sent)
  | 0, _, s => .ok (false, s)
  | fuel + 1, len, s =>
    if len = 0 then .ok (false, s)
    else
      let (bs, input) := s.input.read (min len pageSize)
      -- the page of this round stays allocated
      if bs.length = 0 then .ok (false, { s with pages := s.pages + 1, input })
      else do
        let (ret, output) ← s.output.write nodWrite bs
        if ret < 0 then .ok (true, { s with nsend := ret, input, output })
        else
          let s := { s with nsend := s.nsend + ret, input, output }
          if ret ≠ bs.length then .ok (false, s) else sendLoop fuel (len - bs.length) s

def sendFile (input output : Open) (offset len : Nat) : Kern Sent :=
  let in_off := (output.lSeek output.off).1
  if in_off < 0 then .ok ⟨in_off, offset, 0, input, output⟩
  else do
    let (returned, s) ← sendLoop nodWrite len len ⟨0, offset, 0, (input.lSeek offset).2, output⟩
    if returned then .ok s
    else .ok { s with
      offset := (s.input.lSeek s.input.off).1
      input := (s.input.lSeek in_off.toNat).2 }

/-- What a caller with an offset expects. -/
def Sends (input output : Open) (offset len : Nat) : Prop :=
  let bs := (input.bytes.drop offset).take len
  sendFile nodWrite input output offset len = .ok ⟨bs.length, (offset + bs.length : Nat), 0, input,
    ⟨splice output.bytes output.off bs, output.off + bs.length⟩⟩

/-- Every write of a page, or of what is left at the end, succeeds. -/
inductive Takes : (f : List UInt8) → (off : Nat) → (bs : List UInt8) → Prop
  | nil (f : List UInt8) (off : Nat) : Takes f off []
  | page {f bs : List UInt8} {off : Nat} (h : nodWrite f off (bs.take pageSize) = none)
    (rest : Takes (splice f off (bs.take pageSize)) (off + (bs.take pageSize).length)
      (bs.drop pageSize)) : Takes f off bs

end Model

theorem splice_nil (f : List UInt8) (off : Nat) : splice f off [] = f := by
  simp [splice]

theorem splice_append {f : List UInt8} {off : Nat} (h : off ≤ f.length) (a b : List UInt8) :
    splice (splice f off a) (off + a.length) b = splice f off (a ++ b) := by
  have hlen : (f.take off ++ a).length = off + a.length := by simp [h]
  unfold splice
  rw [List.take_left' hlen, ← List.append_assoc, ← hlen, List.drop_length_add_append, hlen,
    List.drop_drop, List.length_append, ← Nat.add_assoc]

variable {nodWrite : List UInt8 → Nat → List UInt8 → Option (Kern (List UInt8))}

theorem takes_iff {f bs : List UInt8} {off : Nat} (hne : bs ≠ []) : Takes nodWrite f off bs ↔
    nodWrite f off (bs.take pageSize) = none ∧ Takes nodWrite (splice f off (bs.take pageSize))
      (off + (bs.take pageSize).length) (bs.drop pageSize) := by
  refine ⟨fun h => ?_, fun h => .page h.1 h.2⟩
  cases h with
  | nil => exact absurd rfl hne
  | page h rest => exact ⟨h, rest⟩

/-- The rounds of the loop add up to one read and one write. A write that fails ends the call. -/
theorem sendLoop_eq (fuel : Nat) : ∀ (len : Nat) (s : Sent), len ≤ fuel →
    s.input.off ≤ s.input.bytes.length → s.output.off ≤ s.output.bytes.length →
    ∀ bs, bs = (s.input.bytes.drop s.input.off).take len →
    (Takes nodWrite s.output.bytes s.output.off bs → sendLoop nodWrite fuel len s = .ok (false,
      ⟨s.nsend + bs.length, s.offset, s.pages + if bs.length < len then 1 else 0,
        ⟨s.input.bytes, s.input.off + bs.length⟩,
        ⟨splice s.output.bytes s.output.off bs, s.output.off + bs.length⟩⟩)) ∧
    (¬Takes nodWrite s.output.bytes s.output.off bs → ∀ r, sendLoop nodWrite fuel len s = .ok r →
      r.1 = true ∧ r.2.nsend < 0) := by
  induction fuel with
  | zero =>
    rintro len s hlen - - bs rfl
    obtain rfl : len = 0 := by omega
    simp [sendLoop, splice_nil, Takes.nil]
  | succ fuel ih =>
    rintro len s hlen hin hout bs rfl
    rw [sendLoop]
    by_cases h0 : len = 0
    · simp [h0, splice_nil, Takes.nil]
    set l := s.input.bytes.drop s.input.off with hl
    set cs := l.take (min len pageSize) with hcs
    have hcl : cs.length = min (min len 4096) l.length := List.length_take
    have hread : s.input.read (min len pageSize) =
      (cs, ⟨s.input.bytes, s.input.off + cs.length⟩) := rfl
    by_cases hend : cs.length = 0
    · have hnil : l = [] := List.length_eq_zero_iff.1 (by omega)
      simp [h0, hread, hend, hnil, splice_nil, Nat.pos_of_ne_zero h0, Takes.nil]
    have hsplit : l.take len = cs ++ (s.input.bytes.drop (s.input.off + cs.length)).take
        (len - cs.length) := by
      rw [show len = cs.length + (len - cs.length) by omega, List.take_add,
        ← List.prefix_iff_eq_take.1 (List.take_prefix _ l), Nat.add_sub_cancel_left, hl,
        List.drop_drop]
    -- the bytes of this round, and those that are left
    have htake : (l.take len).take pageSize = cs := by
      rw [List.take_take, Nat.min_comm]
    have hdrop := List.take_append_drop pageSize (l.take len)
    rw [htake] at hdrop
    have hdrop := List.append_cancel_left (hdrop.trans hsplit)
    have hne : l.take len ≠ [] := by
      rw [hsplit]
      exact List.append_ne_nil_of_left_ne_nil (List.ne_nil_of_length_pos (by omega)) _
    rw [takes_iff hne, htake, hdrop]
    have hlin : l.length = s.input.bytes.length - s.input.off := List.length_drop
    have hlout := length_splice cs hout
    have hrest := ih (len - cs.length) ⟨s.nsend + cs.length, s.offset, s.pages,
      ⟨s.input.bytes, s.input.off + cs.length⟩,
      ⟨splice s.output.bytes s.output.off cs, s.output.off + cs.length⟩⟩ (by omega)
      (by dsimp only; omega) (by dsimp only; split at hlout <;> omega) _ rfl
    simp only [if_neg h0, hread, if_neg hend, Open.write]
    cases hw : nodWrite s.output.bytes s.output.off cs with
    | some fails =>
      refine ⟨fun h => (nomatch h.1), fun _ r hr => ?_⟩
      cases fails with
      | error f => cases hr
      | ok bytes =>
        cases hr
        exact ⟨rfl, Int.neg_neg_of_pos Int.one_pos⟩
    | none =>
      rw [splice_append hout, ← hsplit] at hrest
      dsimp only [ok_bind]
      rw [if_neg (by omega), if_neg (by simp)]
      refine ⟨fun h => ?_, fun h => hrest.2 fun ht => h ⟨rfl, ht⟩⟩
      rw [hrest.1 h.2, hsplit]
      simp only [List.length_append, Nat.cast_add, ← add_assoc, Nat.lt_sub_iff_add_lt']

section Call

variable {input output : Open} {offset len : Nat}

/-- **When a call does what its caller expects**: the output is not past its end, the input has all
the bytes asked for, the offset put back is the input's, and every write succeeds. -/
theorem sendFile_iff (h : offset ≤ input.bytes.length) :
    Sends nodWrite input output offset len ↔ (output.off ≤ output.bytes.length ∧
      offset + len ≤ input.bytes.length ∧
      input.off = if output.off ≤ input.bytes.length then output.off else offset + len) ∧
      Takes nodWrite output.bytes output.off ((input.bytes.drop offset).take len) := by
  obtain ⟨bytes, off⟩ := input
  change offset ≤ bytes.length at h
  have hlen : ((bytes.drop offset).take len).length = min len (bytes.length - offset) := by
    rw [List.length_take, List.length_drop]
  unfold Sends sendFile
  by_cases hout : output.off ≤ output.bytes.length
  · rw [Open.lSeek_of_le hout, Open.lSeek_of_le h]
    dsimp only
    rw [if_neg (by omega)]
    obtain ⟨hdone, hfail⟩ := @sendLoop_eq nodWrite len len ⟨0, offset, 0, ⟨bytes, offset⟩, output⟩
      le_rfl h hout _ rfl
    by_cases htakes : Takes nodWrite output.bytes output.off ((bytes.drop offset).take len)
    · rw [hdone htakes, ok_bind]
      rw [hlen, if_neg Bool.false_ne_true, Open.lSeek_of_le (by dsimp only; omega)]
      simp only [Open.lSeek, Int.toNat_natCast, Except.ok.injEq, Sent.mk.injEq, zero_add, and_true,
        true_and, hout, htakes]
      by_cases hin : output.off ≤ bytes.length
      · simp only [if_pos hin, Open.mk.injEq, true_and]
        split <;> omega
      · simp only [if_neg hin, Open.mk.injEq, true_and]
        split <;> omega
    · refine iff_of_false (fun hs => ?_) fun hr => htakes hr.2
      obtain ⟨⟨returned, s⟩, hloop, hs⟩ := bind_eq_ok hs
      obtain ⟨rfl, hneg⟩ := hfail htakes _ hloop
      have hsend := congrArg Sent.nsend (Except.ok.inj hs)
      dsimp only at hsend hneg
      omega
  · refine iff_of_false (fun hs => ?_) fun hr => hout hr.1.1
    rw [Open.lSeek, if_neg hout, if_pos (by dsimp only; decide)] at hs
    have := congrArg Sent.nsend (Except.ok.inj hs)
    dsimp only at this
    omega

theorem sendFile_one : Sends (fun _ _ _ => none) ⟨[1, 2], 0⟩ ⟨[], 0⟩ 1 1 :=
  (sendFile_iff (by decide)).2 ⟨by decide, .page rfl (.nil _ _)⟩

/-- Of a file of one byte, at offset 1, two bytes from the start are asked for: the file is left at
the offset of the output, and a page is lost. -/
theorem not_sendFile : ¬ Sends (fun _ _ _ => none) ⟨[7], 1⟩ ⟨[], 0⟩ 0 2 := by
  unfold Sends
  decide

end Call

end LuoOS.Fs.Send
