import Mathlib.Tactic.Ring

/-!
# Little-endian words

A 64-bit word as the eight bytes it is stored as, and a sequence of words as the bytes of all of
them. Reading back what was stored gives the words again.
-/

namespace Words

def leBytes : Nat → Nat → List UInt8
  | 0, _ => []
  | n + 1, x => UInt8.ofNat x :: leBytes n (x / 256)

def ofLe : List UInt8 → Nat
  | [] => 0
  | b :: bs => b.toNat + 256 * ofLe bs

@[simp] theorem length_leBytes (n x : Nat) : (leBytes n x).length = n := by
  induction n generalizing x with
  | zero => rfl
  | succ n ih => simp [leBytes, ih]

theorem ofLe_leBytes (n x : Nat) : ofLe (leBytes n x) = x % 256 ^ n := by
  induction n generalizing x with
  | zero => simp [leBytes, ofLe, Nat.mod_one]
  | succ n ih =>
    have hbyte : (UInt8.ofNat x).toNat = x % 256 := UInt8.toNat_ofNat'
    rw [leBytes, ofLe, ih, hbyte, Nat.pow_succ, Nat.mul_comm (256 ^ n), Nat.mod_mul]

theorem ofLe_lt (bs : List UInt8) : ofLe bs < 256 ^ bs.length := by
  induction bs with
  | nil => exact Nat.one_pos
  | cons b bs ih =>
    have hb : b.toNat < 256 := b.toNat_lt
    rw [ofLe, List.length_cons, Nat.pow_succ]
    omega

def bytes (w : UInt64) : List UInt8 := leBytes 8 w.toNat

def word (bs : List UInt8) : UInt64 := UInt64.ofNat (ofLe (bs.take 8))

@[simp] theorem length_bytes (w : UInt64) : (bytes w).length = 8 := length_leBytes 8 _

theorem word_bytes_append (w : UInt64) (bs : List UInt8) : word (bytes w ++ bs) = w := by
  have htake : (bytes w ++ bs).take 8 = bytes w := by
    rw [List.take_append_of_le_length (by simp), List.take_of_length_le (by simp)]
  have hlt : w.toNat < 256 ^ 8 := Nat.lt_of_lt_of_eq w.toNat_lt (by decide)
  rw [word, htake, bytes, ofLe_leBytes, Nat.mod_eq_of_lt hlt, UInt64.ofNat_toNat]

theorem word_bytes (w : UInt64) : word (bytes w) = w := by
  have h := word_bytes_append w []
  rwa [List.append_nil] at h

def allBytes (ws : List UInt64) : List UInt8 := ws.flatMap bytes

def words : Nat → List UInt8 → List UInt64
  | 0, _ => []
  | n + 1, bs => word bs :: words n (bs.drop 8)

@[simp] theorem length_allBytes (ws : List UInt64) : (allBytes ws).length = 8 * ws.length := by
  induction ws with
  | nil => rfl
  | cons w ws ih =>
    rw [allBytes, List.flatMap_cons, List.length_append, length_bytes, List.length_cons]
    rw [allBytes] at ih
    omega

theorem words_allBytes (ws : List UInt64) : words ws.length (allBytes ws) = ws := by
  induction ws with
  | nil => rfl
  | cons w ws ih =>
    have hdrop : (bytes w ++ allBytes ws).drop 8 = allBytes ws := by
      rw [List.drop_append_of_le_length (by simp), List.drop_of_length_le (by simp),
        List.nil_append]
    change words (ws.length + 1) (bytes w ++ allBytes ws) = _
    rw [words, word_bytes_append, hdrop, ih]

/-! ## Bits -/

theorem or_and_distrib (x y m : UInt64) : (x ||| y) &&& m = (x &&& m) ||| (y &&& m) := by
  apply UInt64.toBitVec_inj.1
  ext i
  simp [Bool.and_or_distrib_right]

end Words
