import Mathlib.Data.List.Basic
import Mathlib.Logic.Function.Basic

/-!
# Ring buffers with free-running counters

The cell of counter `i` in a ring of `c` cells is `i % c`. Transfers move a chunk that does not
cross the end of the cells, as a `memmove` does. Nothing here fixes the type of the elements or
where the counters wrap.
-/

namespace Ring

open Function

variable {α : Type}

def contents (c : Nat) (buf : Nat → α) (i n : Nat) : List α :=
  (List.range n).map fun j => buf ((i + j) % c)

def cells (buf : Nat → α) (k n : Nat) : List α := (List.range n).map fun j => buf (k + j)

def put (buf : Nat → α) (k n : Nat) (src : Nat → α) (i : Nat) : α :=
  if k ≤ i ∧ i < k + n then src (i - k) else buf i

variable {buf : Nat → α}

theorem contents_congr {c i i' n : Nat} (h : i % c = i' % c) :
    contents c buf i n = contents c buf i' n := by
  refine List.map_congr_left fun j _ => ?_
  rw [Nat.add_mod, h, ← Nat.add_mod]

theorem contents_add (c : Nat) (buf : Nat → α) (i n m : Nat) :
    contents c buf i (n + m) = contents c buf i n ++ contents c buf (i + n) m := by
  simp only [contents, List.range_add, List.map_append, List.map_map]
  congr 1
  refine List.map_congr_left fun j _ => ?_
  simp only [comp_apply, Nat.add_assoc]

/-- A chunk that does not cross the end of the cells is a run of cells. -/
theorem contents_eq_cells {c i n : Nat} (buf : Nat → α) (h : i % c + n ≤ c) :
    contents c buf i n = cells buf (i % c) n := by
  refine List.map_congr_left fun j hj => ?_
  have hjn : j < n := List.mem_range.1 hj
  have hlt : i % c + j < c := by omega
  rw [Nat.add_mod, Nat.mod_eq_of_lt (a := j) (by omega), Nat.mod_eq_of_lt hlt]

/-- **Moving a chunk in appends it.** `n` elements are in the ring from counter `i` on, and the
chunk fits behind them. -/
theorem contents_put {c i k n m : Nat} {src : Nat → α} (hroom : n + m ≤ c)
    (hk : k = (i + n) % c) (hend : k + m ≤ c) : contents c (put buf k m src) i (n + m) =
      contents c buf i n ++ (List.range m).map src := by
  rw [contents_add]
  congr 1
  · -- the cells already in use are not among those written
    refine List.map_congr_left fun j hj => ?_
    have hjn : j < n := List.mem_range.1 hj
    refine if_neg ?_
    rintro ⟨h1, h2⟩
    obtain ⟨d, hd⟩ := Nat.exists_eq_add_of_le h1
    have hmod : (i + n + d) % c = (i + j) % c := by
      rw [hd, hk, Nat.add_mod (i + n), Nat.mod_eq_of_lt (a := d) (by omega),
        Nat.mod_eq_of_lt (by omega)]
    have hdvd : c ∣ i + n + d - (i + j) := Nat.dvd_of_mod_eq_zero (Nat.sub_mod_eq_zero_of_mod_eq hmod)
    have hle := Nat.le_of_dvd (by omega) hdvd
    omega
  · rw [contents_eq_cells _ (hk ▸ hend), ← hk]
    refine List.map_congr_left fun j hj => ?_
    have hjm : j < m := List.mem_range.1 hj
    simp only [put, Nat.le_add_right, Nat.add_lt_add_iff_left, hjm, and_self, if_true,
      Nat.add_sub_cancel_left]

theorem contents_update {c i n : Nat} {e : α} (hroom : n < c) :
    contents c (update buf ((i + n) % c) e) i (n + 1) = contents c buf i n ++ [e] := by
  have hput : update buf ((i + n) % c) e = put buf ((i + n) % c) 1 fun _ => e := by
    funext j
    unfold put
    rcases eq_or_ne j ((i + n) % c) with rfl | hne
    · rw [update_self, if_pos ⟨Nat.le_refl _, Nat.lt_succ_self _⟩]
    · rw [update_of_ne hne, if_neg (by omega)]
  rw [hput, contents_put hroom rfl (Nat.mod_lt _ (Nat.zero_lt_of_lt hroom))]
  rfl

end Ring
