import Mathlib.Data.Int.ModEq
import Mathlib.Data.List.Range
import Mathlib.Tactic.Common

/-!
# Ring buffers with counters that wrap around

A ring buffer of `N` cells is indexed by counters of `w` bits that are never reduced: counter `c`
stands for cell `c % N`.  As long as `N` divides `2 ^ w`, the cells of up to `N` consecutive counters
are distinct, also where the counters wrap around.  `window` lists the contents of consecutive
counters.
-/

namespace EnhancedXv6.RingBuffer

variable {α : Type} {w N n k : ℕ} {data : ℕ → α} {r : BitVec w}

def cell (N : ℕ) (c : BitVec w) : ℕ := c.toNat % N

/-- The counter `k` places after `r`. -/
def after (r : BitVec w) (k : ℕ) : BitVec w := r + BitVec.ofNat w k

@[simp] theorem after_zero (r : BitVec w) : after r 0 = r := by
  simp [after]

theorem after_succ (r : BitVec w) (k : ℕ) : after r (k + 1) = after r k + 1 := by
  rw [after, after, BitVec.ofNat_add, BitVec.add_assoc]
  rfl

theorem after_add_one (r : BitVec w) (k : ℕ) : after (r + 1) k = after r (k + 1) := by
  rw [after_succ, after, after, BitVec.add_assoc, BitVec.add_assoc, BitVec.add_comm 1]

theorem after_after (r : BitVec w) (i j : ℕ) : after (after r i) j = after r (i + j) := by
  rw [after, after, after, BitVec.ofNat_add, BitVec.add_assoc]

theorem after_succ_sub_one (r : BitVec w) (k : ℕ) : after r (k + 1) - 1 = after r k := by
  rw [after_succ, BitVec.add_sub_cancel]

theorem after_toNat_sub (r c : BitVec w) : after r (c - r).toNat = c := by
  rw [after, BitVec.ofNat_toNat, BitVec.setWidth_eq, BitVec.add_comm, BitVec.sub_add_cancel]

theorem toNat_after_sub (r : BitVec w) (hk : k < 2 ^ w) : (after r k - r).toNat = k := by
  rw [after, BitVec.add_comm, BitVec.add_sub_cancel, BitVec.toNat_ofNat, Nat.mod_eq_of_lt hk]

theorem cell_after (hN : N ∣ 2 ^ w) : cell N (after r k) = (r.toNat + k) % N := by
  rw [cell, after, BitVec.toNat_add, BitVec.toNat_ofNat, Nat.add_mod_mod,
    Nat.mod_mod_of_dvd _ hN]

theorem cell_after_inj (hN : N ∣ 2 ^ w) {i j : ℕ} (hi : i < N) (hj : j < N)
    (h : cell N (after r i) = cell N (after r j)) : i = j := by
  rw [cell_after hN, cell_after hN] at h
  have hmod : i ≡ j [MOD N] := Nat.ModEq.add_left_cancel' r.toNat h
  rwa [Nat.ModEq, Nat.mod_eq_of_lt hi, Nat.mod_eq_of_lt hj] at hmod

def window (N : ℕ) (data : ℕ → α) (r : BitVec w) (n : ℕ) : List α :=
  (List.range n).map fun k ↦ data (cell N (after r k))

@[simp] theorem window_zero : window N data r 0 = [] := rfl

@[simp] theorem length_window : (window N data r n).length = n := by
  simp [window]

/-- The first of the contents. -/
theorem window_succ : window N data r (n + 1) = data (cell N r) :: window N data (r + 1) n := by
  rw [window, List.range_succ_eq_map, List.map_cons, after_zero, List.map_map, window]
  simp only [Function.comp_def, after_add_one, Nat.succ_eq_add_one]

/-- The last of the contents. -/
theorem window_succ_last :
    window N data r (n + 1) = window N data r n ++ [data (cell N (after r n))] := by
  simp [window, List.range_succ]

theorem window_add (i j : ℕ) :
    window N data r (i + j) = window N data r i ++ window N data (after r i) j := by
  induction j with
  | zero => simp
  | succ j ih => rw [← Nat.add_assoc, window_succ_last, ih, window_succ_last, after_after,
      List.append_assoc]

theorem window_update (hN : N ∣ 2 ^ w) (hk : n ≤ k) (hN' : k < N) (x : α) :
    window N (Function.update data (cell N (after r k)) x) r n = window N data r n := by
  refine List.map_congr_left fun i hi ↦ ?_
  have hi := List.mem_range.mp hi
  refine Function.update_of_ne (fun hcell ↦ ?_) _ _
  have := cell_after_inj hN (by omega) hN' hcell
  omega

theorem window_push (hN : N ∣ 2 ^ w) (hn : n < N) (x : α) :
    window N (Function.update data (cell N (after r n)) x) r (n + 1) = window N data r n ++ [x] := by
  rw [window_succ_last, window_update hN le_rfl hn, Function.update_self]

/-! ## The contents between two counters -/

/-- What is written from counter `r` on, before counter `c`. -/
def between (N : ℕ) (data : ℕ → α) (r c : BitVec w) : List α := window N data r (c - r).toNat

@[simp] theorem length_between (r c : BitVec w) :
    (between N data r c).length = (c - r).toNat :=
  length_window

@[simp] theorem between_self (r : BitVec w) : between N data r r = [] := by
  simp [between]

variable {c : BitVec w}

theorem toNat_succ_sub (h : (c - r).toNat + 1 < 2 ^ w) :
    (c + 1 - r).toNat = (c - r).toNat + 1 := by
  have hnext : c + 1 = after r ((c - r).toNat + 1) := by
    rw [after_succ, after_toNat_sub]
  rw [hnext]
  exact toNat_after_sub r h

theorem toNat_sub_succ (h : r ≠ c) : (c - (r + 1)).toNat + 1 = (c - r).toNat := by
  have hpos : (c - r).toNat ≠ 0 := by
    intro hzero
    have hc := after_toNat_sub r c
    rw [hzero, after_zero] at hc
    exact h hc
  have hlt : (c - r).toNat < 2 ^ w := (c - r).isLt
  have hnext : c = after (r + 1) ((c - r).toNat - 1) := by
    rw [after_add_one, Nat.sub_add_cancel (by omega), after_toNat_sub]
  have hsub : (c - (r + 1)).toNat = (c - r).toNat - 1 := by
    conv_lhs => rw [hnext]
    exact toNat_after_sub _ (by omega)
  omega

theorem between_succ (h : (c - r).toNat + 1 < 2 ^ w) :
    between N data r (c + 1) = between N data r c ++ [data (cell N c)] := by
  rw [between, toNat_succ_sub h, window_succ_last, after_toNat_sub]
  rfl

theorem between_update (hN : N ∣ 2 ^ w) (hlength : (c - r).toNat < N) (x : α) :
    between N (Function.update data (cell N c) x) r c = between N data r c := by
  have hcell : cell N c = cell N (after r (c - r).toNat) := by rw [after_toNat_sub]
  rw [between, hcell]
  exact window_update hN le_rfl hlength x

theorem between_push (hN : N ∣ 2 ^ w) (hlt : N < 2 ^ w) (hlength : (c - r).toNat < N) (x : α) :
    between N (Function.update data (cell N c) x) r (c + 1) = between N data r c ++ [x] := by
  rw [between_succ (by omega), between_update hN hlength, Function.update_self]

theorem between_pop (h : r ≠ c) :
    between N data r c = data (cell N r) :: between N data (r + 1) c := by
  rw [between, ← toNat_sub_succ h, window_succ]
  rfl

end EnhancedXv6.RingBuffer
