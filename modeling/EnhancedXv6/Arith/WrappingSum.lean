import Mathlib.Algebra.BigOperators.Fin
import Mathlib.Algebra.Order.BigOperators.Group.List

/-!
# Sums of 32-bit integers

A loop that adds up 32-bit integers computes their sum modulo `2 ^ 32`.  For nonnegative summands
the loop is exact after every iteration if and only if the integer sum is below `2 ^ 31`.
-/

namespace EnhancedXv6.Arith

def wrappingSum (xs : List Int32) : Int32 :=
  xs.foldl (· + ·) 0

def exactSum (xs : List Int32) : ℤ :=
  (xs.map Int32.toInt).sum

def NoOverflow (xs : List Int32) : Prop :=
  ∀ n, (wrappingSum (xs.take n)).toInt = exactSum (xs.take n)

variable {xs : List Int32}

theorem toInt_add_of_lt {a b : Int32} (ha : 0 ≤ a.toInt) (hb : 0 ≤ b.toInt)
    (hlt : a.toInt + b.toInt < 2 ^ 31) : (a + b).toInt = a.toInt + b.toInt := by
  rw [Int32.toInt_add]
  exact Int.bmod_eq_of_le (by omega) (by omega)

theorem exactSum_nonneg (hxs : ∀ x ∈ xs, 0 ≤ x.toInt) : 0 ≤ exactSum xs :=
  List.sum_nonneg (by simpa using hxs)

theorem toInt_foldl_add (a : Int32) (ha : 0 ≤ a.toInt) (hxs : ∀ x ∈ xs, 0 ≤ x.toInt)
    (hlt : a.toInt + exactSum xs < 2 ^ 31) :
    (xs.foldl (· + ·) a).toInt = a.toInt + exactSum xs := by
  induction xs generalizing a with
  | nil => simp [exactSum]
  | cons x rest ih =>
    have hx : 0 ≤ x.toInt := hxs x (by simp)
    have hrest : ∀ y ∈ rest, 0 ≤ y.toInt := fun y hy ↦ hxs y (by simp [hy])
    have hcons : exactSum (x :: rest) = x.toInt + exactSum rest := by simp [exactSum]
    have hpos := exactSum_nonneg hrest
    have hadd : (a + x).toInt = a.toInt + x.toInt := toInt_add_of_lt ha hx (by omega)
    rw [List.foldl_cons, ih (a + x) (by omega) hrest (by omega), hadd, hcons]
    omega

theorem toInt_wrappingSum (hxs : ∀ x ∈ xs, 0 ≤ x.toInt) (hlt : exactSum xs < 2 ^ 31) :
    (wrappingSum xs).toInt = exactSum xs := by
  simpa [wrappingSum] using toInt_foldl_add 0 (by decide) hxs (by simpa using hlt)

theorem exactSum_take_le (hxs : ∀ x ∈ xs, 0 ≤ x.toInt) (n : ℕ) :
    exactSum (xs.take n) ≤ exactSum xs := by
  have hsplit : exactSum (xs.take n) + exactSum (xs.drop n) = exactSum xs := by
    rw [exactSum, exactSum, ← List.sum_append, ← List.map_append, List.take_append_drop, exactSum]
  have hdrop : 0 ≤ exactSum (xs.drop n) :=
    exactSum_nonneg fun x hx ↦ hxs x (List.mem_of_mem_drop hx)
  omega

theorem noOverflow_iff (hxs : ∀ x ∈ xs, 0 ≤ x.toInt) :
    NoOverflow xs ↔ exactSum xs < 2 ^ 31 := by
  constructor
  · intro h
    have hall := h xs.length
    rw [List.take_length] at hall
    rw [← hall]
    exact Int32.toInt_lt _
  · intro hlt n
    have hle := exactSum_take_le hxs n
    exact toInt_wrappingSum (fun x hx ↦ hxs x (List.mem_of_mem_take hx)) (by omega)

end EnhancedXv6.Arith
