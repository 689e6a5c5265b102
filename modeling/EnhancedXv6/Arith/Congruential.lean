import Mathlib.Algebra.Field.GeomSum
import Mathlib.Algebra.Ring.Periodic
import Mathlib.NumberTheory.Multiplicity
import Mathlib.Order.Interval.Finset.Nat
import Mathlib.Data.Int.ConditionallyCompleteOrder
import Mathlib.Data.Int.Interval
import Mathlib.Tactic.LinearCombination

/-!
# Linear congruential sequences modulo a power of two

The sequence `x, f x, f (f x), …` of an affine map `f x = a * x + c` with `a ≡ 1 (mod 4)` and `c`
odd runs through all residues modulo `2 ^ m` before it repeats.  The distance of two members is an
odd multiple of a geometric sum, and a geometric sum of `n` terms is divisible by the same powers
of two as `n`.  Seen through their upper bits, the members of any `2 ^ m` consecutive places take
every value equally often, and no shorter period is left.
-/

namespace EnhancedXv6.Arith

open Finset Function

def congruential (a c x : ℤ) : ℤ :=
  a * x + c

/-- The distance that `n` steps from a place with distance one cover. -/
def geomSum (a : ℤ) (n : ℕ) : ℤ :=
  ∑ i ∈ range n, a ^ i

def residue (a c x : ℤ) (m n : ℕ) : ℤ :=
  (congruential a c)^[n] x % 2 ^ m

variable {a c : ℤ}

theorem geomSum_succ (a : ℤ) (n : ℕ) : geomSum a (n + 1) = geomSum a n + a ^ n :=
  sum_range_succ _ n

theorem congruential_iterate (a c x : ℤ) (n : ℕ) :
    (congruential a c)^[n] x = x + ((a - 1) * x + c) * geomSum a n := by
  induction n with
  | zero => simp [geomSum]
  | succ n ih =>
    have hgeom : geomSum a n * (a - 1) = a ^ n - 1 := geom_sum_mul a n
    rw [iterate_succ_apply', ih, congruential, geomSum_succ]
    linear_combination ((a - 1) * x + c) * hgeom

/-- The sum of `n` powers is divisible by the powers of two that divide `n`. -/
theorem two_pow_dvd_geomSum_iff (ha : 4 ∣ a - 1) (m n : ℕ) :
    (2 ^ m : ℤ) ∣ geomSum a n ↔ 2 ^ m ∣ n := by
  have hcast : (2 ^ m : ℤ) ∣ n ↔ 2 ^ m ∣ n := by
    rw [← Int.natCast_dvd_natCast]
    norm_cast
  by_cases hone : a = 1
  · simp [geomSum, hone, hcast]
  have hodd : ¬ (2 : ℤ) ∣ a := by omega
  have hval := Int.two_pow_sub_pow' n ha hodd
  have hgeom : geomSum a n * (a - 1) = a ^ n - 1 ^ n := by
    rw [one_pow]
    exact geom_sum_mul a n
  rw [← hgeom, emultiplicity_mul Int.prime_two, add_comm] at hval
  have hfinite : emultiplicity 2 (a - 1) ≠ ⊤ := by
    rw [← finiteMultiplicity_iff_emultiplicity_ne_top, Int.finiteMultiplicity_iff]
    omega
  have hsame : emultiplicity 2 (geomSum a n) = emultiplicity (2 : ℤ) n :=
    WithTop.add_left_cancel hfinite hval
  rw [← hcast, pow_dvd_iff_le_emultiplicity, pow_dvd_iff_le_emultiplicity, hsame]

section FullPeriod

variable (ha : 4 ∣ a - 1) (hc : Odd c)
include ha hc

/-- After `n` steps a member returns exactly when `2 ^ m` divides `n`. -/
theorem two_pow_dvd_iterate_sub_iff (x : ℤ) (m n : ℕ) :
    (2 ^ m : ℤ) ∣ (congruential a c)^[n] x - x ↔ 2 ^ m ∣ n := by
  have hodd : ¬ (2 : ℤ) ∣ (a - 1) * x + c := by
    have heven : (2 : ℤ) ∣ (a - 1) * x := ((by decide : (2 : ℤ) ∣ 4).trans ha).mul_right x
    have hc' : ¬ (2 : ℤ) ∣ c := by rwa [← even_iff_two_dvd, Int.not_even_iff_odd]
    rwa [Int.dvd_add_right heven]
  have hgap : (congruential a c)^[n] x - x = ((a - 1) * x + c) * geomSum a n := by
    rw [congruential_iterate]
    ring
  rw [hgap, ← two_pow_dvd_geomSum_iff ha m n]
  constructor
  · exact Int.prime_two.pow_dvd_of_dvd_mul_left m hodd
  · exact fun hdvd ↦ hdvd.mul_left _

theorem residue_add_eq_iff (x : ℤ) (m k n : ℕ) :
    residue a c x m (k + n) = residue a c x m k ↔ 2 ^ m ∣ n := by
  rw [← two_pow_dvd_iterate_sub_iff ha hc ((congruential a c)^[k] x) m n, ← iterate_add_apply,
    Nat.add_comm n k]
  exact Int.modEq_iff_dvd.trans (dvd_sub_comm)

/-- The members of `2 ^ m` consecutive places are different residues. -/
theorem injOn_residue (x : ℤ) (m start : ℕ) :
    Set.InjOn (residue a c x m) (Ico start (start + 2 ^ m) : Finset ℕ) := by
  have hle : ∀ i ∈ Ico start (start + 2 ^ m), ∀ j ∈ Ico start (start + 2 ^ m), i ≤ j →
      residue a c x m j = residue a c x m i → i = j := by
    intro i hi j hj hij hsame
    obtain ⟨d, rfl⟩ := Nat.exists_eq_add_of_le hij
    have hdvd := (residue_add_eq_iff ha hc x m i d).mp hsame
    rw [mem_Ico] at hi hj
    have hzero := Nat.eq_zero_of_dvd_of_lt hdvd (by omega)
    omega
  intro i hi j hj hsame
  rcases Nat.le_total i j with hij | hij
  · exact hle i hi j hj hij hsame.symm
  · exact (hle j hj i hi hij hsame).symm

/-- The members of `2 ^ m` consecutive places are all residues. -/
theorem image_residue (x : ℤ) (m start : ℕ) :
    (Ico start (start + 2 ^ m)).image (residue a c x m) = Ico (0 : ℤ) (2 ^ m) := by
  have hpos : (0 : ℤ) < 2 ^ m := by positivity
  apply eq_of_subset_of_card_le
  · intro y hy
    obtain ⟨n, -, rfl⟩ := mem_image.mp hy
    exact mem_Ico.mpr ⟨Int.emod_nonneg _ hpos.ne', Int.emod_lt_of_pos _ hpos⟩
  · rw [card_image_of_injOn (injOn_residue ha hc x m start), Int.card_Ico, Nat.card_Ico]
    simp

/-- The upper bits of the members of `2 ^ (j + k)` consecutive places take each value `2 ^ j`
times. -/
theorem card_upper (x : ℤ) (j k start : ℕ) {v : ℤ} (hv : 0 ≤ v) (hlt : v < 2 ^ k) :
    {n ∈ Ico start (start + 2 ^ (j + k)) | residue a c x (j + k) n / 2 ^ j = v}.card = 2 ^ j := by
  have hpos : (0 : ℤ) < 2 ^ j := by positivity
  have hinj : Set.InjOn (residue a c x (j + k))
      ({n ∈ Ico start (start + 2 ^ (j + k)) | residue a c x (j + k) n / 2 ^ j = v} : Finset ℕ) :=
    (injOn_residue ha hc x (j + k) start).mono (coe_subset.mpr (filter_subset _ _))
  have htop : v * 2 ^ j + 2 ^ j ≤ 2 ^ (j + k) := by
    calc
      _ = 2 ^ j * (v + 1) := by ring
      _ ≤ 2 ^ j * 2 ^ k := mul_le_mul_of_nonneg_left (by omega) hpos.le
      _ = 2 ^ (j + k) := (pow_add 2 j k).symm
  have hbottom : 0 ≤ v * 2 ^ j := mul_nonneg hv hpos.le
  have himage : {n ∈ Ico start (start + 2 ^ (j + k)) |
      residue a c x (j + k) n / 2 ^ j = v}.image (residue a c x (j + k)) =
        Ico (v * 2 ^ j) (v * 2 ^ j + 2 ^ j) := by
    have hfilter := filter_image (f := residue a c x (j + k)) (p := fun y ↦ y / 2 ^ j = v)
      (s := Ico start (start + 2 ^ (j + k)))
    rw [← hfilter, image_residue ha hc]
    ext y
    rw [mem_filter, mem_Ico, mem_Ico, Int.ediv_eq_iff_of_pos hpos]
    constructor
    · rintro ⟨-, h⟩
      exact h
    · intro h
      exact ⟨⟨hbottom.trans h.1, h.2.trans_le htop⟩, h⟩
  calc
    _ = (Ico (v * 2 ^ j) (v * 2 ^ j + 2 ^ j)).card := by rw [← himage, card_image_of_injOn hinj]
    _ = ((2 : ℤ) ^ j).toNat := by rw [Int.card_Ico, add_sub_cancel_left]
    _ = 2 ^ j := by norm_cast

/-- Nothing but a multiple of `2 ^ (j + k)` is a period of the upper bits.  Some multiple of any
other period leaves the lower `j` bits alone as well, and does not bring the member back. -/
theorem periodic_upper_iff (x : ℤ) (j k period : ℕ) (hk : k ≠ 0) :
    Periodic (fun n ↦ residue a c x (j + k) n / 2 ^ j) period ↔ 2 ^ (j + k) ∣ period := by
  constructor
  · intro hperiod
    by_contra hndvd
    have hne : period ≠ 0 := fun hzero ↦ hndvd (hzero ▸ dvd_zero _)
    obtain ⟨e, o, hodd, rfl⟩ := Nat.exists_eq_two_pow_mul_odd hne
    have he : e < j + k := by
      by_contra hle
      exact hndvd ((pow_dvd_pow 2 (not_lt.mp hle)).mul_right o)
    set long := 2 ^ (j + k - 1 - e) * (2 ^ e * o) with hlong
    have hlong' : long = 2 ^ (j + k - 1) * o := by
      rw [hlong, ← mul_assoc, ← pow_add]
      congr 2
      omega
    have hupper := hperiod.nat_mul (2 ^ (j + k - 1 - e)) 0
    rw [Nat.cast_id, ← hlong] at hupper
    have hlower : residue a c x (j + k) (0 + long) % 2 ^ j = residue a c x (j + k) 0 % 2 ^ j := by
      have hdvd : (2 : ℤ) ^ j ∣ 2 ^ (j + k) := pow_dvd_pow 2 (Nat.le_add_right j k)
      rw [residue, residue, Int.emod_emod_of_dvd _ hdvd, Int.emod_emod_of_dvd _ hdvd]
      refine (residue_add_eq_iff ha hc x j 0 long).mpr (hlong' ▸ ?_)
      exact (pow_dvd_pow 2 (by omega)).mul_right o
    have hsame : residue a c x (j + k) (0 + long) = residue a c x (j + k) 0 := by
      rw [← Int.mul_ediv_add_emod (residue a c x (j + k) (0 + long)) (2 ^ j), hlower, hupper,
        Int.mul_ediv_add_emod]
    have hdvd := (residue_add_eq_iff ha hc x (j + k) 0 long).mp hsame
    have hsucc : j + k = j + k - 1 + 1 := by omega
    rw [hlong', hsucc, pow_succ, Nat.add_sub_cancel,
      Nat.mul_dvd_mul_iff_left (by positivity)] at hdvd
    exact Nat.not_even_iff_odd.mpr hodd (even_iff_two_dvd.mpr hdvd)
  · intro hdvd n
    dsimp only
    rw [(residue_add_eq_iff ha hc x (j + k) n period).mpr hdvd]

end FullPeriod

end EnhancedXv6.Arith
