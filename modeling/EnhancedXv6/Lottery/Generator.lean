import EnhancedXv6.Arith.Congruential
import EnhancedXv6.Lottery.Scheduler

/-!
# The generator of the lottery

`rand()` steps a 64-bit congruential generator and returns its bits 16 to 30.  The state modulo
`2 ^ 31` is a congruential sequence of its own, with a full period, and the value returned is its
upper 15 bits.
-/

namespace EnhancedXv6.Lottery

open Arith

def generator (next : UInt64) (n : ℕ) : UInt64 :=
  (fun next ↦ (rand next).2)^[n] next

def returned (next : UInt64) (n : ℕ) : Int32 :=
  (rand (generator next n)).1

variable (next : UInt64)

theorem toInt32_mod (u : UInt32) : (u % 32768).toInt32.toInt = (u.toNat % 32768 : ℕ) := by
  have hmod : (u % 32768).toBitVec.toNat = u.toNat % 32768 := UInt32.toNat_mod u 32768
  change (u % 32768).toBitVec.toInt = _
  rw [BitVec.toInt_eq_toNat_of_lt (by omega), hmod]

/-- `rand()` returns the bits 16 to 30 of the new state. -/
theorem rand_toInt : (rand next).1.toInt = ((rand next).2.toNat : ℤ) % 2 ^ 31 / 2 ^ 16 := by
  have hvalue : (rand next).1.toInt = ((rand next).2.toNat / 65536 % 2 ^ 32 % 32768 : ℕ) := by
    rw [rand, toInt32_mod, UInt64.toNat_toUInt32, UInt64.toNat_div]
    rfl
  rw [hvalue]
  push_cast
  omega

theorem rand_next : ((rand next).2.toNat : ℤ) = (1103515245 * next.toNat + 12345) % 2 ^ 64 := by
  rw [rand, UInt64.toNat_add, UInt64.toNat_mul]
  push_cast
  change ((next.toNat : ℤ) * 1103515245 % 2 ^ 64 + 12345) % 2 ^ 64 = _
  omega

/-- The state modulo `2 ^ 31` is a congruential sequence. -/
theorem generator_residue (n : ℕ) :
    ((generator next n).toNat : ℤ) % 2 ^ 31 = residue 1103515245 12345 next.toNat 31 n := by
  induction n with
  | zero => rfl
  | succ n ih =>
    have hstep := rand_next (generator next n)
    rw [residue] at ih
    rw [generator, Function.iterate_succ_apply', ← generator, hstep, residue,
      Function.iterate_succ_apply', congruential]
    omega

/-- The values returned are the upper bits of the sequence that starts with the next state. -/
theorem returned_toInt (n : ℕ) : (returned next n).toInt =
    residue 1103515245 12345 (rand next).2.toNat 31 n / 2 ^ 16 := by
  have hstate : (rand (generator next n)).2 = generator (rand next).2 n :=
    (Function.iterate_succ_apply' (fun next ↦ (rand next).2) n next).symm.trans
      (Function.iterate_succ_apply _ n next)
  rw [returned, rand_toInt, hstate, generator_residue]

theorem card_returned (start : ℕ) (v : Fin 32768) :
    {n ∈ Finset.Ico start (start + 2 ^ 31) | (returned next n).toInt = v}.card = 65536 := by
  simp only [returned_toInt]
  exact card_upper (by decide) (by decide) _ 16 15 start (Int.natCast_nonneg v)
    (by exact_mod_cast v.isLt)

theorem periodic_returned_iff (period : ℕ) :
    Function.Periodic (returned next) period ↔ 2 ^ 31 ∣ period := by
  rw [← periodic_upper_iff (a := 1103515245) (c := 12345) (by decide) (by decide)
    (rand next).2.toNat 16 15 period (by decide)]
  apply forall_congr'
  intro n
  rw [← Int32.toInt_inj, returned_toInt, returned_toInt]

/-- From every state, any `2 ^ 31` consecutive calls return each of the values 0 to 32767 equally
often, and the sequence repeats after `2 ^ 31` calls and not before. -/
theorem rand_equidistributed (next : UInt64) :
    (∀ (start : ℕ) (v : Fin 32768),
      {n ∈ Finset.Ico start (start + 2 ^ 31) | (returned next n).toInt = v}.card = 65536) ∧
    ∀ period, Function.Periodic (returned next) period ↔ 2 ^ 31 ∣ period :=
  ⟨card_returned next, periodic_returned_iff next⟩

end EnhancedXv6.Lottery
