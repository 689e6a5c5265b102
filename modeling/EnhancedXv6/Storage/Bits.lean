import EnhancedXv6.Storage.Block
import Mathlib.Logic.Function.Basic

/-!
# The bits of a block

Bit `i` of a block is bit `i % 8` of its byte `i / 8`, tested, set and cleared with a mask.
-/

namespace EnhancedXv6.Storage

namespace Block

def mask (i : ℕ) : UInt8 := 1 <<< UInt8.ofNat (i % 8)

def bit (data : Block) (i : ℕ) : Bool := data (i / 8) &&& mask i != 0

def setBit (data : Block) (i : ℕ) : Block :=
  Function.update data (i / 8) (data (i / 8) ||| mask i)

def clearBit (data : Block) (i : ℕ) : Block :=
  Function.update data (i / 8) (data (i / 8) &&& ~~~mask i)

theorem getLsbD_mask (i : ℕ) {k : ℕ} (hk : k < 8) :
    (mask i).toBitVec.getLsbD k = decide (k = i % 8) := by
  have hmask : ∀ j < 8, ∀ k < 8,
      (1 <<< UInt8.ofNat j : UInt8).toBitVec.getLsbD k = decide (k = j) := by decide
  exact hmask (i % 8) (Nat.mod_lt i (by decide)) k hk

theorem bit_eq_getLsbD (data : Block) (i : ℕ) :
    data.bit i = (data (i / 8)).toBitVec.getLsbD (i % 8) := by
  have hi : i % 8 < 8 := Nat.mod_lt i (by decide)
  have hand : ∀ k < 8, (data (i / 8) &&& mask i).toBitVec.getLsbD k =
      ((data (i / 8)).toBitVec.getLsbD (i % 8) && decide (k = i % 8)) := by
    intro k hk
    rw [UInt8.toBitVec_and, BitVec.getLsbD_and, getLsbD_mask i hk]
    by_cases hki : k = i % 8
    · rw [hki]
    · simp [hki]
  cases hbit : (data (i / 8)).toBitVec.getLsbD (i % 8) with
  | true =>
    have hset := hand (i % 8) hi
    rw [bit, bne_iff_ne]
    intro hzero
    rw [hzero, hbit] at hset
    simp at hset
  | false =>
    have hzero : data (i / 8) &&& mask i = 0 := by
      apply UInt8.toBitVec_inj.mp
      apply BitVec.eq_of_getLsbD_eq
      intro k hk
      rw [hand k hk, hbit]
      simp
    simp [bit, hzero]

@[simp] theorem bit_setBit (data : Block) (i j : ℕ) :
    (data.setBit i).bit j = (decide (j = i) || data.bit j) := by
  have hj : j % 8 < 8 := Nat.mod_lt j (by decide)
  rw [bit_eq_getLsbD, bit_eq_getLsbD, setBit]
  by_cases hbyte : j / 8 = i / 8
  · rw [hbyte, Function.update_self, UInt8.toBitVec_or, BitVec.getLsbD_or, getLsbD_mask i hj,
      Bool.or_comm]
    congr 2
    apply propext
    omega
  · have hne : j ≠ i := fun h ↦ hbyte (h ▸ rfl)
    rw [Function.update_of_ne hbyte]
    simp [hne]

@[simp] theorem bit_clearBit (data : Block) (i j : ℕ) :
    (data.clearBit i).bit j = (!decide (j = i) && data.bit j) := by
  have hj : j % 8 < 8 := Nat.mod_lt j (by decide)
  rw [bit_eq_getLsbD, bit_eq_getLsbD, clearBit]
  by_cases hbyte : j / 8 = i / 8
  · rw [hbyte, Function.update_self, UInt8.toBitVec_and, UInt8.toBitVec_not, BitVec.getLsbD_and,
      BitVec.getLsbD_not, getLsbD_mask i hj, Bool.and_comm]
    have hiff : j % 8 = i % 8 ↔ j = i := by omega
    simp [hj, hiff]
  · have hne : j ≠ i := fun h ↦ hbyte (h ▸ rfl)
    rw [Function.update_of_ne hbyte]
    simp [hne]

/-- Setting a bit again that was cleared gives the block back. -/
theorem setBit_clearBit {data : Block} {i : ℕ} (h : data.bit i = true) :
    (data.clearBit i).setBit i = data := by
  rw [setBit, clearBit, Function.update_self, Function.update_idem]
  apply Function.update_eq_self_iff.mpr
  apply UInt8.toBitVec_inj.mp
  apply BitVec.eq_of_getLsbD_eq
  intro k hk
  rw [UInt8.toBitVec_or, UInt8.toBitVec_and, UInt8.toBitVec_not, BitVec.getLsbD_or,
    BitVec.getLsbD_and, BitVec.getLsbD_not, getLsbD_mask i hk]
  by_cases hki : k = i % 8
  · rw [hki, ← bit_eq_getLsbD, h]
    simp
  · simp [hki, hk]

end Block

end EnhancedXv6.Storage
