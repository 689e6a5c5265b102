import Mathlib.Algebra.GroupWithZero.Nat
import Mathlib.Data.List.Range
import Mathlib.Tactic.Common

/-!
# Disk blocks

A block as a function from byte offsets to bytes, and the 32-bit words that `(uint*)bp->data` gives
on a little-endian machine.
-/

namespace EnhancedXv6.Storage

abbrev BSIZE : ℕ := 1024

/-- Bits of the free map, and inodes, per block. -/
abbrev BPB : ℕ := BSIZE * 8
abbrev IPB : ℕ := 16

abbrev MAXOPBLOCKS : ℕ := 10
abbrev LOGSIZE : ℕ := MAXOPBLOCKS * 3

/-- The bytes of a block, at the offsets below `BSIZE`. -/
abbrev Block := ℕ → UInt8

namespace Block

def word (b : Block) (i : ℕ) : ℕ :=
  (b (4 * i)).toNat + 2 ^ 8 * (b (4 * i + 1)).toNat + 2 ^ 16 * (b (4 * i + 2)).toNat +
    2 ^ 24 * (b (4 * i + 3)).toNat

def setWord (b : Block) (i w : ℕ) : Block := fun k ↦
  if k / 4 = i then UInt8.ofNat (w / 2 ^ (8 * (k % 4))) else b k

theorem word_lt (b : Block) (i : ℕ) : b.word i < 2 ^ 32 := by
  have h0 := (b (4 * i)).toNat_lt
  have h1 := (b (4 * i + 1)).toNat_lt
  have h2 := (b (4 * i + 2)).toNat_lt
  have h3 := (b (4 * i + 3)).toNat_lt
  unfold word
  omega

theorem setWord_byte (b : Block) (i w j : ℕ) (hj : j < 4) :
    (b.setWord i w (4 * i + j)).toNat = w / 2 ^ (8 * j) % 2 ^ 8 := by
  have hdiv : (4 * i + j) / 4 = i := by omega
  have hmod : (4 * i + j) % 4 = j := by omega
  rw [setWord, if_pos hdiv, hmod, UInt8.toNat_ofNat']

@[simp] theorem word_setWord_self (b : Block) (i w : ℕ) :
    (b.setWord i w).word i = w % 2 ^ 32 := by
  have h0 := setWord_byte b i w 0 (by omega)
  have h1 := setWord_byte b i w 1 (by omega)
  have h2 := setWord_byte b i w 2 (by omega)
  have h3 := setWord_byte b i w 3 (by omega)
  simp only [Nat.add_zero] at h0
  rw [word, h0, h1, h2, h3]
  omega

theorem word_congr {b b' : Block} {i : ℕ} (h : ∀ j < 4, b (4 * i + j) = b' (4 * i + j)) :
    b.word i = b'.word i := by
  have h0 := h 0 (by omega)
  simp only [Nat.add_zero] at h0
  rw [word, word, h0, h 1 (by omega), h 2 (by omega), h 3 (by omega)]

@[simp] theorem word_setWord_of_ne {b : Block} {i j w : ℕ} (h : j ≠ i) :
    (b.setWord i w).word j = b.word j := by
  refine word_congr fun m hm ↦ ?_
  rw [setWord, if_neg (by omega)]

end Block

end EnhancedXv6.Storage
