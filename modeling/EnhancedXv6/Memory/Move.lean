import Mathlib.Algebra.GroupWithZero.Nat
import Mathlib.Logic.Function.Basic

/-!
# Moving bytes

The `memmove` of the kernel and that of the user library, on a memory of bytes with 64-bit addresses that
wrap around.  How far one address lies above another is counted modulo `2 ^ 64`: the loop that goes up
never reads a byte it has written if the destination is not less than `n` above the source, the loop that
goes down if the source is not less than `n` above the destination.
-/

namespace EnhancedXv6.Move

abbrev Addr := BitVec 64

abbrev Mem := Addr → UInt8

/-- `while(n-- > 0) *d++ = *s++;` -/
def copyUp : ℕ → Mem → Addr → Addr → Mem
  | 0, mem, _, _ => mem
  | n + 1, mem, d, s => copyUp n (Function.update mem d (mem s)) (d + 1) (s + 1)

/-- `while(n-- > 0) *--d = *--s;` -/
def copyDown : ℕ → Mem → Addr → Addr → Mem
  | 0, mem, _, _ => mem
  | n + 1, mem, d, s => copyDown n (Function.update mem (d - 1) (mem (s - 1))) (d - 1) (s - 1)

/-- `memmove` of string.c, with an unsigned length. -/
def kernelMemmove (mem : Mem) (dst src : Addr) (n : BitVec 32) : Mem :=
  if n = 0 then mem
  else if src < dst ∧ src + n.setWidth 64 > dst then
    copyDown n.toNat mem (dst + n.setWidth 64) (src + n.setWidth 64)
  else copyUp n.toNat mem dst src

/-- `memmove` of ulib.c, with a signed length: a loop does nothing if it is negative. -/
def userMemmove (mem : Mem) (dst src : Addr) (n : BitVec 32) : Mem :=
  if src > dst then copyUp n.toInt.toNat mem dst src
  else copyDown n.toInt.toNat mem (dst + n.signExtend 64) (src + n.signExtend 64)

/-- The memory after a move of `n` bytes: the destination holds what the source held, the rest is as
before. -/
structure Moved (mem : Mem) (dst src : Addr) (n : ℕ) (mem' : Mem) : Prop where
  copied : ∀ i < n, mem' (dst + .ofNat 64 i) = mem (src + .ofNat 64 i)
  frame : ∀ a, (∀ i < n, a ≠ dst + .ofNat 64 i) → mem' a = mem a

variable {mem : Mem} {d s a dst src : Addr} {n : ℕ}

/-! ## The loops -/

-- The loop has copied the bytes behind `d`; those before it are copied from what they were.
theorem copyUp_apply (hn : n ≤ 2 ^ 64) (hsafe : d = s ∨ n ≤ (d - s).toNat) :
    copyUp n mem d s a = if (a - d).toNat < n then mem (s + (a - d)) else mem a := by
  induction n generalizing mem d s with
  | zero => simp [copyUp]
  | succ n ih =>
    have hnext : d + 1 = s + 1 ∨ n ≤ (d + 1 - (s + 1)).toNat := by
      rcases hsafe with rfl | hsafe
      · exact .inl rfl
      · exact .inr (by bv_omega)
    rw [copyUp, ih (by omega) hnext]
    by_cases had : a = d
    · subst had
      have hlast : ¬ (a - (a + 1)).toNat < n := by bv_omega
      have hfirst : (a - a).toNat < n + 1 := by simp
      rw [if_neg hlast, if_pos hfirst, Function.update_self]
      simp
    · have hcond : (a - (d + 1)).toNat < n ↔ (a - d).toNat < n + 1 := by bv_omega
      have hsource : s + 1 + (a - (d + 1)) = s + (a - d) := by bv_omega
      rw [hsource, Function.update_of_ne had]
      by_cases hrange : (a - d).toNat < n + 1
      · have hunread : s + (a - d) ≠ d := by
          rcases hsafe with rfl | hsafe <;> bv_omega
        rw [if_pos (hcond.mpr hrange), if_pos hrange, Function.update_of_ne hunread]
      · rw [if_neg (mt hcond.mp hrange), if_neg hrange]

theorem copyDown_apply (hn : n ≤ 2 ^ 64) (hsafe : d = s ∨ n ≤ (s - d).toNat) :
    copyDown n mem (d + .ofNat 64 n) (s + .ofNat 64 n) a =
      if (a - d).toNat < n then mem (s + (a - d)) else mem a := by
  induction n generalizing mem with
  | zero => simp [copyDown]
  | succ n ih =>
    have hback : ∀ p : Addr, p + .ofNat 64 (n + 1) - 1 = p + .ofNat 64 n := fun p ↦ by bv_omega
    have hnext : d = s ∨ n ≤ (s - d).toNat := hsafe.imp_right fun h ↦ by omega
    rw [copyDown, hback, hback, ih (by omega) hnext]
    by_cases had : a = d + .ofNat 64 n
    · have hdist : a - d = .ofNat 64 n := by rw [had]; bv_omega
      have hout : ¬ (a - d).toNat < n := by bv_omega
      have hin : (a - d).toNat < n + 1 := by bv_omega
      rw [if_neg hout, if_pos hin, had, Function.update_self, ← had, hdist]
    · have hcond : (a - d).toNat < n ↔ (a - d).toNat < n + 1 := by bv_omega
      rw [Function.update_of_ne had]
      by_cases hrange : (a - d).toNat < n + 1
      · have hunread : s + (a - d) ≠ d + .ofNat 64 n := by
          have hlt := hcond.mpr hrange
          rcases hsafe with rfl | hsafe <;> bv_omega
        rw [if_pos (hcond.mpr hrange), if_pos hrange, Function.update_of_ne hunread]
      · rw [if_neg (mt hcond.mp hrange), if_neg hrange]

theorem moved_of_apply {mem' : Mem} (hn : n ≤ 2 ^ 64)
    (h : ∀ a, mem' a = if (a - dst).toNat < n then mem (src + (a - dst)) else mem a) :
    Moved mem dst src n mem' where
  copied i hi := by
    have hdist : dst + .ofNat 64 i - dst = .ofNat 64 i := by bv_omega
    have hlt : (BitVec.ofNat 64 i).toNat < n := by
      rw [BitVec.toNat_ofNat]
      omega
    rw [h, hdist, if_pos hlt]
  frame a ha := by
    have hout : ¬ (a - dst).toNat < n := by
      intro hlt
      refine ha _ hlt ?_
      rw [BitVec.ofNat_toNat, BitVec.setWidth_eq]
      bv_omega
    rw [h, if_neg hout]

/-! ## The functions -/

theorem kernelMemmove_moved {n : BitVec 32} (hsrc : src.toNat + n.toNat ≤ 2 ^ 64)
    (hdst : dst.toNat + n.toNat ≤ 2 ^ 64) :
    Moved mem dst src n.toNat (kernelMemmove mem dst src n) := by
  have hlen : n.toNat ≤ 2 ^ 64 := by omega
  refine moved_of_apply hlen fun a ↦ ?_
  unfold kernelMemmove
  by_cases hzero : n = 0
  · simp [hzero]
  rw [if_neg hzero]
  have hwidth : n.setWidth 64 = .ofNat 64 n.toNat := by simp
  rw [hwidth]
  by_cases hoverlap : src < dst ∧ src + .ofNat 64 n.toNat > dst
  · have hsafe : n.toNat ≤ (src - dst).toNat := by bv_omega
    rw [if_pos hoverlap, copyDown_apply hlen (.inr hsafe)]
  · have hsafe : dst = src ∨ n.toNat ≤ (dst - src).toNat := by bv_omega
    rw [if_neg hoverlap, copyUp_apply hlen hsafe]

theorem userMemmove_moved {n : BitVec 32} (hn : n.toNat < 2 ^ 31) (hsrc : src.toNat + n.toNat ≤ 2 ^ 64)
    (hdst : dst.toNat + n.toNat ≤ 2 ^ 64) :
    Moved mem dst src n.toNat (userMemmove mem dst src n) := by
  have hlen : n.toNat ≤ 2 ^ 64 := by omega
  have hint : n.toInt.toNat = n.toNat := by
    rw [BitVec.toInt_eq_toNat_of_lt (by omega), Int.toNat_natCast]
  have hwidth : n.signExtend 64 = .ofNat 64 n.toNat := by
    rw [BitVec.signExtend_eq_setWidth_of_msb_false]
    · simp
    · rw [BitVec.msb_eq_decide]
      simpa using hn
  refine moved_of_apply hlen fun a ↦ ?_
  rw [userMemmove, hint, hwidth]
  by_cases hgt : src > dst
  · have hsafe : n.toNat ≤ (dst - src).toNat := by bv_omega
    rw [if_pos hgt, copyUp_apply hlen (.inr hsafe)]
  · have hsafe : dst = src ∨ n.toNat ≤ (src - dst).toNat := by bv_omega
    rw [if_neg hgt, copyDown_apply hlen hsafe]

/-- Both functions move any bytes to any place, however source and destination overlap. -/
theorem memmove_moves_overlapping (mem : Mem) (dst src : Addr) (n : BitVec 32) (hn : n.toNat < 2 ^ 31)
    (hsrc : src.toNat + n.toNat ≤ 2 ^ 64) (hdst : dst.toNat + n.toNat ≤ 2 ^ 64) :
    Moved mem dst src n.toNat (kernelMemmove mem dst src n) ∧
      Moved mem dst src n.toNat (userMemmove mem dst src n) :=
  ⟨kernelMemmove_moved hsrc hdst, userMemmove_moved hn hsrc hdst⟩

/-- Ten bytes moved up by two, to the end of the addresses. -/
theorem memmove_moves_overlapping_up :
    Moved (fun a ↦ .ofNat a.toNat) 0xfffffffffffffff6 0xfffffffffffffff4 10
      (kernelMemmove (fun a ↦ .ofNat a.toNat) 0xfffffffffffffff6 0xfffffffffffffff4 10) :=
  (memmove_moves_overlapping _ 0xfffffffffffffff6 0xfffffffffffffff4 10 (by decide) (by decide)
    (by decide)).1

end EnhancedXv6.Move
