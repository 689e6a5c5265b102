import Mathlib.Data.Set.Basic
import Mathlib.Tactic.Common

/-!
# Resources and the slots that hold them

A pool of resources with a free map, and slots each of which is empty (0) or holds a resource.
`Assigned` says that the two agree: no resource is in two slots, and the resources of the pool that are
marked used are those in the slots.  Taking a free resource into an empty slot keeps it, and so does
giving back what a slot holds.
-/

namespace EnhancedXv6.Storage

variable {κ ρ : Type*} [Zero ρ] {pool : Set ρ} {slot : κ → ρ} {used : ρ → Bool} {i : κ} {b : ρ}

/-- The slots hold the used resources of the pool, each of them once. -/
structure Assigned (pool : Set ρ) (slot : κ → ρ) (used : ρ → Bool) : Prop where
  zero : 0 ∉ pool
  injective : ∀ i j, slot i ≠ 0 → slot i = slot j → i = j
  mem : ∀ i, slot i ≠ 0 → slot i ∈ pool
  marked : ∀ i, slot i ≠ 0 → used (slot i) = true
  owned : ∀ b ∈ pool, used b = true → ∃ i, slot i = b

namespace Assigned

theorem ne_of_free (h : Assigned pool slot used) (hpool : b ∈ pool) (hfree : used b = false)
    (i : κ) : slot i ≠ b := by
  rintro rfl
  have hmarked := h.marked i fun h0 ↦ h.zero (h0 ▸ hpool)
  simp [hmarked] at hfree

variable [DecidableEq κ] [DecidableEq ρ]

/-- A free resource goes into an empty slot. -/
theorem take (h : Assigned pool slot used) (hi : slot i = 0) (hpool : b ∈ pool)
    (hfree : used b = false) :
    Assigned pool (Function.update slot i b) (Function.update used b true) := by
  have hne := h.ne_of_free hpool hfree
  refine ⟨h.zero, fun j k hj hjk ↦ ?_, fun j hj ↦ ?_, fun j hj ↦ ?_, fun c hc hused ↦ ?_⟩
  · by_cases hji : j = i <;> by_cases hki : k = i
    · rw [hji, hki]
    · rw [hji, Function.update_self, Function.update_of_ne hki] at hjk
      exact absurd hjk.symm (hne k)
    · rw [hki, Function.update_self, Function.update_of_ne hji] at hjk
      exact absurd hjk (hne j)
    · rw [Function.update_of_ne hji] at hj hjk
      rw [Function.update_of_ne hki] at hjk
      exact h.injective j k hj hjk
  · by_cases hji : j = i
    · simpa [hji] using hpool
    · rw [Function.update_of_ne hji] at hj ⊢
      exact h.mem j hj
  · by_cases hji : j = i
    · simp [hji]
    · rw [Function.update_of_ne hji] at hj ⊢
      rw [Function.update_of_ne (hne j)]
      exact h.marked j hj
  · by_cases hcb : c = b
    · exact ⟨i, by simp [hcb]⟩
    · rw [Function.update_of_ne hcb] at hused
      obtain ⟨j, hj⟩ := h.owned c hc hused
      have hji : j ≠ i := by
        rintro rfl
        exact h.zero (hi ▸ hj ▸ hc)
      exact ⟨j, by rw [Function.update_of_ne hji, hj]⟩

end Assigned

end EnhancedXv6.Storage
