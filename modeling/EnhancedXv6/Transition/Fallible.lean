import Mathlib.Data.List.Basic
import Mathlib.Tactic.Common

/-!
# Computations that may stop with an error

Inversion and loop rules for `Except`.  A loop `foldlM` is described by a predicate on the elements
already visited and the current state: `foldlM_ok` carries it through a loop that succeeded,
`foldlM_exists` shows that a loop whose every iteration succeeds does so as a whole.
-/

namespace EnhancedXv6.Fallible

universe u

variable {ε : Type*} {α β σ : Type u}

@[simp] theorem ok_bind (a : α) (f : α → Except ε β) : (Except.ok a >>= f) = f a := rfl

@[simp] theorem pure_eq_ok (a : α) : (pure a : Except ε α) = .ok a := rfl

@[simp] theorem throw_eq_error (e : ε) : (throw e : Except ε α) = .error e := rfl

@[simp] theorem error_bind (e : ε) (f : α → Except ε β) :
    ((Except.error e : Except ε α) >>= f) = .error e := rfl

theorem bind_eq_ok {x : Except ε α} {f : α → Except ε β} {b : β} :
    (x >>= f) = .ok b ↔ ∃ a, x = .ok a ∧ f a = .ok b := by
  cases x with
  | error e => simp
  | ok a => simp

theorem bind_eq_error {x : Except ε α} {f : α → Except ε β} {e : ε} :
    (x >>= f) = .error e ↔ x = .error e ∨ ∃ a, x = .ok a ∧ f a = .error e := by
  cases x with
  | error e' => simp
  | ok a => simp

/-- A guard that did not stop the computation holds. -/
theorem ite_error_eq_ok {c : Prop} [Decidable c] {e : ε} {x : Except ε α} {a : α} :
    (if c then .error e else x) = .ok a ↔ ¬ c ∧ x = .ok a := by
  by_cases h : c
  · simp [h]
  · simp [h]

theorem toOption_eq_some {x : Except ε α} {a : α} : x.toOption = some a ↔ x = .ok a := by
  cases x with
  | error e => simp [Except.toOption]
  | ok a' => simp [Except.toOption]

def errorOf : Except ε α → Option ε
  | .error e => some e
  | .ok _ => none

theorem errorOf_eq_some {x : Except ε α} {e : ε} : errorOf x = some e ↔ x = .error e := by
  cases x with
  | error e' => simp [errorOf]
  | ok a => simp [errorOf]

/-- A loop that succeeded carries whatever its iterations carry. -/
theorem foldlM_ok {f : σ → α → Except ε σ} (P : List α → σ → Prop) {all : List α}
    (hstep : ∀ visited x rest s s', all = visited ++ x :: rest → P visited s → f s x = .ok s' →
      P (visited ++ [x]) s')
    {xs visited : List α} {s s' : σ} (hall : all = visited ++ xs) (hs : P visited s)
    (hrun : xs.foldlM f s = .ok s') : P all s' := by
  induction xs generalizing visited s with
  | nil =>
    obtain rfl : s = s' := by simpa using hrun
    simpa [hall] using hs
  | cons x xs ih =>
    rw [List.foldlM_cons] at hrun
    obtain ⟨middle, hfirst, hrest⟩ := bind_eq_ok.mp hrun
    have hall' : all = (visited ++ [x]) ++ xs := by simp [hall]
    exact ih hall' (hstep visited x xs s middle hall hs hfirst) hrest

/-- A loop succeeds when each of its iterations does, from every state the loop can be in. -/
theorem foldlM_exists {f : σ → α → Except ε σ} (P : List α → σ → Prop) {all : List α}
    (hstep : ∀ visited x rest s, all = visited ++ x :: rest → P visited s →
      ∃ s', f s x = .ok s' ∧ P (visited ++ [x]) s')
    {xs visited : List α} {s : σ} (hall : all = visited ++ xs) (hs : P visited s) :
    ∃ s', xs.foldlM f s = .ok s' ∧ P all s' := by
  induction xs generalizing visited s with
  | nil => exact ⟨s, rfl, by simpa [hall] using hs⟩
  | cons x xs ih =>
    obtain ⟨middle, hfirst, hmiddle⟩ := hstep visited x xs s hall hs
    have hall' : all = (visited ++ [x]) ++ xs := by simp [hall]
    obtain ⟨s', hrest, hs'⟩ := ih hall' hmiddle
    refine ⟨s', ?_, hs'⟩
    rw [List.foldlM_cons, hfirst]
    exact hrest

end EnhancedXv6.Fallible
