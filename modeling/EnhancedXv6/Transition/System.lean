import Mathlib.Data.Option.Basic
import Mathlib.Data.List.Basic

/-!
# Guarded transition systems

A `System` is a start state together with a partial step function: `next s e` is `none` when the event
`e` cannot happen in `s`, or when it does not end in a state.  `Reachable good` collects the states of
the runs all of whose steps satisfy the guard `good` in the state they are taken from.

The induction over runs is `Reachable.invariant`.  Concrete runs are evaluated by `runGuarded` and
transferred by `exists_reachable`.  `withHistory` adds a history variable that observes each step.
-/

namespace EnhancedXv6.Transition

/-- A start state and a partial step function. -/
structure System (σ ε : Type*) where
  start : σ
  next : σ → ε → Option σ

namespace System

variable {σ ε η : Type*} (sys : System σ ε)

/-- The states of the runs from the start whose steps all satisfy `good`. -/
inductive Reachable (good : σ → ε → Prop) : σ → Prop
  | start : Reachable good sys.start
  | step {s s' : σ} {e : ε} :
      Reachable good s → good s e → sys.next s e = some s' → Reachable good s'

variable {sys}

/-- A property of the start state that every guarded step preserves holds along every guarded
run. -/
theorem Reachable.invariant {good : σ → ε → Prop} (Inv : σ → Prop) (hstart : Inv sys.start)
    (hstep : ∀ s e s', Inv s → good s e → sys.next s e = some s' → Inv s')
    {s : σ} (hs : sys.Reachable good s) : Inv s := by
  induction hs with
  | start => exact hstart
  | step _ hgood hnext ih => exact hstep _ _ _ ih hgood hnext

theorem Reachable.mono {good good' : σ → ε → Prop} (hgood : ∀ s e, good s e → good' s e) {s : σ}
    (hs : sys.Reachable good s) : sys.Reachable good' s := by
  induction hs with
  | start => exact .start
  | step _ hstep hnext ih => exact .step ih (hgood _ _ hstep) hnext

variable (sys)

/-- Execute a list of events, checking the guard before each of them. -/
def runGuarded (good : σ → ε → Prop) [∀ s e, Decidable (good s e)] : List ε → σ → Option σ
  | [], s => some s
  | e :: es, s => if good s e then (sys.next s e).bind (runGuarded good es) else none

variable {sys}

/-- The end of a guarded execution is reachable. -/
theorem Reachable.of_runGuarded {good : σ → ε → Prop} [∀ s e, Decidable (good s e)]
    {es : List ε} {s s' : σ} (hs : sys.Reachable good s)
    (hrun : sys.runGuarded good es s = some s') : sys.Reachable good s' := by
  induction es generalizing s with
  | nil =>
    obtain rfl : s = s' := by simpa [runGuarded] using hrun
    exact hs
  | cons e es ih =>
    by_cases hgood : good s e
    · rw [runGuarded, if_pos hgood] at hrun
      obtain ⟨middle, hnext, hrest⟩ := Option.bind_eq_some_iff.mp hrun
      exact ih (.step hs hgood hnext) hrest
    · simp [runGuarded, hgood] at hrun

variable (sys)

/-- A concrete run that ends in a state with a given property, checked by evaluation. -/
theorem exists_reachable (good : σ → ε → Prop) [∀ s e, Decidable (good s e)] (P : σ → Prop)
    [DecidablePred P] (es : List ε)
    (hrun : ((sys.runGuarded good es sys.start).any fun s ↦ P s) = true) :
    ∃ s, sys.Reachable good s ∧ P s := by
  cases hs : sys.runGuarded good es sys.start with
  | none => simp [hs] at hrun
  | some s =>
    rw [hs, Option.any_some, decide_eq_true_eq] at hrun
    exact ⟨s, Reachable.start.of_runGuarded hs, hrun⟩

/-- The system observed by a history variable: `record` sees each step and its outcome. -/
def withHistory (first : η) (record : η → σ → ε → σ → η) : System (σ × η) ε where
  start := (sys.start, first)
  next o e := (sys.next o.1 e).map fun s' ↦ (s', record o.2 o.1 e s')

variable {sys}

/-- A step of the observed system is a step of the system, together with its record. -/
theorem withHistory_next {first : η} {record : η → σ → ε → σ → η} {o o' : σ × η} {e : ε} :
    (sys.withHistory first record).next o e = some o' ↔
      sys.next o.1 e = some o'.1 ∧ o'.2 = record o.2 o.1 e o'.1 := by
  simp only [withHistory, Option.map_eq_some_iff]
  constructor
  · rintro ⟨s', hnext, rfl⟩
    exact ⟨hnext, rfl⟩
  · rintro ⟨hnext, hrecord⟩
    exact ⟨o'.1, hnext, by rw [← hrecord]⟩

end System

end EnhancedXv6.Transition
