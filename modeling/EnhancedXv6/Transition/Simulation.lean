import EnhancedXv6.Transition.System

/-!
# Simulations

A `Simulation` reads each step of a system as a step of a more abstract one: `map` gives the
abstract state and `label` the abstract event of a step.  Runs are read the same way, also when a
guard restricts their steps or a history variable observes them, so that an invariant of the
abstract system is one of the concrete system.
-/

namespace EnhancedXv6.Transition

variable {σ ε τ α η : Type*}

/-- Every step of `sys` is a step of `abs`. -/
structure Simulation (sys : System σ ε) (abs : System τ α) where
  map : σ → τ
  label : σ → ε → α
  start : map sys.start = abs.start
  step : ∀ {s e s'}, sys.next s e = some s' → abs.next (map s) (label s e) = some (map s')

namespace Simulation

variable {sys : System σ ε} {abs : System τ α} (sim : Simulation sys abs)

/-- A run whose steps meet a guard of the abstract system is a run of that system. -/
theorem reachable (good : τ → α → Prop) {s : σ}
    (hs : sys.Reachable (fun s e ↦ good (sim.map s) (sim.label s e)) s) :
    abs.Reachable good (sim.map s) := by
  induction hs with
  | start =>
    rw [sim.start]
    exact .start
  | step _ hgood hnext ih => exact .step ih hgood (sim.step hnext)

/-- The same simulation when both systems are observed. -/
def withHistory (first : η) (record : η → τ → α → τ → η) :
    Simulation
      (sys.withHistory first fun r s e s' ↦ record r (sim.map s) (sim.label s e) (sim.map s'))
      (abs.withHistory first record) where
  map o := (sim.map o.1, o.2)
  label o e := sim.label o.1 e
  start := by simp [System.withHistory, sim.start]
  step hnext := by
    obtain ⟨hstep, hrecord⟩ := System.withHistory_next.mp hnext
    apply System.withHistory_next.mpr
    exact ⟨sim.step hstep, hrecord⟩

end Simulation

end EnhancedXv6.Transition
