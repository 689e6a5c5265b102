import EnhancedXv6.Transition.System
import Mathlib.Logic.Function.Basic

/-!
# Sleep locks

`acquiresleep` and `releasesleep` of sleeplock.c for any type `P` of processes.  Taking `lk->lk`, what
is done under it and giving it up are steps of their own.  `sleep` gives up `lk->lk` and sleeps in one
step, `wakeup` is part of the step that calls it, and `kill` may wake a sleeper at any time.  Only a
process that has the lock calls `releasesleep`.
-/

namespace EnhancedXv6.Sleep.Sleeplock

open Transition

variable {P : Type} [DecidableEq P]

/-- Where a process is: before `acquire(&lk->lk)` at `enter`, also at the end of `sleep`, and at `exit`,
under it at `loop` and `free`, and before `release(&lk->lk)` at `got` and `done`. -/
inductive Pc
  | out | enter | loop | asleep | got | holds | exit | free | done
  deriving DecidableEq

/-- `struct sleeplock`; `spin` is the process that holds `lk->lk`. -/
structure State (P : Type) where
  locked : Bool := false
  pid : Option P := none
  spin : Option P := none
  pc : P → Pc := fun _ ↦ .out

def State.goto (s : State P) (p : P) (pc : Pc) : State P :=
  { s with pc := Function.update s.pc p pc }

def Pc.wake (pc : Pc) : Pc := if pc = .asleep then .enter else pc

def holdingsleep (s : State P) (p : P) : Bool := s.locked && s.pid = some p

def sleeplock (P : Type) [DecidableEq P] : System (State P) P where
  start := {}
  next s p := match s.pc p with
    | .out | .asleep => some (s.goto p .enter)
    | .enter => if s.spin = none then some { s.goto p .loop with spin := some p } else none
    | .loop =>
      if s.locked then some { s.goto p .asleep with spin := none }
      else some { s.goto p .got with locked := true, pid := some p }
    | .got => some { s.goto p .holds with spin := none }
    | .holds => some (s.goto p .exit)
    | .exit => if s.spin = none then some { s.goto p .free with spin := some p } else none
    | .free =>
      some { { s with pc := fun q ↦ (s.pc q).wake }.goto p .done with locked := false, pid := none }
    | .done => some { s.goto p .out with spin := none }

structure Inv (s : State P) : Prop where
  spin : ∀ p, s.spin = some p ↔ s.pc p ∈ [.loop, .got, .free, .done]
  owner : ∀ p, s.pid = some p ↔ s.pc p ∈ [.got, .holds, .exit, .free]
  locked : s.locked = s.pid.isSome
  asleep : ∀ p, s.pc p = .asleep → s.locked

theorem Inv.next {s s' : State P} {p : P} (h : Inv s) (hnext : (sleeplock P).next s p = some s') :
    Inv s' := by
  obtain ⟨spin, owner, locked, asleep⟩ := h
  simp only [sleeplock, State.goto] at hnext
  simp only [List.mem_cons, List.not_mem_nil, or_false] at spin owner
  split at hnext <;> try split at hnext
  all_goals
    cases hnext <;> constructor <;>
      simp only [List.mem_cons, List.not_mem_nil, or_false, Function.update_apply, Pc.wake] <;> grind

/-- One process at most has a sleep lock.  While `lk->lk` is free, `holdingsleep` says which one, and
nobody sleeps unless some process has the lock and will wake the sleepers. -/
theorem sleeplock_exclusive {s : State P} (hs : (sleeplock P).Reachable (fun _ _ ↦ True) s) :
    (∀ p q, s.pc p ∈ [.holds, .exit] → s.pc q ∈ [.holds, .exit] → p = q) ∧
      (s.spin = none → (∀ p, holdingsleep s p ↔ s.pc p ∈ [.holds, .exit]) ∧
        ∀ p, s.pc p = .asleep → ∃ q, s.pc q ∈ [.holds, .exit]) := by
  obtain ⟨spin, owner, locked, asleep⟩ := hs.invariant Inv
    (by constructor <;> simp [sleeplock]) fun _ _ _ h _ hnext ↦ h.next hnext
  simp only [List.mem_cons, List.not_mem_nil, or_false] at spin owner ⊢
  refine ⟨fun p q hp hq ↦ ?_, fun hfree ↦ ⟨fun p ↦ ?_, fun p hp ↦ ?_⟩⟩
  · have hp' := (owner p).mpr (by tauto)
    have hq' := (owner q).mpr (by tauto)
    exact Option.some.inj (hp'.symm.trans hq')
  · have hspin := spin p
    have howner := owner p
    grind [holdingsleep]
  · obtain ⟨q, hq⟩ := Option.isSome_iff_exists.mp (locked ▸ asleep p hp)
    have hspin := spin q
    have howner := owner q
    grind

theorem sleeplock_exclusive_two : ∃ s : State Bool, s.pc false = .asleep ∧
    ∃ q, s.pc q ∈ [.holds, .exit] := by
  obtain ⟨s, hs, hasleep, hfree⟩ := (sleeplock Bool).exists_reachable (fun _ _ ↦ True)
    (fun s ↦ s.pc false = .asleep ∧ s.spin = none)
    [true, true, true, true, false, false, false] (by decide)
  exact ⟨s, hasleep, ((sleeplock_exclusive hs).2 hfree).2 false hasleep⟩

end EnhancedXv6.Sleep.Sleeplock
