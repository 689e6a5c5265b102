import Mathlib.Tactic.Common

/-!
# Spinlocks and interrupts

spinlock.c: a lock with the hart that holds it, and the nesting of `push_off` and `pop_off` with which a
hart keeps interrupts off.  Calls of `panic` are errors with their message.  `acquire` is cut in two,
since other harts go on while it spins: `beginAcquire` turns interrupts off and tests for a lock that
the hart holds already, `take` succeeds when the lock is free.
-/

namespace EnhancedXv6.Spinlock

variable {H : Type} [DecidableEq H]

/-- `struct spinlock`; `cpu` is the hart that holds the lock. -/
structure Lock (H : Type) where
  locked : Bool := false
  cpu : Option H := none

/-- The fields of `struct cpu` that `push_off` and `pop_off` use, and the bit of `sstatus` that
enables interrupts on the hart. -/
structure Cpu where
  noff : ℕ
  intena : Bool
  sie : Bool

def holding (lk : Lock H) (h : H) : Bool :=
  lk.locked && decide (lk.cpu = some h)

def pushOff (c : Cpu) : Cpu :=
  { noff := c.noff + 1, intena := if c.noff = 0 then c.sie else c.intena, sie := false }

def popOff (c : Cpu) : Except String Cpu :=
  if c.sie then .error "pop_off - interruptible"
  else if c.noff < 1 then .error "pop_off"
  else
    let c := { c with noff := c.noff - 1 }
    .ok (if c.noff = 0 ∧ c.intena = true then { c with sie := true } else c)

def beginAcquire (lk : Lock H) (h : H) (c : Cpu) : Except String Cpu :=
  let c := pushOff c
  if holding lk h then .error "acquire" else .ok c

/-- The end of the loop of `acquire`: `none` while it spins. -/
def take (lk : Lock H) (h : H) : Option (Lock H) :=
  if lk.locked then none else some ⟨true, some h⟩

def release (lk : Lock H) (h : H) (c : Cpu) : Except String (Lock H × Cpu) := do
  if !holding lk h then throw "release"
  let c ← popOff c
  pure (⟨false, none⟩, c)

variable {lk lk' : Lock H} {h : H} {c c' : Cpu}

theorem popOff_ok (hpop : popOff c = .ok c') :
    c.sie = false ∧ c.noff = c'.noff + 1 ∧ c'.intena = c.intena ∧
      c'.sie = (decide (c'.noff = 0) && c.intena) := by
  unfold popOff at hpop
  split at hpop
  · cases hpop
  · rename_i hsie
    split at hpop
    · cases hpop
    · dsimp only at hpop
      cases hpop
      split
      · rename_i houter
        simp_all
        omega
      · simp_all
        omega

/-- `pop_off` does not panic with interrupts off and an unmatched `push_off`. -/
theorem exists_popOff (hsie : c.sie = false) (hnoff : 0 < c.noff) : ∃ c', popOff c = .ok c' := by
  rw [popOff, if_neg (by simp [hsie]), if_neg (by omega)]
  exact ⟨_, rfl⟩

omit [DecidableEq H] in
theorem take_eq_some (htake : take lk h = some lk') : lk.locked = false ∧ lk' = ⟨true, some h⟩ := by
  unfold take at htake
  split at htake
  · cases htake
  · rename_i hfree
    cases htake
    exact ⟨by simpa using hfree, rfl⟩

theorem release_ok {r : Lock H × Cpu} (hrelease : release lk h c = .ok r) :
    holding lk h = true ∧ popOff c = .ok r.2 ∧ r.1 = ⟨false, none⟩ := by
  unfold release at hrelease
  by_cases hhold : holding lk h = true
  · simp only [hhold, Bool.not_true, Bool.false_eq_true, if_false] at hrelease
    cases hpop : popOff c with
    | error message =>
      rw [hpop] at hrelease
      cases hrelease
    | ok c' =>
      rw [hpop] at hrelease
      cases hrelease
      exact ⟨hhold, rfl, rfl⟩
  · simp only [hhold, Bool.not_false, if_true] at hrelease
    cases hrelease

end EnhancedXv6.Spinlock
