import Mathlib.Logic.Function.Basic

/-!
# Lock ownership

A table `owner` of lock owners agrees with what each agent believes to hold.  The rules follow a lock
through acquisition and release; a lock that is acquired by one thread of an agent and released by
another needs no rule of its own.

Agents that hold several locks at once are described by `Excludes`.  Each step of an agent does at most
one `LockOp`; if the locks it holds before and after the step follow the operation, every lock keeps at
most one holder.
-/

namespace EnhancedXv6.Ownership

variable {Lock Agent : Type*} [DecidableEq Lock] [DecidableEq Agent]

/-- The owner of a lock is the agent that holds it. -/
def Owns (owner : Lock → Option Agent) (held : Agent → Option Lock) : Prop :=
  ∀ l a, owner l = some a ↔ held a = some l

variable {owner : Lock → Option Agent} {held : Agent → Option Lock} {l : Lock} {a : Agent}

theorem Owns.acquire (h : Owns owner held) (hfree : owner l = none) (hnone : held a = none) :
    Owns (Function.update owner l (some a)) (Function.update held a (some l)) := by
  intro m b
  have hm := h m b
  by_cases hml : m = l <;> by_cases hba : b = a
  · simp [hml, hba]
  · subst hml
    have hne : held b ≠ some m := by simp [← hm, hfree]
    simp [hba, hne, Ne.symm hba]
  · subst hba
    have hne : owner m ≠ some b := by simp [hm, hnone]
    simp [hml, hne, Ne.symm hml]
  · simpa [hml, hba] using hm

theorem Owns.release (h : Owns owner held) (hheld : held a = some l) :
    Owns (Function.update owner l none) (Function.update held a none) := by
  intro m b
  have hm := h m b
  by_cases hml : m = l <;> by_cases hba : b = a
  · simp [hml, hba]
  · subst hml
    have howner : owner m = some a := (h m a).mpr hheld
    have hne : held b ≠ some m := by
      rw [Ne, ← hm, howner]
      simpa using Ne.symm hba
    simp [hba, hne]
  · subst hba
    have hne : owner m ≠ some b := by
      rw [Ne, hm, hheld]
      simpa using Ne.symm hml
    simp [hml, hne]
  · simpa [hml, hba] using hm

/-! ## Several locks -/

/-- What a step does to the locks. -/
inductive LockOp (Lock : Type*)
  | keep
  | acquire (l : Lock)
  | release (l : Lock)
  /-- a whole critical section, from the acquisition to the release -/
  | within (l : Lock)

namespace LockOp

/-- The owners after agent `a` did the operation, or `none` when it has to wait. -/
def run (owner : Lock → Option Agent) (a : Agent) : LockOp Lock → Option (Lock → Option Agent)
  | .keep => some owner
  | .acquire l => if owner l = none then some (Function.update owner l (some a)) else none
  | .release l => some (Function.update owner l none)
  | .within l => if owner l = none then some owner else none

/-- The locks `before` and `after` a step of an agent agree with the operation. -/
def Follows (before after : Lock → Prop) : LockOp Lock → Prop
  | .keep | .within _ => ∀ m, after m → before m
  | .acquire l => ∀ m, after m → before m ∨ m = l
  | .release l => before l ∧ ∀ m, after m → before m ∧ m ≠ l

end LockOp

/-- Whoever holds a lock is its owner. -/
def Excludes (owner : Lock → Option Agent) (holds : Agent → Lock → Prop) : Prop :=
  ∀ a l, holds a l → owner l = some a

variable {holds : Agent → Lock → Prop} {b : Agent}

omit [DecidableEq Lock] [DecidableEq Agent] in
theorem Excludes.eq (h : Excludes owner holds) (ha : holds a l) (hb : holds b l) : a = b :=
  Option.some.inj ((h a l ha).symm.trans (h b l hb))

omit [DecidableEq Lock] [DecidableEq Agent] in
theorem Excludes.not_of_free (h : Excludes owner holds) (hfree : owner l = none) : ¬holds a l := by
  intro ha
  cases hfree.symm.trans (h a l ha)

/-- A step that follows its operation keeps every lock to one holder. -/
theorem Excludes.run {op : LockOp Lock} {owner' : Lock → Option Agent} {after : Lock → Prop}
    (h : Excludes owner holds) (hrun : op.run owner a = some owner')
    (hfollows : op.Follows (holds a) after) :
    Excludes owner' (Function.update holds a after) := by
  intro b m hb
  cases op with
  | keep =>
    obtain rfl := Option.some.inj hrun
    by_cases hba : b = a
    · subst hba
      exact h b m (hfollows m (by simpa using hb))
    · exact h b m (by simpa [hba] using hb)
  | within l =>
    obtain ⟨-, rfl⟩ : owner l = none ∧ owner = owner' := by simpa [LockOp.run] using hrun
    by_cases hba : b = a
    · subst hba
      exact h b m (hfollows m (by simpa using hb))
    · exact h b m (by simpa [hba] using hb)
  | acquire l =>
    obtain ⟨hfree, rfl⟩ : owner l = none ∧ Function.update owner l (some a) = owner' := by
      simpa [LockOp.run] using hrun
    by_cases hba : b = a
    · subst hba
      by_cases hml : m = l
      · simp [hml]
      · have hm := (hfollows m (by simpa using hb)).resolve_right hml
        simpa [hml] using h b m hm
    · have hm : holds b m := by simpa [hba] using hb
      have hml : m ≠ l := fun hml ↦ h.not_of_free hfree (hml ▸ hm)
      simpa [hml] using h b m hm
  | release l =>
    obtain rfl := Option.some.inj hrun
    obtain ⟨hl, hafter⟩ := hfollows
    by_cases hba : b = a
    · subst hba
      obtain ⟨hm, hml⟩ := hafter m (by simpa using hb)
      simpa [hml] using h b m hm
    · have hm : holds b m := by simpa [hba] using hb
      have hml : m ≠ l := by
        rintro rfl
        exact hba (h.eq hm hl)
      simpa [hml] using h b m hm

end EnhancedXv6.Ownership
