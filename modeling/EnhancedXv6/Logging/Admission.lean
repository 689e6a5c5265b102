import EnhancedXv6.Logging.Reservation

/-!
# Waiting for room in the log

Processes in `begin_op`, `log_write` and `end_op`, with `log.lock`, `sleep`, `wakeup` and the commit
that runs without the lock.  The code under the lock is one step up to `sleep`, `wakeup` or
`release`.  A process that finds no room releases the lock and is asleep only afterwards, holding its
own lock in between; `wakeup` visits the process table slot by slot and waits at the slot of such a
process.
-/

namespace EnhancedXv6.Logging

open Kernel Transition

inductive LogPc
  /-- outside of these functions; between `begin_op` and `end_op` if `inOp` -/
  | idle (inOp : Bool)
  /-- `begin_op` before `acquire` -/
  | entering
  /-- in the loop of `begin_op`, with `log.lock` -/
  | testing
  /-- in `sleep`, which has released `log.lock` and holds `p->lock` -/
  | dozing
  | asleep
  /-- runnable again, before `sleep` takes `log.lock` -/
  | woken
  /-- `log_write` before `acquire` -/
  | writing (inOp : Bool) (b : BlockNo)
  | recording (inOp : Bool) (b : BlockNo)
  /-- `end_op` before its first `acquire` -/
  | leaving
  | counting
  /-- in `commit`, with the rest of its instructions -/
  | committing (todo : List Instr)
  /-- `end_op` before its second `acquire` -/
  | finishing
  | closing
  /-- in `wakeup` at slot `k`, with `log.lock` -/
  | waking (k : ℕ)
  deriving DecidableEq

namespace LogPc

def inOp : LogPc → Bool
  | idle inOp | writing inOp _ | recording inOp _ => inOp
  | leaving | counting => true
  | _ => false

def commits : LogPc → Bool
  | committing _ | finishing | closing => true
  | _ => false

def locked : LogPc → Bool
  | testing | recording _ _ | counting | closing | waking _ => true
  | _ => false

def sleeps : LogPc → Bool
  | dozing | asleep => true
  | _ => false

end LogPc

structure LogState where
  log : Log
  lock : Option Slot
  pc : Slot → LogPc

inductive LogEvent
  | beginOp (p : Slot)
  | logWrite (p : Slot) (b : BlockNo)
  | endOp (p : Slot)
  /-- the process goes on in one of these functions -/
  | step (p : Slot)
  | kill (p : Slot)

namespace LogState

def goto (s : LogState) (p : Slot) (pc : LogPc) : LogState :=
  { s with pc := Function.update s.pc p pc }

@[simp] theorem goto_pc_self (s : LogState) (p : Slot) (pc : LogPc) : (s.goto p pc).pc p = pc :=
  Function.update_self ..

@[simp] theorem goto_pc_of_ne (s : LogState) {p q : Slot} (pc : LogPc) (h : q ≠ p) :
    (s.goto p pc).pc q = s.pc q :=
  Function.update_of_ne h ..

def acquire (s : LogState) (p : Slot) (pc : LogPc) : Option LogState :=
  if s.lock = none then some ({ s with lock := some p }.goto p pc) else none

def release (s : LogState) (p : Slot) (log : Log) (pc : LogPc) : LogState :=
  { s with lock := none, log := log }.goto p pc

/-- One round of the loop of `wakeup`, or the `release` after it. -/
def wake (s : LogState) (p : Slot) (k : ℕ) : Option LogState :=
  if h : k < NPROC then
    match s.pc ⟨k, h⟩ with
    | .dozing => none
    | .asleep => some ((s.goto ⟨k, h⟩ .woken).goto p (.waking (k + 1)))
    | _ => some (s.goto p (.waking (k + 1)))
  else some (s.release p s.log (.idle false))

def commitStep (s : LogState) (p : Slot) : List Instr → LogState
  | [] => s.goto p .finishing
  | .clear :: todo => { s with log := { s.log with lh := [] } }.goto p (.committing todo)
  | _ :: todo => s.goto p (.committing todo)

def step (s : LogState) (p : Slot) : Option LogState :=
  match s.pc p with
  | .idle _ | .asleep => none
  | .entering | .woken => s.acquire p .testing
  | .testing =>
    match beginOp s.log with
    | none => some (s.release p s.log .dozing)
    | some log => some (s.release p log (.idle true))
  | .dozing => some (s.goto p .asleep)
  | .writing inOp b => s.acquire p (.recording inOp b)
  | .recording inOp b =>
    match logWrite s.log b with
    | .ok r => some (s.release p r.2 (.idle inOp))
    | .error _ => none
  | .leaving => s.acquire p .counting
  | .counting =>
    match endOp s.log with
    | .ok (true, log) => some (s.release p log (.committing (commit log)))
    | .ok (false, log) => some ({ s with log := log }.goto p (.waking 0))
    | .error _ => none
  | .committing todo => some (s.commitStep p todo)
  | .finishing => s.acquire p .closing
  | .closing =>
    some ({ s with log := { s.log with committing := false } }.goto p (.waking 0))
  | .waking k => s.wake p k

end LogState

/-- Any processes that begin and end operations and log blocks, on a log at `start`. -/
def admission (start : BlockNo) (size : ℕ) : System LogState LogEvent where
  start := ⟨⟨start, size, 0, false, []⟩, none, fun _ ↦ .idle false⟩
  next s
    | .beginOp p => if s.pc p = .idle false then some (s.goto p .entering) else none
    | .logWrite p b =>
      match s.pc p with
      | .idle inOp => some (s.goto p (.writing inOp b))
      | _ => none
    | .endOp p => if s.pc p = .idle true then some (s.goto p .leaving) else none
    | .step p => s.step p
    | .kill p => if s.pc p = .asleep then some (s.goto p .woken) else none

/-! ## What holds in every state -/

/-- Someone will call `wakeup`: a commit or an operation is under way. -/
def Log.Busy (log : Log) : Prop := log.committing = true ∨ 0 < log.outstanding

/-- The fields of the log between two sections of code under its lock. -/
structure Log.Settled (log : Log) : Prop where
  quiet : log.committing = true → log.outstanding = 0
  distinct : log.lh.Nodup
  empty : log.committing = false → log.outstanding = 0 → log.lh = []

/-- A process that commits has the header still to clear, or it is empty. -/
def LogPc.Clears (pc : LogPc) (lh : List BlockNo) : Prop :=
  pc.commits = true → lh = [] ∨ ∃ todo, pc = .committing todo ∧ .clear ∈ todo

structure Admitted (s : LogState) : Prop where
  settled : s.log.Settled
  lock : ∀ p, (s.pc p).locked = true ↔ s.lock = some p
  outstanding : s.log.outstanding = ∑ p, (s.pc p).inOp.toNat
  committing : s.log.committing.toNat = ∑ p, (s.pc p).commits.toNat
  clears : ∀ p, (s.pc p).Clears s.log.lh
  /-- a sleeping process is still to be visited by a `wakeup` -/
  sleepers : ∀ p, (s.pc p).sleeps = true → s.log.Busy ∨ ∃ q k, s.pc q = .waking k ∧ k ≤ p.val
  /-- what `wakeup` has visited is awake -/
  awake : ∀ q k, s.pc q = .waking k → ∀ p : Slot, p.val < k → (s.pc p).sleeps = false

namespace Admitted

variable {s s' : LogState} {p q : Slot} {c : LogPc} {log : Log} {lock : Option Slot}

theorem commits_eq_false (h : Admitted s) (hc : s.log.committing = false) (p : Slot) :
    (s.pc p).commits = false := by
  have hsum := h.committing
  rw [hc, Bool.toNat_false, eq_comm, Finset.sum_eq_zero_iff] at hsum
  simpa using hsum p (Finset.mem_univ p)

theorem committing_of_commits (h : Admitted s) (hp : (s.pc p).commits = true) :
    s.log.committing = true := by
  by_contra hc
  rw [h.commits_eq_false (Bool.eq_false_of_not_eq_true hc)] at hp
  cases hp

theorem commits_unique (h : Admitted s) (hp : (s.pc p).commits = true) :
    ∀ q ≠ p, (s.pc q).commits = false := by
  intro q hq
  by_contra hcommits
  have hpair : ∑ r ∈ {p, q}, (s.pc r).commits.toNat = 2 := by
    rw [Finset.sum_pair hq.symm, hp, Bool.eq_true_of_not_eq_false hcommits]
    rfl
  have hle : ∑ r ∈ {p, q}, (s.pc r).commits.toNat ≤ ∑ r, (s.pc r).commits.toNat :=
    Finset.sum_le_sum_of_subset (Finset.subset_univ _)
  have hone := Bool.toNat_le s.log.committing
  have hsum := h.committing
  omega

theorem outstanding_pos (h : Admitted s) (hp : (s.pc p).inOp = true) : 0 < s.log.outstanding := by
  rw [h.outstanding]
  refine Finset.sum_pos' (fun _ _ ↦ Nat.zero_le _) ⟨p, Finset.mem_univ p, ?_⟩
  simp [hp]

theorem eq_of_locked (h : Admitted s) (hp : (s.pc p).locked = true) (hq : (s.pc q).locked = true) :
    q = p :=
  Option.some.inj (((h.lock q).mp hq).symm.trans ((h.lock p).mp hp))

/-! ### The lock after a step -/

theorem lock_acquire (h : Admitted s) (hfree : s.lock = none) (hc : c.locked = true) (q : Slot) :
    (Function.update s.pc p c q).locked = true ↔ some p = some q := by
  by_cases hqp : q = p
  · simp [hqp, hc]
  · have hq : (s.pc q).locked ≠ true := by
      rw [Ne, h.lock, hfree]
      simp
    rw [Function.update_of_ne hqp, Option.some.injEq]
    exact iff_of_false hq (Ne.symm hqp)

theorem lock_release (h : Admitted s) (hp : (s.pc p).locked = true) (hc : c.locked = false)
    (q : Slot) : (Function.update s.pc p c q).locked = true ↔ none = some q := by
  by_cases hqp : q = p
  · simp [hqp, hc]
  · rw [Function.update_of_ne hqp]
    exact iff_of_false (fun hq ↦ hqp (h.eq_of_locked hp hq)) (by simp)

theorem lock_same (h : Admitted s) (hc : c.locked = (s.pc p).locked) (q : Slot) :
    (Function.update s.pc p c q).locked = true ↔ s.lock = some q := by
  by_cases hqp : q = p
  · rw [hqp, Function.update_self, hc, h.lock]
  · rw [Function.update_of_ne hqp, h.lock]

/-! ### A process moves -/

/-- A step of a process that is not in `wakeup`. -/
theorem move (h : Admitted s) (hp : ∀ k, s.pc p ≠ .waking k) (hc : ∀ k, c = .waking k → k = 0)
    (hsettled : log.Settled)
    (hlock : ∀ q, (Function.update s.pc p c q).locked = true ↔ lock = some q)
    (hout : log.outstanding + (s.pc p).inOp.toNat = s.log.outstanding + c.inOp.toNat)
    (hcommit : log.committing.toNat + (s.pc p).commits.toNat =
      s.log.committing.toNat + c.commits.toNat)
    (hclears : c.Clears log.lh) (hlh : log.lh = s.log.lh ∨ ∀ q ≠ p, (s.pc q).commits = false)
    (hbusy : s.log.Busy → log.Busy ∨ c = .waking 0)
    (hsleeps : c.sleeps = true → log.Busy ∧ (s.pc p).locked = true ∨ (s.pc p).sleeps = true) :
    Admitted ⟨log, lock, Function.update s.pc p c⟩ := by
  have hsum := Arith.sum_update_add (fun pc ↦ pc.inOp.toNat) s.pc p c
  have hcommits := Arith.sum_update_add (fun pc ↦ pc.commits.toNat) s.pc p c
  have houtstanding := h.outstanding
  have hcommitting := h.committing
  refine ⟨hsettled, hlock, ?_, ?_, fun q ↦ ?_, fun q hq ↦ ?_, fun w k hw q hq ↦ ?_⟩
  · dsimp only at hsum ⊢
    omega
  · dsimp only at hcommits ⊢
    omega
  · dsimp only
    by_cases hqp : q = p
    · rw [hqp, Function.update_self]
      exact hclears
    · rw [Function.update_of_ne hqp]
      intro hq
      rcases hlh with hlh | hlh
      · rw [hlh]
        exact h.clears q hq
      · rw [hlh q hqp] at hq
        cases hq
  · dsimp only at hq ⊢
    -- who was still to be visited before the step is so after it
    have hstill : (s.log.Busy ∨ ∃ w k, s.pc w = .waking k ∧ k ≤ q.val) →
        log.Busy ∨ ∃ w k, Function.update s.pc p c w = .waking k ∧ k ≤ q.val := by
      rintro (hold | ⟨w, k, hw, hk⟩)
      · rcases hbusy hold with hnew | rfl
        · exact .inl hnew
        · exact .inr ⟨p, 0, Function.update_self .., Nat.zero_le _⟩
      · have hwp : w ≠ p := fun hwp ↦ hp k (hwp ▸ hw)
        exact .inr ⟨w, k, by rwa [Function.update_of_ne hwp], hk⟩
    by_cases hqp : q = p
    · rw [hqp, Function.update_self] at hq
      rcases hsleeps hq with ⟨hnew, -⟩ | hold
      · exact .inl hnew
      · exact hstill (h.sleepers q (hqp ▸ hold))
    · rw [Function.update_of_ne hqp] at hq
      exact hstill (h.sleepers q hq)
  · dsimp only at hw ⊢
    by_cases hwp : w = p
    · rw [hwp, Function.update_self] at hw
      rw [hc k hw] at hq
      omega
    · rw [Function.update_of_ne hwp] at hw
      have hqawake := h.awake w k hw q hq
      by_cases hqp : q = p
      · rw [hqp, Function.update_self, ← Bool.not_eq_true]
        intro hcs
        rcases hsleeps hcs with ⟨-, hlocked⟩ | hold
        · exact hwp (h.eq_of_locked hlocked (by rw [hw]; rfl))
        · rw [← hqp, hqawake] at hold
          cases hold
      · rwa [Function.update_of_ne hqp]

/-- A step that changes neither the log nor who holds its lock. -/
theorem goto (h : Admitted s) (hp : ∀ k, s.pc p ≠ .waking k) (hc : ∀ k, c ≠ .waking k)
    (hinOp : c.inOp = (s.pc p).inOp) (hcommits : c.commits = (s.pc p).commits)
    (hlocked : c.locked = (s.pc p).locked)
    (hsleeps : c.sleeps = true → (s.pc p).sleeps = true)
    (hclears : c.Clears s.log.lh) : Admitted (s.goto p c) :=
  h.move hp (fun k hk ↦ absurd hk (hc k)) h.settled (h.lock_same hlocked) (by rw [hinOp])
    (by rw [hcommits]) hclears (.inl rfl) .inl fun hcs ↦ .inr (hsleeps hcs)

theorem acquire (h : Admitted s) (hp : ∀ k, s.pc p ≠ .waking k) (hc : ∀ k, c ≠ .waking k)
    (hinOp : c.inOp = (s.pc p).inOp) (hcommits : c.commits = (s.pc p).commits)
    (hlocked : c.locked = true) (hsleeps : c.sleeps = false) (hclears : c.Clears s.log.lh)
    (hacquire : s.acquire p c = some s') : Admitted s' := by
  rw [LogState.acquire] at hacquire
  split_ifs at hacquire with hfree
  obtain rfl := Option.some.inj hacquire
  exact h.move hp (fun k hk ↦ absurd hk (hc k)) h.settled (h.lock_acquire hfree hlocked)
    (by rw [hinOp]) (by rw [hcommits]) hclears (.inl rfl) .inl
    fun hcs ↦ absurd (hsleeps.symm.trans hcs) (by decide)

/-! ### The steps -/

/-- `wakeup` or `kill` finds a process asleep. -/
theorem woken (h : Admitted s) (hq : s.pc q = .asleep) : Admitted (s.goto q .woken) := by
  apply h.goto
  all_goals simp [hq, LogPc.inOp.eq_def, LogPc.commits, LogPc.locked.eq_def, LogPc.sleeps, LogPc.Clears]

section Wakeup

variable {k : ℕ}

/-- The process in `wakeup` holds the lock, so it is the only one. -/
theorem eq_of_waking (h : Admitted s) (hp : s.pc p = .waking k) {w : Slot} {j : ℕ}
    (hw : s.pc w = .waking j) : w = p ∧ j = k := by
  have hwp : w = p := h.eq_of_locked (by rw [hp]; rfl) (by rw [hw]; rfl)
  rw [hwp, hp, LogPc.waking.injEq] at hw
  exact ⟨hwp, hw.symm⟩

theorem sum_of_eq {g : LogPc → ℕ} (hg : g c = g (s.pc p)) :
    ∑ r, g (s.pc r) = ∑ r, g (Function.update s.pc p c r) := by
  have hsum := Arith.sum_update_add g s.pc p c
  rw [hg] at hsum
  exact (Nat.add_right_cancel hsum).symm

/-- `wakeup` has found slot `k` awake. -/
theorem wakeNext (h : Admitted s) (hp : s.pc p = .waking k)
    (hk : ∀ q : Slot, q.val = k → (s.pc q).sleeps = false) :
    Admitted (s.goto p (.waking (k + 1))) := by
  have hsum := sum_of_eq (s := s) (p := p) (c := .waking (k + 1)) (g := fun pc ↦ pc.inOp.toNat)
    (by rw [hp]; rfl)
  have hcommits := sum_of_eq (s := s) (p := p) (c := .waking (k + 1))
    (g := fun pc ↦ pc.commits.toNat) (by rw [hp]; rfl)
  have hsleeps : ∀ r, (Function.update s.pc p (.waking (k + 1)) r).sleeps = (s.pc r).sleeps := by
    intro r
    by_cases hrp : r = p
    · rw [hrp, Function.update_self, hp]
      rfl
    · rw [Function.update_of_ne hrp]
  refine ⟨h.settled, h.lock_same (by rw [hp]; rfl), h.outstanding.trans hsum,
    h.committing.trans hcommits, fun r ↦ ?_, fun r hr ↦ ?_, fun w j hw r hr ↦ ?_⟩
  · by_cases hrp : r = p
    · intro hr
      simp [LogState.goto, hrp, LogPc.commits] at hr
    · simpa [LogState.goto, hrp] using h.clears r
  · rw [LogState.goto, hsleeps] at hr
    rcases h.sleepers r hr with hbusy | ⟨w, j, hw, hj⟩
    · exact .inl hbusy
    · obtain ⟨-, rfl⟩ := h.eq_of_waking hp hw
      have hne : r.val ≠ j := by
        intro hrj
        rw [hk r hrj] at hr
        cases hr
      exact .inr ⟨p, j + 1, Function.update_self .., by omega⟩
  · rw [LogState.goto, hsleeps]
    by_cases hwp : w = p
    · rw [hwp, LogState.goto_pc_self, LogPc.waking.injEq] at hw
      rcases Nat.lt_succ_iff_lt_or_eq.mp (hw ▸ hr) with hlt | heq
      · exact h.awake p k hp r hlt
      · exact hk r heq
    · rw [LogState.goto_pc_of_ne _ _ hwp] at hw
      exact absurd (h.eq_of_waking hp hw).1 hwp

/-- `wakeup` has visited all slots, and `end_op` returns. -/
theorem wakeEnd (h : Admitted s) (hp : s.pc p = .waking k) (hk : NPROC ≤ k) :
    Admitted (s.release p s.log (.idle false)) := by
  have hsum := sum_of_eq (s := s) (p := p) (c := .idle false) (g := fun pc ↦ pc.inOp.toNat)
    (by rw [hp]; rfl)
  have hcommits := sum_of_eq (s := s) (p := p) (c := .idle false)
    (g := fun pc ↦ pc.commits.toNat) (by rw [hp]; rfl)
  have hawake : ∀ r, (s.pc r).sleeps = false := fun r ↦ h.awake p k hp r (by omega)
  refine ⟨h.settled, h.lock_release (by rw [hp]; rfl) rfl, h.outstanding.trans hsum,
    h.committing.trans hcommits, fun r ↦ ?_, fun r hr ↦ ?_, fun w j hw r _ ↦ ?_⟩
  · by_cases hrp : r = p
    · intro hr
      simp [LogState.release, LogState.goto, hrp, LogPc.commits] at hr
    · simpa [LogState.release, LogState.goto, hrp] using h.clears r
  · by_cases hrp : r = p
    · simp [LogState.release, LogState.goto, hrp, LogPc.sleeps] at hr
    · simp [LogState.release, LogState.goto, hrp, hawake r] at hr
  · by_cases hrp : r = p
    · simp [LogState.release, LogState.goto, hrp, LogPc.sleeps]
    · simp [LogState.release, LogState.goto, hrp, hawake r]

theorem wake (h : Admitted s) (hp : s.pc p = .waking k) (hwake : s.wake p k = some s') :
    Admitted s' := by
  rw [LogState.wake] at hwake
  split_ifs at hwake with hk
  · by_cases hasleep : s.pc ⟨k, hk⟩ = .asleep
    · rw [hasleep] at hwake
      obtain rfl := Option.some.inj hwake
      have hne : p ≠ ⟨k, hk⟩ := by
        rintro rfl
        rw [hp] at hasleep
        cases hasleep
      refine (h.woken hasleep).wakeNext (by rw [LogState.goto_pc_of_ne _ _ hne, hp]) fun q hq ↦ ?_
      obtain rfl : q = ⟨k, hk⟩ := Fin.ext hq
      rw [LogState.goto_pc_self]
      rfl
    · have hnext : (s.pc ⟨k, hk⟩).sleeps = false ∧ s' = s.goto p (.waking (k + 1)) := by
        revert hwake hasleep
        cases s.pc ⟨k, hk⟩
        all_goals simp [LogPc.sleeps, eq_comm]
      rw [hnext.2]
      refine h.wakeNext hp ?_
      rintro q rfl
      exact hnext.1
  · obtain rfl := Option.some.inj hwake
    exact h.wakeEnd hp (not_lt.mp hk)

end Wakeup

/-- `begin_op` tests whether there is room. -/
theorem testing (h : Admitted s) (hp : s.pc p = .testing) (hstep : s.step p = some s') :
    Admitted s' := by
  have hlocked : (s.pc p).locked = true := by rw [hp]; rfl
  have hwaking : ∀ k, s.pc p ≠ .waking k := by simp [hp]
  rw [LogState.step, hp] at hstep
  dsimp only at hstep
  cases hbegin : beginOp s.log with
  | none =>
    rw [hbegin] at hstep
    obtain rfl := Option.some.inj hstep
    -- with nothing under way the log is empty, and there is room
    have hbusy : s.log.Busy := by
      by_contra hidle
      rw [Log.Busy, not_or, Bool.not_eq_true, not_lt, Nat.le_zero] at hidle
      rw [beginOp, hidle.1, hidle.2, h.settled.empty hidle.1 hidle.2, if_neg (by decide),
        if_neg (by decide)] at hbegin
      cases hbegin
    exact h.move hwaking (by simp) h.settled (h.lock_release hlocked rfl)
      (by rw [hp]; rfl) (by rw [hp]; rfl) (by simp [LogPc.Clears, LogPc.commits]) (.inl rfl) .inl
      fun _ ↦ .inl ⟨hbusy, hlocked⟩
  | some log =>
    rw [hbegin] at hstep
    obtain rfl := Option.some.inj hstep
    rw [beginOp] at hbegin
    split_ifs at hbegin with hcommitting hfull
    obtain rfl := Option.some.inj hbegin
    refine h.move hwaking (by simp) ⟨fun hc ↦ absurd hc hcommitting, h.settled.distinct, ?_⟩
      (h.lock_release hlocked rfl) ?_ ?_ (by simp [LogPc.Clears, LogPc.commits]) (.inl rfl) ?_
      (by simp [LogPc.sleeps])
    · intro _ hzero
      exact absurd hzero (Nat.succ_ne_zero _)
    · rw [hp]
      rfl
    · rw [hp]
      rfl
    · exact fun _ ↦ .inl (.inr (Nat.succ_pos _))

/-- `log_write` under the lock. -/
theorem recording {o : Bool} {b : BlockNo} (h : Admitted s) (hp : s.pc p = .recording o b)
    (hstep : s.step p = some s') : Admitted s' := by
  have hlocked : (s.pc p).locked = true := by rw [hp]; rfl
  have hwaking : ∀ k, s.pc p ≠ .waking k := by simp [hp]
  rw [LogState.step, hp] at hstep
  dsimp only at hstep
  cases hwrite : logWrite s.log b with
  | error e => simp [hwrite] at hstep
  | ok r =>
    rw [hwrite] at hstep
    obtain rfl := Option.some.inj hstep
    rw [logWrite] at hwrite
    split_ifs at hwrite with hfull hout hmem
    · obtain rfl := Except.ok.inj hwrite
      exact h.move hwaking (by simp) h.settled (h.lock_release hlocked rfl)
        (by rw [hp]; rfl) (by rw [hp]; rfl) (by simp [LogPc.Clears, LogPc.commits]) (.inl rfl)
        .inl (by simp [LogPc.sleeps])
    · obtain rfl := Except.ok.inj hwrite
      have hcommitting : s.log.committing = false := by
        by_contra hc
        exact hout (by rw [h.settled.quiet (Bool.eq_true_of_not_eq_false hc)]; decide)
      refine h.move hwaking (by simp) ⟨h.settled.quiet, ?_, fun _ hzero ↦ ?_⟩
        (h.lock_release hlocked rfl) (by rw [hp]; rfl) (by rw [hp]; rfl)
        (by simp [LogPc.Clears, LogPc.commits]) (.inr fun q _ ↦ h.commits_eq_false hcommitting q)
        .inl (by simp [LogPc.sleeps])
      · exact List.nodup_append.mpr ⟨h.settled.distinct, List.nodup_singleton b, by
          intro c hc d hd
          rw [List.mem_singleton.mp hd]
          exact fun hcb ↦ hmem (hcb ▸ hc)⟩
      · exact absurd hzero (by dsimp only; omega)

/-- The first section of `end_op`. -/
theorem counting (h : Admitted s) (hp : s.pc p = .counting) (hstep : s.step p = some s') :
    Admitted s' := by
  have hlocked : (s.pc p).locked = true := by rw [hp]; rfl
  have hwaking : ∀ k, s.pc p ≠ .waking k := by simp [hp]
  have hpos := h.outstanding_pos (p := p) (by rw [hp]; rfl)
  rw [LogState.step, hp, endOp] at hstep
  dsimp only at hstep
  split_ifs at hstep with hcommitting hlast
  · obtain rfl := Option.some.inj hstep
    rw [Bool.not_eq_true] at hcommitting
    refine h.move hwaking (by simp) ⟨fun _ ↦ hlast, h.settled.distinct, by simp⟩
      (h.lock_release hlocked rfl) ?_ ?_ ?_ (.inl rfl) (fun _ ↦ .inl (.inl rfl))
      (by simp [LogPc.sleeps])
    · rw [hp]
      simp only [LogPc.inOp.eq_def, Bool.toNat_true, Bool.toNat_false]
      omega
    · rw [hp, hcommitting]
      rfl
    · intro _
      rcases clear_mem_commit { s.log with outstanding := s.log.outstanding - 1, committing := true }
        with hclear | hnil
      · exact .inr ⟨_, rfl, hclear⟩
      · exact .inl hnil
  · obtain rfl := Option.some.inj hstep
    refine h.move hwaking (by simp) ⟨fun hc ↦ absurd hc hcommitting, h.settled.distinct,
        fun _ hzero ↦ absurd hzero hlast⟩
      (h.lock_same (by rw [hp]; rfl)) ?_ (by rw [hp]; rfl) (by simp [LogPc.Clears, LogPc.commits])
      (.inl rfl) (fun _ ↦ .inr rfl) (by simp [LogPc.sleeps])
    rw [hp]
    simp only [LogPc.inOp.eq_def, Bool.toNat_true, Bool.toNat_false]
    omega

theorem commitStep {todo : List Instr} (h : Admitted s) (hp : s.pc p = .committing todo) :
    Admitted (s.commitStep p todo) := by
  have hwaking : ∀ k, s.pc p ≠ .waking k := by simp [hp]
  have hcommits : (s.pc p).commits = true := by rw [hp]; rfl
  have hlh : s.log.lh = [] ∨ .clear ∈ todo := by
    rcases h.clears p hcommits with hnil | ⟨todo', hpc, hclear⟩
    · exact .inl hnil
    · rw [hp, LogPc.committing.injEq] at hpc
      exact .inr (hpc ▸ hclear)
  have hgoto : ∀ c : LogPc, c.Clears s.log.lh → c = .finishing ∨ (∃ rest, c = .committing rest) →
      Admitted (s.goto p c) := by
    rintro c hclears (rfl | ⟨rest, rfl⟩)
    all_goals
      apply h.goto hwaking
      all_goals simp [hp, LogPc.inOp.eq_def, LogPc.commits, LogPc.locked.eq_def, LogPc.sleeps, hclears]
  have hrest : ∀ instr rest, todo = instr :: rest → instr ≠ .clear →
      Admitted (s.goto p (.committing rest)) := by
    rintro instr rest rfl hinstr
    refine hgoto _ (fun _ ↦ ?_) (.inr ⟨rest, rfl⟩)
    rcases hlh with hnil | hclear
    · exact .inl hnil
    · exact .inr ⟨rest, rfl, (List.mem_cons.mp hclear).resolve_left (Ne.symm hinstr)⟩
  unfold LogState.commitStep
  split
  · exact hgoto _ (fun _ ↦ .inl (hlh.resolve_right (by simp))) (.inl rfl)
  · -- `log.lh.n = 0`
    refine h.move hwaking (by simp) ⟨h.settled.quiet, List.nodup_nil, fun _ _ ↦ rfl⟩
      (h.lock_same (by rw [hp]; rfl)) (by rw [hp]; rfl) (by rw [hp]; rfl) (fun _ ↦ .inl rfl)
      (.inr (h.commits_unique hcommits)) .inl (by simp [LogPc.sleeps])
  · exact hrest _ _ rfl ‹_›

/-- The second section of `end_op`. -/
theorem closing (h : Admitted s) (hp : s.pc p = .closing) :
    Admitted ({ s with log := { s.log with committing := false } }.goto p (.waking 0)) := by
  have hcommits : (s.pc p).commits = true := by rw [hp]; rfl
  have hcommitting := h.committing_of_commits hcommits
  have hlh : s.log.lh = [] := by
    rcases h.clears p hcommits with hnil | ⟨todo, hpc, -⟩
    · exact hnil
    · rw [hp] at hpc
      cases hpc
  refine h.move (by simp [hp]) (by simp) ⟨by simp, h.settled.distinct, fun _ _ ↦ hlh⟩
    (h.lock_same (by rw [hp]; rfl)) (by rw [hp]; rfl) (by rw [hp, hcommitting]; rfl)
    (by simp [LogPc.Clears, LogPc.commits]) (.inl rfl) (fun _ ↦ .inr rfl) (by simp [LogPc.sleeps])

theorem step (h : Admitted s) (hstep : s.step p = some s') : Admitted s' := by
  have hacquire : ∀ c, s.acquire p c = some s' → (∀ k, s.pc p ≠ .waking k) →
      (∀ k, c ≠ .waking k) → c.inOp = (s.pc p).inOp → c.commits = (s.pc p).commits →
      c.locked = true → c.sleeps = false → c.Clears s.log.lh → Admitted s' :=
    fun c hs hp hc hin hcom hl hsl hcl ↦ h.acquire hp hc hin hcom hl hsl hcl hs
  cases hp : s.pc p with
  | idle o => simp [LogState.step, hp] at hstep
  | asleep => simp [LogState.step, hp] at hstep
  | testing => exact h.testing hp hstep
  | recording o b => exact h.recording hp hstep
  | counting => exact h.counting hp hstep
  | waking k =>
    rw [LogState.step, hp] at hstep
    exact h.wake hp hstep
  | committing todo =>
    rw [LogState.step, hp] at hstep
    obtain rfl := Option.some.inj hstep
    exact h.commitStep hp
  | closing =>
    rw [LogState.step, hp] at hstep
    obtain rfl := Option.some.inj hstep
    exact h.closing hp
  | dozing =>
    rw [LogState.step, hp] at hstep
    obtain rfl := Option.some.inj hstep
    apply h.goto
    all_goals simp [hp, LogPc.inOp.eq_def, LogPc.commits, LogPc.locked.eq_def, LogPc.sleeps, LogPc.Clears]
  | finishing =>
    rw [LogState.step, hp] at hstep
    refine hacquire _ hstep ?_ ?_ ?_ ?_ rfl rfl fun _ ↦ ?_
    · simp [hp]
    · simp
    · rw [hp]; rfl
    · rw [hp]; rfl
    · refine (h.clears p (by rw [hp]; rfl)).imp_right ?_
      rintro ⟨todo, hpc, -⟩
      rw [hp] at hpc
      cases hpc
  | entering | woken | writing o b | leaving =>
    rw [LogState.step, hp] at hstep
    apply hacquire _ hstep
    all_goals simp [hp, LogPc.inOp.eq_def, LogPc.commits, LogPc.locked.eq_def, LogPc.sleeps, LogPc.Clears]

theorem next {start : BlockNo} {size : ℕ} {e : LogEvent} (h : Admitted s)
    (hnext : (admission start size).next s e = some s') : Admitted s' := by
  cases e with
  | step p => exact h.step hnext
  | kill p =>
    simp only [admission] at hnext
    split_ifs at hnext with hp
    obtain rfl := Option.some.inj hnext
    exact h.woken hp
  | logWrite p b =>
    simp only [admission] at hnext
    cases hp : s.pc p
    all_goals simp only [hp, reduceCtorEq, Option.some.injEq] at hnext
    subst hnext
    apply h.goto
    all_goals simp [hp, LogPc.inOp.eq_def, LogPc.commits, LogPc.locked.eq_def, LogPc.sleeps, LogPc.Clears]
  | beginOp p | endOp p =>
    simp only [admission] at hnext
    split_ifs at hnext with hp
    obtain rfl := Option.some.inj hnext
    apply h.goto
    all_goals simp [hp, LogPc.inOp.eq_def, LogPc.commits, LogPc.locked.eq_def, LogPc.sleeps, LogPc.Clears]

end Admitted

theorem admitted_start (start : BlockNo) (size : ℕ) : Admitted (admission start size).start := by
  refine ⟨⟨by simp [admission], List.nodup_nil, fun _ _ ↦ rfl⟩, ?_, ?_, ?_, ?_, ?_, ?_⟩
  all_goals simp [admission, LogPc.inOp.eq_def, LogPc.commits, LogPc.locked.eq_def, LogPc.sleeps,
    LogPc.Clears]

theorem admitted_of_reachable {start : BlockNo} {size : ℕ} {s : LogState}
    (hs : (admission start size).Reachable (fun _ _ ↦ True) s) : Admitted s :=
  hs.invariant Admitted (admitted_start start size) fun _ _ _ h _ hnext ↦ h.next hnext

/-- In every run: during a commit no operation is under way, no block is logged twice, without operation
or commit the log is empty, and whoever sleeps in `begin_op` sleeps through an operation or a commit of
another process, at the end of which nobody is left asleep. -/
theorem admission_strands_nobody {start : BlockNo} {size : ℕ} {s : LogState}
    (hs : (admission start size).Reachable (fun _ _ ↦ True) s) :
    (s.log.committing = true → s.log.outstanding = 0 ∧
      ∀ p o b, s.pc p = .recording o b → s.step p = none) ∧
    s.log.lh.Nodup ∧
    (s.log.committing = false → s.log.outstanding = 0 → s.log.lh = []) ∧
    (s.lock = none → ∀ p, s.pc p = .asleep →
      (s.log.committing = true ∨ 1 ≤ s.log.outstanding) ∧
      ∃ q, (s.pc q).commits = true ∨ (s.pc q).inOp = true) ∧
    ∀ q, s.pc q = .waking NPROC → ∀ p, s.pc p ≠ .asleep := by
  have h := admitted_of_reachable hs
  refine ⟨fun hc ↦ ⟨h.settled.quiet hc, fun p o b hp ↦ ?_⟩, h.settled.distinct, h.settled.empty,
    fun hfree p hp ↦ ?_, fun q hq p hp ↦ ?_⟩
  · have hout := h.settled.quiet hc
    rw [LogState.step, hp]
    dsimp only
    rw [logWrite, hout]
    split_ifs <;> simp_all
  · have hbusy : s.log.Busy := by
      rcases h.sleepers p (by rw [hp]; rfl) with hbusy | ⟨q, k, hq, -⟩
      · exact hbusy
      · have hlock := (h.lock q).mp (by rw [hq]; rfl)
        rw [hfree] at hlock
        cases hlock
    refine ⟨hbusy, ?_⟩
    by_contra hnone
    push Not at hnone
    simp only [ne_eq, Bool.not_eq_true] at hnone
    rcases hbusy with hc | hout
    · have hsum := h.committing
      simp [hc, hnone] at hsum
    · have hsum := h.outstanding
      simp only [hnone, Bool.toNat_false, Finset.sum_const_zero] at hsum
      omega
  · have hawake := h.awake q NPROC hq p p.isLt
    rw [hp] at hawake
    cases hawake

/-- Three operations fill the log; a fourth process sleeps. -/
def fourthSleeps : List LogEvent :=
  [LogEvent.beginOp 0, .step 0, .step 0, .beginOp 1, .step 1, .step 1, .beginOp 2, .step 2, .step 2,
    .beginOp 3, .step 3, .step 3, .step 3]

theorem admission_strands_nobody_fourth :
    ∃ s, (admission 2 30).Reachable (fun _ _ ↦ True) s ∧ s.lock = none ∧ s.pc 3 = .asleep ∧
      ∃ q, (s.pc q).commits = true ∨ (s.pc q).inOp = true := by
  obtain ⟨s, hs, hlock, hpc⟩ := (admission 2 30).exists_reachable (fun _ _ ↦ True)
    (fun s ↦ s.lock = none ∧ s.pc 3 = .asleep) fourthSleeps (by decide +kernel)
  exact ⟨s, hs, hlock, hpc, ((admission_strands_nobody hs).2.2.2.1 hlock 3 hpc).2⟩

end EnhancedXv6.Logging
