import EnhancedXv6.Kernel.State
import EnhancedXv6.Spinlock.Model
import EnhancedXv6.Transition.System

/-!
# Interrupt nesting across context switches

`noff` and `intena` belong to a hart, the nesting of `push_off` and `pop_off` to a kernel thread, and a
thread may be switched out in the middle of it and go on elsewhere.  A hart runs the scheduler of the
DEFAULT build or the kernel thread of a process; the thread may turn interrupts on and off outside any
nesting, take and release any locks in any order, change the states of other processes under their
locks, and call `sched` from `yield`, `sleep` or `exit`.  A call of `panic` stops the machine.

The history variables `pushes` and `outer` count the unmatched calls of `push_off` of every thread and
keep whether interrupts were enabled at the outermost of them.
-/

namespace EnhancedXv6.Spinlock

open Kernel Transition

/-! ## The machine -/

/-- The locks: `p->lock` for every process, and all others. -/
inductive LockName (P L : Type)
  | proc (p : P)
  | other (l : L)
  deriving DecidableEq

/-- Where a process goes on when it is switched to: at the start of `forkret`, or in `sched` with
its local variable `intena`. -/
inductive Context
  | forkret
  | sched (intena : Bool)

inductive Code (P L : Type)
  /-- the scheduler, holding no lock -/
  | loop
  /-- the scheduler in `acquire(&p->lock)` -/
  | spin (p : P)
  /-- the scheduler, before its test of `p->state` -/
  | test (p : P)
  /-- the scheduler after the process switched back, before `release(&p->lock)` -/
  | back (p : P)
  /-- the process, right after it was switched to -/
  | enter (p : P)
  | run (p : P)
  /-- the process in the loop of `acquire` -/
  | acquiring (p : P) (l : LockName P L)
  deriving DecidableEq

namespace Code

variable {H P L : Type}

def process : Code P L → Option P
  | .loop | .spin _ | .test _ | .back _ => none
  | .enter p | .run p | .acquiring p _ => some p

/-- The thread that runs on hart `h`: the kernel thread of a process or the scheduler of the
hart. -/
def thread (h : H) (k : Code P L) : P ⊕ H :=
  k.process.elim (.inr h) .inl

theorem thread_eq_inl {k : Code P L} {p : P} {h : H} : k.thread h = .inl p ↔ k.process = some p := by
  cases hk : k.process <;> simp [thread, hk]

theorem thread_eq_inr {k : Code P L} {h h' : H} :
    k.thread h = .inr h' ↔ k.process = none ∧ h = h' := by
  cases hk : k.process <;> simp [thread, hk]

/-- The calls of `push_off` that the scheduler has made and not matched: that of `p->lock`, while it
holds the lock, waits for it, or has switched to the process. -/
def schedulerPushes : Code P L → ℕ
  | .loop => 0
  | _ => 1

theorem schedulerPushes_of_process {k : Code P L} {p : P} (hk : k.process = some p) :
    k.schedulerPushes = 1 := by
  cases k <;> first | rfl | cases hk

end Code

structure Machine (H P L : Type) where
  cpu : H → Cpu
  lock : LockName P L → Lock H
  state : P → Procstate
  context : P → Context
  code : H → Code P L
  /-- history: the unmatched calls of `push_off` of every thread -/
  pushes : P ⊕ H → ℕ
  /-- history: whether interrupts were enabled at the outermost of them -/
  outer : P → Option Bool

variable {H P L : Type}

namespace Machine

def thread (m : Machine H P L) (h : H) : P ⊕ H :=
  (m.code h).thread h

variable [DecidableEq H] [DecidableEq P] [DecidableEq L]

/-- Hart `h` goes on with the code `k`, the registers `c` and `n` unmatched calls of `push_off` of
the thread that runs on it. -/
def go (m : Machine H P L) (h : H) (k : Code P L) (c : Cpu) (n : ℕ) : Machine H P L :=
  { m with
    cpu := Function.update m.cpu h c
    code := Function.update m.code h k
    pushes := Function.update m.pushes (m.thread h) n }

def setLock (m : Machine H P L) (l : LockName P L) (lk : Lock H) : Machine H P L :=
  { m with lock := Function.update m.lock l lk }

def setState (m : Machine H P L) (p : P) (state : Procstate) : Machine H P L :=
  { m with state := Function.update m.state p state }

/-- The history of `push_off` on hart `h`: whether interrupts were enabled, if it is the outermost
call of the thread of a process. -/
def recordOuter (m : Machine H P L) (h : H) : Machine H P L :=
  match (m.code h).process with
  | none => m
  | some p =>
    if m.pushes (.inl p) = 0 then
      { m with outer := Function.update m.outer p (some (m.cpu h).sie) }
    else m

def push (m : Machine H P L) (h : H) (k : Code P L) : Machine H P L :=
  (m.recordOuter h).go h k (pushOff (m.cpu h)) (m.pushes (m.thread h) + 1)

def pop (m : Machine H P L) (h : H) (k : Code P L) : Option (Machine H P L) :=
  match popOff (m.cpu h) with
  | .ok c => some (m.go h k c (m.pushes (m.thread h) - 1))
  | .error _ => none

def acquire (m : Machine H P L) (h : H) (l : LockName P L) (k : Code P L) :
    Option (Machine H P L) :=
  match beginAcquire (m.lock l) h (m.cpu h) with
  | .ok _ => some (m.push h k)
  | .error _ => none

def take (m : Machine H P L) (h : H) (l : LockName P L) (k : Code P L) : Option (Machine H P L) :=
  (Spinlock.take (m.lock l) h).map fun lk ↦
    (m.setLock l lk).go h k (m.cpu h) (m.pushes (m.thread h))

def release (m : Machine H P L) (h : H) (l : LockName P L) (k : Code P L) :
    Option (Machine H P L) :=
  match Spinlock.release (m.lock l) h (m.cpu h) with
  | .ok (lk, c) => some ((m.setLock l lk).go h k c (m.pushes (m.thread h) - 1))
  | .error _ => none

end Machine

inductive Change
  /-- `wakeup` and `kill` -/
  | wake
  /-- the end of `fork` -/
  | publish
  /-- `allocproc`, which makes the process start in `forkret` -/
  | alloc
  /-- `freeproc` -/
  | free

inductive Event (P L : Type)
  /-- interrupts are turned on or off by the code or by a trap -/
  | intr (on : Bool)
  | push
  | pop
  | acquire (l : LockName P L)
  | release (l : LockName P L)
  /-- the loop of `acquire` ends -/
  | take
  /-- `sched()`, from `yield`, `sleep` or `exit` -/
  | sched (state : Procstate)
  | change (q : P) (c : Change)
  /-- the scheduler calls `acquire(&p->lock)` -/
  | poll (p : P)
  /-- the scheduler tests `p->state` -/
  | test
  /-- the process goes on after it was switched to -/
  | enter
  /-- the scheduler releases the lock of the process that switched back -/
  | back

variable [DecidableEq H] [DecidableEq P] [DecidableEq L]

def Change.target : Change → Procstate → Option Procstate
  | .wake, .sleeping => some .runnable
  | .publish, .used => some .runnable
  | .alloc, .unused => some .used
  | .free, .zombie | .free, .used => some .unused
  | _, _ => none

def Machine.change (m : Machine H P L) (q : P) (c : Change) : Option (Machine H P L) :=
  (c.target (m.state q)).map fun state ↦
    match c with
    | .alloc =>
      { m.setState q state with
        context := Function.update m.context q .forkret
        pushes := Function.update m.pushes (.inl q) 1
        outer := Function.update m.outer q none }
    | _ => m.setState q state

def nestingNext (m : Machine H P L) : H × Event P L → Option (Machine H P L)
  | (h, .intr on) =>
    match m.code h with
    | .loop | .run _ =>
      if (m.cpu h).noff = 0 then
        some (m.go h (m.code h) { m.cpu h with sie := on } (m.pushes (m.thread h)))
      else none
    | _ => none
  | (h, .push) =>
    match m.code h with
    | .run p => some (m.push h (.run p))
    | _ => none
  | (h, .pop) =>
    match m.code h with
    | .run p => m.pop h (.run p)
    | _ => none
  | (h, .acquire l) =>
    match m.code h with
    | .run p => m.acquire h l (.acquiring p l)
    | _ => none
  | (h, .release l) =>
    match m.code h with
    | .run p => m.release h l (.run p)
    | _ => none
  | (h, .take) =>
    match m.code h with
    | .spin p => m.take h (.proc p) (.test p)
    | .acquiring p l => m.take h l (.run p)
    | _ => none
  | (h, .sched state) =>
    match m.code h with
    | .run p =>
      if holding (m.lock (.proc p)) h = true ∧ (m.cpu h).noff = 1 ∧ state ≠ .running ∧
          (m.cpu h).sie = false then
        some { m.setState p state with
          context := Function.update m.context p (.sched (m.cpu h).intena)
          code := Function.update m.code h (.back p) }
      else none
    | _ => none
  | (h, .change q c) =>
    match m.code h with
    | .run _ => if holding (m.lock (.proc q)) h = true then m.change q c else none
    | _ => none
  | (h, .poll p) =>
    match m.code h with
    | .loop => m.acquire h (.proc p) (.spin p)
    | _ => none
  | (h, .test) =>
    match m.code h with
    | .test p =>
      if m.state p = .runnable then
        some { m.setState p .running with code := Function.update m.code h (.enter p) }
      else m.release h (.proc p) .loop
    | _ => none
  | (h, .enter) =>
    match m.code h with
    | .enter p =>
      match m.context p with
      | .forkret => some (m.go h (.run p) (m.cpu h) (m.pushes (m.thread h)))
      | .sched intena =>
        some (m.go h (.run p) { m.cpu h with intena := intena } (m.pushes (m.thread h)))
    | _ => none
  | (h, .back) =>
    match m.code h with
    | .back p => m.release h (.proc p) .loop
    | _ => none

/-- The machine after boot: the processes of `ready` are `RUNNABLE`.  A process starts in `forkret` with
the unmatched `push_off` that the scheduler made for its lock. -/
def nesting (H P L : Type) [DecidableEq H] [DecidableEq P] [DecidableEq L] (ready : P → Bool) :
    System (Machine H P L) (H × Event P L) where
  start :=
    { cpu := fun _ ↦ ⟨0, false, false⟩
      lock := fun _ ↦ {}
      state := fun p ↦ if ready p then .runnable else .unused
      context := fun _ ↦ .forkret
      code := fun _ ↦ .loop
      pushes := fun t ↦ if t.isLeft then 1 else 0
      outer := fun _ ↦ none }
  next := nestingNext

/-! ## The invariant -/

/-- What a process that is switched out has kept: its one unmatched call of `push_off`, for its own
lock, and what `intena` was at its hart. -/
structure Saved (m : Machine H P L) (p : P) : Prop where
  pushes : m.pushes (.inl p) = 1
  forkret : m.context p = .forkret → m.outer p = none
  sched : ∀ intena on, m.context p = .sched intena → m.outer p = some on → intena = on

structure NestingInv (m : Machine H P L) : Prop where
  noff : ∀ h, (m.cpu h).noff = m.pushes (m.thread h)
  off : ∀ h, 0 < (m.cpu h).noff → (m.cpu h).sie = false
  scheduler : ∀ h, m.pushes (.inr h) = (m.code h).schedulerPushes
  running : ∀ h p, (m.code h).process = some p → m.state p = .running
  unique : ∀ h h' p, (m.code h).process = some p → (m.code h').process = some p → h = h'
  away : ∀ p, m.state p ≠ .running → Saved m p
  entering : ∀ h p, m.code h = .enter p → Saved m p
  /-- inside a nesting, `intena` of the hart is that of the outermost `push_off` -/
  inside : ∀ h p on, (m.code h).process = some p → m.code h ≠ .enter p →
    0 < m.pushes (.inl p) → m.outer p = some on → (m.cpu h).intena = on

variable {m m' : Machine H P L} {h : H} {p : P} {k : Code P L} {c : Cpu} {n : ℕ}

omit [DecidableEq H] [DecidableEq P] [DecidableEq L] in
theorem NestingInv.thread_inj (hm : NestingInv m) {h' : H} (heq : m.thread h = m.thread h') :
    h = h' := by
  cases hp : (m.code h).process with
  | none =>
    have hthread : m.thread h' = .inr h := heq ▸ Code.thread_eq_inr.mpr ⟨hp, rfl⟩
    exact (Code.thread_eq_inr.mp hthread).2.symm
  | some p =>
    have hthread : m.thread h' = .inl p := heq ▸ Code.thread_eq_inl.mpr hp
    exact hm.unique h h' p hp (Code.thread_eq_inl.mp hthread)

/-! ## Steps of one thread -/

/-- Codes of a thread that is not about to go on after a switch. -/
def Code.Settled (k : Code P L) : Prop :=
  ∀ p, k ≠ .enter p

omit [DecidableEq L] in
theorem Machine.go_pushes_of_ne {t : P ⊕ H} (ht : t ≠ m.thread h) :
    (m.go h k c n).pushes t = m.pushes t :=
  Function.update_of_ne ht _ _

omit [DecidableEq L] in
/-- The unmatched calls of a process that does not run on the hart stay as they are. -/
theorem Machine.go_pushes_inl (hp : (m.code h).process ≠ some p) :
    (m.go h k c n).pushes (.inl p) = m.pushes (.inl p) :=
  go_pushes_of_ne fun heq ↦ hp (Code.thread_eq_inl.mp heq.symm)

omit [DecidableEq H] [DecidableEq P] [DecidableEq L] in
/-- A step of hart `h` leaves the other harts as they are: what remains to be shown is about `h` and
about the processes that are switched out or switched to. -/
theorem NestingInv.of_hart (hm : NestingInv m) (h : H)
    (hcode : ∀ i, i ≠ h → m'.code i = m.code i) (hcpu : ∀ i, i ≠ h → m'.cpu i = m.cpu i)
    (hpushes : ∀ t, t ≠ m.thread h → m'.pushes t = m.pushes t) (houter : m'.outer = m.outer)
    (hnoff : (m'.cpu h).noff = m'.pushes (m'.thread h))
    (hoff : 0 < (m'.cpu h).noff → (m'.cpu h).sie = false)
    (hscheduler : m'.pushes (.inr h) = (m'.code h).schedulerPushes)
    (hrunning : ∀ i p, (m'.code i).process = some p → m'.state p = .running)
    (hunique : ∀ i p, i ≠ h → (m.code i).process = some p → (m'.code h).process ≠ some p)
    (haway : ∀ p, m'.state p ≠ .running → Saved m' p)
    (hentering : ∀ i p, m'.code i = .enter p → Saved m' p)
    (hinside : ∀ p on, (m'.code h).process = some p → m'.code h ≠ .enter p →
      0 < m'.pushes (.inl p) → m'.outer p = some on → (m'.cpu h).intena = on) : NestingInv m' := by
  have hthread : ∀ i, i ≠ h → m'.pushes (m.thread i) = m.pushes (m.thread i) := fun i hi ↦
    hpushes _ fun heq ↦ hi (hm.thread_inj heq)
  refine ⟨fun i ↦ ?_, fun i ↦ ?_, fun i ↦ ?_, hrunning, fun i j p hi hj ↦ ?_, haway, hentering,
    fun i p on hi hne hpos hon ↦ ?_⟩
  · by_cases hi : i = h
    · rw [hi, hnoff]
    · have hsame : m'.thread i = m.thread i := by rw [Machine.thread, hcode i hi, Machine.thread]
      rw [hsame, hcpu i hi, hthread i hi]
      exact hm.noff i
  · by_cases hi : i = h
    · rw [hi]
      exact hoff
    · rw [hcpu i hi]
      exact hm.off i
  · by_cases hi : i = h
    · rw [hi, hscheduler]
    · have hne : (.inr i : P ⊕ H) ≠ m.thread h := fun heq ↦
        hi (Code.thread_eq_inr.mp heq.symm).2.symm
      rw [hcode i hi, hpushes _ hne]
      exact hm.scheduler i
  · by_cases hih : i = h
    · by_cases hjh : j = h
      · rw [hih, hjh]
      · exact absurd (hih ▸ hi) (hunique j p hjh (hcode j hjh ▸ hj))
    · by_cases hjh : j = h
      · exact absurd (hjh ▸ hj) (hunique i p hih (hcode i hih ▸ hi))
      · exact hm.unique i j p (hcode i hih ▸ hi) (hcode j hjh ▸ hj)
  · by_cases hih : i = h
    · subst hih
      exact hinside p on hi hne hpos hon
    · rw [hcode i hih] at hi hne
      have hinl : m.thread i = .inl p := Code.thread_eq_inl.mpr hi
      rw [← hinl, hthread i hih, hinl] at hpos
      rw [hcpu i hih]
      exact hm.inside i p on hi hne hpos (houter ▸ hon)

omit [DecidableEq L] in
/-- A thread makes a step on its hart. -/
theorem NestingInv.go (hm : NestingInv m) (hprocess : k.process = (m.code h).process)
    (hsettled : k.Settled) (hnoff : c.noff = n) (hoff : 0 < n → c.sie = false)
    (hscheduler : k.process = none → n = k.schedulerPushes)
    (hinside : ∀ p on, k.process = some p → 0 < n → m.outer p = some on → c.intena = on) :
    NestingInv (m.go h k c n) := by
  have hcode : ∀ i, i ≠ h → (m.go h k c n).code i = m.code i := fun i hi ↦
    Function.update_of_ne hi _ _
  have hself : (m.go h k c n).code h = k := Function.update_self _ _ _
  have hprocess' : ∀ i, ((m.go h k c n).code i).process = (m.code i).process := by
    intro i
    by_cases hi : i = h
    · rw [hi, hself, hprocess]
    · rw [hcode i hi]
  have hthread : (m.go h k c n).thread h = m.thread h := by
    rw [Machine.thread, Machine.thread, Code.thread, Code.thread, hprocess']
  have hpushes : (m.go h k c n).pushes (m.thread h) = n := Function.update_self _ _ _
  have hcpu : (m.go h k c n).cpu h = c := Function.update_self _ _ _
  have hsaved : ∀ p, (m.code h).process ≠ some p → Saved m p → Saved (m.go h k c n) p :=
    fun p hp hold ↦ ⟨(Machine.go_pushes_inl hp).trans hold.pushes, hold.forkret, hold.sched⟩
  refine hm.of_hart h hcode (fun i hi ↦ Function.update_of_ne hi _ _)
    (fun t ht ↦ Machine.go_pushes_of_ne ht) rfl ?_ ?_ ?_ (fun i p hi ↦ ?_) (fun i p hih hi heq ↦ ?_)
    (fun p hp ↦ ?_) (fun i p hi ↦ ?_) (fun p on hp hne hpos hon ↦ ?_)
  · rw [hcpu, hthread, hpushes, hnoff]
  · rw [hcpu, hnoff]
    exact hoff
  · rw [hself]
    cases hk : k.process with
    | none =>
      have hinr : m.thread h = .inr h := Code.thread_eq_inr.mpr ⟨hprocess ▸ hk, rfl⟩
      rw [← hscheduler hk, ← hinr, hpushes]
    | some p =>
      have hinl : m.thread h = .inl p := Code.thread_eq_inl.mpr (hprocess ▸ hk)
      rw [Machine.go_pushes_of_ne (by rw [hinl]; exact Sum.inr_ne_inl), hm.scheduler h,
        Code.schedulerPushes_of_process hk, Code.schedulerPushes_of_process (hprocess ▸ hk)]
  · exact hm.running i p (hprocess' i ▸ hi)
  · exact hih (hm.unique i h p hi (hprocess' h ▸ heq))
  · exact hsaved p (fun heq ↦ hp (hm.running h p heq)) (hm.away p hp)
  · have hih : i ≠ h := fun heq ↦ hsettled p (hself ▸ heq ▸ hi)
    rw [hcode i hih] at hi
    exact hsaved p (fun heq ↦ hih (hm.unique i h p (by rw [hi]; rfl) heq)) (hm.entering i p hi)
  · rw [hself] at hp
    have hinl : m.thread h = .inl p := Code.thread_eq_inl.mpr (hprocess ▸ hp)
    rw [← hinl, hpushes] at hpos
    rw [hcpu]
    exact hinside p on hp hpos hon

omit [DecidableEq L] in
/-- A thread makes a step that leaves its registers and its nesting as they are. -/
theorem NestingInv.stay (hm : NestingInv m) (hprocess : k.process = (m.code h).process)
    (hsettled : k.Settled) (hfrom : (m.code h).Settled)
    (hscheduler : k.process = none → k.schedulerPushes = (m.code h).schedulerPushes) :
    NestingInv (m.go h k (m.cpu h) (m.pushes (m.thread h))) := by
  refine hm.go hprocess hsettled (hm.noff h) (fun hpos ↦ hm.off h (hm.noff h ▸ hpos)) ?_ ?_
  · intro hk
    have hthread : m.thread h = .inr h := Code.thread_eq_inr.mpr ⟨hprocess ▸ hk, rfl⟩
    rw [hthread, hm.scheduler h, hscheduler hk]
  · intro p on hp hpos hon
    have hthread : m.thread h = .inl p := Code.thread_eq_inl.mpr (hprocess ▸ hp)
    exact hm.inside h p on (hprocess ▸ hp) (hfrom p) (hthread ▸ hpos) hon

omit [DecidableEq H] [DecidableEq L] in
/-- The history of an outermost `push_off` may be overwritten: nothing refers to it. -/
theorem NestingInv.recordOuter (hm : NestingInv m) (h : H) : NestingInv (m.recordOuter h) := by
  unfold Machine.recordOuter
  split
  · exact hm
  · rename_i p hp
    split
    · rename_i hzero
      have hother : ∀ q, 0 < m.pushes (.inl q) → q ≠ p := by
        rintro q hq rfl
        omega
      have hsaved : ∀ q, Saved m q → Saved { m with
          outer := Function.update m.outer p (some (m.cpu h).sie) } q := by
        intro q hq
        have hne : q ≠ p := hother q (by rw [hq.pushes]; decide)
        refine ⟨hq.pushes, ?_, ?_⟩
        · simpa only [Function.update_of_ne hne] using hq.forkret
        · simpa only [Function.update_of_ne hne] using hq.sched
      refine ⟨hm.noff, hm.off, hm.scheduler, hm.running, hm.unique,
        fun q hq ↦ hsaved q (hm.away q hq), fun i q hi ↦ hsaved q (hm.entering i q hi),
        fun i q on hi hne hpos hon ↦ ?_⟩
      simp only [Function.update_of_ne (hother q hpos)] at hon
      exact hm.inside i q on hi hne hpos hon
    · exact hm

omit [DecidableEq H] [DecidableEq L] in
theorem Machine.recordOuter_fields (m : Machine H P L) (h : H) :
    (m.recordOuter h).cpu = m.cpu ∧ (m.recordOuter h).code = m.code ∧
      (m.recordOuter h).pushes = m.pushes := by
  unfold Machine.recordOuter
  split
  · exact ⟨rfl, rfl, rfl⟩
  · split <;> exact ⟨rfl, rfl, rfl⟩

omit [DecidableEq H] [DecidableEq L] in
/-- What the history keeps of a `push_off` of process `p`. -/
theorem Machine.recordOuter_outer (hp : (m.code h).process = some p) :
    (m.recordOuter h).outer p =
      if m.pushes (.inl p) = 0 then some (m.cpu h).sie else m.outer p := by
  unfold Machine.recordOuter
  rw [hp]
  dsimp only
  split
  · simp
  · rfl

omit [DecidableEq L] in
theorem NestingInv.push (hm : NestingInv m) (hprocess : k.process = (m.code h).process)
    (hsettled : k.Settled) (hfrom : (m.code h).Settled)
    (hscheduler : k.process = none → m.code h = .loop ∧ k.schedulerPushes = 1) :
    NestingInv (m.push h k) := by
  obtain ⟨hcpu, hcode, hpushes⟩ := m.recordOuter_fields h
  have hthread : (m.recordOuter h).thread h = m.thread h := by
    rw [Machine.thread, hcode, Machine.thread]
  unfold Machine.push
  refine (hm.recordOuter h).go (by rw [hcode, hprocess]) hsettled ?_ (fun _ ↦ rfl) ?_ ?_
  · rw [pushOff, hm.noff h]
  · intro hk
    obtain ⟨hloop, hone⟩ := hscheduler hk
    have hinr : m.thread h = .inr h := Code.thread_eq_inr.mpr ⟨hprocess ▸ hk, rfl⟩
    rw [hinr, hm.scheduler h, hloop, hone]
    rfl
  · intro p on hp _ hon
    have hp' : (m.code h).process = some p := hprocess ▸ hp
    have hinl : m.thread h = .inl p := Code.thread_eq_inl.mpr hp'
    rw [Machine.recordOuter_outer hp'] at hon
    rw [pushOff, hm.noff h, hinl]
    split at hon
    · rename_i hzero
      rw [if_pos hzero]
      exact Option.some.inj hon
    · rename_i hpos
      rw [if_neg hpos]
      exact hm.inside h p on hp' (hfrom p) (Nat.pos_of_ne_zero hpos) hon

omit [DecidableEq L] in
theorem NestingInv.popped (hm : NestingInv m) (hprocess : k.process = (m.code h).process)
    (hsettled : k.Settled) (hfrom : (m.code h).Settled)
    (hscheduler : k.process = none → k = .loop) (hpop : popOff (m.cpu h) = .ok c) :
    NestingInv (m.go h k c (m.pushes (m.thread h) - 1)) := by
  obtain ⟨-, hnoff, hintena, hsie⟩ := popOff_ok hpop
  have hnoff' := hm.noff h
  refine hm.go hprocess hsettled (by omega) ?_ ?_ ?_
  · intro hpos
    have hne : ¬ c.noff = 0 := by omega
    rw [hsie, decide_eq_false hne, Bool.false_and]
  · intro hk
    have hinr : m.thread h = .inr h := Code.thread_eq_inr.mpr ⟨hprocess ▸ hk, rfl⟩
    have hle : (m.code h).schedulerPushes ≤ 1 := by
      unfold Code.schedulerPushes
      split <;> decide
    rw [hinr, hm.scheduler h] at hnoff' ⊢
    rw [hscheduler hk, Code.schedulerPushes]
    omega
  · intro p on hp hpos hon
    have hp' : (m.code h).process = some p := hprocess ▸ hp
    have hinl : m.thread h = .inl p := Code.thread_eq_inl.mpr hp'
    rw [hintena]
    exact hm.inside h p on hp' (hfrom p) (by rw [← hinl]; omega) hon

omit [DecidableEq H] in
theorem NestingInv.setLock (hm : NestingInv m) (l : LockName P L) (lk : Lock H) :
    NestingInv (m.setLock l lk) :=
  ⟨hm.noff, hm.off, hm.scheduler, hm.running, hm.unique,
    fun p hp ↦ ⟨(hm.away p hp).pushes, (hm.away p hp).forkret, (hm.away p hp).sched⟩,
    fun h p hp ↦ ⟨(hm.entering h p hp).pushes, (hm.entering h p hp).forkret,
      (hm.entering h p hp).sched⟩, hm.inside⟩

/-! ## Switches -/

omit [DecidableEq L] in
/-- The scheduler switches to a thread, which may have slept on another hart. -/
theorem NestingInv.switchTo (hm : NestingInv m) (hcode : m.code h = .test p)
    (hrunnable : m.state p = .runnable) :
    NestingInv { m.setState p .running with code := Function.update m.code h (.enter p) } := by
  set m' : Machine H P L :=
    { m.setState p .running with code := Function.update m.code h (.enter p) } with hm'
  have hsaved : ∀ q, Saved m q → Saved m' q := fun q hq ↦ ⟨hq.pushes, hq.forkret, hq.sched⟩
  have hp : Saved m p := hm.away p (by rw [hrunnable]; decide)
  have hself : m'.code h = .enter p := Function.update_self _ _ _
  have hother : ∀ i, i ≠ h → m'.code i = m.code i := fun i hi ↦ Function.update_of_ne hi _ _
  have hone : m.pushes (.inr h) = 1 := by
    rw [hm.scheduler h, hcode]
    rfl
  have hnot : ∀ i, (m.code i).process ≠ some p := by
    intro i hi
    have hrunning := hm.running i p hi
    rw [hrunnable] at hrunning
    cases hrunning
  have hstate : ∀ q, q ≠ p → m'.state q = m.state q := fun q hq ↦ Function.update_of_ne hq _ _
  refine hm.of_hart h hother (fun _ _ ↦ rfl) (fun _ _ ↦ rfl) rfl ?_ (hm.off h)
    (by rw [hself]; exact hone) (fun i q hi ↦ ?_) (fun i q _ hi heq ↦ ?_) (fun q hq ↦ ?_) (fun i q hi ↦ ?_)
    (fun q on hq hne ↦ ?_)
  · have hthread : m.thread h = .inr h := Code.thread_eq_inr.mpr ⟨by rw [hcode]; rfl, rfl⟩
    have hthread' : m'.thread h = .inl p := Code.thread_eq_inl.mpr (by rw [hself]; rfl)
    rw [hthread']
    exact (hm.noff h).trans ((hthread ▸ hone).trans hp.pushes.symm)
  · by_cases hih : i = h
    · rw [hih, hself] at hi
      obtain rfl := Option.some.inj hi
      exact Function.update_self _ _ _
    · rw [hother i hih] at hi
      have hqp : q ≠ p := fun heq ↦ hnot i (heq ▸ hi)
      rw [hstate q hqp]
      exact hm.running i q hi
  · rw [hself] at heq
    obtain rfl := Option.some.inj heq
    exact hnot i hi
  · have hqp : q ≠ p := fun heq ↦ hq (heq ▸ Function.update_self _ _ _)
    exact hsaved q (hm.away q (hstate q hqp ▸ hq))
  · by_cases hih : i = h
    · rw [hih, hself] at hi
      cases hi
      exact hsaved p hp
    · exact hsaved q (hm.entering i q (hother i hih ▸ hi))
  · rw [hself] at hq hne
    obtain rfl := Option.some.inj hq
    exact absurd rfl hne

omit [DecidableEq L] in
/-- A thread is switched out in `sched`. -/
theorem NestingInv.switchFrom (hm : NestingInv m) (hcode : m.code h = .run p)
    (hnoff : (m.cpu h).noff = 1) {state : Procstate} :
    NestingInv { m.setState p state with
      context := Function.update m.context p (.sched (m.cpu h).intena)
      code := Function.update m.code h (.back p) } := by
  set m' : Machine H P L := { m.setState p state with
    context := Function.update m.context p (.sched (m.cpu h).intena)
    code := Function.update m.code h (.back p) } with hm'
  have hprocess : (m.code h).process = some p := by rw [hcode]; rfl
  have hself : m'.code h = .back p := Function.update_self _ _ _
  have hother : ∀ i, i ≠ h → m'.code i = m.code i := fun i hi ↦ Function.update_of_ne hi _ _
  have hone : m.pushes (.inr h) = 1 := by
    rw [hm.scheduler h, hcode]
    rfl
  have hpushes : m.pushes (.inl p) = 1 := by
    have hthread : m.thread h = .inl p := Code.thread_eq_inl.mpr hprocess
    rw [← hthread, ← hm.noff h, hnoff]
  have hothers : ∀ i q, (m'.code i).process = some q →
      i ≠ h ∧ q ≠ p ∧ (m.code i).process = some q := by
    intro i q hi
    have hih : i ≠ h := by
      rintro rfl
      rw [hself] at hi
      cases hi
    rw [hother i hih] at hi
    exact ⟨hih, fun heq ↦ hih (hm.unique i h p (heq ▸ hi) hprocess), hi⟩
  have hsaved : ∀ q, q ≠ p → Saved m q → Saved m' q := by
    intro q hq hsaved
    have hcontext : m'.context q = m.context q := Function.update_of_ne hq _ _
    exact ⟨hsaved.pushes, hcontext ▸ hsaved.forkret, hcontext ▸ hsaved.sched⟩
  refine hm.of_hart h hother (fun _ _ ↦ rfl) (fun _ _ ↦ rfl) rfl ?_ (hm.off h)
    (by rw [hself]; exact hone) (fun i q hi ↦ ?_) (fun _ q _ _ heq ↦ (hothers h q heq).1 rfl) (fun q hq ↦ ?_) (fun i q hi ↦ ?_)
    (fun q _ hq ↦ absurd rfl (hothers h q hq).1)
  · have hthread' : m'.thread h = .inr h := Code.thread_eq_inr.mpr ⟨by rw [hself]; rfl, rfl⟩
    rw [hthread']
    exact hnoff.trans hone.symm
  · obtain ⟨-, hqp, hi'⟩ := hothers i q hi
    exact (Function.update_of_ne hqp _ _).trans (hm.running i q hi')
  · by_cases hqp : q = p
    · subst hqp
      have hcontext : m'.context q = .sched (m.cpu h).intena := Function.update_self _ _ _
      refine ⟨hpushes, fun hforkret ↦ ?_, fun intena on hsched hon ↦ ?_⟩
      · rw [hcontext] at hforkret
        cases hforkret
      · rw [hcontext] at hsched
        cases hsched
        exact hm.inside h q on hprocess (by rw [hcode]; exact fun heq ↦ by cases heq)
          (by rw [hpushes]; decide) hon
    · have hsame : m'.state q = m.state q := Function.update_of_ne hqp _ _
      exact hsaved q hqp (hm.away q (hsame ▸ hq))
  · obtain ⟨hih, hqp, -⟩ := hothers i q (by rw [hi]; rfl)
    exact hsaved q hqp (hm.entering i q (hother i hih ▸ hi))

/-! ## Changes of other processes -/

omit [DecidableEq H] [DecidableEq L] in
/-- A process that runs on no hart is changed, and keeps what a process that is switched out has
kept. -/
theorem NestingInv.changed {q : P} (hm : NestingInv m) (hq : m.state q ≠ .running)
    (hcpu : m'.cpu = m.cpu) (hcode : m'.code = m.code) (hsaved : Saved m' q)
    (hstate : ∀ r, r ≠ q → m'.state r = m.state r)
    (hcontext : ∀ r, r ≠ q → m'.context r = m.context r)
    (houter : ∀ r, r ≠ q → m'.outer r = m.outer r)
    (hpushes : ∀ t, t ≠ .inl q → m'.pushes t = m.pushes t) : NestingInv m' := by
  have hnot : ∀ i r, (m.code i).process = some r → r ≠ q := by
    rintro i r hi rfl
    exact hq (hm.running i r hi)
  have hothers : ∀ r, r ≠ q → Saved m r → Saved m' r := by
    intro r hr hold
    refine ⟨?_, ?_, ?_⟩
    · rw [hpushes _ fun heq ↦ hr (Sum.inl.inj heq)]
      exact hold.pushes
    · rw [hcontext r hr, houter r hr]
      exact hold.forkret
    · rw [hcontext r hr, houter r hr]
      exact hold.sched
  refine ⟨fun i ↦ ?_, hcpu ▸ hm.off, fun i ↦ ?_, fun i r hi ↦ ?_, ?_, fun r hr ↦ ?_,
    fun i r hi ↦ ?_, fun i r on hi hne hpos hon ↦ ?_⟩
  · have hne : m.thread i ≠ .inl q := fun heq ↦ hnot i q (Code.thread_eq_inl.mp heq) rfl
    have hthread : m'.thread i = m.thread i := by rw [Machine.thread, hcode, Machine.thread]
    rw [hcpu, hthread, hpushes _ hne]
    exact hm.noff i
  · rw [hcode, hpushes _ Sum.inr_ne_inl]
    exact hm.scheduler i
  · rw [hcode] at hi
    rw [hstate r (hnot i r hi)]
    exact hm.running i r hi
  · rw [hcode]
    exact hm.unique
  · by_cases hrq : r = q
    · exact hrq ▸ hsaved
    · exact hothers r hrq (hm.away r (hstate r hrq ▸ hr))
  · rw [hcode] at hi
    exact hothers r (hnot i r (by rw [hi]; rfl)) (hm.entering i r hi)
  · rw [hcode] at hi hne
    have hr := hnot i r hi
    rw [hpushes _ fun heq ↦ hr (Sum.inl.inj heq)] at hpos
    rw [houter r hr] at hon
    rw [hcpu]
    exact hm.inside i r on hi hne hpos hon

theorem Change.target_ne {c : Change} {state state' : Procstate}
    (htarget : c.target state = some state') : state ≠ .running := by
  rintro rfl
  cases c <;> cases htarget

omit [DecidableEq L] in
theorem NestingInv.change {q : P} {c : Change} (hm : NestingInv m)
    (hchange : m.change q c = some m') : NestingInv m' := by
  obtain ⟨state, htarget, hm'⟩ := Option.map_eq_some_iff.mp hchange
  have hq := Change.target_ne htarget
  have hsaved := hm.away q hq
  have hstate : ∀ r, r ≠ q → Function.update m.state q state r = m.state r := fun r hr ↦
    Function.update_of_ne hr _ _
  cases c with
  | alloc =>
    subst hm'
    refine hm.changed hq rfl rfl ⟨?_, fun _ ↦ ?_, fun intena on hsched ↦ ?_⟩ hstate
      (fun r hr ↦ Function.update_of_ne hr _ _) (fun r hr ↦ Function.update_of_ne hr _ _)
      (fun t ht ↦ Function.update_of_ne ht _ _)
    · exact Function.update_self _ _ _
    · exact Function.update_self _ _ _
    · simp only [Function.update_self] at hsched
      cases hsched
  | wake | publish | free =>
    subst hm'
    exact hm.changed hq rfl rfl ⟨hsaved.pushes, hsaved.forkret, hsaved.sched⟩ hstate
      (fun _ _ ↦ rfl) (fun _ _ ↦ rfl) (fun _ _ ↦ rfl)

/-! ## Runs -/

/-- `release`, when it does not panic. -/
theorem NestingInv.release {l : LockName P L} (hm : NestingInv m)
    (hprocess : k.process = (m.code h).process) (hsettled : k.Settled)
    (hfrom : (m.code h).Settled) (hscheduler : k.process = none → k = .loop)
    (hrelease : m.release h l k = some m') : NestingInv m' := by
  unfold Machine.release at hrelease
  split at hrelease
  · rename_i lk c hok
    cases hrelease
    exact (hm.setLock l lk).popped hprocess hsettled hfrom hscheduler (release_ok hok).2.1
  · cases hrelease

omit [DecidableEq L] in
theorem NestingInv.acquire {l : LockName P L} (hm : NestingInv m)
    (hprocess : k.process = (m.code h).process) (hsettled : k.Settled)
    (hfrom : (m.code h).Settled)
    (hscheduler : k.process = none → m.code h = .loop ∧ k.schedulerPushes = 1)
    (hacquire : m.acquire h l k = some m') : NestingInv m' := by
  unfold Machine.acquire at hacquire
  split at hacquire
  · cases hacquire
    exact hm.push hprocess hsettled hfrom hscheduler
  · cases hacquire

theorem NestingInv.take {l : LockName P L} (hm : NestingInv m)
    (hprocess : k.process = (m.code h).process) (hsettled : k.Settled)
    (hfrom : (m.code h).Settled)
    (hscheduler : k.process = none → k.schedulerPushes = (m.code h).schedulerPushes)
    (htake : m.take h l k = some m') : NestingInv m' := by
  obtain ⟨lk, -, rfl⟩ := Option.map_eq_some_iff.mp htake
  exact (hm.setLock l lk).stay hprocess hsettled hfrom hscheduler

omit [DecidableEq L] in
/-- Interrupts are turned on or off outside any nesting. -/
theorem NestingInv.intr (hm : NestingInv m) (hfrom : (m.code h).Settled)
    (hnoff : (m.cpu h).noff = 0) (on : Bool) :
    NestingInv (m.go h (m.code h) { m.cpu h with sie := on } (m.pushes (m.thread h))) := by
  have hzero : m.pushes (m.thread h) = 0 := hm.noff h ▸ hnoff
  refine hm.go rfl hfrom (hm.noff h) (fun hpos ↦ ?_) (fun hk ↦ ?_) (fun p on hp hpos _ ↦ ?_)
  · omega
  · have hthread : m.thread h = .inr h := Code.thread_eq_inr.mpr ⟨hk, rfl⟩
    rw [hthread, hm.scheduler h]
  · omega

omit [DecidableEq L] in
/-- A process goes on after it was switched to, with the `intena` that its context asks for. -/
theorem NestingInv.enter (hm : NestingInv m) (hcode : m.code h = .enter p) {intena : Bool}
    (hintena : ∀ on, m.outer p = some on → intena = on) :
    NestingInv (m.go h (.run p) { m.cpu h with intena := intena } (m.pushes (m.thread h))) := by
  have hprocess : (Code.run p : Code P L).process = (m.code h).process := by
    rw [hcode]
    rfl
  refine hm.go hprocess (fun q heq ↦ by cases heq) (hm.noff h)
    (fun hpos ↦ hm.off h (hm.noff h ▸ hpos)) (fun hk ↦ by cases hk) (fun q on hq _ hon ↦ ?_)
  obtain rfl := Option.some.inj hq
  exact hintena on hon

theorem NestingInv.next {h : H} {e : Event P L} (hm : NestingInv m)
    (hnext : nestingNext m (h, e) = some m') : NestingInv m' := by
  cases hcode : m.code h with
  | loop =>
    have hfrom : (m.code h).Settled := by simp [hcode, Code.Settled]
    cases e <;> simp only [nestingNext, hcode] at hnext <;> try cases hnext
    case intr on =>
      split at hnext
      · rename_i hzero
        cases hnext
        exact hcode ▸ hm.intr hfrom hzero on
      · cases hnext
    case poll p =>
      exact hm.acquire (by rw [hcode]; rfl) (by simp [Code.Settled]) hfrom
        (fun _ ↦ ⟨hcode, rfl⟩) hnext
  | spin p =>
    cases e <;> simp only [nestingNext, hcode] at hnext <;> try cases hnext
    case take =>
      exact hm.take (by rw [hcode]; rfl) (by simp [Code.Settled])
        (by simp [hcode, Code.Settled]) (fun _ ↦ by rw [hcode]; rfl) hnext
  | test p =>
    cases e <;> simp only [nestingNext, hcode] at hnext <;> try cases hnext
    case test =>
      split at hnext
      · rename_i hrunnable
        cases hnext
        exact hm.switchTo hcode hrunnable
      · exact hm.release (by rw [hcode]; rfl) (by simp [Code.Settled])
          (by simp [hcode, Code.Settled]) (fun _ ↦ rfl) hnext
  | back p =>
    cases e <;> simp only [nestingNext, hcode] at hnext <;> try cases hnext
    case back =>
      exact hm.release (by rw [hcode]; rfl) (by simp [Code.Settled])
        (by simp [hcode, Code.Settled]) (fun _ ↦ rfl) hnext
  | enter p =>
    cases e <;> simp only [nestingNext, hcode] at hnext <;> try cases hnext
    case enter =>
      have hsaved := hm.entering h p hcode
      split at hnext
      · rename_i hforkret
        cases hnext
        refine hm.enter hcode fun on hon ↦ ?_
        rw [hsaved.forkret hforkret] at hon
        cases hon
      · rename_i intena hsched
        cases hnext
        exact hm.enter hcode fun on hon ↦ hsaved.sched intena on hsched hon
  | run p =>
    have hfrom : (m.code h).Settled := by simp [hcode, Code.Settled]
    have hprocess : (Code.run p : Code P L).process = (m.code h).process := by
      rw [hcode]
    have hsettled : (Code.run p : Code P L).Settled := by simp [Code.Settled]
    cases e <;> simp only [nestingNext, hcode] at hnext <;> try cases hnext
    case intr on =>
      split at hnext
      · rename_i hzero
        cases hnext
        exact hcode ▸ hm.intr hfrom hzero on
      · cases hnext
    case push.refl =>
      exact hm.push hprocess hsettled hfrom (fun hk ↦ by cases hk)
    case pop =>
      unfold Machine.pop at hnext
      split at hnext
      · rename_i c hpop
        cases hnext
        exact hm.popped hprocess hsettled hfrom (fun hk ↦ by cases hk) hpop
      · cases hnext
    case acquire l =>
      exact hm.acquire (by rw [hcode]; rfl) (by simp [Code.Settled]) hfrom
        (fun hk ↦ by cases hk) hnext
    case release l =>
      exact hm.release hprocess hsettled hfrom (fun hk ↦ by cases hk) hnext
    case sched state =>
      split at hnext
      · rename_i hsched
        cases hnext
        exact hm.switchFrom hcode hsched.2.1
      · cases hnext
    case change q c =>
      split at hnext
      · exact hm.change hnext
      · cases hnext
  | acquiring p l =>
    cases e <;> simp only [nestingNext, hcode] at hnext <;> try cases hnext
    case take =>
      exact hm.take (by rw [hcode]; rfl) (by simp [Code.Settled])
        (by simp [hcode, Code.Settled]) (fun hk ↦ by cases hk) hnext

theorem nestingInv_start (ready : P → Bool) : NestingInv (nesting H P L ready).start where
  noff _ := rfl
  off _ hpos := absurd hpos (Nat.lt_irrefl 0)
  scheduler _ := rfl
  running _ _ hp := by cases hp
  unique _ _ _ hp := by cases hp
  away _ _ := ⟨rfl, fun _ ↦ rfl, fun _ _ hsched ↦ by cases hsched⟩
  entering _ _ hp := by cases hp
  inside _ _ _ hp := by cases hp

omit [DecidableEq H] [DecidableEq P] [DecidableEq L] in
/-- `pop_off` in the thread of a process that leaves its nesting: interrupts are enabled as at its
outermost `push_off`. -/
theorem NestingInv.sie_of_popOff {on : Bool} (hm : NestingInv m) (hcode : m.code h = .run p)
    (hone : m.pushes (.inl p) = 1) (hon : m.outer p = some on) (hpop : popOff (m.cpu h) = .ok c) :
    c.sie = on := by
  obtain ⟨-, hnoff, -, hsie⟩ := popOff_ok hpop
  have hthread : m.thread h = .inl p := Code.thread_eq_inl.mpr (by rw [hcode]; rfl)
  have hzero : c.noff = 0 := by
    rw [hm.noff h, hthread, hone] at hnoff
    omega
  rw [hsie, decide_eq_true hzero, Bool.true_and]
  exact hm.inside h p on (by rw [hcode]; rfl) (by simp [hcode]) (by omega) hon

/-- In every interleaving `noff` of a hart is the number of unmatched calls of `push_off` of the thread
that runs on it, interrupts are off while it is not zero, and the outermost `pop_off` of a process
enables them exactly if they were enabled at its outermost `push_off`. -/
theorem nesting_survives_switches (ready : P → Bool)
    (hm : (nesting H P L ready).Reachable (fun _ _ ↦ True) m) :
    (∀ h, (m.cpu h).noff = m.pushes (m.thread h)) ∧
    (∀ h, 0 < (m.cpu h).noff → (m.cpu h).sie = false) ∧
    ∀ h p e m', m.code h = .run p → (e = .pop ∨ ∃ l, e = .release l) →
      m.pushes (.inl p) = 1 → nestingNext m (h, e) = some m' →
      ∀ on, m.outer p = some on → (m'.cpu h).sie = on := by
  have hinv : NestingInv m := hm.invariant NestingInv (nestingInv_start ready)
    fun _ _ _ hs _ hnext ↦ hs.next hnext
  refine ⟨hinv.noff, hinv.off, fun h p e m' hcode hpop hone hnext on hon ↦ ?_⟩
  obtain rfl | ⟨l, rfl⟩ := hpop
  · simp only [nestingNext, hcode, Machine.pop] at hnext
    split at hnext
    · rename_i c hc
      cases hnext
      have hsie := hinv.sie_of_popOff hcode hone hon hc
      simpa [Machine.go] using hsie
    · cases hnext
  · simp only [nestingNext, hcode, Machine.release] at hnext
    split at hnext
    · rename_i lk c hc
      cases hnext
      have hsie := hinv.sie_of_popOff hcode hone hon (release_ok hc).2.1
      simpa [Machine.go] using hsie
    · cases hnext

/-- A process takes its lock in `yield` on hart 0 with interrupts enabled and goes on in `sched` on hart
1, where they are off; there it releases the lock and enables them. -/
theorem nesting_survives_migration :
    ∃ m m' : Machine (Fin 2) (Fin 1) Unit, m.outer 0 = some true ∧
      nestingNext m (1, .release (.proc 0)) = some m' ∧ (m'.cpu 1).sie = true := by
  obtain ⟨m, hm, hcode, hone, hon, hnext⟩ :=
    (nesting (Fin 2) (Fin 1) Unit fun _ ↦ true).exists_reachable (fun _ _ ↦ True)
      (fun m ↦ m.code 1 = .run 0 ∧ m.pushes (.inl 0) = 1 ∧ m.outer 0 = some true ∧
        (nestingNext m (1, .release (.proc 0))).isSome)
      [(0, .intr true), (0, .poll 0), (0, .take), (0, .test), (0, .enter), (0, .release (.proc 0)),
        (0, .acquire (.proc 0)), (0, .take), (0, .sched .runnable), (0, .back),
        (1, .poll 0), (1, .take), (1, .test), (1, .enter)]
      (by decide +kernel)
  obtain ⟨m', hm'⟩ := Option.isSome_iff_exists.mp hnext
  obtain ⟨-, -, houter⟩ := nesting_survives_switches _ hm
  exact ⟨m, m', hon, hm', houter 1 0 _ m' hcode (.inr ⟨_, rfl⟩) hone hm' true hon⟩

end EnhancedXv6.Spinlock
