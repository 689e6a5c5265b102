import EnhancedXv6.Lottery.Scheduler
import EnhancedXv6.Spinlock.Model
import EnhancedXv6.Transition.System

/-!
# Locks of the lottery scheduler

`scheduler()` of the LBS build on one hart, statement by statement: the two scans with every
`acquire` and `release`, the switch to the chosen process and back, pass after pass.  Between any two
statements the other harts may change all processes whose lock this hart does not hold, and may take
and release their locks.  While the chosen process runs on the hart everything may change; `sched`
brings it back with its lock held and `noff` at 1.

The history variables `acquired` and `released` count the calls of a pass for every `p->lock`.
-/

namespace EnhancedXv6.Lottery

open Kernel Spinlock Transition

/-- What the hart does next.  A slot number in a scan may be `NPROC`. -/
inductive Point
  /-- the first scan, before its test for the end of the table -/
  | sum (p : ℕ) (total : Int32)
  | sumSpin (p : Slot) (total : Int32)
  /-- the first scan, before it reads `p->state` -/
  | sumTest (p : Slot) (total : Int32)
  | sumRelease (p : Slot) (total : Int32)
  /-- the second scan, before its test for the end of the table -/
  | scan (p : ℕ) (winner : Int32) (d : Draw)
  | scanSpin (p : Slot) (winner : Int32) (d : Draw)
  /-- the second scan, before it reads `p->state` -/
  | scanTest (p : Slot) (winner : Int32) (d : Draw)
  /-- `release(&p->lock)` of a process that is not chosen -/
  | skip (p : Slot) (winner : Int32) (d : Draw)
  /-- `release(&chosen->lock)` of the former choice `c`, before `chosen = p` -/
  | handOver (p c : Slot) (winner currentTickets : Int32)
  /-- before `chosen->state = RUNNING` -/
  | dispatch (c : Slot)
  /-- before `swtch` -/
  | switch (c : Slot)
  /-- the chosen process runs -/
  | away (c : Slot)
  /-- after `swtch`, before `release(&chosen->lock)` -/
  | back (c : Slot)
  /-- the end of the pass -/
  | done
  | panicked (message : String)
  deriving DecidableEq

namespace Point

/-- The processes whose lock the pass has acquired and not released. -/
def held : Point → List Slot
  | .sum .. | .sumSpin .. | .done | .panicked _ => []
  | .sumTest p _ | .sumRelease p _ => [p]
  | .scan _ _ d | .scanSpin _ _ d => d.chosen.toList
  | .scanTest p _ d | .skip p _ d => p :: d.chosen.toList
  | .handOver p c .. => [p, c]
  | .dispatch c | .switch c | .away c | .back c => [c]

/-- The calls of `push_off` for a lock that is not taken yet. -/
def spinning : Point → ℕ
  | .sumSpin .. | .scanSpin .. => 1
  | _ => 0

/-- The process that is the choice of the second scan, or will be when its statement ends. -/
def choice : Point → Option Slot
  | .scan _ _ d | .scanSpin _ _ d | .scanTest _ _ d | .skip _ _ d => d.chosen
  | .handOver p .. => some p
  | .dispatch c => some c
  | _ => none

/-- A choice was made at a slot that the second scan has passed, and no lock operation failed. -/
def Passed : Point → Prop
  | .scan p _ d => ∀ c, d.chosen = some c → c.val < p
  | .scanSpin p _ d | .scanTest p _ d | .skip p _ d => ∀ c, d.chosen = some c → c < p
  | .handOver p c .. => c < p
  | .panicked _ => False
  | _ => True

theorem mem_held_of_choice {k : Point} {c : Slot} (hc : k.choice = some c) : c ∈ k.held := by
  cases k <;> simp_all [choice, held]

end Point

/-- The hart in its scheduler, and the table and the locks that it shares with the others. -/
structure LockState (H : Type) where
  proc : Slot → Proc
  lock : Slot → Lock H
  cpu : Cpu
  next : UInt64
  point : Point
  /-- history: the calls of `acquire` in this pass that took the lock -/
  acquired : Slot → ℕ
  /-- history: the calls of `release` in this pass -/
  released : Slot → ℕ

variable {H : Type} [DecidableEq H]

namespace LockState

variable (m : LockState H) (h : H)

def goto (k : Point) : LockState H :=
  { m with point := k }

def acquire (p : Slot) (k : Point) : LockState H :=
  match beginAcquire (m.lock p) h m.cpu with
  | .ok cpu => { m with cpu := cpu, point := k }
  | .error message => m.goto (.panicked message)

def take (p : Slot) (k : Point) : Option (LockState H) :=
  (Spinlock.take (m.lock p) h).map fun lk ↦
    { m with
      lock := Function.update m.lock p lk
      acquired := Function.update m.acquired p (m.acquired p + 1)
      point := k }

def release (p : Slot) (k : Point) : LockState H :=
  match Spinlock.release (m.lock p) h m.cpu with
  | .ok (lk, cpu) =>
    { m with
      lock := Function.update m.lock p lk
      cpu := cpu
      released := Function.update m.released p (m.released p + 1)
      point := k }
  | .error message => m.goto (.panicked message)

/-- The test of the second scan for a process whose lock is held. -/
def test (p : Slot) (winner : Int32) (d : Draw) : Point :=
  if (m.proc p).state = .runnable then
    let currentTickets := d.currentTickets + (m.proc p).tickets
    if currentTickets > winner ∧ replaces m.proc d.chosen p = true then
      match d.chosen with
      | some c => .handOver p c winner currentTickets
      | none => .scan (p.val + 1) winner ⟨some p, currentTickets⟩
    else .skip p winner { d with currentTickets := currentTickets }
  else .skip p winner d

omit [DecidableEq H] in
/-- The next statement of the scheduler; `none` while it waits for a lock or the process runs. -/
def statement : Option (LockState H) :=
  match m.point with
  | .sum p total =>
    if hp : p < NPROC then some (m.acquire h ⟨p, hp⟩ (.sumSpin ⟨p, hp⟩ total))
    else if total > 0 then
      let (r, next) := rand m.next
      some ({ m with next := next }.goto (.scan 0 (r % total) {}))
    else some (m.goto .done)
  | .sumSpin p total => m.take h p (.sumTest p total)
  | .sumTest p total => some (m.goto (.sumRelease p (addTickets m.proc total p)))
  | .sumRelease p total => some (m.release h p (.sum (p.val + 1) total))
  | .scan p winner d =>
    if hp : p < NPROC then some (m.acquire h ⟨p, hp⟩ (.scanSpin ⟨p, hp⟩ winner d))
    else
      match d.chosen with
      | some c => some (m.goto (.dispatch c))
      | none => some (m.goto .done)
  | .scanSpin p winner d => m.take h p (.scanTest p winner d)
  | .scanTest p winner d => some (m.goto (m.test p winner d))
  | .skip p winner d => some (m.release h p (.scan (p.val + 1) winner d))
  | .handOver p c winner currentTickets =>
    some (m.release h c (.scan (p.val + 1) winner ⟨some p, currentTickets⟩))
  | .dispatch c =>
    some { m with
      proc := Function.update m.proc c { m.proc c with state := .running }
      point := .switch c }
  | .switch c => some (m.goto (.away c))
  | .away _ => none
  | .back c => some (m.release h c .done)
  | .done =>
    -- the next pass starts with `intr_on()`
    some { m with
      cpu := { m.cpu with sie := true }
      point := .sum 0 0
      acquired := fun _ ↦ 0
      released := fun _ ↦ 0 }
  | .panicked _ => none

end LockState

inductive LockEvent (H : Type)
  /-- the hart executes the next statement of its scheduler -/
  | own
  /-- the other harts change the table and the locks -/
  | others (proc : Slot → Proc) (lock : Slot → Lock H)
  /-- the process switches back to the scheduler -/
  | sched (proc : Slot → Proc) (lock : Slot → Lock H) (cpu : Cpu)

def LockEvent.isOwn : LockEvent H → Bool
  | .own => true
  | .others .. | .sched .. => false

def lockNext (h : H) (m : LockState H) : LockEvent H → Option (LockState H)
  | .own => m.statement h
  | .others proc lock => some { m with proc := proc, lock := lock }
  | .sched proc lock cpu =>
    match m.point with
    | .away c => some { m with proc := proc, lock := lock, cpu := cpu, point := .back c }
    | _ => none

/-- What the others may do on hart `h`: they leave processes alone whose lock the hart holds and take no
lock in its name.  `sched` panics unless `p->lock` is the only lock of the hart. -/
def Allowed (h : H) (m : LockState H) : LockEvent H → Prop
  | .own => True
  | .others proc lock => ∀ p,
      if holding (m.lock p) h = true then proc p = m.proc p ∧ lock p = m.lock p
      else holding (lock p) h = false
  | .sched _ lock cpu => ∀ c, m.point = .away c →
      (∀ p, holding (lock p) h = true ↔ p = c) ∧ cpu.noff = 1 ∧ cpu.sie = false

def lottery (h : H) (proc : Slot → Proc) (next : UInt64) :
    System (LockState H) (LockEvent H) where
  start :=
    { proc := proc
      lock := fun _ ↦ {}
      cpu := ⟨0, false, false⟩
      next := next
      point := .done
      acquired := fun _ ↦ 0
      released := fun _ ↦ 0 }
  next := lockNext h

/-! ## The invariant -/

structure LockInv (h : H) (m : LockState H) : Prop where
  held : ∀ p, holding (m.lock p) h = true ↔ p ∈ m.point.held
  noff : m.cpu.noff = m.point.held.length + m.point.spinning
  off : 0 < m.cpu.noff → m.cpu.sie = false
  balance : ∀ p, m.acquired p = m.released p + if p ∈ m.point.held then 1 else 0
  runnable : ∀ c, m.point.choice = some c → (m.proc c).state = .runnable
  passed : m.point.Passed

variable {h : H} {m m' : LockState H} {k : Point} {p c : Slot}

namespace LockInv

theorem goto (hm : LockInv h m) (hheld : k.held = m.point.held)
    (hspinning : k.spinning = m.point.spinning)
    (hrunnable : ∀ c, k.choice = some c → (m.proc c).state = .runnable) (hpassed : k.Passed) :
    LockInv h (m.goto k) where
  held p := hheld.symm ▸ hm.held p
  noff := by
    rw [LockState.goto, hheld, hspinning]
    exact hm.noff
  off := hm.off
  balance p := hheld.symm ▸ hm.balance p
  runnable := hrunnable
  passed := hpassed

theorem reseed (hm : LockInv h m) (next : UInt64) : LockInv h { m with next := next } :=
  ⟨hm.held, hm.noff, hm.off, hm.balance, hm.runnable, hm.passed⟩

/-- `acquire` does not panic for a lock that the hart does not hold. -/
theorem acquire (hm : LockInv h m) (hfree : p ∉ m.point.held) (hspinning : m.point.spinning = 0)
    (hheld : k.held = m.point.held) (hone : k.spinning = 1)
    (hchoice : k.choice = m.point.choice) (hpassed : k.Passed) :
    LockInv h (m.acquire h p k) := by
  have hnot : holding (m.lock p) h = false := by
    rw [Bool.eq_false_iff]
    exact fun hholding ↦ hfree ((hm.held p).mp hholding)
  have hbegin : beginAcquire (m.lock p) h m.cpu = .ok (pushOff m.cpu) := by
    simp [beginAcquire, hnot]
  rw [LockState.acquire, hbegin]
  refine ⟨fun q ↦ hheld.symm ▸ hm.held q, ?_, fun _ ↦ rfl, fun q ↦ hheld.symm ▸ hm.balance q,
    fun c hc ↦ hm.runnable c (hchoice ▸ hc), hpassed⟩
  have hnoff := hm.noff
  simp only [pushOff, hheld, hone]
  omega

/-- The loop of `acquire` ends with the lock held. -/
theorem take (hm : LockInv h m) (hfree : p ∉ m.point.held) (hspinning : m.point.spinning = 1)
    (hheld : k.held = p :: m.point.held) (hzero : k.spinning = 0)
    (hchoice : k.choice = m.point.choice) (hpassed : k.Passed)
    (htake : m.take h p k = some m') : LockInv h m' := by
  obtain ⟨lk, hlk, rfl⟩ := Option.map_eq_some_iff.mp htake
  obtain ⟨-, rfl⟩ := take_eq_some hlk
  have hnoff := hm.noff
  refine ⟨fun q ↦ ?_, ?_, hm.off, fun q ↦ ?_, fun c hc ↦ hm.runnable c (hchoice ▸ hc), hpassed⟩
  · simp only [hheld, List.mem_cons]
    by_cases hq : q = p
    · subst hq
      simp [holding]
    · simp only [Function.update_of_ne hq, hq, false_or]
      exact hm.held q
  · simp only [hheld, hzero, List.length_cons]
    omega
  · have hbalance := hm.balance q
    simp only [hheld, List.mem_cons]
    by_cases hq : q = p
    · subst hq
      rw [if_neg hfree] at hbalance
      simp only [Function.update_self, true_or, if_true]
      omega
    · simp only [Function.update_of_ne hq, hq, false_or]
      exact hbalance

/-- `release` does not panic for a lock that the pass has acquired. -/
theorem release (hm : LockInv h m) (hspinning : m.point.spinning = 0)
    (hheld : m.point.held.Perm (p :: k.held)) (hnot : p ∉ k.held) (hzero : k.spinning = 0)
    (hrunnable : ∀ c, k.choice = some c → (m.proc c).state = .runnable) (hpassed : k.Passed) :
    LockInv h (m.release h p k) := by
  have hlength := hheld.length_eq
  have hnoff := hm.noff
  rw [List.length_cons] at hlength
  have hholding : holding (m.lock p) h = true :=
    (hm.held p).mpr (hheld.mem_iff.mpr List.mem_cons_self)
  obtain ⟨cpu, hpop⟩ := exists_popOff (hm.off (by omega)) (by omega : 0 < m.cpu.noff)
  obtain ⟨-, hnoff', -, hsie⟩ := popOff_ok hpop
  have hrelease : Spinlock.release (m.lock p) h m.cpu = .ok (⟨false, none⟩, cpu) := by
    simp only [Spinlock.release, hholding, hpop]
    rfl
  rw [LockState.release, hrelease]
  refine ⟨fun q ↦ ?_, ?_, fun hpos ↦ ?_, fun q ↦ ?_, hrunnable, hpassed⟩
  · by_cases hq : q = p
    · subst hq
      simp [holding, hnot]
    · have hmem := hheld.mem_iff (a := q)
      rw [List.mem_cons, or_iff_right hq] at hmem
      simp only [Function.update_of_ne hq, ← hmem]
      exact hm.held q
  · simp only [hzero]
    omega
  · have hne : cpu.noff ≠ 0 := Nat.pos_iff_ne_zero.mp hpos
    simp only [hsie, hne, decide_false, Bool.false_and]
  · have hbalance := hm.balance q
    have hmem := hheld.mem_iff (a := q)
    by_cases hq : q = p
    · subst hq
      rw [if_pos (hmem.mpr List.mem_cons_self)] at hbalance
      simp only [Function.update_self, hnot, if_false]
      omega
    · rw [List.mem_cons, or_iff_right hq] at hmem
      simp only [Function.update_of_ne hq, ← hmem]
      exact hbalance

/-- The test of the second scan keeps the lock of the process that it chooses. -/
theorem test {winner : Int32} {d : Draw} (hm : LockInv h m) (hpoint : m.point = .scanTest p winner d) :
    LockInv h (m.goto (m.test p winner d)) := by
  have hpassed : ∀ c, d.chosen = some c → c < p := by
    have hpassed := hm.passed
    rwa [hpoint] at hpassed
  have hchosen : ∀ c, d.chosen = some c → (m.proc c).state = .runnable := by
    have hrunnable := hm.runnable
    rwa [hpoint] at hrunnable
  unfold LockState.test
  split
  · rename_i hp
    dsimp only
    split
    · split
      · rename_i c hc
        refine hm.goto ?_ (by rw [hpoint]; rfl) ?_ (hpassed c hc)
        · rw [hpoint]
          simp [Point.held, hc]
        · rintro q hq
          obtain rfl := Option.some.inj hq
          exact hp
      · rename_i hnone
        refine hm.goto ?_ (by rw [hpoint]; rfl) ?_ ?_
        · rw [hpoint]
          simp [Point.held, hnone]
        · rintro q hq
          obtain rfl := Option.some.inj hq
          exact hp
        · rintro q hq
          obtain rfl := Option.some.inj hq
          exact Nat.lt_succ_self _
    · exact hm.goto (by rw [hpoint]; rfl) (by rw [hpoint]; rfl) hchosen hpassed
  · exact hm.goto (by rw [hpoint]; rfl) (by rw [hpoint]; rfl) hchosen hpassed

/-- The invariant after a statement of the scheduler. -/
theorem statement (hm : LockInv h m) (hnext : m.statement h = some m') : LockInv h m' := by
  obtain ⟨proc, lock, cpu, next, point, acquired, released⟩ := m
  have hpassed := hm.passed
  have hrunnable := hm.runnable
  cases point with
  | sum p total =>
    simp only [LockState.statement] at hnext
    split at hnext
    · cases hnext
      exact hm.acquire List.not_mem_nil rfl rfl rfl rfl trivial
    · split at hnext
      · cases hnext
        exact (hm.reseed _).goto rfl rfl (fun c hc ↦ by cases hc) (fun c hc ↦ by cases hc)
      · cases hnext
        exact hm.goto rfl rfl (fun c hc ↦ by cases hc) trivial
  | sumSpin p total =>
    exact hm.take (k := .sumTest p total) List.not_mem_nil rfl rfl rfl rfl trivial hnext
  | sumTest p total =>
    cases hnext
    exact hm.goto rfl rfl (fun c hc ↦ by cases hc) trivial
  | sumRelease p total =>
    cases hnext
    exact hm.release rfl (List.Perm.refl _) List.not_mem_nil rfl (fun c hc ↦ by cases hc) trivial
  | scan p winner d =>
    simp only [LockState.statement] at hnext
    split at hnext
    · cases hnext
      refine hm.acquire (fun hmem ↦ ?_) rfl rfl rfl rfl hpassed
      exact Nat.lt_irrefl p (hpassed _ (Option.mem_toList.mp hmem))
    · split at hnext
      · rename_i c hc
        cases hnext
        refine hm.goto (by simp [Point.held, hc]) rfl (fun q hq ↦ ?_) trivial
        exact hrunnable q (hc.trans hq)
      · rename_i hnone
        cases hnext
        exact hm.goto (by simp [Point.held, hnone]) rfl (fun q hq ↦ by cases hq) trivial
  | scanSpin p winner d =>
    refine hm.take (k := .scanTest p winner d) (fun hmem ↦ ?_) rfl rfl rfl rfl hpassed hnext
    exact lt_irrefl p (hpassed p (Option.mem_toList.mp hmem))
  | scanTest p winner d =>
    cases hnext
    exact hm.test rfl
  | skip p winner d =>
    cases hnext
    refine hm.release rfl (List.Perm.refl _) (fun hmem ↦ ?_) rfl hrunnable fun c hc ↦ ?_
    · exact lt_irrefl p (hpassed p (Option.mem_toList.mp hmem))
    · exact Nat.lt_succ_of_lt (hpassed c hc)
  | handOver p c winner currentTickets =>
    cases hnext
    refine hm.release rfl (List.Perm.swap c p []) (fun hmem ↦ ?_) rfl hrunnable fun q hq ↦ ?_
    · exact lt_irrefl c (List.mem_singleton.mp hmem ▸ hpassed)
    · obtain rfl := Option.some.inj hq
      exact Nat.lt_succ_self _
  | dispatch c =>
    cases hnext
    exact ⟨hm.held, hm.noff, hm.off, hm.balance, (fun _ hq ↦ by cases hq), trivial⟩
  | switch c =>
    cases hnext
    exact hm.goto rfl rfl (fun q hq ↦ by cases hq) trivial
  | away c => cases hnext
  | back c =>
    cases hnext
    exact hm.release rfl (List.Perm.refl _) List.not_mem_nil rfl (fun q hq ↦ by cases hq) trivial
  | done =>
    cases hnext
    have hnoff : cpu.noff = 0 := hm.noff
    exact ⟨hm.held, hm.noff, fun hpos ↦ absurd hnoff (Nat.pos_iff_ne_zero.mp hpos), fun _ ↦ rfl,
      (fun _ hq ↦ by cases hq), trivial⟩
  | panicked message => cases hnext

/-- The other harts change what this hart has not locked. -/
theorem others {proc : Slot → Proc} {lock : Slot → Lock H} (hm : LockInv h m)
    (hothers : Allowed h m (.others proc lock)) :
    LockInv h { m with proc := proc, lock := lock } := by
  refine ⟨fun p ↦ ?_, hm.noff, hm.off, hm.balance, fun c hc ↦ ?_, hm.passed⟩
  · have hp := hothers p
    rw [← hm.held p]
    split at hp
    · exact hp.2 ▸ Iff.rfl
    · rename_i hfree
      simp only [hp, hfree, Bool.false_eq_true]
  · have hp := hothers c
    rw [if_pos ((hm.held c).mpr (Point.mem_held_of_choice hc))] at hp
    exact (congrArg Proc.state hp.1).trans (hm.runnable c hc)

theorem next {e : LockEvent H} (hm : LockInv h m) (hallowed : Allowed h m e)
    (hnext : lockNext h m e = some m') : LockInv h m' := by
  cases e with
  | own => exact hm.statement hnext
  | others proc lock =>
    cases hnext
    exact hm.others hallowed
  | sched proc lock cpu =>
    simp only [lockNext] at hnext
    split at hnext
    · rename_i c hc
      cases hnext
      obtain ⟨hheld, hnoff, hsie⟩ := hallowed c hc
      have hbalance := hm.balance
      rw [hc] at hbalance
      exact ⟨fun p ↦ (hheld p).trans List.mem_singleton.symm, hnoff, fun _ ↦ hsie, hbalance,
        (fun _ hq ↦ by cases hq), trivial⟩
    · cases hnext

theorem start (h : H) (proc : Slot → Proc) (next : UInt64) :
    LockInv h (lottery h proc next).start where
  held _ := by simp [lottery, holding, Point.held]
  noff := rfl
  off hpos := absurd hpos (Nat.lt_irrefl 0)
  balance _ := rfl
  runnable _ hc := by cases hc
  passed := trivial

end LockInv

/-- The lock discipline of the LBS scheduler, whatever the other harts do to processes whose lock it
does not hold: no `acquire` or `release` panics, every lock is released once, the choice is `RUNNABLE`
just before it is set `RUNNING`, and at `swtch` its lock is the only one, with `noff` at 1. -/
theorem lock_discipline (h : H) (proc : Slot → Proc) (next : UInt64)
    (hm : (lottery h proc next).Reachable (Allowed h) m) :
    (∀ message, m.point ≠ .panicked message) ∧
    (∀ p, holding (m.lock p) h = true ↔ p ∈ m.point.held) ∧
    (∀ p, m.acquired p = m.released p + if p ∈ m.point.held then 1 else 0) ∧
    (∀ c, m.point = .dispatch c → (m.proc c).state = .runnable) ∧
    (∀ c, m.point = .switch c →
      (∀ p, holding (m.lock p) h = true ↔ p = c) ∧ m.cpu.noff = 1) ∧
    (m.point = .done →
      (∀ p, holding (m.lock p) h = false ∧ m.acquired p = m.released p) ∧ m.cpu.noff = 0) := by
  have hinv : LockInv h m := hm.invariant (LockInv h) (LockInv.start h proc next)
    fun _ _ _ hs hallowed hnext ↦ hs.next hallowed hnext
  have hnoff := hinv.noff
  refine ⟨fun message hpoint ↦ ?_, hinv.held, hinv.balance, fun c hpoint ↦ ?_, fun c hpoint ↦ ?_,
    fun hpoint ↦ ?_⟩
  · have hpassed := hinv.passed
    rw [hpoint] at hpassed
    exact hpassed
  · exact hinv.runnable c (by rw [hpoint]; rfl)
  · refine ⟨fun p ↦ ?_, by rw [hnoff, hpoint]; rfl⟩
    rw [hinv.held p, hpoint]
    exact List.mem_singleton
  · refine ⟨fun p ↦ ⟨?_, ?_⟩, by rw [hnoff, hpoint]; rfl⟩
    · rw [Bool.eq_false_iff, Ne, hinv.held p, hpoint]
      exact List.not_mem_nil
    · rw [hinv.balance p, hpoint]
      rfl

/-- Two processes with as many tickets: the second scan hands over from slot 3 to slot 5, which is
there for longer. -/
def handOverTable (p : Slot) : Proc :=
  if p = 3 then { state := .runnable, tickets := 1, startTimeLbs := 8 }
  else if p = 5 then { state := .runnable, tickets := 1, startTimeLbs := 4 }
  else {}

theorem lock_discipline_handOver :
    ∃ m : LockState Unit, m.point = .switch 5 ∧ m.released 3 = 2 ∧
      (∀ p, holding (m.lock p) () = true ↔ p = 5) ∧ m.cpu.noff = 1 := by
  obtain ⟨m, hm, hswitch, hreleased⟩ :=
    (lottery () handOverTable 0).exists_reachable (fun _ e ↦ e.isOwn = true)
      (fun m ↦ m.point = .switch 5 ∧ m.released 3 = 2) (List.replicate 515 .own)
      (by decide +kernel)
  have hallowed : (lottery () handOverTable 0).Reachable (Allowed ()) m :=
    hm.mono fun s e he ↦ by
      cases e with
      | own => trivial
      | others | sched => cases he
  obtain ⟨-, -, -, -, hheld, -⟩ := lock_discipline () handOverTable 0 hallowed
  exact ⟨m, hswitch, hreleased, hheld 5 hswitch⟩

end EnhancedXv6.Lottery
