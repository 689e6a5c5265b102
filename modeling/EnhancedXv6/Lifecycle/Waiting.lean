import EnhancedXv6.Lifecycle.System

/-!
# wait and waitx

The two calls scan the table for an exited child with the same loop, except that only `wait` adds
the child's system-call counters to those of the caller.  Both are given here with the user memory
they write the exit status to.  `copyout` is a parameter: what it does to memory does not matter, as
long as both calls use the same one.
-/

namespace EnhancedXv6.Lifecycle

open Kernel Transition

section

variable {Mem : Type} (copyout : Mem → UInt64 → Int32 → Bool × Mem) (b : Build)

/-- The copy of the exit status of the child that the scan found, unless `addr` is null: whether
`copyout` failed, and the memory. -/
def copyStatus (s : State) (mem : Mem) (p : Slot) (addr : UInt64) : Bool × Mem :=
  match findZombie s p with
  | none => (false, mem)
  | some pp => if addr = 0 then (false, mem) else copyout mem addr (s.proc pp).xstate

/-- One scan of `wait(addr)` by process `p`: the value returned, the process table and the memory,
or `none` when it blocks. -/
def waitCall (s : State) (mem : Mem) (p : Slot) (addr : UInt64) : Option (Int32 × State × Mem) :=
  let copied := copyStatus copyout s mem p addr
  (wait b s p copied.1).map fun r ↦ (r.1, r.2, copied.2)

/-- One scan of `waitx(addr, wtime, rtime)` by process `p`, with the two times. -/
def waitxCall (s : State) (mem : Mem) (p : Slot) (addr : UInt64) :
    Option (Int32 × Option (UInt32 × UInt32) × State × Mem) :=
  let copied := copyStatus copyout s mem p addr
  (waitx b s p copied.1).map fun r ↦ (r.1, r.2.1, r.2.2, copied.2)

def withoutTimes : Int32 × Option (UInt32 × UInt32) × State × Mem → Int32 × State × Mem :=
  fun r ↦ (r.1, r.2.2)

variable {b} {s : State} {p pp : Slot} {fails : Bool}

theorem wait_of_findZombie (hfind : findZombie s p = some pp) :
    wait b s p fails =
      let s' := s.modify p (addCounters (s.proc pp).sysCounter)
      some (if fails then (-1, s') else ((s.proc pp).pid, s'.modify pp (freeproc b))) := by
  cases fails <;> simp [wait, hfind]

theorem waitx_of_findZombie (hfind : findZombie s p = some pp) :
    (waitx b s p fails).map (fun r ↦ (r.1, r.2.2)) =
      some (if fails then (-1, s) else ((s.proc pp).pid, s.modify pp (freeproc b))) := by
  cases fails <;> simp [waitx, hfind]

theorem wait_of_none (hfind : findZombie s p = none) :
    wait b s p fails = (waitx b s p fails).map fun r ↦ (r.1, r.2.2) := by
  simp only [wait, waitx, hfind]
  split <;> rfl

/-- What a scan of `wait` that returns has done to the table. -/
theorem wait_cases {r : Int32 × State} (hscan : wait b s p fails = some r) :
    findZombie s p = none ∧ r.2 = s ∨
    ∃ pp, findZombie s p = some pp ∧
      r.2 = if fails then s.modify p (addCounters (s.proc pp).sysCounter)
        else (s.modify p (addCounters (s.proc pp).sysCounter)).modify pp (freeproc b) := by
  cases hfind : findZombie s p with
  | none =>
    simp only [wait, hfind] at hscan
    split at hscan <;> cases hscan
    exact .inl ⟨rfl, rfl⟩
  | some pp =>
    rw [wait_of_findZombie hfind] at hscan
    obtain rfl := Option.some.inj hscan
    exact .inr ⟨pp, rfl, by split <;> rfl⟩

/-- What a scan of `waitx` that returns has done to the table. -/
theorem waitx_cases {r : Int32 × Option (UInt32 × UInt32) × State}
    (hscan : waitx b s p fails = some r) :
    r.2.2 = s ∨ ∃ pp, findZombie s p = some pp ∧ r.2.2 = s.modify pp (freeproc b) := by
  cases hfind : findZombie s p with
  | none =>
    simp only [waitx, hfind] at hscan
    split at hscan <;> cases hscan
    exact .inl rfl
  | some pp =>
    cases fails <;> simp only [waitx, hfind] at hscan <;> obtain rfl := Option.some.inj hscan
    · exact .inr ⟨pp, rfl, rfl⟩
    · exact .inl rfl

theorem modify_addCounters_of_zero {counters : Fin 32 → UInt64} (h : ∀ i, counters i = 0) :
    s.modify p (addCounters counters) = s := by
  apply State.modify_eq_self
  simp [addCounters, h]

/-- `freeproc` keeps the counters, so that added counters stay visible after the child is freed. -/
theorem addCounters_eq_zero {counters : Fin 32 → UInt64} {t t' : State}
    (hadded : (t.proc p).sysCounter = (addCounters counters (t'.proc p)).sysCounter)
    (hsame : t = t') (i : Fin 32) : counters i = 0 := by
  have hsum := congrFun hadded i
  rw [hsame] at hsum
  simpa [addCounters] using hsum

theorem wait_eq_waitx_iff :
    wait b s p fails = (waitx b s p fails).map (fun r ↦ (r.1, r.2.2)) ↔
      ∀ pp, findZombie s p = some pp → ∀ i, (s.proc pp).sysCounter i = 0 := by
  cases hfind : findZombie s p with
  | none => simp [wait_of_none hfind]
  | some pp =>
    rw [wait_of_findZombie hfind, waitx_of_findZombie hfind]
    constructor
    · intro h pp' hpp' i
      obtain rfl := Option.some.inj hpp'
      cases fails with
      | true =>
        have hstate : s.modify p (addCounters (s.proc pp).sysCounter) = s := by simpa using h
        exact addCounters_eq_zero (p := p) (by simp) hstate i
      | false =>
        have hstate : (s.modify p (addCounters (s.proc pp).sysCounter)).modify pp (freeproc b) =
            s.modify pp (freeproc b) := by simpa using h
        refine addCounters_eq_zero (p := p) ?_ hstate i
        by_cases hp : p = pp <;> simp [hp, freeproc, addCounters]
    · intro h
      rw [modify_addCounters_of_zero (h pp rfl)]

theorem wait_value : (wait b s p fails).map Prod.fst = (waitx b s p fails).map Prod.fst := by
  cases hfind : findZombie s p with
  | none => simp [wait_of_none hfind, Function.comp_def]
  | some pp => cases fails <;> simp [wait, waitx, hfind]

theorem waitCall_value (mem : Mem) (addr : UInt64) :
    (waitCall copyout b s mem p addr).map (fun r ↦ (r.1, r.2.2)) =
      (waitxCall copyout b s mem p addr).map (fun r ↦ (r.1, r.2.2.2)) := by
  let copied := copyStatus copyout s mem p addr
  calc
    (waitCall copyout b s mem p addr).map (fun r ↦ (r.1, r.2.2)) =
        ((wait b s p copied.1).map Prod.fst).map fun value ↦ (value, copied.2) := by
      simp only [waitCall, Option.map_map]
      rfl
    _ = ((waitx b s p copied.1).map Prod.fst).map fun value ↦ (value, copied.2) := by
      rw [wait_value]
    _ = (waitxCall copyout b s mem p addr).map (fun r ↦ (r.1, r.2.2.2)) := by
      simp only [waitxCall, Option.map_map]
      rfl

theorem waitCall_eq_iff (mem : Mem) (addr : UInt64) :
    waitCall copyout b s mem p addr = (waitxCall copyout b s mem p addr).map withoutTimes ↔
      ∀ pp, findZombie s p = some pp → ∀ i, (s.proc pp).sysCounter i = 0 := by
  let copied := copyStatus copyout s mem p addr
  have hinj : Function.Injective fun r : Int32 × State ↦ (r.1, r.2, copied.2) := by
    rintro ⟨pid, t⟩ ⟨pid', t'⟩ h
    simpa using h
  have hwaitx : (waitxCall copyout b s mem p addr).map withoutTimes =
      ((waitx b s p copied.1).map fun r ↦ (r.1, r.2.2)).map fun r ↦ (r.1, r.2, copied.2) := by
    simp only [waitxCall, Option.map_map]
    rfl
  rw [hwaitx, ← wait_eq_waitx_iff]
  exact (Option.map_injective hinj).eq_iff

/-- `wait` and `waitx` block in the same cases and return the same value with the same user memory.
They leave the same table and the same counters if and only if no exited child is found or the one found
has made no system call. -/
theorem wait_agrees_with_waitx (s : State) (mem : Mem) (p : Slot) (addr : UInt64) :
    (waitCall copyout b s mem p addr = none ↔ waitxCall copyout b s mem p addr = none) ∧
    (waitCall copyout b s mem p addr).map (fun r ↦ (r.1, r.2.2)) =
      (waitxCall copyout b s mem p addr).map (fun r ↦ (r.1, r.2.2.2)) ∧
    (waitCall copyout b s mem p addr = (waitxCall copyout b s mem p addr).map withoutTimes ↔
      ∀ pp, findZombie s p = some pp → ∀ i, (s.proc pp).sysCounter i = 0) := by
  refine ⟨?_, waitCall_value copyout mem addr, waitCall_eq_iff copyout mem addr⟩
  have hvalue := waitCall_value copyout (b := b) (s := s) (p := p) mem addr
  rw [← Option.map_eq_none_iff, hvalue, Option.map_eq_none_iff]

end

/-- The first process forks a child, which completes one `getpid` and exits. -/
def childCalls : List LifeEvent :=
  [.move 0 .running, .forkAlloc 0 1 .ok, .forkPublish 0, .move 1 .running, .complete 1 11,
    .exit 1 0]

set_option maxRecDepth 100000 in
/-- A caller whose exited child has made a system call gets different counters from `wait` than from
`waitx`. -/
theorem wait_differs_from_waitx :
    ∃ s, (lifecycle .default).Reachable (fun _ _ ↦ True) s ∧ Acts s 0 ∧
      waitCall (fun mem _ _ ↦ (false, mem)) .default s () 0 0 ≠
        (waitxCall (fun mem _ _ ↦ (false, mem)) .default s () 0 0).map withoutTimes := by
  obtain ⟨s, hs, hacts, hfind, hcounter⟩ := (lifecycle .default).exists_reachable (fun _ _ ↦ True)
    (fun s ↦ Acts s 0 ∧ findZombie s 0 = some 1 ∧ (s.proc 1).sysCounter 11 ≠ 0) childCalls
    (by decide +kernel)
  exact ⟨s, hs, hacts, fun h ↦ hcounter ((waitCall_eq_iff _ () 0).mp h 1 hfind 11)⟩

end EnhancedXv6.Lifecycle
