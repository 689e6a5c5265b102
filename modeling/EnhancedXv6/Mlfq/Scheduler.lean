import EnhancedXv6.Mlfq.Queue

/-!
# The MLFQ scheduler pass

One pass of the loop body of `scheduler()` in the MLFQ build.
-/

namespace EnhancedXv6.Mlfq

open Kernel Buffer Fallible

/-! ## The pass -/

/-- A process that the scan appends to the queue of its level. -/
def Waiting (s : State) (p : Slot) : Prop :=
  (s.proc p).state = .runnable ∧ (s.proc p).statusQueue = false

instance (s : State) (p : Slot) : Decidable (Waiting s p) :=
  inferInstanceAs (Decidable (_ ∧ _))

def enqueueScan (s : State) : Except Fault State :=
  table.foldlM (fun s p ↦ if Waiting s p then enqueue s p else pure s) s

/-- The `while` loop on one queue; `current` is the last process popped.  It ends when that one is
`RUNNABLE`, which then goes back to the front.  Each iteration pops once, so `tail` bounds their number.
-/
def drain (q : Fin queueSize) : ℕ → Option Slot → State → Except Fault (Option Slot × State)
  | 0, current, s => pure (current, s)
  | fuel + 1, current, s => do
    if (s.queue q).tail ≤ 0 then pure (current, s)
    else
      let (p, s) ← pop s q
      let s := s.modify p fun pr ↦ { pr with statusQueue := false }
      if (s.proc p).state = .runnable then
        let s ← pushFront s p
        pure (some p, s)
      else drain q fuel (some p) s

def visit (r : Option Slot × State) (q : Fin queueSize) : Except Fault (Option Slot × State) :=
  if r.1.isSome then pure r else drain q (r.2.queue q).tail.toNat r.1 r.2

/-- The `for` loop over the queues, left as soon as something was popped. -/
def select (s : State) : Except Fault (Option Slot × State) :=
  (List.finRange queueSize).foldlM visit (none, s)

/-- The end of a pass: `current_process_track` is dispatched if it is `RUNNABLE`. -/
def runCurrent (s : State) (h : Hart) : Option Slot → State
  | none => s
  | some p => if (s.proc p).state = .runnable then dispatch s h p else s

def pass (s : State) (h : Hart) : Except Fault State := do
  let s ← enqueueScan s
  let (current, s) ← select s
  pure (runCurrent s h current)

/-! ## The scan on lists -/

/-- The processes that the scan appends to queue `q`, in table order. -/
def appended (s : State) (visited : List Slot) (q : Fin queueSize) : List Slot :=
  visited.filter fun p ↦ Waiting s p ∧ (s.proc p).priorityQueueNumber = q

def scanned (s : State) (xs : Fin queueSize → List Slot) : Fin queueSize → List Slot :=
  fun q ↦ xs q ++ appended s table q

/-- What the scan has done when it has visited a part of the table. -/
structure Scanned (s : State) (xs : Fin queueSize → List Slot) (visited : List Slot)
    (t : State) : Prop where
  rep : Rep t fun q ↦ xs q ++ appended s visited q
  frame : Frame s t
  status : ∀ p, (t.proc p).statusQueue = true ↔
    (s.proc p).statusQueue = true ∨ (p ∈ visited ∧ Waiting s p)
  level : ∀ p ∈ visited, Waiting s p → (s.proc p).priorityQueueNumber < queueSize

variable {s s' t : State} {xs : Fin queueSize → List Slot} {h : Hart}

/-- A process not yet visited is waiting as it was at the start of the scan. -/
theorem Scanned.waiting_iff {visited : List Slot} (hscan : Scanned s xs visited t) {p : Slot}
    (hp : p ∉ visited) : Waiting t p ↔ Waiting s p := by
  have hstatus := hscan.status p
  simp only [hp, false_and, or_false] at hstatus
  unfold Waiting
  rw [hscan.frame.state p, ← Bool.not_eq_true, ← Bool.not_eq_true, hstatus]

/-- A visited process that is not waiting changes nothing. -/
theorem Scanned.skip {visited : List Slot} (hscan : Scanned s xs visited t) {p : Slot}
    (hp : ¬ Waiting s p) : Scanned s xs (visited ++ [p]) t := by
  have happended : appended s (visited ++ [p]) = appended s visited := by
    funext q
    simp [appended, hp]
  refine ⟨by rw [happended]; exact hscan.rep, hscan.frame, fun i ↦ ?_, fun i hi hw ↦ ?_⟩
  · rw [hscan.status i]
    simp only [List.mem_append, List.mem_singleton]
    constructor
    · rintro (h | ⟨hi, hw⟩)
      · exact .inl h
      · exact .inr ⟨.inl hi, hw⟩
    · rintro (h | ⟨hi | rfl, hw⟩)
      · exact .inl h
      · exact .inr ⟨hi, hw⟩
      · exact absurd hw hp
  · rcases List.mem_append.mp hi with hi | hi
    · exact hscan.level i hi hw
    · obtain rfl := List.mem_singleton.mp hi
      exact absurd hw hp

/-- A visited process that is waiting goes to the end of the queue of its level. -/
theorem Scanned.take {visited : List Slot} (hscan : Scanned s xs visited t) {p : Slot}
    {q : Fin queueSize} {t' : State} (hp : Waiting s p)
    (hlevel : (s.proc p).priorityQueueNumber = q)
    (hrep : Rep t' (Function.update (fun q ↦ xs q ++ appended s visited q) q
      (xs q ++ appended s visited q ++ [p])))
    (hframe : Frame t t') (hstatus : StatusSet t t' p true) :
    Scanned s xs (visited ++ [p]) t' := by
  refine ⟨?_, hscan.frame.trans hframe, fun i ↦ ?_, fun i hi hw ↦ ?_⟩
  · convert hrep using 1
    funext i
    by_cases hi : i = q
    · subst hi
      simp [appended, hp, hlevel]
    · have hne : (s.proc p).priorityQueueNumber ≠ i.val := by
        rw [hlevel]
        exact fun heq ↦ hi (Fin.ext heq.symm)
      simp [appended, hi, hne]
  · rw [hstatus i]
    by_cases hi : i = p
    · subst hi
      simp [hp]
    · simp [hi, hscan.status i]
  · rcases List.mem_append.mp hi with hi | hi
    · exact hscan.level i hi hw
    · obtain rfl := List.mem_singleton.mp hi
      rw [hlevel]
      exact q.isLt

theorem Scanned.start (hrep : Rep s xs) : Scanned s xs [] s := by
  refine ⟨?_, Frame.refl s, fun p ↦ by simp, fun p hp ↦ by simp at hp⟩
  simpa [appended] using hrep

/-- The visited part of the table does not contain the process at hand. -/
theorem notMem_of_table {visited rest : List Slot} {p : Slot}
    (hall : table = visited ++ p :: rest) : p ∉ visited := by
  have hnodup : (visited ++ p :: rest).Nodup := hall ▸ List.nodup_finRange NPROC
  intro hp
  exact (List.nodup_append.mp hnodup).2.2 p hp p List.mem_cons_self rfl

theorem enqueueScan_ok (hrep : Rep s xs) (hscan : enqueueScan s = .ok t) :
    Scanned s xs table t := by
  have hall : table = [] ++ table := rfl
  refine foldlM_ok (Scanned s xs) ?_ hall (.start hrep) hscan
  intro visited p rest t t' hall hpart hstep
  have hwaiting := hpart.waiting_iff (notMem_of_table hall)
  by_cases hp : Waiting s p
  · rw [if_pos (hwaiting.mpr hp)] at hstep
    obtain ⟨q, hlevel, -, hrep', hframe, hstatus⟩ := enqueue_ok hpart.rep hstep
    rw [hpart.frame.level p] at hlevel
    exact hpart.take hp hlevel hrep' hframe hstatus
  · rw [if_neg (mt hwaiting.mp hp)] at hstep
    cases hstep
    exact hpart.skip hp

/-- The scan succeeds when the queues have room for the processes it appends. -/
theorem enqueueScan_exists (hrep : Rep s xs)
    (hlevel : ∀ p, Waiting s p → (s.proc p).priorityQueueNumber < queueSize)
    (hroom : ∀ q, (scanned s xs q).length ≤ NPROC) : ∃ t, enqueueScan s = .ok t := by
  have hstep : ∀ visited p rest t, table = visited ++ p :: rest → Scanned s xs visited t →
      ∃ t', (if Waiting t p then enqueue t p else pure t) = .ok t' ∧
        Scanned s xs (visited ++ [p]) t' := by
    intro visited p rest t hall hpart
    have hwaiting := hpart.waiting_iff (notMem_of_table hall)
    by_cases hp : Waiting s p
    · have hq := hlevel p hp
      have hlen : (xs ⟨_, hq⟩ ++ appended s visited ⟨_, hq⟩).length < NPROC := by
        have h := hroom ⟨_, hq⟩
        simp only [scanned, appended, hall, List.filter_append, List.length_append,
          List.filter_cons, hp, true_and, decide_true, if_true, List.length_cons] at h ⊢
        omega
      obtain ⟨t', henqueue, hrep', hframe, hstatus⟩ := enqueue_spec hpart.rep
        (q := ⟨_, hq⟩) (hpart.frame.level p) hlen
      exact ⟨t', by rw [if_pos (hwaiting.mpr hp), henqueue],
        hpart.take hp rfl hrep' hframe hstatus⟩
    · exact ⟨t, if_neg (mt hwaiting.mp hp), hpart.skip hp⟩
  have hall : table = [] ++ table := rfl
  obtain ⟨t, ht, -⟩ := foldlM_exists (Scanned s xs) hstep hall (.start hrep)
  exact ⟨t, ht⟩

/-- The scan never overfills a queue without reporting it. -/
theorem Scanned.length_le (hscan : Scanned s xs table t) (q : Fin queueSize) :
    (scanned s xs q).length ≤ NPROC :=
  hscan.rep.length_le q

/-! ## The selection on lists -/

/-- The lists after `p` was popped from queue `q`, of which `rest` remains, and pushed at the front
of queue `level`. -/
def putBack (xs : Fin queueSize → List Slot) (q : Fin queueSize) (rest : List Slot)
    (level : Fin queueSize) (p : Slot) : Fin queueSize → List Slot :=
  Function.update (Function.update xs q rest) level (p :: Function.update xs q rest level)

/-- What the loop on queue `q` did, given the process popped before it. -/
inductive Drained (s : State) (xs : Fin queueSize → List Slot) (q : Fin queueSize)
    (current : Option Slot) : Option Slot → State → Prop
  /-- every entry was popped, none was `RUNNABLE` -/
  | exhausted {t : State} :
      (∀ p ∈ xs q, (s.proc p).state ≠ .runnable) →
      Rep t (Function.update xs q []) → Frame s t →
      (∀ p, (t.proc p).statusQueue = true ↔ (s.proc p).statusQueue = true ∧ p ∉ xs q) →
      Drained s xs q current ((xs q).getLast?.or current) t
  /-- the entries before the first `RUNNABLE` one were popped -/
  | found {dead rest : List Slot} {p : Slot} {level : Fin queueSize} {t : State} :
      xs q = dead ++ p :: rest →
      (∀ i ∈ dead, (s.proc i).state ≠ .runnable) → (s.proc p).state = .runnable →
      (s.proc p).priorityQueueNumber = level →
      (Function.update xs q rest level).length + 1 < NPROC →
      Rep t (putBack xs q rest level p) → Frame s t →
      (∀ i, (t.proc i).statusQueue = true ↔
        i = p ∨ ((s.proc i).statusQueue = true ∧ i ∉ dead)) →
      Drained s xs q current (some p) t

/-- A popped process that is not `RUNNABLE` joins those popped before it. -/
theorem Drained.cons {q : Fin queueSize} {p : Slot} {rest : List Slot} {current : Option Slot}
    {result : Option Slot} {u : State} (hxs : xs q = p :: rest)
    (hstate : (s.proc p).state ≠ .runnable) (hframe : Frame s t) (hstatus : StatusSet s t p false)
    (hrest : Drained t (Function.update xs q rest) q (some p) result u) :
    Drained s xs q current result u := by
  have hself : Function.update xs q rest q = rest := by simp
  cases hrest with
  | exhausted hdead hrep hframe' hstatus' =>
    rw [hself] at hdead hstatus' ⊢
    have hlast : rest.getLast?.or (some p) = (xs q).getLast?.or current := by
      rw [hxs, List.getLast?_cons]
      cases rest.getLast? <;> rfl
    rw [hlast]
    refine .exhausted ?_ (by simpa using hrep) (hframe.trans hframe') fun i ↦ ?_
    · intro i hi
      rcases List.mem_cons.mp (hxs ▸ hi) with rfl | hi
      · exact hstate
      · rw [← hframe.state i]
        exact hdead i hi
    · rw [hstatus' i, hstatus i, hxs]
      by_cases hi : i = p <;> simp [hi]
  | @found dead rest' p' level _ hsplit hdead hrunnable hlevel hroom hrep hframe' hstatus' =>
    rw [hself] at hsplit
    have hne : p' ≠ p := by
      rintro rfl
      rw [hframe.state] at hrunnable
      exact hstate hrunnable
    have hxs' : xs q = (p :: dead) ++ p' :: rest' := by rw [hxs, hsplit, List.cons_append]
    refine .found hxs' ?_
      (by rw [← hframe.state p']; exact hrunnable) (by rw [← hframe.level p']; exact hlevel)
      (by simpa using hroom) (by simpa [putBack] using hrep) (hframe.trans hframe') fun i ↦ ?_
    · intro i hi
      rcases List.mem_cons.mp hi with rfl | hi
      · exact hstate
      · rw [← hframe.state i]
        exact hdead i hi
    · rw [hstatus' i, hstatus i]
      by_cases hi : i = p
      · subst hi
        simp [hne.symm]
      · simp [hi]

theorem drain_succ {q : Fin queueSize} {p : Slot} {rest : List Slot} (hrep : Rep s xs)
    (hxs : xs q = p :: rest) (fuel : ℕ) (current : Option Slot) :
    ∃ t, Rep t (Function.update xs q rest) ∧ Frame s t ∧ StatusSet s t p false ∧
      drain q (fuel + 1) current s =
        if (s.proc p).state = .runnable then
          (do let u ← pushFront t p; pure (some p, u))
        else drain q fuel (some p) t := by
  obtain ⟨t, hpop, hrep', hframe, hstatus⟩ := pop_spec hrep hxs
  have htail : ¬ (s.queue q).tail ≤ 0 := by
    rw [(hrep q).tail, hxs]
    simp only [List.length_cons]
    omega
  have hclear := hframe.clearStatus p
  refine ⟨t.modify p fun pr ↦ { pr with statusQueue := false }, hrep'.modify _, hclear, ?_, ?_⟩
  · intro i
    have h := hstatus i
    by_cases hi : i = p <;> simp_all
  · rw [drain, if_neg htail, hpop]
    simp only [ok_bind, hclear.state p]

theorem drain_ok {q : Fin queueSize} {current result : Option Slot} {u : State} (hrep : Rep s xs)
    (hdrain : drain q (xs q).length current s = .ok (result, u)) :
    Drained s xs q current result u := by
  generalize hl : xs q = l at hdrain
  induction l generalizing s xs current with
  | nil =>
    cases hdrain
    have hsame : Function.update xs q [] = xs := by
      rw [← hl]
      exact Function.update_eq_self q xs
    have h : Drained u xs q result ((xs q).getLast?.or result) u :=
      .exhausted (by simp [hl]) (by rw [hsame]; exact hrep) (Frame.refl u) (by simp [hl])
    simpa [hl] using h
  | cons p rest ih =>
    obtain ⟨t, hrep', hframe, hstatus, hiterate⟩ := drain_succ hrep hl rest.length current
    rw [List.length_cons, hiterate] at hdrain
    by_cases hp : (s.proc p).state = .runnable
    · rw [if_pos hp] at hdrain
      obtain ⟨v, hpush, hend⟩ := bind_eq_ok.mp hdrain
      cases hend
      obtain ⟨level, hlevel, hroom, hrep'', hframe', hstatus'⟩ := pushFront_ok hrep' hpush
      have hxs : xs q = [] ++ p :: rest := hl
      refine .found hxs (by simp) hp (by rw [← hframe.level p]; exact hlevel) hroom
        hrep'' (hframe.trans hframe') fun i ↦ ?_
      rw [hstatus' i, hstatus i]
      by_cases hi : i = p <;> simp [hi]
    · rw [if_neg hp] at hdrain
      exact .cons hl hp hframe hstatus (ih hrep' (by simp) hdrain)

/-- The loop on queue `q` succeeds when the process it would put back finds room. -/
theorem drain_exists {q : Fin queueSize} {current : Option Slot} (hrep : Rep s xs)
    (hroom : ∀ dead p rest, xs q = dead ++ p :: rest → (s.proc p).state = .runnable →
      ∃ level : Fin queueSize, (s.proc p).priorityQueueNumber = level ∧
        (Function.update xs q rest level).length + 1 < NPROC) :
    ∃ r, drain q (xs q).length current s = .ok r := by
  generalize hl : xs q = l
  induction l generalizing s xs current with
  | nil => exact ⟨_, rfl⟩
  | cons p rest ih =>
    obtain ⟨t, hrep', hframe, hstatus, hiterate⟩ := drain_succ hrep hl rest.length current
    rw [List.length_cons, hiterate]
    by_cases hp : (s.proc p).state = .runnable
    · obtain ⟨level, hlevel, hlt⟩ := hroom [] p rest hl hp
      obtain ⟨u, hpush, -⟩ := pushFront_spec hrep' ((hframe.level p).trans hlevel) hlt
      exact ⟨(some p, u), by rw [if_pos hp, hpush]; rfl⟩
    · rw [if_neg hp]
      refine ih hrep' (fun dead i tail hsplit hi ↦ ?_) (by simp)
      rw [hframe.state] at hi
      rw [hframe.level]
      obtain ⟨level, hlevel, hlt⟩ := hroom (p :: dead) i tail
        (by rw [hl, ← Function.update_self q rest xs, hsplit]; rfl) hi
      exact ⟨level, hlevel, by simpa using hlt⟩

/-- The queue the scheduler stops at: the first that is not empty. -/
def firstQueue (xs : Fin queueSize → List Slot) : Option (Fin queueSize) :=
  (List.finRange queueSize).find? fun q ↦ xs q ≠ []

theorem firstQueue_eq_none : firstQueue xs = none ↔ ∀ q, xs q = [] := by
  simp [firstQueue]

/-- The queues before the one the scheduler stops at are empty. -/
theorem firstQueue_eq_some {q : Fin queueSize} (hq : firstQueue xs = some q) :
    xs q ≠ [] ∧ ∀ i < q, xs i = [] := by
  obtain ⟨hne, before, after, hsplit, hbefore⟩ := List.find?_eq_some_iff_append.mp hq
  refine ⟨by simpa using hne, fun i hi ↦ ?_⟩
  have hsorted : (before ++ q :: after).Pairwise (· < ·) := hsplit ▸ List.pairwise_lt_finRange _
  have hmem : i ∈ before ++ q :: after := hsplit ▸ List.mem_finRange i
  rcases List.mem_append.mp hmem with hi' | hi'
  · simpa using hbefore i hi'
  · rcases List.mem_cons.mp hi' with rfl | hafter
    · exact absurd hi (lt_irrefl _)
    · have hlater := (List.pairwise_cons.mp (List.pairwise_append.mp hsorted).2.1).1 i hafter
      exact absurd (hi.trans hlater) (lt_irrefl _)

/-- A loop on a queue that is not empty popped something. -/
theorem Drained.isSome {q : Fin queueSize} {current result : Option Slot} {u : State}
    (hdrained : Drained s xs q current result u) (hq : xs q ≠ []) : result.isSome := by
  cases hdrained with
  | exhausted =>
    rw [List.getLast?_eq_some_getLast hq]
    rfl
  | found => rfl

/-- Once something was popped, the other queues are left alone. -/
private theorem foldlM_visit_some (p : Slot) (qs : List (Fin queueSize)) :
    qs.foldlM visit (some p, s) = .ok (some p, s) := by
  induction qs with
  | nil => rfl
  | cons q qs ih => exact ih

/-- The selection works on the first queue that is not empty, and on no other. -/
theorem select_eq (hrep : Rep s xs) :
    select s = match firstQueue xs with
      | none => .ok (none, s)
      | some q => drain q (xs q).length none s := by
  suffices hqs : ∀ qs : List (Fin queueSize), qs.foldlM visit (none, s) =
      match qs.find? fun q ↦ xs q ≠ [] with
      | none => .ok (none, s)
      | some q => drain q (xs q).length none s from hqs _
  intro qs
  induction qs with
  | nil => rfl
  | cons q qs ih =>
    have hfuel : (s.queue q).tail.toNat = (xs q).length := by simp [(hrep q).tail]
    have hvisit : visit (none, s) q = drain q (xs q).length none s := by simp [visit, hfuel]
    rw [List.foldlM_cons, hvisit]
    by_cases hq : xs q = []
    · simp only [hq, List.length_nil, drain, pure_eq_ok, ok_bind]
      simpa [List.find?_cons, hq] using ih
    · cases hdrain : drain q (xs q).length none s with
      | error f => simp [hq, hdrain]
      | ok r =>
        obtain ⟨p, hp⟩ := Option.isSome_iff_exists.mp ((drain_ok hrep hdrain).isSome hq)
        have hr : r = (some p, r.2) := Prod.ext hp rfl
        rw [hr, ok_bind, foldlM_visit_some]
        simp [hq, hdrain, ← hr]

/-! ## The pass on lists -/

/-- A process that is marked as queued once the scan is done. -/
def Queued (s : State) (p : Slot) : Prop :=
  (s.proc p).statusQueue = true ∨ Waiting s p

theorem Scanned.queued (hscan : Scanned s xs table t) (i : Slot) :
    (t.proc i).statusQueue = true ↔ Queued s i := by
  rw [hscan.status i]
  simp [Queued]

inductive Passed (s : State) (xs : Fin queueSize → List Slot) (h : Hart) : State → Prop
  /-- nothing is queued -/
  | idle {u : State} :
      (∀ q, scanned s xs q = []) → Rep u (scanned s xs) → Frame s u →
      (∀ i, (u.proc i).statusQueue = true ↔ Queued s i) → Passed s xs h u
  /-- the first queue that is not empty held no `RUNNABLE` process, and now is empty -/
  | exhausted {q : Fin queueSize} {u : State} :
      firstQueue (scanned s xs) = some q →
      (∀ p ∈ scanned s xs q, (s.proc p).state ≠ .runnable) →
      Rep u (Function.update (scanned s xs) q []) → Frame s u →
      (∀ i, (u.proc i).statusQueue = true ↔ Queued s i ∧ i ∉ scanned s xs q) → Passed s xs h u
  /-- the first `RUNNABLE` process of the first queue that is not empty was dispatched -/
  | dispatched {q level : Fin queueSize} {dead rest : List Slot} {p : Slot} {u : State} :
      firstQueue (scanned s xs) = some q → scanned s xs q = dead ++ p :: rest →
      (∀ i ∈ dead, (s.proc i).state ≠ .runnable) → (s.proc p).state = .runnable →
      (s.proc p).priorityQueueNumber = level →
      Rep u (putBack (scanned s xs) q rest level p) → Frame s u →
      (∀ i, (u.proc i).statusQueue = true ↔ i = p ∨ (Queued s i ∧ i ∉ dead)) →
      Passed s xs h (dispatch u h p)

/-- The end of the pass, from what the loop on the first queue did. -/
theorem Drained.passed {q : Fin queueSize} {result : Option Slot} {u : State}
    (hscan : Scanned s xs table t) (hq : firstQueue (scanned s xs) = some q)
    (hdrained : Drained t (scanned s xs) q none result u) :
    Passed s xs h (runCurrent u h result) := by
  have hqueued := hscan.queued
  have hstate := hscan.frame.state
  cases hdrained with
  | exhausted hdead hrep hframe hstatus =>
    simp only [hqueued, hstate] at hdead hstatus
    have hmem := List.getLast_mem (firstQueue_eq_some hq).1
    have hlast : (u.proc ((scanned s xs q).getLast (firstQueue_eq_some hq).1)).state ≠
        .runnable := by
      rw [hframe.state, hstate]
      exact hdead _ hmem
    rw [List.getLast?_eq_some_getLast (firstQueue_eq_some hq).1, Option.some_or, runCurrent,
      if_neg hlast]
    exact .exhausted hq hdead hrep (hscan.frame.trans hframe) hstatus
  | found hsplit hdead hrunnable hlevel hroom hrep hframe hstatus =>
    simp only [hqueued, hstate] at hdead hrunnable hstatus
    have hp := (hframe.state _).trans ((hstate _).trans hrunnable)
    rw [runCurrent, if_pos hp]
    exact .dispatched hq hsplit hdead hrunnable ((hscan.frame.level _).symm.trans hlevel) hrep
      (hscan.frame.trans hframe) hstatus

theorem pass_ok (hrep : Rep s xs) (hpass : pass s h = .ok s') :
    Passed s xs h s' ∧ (∀ q, (scanned s xs q).length ≤ NPROC) ∧
      ∀ p, Waiting s p → (s.proc p).priorityQueueNumber < queueSize := by
  obtain ⟨t, hscan, hrest⟩ := bind_eq_ok.mp hpass
  have hscanned := enqueueScan_ok hrep hscan
  obtain ⟨⟨current, u⟩, hselect, hend⟩ := bind_eq_ok.mp hrest
  refine ⟨?_, hscanned.length_le, fun p ↦ hscanned.level p (List.mem_finRange p)⟩
  rw [select_eq hscanned.rep] at hselect
  cases hq : firstQueue (scanned s xs) with
  | none =>
    rw [show firstQueue (fun q ↦ xs q ++ appended s table q) = none from hq] at hselect
    cases hselect
    cases hend
    exact .idle (firstQueue_eq_none.mp hq) hscanned.rep hscanned.frame hscanned.queued
  | some q =>
    rw [show firstQueue (fun q ↦ xs q ++ appended s table q) = some q from hq] at hselect
    cases hend
    exact (drain_ok hscanned.rep hselect).passed hscanned hq

/-- A pass succeeds when the scan finds room for what it appends, and the process that goes back to
the front finds room at its level. -/
theorem pass_exists (hrep : Rep s xs)
    (hlevel : ∀ p, Waiting s p → (s.proc p).priorityQueueNumber < queueSize)
    (hscan : ∀ q, (scanned s xs q).length ≤ NPROC)
    (hpush : ∀ q dead p rest, scanned s xs q = dead ++ p :: rest →
      (s.proc p).state = .runnable → ∃ level : Fin queueSize,
        (s.proc p).priorityQueueNumber = level ∧
        (Function.update (scanned s xs) q rest level).length + 1 < NPROC) :
    ∃ s', pass s h = .ok s' := by
  obtain ⟨t, ht⟩ := enqueueScan_exists hrep hlevel hscan
  have hscanned := enqueueScan_ok hrep ht
  have hselect : ∃ r, select t = .ok r := by
    rw [select_eq hscanned.rep]
    cases hq : firstQueue fun q ↦ xs q ++ appended s table q with
    | none => exact ⟨_, rfl⟩
    | some q =>
      refine drain_exists hscanned.rep fun dead p rest hsplit hp ↦ ?_
      rw [hscanned.frame.state] at hp
      rw [hscanned.frame.level]
      exact hpush q dead p rest hsplit hp
  obtain ⟨⟨current, u⟩, hr⟩ := hselect
  exact ⟨runCurrent u h current, by simp only [pass, ht, hr, ok_bind, pure_eq_ok]⟩

end EnhancedXv6.Mlfq
