import EnhancedXv6.Kernel.Process
import EnhancedXv6.Transition.Fallible

/-!
# The MLFQ queues

The three places of proc.c that change a queue: the enqueue of the scheduler's scan, `pop`, and the push
at the front that the scheduler does inline, with their array accesses checked.

`Rep s xs` relates the four arrays to four lists: `tail` and `length` are the length of the list, and
the live segment `mlfq_queue[0..tail-1]` holds exactly its elements.  To the rest of the state the
operations do no more than `Frame` says: `status_queue` and `number_process` change.
-/

namespace EnhancedXv6.Mlfq

open Kernel Buffer Fallible

/-! ## The operations -/

def queueIndex (q : ℕ) : Except Fault (Fin queueSize) :=
  if h : q < queueSize then .ok ⟨q, h⟩ else .error (.queueIndex q)

def checked {α : Type} : Except ℤ α → Except Fault α
  | .ok a => .ok a
  | .error i => .error (.mlfqIndex i)

/-- The enqueue of the scan: `p` goes to the end of the queue of its level. -/
def enqueue (s : State) (p : Slot) : Except Fault State := do
  let presentQueueNumber := (s.proc p).priorityQueueNumber
  let q ← queueIndex presentQueueNumber
  let k := s.queue q
  if k.tail ≥ 100 then throw (.panic "Invalid parameters passed")
  let a ← checked (writeAt k.mlfqQueue k.tail (some p))
  let k := { k with mlfqQueue := a, tail := k.tail + 1, length := k.length + 1 }
  pure ((s.setQueue q k).modify p fun pr ↦
    { pr with
      priorityQueueNumber := presentQueueNumber
      statusQueue := true
      numberProcess := k.tail - 1 })

/-- `pop(queue_number)`.  Its own guard only excludes a negative `tail`; on an empty queue it would
return a left-over entry, which the model reports. -/
def pop (s : State) (q : Fin queueSize) : Except Fault (Slot × State) := do
  let k := s.queue q
  if k.tail < 0 then throw (.panic "Queue is empty")
  if k.tail = 0 then throw .emptyPop
  let front ← checked (readAt k.mlfqQueue 0)
  let a ← checked (writeAt k.mlfqQueue 0 none)
  let a ← checked (shiftDown (NPROC - 1) 0 a)
  let s := s.setQueue q { k with mlfqQueue := a, tail := k.tail - 1, length := k.length - 1 }
  match front with
  | none => throw .nullEntry
  | some p => pure (p, s.modify p fun pr ↦ { pr with statusQueue := false })

/-- The inline push of the scheduler: `p` goes to the front of the queue of its level.  The shifting
loop starts at the new `length`, one place past the last live entry. -/
def pushFront (s : State) (p : Slot) : Except Fault State := do
  let q ← queueIndex (s.proc p).priorityQueueNumber
  let k := s.queue q
  let k := { k with tail := k.tail + 1, length := k.length + 1 }
  let a ← checked (shiftUp k.length.toNat k.mlfqQueue)
  let a ← checked (writeAt a 0 (some p))
  pure ((s.setQueue q { k with mlfqQueue := a }).modify p fun pr ↦
    { pr with statusQueue := true, numberProcess := 0 })

/-! ## Frames -/

/-- Two entries of the table that differ at most in `status_queue` and `number_process`. -/
def SameTask (pr pr' : Proc) : Prop :=
  pr' = { pr with statusQueue := pr'.statusQueue, numberProcess := pr'.numberProcess }

/-- The queue operations change no other field of a process, no other variable of the kernel and no
time slice. -/
structure Frame (s s' : State) : Prop where
  task : ∀ p, SameTask (s.proc p) (s'.proc p)
  cpu : s'.cpu = s.cpu
  initproc : s'.initproc = s.initproc
  forkChild : s'.forkChild = s.forkChild
  ticks : s'.ticks = s.ticks
  slice : ∀ q, (s'.queue q).priorityQueueTicks = (s.queue q).priorityQueueTicks

theorem Frame.refl (s : State) : Frame s s :=
  ⟨fun _ ↦ rfl, rfl, rfl, rfl, rfl, fun _ ↦ rfl⟩

theorem SameTask.trans {pr pr' pr'' : Proc} (h : SameTask pr pr') (h' : SameTask pr' pr'') :
    SameTask pr pr'' := by
  unfold SameTask at *
  rw [h', h]

theorem Frame.trans {s s' s'' : State} (h : Frame s s') (h' : Frame s' s'') : Frame s s'' :=
  ⟨fun p ↦ (h.task p).trans (h'.task p), h'.cpu.trans h.cpu, h'.initproc.trans h.initproc,
    h'.forkChild.trans h.forkChild, h'.ticks.trans h.ticks,
    fun q ↦ (h'.slice q).trans (h.slice q)⟩

section Fields

variable {s s' : State} (h : Frame s s') (p : Slot)
include h

theorem Frame.state : (s'.proc p).state = (s.proc p).state := by
  rw [h.task p]

theorem Frame.level : (s'.proc p).priorityQueueNumber = (s.proc p).priorityQueueNumber := by
  rw [h.task p]

theorem Frame.startTime : (s'.proc p).startTime = (s.proc p).startTime := by
  rw [h.task p]

theorem Frame.waitTicks : (s'.proc p).waitTicks = (s.proc p).waitTicks := by
  rw [h.task p]

end Fields

/-- Clearing `status_queue` once more stays within the frame. -/
theorem Frame.clearStatus {s s' : State} (h : Frame s s') (p : Slot) :
    Frame s (s'.modify p fun pr ↦ { pr with statusQueue := false }) := by
  refine ⟨fun i ↦ (h.task i).trans ?_, h.cpu, h.initproc, h.forkChild, h.ticks, h.slice⟩
  by_cases hi : i = p <;> simp [SameTask, hi]

/-! ## Queues as lists -/

structure Represents (k : MlfqQueue) (xs : List Slot) : Prop where
  tail : k.tail = xs.length
  length : k.length = xs.length
  holds : Holds k.mlfqQueue xs

def Rep (s : State) (xs : Fin queueSize → List Slot) : Prop :=
  ∀ q, Represents (s.queue q) (xs q)

variable {s s' : State} {xs : Fin queueSize → List Slot} {p : Slot} {q : Fin queueSize}

theorem Rep.length_le (h : Rep s xs) (q : Fin queueSize) : (xs q).length ≤ NPROC :=
  (h q).holds.length_le

theorem Rep.setQueue (h : Rep s xs) {k : MlfqQueue} {ys : List Slot} (hk : Represents k ys) :
    Rep (s.setQueue q k) (Function.update xs q ys) := by
  intro i
  by_cases hi : i = q
  · subst hi
    simpa using hk
  · simpa [hi] using h i

theorem Rep.modify (h : Rep s xs) (f : Proc → Proc) : Rep (s.modify p f) xs := h

theorem Rep.unique {ys : Fin queueSize → List Slot} (h : Rep s xs) (h' : Rep s ys) : xs = ys := by
  funext q
  refine (h q).holds.unique (h' q).holds ?_
  have htail := (h q).tail.symm.trans (h' q).tail
  exact_mod_cast htail

theorem queueIndex_val (q : Fin queueSize) : queueIndex q.val = .ok q := by
  rw [queueIndex, dif_pos q.isLt]

theorem queueIndex_eq_ok {n : ℕ} (h : queueIndex n = .ok q) : n = q.val := by
  unfold queueIndex at h
  split at h
  · cases h
    rfl
  · cases h

/-- `s'` comes from `s` by setting `status_queue` of `p`, as far as processes are concerned. -/
def StatusSet (s s' : State) (p : Slot) (status : Bool) : Prop :=
  ∀ i, (s'.proc i).statusQueue = if i = p then status else (s.proc i).statusQueue

/-- The common shape of the three operations: one queue replaced, one process updated. -/
theorem frame_setQueue_modify {k : MlfqQueue} {f : Proc → Proc}
    (hslice : k.priorityQueueTicks = (s.queue q).priorityQueueTicks)
    (htask : SameTask (s.proc p) (f (s.proc p))) : Frame s ((s.setQueue q k).modify p f) := by
  refine ⟨fun i ↦ ?_, rfl, rfl, rfl, rfl, fun i ↦ ?_⟩
  · by_cases hi : i = p
    · subst hi
      simpa using htask
    · simp [SameTask, hi]
  · by_cases hi : i = q
    · simpa [hi] using hslice
    · simp [hi]

theorem statusSet_setQueue_modify {k : MlfqQueue} {f : Proc → Proc} {status : Bool}
    (hstatus : (f (s.proc p)).statusQueue = status) :
    StatusSet s ((s.setQueue q k).modify p f) p status := by
  intro i
  by_cases hi : i = p
  · simpa [hi] using hstatus
  · simp [hi]

/-! ### Enqueue -/

theorem enqueue_spec (hrep : Rep s xs) (hlevel : (s.proc p).priorityQueueNumber = q)
    (hroom : (xs q).length < NPROC) :
    ∃ s', enqueue s p = .ok s' ∧ Rep s' (Function.update xs q (xs q ++ [p])) ∧ Frame s s' ∧
      StatusSet s s' p true := by
  have htail := (hrep q).tail
  have hwrite : writeAt (s.queue q).mlfqQueue (s.queue q).tail (some p) =
      .ok ((s.queue q).mlfqQueue.set (xs q).length (some p) hroom) := by
    rw [htail]
    exact writeAt_natCast _ _ hroom
  have hguard : ¬ (s.queue q).tail ≥ 100 := by
    have hsize : NPROC = 64 := rfl
    omega
  refine ⟨_, by
    simp only [enqueue, hlevel, queueIndex_val, hguard, hwrite, checked, ok_bind, pure_eq_ok,
      if_false]; rfl, ?_, ?_, ?_⟩
  · refine Rep.modify (Rep.setQueue hrep ⟨?_, ?_, (hrep q).holds.append p hroom⟩) _
    · simp [htail]
    · simp [(hrep q).length]
  · exact frame_setQueue_modify rfl (by simp [SameTask, ← hlevel])
  · exact statusSet_setQueue_modify rfl

/-- The guard of the scan admits a full queue, and the write goes past the array. -/
theorem enqueue_full (hrep : Rep s xs) (hlevel : (s.proc p).priorityQueueNumber = q)
    (hfull : (xs q).length = NPROC) : enqueue s p = .error (.mlfqIndex NPROC) := by
  have htail : (s.queue q).tail = NPROC := by
    rw [(hrep q).tail, hfull]
  have hwrite : writeAt (s.queue q).mlfqQueue (s.queue q).tail (some p) = .error (NPROC : ℤ) := by
    rw [htail]
    exact writeAt_of_le _ _ le_rfl
  have hguard : ¬ (s.queue q).tail ≥ 100 := by
    have hsize : NPROC = 64 := rfl
    omega
  simp only [enqueue, hlevel, queueIndex_val, hguard, hwrite, checked, ok_bind, error_bind,
    if_false]

/-- What a successful enqueue was given and what it did. -/
theorem enqueue_ok (hrep : Rep s xs) (h : enqueue s p = .ok s') :
    ∃ q : Fin queueSize, (s.proc p).priorityQueueNumber = q ∧ (xs q).length < NPROC ∧
      Rep s' (Function.update xs q (xs q ++ [p])) ∧ Frame s s' ∧ StatusSet s s' p true := by
  obtain ⟨q, hindex, -⟩ := bind_eq_ok.mp h
  have hlevel := queueIndex_eq_ok hindex
  rcases Nat.lt_or_eq_of_le (hrep.length_le q) with hroom | hfull
  · obtain ⟨t, ht, hspec⟩ := enqueue_spec hrep hlevel hroom
    cases ht.symm.trans h
    exact ⟨q, hlevel, hroom, hspec⟩
  · cases (enqueue_full hrep hlevel hfull).symm.trans h

/-! ### Pop -/

theorem pop_spec {rest : List Slot} (hrep : Rep s xs) (hxs : xs q = p :: rest) :
    ∃ s', pop s q = .ok (p, s') ∧ Rep s' (Function.update xs q rest) ∧ Frame s s' ∧
      StatusSet s s' p false := by
  have hholds := (hrep q).holds
  have htail := (hrep q).tail
  have hlength := (hrep q).length
  rw [hxs] at hholds htail hlength
  simp only [List.length_cons] at htail hlength
  obtain ⟨a, hshift, ha⟩ := hholds.dropFront (by decide)
  have hread : readAt (s.queue q).mlfqQueue 0 = .ok (some p) := by
    rw [← hholds.front (by decide)]
    exact readAt_natCast (i := 0) _ (by decide)
  have hwrite : writeAt (s.queue q).mlfqQueue 0 none =
      .ok ((s.queue q).mlfqQueue.set 0 none) :=
    writeAt_natCast (i := 0) _ _ (by decide)
  have hpositive : ¬ (s.queue q).tail < 0 := by omega
  have hnonempty : (s.queue q).tail ≠ 0 := by omega
  refine ⟨_, by
    simp only [pop, hpositive, hnonempty, hread, hwrite, hshift, checked, ok_bind, pure_eq_ok,
      if_false]; rfl, ?_, ?_, ?_⟩
  · refine Rep.modify (Rep.setQueue hrep ⟨?_, ?_, ha⟩) _
    · simp only
      omega
    · simp only
      omega
  · exact frame_setQueue_modify rfl rfl
  · exact statusSet_setQueue_modify rfl

/-- A `pop` that succeeded found a process at the front. -/
theorem pop_ok (hrep : Rep s xs) (h : pop s q = .ok (p, s')) :
    ∃ rest, xs q = p :: rest ∧ Rep s' (Function.update xs q rest) ∧ Frame s s' := by
  cases hq : xs q with
  | nil =>
    have htail : (s.queue q).tail = 0 := by rw [(hrep q).tail, hq]; rfl
    simp [pop, htail] at h
  | cons front rest =>
    obtain ⟨t, ht, hrep', hframe, -⟩ := pop_spec hrep hq
    cases ht.symm.trans h
    exact ⟨rest, rfl, hrep', hframe⟩

/-! ### Push at the front -/

theorem pushFront_spec (hrep : Rep s xs) (hlevel : (s.proc p).priorityQueueNumber = q)
    (hroom : (xs q).length + 1 < NPROC) :
    ∃ s', pushFront s p = .ok s' ∧ Rep s' (Function.update xs q (p :: xs q)) ∧ Frame s s' ∧
      StatusSet s s' p true := by
  have htail := (hrep q).tail
  have hlength := (hrep q).length
  obtain ⟨a, hshift, ha⟩ := (hrep q).holds.pushFront p hroom
  have hcount : ((s.queue q).length + 1).toNat = (xs q).length + 1 := by omega
  have hwrite : writeAt a 0 (some p) = .ok (a.set 0 (some p)) :=
    writeAt_natCast (i := 0) _ _ (by decide)
  refine ⟨_, by
    simp only [pushFront, hlevel, queueIndex_val, hcount, hshift, hwrite, checked, ok_bind,
      pure_eq_ok]; rfl, ?_, ?_, ?_⟩
  · refine Rep.modify (Rep.setQueue hrep ⟨?_, ?_, ha⟩) _
    · simp [htail]
    · simp [hlength]
  · exact frame_setQueue_modify rfl rfl
  · exact statusSet_setQueue_modify rfl

/-- A push that succeeded had room for the slot past the last live entry. -/
theorem pushFront_ok (hrep : Rep s xs) (h : pushFront s p = .ok s') :
    ∃ q : Fin queueSize, (s.proc p).priorityQueueNumber = q ∧ (xs q).length + 1 < NPROC ∧
      Rep s' (Function.update xs q (p :: xs q)) ∧ Frame s s' ∧ StatusSet s s' p true := by
  obtain ⟨q, hindex, hrest⟩ := bind_eq_ok.mp h
  have hlevel := queueIndex_eq_ok hindex
  have hlength := (hrep q).length
  have hcount : ((s.queue q).length + 1).toNat = (xs q).length + 1 := by omega
  have hroom : (xs q).length + 1 < NPROC := by
    simp only [hcount] at hrest
    obtain ⟨a, hshift, -⟩ := bind_eq_ok.mp hrest
    cases hb : shiftUp ((xs q).length + 1) (s.queue q).mlfqQueue with
    | error i => simp [hb, checked] at hshift
    | ok b =>
      rcases lt_of_shiftUp_eq_ok hb with hzero | hlt
      · omega
      · exact hlt
  obtain ⟨t, ht, hspec⟩ := pushFront_spec hrep hlevel hroom
  cases ht.symm.trans h
  exact ⟨q, hlevel, hroom, hspec⟩

end EnhancedXv6.Mlfq
