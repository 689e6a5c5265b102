import EnhancedXv6.Virtio.Queue

/-!
# Every request completes once, for its own buffer

The processes, the handler and the device together.  The lock says who may prepare a request, the
sleep locks of the buffers keep the requests for different buffers, and the rest is the invariant of
the queue.
-/

namespace EnhancedXv6.Virtio

open RingBuffer Transition

variable {P B : Type}

/-! ## Where the processes are -/

namespace Pc

def locked : Pc B → Bool
  | .alloc .. | .format _ | .publish _ | .bump _ | .wait _ => true
  | .out | .holds _ | .enter .. | .asleepFree .. | .asleepBuf _ | .reenter _ => false

def buf : Pc B → Option B
  | .out => none
  | .holds b | .enter b _ | .alloc b _ | .asleepFree b _ => some b
  | .format r | .publish r | .bump r | .wait r | .asleepBuf r | .reenter r => some r.buf

def phase : Pc B → Option (Request B × Phase)
  | .format r => some (r, .allocated)
  | .publish r => some (r, .formatted)
  | .bump r => some (r, .published)
  | _ => none

def submitted : Pc B → Option (Request B)
  | .wait r | .asleepBuf r | .reenter r => some r
  | _ => none

end Pc

def State.prep (s : State P B) : Option (Prep P B) :=
  match s.lock with
  | some (.proc p) => (s.pc p).phase.map fun x ↦ ⟨p, x.1, x.2⟩
  | _ => none

def view (s : State P B) (l : Ledger P B) : View P B :=
  ⟨s.disk, s.lastAvail, s.taken, l, s.prep⟩

/-- The locks and the ledger agree with where the processes are. -/
structure Tracks (s : State P B) (l : Ledger P B) : Prop where
  held : ∀ p, s.lock = some (.proc p) ↔ (s.pc p).locked = true
  bufLocks : ∀ p b, (s.pc p).buf = some b → s.bufLock b = some p
  active : ∀ p r, (p, r) ∈ l.active ↔ (s.pc p).submitted = some r

/-- How a step of `p` may change the lock. -/
inductive LockMove (p : P) (old new : Pc B) : Option (Holder P) → Option (Holder P) → Prop
  | keep {lock} : new.locked = old.locked → LockMove p old new lock lock
  | acquire : new.locked = true → LockMove p old new none (some (.proc p))
  | release : new.locked = false → LockMove p old new (some (.proc p)) none

section

variable [DecidableEq P] {s s' : State P B} {l l' : Ledger P B}

theorem Tracks.move (h : Tracks s l) {p : P} {pc : Pc B} (hpc : s'.pc = Function.update s.pc p pc)
    (hbufLock : s'.bufLock = s.bufLock) (hbuf : pc.buf = (s.pc p).buf)
    (hlock : LockMove p (s.pc p) pc s.lock s'.lock)
    (hactive : ∀ q r, (q, r) ∈ l'.active ↔
      if q = p then pc.submitted = some r else (q, r) ∈ l.active) : Tracks s' l' := by
  refine ⟨?_, ?_, ?_⟩
  · intro q
    by_cases hq : q = p
    · subst hq
      rw [hpc, Function.update_self]
      have hold := h.held q
      generalize s.lock = lock at hlock hold
      generalize s'.lock = lock' at hlock
      cases hlock with
      | keep hkeep => rw [hkeep, hold]
      | acquire hnew => simp [hnew]
      | release hnew => simp [hnew]
    · rw [hpc, Function.update_of_ne hq, ← h.held q]
      generalize s.lock = lock at hlock
      generalize s'.lock = lock' at hlock
      cases hlock with
      | keep => rfl
      | acquire => simp [Ne.symm hq]
      | release => simp [Ne.symm hq]
  · intro q b hb
    rw [hbufLock]
    by_cases hq : q = p
    · subst hq
      rw [hpc, Function.update_self, hbuf] at hb
      exact h.bufLocks q b hb
    · rw [hpc, Function.update_of_ne hq] at hb
      exact h.bufLocks q b hb
  · intro q r
    rw [hactive q r, hpc]
    by_cases hq : q = p
    · simp [hq]
    · simp [hq, h.active q r]

/-- A move that does not concern the requests. -/
theorem Tracks.move_same (h : Tracks s l) {p : P} {pc : Pc B}
    (hpc : s'.pc = Function.update s.pc p pc) (hbufLock : s'.bufLock = s.bufLock)
    (hbuf : pc.buf = (s.pc p).buf) (hlock : LockMove p (s.pc p) pc s.lock s'.lock)
    (hsubmitted : pc.submitted = (s.pc p).submitted) : Tracks s' l := by
  apply h.move hpc hbufLock hbuf hlock
  intro q r
  by_cases hq : q = p
  · rw [if_pos hq, hsubmitted, hq, h.active p r]
  · rw [if_neg hq]

/-- A move outside of the lock does not concern the request that is being prepared. -/
theorem Tracks.prep_goto (h : Tracks s l) {p : P} (hp : (s.pc p).locked = false) (pc : Pc B) :
    (s.goto p pc).prep = s.prep := by
  have hne : s.lock ≠ some (.proc p) := by
    intro hlock
    rw [(h.held p).mp hlock] at hp
    cases hp
  simp only [State.prep, State.goto]
  split
  next q hq =>
    have hqp : q ≠ p := by
      rintro rfl
      exact hne hq
    simp [hqp]
  next hq =>
    cases hlock : s.lock with
    | none => rfl
    | some holder =>
      cases holder with
      | proc q => exact absurd hlock (hq q)
      | intr => rfl

omit [DecidableEq P] in
/-- The process that holds the lock prepares what its place says. -/
theorem Tracks.prep_eq (h : Tracks s l) {p : P} (hp : (s.pc p).locked = true) :
    s.prep = (s.pc p).phase.map fun x ↦ ⟨p, x.1, x.2⟩ := by
  rw [State.prep, (h.held p).mpr hp]

end

/-! ## Steps -/

structure DriverInv (blockno : B → ℕ) (s : State P B) (l : Ledger P B) : Prop where
  alive : s.crashed = none
  tracks : Tracks s l
  queue : QueueInv blockno (view s l)

variable [DecidableEq P] [DecidableEq B] {blockno : B → ℕ} {s : State P B} {l : Ledger P B}

@[simp] theorem record_none : l.record blockno .none = l := by
  simp [Ledger.record, Note.head]

omit [DecidableEq P] [DecidableEq B] in
/-- Another process has another buffer. -/
theorem Tracks.buf_ne (h : Tracks s l) {p : P} {b : B} (hp : (s.pc p).buf = some b)
    (hnone : (s.pc p).submitted = none) : ∀ x ∈ l.active, x.2.buf ≠ b := by
  rintro ⟨q, r⟩ hx rfl
  have hq := (h.active q r).mp hx
  have hbuf : (s.pc q).buf = some r.buf := by
    cases hpc : s.pc q with
    | wait r' | asleepBuf r' | reenter r' =>
      rw [hpc] at hq
      cases hq
      rfl
    | _ =>
      rw [hpc] at hq
      cases hq
  have hqp : q = p := Option.some_inj.mp ((h.bufLocks q _ hbuf).symm.trans (h.bufLocks p _ hp))
  rw [hqp, hnone] at hq
  cases hq

omit [DecidableEq B] in
theorem prep_goto_self {p : P} (hlock : s.lock = some (.proc p)) (d : Disk B) (pc : Pc B) :
    ((s.setDisk d).goto p pc).prep = pc.phase.map fun x ↦ ⟨p, x.1, x.2⟩ := by
  simp [State.prep, State.goto, State.setDisk, hlock]

namespace DriverInv

omit [DecidableEq P] [DecidableEq B] in
/-- What is known when a process runs under the lock. -/
theorem at_locked (h : DriverInv blockno s l) {p : P} {pc : Pc B} (hpc : s.pc p = pc)
    (hlocked : pc.locked = true) :
    s.lock = some (.proc p) ∧ (view s l).prep = pc.phase.map fun x ↦ ⟨p, x.1, x.2⟩ := by
  subst hpc
  exact ⟨(h.tracks.held p).mpr hlocked, h.tracks.prep_eq hlocked⟩

omit [DecidableEq B] in
/-- The process that holds `vdisk_lock` goes on with its request. -/
theorem keep_lock (h : DriverInv blockno s l) {p : P} {pc : Pc B} {d : Disk B}
    (hlock : s.lock = some (.proc p)) (hlocked : pc.locked = (s.pc p).locked)
    (hbuf : pc.buf = (s.pc p).buf) (hsubmitted : pc.submitted = (s.pc p).submitted)
    (hqueue : QueueInv blockno
      ⟨d, s.lastAvail, s.taken, l, pc.phase.map fun x ↦ ⟨p, x.1, x.2⟩⟩) :
    DriverInv blockno ((s.setDisk d).goto p pc) l := by
  refine ⟨h.alive, h.tracks.move_same rfl rfl hbuf (.keep hlocked) hsubmitted, ?_⟩
  rw [view, prep_goto_self hlock]
  exact hqueue

theorem advance_alloc (h : DriverInv blockno s l) {p : P} {b : B} {write : Bool}
    (hpc : s.pc p = .alloc b write) {m : State P B × Note P B}
    (hstep : advance blockno s p = some m) : DriverInv blockno m.1 (l.record blockno m.2) := by
  obtain ⟨hlock, hprep⟩ := h.at_locked hpc rfl
  simp only [advance, hpc] at hstep
  rcases alloc3Desc_spec s.disk with ⟨d, halloc, hd⟩ | ⟨c, d, halloc, hnodup, hfree, rfl⟩
  · rw [halloc] at hstep
    obtain rfl := Option.some_inj.mp hstep
    rw [record_none]
    refine ⟨h.alive, ?_, ?_⟩
    · refine h.tracks.move_same rfl rfl (by rw [hpc]; rfl) ?_ (by rw [hpc]; rfl)
      rw [hlock]
      exact .release rfl
    · have hqueue := h.queue.sameInUse hprep hd
      rw [hprep] at hqueue
      exact hqueue
  · rw [halloc] at hstep
    obtain rfl := Option.some_inj.mp hstep
    rw [record_none]
    have hbuf : ∀ x ∈ l.active, x.2.buf ≠ b :=
      h.tracks.buf_ne (p := p) (by rw [hpc]; rfl) (by rw [hpc]; rfl)
    exact h.keep_lock hlock (by rw [hpc]; rfl) (by rw [hpc]; rfl) (by rw [hpc]; rfl)
      (h.queue.alloc hprep p ⟨b, write, c⟩ hnodup hfree hbuf)

theorem advance_format (h : DriverInv blockno s l) {p : P} {r : Request B}
    (hpc : s.pc p = .format r) {m : State P B × Note P B}
    (hstep : advance blockno s p = some m) : DriverInv blockno m.1 (l.record blockno m.2) := by
  obtain ⟨hlock, hprep⟩ := h.at_locked hpc rfl
  simp only [advance, hpc] at hstep
  obtain rfl := Option.some_inj.mp hstep
  rw [record_none]
  exact h.keep_lock hlock (by rw [hpc]; rfl) (by rw [hpc]; rfl) (by rw [hpc]; rfl)
    (h.queue.format hprep)

theorem advance_publish (h : DriverInv blockno s l) {p : P} {r : Request B}
    (hpc : s.pc p = .publish r) {m : State P B × Note P B}
    (hstep : advance blockno s p = some m) : DriverInv blockno m.1 (l.record blockno m.2) := by
  obtain ⟨hlock, hprep⟩ := h.at_locked hpc rfl
  simp only [advance, hpc] at hstep
  obtain rfl := Option.some_inj.mp hstep
  rw [record_none]
  exact h.keep_lock hlock (by rw [hpc]; rfl) (by rw [hpc]; rfl) (by rw [hpc]; rfl)
    (h.queue.publish hprep)

theorem advance_bump (h : DriverInv blockno s l) {p : P} {r : Request B}
    (hpc : s.pc p = .bump r) {m : State P B × Note P B}
    (hstep : advance blockno s p = some m) : DriverInv blockno m.1 (l.record blockno m.2) := by
  obtain ⟨hlock, hprep⟩ := h.at_locked hpc rfl
  simp only [advance, hpc] at hstep
  obtain rfl := Option.some_inj.mp hstep
  refine ⟨h.alive, ?_, ?_⟩
  · refine h.tracks.move rfl rfl (by rw [hpc]; rfl) (.keep (by rw [hpc]; rfl)) ?_
    intro q r'
    have hnot : (p, r') ∉ l.active := by
      rw [h.tracks.active p r', hpc]
      exact nofun
    by_cases hq : q = p
    · simp [hq, Ledger.record, Pc.submitted, hnot, eq_comm]
    · simp [hq, Ledger.record]
  · rw [view, prep_goto_self hlock]
    exact h.queue.submit hprep

theorem advance_wait (h : DriverInv blockno s l) {p : P} {r : Request B}
    (hpc : s.pc p = .wait r) {m : State P B × Note P B}
    (hstep : advance blockno s p = some m) : DriverInv blockno m.1 (l.record blockno m.2) := by
  obtain ⟨hlock, hprep⟩ := h.at_locked hpc rfl
  have hmem : (p, r) ∈ l.active := (h.tracks.active p r).mpr (by rw [hpc]; rfl)
  simp only [advance, hpc] at hstep
  by_cases hdone : s.disk.bufDisk r.buf = true
  · rw [if_pos hdone] at hstep
    obtain rfl := Option.some_inj.mp hstep
    rw [record_none]
    refine ⟨h.alive, ?_, ?_⟩
    · refine h.tracks.move_same rfl rfl (by rw [hpc]; rfl) ?_ (by rw [hpc]; rfl)
      rw [hlock]
      exact .release rfl
    · have hqueue := h.queue
      rw [view, show s.prep = none from hprep] at hqueue
      exact hqueue
  · rw [if_neg hdone] at hstep
    obtain ⟨d, hfree, hqueue⟩ := h.queue.reclaim hprep hmem (Bool.eq_false_of_not_eq_true hdone)
      { s.disk.info r.chain.head with b := none }
    rw [show freeChain (NUM + 1) (s.disk.setInfo r.chain.head
      { s.disk.info r.chain.head with b := none }) r.chain.head = .ok d from hfree] at hstep
    obtain rfl := Option.some_inj.mp hstep
    refine ⟨h.alive, ?_, ?_⟩
    · refine h.tracks.move (p := p) rfl rfl (by rw [hpc]; rfl) ?_ ?_
      · rw [hlock]
        exact .release rfl
      · intro q r'
        have hnodup : l.active.Nodup := by
          have howned := h.queue.owned_nodup
          rwa [View.owned, hprep] at howned
        simp only [Ledger.record, hnodup.mem_erase_iff]
        by_cases hq : q = p
        · subst hq
          have hiff := h.tracks.active q r'
          rw [hpc] at hiff
          simp only [Pc.submitted, Option.some.injEq] at hiff
          simp [hiff, Pc.submitted, eq_comm]
        · simp [hq]
    · rw [hprep] at hqueue
      exact hqueue

omit [DecidableEq B] in
theorem advance_acquire (h : DriverInv blockno s l) (hlock : s.lock = none) {p : P} {pc : Pc B}
    (hbuf : pc.buf = (s.pc p).buf) (hsubmitted : pc.submitted = (s.pc p).submitted)
    (hlocked : pc.locked = true) (hphase : pc.phase = none) : DriverInv blockno (s.acquire p pc) l := by
  refine ⟨h.alive, ?_, ?_⟩
  · refine h.tracks.move_same rfl rfl hbuf ?_ hsubmitted
    rw [hlock]
    exact .acquire hlocked
  · have hprep : (s.acquire p pc).prep = s.prep := by
      simp [State.prep, State.acquire, State.goto, hlock, hphase]
    have hqueue := h.queue
    rw [view, ← hprep] at hqueue
    exact hqueue

theorem advance (h : DriverInv blockno s l) {p : P} {m : State P B × Note P B}
    (hstep : advance blockno s p = some m) : DriverInv blockno m.1 (l.record blockno m.2) := by
  cases hpc : s.pc p with
  | out | holds b | asleepFree b write | asleepBuf r => simp [Virtio.advance, hpc] at hstep
  | enter b write =>
    simp only [Virtio.advance, hpc, Option.ite_none_right_eq_some, Option.some_inj] at hstep
    obtain ⟨hlock, rfl⟩ := hstep
    rw [record_none]
    exact h.advance_acquire hlock (by rw [hpc]; rfl) (by rw [hpc]; rfl) rfl rfl
  | reenter r =>
    simp only [Virtio.advance, hpc, Option.ite_none_right_eq_some, Option.some_inj] at hstep
    obtain ⟨hlock, rfl⟩ := hstep
    rw [record_none]
    exact h.advance_acquire hlock (by rw [hpc]; rfl) (by rw [hpc]; rfl) rfl rfl
  | alloc b write => exact h.advance_alloc hpc hstep
  | format r => exact h.advance_format hpc hstep
  | publish r => exact h.advance_publish hpc hstep
  | bump r => exact h.advance_bump hpc hstep
  | wait r => exact h.advance_wait hpc hstep

theorem round (h : DriverInv blockno s l) (hlock : s.lock = some .intr) :
    DriverInv blockno (round s).1 (l.record blockno (round s).2) := by
  have hprep : s.prep = none := by rw [State.prep, hlock]
  rw [Virtio.round]
  by_cases hne : s.disk.usedIdx ≠ s.disk.used.idx
  · obtain ⟨p, r, hstage, -, hhead, hstatus, hbuf⟩ := h.queue.next_posted hne
    simp only [view] at hstage hhead hstatus hbuf
    rw [if_pos hne]
    simp only [hstatus, ne_eq, not_true_eq_false, if_false, hbuf]
    rw [← hhead] at hstage ⊢
    refine ⟨h.alive, ⟨h.tracks.held, h.tracks.bufLocks, h.tracks.active⟩, ?_⟩
    exact h.queue.complete hne hhead hstage
  · rw [if_neg hne, record_none]
    refine ⟨h.alive, ⟨?_, h.tracks.bufLocks, h.tracks.active⟩, ?_⟩
    · intro p
      rw [← h.tracks.held p, hlock]
      simp
    · have hqueue := h.queue
      rw [view, hprep] at hqueue
      exact hqueue

omit [DecidableEq B] in
/-- A process moves without `vdisk_lock`; it may take or give up the lock of a buffer. -/
theorem goto_bufLock (h : DriverInv blockno s l) {p : P} {pc : Pc B} {bufLock : B → Option P}
    (hold : (s.pc p).locked = false) (hnew : pc.locked = false)
    (hsubmitted : pc.submitted = (s.pc p).submitted)
    (hbuf : ∀ b, pc.buf = some b → bufLock b = some p)
    (hothers : ∀ q b, q ≠ p → s.bufLock b = some q → bufLock b = some q) :
    DriverInv blockno { s.goto p pc with bufLock := bufLock } l := by
  refine ⟨h.alive, ⟨?_, ?_, ?_⟩, ?_⟩
  · intro q
    by_cases hq : q = p
    · simpa [State.goto, hq, hnew, hold] using h.tracks.held p
    · simpa [State.goto, hq] using h.tracks.held q
  · intro q b hb
    by_cases hq : q = p
    · subst hq
      exact hbuf b (by simpa [State.goto] using hb)
    · exact hothers q b hq (h.tracks.bufLocks q b (by simpa [State.goto, hq] using hb))
  · intro q r
    rw [h.tracks.active q r]
    by_cases hq : q = p
    · simp [State.goto, hq, hsubmitted]
    · simp [State.goto, hq]
  · have hqueue := h.queue
    rw [view, ← h.tracks.prep_goto hold pc] at hqueue
    exact hqueue

omit [DecidableEq B] in
theorem goto (h : DriverInv blockno s l) {p : P} {pc : Pc B} (hold : (s.pc p).locked = false)
    (hnew : pc.locked = false) (hbuf : pc.buf = (s.pc p).buf)
    (hsubmitted : pc.submitted = (s.pc p).submitted) : DriverInv blockno (s.goto p pc) l :=
  h.goto_bufLock hold hnew hsubmitted (fun b hb ↦ h.tracks.bufLocks p b (hbuf ▸ hb))
    fun _ _ _ hb ↦ hb

theorem lock (h : DriverInv blockno s l) {p : P} {b : B} (hpc : s.pc p = .out)
    (hfree : s.bufLock b = none) :
    DriverInv blockno
      { s.goto p (.holds b) with bufLock := Function.update s.bufLock b (some p) } l := by
  refine h.goto_bufLock (by rw [hpc]; rfl) rfl (by rw [hpc]; rfl) ?_ ?_
  · intro b' hb'
    obtain rfl : b = b' := Option.some_inj.mp hb'
    exact Function.update_self _ _ _
  · intro q b' _ hb
    have hne : b' ≠ b := by
      rintro rfl
      simp [hfree] at hb
    rw [Function.update_of_ne hne, hb]

theorem unlock (h : DriverInv blockno s l) {p : P} {b : B} (hpc : s.pc p = .holds b) :
    DriverInv blockno { s.goto p .out with bufLock := Function.update s.bufLock b none } l := by
  have hp := h.tracks.bufLocks p b (by rw [hpc]; rfl)
  refine h.goto_bufLock (by rw [hpc]; rfl) rfl (by rw [hpc]; rfl) nofun ?_
  intro q b' hq hb
  have hne : b' ≠ b := by
    rintro rfl
    exact hq (Option.some_inj.mp (hb.symm.trans hp))
  rw [Function.update_of_ne hne, hb]

theorem step (h : DriverInv blockno s l) {e : Event P B} {m : State P B × Note P B}
    (hstep : step blockno s e = some m) : DriverInv blockno m.1 (l.record blockno m.2) := by
  rw [Virtio.step.eq_def, if_pos h.alive] at hstep
  cases e with
  | lock p b =>
    simp only [Option.ite_none_right_eq_some, Option.some_inj] at hstep
    obtain ⟨⟨hpc, hfree⟩, rfl⟩ := hstep
    rw [record_none]
    exact h.lock hpc hfree
  | unlock p =>
    cases hpc : s.pc p with
    | holds b =>
      simp only [hpc, Option.some_inj] at hstep
      obtain rfl := hstep
      rw [record_none]
      exact h.unlock hpc
    | _ => simp [hpc] at hstep
  | rw p write =>
    cases hpc : s.pc p with
    | holds b =>
      simp only [hpc, Option.some_inj] at hstep
      obtain rfl := hstep
      rw [record_none]
      exact h.goto (by rw [hpc]; rfl) rfl (by rw [hpc]; rfl) (by rw [hpc]; rfl)
    | _ => simp [hpc] at hstep
  | advance p => exact h.advance hstep
  | wake p =>
    cases hpc : s.pc p with
    | asleepFree b write | asleepBuf r =>
      simp only [hpc, Option.some_inj] at hstep
      obtain rfl := hstep
      rw [record_none]
      exact h.goto (by rw [hpc]; rfl) rfl (by rw [hpc]; rfl) (by rw [hpc]; rfl)
    | _ => simp [hpc] at hstep
  | intr =>
    simp only [Option.ite_none_right_eq_some, Option.some_inj] at hstep
    obtain ⟨hlock, rfl⟩ := hstep
    rw [record_none]
    refine ⟨h.alive, ⟨?_, h.tracks.bufLocks, h.tracks.active⟩, ?_⟩
    · intro p
      rw [← h.tracks.held p, hlock]
      simp
    · have hqueue := h.queue
      have hprep : s.prep = none := by rw [State.prep, hlock]
      rw [view, hprep] at hqueue
      exact hqueue
  | round =>
    simp only [Option.ite_none_right_eq_some, Option.some_inj] at hstep
    obtain ⟨hlock, rfl⟩ := hstep
    exact h.round hlock
  | take =>
    simp only [Virtio.take, Option.map_eq_some_iff, Option.ite_none_right_eq_some,
      Option.some_inj] at hstep
    obtain ⟨s', ⟨hne, rfl⟩, rfl⟩ := hstep
    rw [record_none]
    exact ⟨h.alive, ⟨h.tracks.held, h.tracks.bufLocks, h.tracks.active⟩, h.queue.take hne⟩
  | post j =>
    simp only [Option.ite_none_right_eq_some, Option.some_inj] at hstep
    obtain ⟨hj, rfl⟩ := hstep
    exact ⟨h.alive, ⟨h.tracks.held, h.tracks.bufLocks, h.tracks.active⟩, h.queue.post hj⟩

end DriverInv

/-! ## Runs -/

omit [DecidableEq P] [DecidableEq B] in
theorem driverInv_booted : DriverInv blockno (booted P B) ⟨fun _ ↦ .idle, []⟩ := by
  have hwaiting : (view (booted P B) ⟨fun _ ↦ .idle, []⟩).waiting = [] := by
    simp [view, booted, View.waiting, View.offered]
  have hposted : (view (booted P B) ⟨fun _ ↦ .idle, []⟩).posted = [] := by
    simp [view, booted, View.posted]
  refine ⟨rfl, ⟨?_, ?_, ?_⟩, ?_⟩
  · simp [booted, Pc.locked]
  · simp [booted, Pc.buf]
  · simp [booted, Pc.submitted]
  · exact
      { nodup := List.nodup_nil
        inUse := by simp [view, booted, View.owned, State.prep, descsOf]
        bufs := List.nodup_nil
        formatted := by simp [view]
        prepared := by simp [view, booted, State.prep]
        published := by simp [view, booted, State.prep]
        stages := by simp [view]
        idle := fun _ _ ↦ rfl
        waiting_nodup := by rw [hwaiting]; exact List.nodup_nil
        waiting_stage := by simp [hwaiting]
        jobs := by simp [view, booted]
        posted_nodup := by rw [hposted]; exact List.nodup_nil
        posted_stage := by simp [hposted] }

theorem driverInv_of_reachable {good : State P B × Ledger P B → Event P B → Prop}
    {o : State P B × Ledger P B} (ho : (driver P blockno).Reachable good o) :
    DriverInv blockno o.1 o.2 := by
  refine ho.invariant (fun o ↦ DriverInv blockno o.1 o.2) driverInv_booted ?_
  intro o e o' h _ hnext
  simp only [driver, Option.map_eq_some_iff] at hnext
  obtain ⟨m, hstep, rfl⟩ := hnext
  exact h.step hstep

/-- Whether a request is between `alloc3_desc` and `avail->idx += 1`. -/
def State.preparing (s : State P B) : ℕ := if s.prep.isSome = true then 1 else 0

/-- In every run each request is processed as it was submitted, completed once for its own buffer, and
only then returned; requests have disjoint chains of three descriptors, and the others are free; nothing
panics; and a failed allocation leaves the free descriptors as they were. -/
theorem requests_complete_once {o : State P B × Ledger P B}
    (ho : (driver P blockno).Reachable (fun _ _ ↦ True) o) :
    (∀ head, o.2.stage head ≠ .broken) ∧
    (o.2.active.flatMap fun x ↦ x.2.chain.descs).Nodup ∧
    (∀ x ∈ o.2.active, Formatted blockno o.1.disk x.2 ∧
      ∀ i ∈ x.2.chain.descs, i < NUM ∧ o.1.disk.free i = false) ∧
    ((List.range NUM).filter o.1.disk.free).length + 3 * (o.2.active.length + o.1.preparing) =
      NUM ∧
    o.1.crashed = none ∧
    ∃ r d, alloc3Desc o.1.disk = .ok (r, d) ∧ (r = none → d.free = o.1.disk.free) := by
  have h := driverInv_of_reachable ho
  refine ⟨?_, ?_, ?_, ?_, h.alive, ?_⟩
  · intro head hbroken
    obtain ⟨x, hx, rfl⟩ := h.queue.active_of_stage (ne_of_eq_of_ne hbroken (by simp))
    rcases h.queue.stages x hx with ⟨hstage, -⟩ | ⟨hstage, -⟩ | ⟨hstage, -⟩
    all_goals
      rw [show o.2.stage x.2.chain.head = _ from hstage] at hbroken
      cases hbroken
  · exact h.queue.nodup.sublist ((List.sublist_append_right _ _).flatMap _)
  · intro x hx
    exact ⟨h.queue.formatted x hx, fun i hi ↦ h.queue.desc_inUse (QueueInv.owned_of_active hx) hi⟩
  · have hcount := h.queue.freeCount
    have hlength : (view o.1 o.2).owned.length = o.2.active.length + o.1.preparing := by
      rw [View.owned, State.preparing, List.length_append, Nat.add_comm]
      congr 1
      show (Option.map _ o.1.prep).toList.length = _
      cases o.1.prep <;> rfl
    rwa [hlength] at hcount
  · rcases alloc3Desc_spec o.1.disk with ⟨d, halloc, hd⟩ | ⟨c, d, halloc, -⟩
    · refine ⟨none, d, halloc, fun _ ↦ ?_⟩
      rw [hd.1]
    · exact ⟨some c, d, halloc, fun h ↦ absurd h (Option.some_ne_none c)⟩

/-- Two calls, of which the device finishes the second one first. -/
theorem requests_complete_once_out_of_order :
    ∃ o, (driver Bool fun b ↦ if b = true then 7 else 5).Reachable (fun _ _ ↦ True) o ∧
      (o.2.active.length = 2 ∧ o.1.disk.bufDisk true = false ∧ o.1.disk.bufDisk false = true) ∧
      ∀ head, o.2.stage head ≠ .broken := by
  obtain ⟨o, ho, hdone⟩ := System.exists_reachable
    (driver Bool fun b ↦ if b = true then 7 else 5) (fun _ _ ↦ True)
    (fun o ↦ o.2.active.length = 2 ∧ o.1.disk.bufDisk true = false ∧
      o.1.disk.bufDisk false = true)
    ([Event.lock false false, .rw false false] ++ List.replicate 6 (Event.advance false) ++
      [Event.lock true true, .rw true true] ++ List.replicate 6 (Event.advance true) ++
      [Event.take, .take, .post ⟨3, some ⟨1, 14⟩, some true, some 3⟩, .intr, .round])
    (by decide +kernel)
  exact ⟨o, ho, hdone, (requests_complete_once ho).1⟩

end EnhancedXv6.Virtio
