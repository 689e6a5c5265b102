import EnhancedXv6.Pipe.Model

/-!
# A pipe is a queue

The bytes between `nread` and `nwrite` are a queue: a round of `pipewrite` appends one byte to it and
a round of `piperead` takes its first one.  So what has been put in is what has been removed, followed
by what the queue holds, whatever the counters are.  The readers get what is removed as long as
`copyout` succeeds: `piperead` counts a byte as read before it copies it out.
-/

namespace EnhancedXv6.Pipe

open RingBuffer Transition

/-! ## The buffer -/

namespace Buffer

variable {b : Buffer}

def size (b : Buffer) : ℕ := (b.nwrite - b.nread).toNat

def contents (b : Buffer) : List UInt8 := window PIPESIZE b.data b.nread b.size

theorem nwrite_eq (b : Buffer) : b.nwrite = after b.nread b.size :=
  (after_toNat_sub b.nread b.nwrite).symm

theorem size_ne_of_not_full (h : b.isFull = false) : b.size ≠ PIPESIZE := by
  intro hsize
  have hfull : b.isFull = true := by
    rw [isFull, nwrite_eq b, hsize]
    exact decide_eq_true rfl
  simp [hfull] at h

theorem nread_ne_nwrite (h : b.isEmpty = false) : b.nread ≠ b.nwrite := by
  simpa [isEmpty] using h

theorem size_push (hsize : b.size < PIPESIZE) (ch : UInt8) : (b.push ch).size = b.size + 1 := by
  have hlt : b.size + 1 < 2 ^ 32 := by
    simp only [PIPESIZE] at hsize
    omega
  exact toNat_succ_sub hlt

theorem contents_push (hsize : b.size < PIPESIZE) (ch : UInt8) :
    (b.push ch).contents = b.contents ++ [ch] :=
  between_push (by decide) (by decide) hsize ch

theorem size_pop (h : b.isEmpty = false) : b.pop.size + 1 = b.size :=
  toNat_sub_succ (nread_ne_nwrite h)

theorem contents_pop (h : b.isEmpty = false) : b.contents = b.front :: b.pop.contents :=
  between_pop (nread_ne_nwrite h)

end Buffer

/-! ## One step -/

variable {P : Type} [DecidableEq P] {s : PipeState P} {m : PipeState P × Note P} {e : PipeEvent P}

def Pc.bytes : Pc → List UInt8
  | .readCopy _ bytes => bytes
  | _ => []

def pending (s : PipeState P) : List UInt8 := s.lock.elim [] fun p ↦ (s.pc p).bytes

/-- What a step does to the queue and to the bytes of the call. -/
inductive Moves (s : PipeState P) : PipeState P × Note P → Prop
  | quiet {s' : PipeState P} : s'.buffer.contents = s.buffer.contents →
      s'.buffer.size = s.buffer.size → pending s' = pending s → Moves s (s', .none)
  | put {s' : PipeState P} (ch : UInt8) : s.buffer.size < PIPESIZE →
      s'.buffer = s.buffer.push ch → pending s' = pending s → Moves s (s', .put ch)
  | removed {s' : PipeState P} : s.buffer.isEmpty = false → s'.buffer = s.buffer.pop →
      pending s' = pending s ++ [s.buffer.front] → Moves s (s', .removed s.buffer.front)
  | returned {s' : PipeState P} (p : P) : s'.buffer = s.buffer → pending s' = [] →
      Moves s (s', .returned p (pending s))
  | broke {s' : PipeState P} (p : P) : s.buffer.isEmpty = false → s'.buffer = s.buffer.pop →
      pending s' = [] → Moves s (s', .broke p s.buffer.front (pending s))

section Pending

variable {p : P} {pc : Pc}

omit [DecidableEq P] in
theorem pending_of_holder (hlock : s.lock = some p) (hpc : s.pc p = pc) : pending s = pc.bytes := by
  rw [pending, hlock, Option.elim_some, hpc]

theorem pending_goto_holder (hlock : s.lock = some p) : pending (s.goto p pc) = pc.bytes :=
  pending_of_holder hlock (goto_pc_self s p pc)

/-- A process that does not hold the lock goes on. -/
theorem pending_goto (hbytes : pc.bytes = (s.pc p).bytes) : pending (s.goto p pc) = pending s := by
  unfold pending
  show s.lock.elim [] _ = _
  cases s.lock with
  | none => rfl
  | some q =>
    by_cases hq : q = p
    · subst hq
      simpa using hbytes
    · simp [goto_pc_of_ne s p pc hq]

theorem pending_acquire : pending (s.acquire p pc) = pc.bytes :=
  pending_of_holder rfl (acquire_pc_self s p pc)

omit [DecidableEq P] in
theorem pending_of_free (hlock : s.lock = none) : pending s = [] := by
  rw [pending, hlock, Option.elim_none]

end Pending

theorem Pc.bytes_kill (pc : Pc) : pc.kill.bytes = pc.bytes := by
  cases pc <;> rfl

theorem moves_writeRound {p : P} {i : ℕ} {n : ℤ} {copyin : Option UInt8}
    (hlock : s.lock = some p) (hpc : s.pc p = .writeLoop i n)
    (hsize : s.buffer.size ≤ PIPESIZE) : Moves s (writeRound s p i n copyin) := by
  have hpending : pending s = [] := pending_of_holder hlock hpc
  unfold writeRound
  split_ifs with _ _ hfull
  · exact .quiet rfl rfl hpending.symm
  · exact .quiet rfl rfl hpending.symm
  · cases copyin with
    | none => exact .quiet rfl rfl hpending.symm
    | some ch =>
      have hne := Buffer.size_ne_of_not_full (by simpa using hfull)
      exact .put ch (by omega) rfl ((pending_goto_holder hlock).trans hpending.symm)
  · exact .quiet rfl rfl hpending.symm

theorem moves_readWaitRound {p : P} {n : ℤ} (hlock : s.lock = some p)
    (hpc : s.pc p = .readWait n) : Moves s (readWaitRound s p n) := by
  have hpending : pending s = [] := pending_of_holder hlock hpc
  unfold readWaitRound
  split_ifs
  · exact .quiet rfl rfl hpending.symm
  · exact .quiet rfl rfl hpending.symm
  · exact .quiet rfl rfl ((pending_goto_holder hlock).trans hpending.symm)

theorem moves_readRound {p : P} {n : ℤ} {bytes : List UInt8} {copyout : Bool}
    (hlock : s.lock = some p) (hpc : s.pc p = .readCopy n bytes) :
    Moves s (readRound s p n bytes copyout) := by
  have hpending : pending s = bytes := pending_of_holder hlock hpc
  unfold readRound
  split_ifs with hmore
  · refine .removed hmore.2 rfl ?_
    rw [hpending]
    exact pending_goto_holder hlock
  · have hbroke : Moves s (s.pop.wakeWriters.release p .out,
        .broke p s.buffer.front (pending s)) := .broke p hmore.2 rfl rfl
    rwa [hpending] at hbroke
  · have hreturned : Moves s (s.wakeWriters.release p .out, .returned p (pending s)) :=
      .returned p rfl rfl
    rwa [hpending] at hreturned

/-- Every step of the pipe is one of `Moves`. -/
theorem moves_step (hheld : Held s) (hsize : s.buffer.size ≤ PIPESIZE) (hstep : step s e = some m) :
    Moves s m := by
  cases e with
  | write p n | read p n =>
    simp only [step, Option.ite_none_right_eq_some, Option.some_inj] at hstep
    obtain ⟨hpc, rfl⟩ := hstep
    exact .quiet rfl rfl (pending_goto (by rw [hpc]; rfl))
  | close p writable =>
    simp only [step, Option.ite_none_right_eq_some, Option.some_inj] at hstep
    obtain ⟨⟨-, hlock⟩, rfl⟩ := hstep
    have hpending := pending_of_free hlock
    have hclosed : ∀ w, pending (pipeclose s w) = [] := fun w ↦
      pending_of_free (by cases w <;> exact hlock)
    have hcontents : ∀ w, (pipeclose s w).buffer.contents = s.buffer.contents := fun w ↦ by
      cases w <;> rfl
    have hsize : ∀ w, (pipeclose s w).buffer.size = s.buffer.size := fun w ↦ by
      cases w <;> rfl
    exact .quiet (hcontents _) (hsize _) ((hclosed _).trans hpending.symm)
  | kill p =>
    obtain rfl := Option.some_inj.mp hstep
    have hpending : pending (s.kill p) = pending s := pending_goto (Pc.bytes_kill (s.pc p))
    exact .quiet rfl rfl hpending
  | advance p copyin copyout =>
    have hheld := hheld p
    simp only [step, advance] at hstep
    cases hpc : s.pc p with
    | out | writeAsleep i n | readAsleep n => simp [hpc] at hstep
    | writeEnter i n | readEnter n =>
      simp only [hpc, Option.ite_none_right_eq_some, Option.some_inj] at hstep
      obtain ⟨hlock, rfl⟩ := hstep
      exact .quiet rfl rfl (pending_acquire.trans (pending_of_free hlock).symm)
    | writeLoop i n =>
      simp only [hpc, Option.some_inj] at hstep
      exact hstep ▸ moves_writeRound (hheld.mpr (by rw [hpc]; rfl)) hpc hsize
    | readWait n =>
      simp only [hpc, Option.some_inj] at hstep
      exact hstep ▸ moves_readWaitRound (hheld.mpr (by rw [hpc]; rfl)) hpc
    | readCopy n bytes =>
      simp only [hpc, Option.some_inj] at hstep
      exact hstep ▸ moves_readRound (hheld.mpr (by rw [hpc]; rfl)) hpc

/-! ## Runs -/

structure FifoInv (o : PipeState P × Ledger P) : Prop where
  held : Held o.1
  size : o.1.buffer.size ≤ PIPESIZE
  stored : o.2.put = o.2.removed ++ o.1.buffer.contents

def Delivered (o : PipeState P × Ledger P) : Prop := o.2.removed = o.2.delivered ++ pending o.1

theorem FifoInv.next {data : ℕ → UInt8} {count : BitVec 32} {o o' : PipeState P × Ledger P}
    (h : FifoInv o) (hnext : (pipes P data count).next o e = some o') : FifoInv o' := by
  obtain ⟨m, hstep, rfl⟩ := pipes_next.mp hnext
  have hheld := h.held.step hstep
  have hstored := h.stored
  cases moves_step h.held h.size hstep with
  | quiet hcontents hsize hpending =>
    refine ⟨hheld, hsize.trans_le h.size, ?_⟩
    rw [hcontents]
    exact hstored
  | put ch hroom hbuffer hpending =>
    refine ⟨hheld, ?_, ?_⟩
    · rw [hbuffer, Buffer.size_push hroom]
      exact hroom
    · rw [hbuffer, Buffer.contents_push hroom, ← List.append_assoc]
      show o.2.put ++ [ch] = o.2.removed ++ o.1.buffer.contents ++ [ch]
      rw [hstored]
  | removed hsome hbuffer hpending =>
    have hpop := Buffer.size_pop hsome
    have hsize := h.size
    refine ⟨hheld, by rw [hbuffer]; omega, ?_⟩
    rw [hbuffer]
    show o.2.put = o.2.removed ++ [o.1.buffer.front] ++ _
    rw [hstored, Buffer.contents_pop hsome, List.append_assoc, List.singleton_append]
  | returned p hbuffer hpending =>
    refine ⟨hheld, by rw [hbuffer]; exact h.size, ?_⟩
    rw [hbuffer]
    exact hstored
  | broke p hsome hbuffer hpending =>
    have hpop := Buffer.size_pop hsome
    have hsize := h.size
    refine ⟨hheld, by rw [hbuffer]; omega, ?_⟩
    rw [hbuffer]
    show o.2.put = o.2.removed ++ [o.1.buffer.front] ++ _
    rw [hstored, Buffer.contents_pop hsome, List.append_assoc, List.singleton_append]

theorem fifoInv_opened (data : ℕ → UInt8) (count : BitVec 32) :
    FifoInv (pipes P data count).start := by
  refine ⟨fun p ↦ by simp [pipes, opened, Pc.locked], ?_, ?_⟩
  · simp [pipes, opened, Buffer.size]
  · simp [pipes, opened, Buffer.contents, Buffer.size]

theorem fifoInv_of_reachable {good : PipeState P × Ledger P → PipeEvent P → Prop}
    {data : ℕ → UInt8} {count : BitVec 32} {o : PipeState P × Ledger P}
    (ho : (pipes P data count).Reachable good o) : FifoInv o :=
  ho.invariant FifoInv (fifoInv_opened data count) fun _ _ _ h _ hnext ↦ h.next hnext

/-- A byte is lost only where `copyout` fails. -/
theorem copyout_of_broke {s' : PipeState P} {p : P} {byte : UInt8} {bytes : List UInt8}
    (hstep : step s e = some (s', .broke p byte bytes)) :
    ∃ copyin n, e = .advance p copyin false ∧ s.pc p = .readCopy n bytes := by
  cases e with
  | write q n | read q n | close q writable | kill q => simp [step] at hstep
  | advance q copyin copyout =>
    simp only [step, advance] at hstep
    cases hpc : s.pc q with
    | out | writeAsleep i n | readAsleep n | writeEnter i n | readEnter n => simp [hpc] at hstep
    | writeLoop i n =>
      simp only [hpc, Option.some_inj, writeRound] at hstep
      split_ifs at hstep <;> cases copyin <;> simp at hstep
    | readWait n =>
      simp only [hpc, Option.some_inj, readWaitRound] at hstep
      split_ifs at hstep <;> simp at hstep
    | readCopy n bytes' =>
      simp only [hpc, Option.some_inj, readRound] at hstep
      split_ifs at hstep with hmore hcopy
      · simp at hstep
      · simp only [Prod.mk.injEq, Note.broke.injEq] at hstep
        obtain ⟨-, rfl, -, rfl⟩ := hstep
        exact ⟨copyin, n, by simpa using hcopy, hpc⟩
      · simp at hstep

def Pc.copies : Pc → Bool
  | .readCopy .. => true
  | _ => false

def writableDst (o : PipeState P × Ledger P) : PipeEvent P → Prop
  | .advance p _ copyout => (o.1.pc p).copies = true → copyout = true
  | _ => True

instance (o : PipeState P × Ledger P) (e : PipeEvent P) : Decidable (writableDst o e) :=
  match e with
  | .advance p _ copyout => inferInstanceAs (Decidable ((o.1.pc p).copies = true → copyout = true))
  | .write .. | .read .. | .close .. | .kill .. => isTrue trivial

theorem Delivered.next {data : ℕ → UInt8} {count : BitVec 32} {o o' : PipeState P × Ledger P}
    (h : Delivered o) (hfifo : FifoInv o) (hgood : writableDst o e)
    (hnext : (pipes P data count).next o e = some o') : Delivered o' := by
  obtain ⟨m, hstep, rfl⟩ := pipes_next.mp hnext
  have hmoves := moves_step hfifo.held hfifo.size hstep
  unfold Delivered at h ⊢
  cases hmoves with
  | quiet _ _ hpending => simpa [Ledger.record, hpending] using h
  | put ch _ _ hpending => simpa [Ledger.record, Ledger.delivered, hpending] using h
  | removed _ _ hpending => simp [Ledger.record, Ledger.delivered, hpending, h]
  | returned p _ hpending => simp [Ledger.record, Ledger.delivered, hpending, h]
  | broke p _ _ _ =>
    obtain ⟨copyin, n, rfl, hpc⟩ := copyout_of_broke hstep
    simp [writableDst, hpc, Pc.copies] at hgood

/-- A pipe holds at most `PIPESIZE` bytes and is a queue: what has been put in is what has been
removed followed by what it holds.  Between the calls, the readers have got what has been removed,
if every byte that is removed can be copied out. -/
theorem pipe_is_fifo {data : ℕ → UInt8} {count : BitVec 32} {o : PipeState P × Ledger P}
    (ho : (pipes P data count).Reachable writableDst o) :
    (o.1.buffer.nwrite - o.1.buffer.nread).toNat ≤ PIPESIZE ∧
      o.2.put = o.2.removed ++ o.1.buffer.contents ∧
      (o.1.lock = none → o.2.delivered = o.2.removed ∧ o.2.delivered <+: o.2.put) := by
  have hfifo := fifoInv_of_reachable ho
  have hdelivered : FifoInv o ∧ Delivered o := by
    refine ho.invariant (fun o ↦ FifoInv o ∧ Delivered o) ⟨fifoInv_opened data count, rfl⟩ ?_
    intro o e o' h hgood hnext
    exact ⟨h.1.next hnext, h.2.next h.1 hgood hnext⟩
  refine ⟨hfifo.size, hfifo.stored, fun hlock ↦ ?_⟩
  have hequal : o.2.delivered = o.2.removed := by
    rw [hdelivered.2, pending_of_free hlock, List.append_nil]
  rw [hequal, hfifo.stored]
  exact ⟨rfl, List.prefix_append _ _⟩

/-- A run in which two bytes go through the pipe while the counters wrap around. -/
theorem pipe_is_fifo_two_bytes :
    ∃ o, (pipes Bool (fun _ ↦ 0) (BitVec.ofNat 32 (2 ^ 32 - 1))).Reachable writableDst o ∧
      o.2.returned = [(true, [7, 8])] ∧
      (o.1.buffer.nwrite - o.1.buffer.nread).toNat ≤ PIPESIZE ∧
      o.2.put = o.2.removed ++ o.1.buffer.contents ∧
      (o.1.lock = none → o.2.delivered = o.2.removed ∧ o.2.delivered <+: o.2.put) := by
  obtain ⟨o, ho, hreturned⟩ :=
    (pipes Bool (fun _ ↦ 0) (BitVec.ofNat 32 (2 ^ 32 - 1))).exists_reachable writableDst
      (fun o ↦ o.2.returned = [(true, [7, 8])])
      [.write false 3, .advance false none true, .advance false (some 7) true,
        .advance false (some 8) true, .advance false none true,
        .read true 5, .advance true none true, .advance true none true, .advance true none true,
        .advance true none true, .advance true none true] (by decide +kernel)
  exact ⟨o, ho, hreturned, pipe_is_fifo ho⟩

/-- `piperead` removes a byte whose `copyout` fails; no later call delivers it. -/
theorem pipe_loses_byte :
    ∃ o, (pipes Bool (fun _ ↦ 0) 0).Reachable (fun _ _ ↦ True) o ∧ o.1.lock = none ∧
      o.2.put = [7] ∧ o.2.removed = [7] ∧ o.2.delivered = [] := by
  refine (pipes Bool (fun _ ↦ 0) 0).exists_reachable (fun _ _ ↦ True)
    (fun o ↦ o.1.lock = none ∧ o.2.put = [7] ∧ o.2.removed = [7] ∧ o.2.delivered = [])
    [.write false 1, .advance false none true, .advance false (some 7) true,
      .advance false none true, .read true 1, .advance true none true, .advance true none true,
      .advance true none false] (by decide +kernel)

end EnhancedXv6.Pipe
