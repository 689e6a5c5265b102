import EnhancedXv6.Pipe.Fifo

/-!
# Nobody sleeps on a pipe that is ready

A reader goes to sleep on an empty pipe and a writer on a full one.  Whoever changes that holds
`pi->lock` and calls `wakeup` before it releases the lock, with one exception: a writer that finds
itself killed returns at once, although it may have put bytes into the pipe.  So a reader that sleeps
while there are bytes in the pipe has a writer to wake it, as long as that writer is not killed.
-/

namespace EnhancedXv6.Pipe

open Transition

variable {P : Type} {s s' : PipeState P} {p q : P}

/-- `p` is in the loop of `pipewrite` and comes to its end or to a full pipe. -/
def Filling (s : PipeState P) (p : P) : Prop :=
  (∃ i n, s.pc p = .writeLoop i n) ∧ s.killed p = false ∧ s.buffer.readopen = true

def Draining (s : PipeState P) (p : P) : Prop := ∃ n bytes, s.pc p = .readCopy n bytes

/-- Every sleeper has a reason to sleep, or somebody who will wake it. -/
structure ReadyInv (s : PipeState P) : Prop where
  held : Held s
  reader : ∀ q n, s.pc q = .readAsleep n →
    s.buffer.writeopen = true ∧ (s.buffer.isEmpty = true ∨ ∃ p, Filling s p)
  writer : ∀ q i n, s.pc q = .writeAsleep i n →
    s.buffer.readopen = true ∧ (s.buffer.isFull = true ∨ ∃ p, Draining s p)

theorem Filling.lock (h : Filling s p) (hheld : Held s) : s.lock = some p := by
  obtain ⟨⟨i, n, hpc⟩, -⟩ := h
  exact (hheld p).mpr (by rw [hpc]; rfl)

theorem Draining.lock (h : Draining s p) (hheld : Held s) : s.lock = some p := by
  obtain ⟨n, bytes, hpc⟩ := h
  exact (hheld p).mpr (by rw [hpc]; rfl)

def Pc.busy : Pc → Bool
  | .writeLoop .. | .readCopy .. => true
  | _ => false

def Pc.asleep : Pc → Bool
  | .writeAsleep .. | .readAsleep .. => true
  | _ => false

namespace ReadyInv

/-- Nobody falls asleep, the pipe stays as it is and those who will wake the sleepers go on. -/
theorem calm (h : ReadyInv s) (hheld : Held s') (hbuffer : s'.buffer = s.buffer)
    (hasleep : ∀ q, (s'.pc q).asleep = true → s'.pc q = s.pc q)
    (hbusy : ∀ q, (s.pc q).busy = true → s'.pc q = s.pc q)
    (hkilled : ∀ q i n, s.pc q = .writeLoop i n → s'.killed q = s.killed q) : ReadyInv s' := by
  refine ⟨hheld, fun q n hq ↦ ?_, fun q i n hq ↦ ?_⟩
  · have hsame := hasleep q (by rw [hq]; rfl)
    obtain ⟨hopen, hreason⟩ := h.reader q n (hsame ▸ hq)
    rw [hbuffer]
    refine ⟨hopen, hreason.imp id ?_⟩
    rintro ⟨p, ⟨i, n, hpc⟩, halive, hread⟩
    have hpc' := hbusy p (by rw [hpc]; rfl)
    exact ⟨p, ⟨i, n, hpc'.trans hpc⟩, (hkilled p i n hpc).trans halive, hbuffer ▸ hread⟩
  · have hsame := hasleep q (by rw [hq]; rfl)
    obtain ⟨hopen, hreason⟩ := h.writer q i n (hsame ▸ hq)
    rw [hbuffer]
    refine ⟨hopen, hreason.imp id ?_⟩
    rintro ⟨p, n, bytes, hpc⟩
    exact ⟨p, n, bytes, (hbusy p (by rw [hpc]; rfl)).trans hpc⟩

/-- A state in which every sleeper has a reason to sleep. -/
theorem of_reasons (hheld : Held s)
    (hreader : ∀ q n, s.pc q = .readAsleep n →
      s.buffer.writeopen = true ∧ s.buffer.isEmpty = true)
    (hwriter : ∀ q i n, s.pc q = .writeAsleep i n →
      s.buffer.readopen = true ∧ s.buffer.isFull = true) : ReadyInv s :=
  ⟨hheld, fun q n hq ↦ (hreader q n hq).imp_right .inl,
    fun q i n hq ↦ (hwriter q i n hq).imp_right .inl⟩

/-- Where nobody will wake them, readers sleep on an empty pipe. -/
theorem reader_empty (h : ReadyInv s) (hlock : ∀ p, s.lock = some p → ¬ Filling s p) {n : ℤ}
    (hq : s.pc q = .readAsleep n) :
    s.buffer.writeopen = true ∧ s.buffer.isEmpty = true := by
  obtain ⟨hopen, hreason⟩ := h.reader q n hq
  refine ⟨hopen, hreason.resolve_right ?_⟩
  rintro ⟨p, hfilling⟩
  exact hlock p (hfilling.lock h.held) hfilling

/-- Where nobody will wake them, writers sleep on a full pipe. -/
theorem writer_full (h : ReadyInv s) (hlock : ∀ p, s.lock = some p → ¬ Draining s p) {i : ℕ} {n : ℤ}
    (hq : s.pc q = .writeAsleep i n) :
    s.buffer.readopen = true ∧ s.buffer.isFull = true := by
  obtain ⟨hopen, hreason⟩ := h.writer q i n hq
  refine ⟨hopen, hreason.resolve_right ?_⟩
  rintro ⟨p, hdraining⟩
  exact hlock p (hdraining.lock h.held) hdraining

end ReadyInv

/-! ## One step -/

theorem not_asleep_wakeReader {pc : Pc} {n : ℤ} : pc.wakeReader ≠ .readAsleep n := by
  cases pc <;> simp [Pc.wakeReader]

theorem not_asleep_wakeWriter {pc : Pc} {i : ℕ} {n : ℤ} : pc.wakeWriter ≠ .writeAsleep i n := by
  cases pc <;> simp [Pc.wakeWriter]

theorem asleep_of_wakeReader {pc : Pc} {i : ℕ} {n : ℤ} (h : pc.wakeReader = .writeAsleep i n) :
    pc = .writeAsleep i n := by
  cases pc <;> simp_all [Pc.wakeReader]

theorem asleep_of_wakeWriter {pc : Pc} {n : ℤ} (h : pc.wakeWriter = .readAsleep n) :
    pc = .readAsleep n := by
  cases pc <;> simp_all [Pc.wakeWriter]

theorem not_draining_of_writeLoop {i : ℕ} {n : ℤ} (hlock : s.lock = some p)
    (hpc : s.pc p = .writeLoop i n) : ∀ q, s.lock = some q → ¬ Draining s q := by
  rintro q hq ⟨n', bytes, hpc'⟩
  rw [hlock, Option.some_inj] at hq
  simp [← hq, hpc] at hpc'

theorem not_filling_of_ne {pc : Pc} (hlock : s.lock = some p) (hpc : s.pc p = pc)
    (hne : ∀ i n, pc ≠ .writeLoop i n) : ∀ q, s.lock = some q → ¬ Filling s q := by
  rintro q hq ⟨⟨i, n, hpc'⟩, -⟩
  rw [hlock, Option.some_inj] at hq
  rw [← hq, hpc] at hpc'
  exact hne i n hpc'

variable [DecidableEq P]

namespace ReadyInv

/-- `p` takes another step outside of the loops that owe a `wakeup`, and does not fall asleep. -/
theorem goto {pc : Pc} {lock : Option P} (h : ReadyInv s)
    (hheld : Held { s.goto p pc with lock := lock }) (hpc : (s.pc p).busy = false)
    (hasleep : pc.asleep = false) : ReadyInv { s.goto p pc with lock := lock } := by
  refine h.calm hheld rfl (fun q hq ↦ ?_) (fun q hq ↦ ?_) fun _ _ _ _ ↦ rfl
  all_goals
    have hne : q ≠ p := by
      rintro rfl
      simp_all
    exact goto_pc_of_ne s p pc hne

theorem kill (h : ReadyInv s) (hpc : ∀ i n, s.pc p ≠ .writeLoop i n) : ReadyInv (s.kill p) := by
  refine h.calm (h.held.goto (by simp [Pc.kill])) rfl (fun q hq ↦ ?_) (fun q hq ↦ ?_)
    fun q i n hq ↦ ?_
  · have hne : q ≠ p := by
      rintro rfl
      have hawake : ((s.kill q).pc q).asleep = false := by
        simp only [PipeState.kill, goto_pc_self]
        cases s.pc q <;> rfl
      simp [hawake] at hq
    exact goto_pc_of_ne s p _ hne
  · by_cases hqp : q = p
    · subst hqp
      simp only [PipeState.kill, goto_pc_self]
      cases hbusy : s.pc q <;> simp [hbusy, Pc.busy, Pc.kill, Pc.wakeReader, Pc.wakeWriter] at hq ⊢
    · exact goto_pc_of_ne s p _ hqp
  · refine Function.update_of_ne ?_ _ _
    rintro rfl
    exact hpc i n hq

/-- The ways out of `pipewrite` that wake the readers. -/
theorem writeWake {i : ℕ} {n : ℤ} {pc : Pc} (h : ReadyInv s) (hpc : s.pc p = .writeLoop i n)
    (hout : pc = .out ∨ pc = .writeAsleep i n ∧ s.buffer.readopen = true ∧ s.buffer.isFull = true)
    (hheld : Held (s.wakeReaders.release p pc)) : ReadyInv (s.wakeReaders.release p pc) := by
  have hlock : s.lock = some p := (h.held p).mpr (by rw [hpc]; rfl)
  refine of_reasons hheld (fun q n' hq ↦ ?_) fun q i' n' hq ↦ ?_
  all_goals by_cases hqp : q = p
  · rw [hqp, release_pc_self] at hq
    rcases hout with rfl | ⟨rfl, -⟩ <;> cases hq
  · rw [release_pc_of_ne _ _ _ hqp] at hq
    exact absurd hq not_asleep_wakeReader
  · rw [hqp, release_pc_self] at hq
    rcases hout with rfl | ⟨-, hreason⟩
    · cases hq
    · exact hreason
  · rw [release_pc_of_ne _ _ _ hqp] at hq
    exact h.writer_full (not_draining_of_writeLoop hlock hpc) (asleep_of_wakeReader hq)

theorem writeRound {i : ℕ} {n : ℤ} {copyin : Option UInt8} (h : ReadyInv s)
    (hheld : Held (Pipe.writeRound s p i n copyin).1) (hpc : s.pc p = .writeLoop i n) :
    ReadyInv (Pipe.writeRound s p i n copyin).1 := by
  have hlock : s.lock = some p := (h.held p).mpr (by rw [hpc]; rfl)
  have hdraining := not_draining_of_writeLoop hlock hpc
  unfold Pipe.writeRound at hheld ⊢
  split_ifs at hheld ⊢ with hmore hleave hfull
  · -- the writer returns without a `wakeup`, so it has not put in anything
    have hfilling : ∀ q, s.lock = some q → ¬ Filling s q := by
      rintro q hq ⟨-, hkilled, hread⟩
      rw [hlock, Option.some_inj] at hq
      subst hq
      simp [hkilled, hread] at hleave
    refine of_reasons hheld (fun q n' hq ↦ ?_) fun q i' n' hq ↦ ?_
    all_goals by_cases hqp : q = p
    · rw [hqp, release_pc_self] at hq
      cases hq
    · rw [release_pc_of_ne _ _ _ hqp] at hq
      exact h.reader_empty hfilling hq
    · rw [hqp, release_pc_self] at hq
      cases hq
    · rw [release_pc_of_ne _ _ _ hqp] at hq
      exact h.writer_full hdraining hq
  · have hopen : s.buffer.readopen = true := by
      cases hread : s.buffer.readopen <;> simp [hread] at hleave ⊢
    exact h.writeWake hpc (.inr ⟨rfl, hopen, hfull⟩) hheld
  · cases copyin with
    | none => exact h.writeWake hpc (.inl rfl) hheld
    | some ch =>
      have hfilling : Filling ((s.push ch).goto p (.writeLoop (i + 1) n)) p := by
        refine ⟨⟨i + 1, n, goto_pc_self _ _ _⟩, ?_, ?_⟩
        · show s.killed p = false
          cases hkilled : s.killed p <;> simp [hkilled] at hleave ⊢
        · show s.buffer.readopen = true
          cases hread : s.buffer.readopen <;> simp [hread] at hleave ⊢
      refine ⟨hheld, fun q n' hq ↦ ?_, fun q i' n' hq ↦ ?_⟩
      all_goals
        have hqp : q ≠ p := by
          rintro rfl
          rw [goto_pc_self] at hq
          cases hq
        rw [goto_pc_of_ne _ _ _ hqp] at hq
      · exact ⟨(h.reader q n' hq).1, .inr ⟨p, hfilling⟩⟩
      · exact absurd (h.writer_full hdraining hq).2 hfull
  · exact h.writeWake hpc (.inl rfl) hheld

theorem readWaitRound {n : ℤ} (h : ReadyInv s) (hheld : Held (Pipe.readWaitRound s p n).1)
    (hpc : s.pc p = .readWait n) : ReadyInv (Pipe.readWaitRound s p n).1 := by
  have hlock : s.lock = some p := (h.held p).mpr (by rw [hpc]; rfl)
  unfold Pipe.readWaitRound at hheld ⊢
  split_ifs at hheld ⊢ with hempty hkilled
  · exact h.goto hheld (by rw [hpc]; rfl) rfl
  · refine of_reasons hheld (fun q n' hq ↦ ?_) fun q i' n' hq ↦ ?_
    all_goals by_cases hqp : q = p
    · exact ⟨hempty.2, hempty.1⟩
    · rw [release_pc_of_ne _ _ _ hqp] at hq
      exact h.reader_empty (not_filling_of_ne hlock hpc (by simp)) hq
    · rw [hqp, release_pc_self] at hq
      cases hq
    · rw [release_pc_of_ne _ _ _ hqp] at hq
      refine h.writer_full ?_ hq
      rintro q' hq' ⟨n'', bytes, hpc'⟩
      rw [hlock, Option.some_inj] at hq'
      simp [← hq', hpc] at hpc'
  · exact h.goto hheld (by rw [hpc]; rfl) rfl

/-- The ways out of `piperead` that wake the writers. -/
theorem readWake {b : Buffer}
    (hreader : ∀ q n, s.pc q = .readAsleep n → b.writeopen = true ∧ b.isEmpty = true)
    (hheld : Held (({ s with buffer := b } : PipeState P).wakeWriters.release p .out)) :
    ReadyInv (({ s with buffer := b } : PipeState P).wakeWriters.release p .out) := by
  refine of_reasons hheld (fun q n' hq ↦ ?_) fun q i' n' hq ↦ ?_
  all_goals by_cases hqp : q = p
  · rw [hqp, release_pc_self] at hq
    cases hq
  · rw [release_pc_of_ne _ _ _ hqp] at hq
    exact hreader q n' (asleep_of_wakeWriter hq)
  · rw [hqp, release_pc_self] at hq
    cases hq
  · rw [release_pc_of_ne _ _ _ hqp] at hq
    exact absurd hq not_asleep_wakeWriter

theorem readRound {n : ℤ} {bytes : List UInt8} {copyout : Bool} (h : ReadyInv s)
    (hheld : Held (Pipe.readRound s p n bytes copyout).1) (hpc : s.pc p = .readCopy n bytes) :
    ReadyInv (Pipe.readRound s p n bytes copyout).1 := by
  have hlock : s.lock = some p := (h.held p).mpr (by rw [hpc]; rfl)
  have hreader := fun q n' (hq : s.pc q = .readAsleep n') ↦
    h.reader_empty (not_filling_of_ne hlock hpc (by simp)) hq
  unfold Pipe.readRound at hheld ⊢
  split_ifs at hheld ⊢ with hmore
  · refine ⟨hheld, fun q n' hq ↦ ?_, fun q i' n' hq ↦ ?_⟩
    all_goals
      have hqp : q ≠ p := by
        rintro rfl
        rw [goto_pc_self] at hq
        cases hq
      rw [goto_pc_of_ne _ _ _ hqp] at hq
    · simp [(hreader q n' hq).2] at hmore
    · exact ⟨(h.writer q i' n' hq).1, .inr ⟨p, n, _, goto_pc_self _ _ _⟩⟩
  · refine readWake (fun q n' hq ↦ ?_) hheld
    simp [(hreader q n' hq).2] at hmore
  · exact readWake hreader hheld

omit [DecidableEq P] in
theorem pipeclose {writable : Bool} (h : ReadyInv s) (hheld : Held (Pipe.pipeclose s writable))
    (hlock : s.lock = none) : ReadyInv (Pipe.pipeclose s writable) := by
  have hfree : ∀ {Q : P → Prop} q, s.lock = some q → ¬ Q q := fun q hq ↦ by simp [hlock] at hq
  cases writable
  · refine of_reasons hheld (fun q n hq ↦ ?_) fun q i n hq ↦ absurd hq not_asleep_wakeWriter
    exact h.reader_empty hfree (asleep_of_wakeWriter hq)
  · refine of_reasons hheld (fun q n hq ↦ absurd hq not_asleep_wakeReader) fun q i n hq ↦ ?_
    exact h.writer_full hfree (asleep_of_wakeReader hq)

end ReadyInv

/-! ## Runs -/

def Pc.writing : Pc → Bool
  | .writeLoop .. => true
  | _ => false

/-- No process is killed while it is in the loop of `pipewrite`. -/
def sparesWriter (o : PipeState P × Ledger P) : PipeEvent P → Prop
  | .kill p => (o.1.pc p).writing = false
  | _ => True

instance (o : PipeState P × Ledger P) (e : PipeEvent P) : Decidable (sparesWriter o e) :=
  match e with
  | .kill p => inferInstanceAs (Decidable ((o.1.pc p).writing = false))
  | .write .. | .read .. | .close .. | .advance .. => isTrue trivial

theorem ReadyInv.step {o : PipeState P × Ledger P} {e : PipeEvent P} {m : PipeState P × Note P}
    (h : ReadyInv o.1) (hgood : sparesWriter o e) (hstep : Pipe.step o.1 e = some m) :
    ReadyInv m.1 := by
  have hheld := h.held.step hstep
  cases e with
  | write p n | read p n =>
    simp only [Pipe.step, Option.ite_none_right_eq_some, Option.some_inj] at hstep
    obtain ⟨hpc, rfl⟩ := hstep
    exact h.goto hheld (by rw [hpc]; rfl) rfl
  | close p writable =>
    simp only [Pipe.step, Option.ite_none_right_eq_some, Option.some_inj] at hstep
    obtain ⟨⟨-, hlock⟩, rfl⟩ := hstep
    exact h.pipeclose hheld hlock
  | kill p =>
    obtain rfl := Option.some_inj.mp hstep
    refine h.kill fun i n hpc ↦ ?_
    simp [sparesWriter, hpc, Pc.writing] at hgood
  | advance p copyin copyout =>
    simp only [Pipe.step, advance] at hstep
    cases hpc : o.1.pc p with
    | out | writeAsleep i n | readAsleep n => simp [hpc] at hstep
    | writeEnter i n | readEnter n =>
      simp only [hpc, Option.ite_none_right_eq_some, Option.some_inj] at hstep
      obtain ⟨hlock, rfl⟩ := hstep
      exact h.goto hheld (by rw [hpc]; rfl) rfl
    | writeLoop i n =>
      simp only [hpc, Option.some_inj] at hstep
      subst hstep
      exact h.writeRound hheld hpc
    | readWait n =>
      simp only [hpc, Option.some_inj] at hstep
      subst hstep
      exact h.readWaitRound hheld hpc
    | readCopy n bytes =>
      simp only [hpc, Option.some_inj] at hstep
      subst hstep
      exact h.readRound hheld hpc

/-- Whenever `pi->lock` is free, readers sleep on an empty pipe with an open write end and writers on
a full pipe with an open read end, if no process is killed in the loop of `pipewrite`. -/
theorem sleeps_only_on_unready_pipe {data : ℕ → UInt8} {count : BitVec 32}
    {o : PipeState P × Ledger P} (ho : (pipes P data count).Reachable sparesWriter o)
    (hlock : o.1.lock = none) :
    (∀ q n, o.1.pc q = .readAsleep n →
      o.1.buffer.nread = o.1.buffer.nwrite ∧ o.1.buffer.writeopen = true) ∧
    (∀ q i n, o.1.pc q = .writeAsleep i n →
      o.1.buffer.nwrite = o.1.buffer.nread + BitVec.ofNat 32 PIPESIZE ∧
        o.1.buffer.readopen = true) := by
  have hinv : ReadyInv o.1 := by
    refine ho.invariant (fun o ↦ ReadyInv o.1) ?_ fun o e o' h hgood hnext ↦ ?_
    · exact .of_reasons (fifoInv_opened data count).held (fun q n hq ↦ by cases hq)
        fun q i n hq ↦ by cases hq
    · obtain ⟨m, hstep, rfl⟩ := pipes_next.mp hnext
      exact h.step hgood hstep
  have hfree : ∀ {Q : P → Prop} q, o.1.lock = some q → ¬ Q q := fun q hq ↦ by simp [hlock] at hq
  refine ⟨fun q n hq ↦ ?_, fun q i n hq ↦ ?_⟩
  · obtain ⟨hopen, hempty⟩ := hinv.reader_empty hfree hq
    exact ⟨of_decide_eq_true hempty, hopen⟩
  · obtain ⟨hopen, hfull⟩ := hinv.writer_full hfree hq
    exact ⟨of_decide_eq_true hfull, hopen⟩

/-- A reader that sleeps, between a write that was read and the next one. -/
theorem sleeps_only_on_unready_pipe_reader :
    ∃ o, (pipes Bool (fun _ ↦ 0) 0).Reachable sparesWriter o ∧
      (o.2.returned = [(true, [7])] ∧ o.1.pc true = .readAsleep 3 ∧ o.1.lock = none) ∧
      (∀ q n, o.1.pc q = .readAsleep n →
        o.1.buffer.nread = o.1.buffer.nwrite ∧ o.1.buffer.writeopen = true) ∧
      (∀ q i n, o.1.pc q = .writeAsleep i n →
        o.1.buffer.nwrite = o.1.buffer.nread + BitVec.ofNat 32 PIPESIZE ∧
          o.1.buffer.readopen = true) := by
  obtain ⟨o, ho, hstate⟩ := (pipes Bool (fun _ ↦ 0) 0).exists_reachable sparesWriter
    (fun o ↦ o.2.returned = [(true, [7])] ∧ o.1.pc true = .readAsleep 3 ∧ o.1.lock = none)
    [.write false 1, .advance false none true, .advance false (some 7) true,
      .advance false none true, .read true 1, .advance true none true, .advance true none true,
      .advance true none true, .advance true none true, .read true 3, .advance true none true,
      .advance true none true] (by decide +kernel)
  exact ⟨o, ho, hstate, sleeps_only_on_unready_pipe ho hstate.2.2⟩

/-- A writer is killed after its first byte: the reader sleeps on, with that byte in the pipe. -/
theorem reader_sleeps_on_filled_pipe :
    ∃ o, (pipes Bool (fun _ ↦ 0) 0).Reachable (fun _ _ ↦ True) o ∧
      o.1.lock = none ∧ o.1.pc false = .out ∧ o.1.pc true = .readAsleep 1 ∧
      o.1.buffer.nread ≠ o.1.buffer.nwrite := by
  exact (pipes Bool (fun _ ↦ 0) 0).exists_reachable (fun _ _ ↦ True)
    (fun o ↦ o.1.lock = none ∧ o.1.pc false = .out ∧ o.1.pc true = .readAsleep 1 ∧
      o.1.buffer.nread ≠ o.1.buffer.nwrite)
    [.read true 1, .advance true none true, .advance true none true,
      .write false 2, .advance false none true, .advance false (some 7) true, .kill false,
      .advance false none true] (by decide +kernel)

end EnhancedXv6.Pipe
