import EnhancedXv6.Ring.Window
import EnhancedXv6.Transition.System

/-!
# Pipes

`pipewrite`, `piperead` and `pipeclose` of pipe.c for any type `P` of processes.  Taking `pi->lock` is a
step, and so is each round of a loop under it; any process may be killed between two steps.  `sleep`
releases `pi->lock` and puts the process to sleep in one step, and `wakeup` is part of the step that
calls it.

A process in a call has a reference to its end of the pipe, so that the page of the pipe is freed only
while no process is in a call on it; that step is left out.  The outcome of `copyin` and `copyout` is
part of the event.
-/

namespace EnhancedXv6.Pipe

open RingBuffer Transition

abbrev PIPESIZE : ℕ := 512

/-- `struct pipe`, without its lock. -/
structure Buffer where
  data : ℕ → UInt8
  nread : BitVec 32
  nwrite : BitVec 32
  readopen : Bool
  writeopen : Bool

namespace Buffer

variable (b : Buffer)

def isEmpty : Bool := b.nread = b.nwrite

def isFull : Bool := b.nwrite = b.nread + BitVec.ofNat 32 PIPESIZE

def front : UInt8 := b.data (cell PIPESIZE b.nread)

def push (ch : UInt8) : Buffer :=
  { b with data := Function.update b.data (cell PIPESIZE b.nwrite) ch, nwrite := b.nwrite + 1 }

def pop : Buffer := { b with nread := b.nread + 1 }

end Buffer

/-- Where a process is.  `i` bytes of `n` have been moved. -/
inductive Pc
  /-- in no call on this pipe -/
  | out
  /-- `pipewrite` before it has `pi->lock`, at the start or at the end of `sleep` -/
  | writeEnter (i : ℕ) (n : ℤ)
  /-- `pipewrite` before the test `i < n` -/
  | writeLoop (i : ℕ) (n : ℤ)
  /-- asleep on `&pi->nwrite` -/
  | writeAsleep (i : ℕ) (n : ℤ)
  /-- `piperead` before it has `pi->lock` -/
  | readEnter (n : ℤ)
  /-- `piperead` before the test for an empty pipe -/
  | readWait (n : ℤ)
  /-- asleep on `&pi->nread` -/
  | readAsleep (n : ℤ)
  /-- `piperead` before the test `i < n`; the caller has got `bytes` -/
  | readCopy (n : ℤ) (bytes : List UInt8)
  deriving DecidableEq

/-- The code between `acquire(&pi->lock)` and `release(&pi->lock)`. -/
def Pc.locked : Pc → Bool
  | .writeLoop .. | .readWait .. | .readCopy .. => true
  | .out | .writeEnter .. | .writeAsleep .. | .readEnter .. | .readAsleep .. => false

def Pc.wakeReader : Pc → Pc
  | .readAsleep n => .readEnter n
  | pc => pc

def Pc.wakeWriter : Pc → Pc
  | .writeAsleep i n => .writeEnter i n
  | pc => pc

def Pc.kill (pc : Pc) : Pc := pc.wakeReader.wakeWriter

structure PipeState (P : Type) where
  buffer : Buffer
  lock : Option P
  killed : P → Bool
  pc : P → Pc

inductive PipeEvent (P : Type)
  | write (p : P) (n : ℤ)
  | read (p : P) (n : ℤ)
  | close (p : P) (writable : Bool)
  | kill (p : P)
  /-- the next step of a call; `copyin` is the byte that is read from the caller, if that succeeds,
  and `copyout` says whether a byte can be written to it -/
  | advance (p : P) (copyin : Option UInt8) (copyout : Bool)

inductive Note (P : Type)
  | none
  /-- a byte is put into the pipe -/
  | put (byte : UInt8)
  /-- a byte is removed from the pipe -/
  | removed (byte : UInt8)
  /-- `piperead` returns `bytes.length`, and these are the bytes the caller has got -/
  | returned (p : P) (bytes : List UInt8)
  /-- a byte is removed from the pipe and `piperead` returns without it -/
  | broke (p : P) (byte : UInt8) (bytes : List UInt8)

variable {P : Type} [DecidableEq P]

namespace PipeState

variable (s : PipeState P) (p : P)

def goto (pc : Pc) : PipeState P := { s with pc := Function.update s.pc p pc }

def acquire (pc : Pc) : PipeState P := { s.goto p pc with lock := some p }

def release (pc : Pc) : PipeState P := { s.goto p pc with lock := Option.none }

def wakeReaders : PipeState P := { s with pc := fun q ↦ (s.pc q).wakeReader }

def wakeWriters : PipeState P := { s with pc := fun q ↦ (s.pc q).wakeWriter }

def push (ch : UInt8) : PipeState P := { s with buffer := s.buffer.push ch }

def pop : PipeState P := { s with buffer := s.buffer.pop }

end PipeState

def PipeState.kill (s : PipeState P) (p : P) : PipeState P :=
  { s.goto p (s.pc p).kill with killed := Function.update s.killed p true }

def writeRound (s : PipeState P) (p : P) (i : ℕ) (n : ℤ) (copyin : Option UInt8) :
    PipeState P × Note P :=
  if i < n then
    if s.buffer.readopen = false ∨ s.killed p = true then (s.release p .out, .none)
    else if s.buffer.isFull = true then
      (s.wakeReaders.release p (.writeAsleep i n), .none)
    else
      match copyin with
      | none => (s.wakeReaders.release p .out, .none)
      | some ch => ((s.push ch).goto p (.writeLoop (i + 1) n), .put ch)
  else (s.wakeReaders.release p .out, .none)

def readWaitRound (s : PipeState P) (p : P) (n : ℤ) : PipeState P × Note P :=
  if s.buffer.isEmpty = true ∧ s.buffer.writeopen = true then
    if s.killed p = true then (s.release p .out, .none)
    else (s.release p (.readAsleep n), .none)
  else (s.goto p (.readCopy n []), .none)

def readRound (s : PipeState P) (p : P) (n : ℤ) (bytes : List UInt8) (copyout : Bool) :
    PipeState P × Note P :=
  if bytes.length < n ∧ s.buffer.isEmpty = false then
    if copyout = true then (s.pop.goto p (.readCopy n (bytes ++ [s.buffer.front])), .removed s.buffer.front)
    else (s.pop.wakeWriters.release p .out, .broke p s.buffer.front bytes)
  else (s.wakeWriters.release p .out, .returned p bytes)

/-- The code of a call after its first step; `none` where the process waits. -/
def advance (s : PipeState P) (p : P) (copyin : Option UInt8) (copyout : Bool) :
    Option (PipeState P × Note P) :=
  match s.pc p with
  | .out | .writeAsleep .. | .readAsleep .. => none
  | .writeEnter i n =>
    if s.lock = none then some (s.acquire p (.writeLoop i n), .none) else none
  | .readEnter n =>
    if s.lock = none then some (s.acquire p (.readWait n), .none) else none
  | .writeLoop i n => some (writeRound s p i n copyin)
  | .readWait n => some (readWaitRound s p n)
  | .readCopy n bytes => some (readRound s p n bytes copyout)

/-- `pipeclose`, which holds `pi->lock` for one step. -/
def pipeclose (s : PipeState P) (writable : Bool) : PipeState P :=
  if writable = true then
    ({ s with buffer := { s.buffer with writeopen := false } } : PipeState P).wakeReaders
  else ({ s with buffer := { s.buffer with readopen := false } } : PipeState P).wakeWriters

def step (s : PipeState P) : PipeEvent P → Option (PipeState P × Note P)
  | .write p n => if s.pc p = .out then some (s.goto p (.writeEnter 0 n), .none) else none
  | .read p n => if s.pc p = .out then some (s.goto p (.readEnter n), .none) else none
  | .close p writable =>
    if s.pc p = .out ∧ s.lock = none then some (pipeclose s writable, .none) else none
  | .kill p => some (s.kill p, .none)
  | .advance p copyin copyout => advance s p copyin copyout

def opened (P : Type) (data : ℕ → UInt8) (count : BitVec 32) : PipeState P where
  buffer := { data := data, nread := count, nwrite := count, readopen := true, writeopen := true }
  lock := none
  killed := fun _ ↦ false
  pc := fun _ ↦ .out

/-- What has gone through the pipe, in order. -/
structure Ledger (P : Type) where
  put : List UInt8 := []
  removed : List UInt8 := []
  /-- the calls of `piperead` that have returned a number of bytes, with these bytes -/
  returned : List (P × List UInt8) := []

def Ledger.record (r : Ledger P) : Note P → Ledger P
  | .none => r
  | .put byte => { r with put := r.put ++ [byte] }
  | .removed byte => { r with removed := r.removed ++ [byte] }
  | .returned p bytes => { r with returned := r.returned ++ [(p, bytes)] }
  | .broke p byte bytes =>
    { r with removed := r.removed ++ [byte], returned := r.returned ++ [(p, bytes)] }

def Ledger.delivered (r : Ledger P) : List UInt8 := (r.returned.map Prod.snd).flatten

/-- The processes that use a pipe, with what has gone through it. -/
def pipes (P : Type) [DecidableEq P] (data : ℕ → UInt8) (count : BitVec 32) :
    System (PipeState P × Ledger P) (PipeEvent P) where
  start := (opened P data count, {})
  next o e := (step o.1 e).map fun m ↦ (m.1, o.2.record m.2)

theorem pipes_next {data : ℕ → UInt8} {count : BitVec 32} {o o' : PipeState P × Ledger P}
    {e : PipeEvent P} :
    (pipes P data count).next o e = some o' ↔
      ∃ m, step o.1 e = some m ∧ o' = (m.1, o.2.record m.2) := by
  simp [pipes, eq_comm]

/-! ## The lock -/

section Fields

variable (s : PipeState P) (p : P) (pc : Pc)

@[simp] theorem goto_pc_self : (s.goto p pc).pc p = pc := Function.update_self ..

theorem goto_pc_of_ne {q : P} (h : q ≠ p) : (s.goto p pc).pc q = s.pc q :=
  Function.update_of_ne h _ _

@[simp] theorem acquire_pc_self : (s.acquire p pc).pc p = pc := Function.update_self ..

theorem acquire_pc_of_ne {q : P} (h : q ≠ p) : (s.acquire p pc).pc q = s.pc q :=
  Function.update_of_ne h _ _

@[simp] theorem release_pc_self : (s.release p pc).pc p = pc := Function.update_self ..

theorem release_pc_of_ne {q : P} (h : q ≠ p) : (s.release p pc).pc q = s.pc q :=
  Function.update_of_ne h _ _

end Fields

@[simp] theorem Pc.locked_wakeReader (pc : Pc) : pc.wakeReader.locked = pc.locked := by
  cases pc <;> rfl

@[simp] theorem Pc.locked_wakeWriter (pc : Pc) : pc.wakeWriter.locked = pc.locked := by
  cases pc <;> rfl

/-- The holder of `pi->lock` is the process in the code between `acquire` and `release`. -/
def Held (s : PipeState P) : Prop := ∀ p, s.lock = some p ↔ (s.pc p).locked = true

namespace Held

variable {s : PipeState P} {p : P} {pc : Pc}

theorem goto (h : Held s) (hpc : pc.locked = (s.pc p).locked) : Held (s.goto p pc) := by
  intro q
  by_cases hq : q = p
  · subst hq
    rw [goto_pc_self, hpc]
    exact h q
  · rw [goto_pc_of_ne s p pc hq]
    exact h q

theorem acquire (h : Held s) (hlock : s.lock = none) (hpc : pc.locked = true) :
    Held (s.acquire p pc) := by
  intro q
  by_cases hq : q = p
  · subst hq
    simp [hpc, PipeState.acquire]
  · have hnot : ¬ (s.pc q).locked = true := fun hlocked ↦ by simp [(h q).mpr hlocked] at hlock
    rw [acquire_pc_of_ne s p pc hq]
    simp [PipeState.acquire, hnot, Ne.symm hq]

theorem release (h : Held s) (hlock : s.lock = some p) (hpc : pc.locked = false) :
    Held (s.release p pc) := by
  intro q
  by_cases hq : q = p
  · subst hq
    simp [hpc, PipeState.release]
  · have hnot : ¬ (s.pc q).locked = true := fun hlocked ↦ by
      have hq' := (h q).mpr hlocked
      rw [hlock] at hq'
      exact hq (Option.some_inj.mp hq').symm
    rw [release_pc_of_ne s p pc hq]
    simp [hnot, PipeState.release]

omit [DecidableEq P] in
theorem wakeReaders (h : Held s) : Held s.wakeReaders := fun q ↦ by
  simpa [PipeState.wakeReaders] using h q

omit [DecidableEq P] in
theorem wakeWriters (h : Held s) : Held s.wakeWriters := fun q ↦ by
  simpa [PipeState.wakeWriters] using h q

theorem step {e : PipeEvent P} {m : PipeState P × Note P} (h : Held s)
    (hstep : step s e = some m) : Held m.1 := by
  cases e with
  | write p n | read p n =>
    simp only [Pipe.step, Option.ite_none_right_eq_some, Option.some_inj] at hstep
    obtain ⟨hpc, rfl⟩ := hstep
    exact h.goto (by rw [hpc]; rfl)
  | close p writable =>
    simp only [Pipe.step, Option.ite_none_right_eq_some, Option.some_inj] at hstep
    obtain ⟨-, rfl⟩ := hstep
    cases writable
    · exact wakeWriters h
    · exact wakeReaders h
  | kill p =>
    obtain rfl := Option.some_inj.mp hstep
    exact h.goto (by simp [Pc.kill])
  | advance p copyin copyout =>
    simp only [Pipe.step, advance] at hstep
    have hheld := h p
    cases hpc : s.pc p with
    | out | writeAsleep i n | readAsleep n => simp [hpc] at hstep
    | writeEnter i n | readEnter n =>
      simp only [hpc, Option.ite_none_right_eq_some, Option.some_inj] at hstep
      obtain ⟨hlock, rfl⟩ := hstep
      exact h.acquire hlock rfl
    | writeLoop i n =>
      have hlock := hheld.mpr (by rw [hpc]; rfl)
      simp only [hpc, Option.some_inj] at hstep
      subst hstep
      unfold writeRound
      split_ifs
      · exact h.release hlock rfl
      · exact h.wakeReaders.release hlock rfl
      · cases copyin with
        | none => exact h.wakeReaders.release hlock rfl
        | some ch => exact goto h (by rw [PipeState.push, hpc]; rfl)
      · exact h.wakeReaders.release hlock rfl
    | readWait n =>
      have hlock := hheld.mpr (by rw [hpc]; rfl)
      simp only [hpc, Option.some_inj] at hstep
      subst hstep
      unfold readWaitRound
      split_ifs
      · exact h.release hlock rfl
      · exact h.release hlock rfl
      · exact h.goto (by rw [hpc]; rfl)
    | readCopy n bytes =>
      have hlock := hheld.mpr (by rw [hpc]; rfl)
      simp only [hpc, Option.some_inj] at hstep
      subst hstep
      unfold readRound
      split_ifs
      · exact goto h (by rw [PipeState.pop, hpc]; rfl)
      · exact release (wakeWriters h) hlock rfl
      · exact h.wakeWriters.release hlock rfl

end Held

end EnhancedXv6.Pipe
