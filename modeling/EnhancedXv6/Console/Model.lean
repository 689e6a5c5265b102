import EnhancedXv6.Ring.Window
import EnhancedXv6.Transition.System

/-!
# Console input

`consoleintr` and `consoleread` of console.c, for any type `P` of processes that read.  Taking
`cons.lock` is a step, and so is each round of the loop of `consoleread` under it; `consoleintr` holds
the lock for one step.  `sleep` releases the lock and puts the process to sleep in one step, and
`wakeup` is part of the step that calls it.  The destination of a read is writable.
-/

namespace EnhancedXv6.Console

open RingBuffer Transition

abbrev INPUT_BUF_SIZE : ℕ := 128

def ctrl (x : Char) : UInt8 := UInt8.ofNat (x.toNat - '@'.toNat)

def newline : UInt8 := UInt8.ofNat '\n'.toNat

def carriageReturn : UInt8 := UInt8.ofNat '\r'.toNat

def delete : UInt8 := 0x7f

/-- The fields of `cons`, without its lock. -/
structure Cons where
  buf : ℕ → UInt8
  r : BitVec 32
  w : BitVec 32
  e : BitVec 32

/-- The loop of `^U`, at most `fuel` rounds of it. -/
def killLine : ℕ → Cons → Cons
  | 0, c => c
  | fuel + 1, c =>
    if c.e ≠ c.w ∧ c.buf (cell INPUT_BUF_SIZE (c.e - 1)) ≠ newline then
      killLine fuel { c with e := c.e - 1 }
    else c

def backspace (c : Cons) : Cons := if c.e ≠ c.w then { c with e := c.e - 1 } else c

/-- The default case of `consoleintr` once the character is to be stored, and whether it wakes the
readers. -/
def store (c : Cons) (ch : UInt8) : Cons × Bool :=
  let c := { c with buf := Function.update c.buf (cell INPUT_BUF_SIZE c.e) ch, e := c.e + 1 }
  if ch = newline ∨ ch = ctrl 'D' ∨ (c.e - c.r).toNat = INPUT_BUF_SIZE then
    ({ c with w := c.e }, true)
  else (c, false)

/-- `consoleintr(ch)`, and whether it wakes the readers. -/
def consoleintr (c : Cons) (ch : UInt8) : Cons × Bool :=
  if ch = ctrl 'P' then (c, false)
  else if ch = ctrl 'U' then (killLine (c.e - c.w).toNat c, false)
  else if ch = ctrl 'H' ∨ ch = delete then (backspace c, false)
  else if ch ≠ 0 ∧ (c.e - c.r).toNat < INPUT_BUF_SIZE then
    store c (if ch = carriageReturn then newline else ch)
  else (c, false)

/-- Where a process is, in a call for `n` bytes with `got` copied out so far. -/
inductive Pc
  | out
  /-- before it has `cons.lock`, at the start or at the end of `sleep` -/
  | enter (n : ℤ) (got : List UInt8)
  /-- before the test `n > 0` -/
  | loop (n : ℤ) (got : List UInt8)
  | asleep (n : ℤ) (got : List UInt8)
  deriving DecidableEq

def Pc.wake : Pc → Pc
  | .asleep n got => .enter n got
  | pc => pc

structure ConsState (P : Type) where
  cons : Cons
  lock : Option P
  killed : P → Bool
  pc : P → Pc

inductive ConsEvent (P : Type)
  | intr (ch : UInt8)
  | read (p : P) (n : ℤ)
  | kill (p : P)
  /-- the next step of `consoleread` -/
  | advance (p : P)

inductive Out (P : Type)
  | byte (p : P) (ch : UInt8)
  /-- `consoleread` returns `k` -/
  | returned (p : P) (k : ℕ)
  /-- `consoleread` returns -1 -/
  | failed (p : P)
  deriving DecidableEq

variable {P : Type} [DecidableEq P]

namespace ConsState

variable (s : ConsState P) (p : P)

def goto (pc : Pc) : ConsState P := { s with pc := Function.update s.pc p pc }

def acquire (pc : Pc) : ConsState P := { s.goto p pc with lock := some p }

def release (pc : Pc) : ConsState P := { s.goto p pc with lock := none }

def setRead (r : BitVec 32) : ConsState P := { s with cons := { s.cons with r := r } }

def wakeReaders (wakes : Bool) : ConsState P :=
  if wakes = true then { s with pc := fun q ↦ (s.pc q).wake } else s

end ConsState

/-- `consoleread` after `c = cons.buf[cons.r++ % INPUT_BUF_SIZE]`. -/
def readByte (s : ConsState P) (p : P) (n : ℤ) (got : List UInt8) (ch : UInt8) :
    ConsState P × List (Out P) :=
  if ch = ctrl 'D' then
    if got = [] then (s.release p .out, [.returned p 0])
    -- `cons.r--`: the next read finds the `^D`
    else ((s.setRead (s.cons.r - 1)).release p .out, [.returned p got.length])
  else if ch = newline then
    (s.release p .out, [.byte p ch, .returned p (got.length + 1)])
  else (s.goto p (.loop n (got ++ [ch])), [.byte p ch])

/-- One round of the loop of `consoleread`, where `n` is the size asked for. -/
def readRound (s : ConsState P) (p : P) (n : ℤ) (got : List UInt8) :
    ConsState P × List (Out P) :=
  if got.length < n then
    if s.cons.r = s.cons.w then
      if s.killed p = true then (s.release p .out, [.failed p])
      else (s.release p (.asleep n got), [])
    else
      readByte (s.setRead (s.cons.r + 1)) p n got (s.cons.buf (cell INPUT_BUF_SIZE s.cons.r))
  else (s.release p .out, [.returned p got.length])

def step (s : ConsState P) : ConsEvent P → Option (ConsState P × List (Out P))
  | .intr ch =>
    if s.lock = none then
      some (({ s with cons := (consoleintr s.cons ch).1 } : ConsState P).wakeReaders
        (consoleintr s.cons ch).2, [])
    else none
  | .read p n => if s.pc p = .out then some (s.goto p (.enter n []), []) else none
  | .kill p =>
    some ({ s.goto p (s.pc p).wake with killed := Function.update s.killed p true }, [])
  | .advance p =>
    match s.pc p with
    | .out | .asleep .. => none
    | .enter n got => if s.lock = none then some (s.acquire p (.loop n got), []) else none
    | .loop n got => some (readRound s p n got)

/-- A console whose indices have come to `count`, with nothing in its buffer. -/
def quiet (P : Type) (buf : ℕ → UInt8) (count : BitVec 32) : ConsState P where
  cons := { buf := buf, r := count, w := count, e := count }
  lock := none
  killed := fun _ ↦ false
  pc := fun _ ↦ .out

end EnhancedXv6.Console
