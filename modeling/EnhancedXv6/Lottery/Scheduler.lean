import EnhancedXv6.Kernel.Process

/-!
# The lottery scheduler pass

One pass of the loop body of `scheduler()` in the LBS build, on a table that does not change during
the pass.  The two scans are written as folds of their loop bodies.  The sums are C `int`s.
-/

namespace EnhancedXv6.Lottery

open Kernel

/-- `rand()`: the value returned and the new state of the generator. -/
def rand (next : UInt64) : Int32 × UInt64 :=
  let next := next * 1103515245 + 12345
  (((next / 65536).toUInt32 % 32768).toInt32, next)

def addTickets (proc : Slot → Proc) (totalTickets : Int32) (p : Slot) : Int32 :=
  if (proc p).state = .runnable then totalTickets + (proc p).tickets else totalTickets

def totalTickets (proc : Slot → Proc) : Int32 :=
  table.foldl (addTickets proc) 0

/-- The variables of the second scan: `chosen` and `current_tickets`. -/
structure Draw where
  chosen : Option Slot := none
  currentTickets : Int32 := 0
  deriving DecidableEq

/-- The tie-break of the second scan: whether `p` may take the place of `chosen`. -/
def replaces (proc : Slot → Proc) (chosen : Option Slot) (p : Slot) : Bool :=
  match chosen with
  | none => true
  | some c => (proc c).tickets = (proc p).tickets ∧
      (proc p).startTimeLbs < (proc c).startTimeLbs

def drawStep (proc : Slot → Proc) (winner : Int32) (d : Draw) (p : Slot) : Draw :=
  if (proc p).state = .runnable then
    let currentTickets := d.currentTickets + (proc p).tickets
    if currentTickets > winner ∧ replaces proc d.chosen p then
      { chosen := some p, currentTickets := currentTickets }
    else { d with currentTickets := currentTickets }
  else d

def draw (proc : Slot → Proc) (winner : Int32) : Draw :=
  table.foldl (drawStep proc winner) {}

/-- The process that one pass chooses, and the new state of the generator. -/
def choose (s : State) : Option Slot × UInt64 :=
  let total := totalTickets s.proc
  if total > 0 then
    let (r, next) := rand s.next
    ((draw s.proc (r % total)).chosen, next)
  else (none, s.next)

def pass (s : State) (h : Hart) : State :=
  let (chosen, next) := choose s
  let s := s.setNext next
  match chosen with
  | none => s
  | some p => dispatch s h p

end EnhancedXv6.Lottery
