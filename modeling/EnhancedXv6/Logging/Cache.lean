import EnhancedXv6.Kernel.State
import EnhancedXv6.Logging.Model
import EnhancedXv6.Transition.System

/-!
# The buffer cache

The functions of `bio.c` cut at the buffer locks: `bread` is the section of `bget` under
`bcache.lock`, `acquiresleep` and the read from the disk; `brelse` is `releasesleep` and a section
under `bcache.lock`.  A change of a buffer with its `log_write`, and the copies of `commit`, happen
while the buffer is locked and are one step each.

There is one device, so a buffer is known by its block number; a buffer as `binit` leaves it, whose
`dev` is 0, has none.
-/

namespace EnhancedXv6.Logging

open Kernel Storage Transition

abbrev NBUF : ℕ := MAXOPBLOCKS * 3

abbrev BufId := Fin NBUF

structure Buf where
  valid : Bool
  blockno : Option BlockNo
  /-- the process that holds the sleep-lock -/
  holder : Option Slot
  refcnt : ℕ
  data : Block

structure Cache where
  buf : BufId → Buf
  /-- the buffers from `head.next` on: the most recently used first -/
  lru : List BufId

namespace Cache

def modify (c : Cache) (i : BufId) (f : Buf → Buf) : Cache :=
  { c with buf := Function.update c.buf i (f (c.buf i)) }

@[simp] theorem modify_buf_self (c : Cache) (i : BufId) (f : Buf → Buf) :
    (c.modify i f).buf i = f (c.buf i) := Function.update_self ..

@[simp] theorem modify_buf_of_ne (c : Cache) {i j : BufId} (f : Buf → Buf) (h : j ≠ i) :
    (c.modify i f).buf j = c.buf j := Function.update_of_ne h ..

@[simp] theorem modify_lru (c : Cache) (i : BufId) (f : Buf → Buf) : (c.modify i f).lru = c.lru := rfl

end Cache

def Buf.ref (b : Buf) : Buf := { b with refcnt := b.refcnt + 1 }

def Buf.unref (b : Buf) : Buf := { b with refcnt := b.refcnt - 1 }

def Buf.recycle (blockno : BlockNo) (b : Buf) : Buf :=
  { b with blockno := some blockno, valid := false, refcnt := 1 }

def Buf.setHolder (holder : Option Slot) (b : Buf) : Buf := { b with holder := holder }

def Buf.fill (data : Block) (b : Buf) : Buf :=
  if b.valid then b else { b with data := data, valid := true }

def Buf.setData (data : Block) (b : Buf) : Buf := { b with data := data }

def binit : Cache := ⟨fun _ ↦ ⟨false, none, none, 0, fun _ ↦ 0⟩, (List.finRange NBUF).reverse⟩

def bget (c : Cache) (b : BlockNo) : Option (BufId × Cache) :=
  match c.lru.find? fun i ↦ (c.buf i).blockno = some b with
  | some i => some (i, c.modify i Buf.ref)
  | none =>
    match c.lru.reverse.find? fun i ↦ (c.buf i).refcnt = 0 with
    | some i => some (i, c.modify i (Buf.recycle b))
    | none => none

def bput (c : Cache) (i : BufId) : Cache :=
  let c := c.modify i Buf.unref
  if (c.buf i).refcnt = 0 then { c with lru := i :: c.lru.erase i } else c

/-! ## Processes -/

inductive BioPc
  | ready
  /-- `bread(b)`, before `acquiresleep(&b->lock)` -/
  | getting (i : BufId) (b : BlockNo)
  /-- `bread(b)`, before `if(!b->valid)` -/
  | locked (i : BufId) (b : BlockNo)
  /-- `brelse`, after `releasesleep` -/
  | leaving (i : BufId)
  deriving DecidableEq

structure CacheState where
  cache : Cache
  disk : Disk
  log : Log
  pc : Slot → BioPc
  /-- between `begin_op` and `end_op` -/
  inOp : Slot → Bool
  /-- the process in `commit` and what it has still to do -/
  committer : Option (Slot × List Instr)

inductive CacheEvent
  | beginOp (p : Slot)
  | endOp (p : Slot)
  | bread (p : Slot) (b : BlockNo)
  /-- the next step of `bread` or `brelse` -/
  | advance (p : Slot)
  /-- an in-place change of the buffer and `log_write` -/
  | update (p : Slot) (i : BufId) (data : Block)
  | brelse (p : Slot) (i : BufId)
  /-- the next operation of `commit`, or the end of `end_op` -/
  | commit

namespace CacheState

def Idle (s : CacheState) (p : Slot) : Prop :=
  s.pc p = .ready ∧ s.committer.map Prod.fst ≠ some p

instance (s : CacheState) (p : Slot) : Decidable (s.Idle p) := inferInstanceAs (Decidable (_ ∧ _))

def heldBuf (s : CacheState) (p : Slot) (b : BlockNo) : Option BufId :=
  (List.finRange NBUF).find? fun i ↦
    (s.cache.buf i).blockno = some b ∧ (s.cache.buf i).holder = some p

def setPc (s : CacheState) (p : Slot) (pc : BioPc) : CacheState :=
  { s with pc := Function.update s.pc p pc }

def bread (s : CacheState) (p : Slot) (b : BlockNo) : Option CacheState :=
  (bget s.cache b).map fun x ↦ ({ s with cache := x.2 }).setPc p (.getting x.1 b)

def advance (s : CacheState) (p : Slot) : Option CacheState :=
  match s.pc p with
  | .ready => none
  | .getting i b =>
    if (s.cache.buf i).holder = none then
      some (({ s with cache := s.cache.modify i (Buf.setHolder (some p)) }).setPc p (.locked i b))
    else none
  | .locked i b =>
    some (({ s with cache := s.cache.modify i (Buf.fill (s.disk b)) }).setPc p .ready)
  | .leaving i => some (({ s with cache := bput s.cache i }).setPc p .ready)

def brelse (s : CacheState) (p : Slot) (i : BufId) : Option CacheState :=
  if (s.cache.buf i).holder = some p then
    some (({ s with cache := s.cache.modify i (Buf.setHolder none) }).setPc p (.leaving i))
  else none

def update (s : CacheState) (p : Slot) (i : BufId) (data : Block) : Option CacheState :=
  if (s.cache.buf i).holder = some p then
    (s.cache.buf i).blockno.bind fun b ↦ (logWrite s.log b).toOption.map fun x ↦
      let cache := s.cache.modify i (Buf.setData data)
      { s with cache := if x.1 then cache.modify i Buf.ref else cache, log := x.2 }
  else none

def write (s : CacheState) (i : BufId) (b : BlockNo) (data : Block) : CacheState :=
  { s with cache := s.cache.modify i (Buf.setData data), disk := Function.update s.disk b data }

def runInstr (s : CacheState) (p : Slot) : Instr → Option CacheState
  | .bread b => s.bread p b
  | .copy dst src unpin =>
    (s.heldBuf p dst).bind fun i ↦ (s.heldBuf p src).map fun j ↦
      let s := s.write i dst (s.cache.buf j).data
      if unpin then { s with cache := s.cache.modify i Buf.unref } else s
  | .head start lh =>
    (s.heldBuf p start).map fun i ↦ s.write i start (putHeader lh (s.cache.buf i).data)
  | .brelse b => (s.heldBuf p b).bind fun i ↦ s.brelse p i
  | .clear => some { s with log := { s.log with lh := [] } }

def commitStep (s : CacheState) : Option CacheState :=
  s.committer.bind fun x ↦
    if s.pc x.1 = .ready then
      match x.2 with
      | [] => some { s with log := { s.log with committing := false }, committer := none }
      | instr :: rest => ({ s with committer := some (x.1, rest) }).runInstr x.1 instr
    else none

def beginOp (s : CacheState) (p : Slot) : Option CacheState :=
  (Logging.beginOp s.log).map fun log ↦
    { s with log := log, inOp := Function.update s.inOp p true }

def endOp (s : CacheState) (p : Slot) : Option CacheState :=
  (Logging.endOp s.log).toOption.map fun x ↦
    { s with log := x.2, inOp := Function.update s.inOp p false
             committer := if x.1 then some (p, Logging.commit x.2) else s.committer }

end CacheState

def bufferCache (start : BlockNo) (size : ℕ) (disk : Disk) : System CacheState CacheEvent where
  start := ⟨binit, disk, ⟨start, size, 0, false, []⟩, fun _ ↦ .ready, fun _ ↦ false, none⟩
  next s
    | .beginOp p => if s.Idle p ∧ s.inOp p = false then s.beginOp p else none
    | .endOp p => if s.Idle p ∧ s.inOp p = true then s.endOp p else none
    | .bread p b => if s.Idle p then s.bread p b else none
    | .advance p => s.advance p
    | .update p i data => if s.Idle p ∧ s.inOp p = true then s.update p i data else none
    | .brelse p i => if s.Idle p then s.brelse p i else none
    | .commit => s.commitStep

/-- What a step changes in the array of blocks.  `install_trans` changes nothing there. -/
def changeOf (s : CacheState) : CacheEvent → Option (BlockNo × Block)
  | .update _ i data => (s.cache.buf i).blockno.map fun b ↦ (b, data)
  | .commit =>
    s.committer.bind fun x ↦
      match x.2 with
      | .copy dst src false :: _ =>
        (s.heldBuf x.1 src).map fun j ↦ (dst, (s.cache.buf j).data)
      | .head start lh :: _ =>
        (s.heldBuf x.1 start).map fun i ↦ (start, putHeader lh (s.cache.buf i).data)
      | _ => none
  | _ => none

def recordChange (flat : Disk) (s : CacheState) (e : CacheEvent) : Disk :=
  match changeOf s e with
  | some (b, data) => Function.update flat b data
  | none => flat

/-- The machine with the contents that the last change of each block has left. -/
def observedCache (start : BlockNo) (size : ℕ) (disk : Disk) :
    System (CacheState × Disk) CacheEvent :=
  (bufferCache start size disk).withHistory disk fun flat s e _ ↦ recordChange flat s e

def SparesLog (o : CacheState × Disk) : CacheEvent → Prop
  | .update _ i _ => ∀ b, (o.1.cache.buf i).blockno = some b → ¬ InLog o.1.log b
  | _ => True

/-- A `bread` of block `b` has returned buffer `i` to process `p`, which has not released it. -/
def Returned (s : CacheState) (p : Slot) (i : BufId) (b : BlockNo) : Prop :=
  (s.cache.buf i).holder = some p ∧ (s.cache.buf i).blockno = some b ∧ s.pc p ≠ .locked i b

end EnhancedXv6.Logging
