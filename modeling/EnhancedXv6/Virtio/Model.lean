import EnhancedXv6.Ring.Window
import EnhancedXv6.Transition.System

/-!
# The virtio disk driver

`virtio_disk_rw`, `virtio_disk_intr` and their helpers of virtio_disk.c, for any types of processes and
buffers, together with a device that takes requests from the avail ring and posts them in the used ring.

The code under `disk.vdisk_lock` is cut where the device can see the difference.  The interrupt handler
holds the lock for all the rounds of its loop.  A process that sleeps may go on at any time, since
`kill` wakes it as well as `wakeup`.  `bread` and `bwrite` call `virtio_disk_rw` with the sleep lock of
the buffer held.
-/

namespace EnhancedXv6.Virtio

open RingBuffer Transition

abbrev NUM : ℕ := 8
abbrev BSIZE : ℕ := 1024

abbrev VRING_DESC_F_NEXT : ℕ := 1
abbrev VRING_DESC_F_WRITE : ℕ := 2

abbrev VIRTIO_BLK_T_IN : ℕ := 0
abbrev VIRTIO_BLK_T_OUT : ℕ := 1

/-! ## The memory shared with the device -/

/-- The addresses that descriptors have. -/
inductive Addr (B : Type)
  | null
  /-- `&disk.ops[i]` -/
  | op (i : ℕ)
  /-- `b->data` -/
  | data (b : B)
  /-- `&disk.info[i].status` -/
  | status (i : ℕ)
  deriving DecidableEq

structure Desc (B : Type) where
  addr : Addr B := .null
  len : ℕ := 0
  flags : ℕ := 0
  next : ℕ := 0
  deriving DecidableEq

structure BlkReq where
  type : ℕ
  sector : ℕ
  deriving DecidableEq

/-- `struct virtq_avail` and `struct virtq_used`: a ring of descriptor numbers and the index of the
entry that is written next. -/
structure Ring where
  ring : ℕ → ℕ
  idx : BitVec 16

namespace Ring

def write (r : Ring) (i : ℕ) : Ring := { r with ring := Function.update r.ring (cell NUM r.idx) i }

def bump (r : Ring) : Ring := { r with idx := r.idx + 1 }

end Ring

structure Info (B : Type) where
  b : Option B := none
  status : UInt8 := 0

/-- `struct disk`, with the flags `b->disk` of the buffers. -/
structure Disk (B : Type) where
  desc : ℕ → Desc B
  avail : Ring
  used : Ring
  free : ℕ → Bool
  usedIdx : BitVec 16
  info : ℕ → Info B
  ops : ℕ → BlkReq
  bufDisk : B → Bool

/-- The indices of the three descriptors of a request. -/
structure Chain where
  head : ℕ
  data : ℕ
  status : ℕ
  deriving DecidableEq

def Chain.descs (c : Chain) : List ℕ := [c.head, c.data, c.status]

/-- What one call of `virtio_disk_rw` asks for. -/
structure Request (B : Type) where
  buf : B
  write : Bool
  chain : Chain
  deriving DecidableEq

structure Job (B : Type) where
  head : ℕ
  op : Option BlkReq
  data : Option B
  status : Option ℕ
  deriving DecidableEq

inductive Fault
  | panic (msg : String)
  /-- `b->disk` of a null pointer -/
  | nullBuf
  | outOfFuel
  deriving DecidableEq

variable {P B : Type} [DecidableEq P] [DecidableEq B]

/-! ## Descriptors -/

namespace Disk

variable (d : Disk B)

def setDesc (i : ℕ) (desc : Desc B) : Disk B := { d with desc := Function.update d.desc i desc }

def setFree (i : ℕ) (free : Bool) : Disk B := { d with free := Function.update d.free i free }

def setInfo (i : ℕ) (info : Info B) : Disk B := { d with info := Function.update d.info i info }

def setOp (i : ℕ) (op : BlkReq) : Disk B := { d with ops := Function.update d.ops i op }

def setBufDisk (b : B) (disk : Bool) : Disk B :=
  { d with bufDisk := Function.update d.bufDisk b disk }

end Disk

def allocDesc (d : Disk B) : Option (ℕ × Disk B) :=
  ((List.range NUM).find? d.free).map fun i ↦ (i, d.setFree i false)

def freeDesc (d : Disk B) (i : ℕ) : Except Fault (Disk B) :=
  if i ≥ NUM then .error (.panic "free_desc 1")
  else if d.free i = true then .error (.panic "free_desc 2")
  else .ok ((d.setDesc i {}).setFree i true)

/-- The loop of `free_chain`, for `fuel` rounds. -/
def freeChain : ℕ → Disk B → ℕ → Except Fault (Disk B)
  | 0, _, _ => .error .outOfFuel
  | fuel + 1, d, i => do
    let flag := (d.desc i).flags
    let nxt := (d.desc i).next
    let d ← freeDesc d i
    if flag &&& VRING_DESC_F_NEXT ≠ 0 then freeChain fuel d nxt else .ok d

/-- The loop of `alloc3_desc` is written out; `none` stands for `-1`. -/
def alloc3Desc (d : Disk B) : Except Fault (Option Chain × Disk B) :=
  match allocDesc d with
  | none => .ok (none, d)
  | some (idx0, d) =>
    match allocDesc d with
    | none => do
      let d ← freeDesc d idx0
      .ok (none, d)
    | some (idx1, d) =>
      match allocDesc d with
      | none => do
        let d ← freeDesc d idx0
        let d ← freeDesc d idx1
        .ok (none, d)
      | some (idx2, d) => .ok (some ⟨idx0, idx1, idx2⟩, d)

/-! ## Requests -/

section

variable (blockno : B → ℕ)

def Request.op (r : Request B) : BlkReq where
  type := if r.write = true then VIRTIO_BLK_T_OUT else VIRTIO_BLK_T_IN
  -- the product is a `uint`
  sector := blockno r.buf * (BSIZE / 512) % 0x100000000

/-- The part of `virtio_disk_rw` that formats the three descriptors and records the buffer. -/
def Disk.format (d : Disk B) (r : Request B) : Disk B :=
  let c := r.chain
  let d := d.setOp c.head (r.op blockno)
  let d := d.setDesc c.head
    { addr := .op c.head, len := 16, flags := VRING_DESC_F_NEXT, next := c.data }
  let d := d.setDesc c.data
    { addr := .data r.buf, len := BSIZE,
      flags := (if r.write = true then 0 else VRING_DESC_F_WRITE) ||| VRING_DESC_F_NEXT,
      next := c.status }
  let d := d.setDesc c.status
    { addr := .status c.head, len := 1, flags := VRING_DESC_F_WRITE, next := 0 }
  (d.setBufDisk r.buf true).setInfo c.head { b := some r.buf, status := 0xff }

def Disk.job (d : Disk B) (head : ℕ) : Job B :=
  let first := d.desc head
  let second := d.desc first.next
  let third := d.desc second.next
  { head
    op := match first.addr with
      | .op i => some (d.ops i)
      | _ => none
    data := match second.addr with
      | .data b => some b
      | _ => none
    status := match third.addr with
      | .status i => some i
      | _ => none }

def Request.job (r : Request B) : Job B where
  head := r.chain.head
  op := some (r.op blockno)
  data := some r.buf
  status := some r.chain.head

end

/-! ## The system -/

inductive Pc (B : Type)
  | out
  /-- holds `b->lock` -/
  | holds (b : B)
  /-- `virtio_disk_rw` before it has `vdisk_lock`, at the start or at the end of the first `sleep` -/
  | enter (b : B) (write : Bool)
  /-- before `alloc3_desc` -/
  | alloc (b : B) (write : Bool)
  /-- asleep on `&disk.free[0]` -/
  | asleepFree (b : B) (write : Bool)
  /-- after `alloc3_desc` -/
  | format (r : Request B)
  /-- before the entry of the avail ring is written -/
  | publish (r : Request B)
  /-- before `avail->idx` is incremented -/
  | bump (r : Request B)
  /-- before the test `b->disk == 1` -/
  | wait (r : Request B)
  /-- asleep on `b` -/
  | asleepBuf (r : Request B)
  /-- at the end of the second `sleep` -/
  | reenter (r : Request B)
  deriving DecidableEq

inductive Holder (P : Type)
  | proc (p : P)
  | intr
  deriving DecidableEq

structure State (P B : Type) where
  disk : Disk B
  lock : Option (Holder P)
  bufLock : B → Option P
  pc : P → Pc B
  /-- the next entry of the avail ring for the device -/
  lastAvail : BitVec 16
  /-- what the device has taken and not posted -/
  taken : List (Job B)
  crashed : Option Fault

inductive Event (P B : Type)
  /-- `acquiresleep(&b->lock)` -/
  | lock (p : P) (b : B)
  /-- `releasesleep(&b->lock)` -/
  | unlock (p : P)
  /-- `virtio_disk_rw(b, write)` for the buffer that `p` holds -/
  | rw (p : P) (write : Bool)
  /-- the next step of a call -/
  | advance (p : P)
  /-- a process goes on after `sleep` -/
  | wake (p : P)
  /-- the interrupt handler takes the lock -/
  | intr
  /-- a round of the interrupt handler, or its end -/
  | round
  /-- the device takes the next entry of the avail ring -/
  | take
  /-- the device finishes a job -/
  | post (j : Job B)

inductive Note (P B : Type)
  | none
  /-- `p` has told the device about a request -/
  | submitted (p : P) (r : Request B)
  /-- the device has done what it read -/
  | processed (j : Job B)
  /-- the handler has found `head` in the used ring and says that `b` is done -/
  | applied (head : ℕ) (b : B)
  /-- `p` has freed the descriptors and returns -/
  | returned (p : P) (r : Request B)

namespace State

variable (s : State P B) (p : P)

def goto (pc : Pc B) : State P B := { s with pc := Function.update s.pc p pc }

def acquire (pc : Pc B) : State P B := { s.goto p pc with lock := some (.proc p) }

def release (pc : Pc B) : State P B := { s.goto p pc with lock := Option.none }

def setDisk (d : Disk B) : State P B := { s with disk := d }

def crash (f : Fault) : State P B := { s with crashed := some f }

end State

variable (blockno : B → ℕ)

def advance (s : State P B) (p : P) : Option (State P B × Note P B) :=
  match s.pc p with
  | .out | .holds _ | .asleepFree .. | .asleepBuf _ => none
  | .enter b write =>
    if s.lock = none then some (s.acquire p (.alloc b write), .none) else none
  | .alloc b write =>
    match alloc3Desc s.disk with
    | .error f => some (s.crash f, .none)
    | .ok (none, d) => some ((s.setDisk d).release p (.asleepFree b write), .none)
    | .ok (some chain, d) => some ((s.setDisk d).goto p (.format ⟨b, write, chain⟩), .none)
  | .format r => some ((s.setDisk (s.disk.format blockno r)).goto p (.publish r), .none)
  | .publish r =>
    some ((s.setDisk { s.disk with avail := s.disk.avail.write r.chain.head }).goto p (.bump r),
      .none)
  | .bump r =>
    some ((s.setDisk { s.disk with avail := s.disk.avail.bump }).goto p (.wait r),
      .submitted p r)
  | .reenter r => if s.lock = none then some (s.acquire p (.wait r), .none) else none
  | .wait r =>
    if s.disk.bufDisk r.buf = true then some (s.release p (.asleepBuf r), .none)
    else
      let d := s.disk.setInfo r.chain.head { s.disk.info r.chain.head with b := none }
      match freeChain (NUM + 1) d r.chain.head with
      | .error f => some (s.crash f, .none)
      | .ok d => some ((s.setDisk d).release p (.holds r.buf), .returned p r)

/-- One round of the loop of `virtio_disk_intr`, or its end. -/
def round (s : State P B) : State P B × Note P B :=
  let d := s.disk
  if d.usedIdx ≠ d.used.idx then
    let id := d.used.ring (cell NUM d.usedIdx)
    if (d.info id).status ≠ 0 then (s.crash (.panic "virtio_disk_intr status"), .none)
    else
      match (d.info id).b with
      | none => (s.crash .nullBuf, .none)
      | some b =>
        (s.setDisk { d.setBufDisk b false with usedIdx := d.usedIdx + 1 }, .applied id b)
  else ({ s with lock := none }, .none)

def take (s : State P B) : Option (State P B) :=
  if s.lastAvail ≠ s.disk.avail.idx then
    some { s with
      lastAvail := s.lastAvail + 1
      taken := s.disk.job (s.disk.avail.ring (cell NUM s.lastAvail)) :: s.taken }
  else none

/-- The device writes the status and adds an entry to the used ring. -/
def Disk.post (d : Disk B) (j : Job B) : Disk B :=
  let d := match j.status with
    | some i => d.setInfo i { d.info i with status := 0 }
    | none => d
  { d with used := (d.used.write j.head).bump }

def step (s : State P B) (e : Event P B) : Option (State P B × Note P B) :=
  if s.crashed = none then
    match e with
    | .lock p b =>
      if s.pc p = .out ∧ s.bufLock b = none then
        some ({ s.goto p (.holds b) with bufLock := Function.update s.bufLock b (some p) }, .none)
      else none
    | .unlock p =>
      match s.pc p with
      | .holds b =>
        some ({ s.goto p .out with bufLock := Function.update s.bufLock b none }, .none)
      | _ => none
    | .rw p write =>
      match s.pc p with
      | .holds b => some (s.goto p (.enter b write), .none)
      | _ => none
    | .advance p => advance blockno s p
    | .wake p =>
      match s.pc p with
      | .asleepFree b write => some (s.goto p (.enter b write), .none)
      | .asleepBuf r => some (s.goto p (.reenter r), .none)
      | _ => none
    | .intr => if s.lock = none then some ({ s with lock := some .intr }, .none) else none
    | .round => if s.lock = some .intr then some (round s) else none
    | .take => (take s).map fun s' ↦ (s', .none)
    | .post j =>
      if j ∈ s.taken then
        some ({ s with disk := s.disk.post j, taken := s.taken.erase j }, .processed j)
      else none
  else none

/-- After `virtio_disk_init`, while no process uses a buffer. -/
def booted (P B : Type) : State P B where
  disk :=
    { desc := fun _ ↦ {}
      avail := ⟨fun _ ↦ 0, 0⟩
      used := ⟨fun _ ↦ 0, 0⟩
      free := fun i ↦ decide (i < NUM)
      usedIdx := 0
      info := fun _ ↦ {}
      ops := fun _ ↦ ⟨0, 0⟩
      bufDisk := fun _ ↦ false }
  lock := none
  bufLock := fun _ ↦ none
  pc := fun _ ↦ .out
  lastAvail := 0
  taken := []
  crashed := none

/-! ## The life of a request -/

/-- How far the request of a head descriptor is. -/
inductive Stage (P B : Type)
  | idle
  | submitted (p : P) (r : Request B)
  | processed (p : P) (r : Request B)
  | applied (p : P) (r : Request B)
  /-- something happened out of turn, or for another request -/
  | broken
  deriving DecidableEq

/-- The stages of all heads and the requests that are submitted and not reclaimed. -/
structure Ledger (P B : Type) where
  stage : ℕ → Stage P B
  active : List (P × Request B)

namespace Stage

/-- The next stage of a request: it is submitted, processed by the device as it was submitted,
completed for its own buffer, and only then does its call return. -/
def next (st : Stage P B) : Note P B → Stage P B
  | .none => st
  | .submitted p r =>
    match st with
    | idle => submitted p r
    | _ => broken
  | .processed j =>
    match st with
    | submitted p r => if j = r.job blockno then processed p r else broken
    | _ => broken
  | .applied _ b =>
    match st with
    | processed p r => if b = r.buf then applied p r else broken
    | _ => broken
  | .returned p r =>
    match st with
    | applied p' r' => if p = p' ∧ r = r' then idle else broken
    | _ => broken

end Stage

def Note.head : Note P B → Option ℕ
  | .none => Option.none
  | .submitted _ r => some r.chain.head
  | .processed j => some j.head
  | .applied head _ => some head
  | .returned _ r => some r.chain.head

def Ledger.record (l : Ledger P B) (n : Note P B) : Ledger P B where
  stage h := if n.head = some h then (l.stage h).next blockno n else l.stage h
  active :=
    match n with
    | .submitted p r => (p, r) :: l.active
    | .returned p r => l.active.erase (p, r)
    | _ => l.active

/-- The driver, the device and the processes, with the ledger of the requests. -/
def driver (P : Type) [DecidableEq P] (blockno : B → ℕ) :
    System (State P B × Ledger P B) (Event P B) where
  start := (booted P B, ⟨fun _ ↦ .idle, []⟩)
  next o e := (step blockno o.1 e).map fun m ↦ (m.1, o.2.record blockno m.2)

end EnhancedXv6.Virtio
