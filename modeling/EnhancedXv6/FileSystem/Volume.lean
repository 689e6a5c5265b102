import EnhancedXv6.Hoare.Program
import EnhancedXv6.Storage.Block

/-!
# The disk of the file system

Inodes, free map and data blocks, and the functions of `fs.c` that work on them: allocation of
blocks, the block map of an inode, truncation, reading and writing.  What the buffer cache and the
log make of single blocks, one array of blocks that changes as a whole at the end of a transaction, is
taken as given; `inOp` says whether a transaction is under way.

The functions take the in-memory copy of the inode they are called with and return it as they leave
it.  Inode numbers, block numbers and sizes are natural numbers; the blocks of the disk that hold
inodes and free map appear as the tables they hold.
-/

namespace EnhancedXv6.FileSystem

open Hoare Storage

abbrev NDIRECT : ℕ := 12

abbrev NINDIRECT : ℕ := 256

abbrev MAXFILE : ℕ := NDIRECT + NINDIRECT

/-- The layout of the disk: the data blocks are its last `nblocks` blocks.  Block numbers are counted
by an `int`, and a directory entry has 16 bits for an inode number. -/
structure Superblock where
  size : ℕ
  nblocks : ℕ
  ninodes : ℕ
  nblocks_lt : nblocks < size
  size_lt : size < 2 ^ 31
  ninodes_le : ninodes ≤ 2 ^ 16

abbrev T_DIR : Int16 := 1
abbrev T_FILE : Int16 := 2

/-- `struct dinode`, also as it is kept in memory. -/
structure Dinode where
  type : Int16
  major : Int16
  minor : Int16
  nlink : Int16
  size : ℕ
  /-- `addrs[0]` to `addrs[NDIRECT]` -/
  addrs : ℕ → ℕ

structure Volume where
  inode : ℕ → Dinode
  used : ℕ → Bool
  block : ℕ → Block
  /-- `log.outstanding > 0` -/
  inOp : Bool

/-- Where a call ends that does not return: a panic, or a lock that is not released. -/
inductive Stop
  | freeingFreeBlock
  | bmapOutOfRange
  | logWriteOutsideOfTrans
  | igetNoInodes
  | ilock
  | ilockNoType
  | iunlock
  | dirlookupNotDir
  | dirlookupRead
  | dirlinkRead
  | isdiremptyReadi
  | unlinkNlink
  | unlinkWritei
  | filedup
  | fileclose
  | fileread
  | filewrite
  /-- `acquiresleep` on a lock that the caller itself holds -/
  | sleepsForever
  /-- a null pointer is followed -/
  | nullPointer
  deriving DecidableEq

abbrev Vol (α : Type) := Program Volume Stop α

open Program

/-- The test of `log_write`; the room in the log is not part of this model. -/
def logWrite : Vol Unit := do
  let v ← get
  when (v.inOp = false) (stop .logWriteOutsideOfTrans)

/-! ## Blocks -/

def zeroBlock : Block := fun _ ↦ 0

def Volume.setBlock (v : Volume) (b : ℕ) (data : Block) : Volume :=
  { v with block := Function.update v.block b data }

def Volume.setUsed (v : Volume) (b : ℕ) (used : Bool) : Volume :=
  { v with used := Function.update v.used b used }

def Volume.setInode (v : Volume) (inum : ℕ) (ip : Dinode) : Volume :=
  { v with inode := Function.update v.inode inum ip }

section Fields

variable (v : Volume) (b inum : ℕ) (data : Block) (used : Bool) (ip : Dinode)

@[simp] theorem Volume.setBlock_inode : (v.setBlock b data).inode = v.inode := rfl

@[simp] theorem Volume.setBlock_used : (v.setBlock b data).used = v.used := rfl

@[simp] theorem Volume.setBlock_block :
    (v.setBlock b data).block = Function.update v.block b data := rfl

@[simp] theorem Volume.setUsed_inode : (v.setUsed b used).inode = v.inode := rfl

@[simp] theorem Volume.setUsed_used : (v.setUsed b used).used = Function.update v.used b used := rfl

@[simp] theorem Volume.setUsed_block : (v.setUsed b used).block = v.block := rfl

@[simp] theorem Volume.setInode_inode :
    (v.setInode inum ip).inode = Function.update v.inode inum ip := rfl

@[simp] theorem Volume.setInode_used : (v.setInode inum ip).used = v.used := rfl

@[simp] theorem Volume.setInode_block : (v.setInode inum ip).block = v.block := rfl

end Fields

def firstFree (sb : Superblock) (v : Volume) : Option ℕ :=
  (List.range sb.size).find? fun b ↦ !v.used b

def balloc (sb : Superblock) : Vol ℕ := do
  let v ← get
  match firstFree sb v with
  | some b => do
    logWrite
    modify fun v ↦ (v.setUsed b true).setBlock b zeroBlock
    pure b
  | none => pure 0

def bfree (b : ℕ) : Vol Unit := do
  let v ← get
  when (v.used b = false) (stop .freeingFreeBlock)
  logWrite
  modify fun v ↦ v.setUsed b false

/-! ## The blocks of an inode -/

def Dinode.setAddr (ip : Dinode) (i addr : ℕ) : Dinode :=
  { ip with addrs := Function.update ip.addrs i addr }

def loadAddr (sb : Superblock) (ip : Dinode) (i : ℕ) : Vol (ℕ × Dinode) :=
  if ip.addrs i ≠ 0 then pure (ip.addrs i, ip)
  else do
    let addr ← balloc sb
    if addr = 0 then pure (0, ip) else pure (addr, ip.setAddr i addr)

def loadEntry (sb : Superblock) (ind j : ℕ) : Vol ℕ := do
  let v ← get
  if (v.block ind).word j ≠ 0 then pure ((v.block ind).word j)
  else do
    let addr ← balloc sb
    if addr = 0 then pure 0
    else do
      modify fun v ↦ v.setBlock ind ((v.block ind).setWord j addr)
      logWrite
      pure addr

def bmap (sb : Superblock) (ip : Dinode) (bn : ℕ) : Vol (ℕ × Dinode) :=
  if bn < NDIRECT then loadAddr sb ip bn
  else if bn - NDIRECT < NINDIRECT then do
    let r ← loadAddr sb ip NDIRECT
    if r.1 = 0 then pure r
    else do
      let addr ← loadEntry sb r.1 (bn - NDIRECT)
      pure (addr, r.2)
  else stop .bmapOutOfRange

def iupdate (inum : ℕ) (ip : Dinode) : Vol Unit := do
  logWrite
  modify fun v ↦ v.setInode inum ip

def bfreeAll : List ℕ → Vol Unit
  | [] => pure ()
  | addr :: rest => do
    when (addr ≠ 0) (bfree addr)
    bfreeAll rest

def bfreeIndirect (ind : ℕ) : Vol Unit := do
  let v ← get
  bfreeAll ((List.range NINDIRECT).map (v.block ind).word)
  bfree ind

def itrunc (inum : ℕ) (ip : Dinode) : Vol Dinode := do
  bfreeAll ((List.range NDIRECT).map ip.addrs)
  when (ip.addrs NDIRECT ≠ 0) (bfreeIndirect (ip.addrs NDIRECT))
  let ip := { ip with addrs := fun _ ↦ 0, size := 0 }
  iupdate inum ip
  pure ip

/-! ## Reading and writing -/

/-- The pieces of `n` bytes from `off` on that lie in one block each: offset and length. -/
def pieces : ℕ → ℕ → ℕ → List (ℕ × ℕ)
  | 0, _, _ => []
  | fuel + 1, off, n =>
    if n = 0 then []
    else
      let m := min n (BSIZE - off % BSIZE)
      (off, m) :: pieces fuel (off + m) (n - m)

/-- The loop of `readi`; `copyout tot` says whether the copy at `dst + tot` succeeds. -/
def readLoop (sb : Superblock) (copyout : ℕ → Bool) :
    List (ℕ × ℕ) → Dinode → List UInt8 → Vol (Option (List UInt8) × Dinode)
  | [], ip, acc => pure (some acc, ip)
  | (off, m) :: rest, ip, acc => do
    let r ← bmap sb ip (off / BSIZE)
    if r.1 = 0 then pure (some acc, r.2)
    else do
      let v ← get
      if copyout acc.length = true then
        readLoop sb copyout rest r.2
          (acc ++ (List.range m).map fun i ↦ v.block r.1 (off % BSIZE + i))
      else pure (none, r.2)

/-- The bytes that `readi` copies, or `none` for -1. -/
def readi (sb : Superblock) (ip : Dinode) (off n : ℕ) (copyout : ℕ → Bool) :
    Vol (Option (List UInt8) × Dinode) :=
  if off > ip.size ∨ off + n ≥ 2 ^ 32 then pure (some [], ip)
  else
    let n := if off + n > ip.size then ip.size - off else n
    readLoop sb copyout (pieces n off n) ip []

/-- How many of the `m` bytes at `src + tot` are mapped before the first that is not. -/
def mappedBytes (src : ℕ → Option UInt8) (tot m : ℕ) : ℕ :=
  ((List.range m).takeWhile fun i ↦ (src (tot + i)).isSome).length

/-- A block with `k` bytes of `src + tot` copied to offset `start`. -/
def copyInto (src : ℕ → Option UInt8) (tot start k : ℕ) (data : Block) : Block := fun i ↦
  if start ≤ i ∧ i < start + k then (src (tot + (i - start))).getD 0 else data i

/-- The most bytes that `filewrite` writes in one transaction: `((MAXOPBLOCKS-1-1-2) / 2) * BSIZE`. -/
def maxWrite : ℕ := (MAXOPBLOCKS - 1 - 1 - 2) / 2 * BSIZE

end EnhancedXv6.FileSystem
