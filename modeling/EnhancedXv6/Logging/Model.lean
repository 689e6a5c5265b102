import EnhancedXv6.Storage.Block
import EnhancedXv6.Storage.Writes

/-!
# The log

The log header and the functions of `log.c`.  `begin_op`, `end_op` and `log_write` are sections under
`log.lock`; `commit` and `recover_from_log` are the lists of the buffer operations they make, which a
single process makes in order and which other processes may interleave with.
-/

namespace EnhancedXv6.Logging

open Storage

abbrev BlockNo := UInt32

abbrev Disk := BlockNo → Block

theorem maxopblocks_eq : MAXOPBLOCKS = 10 := rfl

theorem logsize_eq : LOGSIZE = 30 := rfl

/-! ## The header block -/

def putBlocks : ℕ → List BlockNo → Block → Block
  | _, [], data => data
  | i, b :: rest, data => putBlocks (i + 1) rest (data.setWord (i + 1) b.toNat)

def putHeader (lh : List BlockNo) (data : Block) : Block :=
  putBlocks 0 lh (data.setWord 0 lh.length)

/-- How often a loop up to `lh->n` runs: the field is an `int`. -/
def headerCount (data : Block) : ℕ :=
  if data.word 0 < 2 ^ 31 then data.word 0 else 0

def headerBlocks (data : Block) : List BlockNo :=
  (List.range (headerCount data)).map fun i ↦ UInt32.ofNat (data.word (i + 1))

theorem word_putBlocks_of_le {i j : ℕ} (h : j ≤ i) (lh : List BlockNo) (data : Block) :
    (putBlocks i lh data).word j = data.word j := by
  induction lh generalizing i data with
  | nil => rfl
  | cons b rest ih =>
    rw [putBlocks, ih (by omega), Block.word_setWord_of_ne (by omega)]

theorem word_putBlocks {i j : ℕ} {lh : List BlockNo} {data : Block} (h : j < lh.length) :
    UInt32.ofNat ((putBlocks i lh data).word (i + j + 1)) = lh[j] := by
  induction lh generalizing i j data with
  | nil => simp at h
  | cons b rest ih =>
    cases j with
    | zero =>
      rw [putBlocks, word_putBlocks_of_le (Nat.le_refl _), Nat.add_zero,
        Block.word_setWord_self, Nat.mod_eq_of_lt b.toNat_lt, UInt32.ofNat_toNat]
      rfl
    | succ j =>
      rw [putBlocks, show i + (j + 1) + 1 = i + 1 + j + 1 by omega, ih (by simpa using h)]
      rfl

theorem headerCount_putHeader {lh : List BlockNo} (h : lh.length ≤ LOGSIZE) (data : Block) :
    headerCount (putHeader lh data) = lh.length := by
  rw [logsize_eq] at h
  have hword : (putHeader lh data).word 0 = lh.length := by
    rw [putHeader, word_putBlocks_of_le (Nat.le_refl 0), Block.word_setWord_self]
    exact Nat.mod_eq_of_lt (by omega)
  rw [headerCount, hword, if_pos (by omega)]

theorem headerBlocks_putHeader {lh : List BlockNo} (h : lh.length ≤ LOGSIZE) (data : Block) :
    headerBlocks (putHeader lh data) = lh := by
  apply List.ext_getElem
  · rw [headerBlocks, List.length_map, List.length_range, headerCount_putHeader h]
  · intro j _ hj
    have hword : UInt32.ofNat ((putBlocks 0 lh (data.setWord 0 lh.length)).word (0 + j + 1)) = lh[j] :=
      word_putBlocks hj
    simpa only [headerBlocks, List.getElem_map, List.getElem_range, Nat.zero_add, putHeader]
      using hword

theorem headerBlocks_of_count {data : Block} (h : headerCount data = 0) :
    headerBlocks data = [] := by
  rw [headerBlocks, h]
  rfl

/-! ## Operations -/

structure Log where
  start : BlockNo
  size : ℕ
  outstanding : ℕ
  committing : Bool
  /-- `log.lh.block[0]` to `log.lh.block[log.lh.n - 1]` -/
  lh : List BlockNo
  deriving DecidableEq

inductive Panic
  | tooBigATransaction
  | outsideOfTrans
  | logCommitting
  deriving DecidableEq

/-- `begin_op`, or `none` where it sleeps. -/
def beginOp (log : Log) : Option Log :=
  if log.committing then none
  else if log.lh.length + (log.outstanding + 1) * MAXOPBLOCKS > LOGSIZE then none
  else some { log with outstanding := log.outstanding + 1 }

/-- The first section of `end_op`; it commits when `do_commit` is set. -/
def endOp (log : Log) : Except Panic (Bool × Log) :=
  let log := { log with outstanding := log.outstanding - 1 }
  if log.committing then .error .logCommitting
  else if log.outstanding = 0 then .ok (true, { log with committing := true })
  else .ok (false, log)

/-- `log_write`, which says whether it has pinned the buffer. -/
def logWrite (log : Log) (b : BlockNo) : Except Panic (Bool × Log) :=
  if log.lh.length ≥ LOGSIZE ∨ log.lh.length + 1 ≥ log.size then .error .tooBigATransaction
  else if log.outstanding < 1 then .error .outsideOfTrans
  else if b ∈ log.lh then .ok (false, log)
  else .ok (true, { log with lh := log.lh ++ [b] })

/-- A block in `log.start`, …, `log.start + log.size - 1`. -/
def InLog (log : Log) (b : BlockNo) : Prop := ∃ i < log.size, b = log.start + UInt32.ofNat i

def logBlock (start : BlockNo) (tail : ℕ) : BlockNo := start + UInt32.ofNat (tail + 1)

theorem toNat_ofNat_succ {i : ℕ} (hi : i < LOGSIZE) : (UInt32.ofNat (i + 1)).toNat = i + 1 := by
  rw [logsize_eq] at hi
  rw [UInt32.toNat_ofNat', Nat.mod_eq_of_lt (by omega)]

theorem logBlock_inj {start : BlockNo} {i j : ℕ} (hi : i < LOGSIZE) (hj : j < LOGSIZE)
    (h : logBlock start i = logBlock start j) : i = j := by
  have htoNat := congrArg UInt32.toNat (UInt32.add_right_inj start |>.mp h)
  rw [toNat_ofNat_succ hi, toNat_ofNat_succ hj] at htoNat
  omega

theorem logBlock_ne_start {start : BlockNo} {i : ℕ} (hi : i < LOGSIZE) :
    logBlock start i ≠ start := by
  intro h
  have hzero : UInt32.ofNat (i + 1) = 0 := by simpa [logBlock] using h
  have htoNat := congrArg UInt32.toNat hzero
  rw [toNat_ofNat_succ hi] at htoNat
  simp at htoNat

/-- The blocks of a transaction: distinct, outside the log, and no more than the log has room for. -/
structure Loggable (log : Log) : Prop where
  distinct : log.lh.Nodup
  outside : ∀ b ∈ log.lh, ¬ InLog log b
  fits : log.lh.length + 1 ≤ log.size
  capacity : log.lh.length ≤ LOGSIZE

section Loggable

variable {log : Log}

theorem inLog_start (hlog : Loggable log) : InLog log log.start :=
  ⟨0, by have := hlog.fits; omega, by simp⟩

theorem inLog_logBlock (hlog : Loggable log) {i : ℕ} (hi : i < log.lh.length) :
    InLog log (logBlock log.start i) :=
  ⟨i + 1, by have := hlog.fits; omega, rfl⟩

theorem Loggable.ne_logBlock (hlog : Loggable log) :
    ∀ b ∈ log.lh, ∀ i < 0 + log.lh.length, b ≠ logBlock log.start i := by
  intro b hb i hi heq
  rw [Nat.zero_add] at hi
  exact hlog.outside b hb (heq ▸ inLog_logBlock hlog hi)

theorem loggable_append {b : BlockNo} (hlog : log.lh = [] ∨ Loggable log) (hnew : b ∉ log.lh)
    (hout : ¬ InLog log b) (hroom : ¬ (log.lh.length ≥ LOGSIZE ∨ log.lh.length + 1 ≥ log.size)) :
    Loggable { log with lh := log.lh ++ [b] } := by
  have hdistinct : log.lh.Nodup := by
    rcases hlog with hnil | hlog
    · rw [hnil]
      exact List.nodup_nil
    · exact hlog.distinct
  have houtside : ∀ c ∈ log.lh, ¬ InLog log c := by
    intro c hc
    rcases hlog with hnil | hlog
    · simp [hnil] at hc
    · exact hlog.outside c hc
  refine ⟨?_, fun c hc ↦ ?_, ?_, ?_⟩
  · exact List.nodup_append.mpr ⟨hdistinct, List.nodup_singleton b, fun c hc d hd hcd ↦ by
      rw [List.mem_singleton] at hd
      exact hnew (hd ▸ hcd ▸ hc)⟩
  · rcases List.mem_append.mp hc with hc | hc
    · exact houtside c hc
    · rwa [List.mem_singleton.mp hc]
  · simp only [List.length_append, List.length_singleton]
    omega
  · simp only [List.length_append, List.length_singleton]
    omega

end Loggable

/-! ## Commit and recovery -/

/-- The operations on locked buffers that `commit` and `recover_from_log` make. -/
inductive Instr
  | bread (b : BlockNo)
  /-- `memmove(dst->data, src->data, BSIZE)` and `bwrite(dst)`, then `bunpin(dst)` if `unpin` -/
  | copy (dst src : BlockNo) (unpin : Bool)
  /-- the copy of the header in `write_head` and its `bwrite` -/
  | head (start : BlockNo) (lh : List BlockNo)
  | brelse (b : BlockNo)
  /-- `log.lh.n = 0` -/
  | clear
  deriving DecidableEq

def writeLog (start : BlockNo) : ℕ → List BlockNo → List Instr
  | _, [] => []
  | tail, b :: rest =>
    [.bread (logBlock start tail), .bread b, .copy (logBlock start tail) b false, .brelse b,
      .brelse (logBlock start tail)] ++ writeLog start (tail + 1) rest

def installTrans (start : BlockNo) (recovering : Bool) : ℕ → List BlockNo → List Instr
  | _, [] => []
  | tail, b :: rest =>
    [.bread (logBlock start tail), .bread b, .copy b (logBlock start tail) (!recovering),
      .brelse (logBlock start tail), .brelse b] ++ installTrans start recovering (tail + 1) rest

def writeHead (start : BlockNo) (lh : List BlockNo) : List Instr :=
  [.bread start, .head start lh, .brelse start]

def commit (log : Log) : List Instr :=
  if log.lh.length > 0 then
    writeLog log.start 0 log.lh ++ (writeHead log.start log.lh ++
      (installTrans log.start false 0 log.lh ++ (.clear :: writeHead log.start [])))
  else []

theorem clear_mem_commit (log : Log) : .clear ∈ commit log ∨ log.lh = [] := by
  by_cases hlen : log.lh.length > 0
  · rw [commit, if_pos hlen]
    simp
  · exact .inr (List.eq_nil_of_length_eq_zero (by omega))

def recoverFromLog (start : BlockNo) (disk : Disk) : List Instr :=
  [.bread start, .brelse start] ++ (installTrans start true 0 (headerBlocks (disk start)) ++
    (.clear :: writeHead start []))

end EnhancedXv6.Logging
