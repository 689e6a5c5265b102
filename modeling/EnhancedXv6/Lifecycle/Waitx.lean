import EnhancedXv6.Lifecycle.Waiting
import EnhancedXv6.Vm.UserCopy

/-!
# The system call waitx

`sys_waitx` calls `waitx`, which copies the exit status to user memory and frees the child, and then
copies the two times, whatever `waitx` has returned.  The memory is that of the machine, written
through a page table; `stack` stands for what the locals `wtime` and `rtime` hold before `waitx` sets
them.
-/

namespace EnhancedXv6.Lifecycle

open Kernel
open Memory (Page Bytes PGSIZE)
open Storage (applyWrites applyWrites_append applyWrites_eq_self_iff applyWrites_mem)
open Vm (loc locAt placed)

/-! ## sys_waitx -/

/-- `copyout(p->pagetable, addr, (char *)&x, sizeof(int))`: whether it fails, and what it leaves. -/
def copyWord (t : Vm.Table) (mem : Page → Bytes) (addr : UInt64) (x : UInt32) :
    Bool × (Page → Bytes) :=
  let copied := Vm.copyoutTo t mem addr (Vm.word x.toNat)
  (!copied.1, copied.2)

def copyInt (t : Vm.Table) (mem : Page → Bytes) (addr : UInt64) (x : Int32) :
    Bool × (Page → Bytes) :=
  copyWord t mem addr x.toUInt32

/-- The copies of `wtime` and `rtime`; the second one is made unless the first fails. -/
def copyTimes (t : Vm.Table) (mem : Page → Bytes) (addr1 addr2 : UInt64) (times : UInt32 × UInt32) :
    Bool × (Page → Bytes) :=
  let copied := copyWord t mem addr1 times.1
  if copied.1 = true then copied else copyWord t copied.2 addr2 times.2

/-- `sys_waitx()` with one scan of the table: the value returned, the process table and the memory,
or `none` when it blocks. -/
def sysWaitx (b : Build) (t : Vm.Table) (s : State) (mem : Page → Bytes) (p : Slot)
    (addr addr1 addr2 : UInt64) (stack : UInt32 × UInt32) :
    Option (Int32 × State × (Page → Bytes)) :=
  (waitxCall (copyInt t) b s mem p addr).map fun r ↦
    let copied := copyTimes t r.2.2.2 addr1 addr2 (r.2.1.getD stack)
    (if copied.1 = true then -1 else r.1, r.2.2.1, copied.2)

/-! ## The bytes that are stored -/

def Stores (t : Vm.Table) (addr : UInt64) : Prop := Vm.UserRange t addr.toNat 4

instance (t : Vm.Table) (addr : UInt64) : Decidable (Stores t addr) :=
  inferInstanceAs (Decidable (∀ i < 4, (locAt t addr.toNat i).isSome = true))

/-- The bytes of an `int` for the address `addr`, up to the first that is not mapped, each with its
place in the memory. -/
def wordWrites (t : Vm.Table) (addr : UInt64) (x : UInt32) : List ((Page × Fin PGSIZE) × UInt8) :=
  placed (locAt t addr.toNat) (Vm.word x.toNat)

/-- The same for the times.  Nothing is stored at `addr2` if `addr1` has not four bytes. -/
def timeWrites (t : Vm.Table) (addr1 addr2 : UInt64) (times : UInt32 × UInt32) :
    List ((Page × Fin PGSIZE) × UInt8) :=
  if Stores t addr1 then
    wordWrites t addr1 times.1 ++ wordWrites t addr2 times.2
  else wordWrites t addr1 times.1

/-- Every byte of memory that the writes reach has the value they store there last. -/
def AlreadyThere (mem : Page → Bytes) (ws : List ((Page × Fin PGSIZE) × UInt8)) : Prop :=
  ∀ l c, ws.reverse.lookup l = some c → mem l.1 l.2 = c

variable {t : Vm.Table} {mem : Page → Bytes} {addr addr1 addr2 : UInt64} {x : UInt32}
  {times : UInt32 × UInt32}

theorem length_word (n : ℕ) : (Vm.word n).length = 4 := rfl

theorem copyWord_fails_iff : (copyWord t mem addr x).1 = true ↔ ¬Stores t addr := by
  rw [copyWord, Bool.not_eq_true', ← Bool.not_eq_true, Vm.copyoutTo,
    Vm.copyoutMem_fst addr.toNat_lt le_rfl, length_word, Stores]

theorem copyTimes_fails_iff :
    (copyTimes t mem addr1 addr2 times).1 = true ↔
      ¬(Stores t addr1 ∧ Stores t addr2) := by
  rw [copyTimes]
  split_ifs with hfirst
  · have hnot := copyWord_fails_iff.mp hfirst
    exact iff_of_true hfirst fun h ↦ hnot h.1
  · rw [copyWord_fails_iff] at hfirst ⊢
    rw [not_not] at hfirst
    simp [hfirst]

theorem uncurry_copyWord :
    Function.uncurry (copyWord t mem addr x).2 =
      applyWrites (Function.uncurry mem) (wordWrites t addr x) :=
  Vm.copyoutMem_eq_applyWrites _ addr.toNat_lt le_rfl

theorem uncurry_copyTimes :
    Function.uncurry (copyTimes t mem addr1 addr2 times).2 =
      applyWrites (Function.uncurry mem) (timeWrites t addr1 addr2 times) := by
  have hfirst : (copyWord t mem addr1 times.1).1 = true ↔ _ := copyWord_fails_iff
  rw [copyTimes, timeWrites]
  by_cases hrange : Stores t addr1
  · rw [if_pos hrange, if_neg (mt hfirst.mp (not_not.mpr hrange)), applyWrites_append,
      uncurry_copyWord, uncurry_copyWord]
  · rw [if_neg hrange, if_pos (hfirst.mpr hrange), uncurry_copyWord]

/-- The copies of the status and the times change nothing if and only if all they store is there. -/
theorem copies_eq_iff {status : Int32} :
    (copyTimes t (copyInt t mem addr status).2 addr1 addr2 times).2 = mem ↔
      AlreadyThere mem
        (wordWrites t addr status.toUInt32 ++ timeWrites t addr1 addr2 times) := by
  rw [← Function.uncurry_injective.eq_iff, uncurry_copyTimes, copyInt, uncurry_copyWord,
    ← applyWrites_append, applyWrites_eq_self_iff]
  rfl

/-- Both times are the number whose bytes are all `c`; then so is the first byte stored. -/
theorem copyTimes_first {c : UInt8} {l : Page × Fin PGSIZE}
    (hx : Vm.word x.toNat = List.replicate 4 c) (hloc : loc t addr1.toNat = some l) :
    (copyTimes t mem addr1 addr2 (x, x)).2 l.1 l.2 = c := by
  have hvalue : ∀ addr d, (l, d) ∈ wordWrites t addr x → d = c := by
    intro addr d hd
    obtain ⟨i, -, -, hi⟩ := Vm.mem_placed.mp hd
    rw [hx] at hi
    exact List.eq_of_mem_replicate (List.mem_of_getElem? hi)
  have hkey : l ∈ (wordWrites t addr1 x).map Prod.fst := by
    have h0 : locAt t addr1.toNat 0 = some l := by
      rwa [locAt, Nat.add_zero, Nat.mod_eq_of_lt addr1.toNat_lt]
    rw [wordWrites, hx, List.replicate_succ, placed, h0]
    exact List.mem_cons_self
  have hwrites : applyWrites (Function.uncurry mem) (timeWrites t addr1 addr2 (x, x)) l = c := by
    rw [timeWrites]
    split_ifs
    · have hlast := applyWrites_mem (s := Function.uncurry mem)
        (List.map_append ▸ List.mem_append_left ((wordWrites t addr2 x).map Prod.fst) hkey)
      exact (List.mem_append.mp hlast).elim (hvalue addr1 _) (hvalue addr2 _)
    · exact hvalue addr1 _ (applyWrites_mem hkey)
  rwa [← uncurry_copyTimes] at hwrites

/-! ## Failed calls -/

section Calls

variable (b : Build) (t : Vm.Table) (s : State) (mem : Page → Bytes) (p : Slot)
  (addr addr1 addr2 : UInt64)

/-- A call that returns -1 has reaped no child and changed no memory, and no call stores anything of
what was on the stack. -/
def FailsSilently : Prop :=
  (∀ stack r, sysWaitx b t s mem p addr addr1 addr2 stack = some r → r.1 = -1 →
    r.2.1 = s ∧ r.2.2 = mem) ∧
  ∀ stack stack', (sysWaitx b t s mem p addr addr1 addr2 stack).map (fun r ↦ r.2.2) =
    (sysWaitx b t s mem p addr addr1 addr2 stack').map fun r ↦ r.2.2

def childTimes (pp : Slot) : UInt32 × UInt32 :=
  ((s.proc pp).etime - (s.proc pp).ctime - (s.proc pp).rtime, (s.proc pp).rtime)

/-- With an exited child whose status can be stored, so can the times, and its pid is not -1.  If the
status cannot be stored, each byte that the copies reach has the value stored there last already.
Without an exited child the call blocks, or the first byte at `addr1` is not mapped. -/
def Unharmed : Prop :=
  match findZombie s p with
  | some pp =>
    (addr = 0 ∨ Stores t addr → (Stores t addr1 ∧ Stores t addr2) ∧ (s.proc pp).pid ≠ -1) ∧
    (¬(addr = 0 ∨ Stores t addr) →
      AlreadyThere mem (wordWrites t addr (s.proc pp).xstate.toUInt32 ++
        timeWrites t addr1 addr2 (childTimes s pp)))
  | none =>
    haveKids s p = true ∧ (s.proc p).killed = false ∨
      loc t addr1.toNat = none

variable {b t s mem p addr addr1 addr2}

theorem sysWaitx_of_zombie {pp : Slot} (hfind : findZombie s p = some pp)
    (stack : UInt32 × UInt32) :
    sysWaitx b t s mem p addr addr1 addr2 stack =
      let status := copyStatus (copyInt t) s mem p addr
      let copied := copyTimes t status.2 addr1 addr2 (childTimes s pp)
      some (if copied.1 = true ∨ status.1 = true then -1 else (s.proc pp).pid,
        if status.1 = true then s else s.modify pp (freeproc b), copied.2) := by
  rw [sysWaitx, waitxCall]
  dsimp only
  cases hstatus : (copyStatus (copyInt t) s mem p addr).1 with
  | true => simp [waitx, hfind, childTimes]
  | false => simp [waitx, hfind, childTimes]

theorem copyStatus_fails_iff {pp : Slot} (hfind : findZombie s p = some pp) :
    (copyStatus (copyInt t) s mem p addr).1 = true ↔ ¬(addr = 0 ∨ Stores t addr) := by
  rw [copyStatus, hfind]
  dsimp only
  split_ifs with h0
  · simp [h0]
  · rw [copyInt, copyWord_fails_iff]
    simp [h0]

theorem modify_freeproc_ne {pp : Slot} (hzombie : (s.proc pp).state = .zombie) :
    s.modify pp (freeproc b) ≠ s := by
  intro h
  have hstate := congrArg (fun u ↦ (u.proc pp).state) h
  simp [freeproc, hzombie] at hstate

theorem failsSilently_iff_of_zombie {pp : Slot} (hfind : findZombie s p = some pp) :
    FailsSilently b t s mem p addr addr1 addr2 ↔ Unharmed t s mem p addr addr1 addr2 := by
  rw [FailsSilently, Unharmed, hfind]
  simp only [sysWaitx_of_zombie hfind, Option.map_some, Option.some.injEq, implies_true, and_true,
    forall_eq']
  have hstatus : (copyStatus (copyInt t) s mem p addr).1 = true ↔ _ := copyStatus_fails_iff hfind
  by_cases hstore : addr = 0 ∨ Stores t addr
  · -- the child is freed
    have hok : (copyStatus (copyInt t) s mem p addr).1 = false := by
      rw [← Bool.not_eq_true, hstatus, not_not]
      exact hstore
    have hfreed := modify_freeproc_ne (b := b) (findZombie_spec hfind).2
    simp only [hok, Bool.false_eq_true, or_false, if_false, hfreed, false_and, imp_false,
      forall_const, hstore, not_true, false_implies, and_true]
    rw [ite_eq_left_iff, copyTimes_fails_iff, not_not]
    exact Classical.not_imp
  · -- the child stays, and the call fails
    have hfails : (copyStatus (copyInt t) s mem p addr).1 = true := hstatus.mpr hstore
    have hmem : (copyStatus (copyInt t) s mem p addr).2 =
        (copyInt t mem addr (s.proc pp).xstate).2 := by
      rw [copyStatus, hfind]
      exact congrArg Prod.snd (if_neg fun h0 ↦ hstore (.inl h0))
    simp only [hfails, hmem, or_true, if_true, true_and, hstore, false_implies,
      not_false_iff, forall_const, copies_eq_iff]

theorem sysWaitx_of_none (hfind : findZombie s p = none) (stack : UInt32 × UInt32) :
    sysWaitx b t s mem p addr addr1 addr2 stack =
      if haveKids s p = true ∧ (s.proc p).killed = false then none
      else some (-1, s, (copyTimes t mem addr1 addr2 stack).2) := by
  rw [sysWaitx, waitxCall, copyStatus, hfind, waitx, hfind]
  cases haveKids s p <;> cases (s.proc p).killed <;> simp

theorem failsSilently_iff_of_none (hfind : findZombie s p = none) :
    FailsSilently b t s mem p addr addr1 addr2 ↔ Unharmed t s mem p addr addr1 addr2 := by
  rw [FailsSilently, Unharmed, hfind]
  simp only [sysWaitx_of_none hfind]
  by_cases hblocks : haveKids s p = true ∧ (s.proc p).killed = false
  · simp [hblocks]
  · simp only [hblocks, if_false, false_or, Option.map_some, Option.some.injEq]
    cases hloc : loc t addr1.toNat with
    | none =>
      have h0 : locAt t addr1.toNat 0 = none := by
        rwa [locAt, Nat.add_zero, Nat.mod_eq_of_lt addr1.toNat_lt]
      have hmem : ∀ stack, (copyTimes t mem addr1 addr2 stack).2 = mem := by
        intro stack
        have hnot : ¬Stores t addr1 := fun h ↦ by simpa [h0] using h 0 (by decide)
        apply Function.uncurry_injective
        rw [uncurry_copyTimes, timeWrites, if_neg hnot, wordWrites]
        obtain ⟨c, rest, hword⟩ := List.exists_cons_of_length_eq_add_one (length_word stack.1.toNat)
        rw [hword, placed, h0]
        rfl
      simp [hmem]
    | some l =>
      simp only [reduceCtorEq, iff_false]
      rintro ⟨-, hsame⟩
      -- two stacks that differ in every byte
      have hzero : (copyTimes t mem addr1 addr2 (0, 0)).2 l.1 l.2 = 0 :=
        copyTimes_first rfl hloc
      have hone : (copyTimes t mem addr1 addr2 (0x01010101, 0x01010101)).2 l.1 l.2 = 1 :=
        copyTimes_first rfl hloc
      rw [hsame (0, 0) (0x01010101, 0x01010101), hone] at hzero
      exact absurd hzero (by decide)

end Calls

/-- For every process table, page table and memory and all three addresses: a failed `waitx` goes
unnoticed if and only if it is `Unharmed`. -/
theorem waitx_fails_silently_iff (b : Build) (t : Vm.Table) (s : State) (mem : Page → Bytes)
    (p : Slot) (addr addr1 addr2 : UInt64) :
    FailsSilently b t s mem p addr addr1 addr2 ↔ Unharmed t s mem p addr addr1 addr2 := by
  cases hfind : findZombie s p with
  | none => exact failsSilently_iff_of_none hfind
  | some pp => exact failsSilently_iff_of_zombie hfind

def onePage : Vm.Table :=
  ⟨10, fun i ↦ if i = 0 then
    some ⟨11, fun i ↦ if i = 0 then
      some ⟨12, fun i ↦ if i = 0 then
        some (⟨7, { r := true, w := true, x := true, u := true }⟩ : Vm.Pte) else none⟩
      else none⟩
    else none⟩

def withZombie : State :=
  (userinit .default).modify 1 fun pp ↦ { pp with state := .zombie, pid := 2, parent := some 0 }

/-- Right after boot `waitx(0, 8, 16)` fails and stores what was on the stack; with an exited child
`waitx(0, 0x4000, 16)` fails and the child is gone. -/
theorem waitx_failure_is_felt :
    (sysWaitx .default onePage (userinit .default) (fun _ _ ↦ 0) 0 0 8 16 (42, 0)).map
      (fun r ↦ (r.1, r.2.2 7 8)) = some (-1, 42) ∧
    (sysWaitx .default onePage withZombie (fun _ _ ↦ 0) 0 0 0x4000 16 (0, 0)).map
      (fun r ↦ (r.1, (r.2.1.proc 1).state)) = some (-1, .unused) ∧
    ¬FailsSilently .default onePage (userinit .default) (fun _ _ ↦ 0) 0 0 8 16 ∧
    ¬FailsSilently .default onePage withZombie (fun _ _ ↦ 0) 0 0 0x4000 16 := by
  have hnone : findZombie (userinit .default) 0 = none := by decide +kernel
  have hsome : findZombie withZombie 0 = some 1 := by decide +kernel
  refine ⟨by decide +kernel, by decide +kernel, ?_, ?_⟩
  · rw [failsSilently_iff_of_none hnone, Unharmed, hnone]
    decide +kernel
  · rw [failsSilently_iff_of_zombie hsome, Unharmed, hsome]
    intro h
    exact absurd (h.1 (.inl rfl)).1.1 (by decide +kernel)

end EnhancedXv6.Lifecycle
