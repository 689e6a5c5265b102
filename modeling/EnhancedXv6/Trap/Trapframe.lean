import Mathlib.Data.List.Nodup
import Mathlib.Data.Fintype.Basic

/-!
# The trapframe page and the trampoline

`struct trapframe` is 36 doublewords.  `uservec` in trampoline.S stores the 31 user registers into
it at fixed byte offsets, `userret` loads them back.  Both are kept as the tables of their `sd` and
`ld` instructions, in instruction order, so that a wrong offset in one of them would be visible.

The value of `a0` reaches the frame through `sscratch`, after all other stores; `userret` loads it
last because the register holds the address of the frame until then.
-/

namespace EnhancedXv6.Trap

/-- The general registers of a user program, `x1` to `x31` under their ABI names. -/
inductive Reg
  | ra | sp | gp | tp | t0 | t1 | t2 | s0 | s1 | a0 | a1 | a2 | a3 | a4 | a5 | a6 | a7
  | s2 | s3 | s4 | s5 | s6 | s7 | s8 | s9 | s10 | s11 | t3 | t4 | t5 | t6
  deriving DecidableEq, Repr

instance : Fintype Reg :=
  Fintype.ofList
    [.ra, .sp, .gp, .tp, .t0, .t1, .t2, .s0, .s1, .a0, .a1, .a2, .a3, .a4, .a5, .a6, .a7, .s2, .s3,
      .s4, .s5, .s6, .s7, .s8, .s9, .s10, .s11, .t3, .t4, .t5, .t6]
    (by intro r; cases r <;> decide)

/-- What user code can see of the hart: the program counter and the registers. -/
structure UserContext where
  pc : UInt64
  regs : Reg → UInt64

/-- The doublewords of `struct trapframe`, in the order of its fields. -/
structure Trapframe where
  word : Fin 36 → UInt64

namespace Trapframe

def index (offset : ℕ) : Fin 36 := Fin.ofNat 36 (offset / 8)

def load (tf : Trapframe) (offset : ℕ) : UInt64 := tf.word (index offset)

def store (tf : Trapframe) (offset : ℕ) (value : UInt64) : Trapframe :=
  ⟨fun i ↦ if i = index offset then value else tf.word i⟩

def zero : Trapframe := ⟨fun _ ↦ 0⟩

instance : Inhabited Trapframe := ⟨zero⟩

@[simp]
theorem load_store_self (tf : Trapframe) (offset : ℕ) (value : UInt64) :
    (tf.store offset value).load offset = value := by
  simp [load, store]

theorem load_store_of_ne (tf : Trapframe) {offset other : ℕ} (value : UInt64)
    (h : index other ≠ index offset) : (tf.store offset value).load other = tf.load other := by
  simp [load, store, h]

@[ext]
theorem ext {tf tf' : Trapframe} (h : ∀ i, tf.word i = tf'.word i) : tf = tf' := by
  cases tf
  cases tf'
  congr
  exact funext h

end Trapframe

/-! ## Field layout -/

def Reg.offset : Reg → ℕ
  | .ra => 40 | .sp => 48 | .gp => 56 | .tp => 64 | .t0 => 72 | .t1 => 80 | .t2 => 88
  | .s0 => 96 | .s1 => 104 | .a0 => 112 | .a1 => 120 | .a2 => 128 | .a3 => 136 | .a4 => 144
  | .a5 => 152 | .a6 => 160 | .a7 => 168 | .s2 => 176 | .s3 => 184 | .s4 => 192 | .s5 => 200
  | .s6 => 208 | .s7 => 216 | .s8 => 224 | .s9 => 232 | .s10 => 240 | .s11 => 248
  | .t3 => 256 | .t4 => 264 | .t5 => 272 | .t6 => 280

inductive KernelField
  | kernelSatp | kernelSp | kernelTrap | epc | kernelHartid
  deriving DecidableEq, Repr

instance : Fintype KernelField :=
  Fintype.ofList [.kernelSatp, .kernelSp, .kernelTrap, .epc, .kernelHartid]
    (by intro f; cases f <;> decide)

def KernelField.offset : KernelField → ℕ
  | .kernelSatp => 0 | .kernelSp => 8 | .kernelTrap => 16 | .epc => 24 | .kernelHartid => 32

namespace Trapframe

def reg (tf : Trapframe) (r : Reg) : UInt64 := tf.load r.offset

def setReg (tf : Trapframe) (r : Reg) (value : UInt64) : Trapframe := tf.store r.offset value

def field (tf : Trapframe) (f : KernelField) : UInt64 := tf.load f.offset

def setField (tf : Trapframe) (f : KernelField) (value : UInt64) : Trapframe :=
  tf.store f.offset value

theorem index_reg_injective : Function.Injective fun r : Reg ↦ index r.offset := by
  decide

theorem index_field_injective : Function.Injective fun f : KernelField ↦ index f.offset := by
  decide

theorem index_reg_ne_index_field (r : Reg) (f : KernelField) : index r.offset ≠ index f.offset := by
  revert r f
  decide

@[simp]
theorem reg_setReg (tf : Trapframe) (r r' : Reg) (value : UInt64) :
    (tf.setReg r' value).reg r = if r = r' then value else tf.reg r := by
  by_cases h : r = r'
  · simp [reg, setReg, h]
  · rw [if_neg h]
    exact load_store_of_ne tf value fun hat ↦ h (index_reg_injective hat)

@[simp]
theorem field_setReg (tf : Trapframe) (f : KernelField) (r : Reg) (value : UInt64) :
    (tf.setReg r value).field f = tf.field f :=
  load_store_of_ne tf value (index_reg_ne_index_field r f).symm

@[simp]
theorem reg_setField (tf : Trapframe) (f : KernelField) (r : Reg) (value : UInt64) :
    (tf.setField f value).reg r = tf.reg r :=
  load_store_of_ne tf value (index_reg_ne_index_field r f)

@[simp]
theorem field_setField (tf : Trapframe) (f f' : KernelField) (value : UInt64) :
    (tf.setField f' value).field f = if f = f' then value else tf.field f := by
  by_cases h : f = f'
  · simp [field, setField, h]
  · rw [if_neg h]
    exact load_store_of_ne tf value fun hat ↦ h (index_field_injective hat)

end Trapframe

/-! ## The trampoline -/

def uservecStores : List (Reg × ℕ) :=
  [(.ra, 40), (.sp, 48), (.gp, 56), (.tp, 64), (.t0, 72), (.t1, 80), (.t2, 88), (.s0, 96),
   (.s1, 104), (.a1, 120), (.a2, 128), (.a3, 136), (.a4, 144), (.a5, 152), (.a6, 160), (.a7, 168),
   (.s2, 176), (.s3, 184), (.s4, 192), (.s5, 200), (.s6, 208), (.s7, 216), (.s8, 224), (.s9, 232),
   (.s10, 240), (.s11, 248), (.t3, 256), (.t4, 264), (.t5, 272), (.t6, 280), (.a0, 112)]

def userretLoads : List (Reg × ℕ) :=
  [(.ra, 40), (.sp, 48), (.gp, 56), (.tp, 64), (.t0, 72), (.t1, 80), (.t2, 88), (.s0, 96),
   (.s1, 104), (.a1, 120), (.a2, 128), (.a3, 136), (.a4, 144), (.a5, 152), (.a6, 160), (.a7, 168),
   (.s2, 176), (.s3, 184), (.s4, 192), (.s5, 200), (.s6, 208), (.s7, 216), (.s8, 224), (.s9, 232),
   (.s10, 240), (.s11, 248), (.t3, 256), (.t4, 264), (.t5, 272), (.t6, 280), (.a0, 112)]

def uservec (regs : Reg → UInt64) (tf : Trapframe) : Trapframe :=
  uservecStores.foldl (fun tf entry ↦ tf.store entry.2 (regs entry.1)) tf

/-- Return to user space: the registers `regs` left by the kernel are overwritten from the
frame. -/
def userret (tf : Trapframe) (regs : Reg → UInt64) : Reg → UInt64 :=
  userretLoads.foldl (fun regs entry r ↦ if r = entry.1 then tf.load entry.2 else regs r) regs

/-- Stores at other offsets leave a doubleword alone. -/
theorem load_foldl_store_of_notMem (regs : Reg → UInt64) (stores : List (Reg × ℕ))
    (tf : Trapframe) (offset : ℕ)
    (h : ∀ entry ∈ stores, Trapframe.index offset ≠ Trapframe.index entry.2) :
    (stores.foldl (fun tf entry ↦ tf.store entry.2 (regs entry.1)) tf).load offset =
      tf.load offset := by
  induction stores generalizing tf with
  | nil => rfl
  | cons entry stores ih =>
    rw [List.foldl_cons, ih _ fun other hother ↦ h other (List.mem_cons_of_mem _ hother)]
    exact Trapframe.load_store_of_ne tf _ (h entry List.mem_cons_self)

/-- A table of stores at distinct offsets leaves each of its values in place. -/
theorem load_foldl_store_of_mem (regs : Reg → UInt64) (stores : List (Reg × ℕ)) (tf : Trapframe)
    (hdistinct : stores.Pairwise fun entry other ↦
      Trapframe.index entry.2 ≠ Trapframe.index other.2)
    {entry : Reg × ℕ} (hmem : entry ∈ stores) :
    (stores.foldl (fun tf entry ↦ tf.store entry.2 (regs entry.1)) tf).load entry.2 =
      regs entry.1 := by
  induction stores generalizing tf with
  | nil => cases hmem
  | cons first stores ih =>
    obtain ⟨hfirst, hrest⟩ := List.pairwise_cons.mp hdistinct
    rw [List.foldl_cons]
    rcases List.mem_cons.mp hmem with rfl | hmem
    · rw [load_foldl_store_of_notMem regs stores _ entry.2 hfirst]
      exact Trapframe.load_store_self tf _ _
    · exact ih _ hrest hmem

/-- `uservec` stores every register at the offset proc.h gives it, and nothing else. -/
theorem mem_uservecStores (r : Reg) : (r, r.offset) ∈ uservecStores := by
  revert r
  decide

@[simp]
theorem reg_uservec (regs : Reg → UInt64) (tf : Trapframe) (r : Reg) :
    (uservec regs tf).reg r = regs r :=
  load_foldl_store_of_mem regs uservecStores tf (by decide) (mem_uservecStores r)

@[simp]
theorem field_uservec (regs : Reg → UInt64) (tf : Trapframe) (f : KernelField) :
    (uservec regs tf).field f = tf.field f := by
  refine load_foldl_store_of_notMem regs uservecStores tf f.offset ?_
  revert f
  decide

/-- Loads of other registers leave a register alone. -/
theorem foldl_load_of_notMem (tf : Trapframe) (loads : List (Reg × ℕ)) (regs : Reg → UInt64)
    (r : Reg) (h : ∀ entry ∈ loads, r ≠ entry.1) :
    loads.foldl (fun regs entry r ↦ if r = entry.1 then tf.load entry.2 else regs r) regs r =
      regs r := by
  induction loads generalizing regs with
  | nil => rfl
  | cons entry loads ih =>
    rw [List.foldl_cons, ih _ fun other hother ↦ h other (List.mem_cons_of_mem _ hother)]
    exact if_neg (h entry List.mem_cons_self)

/-- A table of loads of distinct registers gives each of them its doubleword. -/
theorem foldl_load_of_mem (tf : Trapframe) (loads : List (Reg × ℕ)) (regs : Reg → UInt64)
    (hdistinct : loads.Pairwise fun entry other ↦ entry.1 ≠ other.1)
    {entry : Reg × ℕ} (hmem : entry ∈ loads) :
    loads.foldl (fun regs entry r ↦ if r = entry.1 then tf.load entry.2 else regs r) regs
      entry.1 = tf.load entry.2 := by
  induction loads generalizing regs with
  | nil => cases hmem
  | cons first loads ih =>
    obtain ⟨hfirst, hrest⟩ := List.pairwise_cons.mp hdistinct
    rw [List.foldl_cons]
    rcases List.mem_cons.mp hmem with rfl | hmem
    · rw [foldl_load_of_notMem tf loads _ entry.1 hfirst]
      exact if_pos rfl
    · exact ih _ hrest hmem

theorem mem_userretLoads (r : Reg) : (r, r.offset) ∈ userretLoads := by
  revert r
  decide

/-- The registers of the resumed program are those of the frame, whatever the kernel left. -/
@[simp]
theorem userret_apply (tf : Trapframe) (regs : Reg → UInt64) (r : Reg) :
    userret tf regs r = tf.reg r :=
  foldl_load_of_mem tf userretLoads regs (by decide) (mem_userretLoads r)

end EnhancedXv6.Trap
