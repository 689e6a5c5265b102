import EnhancedXv6.Arith.SumUpdate
import EnhancedXv6.Kernel.State
import EnhancedXv6.Logging.Model
import EnhancedXv6.Transition.Fallible
import EnhancedXv6.Transition.System
import Mathlib.Algebra.Order.BigOperators.Group.Finset

/-!
# Room in the log

`begin_op` admits an operation if the log would have room for `MAXOPBLOCKS` blocks of every operation
under way, counting `LOGSIZE` blocks in all.  The log of `mkfs` has `LOGSIZE` blocks with its header,
and `log_write` stops at one block less, before it looks for a block that is logged already.
-/

namespace EnhancedXv6.Logging

open Kernel Storage Transition

/-- The log of `mkfs`, whose `nlog` is `LOGSIZE`. -/
def mkfsLog : Log := ⟨2, LOGSIZE, 0, false, []⟩

structure OpsState where
  log : Log
  /-- the blocks that the operation of each process has logged, if it is in one -/
  ops : Slot → Option (Finset BlockNo)

inductive OpsEvent
  | beginOp (p : Slot)
  | logWrite (p : Slot) (b : BlockNo)
  | endOp (p : Slot)
  /-- the end of `end_op` after `commit` -/
  | committed

def operations : System OpsState OpsEvent where
  start := ⟨mkfsLog, fun _ ↦ none⟩
  next s
    | .beginOp p =>
      if s.ops p = none then
        (beginOp s.log).map fun log ↦ ⟨log, Function.update s.ops p (some ∅)⟩
      else none
    | .logWrite p b =>
      (s.ops p).bind fun logged ↦ (logWrite s.log b).toOption.map fun x ↦
        ⟨x.2, Function.update s.ops p (some (insert b logged))⟩
    | .endOp p =>
      (s.ops p).bind fun _ ↦ (endOp s.log).toOption.map fun x ↦
        ⟨x.2, Function.update s.ops p none⟩
    | .committed =>
      if s.log.committing then
        some ⟨{ s.log with lh := [], committing := false }, s.ops⟩
      else none

/-- A `log_write` within the budget of its operation. -/
def Budgeted (s : OpsState) (p : Slot) (b : BlockNo) : Prop :=
  ∃ logged, s.ops p = some logged ∧ (insert b logged).card ≤ MAXOPBLOCKS

def WithinBudget (s : OpsState) : OpsEvent → Prop
  | .logWrite p b => Budgeted s p b
  | _ => True

/-- `begin_op` finds room for one block more than the operations may log and for the header. -/
def AdmitsRoom (s : OpsState) : OpsEvent → Prop
  | .beginOp _ => s.log.lh.length + (s.log.outstanding + 1) * MAXOPBLOCKS ≤ s.log.size - 2
  | _ => True

/-! ## What is reserved -/

def remaining : Option (Finset BlockNo) → ℕ
  | none => 0
  | some logged => MAXOPBLOCKS - logged.card

def inOp : Option (Finset BlockNo) → ℕ
  | none => 0
  | some _ => 1

structure Reserved (s : OpsState) : Prop where
  size : s.log.size = LOGSIZE
  outstanding : s.log.outstanding = ∑ p, inOp (s.ops p)
  committing : s.log.committing = true → s.log.outstanding = 0
  logged : ∀ p logged, s.ops p = some logged → ∀ b ∈ logged, b ∈ s.log.lh
  room : s.log.lh.length + ∑ p, remaining (s.ops p) ≤ LOGSIZE - 2

variable {s s' : OpsState} {p : Slot} {b : BlockNo} {logged : Finset BlockNo}

theorem remaining_le (o : Option (Finset BlockNo)) : remaining o ≤ inOp o * MAXOPBLOCKS := by
  cases o with
  | none => exact Nat.le_refl 0
  | some logged =>
    rw [inOp, Nat.one_mul]
    exact Nat.sub_le _ _

theorem Reserved.remaining_le (h : Reserved s) :
    ∑ p, remaining (s.ops p) ≤ s.log.outstanding * MAXOPBLOCKS := by
  rw [h.outstanding, Finset.sum_mul]
  exact Finset.sum_le_sum fun p _ ↦ Logging.remaining_le (s.ops p)

/-- No operation is under way while the log is committed. -/
theorem Reserved.ops_eq_none (h : Reserved s) (hcommitting : s.log.committing = true) (p : Slot) :
    s.ops p = none := by
  have hsum : ∑ p, inOp (s.ops p) = 0 := h.outstanding.symm.trans (h.committing hcommitting)
  have hp : inOp (s.ops p) = 0 := Finset.sum_eq_zero_iff.mp hsum p (Finset.mem_univ p)
  cases hops : s.ops p with
  | none => rfl
  | some logged => simp [hops, inOp] at hp

theorem Reserved.logWrite_ne_tooBig (h : Reserved s) (b : BlockNo) :
    logWrite s.log b ≠ .error .tooBigATransaction := by
  obtain ⟨hsize, -, -, -, hroom⟩ := h
  have hlogsize := logsize_eq
  rw [logsize_eq] at hsize hroom
  rw [logWrite, if_neg (by omega)]
  split_ifs
  all_goals simp

theorem Reserved.logged_update (h : Reserved s) {o : Option (Finset BlockNo)} {lh : List BlockNo}
    (hnew : ∀ l, o = some l → ∀ c ∈ l, c ∈ lh) (hsub : s.log.lh ⊆ lh) (p : Slot) :
    ∀ q l, Function.update s.ops p o q = some l → ∀ c ∈ l, c ∈ lh := by
  intro q l hq c hc
  by_cases hqp : q = p
  · rw [hqp, Function.update_self] at hq
    exact hnew l hq c hc
  · rw [Function.update_of_ne hqp] at hq
    exact hsub (h.logged q l hq c hc)

theorem Reserved.beginOp {log : Log} (h : Reserved s) (hops : s.ops p = none)
    (hroom : s.log.lh.length + (s.log.outstanding + 1) * MAXOPBLOCKS ≤ s.log.size - 2)
    (hbegin : beginOp s.log = some log) :
    Reserved ⟨log, Function.update s.ops p (some ∅)⟩ := by
  have hremaining := h.remaining_le
  have hsum := Arith.sum_update_add remaining s.ops p (some ∅)
  have hcount := Arith.sum_update_add inOp s.ops p (some ∅)
  rw [Logging.beginOp] at hbegin
  split_ifs at hbegin with hcommitting hfull
  obtain rfl := Option.some.inj hbegin
  have hempty : ∀ l, some (∅ : Finset BlockNo) = some l → ∀ c ∈ l, c ∈ s.log.lh := by
    intro l hl c hc
    obtain rfl := Option.some.inj hl
    simp at hc
  have hlogged := h.logged_update hempty (List.Subset.refl s.log.lh) p
  refine ⟨h.size, ?_, fun hcommitting' ↦ absurd hcommitting' hcommitting, hlogged, ?_⟩
  · rw [hops, inOp, inOp] at hcount
    simpa [h.outstanding] using hcount.symm
  · rw [hops, remaining, remaining, Finset.card_empty] at hsum
    rw [h.size, logsize_eq, maxopblocks_eq] at hroom
    rw [maxopblocks_eq] at hremaining hsum
    rw [logsize_eq]
    dsimp only
    omega

theorem Reserved.logWrite {x : Bool × Log} (h : Reserved s) (hops : s.ops p = some logged)
    (hbudget : (insert b logged).card ≤ MAXOPBLOCKS) (hwrite : logWrite s.log b = .ok x) :
    Reserved ⟨x.2, Function.update s.ops p (some (insert b logged))⟩ := by
  have hsum := Arith.sum_update_add remaining s.ops p (some (insert b logged))
  have hcount := Arith.sum_update_add inOp s.ops p (some (insert b logged))
  rw [hops, inOp, inOp, Nat.add_right_cancel_iff] at hcount
  rw [hops, remaining, remaining] at hsum
  have hroom := h.room
  -- a block that is new to the log is new to the operation, which has one block less to log
  have hcard : b ∉ s.log.lh → (insert b logged).card = logged.card + 1 := fun hb ↦
    Finset.card_insert_of_notMem fun hmem ↦ hb (h.logged p logged hops b hmem)
  have hmono : logged.card ≤ (insert b logged).card := Finset.card_le_card (Finset.subset_insert b _)
  have hnew : ∀ lh, b ∈ lh → s.log.lh ⊆ lh → ∀ l, some (insert b logged) = some l →
      ∀ c ∈ l, c ∈ lh := by
    intro lh hb hsub l hl c hc
    obtain rfl := Option.some.inj hl
    rcases Finset.mem_insert.mp hc with rfl | hc
    · exact hb
    · exact hsub (h.logged p logged hops c hc)
  rw [Logging.logWrite] at hwrite
  split_ifs at hwrite with hfull hout hmem
  · obtain rfl := Except.ok.inj hwrite
    have hsub := List.Subset.refl s.log.lh
    refine ⟨h.size, h.outstanding.trans hcount.symm, h.committing,
      h.logged_update (hnew _ hmem hsub) hsub p, ?_⟩
    dsimp only
    omega
  · obtain rfl := Except.ok.inj hwrite
    have hone := hcard hmem
    have hsub := List.subset_append_left s.log.lh [b]
    refine ⟨h.size, h.outstanding.trans hcount.symm, h.committing,
      h.logged_update (hnew _ (by simp) hsub) hsub p, ?_⟩
    dsimp only
    rw [List.length_append, List.length_singleton]
    omega

theorem Reserved.endOp {x : Bool × Log} (h : Reserved s) (hops : s.ops p = some logged)
    (hend : endOp s.log = .ok x) : Reserved ⟨x.2, Function.update s.ops p none⟩ := by
  have hsum := Arith.sum_update_add remaining s.ops p none
  have hcount := Arith.sum_update_add inOp s.ops p none
  rw [hops, inOp, inOp] at hcount
  rw [hops, remaining, remaining] at hsum
  have hroom := h.room
  have houtstanding := h.outstanding
  have hlogged := h.logged_update (o := none) (fun l hl ↦ by simp at hl)
    (List.Subset.refl s.log.lh) p
  simp only [Logging.endOp] at hend
  split_ifs at hend with hcommitting hzero
  · obtain rfl := Except.ok.inj hend
    refine ⟨h.size, ?_, fun _ ↦ hzero, hlogged, ?_⟩ <;> dsimp only <;> omega
  · obtain rfl := Except.ok.inj hend
    refine ⟨h.size, ?_, fun hc ↦ absurd hc hcommitting, hlogged, ?_⟩ <;> dsimp only <;> omega

theorem Reserved.committed (h : Reserved s) (hcommitting : s.log.committing = true) :
    Reserved ⟨{ s.log with lh := [], committing := false }, s.ops⟩ := by
  have hops := h.ops_eq_none hcommitting
  refine ⟨h.size, h.outstanding, fun hc ↦ (by simp at hc), fun p l hp ↦ ?_, ?_⟩
  · simp [hops p] at hp
  · simp [hops, remaining]

theorem Reserved.next {e : OpsEvent} (h : Reserved s) (hbudget : WithinBudget s e)
    (hroom : AdmitsRoom s e) (hnext : operations.next s e = some s') : Reserved s' := by
  cases e with
  | beginOp p =>
    simp only [operations, Option.ite_none_right_eq_some, Option.map_eq_some_iff] at hnext
    obtain ⟨hops, log, hbegin, rfl⟩ := hnext
    exact h.beginOp hops hroom hbegin
  | logWrite p b =>
    obtain ⟨logged, hops, hcard⟩ := hbudget
    simp only [operations, hops, Option.bind_some, Option.map_eq_some_iff] at hnext
    obtain ⟨x, hwrite, rfl⟩ := hnext
    exact h.logWrite hops hcard (Fallible.toOption_eq_some.mp hwrite)
  | endOp p =>
    simp only [operations, Option.bind_eq_some_iff, Option.map_eq_some_iff] at hnext
    obtain ⟨logged, hops, x, hend, rfl⟩ := hnext
    exact h.endOp hops (Fallible.toOption_eq_some.mp hend)
  | committed =>
    simp only [operations, Option.ite_none_right_eq_some, Option.some.injEq] at hnext
    obtain ⟨hcommitting, rfl⟩ := hnext
    exact h.committed hcommitting

theorem reserved_start : Reserved operations.start := by
  refine ⟨rfl, ?_, fun h ↦ (by simp [operations, mkfsLog] at h), fun p l hp ↦ ?_, ?_⟩
  · simp [operations, mkfsLog, inOp]
  · simp [operations] at hp
  · simp [operations, mkfsLog, remaining]

/-- If operations stay within their budget and `begin_op` admits one only if the blocks logged so far
and the budgets of all operations under way fill at most two blocks less than the log has, no
`log_write` finds the transaction too big. -/
theorem log_write_fits {s : OpsState}
    (hs : operations.Reachable (fun s e ↦ WithinBudget s e ∧ AdmitsRoom s e) s) (b : BlockNo) :
    logWrite s.log b ≠ .error .tooBigATransaction := by
  have hinv : Reserved s := by
    refine hs.invariant Reserved reserved_start fun s e s' h hgood hnext ↦ ?_
    exact h.next hgood.1 hgood.2 hnext
  exact hinv.logWrite_ne_tooBig b

instance (s : OpsState) (p : Slot) (b : BlockNo) : Decidable (Budgeted s p b) :=
  match h : s.ops p with
  | none => isFalse fun ⟨_, hops, _⟩ ↦ by simp [h] at hops
  | some logged => decidable_of_iff ((insert b logged).card ≤ MAXOPBLOCKS)
      ⟨fun hcard ↦ ⟨logged, h, hcard⟩, fun ⟨_, hops, hcard⟩ ↦ by
        obtain rfl := Option.some.inj (h.symm.trans hops); exact hcard⟩

instance (s : OpsState) : (e : OpsEvent) → Decidable (WithinBudget s e)
  | .logWrite p b => inferInstanceAs (Decidable (Budgeted s p b))
  | .beginOp _ | .endOp _ | .committed => inferInstanceAs (Decidable True)

instance (s : OpsState) : (e : OpsEvent) → Decidable (AdmitsRoom s e)
  | .beginOp _ => inferInstanceAs (Decidable (_ ≤ _))
  | .logWrite _ _ | .endOp _ | .committed => inferInstanceAs (Decidable True)

/-- Two operations that log a block each. -/
theorem log_write_fits_two_operations :
    ∃ s, operations.Reachable (fun s e ↦ WithinBudget s e ∧ AdmitsRoom s e) s ∧
      Budgeted s 1 101 ∧ logWrite s.log 101 ≠ .error .tooBigATransaction := by
  obtain ⟨s, hs, hbudget⟩ := operations.exists_reachable
    (fun s e ↦ WithinBudget s e ∧ AdmitsRoom s e) (fun s ↦ Budgeted s 1 101)
    [.beginOp 0, .beginOp 1, .logWrite 0 100] (by decide +kernel)
  exact ⟨s, hs, hbudget, log_write_fits hs 101⟩

def logBlocks (p : Slot) (b n : ℕ) : List OpsEvent :=
  (List.range n).map fun i ↦ .logWrite p (UInt32.ofNat (b + i))

/-- Three operations are admitted, each with at most `MAXOPBLOCKS` blocks, and the last block of the
third is too much. -/
theorem log_write_panics :
    ∃ s, operations.Reachable WithinBudget s ∧
      ∃ p b, Budgeted s p b ∧ logWrite s.log b = .error .tooBigATransaction := by
  obtain ⟨s, hs, hpanic⟩ := operations.exists_reachable WithinBudget
    (fun s ↦ Budgeted s 2 129 ∧ logWrite s.log 129 = .error .tooBigATransaction)
    ([OpsEvent.beginOp 0, .beginOp 1, .beginOp 2] ++ logBlocks 0 100 10 ++ logBlocks 1 110 10 ++
      logBlocks 2 120 9) (by decide +kernel)
  exact ⟨s, hs, 2, 129, hpanic⟩

end EnhancedXv6.Logging
