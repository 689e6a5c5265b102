import Mathlib.Data.Vector.Basic
import Mathlib.Tactic.Common

/-!
# Fixed arrays used as queues by shifting

A C array `T *a[n]` is a `Vector (Option α) n`, where `none` is the null pointer.  Accesses take a
signed index and are checked: an index outside `[0, n)` is returned as the error, so a loop over the
array either stays inside it or reports the first index at which it left it.

`shiftDown` and `shiftUp` are the two copying loops of an array-backed queue.  `Holds a xs` says that
the array starts with the pointers to `xs`.
-/

namespace EnhancedXv6.Buffer

variable {α : Type*} {n : ℕ}

/-! ## Checked accesses -/

def readAt (a : Vector α n) (i : ℤ) : Except ℤ α :=
  if h : 0 ≤ i ∧ i < n then .ok (a.get ⟨i.toNat, by omega⟩) else .error i

def writeAt (a : Vector α n) (i : ℤ) (v : α) : Except ℤ (Vector α n) :=
  if h : 0 ≤ i ∧ i < n then .ok (a.set i.toNat v (by omega)) else .error i

theorem readAt_natCast (a : Vector α n) {i : ℕ} (h : i < n) :
    readAt a (i : ℤ) = .ok a[i] := by
  have hbound : (0 : ℤ) ≤ i ∧ (i : ℤ) < n := by omega
  rw [readAt, dif_pos hbound]
  rfl

theorem readAt_of_le (a : Vector α n) {i : ℤ} (h : n ≤ i) : readAt a i = .error i := by
  rw [readAt, dif_neg (by omega)]

theorem writeAt_natCast (a : Vector α n) {i : ℕ} (v : α) (h : i < n) :
    writeAt a (i : ℤ) v = .ok (a.set i v h) := by
  have hbound : (0 : ℤ) ≤ i ∧ (i : ℤ) < n := by omega
  rw [writeAt, dif_pos hbound]
  rfl

theorem writeAt_of_le (a : Vector α n) {i : ℤ} (v : α) (h : n ≤ i) :
    writeAt a i v = .error i := by
  rw [writeAt, dif_neg (by omega)]

/-! ## The two shifting loops -/

def shiftDown : ℕ → ℕ → Vector α n → Except ℤ (Vector α n)
  | 0, _, a => .ok a
  | k + 1, i, a => do
    let v ← readAt a ((i + 1 : ℕ) : ℤ)
    let b ← writeAt a (i : ℤ) v
    shiftDown k (i + 1) b

def shiftUp : ℕ → Vector α n → Except ℤ (Vector α n)
  | 0, a => .ok a
  | k + 1, a => do
    let v ← readAt a (k : ℤ)
    let b ← writeAt a ((k + 1 : ℕ) : ℤ) v
    shiftUp k b

/-- A downward shift that stays inside the array moves each cell of its range one place down. -/
theorem shiftDown_spec (k i : ℕ) (a : Vector α n) (h : i + k < n) :
    ∃ b, shiftDown k i a = .ok b ∧
      ∀ j, b[j]? = if i ≤ j ∧ j < i + k then a[j + 1]? else a[j]? := by
  induction k generalizing i a with
  | zero =>
    refine ⟨a, rfl, fun j ↦ ?_⟩
    rw [if_neg (by omega)]
  | succ k ih =>
    obtain ⟨b, hb, hcell⟩ := ih (i + 1) (a.set i a[i + 1]) (by omega)
    refine ⟨b, ?_, fun j ↦ ?_⟩
    · rw [shiftDown, readAt_natCast a (by omega)]
      change (writeAt a (i : ℤ) a[i + 1] >>= shiftDown k (i + 1)) = _
      rw [writeAt_natCast a _ (by omega)]
      exact hb
    · rw [hcell]
      grind

/-- An upward shift that stays inside the array moves the first `k` cells one place up. -/
theorem shiftUp_spec (k : ℕ) (a : Vector α n) (h : k < n) :
    ∃ b, shiftUp k a = .ok b ∧
      ∀ j, b[j]? = if 0 < j ∧ j ≤ k then a[j - 1]? else a[j]? := by
  induction k generalizing a with
  | zero =>
    refine ⟨a, rfl, fun j ↦ ?_⟩
    rw [if_neg (by omega)]
  | succ k ih =>
    obtain ⟨b, hb, hcell⟩ := ih (a.set (k + 1) a[k]) (by omega)
    refine ⟨b, ?_, fun j ↦ ?_⟩
    · rw [shiftUp, readAt_natCast a (by omega)]
      change (writeAt a ((k + 1 : ℕ) : ℤ) a[k] >>= shiftUp k) = _
      rw [writeAt_natCast a _ (by omega)]
      exact hb
    · rw [hcell]
      grind

/-- An upward shift that succeeds leaves room past the cells it moves. -/
theorem lt_of_shiftUp_eq_ok {k : ℕ} {a b : Vector α n} (h : shiftUp k a = .ok b) :
    k = 0 ∨ k < n := by
  cases k with
  | zero => exact .inl rfl
  | succ k =>
    right
    by_contra hle
    rw [shiftUp] at h
    rcases Nat.lt_or_ge k n with hk | hk
    · rw [readAt_natCast a hk] at h
      change (writeAt a ((k + 1 : ℕ) : ℤ) a[k] >>= shiftUp k) = _ at h
      rw [writeAt_of_le a _ (by omega)] at h
      cases h
    · rw [readAt_of_le a (by omega)] at h
      cases h

/-! ## Arrays that hold a list -/

/-- The array starts with the pointers to the elements of `xs`. -/
def Holds (a : Vector (Option α) n) (xs : List α) : Prop :=
  ∀ i, i < xs.length → a[i]? = xs[i]?.map some

theorem Holds.nil (a : Vector (Option α) n) : Holds a [] := by
  intro i hi
  simp at hi

theorem Holds.length_le {a : Vector (Option α) n} {xs : List α} (h : Holds a xs) :
    xs.length ≤ n := by
  by_contra hlt
  have hcell := h n (by omega)
  rw [List.getElem?_eq_getElem (by omega)] at hcell
  simp at hcell

/-- The array determines the list it holds, up to its length. -/
theorem Holds.unique {a : Vector (Option α) n} {xs ys : List α} (hx : Holds a xs)
    (hy : Holds a ys) (hlen : xs.length = ys.length) : xs = ys := by
  refine List.ext_getElem? fun i ↦ ?_
  by_cases hi : i < xs.length
  · have hcell := (hx i hi).symm.trans (hy i (by omega))
    exact Option.map_injective (Option.some_injective _) hcell
  · rw [List.getElem?_eq_none (by omega), List.getElem?_eq_none (by omega)]

theorem Holds.append {a : Vector (Option α) n} {xs : List α} (h : Holds a xs) (x : α)
    (hlt : xs.length < n) : Holds (a.set xs.length (some x)) (xs ++ [x]) := by
  intro i hi
  have hcell := h i
  grind

theorem Holds.front {a : Vector (Option α) n} {x : α} {xs : List α} (h : Holds a (x :: xs))
    (hn : 0 < n) : a[0] = some x := by
  have hcell := h 0 (by simp)
  rw [Vector.getElem?_eq_getElem hn] at hcell
  simpa using hcell

/-- Clearing the front and shifting the whole array down drops the front element. -/
theorem Holds.dropFront {a : Vector (Option α) n} {x : α} {xs : List α} (h : Holds a (x :: xs))
    (hn : 0 < n) :
    ∃ b, shiftDown (n - 1) 0 (a.set 0 none) = .ok b ∧ Holds b xs := by
  obtain ⟨b, hb, hcell⟩ := shiftDown_spec (n - 1) 0 (a.set 0 none) (by omega)
  refine ⟨b, hb, fun i hi ↦ ?_⟩
  have hlen := h.length_le
  have hnext := h (i + 1) (by simpa using hi)
  have hlt : i + 1 < n := by simp only [List.length_cons] at hlen; omega
  rw [hcell, if_pos (by omega)]
  grind

/-- Shifting up by one more than the length and writing the first cell pushes at the front. -/
theorem Holds.pushFront {a : Vector (Option α) n} {xs : List α} (h : Holds a xs) (x : α)
    (hlt : xs.length + 1 < n) :
    ∃ b, shiftUp (xs.length + 1) a = .ok b ∧ Holds (b.set 0 (some x)) (x :: xs) := by
  obtain ⟨b, hb, hcell⟩ := shiftUp_spec (xs.length + 1) a hlt
  refine ⟨b, hb, fun i hi ↦ ?_⟩
  cases i with
  | zero => simp
  | succ i =>
    have hi' : i < xs.length := by simpa using hi
    have hold := h i hi'
    have hnew := hcell (i + 1)
    rw [if_pos (by omega)] at hnew
    grind

end EnhancedXv6.Buffer
