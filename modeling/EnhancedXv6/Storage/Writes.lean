import Mathlib.Data.List.Nodup
import Mathlib.Logic.Function.Basic
import Mathlib.Tactic.Common

/-!
# Ordered writes to a store

A store is a function from keys to values and a program is known by the writes it issues.  A store
that loses power keeps a prefix of them: `applyWrites s (ws.take n)`.
-/

namespace EnhancedXv6.Storage

variable {K V : Type*} [DecidableEq K]

def applyWrites (s : K → V) (ws : List (K × V)) : K → V :=
  ws.foldl (fun s w ↦ Function.update s w.1 w.2) s

variable {s : K → V} {ws : List (K × V)} {k : K}

@[simp] theorem applyWrites_nil (s : K → V) : applyWrites s [] = s := rfl

@[simp] theorem applyWrites_cons (s : K → V) (w : K × V) (ws : List (K × V)) :
    applyWrites s (w :: ws) = applyWrites (Function.update s w.1 w.2) ws := rfl

theorem applyWrites_append (s : K → V) (ws ws' : List (K × V)) :
    applyWrites s (ws ++ ws') = applyWrites (applyWrites s ws) ws' :=
  List.foldl_append

theorem applyWrites_of_notMem (h : k ∉ ws.map Prod.fst) : applyWrites s ws k = s k := by
  induction ws generalizing s with
  | nil => rfl
  | cons w ws ih =>
    rw [List.map_cons, List.mem_cons, not_or] at h
    rw [applyWrites_cons, ih h.2, Function.update_of_ne h.1]

theorem applyWrites_of_mem {v : V} (hdistinct : (ws.map Prod.fst).Nodup) (h : (k, v) ∈ ws) :
    applyWrites s ws k = v := by
  induction ws generalizing s with
  | nil => simp at h
  | cons w ws ih =>
    rw [List.map_cons, List.nodup_cons] at hdistinct
    rw [applyWrites_cons]
    rcases List.mem_cons.mp h with rfl | h
    · rw [applyWrites_of_notMem hdistinct.1, Function.update_self]
    · exact ih hdistinct.2 h

/-- A key that is written has one of the values written to it. -/
theorem applyWrites_mem (h : k ∈ ws.map Prod.fst) : (k, applyWrites s ws k) ∈ ws := by
  induction ws generalizing s with
  | nil => cases h
  | cons w ws ih =>
    rw [applyWrites_cons]
    by_cases hk : k ∈ ws.map Prod.fst
    · exact List.mem_cons_of_mem w (ih hk)
    · rw [List.map_cons, List.mem_cons, or_iff_left hk] at h
      rw [applyWrites_of_notMem hk, h, Function.update_self]
      exact List.mem_cons_self

variable [BEq K] [LawfulBEq K]

/-- The value of a key after the writes: what was written to it last, if anything was. -/
theorem applyWrites_apply (s : K → V) (ws : List (K × V)) (k : K) :
    applyWrites s ws k = (ws.reverse.lookup k).getD (s k) := by
  induction ws generalizing s with
  | nil => rfl
  | cons w ws ih =>
    rw [applyWrites_cons, ih, List.reverse_cons, List.lookup_append]
    cases ws.reverse.lookup k with
    | some v => rfl
    | none =>
      obtain ⟨key, v⟩ := w
      by_cases hk : k = key
      · simp [hk]
      · simp [List.lookup_cons, beq_false_of_ne hk, hk]

/-- Writes go unnoticed if and only if each key they reach already has the value written to it last. -/
theorem applyWrites_eq_self_iff :
    applyWrites s ws = s ↔ ∀ k v, ws.reverse.lookup k = some v → s k = v := by
  constructor
  · intro h k v hlast
    rw [← h, applyWrites_apply, hlast, Option.getD_some]
  · intro h
    funext k
    rw [applyWrites_apply]
    cases hlast : ws.reverse.lookup k with
    | none => rfl
    | some v => exact (h k v hlast).symm

end EnhancedXv6.Storage
