import EnhancedXv6.Memory.Shared
import EnhancedXv6.Resource.Radix
import Mathlib.Tactic.IntervalCases
import Mathlib.Tactic.NormNum

/-!
# Page tables

A page table of vm.c is a tree of three levels whose nodes are labelled with their pages.  An entry
that is not valid is absent; a valid one at the lowest level has a page and the bits `PTE_R`, `PTE_W`,
`PTE_X` and `PTE_U`.  `Maps` describes a table by what it has for each page number.
-/

namespace EnhancedXv6.Vm

open Radix Memory Resource

abbrev MAXVA : ℕ := 2 ^ 38
abbrev TRAMPOLINE : ℕ := MAXVA - PGSIZE
abbrev TRAPFRAME : ℕ := TRAMPOLINE - PGSIZE

/-- The bits of an entry, `PTE_V` apart. -/
structure Perm where
  r : Bool := false
  w : Bool := false
  x : Bool := false
  u : Bool := false
  deriving DecidableEq

structure Pte where
  pa : Page
  perm : Perm
  deriving DecidableEq

def px (va level : ℕ) : Fin 512 := ⟨va / 2 ^ (12 + 9 * level) % 512, Nat.mod_lt _ (by decide)⟩

abbrev Table := Tree Page (Fin 512) Pte 3

def Table.get (t : Table) (va : ℕ) : Option Pte := lookup 3 t (px va)

def Table.put (t : Table) (va : ℕ) (pte : Option Pte) : Table := write 2 t (px va) pte

/-! ## Page numbers -/

abbrev PAGES : ℕ := 2 ^ 27

theorem px_page (k level : ℕ) : (px (k * PGSIZE) level : ℕ) = k / 512 ^ level % 512 := by
  have hsplit : 2 ^ (12 + 9 * level) = PGSIZE * 512 ^ level := by
    rw [pow_add, pow_mul]
    rfl
  rw [px]
  simp only
  rw [hsplit, ← Nat.div_div_eq_div_mul, Nat.mul_div_cancel _ (by decide)]

/-- A page is determined by its three indices. -/
theorem page_eq_of_px {k k' : ℕ} (hk : k < PAGES) (hk' : k' < PAGES)
    (h : ∀ level < 3, px (k * PGSIZE) level = px (k' * PGSIZE) level) : k = k' := by
  have hlevel : ∀ level < 3, k / 512 ^ level % 512 = k' / 512 ^ level % 512 := by
    intro level hlt
    rw [← px_page, ← px_page, h level hlt]
  have h0 := hlevel 0 (by omega)
  have h1 := hlevel 1 (by omega)
  have h2 := hlevel 2 (by omega)
  simp only [PAGES] at hk hk'
  norm_num at h0 h1 h2
  omega

theorem exists_page (path : ℕ → Fin 512) :
    ∃ k < PAGES, ∀ level < 3, px (k * PGSIZE) level = path level := by
  have h0 := (path 0).isLt
  have h1 := (path 1).isLt
  have h2 := (path 2).isLt
  refine ⟨(path 2 : ℕ) * 512 ^ 2 + (path 1 : ℕ) * 512 + path 0, ?_, ?_⟩
  · simp only [PAGES]
    omega
  · intro level hlt
    apply Fin.ext
    rw [px_page]
    interval_cases level
    · norm_num
      omega
    · norm_num
      omega
    · norm_num
      omega

/-! ## Tables as maps -/

/-- The table has the entries `m`, by page number. -/
def Maps (t : Table) (m : ℕ → Option Pte) : Prop := ∀ k < PAGES, t.get (k * PGSIZE) = m k

theorem Maps.congr {t : Table} {m m' : ℕ → Option Pte} (h : Maps t m)
    (hm : ∀ k < PAGES, m k = m' k) : Maps t m' :=
  fun k hk ↦ (h k hk).trans (hm k hk)

theorem maps_empty (pg : Page) : Maps (empty 2 pg) fun _ ↦ none := fun _ _ ↦ rfl

/-- Writing an entry whose node is there. -/
theorem Maps.put {t : Table} {m : ℕ → Option Pte} (h : Maps t m) {k : ℕ} (hk : k < PAGES)
    (hpath : HasPath 2 t (px (k * PGSIZE))) (pte : Option Pte) :
    Maps (t.put (k * PGSIZE) pte) (Function.update m k pte) := by
  intro k' hk'
  by_cases heq : k' = k
  · subst heq
    rw [Function.update_self]
    exact lookup_write_self hpath
  · rw [Function.update_of_ne heq, ← h k' hk']
    have hne : ∃ level < 3, px (k' * PGSIZE) level ≠ px (k * PGSIZE) level := by
      by_contra hall
      push Not at hall
      exact heq (page_eq_of_px hk' hk hall)
    obtain ⟨level, hlt, hne⟩ := hne
    exact lookup_write_of_ne (by omega) hne

theorem Maps.bare {t : Table} (h : Maps t fun _ ↦ none) : Bare 2 t := by
  apply bare_of_lookup
  intro path
  obtain ⟨k, hk, hpath⟩ := exists_page path
  have hnone : lookup 3 t (px (k * PGSIZE)) = none := h k hk
  rw [← hnone]
  exact lookup_congr fun level hlt ↦ (hpath level hlt).symm

/-! ## Pages of a table -/

@[irreducible] def res {n : ℕ} (t : Tree Page (Fin 512) Pte n) : Held := (nodes n t).map Token.page

theorem res_empty (n : ℕ) (pg : Page) :
    res (empty n pg : Tree Page (Fin 512) Pte (n + 1)) = {.page pg} := by
  rw [res, nodes_empty, Multiset.map_singleton]

theorem res_put (t : Table) (va : ℕ) (pte : Option Pte) : res (t.put va pte) = res t := by
  rw [res, res]
  exact congrArg (Multiset.map Token.page) (nodes_write t (px va) pte)

theorem map_elim_nodes {n : ℕ} (o : Option (Tree Page (Fin 512) Pte n)) :
    (o.elim 0 (nodes n)).map Token.page = o.elim 0 res := by
  cases o with
  | none => rfl
  | some t => rw [Option.elim_some, Option.elim_some, res]

theorem res_setEntry {n : ℕ} (t : Tree Page (Fin 512) Pte (n + 1)) (i : Fin 512)
    (child : Option (Tree Page (Fin 512) Pte n)) :
    res (setEntry t i child) + (t.entry i).elim 0 res =
      res t + child.elim 0 res := by
  have hnodes := congrArg (Multiset.map Token.page) (nodes_setEntry t i child)
  rw [Multiset.map_add, Multiset.map_add, map_elim_nodes, map_elim_nodes] at hnodes
  rw [res, res]
  exact hnodes

end EnhancedXv6.Vm
