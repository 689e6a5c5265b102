import EnhancedXv6.Vm.Model
import Mathlib.Algebra.BigOperators.Fin

/-!
# One page table

What `walk`, `mappages`, `uvmunmap` and `freewalk` do to a table and to the pages that its owner
holds.
-/

namespace EnhancedXv6.Vm

open Radix Memory Resource

variable {ram : Ram} {h : Held}

/-! ## Entries of a node -/

section

variable {n : ℕ} {t : Tree Page (Fin 512) Pte (n + 1)} {i : Fin 512}
  {child : Tree Page (Fin 512) Pte n}

theorem setEntry_setEntry (o o' : Option (Tree Page (Fin 512) Pte n)) :
    setEntry (setEntry t i o) i o' = setEntry t i o' := by
  simp only [setEntry, Function.update_idem]
  rfl

theorem setEntry_self (hi : t.entry i = some child) : setEntry t i (some child) = t := by
  rw [setEntry, ← hi, Function.update_eq_self]
  rfl

theorem res_join :
    res (setEntry t i (some child)) = res child + res (setEntry t i none) := by
  have hset := res_setEntry (setEntry t i none) i (some child)
  rw [setEntry_setEntry] at hset
  simpa [setEntry, add_comm] using hset

theorem res_split (hi : t.entry i = some child) : res t = res child + res (setEntry t i none) := by
  rw [← res_join, setEntry_self hi]

theorem res_unset (hi : t.entry i = none) : res (setEntry t i none) = res t := by
  have hset := res_setEntry t i none
  simpa [hi] using hset

theorem lookup_setEntry_congr {child' : Tree Page (Fin 512) Pte n} (hi : t.entry i = some child)
    (hchild : ∀ path, lookup n child' path = lookup n child path) (path : ℕ → Fin 512) :
    lookup (n + 1) (setEntry t i (some child')) path = lookup (n + 1) t path := by
  by_cases heq : path n = i
  · subst heq
    rw [lookup_setEntry_self, Option.bind_some, hchild, lookup, hi, Option.bind_some]
  · exact lookup_setEntry_of_ne heq

theorem lookup_setEntry_empty {child' : Tree Page (Fin 512) Pte n} (hi : t.entry i = none)
    (hchild : ∀ path, lookup n child' path = none) (path : ℕ → Fin 512) :
    lookup (n + 1) (setEntry t i (some child')) path = lookup (n + 1) t path := by
  by_cases heq : path n = i
  · subst heq
    rw [lookup_setEntry_self, Option.bind_some, hchild, lookup, hi, Option.bind_none]
  · exact lookup_setEntry_of_ne heq

end

/-! ## walk -/

/-- `walk` with `alloc` may add nodes, but no entries; where it finds an entry, the nodes are there. -/
theorem wp_walkFrom {path : ℕ → Fin 512} {n : ℕ} {t : Tree Page (Fin 512) Pte (n + 1)}
    {Q : Bool × Tree Page (Fin 512) Pte (n + 1) → Held → Prop}
    (hQ : ∀ found t', (∀ path', lookup (n + 1) t' path' = lookup (n + 1) t path') →
      (found = true → HasPath n t' path) → Q (found, t') (res t' + h)) :
    (walkFrom true path n t).wp (Balanced ram) Q (res t + h) := by
  induction n generalizing h with
  | zero => exact Prog.wp_pure (hQ true t (fun _ ↦ rfl) fun _ ↦ trivial)
  | succ n ih =>
    rw [walkFrom]
    cases hi : t.entry (path (n + 1)) with
    | some child =>
      rw [res_split hi, Multiset.add_assoc]
      apply Prog.wp_bind
      apply ih
      intro found child' hlookup hpath
      apply Prog.wp_pure
      rw [← Multiset.add_assoc, ← res_join]
      apply hQ
      · exact lookup_setEntry_congr hi hlookup
      · intro hfound
        exact ⟨child', by simp [setEntry], hpath hfound⟩
    | none =>
      apply Prog.wp_bind
      apply wp_kalloc
      · exact Prog.wp_pure (hQ false t (fun _ ↦ rfl) fun h ↦ absurd h Bool.false_ne_true)
      · intro pg
        apply Prog.wp_bind
        have hres : res t + h + {Token.page pg} =
            res (empty n pg : Tree Page (Fin 512) Pte (n + 1)) +
              (res (setEntry t (path (n + 1)) none) + h) := by
          rw [res_empty, res_unset hi, Multiset.add_comm, Multiset.singleton_add]
        rw [hres]
        apply ih
        intro found child' hlookup hpath
        apply Prog.wp_pure
        rw [← Multiset.add_assoc, ← res_join]
        apply hQ
        · exact lookup_setEntry_empty hi hlookup
        · intro hfound
          exact ⟨child', by simp [setEntry], hpath hfound⟩

theorem walkFrom_of_hasPath {path : ℕ → Fin 512} {n : ℕ} {t : Tree Page (Fin 512) Pte (n + 1)}
    (hpath : HasPath n t path) : walkFrom false path n t = pure (true, t) := by
  induction n with
  | zero => rfl
  | succ n ih =>
    obtain ⟨child, hi, hpath⟩ := hpath
    rw [walkFrom, hi]
    simp only [ih hpath]
    show (pure (true, setEntry t (path (n + 1)) (some child)) : Prog Shared _) = _
    rw [setEntry_self hi]

abbrev VAPAGES : ℕ := 2 ^ 26

theorem lt_maxva {k : ℕ} (hk : k < VAPAGES) : ¬ k * PGSIZE ≥ MAXVA := by
  simp only [VAPAGES, PGSIZE, MAXVA] at hk ⊢
  omega

theorem vapages_lt {k : ℕ} (hk : k < VAPAGES) : k < PAGES := by
  simp only [VAPAGES, PAGES] at hk ⊢
  omega

theorem walk_of_get {t : Table} {k : ℕ} {pte : Pte} (hk : k < VAPAGES)
    (hget : t.get (k * PGSIZE) = some pte) :
    walk t (k * PGSIZE) false = pure (true, t) ∧ HasPath 2 t (px (k * PGSIZE)) := by
  have hpath : HasPath 2 t (px (k * PGSIZE)) := hasPath_of_lookup hget
  refine ⟨?_, hpath⟩
  rw [walk, if_neg (lt_maxva hk), walkFrom_of_hasPath hpath]

/-! ## mappages -/

theorem pgRoundDown_page (k : ℕ) : pgRoundDown (k * PGSIZE) = k * PGSIZE := by
  rw [pgRoundDown, Nat.mul_div_cancel _ (by decide)]

theorem pgRoundUp_page (k : ℕ) : pgRoundUp (k * PGSIZE) = k * PGSIZE := by
  simp only [pgRoundUp, PGSIZE]
  omega

/-- Mapping one page that is not mapped. -/
theorem wp_mappages {t : Table} {m : ℕ → Option Pte} {k : ℕ} {pa : Page} {perm : Perm}
    {Q : Bool × Table → Held → Prop} (hm : Maps t m) (hk : k < VAPAGES) (hfree : m k = none)
    (hfail : ∀ t', Maps t' m → Q (false, t') (res t' + h))
    (hok : ∀ t', Maps t' (Function.update m k (some ⟨pa, perm⟩)) → Q (true, t') (res t' + h)) :
    (mappages t (k * PGSIZE) PGSIZE pa perm).wp (Balanced ram) Q (res t + h) := by
  have hlast : pgRoundDown (k * PGSIZE + PGSIZE - 1) = k * PGSIZE := by
    simp only [pgRoundDown, PGSIZE]
    omega
  rw [mappages, if_neg (by decide)]
  simp only [hlast, pgRoundDown_page, Nat.sub_self, Nat.zero_div]
  rw [mapLoop.eq_def]
  apply Prog.wp_bind
  rw [walk, if_neg (lt_maxva hk)]
  apply wp_walkFrom
  intro found t' hlookup hpath
  have hm' : Maps t' m := by
    intro k' hk'
    rw [← hm k' hk']
    exact hlookup (px (k' * PGSIZE))
  cases found with
  | false => exact Prog.wp_pure (hfail t' hm')
  | true =>
    have hget : Table.get t' (k * PGSIZE) = none := (hm' k (vapages_lt hk)).trans hfree
    simp only [Bool.true_eq_false, if_false, hget, Option.isSome_none, Bool.false_eq_true]
    apply Prog.wp_pure
    rw [← res_put t' (k * PGSIZE) (some ⟨pa, perm⟩)]
    exact hok _ (hm'.put (vapages_lt hk) (hpath rfl) _)

/-! ## User pages -/

/-- A page that is mapped for the user, with its contents. -/
structure UPage where
  pa : Page
  perm : Perm
  bytes : Bytes

def UPage.pte (u : UPage) : Pte := ⟨u.pa, u.perm⟩

def UPage.tok (u : UPage) : Token := .data u.pa u.bytes

def dataOf (ups : List UPage) : Held := (ups.map UPage.tok : List Token)

@[simp] theorem dataOf_nil : dataOf [] = 0 := rfl

theorem dataOf_cons (u : UPage) (ups : List UPage) : dataOf (u :: ups) = dataOf ups + {u.tok} := by
  rw [dataOf, List.map_cons, ← Multiset.cons_coe, ← Multiset.singleton_add, add_comm]
  rfl

theorem dataOf_append (ups ups' : List UPage) :
    dataOf (ups ++ ups') = dataOf ups + dataOf ups' := by
  rw [dataOf, List.map_append, ← Multiset.coe_add]
  rfl

theorem dataOf_concat (ups : List UPage) (u : UPage) : dataOf (ups ++ [u]) = dataOf ups + {u.tok} := by
  rw [dataOf_append, dataOf_cons, dataOf_nil, Multiset.zero_add]

theorem card_pagesOf_dataOf (ups : List UPage) : (pagesOf (dataOf ups)).card = ups.length := by
  induction ups with
  | nil => rfl
  | cons u ups ih =>
    rw [dataOf_cons, pagesOf_add, Multiset.card_add, ih, pagesOf_singleton, UPage.tok, pages_data,
      Multiset.card_singleton, List.length_cons]

/-- The map `m` with these pages from page `base` on. -/
def overlay (m : ℕ → Option Pte) (base : ℕ) (ups : List UPage) (k : ℕ) : Option Pte :=
  if k < base then m k else (ups[k - base]?).elim (m k) fun u ↦ some u.pte

@[simp] theorem overlay_nil (m : ℕ → Option Pte) (base : ℕ) : overlay m base [] = m := by
  funext k
  simp [overlay]

theorem overlay_cons (m : ℕ → Option Pte) (base : ℕ) (u : UPage) (ups : List UPage) :
    overlay m base (u :: ups) = Function.update (overlay m (base + 1) ups) base (some u.pte) := by
  funext k
  by_cases hk : k = base
  · subst hk
    simp [overlay]
  · rw [Function.update_of_ne hk]
    simp only [overlay]
    by_cases hlt : k < base
    · rw [if_pos hlt, if_pos (by omega)]
    · rw [if_neg hlt, if_neg (by omega), show k - base = (k - (base + 1)) + 1 by omega,
        List.getElem?_cons_succ]

theorem overlay_append (m : ℕ → Option Pte) (base : ℕ) (ups ups' : List UPage) :
    overlay m base (ups ++ ups') = overlay (overlay m base ups) (base + ups.length) ups' := by
  funext k
  simp only [overlay]
  by_cases hlt : k < base
  · rw [if_pos hlt, if_pos hlt, if_pos (by omega)]
  · rw [if_neg hlt, if_neg hlt]
    by_cases hin : k - base < ups.length
    · rw [if_pos (by omega), List.getElem?_append_left hin]
    · rw [if_neg (by omega), List.getElem?_append_right (by omega),
        List.getElem?_eq_none (l := ups) (by omega), Option.elim_none, Nat.sub_sub]

theorem overlay_append_singleton (m : ℕ → Option Pte) (base : ℕ) (ups : List UPage) (u : UPage) :
    overlay m base (ups ++ [u]) =
      Function.update (overlay m base ups) (base + ups.length) (some u.pte) := by
  rw [overlay_append, overlay_cons, overlay_nil]

/-! ## uvmunmap -/

theorem wp_unmapLoop {ups : List UPage} {t : Table} {m : ℕ → Option Pte} {base : ℕ}
    {Q : Table → Held → Prop} (hm : Maps t (overlay m base ups))
    (hfree : ∀ k, base ≤ k → k < base + ups.length → m k = none)
    (hperm : ∀ u ∈ ups, u.perm ≠ {}) (hlast : base + ups.length ≤ VAPAGES)
    (hQ : ∀ t', Maps t' m → Q t' (res t' + h)) :
    (unmapLoop true ups.length t (base * PGSIZE)).wp (Balanced ram) Q
      (res t + dataOf ups + h) := by
  induction ups generalizing t base with
  | nil =>
    rw [overlay_nil] at hm
    rw [dataOf_nil, add_zero]
    exact Prog.wp_pure (hQ t hm)
  | cons u ups ih =>
    rw [List.length_cons] at hlast hfree
    have hbase : base < VAPAGES := by omega
    rw [overlay_cons] at hm
    have hget : t.get (base * PGSIZE) = some u.pte := by
      rw [hm base (vapages_lt hbase), Function.update_self]
    obtain ⟨hwalk, hpath⟩ := walk_of_get hbase hget
    rw [List.length_cons, unmapLoop, hwalk, Prog.pure_bind]
    simp only [Bool.true_eq_false, if_false, hget]
    rw [if_neg (show u.pte.perm ≠ {} from hperm u List.mem_cons_self), if_pos trivial]
    apply Prog.wp_bind
    have hheld : res t + dataOf (u :: ups) + h = res t + dataOf ups + h + {u.tok} := by
      rw [dataOf_cons, ← Multiset.add_assoc, add_right_comm]
    apply wp_kfree (.data u.bytes) hheld
    have hm' := hm.put (vapages_lt hbase) hpath none
    rw [Function.update_idem] at hm'
    have hrest : Maps (t.put (base * PGSIZE) none) (overlay m (base + 1) ups) := by
      refine hm'.congr fun k _ ↦ ?_
      by_cases hk : k = base
      · subst hk
        rw [Function.update_self, overlay, if_pos (by omega), hfree k le_rfl (by omega)]
      · rw [Function.update_of_ne hk]
    rw [← res_put t (base * PGSIZE) none, show base * PGSIZE + PGSIZE = (base + 1) * PGSIZE by
      rw [Nat.add_mul, Nat.one_mul]]
    apply ih hrest
    · intro k hle hlt
      exact hfree k (by omega) (by omega)
    · intro u' hu'
      exact hperm u' (List.mem_cons_of_mem _ hu')
    · omega

theorem wp_uvmunmap {ups : List UPage} {t : Table} {m : ℕ → Option Pte} {base : ℕ}
    {Q : Table → Held → Prop} (hm : Maps t (overlay m base ups))
    (hfree : ∀ k, base ≤ k → k < base + ups.length → m k = none)
    (hperm : ∀ u ∈ ups, u.perm ≠ {}) (hlast : base + ups.length ≤ VAPAGES)
    (hQ : ∀ t', Maps t' m → Q t' (res t' + h)) :
    (uvmunmap t (base * PGSIZE) ups.length true).wp (Balanced ram) Q
      (res t + dataOf ups + h) := by
  rw [uvmunmap, if_neg (by simp)]
  exact wp_unmapLoop hm hfree hperm hlast hQ

/-- Unmapping one page that is kept. -/
theorem wp_uvmunmap_keep {t : Table} {m : ℕ → Option Pte} {k : ℕ} {pte : Pte}
    {Q : Table → Held → Prop} (hm : Maps t m) (hk : k < VAPAGES) (hpte : m k = some pte)
    (hperm : pte.perm ≠ {}) (hQ : ∀ t', Maps t' (Function.update m k none) → Q t' (res t' + h)) :
    (uvmunmap t (k * PGSIZE) 1 false).wp (Balanced ram) Q (res t + h) := by
  have hget : t.get (k * PGSIZE) = some pte := (hm k (vapages_lt hk)).trans hpte
  obtain ⟨hwalk, hpath⟩ := walk_of_get hk hget
  rw [uvmunmap, if_neg (by simp), unmapLoop, hwalk, Prog.pure_bind]
  simp only [Bool.true_eq_false, if_false, hget]
  rw [if_neg hperm, if_neg (by decide)]
  apply Prog.wp_pure
  rw [← res_put t (k * PGSIZE) none]
  exact hQ _ (hm.put (vapages_lt hk) hpath none)

/-! ## freewalk -/

theorem sum_indices {M : Type} [AddCommMonoid M] {n : ℕ} (f : Fin n → M) :
    ((indices n).map f).sum = ∑ i, f i := by
  rw [indices, ← Fin.sum_univ_def]

theorem res_eq_sum {n : ℕ} (t : Tree Page (Fin 512) Pte (n + 1)) :
    res t = ((indices 512).map fun i ↦ (t.entry i).elim 0 res).sum + {.page t.label} := by
  have hnodes := map_sum (Multiset.mapAddMonoidHom Token.page)
    (fun i ↦ (t.entry i).elim 0 (nodes n)) Finset.univ
  simp only [Multiset.coe_mapAddMonoidHom, map_elim_nodes] at hnodes
  rw [sum_indices, res, nodes, Multiset.map_add, Multiset.map_singleton, Multiset.add_comm, hnodes]

/-- `freewalk` frees the pages of a table without leaves. -/
theorem wp_freewalk {n : ℕ} {t : Tree Page (Fin 512) Pte (n + 1)} {Q : Unit → Held → Prop}
    (hbare : Bare n t) (hQ : Q () h) : (freewalk n t).wp (Balanced ram) Q (res t + h) := by
  induction n generalizing h Q with
  | zero =>
    have hentry : ∀ i, t.entry i = none := hbare
    have hres : res t = {.page t.label} := by
      rw [res_eq_sum]
      simp [hentry]
    rw [freewalk]
    refine Prog.wp_bind ?_
    refine Prog.wp_forEach (fun (_ : List (Fin 512)) h' ↦ h' = res t + h) rfl ?_ ?_
    · intro h' hh'
      rw [hres, Multiset.add_comm] at hh'
      exact wp_kfree .page hh' hQ
    · intro i is h' hh'
      simp only [hentry i, Option.isSome_none, Bool.false_eq_true, if_false]
      exact Prog.wp_pure hh'
  | succ n ih =>
    rw [freewalk]
    refine Prog.wp_bind ?_
    refine Prog.wp_forEach (fun (is : List (Fin 512)) h' ↦
      h' = (is.map fun i ↦ (t.entry i).elim 0 res).sum + ({.page t.label} + h)) ?_ ?_ ?_
    · rw [res_eq_sum, Multiset.add_assoc]
    · rintro _ rfl
      exact wp_kfree .page (by simp [add_comm]) hQ
    · rintro i is _ rfl
      rw [List.map_cons, List.sum_cons]
      cases hi : t.entry i with
      | none =>
        apply Prog.wp_pure
        simp
      | some child =>
        simp only [Option.elim_some]
        rw [Multiset.add_assoc]
        exact ih (hbare i child hi) rfl

end EnhancedXv6.Vm
