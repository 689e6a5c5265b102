import Mathlib.Algebra.BigOperators.Group.Finset.Basic
import Mathlib.Algebra.Order.Group.Multiset
import Mathlib.Data.Fintype.Basic

/-!
# Radix trees with labelled nodes

A tree of height `n` has a leaf after `n` nodes on each of its complete paths.  Each node has a
label, and an entry for each index that may be empty.  A path gives an index for each level, counted
from the leaves.

`lookup` and `write` work along a path; `nodes` collects the labels.
-/

namespace EnhancedXv6.Radix

structure Node (N I α : Type) where
  label : N
  entry : I → Option α

/-- Trees with `n` levels of nodes above the leaves. -/
def Tree (N I L : Type) : ℕ → Type
  | 0 => L
  | n + 1 => Node N I (Tree N I L n)

variable {N I L : Type}

def empty (n : ℕ) (label : N) : Tree N I L (n + 1) := ⟨label, fun _ ↦ none⟩

def lookup : (n : ℕ) → Tree N I L n → (ℕ → I) → Option (Tree N I L 0)
  | 0, leaf, _ => some leaf
  | n + 1, t, path => (t.entry (path n)).bind fun child ↦ lookup n child path

/-- The nodes along the path are there. -/
def HasPath : (n : ℕ) → Tree N I L (n + 1) → (ℕ → I) → Prop
  | 0, _, _ => True
  | n + 1, t, path => ∃ child, t.entry (path (n + 1)) = some child ∧ HasPath n child path

variable {n : ℕ} {path path' : ℕ → I} {i : I}

theorem lookup_congr {t : Tree N I L n} (hpath : ∀ k < n, path k = path' k) :
    lookup n t path = lookup n t path' := by
  induction n with
  | zero => rfl
  | succ n ih =>
    rw [lookup, lookup, hpath n (Nat.lt_succ_self n)]
    congr 1
    funext child
    exact ih fun k hk ↦ hpath k (Nat.lt_succ_of_lt hk)

theorem hasPath_of_lookup {t : Tree N I L (n + 1)} {l : Tree N I L 0} (hl : lookup (n + 1) t path = some l) :
    HasPath n t path := by
  induction n with
  | zero => trivial
  | succ n ih =>
    obtain ⟨child, hchild, hl⟩ := Option.bind_eq_some_iff.mp hl
    exact ⟨child, hchild, ih hl⟩

def Bare : (n : ℕ) → Tree N I L (n + 1) → Prop
  | 0, t => ∀ i, t.entry i = none
  | n + 1, t => ∀ i child, t.entry i = some child → Bare n child

theorem bare_of_lookup {t : Tree N I L (n + 1)} (h : ∀ path, lookup (n + 1) t path = none) :
    Bare n t := by
  induction n with
  | zero =>
    intro i
    have hi := h fun _ ↦ i
    rw [lookup, Option.bind_eq_none_iff] at hi
    cases hentry : t.entry i with
    | none => rfl
    | some leaf => cases hi leaf hentry
  | succ n ih =>
    intro i child hchild
    apply ih
    intro path
    -- the path below `child`, continued to the root
    have hpath := h (Function.update path (n + 1) i)
    rw [lookup, Function.update_self, hchild, Option.bind_some] at hpath
    rw [← hpath]
    exact lookup_congr fun k hk ↦ (Function.update_of_ne (Nat.ne_of_lt hk) _ _).symm

variable [DecidableEq I]

def setEntry (t : Tree N I L (n + 1)) (i : I) (child : Option (Tree N I L n)) : Tree N I L (n + 1) :=
  ⟨t.label, Function.update t.entry i child⟩

def write : (n : ℕ) → Tree N I L (n + 1) → (ℕ → I) → Option (Tree N I L 0) →
    Tree N I L (n + 1)
  | 0, t, path, l => setEntry t (path 0) l
  | n + 1, t, path, l =>
    match t.entry (path (n + 1)) with
    | none => t
    | some child => setEntry t (path (n + 1)) (some (write n child path l))

theorem lookup_setEntry_self {t : Tree N I L (n + 1)} {child : Option (Tree N I L n)} :
    lookup (n + 1) (setEntry t (path n) child) path =
      child.bind fun child ↦ lookup n child path := by
  simp [lookup, setEntry]

theorem lookup_setEntry_of_ne {t : Tree N I L (n + 1)} {child : Option (Tree N I L n)}
    (hi : path n ≠ i) : lookup (n + 1) (setEntry t i child) path = lookup (n + 1) t path := by
  simp [lookup, setEntry, hi]

theorem lookup_write_self {t : Tree N I L (n + 1)} {l : Option (Tree N I L 0)} (hpath : HasPath n t path) :
    lookup (n + 1) (write n t path l) path = l := by
  induction n with
  | zero =>
    rw [write, lookup_setEntry_self]
    cases l <;> rfl
  | succ n ih =>
    obtain ⟨child, hchild, hpath⟩ := hpath
    rw [write, hchild, lookup_setEntry_self, Option.bind_some]
    exact ih hpath

theorem lookup_write_of_ne {t : Tree N I L (n + 1)} {l : Option (Tree N I L 0)} {k : ℕ} (hk : k ≤ n)
    (hne : path' k ≠ path k) : lookup (n + 1) (write n t path l) path' = lookup (n + 1) t path' := by
  induction n with
  | zero =>
    obtain rfl : k = 0 := by omega
    exact lookup_setEntry_of_ne hne
  | succ n ih =>
    rw [write]
    cases hchild : t.entry (path (n + 1)) with
    | none => rfl
    | some child =>
      by_cases htop : path' (n + 1) = path (n + 1)
      · have hk : k ≤ n := by
          rcases Nat.lt_or_ge n k with hlt | hle
          · obtain rfl : k = n + 1 := by omega
            exact absurd htop hne
          · exact hle
        have hself : lookup (n + 1 + 1) (setEntry t (path (n + 1))
            (some (write n child path l))) path' =
              lookup (n + 1) (write n child path l) path' := by
          rw [← htop, lookup_setEntry_self, Option.bind_some]
        rw [hself, ih hk]
        simp [lookup, htop, hchild]
      · exact lookup_setEntry_of_ne htop

/-! ## Labels -/

variable [Fintype I]

def nodes : (n : ℕ) → Tree N I L n → Multiset N
  | 0, _ => 0
  | n + 1, t => {t.label} + ∑ i, (t.entry i).elim 0 (nodes n)

omit [DecidableEq I] in
theorem nodes_empty (label : N) : nodes (n + 1) (empty n label : Tree N I L (n + 1)) = {label} := by
  simp [nodes, empty]

theorem nodes_setEntry (t : Tree N I L (n + 1)) (i : I) (child : Option (Tree N I L n)) :
    nodes (n + 1) (setEntry t i child) + (t.entry i).elim 0 (nodes n) =
      nodes (n + 1) t + child.elim 0 (nodes n) := by
  have hsum : ∀ entry : I → Option (Tree N I L n), ∑ j, (entry j).elim 0 (nodes n) =
      (entry i).elim 0 (nodes n) + ∑ j ∈ Finset.univ.erase i, (entry j).elim 0 (nodes n) :=
    fun entry ↦ (Finset.add_sum_erase _ _ (Finset.mem_univ i)).symm
  have hrest : ∑ j ∈ Finset.univ.erase i,
      ((Function.update t.entry i child j).elim 0 (nodes n) : Multiset N) =
        ∑ j ∈ Finset.univ.erase i, (t.entry j).elim 0 (nodes n) := by
    apply Finset.sum_congr rfl
    intro j hj
    rw [Function.update_of_ne (Finset.ne_of_mem_erase hj)]
  simp only [nodes, setEntry]
  rw [hsum, hsum t.entry, Function.update_self, hrest]
  ac_rfl

theorem nodes_write (t : Tree N I L (n + 1)) (path : ℕ → I) (l : Option (Tree N I L 0)) :
    nodes (n + 1) (write n t path l) = nodes (n + 1) t := by
  induction n with
  | zero =>
    have hleaf : ∀ o : Option (Tree N I L 0), (o.elim 0 (nodes 0) : Multiset N) = 0 := by
      intro o
      cases o <;> rfl
    have hset := nodes_setEntry t (path 0) l
    rwa [hleaf, hleaf, add_zero, add_zero] at hset
  | succ n ih =>
    rw [write]
    cases hchild : t.entry (path (n + 1)) with
    | none => rfl
    | some child =>
      have hset := nodes_setEntry t (path (n + 1)) (some (write n child path l))
      rw [hchild, Option.elim_some, Option.elim_some, ih] at hset
      exact add_right_cancel hset

/-! ## Slots -/

def slot : (n : ℕ) → Tree N I L (n + 1) → (ℕ → I) → Option (N × I)
  | 0, t, path => some (t.label, path 0)
  | n + 1, t, path => (t.entry (path (n + 1))).bind fun child ↦ slot n child path

theorem child_nodes_le {t : Tree N I L (n + 1)} {child : Tree N I L n} (hi : t.entry i = some child) :
    nodes n child ≤ nodes (n + 1) t := by
  have hset := nodes_setEntry t i none
  rw [hi, Option.elim_some, Option.elim_none, add_zero] at hset
  rw [← hset]
  exact Multiset.le_add_left _ _

theorem slot_mem {t : Tree N I L (n + 1)} {l : N × I} (h : slot n t path = some l) :
    l.1 ∈ nodes (n + 1) t := by
  induction n with
  | zero =>
    cases h
    exact Multiset.mem_add.mpr (.inl (Multiset.mem_singleton_self _))
  | succ n ih =>
    obtain ⟨child, hchild, h⟩ := Option.bind_eq_some_iff.mp h
    exact Multiset.mem_of_le (child_nodes_le hchild) (ih h)

/-- Subtrees at different indices have no label in common. -/
theorem disjoint_children {t : Tree N I L (n + 1)} {j : I} {child child' : Tree N I L n}
    (hnodup : (nodes (n + 1) t).Nodup) (hne : i ≠ j) (hi : t.entry i = some child)
    (hj : t.entry j = some child') : Disjoint (nodes n child) (nodes n child') := by
  have hset := nodes_setEntry t i none
  rw [hi, Option.elim_some, Option.elim_none, add_zero] at hset
  rw [← hset, add_comm] at hnodup
  refine (Multiset.nodup_add.mp hnodup).2.2.mono_right (child_nodes_le (i := j) ?_)
  rw [← hj]
  exact Function.update_of_ne hne.symm _ _

/-- Where no label is used twice, different paths end at different slots. -/
theorem slot_inj {t : Tree N I L (n + 1)} {l : N × I} (hnodup : (nodes (n + 1) t).Nodup)
    (h : slot n t path = some l) (h' : slot n t path' = some l) :
    ∀ level < n + 1, path level = path' level := by
  induction n with
  | zero =>
    intro level hlevel
    cases h
    rw [Nat.lt_one_iff.mp hlevel]
    exact (Prod.mk.inj (Option.some.inj h')).2.symm
  | succ n ih =>
    obtain ⟨child, hchild, hslot⟩ := Option.bind_eq_some_iff.mp h
    obtain ⟨child', hchild', hslot'⟩ := Option.bind_eq_some_iff.mp h'
    have htop : path (n + 1) = path' (n + 1) := by
      by_contra hne
      exact Multiset.disjoint_left.mp (disjoint_children hnodup hne hchild hchild') (slot_mem hslot)
        (slot_mem hslot')
    rw [htop, hchild'] at hchild
    cases hchild
    intro level hlevel
    rcases Nat.lt_succ_iff_lt_or_eq.mp hlevel with hlt | rfl
    · exact ih (Multiset.nodup_of_le (child_nodes_le hchild') hnodup) hslot hslot' level hlt
    · exact htop

end EnhancedXv6.Radix
