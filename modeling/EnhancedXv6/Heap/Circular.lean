import Mathlib.Data.List.Basic
import Mathlib.Data.List.Pairwise
import Mathlib.Order.Lattice
import Mathlib.Tactic.Common

/-!
# Circular lists

The nodes of a linked list are values of any type, and `next` gives the successor of a node.
`Path next a xs b` says that the links lead from `a` through `xs` to `b`; a circular list is a path
that ends where it starts.  `search` follows the links up to a node with a given property, and gives
up when its fuel is used up.
-/

namespace EnhancedXv6.Heap

variable {α : Type*} {next next' : α → α} {a b x y : α} {xs ys zs : List α}

def Path (next : α → α) : α → List α → α → Prop
  | a, [], b => next a = b
  | a, x :: xs, b => next a = x ∧ Path next x xs b

theorem path_append :
    Path next a (xs ++ x :: ys) b ↔ Path next a xs x ∧ Path next x ys b := by
  induction xs generalizing a with
  | nil => exact Iff.rfl
  | cons z xs ih =>
    simp only [List.cons_append, Path, ih]
    exact and_assoc.symm

theorem Path.congr (hpath : Path next a xs b) (hnext : ∀ y ∈ a :: xs, next' y = next y) :
    Path next' a xs b := by
  induction xs generalizing a with
  | nil => exact (hnext a List.mem_cons_self).trans hpath
  | cons x xs ih =>
    obtain ⟨hx, hpath⟩ := hpath
    obtain ⟨ha, hrest⟩ := List.forall_mem_cons.mp hnext
    exact ⟨ha.trans hx, ih hpath hrest⟩

/-- Another node may take the place of the first. -/
theorem Path.start (hpath : Path next a xs b) (hx : next' x = next a)
    (hnext : ∀ y ∈ xs, next' y = next y) : Path next' x xs b := by
  cases xs with
  | nil => exact hx.trans hpath
  | cons y xs => exact ⟨hx.trans hpath.1, hpath.2.congr hnext⟩

/-- A circular list may start at any of its nodes. -/
theorem path_rotate (hsplit : ys ++ y :: zs = a :: xs) :
    Path next y (zs ++ ys) y ↔ Path next a xs a := by
  cases ys with
  | nil =>
    obtain ⟨rfl, rfl⟩ := List.cons_eq_cons.mp hsplit
    rw [List.append_nil]
  | cons z ys =>
    rw [List.cons_append] at hsplit
    obtain ⟨rfl, rfl⟩ := List.cons_eq_cons.mp hsplit
    rw [path_append, path_append]
    exact and_comm

theorem Path.next_mem (hpath : Path next a xs b) (hy : y ∈ a :: xs) : next y ∈ b :: xs := by
  induction xs generalizing a with
  | nil =>
    obtain rfl := List.mem_singleton.mp hy
    exact List.mem_singleton.mpr hpath
  | cons x xs ih =>
    obtain ⟨hx, hpath⟩ := hpath
    rcases List.mem_cons.mp hy with rfl | hy
    · exact List.mem_cons_of_mem _ (hx ▸ List.mem_cons_self)
    · rcases List.mem_cons.mp (ih hpath hy) with hb | hmem
      · exact hb ▸ List.mem_cons_self
      · exact List.mem_cons_of_mem _ (List.mem_cons_of_mem _ hmem)

/-- The nodes of a circular list from a node on, if the node is not the last. -/
theorem Path.exists_split (hpath : Path next a xs b) (hy : y ∈ a :: xs) (hb : next y ≠ b) :
    ∃ ys zs, a :: xs = ys ++ y :: next y :: zs := by
  induction xs generalizing a with
  | nil =>
    obtain rfl := List.mem_singleton.mp hy
    exact absurd hpath hb
  | cons x xs ih =>
    obtain ⟨hx, hpath⟩ := hpath
    rcases List.mem_cons.mp hy with rfl | hy
    · exact ⟨[], xs, by rw [hx]; rfl⟩
    · obtain ⟨ys, zs, hsplit⟩ := ih hpath hy
      exact ⟨a :: ys, zs, by rw [hsplit]; rfl⟩

/-- A path up to one of its nodes, its end included. -/
theorem Path.take (hpath : Path next a xs b) (hsplit : xs ++ [b] = ys ++ y :: zs) :
    Path next a ys y := by
  induction ys generalizing a xs with
  | nil =>
    cases xs with
    | nil =>
      obtain ⟨rfl, -⟩ := List.cons_eq_cons.mp hsplit
      exact hpath
    | cons x xs =>
      obtain ⟨rfl, -⟩ := List.cons_eq_cons.mp hsplit
      exact hpath.1
  | cons z ys ih =>
    cases xs with
    | nil => simp at hsplit
    | cons x xs =>
      obtain ⟨rfl, hrest⟩ := List.cons_eq_cons.mp hsplit
      exact ⟨hpath.1, ih hpath.2 hrest⟩

/-- In a circular list that is ordered from its first node on, the successor of a node is the next
greater one, or the first if there is none. -/
theorem Path.next_of_ordered [LinearOrder α] (hpath : Path next a xs a)
    (hordered : (a :: xs).Pairwise (· < ·)) (hy : y ∈ a :: xs) :
    (next y = a ∧ ∀ z ∈ a :: xs, z ≤ y) ∨
      (y < next y ∧ next y ∈ xs ∧ ∀ z ∈ a :: xs, z ≤ y ∨ next y ≤ z) := by
  obtain ⟨ys, zs, hsplit⟩ := List.append_of_mem hy
  have hcircular : Path next y (zs ++ ys) y := (path_rotate hsplit.symm).mpr hpath
  rw [hsplit, List.pairwise_append, List.pairwise_cons] at hordered
  obtain ⟨-, ⟨hzs, hzs'⟩, hys⟩ := hordered
  have hle : ∀ z ∈ ys, z ≤ y := fun z hz ↦ le_of_lt (hys z hz y List.mem_cons_self)
  cases zs with
  | nil =>
    refine .inl ⟨?_, fun z hz ↦ ?_⟩
    · cases ys with
      | nil =>
        obtain ⟨rfl, -⟩ := List.cons_eq_cons.mp hsplit
        exact hcircular
      | cons x ys =>
        obtain ⟨rfl, -⟩ := List.cons_eq_cons.mp hsplit
        exact hcircular.1
    · rw [hsplit] at hz
      rcases List.mem_append.mp hz with hz | hz
      · exact hle z hz
      · exact (List.mem_singleton.mp hz).le
  | cons x zs =>
    have hx : next y = x := hcircular.1
    rw [hx]
    refine .inr ⟨hzs x List.mem_cons_self, ?_, fun z hz ↦ ?_⟩
    · cases ys with
      | nil =>
        obtain ⟨-, rfl⟩ := List.cons_eq_cons.mp hsplit
        exact List.mem_cons_self
      | cons w ys =>
        obtain ⟨-, rfl⟩ := List.cons_eq_cons.mp hsplit
        exact List.mem_append_right _ (List.mem_cons_of_mem _ List.mem_cons_self)
    · rw [hsplit] at hz
      rcases List.mem_append.mp hz with hz | hz
      · exact .inl (hle z hz)
      · rcases List.mem_cons.mp hz with rfl | hz
        · exact .inl le_rfl
        · rcases List.mem_cons.mp hz with rfl | hz
          · exact .inr le_rfl
          · exact .inr (le_of_lt ((List.pairwise_cons.mp hzs').1 z hz))

/-! ## Searching -/

def search (stop : α → Bool) (next : α → α) : ℕ → α → Option α
  | 0, _ => none
  | fuel + 1, a => if stop a then some a else search stop next fuel (next a)

variable {stop : α → Bool} {fuel fuel' : ℕ}

theorem search_mono (hsearch : search stop next fuel a = some b) (hle : fuel ≤ fuel') :
    search stop next fuel' a = some b := by
  induction fuel generalizing a fuel' with
  | zero => cases hsearch
  | succ fuel ih =>
    obtain ⟨fuel', rfl⟩ := Nat.exists_eq_add_of_le' (Nat.lt_of_lt_of_le fuel.succ_pos hle)
    rw [search] at hsearch ⊢
    split at hsearch
    · rename_i ha
      rwa [if_pos ha]
    · rename_i ha
      rw [if_neg ha]
      exact ih hsearch (Nat.le_of_succ_le_succ hle)

theorem search_of_path (hpath : Path next a xs b) (hgo : ∀ y ∈ a :: xs, stop y = false)
    (hstop : stop b = true) : search stop next (xs.length + 2) a = some b := by
  induction xs generalizing a with
  | nil =>
    have ha : stop a = false := hgo a List.mem_cons_self
    have hnext : next a = b := hpath
    simp [search, ha, hnext, hstop]
  | cons x xs ih =>
    obtain ⟨hx, hpath⟩ := hpath
    obtain ⟨ha, hrest⟩ := List.forall_mem_cons.mp hgo
    rw [List.length_cons, search, if_neg (by simp [ha]), hx]
    exact ih hpath hrest

/-- In a circular list with one node that stops it, the search ends there wherever it starts. -/
theorem search_circular (hpath : Path next y zs y) (hgo : ∀ z ∈ zs, stop z = false)
    (hstop : stop y = true) (ha : a ∈ y :: zs) (hfuel : zs.length < fuel) :
    search stop next fuel a = some y := by
  rcases List.mem_cons.mp ha with rfl | ha
  · obtain ⟨fuel, rfl⟩ := Nat.exists_eq_add_of_le' (Nat.zero_lt_of_lt hfuel)
    rw [search, if_pos hstop]
  · obtain ⟨us, vs, rfl⟩ := List.append_of_mem ha
    have hrest := (path_append.mp hpath).2
    refine search_mono (search_of_path hrest (fun z hz ↦ hgo z ?_) hstop) ?_
    · exact List.mem_append_right _ hz
    · rw [List.length_append, List.length_cons] at hfuel
      omega

end EnhancedXv6.Heap
