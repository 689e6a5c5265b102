import Mathlib.Algebra.BigOperators.Group.List.Basic
import Mathlib.Algebra.GroupWithZero.Nat
import Mathlib.Data.List.Pairwise
import Mathlib.Order.Nat
import Mathlib.Tactic.Common

/-!
# Blocks of memory

Memory is handed out in regions, and a `Tiling` of the regions is a list of blocks that do not
overlap, lie inside the regions and have the same total length.  A block may be split and two
adjacent blocks may be merged.  `insert` puts a block into a list that is ordered by address and
merges it with its neighbours, so that no two blocks of the list are adjacent.
-/

namespace EnhancedXv6.Heap

structure Block where
  addr : ℕ
  length : ℕ
  deriving DecidableEq

namespace Block

def stop (b : Block) : ℕ :=
  b.addr + b.length

def Apart (b c : Block) : Prop :=
  b.stop ≤ c.addr ∨ c.stop ≤ b.addr

theorem Apart.symm {b c : Block} (h : Apart b c) : Apart c b :=
  Or.symm h

instance : Std.Symm Apart :=
  ⟨fun _ _ ↦ Apart.symm⟩

end Block

open Block

def total (blocks : List Block) : ℕ :=
  (blocks.map length).sum

@[simp] theorem total_nil : total [] = 0 := rfl

@[simp] theorem total_cons (b : Block) (bs : List Block) : total (b :: bs) = b.length + total bs := by
  simp [total]

@[simp] theorem total_append (bs cs : List Block) : total (bs ++ cs) = total bs + total cs := by
  simp [total]

theorem length_le_total {b : Block} {bs : List Block} (hb : b ∈ bs) : b.length ≤ total bs := by
  obtain ⟨cs, ds, rfl⟩ := List.append_of_mem hb
  simp only [total_append, total_cons]
  omega

/-- The blocks do not overlap, lie in the regions and are as long as these together. -/
structure Tiling (blocks regions : List Block) : Prop where
  pos : ∀ b ∈ blocks, 0 < b.length
  apart : blocks.Pairwise Apart
  inside : ∀ b ∈ blocks, ∀ x, b.addr ≤ x → x < b.stop → ∃ r ∈ regions, r.addr ≤ x ∧ x < r.stop
  total : total blocks = total regions

namespace Tiling

variable {bs cs rs : List Block} {b c : Block} {a n k : ℕ}

theorem nil : Tiling [] [] where
  pos _ h := by cases h
  apart := .nil
  inside _ h := by cases h
  total := rfl

theorem perm (hbs : Tiling bs rs) (hperm : bs.Perm cs) : Tiling cs rs where
  pos b hb := hbs.pos b (hperm.mem_iff.mpr hb)
  apart := hperm.pairwise hbs.apart fun h ↦ h.symm
  inside b hb := hbs.inside b (hperm.mem_iff.mpr hb)
  total := by
    rw [← hbs.total]
    exact ((hperm.map _).sum_eq).symm

/-- Every other block is apart from the first. -/
theorem apart_of_mem (hbs : Tiling (b :: bs) rs) (hc : c ∈ bs) : Apart b c :=
  (List.pairwise_cons.mp hbs.apart).1 c hc

/-- A block ends where some region does, or before. -/
theorem stop_le (hbs : Tiling bs rs) (hb : b ∈ bs) (hrs : ∀ r ∈ rs, r.stop ≤ a) : b.stop ≤ a := by
  have hpos := hbs.pos b hb
  obtain ⟨r, hr, -, hlt⟩ := hbs.inside b hb (b.stop - 1) (by rw [stop]; omega) (by rw [stop]; omega)
  have hstop := hrs r hr
  rw [stop] at hlt ⊢
  omega

/-- A block starts where some region does, or after. -/
theorem le_addr (hbs : Tiling bs rs) (hb : b ∈ bs) (hrs : ∀ r ∈ rs, a ≤ r.addr) : a ≤ b.addr := by
  have hpos := hbs.pos b hb
  obtain ⟨r, hr, hle, -⟩ := hbs.inside b hb b.addr le_rfl (by rw [stop]; omega)
  exact (hrs r hr).trans hle

theorem grant (hbs : Tiling bs rs) (hrs : ∀ r ∈ rs, r.stop ≤ a) (hn : 0 < n) :
    Tiling (⟨a, n⟩ :: bs) (⟨a, n⟩ :: rs) where
  pos := List.forall_mem_cons.mpr ⟨hn, hbs.pos⟩
  apart := List.pairwise_cons.mpr ⟨fun _ hb ↦ .inr (hbs.stop_le hb hrs), hbs.apart⟩
  inside := by
    refine List.forall_mem_cons.mpr ⟨fun x hle hlt ↦ ⟨_, List.mem_cons_self, hle, hlt⟩, ?_⟩
    intro b hb x hle hlt
    obtain ⟨r, hr, hx⟩ := hbs.inside b hb x hle hlt
    exact ⟨r, List.mem_cons_of_mem _ hr, hx⟩
  total := by simp [hbs.total]

theorem split (hbs : Tiling (⟨a, n + k⟩ :: bs) rs) (hn : 0 < n) (hk : 0 < k) :
    Tiling (⟨a, n⟩ :: ⟨a + n, k⟩ :: bs) rs where
  pos := by
    simp only [List.forall_mem_cons]
    exact ⟨hn, hk, (List.forall_mem_cons.mp hbs.pos).2⟩
  apart := by
    obtain ⟨hapart, hrest⟩ := List.pairwise_cons.mp hbs.apart
    refine List.pairwise_cons.mpr ⟨?_, List.pairwise_cons.mpr ⟨fun c hc ↦ ?_, hrest⟩⟩
    · refine List.forall_mem_cons.mpr ⟨.inl le_rfl, fun c hc ↦ ?_⟩
      have hac := hapart c hc
      simp only [Apart, stop] at hac ⊢
      omega
    · have hac := hapart c hc
      simp only [Apart, stop] at hac ⊢
      omega
  inside := by
    obtain ⟨hfirst, hrest⟩ := List.forall_mem_cons.mp hbs.inside
    refine List.forall_mem_cons.mpr ⟨fun x hle hlt ↦ hfirst x hle ?_,
      List.forall_mem_cons.mpr ⟨fun x hle hlt ↦ hfirst x ?_ ?_, hrest⟩⟩ <;>
      simp only [stop] at hle hlt ⊢ <;> omega
  total := by
    rw [← hbs.total]
    simp
    omega

theorem split_at {ls : List Block} (hbs : Tiling (ls ++ ⟨a, n + k⟩ :: cs ++ bs) rs) (hn : 0 < n)
    (hk : 0 < k) : Tiling (ls ++ ⟨a, n⟩ :: cs ++ ⟨a + n, k⟩ :: bs) rs := by
  have hfront : (ls ++ ⟨a, n + k⟩ :: cs ++ bs).Perm (⟨a, n + k⟩ :: (ls ++ cs ++ bs)) := by
    simp
  have hback : (⟨a, n⟩ :: ⟨a + n, k⟩ :: (ls ++ cs ++ bs)).Perm
      (ls ++ ⟨a, n⟩ :: cs ++ ⟨a + n, k⟩ :: bs) := by
    refine List.perm_iff_count.mpr fun d ↦ ?_
    simp only [List.count_append, List.count_cons]
    omega
  exact ((hbs.perm hfront).split hn hk).perm hback

theorem merge (hbs : Tiling (b :: c :: bs) rs) (hadjacent : b.stop = c.addr) :
    Tiling (⟨b.addr, b.length + c.length⟩ :: bs) rs where
  pos := by
    obtain ⟨hb, hrest⟩ := List.forall_mem_cons.mp hbs.pos
    exact List.forall_mem_cons.mpr
      ⟨Nat.add_pos_left hb _, (List.forall_mem_cons.mp hrest).2⟩
  apart := by
    obtain ⟨hb, hrest⟩ := List.pairwise_cons.mp hbs.apart
    obtain ⟨hc, hbs'⟩ := List.pairwise_cons.mp hrest
    refine List.pairwise_cons.mpr ⟨fun d hd ↦ ?_, hbs'⟩
    have hposb := hbs.pos b List.mem_cons_self
    have hposc := hbs.pos c (List.mem_cons_of_mem _ List.mem_cons_self)
    have hposd := hbs.pos d (List.mem_cons_of_mem _ (List.mem_cons_of_mem _ hd))
    have hbd := hb d (List.mem_cons_of_mem _ hd)
    have hcd := hc d hd
    simp only [Apart, stop] at hbd hcd hadjacent ⊢
    omega
  inside := by
    obtain ⟨hb, hrest⟩ := List.forall_mem_cons.mp hbs.inside
    obtain ⟨hc, hbs'⟩ := List.forall_mem_cons.mp hrest
    refine List.forall_mem_cons.mpr ⟨fun x hle hlt ↦ ?_, hbs'⟩
    simp only [stop] at hlt hb hc hadjacent
    by_cases hx : x < b.addr + b.length
    · exact hb x hle hx
    · exact hc x (by omega) (by omega)
  total := by
    rw [← hbs.total]
    simp
    omega

end Tiling

/-! ## Lists ordered by address -/

def Ordered (bs : List Block) : Prop :=
  bs.Pairwise fun b c ↦ b.stop < c.addr

/-- A block in front of a list, merged with the first block of the list if it is adjacent. -/
def join (b : Block) : List Block → List Block
  | [] => [b]
  | c :: cs => if b.stop = c.addr then ⟨b.addr, b.length + c.length⟩ :: cs else b :: c :: cs

def insert (b : Block) : List Block → List Block
  | [] => [b]
  | c :: cs => if c.addr < b.addr then join c (insert b cs) else join b (c :: cs)

variable {bs cs rs : List Block} {b c : Block} {a : ℕ}

theorem join_of_adjacent (h : b.stop = c.addr) :
    join b (c :: cs) = ⟨b.addr, b.length + c.length⟩ :: cs :=
  if_pos h

theorem join_of_lt (h : ∀ c ∈ cs, b.stop < c.addr) : join b cs = b :: cs := by
  cases cs with
  | nil => rfl
  | cons c cs => exact if_neg (h c List.mem_cons_self).ne

theorem exists_join_eq (b : Block) (cs : List Block) :
    ∃ n cs', join b cs = ⟨b.addr, n⟩ :: cs' ∧ cs' ⊆ cs := by
  cases cs with
  | nil => exact ⟨b.length, [], rfl, List.nil_subset _⟩
  | cons c cs =>
    rw [join]
    split
    · exact ⟨_, cs, rfl, List.subset_cons_self c cs⟩
    · exact ⟨b.length, c :: cs, rfl, List.Subset.refl _⟩

theorem total_join (b : Block) (cs : List Block) : total (join b cs) = b.length + total cs := by
  cases cs with
  | nil => simp [join]
  | cons c cs =>
    rw [join]
    split
    · simp
      omega
    · simp

theorem le_addr_of_mem_join (hb : a ≤ b.addr) (hcs : ∀ c ∈ cs, a ≤ c.addr) :
    ∀ c ∈ join b cs, a ≤ c.addr := by
  obtain ⟨n, cs', hjoin, hsub⟩ := exists_join_eq b cs
  rw [hjoin]
  exact List.forall_mem_cons.mpr ⟨hb, fun c hc ↦ hcs c (hsub hc)⟩

theorem le_addr_of_mem_insert (hb : a ≤ b.addr) (hcs : ∀ c ∈ cs, a ≤ c.addr) :
    ∀ c ∈ insert b cs, a ≤ c.addr := by
  induction cs with
  | nil => simpa [insert] using hb
  | cons c cs ih =>
    obtain ⟨hc, hrest⟩ := List.forall_mem_cons.mp hcs
    rw [insert]
    split
    · exact le_addr_of_mem_join hc (ih hrest)
    · exact le_addr_of_mem_join hb hcs

theorem Ordered.join (hcs : Ordered cs) (hb : ∀ c ∈ cs, b.stop ≤ c.addr) :
    Ordered (join b cs) := by
  cases cs with
  | nil => exact List.pairwise_singleton _ _
  | cons c cs =>
    obtain ⟨hc, hrest⟩ := List.pairwise_cons.mp hcs
    rw [Heap.join]
    split
    · rename_i hadjacent
      refine List.pairwise_cons.mpr ⟨fun d hd ↦ ?_, hrest⟩
      have hcd := hc d hd
      simp only [stop] at hadjacent hcd ⊢
      omega
    · rename_i hne
      have hbc := hb c List.mem_cons_self
      refine List.pairwise_cons.mpr
        ⟨List.forall_mem_cons.mpr ⟨by omega, fun d hd ↦ ?_⟩, hcs⟩
      have hcd := hc d hd
      simp only [stop] at hbc hcd ⊢
      omega

theorem Ordered.insert (hcs : Ordered cs) (hapart : ∀ c ∈ cs, Apart b c)
    (hpos : ∀ c ∈ cs, 0 < c.length) : Ordered (insert b cs) := by
  induction cs with
  | nil => exact List.pairwise_singleton _ _
  | cons c cs ih =>
    obtain ⟨hc, hrest⟩ := List.pairwise_cons.mp hcs
    obtain ⟨hbc, hapart'⟩ := List.forall_mem_cons.mp hapart
    obtain ⟨hposc, hpos'⟩ := List.forall_mem_cons.mp hpos
    rw [Heap.insert]
    split
    · rename_i hlt
      refine (ih hrest hapart' hpos').join (le_addr_of_mem_insert ?_ fun d hd ↦ (hc d hd).le)
      simp only [Apart, stop] at hbc ⊢
      omega
    · rename_i hle
      refine hcs.join (List.forall_mem_cons.mpr ⟨?_, fun d hd ↦ ?_⟩)
      · simp only [Apart, stop] at hbc ⊢
        omega
      · have hcd := hc d hd
        simp only [Apart, stop] at hbc hcd ⊢
        omega

theorem Tiling.join (hbs : Tiling (b :: cs ++ bs) rs) : Tiling (join b cs ++ bs) rs := by
  cases cs with
  | nil => exact hbs
  | cons c cs =>
    rw [Heap.join]
    split
    · rename_i hadjacent
      exact hbs.merge hadjacent
    · exact hbs

theorem Tiling.insert (hbs : Tiling (b :: cs ++ bs) rs) : Tiling (insert b cs ++ bs) rs := by
  induction cs generalizing bs with
  | nil => exact hbs
  | cons c cs ih =>
    rw [Heap.insert]
    split
    · -- the rest of the list is inserted into with `c` among the other blocks
      have hperm : (b :: c :: cs ++ bs).Perm (b :: cs ++ c :: bs) :=
        List.Perm.cons b List.perm_middle.symm
      exact Tiling.join ((ih (hbs.perm hperm)).perm List.perm_middle)
    · exact Tiling.join hbs

/-- The block that an inserted block has become part of. -/
theorem exists_length_le_insert (b : Block) (cs : List Block) :
    ∃ d ∈ insert b cs, b.length ≤ d.length := by
  have hjoin : ∀ (c : Block) (es : List Block), (∃ d ∈ es, b.length ≤ d.length) →
      ∃ d ∈ join c es, b.length ≤ d.length := by
    rintro c (- | ⟨e, es⟩) ⟨d, hd, hle⟩
    · cases hd
    · rw [join]
      split
      · rcases List.mem_cons.mp hd with rfl | hd
        · exact ⟨_, List.mem_cons_self, Nat.le_add_left_of_le hle⟩
        · exact ⟨d, List.mem_cons_of_mem _ hd, hle⟩
      · exact ⟨d, List.mem_cons_of_mem _ hd, hle⟩
  induction cs with
  | nil => exact ⟨b, List.mem_cons_self, le_rfl⟩
  | cons c cs ih =>
    rw [insert]
    split
    · exact hjoin c _ ih
    · rw [join]
      split
      · exact ⟨_, List.mem_cons_self, Nat.le_add_right _ _⟩
      · exact ⟨b, List.mem_cons_self, le_rfl⟩

/-- Where a block is inserted: the last block before it and the first block after it may be
merged with it, and nothing else changes. -/
theorem insert_append (hordered : Ordered (bs ++ c :: cs)) (hbs : ∀ d ∈ bs, d.addr < b.addr)
    (hc : c.addr < b.addr) (hcs : ∀ d ∈ cs, b.addr < d.addr) :
    insert b (bs ++ c :: cs) = bs ++ join c (join b cs) := by
  induction bs with
  | nil =>
    rw [List.nil_append, insert, if_pos hc]
    cases cs with
    | nil => rfl
    | cons d cs =>
      have hle : ¬ d.addr < b.addr := (hcs d List.mem_cons_self).not_gt
      rw [insert, if_neg hle, List.nil_append]
  | cons d bs ih =>
    obtain ⟨hd, hrest⟩ := List.pairwise_cons.mp hordered
    obtain ⟨hlt, hbs'⟩ := List.forall_mem_cons.mp hbs
    rw [List.cons_append, insert, if_pos hlt, ih hrest hbs', join_of_lt, List.cons_append]
    intro e he
    rcases List.mem_append.mp he with he | he
    · exact hd e (List.mem_append_left _ he)
    · have hdc := hd c (List.mem_append_right _ List.mem_cons_self)
      refine le_addr_of_mem_join (a := d.stop + 1) hdc (le_addr_of_mem_join ?_ fun f hf ↦ ?_) e he
      · exact hdc.trans hc
      · exact hd f (List.mem_append_right _ (List.mem_cons_of_mem _ hf))

theorem Ordered.addr_lt (hbs : Ordered bs) : (bs.map addr).Pairwise (· < ·) := by
  refine List.pairwise_map.mpr (hbs.imp fun {b c} hlt ↦ ?_)
  simp only [stop] at hlt
  omega

/-- A list that begins before a block falls into the blocks before it, the last of them, and the
blocks after it. -/
theorem Ordered.exists_place (hordered : Ordered (c :: cs)) (hc : c.addr < b.addr)
    (hne : ∀ d ∈ cs, d.addr ≠ b.addr) :
    ∃ ls q rs, c :: cs = ls ++ q :: rs ∧ (∀ d ∈ ls, d.addr < b.addr) ∧ q.addr < b.addr ∧
      ∀ d ∈ rs, b.addr < d.addr := by
  induction cs generalizing c with
  | nil => exact ⟨[], c, [], rfl, by simp, hc, by simp⟩
  | cons d cs ih =>
    obtain ⟨-, hrest⟩ := List.pairwise_cons.mp hordered
    obtain ⟨hd, hne'⟩ := List.forall_mem_cons.mp hne
    by_cases hlt : d.addr < b.addr
    · obtain ⟨ls, q, rs, hsplit, hls, hq, hrs⟩ := ih hrest hlt hne'
      exact ⟨c :: ls, q, rs, by rw [hsplit]; rfl, List.forall_mem_cons.mpr ⟨hc, hls⟩, hq, hrs⟩
    · refine ⟨[], c, d :: cs, rfl, by simp, hc, List.forall_mem_cons.mpr ⟨by omega, fun e he ↦ ?_⟩⟩
      have hde := (List.pairwise_cons.mp hrest).1 e he
      simp only [stop] at hde
      omega

end EnhancedXv6.Heap
