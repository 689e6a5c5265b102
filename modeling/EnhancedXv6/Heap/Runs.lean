import EnhancedXv6.Heap.Invariant
import EnhancedXv6.Transition.System

/-!
# Programs that use the allocator

A program calls `malloc` and `free` in any order, with any answers of `sbrk`, and writes to the
memory of its live blocks as it likes.  What holds along every run is stated as long as `sbrk` has
given fewer than `2 ^ 32` units, since `size` of a header is an `uint`: a run of 33 requests of
nearly 2 GiB shows what happens beyond.
-/

namespace EnhancedXv6.Heap

open Block Transition

/-- A block that was returned by `malloc(nbytes)` and is not freed yet. -/
structure Live where
  block : Block
  nbytes : UInt32

structure Run where
  heap : State
  live : List Live

def Run.blocks (m : Run) : List Block :=
  m.live.map Live.block

inductive Call
  | malloc (nbytes : UInt32) (fuel : ℕ)
  | free (ap fuel : ℕ)
  /-- the program changes its memory -/
  | write (mem : Memory)

def callNext (answer : ℕ → Option ℕ) (base : ℕ) (m : Run) : Call → Option Run
  | .malloc nbytes fuel =>
    (malloc answer base fuel m.heap nbytes).map fun (r, s) ↦
      if r = 0 then ⟨s, m.live⟩
      else ⟨s, ⟨⟨r - 16, 16 * (unitsFor nbytes).toNat⟩, nbytes⟩ :: m.live⟩
  | .free ap fuel =>
    (free fuel m.heap ap).map fun s ↦ ⟨s, m.live.eraseP fun x ↦ x.block.addr + 16 = ap⟩
  | .write mem => some ⟨{ m.heap with mem := mem }, m.live⟩

/-- What a program may do: it asks for sizes that fit in an `int`, frees live blocks, and leaves
`base` and the memory from `sbrk` alone outside the part of its live blocks after the header. -/
def WellBehaved (base : ℕ) (m : Run) : Call → Prop
  | .malloc nbytes _ => 16 * (unitsFor nbytes).toNat < 2 ^ 31
  | .free ap _ => ∃ b ∈ m.blocks, ap = b.addr + 16
  | .write mem => ∀ a, (a = base ∨ ∃ r ∈ m.heap.granted, r.addr ≤ a ∧ a < r.stop) →
      (∀ b ∈ m.blocks, a ≤ b.addr ∨ b.stop ≤ a) → mem a = m.heap.mem a

/-- A program before its first call, with `base` at the given address and the heap from `top` on. -/
def program (answer : ℕ → Option ℕ) (base top : ℕ) (mem : Memory) : System Run Call where
  start := ⟨{ mem := mem, freep := 0, top := top }, []⟩
  next := callNext answer base

/-- The heap is sound, with the free list `frees`: live blocks are disjoint from each other and from the
free blocks, large enough and inside the memory from `sbrk`; the free list is circular, ordered and
without adjacent blocks; and no memory is lost. -/
structure Sound (base : ℕ) (m : Run) (frees : List Block) : Prop where
  apart : (frees ++ m.blocks).Pairwise Apart
  large : ∀ x ∈ m.live, x.nbytes.toNat + 16 ≤ x.block.length
  inside : ∀ b ∈ frees ++ m.blocks, ∀ a, b.addr ≤ a → a < b.stop →
    ∃ r ∈ m.heap.granted, r.addr ≤ a ∧ a < r.stop
  circular : m.heap.freep ≠ 0 → Path m.heap.mem.next base (frees.map addr) base ∧
    m.heap.freep ∈ base :: frees.map addr
  sized : ∀ b ∈ frees ++ m.blocks, Sized m.heap.mem b
  ordered : Ordered frees
  total : total (frees ++ m.blocks) = total m.heap.granted

/-! ## Runs -/

/-- Before the first call of `malloc` there is no free list. -/
inductive RunInv (base : ℕ) (m : Run) : Prop
  | fresh (freep : m.heap.freep = 0) (live : m.live = []) (granted : m.heap.granted = [])
      (top : base + 16 ≤ m.heap.top)
  | used (frees : List Block) (heap : HeapInv base m.heap m.blocks frees)
      (large : ∀ x ∈ m.live, x.nbytes.toNat + 16 ≤ x.block.length)

variable {answer : ℕ → Option ℕ} {base top : ℕ} {mem : Memory} {m m' : Run} {nbytes : UInt32}

theorem RunInv.exists_sound (hm : RunInv base m) : ∃ frees, Sound base m frees := by
  cases hm with
  | fresh freep live granted top =>
    refine ⟨[], ?_⟩
    have hblocks : m.blocks = [] := by rw [Run.blocks, live]; rfl
    refine ⟨?_, ?_, ?_, fun hne ↦ absurd freep hne, ?_, List.Pairwise.nil, ?_⟩
    · rw [hblocks]
      exact .nil
    · simp [live]
    · simp [hblocks]
    · simp [hblocks]
    · rw [hblocks, granted]
      rfl
  | used frees heap large =>
    refine ⟨frees, heap.tiling.apart, large, heap.tiling.inside,
      fun _ ↦ ⟨heap.listed.circular, heap.freep⟩, fun b hb ↦ ?_,
      (List.pairwise_cons.mp heap.listed.ordered).2, heap.tiling.total⟩
    rcases List.mem_append.mp hb with hb | hb
    · exact heap.listed.sized b (List.mem_cons_of_mem _ hb)
    · exact heap.sized b hb

theorem toNat_unitsFor (nbytes : UInt32) :
    (unitsFor nbytes).toNat = (nbytes.toNat + 15) / 16 + 1 := by
  have hlt := nbytes.toNat_lt
  have hsum : (nbytes.toUInt64 + 16 - 1).toNat = nbytes.toNat + 15 := by
    rw [UInt64.toNat_sub, UInt64.toNat_add, UInt32.toNat_toUInt64]
    change (2 ^ 64 - 1 + (nbytes.toNat + 16) % 2 ^ 64) % 2 ^ 64 = _
    omega
  rw [unitsFor, UInt64.toNat_toUInt32, UInt64.toNat_add, UInt64.toNat_div, hsum]
  change ((nbytes.toNat + 15) / 16 + 1) % 2 ^ 64 % 2 ^ 32 = _
  omega

/-- The start of `malloc`: `base` is made the free list if there is none. -/
theorem RunInv.exists_heapInv (hm : RunInv base m) (hbase : 0 < base) (answer : ℕ → Option ℕ)
    (nbytes : UInt32) :
    ∃ s frees, (∀ fuel, malloc answer base fuel m.heap nbytes =
        mallocLoop answer (unitsFor nbytes) fuel s s.freep (s.mem.next s.freep)) ∧
      HeapInv base s m.blocks frees ∧ s.granted = m.heap.granted := by
  cases hm with
  | fresh freep live granted top =>
    refine ⟨{ m.heap with
      mem := (m.heap.mem.setPtr base base).setSize base 0, freep := base }, [], fun fuel ↦ ?_,
      ⟨⟨?_, ?_, List.pairwise_singleton _ _⟩, List.mem_cons_self, ?_, ?_, ?_, ?_, top⟩, rfl⟩
    · rw [malloc, if_pos freep]
      rfl
    · rw [setSize_next]
      simp [Path, Memory.next, Memory.setPtr]
    · refine List.forall_mem_cons.mpr ⟨?_, by simp⟩
      rw [Sized, setSize_size]
      rfl
    · rw [Run.blocks, live, granted]
      exact Tiling.nil
    · simp [Run.blocks, live]
    · simp [granted]
    · simp [granted]
  | used frees heap large =>
    refine ⟨m.heap, frees, fun fuel ↦ ?_, heap, rfl⟩
    rw [malloc, if_neg (heap.freep_ne_zero hbase)]
    rfl

theorem malloc_total_le {fuel r : ℕ} {s s' : State}
    (hmalloc : malloc answer base fuel s nbytes = some (r, s')) :
    total s.granted ≤ total s'.granted := by
  unfold malloc at hmalloc
  split at hmalloc
  · have hle := mallocLoop_total_le hmalloc
    exact hle
  · exact mallocLoop_total_le hmalloc

theorem total_le_of_next {e : Call} (hnext : callNext answer base m e = some m') :
    total m.heap.granted ≤ total m'.heap.granted := by
  cases e with
  | malloc nbytes fuel =>
    obtain ⟨⟨r, s⟩, hmalloc, hm'⟩ := Option.map_eq_some_iff.mp hnext
    have hle := malloc_total_le hmalloc
    dsimp only at hm'
    split at hm' <;> exact hm' ▸ hle
  | free ap fuel =>
    obtain ⟨s, hfree, rfl⟩ := Option.map_eq_some_iff.mp hnext
    exact (congrArg total (free_granted hfree)).ge
  | write mem =>
    cases hnext
    exact le_rfl

theorem RunInv.malloc {fuel r : ℕ} {s : State} (hm : RunInv base m) (hbase : 0 < base)
    (hint : 16 * (unitsFor nbytes).toNat < 2 ^ 31)
    (hmalloc : Heap.malloc answer base fuel m.heap nbytes = some (r, s))
    (hbound : total s.granted < 16 * 2 ^ 32) :
    RunInv base (if r = 0 then ⟨s, m.live⟩
      else ⟨s, ⟨⟨r - 16, 16 * (unitsFor nbytes).toNat⟩, nbytes⟩ :: m.live⟩) := by
  obtain ⟨s₀, frees, hrun, hs₀, -⟩ := hm.exists_heapInv hbase answer nbytes
  have hunits := toNat_unitsFor nbytes
  have hlarge : ∀ x ∈ m.live, x.nbytes.toNat + 16 ≤ x.block.length := by
    cases hm with
    | fresh freep live granted top => simp [live]
    | used frees heap large => exact large
  rw [hrun] at hmalloc
  rcases hs₀.mallocLoop hs₀.freep (by omega) hint hmalloc hbound with
    ⟨rfl, frees', hs⟩ | ⟨b, frees', rfl, hlength, hs⟩
  · exact .used frees' hs hlarge
  · rw [if_neg (by omega)]
    have hb : (⟨b.addr + 16 - 16, 16 * (unitsFor nbytes).toNat⟩ : Block) = b := by
      rw [Nat.add_sub_cancel, ← hlength]
    rw [hb]
    refine .used frees' hs (List.forall_mem_cons.mpr ⟨?_, hlarge⟩)
    dsimp only
    omega

theorem RunInv.free {ap fuel : ℕ} {s : State} (hm : RunInv base m)
    (hap : ∃ b ∈ m.blocks, ap = b.addr + 16) (hfree : Heap.free fuel m.heap ap = some s)
    (hbound : total m.heap.granted < 16 * 2 ^ 32) :
    RunInv base ⟨s, m.live.eraseP fun x ↦ x.block.addr + 16 = ap⟩ := by
  obtain ⟨b, hb, rfl⟩ := hap
  obtain ⟨x, hx, rfl⟩ := List.mem_map.mp hb
  cases hm with
  | fresh freep live granted top =>
    rw [live] at hx
    cases hx
  | used frees heap large =>
    obtain ⟨y, l₁, l₂, -, hy, hlive, herase⟩ := List.exists_of_eraseP
      (p := fun y ↦ decide (y.block.addr + 16 = x.block.addr + 16)) hx (by simp)
    have haddr : x.block.addr = y.block.addr := by
      have := of_decide_eq_true hy
      omega
    have hperm : m.blocks.Perm (y.block :: (l₁ ++ l₂).map Live.block) := by
      rw [Run.blocks, hlive]
      simp
    obtain ⟨s', -, hunique, hs', -⟩ := (heap.perm hperm).exists_free hbound
    rw [haddr] at hfree
    rw [herase, hunique fuel s hfree]
    refine .used _ hs' fun z hz ↦ large z ?_
    rw [hlive]
    simp only [List.mem_append, List.mem_cons] at hz ⊢
    tauto

theorem RunInv.write (hm : RunInv base m) (hwrite : WellBehaved base m (.write mem)) :
    RunInv base ⟨{ m.heap with mem := mem }, m.live⟩ := by
  cases hm with
  | fresh freep live granted top => exact .fresh freep live granted top
  | used frees heap large =>
    refine .used frees (heap.of_mem_eq (hwrite base (.inl rfl) fun b hb ↦ ?_) fun c hc ↦
      hwrite c.addr (.inr ?_) fun b hb ↦ ?_) large
    · have hle := heap.base_lt hb
      omega
    · have hpos := heap.tiling.pos c hc
      exact heap.tiling.inside c hc c.addr le_rfl (by rw [stop]; omega)
    · by_cases hcb : c = b
      · exact .inl (hcb ▸ le_rfl)
      · have hapart := heap.tiling.apart.forall hc (List.mem_append_right frees hb) hcb
        simp only [Apart, stop] at hapart ⊢
        omega

theorem RunInv.next {e : Call} (hm : RunInv base m) (hbase : 0 < base)
    (hgood : WellBehaved base m e) (hnext : callNext answer base m e = some m')
    (hbound : total m'.heap.granted < 16 * 2 ^ 32) : RunInv base m' := by
  have hle := total_le_of_next hnext
  cases e with
  | malloc nbytes fuel =>
    obtain ⟨⟨r, s⟩, hmalloc, rfl⟩ := Option.map_eq_some_iff.mp hnext
    refine hm.malloc hbase hgood hmalloc ?_
    dsimp only at hbound
    split at hbound <;> exact hbound
  | free ap fuel =>
    obtain ⟨s, hfree, rfl⟩ := Option.map_eq_some_iff.mp hnext
    exact hm.free hgood hfree (hle.trans_lt hbound)
  | write mem =>
    cases hnext
    exact hm.write hgood

theorem runInv_of_reachable (hbase : 0 < base) (htop : base + 16 ≤ top)
    (hm : (program answer base top mem).Reachable (WellBehaved base) m)
    (hbound : total m.heap.granted < 16 * 2 ^ 32) : RunInv base m := by
  induction hm with
  | start => exact .fresh rfl rfl rfl htop
  | step _ hgood hnext ih =>
    exact (ih ((total_le_of_next hnext).trans_lt hbound)).next hbase hgood hnext hbound

/-- The heap of a program is sound in every run, as long as `sbrk` has given fewer than `2 ^ 32`
units: `free` of a live block ends, and so does `malloc` if what it asks for does not exceed this
bound. -/
theorem heap_sound (hbase : 0 < base) (htop : base + 16 ≤ top)
    (hm : (program answer base top mem).Reachable (WellBehaved base) m)
    (hbound : total m.heap.granted < 16 * 2 ^ 32) :
    (∃ frees, Sound base m frees) ∧
    (∀ b ∈ m.blocks, ∃ k, ∀ fuel, k < fuel → (free fuel m.heap (b.addr + 16)).isSome) ∧
    ∀ nbytes, 16 * (unitsFor nbytes).toNat < 2 ^ 31 →
      total m.heap.granted + 16 * max (unitsFor nbytes).toNat 4096 < 16 * 2 ^ 32 →
      ∃ k, ∀ fuel, k < fuel → (malloc answer base fuel m.heap nbytes).isSome := by
  have hinv := runInv_of_reachable hbase htop hm hbound
  refine ⟨hinv.exists_sound, fun b hb ↦ ?_, fun nbytes hint hmore ↦ ?_⟩
  · cases hinv with
    | fresh freep live granted top =>
      rw [Run.blocks, live] at hb
      cases hb
    | used frees heap large =>
      obtain ⟨l₁, l₂, hsplit⟩ := List.append_of_mem hb
      have hperm : m.blocks.Perm (b :: (l₁ ++ l₂)) := hsplit ▸ List.perm_middle
      obtain ⟨s', hrun, -⟩ := (heap.perm hperm).exists_free hbound
      exact ⟨frees.length, fun fuel hfuel ↦ by rw [hrun fuel hfuel]; rfl⟩
  · obtain ⟨s, frees, hrun, hs, hgranted⟩ := hinv.exists_heapInv hbase answer nbytes
    rw [← hgranted, ← toNat_request] at hmore
    obtain ⟨k, hk⟩ := hs.exists_mallocLoop answer hbase hint hmore
    exact ⟨k, fun fuel hfuel ↦ by rw [hrun]; exact hk fuel hfuel⟩

def Call.allowed (m : Run) : Call → Bool
  | .malloc nbytes _ => 16 * (unitsFor nbytes).toNat < 2 ^ 31
  | .free ap _ => m.blocks.any fun b ↦ ap = b.addr + 16
  | .write _ => false

theorem wellBehaved_of_allowed {e : Call} (he : e.allowed m = true) : WellBehaved base m e := by
  cases e with
  | malloc nbytes fuel =>
    have hint : 16 * (unitsFor nbytes).toNat < 2 ^ 31 := of_decide_eq_true he
    exact hint
  | free ap fuel =>
    obtain ⟨b, hb, hap⟩ := List.any_eq_true.mp he
    exact ⟨b, hb, of_decide_eq_true hap⟩
  | write mem => cases he

/-- Two blocks are allocated and the second is freed: the rest of the region from `sbrk` is free
again. -/
theorem heap_sound_twoBlocks :
    ∃ m : Run, m.blocks = [⟨65456, 112⟩] ∧ ∃ frees, Sound 16 m frees := by
  obtain ⟨m, hm, hblocks, hbound⟩ :=
    (program (fun _ ↦ some 0) 16 32 fun _ ↦ ⟨0, 0⟩).exists_reachable
      (fun m e ↦ e.allowed m = true)
      (fun m ↦ m.blocks = [⟨65456, 112⟩] ∧ total m.heap.granted < 16 * 2 ^ 32)
      [.malloc 90 9, .malloc 5000 9, .free 60448 9] (by decide +kernel)
  have hm' : (program (fun _ ↦ some 0) 16 32 fun _ ↦ ⟨0, 0⟩).Reachable (WellBehaved 16) m :=
    hm.mono fun _ _ ↦ wellBehaved_of_allowed
  exact ⟨m, hblocks, (heap_sound (by decide) (by decide) hm' hbound).1⟩

/-- 33 requests of `2 ^ 27 - 1` units each, and all the blocks freed again. -/
def exhaust : List Call :=
  List.replicate 33 (Call.malloc 2147483616 9) ++
    (List.range 33).map fun i ↦ Call.free (48 + i * 2147483632) 9

/-- Beyond `2 ^ 32` units the size of a merged block overflows: after the calls of `exhaust` all of
the memory is free, but the one block of the free list has `2 ^ 27 - 33` units. -/
theorem merged_size_overflows :
    ∃ m : Run, (program (fun _ ↦ some 0) 16 32 fun _ ↦ ⟨0, 0⟩).Reachable (WellBehaved 16) m ∧
      ¬ ∃ frees, Sound 16 m frees := by
  obtain ⟨m, hm, hfreep, hfirst, hlast, hsize, hblocks, hgranted⟩ :=
    (program (fun _ ↦ some 0) 16 32 fun _ ↦ ⟨0, 0⟩).exists_reachable
      (fun m e ↦ e.allowed m = true)
      (fun m ↦ m.heap.freep = 32 ∧ (m.heap.mem 16).ptr = 32 ∧ (m.heap.mem 32).ptr = 16 ∧
        (m.heap.mem 32).size = 134217695 ∧ m.blocks = [] ∧
        total m.heap.granted = 33 * 2147483632) exhaust (by decide +kernel)
  refine ⟨m, hm.mono fun _ _ ↦ wellBehaved_of_allowed, ?_⟩
  rintro ⟨frees, hsound⟩
  obtain ⟨hpath, -⟩ := hsound.circular (by rw [hfreep]; decide)
  have htotal := hsound.total
  rw [hblocks, List.append_nil, hgranted] at htotal
  cases frees with
  | nil => simp at htotal
  | cons b frees =>
    have hb : b.addr = 32 := hpath.1.symm.trans hfirst
    cases frees with
    | nil =>
      have hsized : Sized m.heap.mem b := hsound.sized b (by simp)
      have hlength : 16 * (134217695 : UInt32).toNat = b.length := by
        rw [← hsize, ← hb]
        exact hsized
      rw [total_cons, total_nil, ← hlength] at htotal
      revert htotal
      decide
    | cons c frees =>
      -- the list goes back to `base`, which is no block after the first
      have hc : c.addr = 16 := hpath.2.1.symm.trans (by rw [hb]; exact hlast)
      have hlt := (List.pairwise_cons.mp hsound.ordered).1 c List.mem_cons_self
      rw [hc, stop, hb] at hlt
      omega

end EnhancedXv6.Heap
