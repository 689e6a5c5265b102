import EnhancedXv6.Heap.Model

/-!
# The free list

The free blocks stand in the memory as a circular list that begins at `base`, ordered by address
with no two blocks adjacent.  `free` inserts a block into this list, and merges it with its
neighbours; the part of `malloc` after its search takes a block out, or cuts one in two.
-/

namespace EnhancedXv6.Heap

open Block

def Sized (mem : Memory) (b : Block) : Prop :=
  16 * (mem b.addr).size.toNat = b.length

structure Listed (mem : Memory) (base : ℕ) (frees : List Block) : Prop where
  circular : Path mem.next base (frees.map addr) base
  sized : ∀ b ∈ ⟨base, 0⟩ :: frees, Sized mem b
  ordered : Ordered (⟨base, 0⟩ :: frees)

variable {mem mem' : Memory} {base x y z : ℕ} {b c q : Block} {bs frees ls rs : List Block}

theorem Sized.after_eq (hb : Sized mem b) : mem.after b.addr = b.stop := by
  rw [Memory.after, hb, stop]

theorem Sized.of_eq (hb : Sized mem b) (hmem : mem' b.addr = mem b.addr) : Sized mem' b := by
  rwa [Sized, hmem]

/-! ## Linking a block to its successor -/

theorem attach_of_ne (hz : z ≠ x) : attach mem x y z = mem z := by
  unfold attach
  split <;> simp [Memory.setPtr, Memory.setSize, Function.update_of_ne hz]

theorem next_eq {header : Header} (hx : mem x = header) : mem.next x = header.ptr :=
  congrArg Header.ptr hx

theorem attach_of_adjacent (hadjacent : mem.after x = y) (hne : y ≠ x) :
    attach mem x y x = ⟨(mem y).ptr, (mem x).size + (mem y).size⟩ := by
  simp [attach, hadjacent, Memory.setPtr, Memory.setSize, Function.update_of_ne hne]

theorem attach_of_not_adjacent (hadjacent : mem.after x ≠ y) :
    attach mem x y x = ⟨y, (mem x).size⟩ := by
  simp [attach, hadjacent, Memory.setPtr]

theorem sized_add {s t : UInt32} {k n : ℕ} (hs : 16 * s.toNat = k) (ht : 16 * t.toNat = n)
    (hbound : k + n < 16 * 2 ^ 32) : 16 * (s + t).toNat = k + n := by
  rw [UInt32.toNat_add, Nat.mod_eq_of_lt (by omega)]
  omega

/-- `free` links the block to the successor of `q`, or merges it with the first of the blocks
`rs` that follow. -/
theorem attach_forward (hpath : Path mem.next q.addr ((rs ++ ls).map addr) q.addr)
    (hb : Sized mem b) (hrs : ∀ c ∈ rs, Sized mem c ∧ b.addr < c.addr ∧
      b.length + c.length < 16 * 2 ^ 32)
    (hls : ∀ c ∈ q :: ls, c.addr < b.addr) :
    ∃ n rs', join b rs = ⟨b.addr, n⟩ :: rs' ∧ rs' ⊆ rs ∧
      Sized (attach mem b.addr (mem.next q.addr)) ⟨b.addr, n⟩ ∧
      Path (attach mem b.addr (mem.next q.addr)).next b.addr ((rs' ++ ls).map addr) q.addr := by
  have hafter := hb.after_eq
  have hother : ∀ z ∈ (rs ++ ls).map addr, z ≠ b.addr := by
    intro z hz
    obtain ⟨c, hc, rfl⟩ := List.mem_map.mp hz
    rcases List.mem_append.mp hc with hc | hc
    · exact (hrs c hc).2.1.ne'
    · exact (hls c (List.mem_cons_of_mem _ hc)).ne
  have hkeep : ∀ zs : List ℕ, (∀ z ∈ zs, z ≠ b.addr) → ∀ z ∈ zs,
      (attach mem b.addr (mem.next q.addr)).next z = mem.next z := fun zs hzs z hz ↦
    next_eq (attach_of_ne (hzs z hz))
  cases rs with
  | nil =>
    -- the successor of the last block is before the new one
    have hlt : mem.next q.addr < b.addr := by
      have hmem := hpath.next_mem List.mem_cons_self
      obtain ⟨c, hc, heq⟩ := List.mem_map.mp
        (List.map_cons ▸ hmem : mem.next q.addr ∈ (q :: ls).map addr)
      exact heq ▸ hls c hc
    have hnot : mem.after b.addr ≠ mem.next q.addr := by
      rw [hafter, stop]
      omega
    have hself := attach_of_not_adjacent hnot
    refine ⟨b.length, [], rfl, List.Subset.refl _, ?_, ?_⟩
    · rw [Sized, hself]
      exact hb
    · have hptr := next_eq hself
      exact hpath.start hptr (hkeep _ hother)
  | cons c rs =>
    obtain ⟨hcsized, hbc, hbound⟩ := hrs c List.mem_cons_self
    have hnext : mem.next q.addr = c.addr := hpath.1
    rw [hnext] at hkeep ⊢
    by_cases hadjacent : b.stop = c.addr
    · have hself := attach_of_adjacent (hafter.trans hadjacent) hbc.ne'
      refine ⟨b.length + c.length, rs, join_of_adjacent hadjacent, List.subset_cons_self c rs,
        ?_, ?_⟩
      · rw [Sized, hself]
        exact sized_add hb hcsized hbound
      · have hptr := next_eq hself
        exact hpath.2.start hptr
          (hkeep _ fun z hz ↦ hother z (List.mem_cons_of_mem _ hz))
    · have hself := attach_of_not_adjacent (fun h ↦ hadjacent (hafter.symm.trans h))
      refine ⟨b.length, c :: rs, if_neg hadjacent, List.Subset.refl _, ?_, ?_⟩
      · rw [Sized, hself]
        exact hb
      · exact hpath.start ((next_eq hself).trans hnext.symm) (hkeep _ hother)

/-- `free` links `q` to the block, or merges them. -/
theorem attach_backward {n : ℕ} (hpath : Path mem.next b.addr ((rs ++ ls).map addr) q.addr)
    (hb : Sized mem ⟨b.addr, n⟩) (hq : Sized mem q) (hqb : q.addr < b.addr)
    (hother : ∀ c ∈ rs ++ ls, c.addr ≠ q.addr) (hbound : q.length + n < 16 * 2 ^ 32) :
    ∃ k rs', join q (⟨b.addr, n⟩ :: rs) = ⟨q.addr, k⟩ :: rs' ∧ rs' ⊆ ⟨b.addr, n⟩ :: rs ∧
      Sized (attach mem q.addr b.addr) ⟨q.addr, k⟩ ∧
      Path (attach mem q.addr b.addr).next q.addr ((rs' ++ ls).map addr) q.addr := by
  have hafter := hq.after_eq
  have hkeep : ∀ z ∈ (rs ++ ls).map addr, (attach mem q.addr b.addr).next z = mem.next z := by
    intro z hz
    obtain ⟨c, hc, rfl⟩ := List.mem_map.mp hz
    exact next_eq (attach_of_ne (hother c hc))
  by_cases hadjacent : q.stop = b.addr
  · have hself := attach_of_adjacent (hafter.trans hadjacent) hqb.ne'
    refine ⟨q.length + n, rs, if_pos hadjacent, List.subset_cons_self _ _, ?_, ?_⟩
    · rw [Sized, hself]
      exact sized_add hq hb hbound
    · have hptr := next_eq hself
      exact hpath.start hptr hkeep
  · have hself := attach_of_not_adjacent (fun h ↦ hadjacent (hafter.symm.trans h))
    refine ⟨q.length, ⟨b.addr, n⟩ :: rs, if_neg hadjacent, List.Subset.refl _, ?_, ?_⟩
    · rw [Sized, hself]
      exact hq
    · refine ⟨next_eq hself, hpath.congr (List.forall_mem_cons.mpr ⟨?_, hkeep⟩)⟩
      exact next_eq (attach_of_ne hqb.ne')

/-! ## `free` -/

/-- The loop of `free` ends at the last node before the block. -/
theorem fits_iff {as : List ℕ} {bp : ℕ} (hpath : Path mem.next base as base)
    (hordered : (base :: as).Pairwise (· < ·)) (hbase : base < bp) (hbp : bp ∉ as)
    (hy : y ∈ base :: as) :
    fits mem bp y = true ↔ y < bp ∧ ∀ z ∈ base :: as, z < bp → z ≤ y := by
  have hfits : fits mem bp y = true ↔ (y < bp ∧ bp < mem.next y) ∨
      (mem.next y ≤ y ∧ (y < bp ∨ bp < mem.next y)) := by
    simp [fits, Memory.next]
  rw [hfits]
  rcases hpath.next_of_ordered hordered hy with ⟨hnext, hlast⟩ | ⟨hlt, hmem, hsuccessor⟩
  · have hle := hlast base List.mem_cons_self
    rw [hnext]
    constructor
    · rintro (h | h)
      · omega
      · exact ⟨by omega, fun z hz _ ↦ hlast z hz⟩
    · rintro ⟨h, -⟩
      exact .inr ⟨hle, .inl h⟩
  · constructor
    · rintro (⟨h, hbefore⟩ | h)
      · refine ⟨h, fun z hz hzb ↦ ?_⟩
        rcases hsuccessor z hz with hz' | hz' <;> omega
      · omega
    · rintro ⟨h, hgreatest⟩
      have hne : mem.next y ≠ bp := fun heq ↦ hbp (heq ▸ hmem)
      have hnot : ¬ mem.next y < bp := fun hbefore ↦
        absurd (hgreatest _ (List.mem_cons_of_mem _ hmem) hbefore) (by omega)
      exact .inl ⟨h, by omega⟩

/-- The search of `free` for the block `b` between `q` and the blocks of `rs`. -/
theorem search_fits {fuel : ℕ} (hlist : Listed mem base frees) (hbase : base < b.addr)
    (hsplit : ⟨base, 0⟩ :: frees = ls ++ q :: rs) (hq : q.addr < b.addr)
    (hrs : ∀ c ∈ rs, b.addr < c.addr) (hx : x ∈ base :: frees.map addr)
    (hfuel : frees.length < fuel) :
    search (fits mem b.addr) mem.next fuel x = some q.addr := by
  have haddrs : ls.map addr ++ q.addr :: rs.map addr = base :: frees.map addr := by
    simpa using (congrArg (List.map addr) hsplit).symm
  have hordered : (base :: frees.map addr).Pairwise (· < ·) := hlist.ordered.addr_lt
  have hnodes : ∀ z ∈ base :: frees.map addr, (z ∈ ls.map addr ∧ z < q.addr) ∨ z = q.addr ∨
      (z ∈ rs.map addr ∧ b.addr < z) := by
    rw [← haddrs] at hordered ⊢
    intro z hz
    rcases List.mem_append.mp hz with hz | hz
    · exact .inl ⟨hz, (List.pairwise_append.mp hordered).2.2 z hz _ List.mem_cons_self⟩
    · rcases List.mem_cons.mp hz with hz | hz
      · exact .inr (.inl hz)
      · obtain ⟨c, hc, rfl⟩ := List.mem_map.mp hz
        exact .inr (.inr ⟨hz, hrs c hc⟩)
  have hb : b.addr ∉ frees.map addr := by
    intro hmem
    rcases hnodes _ (List.mem_cons_of_mem _ hmem) with ⟨-, h⟩ | h | ⟨-, h⟩ <;> omega
  have hq_mem : q.addr ∈ base :: frees.map addr := by
    rw [← haddrs]
    exact List.mem_append_right _ List.mem_cons_self
  have hstop : fits mem b.addr q.addr = true := by
    refine (fits_iff hlist.circular hordered hbase hb hq_mem).mpr ⟨hq, fun z hz hzb ↦ ?_⟩
    rcases hnodes z hz with ⟨-, h⟩ | h | ⟨-, h⟩ <;> omega
  refine search_circular ((path_rotate haddrs).mpr hlist.circular) (fun z hz ↦ ?_) hstop ?_ ?_
  · -- another node that stops the loop would be the last node before the block, too
    have hz_mem : z ∈ base :: frees.map addr := by
      rw [← haddrs]
      simp only [List.mem_append, List.mem_cons] at hz ⊢
      tauto
    have hne : z ≠ q.addr := by
      rw [← haddrs, List.pairwise_append, List.pairwise_cons] at hordered
      rcases List.mem_append.mp hz with hz | hz
      · exact (hordered.2.1.1 z hz).ne'
      · exact (hordered.2.2 z hz _ List.mem_cons_self).ne
    rw [Bool.eq_false_iff]
    intro hfits
    obtain ⟨hlt, hgreatest⟩ := (fits_iff hlist.circular hordered hbase hb hz_mem).mp hfits
    have hle := hgreatest _ hq_mem hq
    rcases hnodes z hz_mem with ⟨-, h⟩ | h | ⟨-, h⟩ <;> omega
  · rw [← haddrs] at hx
    simp only [List.mem_append, List.mem_cons] at hx ⊢
    tauto
  · have hlength := congrArg List.length haddrs
    simp only [List.length_append, List.length_cons, List.length_map] at hlength ⊢
    omega

/-- The memory after `free` of the block `b`, when its loop ended at `q`. -/
def relink (mem : Memory) (b q : Block) : Memory :=
  attach (attach mem b.addr (mem.next q.addr)) q.addr b.addr

theorem relink_of_ne (hb : z ≠ b.addr) (hq : z ≠ q.addr) : relink mem b q z = mem z := by
  rw [relink, attach_of_ne hq, attach_of_ne hb]

/-- The block is inserted into the free list. -/
theorem Listed.relink (hlist : Listed mem base frees) (hb : Sized mem b) (hbase : base < b.addr)
    (hapart : ∀ c ∈ frees, Apart b c) (hpos : ∀ c ∈ frees, 0 < c.length)
    (hbound : b.length + total frees < 16 * 2 ^ 32)
    (hsplit : ⟨base, 0⟩ :: frees = ls ++ q :: rs) (hls : ∀ c ∈ ls, c.addr < b.addr)
    (hq : q.addr < b.addr) (hrs : ∀ c ∈ rs, b.addr < c.addr) :
    Listed (relink mem b q) base (insert b frees) ∧ q.addr ∈ base :: (insert b frees).map addr := by
  have hordered := hlist.ordered
  have hsized := hlist.sized
  have htotal : total frees = total ls + (q.length + total rs) := by
    have h := congrArg total hsplit
    simpa using h
  rw [hsplit] at hordered hsized
  have hordered' := List.pairwise_append.mp hordered
  have hls_ne : ∀ c ∈ ls, c.addr ≠ q.addr := by
    intro c hc heq
    have h := hordered'.2.2 c hc q List.mem_cons_self
    simp only [stop] at h
    omega
  have hrs_ne : ∀ c ∈ rs, c.addr ≠ q.addr := fun c hc ↦ (hq.trans (hrs c hc)).ne'
  have hpath : Path mem.next q.addr ((rs ++ ls).map addr) q.addr := by
    rw [List.map_append]
    refine (path_rotate ?_).mpr hlist.circular
    simpa using (congrArg (List.map addr) hsplit).symm
  -- the block and what follows it
  obtain ⟨n, rs', hjoin, hrs', hbn, hpath'⟩ := attach_forward hpath hb
    (fun c hc ↦ ⟨hsized c (by simp [hc]), hrs c hc, by have := length_le_total hc; omega⟩)
    (List.forall_mem_cons.mpr ⟨hq, hls⟩)
  have hn : n ≤ b.length + total rs := by
    have h := total_join b rs
    rw [hjoin, total_cons] at h
    dsimp only at h
    omega
  -- what precedes it
  obtain ⟨k, rs'', hjoin', hrs'', hqk, hpath''⟩ := attach_backward hpath' hbn
    ((hsized q (by simp)).of_eq (attach_of_ne hq.ne)) hq
    (fun c hc ↦ (List.mem_append.mp hc).elim (fun h ↦ hrs_ne c (hrs' h)) (hls_ne c)) (by omega)
  have hinsert : ⟨base, 0⟩ :: insert b frees = ls ++ ⟨q.addr, k⟩ :: rs'' := by
    have h := insert_append hordered hls hq hrs
    rw [hjoin, hjoin', ← hsplit, insert, if_pos hbase, join_of_lt] at h
    · exact h
    · have hlt := fun c hc ↦ (List.pairwise_cons.mp hlist.ordered).1 c hc
      exact le_addr_of_mem_insert (a := base + 1) hbase hlt
  have haddrs : ls.map addr ++ q.addr :: rs''.map addr = base :: (insert b frees).map addr := by
    simpa using (congrArg (List.map addr) hinsert).symm
  refine ⟨⟨?_, ?_, ?_⟩, ?_⟩
  · rw [List.map_append] at hpath''
    exact (path_rotate haddrs).mp hpath''
  · rw [hinsert]
    have hkeep : ∀ c ∈ ls ++ q :: rs, c.addr ≠ b.addr → c.addr ≠ q.addr →
        Sized (Heap.relink mem b q) c := fun c hc hcb hcq ↦
      (hsized c hc).of_eq (relink_of_ne hcb hcq)
    intro d hd
    rcases List.mem_append.mp hd with hd | hd
    · exact hkeep d (List.mem_append_left _ hd) (hls d hd).ne (hls_ne d hd)
    · rcases List.mem_cons.mp hd with rfl | hd
      · exact hqk
      · rcases List.mem_cons.mp (hrs'' hd) with rfl | hd
        · exact hbn.of_eq (attach_of_ne hq.ne')
        · have hd' := hrs' hd
          exact hkeep d (by simp [hd']) (hrs d hd').ne' (hrs_ne d hd')
  · refine List.pairwise_cons.mpr ⟨?_, ?_⟩
    · have hlt := fun c hc ↦ (List.pairwise_cons.mp hlist.ordered).1 c hc
      exact le_addr_of_mem_insert (a := base + 1) hbase hlt
    · exact Ordered.insert (List.pairwise_cons.mp hlist.ordered).2 hapart hpos
  · rw [← haddrs]
    exact List.mem_append_right _ List.mem_cons_self

/-- `free` of a block that is apart from all free blocks: with enough fuel its loop ends, and the
block is inserted into the free list. -/
theorem exists_free {s : State} (hlist : Listed s.mem base frees)
    (hfreep : s.freep ∈ base :: frees.map addr) (hb : Sized s.mem b) (hbase : base < b.addr)
    (hlength : 0 < b.length) (hapart : ∀ c ∈ frees, Apart b c) (hpos : ∀ c ∈ frees, 0 < c.length)
    (hbound : b.length + total frees < 16 * 2 ^ 32) :
    ∃ mem' p, (∀ fuel, frees.length < fuel →
        free fuel s (b.addr + 16) = some { s with mem := mem', freep := p }) ∧
      (∀ fuel s', free fuel s (b.addr + 16) = some s' → s' = { s with mem := mem', freep := p }) ∧
      Listed mem' base (insert b frees) ∧ p ∈ base :: (insert b frees).map addr ∧
      ∀ z, z ≠ base → z ≠ b.addr → (∀ c ∈ frees, z ≠ c.addr) → mem' z = s.mem z := by
  have hne : ∀ c ∈ frees, c.addr ≠ b.addr := by
    intro c hc
    have hcb := hapart c hc
    have hc' := hpos c hc
    simp only [Apart, stop] at hcb
    omega
  obtain ⟨ls, q, rs, hsplit, hls, hq, hrs⟩ := hlist.ordered.exists_place (b := b) hbase hne
  have hrun : ∀ fuel, free fuel s (b.addr + 16) = (search (fits s.mem b.addr) s.mem.next fuel
      s.freep).map fun p ↦
        { s with mem := attach (attach s.mem b.addr (s.mem p).ptr) p b.addr, freep := p } := by
    intro fuel
    unfold free
    rw [Nat.add_sub_cancel]
    dsimp only
    cases search (fits s.mem b.addr) s.mem.next fuel s.freep <;> rfl
  have hsearch : ∀ fuel, frees.length < fuel →
      search (fits s.mem b.addr) s.mem.next fuel s.freep = some q.addr := fun fuel hfuel ↦
    search_fits hlist hbase hsplit hq hrs hfreep hfuel
  obtain ⟨hlisted, hmem⟩ := hlist.relink hb hbase hapart hpos hbound hsplit hls hq hrs
  refine ⟨relink s.mem b q, q.addr, fun fuel hfuel ↦ ?_, fun fuel s' hs' ↦ ?_, hlisted, hmem,
    fun z hbase' hzb hz ↦ relink_of_ne hzb ?_⟩
  · rw [hrun, hsearch fuel hfuel]
    rfl
  · rw [hrun] at hs'
    obtain ⟨p, hp, rfl⟩ := Option.map_eq_some_iff.mp hs'
    have hp' := search_mono hp (Nat.le_add_right fuel (frees.length + 1))
    rw [hsearch _ (by omega)] at hp'
    cases hp'
    rfl
  · have hq_mem : q ∈ (⟨base, 0⟩ : Block) :: frees := by
      rw [hsplit]
      exact List.mem_append_right _ List.mem_cons_self
    rcases List.mem_cons.mp hq_mem with rfl | hq_mem
    · exact hbase'
    · exact hz q hq_mem

/-! ## `malloc` takes a block -/

@[simp] theorem setPtr_size (mem : Memory) (x y z : ℕ) : (mem.setPtr x y z).size = (mem z).size := by
  by_cases hz : z = x
  · simp [Memory.setPtr, hz]
  · simp [Memory.setPtr, Function.update_of_ne hz]

@[simp] theorem setSize_next (mem : Memory) (x : ℕ) (size : UInt32) :
    (mem.setSize x size).next = mem.next := by
  funext z
  by_cases hz : z = x
  · simp [Memory.next, Memory.setSize, hz]
  · simp [Memory.next, Memory.setSize, Function.update_of_ne hz]

theorem setSize_of_ne {size : UInt32} (hz : z ≠ x) : mem.setSize x size z = mem z :=
  Function.update_of_ne hz _ _

@[simp] theorem setSize_size (mem : Memory) (x : ℕ) (size : UInt32) :
    (mem.setSize x size x).size = size := by
  simp [Memory.setSize]

/-- What follows a node of a list, cut off from what is before it. -/
theorem exists_before {α : Type*} {a d : α} {as ls ts : List α} (hsplit : a :: as = ls ++ d :: ts) :
    ∃ pre, ls ++ [d] = a :: pre ∧ as = pre ++ ts := by
  cases ls with
  | nil =>
    obtain ⟨rfl, rfl⟩ := List.cons_eq_cons.mp hsplit
    exact ⟨[], rfl, rfl⟩
  | cons l ls =>
    obtain ⟨rfl, rfl⟩ := List.cons_eq_cons.mp hsplit
    exact ⟨ls ++ [d], rfl, by simp⟩

/-- The node before a node of the free list with a size, and the list around them. -/
theorem Listed.exists_around (hlist : Listed mem base frees) (hx : x ∈ base :: frees.map addr)
    (hsize : 0 < (mem (mem.next x)).size.toNat) :
    ∃ pre d c rs, frees = pre ++ c :: rs ∧ d.addr = x ∧ c.addr = mem.next x ∧
      ∃ ls, ls ++ [d] = ⟨base, 0⟩ :: pre := by
  have hne : mem.next x ≠ base := by
    intro heq
    have hbase : Sized mem ⟨base, 0⟩ := hlist.sized _ List.mem_cons_self
    rw [heq] at hsize
    simp only [Sized] at hbase
    omega
  obtain ⟨ys, zs, hsplit⟩ := hlist.circular.exists_split hx hne
  have hmap : ((⟨base, 0⟩ : Block) :: frees).map addr = ys ++ x :: mem.next x :: zs := hsplit
  obtain ⟨ls, ts, hnodes, -, hts⟩ := List.map_eq_append_iff.mp hmap
  obtain ⟨d, ts', rfl, hd, hts'⟩ := List.map_eq_cons_iff.mp hts
  obtain ⟨c, rs, rfl, hc, -⟩ := List.map_eq_cons_iff.mp hts'
  obtain ⟨pre, hpre, hfrees⟩ := exists_before hnodes
  exact ⟨pre, d, c, rs, hfrees, hd, hc, ls, hpre⟩

variable {pre : List Block} {d : Block}

theorem Listed.unlink (hlist : Listed mem base (pre ++ c :: rs))
    (hpre : ls ++ [d] = ⟨base, 0⟩ :: pre) :
    Listed (mem.setPtr d.addr (mem.next c.addr)) base (pre ++ rs) := by
  have hnodes : ∀ ts, (⟨base, 0⟩ : Block) :: (pre ++ ts) = ls ++ d :: ts := fun ts ↦ by
    rw [← List.cons_append, ← hpre, List.append_assoc]
    rfl
  have haddrs : ∀ ts, ls.map addr ++ d.addr :: ts.map addr = base :: (pre ++ ts).map addr :=
    fun ts ↦ by simpa using (congrArg (List.map addr) (hnodes ts)).symm
  have hordered := hlist.ordered
  rw [hnodes] at hordered
  have hordered' := List.pairwise_append.mp hordered
  have hother : ∀ e ∈ rs ++ ls, e.addr ≠ d.addr := by
    intro e he
    rcases List.mem_append.mp he with he | he
    · have h := (List.pairwise_cons.mp hordered'.2.1).1 e (List.mem_cons_of_mem _ he)
      simp only [stop] at h
      omega
    · have h := hordered'.2.2 e he d List.mem_cons_self
      simp only [stop] at h
      omega
  have hcircular := (path_rotate (haddrs (c :: rs))).mpr hlist.circular
  refine ⟨(path_rotate (haddrs rs)).mp (hcircular.2.start ?_ fun z hz ↦ ?_), fun e he ↦ ?_,
    hlist.ordered.sublist ?_⟩
  · simp [Memory.next, Memory.setPtr]
  · have hz' : z ∈ (rs ++ ls).map addr := by
      rw [List.map_append]
      exact hz
    obtain ⟨e, he, rfl⟩ := List.mem_map.mp hz'
    exact next_eq (Function.update_of_ne (hother e he) _ _)
  · rw [Sized, setPtr_size]
    refine hlist.sized e ?_
    simp only [List.mem_cons, List.mem_append] at he ⊢
    tauto
  · exact ((List.sublist_cons_self c rs).append_left pre).cons_cons _

/-- The tail of a block is cut off, and its header is written. -/
theorem Listed.cut {k n : UInt32} (hlist : Listed mem base (pre ++ c :: rs)) (hk : 0 < k.toNat)
    (hn : 0 < n.toNat) (hsum : (mem c.addr).size.toNat = k.toNat + n.toNat) :
    Listed ((mem.setSize c.addr k).setSize (c.addr + 16 * k.toNat) n) base
      (pre ++ ⟨c.addr, 16 * k.toNat⟩ :: rs) := by
  have hc : Sized mem c := hlist.sized c (by simp)
  have hstop : c.stop = c.addr + 16 * (k.toNat + n.toNat) := by
    rw [← hc.after_eq, Memory.after, hsum]
  have hordered := hlist.ordered
  rw [← List.cons_append] at hordered
  obtain ⟨hpre, hc_rs, hprec⟩ := List.pairwise_append.mp hordered
  obtain ⟨hcrs, hrs⟩ := List.pairwise_cons.mp hc_rs
  -- the new header lies inside the block
  have hother : ∀ e, e ∈ (⟨base, 0⟩ : Block) :: pre ∨ e ∈ rs →
      e.addr ≠ c.addr ∧ e.addr ≠ c.addr + 16 * k.toNat := by
    rintro e (he | he)
    · have h := hprec e he c List.mem_cons_self
      simp only [stop] at h
      omega
    · have h := hcrs e he
      rw [hstop] at h
      omega
  have hkeep : ∀ e, e ∈ (⟨base, 0⟩ : Block) :: pre ∨ e ∈ rs →
      Sized ((mem.setSize c.addr k).setSize (c.addr + 16 * k.toNat) n) e := by
    intro e he
    have hsized : Sized mem e := hlist.sized e (by
      simp only [List.mem_cons, List.mem_append] at he ⊢
      tauto)
    refine hsized.of_eq ?_
    rw [setSize_of_ne (hother e he).2, setSize_of_ne (hother e he).1]
  refine ⟨?_, fun e he ↦ ?_, ?_⟩
  · rw [setSize_next, setSize_next]
    simpa using hlist.circular
  · rw [← List.cons_append] at he
    rcases List.mem_append.mp he with he | he
    · exact hkeep e (.inl he)
    · rcases List.mem_cons.mp he with rfl | he
      · have hne : c.addr ≠ c.addr + 16 * k.toNat := by omega
        rw [Sized, setSize_of_ne hne, setSize_size]
      · exact hkeep e (.inr he)
  · rw [← List.cons_append]
    refine List.pairwise_append.mpr
      ⟨hpre, List.pairwise_cons.mpr ⟨fun e he ↦ ?_, hrs⟩, fun e he f hf ↦ ?_⟩
    · have h := hcrs e he
      rw [hstop] at h
      simp only [stop]
      omega
    · rcases List.mem_cons.mp hf with rfl | hf
      · exact hprec e he c List.mem_cons_self
      · exact hprec e he f (List.mem_cons_of_mem _ hf)

/-- `malloc` found the block `next prevp` large enough: a block of `nunits` leaves the free list. -/
theorem exists_carve {s : State} {nunits : UInt32} (hlist : Listed s.mem base frees)
    (hprev : x ∈ base :: frees.map addr) (hpos : ∀ c ∈ frees, 0 < c.length)
    (hn : 0 < nunits.toNat) (hsize : nunits ≤ (s.mem (s.mem.next x)).size) :
    ∃ mem' b frees', carve s nunits x (s.mem.next x) =
        (b.addr + 16, { s with mem := mem', freep := x }) ∧
      b.length = 16 * nunits.toNat ∧ Sized mem' b ∧ Listed mem' base frees' ∧
      x ∈ base :: frees'.map addr ∧
      (∀ bs regions, Tiling (frees ++ bs) regions → Tiling (frees' ++ b :: bs) regions) ∧
      ∀ z, z ≠ base → (∀ c ∈ frees, z < c.addr ∨ c.stop ≤ z) → mem' z = s.mem z := by
  have hle : nunits.toNat ≤ (s.mem (s.mem.next x)).size.toNat := UInt32.le_iff_toNat_le.mp hsize
  obtain ⟨pre, d, c, rs, rfl, rfl, hc, ls, hls⟩ := hlist.exists_around hprev (by omega)
  have hcsized : Sized s.mem c := hlist.sized c (by simp)
  have hd : d = ⟨base, 0⟩ ∨ d ∈ pre := by
    have hmem : d ∈ (⟨base, 0⟩ : Block) :: pre := hls ▸ List.mem_append_right _ List.mem_cons_self
    exact List.mem_cons.mp hmem
  have hd_mem : ∀ ts : List Block, d.addr ∈ base :: (pre ++ ts).map addr := by
    intro ts
    rcases hd with rfl | hd
    · exact List.mem_cons_self
    · exact List.mem_cons_of_mem _ (List.mem_map_of_mem (List.mem_append_left _ hd))
  rw [← hc] at hle ⊢
  unfold carve
  by_cases heq : (s.mem c.addr).size = nunits
  · rw [if_pos heq]
    refine ⟨_, c, pre ++ rs, rfl, ?_, ?_, hlist.unlink hls, hd_mem rs, fun bs regions htiling ↦ ?_,
      fun z hbase hz ↦ Function.update_of_ne ?_ _ _⟩
    · rw [← hcsized, heq]
    · rw [Sized, setPtr_size]
      exact hcsized
    · refine htiling.perm ?_
      simp only [List.append_assoc]
      exact List.Perm.append_left pre List.perm_middle.symm
    · rcases hd with rfl | hd
      · exact hbase
      · have hz' := hz d (List.mem_append_left _ hd)
        have hd' := hpos d (List.mem_append_left _ hd)
        simp only [stop] at hz'
        omega
  · rw [if_neg heq]
    have hlt : nunits.toNat < (s.mem c.addr).size.toNat :=
      lt_of_le_of_ne hle fun h ↦ heq (UInt32.toNat_inj.mp h.symm)
    obtain ⟨k, hk⟩ : ∃ k, k = (s.mem c.addr).size - nunits := ⟨_, rfl⟩
    have hsum : (s.mem c.addr).size.toNat = k.toNat + nunits.toNat := by
      rw [hk, UInt32.toNat_sub_of_le _ _ (UInt32.le_iff_toNat_le.mpr hle)]
      omega
    have hafter : (s.mem.setSize c.addr k).after c.addr = c.addr + 16 * k.toNat := by
      rw [Memory.after, setSize_size]
    rw [← hk]
    dsimp only
    rw [hafter]
    refine ⟨_, ⟨c.addr + 16 * k.toNat, 16 * nunits.toNat⟩, _, rfl, rfl, ?_,
      hlist.cut (by omega) hn hsum, hd_mem _, fun bs regions htiling ↦ ?_, fun z hbase hz ↦ ?_⟩
    · rw [Sized, setSize_size]
    · have hc' : c = ⟨c.addr, 16 * k.toNat + 16 * nunits.toNat⟩ := by
        rw [← Nat.mul_add, ← hsum, hcsized]
      rw [hc'] at htiling
      exact htiling.split_at (by omega) (by omega)
    · have hzc := hz c (by simp)
      have hclength : c.length = 16 * (s.mem c.addr).size.toNat := hcsized.symm
      simp only [stop] at hzc
      rw [setSize_of_ne (by omega), setSize_of_ne (by omega)]

end EnhancedXv6.Heap
