import EnhancedXv6.Heap.Operations

/-!
# The heap

The invariant of the allocator with its live blocks: the free list stands in the memory, and free and
live blocks together tile the memory obtained from `sbrk`.  `free` and `malloc` keep it as long as
`sbrk` has given fewer than `2 ^ 32` units, and both loops end.
-/

namespace EnhancedXv6.Heap

open Block

/-- `sbrk` has given a region of `nu` units, and `morecore` has written its header. -/
def State.extend (s : State) (gap : ℕ) (nu : UInt32) : State :=
  { s with
    mem := s.mem.setSize (s.top + gap) nu
    calls := s.calls + 1
    top := s.top + gap + 16 * nu.toNat
    granted := ⟨s.top + gap, 16 * nu.toNat⟩ :: s.granted }

structure HeapInv (base : ℕ) (s : State) (live frees : List Block) : Prop where
  listed : Listed s.mem base frees
  freep : s.freep ∈ base :: frees.map addr
  tiling : Tiling (frees ++ live) s.granted
  sized : ∀ b ∈ live, Sized s.mem b
  above : ∀ r ∈ s.granted, base + 16 ≤ r.addr
  below : ∀ r ∈ s.granted, r.stop ≤ s.top
  top : base + 16 ≤ s.top

variable {base : ℕ} {s s' : State} {b : Block} {live frees : List Block}

namespace HeapInv

theorem pos (hs : HeapInv base s live frees) : ∀ c ∈ frees, 0 < c.length := fun c hc ↦
  hs.tiling.pos c (List.mem_append_left _ hc)

/-- A live block is apart from every free one. -/
theorem apart (hs : HeapInv base s live frees) (hb : b ∈ live) : ∀ c ∈ frees, Apart b c :=
  fun c hc ↦ ((List.pairwise_append.mp hs.tiling.apart).2.2 c hc b hb).symm

theorem base_lt (hs : HeapInv base s live frees) (hb : b ∈ live) : base + 16 ≤ b.addr :=
  hs.tiling.le_addr (List.mem_append_right _ hb) hs.above

theorem perm {live' : List Block} (hs : HeapInv base s live frees) (hlive : live.Perm live') :
    HeapInv base s live' frees :=
  ⟨hs.listed, hs.freep, hs.tiling.perm (hlive.append_left frees),
    fun b hb ↦ hs.sized b (hlive.mem_iff.mpr hb), hs.above, hs.below, hs.top⟩

theorem of_mem_eq {mem : Memory} (hs : HeapInv base s live frees) (hbase : mem base = s.mem base)
    (hblocks : ∀ b ∈ frees ++ live, mem b.addr = s.mem b.addr) :
    HeapInv base { s with mem := mem } live frees := by
  have hfrees : ∀ b ∈ (⟨base, 0⟩ : Block) :: frees, mem b.addr = s.mem b.addr :=
    List.forall_mem_cons.mpr ⟨hbase, fun b hb ↦ hblocks b (List.mem_append_left _ hb)⟩
  refine ⟨⟨hs.listed.circular.congr fun a ha ↦ ?_, fun b hb ↦ ?_, hs.listed.ordered⟩, hs.freep,
    hs.tiling, fun b hb ↦ ?_, hs.above, hs.below, hs.top⟩
  · obtain ⟨b, hb, rfl⟩ :=
      List.mem_map.mp (List.map_cons ▸ ha : a ∈ ((⟨base, 0⟩ : Block) :: frees).map addr)
    exact next_eq (hfrees b hb)
  · exact (hs.listed.sized b hb).of_eq (hfrees b hb)
  · exact (hs.sized b hb).of_eq (hblocks b (List.mem_append_right _ hb))

theorem freep_ne_zero (hs : HeapInv base s live frees) (hbase : 0 < base) : s.freep ≠ 0 := by
  have hle : base ≤ s.freep := by
    rcases List.mem_cons.mp hs.freep with heq | hmem
    · exact heq.ge
    · obtain ⟨c, hc, heq⟩ := List.mem_map.mp hmem
      have hlt := (List.pairwise_cons.mp hs.listed.ordered).1 c hc
      exact heq ▸ hlt.le
  omega

theorem exists_free (hs : HeapInv base s (b :: live) frees)
    (hbound : total s.granted < 16 * 2 ^ 32) :
    ∃ s', (∀ fuel, frees.length < fuel → free fuel s (b.addr + 16) = some s') ∧
      (∀ fuel s'', free fuel s (b.addr + 16) = some s'' → s'' = s') ∧
      HeapInv base s' live (insert b frees) ∧ s'.granted = s.granted := by
  have htiling : Tiling (b :: frees ++ live) s.granted := hs.tiling.perm List.perm_middle
  have htotal := htiling.total
  rw [List.cons_append, total_cons, total_append] at htotal
  have hb := hs.base_lt List.mem_cons_self
  have hpos := htiling.pos b List.mem_cons_self
  have hfrees := hs.apart List.mem_cons_self
  obtain ⟨mem', p, hrun, hunique, hlisted, hp, hframe⟩ := Heap.exists_free hs.listed hs.freep
    (hs.sized b List.mem_cons_self) (by omega) hpos hfrees hs.pos (by omega)
  refine ⟨_, hrun, hunique, ⟨hlisted, hp, htiling.insert, fun c hc ↦ ?_, hs.above, hs.below, hs.top⟩,
    rfl⟩
  have hc' := hs.base_lt (List.mem_cons_of_mem _ hc)
  have hcpos := htiling.pos c (List.mem_append_right _ hc)
  have hbc := htiling.apart_of_mem (List.mem_append_right frees hc)
  refine (hs.sized c (List.mem_cons_of_mem _ hc)).of_eq (hframe _ (by omega) ?_ fun d hd heq ↦ ?_)
  · simp only [Apart, stop] at hbc
    omega
  · have hcd := hs.apart (List.mem_cons_of_mem _ hc) d hd
    have hdpos := hs.pos d hd
    simp only [Apart, stop] at hcd
    omega

theorem extend {nu : UInt32} (hs : HeapInv base s live frees) (gap : ℕ) (hnu : 0 < nu.toNat) :
    HeapInv base (s.extend gap nu) (⟨s.top + gap, 16 * nu.toNat⟩ :: live) frees := by
  have hbelow : ∀ r ∈ s.granted, r.stop ≤ s.top + gap := fun r hr ↦
    (hs.below r hr).trans (Nat.le_add_right _ _)
  have hstop : ∀ c ∈ frees ++ live, c.addr ≠ s.top + gap := by
    intro c hc
    have hle := hs.tiling.stop_le hc hbelow
    have hpos := hs.tiling.pos c hc
    rw [stop] at hle
    omega
  have htop := hs.top
  unfold State.extend
  refine ⟨⟨?_, fun c hc ↦ ?_, hs.listed.ordered⟩, hs.freep, ?_, ?_, ?_, ?_, ?_⟩
  · rw [setSize_next]
    exact hs.listed.circular
  · refine (hs.listed.sized c hc).of_eq (setSize_of_ne ?_)
    rcases List.mem_cons.mp hc with rfl | hc
    · dsimp only
      omega
    · exact hstop c (List.mem_append_left _ hc)
  · exact (hs.tiling.grant hbelow (by omega)).perm List.perm_middle.symm
  · refine List.forall_mem_cons.mpr ⟨?_, fun c hc ↦ ?_⟩
    · rw [Sized, setSize_size]
    · exact (hs.sized c hc).of_eq (setSize_of_ne (hstop c (List.mem_append_right _ hc)))
  · exact List.forall_mem_cons.mpr ⟨by dsimp only; omega, hs.above⟩
  · refine List.forall_mem_cons.mpr ⟨le_rfl, fun r hr ↦ (hbelow r hr).trans ?_⟩
    exact Nat.le_add_right _ _
  · dsimp only
    omega

end HeapInv

/-! ## `morecore` -/

def request (nu : UInt32) : UInt32 :=
  if nu < 4096 then 4096 else nu

theorem toNat_request (nu : UInt32) : (request nu).toNat = max nu.toNat 4096 := by
  unfold request
  split
  · rename_i hlt
    have hlt' : nu.toNat < 4096 := UInt32.lt_iff_toNat_lt.mp hlt
    rw [max_eq_right hlt'.le]
    rfl
  · rename_i hle
    have hle' : ¬ nu.toNat < 4096 := fun h ↦ hle (UInt32.lt_iff_toNat_lt.mpr h)
    rw [max_eq_left (by omega)]

/-- The argument of `sbrk` for a request that fits in an `int`. -/
theorem toInt_request {nu : UInt32} (hnu : 16 * nu.toNat < 2 ^ 31) :
    ((nu.toUInt64 * 16).toUInt32.toInt32).toInt.toNat = 16 * nu.toNat := by
  have hword : (nu.toUInt64 * 16).toUInt32.toNat = 16 * nu.toNat := by
    rw [UInt64.toNat_toUInt32, UInt64.toNat_mul, UInt32.toNat_toUInt64]
    change nu.toNat * 16 % 2 ^ 64 % 2 ^ 32 = _
    omega
  have hint : (nu.toUInt64 * 16).toUInt32.toInt32.toInt = (16 * nu.toNat : ℕ) := by
    rw [← hword]
    exact BitVec.toInt_eq_toNat_of_lt (by
      change 2 * (nu.toUInt64 * 16).toUInt32.toNat < 2 ^ 32
      omega)
  rw [hint, Int.toNat_natCast]

variable {answer : ℕ → Option ℕ} {fuel gap : ℕ} {nunits : UInt32}

theorem morecore_of_none (hanswer : answer s.calls = none) :
    morecore answer fuel s nunits = some (0, { s with calls := s.calls + 1 }) := by
  simp [morecore, sbrk, hanswer]

theorem morecore_of_some (hanswer : answer s.calls = some gap)
    (hint : 16 * nunits.toNat < 2 ^ 31) :
    morecore answer fuel s nunits =
      (free fuel (s.extend gap (request nunits)) (s.top + gap + 16)).map fun s ↦ (s.freep, s) := by
  have hrequest : 16 * (request nunits).toNat < 2 ^ 31 := by
    rw [toNat_request]
    omega
  unfold morecore
  rw [← request]
  simp only [sbrk, hanswer, toInt_request hrequest]
  change (free fuel (s.extend gap (request nunits)) (s.top + gap + 16)).bind
    (fun s ↦ some (s.freep, s)) = _
  cases free fuel (s.extend gap (request nunits)) (s.top + gap + 16) <;> rfl

theorem free_granted {ap : ℕ} (hfree : free fuel s ap = some s') : s'.granted = s.granted := by
  obtain ⟨p, -, hs'⟩ := Option.bind_eq_some_iff.mp hfree
  cases hs'
  rfl

theorem morecore_total_le {p : ℕ} (hmore : morecore answer fuel s nunits = some (p, s')) :
    total s.granted ≤ total s'.granted := by
  unfold morecore sbrk at hmore
  cases hanswer : answer s.calls with
  | none =>
    simp only [hanswer] at hmore
    cases hmore
    exact le_rfl
  | some gap =>
    simp only [hanswer] at hmore
    obtain ⟨s₁, hfree, hs'⟩ := Option.bind_eq_some_iff.mp hmore
    cases hs'
    rw [free_granted hfree, total_cons]
    exact Nat.le_add_left _ _

/-- `morecore` when `sbrk` gives memory: the new block goes to the free list. -/
theorem HeapInv.exists_morecore (hs : HeapInv base s live frees)
    (hanswer : answer s.calls = some gap) (hint : 16 * nunits.toNat < 2 ^ 31)
    (hbound : total s.granted + 16 * (request nunits).toNat < 16 * 2 ^ 32) :
    ∃ s', (∀ fuel, frees.length < fuel → morecore answer fuel s nunits = some (s'.freep, s')) ∧
      (∀ fuel r, morecore answer fuel s nunits = some r → r = (s'.freep, s')) ∧
      ∃ frees', HeapInv base s' live frees' ∧ ∃ c ∈ frees', 16 * nunits.toNat ≤ c.length := by
  have hrequest := toNat_request nunits
  obtain ⟨s', hrun, hunique, hs', -⟩ := (hs.extend gap
    (by omega : 0 < (request nunits).toNat)).exists_free (by
      rw [State.extend, total_cons]
      dsimp only
      omega)
  refine ⟨s', fun fuel hfuel ↦ ?_, fun fuel r hr ↦ ?_, _, hs', ?_⟩
  · rw [morecore_of_some hanswer hint, hrun fuel hfuel]
    rfl
  · rw [morecore_of_some hanswer hint] at hr
    obtain ⟨s'', hfree, rfl⟩ := Option.map_eq_some_iff.mp hr
    rw [hunique fuel s'' hfree]
  · obtain ⟨c, hc, hle⟩ := exists_length_le_insert ⟨s.top + gap, 16 * (request nunits).toNat⟩ frees
    dsimp only at hle
    exact ⟨c, hc, by omega⟩

/-! ## `malloc` -/

theorem carve_granted {prevp p : ℕ} : (carve s nunits prevp p).2.granted = s.granted := by
  unfold carve
  split <;> rfl

theorem mallocLoop_total_le {prevp p r : ℕ}
    (hrun : mallocLoop answer nunits fuel s prevp p = some (r, s')) :
    total s.granted ≤ total s'.granted := by
  induction fuel generalizing s prevp p with
  | zero => cases hrun
  | succ fuel ih =>
    rw [mallocLoop] at hrun
    split at hrun
    · have hs' : (carve s nunits prevp p).2 = s' := congrArg Prod.snd (Option.some.inj hrun)
      rw [← hs', carve_granted]
    · split at hrun
      · obtain ⟨⟨p', s₁⟩, hmore, hrun⟩ := Option.bind_eq_some_iff.mp hrun
        have hle := morecore_total_le hmore
        dsimp only at hrun
        split at hrun
        · cases hrun
          exact hle
        · exact hle.trans (ih hrun)
      · exact ih hrun

/-- The live blocks and the free list after `malloc`: it fails, or gives a new live block. -/
def Allocated (base : ℕ) (nunits : UInt32) (live : List Block) (r : ℕ) (s : State) : Prop :=
  (r = 0 ∧ ∃ frees, HeapInv base s live frees) ∨
    ∃ b frees, r = b.addr + 16 ∧ b.length = 16 * nunits.toNat ∧ HeapInv base s (b :: live) frees

/-- `malloc` takes the block that it found. -/
theorem HeapInv.carve {x : ℕ} (hs : HeapInv base s live frees) (hx : x ∈ base :: frees.map addr)
    (hn : 0 < nunits.toNat) (hsize : nunits ≤ (s.mem (s.mem.next x)).size) :
    Allocated base nunits live (carve s nunits x (s.mem.next x)).1
      (carve s nunits x (s.mem.next x)).2 := by
  obtain ⟨mem', b, frees', hcarve, hlength, hb, hlisted, hx', htiling, hframe⟩ :=
    exists_carve hs.listed hx hs.pos hn hsize
  rw [hcarve]
  refine .inr ⟨b, frees', rfl, hlength, hlisted, hx', htiling live _ hs.tiling,
    List.forall_mem_cons.mpr ⟨hb, fun c hc ↦ ?_⟩, hs.above, hs.below, hs.top⟩
  have hc' := hs.base_lt hc
  have hpos := hs.tiling.pos c (List.mem_append_right _ hc)
  refine (hs.sized c hc).of_eq (hframe _ (by omega) fun d hd ↦ ?_)
  have hcd := hs.apart hc d hd
  simp only [Apart, stop] at hcd ⊢
  omega

/-- A search that returns has allocated a block, or `sbrk` has failed. -/
theorem HeapInv.mallocLoop {x r : ℕ} (hs : HeapInv base s live frees)
    (hx : x ∈ base :: frees.map addr) (hn : 0 < nunits.toNat) (hint : 16 * nunits.toNat < 2 ^ 31)
    (hrun : mallocLoop answer nunits fuel s x (s.mem.next x) = some (r, s'))
    (hbound : total s'.granted < 16 * 2 ^ 32) : Allocated base nunits live r s' := by
  induction fuel generalizing s frees x with
  | zero => cases hrun
  | succ fuel ih =>
    rw [Heap.mallocLoop] at hrun
    split at hrun
    · rename_i hsize
      have hcarve := hs.carve hx hn hsize
      rwa [Option.some.inj hrun] at hcarve
    · split at hrun
      · obtain ⟨⟨p, s₁⟩, hmore, hrun⟩ := Option.bind_eq_some_iff.mp hrun
        dsimp only at hrun
        cases hanswer : answer s.calls with
        | none =>
          rw [morecore_of_none hanswer] at hmore
          cases hmore
          cases hrun
          exact .inl ⟨rfl, frees, hs.listed, hs.freep, hs.tiling, hs.sized, hs.above, hs.below,
            hs.top⟩
        | some gap =>
          have htotal : total s₁.granted =
              16 * (request nunits).toNat + total s.granted := by
            rw [morecore_of_some hanswer hint] at hmore
            obtain ⟨s₂, hfree, heq⟩ := Option.map_eq_some_iff.mp hmore
            cases heq
            rw [free_granted hfree, State.extend, total_cons]
          have hle : total s₁.granted ≤ total s'.granted := by
            split at hrun
            · cases hrun
              exact le_rfl
            · exact mallocLoop_total_le hrun
          obtain ⟨s₂, -, hunique, frees', hs₂, -⟩ :=
            hs.exists_morecore hanswer hint (by omega)
          cases hunique fuel _ hmore
          split at hrun
          · cases hrun
            exact .inl ⟨rfl, frees', hs₂⟩
          · exact ih hs₂ hs₂.freep hrun
      · exact ih hs (hs.listed.circular.next_mem hx) hrun

/-! ## The loop of `malloc` ends -/

/-- The loop goes past blocks that are too small. -/
theorem mallocLoop_walk (answer : ℕ → Option ℕ) {x y : ℕ} {ys : List ℕ} (hpath : Path s.mem.next x ys y)
    (hgo : ∀ z ∈ ys, ¬ nunits ≤ (s.mem z).size ∧ z ≠ s.freep) :
    ∃ prevp, ∀ fuel, mallocLoop answer nunits (ys.length + fuel) s x (s.mem.next x) =
      mallocLoop answer nunits fuel s prevp y := by
  induction ys generalizing x with
  | nil =>
    have hnext : s.mem.next x = y := hpath
    exact ⟨x, fun fuel ↦ by rw [hnext, List.length_nil, Nat.zero_add]⟩
  | cons z ys ih =>
    obtain ⟨hnext, hpath⟩ := hpath
    obtain ⟨⟨hsize, hz⟩, hrest⟩ := List.forall_mem_cons.mp hgo
    obtain ⟨prevp, hwalk⟩ := ih hpath hrest
    refine ⟨prevp, fun fuel ↦ ?_⟩
    rw [hnext, List.length_cons, Nat.add_right_comm, mallocLoop, if_neg hsize, if_neg hz]
    exact hwalk fuel

/-- From `freep` the loop comes to a block that is large enough, or back to `freep` if there is
none. -/
theorem Listed.exists_walk (hlisted : Listed s.mem base frees)
    (hfreep : s.freep ∈ base :: frees.map addr) (answer : ℕ → Option ℕ) (nunits : UInt32) :
    ∃ k prevp p, p ∈ base :: frees.map addr ∧ (∀ fuel, Heap.mallocLoop answer nunits (k + fuel) s s.freep
        (s.mem.next s.freep) = Heap.mallocLoop answer nunits fuel s prevp p) ∧
      (nunits ≤ (s.mem p).size ∨
        p = s.freep ∧ ∀ c ∈ frees, ¬ nunits ≤ (s.mem c.addr).size) := by
  obtain ⟨ys, zs, hsplit⟩ := List.append_of_mem hfreep
  have hcircular := (path_rotate hsplit.symm).mpr hlisted.circular
  have hnotin : s.freep ∉ zs ++ ys := by
    have hordered : (base :: frees.map addr).Pairwise (· < ·) := hlisted.ordered.addr_lt
    rw [hsplit, List.pairwise_append, List.pairwise_cons] at hordered
    rw [List.mem_append]
    rintro (hmem | hmem)
    · exact lt_irrefl _ (hordered.2.1.1 _ hmem)
    · exact lt_irrefl _ (hordered.2.2 _ hmem _ List.mem_cons_self)
  -- the first node that is large enough or is `freep`
  obtain ⟨p, hp⟩ : ∃ p, (zs ++ ys ++ [s.freep]).find?
      (fun z ↦ decide (nunits ≤ (s.mem z).size ∨ z = s.freep)) = some p := by
    refine Option.isSome_iff_exists.mp (List.find?_isSome.mpr ⟨s.freep, ?_, ?_⟩)
    · exact List.mem_append_right _ List.mem_cons_self
    · simp
  obtain ⟨hstop, as, bs, hlist, has⟩ := List.find?_eq_some_iff_append.mp hp
  rw [decide_eq_true_eq] at hstop
  have hgo : ∀ z ∈ as, ¬ nunits ≤ (s.mem z).size ∧ z ≠ s.freep := by
    intro z hz
    simpa using has z hz
  obtain ⟨prevp, hwalk⟩ := mallocLoop_walk answer (hcircular.take hlist) hgo
  have hmem : p ∈ base :: frees.map addr := by
    have hp' : p ∈ zs ++ ys ++ [s.freep] := hlist ▸ List.mem_append_right _ List.mem_cons_self
    rw [hsplit]
    simp only [List.mem_append, List.mem_cons, List.not_mem_nil, or_false] at hp' ⊢
    tauto
  refine ⟨as.length, prevp, p, hmem, hwalk, ?_⟩
  by_cases hsize : nunits ≤ (s.mem p).size
  · exact .inl hsize
  · obtain rfl := hstop.resolve_left hsize
    refine .inr ⟨rfl, fun c hc hle ↦ ?_⟩
    have has : as = zs ++ ys :=
      ((List.append_cons_inj_of_notMem hnotin List.not_mem_nil).mp hlist).1.symm
    have hmem : c.addr ∈ base :: frees.map addr :=
      List.mem_cons_of_mem _ (List.mem_map_of_mem hc)
    rw [hsplit] at hmem
    by_cases hcp : c.addr = s.freep
    · exact hsize (hcp ▸ hle)
    · refine (hgo c.addr ?_).1 hle
      rw [has]
      simp only [List.mem_append, List.mem_cons] at hmem ⊢
      tauto

theorem isSome_mallocLoop_of_walk {k prevp p : ℕ}
    (hwalk : ∀ fuel, mallocLoop answer nunits (k + fuel) s s.freep (s.mem.next s.freep) =
      mallocLoop answer nunits fuel s prevp p)
    (hsize : nunits ≤ (s.mem p).size) (hfuel : k < fuel) :
    (mallocLoop answer nunits fuel s s.freep (s.mem.next s.freep)).isSome := by
  obtain ⟨fuel, rfl⟩ := Nat.exists_eq_add_of_lt hfuel
  rw [Nat.add_assoc, hwalk, mallocLoop, if_pos hsize]
  rfl

/-- The loop ends when some free block is large enough. -/
theorem HeapInv.exists_mallocLoop_of_le (hs : HeapInv base s live frees) (answer : ℕ → Option ℕ)
    (hfound : ∃ c ∈ frees, 16 * nunits.toNat ≤ c.length) :
    ∃ k, ∀ fuel, k < fuel →
      (Heap.mallocLoop answer nunits fuel s s.freep (s.mem.next s.freep)).isSome := by
  obtain ⟨k, prevp, p, -, hwalk, hsize | ⟨-, hsmall⟩⟩ :=
    hs.listed.exists_walk hs.freep answer nunits
  · exact ⟨k, fun fuel hfuel ↦ isSome_mallocLoop_of_walk hwalk hsize hfuel⟩
  · obtain ⟨c, hc, hle⟩ := hfound
    have hsized : Sized s.mem c := hs.listed.sized c (List.mem_cons_of_mem _ hc)
    refine absurd (UInt32.le_iff_toNat_le.mpr ?_) (hsmall c hc)
    rw [Sized] at hsized
    omega

/-- The loop of `malloc` ends, after at most one call of `morecore`. -/
theorem HeapInv.exists_mallocLoop (hs : HeapInv base s live frees) (answer : ℕ → Option ℕ)
    (hbase : 0 < base)
    (hint : 16 * nunits.toNat < 2 ^ 31)
    (hbound : total s.granted + 16 * (request nunits).toNat < 16 * 2 ^ 32) :
    ∃ k, ∀ fuel, k < fuel →
      (Heap.mallocLoop answer nunits fuel s s.freep (s.mem.next s.freep)).isSome := by
  obtain ⟨k, prevp, p, -, hwalk, hsize | ⟨rfl, hsmall⟩⟩ :=
    hs.listed.exists_walk hs.freep answer nunits
  · exact ⟨k, fun fuel hfuel ↦ isSome_mallocLoop_of_walk hwalk hsize hfuel⟩
  · by_cases hsize : nunits ≤ (s.mem s.freep).size
    · exact ⟨k, fun fuel hfuel ↦ isSome_mallocLoop_of_walk hwalk hsize hfuel⟩
    cases hanswer : answer s.calls with
    | none =>
      refine ⟨k, fun fuel hfuel ↦ ?_⟩
      obtain ⟨fuel, rfl⟩ := Nat.exists_eq_add_of_lt hfuel
      rw [Nat.add_assoc, hwalk, Heap.mallocLoop, if_neg hsize, if_pos rfl,
        morecore_of_none hanswer]
      rfl
    | some gap =>
      obtain ⟨s₁, hmore, -, frees', hs₁, hfound⟩ := hs.exists_morecore hanswer hint hbound
      obtain ⟨k', hrun⟩ := hs₁.exists_mallocLoop_of_le answer hfound
      have hne := hs₁.freep_ne_zero hbase
      refine ⟨k + max frees.length k' + 1, fun fuel hfuel ↦ ?_⟩
      obtain ⟨n, rfl⟩ : ∃ n, fuel = k + (n + 1) := ⟨fuel - k - 1, by omega⟩
      rw [hwalk, Heap.mallocLoop, if_neg hsize, if_pos rfl, hmore n (by omega)]
      change (if s₁.freep = 0 then _ else _ : Option (ℕ × State)).isSome
      rw [if_neg hne]
      exact hrun n (by omega)

end EnhancedXv6.Heap
