import EnhancedXv6.Heap.Runs
import Mathlib.Data.Finset.Card
import Mathlib.Order.Interval.Finset.Nat

/-!
# Request sizes

`malloc(nbytes)` for any `uint`.  `morecore` passes the number of bytes to `sbrk` as an `int`; from
2 GiB on this is not the number any more, but the size in the header of the new block is.  No heap on
this machine has a block of that size, since the RAM has 128 MiB.
-/

namespace EnhancedXv6.Heap

open Block Transition

/-- Whatever `sbrk` answers: if `malloc(nbytes)` returns a pointer, the bytes from it on are in memory
from `sbrk` and in no live block. -/
def Honours (base : ℕ) (m : Run) (nbytes : UInt32) : Prop :=
  ∀ answer fuel r s, malloc answer base fuel m.heap nbytes = some (r, s) →
    total s.granted < 16 * 2 ^ 32 → r ≠ 0 → ∀ a, r ≤ a → a < r + nbytes.toNat →
      (∃ g ∈ s.granted, g.addr ≤ a ∧ a < g.stop) ∧ ∀ b ∈ m.blocks, a < b.addr ∨ b.stop ≤ a

/-- What `morecore` passes to `sbrk` for a request of `nbytes`. -/
def passed (nbytes : UInt32) : ℤ :=
  ((request (unitsFor nbytes)).toUInt64 * 16).toUInt32.toInt32.toInt

variable {answer : ℕ → Option ℕ} {base top : ℕ} {mem : Memory} {m : Run} {nbytes nunits : UInt32}
  {s s' : State} {frees live : List Block}

/-- Addresses that are covered by blocks are no more than their bytes. -/
theorem card_le_total {bs : List Block} {as : Finset ℕ}
    (h : ∀ a ∈ as, ∃ b ∈ bs, b.addr ≤ a ∧ a < b.stop) : as.card ≤ total bs := by
  induction bs generalizing as with
  | nil =>
    have hempty : as = ∅ := Finset.eq_empty_of_forall_notMem fun a ha ↦ by
      obtain ⟨b, hb, -⟩ := h a ha
      cases hb
    rw [hempty]
    exact Nat.zero_le _
  | cons b bs ih =>
    have hfirst : {a ∈ as | b.addr ≤ a ∧ a < b.stop}.card ≤ b.length := by
      calc {a ∈ as | b.addr ≤ a ∧ a < b.stop}.card
        _ ≤ (Finset.Ico b.addr b.stop).card := by
          refine Finset.card_le_card fun a ha ↦ ?_
          exact Finset.mem_Ico.mpr (Finset.mem_filter.mp ha).2
        _ = b.length := by rw [Nat.card_Ico, stop, Nat.add_sub_cancel_left]
    have hrest : {a ∈ as | ¬(b.addr ≤ a ∧ a < b.stop)}.card ≤ total bs := by
      apply ih
      intro a ha
      obtain ⟨ha, hnot⟩ := Finset.mem_filter.mp ha
      obtain ⟨c, hc, hin⟩ := h a ha
      rcases List.mem_cons.mp hc with rfl | hc
      · exact absurd hin hnot
      · exact ⟨c, hc, hin⟩
    rw [total_cons, ← Finset.card_filter_add_card_filter_not (s := as) (fun a ↦ b.addr ≤ a ∧ a < b.stop)]
    exact Nat.add_le_add hfirst hrest

theorem passed_eq (nbytes : UInt32) :
    passed nbytes =
      if 2 * (16 * max (unitsFor nbytes).toNat 4096 % 2 ^ 32) < 2 ^ 32 then
        ((16 * max (unitsFor nbytes).toNat 4096 % 2 ^ 32 : ℕ) : ℤ)
      else ((16 * max (unitsFor nbytes).toNat 4096 % 2 ^ 32 : ℕ) : ℤ) - (2 ^ 32 : ℕ) := by
  have hword : ((request (unitsFor nbytes)).toUInt64 * 16).toUInt32.toNat =
      16 * max (unitsFor nbytes).toNat 4096 % 2 ^ 32 := by
    rw [UInt64.toNat_toUInt32, UInt64.toNat_mul, UInt32.toNat_toUInt64, toNat_request]
    change max (unitsFor nbytes).toNat 4096 * 16 % 2 ^ 64 % 2 ^ 32 = _
    omega
  rw [← hword]
  exact BitVec.toInt_eq_toNat_cond _

/-- The argument of `sbrk` is the number of bytes if that is an `int`. -/
theorem passed_eq_iff (nbytes : UInt32) :
    passed nbytes = 16 * (request (unitsFor nbytes)).toNat ↔
      16 * (unitsFor nbytes).toNat < 2 ^ 31 := by
  have hunits := toNat_unitsFor nbytes
  have hlt := nbytes.toNat_lt
  rw [passed_eq, toNat_request]
  split_ifs with hcond <;> omega

/-- Otherwise it grants next to nothing. -/
theorem passed_le (hbig : 2 ^ 31 ≤ 16 * (unitsFor nbytes).toNat) : passed nbytes ≤ 16 := by
  have hunits := toNat_unitsFor nbytes
  have hlt := nbytes.toNat_lt
  rw [passed_eq]
  split_ifs with hcond <;> omega

theorem free_congr (fuel : ℕ) (s t : State) (ap : ℕ) :
    free fuel { t with mem := s.mem, freep := s.freep } ap =
      (free fuel s ap).map fun s' ↦ { t with mem := s'.mem, freep := s'.freep } := by
  unfold free
  dsimp only
  cases search (fits s.mem (ap - 16)) s.mem.next fuel s.freep <;> rfl

/-- No block of the free list is large enough. -/
theorem HeapInv.small (hs : HeapInv base s live frees) (hbig : total s.granted < 16 * nunits.toNat) :
    ∀ p ∈ base :: frees.map addr, ¬ nunits ≤ (s.mem p).size := by
  intro p hp hle
  obtain ⟨b, hb, rfl⟩ : ∃ b ∈ ⟨base, 0⟩ :: frees, b.addr = p := by
    rcases List.mem_cons.mp hp with rfl | hp
    · exact ⟨_, List.mem_cons_self, rfl⟩
    · obtain ⟨b, hb, rfl⟩ := List.mem_map.mp hp
      exact ⟨b, List.mem_cons_of_mem _ hb, rfl⟩
  have hsized : 16 * (s.mem b.addr).size.toNat = b.length := hs.listed.sized b hb
  have hle' := UInt32.le_iff_toNat_le.mp hle
  have hlength : b.length ≤ total s.granted := by
    rcases List.mem_cons.mp hb with rfl | hb
    · exact Nat.zero_le _
    · rw [← hs.tiling.total]
      exact length_le_total (List.mem_append_left _ hb)
  omega

/-- A request that does not fit: `morecore` puts a block on the free list of which `sbrk` has granted
next to nothing. -/
theorem HeapInv.exists_oversized (hs : HeapInv base s live frees) (hbase : 0 < base)
    (hram : total s.granted ≤ 2 ^ 27) (hbig : 2 ^ 31 ≤ 16 * (unitsFor nbytes).toNat) :
    ∃ s₁ frees', (∀ fuel, frees.length < fuel →
        morecore (fun _ ↦ some 0) fuel s (unitsFor nbytes) = some (s₁.freep, s₁)) ∧
      Listed s₁.mem base frees' ∧ s₁.freep ∈ base :: frees'.map addr ∧ s₁.freep ≠ 0 ∧
      (∃ c ∈ frees', 16 * (unitsFor nbytes).toNat ≤ c.length) ∧
      total s₁.granted ≤ 2 ^ 27 + 16 := by
  have hunits := toNat_unitsFor nbytes
  have hlt := nbytes.toNat_lt
  have hpassed := passed_le hbig
  have hrequest : request (unitsFor nbytes) = unitsFor nbytes := by
    apply UInt32.toNat_inj.mp
    rw [toNat_request]
    omega
  -- the new block is freed as if all of it had been granted
  obtain ⟨s', hfree, -, hs', -⟩ :=
    (hs.extend 0 (by omega : 0 < (unitsFor nbytes).toNat)).exists_free (by
      rw [State.extend, total_cons]
      dsimp only
      omega)
  obtain ⟨t, ht⟩ : ∃ t : State, t = { s with
      calls := s.calls + 1, top := s.top + 0 + (passed nbytes).toNat
      granted := ⟨s.top + 0, (passed nbytes).toNat⟩ :: s.granted } := ⟨_, rfl⟩
  refine ⟨{ t with mem := s'.mem, freep := s'.freep }, _, fun fuel hfuel ↦ ?_, hs'.listed, hs'.freep,
    hs'.freep_ne_zero hbase, exists_length_le_insert ⟨s.top + 0, _⟩ frees, ?_⟩
  · have hcongr := free_congr fuel (s.extend 0 (unitsFor nbytes)) t (s.top + 0 + 16)
    rw [show free fuel (s.extend 0 (unitsFor nbytes)) (s.top + 0 + 16) = some s' from
      hfree fuel hfuel, Option.map_some, ht] at hcongr
    rw [passed, hrequest] at hcongr ht
    rw [morecore, ← request, hrequest, ht]
    exact congrArg (fun o ↦ o.bind fun s ↦ some (s.freep, s)) hcongr
  · rw [ht, total_cons]
    dsimp only
    omega

theorem HeapInv.exists_oversized_malloc (hs : HeapInv base s live frees) (hbase : 0 < base)
    (hram : total s.granted ≤ 2 ^ 27) (hbig : 2 ^ 31 ≤ 16 * (unitsFor nbytes).toNat) :
    ∃ fuel r s', Heap.mallocLoop (fun _ ↦ some 0) (unitsFor nbytes) fuel s s.freep
        (s.mem.next s.freep) = some (r, s') ∧ r ≠ 0 ∧ total s'.granted ≤ 2 ^ 27 + 16 := by
  have hsmall : ∀ p ∈ base :: frees.map addr, ¬ unitsFor nbytes ≤ (s.mem p).size :=
    hs.small (by omega)
  -- the loop comes back to `freep`
  obtain ⟨k, prevp, p, hp, hwalk, hsize | ⟨rfl, -⟩⟩ :=
    hs.listed.exists_walk hs.freep (fun _ ↦ some 0) (unitsFor nbytes)
  · exact absurd hsize (hsmall p hp)
  obtain ⟨s₁, frees', hmore, hlisted, hfreep, hne, ⟨c, hc, hlength⟩, htotal⟩ :=
    hs.exists_oversized hbase hram hbig
  -- and from there to the new block
  obtain ⟨k₁, prevp₁, p₁, -, hwalk₁, hsize₁ | ⟨-, hnone⟩⟩ :=
    hlisted.exists_walk hfreep (fun _ ↦ some 0) (unitsFor nbytes)
  · refine ⟨k + (k₁ + (frees.length + 1) + 1), (Heap.carve s₁ (unitsFor nbytes) prevp₁ p₁).1,
      (Heap.carve s₁ (unitsFor nbytes) prevp₁ p₁).2, ?_, ?_, ?_⟩
    · rw [hwalk, Heap.mallocLoop, if_neg (hsmall _ hp), if_pos rfl, hmore _ (by omega)]
      change (if s₁.freep = 0 then _ else _) = _
      rw [if_neg hne]
      exact (hwalk₁ (frees.length + 1)).trans (if_pos hsize₁)
    · rw [Heap.carve]
      split <;> exact Nat.succ_ne_zero _
    · rw [carve_granted]
      exact htotal
  · have hsized : Sized s₁.mem c := hlisted.sized c (List.mem_cons_of_mem _ hc)
    refine absurd (UInt32.le_iff_toNat_le.mpr ?_) (hnone c hc)
    rw [Sized] at hsized
    omega

/-- `malloc` honours a request exactly if its size in whole units is an `int`, and then `morecore` asks
`sbrk` for what it records. -/
theorem malloc_honours_iff (hbase : 0 < base) (htop : base + 16 ≤ top)
    (hm : (program answer base top mem).Reachable (WellBehaved base) m)
    (hram : total m.heap.granted ≤ 2 ^ 27) (nbytes : UInt32) :
    (Honours base m nbytes ↔ 16 * (unitsFor nbytes).toNat < 2 ^ 31) ∧
      (passed nbytes = 16 * (request (unitsFor nbytes)).toNat ↔
        16 * (unitsFor nbytes).toNat < 2 ^ 31) := by
  refine ⟨⟨fun hhonours ↦ ?_, fun hint answer fuel r s hmalloc hbound hr a hlow hhigh ↦ ?_⟩,
    passed_eq_iff nbytes⟩
  · by_contra hbig
    have hunits := toNat_unitsFor nbytes
    obtain ⟨s, frees, hrun, hs, hgranted⟩ :=
      (runInv_of_reachable hbase htop hm (by omega)).exists_heapInv hbase (fun _ ↦ some 0) nbytes
    rw [← hgranted] at hram
    obtain ⟨fuel, r, s', hloop, hr, htotal⟩ :=
      hs.exists_oversized_malloc hbase hram (Nat.not_lt.mp hbig)
    have hinside := hhonours _ fuel r s' ((hrun fuel).trans hloop) (by omega) hr
    have hcard : (Finset.Ico r (r + nbytes.toNat)).card ≤ total s'.granted :=
      card_le_total fun a ha ↦ by
        obtain ⟨hlow, hhigh⟩ := Finset.mem_Ico.mp ha
        exact (hinside a hlow hhigh).1
    rw [Nat.card_Ico] at hcard
    omega
  · have hle := malloc_total_le hmalloc
    obtain ⟨frees, hsound⟩ := ((runInv_of_reachable hbase htop hm (by omega)).malloc hbase hint hmalloc
      hbound).exists_sound
    rw [if_neg hr] at hsound
    obtain ⟨b, hb⟩ : ∃ b : Block, b = ⟨r - 16, 16 * (unitsFor nbytes).toNat⟩ := ⟨_, rfl⟩
    rw [← hb] at hsound
    have hunits := toNat_unitsFor nbytes
    have hin : b.addr ≤ a ∧ a < b.stop := by
      rw [hb, stop]
      dsimp only
      omega
    refine ⟨hsound.inside b (List.mem_append_right _ List.mem_cons_self) a hin.1 hin.2, fun c hc ↦ ?_⟩
    have happart := (List.pairwise_append.mp hsound.apart).2.1
    have hbc : Apart b c := (List.pairwise_cons.mp happart).1 c hc
    simp only [Apart] at hbc
    omega

theorem malloc_honours_iff_start :
    (program (fun _ ↦ none) 16 32 fun _ ↦ ⟨0, 0⟩).Reachable (WellBehaved 16)
        ⟨{ mem := fun _ ↦ ⟨0, 0⟩, freep := 0, top := 32 }, []⟩ ∧
      Honours 16 ⟨{ mem := fun _ ↦ ⟨0, 0⟩, freep := 0, top := 32 }, []⟩ 1000 := by
  have hstart : (program (fun _ ↦ none) 16 32 fun _ ↦ ⟨0, 0⟩).Reachable (WellBehaved 16)
      ⟨{ mem := fun _ ↦ ⟨0, 0⟩, freep := 0, top := 32 }, []⟩ := .start
  exact ⟨hstart, (malloc_honours_iff (by decide) (by decide) hstart (by decide) 1000).1.mpr (by decide)⟩

/-- The first request of a program, for `2 ^ 32 - 1` bytes: `sbrk` gives 16 bytes, and `malloc` returns
the address after them. -/
theorem malloc_overclaims :
    ∃ m, (program (fun _ ↦ some 0) 16 32 fun _ ↦ ⟨0, 0⟩).Reachable (WellBehaved 16) m ∧
      ¬ Honours 16 m 4294967295 := by
  refine ⟨_, .start, fun hhonours ↦ ?_⟩
  have hrun : (malloc (fun _ ↦ some 0) 16 9
      (program (fun _ ↦ some 0) 16 32 fun _ ↦ ⟨0, 0⟩).start.heap 4294967295).map
        (fun r ↦ (r.1, r.2.granted)) = some (48, [⟨32, 16⟩]) := by decide +kernel
  obtain ⟨⟨r, s⟩, hmalloc, heq⟩ := Option.map_eq_some_iff.mp hrun
  obtain ⟨rfl, hgranted⟩ := Prod.mk.inj heq
  dsimp only at hgranted
  obtain ⟨⟨g, hg, hlow, hhigh⟩, -⟩ := hhonours _ 9 48 s hmalloc (by rw [hgranted]; decide) (by decide)
    48 le_rfl (by decide)
  rw [hgranted, List.mem_singleton] at hg
  rw [hg] at hhigh
  exact lt_irrefl _ hhigh

end EnhancedXv6.Heap
