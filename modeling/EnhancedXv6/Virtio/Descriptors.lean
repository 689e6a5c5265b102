import EnhancedXv6.Transition.Fallible
import EnhancedXv6.Virtio.Model

/-!
# Allocating and freeing descriptors

What `alloc3_desc` and `free_chain` do to the descriptors, as a whole.
-/

namespace EnhancedXv6.Virtio

open Fallible

variable {B : Type} [DecidableEq B] {d d' : Disk B}

/-! ## Allocation -/

omit [DecidableEq B] in
theorem allocDesc_eq_some {i : ℕ} (h : allocDesc d = some (i, d')) :
    i < NUM ∧ d.free i = true ∧ d' = d.setFree i false := by
  simp only [allocDesc, Option.map_eq_some_iff, Prod.mk.injEq] at h
  obtain ⟨j, hfind, rfl, rfl⟩ := h
  exact ⟨List.mem_range.mp (List.mem_of_find?_eq_some hfind), List.find?_some hfind, rfl⟩

omit [DecidableEq B] in
theorem freeDesc_ok {i : ℕ} (hi : i < NUM) (hfree : d.free i = false) :
    freeDesc d i = .ok ((d.setDesc i {}).setFree i true) := by
  rw [freeDesc, if_neg (by omega), if_neg (by simp [hfree])]

/-- The descriptor table has changed only where descriptors are free. -/
def SameInUse (d d' : Disk B) : Prop :=
  d' = { d with desc := d'.desc } ∧ ∀ i, d.free i = false → d'.desc i = d.desc i

omit [DecidableEq B] in
/-- Marking a descriptor and freeing it leaves the free descriptors as they were. -/
theorem SameInUse.undo {i : ℕ} (hfree : d.free i = true) :
    SameInUse d (((d.setFree i false).setDesc i {}).setFree i true) := by
  refine ⟨?_, ?_⟩
  · simp [Disk.setFree, Disk.setDesc, ← hfree]
  · intro j hj
    have hne : j ≠ i := by
      rintro rfl
      simp [hfree] at hj
    simp [Disk.setFree, Disk.setDesc, hne]

omit [DecidableEq B] in
/-- `alloc3_desc` takes three free descriptors, or none and leaves the free ones as they were. -/
theorem alloc3Desc_spec (d : Disk B) :
    (∃ d', alloc3Desc d = .ok (none, d') ∧ SameInUse d d') ∨
      ∃ chain d', alloc3Desc d = .ok (some chain, d') ∧ chain.descs.Nodup ∧
        (∀ i ∈ chain.descs, i < NUM ∧ d.free i = true) ∧
        d' = { d with free := fun i ↦ d.free i && decide (i ∉ chain.descs) } := by
  rw [alloc3Desc]
  cases h0 : allocDesc d with
  | none => exact .inl ⟨d, rfl, rfl, fun _ _ ↦ rfl⟩
  | some r0 =>
    obtain ⟨idx0, d0⟩ := r0
    obtain ⟨hlt0, hfree0, rfl⟩ := allocDesc_eq_some h0
    simp only
    cases h1 : allocDesc (d.setFree idx0 false) with
    | none =>
      left
      rw [freeDesc_ok hlt0 (by simp [Disk.setFree])]
      exact ⟨_, rfl, .undo hfree0⟩
    | some r1 =>
      obtain ⟨idx1, d1⟩ := r1
      obtain ⟨hlt1, hfree1, rfl⟩ := allocDesc_eq_some h1
      have hne1 : idx1 ≠ idx0 := by
        rintro rfl
        simp [Disk.setFree] at hfree1
      replace hfree1 : d.free idx1 = true := by simpa [Disk.setFree, hne1] using hfree1
      simp only
      cases h2 : allocDesc ((d.setFree idx0 false).setFree idx1 false) with
      | none =>
        left
        rw [freeDesc_ok hlt0 (by simp [Disk.setFree, hne1.symm]), ok_bind,
          freeDesc_ok hlt1 (by simp [Disk.setFree, Disk.setDesc, hne1])]
        refine ⟨_, rfl, ?_, ?_⟩
        · have hfree : Function.update (Function.update (Function.update (Function.update
              d.free idx0 false) idx1 false) idx0 true) idx1 true = d.free := by
            funext i
            by_cases hi1 : i = idx1
            · simp [hi1, hfree1]
            · by_cases hi0 : i = idx0
              · simp [hi0, hne1.symm, hfree0]
              · simp [hi0, hi1]
          simp only [Disk.setFree, Disk.setDesc, hfree]
        · intro i hi
          have hi0 : i ≠ idx0 := by
            rintro rfl
            simp [hfree0] at hi
          have hi1 : i ≠ idx1 := by
            rintro rfl
            simp [hfree1] at hi
          simp [Disk.setFree, Disk.setDesc, hi0, hi1]
      | some r2 =>
        right
        obtain ⟨idx2, d2⟩ := r2
        obtain ⟨hlt2, hfree2, rfl⟩ := allocDesc_eq_some h2
        have hne21 : idx2 ≠ idx1 := by
          rintro rfl
          simp [Disk.setFree] at hfree2
        have hne20 : idx2 ≠ idx0 := by
          rintro rfl
          simp [Disk.setFree, hne1.symm] at hfree2
        replace hfree2 : d.free idx2 = true := by
          simpa [Disk.setFree, hne20, hne21] using hfree2
        refine ⟨⟨idx0, idx1, idx2⟩, _, rfl, ?_, ?_, ?_⟩
        · simp [Chain.descs, hne1.symm, hne20.symm, hne21.symm]
        · simp [Chain.descs, hlt0, hlt1, hlt2, hfree0, hfree1, hfree2]
        · simp only [Disk.setFree, Chain.descs]
          congr 1
          funext i
          by_cases hi0 : i = idx0
          · simp [hi0, hne1.symm, hne20.symm]
          · by_cases hi1 : i = idx1
            · simp [hi1, hne21.symm]
            · by_cases hi2 : i = idx2
              · simp [hi2]
              · simp [hi0, hi1, hi2]

/-! ## Formatted requests -/

/-- The descriptors and the bookkeeping of a request are in place. -/
structure Formatted (blockno : B → ℕ) (d : Disk B) (r : Request B) : Prop where
  head : d.desc r.chain.head =
    { addr := .op r.chain.head, len := 16, flags := VRING_DESC_F_NEXT, next := r.chain.data }
  data : d.desc r.chain.data =
    { addr := .data r.buf, len := BSIZE,
      flags := (if r.write = true then 0 else VRING_DESC_F_WRITE) ||| VRING_DESC_F_NEXT,
      next := r.chain.status }
  status : d.desc r.chain.status =
    { addr := .status r.chain.head, len := 1, flags := VRING_DESC_F_WRITE, next := 0 }
  op : d.ops r.chain.head = r.op blockno
  buf : (d.info r.chain.head).b = some r.buf

theorem Chain.nodup_iff {c : Chain} :
    c.descs.Nodup ↔ c.head ≠ c.data ∧ c.head ≠ c.status ∧ c.data ≠ c.status := by
  simp [Chain.descs]
  tauto

section

variable (blockno : B → ℕ) (d : Disk B) {r : Request B}

/-! Formatting a request changes nothing of the others. -/

theorem format_desc {i : ℕ} (hi : i ∉ r.chain.descs) : (d.format blockno r).desc i = d.desc i := by
  simp only [Chain.descs, List.mem_cons, List.not_mem_nil, or_false, not_or] at hi
  simp [Disk.format, Disk.setOp, Disk.setDesc, Disk.setBufDisk, Disk.setInfo, hi]

theorem format_ops {i : ℕ} (hi : i ≠ r.chain.head) : (d.format blockno r).ops i = d.ops i := by
  simp [Disk.format, Disk.setOp, Disk.setDesc, Disk.setBufDisk, Disk.setInfo, hi]

theorem format_info {i : ℕ} (hi : i ≠ r.chain.head) : (d.format blockno r).info i = d.info i := by
  simp [Disk.format, Disk.setOp, Disk.setDesc, Disk.setBufDisk, Disk.setInfo, hi]

theorem format_bufDisk (b : B) :
    (d.format blockno r).bufDisk b = if b = r.buf then true else d.bufDisk b := by
  simp [Disk.format, Disk.setOp, Disk.setDesc, Disk.setBufDisk, Disk.setInfo,
    Function.update_apply]

end

namespace Formatted

variable {blockno : B → ℕ} {r : Request B}

theorem format (d : Disk B) (hnodup : r.chain.descs.Nodup) :
    Formatted blockno (d.format blockno r) r := by
  obtain ⟨h1, h2, h3⟩ := Chain.nodup_iff.mp hnodup
  constructor
  all_goals
    simp [Disk.format, Disk.setOp, Disk.setDesc, Disk.setBufDisk, Disk.setInfo, h1, h2, h3]

omit [DecidableEq B] in
theorem congr (h : Formatted blockno d r) (hdesc : ∀ i ∈ r.chain.descs, d'.desc i = d.desc i)
    (hops : d'.ops r.chain.head = d.ops r.chain.head)
    (hinfo : (d'.info r.chain.head).b = (d.info r.chain.head).b) : Formatted blockno d' r where
  head := (hdesc _ (by simp [Chain.descs])).trans h.head
  data := (hdesc _ (by simp [Chain.descs])).trans h.data
  status := (hdesc _ (by simp [Chain.descs])).trans h.status
  op := hops.trans h.op
  buf := hinfo.trans h.buf

omit [DecidableEq B] in
theorem job_eq (h : Formatted blockno d r) : d.job r.chain.head = r.job blockno := by
  simp [Disk.job, Request.job, h.head, h.data, h.status, h.op]

omit [DecidableEq B] in
/-- `free_chain` frees the three descriptors of a request. -/
theorem freeChain_spec (h : Formatted blockno d r) (hnodup : r.chain.descs.Nodup)
    (huse : ∀ i ∈ r.chain.descs, i < NUM ∧ d.free i = false) (info : Info B) :
    ∃ d', freeChain (NUM + 1) (d.setInfo r.chain.head info) r.chain.head = .ok d' ∧
      d' = { d with
        info := Function.update d.info r.chain.head info
        desc := d'.desc
        free := fun i ↦ d.free i || decide (i ∈ r.chain.descs) } ∧
      ∀ i, i ∉ r.chain.descs → d'.desc i = d.desc i := by
  obtain ⟨h1, h2, h3⟩ := Chain.nodup_iff.mp hnodup
  obtain ⟨hlt0, hfree0⟩ := huse r.chain.head (by simp [Chain.descs])
  obtain ⟨hlt1, hfree1⟩ := huse r.chain.data (by simp [Chain.descs])
  obtain ⟨hlt2, hfree2⟩ := huse r.chain.status (by simp [Chain.descs])
  have hnext : ((if r.write = true then 0 else VRING_DESC_F_WRITE) ||| VRING_DESC_F_NEXT) &&&
      VRING_DESC_F_NEXT ≠ 0 := by
    cases r.write <;> decide
  -- the rounds for the three descriptors; the last one has no successor
  set d0 := d.setInfo r.chain.head info with hd0
  set d1 := (d0.setDesc r.chain.head {}).setFree r.chain.head true with hd1
  set d2 := (d1.setDesc r.chain.data {}).setFree r.chain.data true with hd2
  set d3 := (d2.setDesc r.chain.status {}).setFree r.chain.status true with hd3
  have hdesc0 : d0.desc r.chain.head = d.desc r.chain.head := rfl
  have hdesc1 : d1.desc r.chain.data = d.desc r.chain.data := by
    simp [hd1, hd0, Disk.setDesc, Disk.setFree, Disk.setInfo, h1.symm]
  have hdesc2 : d2.desc r.chain.status = d.desc r.chain.status := by
    simp [hd2, hd1, hd0, Disk.setDesc, Disk.setFree, Disk.setInfo, h2.symm, h3.symm]
  have hround0 : freeDesc d0 r.chain.head = .ok d1 := freeDesc_ok hlt0 hfree0
  have hround1 : freeDesc d1 r.chain.data = .ok d2 := by
    apply freeDesc_ok hlt1
    simpa [hd1, hd0, Disk.setDesc, Disk.setFree, Disk.setInfo, h1.symm] using hfree1
  have hround2 : freeDesc d2 r.chain.status = .ok d3 := by
    apply freeDesc_ok hlt2
    simpa [hd2, hd1, hd0, Disk.setDesc, Disk.setFree, Disk.setInfo, h2.symm, h3.symm] using hfree2
  refine ⟨d3, ?_, ?_, ?_⟩
  · simp only [freeChain, hdesc0, h.head, hround0, ok_bind]
    rw [if_pos (by decide), hdesc1, h.data, hround1, ok_bind, if_pos hnext]
    simp only [hdesc2, h.status, hround2, ok_bind]
    rw [if_neg (by decide)]
  · simp only [hd3, hd2, hd1, hd0, Disk.setDesc, Disk.setFree, Disk.setInfo]
    congr 1
    funext i
    by_cases hi : i ∈ r.chain.descs
    · simp only [Chain.descs, List.mem_cons, List.not_mem_nil, or_false] at hi
      rcases hi with rfl | rfl | rfl
      · simp [h1, h2, Chain.descs]
      · simp [h3, Chain.descs]
      · simp [Chain.descs]
    · simp only [Chain.descs, List.mem_cons, List.not_mem_nil, or_false, not_or] at hi
      simp [hi, Chain.descs]
  · intro i hi
    simp only [Chain.descs, List.mem_cons, List.not_mem_nil, or_false, not_or] at hi
    simp [hd3, hd2, hd1, hd0, Disk.setDesc, Disk.setFree, Disk.setInfo, hi]

end Formatted

end EnhancedXv6.Virtio
