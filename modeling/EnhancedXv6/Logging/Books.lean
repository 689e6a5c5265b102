import EnhancedXv6.Arith.SumUpdate
import EnhancedXv6.Logging.Cache
import Mathlib.Algebra.Order.BigOperators.Group.Finset

/-!
# Reference counts and contents of the buffers

The reference count of a buffer is made up of the processes on their way to or from it, of its
holder and of the pin of the log, so that only a buffer that nobody needs is recycled.  A block that
the log has not pinned has its contents on the disk, and a valid buffer has them anyway.  Both are
kept by every operation of the cache.
-/

namespace EnhancedXv6.Logging

open Kernel Storage Transition

/-! ## Reference counts -/

/-- What a process on its way to or from buffer `i` adds to its reference count. -/
def BioPc.stake (i : BufId) : BioPc → ℕ
  | .getting j _ | .leaving j => if j = i then 1 else 0
  | .ready | .locked _ _ => 0

def Buf.held (b : Buf) : ℕ := if b.holder = none then 0 else 1

def pinCount (pins : List BlockNo) : Option BlockNo → ℕ
  | none => 0
  | some b => if b ∈ pins then 1 else 0

/-- The bookkeeping of the cache; `pins` are the blocks that the log has pinned. -/
structure Books (c : Cache) (pins : List BlockNo) (pc : Slot → BioPc) : Prop where
  listed : ∀ i, i ∈ c.lru
  unique : ∀ i j b, (c.buf i).blockno = some b → (c.buf j).blockno = some b → i = j
  count : ∀ i, (c.buf i).refcnt =
    ∑ p, (pc p).stake i + (c.buf i).held + pinCount pins (c.buf i).blockno
  getting : ∀ p i b, pc p = .getting i b → (c.buf i).blockno = some b
  locked : ∀ p i b, pc p = .locked i b → (c.buf i).blockno = some b ∧ (c.buf i).holder = some p
  filled : ∀ p i, (c.buf i).holder = some p → (∀ b, pc p ≠ .locked i b) → (c.buf i).valid = true

/-- The contents: `flat` is the array of blocks that cache and log stand for. -/
structure Contents (c : Cache) (disk flat : Disk) (pins : List BlockNo) : Prop where
  content : ∀ i b, (c.buf i).valid = true → (c.buf i).blockno = some b → (c.buf i).data = flat b
  disk : ∀ b, b ∉ pins → disk b = flat b
  pinned : ∀ b ∈ pins, ∃ i, (c.buf i).blockno = some b ∧ (c.buf i).valid = true

variable {c : Cache} {disk flat : Disk} {pins rest : List BlockNo} {pc : Slot → BioPc}
  {p q : Slot} {i j : BufId} {b : BlockNo} {v : Block}

/-- A field that an operation on one buffer leaves alone. -/
theorem Cache.modify_field {α : Type*} (c : Cache) (i : BufId) {f : Buf → Buf} (field : Buf → α)
    (h : ∀ x, field (f x) = field x) (j : BufId) : field ((c.modify i f).buf j) = field (c.buf j) := by
  by_cases hj : j = i
  · subst hj
    rw [modify_buf_self, h]
  · rw [modify_buf_of_ne c f hj]

/-- An operation that changes only counts and holders. -/
theorem Contents.modify {f : Buf → Buf} (h : Contents c disk flat pins) (i : BufId)
    (hblockno : ∀ x, (f x).blockno = x.blockno) (hvalid : ∀ x, (f x).valid = x.valid)
    (hdata : ∀ x, (f x).data = x.data) : Contents (c.modify i f) disk flat pins := by
  refine ⟨fun j b hj hb ↦ ?_, h.disk, fun b hb ↦ ?_⟩
  · rw [c.modify_field i Buf.valid hvalid] at hj
    rw [c.modify_field i Buf.blockno hblockno] at hb
    rw [c.modify_field i Buf.data hdata]
    exact h.content j b hj hb
  · obtain ⟨j, hj, hvalid'⟩ := h.pinned b hb
    refine ⟨j, ?_, ?_⟩
    · rwa [c.modify_field i Buf.blockno hblockno]
    · rwa [c.modify_field i Buf.valid hvalid]

/-- An operation of process `p` on buffer `i` that keeps its block. -/
theorem Books.modify {pins' : List BlockNo} {f : Buf → Buf} {new : BioPc} (h : Books c pins pc)
    (i : BufId) (p : Slot) (hblockno : ∀ x, (f x).blockno = x.blockno)
    (hothers : ∀ j, j ≠ i → new.stake j = (pc p).stake j ∧
      pinCount pins' (c.buf j).blockno = pinCount pins (c.buf j).blockno)
    (hcount : (f (c.buf i)).refcnt + (pc p).stake i + (c.buf i).held +
        pinCount pins (c.buf i).blockno =
      (c.buf i).refcnt + new.stake i + (f (c.buf i)).held + pinCount pins' (c.buf i).blockno)
    (hgetting : ∀ j b, new = .getting j b → (c.buf j).blockno = some b)
    (hlocked : ∀ q j b, Function.update pc p new q = .locked j b →
      (c.buf j).blockno = some b ∧ ((c.modify i f).buf j).holder = some q)
    (hfilled : ∀ q j, ((c.modify i f).buf j).holder = some q →
      (∀ b, Function.update pc p new q ≠ .locked j b) → ((c.modify i f).buf j).valid = true) :
    Books (c.modify i f) pins' (Function.update pc p new) := by
  have hblock := c.modify_field i Buf.blockno hblockno
  refine ⟨h.listed, fun j k b hj hk ↦ ?_, fun j ↦ ?_, fun q j b hq ↦ ?_, fun q j b hq ↦ ?_, hfilled⟩
  · rw [hblock] at hj hk
    exact h.unique j k b hj hk
  · have hsum := Arith.sum_update_add (BioPc.stake j) pc p new
    have hj := h.count j
    rw [hblock]
    by_cases hji : j = i
    · subst hji
      rw [Cache.modify_buf_self]
      omega
    · obtain ⟨hstake, hpin⟩ := hothers j hji
      rw [Cache.modify_buf_of_ne c f hji]
      omega
  · rw [hblock]
    by_cases hqp : q = p
    · rw [hqp, Function.update_self] at hq
      exact hgetting j b hq
    · rw [Function.update_of_ne hqp] at hq
      exact h.getting q j b hq
  · rw [hblock]
    exact hlocked q j b hq

/-- Where the operation keeps holders and validity as well, and `p` does not wait for the disk. -/
theorem Books.modify_of_kept {pins' : List BlockNo} {f : Buf → Buf} {new : BioPc}
    (h : Books c pins pc) (i : BufId) (p : Slot) (hblockno : ∀ x, (f x).blockno = x.blockno)
    (hholder : ∀ x, (f x).holder = x.holder) (hvalid : ∀ x, (f x).valid = x.valid)
    (hpc : ∀ j b, pc p ≠ .locked j b) (hnew : ∀ j b, new ≠ .locked j b)
    (hothers : ∀ j, j ≠ i → new.stake j = (pc p).stake j ∧
      pinCount pins' (c.buf j).blockno = pinCount pins (c.buf j).blockno)
    (hcount : (f (c.buf i)).refcnt + (pc p).stake i + pinCount pins (c.buf i).blockno =
      (c.buf i).refcnt + new.stake i + pinCount pins' (c.buf i).blockno)
    (hgetting : ∀ j b, new = .getting j b → (c.buf j).blockno = some b) :
    Books (c.modify i f) pins' (Function.update pc p new) := by
  have hheld : (f (c.buf i)).held = (c.buf i).held := by rw [Buf.held, Buf.held, hholder]
  have hupdate : ∀ q j b, Function.update pc p new q = .locked j b ↔ pc q = .locked j b := by
    intro q j b
    by_cases hqp : q = p
    · rw [hqp, Function.update_self]
      exact iff_of_false (hnew j b) (hpc j b)
    · rw [Function.update_of_ne hqp]
  refine h.modify i p hblockno hothers (by omega) hgetting (fun q j b hq ↦ ?_) fun q j hq hne ↦ ?_
  · rw [c.modify_field i Buf.holder hholder]
    exact h.locked q j b ((hupdate q j b).mp hq)
  · rw [c.modify_field i Buf.holder hholder] at hq
    rw [c.modify_field i Buf.valid hvalid]
    exact h.filled q j hq fun b hb ↦ hne b ((hupdate q j b).mpr hb)

/-! ## The operations -/

theorem stake_ready (i : BufId) : BioPc.ready.stake i = 0 := rfl

theorem stake_getting (i : BufId) (b : BlockNo) : (BioPc.getting i b).stake i = 1 := if_pos rfl

theorem stake_leaving (i : BufId) : (BioPc.leaving i).stake i = 1 := if_pos rfl

theorem stake_getting_of_ne (b : BlockNo) (h : j ≠ i) : (BioPc.getting i b).stake j = 0 :=
  if_neg h.symm

theorem stake_leaving_of_ne (h : j ≠ i) : (BioPc.leaving i).stake j = 0 := if_neg h.symm

theorem Books.found (h : Books c pins pc) (hpc : pc p = .ready)
    (hb : (c.buf i).blockno = some b) :
    Books (c.modify i Buf.ref) pins (Function.update pc p (.getting i b)) := by
  refine h.modify_of_kept i p (fun _ ↦ rfl) (fun _ ↦ rfl) (fun _ ↦ rfl) (by simp [hpc]) (by simp)
    (fun j hj ↦ ⟨?_, rfl⟩) ?_ fun j b' hj ↦ ?_
  · rw [hpc, stake_getting_of_ne b hj, stake_ready]
  · rw [hpc, stake_getting, stake_ready, Buf.ref]
  · obtain ⟨rfl, rfl⟩ := BioPc.getting.inj hj
    exact hb

theorem Books.unneeded (h : Books c pins pc) (hzero : (c.buf i).refcnt = 0) :
    (∀ q, (pc q).stake i = 0) ∧ (c.buf i).holder = none ∧
      ∀ b, (c.buf i).blockno = some b → b ∉ pins := by
  have hcount := h.count i
  rw [hzero] at hcount
  have hsum : ∑ q, (pc q).stake i = 0 := by omega
  refine ⟨fun q ↦ Finset.sum_eq_zero_iff.mp hsum q (Finset.mem_univ q), ?_, fun b hb hmem ↦ ?_⟩
  · by_contra hholder
    rw [Buf.held, if_neg hholder] at hcount
    omega
  · rw [hb, pinCount, if_pos hmem] at hcount
    omega

theorem update_of_ready {new : BioPc} (hpc : pc p = .ready) {x : BioPc} (hx : x ≠ .ready)
    (hnew : new ≠ x) : Function.update pc p new q = x ↔ pc q = x := by
  by_cases hqp : q = p
  · rw [hqp, Function.update_self, hpc]
    exact iff_of_false hnew hx.symm
  · rw [Function.update_of_ne hqp]

/-- `bget` takes a buffer that nobody uses for another block. -/
theorem Books.recycle (h : Books c pins pc) (hpc : pc p = .ready) (hzero : (c.buf i).refcnt = 0)
    (hnot : ∀ j, (c.buf j).blockno ≠ some b) (hunpinned : b ∉ pins) :
    Books (c.modify i (Buf.recycle b)) pins (Function.update pc p (.getting i b)) := by
  obtain ⟨hstake, hholder, -⟩ := h.unneeded hzero
  have hother : ∀ j, j ≠ i → ((c.modify i (Buf.recycle b)).buf j) = c.buf j :=
    fun j hj ↦ c.modify_buf_of_ne _ hj
  have hself : (c.modify i (Buf.recycle b)).buf i = (c.buf i).recycle b := c.modify_buf_self i _
  have hblock : ∀ j b', ((c.modify i (Buf.recycle b)).buf j).blockno = some b' →
      j = i ∧ b' = b ∨ j ≠ i ∧ (c.buf j).blockno = some b' := by
    intro j b' hj
    by_cases hji : j = i
    · rw [hji, hself] at hj
      exact .inl ⟨hji, (Option.some.inj hj).symm⟩
    · rw [hother j hji] at hj
      exact .inr ⟨hji, hj⟩
  refine ⟨h.listed, fun j k b' hj hk ↦ ?_, fun j ↦ ?_, fun q j b' hq ↦ ?_, fun q j b' hq ↦ ?_,
    fun q j hq hne ↦ ?_⟩
  · rcases hblock j b' hj with ⟨rfl, rfl⟩ | ⟨-, hjold⟩
    · rcases hblock k b' hk with ⟨rfl, -⟩ | ⟨-, hkold⟩
      · rfl
      · exact absurd hkold (hnot k)
    · rcases hblock k b' hk with ⟨rfl, rfl⟩ | ⟨-, hkold⟩
      · exact absurd hjold (hnot j)
      · exact h.unique j k b' hjold hkold
  · have hsum := Arith.sum_update_add (BioPc.stake j) pc p (.getting i b)
    rw [hpc, stake_ready, Nat.add_zero] at hsum
    by_cases hji : j = i
    · subst hji
      have hnone : ∑ q, (pc q).stake j = 0 := Finset.sum_eq_zero fun q _ ↦ hstake q
      rw [stake_getting] at hsum
      rw [hself, hsum, hnone]
      simp [Buf.recycle, Buf.held, hholder, pinCount, hunpinned]
    · rw [stake_getting_of_ne b hji, Nat.add_zero] at hsum
      rw [hother j hji, hsum]
      exact h.count j
  · by_cases hqp : q = p
    · rw [hqp, Function.update_self] at hq
      obtain ⟨rfl, rfl⟩ := BioPc.getting.inj hq
      rw [hself, Buf.recycle]
    · rw [Function.update_of_ne hqp] at hq
      have hji : j ≠ i := by
        rintro rfl
        have hzero := hstake q
        rw [hq, stake_getting] at hzero
        omega
      rw [hother j hji]
      exact h.getting q j b' hq
  · rw [update_of_ready hpc (by simp) (by simp)] at hq
    have hji : j ≠ i := by
      rintro rfl
      rw [(h.locked q j b' hq).2] at hholder
      simp at hholder
    rw [hother j hji]
    exact h.locked q j b' hq
  · have hji : j ≠ i := by
      rintro rfl
      rw [hself, Buf.recycle, hholder] at hq
      simp at hq
    rw [hother j hji] at hq ⊢
    exact h.filled q j hq fun b' hb' ↦ hne b' ((update_of_ready hpc (by simp) (by simp)).mpr hb')

theorem Books.lock (h : Books c pins pc) (hpc : pc p = .getting i b)
    (hfree : (c.buf i).holder = none) :
    Books (c.modify i (Buf.setHolder (some p))) pins (Function.update pc p (.locked i b)) := by
  refine h.modify i p (fun _ ↦ rfl) (fun j hj ↦ ⟨?_, rfl⟩) ?_ (by simp) (fun q j b' hq ↦ ?_)
    fun q j hq hne ↦ ?_
  · rw [hpc, stake_getting_of_ne b hj, BioPc.stake]
  · rw [hpc, stake_getting, Buf.held, Buf.held, if_pos hfree]
    simp [Buf.setHolder, BioPc.stake]
  · by_cases hqp : q = p
    · rw [hqp, Function.update_self] at hq
      obtain ⟨rfl, rfl⟩ := BioPc.locked.inj hq
      rw [Cache.modify_buf_self, hqp]
      exact ⟨h.getting p i b hpc, rfl⟩
    · rw [Function.update_of_ne hqp] at hq
      obtain ⟨hblock, hholder⟩ := h.locked q j b' hq
      have hji : j ≠ i := by
        rintro rfl
        simp [hfree] at hholder
      rw [Cache.modify_buf_of_ne _ _ hji]
      exact ⟨hblock, hholder⟩
  · by_cases hji : j = i
    · rw [hji, Cache.modify_buf_self] at hq
      obtain rfl : p = q := Option.some.inj hq
      rw [hji, Function.update_self] at hne
      exact absurd rfl (hne b)
    · rw [Cache.modify_buf_of_ne _ _ hji] at hq ⊢
      refine h.filled q j hq fun b' hb' ↦ ?_
      by_cases hqp : q = p
      · simp [hqp, hpc] at hb'
      · exact hne b' (by rw [Function.update_of_ne hqp, hb'])

theorem Books.fill (h : Books c pins pc) (hpc : pc p = .locked i b) (data : Block) :
    Books (c.modify i (Buf.fill data)) pins (Function.update pc p .ready) := by
  have hblockno : ∀ x : Buf, (x.fill data).blockno = x.blockno := fun x ↦ by
    unfold Buf.fill; split <;> rfl
  have hholder : ∀ x : Buf, (x.fill data).holder = x.holder := fun x ↦ by
    unfold Buf.fill; split <;> rfl
  have hrefcnt : ∀ x : Buf, (x.fill data).refcnt = x.refcnt := fun x ↦ by
    unfold Buf.fill; split <;> rfl
  have hvalid : ∀ x : Buf, (x.fill data).valid = true := fun x ↦ by
    unfold Buf.fill; split <;> simp_all
  refine h.modify i p hblockno (fun j hj ↦ ⟨?_, rfl⟩) ?_ (by simp) (fun q j b' hq ↦ ?_)
    fun q j hq hne ↦ ?_
  · rw [hpc, BioPc.stake, BioPc.stake]
  · rw [hpc, hrefcnt, Buf.held, Buf.held, hholder, BioPc.stake, BioPc.stake]
  · rw [c.modify_field i Buf.holder hholder]
    by_cases hqp : q = p
    · simp [hqp] at hq
    · rw [Function.update_of_ne hqp] at hq
      exact h.locked q j b' hq
  · by_cases hji : j = i
    · rw [hji, Cache.modify_buf_self, hvalid]
    · rw [Cache.modify_buf_of_ne _ _ hji] at hq ⊢
      refine h.filled q j hq fun b' hb' ↦ ?_
      by_cases hqp : q = p
      · rw [hqp, hpc] at hb'
        exact hji (BioPc.locked.inj hb').1.symm
      · exact hne b' (by rw [Function.update_of_ne hqp, hb'])

theorem Books.release (h : Books c pins pc) (hpc : pc p = .ready)
    (hheld : (c.buf i).holder = some p) :
    Books (c.modify i (Buf.setHolder none)) pins (Function.update pc p (.leaving i)) := by
  refine h.modify i p (fun _ ↦ rfl) (fun j hj ↦ ⟨?_, rfl⟩) ?_ (by simp) (fun q j b' hq ↦ ?_)
    fun q j hq hne ↦ ?_
  · rw [hpc, stake_leaving_of_ne hj, stake_ready]
  · rw [hpc, stake_leaving, stake_ready, Buf.held, Buf.held, hheld]
    simp [Buf.setHolder]
  · rw [update_of_ready hpc (by simp) (by simp)] at hq
    obtain ⟨hblock, hholder⟩ := h.locked q j b' hq
    have hji : j ≠ i := by
      rintro rfl
      obtain rfl : p = q := Option.some.inj (hheld.symm.trans hholder)
      simp [hpc] at hq
    rw [Cache.modify_buf_of_ne _ _ hji]
    exact ⟨hblock, hholder⟩
  · have hji : j ≠ i := by
      rintro rfl
      simp [Buf.setHolder] at hq
    rw [Cache.modify_buf_of_ne _ _ hji] at hq ⊢
    exact h.filled q j hq fun b' hb' ↦ hne b' ((update_of_ready hpc (by simp) (by simp)).mpr hb')

theorem Books.put (h : Books c pins pc) (hpc : pc p = .leaving i) :
    Books (bput c i) pins (Function.update pc p .ready) := by
  have hcount := h.count i
  have hsum : (pc p).stake i ≤ ∑ q, (pc q).stake i :=
    Finset.single_le_sum (f := fun q ↦ (pc q).stake i) (fun _ _ ↦ Nat.zero_le _)
      (Finset.mem_univ p)
  rw [hpc, stake_leaving] at hsum
  have hbooks : Books (c.modify i Buf.unref) pins (Function.update pc p .ready) := by
    refine h.modify_of_kept i p (fun _ ↦ rfl) (fun _ ↦ rfl) (fun _ ↦ rfl) (by simp [hpc]) (by simp)
      (fun j hj ↦ ⟨?_, rfl⟩) ?_ (by simp)
    · rw [hpc, stake_leaving_of_ne hj, stake_ready]
    · rw [hpc, stake_leaving, stake_ready, Buf.unref]
      dsimp only
      omega
  simp only [bput]
  split_ifs
  · refine ⟨fun j ↦ ?_, hbooks.unique, hbooks.count, hbooks.getting, hbooks.locked, hbooks.filled⟩
    by_cases hji : j = i
    · exact hji ▸ List.mem_cons_self
    · exact List.mem_cons_of_mem _ ((List.mem_erase_of_ne hji).mpr (hbooks.listed j))
  · exact hbooks

theorem Books.modify_ready {pins' : List BlockNo} {f : Buf → Buf} (h : Books c pins pc) (i : BufId)
    (hpc : pc p = .ready) (hblockno : ∀ x, (f x).blockno = x.blockno)
    (hholder : ∀ x, (f x).holder = x.holder) (hvalid : ∀ x, (f x).valid = x.valid)
    (hothers : ∀ j, j ≠ i →
      pinCount pins' (c.buf j).blockno = pinCount pins (c.buf j).blockno)
    (hcount : (f (c.buf i)).refcnt + pinCount pins (c.buf i).blockno =
      (c.buf i).refcnt + pinCount pins' (c.buf i).blockno) :
    Books (c.modify i f) pins' pc := by
  have hbooks : Books (c.modify i f) pins' (Function.update pc p (pc p)) :=
    h.modify_of_kept i p hblockno hholder hvalid (by simp [hpc]) (by simp [hpc])
      (fun j hj ↦ ⟨rfl, hothers j hj⟩) (by omega) (fun j b hb ↦ by simp [hpc] at hb)
  rwa [Function.update_eq_self] at hbooks

theorem Books.setData (h : Books c pins pc) (hpc : pc p = .ready) (i : BufId) (v : Block) :
    Books (c.modify i (Buf.setData v)) pins pc :=
  h.modify_ready i hpc (fun _ ↦ rfl) (fun _ ↦ rfl) (fun _ ↦ rfl) (fun _ _ ↦ rfl) rfl

theorem Books.pin (h : Books c pins pc) (hpc : pc p = .ready) (hb : (c.buf i).blockno = some b)
    (hnew : b ∉ pins) : Books (c.modify i Buf.ref) (pins ++ [b]) pc := by
  refine h.modify_ready i hpc (fun _ ↦ rfl) (fun _ ↦ rfl) (fun _ ↦ rfl) (fun j hj ↦ ?_) ?_
  · cases hblock : (c.buf j).blockno with
    | none => rfl
    | some b' =>
      have hne : b' ≠ b := fun h' ↦ hj (h.unique j i b (h' ▸ hblock) hb)
      simp [pinCount, hne]
  · simp [hb, pinCount, hnew, Buf.ref]

theorem Books.unpin (h : Books c (b :: rest) pc) (hpc : pc p = .ready)
    (hb : (c.buf i).blockno = some b) (hrest : b ∉ rest) :
    Books (c.modify i Buf.unref) rest pc := by
  have hcount := h.count i
  rw [hb, pinCount, if_pos List.mem_cons_self] at hcount
  refine h.modify_ready i hpc (fun _ ↦ rfl) (fun _ ↦ rfl) (fun _ ↦ rfl) (fun j hj ↦ ?_) ?_
  · cases hblock : (c.buf j).blockno with
    | none => rfl
    | some b' =>
      have hne : b' ≠ b := fun h' ↦ hj (h.unique j i b (h' ▸ hblock) hb)
      simp [pinCount, hne]
  · simp only [hb, pinCount, if_pos List.mem_cons_self, if_neg hrest, Buf.unref]
    omega

/-! ## Contents -/

theorem Contents.recycle (h : Contents c disk flat pins)
    (hfree : ∀ b', (c.buf i).blockno = some b' → b' ∉ pins) :
    Contents (c.modify i (Buf.recycle b)) disk flat pins := by
  refine ⟨fun j b' hj hb' ↦ ?_, h.disk, fun b' hb' ↦ ?_⟩
  · have hji : j ≠ i := by
      rintro rfl
      simp [Buf.recycle] at hj
    rw [Cache.modify_buf_of_ne _ _ hji] at hj hb' ⊢
    exact h.content j b' hj hb'
  · obtain ⟨j, hj, hvalid⟩ := h.pinned b' hb'
    have hji : j ≠ i := by
      rintro rfl
      exact hfree b' hj hb'
    exact ⟨j, by rwa [Cache.modify_buf_of_ne _ _ hji], by rwa [Cache.modify_buf_of_ne _ _ hji]⟩

/-- A block that is read from the disk is not pinned, since a pinned one is in a valid buffer. -/
theorem Contents.fill (h : Contents c disk flat pins) (hbooks : Books c pins pc)
    (hb : (c.buf i).blockno = some b) : Contents (c.modify i (Buf.fill (disk b))) disk flat pins := by
  by_cases hvalid : (c.buf i).valid = true
  · have hsame : c.modify i (Buf.fill (disk b)) = c := by
      simp [Cache.modify, Buf.fill, hvalid]
    rwa [hsame]
  · have hdisk : disk b = flat b := by
      refine h.disk b fun hmem ↦ ?_
      obtain ⟨j, hj, hvalid'⟩ := h.pinned b hmem
      rw [hbooks.unique j i b hj hb] at hvalid'
      exact hvalid hvalid'
    have hfill : (c.buf i).fill (disk b) = { c.buf i with data := disk b, valid := true } := by
      simp [Buf.fill, hvalid]
    refine ⟨fun j b' hj hb' ↦ ?_, h.disk, fun b' hb' ↦ ?_⟩
    · by_cases hji : j = i
      · rw [hji, Cache.modify_buf_self, hfill] at hb' ⊢
        obtain rfl : b = b' := Option.some.inj (hb.symm.trans hb')
        exact hdisk
      · rw [Cache.modify_buf_of_ne _ _ hji] at hj hb' ⊢
        exact h.content j b' hj hb'
    · obtain ⟨j, hj, hvalid'⟩ := h.pinned b' hb'
      have hji : j ≠ i := by
        rintro rfl
        exact hvalid hvalid'
      exact ⟨j, by rwa [Cache.modify_buf_of_ne _ _ hji], by rwa [Cache.modify_buf_of_ne _ _ hji]⟩

/-- A change to a valid buffer of block `b`, which is pinned or written to the disk. -/
theorem Contents.setData {disk' : Disk} {pins' : List BlockNo} (h : Contents c disk flat pins)
    (hbooks : Books c pins pc) (hb : (c.buf i).blockno = some b) (hvalid : (c.buf i).valid = true)
    (v : Block) (hpins : ∀ b' ∈ pins', b' ∈ pins ∨ b' = b)
    (hdisk : ∀ b', b' ∉ pins' → disk' b' = Function.update flat b v b') :
    Contents (c.modify i (Buf.setData v)) disk' (Function.update flat b v) pins' := by
  have hblock := c.modify_field i (f := Buf.setData v) Buf.blockno fun _ ↦ rfl
  have hvalids := c.modify_field i (f := Buf.setData v) Buf.valid fun _ ↦ rfl
  refine ⟨fun j b' hj hb' ↦ ?_, hdisk, fun b' hb' ↦ ?_⟩
  · rw [hvalids] at hj
    rw [hblock] at hb'
    by_cases hji : j = i
    · subst hji
      obtain rfl : b = b' := Option.some.inj (hb.symm.trans hb')
      rw [Cache.modify_buf_self, Function.update_self, Buf.setData]
    · have hne : b' ≠ b := fun h' ↦ hji (hbooks.unique j i b (h' ▸ hb') hb)
      rw [Cache.modify_buf_of_ne _ _ hji, Function.update_of_ne hne]
      exact h.content j b' hj hb'
  · rcases hpins b' hb' with hold | rfl
    · obtain ⟨j, hj, hjvalid⟩ := h.pinned b' hold
      exact ⟨j, by rwa [hblock], by rwa [hvalids]⟩
    · exact ⟨i, by rwa [hblock], by rwa [hvalids]⟩

end EnhancedXv6.Logging
