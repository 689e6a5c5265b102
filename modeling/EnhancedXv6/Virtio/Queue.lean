import EnhancedXv6.Virtio.Descriptors
import Mathlib.Data.List.Flatten
import Mathlib.Data.List.Nodup
import Mathlib.Data.List.Perm.Subperm

/-!
# The queue of requests

The invariant of the memory that the driver shares with the device.  `View` is what it depends on:
the processes matter only through the request that is being prepared under the lock.  Each operation
of the driver, the handler and the device is shown to keep the invariant.
-/

namespace EnhancedXv6.Virtio

open RingBuffer

/-- How far the request of the process that holds the lock has been prepared. -/
inductive Phase
  | allocated
  | formatted
  | published
  deriving DecidableEq

structure Prep (P B : Type) where
  proc : P
  request : Request B
  phase : Phase

structure View (P B : Type) where
  disk : Disk B
  lastAvail : BitVec 16
  taken : List (Job B)
  ledger : Ledger P B
  prep : Option (Prep P B)

variable {P B : Type}

namespace View

variable (v : View P B)

/-- The entries of the avail ring that the device has not taken. -/
def offered : List ℕ := between NUM v.disk.avail.ring v.lastAvail v.disk.avail.idx

/-- The entries of the used ring that the handler has not seen. -/
def posted : List ℕ := between NUM v.disk.used.ring v.disk.usedIdx v.disk.used.idx

def waiting : List ℕ := v.offered ++ v.taken.map Job.head

def owned : List (P × Request B) :=
  (v.prep.map fun x ↦ (x.proc, x.request)).toList ++ v.ledger.active

/-- The stage of a request agrees with its buffer and its status. -/
def At (x : P × Request B) : Prop :=
  (v.ledger.stage x.2.chain.head = .submitted x.1 x.2 ∧ v.disk.bufDisk x.2.buf = true) ∨
  (v.ledger.stage x.2.chain.head = .processed x.1 x.2 ∧ v.disk.bufDisk x.2.buf = true ∧
    (v.disk.info x.2.chain.head).status = 0) ∨
  (v.ledger.stage x.2.chain.head = .applied x.1 x.2 ∧ v.disk.bufDisk x.2.buf = false)

end View

def descsOf (owned : List (P × Request B)) : List ℕ := owned.flatMap fun x ↦ x.2.chain.descs

structure QueueInv (blockno : B → ℕ) (v : View P B) : Prop where
  nodup : (descsOf v.owned).Nodup
  inUse : ∀ i, i ∈ descsOf v.owned ↔ i < NUM ∧ v.disk.free i = false
  bufs : (v.owned.map fun x ↦ x.2.buf).Nodup
  formatted : ∀ x ∈ v.ledger.active, Formatted blockno v.disk x.2
  prepared : ∀ x ∈ v.prep, x.phase ≠ .allocated →
    Formatted blockno v.disk x.request ∧ v.disk.bufDisk x.request.buf = true
  published : ∀ x ∈ v.prep, x.phase = .published →
    v.disk.avail.ring (cell NUM v.disk.avail.idx) = x.request.chain.head
  stages : ∀ x ∈ v.ledger.active, v.At x
  idle : ∀ h, (∀ x ∈ v.ledger.active, x.2.chain.head ≠ h) → v.ledger.stage h = .idle
  waiting_nodup : v.waiting.Nodup
  waiting_stage : ∀ h ∈ v.waiting, ∃ p r, v.ledger.stage h = .submitted p r
  jobs : ∀ j ∈ v.taken, ∀ p r, v.ledger.stage j.head = .submitted p r → j = r.job blockno
  posted_nodup : v.posted.Nodup
  posted_stage : ∀ h ∈ v.posted, ∃ p r, v.ledger.stage h = .processed p r

/-! ## Consequences -/

theorem mem_descsOf {owned : List (P × Request B)} {i : ℕ} :
    i ∈ descsOf owned ↔ ∃ x ∈ owned, i ∈ x.2.chain.descs :=
  List.mem_flatMap

theorem length_descsOf (owned : List (P × Request B)) : (descsOf owned).length = 3 * owned.length := by
  induction owned with
  | nil => rfl
  | cons x owned ih =>
    rw [descsOf, List.flatMap_cons, List.length_append, ← descsOf, ih]
    simp only [Chain.descs, List.length_cons, List.length_nil]
    omega

theorem head_mem_descs (c : Chain) : c.head ∈ c.descs := by simp [Chain.descs]

/-- Different numbers below a bound. -/
theorem length_le_of_nodup {l : List ℕ} {n : ℕ} (hnodup : l.Nodup) (hlt : ∀ i ∈ l, i < n) :
    l.length ≤ n := by
  have hsub : l ⊆ List.range n := fun i hi ↦ List.mem_range.mpr (hlt i hi)
  simpa using (hnodup.subperm hsub).length_le

namespace QueueInv

variable {blockno : B → ℕ} {v : View P B}

/-- A descriptor belongs to one request. -/
theorem eq_of_mem_descs (h : QueueInv blockno v) {x y : P × Request B} (hx : x ∈ v.owned)
    (hy : y ∈ v.owned) {i : ℕ} (hix : i ∈ x.2.chain.descs) (hiy : i ∈ y.2.chain.descs) : x = y := by
  by_contra hne
  have hsymm : Std.Symm (Function.onFun List.Disjoint fun x : P × Request B ↦ x.2.chain.descs) :=
    ⟨fun _ _ hdisjoint _ hb ha ↦ hdisjoint ha hb⟩
  exact (List.nodup_flatMap.mp h.nodup).2.forall hx hy hne hix hiy

theorem eq_of_buf (h : QueueInv blockno v) {x y : P × Request B} (hx : x ∈ v.owned)
    (hy : y ∈ v.owned) (hbuf : x.2.buf = y.2.buf) : x = y :=
  List.inj_on_of_nodup_map h.bufs hx hy hbuf

/-- Different requests have nothing in common. -/
theorem apart (h : QueueInv blockno v) {x y : P × Request B} (hx : x ∈ v.owned) (hy : y ∈ v.owned)
    (hne : x ≠ y) : (∀ i ∈ x.2.chain.descs, i ∉ y.2.chain.descs) ∧
      x.2.chain.head ≠ y.2.chain.head ∧ x.2.buf ≠ y.2.buf := by
  refine ⟨?_, ?_, ?_⟩
  · intro i hix hiy
    exact hne (h.eq_of_mem_descs hx hy hix hiy)
  · intro hhead
    refine hne (h.eq_of_mem_descs hx hy (head_mem_descs _) ?_)
    rw [hhead]
    exact head_mem_descs _
  · intro hbuf
    exact hne (h.eq_of_buf hx hy hbuf)

theorem chain_nodup (h : QueueInv blockno v) {x : P × Request B} (hx : x ∈ v.owned) :
    x.2.chain.descs.Nodup :=
  (List.nodup_flatMap.mp h.nodup).1 x hx

theorem desc_inUse (h : QueueInv blockno v) {x : P × Request B} (hx : x ∈ v.owned) {i : ℕ}
    (hi : i ∈ x.2.chain.descs) : i < NUM ∧ v.disk.free i = false :=
  (h.inUse i).mp (mem_descsOf.mpr ⟨x, hx, hi⟩)

theorem owned_of_active {x : P × Request B} (hx : x ∈ v.ledger.active) : x ∈ v.owned :=
  List.mem_append_right _ hx

theorem owned_of_prep {x : Prep P B} (hx : x ∈ v.prep) : (x.proc, x.request) ∈ v.owned := by
  apply List.mem_append_left
  simp [Option.mem_def.mp hx]

theorem active_of_stage (h : QueueInv blockno v) {head : ℕ} (hstage : v.ledger.stage head ≠ .idle) :
    ∃ x ∈ v.ledger.active, x.2.chain.head = head := by
  by_contra hnone
  push Not at hnone
  exact hstage (h.idle head hnone)

theorem mem_of_submitted (h : QueueInv blockno v) {head : ℕ} {p : P} {r : Request B}
    (hstage : v.ledger.stage head = .submitted p r) :
    (p, r) ∈ v.ledger.active ∧ r.chain.head = head := by
  obtain ⟨x, hx, rfl⟩ := h.active_of_stage (ne_of_eq_of_ne hstage (by simp))
  rcases h.stages x hx with ⟨hx', -⟩ | ⟨hx', -⟩ | ⟨hx', -⟩
  all_goals
    rw [hstage] at hx'
    cases hx'
  exact ⟨hx, rfl⟩

theorem mem_of_processed (h : QueueInv blockno v) {head : ℕ} {p : P} {r : Request B}
    (hstage : v.ledger.stage head = .processed p r) :
    (p, r) ∈ v.ledger.active ∧ r.chain.head = head ∧ (v.disk.info head).status = 0 := by
  obtain ⟨x, hx, rfl⟩ := h.active_of_stage (ne_of_eq_of_ne hstage (by simp))
  rcases h.stages x hx with ⟨hx', -⟩ | ⟨hx', -, hstatus⟩ | ⟨hx', -⟩
  all_goals
    rw [hstage] at hx'
    cases hx'
  exact ⟨hx, rfl, hstatus⟩

theorem head_lt (h : QueueInv blockno v) {x : P × Request B} (hx : x ∈ v.owned) :
    x.2.chain.head < NUM :=
  (h.desc_inUse hx (head_mem_descs _)).1

theorem owned_nodup (h : QueueInv blockno v) : v.owned.Nodup := List.Nodup.of_map _ h.bufs

/-- A request that is being prepared is not active. -/
theorem ne_prep (h : QueueInv blockno v) {x : Prep P B} (hx : x ∈ v.prep) {y : P × Request B}
    (hy : y ∈ v.ledger.active) : y ≠ (x.proc, x.request) := by
  rintro rfl
  have hnodup := h.owned_nodup
  rw [View.owned, Option.mem_def.mp hx] at hnodup
  exact (List.nodup_cons.mp hnodup).1 hy

/-- The head of a request that is being prepared has no stage. -/
theorem prep_idle (h : QueueInv blockno v) {x : Prep P B} (hx : x ∈ v.prep) :
    v.ledger.stage x.request.chain.head = .idle := by
  apply h.idle
  intro y hy
  exact (h.apart (owned_of_active hy) (owned_of_prep hx) (h.ne_prep hx hy)).2.1

/-- There is room in the avail ring for a request that is being prepared. -/
theorem offered_length (h : QueueInv blockno v) {x : Prep P B} (hx : x ∈ v.prep) :
    v.offered.length < NUM := by
  have hidle := h.prep_idle hx
  have hnodup : (x.request.chain.head :: v.offered).Nodup := by
    refine List.nodup_cons.mpr ⟨?_, (List.nodup_append.mp h.waiting_nodup).1⟩
    intro hmem
    obtain ⟨p, r, hstage⟩ := h.waiting_stage _ (List.mem_append_left _ hmem)
    rw [hidle] at hstage
    cases hstage
  apply length_le_of_nodup hnodup
  intro i hi
  rcases List.mem_cons.mp hi with rfl | hi
  · exact h.head_lt (owned_of_prep hx)
  · obtain ⟨p, r, hstage⟩ := h.waiting_stage _ (List.mem_append_left _ hi)
    obtain ⟨hmem, rfl⟩ := h.mem_of_submitted hstage
    exact h.head_lt (owned_of_active hmem)

/-- There is room in the used ring for what the device has taken. -/
theorem posted_length (h : QueueInv blockno v) {j : Job B} (hj : j ∈ v.taken) :
    v.posted.length < NUM := by
  obtain ⟨p, r, hstage⟩ := h.waiting_stage j.head
    (List.mem_append_right _ (List.mem_map_of_mem hj))
  have hnodup : (j.head :: v.posted).Nodup := by
    refine List.nodup_cons.mpr ⟨?_, h.posted_nodup⟩
    intro hmem
    obtain ⟨p', r', hstage'⟩ := h.posted_stage _ hmem
    rw [hstage] at hstage'
    cases hstage'
  apply length_le_of_nodup hnodup
  intro i hi
  rcases List.mem_cons.mp hi with rfl | hi
  · obtain ⟨hmem, hhead⟩ := h.mem_of_submitted hstage
    rw [← hhead]
    exact h.head_lt (owned_of_active hmem)
  · obtain ⟨p', r', hstage'⟩ := h.posted_stage _ hi
    obtain ⟨hmem, rfl, -⟩ := h.mem_of_processed hstage'
    exact h.head_lt (owned_of_active hmem)

/-- As many descriptors are free as are in no request. -/
theorem freeCount (h : QueueInv blockno v) :
    ((List.range NUM).filter v.disk.free).length + 3 * v.owned.length = NUM := by
  have hperm : (descsOf v.owned).Perm ((List.range NUM).filter fun i ↦ !v.disk.free i) := by
    apply (List.perm_ext_iff_of_nodup h.nodup (List.nodup_range.filter _)).mpr
    intro i
    rw [h.inUse i, List.mem_filter, List.mem_range, Bool.not_eq_true']
  have hlength := List.length_eq_length_filter_add (l := List.range NUM) v.disk.free
  rw [List.length_range, ← hperm.length_eq, length_descsOf] at hlength
  exact hlength.symm

/-! ## The driver -/

theorem sameInUse (h : QueueInv blockno v) (hprep : v.prep = none) {d : Disk B}
    (hd : SameInUse v.disk d) : QueueInv blockno { v with disk := d } := by
  obtain ⟨hrest, hdesc⟩ := hd
  obtain ⟨desc, rfl⟩ : ∃ desc, d = { v.disk with desc := desc } := ⟨_, hrest⟩
  refine { h with formatted := ?_, prepared := by simp [hprep] }
  intro x hx
  refine (h.formatted x hx).congr ?_ rfl rfl
  intro i hi
  exact hdesc i (h.desc_inUse (owned_of_active hx) hi).2

theorem alloc (h : QueueInv blockno v) (hprep : v.prep = none) (p : P) (r : Request B)
    (hnodup : r.chain.descs.Nodup) (hfree : ∀ i ∈ r.chain.descs, i < NUM ∧ v.disk.free i = true)
    (hbuf : ∀ x ∈ v.ledger.active, x.2.buf ≠ r.buf) :
    QueueInv blockno
      { v with
        disk := { v.disk with free := fun i ↦ v.disk.free i && decide (i ∉ r.chain.descs) }
        prep := some ⟨p, r, .allocated⟩ } := by
  have howned : v.owned = v.ledger.active := by simp [View.owned, hprep]
  refine
    { h with
      nodup := ?_
      inUse := ?_
      bufs := ?_
      formatted := fun x hx ↦ (h.formatted x hx).congr (fun _ _ ↦ rfl) rfl rfl
      prepared := by simp
      published := by simp }
  · show (r.chain.descs ++ descsOf v.ledger.active).Nodup
    rw [← howned]
    refine List.nodup_append.mpr ⟨hnodup, h.nodup, ?_⟩
    rintro i hi j hj rfl
    have hused := ((h.inUse i).mp hj).2
    rw [(hfree i hi).2] at hused
    cases hused
  · intro i
    have hmem : i ∈ descsOf (View.owned (P := P) { v with
        disk := { v.disk with free := fun i ↦ v.disk.free i && decide (i ∉ r.chain.descs) }
        prep := some ⟨p, r, .allocated⟩ }) ↔ i ∈ r.chain.descs ∨ i ∈ descsOf v.owned := by
      rw [howned]
      exact List.mem_append
    rw [hmem, h.inUse i]
    by_cases hi : i ∈ r.chain.descs
    · simp [hi, (hfree i hi).1]
    · simp [hi]
  · show (r.buf :: v.ledger.active.map fun x ↦ x.2.buf).Nodup
    have hbufs := h.bufs
    rw [howned] at hbufs
    refine List.nodup_cons.mpr ⟨?_, hbufs⟩
    intro hmem
    obtain ⟨x, hx, heq⟩ := List.mem_map.mp hmem
    exact hbuf x hx heq

section Prepare

variable [DecidableEq B] {p : P} {r : Request B}

theorem format (h : QueueInv blockno v) (hprep : v.prep = some ⟨p, r, .allocated⟩) :
    QueueInv blockno
      { v with disk := v.disk.format blockno r, prep := some ⟨p, r, .formatted⟩ } := by
  have howned : (p, r) ∈ v.owned := owned_of_prep hprep
  have hapart : ∀ x ∈ v.ledger.active, (∀ i ∈ x.2.chain.descs, i ∉ r.chain.descs) ∧
      x.2.chain.head ≠ r.chain.head ∧ x.2.buf ≠ r.buf := by
    intro x hx
    exact h.apart (owned_of_active hx) howned (h.ne_prep hprep hx)
  have hsame : View.owned { v with
      disk := v.disk.format blockno r, prep := some ⟨p, r, .formatted⟩ } = v.owned := by
    simp [View.owned, hprep]
  refine
    { h with
      nodup := by rw [hsame]; exact h.nodup
      inUse := by rw [hsame]; exact h.inUse
      bufs := by rw [hsame]; exact h.bufs
      formatted := ?_
      prepared := ?_
      published := by simp
      stages := ?_ }
  · intro x hx
    obtain ⟨hdescs, hhead, -⟩ := hapart x hx
    apply (h.formatted x hx).congr
    · intro i hi
      exact format_desc blockno v.disk (hdescs i hi)
    · exact format_ops blockno v.disk hhead
    · rw [format_info blockno v.disk hhead]
  · intro x hx _
    obtain rfl := Option.some_inj.mp hx
    refine ⟨.format v.disk (h.chain_nodup howned), ?_⟩
    simp [format_bufDisk]
  · intro x hx
    obtain ⟨-, hhead, hbuf⟩ := hapart x hx
    have hat := h.stages x hx
    simpa [View.At, format_info blockno v.disk hhead, format_bufDisk, hbuf] using hat

omit [DecidableEq B] in
theorem publish (h : QueueInv blockno v) (hprep : v.prep = some ⟨p, r, .formatted⟩) :
    QueueInv blockno
      { v with
        disk := { v.disk with avail := v.disk.avail.write r.chain.head }
        prep := some ⟨p, r, .published⟩ } := by
  set v' : View P B :=
    { v with
      disk := { v.disk with avail := v.disk.avail.write r.chain.head }
      prep := some ⟨p, r, .published⟩ } with hv'
  have hsame : v'.owned = v.owned := by simp [hv', View.owned, hprep]
  have hlength := h.offered_length hprep
  rw [View.offered, length_between] at hlength
  have hoffered : v'.offered = v.offered := between_update (by decide) hlength _
  have hwaiting : v'.waiting = v.waiting := by rw [View.waiting, hoffered]; rfl
  refine
    { h with
      nodup := by rw [hsame]; exact h.nodup
      inUse := by rw [hsame]; exact h.inUse
      bufs := by rw [hsame]; exact h.bufs
      formatted := fun x hx ↦ (h.formatted x hx).congr (fun _ _ ↦ rfl) rfl rfl
      prepared := ?_
      published := ?_
      waiting_nodup := by rw [hwaiting]; exact h.waiting_nodup
      waiting_stage := by rw [hwaiting]; exact h.waiting_stage }
  · intro x hx _
    obtain rfl := Option.some_inj.mp hx
    obtain ⟨hformatted, hbuf⟩ := h.prepared _ hprep (by simp)
    exact ⟨hformatted.congr (fun _ _ ↦ rfl) rfl rfl, hbuf⟩
  · intro x hx _
    obtain rfl := Option.some_inj.mp hx
    exact Function.update_self ..

end Prepare

/-- `avail->idx` is incremented. -/
theorem submit [DecidableEq P] [DecidableEq B] {p : P} {r : Request B} (h : QueueInv blockno v)
    (hprep : v.prep = some ⟨p, r, .published⟩) :
    QueueInv blockno
      { v with
        disk := { v.disk with avail := v.disk.avail.bump }
        ledger := v.ledger.record blockno (.submitted p r)
        prep := none } := by
  set v' : View P B :=
    { v with
      disk := { v.disk with avail := v.disk.avail.bump }
      ledger := v.ledger.record blockno (.submitted p r)
      prep := none } with hv'
  have hsame : v'.owned = v.owned := by simp [hv', View.owned, hprep, Ledger.record]
  have hidle := h.prep_idle hprep
  simp only at hidle
  have hself : v'.ledger.stage r.chain.head = .submitted p r := by
    simp [hv', Ledger.record, Note.head, Stage.next, hidle]
  have hother : ∀ i, i ≠ r.chain.head → v'.ledger.stage i = v.ledger.stage i := by
    intro i hi
    simp [hv', Ledger.record, Note.head, hi.symm]
  have hlength := h.offered_length hprep
  have hoffered : v'.offered = v.offered ++ [r.chain.head] := by
    rw [View.offered, length_between] at hlength
    have hlt : (v.disk.avail.idx - v.lastAvail).toNat + 1 < 2 ^ 16 := by
      simp only [NUM] at hlength
      omega
    have hring := h.published _ hprep rfl
    rw [View.offered, View.offered, ← hring]
    exact between_succ hlt
  -- the stages that matter are those of other heads
  have hkeep : ∀ {i st}, v.ledger.stage i = st → st ≠ .idle → v'.ledger.stage i = st := by
    intro i st hstage hst
    rw [hother i, hstage]
    rintro rfl
    exact hst (hstage.symm.trans hidle)
  have hperm : v'.waiting.Perm (r.chain.head :: v.waiting) := by
    rw [View.waiting, hoffered, List.append_assoc]
    exact List.perm_middle
  refine
    { nodup := by rw [hsame]; exact h.nodup
      inUse := by rw [hsame]; exact h.inUse
      bufs := by rw [hsame]; exact h.bufs
      formatted := ?_
      prepared := by simp [hv']
      published := by simp [hv']
      stages := ?_
      idle := ?_
      waiting_nodup := ?_
      waiting_stage := ?_
      jobs := ?_
      posted_nodup := h.posted_nodup
      posted_stage := ?_ }
  · intro x hx
    rcases List.mem_cons.mp hx with rfl | hx
    · exact (h.prepared _ hprep (by simp)).1.congr (fun _ _ ↦ rfl) rfl rfl
    · exact (h.formatted x hx).congr (fun _ _ ↦ rfl) rfl rfl
  · intro x hx
    rcases List.mem_cons.mp hx with rfl | hx
    · exact .inl ⟨hself, (h.prepared _ hprep (by simp)).2⟩
    · rcases h.stages x hx with ⟨hstage, hbuf⟩ | ⟨hstage, hbuf⟩ | ⟨hstage, hbuf⟩
      · exact .inl ⟨hkeep hstage (by simp), hbuf⟩
      · exact .inr (.inl ⟨hkeep hstage (by simp), hbuf⟩)
      · exact .inr (.inr ⟨hkeep hstage (by simp), hbuf⟩)
  · intro i hi
    rw [hother i (hi (p, r) List.mem_cons_self).symm]
    exact h.idle i fun x hx ↦ hi x (List.mem_cons_of_mem _ hx)
  · refine hperm.nodup_iff.mpr (List.nodup_cons.mpr ⟨?_, h.waiting_nodup⟩)
    intro hmem
    obtain ⟨p', r', hstage⟩ := h.waiting_stage _ hmem
    rw [hidle] at hstage
    cases hstage
  · intro i hi
    rcases List.mem_cons.mp (hperm.mem_iff.mp hi) with rfl | hi
    · exact ⟨p, r, hself⟩
    · obtain ⟨p', r', hstage⟩ := h.waiting_stage i hi
      exact ⟨p', r', hkeep hstage (by simp)⟩
  · intro j hj p' r' hstage
    obtain ⟨p'', r'', hstage'⟩ := h.waiting_stage j.head
      (List.mem_append_right _ (List.mem_map_of_mem hj))
    rw [hkeep hstage' (by simp)] at hstage
    cases hstage
    exact h.jobs j hj _ _ hstage'
  · intro i hi
    obtain ⟨p', r', hstage⟩ := h.posted_stage i hi
    exact ⟨p', r', hkeep hstage (by simp)⟩

/-! ## The device -/

theorem take (h : QueueInv blockno v) (hne : v.lastAvail ≠ v.disk.avail.idx) :
    QueueInv blockno
      { v with
        lastAvail := v.lastAvail + 1
        taken := v.disk.job (v.disk.avail.ring (cell NUM v.lastAvail)) :: v.taken } := by
  set head := v.disk.avail.ring (cell NUM v.lastAvail) with hhead
  set v' : View P B := { v with lastAvail := v.lastAvail + 1, taken := v.disk.job head :: v.taken }
    with hv'
  have hoffered : v.offered = head :: v'.offered := between_pop hne
  have hperm : v'.waiting.Perm v.waiting := by
    rw [View.waiting, View.waiting, hoffered]
    exact List.perm_middle
  refine
    { h with
      formatted := fun x hx ↦ h.formatted x hx
      waiting_nodup := hperm.nodup_iff.mpr h.waiting_nodup
      waiting_stage := fun i hi ↦ h.waiting_stage i (hperm.mem_iff.mp hi)
      jobs := ?_ }
  intro j hj p r hstage
  rcases List.mem_cons.mp hj with rfl | hj
  · obtain ⟨hmem, hr⟩ := h.mem_of_submitted hstage
    rw [show head = r.chain.head from hr.symm]
    exact (h.formatted _ hmem).job_eq
  · exact h.jobs j hj p r hstage

/-- The device posts a job it has finished. -/
theorem post [DecidableEq P] [DecidableEq B] (h : QueueInv blockno v) {j : Job B}
    (hj : j ∈ v.taken) :
    QueueInv blockno
      { v with
        disk := v.disk.post j
        taken := v.taken.erase j
        ledger := v.ledger.record blockno (.processed j) } := by
  set v' : View P B :=
    { v with
      disk := v.disk.post j
      taken := v.taken.erase j
      ledger := v.ledger.record blockno (.processed j) } with hv'
  obtain ⟨p, r, hstage⟩ := h.waiting_stage j.head
    (List.mem_append_right _ (List.mem_map_of_mem hj))
  obtain rfl := h.jobs j hj p r hstage
  obtain ⟨hmem, -⟩ := h.mem_of_submitted hstage
  have hself : v'.ledger.stage r.chain.head = .processed p r := by
    have hstage' : v.ledger.stage r.chain.head = .submitted p r := hstage
    simp [hv', Ledger.record, Note.head, Stage.next, Request.job, hstage']
  have hother : ∀ i, i ≠ r.chain.head → v'.ledger.stage i = v.ledger.stage i := by
    intro i hi
    simp [hv', Ledger.record, Note.head, Request.job, hi.symm]
  have hperm : v.waiting.Perm (r.chain.head :: v'.waiting) := by
    rw [View.waiting, View.waiting]
    exact (((List.perm_cons_erase hj).map _).append_left _).trans List.perm_middle
  have hnodup := List.nodup_cons.mp (hperm.nodup_iff.mp h.waiting_nodup)
  have hinfo : v'.disk.info = Function.update v.disk.info r.chain.head
      { v.disk.info r.chain.head with status := 0 } := rfl
  have hlength := h.posted_length hj
  rw [View.posted, length_between] at hlength
  have hposted : v'.posted = v.posted ++ [r.chain.head] :=
    between_push (by decide) (by decide) hlength _
  refine
    { h with
      formatted := ?_
      prepared := ?_
      stages := ?_
      idle := ?_
      waiting_nodup := hnodup.2
      waiting_stage := ?_
      jobs := ?_
      posted_nodup := ?_
      posted_stage := ?_ }
  · intro x hx
    refine (h.formatted x hx).congr (fun _ _ ↦ rfl) rfl ?_
    rw [hinfo]
    by_cases hx : x.2.chain.head = r.chain.head
    · simp [hx]
    · simp [hx]
  · intro x hx hphase
    obtain ⟨hformatted, hbuf⟩ := h.prepared x hx hphase
    refine ⟨hformatted.congr (fun _ _ ↦ rfl) rfl ?_, hbuf⟩
    rw [hinfo]
    by_cases hx : x.request.chain.head = r.chain.head
    · simp [hx]
    · simp [hx]
  · intro x hx
    by_cases heq : x = (p, r)
    · subst heq
      rcases h.stages _ hx with ⟨-, hbuf⟩ | ⟨hstage', -⟩ | ⟨hstage', -⟩
      · exact .inr (.inl ⟨hself, hbuf, by simp [hinfo]⟩)
      all_goals
        rw [show v.ledger.stage r.chain.head = .submitted p r from hstage] at hstage'
        cases hstage'
    · have hhead := (h.apart (owned_of_active hx) (owned_of_active hmem) heq).2.1
      have hat := h.stages x hx
      rw [View.At] at hat ⊢
      rw [hother _ hhead, hinfo, Function.update_of_ne hhead]
      exact hat
  · intro i hi
    rw [hother i (hi (p, r) hmem).symm]
    exact h.idle i hi
  · intro i hi
    rw [hother i fun heq ↦ hnodup.1 (heq ▸ hi)]
    exact h.waiting_stage i (hperm.mem_iff.mpr (List.mem_cons_of_mem _ hi))
  · intro j' hj' p' r' hstage'
    have hi : j'.head ∈ v'.waiting := List.mem_append_right _ (List.mem_map_of_mem hj')
    rw [hother _ fun heq ↦ hnodup.1 (heq ▸ hi)] at hstage'
    exact h.jobs j' (List.mem_of_mem_erase hj') p' r' hstage'
  · rw [hposted]
    refine List.nodup_append.mpr ⟨h.posted_nodup, List.nodup_singleton _, ?_⟩
    rintro i hi _ hhead rfl
    rw [List.mem_singleton.mp hhead] at hi
    obtain ⟨p', r', hstage'⟩ := h.posted_stage _ hi
    rw [show v.ledger.stage r.chain.head = .submitted p r from hstage] at hstage'
    cases hstage'
  · intro i hi
    rw [hposted, List.mem_append, List.mem_singleton] at hi
    rcases hi with hi | rfl
    · obtain ⟨p', r', hstage'⟩ := h.posted_stage i hi
      refine ⟨p', r', ?_⟩
      rw [hother i ?_, hstage']
      rintro rfl
      rw [show v.ledger.stage r.chain.head = .submitted p r from hstage] at hstage'
      cases hstage'
    · exact ⟨p, r, hself⟩

/-! ## The handler and the reclaiming process -/

/-- What the handler finds in the used ring: a processed request, with its buffer. -/
theorem next_posted (h : QueueInv blockno v) (hne : v.disk.usedIdx ≠ v.disk.used.idx) :
    ∃ p r, v.ledger.stage (v.disk.used.ring (cell NUM v.disk.usedIdx)) = .processed p r ∧
      (p, r) ∈ v.ledger.active ∧
      r.chain.head = v.disk.used.ring (cell NUM v.disk.usedIdx) ∧
      (v.disk.info (v.disk.used.ring (cell NUM v.disk.usedIdx))).status = 0 ∧
      (v.disk.info (v.disk.used.ring (cell NUM v.disk.usedIdx))).b = some r.buf := by
  have hposted : v.posted = v.disk.used.ring (cell NUM v.disk.usedIdx) :: _ := between_pop hne
  obtain ⟨p, r, hstage⟩ := h.posted_stage _ (hposted ▸ List.mem_cons_self)
  obtain ⟨hmem, hhead, hstatus⟩ := h.mem_of_processed hstage
  refine ⟨p, r, hstage, hmem, hhead, hstatus, ?_⟩
  rw [← hhead]
  exact (h.formatted _ hmem).buf

/-- The handler takes an entry off the used ring. -/
theorem complete [DecidableEq P] [DecidableEq B] (h : QueueInv blockno v) {p : P} {r : Request B}
    (hne : v.disk.usedIdx ≠ v.disk.used.idx)
    (hhead : r.chain.head = v.disk.used.ring (cell NUM v.disk.usedIdx))
    (hstage : v.ledger.stage r.chain.head = .processed p r) :
    QueueInv blockno
      { v with
        disk := { v.disk.setBufDisk r.buf false with usedIdx := v.disk.usedIdx + 1 }
        ledger := v.ledger.record blockno (.applied r.chain.head r.buf) } := by
  set v' : View P B :=
    { v with
      disk := { v.disk.setBufDisk r.buf false with usedIdx := v.disk.usedIdx + 1 }
      ledger := v.ledger.record blockno (.applied r.chain.head r.buf) } with hv'
  obtain ⟨hmem, -, -⟩ := h.mem_of_processed hstage
  have hposted : v.posted = r.chain.head :: v'.posted := by
    rw [hhead]
    exact between_pop hne
  have hnodup : r.chain.head ∉ v'.posted ∧ v'.posted.Nodup := by
    have hall := h.posted_nodup
    rw [hposted] at hall
    exact List.nodup_cons.mp hall
  have hself : v'.ledger.stage r.chain.head = .applied p r := by
    simp [hv', Ledger.record, Note.head, Stage.next, hstage]
  have hother : ∀ i, i ≠ r.chain.head → v'.ledger.stage i = v.ledger.stage i := by
    intro i hi
    simp [hv', Ledger.record, Note.head, hi.symm]
  have hbufDisk : v'.disk.bufDisk = Function.update v.disk.bufDisk r.buf false := rfl
  -- what waits for the device is not processed yet
  have hwaiting : ∀ i ∈ v.waiting, i ≠ r.chain.head := by
    rintro i hi rfl
    obtain ⟨p', r', hstage'⟩ := h.waiting_stage _ hi
    rw [hstage] at hstage'
    cases hstage'
  refine
    { h with
      formatted := fun x hx ↦ (h.formatted x hx).congr (fun _ _ ↦ rfl) rfl rfl
      prepared := ?_
      stages := ?_
      idle := ?_
      waiting_stage := ?_
      jobs := ?_
      posted_nodup := hnodup.2
      posted_stage := ?_ }
  · intro x hx hphase
    obtain ⟨hformatted, hbuf⟩ := h.prepared x hx hphase
    refine ⟨hformatted.congr (fun _ _ ↦ rfl) rfl rfl, ?_⟩
    have hapart := h.apart (owned_of_active hmem) (owned_of_prep hx) (h.ne_prep hx hmem)
    rw [hbufDisk, Function.update_of_ne hapart.2.2.symm]
    exact hbuf
  · intro x hx
    by_cases heq : x = (p, r)
    · subst heq
      exact .inr (.inr ⟨hself, by simp [hbufDisk]⟩)
    · obtain ⟨-, hheads, hbufs⟩ := h.apart (owned_of_active hx) (owned_of_active hmem) heq
      have hat := h.stages x hx
      rw [View.At] at hat ⊢
      rw [hother _ hheads, hbufDisk, Function.update_of_ne hbufs]
      exact hat
  · intro i hi
    rw [hother i (hi (p, r) hmem).symm]
    exact h.idle i hi
  · intro i hi
    rw [hother i (hwaiting i hi)]
    exact h.waiting_stage i hi
  · intro j hj p' r' hstage'
    rw [hother _ (hwaiting _ (List.mem_append_right _ (List.mem_map_of_mem hj)))] at hstage'
    exact h.jobs j hj p' r' hstage'
  · intro i hi
    rw [hother i fun heq ↦ hnodup.1 (heq ▸ hi)]
    exact h.posted_stage i (hposted ▸ List.mem_cons_of_mem _ hi)

/-- A call whose buffer is done frees its descriptors and returns. -/
theorem reclaim [DecidableEq P] [DecidableEq B] (h : QueueInv blockno v) (hprep : v.prep = none)
    {p : P} {r : Request B} (hmem : (p, r) ∈ v.ledger.active)
    (hdone : v.disk.bufDisk r.buf = false) (info : Info B) :
    ∃ d, freeChain (NUM + 1) (v.disk.setInfo r.chain.head info) r.chain.head = .ok d ∧
      QueueInv blockno
        { v with disk := d, ledger := v.ledger.record blockno (.returned p r) } := by
  have hin := owned_of_active hmem
  obtain ⟨d, hfree, hd, hdesc⟩ := (h.formatted _ hmem).freeChain_spec (h.chain_nodup hin)
    (fun i hi ↦ h.desc_inUse hin hi) info
  refine ⟨d, hfree, ?_⟩
  clear hfree
  obtain ⟨desc, rfl⟩ : ∃ desc, d = { v.disk with
      info := Function.update v.disk.info r.chain.head info
      desc := desc
      free := fun i ↦ v.disk.free i || decide (i ∈ r.chain.descs) } := ⟨_, hd⟩
  clear hd
  set v' : View P B :=
    { v with
      disk := { v.disk with
        info := Function.update v.disk.info r.chain.head info
        desc := desc
        free := fun i ↦ v.disk.free i || decide (i ∈ r.chain.descs) }
      ledger := v.ledger.record blockno (.returned p r) } with hv'
  have hstage : v.ledger.stage r.chain.head = .applied p r := by
    rcases h.stages _ hmem with ⟨-, hbuf⟩ | ⟨-, hbuf, -⟩ | ⟨hstage, -⟩
    · simp [hdone] at hbuf
    · simp [hdone] at hbuf
    · exact hstage
  have hself : v'.ledger.stage r.chain.head = .idle := by
    simp [hv', Ledger.record, Note.head, Stage.next, hstage]
  have hother : ∀ i, i ≠ r.chain.head → v'.ledger.stage i = v.ledger.stage i := by
    intro i hi
    simp [hv', Ledger.record, Note.head, hi.symm]
  have hkeep : ∀ {i st}, v.ledger.stage i = st → st ≠ .applied p r → v'.ledger.stage i = st := by
    intro i st hi hst
    rw [hother i, hi]
    rintro rfl
    exact hst (hi.symm.trans hstage)
  have howned : v.owned = v.ledger.active := by simp [View.owned, hprep]
  have howned' : v'.owned = v.ledger.active.erase (p, r) := by
    simp [hv', View.owned, hprep, Ledger.record]
  have hmem' : ∀ x, x ∈ v'.owned ↔ x ≠ (p, r) ∧ x ∈ v.ledger.active := by
    intro x
    rw [howned']
    exact (howned ▸ h.owned_nodup).mem_erase_iff
  have hactive : ∀ x ∈ v'.ledger.active, x ≠ (p, r) ∧ x ∈ v.ledger.active := by
    intro x hx
    exact (hmem' x).mp (owned_of_active hx)
  have hsub : v'.owned.Sublist v.owned := by
    rw [howned, howned']
    exact List.erase_sublist
  refine
    { h with
      nodup := h.nodup.sublist (hsub.flatMap _)
      inUse := ?_
      bufs := h.bufs.sublist (hsub.map _)
      formatted := ?_
      prepared := by simp [hv', hprep]
      published := by simp [hv', hprep]
      stages := ?_
      idle := ?_
      waiting_stage := ?_
      jobs := ?_
      posted_stage := ?_ }
  · intro i
    rw [mem_descsOf]
    constructor
    · rintro ⟨x, hx, hi⟩
      obtain ⟨hne, hx⟩ := (hmem' x).mp hx
      have hnot := (h.apart (owned_of_active hx) hin hne).1 i hi
      obtain ⟨hlt, hfree⟩ := h.desc_inUse (owned_of_active hx) hi
      exact ⟨hlt, by simp [hv', hfree, hnot]⟩
    · rintro ⟨hlt, hfree⟩
      simp only [hv', Bool.or_eq_false_iff, decide_eq_false_iff_not] at hfree
      obtain ⟨x, hx, hi⟩ := mem_descsOf.mp ((h.inUse i).mpr ⟨hlt, hfree.1⟩)
      refine ⟨x, (hmem' x).mpr ⟨?_, howned ▸ hx⟩, hi⟩
      rintro rfl
      exact hfree.2 hi
  · intro x hx
    obtain ⟨hne, hx⟩ := hactive x hx
    obtain ⟨hdescs, hhead, -⟩ := h.apart (owned_of_active hx) hin hne
    refine (h.formatted x hx).congr (fun i hi ↦ hdesc i (hdescs i hi)) rfl ?_
    simp [hv', hhead]
  · intro x hx
    obtain ⟨hne, hx⟩ := hactive x hx
    have hhead := (h.apart (owned_of_active hx) hin hne).2.1
    have hat := h.stages x hx
    rw [View.At] at hat ⊢
    rw [hother _ hhead]
    simpa [hv', hhead] using hat
  · intro i hi
    by_cases heq : i = r.chain.head
    · rw [heq, hself]
    · rw [hother i heq]
      apply h.idle
      intro x hx
      by_cases hxr : x = (p, r)
      · rw [hxr]
        exact Ne.symm heq
      · have hx' := (hmem' x).mpr ⟨hxr, hx⟩
        rw [howned'] at hx'
        exact hi x hx'
  · intro i hi
    obtain ⟨p', r', hstage'⟩ := h.waiting_stage i hi
    exact ⟨p', r', hkeep hstage' (by simp)⟩
  · intro j hj p' r' hstage'
    obtain ⟨p'', r'', hsub'⟩ := h.waiting_stage j.head
      (List.mem_append_right _ (List.mem_map_of_mem hj))
    rw [hkeep hsub' (by simp)] at hstage'
    cases hstage'
    exact h.jobs j hj _ _ hsub'
  · intro i hi
    obtain ⟨p', r', hstage'⟩ := h.posted_stage i hi
    exact ⟨p', r', hkeep hstage' (by simp)⟩

end QueueInv

end EnhancedXv6.Virtio
