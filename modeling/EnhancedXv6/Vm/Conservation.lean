import EnhancedXv6.Vm.Addresses

/-!
# Conservation of pages and references

Outside of system calls every page that `kinit` has put on the free list is in one place: it is free,
a pipe, part of a process, or was allocated at boot for good.  The exception are alarm frames.
`freeproc` frees the trapframe and forgets the page of `trapframe_alarm`, so that the frame of a process
that is reaped inside its handler is in no place from then on.  Files have a reference for each
descriptor.
-/

namespace EnhancedXv6.Vm

open Radix Memory Resource Kernel Trap Transition

/-- The pages of `kinit` that are allocated before `userinit`, for the kernel page table, the kernel
stacks and the disk, and never freed. -/
def bootPages (ram : Ram) : Multiset Page := (kinit ram.kernelEnd : Multiset Page) - ram.pages

def State.pages : State → Multiset Page
  | .rest (.user p) | .rest (.zombie p) => p.allPages
  | _ => 0

/-- Each page of `kinit` is in exactly one place. -/
def Conserved (ram : Ram) (w : World) : Prop :=
  ∀ pg ∈ kinit ram.kernelEnd,
    (bootPages ram + w.shared.freelist + (w.shared.pipes.map Pipe.page : List Page) +
      ∑ i, (w.slots i).pages).count pg = 1

variable {trampoline : Page} {ram : Ram} {p : Proc} {ups : List UPage} {w w₀ : World}
  {held : Slot → Held} {i : Slot}

/-! ## The pages of kinit -/

theorem nodup_kinit (kernelEnd : ℕ) : (kinit kernelEnd).Nodup := by
  rw [kinit, List.nodup_reverse, freerange]
  apply List.nodup_range.map
  intro i j hij
  exact Nat.eq_of_mul_eq_mul_right (by decide) (Nat.add_left_cancel hij)

theorem mem_kinit {kernelEnd pg : ℕ} (haligned : pg % PGSIZE = 0) (hlow : kernelEnd ≤ pg)
    (hhigh : pg < PHYSTOP) : pg ∈ kinit kernelEnd := by
  rw [kinit, List.mem_reverse, freerange, List.mem_map]
  refine ⟨(pg - pgRoundUp kernelEnd) / PGSIZE, List.mem_range.mpr ?_, ?_⟩
  · simp only [pgRoundUp, PGSIZE, PHYSTOP, KERNBASE] at *
    omega
  · simp only [pgRoundUp, PGSIZE] at *
    omega

theorem bootPages_add (ram : Ram) :
    bootPages ram + ram.pages = (kinit ram.kernelEnd : Multiset Page) := by
  apply tsub_add_cancel_of_le
  rw [Multiset.le_iff_subset ram.nodup]
  intro pg hpg
  obtain ⟨haligned, hlow, hhigh⟩ := ram.valid pg hpg
  exact mem_kinit haligned hlow hhigh

/-! ## Every run -/

theorem SoundWith.pagesOf_held (hsound : SoundWith trampoline ram w held)
    (hrest : (w.slots i).isRest = true) : pagesOf (held i) = (w.slots i).pages := by
  have hlive : ∀ p, Live w i p → pagesOf (held i) = p.allPages := by
    intro p hp
    obtain ⟨ups, himage, hheld⟩ := hp.owns hsound
    rw [hheld, himage.pagesOf_holds (Proc.room (hheld ▸ hsound.possible i))]
  cases hi : w.slots i with
  | reserved | kernel =>
    rw [hi] at hrest
    cases hrest
  | rest r =>
    cases r with
    | unused =>
      have hholds := hsound.slots i
      rw [hi] at hholds
      rw [show held i = 0 from hholds, pagesOf_zero]
      rfl
    | user p => exact hlive p (.inl hi)
    | zombie p => exact hlive p (.inr hi)

/-- All pages of `kinit` are somewhere, if the lost alarm frames are counted. -/
theorem SoundWith.pages_add_lost (hsound : SoundWith trampoline ram w held)
    (hrest : ∀ i, (w.slots i).isRest = true) :
    bootPages ram + w.shared.freelist + (w.shared.pipes.map Pipe.page : List Page) +
      ∑ i, (w.slots i).pages + pagesOf w.lost = (kinit ram.kernelEnd : Multiset Page) := by
  have hsum : pagesOf (∑ i, held i) = ∑ i, (w.slots i).pages :=
    Finset.sum_hom_rel (r := fun h pages ↦ pagesOf h = pages) pagesOf_zero fun i h pages hpages ↦ by
      rw [pagesOf_add, hpages, hsound.pagesOf_held (hrest i)]
  rw [← bootPages_add, ← hsound.balanced.balance, pagesOf_add, hsum]
  ac_rfl

theorem SoundWith.conserved_iff (hsound : SoundWith trampoline ram w held)
    (hrest : ∀ i, (w.slots i).isRest = true) : Conserved ram w ↔ pagesOf w.lost = 0 := by
  have hall := hsound.pages_add_lost hrest
  have hone : ∀ pg ∈ kinit ram.kernelEnd,
      Multiset.count pg (kinit ram.kernelEnd : Multiset Page) = 1 := fun pg hpg ↦
    Multiset.count_eq_one_of_mem (Multiset.coe_nodup.mpr (nodup_kinit _)) hpg
  constructor
  · intro hconserved
    apply Multiset.eq_zero_of_forall_notMem
    intro pg hpg
    have hmem : pg ∈ kinit ram.kernelEnd := by
      rw [← Multiset.mem_coe, ← hall]
      exact Multiset.mem_add.mpr (.inr hpg)
    have hcount := hone pg hmem
    rw [← hall, Multiset.count_add, hconserved pg hmem] at hcount
    have hpos := Multiset.count_pos.mpr hpg
    omega
  · intro hlost pg hpg
    rw [hlost, Multiset.add_zero] at hall
    rw [hall]
    exact hone pg hpg

/-- In every run, and with `kalloc` failing at any call, outside of system calls each page of `kinit`
is in exactly one place if and only if no process was freed with a saved alarm frame. -/
theorem pages_conserved_iff (hboots : Boots trampoline ram w₀)
    (hw : (system trampoline w₀).Reachable (fun _ _ ↦ True) w)
    (hrest : ∀ i, (w.slots i).isRest = true) : Conserved ram w ↔ pagesOf w.lost = 0 := by
  obtain ⟨held, hsound⟩ := reachable_sound hboots hw
  exact hsound.conserved_iff hrest

theorem pages_conserved_iff_pipedChild :
    ∃ w₀ w, Boots KERNBASE smallRam w₀ ∧ (system KERNBASE w₀).Reachable (fun _ _ ↦ True) w ∧
      w.shared.pipes.length = 1 ∧ (w.slots 1).program.isSome = true ∧ Conserved smallRam w := by
  obtain ⟨w₀, w, p, q, hboots, hw, -, hchild, -, -, hpipe, hrest, hlost⟩ := exists_pipedChild
  exact ⟨w₀, w, hboots, hw, hpipe, by rw [hchild]; rfl, (pages_conserved_iff hboots hw hrest).mpr
    (Multiset.card_eq_zero.mp hlost)⟩

/-- The first process forks a child, an alarm of the child is delivered, the child exits in the
handler and is reaped. -/
def reapInHandler : List Event :=
  List.flatten
    [[.call 0 (.fork (some 1))], List.replicate 11 (.step 0 false), [.alarm 1 0, .call 1 (.exit 0)],
      List.replicate 2 (.step 1 false), [.call 0 (.wait 1 0)], List.replicate 8 (.step 0 false)]

/-- The alarm frame is lost. -/
theorem freeproc_loses_alarm_frame :
    ∃ w₀ w, Boots KERNBASE smallRam w₀ ∧ (system KERNBASE w₀).Reachable (fun _ _ ↦ True) w ∧
      (∀ i, (w.slots i).isRest = true) ∧ ¬ Conserved smallRam w := by
  obtain ⟨w₀, w, hboots, hw, hrest, hlost⟩ := exists_run (fun w ↦
    (∀ i, (w.slots i).isRest = true) ∧ (pagesOf w.lost).card = 1) reapInHandler (by decide +kernel)
  obtain ⟨held, hsound⟩ := reachable_sound hboots hw
  refine ⟨w₀, w, hboots, hw, hrest, fun hconserved ↦ ?_⟩
  rw [(hsound.conserved_iff hrest).mp hconserved] at hlost
  cases hlost

/-- In every run, also while system calls are under way, no page of a process is free, a pipe or a page
of another process, and no page is on the free list twice. -/
theorem pages_in_one_place (hboots : Boots trampoline ram w₀)
    (hw : (system trampoline w₀).Reachable (fun _ _ ↦ True) w) :
    (w.shared.freelist + (w.shared.pipes.map Pipe.page : List Page) +
      ∑ i, (w.slots i).pages : Multiset Page).Nodup := by
  obtain ⟨held, hsound⟩ := reachable_sound hboots hw
  have hslot : ∀ i, (w.slots i).pages ≤ pagesOf (held i) := by
    intro i
    cases hi : w.slots i with
    | rest => exact hi ▸ (hsound.pagesOf_held (by rw [hi, State.isRest])).ge
    | reserved | kernel => exact Multiset.zero_le _
  have hsum : ∑ i, (w.slots i).pages ≤ pagesOf (∑ i, held i) :=
    Finset.sum_hom_rel (r := fun pages h ↦ pages ≤ pagesOf h) le_rfl fun i _ _ h ↦
      pagesOf_add .. ▸ add_le_add (hslot i) h
  refine Multiset.nodup_of_le ?_ ram.nodup
  rw [← hsound.balanced.balance, pagesOf_add]
  exact add_le_add le_rfl (hsum.trans (Multiset.le_add_right _ _))

/-- The first process is inside another `fork`. -/
theorem pages_in_one_place_pipedChild :
    ∃ w₀ w, Boots KERNBASE smallRam w₀ ∧ (system KERNBASE w₀).Reachable (fun _ _ ↦ True) w ∧
      (w.slots 0).isRest = false ∧ w.shared.pipes.length = 1 ∧ (w.slots 1).program.isSome = true ∧
      (w.shared.freelist + (w.shared.pipes.map Pipe.page : List Page) +
        ∑ i, (w.slots i).pages : Multiset Page).Nodup := by
  obtain ⟨w₀, w, hboots, hw, hfork, hpipe, hchild⟩ := exists_run (fun w ↦
    (w.slots 0).isRest = false ∧ w.shared.pipes.length = 1 ∧ (w.slots 1).program.isSome = true)
    (pipedChild ++ [.call 0 (.fork (some 2)), .step 0 false]) (by decide +kernel)
  exact ⟨w₀, w, hboots, hw, hfork, hpipe, hchild, pages_in_one_place hboots hw⟩

/-! ## Open files -/

/-- The descriptors of a slot outside of system calls that refer to `f`. -/
def State.descriptors (f : Fin NFILE) : State → ℕ
  | .rest (.user p) | .rest (.zombie p) => ∑ fd, if p.ofile fd = some f then 1 else 0
  | _ => 0

theorem SoundWith.descriptors_le (hsound : SoundWith trampoline ram w held) (f : Fin NFILE) :
    (w.slots i).descriptors f ≤ (held i).count (.ref f) := by
  have hlive : ∀ p, Live w i p →
      (∑ fd, if p.ofile fd = some f then 1 else 0) ≤ (held i).count (.ref f) := by
    intro p hp
    obtain ⟨ups, -, hheld⟩ := hp.owns hsound
    rw [hheld, Proc.holds, Proc.keeps, filesOf_eq_sum]
    have hfd : ∀ fd, (fileHeld (p.ofile fd)).count (.ref f) =
        if p.ofile fd = some f then 1 else 0 := by
      intro fd
      cases p.ofile fd <;> simp [fileHeld, Multiset.count_singleton, eq_comm]
    simp only [Multiset.count_add, Multiset.count_sum', hfd]
    omega
  cases hi : w.slots i with
  | reserved | kernel => exact Nat.zero_le _
  | rest r =>
    cases r with
    | unused => exact Nat.zero_le _
    | user p => exact hlive p (.inl hi)
    | zombie p => exact hlive p (.inr hi)

/-- In every run, also while system calls are under way, a file has a reference for each descriptor
that refers to it, a file with a descriptor has a type, the inode of a file has a reference, and the
pipe of a file is there with that end open. -/
theorem descriptors_counted (hboots : Boots trampoline ram w₀)
    (hw : (system trampoline w₀).Reachable (fun _ _ ↦ True) w) (f : Fin NFILE) :
    ∑ i, (w.slots i).descriptors f ≤ (w.shared.ftable f).ref ∧
      match (w.shared.ftable f).type with
      | .none => ∑ i, (w.slots i).descriptors f = 0
      | .inode ip => 1 ≤ w.shared.iref ip
      | .pipe pi writable => ∃ q ∈ w.shared.pipes, q.page = pi ∧ q.isOpen writable := by
  obtain ⟨held, hsound⟩ := reachable_sound hboots hw
  have htoken := hsound.balanced.tokens (.ref f) rfl
  have hle : ∑ i, (w.slots i).descriptors f ≤ ∑ i, (held i).count (.ref f) :=
    Finset.sum_hom_rel (r := (· ≤ ·)) le_rfl fun i _ _ h ↦
      Nat.add_le_add (hsound.descriptors_le f) h
  rw [Balanced.sum_issues_ref, Multiset.count_add, Multiset.count_sum'] at htoken
  simp only [File.holds, File.issues, Shared.issues, Finset.sum_const_zero, true_and] at htoken
  refine ⟨by split at htoken <;> omega, ?_⟩
  cases hf : (w.shared.ftable f).type with
  | none =>
    rw [if_neg (not_not_intro hf)] at htoken
    omega
  | inode ip => exact hsound.balanced.issues_pos (t := .inode ip) (f := f) (by simp [File.holds, hf])
  | pipe pi writable =>
    have hopen := hsound.balanced.issues_pos (t := .pipeEnd pi writable) (f := f)
      (by simp [File.holds, hf])
    simpa using List.countP_pos_iff.mp hopen

/-- Two processes with two descriptors each for the read end of the pipe, of which only the first has
the write end. -/
theorem descriptors_counted_pipedChild :
    ∃ w₀ w, Boots KERNBASE smallRam w₀ ∧ (system KERNBASE w₀).Reachable (fun _ _ ↦ True) w ∧
      ∑ i, (w.slots i).descriptors 0 = 4 ∧ 4 ≤ (w.shared.ftable 0).ref ∧
      ∑ i, (w.slots i).descriptors 1 = 1 ∧ 1 ≤ (w.shared.ftable 1).ref := by
  obtain ⟨w₀, w, hboots, hw, hread, hwrite⟩ := exists_run (fun w ↦
    ∑ i, (w.slots i).descriptors 0 = 4 ∧ ∑ i, (w.slots i).descriptors 1 = 1)
    pipedChild (by decide +kernel)
  have hcounted := descriptors_counted hboots hw
  exact ⟨w₀, w, hboots, hw, hread, hread ▸ (hcounted 0).1, hwrite, hwrite ▸ (hcounted 1).1⟩

end EnhancedXv6.Vm
