import EnhancedXv6.Vm.System

/-!
# Well-formed address spaces

In every state of every run, each process between two system calls has exactly the pages of its size
below the trapframe, shares no page with another process, and no system call has come to a panic.
-/

namespace EnhancedXv6.Vm

open Radix Memory Resource Kernel Trap Transition

@[irreducible] def Proc.userPages (p : Proc) : List Page :=
  (List.range (pageCount p.sz)).filterMap fun k ↦ (p.pagetable.get (k * PGSIZE)).map Pte.pa

@[irreducible] def Proc.image (p : Proc) : Multiset Page := p.userPages + nodes 3 p.pagetable

@[irreducible] def Proc.pages (p : Proc) : Multiset Page := p.image + {p.trapframe}

def Proc.allPages (p : Proc) : Multiset Page :=
  p.pages + p.trapframeAlarm.elim 0 fun frame ↦ {frame.1}

structure WellFormed (trampoline : Page) (p : Proc) : Prop where
  /-- the pages below `TRAPFRAME` are those of [0, PGROUNDUP(p->sz)) -/
  below : ∀ k < TRAPFRAME / PGSIZE,
    (p.pagetable.get (k * PGSIZE)).isSome = true ↔ k * PGSIZE < pgRoundUp p.sz
  /-- all of them are for the user, except the guard page -/
  user : ∀ k pte, k * PGSIZE < pgRoundUp p.sz → p.pagetable.get (k * PGSIZE) = some pte →
    (pte.perm.u = true ↔ p.guard ≠ some k)
  size : pgRoundUp p.sz < TRAPFRAME
  trapframe : p.pagetable.get TRAPFRAME = some ⟨p.trapframe, { r := true, w := true }⟩
  trampoline : p.pagetable.get TRAMPOLINE = some ⟨trampoline, { r := true, x := true }⟩
  above : ∀ k < PAGES, TRAPFRAME < k * PGSIZE → k * PGSIZE ≠ TRAMPOLINE →
    p.pagetable.get (k * PGSIZE) = none

variable {trampoline : Page} {ram : Ram} {p q : Proc} {ups : List UPage} {w : World}
  {held : Slot → Held} {i j : Slot}

theorem Image.get_eq (himage : Image trampoline p ups) {k : ℕ} (hk : k < PAGES) :
    p.pagetable.get (k * PGSIZE) =
      (ups[k]?).elim (layout trampoline p.trapframe k) fun u ↦ some u.pte := by
  rw [himage.maps k hk, overlay, if_neg (Nat.not_lt_zero k), Nat.sub_zero]

theorem lt_pgRoundUp_iff {k sz : ℕ} : k * PGSIZE < pgRoundUp sz ↔ k < pageCount sz := by
  rw [pgRoundUp_eq]
  exact Nat.mul_lt_mul_right (by decide)

/-- A process that fits into the memory of the machine is well formed. -/
theorem Image.wellFormed (himage : Image trampoline p ups) (hroom : ups.length ≤ RAMPAGES) :
    WellFormed trampoline p := by
  have hmax : RAMPAGES < TRAPFRAME / PGSIZE := by decide
  have hnext : TRAPFRAME / PGSIZE < TRAMPOLINE / PGSIZE := by decide
  have hpages : TRAMPOLINE / PGSIZE < PAGES := by decide
  have houtside : ∀ k, ups.length ≤ k → k < PAGES →
      p.pagetable.get (k * PGSIZE) = layout trampoline p.trapframe k := by
    intro k hk hlt
    rw [himage.get_eq hlt, List.getElem?_eq_none hk, Option.elim_none]
  refine ⟨fun k hk ↦ ?_, fun k pte hk hget ↦ ?_, ?_, ?_, ?_, fun k hk hlow hne ↦ ?_⟩
  · rw [lt_pgRoundUp_iff, ← himage.size]
    rcases Nat.lt_or_ge k ups.length with hlt | hge
    · rw [himage.get_eq (by omega), List.getElem?_eq_getElem hlt]
      exact iff_of_true rfl hlt
    · rw [houtside k hge (by omega), layout, if_neg (by omega), if_neg (by omega)]
      exact iff_of_false Bool.false_ne_true (Nat.not_lt.mpr hge)
  · rw [lt_pgRoundUp_iff, ← himage.size] at hk
    rw [himage.get_eq (by omega), List.getElem?_eq_getElem hk, Option.elim_some,
      Option.some.injEq] at hget
    rw [← hget]
    exact himage.user k _ (List.getElem?_eq_getElem hk)
  · rw [pgRoundUp_eq, ← himage.size, page_trapframe]
    exact Nat.mul_lt_mul_of_pos_right (by omega) (by decide)
  · rw [page_trapframe, houtside _ (by omega) (by omega), layout, if_pos rfl]
  · rw [page_trampoline, houtside _ (by omega) (by omega), layout, if_neg (by omega), if_pos rfl]
  · have hlow' : TRAPFRAME / PGSIZE < k := by
      rw [page_trapframe] at hlow
      exact Nat.lt_of_mul_lt_mul_right hlow
    have hne' : k ≠ TRAMPOLINE / PGSIZE := by
      rintro rfl
      exact hne page_trampoline.symm
    rw [houtside k (by omega) hk, layout, if_neg (by omega), if_neg hne']

/-! ## Pages of a process -/

theorem Image.userPages (himage : Image trampoline p ups) (hroom : ups.length ≤ RAMPAGES) :
    p.userPages = ups.map UPage.pa := by
  have hget : (List.range (pageCount p.sz)).map
      (fun k ↦ (p.pagetable.get (k * PGSIZE)).map Pte.pa) = (ups.map UPage.pa).map some := by
    apply List.ext_getElem
    · simp [himage.size]
    · intro k hk hk'
      have hlt : k < ups.length := by simpa using hk'
      have hmax : RAMPAGES < PAGES := by decide
      rw [List.getElem_map, List.getElem_range, himage.get_eq (by omega),
        List.getElem?_eq_getElem hlt, List.getElem_map, List.getElem_map]
      rfl
  have hsome : ((ups.map UPage.pa).map some).filterMap id = ups.map UPage.pa := by
    rw [List.filterMap_map]
    exact List.filterMap_some
  rw [Proc.userPages, ← hsome, ← hget, List.filterMap_map]
  rfl

theorem pagesOf_res {n : ℕ} (t : Tree Page (Fin 512) Pte n) : pagesOf (res t) = nodes n t := by
  rw [res]
  induction nodes n t using Multiset.induction with
  | empty => rfl
  | cons pg pages ih =>
    rw [Multiset.map_cons, ← Multiset.singleton_add, pagesOf_add, ih, pagesOf_singleton,
      pages_page, Multiset.singleton_add]

theorem pagesOf_dataOf (ups : List UPage) : pagesOf (dataOf ups) = (ups.map UPage.pa : List Page) := by
  induction ups with
  | nil => rfl
  | cons u ups ih =>
    rw [dataOf_cons, pagesOf_add, ih, pagesOf_singleton, List.map_cons, ← Multiset.cons_coe,
      ← Multiset.singleton_add, Multiset.add_comm]
    rfl

theorem Image.pagesOf_image (himage : Image trampoline p ups) (hroom : ups.length ≤ RAMPAGES) :
    pagesOf (res p.pagetable + dataOf ups) = p.image := by
  unfold Proc.image
  rw [himage.userPages hroom, pagesOf_add, pagesOf_res, pagesOf_dataOf, Multiset.add_comm]

theorem pagesOf_filesOf (ofile : Fin NOFILE → Option (Fin NFILE)) (fds : List (Fin NOFILE)) :
    pagesOf (filesOf ofile fds) = 0 := by
  induction fds with
  | nil => rfl
  | cons fd fds ih =>
    rw [filesOf, List.map_cons, List.sum_cons, pagesOf_add, ← filesOf, ih]
    cases ofile fd <;> simp

theorem Image.pagesOf_holds (himage : Image trampoline p ups) (hroom : ups.length ≤ RAMPAGES) :
    pagesOf (p.holds ups) = p.allPages := by
  have hframe : pagesOf (alarmHeld p.trapframeAlarm) =
      p.trapframeAlarm.elim 0 fun frame ↦ {frame.1} := by
    cases p.trapframeAlarm <;> simp [alarmHeld]
  have hcwd : pagesOf (cwdHeld p.cwd) = 0 := by
    cases p.cwd <;> simp [cwdHeld]
  rw [Proc.holds, Proc.keeps, pagesOf_add, himage.pagesOf_image hroom]
  simp only [pagesOf_add, pagesOf_singleton, pages_page, hframe, pagesOf_filesOf, hcwd,
    Multiset.add_zero]
  unfold Proc.allPages Proc.pages
  ac_rfl

theorem Image.pages_le (himage : Image trampoline p ups) (hroom : ups.length ≤ RAMPAGES) :
    p.pages ≤ pagesOf (p.holds ups) := by
  rw [himage.pagesOf_holds hroom, Proc.allPages]
  exact Multiset.le_add_right _ _

theorem Live.owns (hlive : Live w i p) (hsound : SoundWith trampoline ram w held) :
    Owns trampoline p (held i) := by
  have hholds := hsound.slots i
  rcases hlive with hi | hi
  · rw [hi] at hholds
    exact hholds
  · rw [hi] at hholds
    exact hholds.1

theorem Proc.room (hpossible : Possible (Balanced ram) (p.holds ups)) :
    ups.length ≤ RAMPAGES := by
  have hcard := card_le_of_possible hpossible
  rw [Proc.holds, pagesOf_add, pagesOf_add, Multiset.card_add, Multiset.card_add,
    card_pagesOf_dataOf] at hcard
  omega

theorem SoundWith.possible (hsound : SoundWith trampoline ram w held) (i : Slot) :
    Possible (Balanced ram) (held i) :=
  ⟨_, _, hsound.balanced_at i⟩

theorem Live.wellFormed (hlive : Live w i p) (hsound : SoundWith trampoline ram w held) :
    WellFormed trampoline p ∧ p.pages ≤ pagesOf (held i) := by
  obtain ⟨ups, himage, hheld⟩ := hlive.owns hsound
  have hroom := Proc.room (hheld ▸ hsound.possible i)
  exact ⟨himage.wellFormed hroom, hheld ▸ himage.pages_le hroom⟩

/-- What the slots hold together is in one place. -/
theorem SoundWith.nodup (hsound : SoundWith trampoline ram w held) :
    (pagesOf (∑ i, held i)).Nodup := by
  refine Multiset.nodup_of_le ?_ ram.nodup
  rw [← hsound.balanced.balance, pagesOf_add]
  exact (Multiset.le_add_right _ _).trans (Multiset.le_add_left _ _)

theorem SoundWith.nodup_at (hsound : SoundWith trampoline ram w held) (i : Slot) :
    (pagesOf (held i)).Nodup := by
  refine Multiset.nodup_of_le ?_ hsound.nodup
  rw [sum_held held i, pagesOf_add]
  exact Multiset.le_add_right _ _

theorem SoundWith.disjoint (hsound : SoundWith trampoline ram w held) (hij : i ≠ j) :
    Disjoint (pagesOf (held i)) (pagesOf (held j)) := by
  obtain ⟨rest, hsum, -⟩ := sum_held_pair held hij
  have hnodup := hsound.nodup
  rw [hsum, pagesOf_add, pagesOf_add] at hnodup
  exact (Multiset.nodup_add.mp (Multiset.nodup_of_le (Multiset.le_add_right _ _) hnodup)).2.2

/-- A system call never comes to a panic. -/
theorem SoundWith.no_panic (hsound : SoundWith trampoline ram w held) (i : Slot)
    (other : Option Slot) : w.slots i ≠ .kernel other .panic := by
  intro hi
  have hholds := hsound.slots i
  rw [hi] at hholds
  exact hholds.1 (hsound.possible i)

/-! ## A machine that boots -/

def smallRam : Ram where
  kernelEnd := KERNBASE + PGSIZE
  pages := ((List.range 20).map fun n ↦ KERNBASE + PGSIZE * (n + 1) : List Page)
  nodup := by decide
  small := by decide
  valid := by decide

def smallStart : Shared where
  kernelEnd := KERNBASE + PGSIZE
  freelist := (List.range 20).map fun n ↦ KERNBASE + PGSIZE * (n + 1)
  mem := fun _ ↦ zeros
  ftable := fun _ ↦ {}
  pipes := []
  iref := fun _ ↦ 0
  nextpid := 1

/-- The world that `userinit` leaves. -/
def bootWorld (p : Proc) (s : Shared) : World where
  shared := s
  slots := Function.update (fun _ ↦ .rest .unused) initproc (.rest (.user p))

/-- The world at the end of a run on the small machine. -/
def bootRun (es : List Event) : Option World :=
  ((userinit KERNBASE [] 1).run (fun _ ↦ false) smallStart).bind fun r ↦
    r.1.bind fun p ↦ (system KERNBASE (bootWorld p r.2)).runGuarded (fun _ _ ↦ True) es
      (bootWorld p r.2)

/-- A run on the small machine to a world with a given property, checked by evaluation. -/
theorem exists_run (P : World → Prop) [DecidablePred P] (es : List Event)
    (hrun : ((bootRun es).any fun w ↦ P w) = true) :
    ∃ w₀ w, Boots KERNBASE smallRam w₀ ∧ (system KERNBASE w₀).Reachable (fun _ _ ↦ True) w ∧ P w := by
  obtain ⟨w, hw, hend⟩ := (Option.any_eq_true _ _).mp hrun
  obtain ⟨⟨r, s⟩, huserinit, hw⟩ := Option.bind_eq_some_iff.mp hw
  obtain ⟨p, rfl, hw⟩ := Option.bind_eq_some_iff.mp hw
  have hfresh : Fresh0 smallRam smallStart := ⟨rfl, rfl, fun _ ↦ rfl, rfl, fun _ ↦ rfl⟩
  exact ⟨_, w, ⟨[], 1, fun _ ↦ false, smallStart, p, s, hfresh, huserinit, rfl⟩,
    System.Reachable.start.of_runGuarded hw, of_decide_eq_true hend⟩

def State.program : State → Option Proc
  | .rest (.user p) => some p
  | _ => none

theorem State.program_eq_some {s : State} : s.program = some p ↔ s = .rest (.user p) := by
  cases s with
  | rest r => cases r <;> simp [State.program]
  | reserved | kernel => simp [State.program]

def State.isUnused : State → Bool
  | .rest .unused => true
  | _ => false

theorem State.isUnused_iff {s : State} : s.isUnused = true ↔ s = .rest .unused := by
  cases s with
  | rest r => cases r <;> simp [State.isUnused]
  | reserved | kernel => simp [State.isUnused]

def State.isRest : State → Bool
  | .rest _ => true
  | _ => false

/-- The first process makes a pipe, duplicates its read end and forks a child, which grows by a page
and closes the write end. -/
def pipedChild : List Event :=
  List.flatten
    [[.call 0 (.pipe 64)], List.replicate 7 (.step 0 false), [.call 0 (.dup 0)],
      List.replicate 2 (.step 0 false), [.call 0 (.fork (some 1))], List.replicate 14 (.step 0 false),
      [.call 1 (.sbrk 4096)], List.replicate 3 (.step 1 false), [.call 1 (.close 1)],
      List.replicate 2 (.step 1 false)]

theorem exists_pipedChild :
    ∃ w₀ w p q, Boots KERNBASE smallRam w₀ ∧ (system KERNBASE w₀).Reachable (fun _ _ ↦ True) w ∧
      w.slots 0 = .rest (.user p) ∧ w.slots 1 = .rest (.user q) ∧ p.sz < q.sz ∧
      (walkaddr q.pagetable 0).isSome = true ∧ w.shared.pipes.length = 1 ∧
      (∀ i, (w.slots i).isRest = true) ∧ (pagesOf w.lost).card = 0 := by
  obtain ⟨w₀, w, hboots, hw, p, hp, q, hq, hend⟩ := exists_run (fun w ↦
    ∃ p ∈ (w.slots 0).program, ∃ q ∈ (w.slots 1).program, p.sz < q.sz ∧
      (walkaddr q.pagetable 0).isSome = true ∧ w.shared.pipes.length = 1 ∧
      (∀ i, (w.slots i).isRest = true) ∧ (pagesOf w.lost).card = 0) pipedChild (by decide +kernel)
  exact ⟨w₀, w, p, q, hboots, hw, State.program_eq_some.mp hp, State.program_eq_some.mp hq, hend⟩

/-- A program of one segment with the flags of text, `PF_R` and `PF_X`. -/
def textFile : List UInt8 :=
  [0x7f, 0x45, 0x4c, 0x46] ++ List.replicate 28 0 ++ [64] ++ List.replicate 23 0 ++ [1, 0] ++
    List.replicate 6 0 ++ [1, 0, 0, 0, 5, 0, 0, 0] ++ List.replicate 32 0 ++ [16] ++
    List.replicate 15 0

/-! ## Every run -/

/-- Between system calls the address space of each process has exactly the pages of its size, no page
is shared, and no system call panics. -/
theorem address_spaces_wellFormed {w₀ : World} (hboots : Boots trampoline ram w₀)
    (hw : (system trampoline w₀).Reachable (fun _ _ ↦ True) w) :
    (∀ i p, Live w i p → WellFormed trampoline p ∧ p.pages.Nodup) ∧
      (∀ i j p q, i ≠ j → Live w i p → Live w j q → Disjoint p.pages q.pages) ∧
      ∀ i other, w.slots i ≠ .kernel other .panic := by
  obtain ⟨held, hsound⟩ := reachable_sound hboots hw
  refine ⟨fun i p hlive ↦ ?_, fun i j p q hij hp hq ↦ ?_, hsound.no_panic⟩
  · obtain ⟨hwell, hle⟩ := hlive.wellFormed hsound
    exact ⟨hwell, Multiset.nodup_of_le hle (hsound.nodup_at i)⟩
  · obtain ⟨-, hlep⟩ := hp.wellFormed hsound
    obtain ⟨-, hleq⟩ := hq.wellFormed hsound
    exact (hsound.disjoint hij).mono hlep hleq

theorem address_spaces_wellFormed_pipedChild :
    ∃ w p q, Live w 0 p ∧ Live w 1 q ∧ p.sz < q.sz ∧ (WellFormed KERNBASE q ∧ q.pages.Nodup) ∧
      Disjoint p.pages q.pages := by
  obtain ⟨w₀, w, p, q, hboots, hw, hp, hq, hsz, -⟩ := exists_pipedChild
  have hp : Live w 0 p := .inl hp
  have hq : Live w 1 q := .inl hq
  obtain ⟨hwell, hdisjoint, -⟩ := address_spaces_wellFormed hboots hw
  exact ⟨w, p, q, hp, hq, hsz, hwell 1 q hq, hdisjoint 0 1 p q (by decide) hp hq⟩

end EnhancedXv6.Vm
