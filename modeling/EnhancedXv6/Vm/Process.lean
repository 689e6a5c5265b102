import EnhancedXv6.Memory.Files
import EnhancedXv6.Trap.Trapframe
import EnhancedXv6.Vm.Space

/-!
# Processes

The parts of `struct proc` that own memory, files or inodes, and the functions of proc.c that make,
grow, copy and free a process.  The contents of the trapframe page are kept as the user context they
hold; the fields for scheduling and for waiting are left out.

`Image` says that a process is well formed, `Proc.holds` what it owns.
-/

namespace EnhancedXv6.Vm

open Radix Memory Resource Kernel Trap

structure Proc where
  pid : ℕ
  xstate : UInt32
  sz : ℕ
  pagetable : Table
  trapframe : Page
  /-- what `p->trapframe` holds of the user program -/
  user : UserContext
  /-- `p->trapframe_alarm` with what it holds -/
  trapframeAlarm : Option (Page × UserContext)
  ofile : Fin NOFILE → Option (Fin NFILE)
  cwd : Option (Fin NINODE)
  name : List UInt8
  /-- the number of the guard page below the stack that `exec` has made, while it is mapped; the
  source has no such field -/
  guard : Option ℕ

def Proc.ret (p : Proc) (a0 : UInt64) : Proc :=
  { p with user := { p.user with regs := Function.update p.user.regs .a0 a0 } }

/-- What `safestrcpy(dst, s, n)` leaves in `dst`, up to the 0. -/
def safestrcpy (s : List UInt8) (n : ℕ) : List UInt8 := (s.takeWhile (· ≠ 0)).take (n - 1)

/-! ## Code -/

def allocpid : Prog Shared ℕ :=
  .step (fun _ s ↦ { s with nextpid := s.nextpid + 1 }) fun _ s ↦ .pure s.nextpid

/-- The part of `freeproc` that frees memory. -/
def freeproc (trapframe : Option Page) (pagetable : Option Table) (sz : ℕ) : Prog Shared Unit := do
  Prog.forSome kfree trapframe
  Prog.forSome (fun pagetable ↦ procFreepagetable pagetable sz) pagetable

/-- What `allocproc` fills a slot with: `pid`, `trapframe` and `pagetable`. -/
def allocproc (trampoline : Page) : Prog Shared (Option (ℕ × Page × Table)) := do
  let pid ← allocpid
  match ← kalloc with
  | none => do
    freeproc none none 0
    pure none
  | some trapframe => do
    match ← procPagetable trampoline trapframe with
    | none => do
      freeproc (some trapframe) none 0
      pure none
    | some pagetable => pure (some (pid, trapframe, pagetable))

/-- `fork` up to the copy of the user memory. -/
def forkMemory (trampoline : Page) (p : Proc) : Prog Shared (Option (ℕ × Page × Table)) := do
  match ← allocproc trampoline with
  | none => pure none
  | some (pid, trapframe, pagetable) => do
    let (copied, pagetable) ← uvmcopy p.pagetable pagetable p.sz
    if copied = false then do
      freeproc (some trapframe) (some pagetable) 0
      pure none
    else pure (some (pid, trapframe, pagetable))

def forkChild (p : Proc) (pid : ℕ) (trapframe : Page) (pagetable : Table) : Proc :=
  { p.ret 0 with
    pid, trapframe, pagetable
    trapframeAlarm := none
    name := safestrcpy p.name 16 }

/-- `fork()` of `p`, after a slot has been found for the child. -/
def fork (trampoline : Page) (p : Proc) : Prog Shared (Option Proc) := do
  match ← forkMemory trampoline p with
  | none => pure none
  | some (pid, trapframe, pagetable) => do
    Prog.forEach (fun fd ↦ Prog.forSome filedup (p.ofile fd)) (indices NOFILE)
    Prog.forSome idup p.cwd
    pure (some (forkChild p pid trapframe pagetable))

/-- `growproc(n)`; `true` stands for 0. -/
def growproc (p : Proc) (n : Int32) : Prog Shared (Bool × Proc) :=
  -- `sz + n` in 64 bits
  let newsz := (((p.sz : ℤ) + n.toInt) % 2 ^ 64).toNat
  if n.toInt > 0 then do
    let (sz, pagetable) ← uvmalloc p.pagetable p.sz newsz { w := true }
    if sz = 0 then pure (false, { p with pagetable })
    else pure (true, { p with pagetable, sz })
  else if n.toInt < 0 then do
    let (sz, pagetable) ← uvmdealloc p.pagetable p.sz newsz
    pure (true, { p with pagetable, sz, guard := p.guard.filter (· < pageCount sz) })
  else pure (true, p)

def sysSbrk (p : Proc) (n : Int32) : Prog Shared Proc := do
  let (grown, p') ← growproc p n
  pure (p'.ret (if grown = true then .ofNat p.sz else -1))

/-- `exit(status)`, up to the state of the process. -/
def exit (p : Proc) (status : UInt32) : Prog Shared Proc := do
  Prog.forEach (fun fd ↦ Prog.forSome fileclose (p.ofile fd)) (indices NOFILE)
  Prog.forSome iput p.cwd
  pure { p with ofile := fun _ ↦ none, cwd := none, xstate := status }

/-! ## What a process owns -/

def alarmHeld (frame : Option (Page × UserContext)) : Held :=
  frame.elim 0 fun frame ↦ {.page frame.1}

def filesOf (ofile : Fin NOFILE → Option (Fin NFILE)) (fds : List (Fin NOFILE)) : Held :=
  (fds.map fun fd ↦ (ofile fd).elim 0 fun f ↦ {.ref f}).sum

def cwdHeld (cwd : Option (Fin NINODE)) : Held := cwd.elim 0 fun ip ↦ {.inode ip}

/-- The trapframe page, the files and the current directory. -/
def Proc.keeps (p : Proc) : Held :=
  {.page p.trapframe} + alarmHeld p.trapframeAlarm + filesOf p.ofile (indices NOFILE) +
    cwdHeld p.cwd

/-- A process whose user pages are `ups` is well formed. -/
structure Image (trampoline : Page) (p : Proc) (ups : List UPage) : Prop where
  size : ups.length = pageCount p.sz
  maps : Maps p.pagetable (overlay (layout trampoline p.trapframe) 0 ups)
  readable : ∀ u ∈ ups, u.perm.r = true
  user : ∀ k u, ups[k]? = some u → (u.perm.u = true ↔ p.guard ≠ some k)
  guard : ∀ k, p.guard = some k → k < ups.length

/-- All that a process with the user pages `ups` owns. -/
def Proc.holds (p : Proc) (ups : List UPage) : Held := res p.pagetable + dataOf ups + p.keeps

variable {ram : Ram} {h : Held} {trampoline : Page} {p : Proc} {ups : List UPage}

theorem perm_ne {ups : List UPage} (hreadable : ∀ u ∈ ups, u.perm.r = true) :
    ∀ u ∈ ups, u.perm ≠ {} := by
  intro u hu heq
  have hr := hreadable u hu
  rw [heq] at hr
  cases hr

/-! ## freeproc and allocproc -/

theorem wp_allocpid {Q : ℕ → Held → Prop} (hQ : ∀ pid, Q pid h) :
    allocpid.wp (Balanced ram) Q h := by
  apply Prog.wp_step
  intro _ s rest hs
  exact ⟨h, ⟨hs.kernelEnd, hs.balance, hs.contents, hs.tokens, hs.proper⟩, fun _ ↦ hQ s.nextpid⟩

theorem wp_freeproc {pagetable : Table} {trapframe : Page} {sz : ℕ} {Q : Unit → Held → Prop}
    (hsz : ups.length = pageCount sz)
    (hm : Maps pagetable (overlay (layout trampoline trapframe) 0 ups))
    (hreadable : ∀ u ∈ ups, u.perm.r = true) (hQ : Q () h) :
    (freeproc (some trapframe) (some pagetable) sz).wp (Balanced ram) Q
      (res pagetable + dataOf ups + ({.page trapframe} + h)) := by
  rw [freeproc]
  apply Prog.wp_bind
  have hheld : res pagetable + dataOf ups + ({.page trapframe} + h) =
      res pagetable + dataOf ups + h + {.page trapframe} := by
    ac_rfl
  apply wp_kfree .page hheld
  exact wp_procFreepagetable hsz hm (perm_ne hreadable) hQ

theorem wp_allocproc {Q : Option (ℕ × Page × Table) → Held → Prop} (hfail : Q none h)
    (hok : ∀ pid trapframe pagetable, Maps pagetable (layout trampoline trapframe) →
      Q (some (pid, trapframe, pagetable)) (res pagetable + ({.page trapframe} + h))) :
    (allocproc trampoline).wp (Balanced ram) Q h := by
  rw [allocproc]
  apply Prog.wp_bind
  apply wp_allocpid
  intro pid
  apply Prog.wp_bind
  apply wp_kalloc
  · exact Prog.wp_pure hfail
  intro trapframe
  apply Prog.wp_bind
  apply wp_procPagetable
  · apply Prog.wp_bind
    rw [freeproc]
    apply Prog.wp_bind
    exact wp_kfree .page rfl (Prog.wp_pure (Prog.wp_pure hfail))
  · intro pagetable hm
    apply Prog.wp_pure
    rw [Multiset.add_comm h]
    exact hok pid trapframe pagetable hm

/-! ## fork -/

/-- The memory of the child is a copy of that of the parent, or nothing has happened. -/
theorem wp_forkMemory {Q : Option (ℕ × Page × Table) → Held → Prop}
    (himage : Image trampoline p ups) (hfail : Q none (p.holds ups))
    (hok : ∀ pid trapframe pagetable cs,
      Maps pagetable (overlay (layout trampoline trapframe) 0 cs) → CopyOf cs ups →
      Q (some (pid, trapframe, pagetable))
        (res pagetable + dataOf cs + ({.page trapframe} + p.holds ups))) :
    (forkMemory trampoline p).wp (Balanced ram) Q (p.holds ups) := by
  rw [forkMemory]
  apply Prog.wp_bind
  apply wp_allocproc
  · exact Prog.wp_pure hfail
  intro pid trapframe pagetable hm
  have hheld : ({.page trapframe} + p.holds ups : Held) =
      dataOf ups + ({.page trapframe} + (res p.pagetable + p.keeps)) := by
    rw [Proc.holds]
    ac_rfl
  rw [hheld]
  apply Prog.wp_bind
  apply wp_uvmcopy himage.size himage.maps (perm_ne himage.readable) hm
    (fun k hk ↦ layout_eq_none hk)
  · intro pagetable hm
    apply Prog.wp_bind
    rw [← hheld, ← Multiset.add_zero (res pagetable), ← dataOf_nil]
    apply wp_freeproc rfl
    · rwa [overlay_nil]
    · exact fun u hu ↦ absurd hu List.not_mem_nil
    · exact Prog.wp_pure hfail
  · intro pagetable cs hm hcopy
    apply Prog.wp_pure
    rw [← hheld]
    exact hok pid trapframe pagetable cs hm hcopy

/-- Every open file gets one more reference. -/
theorem wp_dupFiles {ofile : Fin NOFILE → Option (Fin NFILE)} {fds : List (Fin NOFILE)}
    {Q : Unit → Held → Prop} (hmem : ∀ fd ∈ fds, ∀ f, ofile fd = some f → .ref f ∈ h)
    (hQ : Q () (h + filesOf ofile fds)) :
    (Prog.forEach (fun fd ↦ Prog.forSome filedup (ofile fd)) fds).wp (Balanced ram) Q h := by
  induction fds generalizing h with
  | nil =>
    rw [filesOf, List.map_nil, List.sum_nil, Multiset.add_zero] at hQ
    exact Prog.wp_pure hQ
  | cons fd fds ih =>
    rw [filesOf, List.map_cons, List.sum_cons, ← Multiset.add_assoc] at hQ
    rw [Prog.forEach_cons]
    apply Prog.wp_bind
    cases hfd : ofile fd with
    | none =>
      rw [hfd, Option.elim_none, Multiset.add_zero] at hQ
      exact Prog.wp_pure (ih (fun fd' hfd' ↦ hmem fd' (List.mem_cons_of_mem _ hfd')) hQ)
    | some f =>
      rw [hfd, Option.elim_some] at hQ
      apply wp_filedup (hmem fd List.mem_cons_self f hfd)
      refine ih (fun fd' hfd' f' hf' ↦ ?_) hQ
      exact Multiset.mem_add.mpr (.inl (hmem fd' (List.mem_cons_of_mem _ hfd') f' hf'))

/-- Every open file loses a reference. -/
theorem wp_closeFiles {ofile : Fin NOFILE → Option (Fin NFILE)} {fds : List (Fin NOFILE)}
    {Q : Unit → Held → Prop} (hQ : Q () h) :
    (Prog.forEach (fun fd ↦ Prog.forSome fileclose (ofile fd)) fds).wp (Balanced ram) Q
      (h + filesOf ofile fds) := by
  induction fds with
  | nil =>
    rw [filesOf, List.map_nil, List.sum_nil, Multiset.add_zero]
    exact Prog.wp_pure hQ
  | cons fd fds ih =>
    rw [filesOf, List.map_cons, List.sum_cons, Multiset.add_comm (Option.elim _ _ _),
      ← Multiset.add_assoc]
    rw [Prog.forEach_cons]
    apply Prog.wp_bind
    cases hfd : ofile fd with
    | none =>
      rw [Option.elim_none, Multiset.add_zero]
      exact Prog.wp_pure ih
    | some f => exact wp_fileclose ih

theorem ref_mem_filesOf {ofile : Fin NOFILE → Option (Fin NFILE)} {fds : List (Fin NOFILE)}
    {fd : Fin NOFILE} {f : Fin NFILE} (hfd : fd ∈ fds) (hf : ofile fd = some f) :
    .ref f ∈ filesOf ofile fds := by
  induction fds with
  | nil => cases hfd
  | cons fd' fds ih =>
    rw [filesOf, List.map_cons, List.sum_cons, Multiset.mem_add]
    rcases List.mem_cons.mp hfd with rfl | hfd
    · rw [hf]
      exact .inl (Multiset.mem_singleton_self _)
    · exact .inr (ih hfd)

/-- `fork` makes a well-formed child with copies of the pages, or nothing. -/
theorem wp_fork {Q : Option Proc → Held → Prop} (himage : Image trampoline p ups)
    (hfail : Q none (p.holds ups))
    (hok : ∀ pid trapframe pagetable cs, CopyOf cs ups →
      Image trampoline (forkChild p pid trapframe pagetable) cs →
      Q (some (forkChild p pid trapframe pagetable))
        (p.holds ups + (forkChild p pid trapframe pagetable).holds cs)) :
    (fork trampoline p).wp (Balanced ram) Q (p.holds ups) := by
  rw [fork]
  apply Prog.wp_bind
  apply wp_forkMemory himage
  · exact Prog.wp_pure hfail
  intro pid trapframe pagetable cs hm hcopy
  apply Prog.wp_bind
  apply wp_dupFiles
  · intro fd hfd f hf
    have hmem := ref_mem_filesOf hfd hf
    simp only [Proc.holds, Proc.keeps, Multiset.mem_add]
    exact .inr (.inr (.inr (.inl (.inr hmem))))
  have himage' : Image trampoline (forkChild p pid trapframe pagetable) cs := by
    refine ⟨hcopy.length.trans himage.size, hm, ?_, ?_, ?_⟩
    · intro u hu
      obtain ⟨u', hu', hcontents⟩ := hcopy.exists_mem hu
      rw [show u.perm = u'.perm from congrArg Prod.fst hcontents]
      exact himage.readable u' hu'
    · intro k u hu
      obtain ⟨u', hu', hcontents⟩ := hcopy.exists_getElem? hu
      rw [show u.perm = u'.perm from congrArg Prod.fst hcontents]
      exact himage.user k u' hu'
    · intro k hk
      rw [hcopy.length]
      exact himage.guard k hk
  have hheld : res pagetable + dataOf cs + ({.page trapframe} + p.holds ups) +
      filesOf p.ofile (indices NOFILE) + cwdHeld p.cwd =
        p.holds ups + (forkChild p pid trapframe pagetable).holds cs := by
    simp only [Proc.holds, Proc.keeps, forkChild, Proc.ret, alarmHeld, Option.elim_none,
      Multiset.add_zero]
    ac_rfl
  have hQ := hok pid trapframe pagetable cs hcopy himage'
  rw [← hheld] at hQ
  apply Prog.wp_bind
  cases hcwd : p.cwd with
  | none =>
    rw [hcwd, cwdHeld, Option.elim_none, Multiset.add_zero] at hQ
    exact Prog.wp_pure (Prog.wp_pure hQ)
  | some ip =>
    rw [hcwd, cwdHeld, Option.elim_some] at hQ
    exact wp_idup (Prog.wp_pure hQ)

/-! ## growproc -/

theorem overlay_layout_eq_none {trapframe : Page} {k : ℕ} (hlow : ups.length ≤ k)
    (hk : k < RAMPAGES) : overlay (layout trampoline trapframe) 0 ups k = none := by
  rw [overlay, if_neg (Nat.not_lt_zero k), Nat.sub_zero, List.getElem?_eq_none hlow,
    Option.elim_none, layout_eq_none hk]

theorem Image.append {new : List UPage} {perm : Perm} {pagetable : Table} {sz : ℕ}
    (himage : Image trampoline p ups) (hsz : ups.length + new.length = pageCount sz)
    (hm : Maps pagetable (overlay (layout trampoline p.trapframe) 0 (ups ++ new)))
    (hnew : Fresh { perm with r := true, u := true } new) :
    Image trampoline { p with pagetable, sz } (ups ++ new) := by
  refine ⟨by rw [List.length_append, hsz], hm, fun u hu ↦ ?_, fun k u hu ↦ ?_, fun k hk ↦ ?_⟩
  · rcases List.mem_append.mp hu with hu | hu
    · exact himage.readable u hu
    · rw [(hnew u hu).1]
  · rcases Nat.lt_or_ge k ups.length with hlt | hge
    · rw [List.getElem?_append_left hlt] at hu
      exact himage.user k u hu
    · rw [List.getElem?_append_right hge] at hu
      rw [(hnew u (List.mem_of_getElem? hu)).1]
      refine iff_of_true rfl fun hguard ↦ ?_
      exact absurd (himage.guard k hguard) (Nat.not_lt.mpr hge)
  · rw [List.length_append]
    exact Nat.lt_add_right _ (himage.guard k hk)

theorem Image.take {pagetable : Table} {sz : ℕ} (himage : Image trampoline p ups)
    (hle : pageCount sz ≤ ups.length)
    (hm : Maps pagetable (overlay (layout trampoline p.trapframe) 0 (ups.take (pageCount sz)))) :
    Image trampoline { p with pagetable, sz, guard := p.guard.filter (· < pageCount sz) }
      (ups.take (pageCount sz)) := by
  refine ⟨by rw [List.length_take, Nat.min_eq_left hle], hm, fun u hu ↦ ?_, fun k u hu ↦ ?_,
    fun k hk ↦ ?_⟩
  · exact himage.readable u (List.mem_of_mem_take hu)
  · rw [List.getElem?_take] at hu
    split at hu
    · rename_i hlt
      rw [himage.user k u hu]
      simp [Option.filter_eq_some_iff, hlt]
    · cases hu
  · rw [List.length_take, Nat.min_eq_left hle]
    simpa using (Option.filter_eq_some_iff.mp hk).2

/-- What `growproc(n)` returns, the size and the pages after it, where `sz + n` is `newsz`: it fails,
finds nothing to do or moves the break. -/
inductive Break (sz : ℕ) (ups : List UPage) (n : ℤ) (newsz : ℕ) : Bool → ℕ → List UPage → Prop
  | failed : Break sz ups n newsz false sz ups
  | same (hgrow : 0 < n → newsz < sz) (hshrink : n < 0 → sz ≤ newsz) :
      Break sz ups n newsz true sz ups
  | moved {new : List UPage} (hnew : Fresh { w := true, r := true, u := true } new) :
      Break sz ups n newsz true newsz (ups.take (pageCount newsz) ++ new)

/-- The break moves and the process stays well formed, or the call fails. -/
theorem wp_growproc {n : Int32} {Q : Bool × Proc → Held → Prop} (himage : Image trampoline p ups)
    (hQ : ∀ grown p' ups', Image trampoline p' ups' →
      p'.trapframe = p.trapframe ∧ p'.keeps = p.keeps →
      Break p.sz ups n.toInt (((p.sz : ℤ) + n.toInt) % 2 ^ 64).toNat grown p'.sz ups' →
      Q (grown, p') (p'.holds ups')) :
    (growproc p n).wp (Balanced ram) Q (p.holds ups) := by
  rw [growproc]
  simp only
  generalize ((((p.sz : ℤ) + n.toInt) % 2 ^ 64).toNat) = newsz at hQ ⊢
  have hkeep : ∀ pagetable, Maps pagetable (overlay (layout trampoline p.trapframe) 0 ups) →
      Image trampoline { p with pagetable } ups := fun pagetable hm ↦
    { himage with maps := hm }
  by_cases hpos : n.toInt > 0
  · rw [if_pos hpos, Proc.holds, Multiset.add_assoc]
    apply Prog.wp_bind
    by_cases hle : p.sz ≤ newsz
    · apply wp_uvmalloc himage.maps hle
      · intro k hlow hk
        exact overlay_layout_eq_none (by rw [himage.size]; exact hlow) hk
      · rw [pagesOf_add, Multiset.card_add, card_pagesOf_dataOf, himage.size]
        exact Nat.le_add_right _ _
      · intro pagetable hm
        apply Prog.wp_pure
        rw [← Multiset.add_assoc]
        exact hQ false _ ups (hkeep pagetable hm) ⟨rfl, rfl⟩ .failed
      · intro pagetable new hm hsz hfresh
        rw [← himage.size] at hsz hm
        have hm' : Maps pagetable (overlay (layout trampoline p.trapframe) 0 (ups ++ new)) := by
          rwa [overlay_append, Nat.zero_add]
        have hheld : res pagetable + dataOf new + (dataOf ups + p.keeps) =
            res pagetable + dataOf (ups ++ new) + p.keeps := by
          rw [dataOf_append]
          ac_rfl
        rw [hheld]
        simp only
        by_cases hzero : newsz = 0
        · -- only for a process without memory
          obtain rfl : new = [] := by
            rw [hzero] at hsz
            exact List.eq_nil_of_length_eq_zero (Nat.eq_zero_of_add_eq_zero_left hsz)
          rw [List.append_nil] at hm' ⊢
          rw [if_pos hzero]
          exact Prog.wp_pure (hQ false _ ups (hkeep pagetable hm') ⟨rfl, rfl⟩ .failed)
        · rw [if_neg hzero]
          have hall : ups.take (pageCount newsz) = ups := List.take_of_length_le (by omega)
          have hbreak : Break p.sz ups n.toInt newsz true newsz
              (ups.take (pageCount newsz) ++ new) := .moved hfresh
          rw [hall] at hbreak
          exact Prog.wp_pure (hQ true _ _ (himage.append hsz hm' hfresh) ⟨rfl, rfl⟩ hbreak)
    · rw [uvmalloc, if_pos (by omega), ← Multiset.add_assoc]
      apply Prog.wp_pure
      simp only
      split
      · exact Prog.wp_pure (hQ false _ ups (hkeep _ himage.maps) ⟨rfl, rfl⟩ .failed)
      · refine Prog.wp_pure (hQ true _ ups (hkeep _ himage.maps) ⟨rfl, rfl⟩ (.same (fun _ ↦ ?_) ?_))
        · exact Nat.lt_of_not_le hle
        · exact fun hneg ↦ absurd hneg (by omega)
  · rw [if_neg hpos]
    by_cases hneg : n.toInt < 0
    · rw [if_pos hneg]
      apply Prog.wp_bind
      by_cases hle : newsz < p.sz
      · have hcount : pageCount newsz ≤ ups.length := by
          rw [himage.size]
          exact pageCount_mono (Nat.le_of_lt hle)
        have hlen : (ups.take (pageCount newsz)).length = pageCount newsz := by
          rw [List.length_take, Nat.min_eq_left hcount]
        have hsplit := List.take_append_drop (pageCount newsz) ups
        have hm := himage.maps
        have hheld : p.holds ups = res p.pagetable + dataOf (ups.drop (pageCount newsz)) +
            (dataOf (ups.take (pageCount newsz)) + p.keeps) := by
          rw [Proc.holds, ← hsplit, dataOf_append, hsplit]
          ac_rfl
        rw [← hsplit, overlay_append, Nat.zero_add, hlen] at hm
        rw [hheld]
        apply Prog.wp_of_possible
        intro hpossible
        have hcard := card_le_of_possible hpossible
        simp only [pagesOf_add, Multiset.card_add, card_pagesOf_dataOf] at hcard
        have hmax : RAMPAGES ≤ VAPAGES := by decide
        have hdrop : pageCount newsz + (ups.drop (pageCount newsz)).length = ups.length := by
          rw [List.length_drop]
          omega
        apply wp_uvmdealloc hm (Nat.le_of_lt hle) rfl
        · rw [hdrop, himage.size]
        · intro k hlow hk
          exact overlay_layout_eq_none (by rw [hlen]; exact hlow) (by omega)
        · exact fun u hu ↦ perm_ne himage.readable u (List.mem_of_mem_drop hu)
        · omega
        · intro pagetable hm'
          rw [← Multiset.add_assoc]
          have hbreak : Break p.sz ups n.toInt newsz true newsz
              (ups.take (pageCount newsz) ++ []) := .moved fun u hu ↦ absurd hu List.not_mem_nil
          rw [List.append_nil] at hbreak
          exact Prog.wp_pure (hQ true _ _ (himage.take hcount hm') ⟨rfl, rfl⟩ hbreak)
      · rw [uvmdealloc, if_pos (Nat.le_of_not_lt hle)]
        apply Prog.wp_pure
        have hguard : p.guard.filter (· < pageCount p.sz) = p.guard := by
          cases hg : p.guard with
          | none => rfl
          | some k => simp [Option.filter, ← himage.size, himage.guard k hg]
        simp only [hguard]
        refine Prog.wp_pure (hQ true _ ups (hkeep _ himage.maps) ⟨rfl, rfl⟩ (.same ?_ fun _ ↦ ?_))
        · exact fun hgrow ↦ absurd hgrow hpos
        · exact Nat.le_of_not_lt hle
    · rw [if_neg hneg]
      exact Prog.wp_pure (hQ true p ups himage ⟨rfl, rfl⟩
        (.same (fun hgrow ↦ absurd hgrow hpos) fun hshrink ↦ absurd hshrink hneg))

/-! ## exit -/

theorem filesOf_none (fds : List (Fin NOFILE)) : filesOf (fun _ ↦ none) fds = 0 := by
  simp [filesOf]

/-- `exit` gives back the files and the current directory. -/
theorem wp_exit {status : UInt32} {Q : Proc → Held → Prop} (himage : Image trampoline p ups)
    (hQ : ∀ p', Image trampoline p' ups → p'.ofile = (fun _ ↦ none) → p'.cwd = none →
      Q p' (p'.holds ups)) :
    (exit p status).wp (Balanced ram) Q (p.holds ups) := by
  have himage' : Image trampoline
      { p with ofile := fun _ ↦ none, cwd := none, xstate := status } ups := { himage with }
  have hdone := hQ _ himage' rfl rfl
  simp only [Proc.holds, Proc.keeps, filesOf_none, cwdHeld, Option.elim_none,
    Multiset.add_zero] at hdone
  have hheld : p.holds ups = res p.pagetable + dataOf ups +
      ({.page p.trapframe} + alarmHeld p.trapframeAlarm) + cwdHeld p.cwd +
        filesOf p.ofile (indices NOFILE) := by
    rw [Proc.holds, Proc.keeps]
    ac_rfl
  rw [exit, hheld]
  apply Prog.wp_bind
  apply wp_closeFiles
  apply Prog.wp_bind
  cases hcwd : p.cwd with
  | none =>
    rw [cwdHeld, Option.elim_none, Multiset.add_zero]
    exact Prog.wp_pure (Prog.wp_pure hdone)
  | some ip => exact wp_iput (Prog.wp_pure hdone)

end EnhancedXv6.Vm
