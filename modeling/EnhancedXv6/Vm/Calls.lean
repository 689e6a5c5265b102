import EnhancedXv6.Arith.SumUpdate
import EnhancedXv6.Kernel.Syscall
import EnhancedXv6.Vm.Exec

/-!
# System calls of a process

The other system calls that make or give up pages or references: `wait`, `dup`, `close`, `pipe`,
`open`, `chdir` and `sigreturn`.  Where a call looks up a path, what it finds is a parameter.  Each
leaves a well-formed process.
-/

namespace EnhancedXv6.Vm

open Radix Memory Resource Kernel Trap

/-! ## Code -/

def fdalloc (ofile : Fin NOFILE → Option (Fin NFILE)) : Option (Fin NOFILE) :=
  (indices NOFILE).find? fun fd ↦ ofile fd = none

def Proc.setFd (p : Proc) (fd : Fin NOFILE) (f : Option (Fin NFILE)) : Proc :=
  { p with ofile := Function.update p.ofile fd f }

def word (value : ℕ) : List UInt8 := (doubleword value).take 4

def sysDup (p : Proc) (fd : Fin NOFILE) : Prog Shared Proc :=
  match p.ofile fd with
  | none => pure (p.ret (-1))
  | some f =>
    match fdalloc p.ofile with
    | none => pure (p.ret (-1))
    | some fd' => do
      filedup f
      pure ((p.setFd fd' (some f)).ret (.ofNat fd'))

def sysClose (p : Proc) (fd : Fin NOFILE) : Prog Shared Proc :=
  match p.ofile fd with
  | none => pure (p.ret (-1))
  | some f => do
    fileclose f
    pure ((p.setFd fd none).ret 0)

/-- `sys_pipe` after the allocation of the pipe. -/
def installPipe (p : Proc) (fdarray : ℕ) (rf wf : Fin NFILE) : Prog Shared Proc := do
  let bad : Prog Shared Proc := do
    fileclose rf
    fileclose wf
    pure (p.ret (-1))
  match fdalloc p.ofile with
  | none => bad
  | some fd0 =>
    match fdalloc (p.setFd fd0 (some rf)).ofile with
    | none => bad
    | some fd1 => do
      let copied ← copyout p.pagetable fdarray (word fd0)
      if copied = false then bad
      else do
        let copied ← copyout p.pagetable (fdarray + 4) (word fd1)
        if copied = false then bad
        else pure (((p.setFd fd0 (some rf)).setFd fd1 (some wf)).ret 0)

def sysPipe (p : Proc) (fdarray : ℕ) : Prog Shared Proc := do
  match ← pipealloc with
  | none => pure (p.ret (-1))
  | some files => installPipe p fdarray files.1 files.2

/-- `sys_open`, where the path leads to `found`; it is rejected when its type does not fit. -/
def sysOpen (p : Proc) (found : Option (Fin NINODE)) (rejected : Bool) : Prog Shared Proc :=
  match found with
  | none => pure (p.ret (-1))
  | some ip => do
    idup ip
    if rejected = true then do
      iput ip
      pure (p.ret (-1))
    else do
      match ← filealloc with
      | none => do
        iput ip
        pure (p.ret (-1))
      | some f =>
        match fdalloc p.ofile with
        | none => do
          fileclose f
          iput ip
          pure (p.ret (-1))
        | some fd => do
          initFile f ip
          pure ((p.setFd fd (some f)).ret (.ofNat fd))

/-- `sys_chdir`, where the path leads to `found`; it is rejected when it is no directory. -/
def sysChdir (p : Proc) (found : Option (Fin NINODE)) (rejected : Bool) : Prog Shared Proc :=
  match found with
  | none => pure (p.ret (-1))
  | some ip => do
    idup ip
    if rejected = true then do
      iput ip
      pure (p.ret (-1))
    else do
      Prog.forSome iput p.cwd
      pure ({ p with cwd := some ip }.ret 0)

def sysSigreturn (p : Proc) : Prog Shared Proc :=
  match p.trapframeAlarm with
  | none => pure (p.ret 0)
  | some frame => do
    kfree frame.1
    pure ({ p with user := frame.2, trapframeAlarm := none }.ret 0)

/-- `wait(addr)` once it has found the zombie `q`; whether `q` is freed. -/
def reap (p q : Proc) (addr : ℕ) : Prog Shared (Bool × Proc) := do
  let copied ← if addr = 0 then pure true else copyout p.pagetable addr (word q.xstate.toNat)
  if copied = false then pure (false, p.ret (-1))
  else do
    freeproc (some q.trapframe) (some q.pagetable) q.sz
    pure (true, p.ret (.ofNat q.pid))

/-! ## File descriptors -/

variable {ram : Ram} {h : Held} {trampoline : Page} {p q : Proc} {ups : List UPage}

def fileHeld (f : Option (Fin NFILE)) : Held := f.elim 0 fun f ↦ {.ref f}

theorem filesOf_eq_sum (ofile : Fin NOFILE → Option (Fin NFILE)) :
    filesOf ofile (indices NOFILE) = ∑ fd, fileHeld (ofile fd) := by
  rw [filesOf, sum_indices]
  rfl

theorem filesOf_update (ofile : Fin NOFILE → Option (Fin NFILE)) (fd : Fin NOFILE)
    (f : Option (Fin NFILE)) :
    filesOf (Function.update ofile fd f) (indices NOFILE) + fileHeld (ofile fd) =
      filesOf ofile (indices NOFILE) + fileHeld f := by
  rw [filesOf_eq_sum, filesOf_eq_sum]
  exact Arith.sum_update_add fileHeld ofile fd f

/-- What a process with another file in a descriptor holds. -/
theorem holds_setFd (p : Proc) (fd : Fin NOFILE) (f : Option (Fin NFILE)) (ups : List UPage) :
    (p.setFd fd f).holds ups + fileHeld (p.ofile fd) = p.holds ups + fileHeld f := by
  have hfiles := filesOf_update p.ofile fd f
  simp only [Proc.holds, Proc.keeps, Proc.setFd]
  calc res p.pagetable + dataOf ups + ({.page p.trapframe} + alarmHeld p.trapframeAlarm +
        filesOf (Function.update p.ofile fd f) (indices NOFILE) + cwdHeld p.cwd) +
          fileHeld (p.ofile fd)
      = res p.pagetable + dataOf ups + ({.page p.trapframe} + alarmHeld p.trapframeAlarm +
        (filesOf (Function.update p.ofile fd f) (indices NOFILE) + fileHeld (p.ofile fd)) +
          cwdHeld p.cwd) := by ac_rfl
    _ = _ := by
        rw [hfiles]
        ac_rfl

theorem fdalloc_none {ofile : Fin NOFILE → Option (Fin NFILE)} {fd : Fin NOFILE}
    (hfd : fdalloc ofile = some fd) : ofile fd = none := by
  simpa using List.find?_some hfd

theorem holds_setFd_some {fd : Fin NOFILE} (hfd : p.ofile fd = none) (f : Fin NFILE)
    (ups : List UPage) : (p.setFd fd (some f)).holds ups = p.holds ups + {.ref f} := by
  have hholds := holds_setFd p fd (some f) ups
  rw [hfd] at hholds
  simpa [fileHeld] using hholds

theorem holds_setFd_none {fd : Fin NOFILE} {f : Fin NFILE} (hfd : p.ofile fd = some f)
    (ups : List UPage) : p.holds ups = (p.setFd fd none).holds ups + {.ref f} := by
  have hholds := holds_setFd p fd none ups
  rw [hfd] at hholds
  simpa [fileHeld] using hholds.symm

/-! ## Specifications -/

/-- A process at rest, with what it holds. -/
def Owns (trampoline : Page) (p : Proc) (h : Held) : Prop :=
  ∃ ups, Image trampoline p ups ∧ h = p.holds ups

theorem Image.owns (himage : Image trampoline p ups) : Owns trampoline p (p.holds ups) :=
  ⟨ups, himage, rfl⟩

theorem Image.ret (himage : Image trampoline p ups) (a0 : UInt64) :
    Owns trampoline (p.ret a0) (p.holds ups) :=
  ⟨ups, { himage with }, rfl⟩

section

variable {Q : Proc → Held → Prop} (hQ : ∀ p' h', Owns trampoline p' h' → Q p' h')

include hQ

theorem wp_sysSbrk {n : Int32} (himage : Image trampoline p ups) :
    (sysSbrk p n).wp (Balanced ram) Q (p.holds ups) := by
  rw [sysSbrk]
  apply Prog.wp_bind
  apply wp_growproc himage
  intro grown p' ups' himage' _ _
  exact Prog.wp_pure (hQ _ _ (himage'.ret _))

theorem wp_sysDup {fd : Fin NOFILE} (himage : Image trampoline p ups) :
    (sysDup p fd).wp (Balanced ram) Q (p.holds ups) := by
  have hbad := Prog.wp_pure (W := Balanced ram) (hQ _ _ (himage.ret (-1)))
  rw [sysDup]
  cases hf : p.ofile fd with
  | none => exact hbad
  | some f =>
    cases hfd : fdalloc p.ofile with
    | none => exact hbad
    | some fd' =>
      simp only
      apply Prog.wp_bind
      apply wp_filedup
      · rw [holds_setFd_none hf]
        exact Multiset.mem_add.mpr (.inr (Multiset.mem_singleton_self _))
      rw [← holds_setFd_some (fdalloc_none hfd)]
      have himage' : Image trampoline (p.setFd fd' (some f)) ups := { himage with }
      exact Prog.wp_pure (hQ _ _ (himage'.ret _))

theorem wp_sysClose {fd : Fin NOFILE} (himage : Image trampoline p ups) :
    (sysClose p fd).wp (Balanced ram) Q (p.holds ups) := by
  rw [sysClose]
  cases hf : p.ofile fd with
  | none => exact Prog.wp_pure (hQ _ _ (himage.ret (-1)))
  | some f =>
    simp only
    apply Prog.wp_bind
    rw [holds_setFd_none hf]
    apply wp_fileclose
    have himage' : Image trampoline (p.setFd fd none) ups := { himage with }
    exact Prog.wp_pure (hQ _ _ (himage'.ret _))

theorem wp_sysSigreturn (himage : Image trampoline p ups) :
    (sysSigreturn p).wp (Balanced ram) Q (p.holds ups) := by
  rw [sysSigreturn]
  cases hframe : p.trapframeAlarm with
  | none => exact Prog.wp_pure (hQ _ _ (himage.ret 0))
  | some frame =>
    simp only
    apply Prog.wp_bind
    have himage' : Image trampoline { p with user := frame.2, trapframeAlarm := none } ups :=
      { himage with }
    have hheld : p.holds ups =
        { p with user := frame.2, trapframeAlarm := none }.holds ups + {.page frame.1} := by
      simp only [Proc.holds, Proc.keeps, hframe, alarmHeld, Option.elim_some, Option.elim_none,
        Multiset.add_zero]
      ac_rfl
    exact wp_kfree .page hheld (Prog.wp_pure (hQ _ _ (himage'.ret 0)))

theorem wp_sysChdir {found : Option (Fin NINODE)} {rejected : Bool}
    (himage : Image trampoline p ups) :
    (sysChdir p found rejected).wp (Balanced ram) Q (p.holds ups) := by
  have hbad := Prog.wp_pure (W := Balanced ram) (hQ _ _ (himage.ret (-1)))
  cases found with
  | none => exact hbad
  | some ip =>
    rw [sysChdir]
    apply Prog.wp_bind
    apply wp_idup
    cases rejected with
    | true =>
      simp only [if_true]
      exact Prog.wp_bind (wp_iput hbad)
    | false =>
      simp only [Bool.false_eq_true, if_false]
      have himage' : Image trampoline { p with cwd := some ip } ups := { himage with }
      have hdone := Prog.wp_pure (W := Balanced ram) (hQ _ _ (himage'.ret 0))
      have hheld : p.holds ups + {.inode ip} =
          { p with cwd := some ip }.holds ups + cwdHeld p.cwd := by
        simp only [Proc.holds, Proc.keeps, cwdHeld, Option.elim_some]
        ac_rfl
      rw [hheld]
      apply Prog.wp_bind
      cases p.cwd with
      | none =>
        rw [cwdHeld, Option.elim_none, Multiset.add_zero]
        exact Prog.wp_pure hdone
      | some ip' => exact wp_iput hdone

theorem wp_sysOpen {found : Option (Fin NINODE)} {rejected : Bool}
    (himage : Image trampoline p ups) :
    (sysOpen p found rejected).wp (Balanced ram) Q (p.holds ups) := by
  have hbad := Prog.wp_pure (W := Balanced ram) (hQ _ _ (himage.ret (-1)))
  cases found with
  | none => exact hbad
  | some ip =>
    rw [sysOpen]
    apply Prog.wp_bind
    apply wp_idup
    cases rejected with
    | true =>
      simp only [if_true]
      exact Prog.wp_bind (wp_iput hbad)
    | false =>
      simp only [Bool.false_eq_true, if_false]
      apply Prog.wp_bind
      apply wp_filealloc
      · exact Prog.wp_bind (wp_iput hbad)
      intro f
      cases hfd : fdalloc p.ofile with
      | none =>
        apply Prog.wp_bind
        apply wp_fileclose_fresh
        exact Prog.wp_bind (wp_iput hbad)
      | some fd =>
        apply Prog.wp_bind
        apply wp_initFile
        rw [← holds_setFd_some (fdalloc_none hfd)]
        have himage' : Image trampoline (p.setFd fd (some f)) ups := { himage with }
        exact Prog.wp_pure (hQ _ _ (himage'.ret _))

theorem wp_installPipe {fdarray : ℕ} {rf wf : Fin NFILE} (himage : Image trampoline p ups) :
    (installPipe p fdarray rf wf).wp (Balanced ram) Q (p.holds ups + {.ref rf} + {.ref wf}) := by
  have hbad : ∀ ups', SamePtes ups' ups → Prog.wp (Balanced ram) (do
      fileclose rf
      fileclose wf
      pure (p.ret (-1))) Q (p.holds ups' + {.ref rf} + {.ref wf}) := by
    intro ups' hsame
    apply Prog.wp_bind
    rw [add_right_comm]
    apply wp_fileclose
    apply Prog.wp_bind
    apply wp_fileclose
    exact Prog.wp_pure (hQ _ _ ((himage.of_samePtes hsame).ret (-1)))
  rw [installPipe]
  cases hfd0 : fdalloc p.ofile with
  | none => exact hbad ups rfl
  | some fd0 =>
    simp only
    cases hfd1 : fdalloc (p.setFd fd0 (some rf)).ofile with
    | none => exact hbad ups rfl
    | some fd1 =>
      have hheld : ∀ ups', p.holds ups' + {.ref rf} + {.ref wf} =
          dataOf ups' + (res p.pagetable + p.keeps + {.ref rf} + {.ref wf}) := by
        intro ups'
        rw [Proc.holds]
        ac_rfl
      simp only
      rw [hheld]
      refine Prog.wp_bind (wp_copyout himage.maps (noUser_layout _ _) ?_)
      intro copied ups' hsame
      have himage' := himage.of_samePtes hsame
      cases copied with
      | false =>
        rw [← hheld]
        exact hbad ups' hsame
      | true =>
        simp only [Bool.true_eq_false, if_false]
        refine Prog.wp_bind (wp_copyout himage'.maps (noUser_layout _ _) ?_)
        intro copied ups'' hsame'
        rw [← hheld]
        cases copied with
        | false => exact hbad ups'' (hsame'.trans hsame)
        | true =>
          simp only [Bool.true_eq_false, if_false]
          rw [← holds_setFd_some (fdalloc_none hfd0),
            ← holds_setFd_some (fdalloc_none hfd1)]
          have hdone : Image trampoline ((p.setFd fd0 (some rf)).setFd fd1 (some wf)) ups'' :=
            { himage'.of_samePtes hsame' with }
          exact Prog.wp_pure (hQ _ _ (hdone.ret 0))

theorem wp_sysPipe {fdarray : ℕ} (himage : Image trampoline p ups) :
    (sysPipe p fdarray).wp (Balanced ram) Q (p.holds ups) := by
  rw [sysPipe]
  apply Prog.wp_bind
  apply wp_pipealloc
  · exact Prog.wp_pure (hQ _ _ (himage.ret (-1)))
  · intro rf wf
    exact wp_installPipe hQ himage

theorem wp_sysStore {va : ℕ} {byte : UInt8} (himage : Image trampoline p ups) :
    Prog.wp (Balanced ram) (do
      store p.pagetable va byte
      pure p) Q (p.holds ups) := by
  have hheld : ∀ ups', p.holds ups' = dataOf ups' + (res p.pagetable + p.keeps) := by
    intro ups'
    rw [Proc.holds]
    ac_rfl
  apply Prog.wp_bind
  rw [hheld]
  apply wp_store himage.maps (noUser_layout _ _)
  intro ups' hsame
  rw [← hheld]
  exact Prog.wp_pure (hQ _ _ (himage.of_samePtes hsame).owns)

end

/-- `wait` frees a zombie, except for its alarm frame, or leaves it as it is. -/
theorem wp_reap {addr : ℕ} {ups' : List UPage} {Q : Bool × Proc → Held → Prop}
    (himage : Image trampoline p ups) (himage' : Image trampoline q ups')
    (hfiles : q.ofile = fun _ ↦ none) (hcwd : q.cwd = none)
    (hkept : ∀ p' h', Owns trampoline p' h' → Q (false, p') (h' + q.holds ups'))
    (hfreed : ∀ p' h', Owns trampoline p' h' → Q (true, p') (h' + alarmHeld q.trapframeAlarm)) :
    (reap p q addr).wp (Balanced ram) Q (p.holds ups + q.holds ups') := by
  have hfree : ∀ ups, Image trampoline p ups → Prog.wp (Balanced ram) (do
      freeproc (some q.trapframe) (some q.pagetable) q.sz
      pure (true, p.ret (.ofNat q.pid))) Q (p.holds ups + q.holds ups') := by
    intro ups himage
    have hheld : p.holds ups + q.holds ups' = res q.pagetable + dataOf ups' +
        ({.page q.trapframe} + (p.holds ups + alarmHeld q.trapframeAlarm)) := by
      have hkeeps : q.keeps = {.page q.trapframe} + alarmHeld q.trapframeAlarm := by
        rw [Proc.keeps, hfiles, hcwd, filesOf_none, cwdHeld, Option.elim_none, Multiset.add_zero,
          Multiset.add_zero]
      simp only [Proc.holds, hkeeps]
      ac_rfl
    rw [hheld]
    apply Prog.wp_bind
    apply wp_freeproc himage'.size himage'.maps himage'.readable
    exact Prog.wp_pure (hfreed _ _ (himage.ret _))
  rw [reap]
  by_cases haddr : addr = 0
  · rw [if_pos haddr]
    exact Prog.wp_bind (Prog.wp_pure (hfree ups himage))
  · have hheld : ∀ ups, p.holds ups + q.holds ups' =
        dataOf ups + (res p.pagetable + p.keeps + q.holds ups') := by
      intro ups
      rw [Proc.holds]
      ac_rfl
    rw [if_neg haddr, hheld]
    refine Prog.wp_bind (wp_copyout himage.maps (noUser_layout _ _) ?_)
    intro copied ups'' hsame
    rw [← hheld]
    have himage'' := himage.of_samePtes hsame
    cases copied with
    | false => exact Prog.wp_pure (hkept _ _ (himage''.ret _))
    | true => exact hfree ups'' himage''

/-! ## The trapframes -/

/-- What a trapframe holds of the user program. -/
def frameUser (tf : Trapframe) : UserContext := ⟨tf.field .epc, tf.reg⟩

theorem frameUser_setReg (tf : Trapframe) (r : Reg) (value : UInt64) :
    frameUser (tf.setReg r value) =
      { frameUser tf with regs := Function.update (frameUser tf).regs r value } := by
  simp only [frameUser, Trapframe.field_setReg, UserContext.mk.injEq, true_and]
  funext r'
  simp [Function.update_apply]

/-- The trapframes of `pr` hold the user registers of `p`. -/
def Shows (pr : Kernel.Proc) (p : Proc) : Prop :=
  frameUser pr.trapframe = p.user ∧
    pr.trapframeAlarm.map frameUser = p.trapframeAlarm.map Prod.snd

/-- `sigreturn` does to the registers what `Kernel.syscall` does to the trapframes. -/
theorem shows_sysSigreturn {pr pr' : Kernel.Proc} {p' : Proc} {answer : Answer}
    {choices : ℕ → Bool} {s s' : Shared} (h : Shows pr p)
    (hentry : calledEntry pr = some .sigreturn) (hcall : syscall pr answer = some pr')
    (hrun : (sysSigreturn p).run choices s = some (p', s')) : Shows pr' p' := by
  obtain ⟨huser, hsaved⟩ := h
  simp only [syscall, hentry, dispatchCall, Kernel.sysSigreturn] at hcall
  rw [sysSigreturn] at hrun
  cases hframe : p.trapframeAlarm with
  | none =>
    rw [hframe] at hrun hsaved
    cases hrun
    have hnone : pr.trapframeAlarm = none := by simpa using hsaved
    rw [hnone] at hcall
    cases hcall
    refine ⟨(frameUser_setReg _ _ _).trans (by rw [huser]; rfl), ?_⟩
    simp [hnone, Proc.ret, hframe]
  | some frame =>
    rw [hframe] at hrun hsaved
    obtain ⟨tf, htf, hshown⟩ : ∃ tf, pr.trapframeAlarm = some tf ∧ frameUser tf = frame.2 := by
      simpa using hsaved
    rw [htf] at hcall
    cases hcall
    obtain ⟨_, _, _, -, hpure⟩ := Prog.exists_of_run_bind hrun
    cases hpure
    exact ⟨(frameUser_setReg _ _ _).trans (by rw [hshown]; rfl), rfl⟩

end EnhancedXv6.Vm
