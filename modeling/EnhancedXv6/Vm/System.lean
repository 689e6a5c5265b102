import EnhancedXv6.Transition.System
import EnhancedXv6.Vm.Calls

/-!
# The system of all processes

The process table and the state that the processes share.  A process is at rest (a user program, a
zombie, an unused slot) or in a system call, whose program it runs step by step; the steps of several
processes interleave in any way.  `fork` and `wait` reserve the slot of the child.

`Sound` is the invariant of all runs: every process holds what it owns, and together they balance with
the shared state.  The alarm frames that `freeproc` forgets are collected in `lost`.
-/

namespace EnhancedXv6.Vm

open Radix Memory Resource Kernel Trap Transition

/-- A slot outside of system calls.  What `allocproc` and `freeproc` leave in an unused slot (`killed`,
the counters, the alarm, the times) is in `Kernel.Proc`. -/
inductive Rest
  | unused
  | user (p : Proc)
  | zombie (p : Proc)

/-- What a system call leaves: its process, the slot that it has reserved, and the pages that nobody
owns any more. -/
structure Result where
  self : Rest
  other : Rest := .unused
  lost : Held := 0

inductive State
  | rest (r : Rest)
  /-- `USED`: in the hands of the system call of another process -/
  | reserved (owner : Slot)
  /-- in a system call, which has reserved `other` -/
  | kernel (other : Option Slot) (x : Prog Shared Result)

structure World where
  shared : Shared
  slots : Slot → State
  /-- the pages of alarm frames of processes that have been freed -/
  lost : Held := 0

inductive Call
  /-- `allocproc` finds this slot, or none -/
  | fork (child : Option Slot)
  | exec (path : Option (List UInt8)) (namei : Option (Fin NINODE × List UInt8))
      (fetch : ℕ → Fetch)
  | sbrk (n : Int32)
  | exit (status : UInt32)
  /-- `wait(addr)` finds this zombie -/
  | wait (child : Slot) (addr : ℕ)
  | dup (fd : Fin NOFILE)
  | close (fd : Fin NOFILE)
  | pipe (fdarray : ℕ)
  | open (found : Option (Fin NINODE)) (rejected : Bool)
  | chdir (found : Option (Fin NINODE)) (rejected : Bool)
  | sigreturn
  /-- no system call, but a store of the user program -/
  | store (va : ℕ) (byte : UInt8)

def Call.other : Call → Option Slot
  | fork child => child
  | wait child _ => some child
  | _ => none

def initproc : Slot := 0

/-- The program of a call of `p`, where the reserved slot is `q`; `none` when the call cannot be made:
`fork` needs an unused slot, `wait` a zombie, and `initproc` must not exit. -/
def Call.program (trampoline : Page) (i : Slot) (p : Proc) (q : Rest) :
    Call → Option (Prog Shared Result)
  | fork none => some (pure ⟨.user (p.ret (-1)), .unused, 0⟩)
  | fork (some _) =>
    match q with
    | .unused => some do
        match ← Vm.fork trampoline p with
        | none => pure ⟨.user (p.ret (-1)), .unused, 0⟩
        | some np => pure ⟨.user (p.ret (.ofNat np.pid)), .user np, 0⟩
    | _ => none
  | exec path namei fetch => some do
      let (argc, p) ← sysExec trampoline p path namei fetch
      pure ⟨.user (p.ret (argc.elim (-1) .ofNat)), .unused, 0⟩
  | sbrk n => some (sysSbrk p n >>= fun p ↦ pure ⟨.user p, .unused, 0⟩)
  | exit status =>
    if i = initproc then none
    else some (Vm.exit p status >>= fun p ↦ pure ⟨.zombie p, .unused, 0⟩)
  | wait _ addr =>
    match q with
    | .zombie q => some do
        let (freed, p) ← reap p q addr
        if freed = true then pure ⟨.user p, .unused, alarmHeld q.trapframeAlarm⟩
        else pure ⟨.user p, .zombie q, 0⟩
    | _ => none
  | dup fd => some (sysDup p fd >>= fun p ↦ pure ⟨.user p, .unused, 0⟩)
  | close fd => some (sysClose p fd >>= fun p ↦ pure ⟨.user p, .unused, 0⟩)
  | pipe fdarray => some (sysPipe p fdarray >>= fun p ↦ pure ⟨.user p, .unused, 0⟩)
  | «open» found rejected =>
    some (sysOpen p found rejected >>= fun p ↦ pure ⟨.user p, .unused, 0⟩)
  | chdir found rejected =>
    some (sysChdir p found rejected >>= fun p ↦ pure ⟨.user p, .unused, 0⟩)
  | sigreturn => some (sysSigreturn p >>= fun p ↦ pure ⟨.user p, .unused, 0⟩)
  | store va byte =>
    some ((Vm.store p.pagetable va byte >>= fun _ ↦ pure p) >>= fun p ↦
      pure ⟨.user p, .unused, 0⟩)

inductive Event
  /-- a process enters the kernel -/
  | call (i : Slot) (c : Call)
  /-- a process in the kernel makes a step; a `kalloc` fails if `fails` -/
  | step (i : Slot) (fails : Bool)
  /-- a user program computes -/
  | run (i : Slot) (user : UserContext)
  /-- an alarm is delivered: `usertrap` saves the frame and enters the handler -/
  | alarm (i : Slot) (handler : UInt64)

namespace World

def set (w : World) (i : Slot) (state : State) : World :=
  { w with slots := Function.update w.slots i state }

def enter (trampoline : Page) (w : World) (i : Slot) (c : Call) : Option World :=
  match w.slots i with
  | .rest (.user p) =>
    match c.other with
    | none => (c.program trampoline i p .unused).map fun x ↦ w.set i (.kernel none x)
    | some j =>
      if j = i then none
      else
        match w.slots j with
        | .rest q => (c.program trampoline i p q).map fun x ↦
            (w.set j (.reserved i)).set i (.kernel (some j) x)
        | _ => none
  | _ => none

def finish (w : World) (i : Slot) (other : Option Slot) (r : Result) : World :=
  let w := { w with lost := w.lost + r.lost }
  let w := match other with
    | none => w
    | some j => w.set j (.rest r.other)
  w.set i (.rest r.self)

def advance (w : World) (i : Slot) (fails : Bool) : Option World :=
  match w.slots i with
  | .kernel other (.pure r) => some (w.finish i other r)
  | .kernel _ .panic => none
  | .kernel other (.step f k) =>
    some { w.set i (.kernel other (k fails w.shared)) with shared := f fails w.shared }
  | _ => none

/-- `usertrap` saves the frame in a new page; without one the kernel dies. -/
def deliver (w : World) (i : Slot) (handler : UInt64) : Option World :=
  match w.slots i with
  | .rest (.user p) =>
    match p.trapframeAlarm, w.shared.freelist with
    | none, pg :: freelist =>
      some { w.set i (.rest (.user
          { p with
            trapframeAlarm := some (pg, p.user)
            user := { p.user with pc := handler } })) with
        shared := { w.shared with freelist } }
    | _, _ => none
  | _ => none

def next (trampoline : Page) (w : World) : Event → Option World
  | .call i c => w.enter trampoline i c
  | .step i fails => w.advance i fails
  | .run i user =>
    match w.slots i with
    | .rest (.user p) => some (w.set i (.rest (.user { p with user })))
    | _ => none
  | .alarm i handler => w.deliver i handler

end World

/-! ## Boot -/

/-- `uvmfirst` and the rest of `userinit`, with the inode of `/` as current directory.  The source
does not check whether an allocation has failed; the result is then `none`. -/
def userinit (trampoline : Page) (initcode : List UInt8) (root : Fin NINODE) :
    Prog Shared (Option Proc) := do
  match ← allocproc trampoline with
  | none => pure none
  | some (pid, trapframe, pagetable) => do
    match ← kalloc with
    | none => pure none
    | some mem => do
      memset mem
      let (mapped, pagetable) ← mappages pagetable 0 PGSIZE mem
        { r := true, w := true, x := true, u := true }
      if mapped = false then pure none
      else do
        writePage mem 0 initcode
        idup root
        pure (some
          { pid, trapframe, pagetable
            xstate := 0
            sz := PGSIZE
            user := ⟨0, Function.update (fun _ ↦ 0) .sp (.ofNat PGSIZE)⟩
            trapframeAlarm := none
            ofile := fun _ ↦ none
            cwd := some root
            name := "initcode".toUTF8.toList
            guard := none })

/-- The shared state before `userinit`: all pages of `ram` are free and nothing is open. -/
structure Fresh0 (ram : Ram) (s : Shared) : Prop where
  kernelEnd : s.kernelEnd = ram.kernelEnd
  freelist : (s.freelist : Multiset Page) = ram.pages
  ftable : ∀ f, s.ftable f = {}
  pipes : s.pipes = []
  iref : ∀ ip, s.iref ip = 0

def Boots (trampoline : Page) (ram : Ram) (w : World) : Prop :=
  ∃ initcode root choices s p s', Fresh0 ram s ∧
    (userinit trampoline initcode root).run choices s = some (some p, s') ∧
    w = { shared := s', slots := Function.update (fun _ ↦ .rest .unused) initproc (.rest (.user p)) }

def system (trampoline : Page) (w₀ : World) : System World Event where
  start := w₀
  next := World.next trampoline

def Live (w : World) (i : Slot) (p : Proc) : Prop :=
  w.slots i = .rest (.user p) ∨ w.slots i = .rest (.zombie p)

/-! ## The invariant -/

variable {trampoline : Page} {ram : Ram}

def Rest.Holds (trampoline : Page) : Rest → Held → Prop
  | unused, h => h = 0
  | user p, h => Owns trampoline p h
  | zombie p, h => Owns trampoline p h ∧ p.ofile = (fun _ ↦ none) ∧ p.cwd = none

/-- The end of a system call. -/
def Result.Holds (trampoline : Page) (other : Option Slot) (r : Result) (h : Held) : Prop :=
  ∃ h₁ h₂, h = h₁ + h₂ + r.lost ∧ r.self.Holds trampoline h₁ ∧ r.other.Holds trampoline h₂ ∧
    (other = none → r.other = .unused)

def Slot.Holds (trampoline : Page) (ram : Ram) (slots : Slot → State) (i : Slot) : State → Held → Prop
  | .rest r, h => r.Holds trampoline h
  | .reserved owner, h => h = 0 ∧ ∃ x, slots owner = .kernel (some i) x
  | .kernel other x, h => x.wp (Balanced ram) (Result.Holds trampoline other) h ∧
      ∀ j, other = some j → slots j = .reserved i

structure SoundWith (trampoline : Page) (ram : Ram) (w : World) (held : Slot → Held) : Prop where
  balanced : Balanced ram w.shared (∑ i, held i + w.lost)
  slots : ∀ i, Slot.Holds trampoline ram w.slots i (w.slots i) (held i)

def Sound (trampoline : Page) (ram : Ram) (w : World) : Prop := ∃ held, SoundWith trampoline ram w held

/-- A step to `w'` keeps the invariant, and a process at rest holds what it has held. -/
def SoundStep (trampoline : Page) (ram : Ram) (w : World) (held : Slot → Held) (w' : World) : Prop :=
  ∃ held', SoundWith trampoline ram w' held' ∧ ∀ k q, Live w k q → Live w' k q → held' k = held k

/-! ### Calls -/

theorem Result.holds_of_owns {p : Proc} {h : Held} {other : Option Slot}
    (howns : Owns trampoline p h) :
    Result.Holds trampoline other ⟨.user p, .unused, 0⟩ h :=
  ⟨h, 0, by simp, howns, rfl, fun _ ↦ rfl⟩

/-- A program that ends with its process. -/
theorem wp_self {x : Prog Shared Proc} {h : Held} {other : Option Slot}
    (hx : x.wp (Balanced ram) (fun p h ↦ Owns trampoline p h) h) :
    Prog.wp (Balanced ram) (x >>= fun p ↦ pure ⟨.user p, .unused, 0⟩)
      (Result.Holds trampoline other) h := by
  apply Prog.wp_bind
  apply Prog.wp_mono hx
  intro p h' howns
  exact Prog.wp_pure (Result.holds_of_owns howns)

/-- The program of a call keeps to what its process and the reserved slot hold. -/
theorem wp_program (ram : Ram) {c : Call} {i : Slot} {p : Proc} {q : Rest} {x : Prog Shared Result}
    {h h' : Held}
    (hx : c.program trampoline i p q = some x) (howns : Owns trampoline p h)
    (hq : q.Holds trampoline h') (hother : c.other = none → q = .unused) :
    x.wp (Balanced ram) (Result.Holds trampoline c.other) (h + h') := by
  obtain ⟨ups, himage, rfl⟩ := howns
  have hzero : q = .unused → p.holds ups + h' = p.holds ups := by
    rintro rfl
    rw [show h' = 0 from hq, Multiset.add_zero]
  cases c with
  | fork child =>
    cases child with
    | none =>
      obtain rfl := Option.some.inj hx
      rw [hzero (hother rfl)]
      exact Prog.wp_pure (Result.holds_of_owns (himage.ret _))
    | some j =>
      cases q with
      | user | zombie => cases hx
      | unused =>
        obtain rfl := Option.some.inj hx
        rw [hzero rfl]
        apply Prog.wp_bind
        apply wp_fork himage
        · exact Prog.wp_pure (Result.holds_of_owns (himage.ret _))
        · intro pid trapframe pagetable cs hcopy himage'
          apply Prog.wp_pure
          exact ⟨_, _, (Multiset.add_zero _).symm, himage.ret _, himage'.owns, nofun⟩
  | exec path namei fetch =>
    obtain rfl := Option.some.inj hx
    rw [hzero (hother rfl)]
    apply Prog.wp_bind
    apply wp_sysExec himage
    · exact Prog.wp_pure (Result.holds_of_owns (himage.ret _))
    · intro name ip file argv t sz sp ups' _ _ _ p' himage' _
      exact Prog.wp_pure (Result.holds_of_owns (himage'.ret _))
  | sbrk n =>
    obtain rfl := Option.some.inj hx
    rw [hzero (hother rfl)]
    exact wp_self (wp_sysSbrk (fun _ _ ↦ id) himage)
  | exit status =>
    rw [Call.program] at hx
    split at hx
    · cases hx
    · obtain rfl := Option.some.inj hx
      rw [hzero (hother rfl)]
      apply Prog.wp_bind
      apply wp_exit himage
      intro p' himage' hfiles hcwd
      apply Prog.wp_pure
      exact ⟨_, 0, by simp, ⟨himage'.owns, hfiles, hcwd⟩, rfl, fun _ ↦ rfl⟩
  | wait j addr =>
    cases q with
    | unused | user => cases hx
    | zombie q =>
      obtain rfl := Option.some.inj hx
      obtain ⟨⟨ups', himage', rfl⟩, hfiles, hcwd⟩ := hq
      apply Prog.wp_bind
      apply wp_reap himage himage' hfiles hcwd
      · intro p' h' howns
        apply Prog.wp_pure
        exact ⟨_, _, (Multiset.add_zero _).symm, howns, ⟨himage'.owns, hfiles, hcwd⟩, nofun⟩
      · intro p' h' howns
        apply Prog.wp_pure
        exact ⟨_, 0, by simp, howns, rfl, nofun⟩
  | dup fd =>
    obtain rfl := Option.some.inj hx
    rw [hzero (hother rfl)]
    exact wp_self (wp_sysDup (fun _ _ ↦ id) himage)
  | close fd =>
    obtain rfl := Option.some.inj hx
    rw [hzero (hother rfl)]
    exact wp_self (wp_sysClose (fun _ _ ↦ id) himage)
  | pipe fdarray =>
    obtain rfl := Option.some.inj hx
    rw [hzero (hother rfl)]
    exact wp_self (wp_sysPipe (fun _ _ ↦ id) himage)
  | «open» found rejected =>
    obtain rfl := Option.some.inj hx
    rw [hzero (hother rfl)]
    exact wp_self (wp_sysOpen (fun _ _ ↦ id) himage)
  | chdir found rejected =>
    obtain rfl := Option.some.inj hx
    rw [hzero (hother rfl)]
    exact wp_self (wp_sysChdir (fun _ _ ↦ id) himage)
  | sigreturn =>
    obtain rfl := Option.some.inj hx
    rw [hzero (hother rfl)]
    exact wp_self (wp_sysSigreturn (fun _ _ ↦ id) himage)
  | store va byte =>
    obtain rfl := Option.some.inj hx
    rw [hzero (hother rfl)]
    exact wp_self (wp_sysStore (fun _ _ ↦ id) himage)

/-! ### Steps -/

section Steps

variable {slots slots' : Slot → State} {i k : Slot} {st : State} {h : Held}

/-- What a slot holds depends on the slots it is connected with only. -/
theorem Slot.Holds.congr (hholds : Slot.Holds trampoline ram slots k st h)
    (howner : ∀ owner x, st = .reserved owner → slots owner = .kernel (some k) x →
      ∃ x', slots' owner = .kernel (some k) x')
    (hreserved : ∀ j x, st = .kernel (some j) x → slots j = .reserved k →
      slots' j = .reserved k) :
    Slot.Holds trampoline ram slots' k st h := by
  cases st with
  | rest r => exact hholds
  | reserved owner =>
    obtain ⟨hh, x, hx⟩ := hholds
    exact ⟨hh, howner owner x rfl hx⟩
  | kernel other x =>
    obtain ⟨hx, hslots⟩ := hholds
    refine ⟨hx, fun j hj ↦ ?_⟩
    subst hj
    exact hreserved j x rfl (hslots j rfl)

/-- A slot at rest is connected with no other. -/
theorem Slot.Holds.update_rest {r : Rest} (st' : State)
    (hholds : Slot.Holds trampoline ram slots k st h) (hi : slots i = .rest r) :
    Slot.Holds trampoline ram (Function.update slots i st') k st h := by
  refine hholds.congr (fun owner x _ hx ↦ ⟨x, ?_⟩) fun j x _ hj ↦ ?_
  · have hne : owner ≠ i := by
      rintro rfl
      rw [hi] at hx
      cases hx
    rwa [Function.update_of_ne hne]
  · have hne : j ≠ i := by
      rintro rfl
      rw [hi] at hj
      cases hj
    rwa [Function.update_of_ne hne]

theorem Slot.Holds.update_kernel {other : Option Slot} {x : Prog Shared Result}
    (x' : Prog Shared Result) (hholds : Slot.Holds trampoline ram slots k st h)
    (hi : slots i = .kernel other x) :
    Slot.Holds trampoline ram (Function.update slots i (.kernel other x')) k st h := by
  refine hholds.congr (fun owner y _ hy ↦ ?_) fun j y _ hj ↦ ?_
  · by_cases hne : owner = i
    · subst hne
      rw [hi] at hy
      obtain ⟨rfl, -⟩ : other = some k ∧ x = y := by simpa using hy
      exact ⟨x', Function.update_self ..⟩
    · exact ⟨y, by rwa [Function.update_of_ne hne]⟩
  · have hne : j ≠ i := by
      rintro rfl
      rw [hi] at hj
      cases hj
    rwa [Function.update_of_ne hne]

end Steps

theorem not_live_kernel {w : World} {i : Slot} {other : Option Slot} {x : Prog Shared Result}
    {q : Proc} (hi : w.slots i = .kernel other x) : ¬Live w i q := by
  simp [Live, hi]

namespace SoundWith

variable {w w' : World} {held : Slot → Held} {i j : Slot}

theorem set_rest {r : Rest} {st : State} {s : Shared} {h : Held}
    (hsound : SoundWith trampoline ram w held) (hi : w.slots i = .rest r)
    (hbalanced : Balanced ram s (h + others held i + w.lost))
    (hst : Slot.Holds trampoline ram (Function.update w.slots i st) i st h) :
    SoundWith trampoline ram { w.set i st with shared := s } (Function.update held i h) := by
  refine ⟨?_, fun k ↦ ?_⟩
  · rw [sum_held_update]
    exact hbalanced
  · by_cases hk : k = i
    · subst hk
      simpa [World.set] using hst
    · have hother := (hsound.slots k).update_rest st hi
      simpa [World.set, hk] using hother

theorem soundStep_update {h : Held} (hsound : SoundWith trampoline ram w' (Function.update held i h))
    (hi : ∀ q, Live w i q → Live w' i q → h = held i) : SoundStep trampoline ram w held w' := by
  refine ⟨_, hsound, fun k q hq hq' ↦ ?_⟩
  by_cases hk : k = i
  · subst hk
    rw [Function.update_self, hi q hq hq']
  · rw [Function.update_of_ne hk]

theorem balanced_at (hsound : SoundWith trampoline ram w held) (i : Slot) :
    Balanced ram w.shared (held i + (others held i + w.lost)) := by
  rw [← Multiset.add_assoc, ← sum_held]
  exact hsound.balanced

theorem enter {c : Call} (hsound : SoundWith trampoline ram w held)
    (hnext : w.enter trampoline i c = some w') : SoundStep trampoline ram w held w' := by
  rw [World.enter] at hnext
  cases hi : w.slots i with
  | reserved | kernel => simp [hi] at hnext
  | rest r =>
    cases r with
    | unused | zombie => simp [hi] at hnext
    | user p =>
      have howns : Owns trampoline p (held i) := by
        have hholds := hsound.slots i
        rw [hi] at hholds
        exact hholds
      simp only [hi] at hnext
      cases hother : c.other with
      | none =>
        simp only [hother, Option.map_eq_some_iff] at hnext
        obtain ⟨x, hx, rfl⟩ := hnext
        have hwp := wp_program ram hx howns (show Rest.unused.Holds trampoline 0 from rfl)
          fun _ ↦ rfl
        rw [hother, Multiset.add_zero] at hwp
        refine soundStep_update (hsound.set_rest (s := w.shared) (h := held i) hi ?_ ⟨hwp, nofun⟩)
          fun _ _ _ ↦ rfl
        rw [← sum_held]
        exact hsound.balanced
      | some j =>
        simp only [hother] at hnext
        by_cases hji : j = i
        · simp [hji] at hnext
        cases hj : w.slots j with
        | reserved | kernel => simp [hji, hj] at hnext
        | rest q =>
          simp only [if_neg hji, hj, Option.map_eq_some_iff] at hnext
          obtain ⟨x, hx, rfl⟩ := hnext
          have hq : q.Holds trampoline (held j) := by
            have hholds := hsound.slots j
            rw [hj] at hholds
            exact hholds
          have hwp := wp_program ram hx howns hq (by simp [hother])
          rw [hother] at hwp
          obtain ⟨rest, hsum, hsum'⟩ := sum_held_pair held (Ne.symm hji)
          refine ⟨Function.update (Function.update held j 0) i (held i + held j), ⟨?_, ?_⟩, ?_⟩
          · rw [hsum', Multiset.add_zero, ← hsum]
            exact hsound.balanced
          · intro k
            simp only [World.set]
            by_cases hki : k = i
            · subst hki
              simp only [Function.update_self]
              refine ⟨hwp, fun j' hj' ↦ ?_⟩
              obtain rfl := Option.some.inj hj'
              simp [hji]
            · by_cases hkj : k = j
              · subst hkj
                simp only [Function.update_of_ne hki, Function.update_self]
                exact ⟨rfl, x, by simp⟩
              · simp only [Function.update_of_ne hki, Function.update_of_ne hkj]
                have hrest := (hsound.slots k).update_rest (.reserved i) hj
                have hi' : Function.update w.slots j (.reserved i) i =
                    .rest (.user p) := by
                  rwa [Function.update_of_ne (Ne.symm hji)]
                exact hrest.update_rest _ hi'
          · intro k q _ hk
            have hki : k ≠ i := by
              rintro rfl
              simp [Live, World.set] at hk
            have hkj : k ≠ j := by
              rintro rfl
              simp [Live, World.set, hji] at hk
            rw [Function.update_of_ne hki, Function.update_of_ne hkj]

/-- A system call that has reserved no slot returns. -/
theorem finish_none {r : Result} {h₁ : Held} (hsound : SoundWith trampoline ram w held)
    (hi : w.slots i = .kernel none (.pure r)) (hheld : held i = h₁ + r.lost)
    (hself : r.self.Holds trampoline h₁) : SoundStep trampoline ram w held (w.finish i none r) := by
  refine soundStep_update (h := h₁) ⟨?_, fun l ↦ ?_⟩ fun q hq _ ↦
    absurd hq (not_live_kernel hi)
  · have hsum : ∑ l, Function.update held i h₁ l + (w.lost + r.lost) =
        held i + (others held i + w.lost) := by
      rw [sum_held_update, hheld]
      ac_rfl
    simp only [World.finish, World.set]
    rw [hsum]
    exact hsound.balanced_at i
  · simp only [World.finish, World.set]
    by_cases hl : l = i
    · subst hl
      simp only [Function.update_self]
      exact hself
    · simp only [Function.update_of_ne hl]
      refine (hsound.slots l).congr (fun owner y _ hy ↦ ⟨y, ?_⟩) fun j y _ hj ↦ ?_
      · have hne : owner ≠ i := by
          rintro rfl
          simp [hi] at hy
        rwa [Function.update_of_ne hne]
      · have hne : j ≠ i := by
          rintro rfl
          simp [hi] at hj
        rwa [Function.update_of_ne hne]

/-- A system call returns, and gives back the slot that it has reserved. -/
theorem finish_some {r : Result} {h₁ h₂ : Held} (hsound : SoundWith trampoline ram w held)
    (hi : w.slots i = .kernel (some j) (.pure r)) (hj : w.slots j = .reserved i)
    (hheld : held i = h₁ + h₂ + r.lost) (hself : r.self.Holds trampoline h₁)
    (hother : r.other.Holds trampoline h₂) :
    SoundStep trampoline ram w held (w.finish i (some j) r) := by
  have hij : i ≠ j := by
    rintro rfl
    simp [hi] at hj
  have hzero : held j = 0 := by
    have hholds := hsound.slots j
    rw [hj] at hholds
    exact hholds.1
  obtain ⟨rest, hsum, hsum'⟩ := sum_held_pair held hij
  refine ⟨Function.update (Function.update held j h₂) i h₁, ⟨?_, fun l ↦ ?_⟩, fun k q hq _ ↦ ?_⟩
  · have hall : h₁ + h₂ + rest + (w.lost + r.lost) = ∑ l, held l + w.lost := by
      rw [hsum, hheld, hzero, Multiset.add_zero]
      ac_rfl
    simp only [World.finish, World.set]
    rw [hsum', hall]
    exact hsound.balanced
  · simp only [World.finish, World.set]
    by_cases hl : l = i
    · subst hl
      simp only [Function.update_self]
      exact hself
    · by_cases hlj : l = j
      · subst hlj
        simp only [Function.update_of_ne hl, Function.update_self]
        exact hother
      · simp only [Function.update_of_ne hl, Function.update_of_ne hlj]
        -- the slots `i` and `j` were connected with each other only
        refine (hsound.slots l).congr (fun owner y _ hy ↦ ⟨y, ?_⟩) fun l' y _ hl' ↦ ?_
        · have hne : owner ≠ i := by
            rintro rfl
            rw [hi] at hy
            obtain ⟨rfl, -⟩ : j = l ∧ _ := by simpa using hy
            exact hlj rfl
          have hne' : owner ≠ j := by
            rintro rfl
            simp [hj] at hy
          rwa [Function.update_of_ne hne, Function.update_of_ne hne']
        · have hne : l' ≠ i := by
            rintro rfl
            simp [hi] at hl'
          have hne' : l' ≠ j := by
            rintro rfl
            rw [hj] at hl'
            exact hl (State.reserved.inj hl').symm
          rwa [Function.update_of_ne hne, Function.update_of_ne hne']
  · have hki : k ≠ i := by
      rintro rfl
      exact not_live_kernel hi hq
    have hkj : k ≠ j := by
      rintro rfl
      simp [Live, hj] at hq
    rw [Function.update_of_ne hki, Function.update_of_ne hkj]

theorem advance {fails : Bool} (hsound : SoundWith trampoline ram w held)
    (hnext : w.advance i fails = some w') : SoundStep trampoline ram w held w' := by
  rw [World.advance] at hnext
  have hholds := hsound.slots i
  have hbalanced := hsound.balanced_at i
  cases hi : w.slots i with
  | rest | reserved => simp [hi] at hnext
  | kernel other x =>
    rw [hi] at hholds
    obtain ⟨hwp, hreserved⟩ := hholds
    cases x with
    | panic => simp [hi] at hnext
    | step f k =>
      simp only [hi, Option.some.injEq] at hnext
      subst hnext
      obtain ⟨h', hbalanced', hwp'⟩ := hwp fails w.shared _ hbalanced
      refine soundStep_update (h := h') ⟨?_, fun l ↦ ?_⟩ fun q hq _ ↦
        absurd hq (not_live_kernel hi)
      · rw [sum_held_update, Multiset.add_assoc]
        exact hbalanced'
      · have hother := (hsound.slots l).update_kernel (k fails w.shared) hi
        by_cases hl : l = i
        · subst hl
          simp only [World.set, Function.update_self]
          refine ⟨hwp', fun j hj ↦ ?_⟩
          have hne : j ≠ l := by
            rintro rfl
            have hself := hreserved j hj
            rw [hi] at hself
            cases hself
          rw [Function.update_of_ne hne]
          exact hreserved j hj
        · simpa [World.set, hl] using hother
    | pure r =>
      simp only [hi, Option.some.injEq] at hnext
      subst hnext
      obtain ⟨h₁, h₂, hheld, hself, hother, hnone⟩ := hwp ⟨_, _, hbalanced⟩
      cases other with
      | none =>
        rw [hnone rfl] at hother
        rw [show h₂ = 0 from hother, Multiset.add_zero] at hheld
        exact hsound.finish_none hi hheld hself
      | some j => exact hsound.finish_some hi (hreserved j rfl) hheld hself hother

/-- A page of the free list becomes the alarm frame. -/
theorem deliver {handler : UInt64} (hsound : SoundWith trampoline ram w held)
    (hnext : w.deliver i handler = some w') : SoundStep trampoline ram w held w' := by
  rw [World.deliver] at hnext
  cases hi : w.slots i with
  | reserved | kernel => simp [hi] at hnext
  | rest r =>
    cases r with
    | unused | zombie => simp [hi] at hnext
    | user p =>
      have howns : Owns trampoline p (held i) := by
        have hholds := hsound.slots i
        rw [hi] at hholds
        exact hholds
      obtain ⟨ups, himage, hheld⟩ := howns
      have hbalanced := hsound.balanced_at i
      cases hframe : p.trapframeAlarm with
      | some frame => simp [hi, hframe] at hnext
      | none =>
        cases hfree : w.shared.freelist with
        | nil => simp [hi, hframe, hfree] at hnext
        | cons pg freelist =>
          simp only [hi, hframe, hfree, Option.some.injEq] at hnext
          subst hnext
          set p' : Proc :=
            { p with
              trapframeAlarm := some (pg, p.user)
              user := { p.user with pc := handler } } with hp'
          have himage' : Image trampoline p' ups := { himage with }
          have hholds : p'.holds ups = held i + {.page pg} := by
            simp only [hheld, Proc.holds, Proc.keeps, hp', hframe, alarmHeld,
              Option.elim_some, Option.elim_none, Multiset.add_zero]
            ac_rfl
          refine soundStep_update (hsound.set_rest hi ?_ himage'.owns) fun q hq hq' ↦ ?_
          · rw [Multiset.add_assoc, hholds]
            refine hbalanced.move (fun t ht ↦ ?_) (fun pg' bytes hmem ↦ ?_) ?_
            · rw [Multiset.count_add, count_page ht, Nat.add_zero]
            · simpa using hmem
            · rw [hfree, pagesOf_add, pagesOf_singleton, pages_page, ← Multiset.cons_coe,
                ← Multiset.singleton_add]
              ac_rfl
          · -- the process has changed
            obtain rfl : p = q := by simpa [Live, hi] using hq
            obtain heq : p' = p := by simpa [Live, World.set] using hq'
            have hframe' := congrArg Proc.trapframeAlarm heq
            rw [hframe] at hframe'
            cases hframe'

theorem next {e : Event} (hsound : SoundWith trampoline ram w held)
    (hnext : w.next trampoline e = some w') : SoundStep trampoline ram w held w' := by
  cases e with
  | call i c => exact hsound.enter hnext
  | step i fails => exact hsound.advance hnext
  | alarm i handler => exact hsound.deliver hnext
  | run i user =>
    rw [World.next] at hnext
    cases hi : w.slots i with
    | reserved | kernel => simp [hi] at hnext
    | rest r =>
      cases r with
      | unused | zombie => simp [hi] at hnext
      | user p =>
        simp only [hi, Option.some.injEq] at hnext
        subst hnext
        have hholds := hsound.slots i
        rw [hi] at hholds
        obtain ⟨ups, himage, hheld⟩ := hholds
        refine soundStep_update (hsound.set_rest (s := w.shared) (h := held i) hi ?_ ?_)
          fun _ _ _ ↦ rfl
        · rw [← sum_held]
          exact hsound.balanced
        · exact ⟨ups, { himage with }, hheld⟩

end SoundWith

theorem Sound.next {w w' : World} {e : Event} (hsound : Sound trampoline ram w)
    (hnext : w.next trampoline e = some w') : Sound trampoline ram w' := by
  obtain ⟨held, hsound⟩ := hsound
  obtain ⟨held', hsound', -⟩ := hsound.next hnext
  exact ⟨held', hsound'⟩

/-! ### Boot -/

theorem Fresh0.balanced {s : Shared} (hs : Fresh0 ram s) : Balanced ram s 0 := by
  refine ⟨hs.kernelEnd, ?_, fun _ _ hmem ↦ absurd hmem (Multiset.notMem_zero _), fun t ht ↦ ?_,
    fun f ↦ ?_⟩
  · rw [hs.pipes, ← hs.freelist]
    simp
  · cases t with
    | page | data => cases ht
    | _ => simp [hs.ftable, hs.pipes, hs.iref, File.holds, File.issues, Shared.issues]
  · rw [hs.ftable f]
    exact ⟨fun _ ↦ rfl, fun _ ↦ Nat.zero_le 1⟩

theorem wp_userinit {initcode : List UInt8} {root : Fin NINODE} {Q : Option Proc → Held → Prop}
    (hfail : ∀ h, Q none h) (hok : ∀ p h, Owns trampoline p h → Q (some p) h) :
    (userinit trampoline initcode root).wp (Balanced ram) Q 0 := by
  rw [userinit]
  apply Prog.wp_bind
  apply wp_allocproc
  · exact Prog.wp_pure (hfail 0)
  intro pid trapframe pagetable hm
  apply Prog.wp_bind
  apply wp_kalloc
  · exact Prog.wp_pure (hfail _)
  intro mem
  apply Prog.wp_bind
  apply wp_memset .page rfl
  apply Prog.wp_bind
  rw [Multiset.add_assoc, ← Nat.zero_mul PGSIZE]
  apply wp_mappages hm (by decide) (layout_eq_none (by decide))
  · intro t _
    exact Prog.wp_pure (hfail _)
  · intro t hm
    set u : UPage := ⟨mem, { r := true, w := true, x := true, u := true }, zeros⟩ with hu
    have hm' : Maps t (overlay (layout trampoline trapframe) 0 [u]) := by
      rw [overlay_cons, overlay_nil]
      exact hm
    have hheld : ∀ ups, dataOf ups + (res t + {.page trapframe}) =
        res t + dataOf ups + {.page trapframe} := by
      intro ups
      ac_rfl
    have hstart : res t + ({.page trapframe} + 0 + {.data mem zeros}) =
        dataOf [u] + (res t + {.page trapframe}) := by
      rw [dataOf_cons, dataOf_nil, Multiset.add_zero, Multiset.zero_add,
        show u.tok = .data mem zeros from rfl]
      ac_rfl
    simp only [Bool.true_eq_false, if_false]
    rw [hstart]
    apply Prog.wp_bind
    apply wp_writePage (u := u) (k := 0) rfl
    intro ups hsame
    apply Prog.wp_bind
    apply wp_idup
    apply Prog.wp_pure
    apply hok
    refine ⟨ups, Image.of_samePtes ⟨?_, hm', ?_, ?_, nofun⟩ hsame, ?_⟩
    · exact (pageCount_page 1).symm
    · simp [hu]
    · intro k u' hu'
      rw [List.getElem?_singleton] at hu'
      split at hu'
      · obtain rfl := Option.some.inj hu'
        simp [hu]
      · cases hu'
    · simp only [Proc.holds, Proc.keeps, alarmHeld, filesOf_none, cwdHeld, Option.elim_none,
        Option.elim_some, Multiset.add_zero]
      rw [hheld, Multiset.add_assoc]

theorem Boots.sound {w : World} (hboots : Boots trampoline ram w) : Sound trampoline ram w := by
  obtain ⟨initcode, root, choices, s, p, s', hfresh, hrun, rfl⟩ := hboots
  have hstart : Balanced ram s (0 + 0) := hfresh.balanced
  obtain ⟨r, s'', h, hrun', hbalanced, howns⟩ := Prog.wp_run choices
    (wp_userinit (Q := fun r h ↦ ∀ p, r = some p → Owns trampoline p h) nofun
      (fun p h howns p' hp' ↦ Option.some.inj hp' ▸ howns)) hstart
  rw [hrun] at hrun'
  obtain ⟨rfl, rfl⟩ : some p = r ∧ s' = s'' := by simpa using hrun'
  refine ⟨Function.update (fun _ ↦ 0) initproc h, ?_, fun k ↦ ?_⟩
  · rw [sum_held_update, others, Finset.sum_const_zero, Multiset.add_zero]
    exact hbalanced
  · by_cases hk : k = initproc
    · subst hk
      simp only [Function.update_self]
      exact howns p rfl
    · simp only [Function.update_of_ne hk]
      exact rfl

theorem reachable_sound {w₀ w : World} {good : World → Event → Prop}
    (hboots : Boots trampoline ram w₀) (hw : (system trampoline w₀).Reachable good w) :
    Sound trampoline ram w :=
  hw.invariant (Sound trampoline ram) hboots.sound fun _ _ _ hsound _ hnext ↦ hsound.next hnext

end EnhancedXv6.Vm
