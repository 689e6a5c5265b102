import EnhancedXv6.Kernel.System
import EnhancedXv6.Vm.Addresses
import EnhancedXv6.Vm.Frame

/-!
# Isolation of processes

The memory of a process is what its user pages hold.  A step of one process leaves the memory of all
others alone.  From this and from what `fork` and `exec` own follows what they do to the whole system:
`fork` copies the memory of its process or changes nothing, `exec` replaces the image of its process or
changes nothing.
-/

namespace EnhancedXv6.Vm

open Radix Memory Resource Kernel Trap Transition

/-- The user pages of [0, PGROUNDUP(p->sz)) with their permissions and contents. -/
@[irreducible] def Proc.memory (p : Proc) (s : Shared) : List (Option (Perm × Bytes)) :=
  (List.range (pageCount p.sz)).map fun k ↦
    (p.pagetable.get (k * PGSIZE)).map fun pte ↦ (pte.perm, s.mem pte.pa)

/-- The system call `c` of slot `i` while no other process runs. -/
def World.syscall (trampoline : Page) (w : World) (i : Slot) (c : Call) (choices : ℕ → Bool) :
    Option World :=
  (w.enter trampoline i c).bind fun w ↦
    match w.slots i with
    | .kernel other x =>
      (x.run choices w.shared).map fun (r, s) ↦ { w with shared := s }.finish i other r
    | _ => none

/-- In all runs from `w`, no step changes the memory of a process at rest. -/
def Isolating (trampoline : Page) (w : World) : Prop :=
  ∀ w₁, (system trampoline w).Reachable (fun _ _ ↦ True) w₁ →
    ∀ e w₂, w₁.next trampoline e = some w₂ →
      ∀ k q, Live w₁ k q → Live w₂ k q → q.memory w₂.shared = q.memory w₁.shared

variable {trampoline : Page} {ram : Ram} {p q : Proc} {ups : List UPage} {w w' : World}
  {held : Slot → Held} {i j k : Slot} {h r r' : Held} {s s' : Shared}

/-! ## Memory -/

theorem Image.memory_eq (himage : Image trampoline p ups)
    (hs : Balanced ram s (p.holds ups + r)) : p.memory s = ups.map fun u ↦ some u.contents := by
  have hroom := Proc.room ⟨s, r, hs⟩
  have hcontents : ∀ u ∈ ups, s.mem u.pa = u.bytes := by
    intro u hu
    apply hs.contents
    have hmem : u.tok ∈ dataOf ups := Multiset.mem_coe.mpr (List.mem_map_of_mem hu)
    rw [Proc.holds]
    simp only [Multiset.mem_add]
    exact .inl (.inl (.inr hmem))
  have hmax : RAMPAGES < PAGES := by decide
  unfold Proc.memory
  apply List.ext_getElem
  · simp [himage.size]
  · intro k hk hk'
    have hlt : k < ups.length := by simpa using hk'
    rw [List.getElem_map, List.getElem_range, himage.get_eq (by omega),
      List.getElem?_eq_getElem hlt, List.getElem_map]
    simp only [Option.elim_some, Option.map_some, UPage.pte, UPage.contents,
      hcontents _ (List.getElem_mem hlt)]

/-- The memory of a process depends on what it holds. -/
theorem Owns.memory_eq (howns : Owns trampoline p h) (hs : Balanced ram s (h + r))
    (hs' : Balanced ram s' (h + r')) : p.memory s' = p.memory s := by
  obtain ⟨ups, himage, rfl⟩ := howns
  rw [himage.memory_eq hs, himage.memory_eq hs']

/-- A step leaves the memory of the processes at rest alone. -/
theorem SoundWith.memory_eq (hsound : SoundWith trampoline ram w held)
    (hstep : SoundStep trampoline ram w held w') (hq : Live w k q) (hq' : Live w' k q) :
    q.memory w'.shared = q.memory w.shared := by
  obtain ⟨held', hsound', hheld⟩ := hstep
  have hbalanced := hsound'.balanced_at k
  rw [hheld k q hq hq'] at hbalanced
  exact (hq.owns hsound).memory_eq (hsound.balanced_at k) hbalanced

theorem Sound.isolating (hsound : Sound trampoline ram w) : Isolating trampoline w := by
  intro w₁ hw₁ e w₂ hnext k q hq hq'
  obtain ⟨held, hsound₁⟩ : Sound trampoline ram w₁ :=
    hw₁.invariant (Sound trampoline ram) hsound fun _ _ _ hsound _ hnext ↦ hsound.next hnext
  exact hsound₁.memory_eq (hsound₁.next hnext) hq hq'

/-! ## System calls without interruption -/

theorem World.finish_set (w : World) (i : Slot) (st : State) (other : Option Slot) (res : Result) :
    (w.set i st).finish i other res = w.finish i other res := by
  cases other with
  | none => simp [World.finish, World.set]
  | some j =>
    by_cases hij : i = j
    · subst hij
      simp [World.finish, World.set]
    · simp [World.finish, World.set, Function.update_comm hij]

/-- The steps of a program that is not interrupted are steps of the system. -/
theorem reachable_of_run {w₀ : World} {good : World → Event → Prop} {other : Option Slot}
    {x : Prog Shared Result} {choices : ℕ → Bool} {res : Result}
    (hgood : ∀ w e, good w e) (hw : (system trampoline w₀).Reachable good w)
    (hi : w.slots i = .kernel other x) (hrun : x.run choices w.shared = some (res, s)) :
    (system trampoline w₀).Reachable good ({ w with shared := s }.finish i other res) := by
  induction x generalizing w choices with
  | panic => cases hrun
  | pure res' =>
    obtain ⟨rfl, rfl⟩ : res' = res ∧ w.shared = s := by simpa [Prog.run] using hrun
    refine hw.step (e := .step i false) (hgood ..) ?_
    simp [system, World.next, World.advance, hi]
  | step f x ih =>
    have hnext : (system trampoline w₀).next w (.step i (choices 0)) =
        some { w.set i (.kernel other (x (choices 0) w.shared)) with
          shared := f (choices 0) w.shared } := by
      simp [system, World.next, World.advance, hi]
    have hend := ih (choices 0) w.shared (hw.step (hgood ..) hnext) (Function.update_self ..) hrun
    have hfinish := World.finish_set { w with shared := s } i
      (.kernel other (x (choices 0) w.shared)) other res
    rw [← hfinish]
    exact hend

theorem reachable_syscall {w₀ : World} {c : Call} {choices : ℕ → Bool}
    (hw : (system trampoline w₀).Reachable (fun _ _ ↦ True) w)
    (hcall : w.syscall trampoline i c choices = some w') :
    (system trampoline w₀).Reachable (fun _ _ ↦ True) w' := by
  obtain ⟨w₁, henter, hcall⟩ := Option.bind_eq_some_iff.mp hcall
  have hnext : (system trampoline w₀).next w (.call i c) = some w₁ := henter
  have hw₁ := hw.step trivial hnext
  cases hi : w₁.slots i with
  | rest | reserved => simp [hi] at hcall
  | kernel other x =>
    simp only [hi, Option.map_eq_some_iff] at hcall
    obtain ⟨⟨res, s⟩, hrun, rfl⟩ := hcall
    exact reachable_of_run (fun _ _ ↦ trivial) hw₁ hi hrun

section Syscall

variable {c : Call} {x : Prog Shared Result} {choices : ℕ → Bool} {res : Result}

/-- A system call that reserves no slot. -/
theorem syscall_of_run (hi : w.slots i = .rest (.user p)) (hother : c.other = none)
    (hx : c.program trampoline i p .unused = some x)
    (hrun : x.run choices w.shared = some (res, s)) :
    w.syscall trampoline i c choices =
      some ({ w with shared := s, lost := w.lost + res.lost }.set i (.rest res.self)) := by
  simp [World.syscall, World.enter, World.finish, World.set, hi, hother, hx, hrun]

/-- A system call that has reserved a slot. -/
theorem syscall_of_run_pair {rest : Rest} (hi : w.slots i = .rest (.user p))
    (hj : w.slots j = .rest rest) (hji : j ≠ i) (hother : c.other = some j)
    (hx : c.program trampoline i p rest = some x)
    (hrun : x.run choices w.shared = some (res, s)) :
    w.syscall trampoline i c choices =
      some (({ w with shared := s, lost := w.lost + res.lost }.set j (.rest res.other)).set i
        (.rest res.self)) := by
  have hmid := Function.update_comm (Ne.symm hji) (.kernel (some j) x) (.rest res.other)
    (Function.update w.slots j (.reserved i))
  simp [World.syscall, World.enter, World.finish, World.set, hi, hj, hji, hother, hx, hrun, hmid]

end Syscall

/-! ## fork -/

theorem fork_run (himage : Image trampoline p ups) (hs : Balanced ram s (p.holds ups + r))
    (choices : ℕ → Bool) :
    ∃ child s', (fork trampoline p).run choices s = some (child, s') ∧
      (child = none → Balanced ram s' (p.holds ups + r) ∧ refState s' = refState s) ∧
      ∀ np, child = some np → ∃ cs, CopyOf cs ups ∧ Image trampoline np cs ∧
        np.sz = p.sz ∧ np.user = (p.ret 0).user ∧
        Balanced ram s' (p.holds ups + (np.holds cs + r)) := by
  obtain ⟨child, s', h', hrun, hs', hfail, hok⟩ := Prog.wp_run choices
    (wp_fork (Q := fun child h ↦ (child = none → h = p.holds ups) ∧
      ∀ np, child = some np → ∃ cs, CopyOf cs ups ∧ Image trampoline np cs ∧
        np.sz = p.sz ∧ np.user = (p.ret 0).user ∧ h = p.holds ups + np.holds cs) himage
      ⟨fun _ ↦ rfl, nofun⟩ fun pid trapframe pagetable cs hcopy himage' ↦
        ⟨nofun, fun np hnp ↦ Option.some.inj hnp ▸ ⟨cs, hcopy, himage', rfl, rfl, rfl⟩⟩) hs
  refine ⟨child, s', hrun, fun hnone ↦ ?_, fun np hnp ↦ ?_⟩
  · subst hnone
    rw [hfail rfl] at hs'
    exact ⟨hs', refState_of_fork hrun⟩
  · obtain ⟨cs, hcopy, himage', hsz, huser, rfl⟩ := hok np hnp
    rw [Multiset.add_assoc] at hs'
    exact ⟨cs, hcopy, himage', hsz, huser, hs'⟩

/-- The free pages are determined by the pipes and by what is held. -/
theorem freelist_eq_of_balanced (hs : Balanced ram s h) (hs' : Balanced ram s' h)
    (hpipes : s'.pipes = s.pipes) : (s'.freelist : Multiset Page) = s.freelist := by
  have hbalance := hs'.balance.trans hs.balance.symm
  rw [hpipes] at hbalance
  exact add_right_cancel (add_right_cancel hbalance)

theorem CopyOf.map_some {cs : List UPage} (hcopy : CopyOf cs ups) :
    (cs.map fun u ↦ some u.contents) = ups.map fun u ↦ some u.contents := by
  have hmap := congrArg (List.map some) hcopy
  rwa [List.map_map, List.map_map] at hmap

/-- What a failed `fork` leaves of the process table when `allocproc` has tried `slot`: everything is
as before except `nextpid` and the fields of that slot, which is `UNUSED` again. -/
structure TakenBack (slot : Option Slot) (k k' : Kernel.State) : Prop where
  others : ∀ j, slot ≠ some j → k'.proc j = k.proc j
  tried : ∀ j, slot = some j → (k'.proc j).state = .unused
  rest : { k' with proc := k.proc, nextpid := k.nextpid } = k

theorem takenBack_forkAlloc (b : Build) (k : Kernel.State) (i : Slot) {outcome : AllocOutcome}
    (houtcome : outcome ≠ .ok) : TakenBack (findUnused k) k (forkAlloc b k i outcome) := by
  cases hfound : findUnused k with
  | none =>
    rw [forkAlloc_of_full hfound]
    exact ⟨fun _ _ ↦ rfl, nofun, rfl⟩
  | some np =>
    rw [forkAlloc_eq hfound]
    refine ⟨fun j hj ↦ forkAllocAt_proc_of_ne fun h ↦ hj (h ▸ rfl), fun j hj ↦ ?_, ?_⟩
    · cases hj
      rw [forkAllocAt_state, if_neg houtcome]
    · cases outcome with
      | ok => exact absurd rfl houtcome
      | noTrapframe | noPagetable | noCopy => rfl

/-- `fork` copies the memory and the registers of its process for a child that is isolated from it, or
it takes back all it has done but the increment of `nextpid`.  `k` is the process table with the fields
that `w` does not have; `allocproc` takes the first slot that is `UNUSED` there. -/
theorem fork_copies_or_takes_back {w₀ : World} (hboots : Boots trampoline ram w₀)
    (hw : (system trampoline w₀).Reachable (fun _ _ ↦ True) w)
    (hi : w.slots i = .rest (.user p)) (b : Build) (k : Kernel.State)
    (hk : ∀ j, findUnused k = some j → w.slots j = .rest .unused) (choices : ℕ → Bool) :
    ∃ w', w.syscall trampoline i (.fork (findUnused k)) choices = some w' ∧
      ((∃ j child, findUnused k = some j ∧
          w'.slots = Function.update (Function.update w.slots j (.rest (.user child))) i
            (.rest (.user (p.ret (.ofNat child.pid)))) ∧
          child.sz = p.sz ∧ child.memory w'.shared = p.memory w.shared ∧
          p.memory w'.shared = p.memory w.shared ∧ child.user = (p.ret 0).user ∧
          Isolating trampoline w') ∨
        (w'.slots = Function.update w.slots i (.rest (.user (p.ret (-1)))) ∧
          (w'.shared.freelist : Multiset Page) = w.shared.freelist ∧
          refState w'.shared = refState w.shared ∧
          (∀ k q, Live w k q → q.memory w'.shared = q.memory w.shared) ∧
          ∀ outcome, outcome ≠ .ok → TakenBack (findUnused k) k (forkAlloc b k i outcome))) := by
  have htaken : ∀ outcome, outcome ≠ .ok →
      TakenBack (findUnused k) k (forkAlloc b k i outcome) := fun _ ↦ takenBack_forkAlloc b k i
  generalize findUnused k = slot at *
  obtain ⟨held, hsound⟩ := reachable_sound hboots hw
  obtain ⟨ups, himage, hheld⟩ := Live.owns (.inl hi) hsound
  cases slot with
  | none =>
    have hrun : Prog.run (pure (⟨.user (p.ret (-1)), .unused, 0⟩ : Result)) choices w.shared =
        some (_, w.shared) := rfl
    have hcall : w.syscall trampoline i (.fork none) choices = _ := syscall_of_run hi rfl rfl hrun
    exact ⟨_, hcall, .inr ⟨rfl, rfl, rfl, fun _ _ _ ↦ rfl, htaken⟩⟩
  | some j =>
    have hj := hk j rfl
    have hji : j ≠ i := by
      rintro rfl
      simp [hj] at hi
    have hbalanced := hsound.balanced_at i
    rw [hheld] at hbalanced
    obtain ⟨child, s', hrun, hfail, hok⟩ := fork_run himage hbalanced choices
    cases child with
    | none =>
      obtain ⟨hs', href⟩ := hfail rfl
      have hcall := syscall_of_run_pair hi hj hji (c := .fork (some j)) rfl rfl
        (Prog.run_bind_of_pure hrun rfl)
      rw [← hheld, ← Multiset.add_assoc, ← sum_held] at hs'
      refine ⟨_, hcall, .inr ⟨?_, ?_, href, fun k q hq ↦ ?_, htaken⟩⟩
      · change Function.update (Function.update w.slots j (.rest .unused)) i _ = _
        rw [← hj, Function.update_eq_self]
      · exact freelist_eq_of_balanced hsound.balanced hs' (congrArg (fun r ↦ r.2.2) href)
      · rw [sum_held held k, Multiset.add_assoc] at hs'
        exact (hq.owns hsound).memory_eq (hsound.balanced_at k) hs'
    | some np =>
      obtain ⟨cs, hcopy, himage', hsz, huser, hs'⟩ := hok np rfl
      have hcall := syscall_of_run_pair hi hj hji (c := .fork (some j)) rfl rfl
        (Prog.run_bind_of_pure hrun rfl)
      have hisolating := (reachable_sound hboots (reachable_syscall hw hcall)).isolating
      have hparent := himage.memory_eq hs'
      rw [Multiset.add_comm, Multiset.add_assoc] at hs'
      refine ⟨_, hcall, .inl ⟨j, np, rfl, rfl, hsz, ?_, ?_, huser, hisolating⟩⟩
      · exact (himage'.memory_eq hs').trans (hcopy.map_some.trans (himage.memory_eq hbalanced).symm)
      · exact hparent.trans (himage.memory_eq hbalanced).symm

/-- A table whose first two slots are in use. -/
def twoUsed : Kernel.State :=
  (Kernel.userinit .default).modify 1 fun pr ↦ { pr with state := .runnable, pid := 2 }

/-- After `pipedChild` four pages are free; another `fork` of the first process fails half way. -/
theorem fork_copies_or_takes_back_pipedChild :
    ∃ (w w' : World) (p : Proc), w.slots 0 = .rest (.user p) ∧ findUnused twoUsed = some 2 ∧
      w.syscall KERNBASE 0 (.fork (some 2)) (fun _ ↦ false) = some w' ∧
      w.shared.freelist.length = 4 ∧
      w'.slots = Function.update w.slots 0 (.rest (.user (p.ret (-1)))) ∧
      (w'.shared.freelist : Multiset Page) = w.shared.freelist ∧
      TakenBack (some 2) twoUsed (forkAlloc .default twoUsed 0 .noPagetable) := by
  obtain ⟨w₀, w, hboots, hw, p, hp, hunused, hfree, w', hw', hfails⟩ := exists_run (fun w ↦
    ∃ p ∈ (w.slots 0).program, (w.slots 2).isUnused = true ∧ w.shared.freelist.length = 4 ∧
      ∃ w' ∈ w.syscall KERNBASE 0 (.fork (some 2)) (fun _ ↦ false), (w'.slots 2).isUnused = true)
    pipedChild (by decide +kernel)
  have hp := State.program_eq_some.mp hp
  have hfound : findUnused twoUsed = some 2 := by decide +kernel
  obtain ⟨w'', hcall, hcases⟩ := fork_copies_or_takes_back hboots hw hp .default twoUsed
    (fun j hj ↦ by cases hfound.symm.trans hj; exact State.isUnused_iff.mp hunused) fun _ ↦ false
  rw [hfound] at hcall
  obtain rfl := Option.some.inj (hcall.symm.trans hw')
  rcases hcases with ⟨j, child, hj, hslots, -⟩ | ⟨hslots, hpages, -, -, htaken⟩
  · cases hfound.symm.trans hj
    rw [hslots] at hfails
    cases hfails
  · exact ⟨w, w'', p, hp, hfound, hcall, hfree, hslots, hpages, hfound ▸ htaken _ (by decide)⟩

/-- The slot that a failed `fork` has tried is not as it was: the first process calls `kill(0)`, which
marks the free slot 1, and then forks while there is no page for a trapframe; `freeproc` has cleared the
mark. -/
theorem failed_fork_clears_killed :
    ∃ k k', (Kernel.system .default).Reachable (fun _ _ ↦ True) k ∧
      (Kernel.system .default).next k (.forkAlloc 0 .noTrapframe) = some k' ∧
      k'.forkChild 0 = none ∧ (k.proc 1).state = .unused ∧ (k.proc 1).killed = true ∧
      (k'.proc 1).killed = false := by
  obtain ⟨k, hk, k', hk', hend⟩ := (Kernel.system .default).exists_reachable (fun _ _ ↦ True)
    (fun k ↦ ∃ k' ∈ (Kernel.system .default).next k (.forkAlloc 0 .noTrapframe),
      k'.forkChild 0 = none ∧ (k.proc 1).state = .unused ∧ (k.proc 1).killed = true ∧
        (k'.proc 1).killed = false) [.poll 0 0, .kill 0 0] (by decide +kernel)
  exact ⟨k, k', hk, hk', hend⟩

/-! ## exec -/

theorem exec_run (himage : Image trampoline p ups) (hs : Balanced ram s (p.holds ups + r))
    (path : Option (List UInt8)) (namei : Option (Fin NINODE × List UInt8)) (fetch : ℕ → Fetch)
    (choices : ℕ → Bool) :
    ∃ ret s', (sysExec trampoline p path namei fetch).run choices s = some (ret, s') ∧
      ((ret = (none, p) ∧ Balanced ram s' (p.holds ups + r)) ∨
        ∃ name ip file argv t sz sp ups', path = some name ∧ namei = some (ip, file) ∧
          Fetched fetch argv ∧
          let p' := commit p name (Elfhdr.decode (readi file 0 ELFHDR)).entry t sz sp
          ret = (some argv.length, p') ∧ Image trampoline p' ups' ∧
            Disjoint (pagesOf (res p.pagetable + dataOf ups)) (pagesOf (res t + dataOf ups')) ∧
            Balanced ram s' (p'.holds ups' + r)) := by
  obtain ⟨ret, s', h', hrun, hs', hcases⟩ := Prog.wp_run choices
    (wp_sysExec (Q := fun ret h ↦ (ret = (none, p) ∧ h = p.holds ups) ∨
      ∃ name ip file argv t sz sp ups', path = some name ∧ namei = some (ip, file) ∧
        Fetched fetch argv ∧
        let p' := commit p name (Elfhdr.decode (readi file 0 ELFHDR)).entry t sz sp
        ret = (some argv.length, p') ∧ Image trampoline p' ups' ∧
          Disjoint (pagesOf (res p.pagetable + dataOf ups)) (pagesOf (res t + dataOf ups')) ∧
          h = p'.holds ups') himage (.inl ⟨rfl, rfl⟩)
      fun name ip file argv t sz sp ups' hpath hnamei hfetched himage' hdisjoint ↦
        .inr ⟨name, ip, file, argv, t, sz, sp, ups', hpath, hnamei, hfetched, rfl, himage', hdisjoint,
          rfl⟩) hs
  refine ⟨ret, s', hrun, ?_⟩
  rcases hcases with ⟨rfl, rfl⟩ | ⟨name, ip, file, argv, t, sz, sp, ups', hpath, hnamei, hfetched,
    rfl, himage', hdisjoint, rfl⟩
  · exact .inl ⟨rfl, hs'⟩
  · exact .inr ⟨name, ip, file, argv, t, sz, sp, ups', hpath, hnamei, hfetched, rfl, himage',
      hdisjoint, hs'⟩

/-- Where all pages are when the image of one process is set apart. -/
theorem Image.balance (himage : Image trampoline p ups) (hs : Balanced ram s (p.holds ups + r)) :
    (s.freelist : Multiset Page) + p.image +
      ((s.pipes.map Pipe.page : List Page) + pagesOf (p.keeps + r)) = ram.pages := by
  rw [← hs.balance, ← himage.pagesOf_image (Proc.room ⟨s, r, hs⟩), Proc.holds, Multiset.add_assoc
    (res p.pagetable + dataOf ups), pagesOf_add (res p.pagetable + dataOf ups)]
  generalize pagesOf (res p.pagetable + dataOf ups) = image
  ac_rfl

/-- Free pages and images, before and after a process has got another image. -/
theorem image_exchange {ups' : List UPage} (himage : Image trampoline p ups)
    (himage' : Image trampoline q ups') (hkeeps : q.keeps = p.keeps)
    (hs : Balanced ram s (p.holds ups + r)) (hs' : Balanced ram s' (q.holds ups' + r))
    (hpipes : s'.pipes = s.pipes)
    (hdisjoint : Disjoint (pagesOf (res p.pagetable + dataOf ups))
      (pagesOf (res q.pagetable + dataOf ups'))) :
    (s'.freelist : Multiset Page) + q.image = s.freelist + p.image ∧
      p.image ≤ (s'.freelist : Multiset Page) := by
  rw [himage.pagesOf_image (Proc.room ⟨s, r, hs⟩),
    himage'.pagesOf_image (Proc.room ⟨s', r, hs'⟩)] at hdisjoint
  have hexchange : (s'.freelist : Multiset Page) + q.image = s.freelist + p.image := by
    have hbalance := (himage'.balance hs').trans (himage.balance hs).symm
    rw [hpipes, hkeeps] at hbalance
    exact add_right_cancel hbalance
  refine ⟨hexchange, Multiset.le_iff_count.mpr fun pg ↦ ?_⟩
  by_cases hpg : pg ∈ p.image
  · have hcount := congrArg (Multiset.count pg) hexchange
    have hq : Multiset.count pg q.image = 0 :=
      Multiset.count_eq_zero_of_notMem (Multiset.disjoint_left.mp hdisjoint hpg)
    rw [Multiset.count_add, Multiset.count_add, hq] at hcount
    omega
  · rw [Multiset.count_eq_zero_of_notMem hpg]
    exact Nat.zero_le _

/-- `exec` ends without a panic.  It returns -1 and has changed nothing, or it returns `argc` with a new
image, and the pages of the old one are free. -/
theorem exec_total_and_atomic {w₀ : World} (hboots : Boots trampoline ram w₀)
    (hw : (system trampoline w₀).Reachable (fun _ _ ↦ True) w)
    (hi : w.slots i = .rest (.user p)) (path : Option (List UInt8))
    (namei : Option (Fin NINODE × List UInt8)) (fetch : ℕ → Fetch) (choices : ℕ → Bool) :
    ∃ w', w.syscall trampoline i (.exec path namei fetch) choices = some w' ∧
      fileState w'.shared = fileState w.shared ∧
      (∀ k q, k ≠ i → Live w k q → q.memory w'.shared = q.memory w.shared) ∧
      ((w'.slots = Function.update w.slots i (.rest (.user (p.ret (-1)))) ∧
          p.memory w'.shared = p.memory w.shared ∧
          (w'.shared.freelist : Multiset Page) = w.shared.freelist) ∨
        ∃ name ip file argv t sz sp, path = some name ∧ namei = some (ip, file) ∧
          Fetched fetch argv ∧
          let p' := commit p name (Elfhdr.decode (readi file 0 ELFHDR)).entry t sz sp
          w'.slots = Function.update w.slots i (.rest (.user (p'.ret (.ofNat argv.length)))) ∧
            WellFormed trampoline p' ∧
            (w'.shared.freelist : Multiset Page) + p'.image = w.shared.freelist + p.image ∧
            p.image ≤ (w'.shared.freelist : Multiset Page)) := by
  obtain ⟨held, hsound⟩ := reachable_sound hboots hw
  obtain ⟨ups, himage, hheld⟩ := Live.owns (.inl hi) hsound
  have hbalanced := hsound.balanced_at i
  rw [hheld] at hbalanced
  obtain ⟨ret, s', hrun, hcases⟩ := exec_run himage hbalanced path namei fetch choices
  have hfiles := (keeps_sysExec ..).run hrun
  have hcall := syscall_of_run hi (c := .exec path namei fetch) rfl rfl
    (Prog.run_bind_of_pure hrun rfl)
  -- the others hold what they have held
  have hothers : ∀ h, Balanced ram s' (h + (others held i + w.lost)) → ∀ k q, k ≠ i → Live w k q →
      q.memory s' = q.memory w.shared := by
    intro h hs' k q hk hq
    obtain ⟨rest, hrest⟩ := exists_others_eq held hk
    have hsplit : h + (others held i + w.lost) = held k + (h + rest + w.lost) := by
      rw [hrest]
      ac_rfl
    rw [hsplit] at hs'
    exact (hq.owns hsound).memory_eq (hsound.balanced_at k) hs'
  refine ⟨_, hcall, hfiles, ?_, ?_⟩
  · rcases hcases with ⟨-, hs'⟩ | ⟨_, _, _, _, _, _, _, _, _, _, _, -, -, -, hs'⟩
    · exact hothers _ hs'
    · exact hothers _ hs'
  · rcases hcases with ⟨rfl, hs'⟩ | ⟨name, ip, file, argv, t, sz, sp, ups', hpath, hnamei, hfetched,
      rfl, himage', hdisjoint, hs'⟩
    · refine .inl ⟨rfl, ?_, ?_⟩
      · exact (himage.memory_eq hs').trans (himage.memory_eq hbalanced).symm
      · exact freelist_eq_of_balanced hbalanced hs' (congrArg Prod.snd hfiles)
    · obtain ⟨hexchange, hfreed⟩ := image_exchange himage himage' rfl hbalanced hs'
        (congrArg Prod.snd hfiles) hdisjoint
      exact .inr ⟨name, ip, file, argv, t, sz, sp, hpath, hnamei, hfetched, rfl,
        himage'.wellFormed (Proc.room ⟨_, _, hs'⟩), hexchange, hfreed⟩

/-- `exec("/a", {"ab", 0})` of a program that loads. -/
def execCall : Call :=
  .exec (some [0x2f, 0x61]) (some (2, textFile))
    fun n ↦ if n = 0 then .str (some [0x61, 0x62]) else .null

/-- `init` executes the program; the last `kalloc` of the call fails, or none does. -/
theorem exec_total_and_atomic_textFile :
    ∃ (w w₁ w₂ : World) (p p' : Proc) (a0 : UInt64), w.slots 0 = .rest (.user p) ∧
      w.syscall KERNBASE 0 execCall (fun _ ↦ false) = some w₁ ∧
      w₁.slots 0 = .rest (.user (p'.ret a0)) ∧ WellFormed KERNBASE p' ∧
      p.image ≤ (w₁.shared.freelist : Multiset Page) ∧
      w.syscall KERNBASE 0 execCall (fun n ↦ n = 12) = some w₂ ∧
      w₂.slots = Function.update w.slots 0 (.rest (.user (p.ret (-1)))) ∧
      (w₂.shared.freelist : Multiset Page) = w.shared.freelist := by
  -- only `exec` makes guard pages
  obtain ⟨w₀, w, hboots, hw, p, hp, hguard, ⟨w₁, hw₁, q₁, hq₁, hok⟩, w₂, hw₂, q₂, hq₂, hfails⟩ :=
    exists_run (fun w ↦ ∃ p ∈ (w.slots 0).program, p.guard = none ∧
      (∃ w₁ ∈ w.syscall KERNBASE 0 execCall (fun _ ↦ false),
        ∃ q ∈ (w₁.slots 0).program, q.guard ≠ none) ∧
      ∃ w₂ ∈ w.syscall KERNBASE 0 execCall (fun n ↦ n = 12),
        ∃ q ∈ (w₂.slots 0).program, q.guard = none) [] (by decide +kernel)
  have hp := State.program_eq_some.mp hp
  have hcall := exec_total_and_atomic hboots hw hp (some [0x2f, 0x61]) (some (2, textFile))
    fun n ↦ if n = 0 then .str (some [0x61, 0x62]) else .null
  obtain ⟨_, hcall₁, -, -, hcases₁⟩ := hcall fun _ ↦ false
  obtain rfl := Option.some.inj (hcall₁.symm.trans hw₁)
  obtain ⟨_, hcall₂, -, -, hcases₂⟩ := hcall fun n ↦ n = 12
  obtain rfl := Option.some.inj (hcall₂.symm.trans hw₂)
  have hq₁ := State.program_eq_some.mp hq₁
  have hq₂ := State.program_eq_some.mp hq₂
  rcases hcases₁ with ⟨hslots, -⟩ | ⟨_, _, _, _, _, _, _, -, -, -, hslots, hwell, -, hfreed⟩
  · rw [hslots, Function.update_self] at hq₁
    cases hq₁
    exact absurd hguard hok
  · rcases hcases₂ with ⟨hslots₂, -, hfree⟩ | ⟨_, _, _, _, _, _, _, -, -, -, hslots₂, -⟩
    · exact ⟨w, _, _, p, _, _, hp, hcall₁, by rw [hslots, Function.update_self], hwell, hfreed,
        hcall₂, hslots₂, hfree⟩
    · rw [hslots₂, Function.update_self] at hq₂
      cases hq₂
      cases hfails

end EnhancedXv6.Vm
