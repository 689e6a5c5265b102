import EnhancedXv6.Vm.PartialMap
import EnhancedXv6.Vm.UserCopy
import Mathlib.Algebra.GroupWithZero.Nat
import Mathlib.Data.List.Basic
import Mathlib.Tactic.Common

/-!
# The argument stack of exec

All that `exec` writes on the stack goes to one page: the strings one below the other, each at a multiple
of 16, and below them the array of pointers.  `Placed` describes the strings from the top of the page
down.
-/

namespace EnhancedXv6.Vm

open Radix Memory Resource Kernel Trap

def up16 (n : ℕ) : ℕ := (n + 15) / 16 * 16

def stackBytes (argv : List (List UInt8)) : ℕ :=
  (argv.map fun arg ↦ up16 (arg.length + 1)).sum + up16 ((argv.length + 1) * 8)

/-- Below `sp` the strings `argv` follow one another downwards, at the addresses `ptrs` of the page that
begins at `base`. -/
def Placed (page : Bytes) (base : ℕ) : ℕ → List (List UInt8) → List ℕ → Prop
  | _, [], ptrs => ptrs = []
  | _, _ :: _, [] => False
  | sp, arg :: argv, ptr :: ptrs =>
    base ≤ ptr ∧ ptr + (arg.length + 1) ≤ sp ∧ Holds page (ptr - base) (arg ++ [0]) ∧
      Placed page base ptr argv ptrs

variable {t : Table} {page : Bytes} {pa : Page} {base sp argc : ℕ} {argv : List (List UInt8)}
  {ptrs ustack : List ℕ} {choices : ℕ → Bool} {s s' : Shared} {off off' : ℕ} {src src' : List UInt8}

/-! ## One page -/

theorem holds_patch (hoff : off + src.length ≤ PGSIZE) : Holds (patch page off src) off src := by
  intro i hi
  rw [patch_at (by omega), List.getElem?_eq_getElem hi, Option.getD_some]

theorem Holds.patch (h : Holds page off src) (hoff : off + src.length ≤ PGSIZE)
    (hbelow : off' + src'.length ≤ off) : Holds (patch page off' src') off src := by
  intro i hi
  rw [← h i hi]
  have hval : (Fin.ofNat PGSIZE (off + i)).val = off + i := Nat.mod_eq_of_lt (by omega)
  by_contra hne
  obtain ⟨-, hlt⟩ := patch_changes fun heq ↦ hne (congrArg some heq)
  omega

/-- What is written below the strings leaves them alone. -/
theorem Placed.patch (h : Placed page base sp argv ptrs) (hsp : sp ≤ base + PGSIZE)
    (hbelow : ∀ ptr ∈ ptrs, off + src.length ≤ ptr - base) :
    Placed (patch page off src) base sp argv ptrs := by
  induction argv generalizing sp ptrs with
  | nil => exact h
  | cons arg argv ih =>
    cases ptrs with
    | nil => exact h
    | cons ptr ptrs =>
      obtain ⟨hlow, hhigh, hholds, hrest⟩ := h
      refine ⟨hlow, hhigh, hholds.patch ?_ (hbelow ptr List.mem_cons_self), ih hrest (by omega) ?_⟩
      · rw [List.length_append, List.length_singleton]
        omega
      · exact fun q hq ↦ hbelow q (List.mem_cons_of_mem _ hq)

theorem copyoutMem_nil (t : Table) (rounds va : ℕ) (mem : Page → Bytes) :
    copyoutMem t rounds va [] mem = (true, mem) := by
  cases rounds with
  | zero => rfl
  | succ rounds => rw [copyoutMem, if_pos rfl]

theorem copyout_page {va : ℕ} (hbase : base % PGSIZE = 0) (hva : base ≤ va)
    (hlen : va + src.length ≤ base + PGSIZE) (hsrc : src ≠ [])
    (hrun : (copyout t va src).run choices s = some (true, s')) :
    ∃ pa, walkaddr t base = some pa ∧
      s' = { s with mem := Function.update s.mem pa (patch (s.mem pa) (va - base) src) } := by
  have hpos := List.length_pos_of_ne_nil hsrc
  have hdown : pgRoundDown va = base := by
    simp only [pgRoundDown, PGSIZE] at hbase hlen ⊢
    omega
  rw [copyout, run_copyoutLoop, Option.some_inj, Prod.mk.injEq] at hrun
  obtain ⟨rounds, hrounds⟩ := Nat.exists_eq_succ_of_ne_zero hpos.ne'
  rw [hrounds, copyoutMem, if_neg hsrc, hdown] at hrun
  dsimp only at hrun
  cases hwalk : walkaddr t base with
  | none =>
    rw [hwalk] at hrun
    cases hrun.1
  | some pa =>
    rw [hwalk] at hrun
    dsimp only at hrun
    rw [Nat.min_eq_right (by omega), List.drop_length, List.take_length, copyoutMem_nil] at hrun
    obtain ⟨-, hrun⟩ := hrun
    exact ⟨pa, rfl, hrun.symm⟩

/-! ## The strings and the pointers -/

def stringBytes (argv : List (List UInt8)) : ℕ := (argv.map fun arg ↦ up16 (arg.length + 1)).sum

theorem stringBytes_aligned (argv : List (List UInt8)) : stringBytes argv % 16 = 0 := by
  induction argv with
  | nil => rfl
  | cons arg argv ih =>
    rw [stringBytes] at ih ⊢
    rw [List.map_cons, List.sum_cons, up16]
    omega

/-- The strings go one below the other into one page. -/
theorem pushArgs_run {sp' : ℕ} {ustack' : List ℕ} (hbase : base % PGSIZE = 0) (hpos : 0 < base)
    (haligned : sp % 16 = 0) (hsp : sp ≤ base + PGSIZE) (hlow : base ≤ sp)
    (hrun : (pushArgs t base argv argc sp ustack).run choices s = some (some (sp', ustack'), s')) :
    sp' + stringBytes argv = sp ∧ base ≤ sp' ∧ ∀ pa, walkaddr t base = some pa →
      ∃ ptrs page, ustack' = ustack ++ ptrs ∧ ptrs.length = argv.length ∧ (∀ ptr ∈ ptrs, sp' ≤ ptr) ∧
        s'.mem = Function.update s.mem pa page ∧
        (∀ o : Fin PGSIZE, sp ≤ base + o → page o = s.mem pa o) ∧ Placed page base sp argv ptrs := by
  induction argv generalizing argc sp ustack s choices with
  | nil =>
    cases hrun
    refine ⟨rfl, hlow, fun pa _ ↦ ⟨[], s'.mem pa, ?_, rfl, ?_, ?_, fun _ _ ↦ rfl, rfl⟩⟩
    · rw [List.append_nil]
    · exact fun ptr hptr ↦ absurd hptr List.not_mem_nil
    · rw [Function.update_eq_self]
  | cons arg argv ih =>
    rw [pushArgs] at hrun
    dsimp only at hrun
    split_ifs at hrun with hargs hfits
    · cases hrun
    · cases hrun
    obtain ⟨ptr, hptr⟩ : ∃ ptr, ptr = sp - (arg.length + 1) - (sp - (arg.length + 1)) % 16 := ⟨_, rfl⟩
    rw [← hptr] at hrun hfits
    have hup : ptr + up16 (arg.length + 1) = sp := by
      rw [up16]
      omega
    have hbytes : arg.length + 1 ≤ up16 (arg.length + 1) := by
      rw [up16]
      omega
    obtain ⟨copied, s₁, choices₁, hcopy, hrest⟩ := Prog.exists_of_run_bind hrun
    cases copied with
    | false => cases hrest
    | true =>
      obtain ⟨pa, hwalk, hs₁⟩ := copyout_page hbase (Nat.not_lt.mp hfits)
        (by rw [List.length_append, List.length_singleton]; omega) (by simp) hcopy
      rw [if_neg (by decide)] at hrest
      obtain ⟨hsum, hlow', hmem⟩ := ih (by omega) (by omega) (Nat.not_lt.mp hfits) hrest
      have hbytes : sp' + stringBytes (arg :: argv) = sp := by
        rw [stringBytes, List.map_cons, List.sum_cons]
        rw [stringBytes] at hsum
        omega
      refine ⟨hbytes, hlow', fun pa' hwalk' ↦ ?_⟩
      obtain rfl : pa = pa' := by
        rw [hwalk] at hwalk'
        exact Option.some.inj hwalk'
      obtain ⟨ptrs, page, hustack, hlength, hle, hmem, hframe, hplaced⟩ := hmem pa hwalk
      refine ⟨ptr :: ptrs, page, ?_, by rw [List.length_cons, List.length_cons, hlength], ?_,
        ?_, fun o ho ↦ ?_, Nat.not_lt.mp hfits, by omega, fun i hi ↦ ?_, hplaced⟩
      · rw [hustack, List.append_assoc]
        rfl
      · exact List.forall_mem_cons.mpr ⟨by omega, hle⟩
      · rw [hmem, hs₁]
        exact Function.update_idem ..
      · rw [hframe o (by omega), hs₁]
        dsimp only
        rw [Function.update_self]
        by_contra hne
        obtain ⟨-, hlt⟩ := patch_changes hne
        rw [List.length_append, List.length_singleton] at hlt
        omega
      · have hval : (Fin.ofNat PGSIZE (ptr - base + i)).val = ptr - base + i := by
          rw [List.length_append, List.length_singleton] at hi
          exact Nat.mod_eq_of_lt (by omega)
        have hholds : Holds (patch (s.mem pa) (ptr - base) (arg ++ [0])) (ptr - base) (arg ++ [0]) := by
          apply holds_patch
          rw [List.length_append, List.length_singleton]
          omega
        rw [hframe _ (by omega), hs₁, ← hholds i hi]
        dsimp only
        rw [Function.update_self]

theorem length_pointers (ptrs : List ℕ) : (ptrs.flatMap doubleword).length = ptrs.length * 8 := by
  induction ptrs with
  | nil => rfl
  | cons ptr ptrs ih =>
    rw [List.flatMap_cons, List.length_append, ih, List.length_cons, doubleword, List.length_map,
      List.length_range]
    omega

theorem pushPointers_run {sp' : ℕ} (hbase : base % PGSIZE = 0) (hpos : 0 < base)
    (haligned : sp % 16 = 0) (hsp : sp ≤ base + PGSIZE)
    (hrun : (pushPointers t base sp ustack).run choices s = some (some sp', s')) :
    sp' + up16 ((ustack.length + 1) * 8) = sp ∧ base ≤ sp' ∧ ∃ pa, walkaddr t base = some pa ∧
      s'.mem = Function.update s.mem pa
        (patch (s.mem pa) (sp' - base) ((ustack ++ [0]).flatMap doubleword)) := by
  have hlength := length_pointers (ustack ++ [0])
  rw [List.length_append, List.length_singleton] at hlength
  rw [pushPointers] at hrun
  split_ifs at hrun with hfits
  · cases hrun
  obtain ⟨sp₁, hsp₁⟩ : ∃ sp₁, sp₁ = sp - (ustack.length + 1) * 8 - (sp - (ustack.length + 1) * 8) % 16 :=
    ⟨_, rfl⟩
  rw [← hsp₁] at hrun hfits
  have hup : sp₁ + up16 ((ustack.length + 1) * 8) = sp := by
    rw [up16]
    omega
  have hbytes : (ustack.length + 1) * 8 ≤ up16 ((ustack.length + 1) * 8) := by
    rw [up16]
    omega
  obtain ⟨copied, s₁, choices₁, hcopy, hrest⟩ := Prog.exists_of_run_bind hrun
  cases copied with
  | false => cases hrest
  | true =>
    obtain ⟨pa, hwalk, hs₁⟩ := copyout_page hbase (Nat.not_lt.mp hfits) (by omega)
      (List.ne_nil_of_length_pos (by omega)) hcopy
    rw [if_neg (by decide)] at hrest
    cases hrest
    exact ⟨hup, Nat.not_lt.mp hfits, pa, hwalk, by rw [hs₁]⟩

/-! ## exec -/

/-- The arguments are on the stack: `sp` and the pointers in the page below `sz`. -/
structure OnStack (page : Bytes) (sz sp : ℕ) (argv : List (List UInt8)) (ptrs : List ℕ) : Prop where
  aligned : sp % 16 = 0
  inPage : sz - PGSIZE ≤ sp ∧ sp < sz
  /-- below the strings -/
  below : ∀ ptr ∈ ptrs, sp + (argv.length + 1) * 8 ≤ ptr
  length : ptrs.length = argv.length
  strings : Placed page (sz - PGSIZE) sz argv ptrs
  pointers : Holds page (sp - (sz - PGSIZE)) ((ptrs ++ [0]).flatMap doubleword)

/-- Below the strings comes the array of pointers, in the same page. -/
theorem pushStack_run {sz : ℕ} (hsz : sz % PGSIZE = 0) (hlow : 2 * PGSIZE ≤ sz)
    (hrun : (pushStack t sz argv).run choices s = some (some sp, s')) :
    stackBytes argv ≤ PGSIZE ∧ ∃ pa ptrs, walkaddr t (sz - PGSIZE) = some pa ∧
      OnStack (s'.mem pa) sz sp argv ptrs := by
  rw [pushStack] at hrun
  obtain ⟨pushed, s₁, choices₁, hargs, hrest⟩ := Prog.exists_of_run_bind hrun
  cases pushed with
  | none => cases hrest
  | some pushed =>
    obtain ⟨sp₁, ustack⟩ := pushed
    dsimp only at hrest
    have hbase : (sz - PGSIZE) % PGSIZE = 0 := by
      simp only [PGSIZE] at hsz hlow ⊢
      omega
    have haligned : sz % 16 = 0 := by
      simp only [PGSIZE] at hsz
      omega
    have hsum : sz - PGSIZE + PGSIZE = sz := Nat.sub_add_cancel (by omega)
    have hpage : 0 < PGSIZE := by decide
    obtain ⟨hstrings, hlow₁, hplaced⟩ :=
      pushArgs_run hbase (by omega) haligned (by omega) (by omega) hargs
    have haligned₁ : sp₁ % 16 = 0 := by
      have hsteps : stringBytes argv % 16 = 0 := stringBytes_aligned argv
      omega
    -- the page of the stack is the one to which the pointers go
    obtain ⟨hpointers, hlow₂, pa, hwalk, hmem⟩ :=
      pushPointers_run hbase (by omega) haligned₁ (by omega) hrest
    obtain ⟨ptrs, page, hustack, hlength, hle, hmem₁, -, hplaced⟩ := hplaced pa hwalk
    rw [List.nil_append] at hustack
    subst hustack
    have hup : (ustack.length + 1) * 8 ≤ up16 ((ustack.length + 1) * 8) ∧
        up16 ((ustack.length + 1) * 8) % 16 = 0 := by
      rw [up16]
      omega
    have hpageMem : s'.mem pa = patch page (sp - (sz - PGSIZE)) ((ustack ++ [0]).flatMap doubleword) := by
      rw [hmem, Function.update_self, hmem₁, Function.update_self]
    have hbytes := length_pointers (ustack ++ [0])
    rw [List.length_append, List.length_singleton] at hbytes
    refine ⟨?_, pa, ustack, hwalk, by omega, by omega, fun ptr hptr ↦ ?_, hlength, ?_, ?_⟩
    · rw [stackBytes, ← hlength, ← stringBytes]
      omega
    · have hptr' := hle ptr hptr
      omega
    · rw [hpageMem]
      refine hplaced.patch (by omega) fun ptr hptr ↦ ?_
      have hptr' := hle ptr hptr
      omega
    · rw [hpageMem]
      exact holds_patch (by omega)

theorem allocLoop_run {oldsz newsz : ℕ} {perm : Perm} {n a : ℕ} {r : ℕ × Table}
    (hrun : (allocLoop oldsz newsz perm n t a).run choices s = some (r, s')) :
    r.1 = 0 ∨ r.1 = newsz := by
  induction n generalizing t a choices s with
  | zero =>
    cases hrun
    exact .inr rfl
  | succ n ih =>
    rw [allocLoop] at hrun
    obtain ⟨⟨added, t₁⟩, s₁, choices₁, -, hrest⟩ := Prog.exists_of_run_bind hrun
    cases added with
    | false =>
      obtain ⟨⟨sz, t₂⟩, s₂, choices₂, -, hrest⟩ := Prog.exists_of_run_bind hrest
      cases hrest
      exact .inl rfl
    | true => exact ih hrest

theorem buildStack_run {sz₀ sz : ℕ} {t' : Table}
    (hrun : (buildStack t sz₀ argv).run choices s = some ((some sp, sz, t'), s')) :
    stackBytes argv ≤ PGSIZE ∧ ∃ pa ptrs, walkaddr t' (sz - PGSIZE) = some pa ∧
      OnStack (s'.mem pa) sz sp argv ptrs := by
  rw [buildStack] at hrun
  obtain ⟨⟨sz₁, t₁⟩, s₁, choices₁, halloc, hrest⟩ := Prog.exists_of_run_bind hrun
  dsimp only at hrest
  split_ifs at hrest with hzero
  · cases hrest
  rw [uvmalloc, if_neg (by omega)] at halloc
  have hsz := (allocLoop_run halloc).resolve_left hzero
  obtain ⟨t₂, s₂, choices₂, -, hrest⟩ := Prog.exists_of_run_bind hrest
  obtain ⟨sp', s₃, choices₃, hpush, hrest⟩ := Prog.exists_of_run_bind hrest
  cases hrest
  dsimp only at hsz
  refine pushStack_run ?_ (by omega) hpush
  rw [hsz]
  simp only [pgRoundUp, PGSIZE]
  omega

theorem keeps_mem_kfree (pa : Page) : (kfree pa).Keeps Shared.mem := by
  intro _ s
  by_cases hbad : badPage s pa
  · simp only [if_pos hbad]
    exact ⟨trivial, trivial⟩
  · simp only [if_neg hbad]
    exact ⟨trivial, trivial⟩

theorem buildStack_of_exec {trampoline : Page} {p p' : Proc} {path : List UInt8}
    {namei : Option (Fin NINODE × List UInt8)}
    (hrun : (exec trampoline p path namei argv).run choices s = some ((some argc, p'), s')) :
    argc = argv.length ∧ ∃ t sz₀ entry t' sz sp choices₁ s₁ s₂,
      (buildStack t sz₀ argv).run choices₁ s₁ = some ((some sp, sz, t'), s₂) ∧
      p' = commit p path entry t' sz sp ∧ s'.mem = s₂.mem := by
  unfold exec at hrun
  cases namei with
  | none => cases hrun
  | some found =>
    obtain ⟨ip, file⟩ := found
    obtain ⟨-, s₁, choices₁, -, hrun⟩ := Prog.exists_of_run_bind hrun
    dsimp only at hrun
    split_ifs at hrun with hmagic
    · obtain ⟨-, s₂, choices₂, -, hrun⟩ := Prog.exists_of_run_bind hrun
      cases hrun
    obtain ⟨pagetable, s₂, choices₂, -, hrun⟩ := Prog.exists_of_run_bind hrun
    cases pagetable with
    | none =>
      obtain ⟨-, s₃, choices₃, -, hrun⟩ := Prog.exists_of_run_bind hrun
      cases hrun
    | some t =>
      obtain ⟨⟨loaded, sz₀, t₁⟩, s₃, choices₃, -, hrun⟩ := Prog.exists_of_run_bind hrun
      dsimp only at hrun
      split_ifs at hrun with hloaded
      · obtain ⟨-, s₄, choices₄, -, hrun⟩ := Prog.exists_of_run_bind hrun
        cases hrun
      obtain ⟨-, s₄, choices₄, -, hrun⟩ := Prog.exists_of_run_bind hrun
      obtain ⟨⟨sp, sz, t₂⟩, s₅, choices₅, hbuild, hrun⟩ := Prog.exists_of_run_bind hrun
      cases sp with
      | none =>
        obtain ⟨-, s₆, choices₆, -, hrun⟩ := Prog.exists_of_run_bind hrun
        cases hrun
      | some sp =>
        obtain ⟨⟨⟩, s₆, choices₆, hfree, hrun⟩ := Prog.exists_of_run_bind hrun
        cases hrun
        exact ⟨rfl, _, _, _, _, _, _, _, _, _, hbuild, rfl,
          (keeps_procFreepagetable keeps_mem_kfree p.pagetable p.sz).run hfree⟩

/-- When `exec` succeeds, `a1` and `sp` point to the array of pointers to the arguments in the page of
the stack; it fails when the arguments do not fit in there. -/
theorem exec_builds_argument_stack (trampoline : Page) (p : Proc) (path : List UInt8)
    (namei : Option (Fin NINODE × List UInt8)) (argv : List (List UInt8)) (choices : ℕ → Bool)
    (s s' : Shared) (r : Option ℕ) (p' : Proc)
    (hrun : (exec trampoline p path namei argv).run choices s = some ((r, p'), s')) :
    (∀ argc, r = some argc → argc = argv.length ∧ ∃ pa sp ptrs,
      walkaddr p'.pagetable (p'.sz - PGSIZE) = some pa ∧
      p'.user.regs .sp = .ofNat sp ∧ p'.user.regs .a1 = .ofNat sp ∧
      OnStack (s'.mem pa) p'.sz sp argv ptrs) ∧
    (PGSIZE < stackBytes argv → r = none) := by
  cases r with
  | none => exact ⟨fun _ h ↦ (nomatch h), fun _ ↦ rfl⟩
  | some argc =>
    obtain ⟨hargc, t, sz₀, entry, t', sz, sp, choices₁, s₁, s₂, hbuild, hp', hmem⟩ :=
      buildStack_of_exec hrun
    obtain ⟨hfits, pa, ptrs, hwalk, hstack⟩ := buildStack_run hbuild
    refine ⟨fun argc' h ↦ ?_, fun hlarge ↦ absurd hfits (by omega)⟩
    cases h
    refine ⟨hargc, pa, sp, ptrs, ?_, ?_, ?_, ?_⟩
    · rw [hp']
      exact hwalk
    · rw [hp', commit]
      dsimp only
      rw [Function.update_self]
    · rw [hp', commit]
      dsimp only
      rw [Function.update_of_ne (by decide), Function.update_self]
    · rw [hp', hmem]
      exact hstack

/-- `init` execs a program with the arguments "a" and "bc". -/
theorem exec_builds_argument_stack_two :
    ∃ p s p' s', (exec KERNBASE p [] (some (2, textFile)) [[97], [98, 99]]).run (fun _ ↦ false) s =
        some ((some 2, p'), s') ∧
      ∃ pa sp ptrs, OnStack (s'.mem pa) p'.sz sp [[97], [98, 99]] ptrs := by
  have hrun : (((userinit KERNBASE [] 1).run (fun _ ↦ false) smallStart).bind fun r ↦
      r.1.bind fun p ↦ (exec KERNBASE p [] (some (2, textFile)) [[97], [98, 99]]).run (fun _ ↦ false)
        r.2).map (fun r ↦ r.1.1) = some (some 2) := by decide +kernel
  obtain ⟨⟨⟨r, p'⟩, s'⟩, hexec, rfl⟩ := Option.map_eq_some_iff.mp hrun
  obtain ⟨⟨_, s⟩, -, hexec⟩ := Option.bind_eq_some_iff.mp hexec
  obtain ⟨p, -, hexec⟩ := Option.bind_eq_some_iff.mp hexec
  have hstack := (exec_builds_argument_stack _ _ _ _ _ _ _ _ _ _ hexec).1 2 rfl
  obtain ⟨-, pa, sp, ptrs, -, -, -, hstack⟩ := hstack
  exact ⟨p, s, p', s', hexec, pa, sp, ptrs, hstack⟩

end EnhancedXv6.Vm
