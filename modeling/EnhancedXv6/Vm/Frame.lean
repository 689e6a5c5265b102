import EnhancedXv6.Vm.Exec

/-!
# What the memory functions leave alone

No function of kalloc.c or vm.c touches a file, a pipe or a reference count, and `exec` touches only
the reference count of the program it reads.
-/

namespace EnhancedXv6.Vm

open Radix Memory Resource Kernel Trap

def fileState (s : Shared) : (Fin NFILE → File) × List Pipe := (s.ftable, s.pipes)

def refState (s : Shared) : (Fin NINODE → ℕ) × (Fin NFILE → File) × List Pipe :=
  (s.iref, fileState s)

open Prog

theorem keeps_kalloc : kalloc.Keeps refState := by
  intro fails s
  cases fails with
  | false => exact ⟨rfl, trivial⟩
  | true => exact ⟨rfl, trivial⟩

theorem keeps_kfree (pa : Page) : (kfree pa).Keeps refState := by
  intro _ s
  by_cases hbad : badPage s pa
  · simp only [if_pos hbad]
    exact ⟨trivial, trivial⟩
  · simp only [if_neg hbad]
    exact ⟨rfl, trivial⟩

theorem keeps_setPage (pa : Page) (bytes : Shared → Bytes) : (setPage pa bytes).Keeps refState :=
  fun _ _ ↦ ⟨rfl, trivial⟩

theorem keeps_allocpid : allocpid.Keeps refState := fun _ _ ↦ ⟨rfl, trivial⟩

/-! ## Freeing

What frees pages leaves alone whatever `kfree` does. -/

/-- Without `alloc` it changes nothing at all. -/
theorem walkFrom_false (path : ℕ → Fin 512) {n : ℕ} (t : Tree Page (Fin 512) Pte (n + 1)) :
    ∃ found, walkFrom false path n t = Pure.pure (found, t) := by
  induction n with
  | zero => exact ⟨true, rfl⟩
  | succ n ih =>
    rw [walkFrom]
    cases hi : t.entry (path (n + 1)) with
    | none => exact ⟨false, rfl⟩
    | some child =>
      obtain ⟨found, heq⟩ := ih child
      refine ⟨found, ?_⟩
      dsimp only
      rw [heq, Prog.pure_bind, setEntry_self hi]

section Freeing

variable {τ : Type} {π : Shared → τ} (hkfree : ∀ pa, (kfree pa).Keeps π)
include hkfree

theorem keeps_unmapLoop (doFree : Bool) (n : ℕ) (t : Table) (a : ℕ) :
    (unmapLoop doFree n t a).Keeps π := by
  induction n generalizing t a with
  | zero => exact keeps_pure _
  | succ n ih =>
    rw [unmapLoop]
    by_cases hva : a ≥ MAXVA
    · rw [walk, if_pos hva]
      exact keeps_panic
    obtain ⟨found, hwalk⟩ := walkFrom_false (px a) t
    rw [walk, if_neg hva, hwalk, pure_bind]
    dsimp only
    split
    · exact keeps_panic
    split
    · exact keeps_panic
    split
    · exact keeps_panic
    split
    · exact (hkfree _).bind fun _ ↦ ih ..
    · exact ih ..

theorem keeps_uvmunmap (t : Table) (va npages : ℕ) (doFree : Bool) :
    (uvmunmap t va npages doFree).Keeps π := by
  rw [uvmunmap]
  split
  · exact keeps_panic
  · exact keeps_unmapLoop hkfree ..

theorem keeps_freewalk {n : ℕ} (t : Tree Page (Fin 512) Pte (n + 1)) :
    (freewalk n t).Keeps π := by
  induction n with
  | zero =>
    rw [freewalk]
    refine (keeps_forEach (fun i ↦ ?_) _).bind fun _ ↦ hkfree _
    split
    · exact keeps_panic
    · exact keeps_pure _
  | succ n ih =>
    rw [freewalk]
    refine (keeps_forEach (fun i ↦ ?_) _).bind fun _ ↦ hkfree _
    split
    · exact keeps_pure _
    · exact ih _

theorem keeps_uvmfree (t : Table) (sz : ℕ) : (uvmfree t sz).Keeps π := by
  rw [uvmfree]
  split
  · exact (keeps_uvmunmap hkfree ..).bind fun _ ↦ keeps_freewalk hkfree _
  · exact keeps_freewalk hkfree _

theorem keeps_procFreepagetable (t : Table) (sz : ℕ) : (procFreepagetable t sz).Keeps π := by
  refine (keeps_uvmunmap hkfree ..).bind fun t ↦ ?_
  exact (keeps_uvmunmap hkfree ..).bind fun t ↦ keeps_uvmfree hkfree ..

end Freeing

/-! ## Page tables -/

theorem keeps_walkFrom (alloc : Bool) (path : ℕ → Fin 512) {n : ℕ}
    (t : Tree Page (Fin 512) Pte (n + 1)) : (walkFrom alloc path n t).Keeps refState := by
  induction n with
  | zero => exact keeps_pure _
  | succ n ih =>
    rw [walkFrom]
    split
    · exact (ih _).bind fun _ ↦ keeps_pure _
    · split
      · refine keeps_kalloc.bind fun r ↦ ?_
        cases r with
        | none => exact keeps_pure _
        | some pagetable => exact (ih _).bind fun _ ↦ keeps_pure _
      · exact keeps_pure _

theorem keeps_walk (t : Table) (va : ℕ) (alloc : Bool) : (walk t va alloc).Keeps refState := by
  rw [walk]
  split
  · exact keeps_panic
  · exact keeps_walkFrom ..

theorem keeps_mapLoop (perm : Perm) (n : ℕ) (t : Table) (a : ℕ) (pa : Page) :
    (mapLoop perm n t a pa).Keeps refState := by
  induction n generalizing t a pa with
  | zero =>
    rw [mapLoop]
    refine (keeps_walk ..).bind fun r ↦ ?_
    obtain ⟨found, t⟩ := r
    dsimp only
    split
    · exact keeps_pure _
    · split
      · exact keeps_panic
      · exact keeps_pure _
  | succ n ih =>
    rw [mapLoop]
    refine (keeps_walk ..).bind fun r ↦ ?_
    obtain ⟨found, t⟩ := r
    dsimp only
    split
    · exact keeps_pure _
    · split
      · exact keeps_panic
      · exact ih ..

theorem keeps_mappages (t : Table) (va size : ℕ) (pa : Page) (perm : Perm) :
    (mappages t va size pa perm).Keeps refState := by
  rw [mappages]
  split
  · exact keeps_panic
  · exact keeps_mapLoop ..

theorem keeps_uvmcreate : uvmcreate.Keeps refState := by
  refine keeps_kalloc.bind fun r ↦ ?_
  cases r with
  | none => exact keeps_pure _
  | some pagetable => exact keeps_pure _

theorem keeps_uvmdealloc (t : Table) (oldsz newsz : ℕ) :
    (uvmdealloc t oldsz newsz).Keeps refState := by
  rw [uvmdealloc]
  split
  · exact keeps_pure _
  · split
    · exact (keeps_uvmunmap keeps_kfree ..).bind fun _ ↦ keeps_pure _
    · exact keeps_pure _

theorem keeps_addPage {fill : Page → Prog Shared Unit} (hfill : ∀ mem, (fill mem).Keeps refState)
    (t : Table) (va : ℕ) (perm : Perm) : (addPage fill t va perm).Keeps refState := by
  refine keeps_kalloc.bind fun r ↦ ?_
  cases r with
  | none => exact keeps_pure _
  | some mem =>
    refine (hfill mem).bind fun _ ↦ (keeps_mappages ..).bind fun ⟨mapped, t⟩ ↦ ?_
    dsimp only
    split
    · exact (keeps_kfree mem).bind fun _ ↦ keeps_pure _
    · exact keeps_pure _

theorem keeps_allocLoop (oldsz newsz : ℕ) (perm : Perm) (n : ℕ) (t : Table) (a : ℕ) :
    (allocLoop oldsz newsz perm n t a).Keeps refState := by
  induction n generalizing t a with
  | zero => exact keeps_pure _
  | succ n ih =>
    rw [allocLoop]
    refine (keeps_addPage (fun mem ↦ keeps_setPage _ _) _ _ _).bind fun r ↦ ?_
    obtain ⟨added, t⟩ := r
    dsimp only
    split
    · exact (keeps_uvmdealloc ..).bind fun _ ↦ keeps_pure _
    · exact ih ..

theorem keeps_uvmalloc (t : Table) (oldsz newsz : ℕ) (xperm : Perm) :
    (uvmalloc t oldsz newsz xperm).Keeps refState := by
  rw [uvmalloc]
  split
  · exact keeps_pure _
  · exact keeps_allocLoop ..

theorem keeps_copyLoop (old : Table) (n : ℕ) (new : Table) (i : ℕ) :
    (copyLoop old n new i).Keeps refState := by
  induction n generalizing new i with
  | zero => exact keeps_pure _
  | succ n ih =>
    rw [copyLoop]
    refine (keeps_walk ..).bind fun r ↦ ?_
    obtain ⟨found, t⟩ := r
    dsimp only
    split
    · exact keeps_panic
    · split
      · exact keeps_panic
      · refine (keeps_addPage (fun mem ↦ keeps_setPage _ _) _ _ _).bind fun r ↦ ?_
        obtain ⟨added, t⟩ := r
        dsimp only
        split
        · exact (keeps_uvmunmap keeps_kfree ..).bind fun _ ↦ keeps_pure _
        · exact ih ..

theorem keeps_uvmclear (t : Table) (va : ℕ) : (uvmclear t va).Keeps refState := by
  refine (keeps_walk ..).bind fun r ↦ ?_
  obtain ⟨found, t⟩ := r
  dsimp only
  split
  · exact keeps_panic
  · split
    · exact keeps_pure _
    · exact keeps_pure _

theorem keeps_procPagetable (trampoline trapframe : Page) :
    (procPagetable trampoline trapframe).Keeps refState := by
  refine keeps_uvmcreate.bind fun r ↦ ?_
  cases r with
  | none => exact keeps_pure _
  | some t =>
    refine (keeps_mappages ..).bind fun ⟨mapped, t⟩ ↦ ?_
    dsimp only
    split
    · exact (keeps_uvmfree keeps_kfree ..).bind fun _ ↦ keeps_pure _
    · refine (keeps_mappages ..).bind fun ⟨mapped, t⟩ ↦ ?_
      dsimp only
      split
      · refine (keeps_uvmunmap keeps_kfree ..).bind fun t ↦ ?_
        exact (keeps_uvmfree keeps_kfree ..).bind fun _ ↦ keeps_pure _
      · exact keeps_pure _

/-! ## fork -/

theorem keeps_freeproc (trapframe : Option Page) (pagetable : Option Table) (sz : ℕ) :
    (freeproc trapframe pagetable sz).Keeps refState := by
  refine (keeps_forSome keeps_kfree _).bind fun _ ↦ ?_
  exact keeps_forSome (fun t ↦ keeps_procFreepagetable keeps_kfree t sz) _

theorem keeps_allocproc (trampoline : Page) : (allocproc trampoline).Keeps refState := by
  refine keeps_allocpid.bind fun pid ↦ keeps_kalloc.bind fun r ↦ ?_
  cases r with
  | none => exact (keeps_freeproc ..).bind fun _ ↦ keeps_pure _
  | some trapframe =>
    refine (keeps_procPagetable _ _).bind fun r ↦ ?_
    cases r with
    | none => exact (keeps_freeproc ..).bind fun _ ↦ keeps_pure _
    | some pagetable => exact keeps_pure _

theorem keeps_forkMemory (trampoline : Page) (p : Proc) :
    (forkMemory trampoline p).Keeps refState := by
  refine (keeps_allocproc _).bind fun r ↦ ?_
  cases r with
  | none => exact keeps_pure _
  | some found =>
    refine (keeps_copyLoop ..).bind fun ⟨copied, pagetable⟩ ↦ ?_
    dsimp only
    split
    · exact (keeps_freeproc ..).bind fun _ ↦ keeps_pure _
    · exact keeps_pure _

/-- A `fork` that fails has changed no reference count. -/
theorem refState_of_fork {trampoline : Page} {p : Proc} {choices : ℕ → Bool} {s s' : Shared}
    (hrun : (fork trampoline p).run choices s = some (none, s')) : refState s' = refState s := by
  obtain ⟨r, s₁, choices₁, hmemory, hrest⟩ := exists_of_run_bind hrun
  cases r with
  | none =>
    obtain rfl : s₁ = s' := congrArg Prod.snd (Option.some.inj hrest)
    exact (keeps_forkMemory trampoline p).run hmemory
  | some found =>
    -- after the memory nothing fails
    obtain ⟨_, s₂, choices₂, -, hrest⟩ := exists_of_run_bind hrest
    obtain ⟨_, s₃, choices₃, -, hrest⟩ := exists_of_run_bind hrest
    cases hrest

/-! ## exec -/

theorem keeps_copyoutLoop (t : Table) (rounds dstva : ℕ) (src : List UInt8) :
    (copyoutLoop t rounds dstva src).Keeps refState := by
  induction rounds generalizing dstva src with
  | zero => exact keeps_pure _
  | succ rounds ih =>
    rw [copyoutLoop]
    split
    · exact keeps_pure _
    · dsimp only
      split
      · exact keeps_pure _
      · exact (keeps_setPage _ _).bind fun _ ↦ ih ..

theorem keeps_loadLoop (t : Table) (va : ℕ) (file : List UInt8) (offset sz rounds i : ℕ) :
    (loadLoop t va file offset sz rounds i).Keeps refState := by
  induction rounds generalizing i with
  | zero => exact keeps_pure _
  | succ rounds ih =>
    rw [loadLoop]
    split
    · exact keeps_panic
    · dsimp only
      generalize (if sz - i < PGSIZE then sz - i else PGSIZE) = n
      refine (keeps_setPage _ _).bind fun _ ↦ ?_
      split
      · exact keeps_pure _
      · exact ih _

theorem keeps_loadProgram (file : List UInt8) (n off sz : ℕ) (t : Table) :
    (loadProgram file n off sz t).Keeps refState := by
  induction n generalizing off sz t with
  | zero => exact keeps_pure _
  | succ n ih =>
    rw [loadProgram]
    dsimp only
    split
    · exact keeps_pure _
    split
    · exact ih ..
    split
    · exact keeps_pure _
    split
    · exact keeps_pure _
    split
    · exact keeps_pure _
    refine (keeps_uvmalloc ..).bind fun r ↦ ?_
    obtain ⟨sz1, t⟩ := r
    dsimp only
    split
    · exact keeps_pure _
    refine (keeps_loadLoop ..).bind fun loaded ↦ ?_
    split
    · exact keeps_pure _
    · exact ih ..

theorem keeps_pushArgs (t : Table) (stackbase : ℕ) (argv : List (List UInt8)) (argc sp : ℕ)
    (ustack : List ℕ) : (pushArgs t stackbase argv argc sp ustack).Keeps refState := by
  induction argv generalizing argc sp ustack with
  | nil => exact keeps_pure _
  | cons arg argv ih =>
    rw [pushArgs]
    split
    · exact keeps_pure _
    dsimp only
    split
    · exact keeps_pure _
    refine (keeps_copyoutLoop ..).bind fun copied ↦ ?_
    split
    · exact keeps_pure _
    · exact ih ..

theorem keeps_pushPointers (t : Table) (stackbase sp : ℕ) (ustack : List ℕ) :
    (pushPointers t stackbase sp ustack).Keeps refState := by
  rw [pushPointers]
  split
  · exact keeps_pure _
  refine (keeps_copyoutLoop ..).bind fun copied ↦ ?_
  split
  · exact keeps_pure _
  · exact keeps_pure _

theorem keeps_pushStack (t : Table) (sz : ℕ) (argv : List (List UInt8)) :
    (pushStack t sz argv).Keeps refState := by
  rw [pushStack]
  generalize sz - PGSIZE = stackbase
  refine (keeps_pushArgs ..).bind fun r ↦ ?_
  cases r with
  | none => exact keeps_pure _
  | some pushed => exact keeps_pushPointers ..

theorem keeps_buildStack (t : Table) (sz : ℕ) (argv : List (List UInt8)) :
    (buildStack t sz argv).Keeps refState := by
  rw [buildStack]
  refine (keeps_uvmalloc _ _ _ _).bind fun r ↦ ?_
  obtain ⟨sz1, t⟩ := r
  dsimp only
  generalize sz1 - 2 * PGSIZE = guard
  split
  · exact keeps_pure _
  · exact (keeps_uvmclear t guard).bind fun t ↦ (keeps_pushStack t _ _).bind fun sp ↦ keeps_pure _

theorem keeps_idup (ip : Fin NINODE) : (idup ip).Keeps fileState := fun _ _ ↦ ⟨rfl, trivial⟩

theorem keeps_iput (ip : Fin NINODE) : (iput ip).Keeps fileState := fun _ _ ↦ ⟨rfl, trivial⟩

/-- A program that changes no reference count changes no file. -/
theorem Keeps.files {α : Type} {x : Prog Shared α} (hx : x.Keeps refState) : x.Keeps fileState :=
  hx.comp Prod.snd

theorem keeps_execBad (pagetable : Option Table) (sz : ℕ) (ip : Option (Fin NINODE)) :
    (execBad pagetable sz ip).Keeps fileState := by
  have hfree := keeps_forSome (fun t ↦ keeps_procFreepagetable keeps_kfree t sz) pagetable
  exact (Keeps.files hfree).bind fun _ ↦ keeps_forSome keeps_iput _

theorem keeps_exec (trampoline : Page) (p : Proc) (path : List UInt8)
    (namei : Option (Fin NINODE × List UInt8)) (argv : List (List UInt8)) :
    (exec trampoline p path namei argv).Keeps fileState := by
  cases namei with
  | none => exact keeps_pure _
  | some found =>
    rw [exec]
    refine (keeps_idup _).bind fun _ ↦ ?_
    dsimp only
    split
    · exact (keeps_execBad ..).bind fun _ ↦ keeps_pure _
    refine (Keeps.files (keeps_procPagetable _ _)).bind fun r ↦ ?_
    cases r with
    | none => exact (keeps_execBad ..).bind fun _ ↦ keeps_pure _
    | some t =>
      refine (Keeps.files (keeps_loadProgram ..)).bind fun r ↦ ?_
      obtain ⟨loaded, sz, t⟩ := r
      dsimp only
      split
      · exact (keeps_execBad ..).bind fun _ ↦ keeps_pure _
      refine (keeps_iput _).bind fun _ ↦ ?_
      refine (Keeps.files (keeps_buildStack ..)).bind fun r ↦ ?_
      obtain ⟨sp, sz, t⟩ := r
      dsimp only
      split
      · exact (keeps_execBad ..).bind fun _ ↦ keeps_pure _
      · exact (Keeps.files (keeps_procFreepagetable keeps_kfree ..)).bind fun _ ↦ keeps_pure _

theorem keeps_fetchArgs (fetch : ℕ → Fetch) (n i : ℕ) (argv : List (Page × List UInt8)) :
    (fetchArgs fetch n i argv).Keeps refState := by
  induction n generalizing i argv with
  | zero => exact keeps_pure _
  | succ n ih =>
    rw [fetchArgs]
    split
    · exact keeps_pure _
    · exact keeps_pure _
    · refine keeps_kalloc.bind fun r ↦ ?_
      cases r with
      | none => exact keeps_pure _
      | some pg =>
        dsimp only
        split
        · exact keeps_pure _
        · exact ih ..

theorem keeps_sysExec (trampoline : Page) (p : Proc) (path : Option (List UInt8))
    (namei : Option (Fin NINODE × List UInt8)) (fetch : ℕ → Fetch) :
    (sysExec trampoline p path namei fetch).Keeps fileState := by
  cases path with
  | none => exact keeps_pure _
  | some path =>
    have hfree : ∀ pgs, (forEach kfree pgs).Keeps fileState := fun pgs ↦
      Keeps.files (keeps_forEach keeps_kfree pgs)
    refine (Keeps.files (keeps_fetchArgs ..)).bind fun ⟨fetched, argv⟩ ↦ ?_
    dsimp only
    split
    · exact (hfree _).bind fun _ ↦ keeps_pure _
    · refine (keeps_exec ..).bind fun ret ↦ ?_
      exact (hfree _).bind fun _ ↦ keeps_pure _

end EnhancedXv6.Vm
