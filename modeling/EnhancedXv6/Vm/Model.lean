import EnhancedXv6.Vm.Table

/-!
# Virtual memory

The functions of vm.c that build, change, copy and free the page table of a process, as programs over
the state that the processes share.  A page table belongs to one process, so that it is passed as a
value and the changed one is returned.  Sizes and addresses are natural numbers: the tests on the
64-bit sums that can wrap around are made where the source makes them, in `growproc` and `exec`.

The loops over pages run as often as the loops of the source do.
-/

namespace EnhancedXv6.Vm

open Radix Memory Resource

/-- `walk` below a node of level `n`; `false` stands for 0. -/
def walkFrom (alloc : Bool) (path : ℕ → Fin 512) :
    (n : ℕ) → Tree Page (Fin 512) Pte (n + 1) →
      Prog Shared (Bool × Tree Page (Fin 512) Pte (n + 1))
  | 0, t => pure (true, t)
  | n + 1, t =>
    match t.entry (path (n + 1)) with
    | some child => do
      let (found, child) ← walkFrom alloc path n child
      pure (found, setEntry t (path (n + 1)) (some child))
    | none =>
      if alloc = true then do
        match ← kalloc with
        | none => pure (false, t)
        | some pagetable => do
          let (found, child) ← walkFrom alloc path n (empty n pagetable)
          pure (found, setEntry t (path (n + 1)) (some child))
      else pure (false, t)

/-- Whether `walk(pagetable, va, alloc)` finds an entry, and the table after it. -/
def walk (t : Table) (va : ℕ) (alloc : Bool) : Prog Shared (Bool × Table) :=
  if va ≥ MAXVA then .panic else walkFrom alloc (px va) 2 t

/-- The loop of `mappages`, with `n` pages after this one. -/
def mapLoop (perm : Perm) : ℕ → Table → ℕ → Page → Prog Shared (Bool × Table)
  | n, t, a, pa => do
    let (found, t) ← walk t a true
    if found = false then pure (false, t)
    else if (t.get a).isSome = true then .panic
    else
      let t := t.put a (some ⟨pa, perm⟩)
      match n with
      | 0 => pure (true, t)
      | n + 1 => mapLoop perm n t (a + PGSIZE) (pa + PGSIZE)

/-- `mappages(pagetable, va, size, pa, perm)`; `true` stands for 0.  Sums and products do not wrap here
and in `uvmunmap`: a range that passes `MAXVA` ends in a panic of `walk`, in the source too unless it
has about `2 ^ 64` bytes or more. -/
def mappages (t : Table) (va size : ℕ) (pa : Page) (perm : Perm) : Prog Shared (Bool × Table) :=
  if size = 0 then .panic
  else
    let a := pgRoundDown va
    let last := pgRoundDown (va + size - 1)
    mapLoop perm ((last - a) / PGSIZE) t a pa

def unmapLoop (doFree : Bool) : ℕ → Table → ℕ → Prog Shared Table
  | 0, t, _ => pure t
  | n + 1, t, a => do
    let (found, t) ← walk t a false
    if found = false then .panic
    else
      match t.get a with
      | none => .panic
      | some pte =>
        if pte.perm = {} then .panic
        else do
          if doFree = true then kfree pte.pa else pure ()
          unmapLoop doFree n (t.put a none) (a + PGSIZE)

def uvmunmap (t : Table) (va npages : ℕ) (doFree : Bool) : Prog Shared Table :=
  if va % PGSIZE ≠ 0 then .panic else unmapLoop doFree npages t va

def uvmcreate : Prog Shared (Option Table) := do
  match ← kalloc with
  | none => pure none
  | some pagetable => pure (some (empty 2 pagetable))

def uvmdealloc (t : Table) (oldsz newsz : ℕ) : Prog Shared (ℕ × Table) :=
  if newsz ≥ oldsz then pure (oldsz, t)
  else if pgRoundUp newsz < pgRoundUp oldsz then do
    let npages := (pgRoundUp oldsz - pgRoundUp newsz) / PGSIZE
    let t ← uvmunmap t (pgRoundUp newsz) npages true
    pure (newsz, t)
  else pure (newsz, t)

/-- A page is allocated, filled and mapped at `va`; if this fails, it is freed again. -/
def addPage (fill : Page → Prog Shared Unit) (t : Table) (va : ℕ) (perm : Perm) :
    Prog Shared (Bool × Table) := do
  match ← kalloc with
  | none => pure (false, t)
  | some mem => do
    fill mem
    let (mapped, t) ← mappages t va PGSIZE mem perm
    if mapped = false then do
      kfree mem
      pure (false, t)
    else pure (true, t)

/-- The loop of `uvmalloc`, for `n` pages from `a` on; `oldsz` is rounded up. -/
def allocLoop (oldsz newsz : ℕ) (perm : Perm) : ℕ → Table → ℕ → Prog Shared (ℕ × Table)
  | 0, t, _ => pure (newsz, t)
  | n + 1, t, a => do
    let (added, t) ← addPage memset t a perm
    if added = false then do
      let (_, t) ← uvmdealloc t a oldsz
      pure (0, t)
    else allocLoop oldsz newsz perm n t (a + PGSIZE)

/-- The number of rounds of `for(a = start; a < stop; a += PGSIZE)`. -/
def rounds (start stop : ℕ) : ℕ := (stop - start + PGSIZE - 1) / PGSIZE

/-- `uvmalloc(pagetable, oldsz, newsz, xperm)`; `xperm` has the bits `PTE_W` and `PTE_X`. -/
def uvmalloc (t : Table) (oldsz newsz : ℕ) (xperm : Perm) : Prog Shared (ℕ × Table) :=
  if newsz < oldsz then pure (oldsz, t)
  else
    let oldsz := pgRoundUp oldsz
    allocLoop oldsz newsz { xperm with r := true, u := true } (rounds oldsz newsz) t oldsz

@[irreducible] def indices (n : ℕ) : List (Fin n) := List.finRange n

def freewalk : (n : ℕ) → Tree Page (Fin 512) Pte (n + 1) → Prog Shared Unit
  | 0, t => do
    Prog.forEach (fun i ↦ if (t.entry i).isSome = true then .panic else pure ()) (indices 512)
    kfree t.label
  | n + 1, t => do
    Prog.forEach
      (fun i ↦
        match t.entry i with
        | none => pure ()
        | some child => freewalk n child)
      (indices 512)
    kfree t.label

def uvmfree (t : Table) (sz : ℕ) : Prog Shared Unit := do
  let t ← if sz > 0 then uvmunmap t 0 (pgRoundUp sz / PGSIZE) true else pure t
  freewalk 2 t

/-- The loop of `uvmcopy`, for `n` pages from `i` on; `true` stands for 0. -/
def copyLoop (old : Table) : ℕ → Table → ℕ → Prog Shared (Bool × Table)
  | 0, new, _ => pure (true, new)
  | n + 1, new, i => do
    let (found, _) ← walk old i false
    if found = false then .panic
    else
      match old.get i with
      | none => .panic
      | some pte => do
        let (copied, new) ← addPage (fun mem ↦ memmove mem pte.pa) new i pte.perm
        if copied = false then do
          let new ← uvmunmap new 0 (i / PGSIZE) true
          pure (false, new)
        else copyLoop old n new (i + PGSIZE)

def uvmcopy (old new : Table) (sz : ℕ) : Prog Shared (Bool × Table) :=
  copyLoop old (rounds 0 sz) new 0

def uvmclear (t : Table) (va : ℕ) : Prog Shared Table := do
  let (found, t) ← walk t va false
  if found = false then .panic
  else
    match t.get va with
    | none => pure t
    | some pte => pure (t.put va (some { pte with perm := { pte.perm with u := false } }))

/-- `walkaddr(pagetable, va)`; `none` stands for 0.  A user page at physical address 0 would be `some 0`
here and count as not mapped in the source; `kalloc` never returns it. -/
def walkaddr (t : Table) (va : ℕ) : Option Page :=
  if va ≥ MAXVA then none
  else
    match t.get va with
    | none => none
    | some pte => if pte.perm.u = true then some pte.pa else none

/-! ## The page table of a process -/

/-- `proc_pagetable(p)`, for the page of trampoline.S and `p->trapframe`. -/
def procPagetable (trampoline trapframe : Page) : Prog Shared (Option Table) := do
  match ← uvmcreate with
  | none => pure none
  | some t => do
    let (mapped, t) ← mappages t TRAMPOLINE PGSIZE trampoline { r := true, x := true }
    if mapped = false then do
      uvmfree t 0
      pure none
    else do
      let (mapped, t) ← mappages t TRAPFRAME PGSIZE trapframe { r := true, w := true }
      if mapped = false then do
        let t ← uvmunmap t TRAMPOLINE 1 false
        uvmfree t 0
        pure none
      else pure (some t)

def procFreepagetable (t : Table) (sz : ℕ) : Prog Shared Unit := do
  let t ← uvmunmap t TRAMPOLINE 1 false
  let t ← uvmunmap t TRAPFRAME 1 false
  uvmfree t sz

end EnhancedXv6.Vm
