import EnhancedXv6.Vm.Copy

/-!
# exec

`exec` and `loadseg` of exec.c and `sys_exec`.  The file is the list of its bytes, which stay the same
while `exec` holds the lock of the inode; headers are decoded from them, so that their fields are
arbitrary numbers of 16, 32 or 64 bits.  What `namei` finds for the path and what the user has at the
addresses of the arguments are parameters.
-/

namespace EnhancedXv6.Vm

open Radix Memory Resource Kernel Trap

abbrev MAXARG : ℕ := 32
abbrev MAGIC : ℕ := 0x464C457F
abbrev LOAD : ℕ := 1

/-! ## Files -/

/-- The number that `n` bytes from `off` on are, little endian. -/
def le (bytes : List UInt8) (off n : ℕ) : ℕ :=
  ((bytes.drop off).take n).foldr (fun b rest ↦ b.toNat + 256 * rest) 0

theorem foldr_bytes_lt (bytes : List UInt8) :
    bytes.foldr (fun b rest ↦ b.toNat + 256 * rest) 0 < 256 ^ bytes.length := by
  induction bytes with
  | nil => decide
  | cons b bytes ih =>
    have hb := b.toNat_lt
    rw [List.foldr_cons, List.length_cons, Nat.pow_succ]
    omega

theorem le_lt (bytes : List UInt8) (off n : ℕ) : le bytes off n < 256 ^ n := by
  refine (foldr_bytes_lt _).trans_le (Nat.pow_le_pow_right (by decide) ?_)
  exact List.length_take_le n _

def doubleword (value : ℕ) : List UInt8 := (List.range 8).map fun i ↦ .ofNat (value / 256 ^ i)

/-- The bytes that `readi(ip, 0, dst, off, n)` copies. -/
def readi (file : List UInt8) (off n : ℕ) : List UInt8 :=
  if off > file.length ∨ (off + n) % 2 ^ 32 < off then [] else (file.drop off).take n

/-- `struct elfhdr`, as far as `exec` reads it. -/
structure Elfhdr where
  magic : ℕ
  entry : ℕ
  phoff : ℕ
  phnum : ℕ

abbrev ELFHDR : ℕ := 64

def Elfhdr.decode (bytes : List UInt8) : Elfhdr where
  magic := le bytes 0 4
  entry := le bytes 24 8
  phoff := le bytes 32 8
  phnum := le bytes 56 2

/-- `struct proghdr`, as far as `exec` reads it. -/
structure Proghdr where
  type : ℕ
  flags : ℕ
  off : ℕ
  vaddr : ℕ
  filesz : ℕ
  memsz : ℕ

abbrev PROGHDR : ℕ := 56

def Proghdr.decode (bytes : List UInt8) : Proghdr where
  type := le bytes 0 4
  flags := le bytes 4 4
  off := le bytes 8 8
  vaddr := le bytes 16 8
  filesz := le bytes 32 8
  memsz := le bytes 40 8

def flags2perm (flags : ℕ) : Perm where
  x := flags.testBit 0
  w := flags.testBit 1

/-! ## Code -/

/-- The loop of `loadseg`, for `n` pages from `va + i` on; `true` stands for 0. -/
def loadLoop (t : Table) (va : ℕ) (file : List UInt8) (offset sz : ℕ) : ℕ → ℕ → Prog Shared Bool
  | 0, _ => pure true
  | rounds + 1, i =>
    match walkaddr t (va + i) with
    | none => .panic
    | some pa => do
      let n := if sz - i < PGSIZE then sz - i else PGSIZE
      let bytes := readi file ((offset + i) % 2 ^ 32) n
      writePage pa 0 bytes
      if bytes.length ≠ n then pure false
      else loadLoop t va file offset sz rounds (i + PGSIZE)

/-- `loadseg(pagetable, va, ip, offset, sz)`; `offset` and `sz` have 32 bits. -/
def loadseg (t : Table) (va : ℕ) (file : List UInt8) (offset sz : ℕ) : Prog Shared Bool :=
  loadLoop t va file offset sz (rounds 0 sz) 0

/-- The loop of `exec` over the program headers, for `n` headers from `off` on: whether it has come to
its end, `sz` and the table. -/
def loadProgram (file : List UInt8) : ℕ → ℕ → ℕ → Table → Prog Shared (Bool × ℕ × Table)
  | 0, _, sz, t => pure (true, sz, t)
  | n + 1, off, sz, t =>
    let bytes := readi file off PROGHDR
    let ph := Proghdr.decode bytes
    if bytes.length ≠ PROGHDR then pure (false, sz, t)
    else if ph.type ≠ LOAD then loadProgram file n ((off + PROGHDR) % 2 ^ 32) sz t
    else if ph.memsz < ph.filesz then pure (false, sz, t)
    else if (ph.vaddr + ph.memsz) % 2 ^ 64 < ph.vaddr then pure (false, sz, t)
    else if ph.vaddr % PGSIZE ≠ 0 then pure (false, sz, t)
    else do
      let (sz1, t) ← uvmalloc t sz ((ph.vaddr + ph.memsz) % 2 ^ 64) (flags2perm ph.flags)
      if sz1 = 0 then pure (false, sz, t)
      else do
        let loaded ← loadseg t ph.vaddr file (ph.off % 2 ^ 32) (ph.filesz % 2 ^ 32)
        if loaded = false then pure (false, sz1, t)
        else loadProgram file n ((off + PROGHDR) % 2 ^ 32) sz1 t

/-- The loop of `exec` that pushes the argument strings: `sp` and `ustack` at its end. -/
def pushArgs (t : Table) (stackbase : ℕ) :
    List (List UInt8) → ℕ → ℕ → List ℕ → Prog Shared (Option (ℕ × List ℕ))
  | [], _, sp, ustack => pure (some (sp, ustack))
  | arg :: argv, argc, sp, ustack =>
    if argc ≥ MAXARG then pure none
    else
      let sp := sp - (arg.length + 1)
      let sp := sp - sp % 16
      if sp < stackbase then pure none
      else do
        let copied ← copyout t sp (arg ++ [0])
        if copied = false then pure none
        else pushArgs t stackbase argv (argc + 1) sp (ustack ++ [sp])

/-- `exec` pushes the array of pointers: `sp` at the end. -/
def pushPointers (t : Table) (stackbase sp : ℕ) (ustack : List ℕ) : Prog Shared (Option ℕ) :=
  let sp := sp - (ustack.length + 1) * 8
  let sp := sp - sp % 16
  if sp < stackbase then pure none
  else do
    let copied ← copyout t sp ((ustack ++ [0]).flatMap doubleword)
    if copied = false then pure none else pure (some sp)

def pushStack (t : Table) (sz : ℕ) (argv : List (List UInt8)) : Prog Shared (Option ℕ) := do
  let stackbase := sz - PGSIZE
  match ← pushArgs t stackbase argv 0 sz [] with
  | none => pure none
  | some pushed => pushPointers t stackbase pushed.1 pushed.2

/-- `exec` from the allocation of the stack to its last `goto bad`: `sp` unless it goes there, `sz` and
the table. -/
def buildStack (t : Table) (sz : ℕ) (argv : List (List UInt8)) :
    Prog Shared (Option ℕ × ℕ × Table) := do
  let sz := pgRoundUp sz
  let (sz1, t) ← uvmalloc t sz (sz + 2 * PGSIZE) { w := true }
  if sz1 = 0 then pure (none, sz, t)
  else do
    let t ← uvmclear t (sz1 - 2 * PGSIZE)
    let sp ← pushStack t sz1 argv
    pure (sp, sz1, t)

/-- The end of `exec` after `bad`. -/
def execBad (pagetable : Option Table) (sz : ℕ) (ip : Option (Fin NINODE)) : Prog Shared Unit := do
  Prog.forSome (fun t ↦ procFreepagetable t sz) pagetable
  Prog.forSome iput ip

def last (path : List UInt8) : List UInt8 := (path.reverse.takeWhile (· ≠ 0x2f)).reverse

def commit (p : Proc) (path : List UInt8) (entry : ℕ) (t : Table) (sz sp : ℕ) : Proc :=
  { p with
    user :=
      { pc := .ofNat entry
        regs := Function.update (Function.update p.user.regs .a1 (.ofNat sp)) .sp (.ofNat sp) }
    name := safestrcpy (last path) 16
    pagetable := t
    sz
    guard := some (sz / PGSIZE - 2) }

/-- `exec(path, argv)` of `p`, where `namei` finds the inode with its file: `argc` or, for -1, `none`,
and the process. -/
def exec (trampoline : Page) (p : Proc) (path : List UInt8)
    (namei : Option (Fin NINODE × List UInt8)) (argv : List (List UInt8)) :
    Prog Shared (Option ℕ × Proc) :=
  match namei with
  | none => pure (none, p)
  | some (ip, file) => do
    idup ip
    let bytes := readi file 0 ELFHDR
    let elf := Elfhdr.decode bytes
    if bytes.length ≠ ELFHDR ∨ elf.magic ≠ MAGIC then do
      execBad none 0 (some ip)
      pure (none, p)
    else do
      match ← procPagetable trampoline p.trapframe with
      | none => do
        execBad none 0 (some ip)
        pure (none, p)
      | some t => do
        let (loaded, sz, t) ← loadProgram file elf.phnum (elf.phoff % 2 ^ 32) 0 t
        if loaded = false then do
          execBad (some t) sz (some ip)
          pure (none, p)
        else do
          iput ip
          let (sp, sz, t) ← buildStack t sz argv
          match sp with
          | none => do
            execBad (some t) sz none
            pure (none, p)
          | some sp => do
            procFreepagetable p.pagetable p.sz
            pure (some argv.length, commit p path elf.entry t sz sp)

/-- What `sys_exec` finds for an argument: `fetchaddr` fails, the end of the list, or a string that
`fetchstr` copies unless it fails. -/
inductive Fetch
  | bad
  | null
  | str (s : Option (List UInt8))

/-- The loop of `sys_exec`, with `n` entries of `argv` left: whether it comes to the end of the
arguments, and the pages of `argv` with the strings in them. -/
def fetchArgs (fetch : ℕ → Fetch) :
    ℕ → ℕ → List (Page × List UInt8) → Prog Shared (Bool × List (Page × List UInt8))
  | 0, _, argv => pure (false, argv)
  | n + 1, i, argv =>
    match fetch i with
    | .bad => pure (false, argv)
    | .null => pure (true, argv)
    | .str s => do
      match ← kalloc with
      | none => pure (false, argv)
      | some pg =>
        match s with
        | none => pure (false, argv ++ [(pg, [])])
        | some s => fetchArgs fetch n (i + 1) (argv ++ [(pg, s)])

/-- `sys_exec()`; without a path, `argstr` has failed. -/
def sysExec (trampoline : Page) (p : Proc) (path : Option (List UInt8))
    (namei : Option (Fin NINODE × List UInt8)) (fetch : ℕ → Fetch) :
    Prog Shared (Option ℕ × Proc) :=
  match path with
  | none => pure (none, p)
  | some path => do
    let (fetched, argv) ← fetchArgs fetch MAXARG 0 []
    if fetched = false then do
      Prog.forEach kfree (argv.map Prod.fst)
      pure (none, p)
    else do
      let ret ← exec trampoline p path namei (argv.map Prod.snd)
      Prog.forEach kfree (argv.map Prod.fst)
      pure ret

/-! ## Loading -/

variable {ram : Ram} {h : Held} {trampoline : Page} {p : Proc} {ups : List UPage} {t : Table}
  {m : ℕ → Option Pte}

theorem walkaddr_of_user {k : ℕ} {u : UPage} (hm : Maps t (overlay m 0 ups)) (hk : k < VAPAGES)
    (hu : ups[k]? = some u) (huser : u.perm.u = true) : walkaddr t (k * PGSIZE) = some u.pa := by
  have hget : t.get (k * PGSIZE) = some u.pte := by
    rw [hm k (vapages_lt hk), overlay, if_neg (Nat.not_lt_zero k), Nat.sub_zero, hu,
      Option.elim_some]
  rw [walkaddr, if_neg (lt_maxva hk), hget]
  exact if_pos huser

theorem wp_loadLoop {k j rounds offset sz : ℕ} {file : List UInt8} {Q : Bool → Held → Prop}
    (hm : Maps t (overlay m 0 ups)) (huser : ∀ u ∈ ups, u.perm.u = true)
    (hroom : ∀ i, i < j + rounds → k + i < ups.length)
    (hQ : ∀ loaded ups', SamePtes ups' ups → Q loaded (dataOf ups' + h)) :
    (loadLoop t (k * PGSIZE) file offset sz rounds (j * PGSIZE)).wp (Balanced ram) Q
      (dataOf ups + h) := by
  induction rounds generalizing j ups with
  | zero => exact Prog.wp_pure (hQ true ups rfl)
  | succ rounds ih =>
    apply Prog.wp_of_possible
    intro hpossible
    have hcard := card_le_of_possible hpossible
    simp only [pagesOf_add, Multiset.card_add, card_pagesOf_dataOf] at hcard
    have hmax : RAMPAGES ≤ VAPAGES := by decide
    have hlt : k + j < ups.length := hroom j (by omega)
    obtain ⟨u, hu⟩ : ∃ u, ups[k + j]? = some u := ⟨_, List.getElem?_eq_getElem hlt⟩
    have hwalk : walkaddr t (k * PGSIZE + j * PGSIZE) = some u.pa := by
      rw [← Nat.add_mul]
      exact walkaddr_of_user hm (by omega) hu (huser u (List.mem_of_getElem? hu))
    rw [loadLoop, hwalk]
    simp only
    generalize (if sz - j * PGSIZE < PGSIZE then sz - j * PGSIZE else PGSIZE) = n
    apply Prog.wp_bind
    apply wp_writePage hu
    intro ups' hsame
    split
    · exact Prog.wp_pure (hQ false ups' hsame)
    · rw [← Nat.succ_mul]
      apply ih
      · rwa [overlay_eq_of_samePtes hsame]
      · intro u' hu'
        obtain ⟨i, hi⟩ := List.mem_iff_getElem?.mp hu'
        obtain ⟨u'', hu'', hpte⟩ := hsame.exists_getElem? hi
        rw [show u'.perm = u''.perm from congrArg Pte.perm hpte]
        exact huser u'' (List.mem_of_getElem? hu'')
      · intro i hi
        rw [hsame.length]
        exact hroom i (by omega)
      · intro loaded ups'' hsame'
        exact hQ loaded ups'' (hsame'.trans hsame)

/-- The process `p` with another page table, while `exec` builds it. -/
def Proc.building (p : Proc) (t : Table) (sz : ℕ) : Proc :=
  { p with pagetable := t, sz, guard := none }

theorem Image.all_user {sz : ℕ} (himage : Image trampoline (p.building t sz) ups) :
    ∀ u ∈ ups, u.perm.u = true := by
  intro u hu
  obtain ⟨k, hk⟩ := List.mem_iff_getElem?.mp hu
  exact (himage.user k u hk).mpr nofun

/-- A segment is loaded where there are pages for it. -/
theorem wp_loadseg {va offset sz filesz : ℕ} {file : List UInt8} {Q : Bool → Held → Prop}
    (himage : Image trampoline (p.building t sz) ups) (hva : va % PGSIZE = 0)
    (hfits : va + filesz ≤ sz)
    (hQ : ∀ loaded ups', SamePtes ups' ups → Q loaded (dataOf ups' + h)) :
    (loadseg t va file offset filesz).wp (Balanced ram) Q (dataOf ups + h) := by
  have hpage : va = va / PGSIZE * PGSIZE := by
    rw [Nat.div_mul_cancel (Nat.dvd_of_mod_eq_zero hva)]
  rw [loadseg, hpage, ← Nat.zero_mul PGSIZE]
  apply wp_loadLoop himage.maps himage.all_user _ hQ
  intro i hi
  have hlt : (va / PGSIZE + i) * PGSIZE < sz := by
    rw [Nat.add_mul, ← hpage]
    simp only [rounds, PGSIZE] at hi ⊢
    omega
  exact Nat.lt_of_lt_of_eq (lt_pageCount hlt) himage.size.symm

/-- `uvmalloc` for the image that `exec` builds. -/
theorem wp_uvmalloc_building {sz newsz : ℕ} {xperm : Perm} {Q : ℕ × Table → Held → Prop}
    (himage : Image trampoline (p.building t sz) ups)
    (hfail : ∀ t', Image trampoline (p.building t' sz) ups →
      Q (0, t') (res t' + dataOf ups + h))
    (hok : ∀ t' new, Image trampoline (p.building t' (max sz newsz)) (ups ++ new) →
      Q (max sz newsz, t') (res t' + dataOf (ups ++ new) + h)) :
    (uvmalloc t sz newsz xperm).wp (Balanced ram) Q (res t + dataOf ups + h) := by
  by_cases hle : sz ≤ newsz
  · rw [Multiset.add_assoc]
    apply wp_uvmalloc himage.maps hle
    · intro k hlow hk
      exact overlay_layout_eq_none (himage.size.trans_le hlow) hk
    · rw [pagesOf_add, Multiset.card_add, card_pagesOf_dataOf, himage.size]
      exact Nat.le_add_right _ _
    · intro t' hm
      rw [← Multiset.add_assoc]
      exact hfail t' { himage with maps := hm }
    · intro t' new hm hsz hfresh
      have hsize : ups.length = pageCount sz := himage.size
      rw [← hsize] at hsz hm
      have hm' : Maps t' (overlay (layout trampoline p.trapframe) 0 (ups ++ new)) := by
        rwa [overlay_append, Nat.zero_add]
      have hheld : res t' + dataOf new + (dataOf ups + h) = res t' + dataOf (ups ++ new) + h := by
        rw [dataOf_append]
        ac_rfl
      have hdone := hok t' new
      rw [Nat.max_eq_right hle] at hdone
      rw [hheld]
      exact hdone (himage.append hsz hm' hfresh)
  · have hdone := hok t []
    rw [Nat.max_eq_left (by omega), List.append_nil] at hdone
    rw [uvmalloc, if_pos (by omega)]
    exact Prog.wp_pure (hdone himage)

/-- The loop over the program headers keeps the image well formed. -/
theorem wp_loadProgram {file : List UInt8} {n off sz : ℕ} {Q : Bool × ℕ × Table → Held → Prop}
    (himage : Image trampoline (p.building t sz) ups)
    (hQ : ∀ loaded sz' t' ups', Image trampoline (p.building t' sz') ups' →
      Q (loaded, sz', t') (res t' + dataOf ups' + h)) :
    (loadProgram file n off sz t).wp (Balanced ram) Q (res t + dataOf ups + h) := by
  induction n generalizing off sz t ups with
  | zero => exact Prog.wp_pure (hQ true sz t ups himage)
  | succ n ih =>
    have hstop := Prog.wp_pure (W := Balanced ram) (hQ false sz t ups himage)
    have hmax : (Proghdr.decode (readi file off PROGHDR)).memsz < 2 ^ 64 := le_lt _ 40 8
    rw [loadProgram]
    simp only
    generalize Proghdr.decode (readi file off PROGHDR) = ph at hmax ⊢
    split
    · exact hstop
    split
    · exact ih himage
    split
    · exact hstop
    rename_i hmemsz
    split
    · exact hstop
    rename_i hwrap
    split
    · exact hstop
    rename_i haligned
    apply Prog.wp_bind
    apply wp_uvmalloc_building himage
    · intro t' himage'
      exact Prog.wp_pure (hQ false sz t' ups himage')
    intro t' new himage'
    simp only
    split
    · -- a first segment of size 0 at address 0
      have hsz : max sz ((ph.vaddr + ph.memsz) % 2 ^ 64) = sz := by omega
      rw [hsz] at himage'
      exact Prog.wp_pure (hQ false sz t' _ himage')
    · have hfits : ph.vaddr + ph.filesz % 2 ^ 32 ≤
          max sz ((ph.vaddr + ph.memsz) % 2 ^ 64) := by
        omega
      have hheld : ∀ ups', res t' + dataOf ups' + h = dataOf ups' + (res t' + h) := by
        intro ups'
        ac_rfl
      rw [hheld]
      apply Prog.wp_bind
      apply wp_loadseg himage' (by omega) hfits
      intro loaded ups' hsame
      rw [← hheld]
      have himage'' := himage'.of_samePtes hsame
      cases loaded with
      | false => exact Prog.wp_pure (hQ false _ t' ups' himage'')
      | true => exact ih himage''

/-! ## The stack -/

theorem overlay_set {k : ℕ} {u : UPage} (hk : k < ups.length) :
    overlay m 0 (ups.set k u) = Function.update (overlay m 0 ups) k (some u.pte) := by
  funext i
  by_cases hi : i = k
  · subst hi
    simp [overlay, hk]
  · simp [overlay, hi, Ne.symm hi]

/-- The guard page is taken from the user. -/
theorem Image.clear {k : ℕ} {u : UPage} {sz : ℕ} {t' : Table}
    (himage : Image trampoline (p.building t sz) ups) (hu : ups[k]? = some u)
    (hm : Maps t' (Function.update (overlay (layout trampoline p.trapframe) 0 ups) k
      (some ⟨u.pa, { u.perm with u := false }⟩))) :
    Image trampoline { p with pagetable := t', sz, guard := some k }
      (ups.set k { u with perm := { u.perm with u := false } }) := by
  obtain ⟨hk, -⟩ := List.getElem?_eq_some_iff.mp hu
  refine ⟨by rw [List.length_set]; exact himage.size, ?_, fun u' hu' ↦ ?_, fun i u' hu' ↦ ?_,
    fun i hi ↦ ?_⟩
  · rw [overlay_set hk]
    exact hm
  · rcases List.mem_or_eq_of_mem_set hu' with hu' | rfl
    · exact himage.readable u' hu'
    · exact himage.readable u (List.mem_of_getElem? hu)
  · by_cases hi : i = k
    · subst hi
      rw [List.getElem?_set_self hk, Option.some.injEq] at hu'
      subst hu'
      simp
    · rw [List.getElem?_set_ne (Ne.symm hi)] at hu'
      have huser := himage.all_user u' (List.mem_of_getElem? hu')
      simp [huser, Ne.symm hi]
  · obtain rfl := Option.some.inj hi
    rw [List.length_set]
    exact hk

theorem wp_uvmclear {k : ℕ} {u : UPage} {sz : ℕ} {Q : Table → Held → Prop}
    (himage : Image trampoline (p.building t sz) ups) (hk : k < VAPAGES) (hu : ups[k]? = some u)
    (hQ : ∀ t' ups', Image trampoline { p with pagetable := t', sz, guard := some k } ups' →
      Q t' (res t' + dataOf ups' + h)) :
    (uvmclear t (k * PGSIZE)).wp (Balanced ram) Q (res t + dataOf ups + h) := by
  have hm : Maps t (overlay (layout trampoline p.trapframe) 0 ups) := himage.maps
  have hget : t.get (k * PGSIZE) = some u.pte := by
    rw [hm k (vapages_lt hk), overlay, if_neg (Nat.not_lt_zero k), Nat.sub_zero, hu,
      Option.elim_some]
  obtain ⟨hwalk, hpath⟩ := walk_of_get hk hget
  obtain ⟨hlt, -⟩ := List.getElem?_eq_some_iff.mp hu
  rw [uvmclear, hwalk, Prog.pure_bind]
  simp only [Bool.true_eq_false, if_false, hget]
  apply Prog.wp_pure
  have hdone := hQ _ _ (himage.clear hu (hm.put (vapages_lt hk) hpath _))
  rw [dataOf_set _ hlt, res_put] at hdone
  rw [dataOf_split hu]
  exact hdone

theorem wp_pushArgs {argv : List (List UInt8)} {stackbase argc sp : ℕ} {ustack : List ℕ}
    {Q : Option (ℕ × List ℕ) → Held → Prop} (hm : Maps t (overlay m 0 ups)) (hno : NoUser m)
    (hQ : ∀ pushed ups', SamePtes ups' ups → Q pushed (dataOf ups' + h)) :
    (pushArgs t stackbase argv argc sp ustack).wp (Balanced ram) Q (dataOf ups + h) := by
  induction argv generalizing argc sp ustack ups with
  | nil => exact Prog.wp_pure (hQ _ ups rfl)
  | cons arg argv ih =>
    rw [pushArgs]
    simp only
    split
    · exact Prog.wp_pure (hQ none ups rfl)
    split
    · exact Prog.wp_pure (hQ none ups rfl)
    apply Prog.wp_bind
    apply wp_copyout hm hno
    intro copied ups' hsame
    cases copied with
    | false => exact Prog.wp_pure (hQ none ups' hsame)
    | true =>
      simp only [Bool.true_eq_false, if_false]
      apply ih
      · rwa [overlay_eq_of_samePtes hsame]
      · intro pushed ups'' hsame'
        exact hQ pushed ups'' (hsame'.trans hsame)

theorem wp_pushPointers {stackbase sp : ℕ} {ustack : List ℕ} {Q : Option ℕ → Held → Prop}
    (hm : Maps t (overlay m 0 ups)) (hno : NoUser m)
    (hQ : ∀ pushed ups', SamePtes ups' ups → Q pushed (dataOf ups' + h)) :
    (pushPointers t stackbase sp ustack).wp (Balanced ram) Q (dataOf ups + h) := by
  rw [pushPointers]
  split
  · exact Prog.wp_pure (hQ none ups rfl)
  · refine Prog.wp_bind (wp_copyout hm hno fun copied ups' hsame ↦ ?_)
    split
    · exact Prog.wp_pure (hQ none ups' hsame)
    · exact Prog.wp_pure (hQ _ ups' hsame)

theorem wp_pushStack {argv : List (List UInt8)} {sz : ℕ} {Q : Option ℕ → Held → Prop}
    (hm : Maps t (overlay m 0 ups)) (hno : NoUser m)
    (hQ : ∀ pushed ups', SamePtes ups' ups → Q pushed (dataOf ups' + h)) :
    (pushStack t sz argv).wp (Balanced ram) Q (dataOf ups + h) := by
  rw [pushStack]
  apply Prog.wp_bind
  apply wp_pushArgs hm hno
  intro pushed ups' hsame
  cases pushed with
  | none => exact Prog.wp_pure (hQ none ups' hsame)
  | some pushed =>
    simp only
    have hm' : Maps t (overlay m 0 ups') := by rwa [overlay_eq_of_samePtes hsame]
    generalize sz - PGSIZE = stackbase
    apply wp_pushPointers hm' hno
    intro pushed' ups'' hsame'
    exact hQ pushed' ups'' (hsame'.trans hsame)

/-- The stack is two pages, the first of which is the guard page. -/
theorem wp_buildStack {argv : List (List UInt8)} {sz : ℕ} {Q : Option ℕ × ℕ × Table → Held → Prop}
    (himage : Image trampoline (p.building t sz) ups)
    (hfail : ∀ sz' t' guard ups',
      Image trampoline { p with pagetable := t', sz := sz', guard } ups' →
        Q (none, sz', t') (res t' + dataOf ups' + h))
    (hok : ∀ sp sz' t' ups',
      Image trampoline { p with pagetable := t', sz := sz', guard := some (sz' / PGSIZE - 2) } ups' →
        Q (some sp, sz', t') (res t' + dataOf ups' + h)) :
    (buildStack t sz argv).wp (Balanced ram) Q (res t + dataOf ups + h) := by
  have hcount : pageCount (pgRoundUp sz) = pageCount sz := by
    rw [pgRoundUp_eq, pageCount_page]
  have himage' : Image trampoline (p.building t (pgRoundUp sz)) ups :=
    { himage with size := himage.size.trans hcount.symm }
  rw [buildStack]
  apply Prog.wp_bind
  apply wp_uvmalloc_building himage'
  · intro t' himage'
    exact Prog.wp_pure (hfail _ t' none ups himage')
  intro t' new himage'
  have hsz : max (pgRoundUp sz) (pgRoundUp sz + 2 * PGSIZE) = (pageCount sz + 2) * PGSIZE := by
    rw [Nat.max_eq_right (Nat.le_add_right _ _), pgRoundUp_eq, Nat.add_mul]
  simp only [hsz] at himage' ⊢
  have hpos : (pageCount sz + 2) * PGSIZE ≠ 0 := by simp
  have hbelow : (pageCount sz + 2) * PGSIZE - 2 * PGSIZE = pageCount sz * PGSIZE := by
    rw [← Nat.sub_mul, Nat.add_sub_cancel]
  have hguard : (pageCount sz + 2) * PGSIZE / PGSIZE - 2 = pageCount sz := by
    rw [Nat.mul_div_cancel _ (by decide), Nat.add_sub_cancel]
  have hlen : (ups ++ new).length = pageCount sz + 2 :=
    himage'.size.trans (pageCount_page (pageCount sz + 2))
  have hu := List.getElem?_eq_getElem (l := ups ++ new) (i := pageCount sz) (by omega)
  rw [if_neg hpos, hbelow]
  apply Prog.wp_of_possible
  intro hpossible
  have hcard := card_le_of_possible hpossible
  simp only [pagesOf_add, Multiset.card_add, card_pagesOf_dataOf] at hcard
  have hmax : RAMPAGES ≤ VAPAGES := by decide
  apply Prog.wp_bind
  apply wp_uvmclear himage' (by omega) hu
  intro t'' ups' himage''
  have hheld : ∀ ups', res t'' + dataOf ups' + h = dataOf ups' + (res t'' + h) := by
    intro ups'
    ac_rfl
  rw [hheld]
  apply Prog.wp_bind
  apply wp_pushStack himage''.maps (noUser_layout _ _)
  intro pushed ups'' hsame
  rw [← hheld]
  have hdone := himage''.of_samePtes hsame
  apply Prog.wp_pure
  cases pushed with
  | none => exact hfail _ t'' _ ups'' hdone
  | some sp =>
    apply hok sp _ t'' ups''
    rwa [hguard]

/-! ## exec -/

/-- After `bad`, the image that was built is freed. -/
theorem wp_execBad {sz : ℕ} {guard : Option ℕ} {ip : Option (Fin NINODE)} {Q : Unit → Held → Prop}
    (himage : Image trampoline { p with pagetable := t, sz, guard } ups) (hQ : Q () h) :
    (execBad (some t) sz ip).wp (Balanced ram) Q (res t + dataOf ups + (h + cwdHeld ip)) := by
  rw [execBad]
  apply Prog.wp_bind
  apply wp_procFreepagetable himage.size himage.maps (perm_ne himage.readable)
  cases ip with
  | none =>
    rw [cwdHeld, Option.elim_none, Multiset.add_zero]
    exact Prog.wp_pure hQ
  | some ip => exact wp_iput hQ

/-- `exec` fails with the process as it was, or returns `argc` with a new image that has no page of the
old one. -/
theorem wp_exec {path : List UInt8} {namei : Option (Fin NINODE × List UInt8)}
    {argv : List (List UInt8)} {Q : Option ℕ × Proc → Held → Prop}
    (himage : Image trampoline p ups) (hfail : Q (none, p) (p.holds ups + h))
    (hok : ∀ ip file t sz sp ups', namei = some (ip, file) →
      let p' := commit p path (Elfhdr.decode (readi file 0 ELFHDR)).entry t sz sp
      Image trampoline p' ups' →
      Disjoint (pagesOf (res p.pagetable + dataOf ups)) (pagesOf (res t + dataOf ups')) →
      Q (some argv.length, p') (p'.holds ups' + h)) :
    (exec trampoline p path namei argv).wp (Balanced ram) Q (p.holds ups + h) := by
  cases namei with
  | none => exact Prog.wp_pure hfail
  | some found =>
    obtain ⟨ip, file⟩ := found
    rw [exec]
    simp only
    apply Prog.wp_bind
    apply wp_idup
    split
    · apply Prog.wp_bind
      exact Prog.wp_bind (Prog.wp_pure (wp_iput (Prog.wp_pure hfail)))
    apply Prog.wp_bind
    apply wp_procPagetable
    · apply Prog.wp_bind
      exact Prog.wp_bind (Prog.wp_pure (wp_iput (Prog.wp_pure hfail)))
    intro t hm
    have hnew : Image trampoline (p.building t 0) [] := by
      refine ⟨(pageCount_page 0).symm, ?_, fun u hu ↦ absurd hu List.not_mem_nil, nofun, nofun⟩
      rwa [overlay_nil]
    apply Prog.wp_bind
    rw [← Multiset.add_zero (res t), ← dataOf_nil]
    apply wp_loadProgram hnew
    intro loaded sz t ups' himage'
    cases loaded with
    | false =>
      apply Prog.wp_bind
      exact wp_execBad himage' (Prog.wp_pure hfail)
    | true =>
      simp only [Bool.true_eq_false, if_false]
      apply Prog.wp_bind
      rw [← Multiset.add_assoc]
      apply wp_iput
      apply Prog.wp_bind
      apply wp_buildStack himage'
      · intro sz' t' guard ups'' himage''
        apply Prog.wp_bind
        rw [← Multiset.add_zero (p.holds ups + h)]
        exact wp_execBad himage'' (Prog.wp_pure hfail)
      · intro sp sz' t' ups'' himage''
        have hheld : res t' + dataOf ups'' + (p.holds ups + h) =
            res p.pagetable + dataOf ups + (res t' + dataOf ups'' + p.keeps + h) := by
          rw [Proc.holds]
          ac_rfl
        simp only
        rw [hheld]
        apply Prog.wp_of_possible
        intro hpossible
        rw [Multiset.add_assoc (res t' + dataOf ups'')] at hpossible
        have hdisjoint := disjoint_of_possible hpossible
        apply Prog.wp_bind
        apply wp_procFreepagetable himage.size himage.maps (perm_ne himage.readable)
        apply Prog.wp_pure
        exact hok ip file t' sz' sp ups'' rfl { himage'' with } hdisjoint

/-! ## sys_exec -/

def argvHeld (argv : List (Page × List UInt8)) : Held := ((argv.map fun arg ↦ .page arg.1 : List Token))

theorem argvHeld_concat (argv : List (Page × List UInt8)) (pg : Page) (s : List UInt8) :
    argvHeld (argv ++ [(pg, s)]) = argvHeld argv + {.page pg} := by
  rw [argvHeld, List.map_append, ← Multiset.coe_add]
  rfl

/-- The strings `argv` are those that the user has passed. -/
structure Fetched (fetch : ℕ → Fetch) (argv : List (List UInt8)) : Prop where
  strings : ∀ i s, argv[i]? = some s → fetch i = .str (some s)
  stop : fetch argv.length = .null

theorem wp_fetchArgs {fetch : ℕ → Fetch} {n : ℕ} {argv : List (Page × List UInt8)}
    {Q : Bool × List (Page × List UInt8) → Held → Prop}
    (hargv : ∀ i s, (argv.map Prod.snd)[i]? = some s → fetch i = .str (some s))
    (hfail : ∀ argv', Q (false, argv') (h + argvHeld argv'))
    (hok : ∀ argv', Fetched fetch (argv'.map Prod.snd) → Q (true, argv') (h + argvHeld argv')) :
    (fetchArgs fetch n argv.length argv).wp (Balanced ram) Q (h + argvHeld argv) := by
  induction n generalizing argv with
  | zero => exact Prog.wp_pure (hfail argv)
  | succ n ih =>
    rw [fetchArgs]
    cases hfetch : fetch argv.length with
    | bad => exact Prog.wp_pure (hfail argv)
    | null => exact Prog.wp_pure (hok argv ⟨hargv, by rwa [List.length_map]⟩)
    | str s =>
      apply Prog.wp_bind
      apply wp_kalloc
      · exact Prog.wp_pure (hfail argv)
      intro pg
      have hheld : ∀ s, h + argvHeld argv + {.page pg} = h + argvHeld (argv ++ [(pg, s)]) := by
        intro s
        rw [argvHeld_concat, Multiset.add_assoc]
      cases s with
      | none =>
        rw [hheld []]
        exact Prog.wp_pure (hfail _)
      | some s =>
        have hlen : (argv ++ [(pg, s)]).length = argv.length + 1 := List.length_append
        have hargv' : ∀ i s', ((argv ++ [(pg, s)]).map Prod.snd)[i]? = some s' →
            fetch i = .str (some s') := by
          intro i s' hs'
          rw [List.map_append, List.getElem?_append, List.length_map] at hs'
          split at hs'
          · exact hargv i s' hs'
          · rw [List.map_singleton, List.getElem?_singleton] at hs'
            split at hs'
            · obtain rfl : i = argv.length := by omega
              obtain rfl := Option.some.inj hs'
              exact hfetch
            · cases hs'
        simp only
        rw [hheld s, ← hlen]
        exact ih hargv'

/-- `sys_exec` frees the pages of `argv`. -/
theorem wp_freeArgs {argv : List (Page × List UInt8)} {Q : Unit → Held → Prop} (hQ : Q () h) :
    (Prog.forEach kfree (argv.map Prod.fst)).wp (Balanced ram) Q (h + argvHeld argv) := by
  induction argv with
  | nil =>
    rw [show argvHeld [] = 0 from rfl, Multiset.add_zero]
    exact Prog.wp_pure hQ
  | cons arg argv ih =>
    have hheld : h + argvHeld (arg :: argv) = h + argvHeld argv + {.page arg.1} := by
      rw [argvHeld, List.map_cons, ← Multiset.cons_coe, ← Multiset.singleton_add,
        Multiset.add_comm {_}, ← Multiset.add_assoc]
      rfl
    rw [List.map_cons, Prog.forEach_cons]
    apply Prog.wp_bind
    exact wp_kfree .page hheld ih

theorem wp_sysExec {path : Option (List UInt8)} {namei : Option (Fin NINODE × List UInt8)}
    {fetch : ℕ → Fetch} {Q : Option ℕ × Proc → Held → Prop} (himage : Image trampoline p ups)
    (hfail : Q (none, p) (p.holds ups))
    (hok : ∀ name ip file argv t sz sp ups', path = some name → namei = some (ip, file) →
      Fetched fetch argv →
      let p' := commit p name (Elfhdr.decode (readi file 0 ELFHDR)).entry t sz sp
      Image trampoline p' ups' →
      Disjoint (pagesOf (res p.pagetable + dataOf ups)) (pagesOf (res t + dataOf ups')) →
      Q (some argv.length, p') (p'.holds ups')) :
    (sysExec trampoline p path namei fetch).wp (Balanced ram) Q (p.holds ups) := by
  cases path with
  | none => exact Prog.wp_pure hfail
  | some name =>
    rw [sysExec, ← Multiset.add_zero (p.holds ups), show (0 : Held) = argvHeld [] from rfl]
    change Prog.wp _ (fetchArgs fetch MAXARG ([] : List (Page × List UInt8)).length [] >>= _) _ _
    apply Prog.wp_bind
    apply wp_fetchArgs
    · simp
    · intro argv
      simp only [if_true]
      apply Prog.wp_bind
      exact wp_freeArgs (Prog.wp_pure hfail)
    · intro argv hfetched
      simp only [Bool.true_eq_false, if_false]
      apply Prog.wp_bind
      apply wp_exec himage
      · apply Prog.wp_bind
        exact wp_freeArgs (Prog.wp_pure hfail)
      · intro ip file t sz sp ups' hnamei p' himage' hdisjoint
        apply Prog.wp_bind
        apply wp_freeArgs
        exact Prog.wp_pure (hok name ip file _ t sz sp ups' rfl hnamei hfetched himage' hdisjoint)

end EnhancedXv6.Vm
