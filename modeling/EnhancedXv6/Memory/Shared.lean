import EnhancedXv6.Kernel.State
import EnhancedXv6.Resource.Program
import Mathlib.Algebra.Order.Group.Multiset
import Mathlib.Data.Multiset.Bind

/-!
# Free pages, open files, pipes and inodes

What the processes share when they allocate memory: the free list of kalloc.c, the contents of the
pages, the file table of file.c, the pipes of pipe.c and the reference counts of the inodes.  `kalloc`
may return 0 at any call.

Every page that is not on the free list and is not a pipe is held by some process, and so is every
reference to a file or an inode and every end of a pipe that no file has.  What a process holds is a
multiset of `Token`s; `Balanced` says that what is held and what is shared add up.
-/

namespace EnhancedXv6.Memory

open Kernel Resource

abbrev Page := ℕ

abbrev PGSIZE : ℕ := 4096

abbrev KERNBASE : ℕ := 0x80000000

abbrev PHYSTOP : ℕ := KERNBASE + 128 * 1024 * 1024

abbrev RAMPAGES : ℕ := (PHYSTOP - KERNBASE) / PGSIZE

abbrev Bytes := Fin PGSIZE → UInt8

def pgRoundUp (sz : ℕ) : ℕ := (sz + PGSIZE - 1) / PGSIZE * PGSIZE

def pgRoundDown (a : ℕ) : ℕ := a / PGSIZE * PGSIZE

/-- `struct pipe`, without the data. -/
structure Pipe where
  page : Page
  readopen : Bool
  writeopen : Bool
  deriving DecidableEq

/-- `f->type`, with what the file refers to. -/
inductive Target
  | none
  | pipe (pi : Page) (writable : Bool)
  | inode (ip : Fin NINODE)
  deriving DecidableEq

/-- `struct file`, as far as references go. -/
structure File where
  ref : ℕ := 0
  type : Target := .none

structure Shared where
  /-- the linker symbol `end`: the first address after the kernel -/
  kernelEnd : ℕ
  freelist : List Page
  mem : Page → Bytes
  ftable : Fin NFILE → File
  /-- the pipes with an open end -/
  pipes : List Pipe
  /-- `ip->ref` -/
  iref : Fin NINODE → ℕ
  nextpid : ℕ

/-- `kalloc()`; it also returns 0 when `fails`. -/
def kalloc : Prog Shared (Option Page) :=
  .step (fun fails s ↦ if fails then s else { s with freelist := s.freelist.tail })
    fun fails s ↦ .pure (if fails then none else s.freelist.head?)

def badPage (s : Shared) (pa : Page) : Prop :=
  pa % PGSIZE ≠ 0 ∨ pa < s.kernelEnd ∨ pa ≥ PHYSTOP

instance (s : Shared) (pa : Page) : Decidable (badPage s pa) :=
  inferInstanceAs (Decidable (_ ∨ _ ∨ _))

/-- `kfree(pa)`, without the junk it fills the page with. -/
def kfree (pa : Page) : Prog Shared Unit :=
  .step (fun _ s ↦ if badPage s pa then s else { s with freelist := pa :: s.freelist })
    fun _ s ↦ if badPage s pa then .panic else .pure ()

def setPage (pa : Page) (bytes : Shared → Bytes) : Prog Shared Unit :=
  .step (fun _ s ↦ { s with mem := Function.update s.mem pa (bytes s) }) fun _ _ ↦ .pure ()

def zeros : Bytes := fun _ ↦ 0

def memset (pa : Page) : Prog Shared Unit := setPage pa fun _ ↦ zeros

def memmove (dst src : Page) : Prog Shared Unit := setPage dst fun s ↦ s.mem src

/-- The pages that `freerange(pa_start, pa_end)` frees, in that order. -/
def freerange (start stop : ℕ) : List Page :=
  (List.range ((stop - pgRoundUp start) / PGSIZE)).map fun i ↦ pgRoundUp start + i * PGSIZE

def kinit (kernelEnd : ℕ) : List Page := (freerange kernelEnd PHYSTOP).reverse

/-! ## Resources -/

inductive Token
  /-- a page with any contents -/
  | page (pg : Page)
  /-- a page with these contents -/
  | data (pg : Page) (bytes : Bytes)
  /-- the reference to a file that has no type yet -/
  | fresh (f : Fin NFILE)
  /-- a reference to a file -/
  | ref (f : Fin NFILE)
  /-- an end of a pipe that no file has -/
  | pipeEnd (pi : Page) (writable : Bool)
  /-- a reference to an inode -/
  | inode (ip : Fin NINODE)
  deriving DecidableEq

abbrev Held := Multiset Token

namespace Token

def pages : Token → Multiset Page
  | page pg => {pg}
  | data pg _ => {pg}
  | _ => 0

def counted : Token → Bool
  | page _ | data _ _ => false
  | fresh _ | ref _ | pipeEnd _ _ | inode _ => true

end Token

def pagesOf (h : Held) : Multiset Page := h.bind Token.pages

@[simp] theorem pagesOf_add (h h' : Held) : pagesOf (h + h') = pagesOf h + pagesOf h' :=
  Multiset.add_bind ..

@[simp] theorem pagesOf_zero : pagesOf 0 = 0 := Multiset.zero_bind _

@[simp] theorem pagesOf_singleton (t : Token) : pagesOf {t} = t.pages := Multiset.singleton_bind ..

@[simp] theorem pages_page (pg : Page) : (Token.page pg).pages = {pg} := rfl
@[simp] theorem pages_data (pg : Page) (bytes : Bytes) : (Token.data pg bytes).pages = {pg} := rfl
@[simp] theorem pages_ref (f : Fin NFILE) : (Token.ref f).pages = 0 := rfl
@[simp] theorem pages_fresh (f : Fin NFILE) : (Token.fresh f).pages = 0 := rfl
@[simp] theorem pages_inode (ip : Fin NINODE) : (Token.inode ip).pages = 0 := rfl
@[simp] theorem pages_pipeEnd (pi : Page) (writable : Bool) :
    (Token.pipeEnd pi writable).pages = 0 := rfl

/-- The pages that processes and pipes share: some of the pages between the end of the kernel and
`PHYSTOP`. -/
structure Ram where
  kernelEnd : ℕ
  pages : Multiset Page
  nodup : pages.Nodup
  small : pages.card ≤ RAMPAGES
  valid : ∀ pa ∈ pages, pa % PGSIZE = 0 ∧ kernelEnd ≤ pa ∧ pa < PHYSTOP

/-- The tokens that a file has given out: its references. -/
def File.issues (f : Fin NFILE) (file : File) : Token → ℕ
  | .fresh g => if g = f ∧ file.type = .none then file.ref else 0
  | .ref g => if g = f ∧ file.type ≠ .none then file.ref else 0
  | _ => 0

def File.holds (file : File) : Token → ℕ
  | .pipeEnd pi writable => if file.type = .pipe pi writable then 1 else 0
  | .inode ip => if file.type = .inode ip then 1 else 0
  | _ => 0

def Pipe.isOpen (q : Pipe) (writable : Bool) : Bool :=
  if writable then q.writeopen else q.readopen

/-- The tokens that the pipes and the inodes have given out. -/
def Shared.issues (s : Shared) : Token → ℕ
  | .pipeEnd pi writable => s.pipes.countP fun q ↦ q.page = pi ∧ q.isOpen writable
  | .inode ip => s.iref ip
  | _ => 0

/-- A file without references has no type, and one without a type has at most one reference. -/
structure File.Proper (file : File) : Prop where
  closed : file.ref = 0 → file.type = .none
  single : file.type = .none → file.ref ≤ 1

/-- The shared state agrees with what all processes hold. -/
structure Balanced (ram : Ram) (s : Shared) (held : Held) : Prop where
  kernelEnd : s.kernelEnd = ram.kernelEnd
  balance : (s.freelist : Multiset Page) + (s.pipes.map Pipe.page : List Page) + pagesOf held =
    ram.pages
  contents : ∀ pg bytes, .data pg bytes ∈ held → s.mem pg = bytes
  tokens : ∀ t, t.counted = true → held.count t + ∑ f, (s.ftable f).holds t =
    ∑ f, (s.ftable f).issues f t + s.issues t
  proper : ∀ f, (s.ftable f).Proper

variable {ram : Ram} {s : Shared} {h h' rest : Held} {pg : Page} {bytes : Bytes}

/-- Pages move between the free list and a process. -/
theorem Balanced.move {freelist : List Page} (hs : Balanced ram s (h + rest))
    (hcount : ∀ t, t.counted = true → h'.count t = h.count t)
    (hdata : ∀ pg bytes, .data pg bytes ∈ h' → .data pg bytes ∈ h)
    (hpages : (freelist : Multiset Page) + pagesOf h' = s.freelist + pagesOf h) :
    Balanced ram { s with freelist := freelist } (h' + rest) := by
  refine ⟨hs.kernelEnd, ?_, ?_, ?_, hs.proper⟩
  · rw [← hs.balance]
    calc (freelist : Multiset Page) + (s.pipes.map Pipe.page : List Page) + pagesOf (h' + rest)
        = (freelist + pagesOf h') + (s.pipes.map Pipe.page : List Page) + pagesOf rest := by
          rw [pagesOf_add]
          ac_rfl
      _ = s.freelist + (s.pipes.map Pipe.page : List Page) + pagesOf (h + rest) := by
          rw [hpages, pagesOf_add]
          ac_rfl
  · intro pg bytes hmem
    apply hs.contents
    rcases Multiset.mem_add.mp hmem with hmem | hmem
    · exact Multiset.mem_add.mpr (.inl (hdata pg bytes hmem))
    · exact Multiset.mem_add.mpr (.inr hmem)
  · intro t ht
    rw [Multiset.count_add, hcount t ht, ← Multiset.count_add]
    exact hs.tokens t ht

theorem count_page {t : Token} (ht : t.counted = true) : Multiset.count t {Token.page pg} = 0 := by
  rw [Multiset.count_eq_zero, Multiset.mem_singleton]
  rintro rfl
  cases ht

theorem count_data {t : Token} (ht : t.counted = true) :
    Multiset.count t {Token.data pg bytes} = 0 := by
  rw [Multiset.count_eq_zero, Multiset.mem_singleton]
  rintro rfl
  cases ht

theorem wp_kalloc {Q : Option Page → Held → Prop} (hnone : Q none h)
    (hsome : ∀ pg, Q (some pg) (h + {.page pg})) : kalloc.wp (Balanced ram) Q h := by
  apply Prog.wp_step
  intro fails s rest hs
  cases fails with
  | true => exact ⟨h, hs, fun _ ↦ hnone⟩
  | false =>
    cases hfree : s.freelist with
    | nil =>
      refine ⟨h, hs.move (fun _ _ ↦ rfl) (fun _ _ hmem ↦ hmem) ?_, fun _ ↦ ?_⟩
      · simp [hfree]
      · simpa [hfree] using hnone
    | cons pg freelist =>
      refine ⟨h + {.page pg}, hs.move ?_ ?_ ?_, fun _ ↦ ?_⟩
      · intro t ht
        rw [Multiset.count_add, count_page ht, Nat.add_zero]
      · intro pg' bytes hmem
        simpa using hmem
      · rw [hfree, List.tail_cons, pagesOf_add, pagesOf_singleton, pages_page,
          ← Multiset.cons_coe, ← Multiset.singleton_add]
        ac_rfl
      · simpa [hfree] using hsome pg

/-- A token for a page, whatever is known of its contents. -/
inductive Token.IsPage (pg : Page) : Token → Prop
  | page : IsPage pg (.page pg)
  | data (bytes : Bytes) : IsPage pg (.data pg bytes)

theorem Token.IsPage.pages_eq {t : Token} (ht : t.IsPage pg) : t.pages = {pg} := by
  cases ht <;> rfl

theorem Token.IsPage.count_eq {t t' : Token} (ht : t.IsPage pg) (ht' : t'.counted = true) :
    Multiset.count t' {t} = 0 := by
  cases ht with
  | page => exact count_page ht'
  | data bytes => exact count_data ht'

theorem wp_kfree {Q : Unit → Held → Prop} {t : Token} (ht : t.IsPage pg) (hh : h = h' + {t})
    (hQ : Q () h') : (kfree pg).wp (Balanced ram) Q h := by
  subst hh
  apply Prog.wp_step
  intro _ s rest hs
  have hmem : pg ∈ ram.pages := by
    rw [← hs.balance]
    simp [ht.pages_eq]
  obtain ⟨haligned, hlow, hhigh⟩ := ram.valid pg hmem
  have hgood : ¬badPage s pg := by
    rw [← hs.kernelEnd] at hlow
    rintro (hbad | hbad | hbad)
    · exact hbad haligned
    · exact absurd hbad (Nat.not_lt.mpr hlow)
    · exact absurd hhigh (Nat.not_lt.mpr hbad)
  refine ⟨h', ?_, ?_⟩
  · rw [if_neg hgood]
    refine hs.move ?_ ?_ ?_
    · intro t' ht'
      rw [Multiset.count_add, ht.count_eq ht', Nat.add_zero]
    · intro pg' bytes hmem
      exact Multiset.mem_add.mpr (.inl hmem)
    · rw [pagesOf_add, pagesOf_singleton, ht.pages_eq, ← Multiset.cons_coe,
        ← Multiset.singleton_add]
      ac_rfl
  · rw [if_neg hgood]
    exact fun _ ↦ hQ

theorem Balanced.page_notMem {t : Token} (hs : Balanced ram s (h + {t} + rest)) (ht : t.IsPage pg)
    {t' : Token} (ht' : t'.IsPage pg) : t' ∉ h + rest := by
  intro hmem
  have hnodup : (pagesOf (h + {t} + rest)).Nodup := by
    refine Multiset.nodup_of_le ?_ ram.nodup
    rw [← hs.balance]
    exact Multiset.le_add_left _ _
  have hsplit : pagesOf (h + {t} + rest) = {pg} + pagesOf (h + rest) := by
    simp only [pagesOf_add, pagesOf_singleton, ht.pages_eq]
    ac_rfl
  rw [hsplit, Multiset.singleton_add, Multiset.nodup_cons] at hnodup
  exact hnodup.1 (Multiset.mem_bind.mpr ⟨t', hmem, by simp [ht'.pages_eq]⟩)

theorem wp_setPage {Q : Unit → Held → Prop} {t : Token} {f : Shared → Bytes} (ht : t.IsPage pg)
    (hh : h = h' + {t}) (hf : ∀ s rest, Balanced ram s (h + rest) → f s = bytes)
    (hQ : Q () (h' + {.data pg bytes})) : (setPage pg f).wp (Balanced ram) Q h := by
  apply Prog.wp_step
  intro _ s rest hs
  rw [hf s rest hs]
  subst hh
  refine ⟨h' + {.data pg bytes}, ⟨hs.kernelEnd, ?_, ?_, ?_, hs.proper⟩, fun _ ↦ hQ⟩
  · rw [← hs.balance]
    simp only [pagesOf_add, pagesOf_singleton, ht.pages_eq, pages_data]
  · intro pg' bytes' hmem
    by_cases hpg : pg' = pg
    · subst hpg
      simp only [Multiset.mem_add, Multiset.mem_singleton, Token.data.injEq] at hmem
      have hnot := hs.page_notMem ht (.data bytes')
      simp only [Multiset.mem_add, not_or] at hnot
      rcases hmem with (hmem | ⟨-, rfl⟩) | hmem
      · exact absurd hmem hnot.1
      · simp
      · exact absurd hmem hnot.2
    · simp only [Function.update_of_ne hpg]
      apply hs.contents
      simp only [Multiset.mem_add, Multiset.mem_singleton, Token.data.injEq] at hmem ⊢
      rcases hmem with (hmem | ⟨rfl, -⟩) | hmem
      · exact .inl (.inl hmem)
      · exact absurd rfl hpg
      · exact .inr hmem
  · intro t' ht'
    have htokens := hs.tokens t' ht'
    simp only [Multiset.count_add, ht.count_eq ht', count_data ht'] at htokens ⊢
    exact htokens

theorem wp_memset {Q : Unit → Held → Prop} {t : Token} (ht : t.IsPage pg) (hh : h = h' + {t})
    (hQ : Q () (h' + {.data pg zeros})) : (memset pg).wp (Balanced ram) Q h :=
  wp_setPage ht hh (fun _ _ _ ↦ rfl) hQ

theorem wp_memmove {Q : Unit → Held → Prop} {t : Token} {src : Page} (ht : t.IsPage pg)
    (hh : h = h' + {t}) (hsrc : .data src bytes ∈ h') (hQ : Q () (h' + {.data pg bytes})) :
    (memmove pg src).wp (Balanced ram) Q h := by
  refine wp_setPage ht hh (fun s rest hs ↦ ?_) hQ
  apply hs.contents
  simp [hh, hsrc]

theorem disjoint_of_possible (hpossible : Possible (Balanced ram) (h + (h' + rest))) :
    Disjoint (pagesOf h) (pagesOf h') := by
  obtain ⟨s, others, hs⟩ := hpossible
  have hle : pagesOf h + pagesOf h' ≤ ram.pages := by
    have hsplit : pagesOf (h + (h' + rest) + others) =
        pagesOf h + pagesOf h' + (pagesOf rest + pagesOf others) := by
      simp only [pagesOf_add]
      ac_rfl
    rw [← hs.balance, hsplit]
    exact (Multiset.le_add_right _ _).trans (Multiset.le_add_left _ _)
  exact (Multiset.nodup_add.mp (Multiset.nodup_of_le hle ram.nodup)).2.2

theorem card_le_of_possible (hpossible : Possible (Balanced ram) h) :
    (pagesOf h).card ≤ RAMPAGES := by
  obtain ⟨s, rest, hs⟩ := hpossible
  have hcard := congrArg Multiset.card hs.balance
  have hsmall := ram.small
  simp only [Multiset.card_add, pagesOf_add] at hcard
  omega

end EnhancedXv6.Memory
