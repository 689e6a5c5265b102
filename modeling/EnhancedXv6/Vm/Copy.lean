import EnhancedXv6.Vm.Process
import Mathlib.Data.List.Perm.Basic

/-!
# Writing to user memory

`copyout`, and the stores of a user program.  Both write through a page table to pages of its process,
and change neither the table nor any other page.
-/

namespace EnhancedXv6.Vm

open Radix Memory Resource

def patch (bytes : Bytes) (off : ℕ) (src : List UInt8) : Bytes :=
  fun i ↦ if (i : ℕ) < off then bytes i else (src[i - off]?).getD (bytes i)

def writePage (pa : Page) (off : ℕ) (src : List UInt8) : Prog Shared Unit :=
  setPage pa fun s ↦ patch (s.mem pa) off src

/-- The loop of `copyout(pagetable, dstva, src, len)`, which ends after at most `len` rounds; `true`
stands for 0. -/
def copyoutLoop (t : Table) : ℕ → ℕ → List UInt8 → Prog Shared Bool
  | 0, _, _ => pure true
  | rounds + 1, dstva, src =>
    if src = [] then pure true
    else
      let va0 := pgRoundDown dstva
      match walkaddr t va0 with
      | none => pure false
      | some pa0 => do
        let n := min (PGSIZE - (dstva - va0)) src.length
        writePage pa0 (dstva - va0) (src.take n)
        copyoutLoop t rounds (va0 + PGSIZE) (src.drop n)

def copyout (t : Table) (dstva : ℕ) (src : List UInt8) : Prog Shared Bool :=
  copyoutLoop t src.length dstva src

/-- A user program stores a byte at `va`; without a writable page it traps. -/
def store (t : Table) (va : ℕ) (byte : UInt8) : Prog Shared Unit :=
  if va ≥ MAXVA then pure ()
  else
    match t.get (pgRoundDown va) with
    | none => pure ()
    | some pte =>
      if pte.perm.u = true ∧ pte.perm.w = true then writePage pte.pa (va % PGSIZE) [byte]
      else pure ()

/-! ## The pages after it -/

/-- The pages differ in their contents only. -/
def SamePtes (ups' ups : List UPage) : Prop := ups'.map UPage.pte = ups.map UPage.pte

variable {ram : Ram} {h : Held} {t : Table} {m : ℕ → Option Pte} {ups ups' : List UPage} {k : ℕ}

theorem SamePtes.trans {ups'' : List UPage} (hsame : SamePtes ups'' ups')
    (hsame' : SamePtes ups' ups) : SamePtes ups'' ups :=
  Eq.trans hsame hsame'

theorem SamePtes.length (hsame : SamePtes ups' ups) : ups'.length = ups.length := by
  have hlen := congrArg List.length hsame
  simpa using hlen

theorem SamePtes.exists_getElem? {u : UPage} (hsame : SamePtes ups' ups)
    (hu : ups'[k]? = some u) : ∃ u', ups[k]? = some u' ∧ u.pte = u'.pte := by
  have hk : (ups.map UPage.pte)[k]? = some u.pte := by
    rw [← hsame, List.getElem?_map, hu, Option.map_some]
  rw [List.getElem?_map, Option.map_eq_some_iff] at hk
  obtain ⟨u', hu', hpte⟩ := hk
  exact ⟨u', hu', hpte.symm⟩

theorem overlay_eq_of_samePtes (hsame : SamePtes ups' ups) (base : ℕ) :
    overlay m base ups' = overlay m base ups := by
  have hoverlay : ∀ (ups : List UPage) k, overlay m base ups k =
      if k < base then m k else ((ups.map UPage.pte)[k - base]?).elim (m k) some := by
    intro ups k
    rw [overlay, List.getElem?_map]
    cases ups[k - base]? <;> rfl
  funext k
  rw [hoverlay, hoverlay, hsame]

/-- A well-formed process stays so when its memory is written. -/
theorem Image.of_samePtes {trampoline : Page} {p : Proc} (himage : Image trampoline p ups)
    (hsame : SamePtes ups' ups) : Image trampoline p ups' := by
  refine ⟨hsame.length.trans himage.size, ?_, fun u hu ↦ ?_, fun k u hu ↦ ?_, fun k hk ↦ ?_⟩
  · rw [overlay_eq_of_samePtes hsame]
    exact himage.maps
  · obtain ⟨k, hk⟩ := List.mem_iff_getElem?.mp hu
    obtain ⟨u', hu', hpte⟩ := hsame.exists_getElem? hk
    rw [show u.perm = u'.perm from congrArg Pte.perm hpte]
    exact himage.readable u' (List.mem_of_getElem? hu')
  · obtain ⟨u', hu', hpte⟩ := hsame.exists_getElem? hu
    rw [show u.perm = u'.perm from congrArg Pte.perm hpte]
    exact himage.user k u' hu'
  · rw [hsame.length]
    exact himage.guard k hk

theorem dataOf_split {u : UPage} (hu : ups[k]? = some u) :
    dataOf ups = dataOf (ups.eraseIdx k) + {u.tok} := by
  obtain ⟨hk, rfl⟩ := List.getElem?_eq_some_iff.mp hu
  rw [← dataOf_cons]
  exact Multiset.coe_eq_coe.mpr ((List.getElem_cons_eraseIdx_perm hk).symm.map _)

theorem dataOf_set (u : UPage) (hk : k < ups.length) :
    dataOf (ups.set k u) = dataOf (ups.eraseIdx k) + {u.tok} := by
  rw [← dataOf_cons]
  exact Multiset.coe_eq_coe.mpr ((List.set_perm_cons_eraseIdx hk u).map _)

theorem wp_writePage {u : UPage} {off : ℕ} {src : List UInt8} {Q : Unit → Held → Prop}
    (hu : ups[k]? = some u)
    (hQ : ∀ ups', SamePtes ups' ups → Q () (dataOf ups' + h)) :
    (writePage u.pa off src).wp (Balanced ram) Q (dataOf ups + h) := by
  obtain ⟨hk, hget⟩ := List.getElem?_eq_some_iff.mp hu
  set u' : UPage := { u with bytes := patch u.bytes off src } with hu'
  have hsame : SamePtes (ups.set k u') ups := by
    have hk' : k < (ups.map UPage.pte).length := by rwa [List.length_map]
    have hpte : u'.pte = (ups.map UPage.pte)[k] := by
      rw [List.getElem_map, hget]
      rfl
    rw [SamePtes, List.map_set, hpte, List.set_getElem_self]
  have hheld : dataOf ups + h = dataOf (ups.eraseIdx k) + h + {u.tok} := by
    rw [dataOf_split hu]
    ac_rfl
  have hbytes : ∀ s rest, Balanced ram s (dataOf ups + h + rest) →
      patch (s.mem u.pa) off src = patch u.bytes off src := by
    intro s rest hs
    have hmem : s.mem u.pa = u.bytes := by
      apply hs.contents
      rw [hheld, Multiset.mem_add, Multiset.mem_add]
      exact .inl (.inr (Multiset.mem_singleton_self _))
    rw [hmem]
  have hdone := hQ _ hsame
  have hheld' : dataOf (ups.eraseIdx k) + {u'.tok} + h =
      dataOf (ups.eraseIdx k) + h + {u'.tok} := by
    ac_rfl
  rw [dataOf_set u' hk, hheld'] at hdone
  exact wp_setPage (.data u.bytes) hheld hbytes hdone

def NoUser (m : ℕ → Option Pte) : Prop := ∀ k pte, m k = some pte → pte.perm.u = false

theorem noUser_layout (trampoline trapframe : Page) : NoUser (layout trampoline trapframe) := by
  intro k pte hpte
  rw [layout] at hpte
  split_ifs at hpte with htrapframe htrampoline
  · obtain rfl := Option.some.inj hpte
    rfl
  · obtain rfl := Option.some.inj hpte
    rfl

/-- The user reaches its pages only. -/
theorem exists_of_user {pte : Pte} (hm : Maps t (overlay m 0 ups)) (hno : NoUser m)
    (hk : k * PGSIZE < MAXVA) (hget : t.get (k * PGSIZE) = some pte) (hu : pte.perm.u = true) :
    ∃ u, ups[k]? = some u ∧ u.pte = pte := by
  have hlt : k < PAGES := by
    simp only [PGSIZE, MAXVA, PAGES] at hk ⊢
    omega
  rw [hm k hlt, overlay, if_neg (Nat.not_lt_zero k), Nat.sub_zero] at hget
  cases hups : ups[k]? with
  | none =>
    rw [hups, Option.elim_none] at hget
    rw [hno k pte hget] at hu
    cases hu
  | some u =>
    rw [hups, Option.elim_some] at hget
    exact ⟨u, rfl, Option.some.inj hget⟩

theorem exists_of_walkaddr {pa : Page} (hm : Maps t (overlay m 0 ups)) (hno : NoUser m)
    (hwalk : walkaddr t (k * PGSIZE) = some pa) : ∃ u, ups[k]? = some u ∧ u.pa = pa := by
  rw [walkaddr] at hwalk
  split_ifs at hwalk with hmax
  cases hget : t.get (k * PGSIZE) with
  | none =>
    rw [hget] at hwalk
    cases hwalk
  | some pte =>
    simp only [hget] at hwalk
    split_ifs at hwalk with hu
    obtain ⟨u, hups, hpte⟩ := exists_of_user hm hno (by omega) hget hu
    exact ⟨u, hups, (congrArg Pte.pa hpte).trans (Option.some.inj hwalk)⟩

theorem wp_copyoutLoop {rounds dstva : ℕ} {src : List UInt8} {Q : Bool → Held → Prop}
    (hm : Maps t (overlay m 0 ups)) (hno : NoUser m)
    (hQ : ∀ copied ups', SamePtes ups' ups → Q copied (dataOf ups' + h)) :
    (copyoutLoop t rounds dstva src).wp (Balanced ram) Q (dataOf ups + h) := by
  induction rounds generalizing dstva src ups with
  | zero => exact Prog.wp_pure (hQ true ups rfl)
  | succ rounds ih =>
    rw [copyoutLoop]
    split_ifs with hsrc
    · exact Prog.wp_pure (hQ true ups rfl)
    · simp only
      cases hwalk : walkaddr t (pgRoundDown dstva) with
      | none => exact Prog.wp_pure (hQ false ups rfl)
      | some pa =>
        obtain ⟨u, hu, rfl⟩ := exists_of_walkaddr hm hno hwalk
        apply Prog.wp_bind
        apply wp_writePage hu
        intro ups' hsame
        apply ih
        · rwa [overlay_eq_of_samePtes hsame]
        · intro copied ups'' hsame'
          exact hQ copied ups'' (hsame'.trans hsame)

/-- `copyout` writes to the pages of its process. -/
theorem wp_copyout {dstva : ℕ} {src : List UInt8} {Q : Bool → Held → Prop}
    (hm : Maps t (overlay m 0 ups)) (hno : NoUser m)
    (hQ : ∀ copied ups', SamePtes ups' ups → Q copied (dataOf ups' + h)) :
    (copyout t dstva src).wp (Balanced ram) Q (dataOf ups + h) :=
  wp_copyoutLoop hm hno hQ

theorem wp_store {va : ℕ} {byte : UInt8} {Q : Unit → Held → Prop}
    (hm : Maps t (overlay m 0 ups)) (hno : NoUser m)
    (hQ : ∀ ups', SamePtes ups' ups → Q () (dataOf ups' + h)) :
    (store t va byte).wp (Balanced ram) Q (dataOf ups + h) := by
  rw [store]
  split_ifs with hmax
  · exact Prog.wp_pure (hQ ups rfl)
  · cases hget : t.get (pgRoundDown va) with
    | none => exact Prog.wp_pure (hQ ups rfl)
    | some pte =>
      simp only
      split_ifs with hperm
      · have hlt : va / PGSIZE * PGSIZE < MAXVA := by
          have hle := Nat.div_mul_le_self va PGSIZE
          omega
        obtain ⟨u, hu, hpte⟩ := exists_of_user hm hno hlt hget hperm.1
        rw [← hpte]
        exact wp_writePage hu hQ
      · exact Prog.wp_pure (hQ ups rfl)

end EnhancedXv6.Vm
