import EnhancedXv6.Vm.UserCopy
import EnhancedXv6.Vm.Frame

/-!
# Moving the break

`growproc(n)` either moves the break by `n` or fails and leaves the process as it was, unless the new
size would be negative: then the sum wraps around, `uvmdealloc` finds nothing to do, and `growproc`
reports success.
-/

namespace EnhancedXv6.Vm

open Radix Memory Resource Kernel Transition Prog

structure Moved (p p' : Proc) (s s' : Shared) (n : Int32) : Prop where
  size : (p'.sz : ℤ) = p.sz + n.toInt
  mapped : ∀ k < TRAPFRAME / PGSIZE,
    (p'.pagetable.get (k * PGSIZE)).isSome = true ↔ k * PGSIZE < pgRoundUp p'.sz
  /-- the pages that stay -/
  kept : ∀ k pte, k * PGSIZE < pgRoundUp p.sz → k * PGSIZE < pgRoundUp p'.sz →
    p'.pagetable.get (k * PGSIZE) = some pte →
      p.pagetable.get (k * PGSIZE) = some pte ∧ s'.mem pte.pa = s.mem pte.pa
  fresh : ∀ k pte, pgRoundUp p.sz ≤ k * PGSIZE → k * PGSIZE < pgRoundUp p'.sz →
    p'.pagetable.get (k * PGSIZE) = some pte → s'.mem pte.pa = zeros

/-- Nothing has happened, except that page-table pages may have been allocated. -/
structure Unmoved (p p' : Proc) (s s' : Shared) : Prop where
  size : p'.sz = p.sz
  leaves : ∀ k < PAGES, p'.pagetable.get (k * PGSIZE) = p.pagetable.get (k * PGSIZE)
  free : (s'.freelist : Multiset Page) + pagesOf (res p'.pagetable) =
    s.freelist + pagesOf (res p.pagetable)

variable {trampoline : Page} {ram : Ram} {p p' : Proc} {ups ups' : List UPage} {s s' : Shared}
  {rest : Held} {n : Int32}

/-- A page of the process holds what its token says. -/
theorem mem_eq_bytes {u : UPage} (hs : Balanced ram s (p.holds ups + rest)) (hu : u ∈ ups) :
    s.mem u.pa = u.bytes := by
  refine hs.contents _ _ ?_
  have hmem : u.tok ∈ dataOf ups := Multiset.mem_coe.mpr (List.mem_map_of_mem hu)
  rw [Proc.holds]
  exact Multiset.mem_add.mpr (.inl (Multiset.mem_add.mpr (.inl (Multiset.mem_add.mpr (.inr hmem)))))

theorem Image.getElem? {k : ℕ} {pte : Pte} (himage : Image trampoline p ups)
    (hk : k * PGSIZE < pgRoundUp p.sz) (hroom : ups.length ≤ RAMPAGES)
    (hget : p.pagetable.get (k * PGSIZE) = some pte) : ∃ u, ups[k]? = some u ∧ u.pte = pte := by
  have hlt : k < ups.length := by rwa [lt_pgRoundUp_iff, ← himage.size] at hk
  have hmax : RAMPAGES < PAGES := by decide
  rw [himage.get_eq (by omega), List.getElem?_eq_getElem hlt, Option.elim_some,
    Option.some_inj] at hget
  exact ⟨_, List.getElem?_eq_getElem hlt, hget⟩

theorem moved_of_break {new : List UPage}
    (hs : Balanced ram s (p.holds ups + rest)) (hs' : Balanced ram s' (p'.holds ups' + rest))
    (himage : Image trampoline p ups) (himage' : Image trampoline p' ups')
    (hups : ups' = ups.take (pageCount p'.sz) ++ new)
    (hnew : Fresh { w := true, r := true, u := true } new)
    (hsize : (p'.sz : ℤ) = p.sz + n.toInt) : Moved p p' s s' n := by
  have hroom := Proc.room ⟨s, rest, hs⟩
  have hroom' := Proc.room ⟨s', rest, hs'⟩
  have hmax : RAMPAGES < PAGES := by decide
  refine ⟨hsize, (himage'.wellFormed hroom').below, fun k pte hk hk' hget ↦ ?_,
    fun k pte hk hk' hget ↦ ?_⟩
  · obtain ⟨u, hu, rfl⟩ := himage'.getElem? hk' hroom' hget
    rw [lt_pgRoundUp_iff] at hk hk'
    rw [← himage.size] at hk
    have hold : ups[k]? = some u := by
      rwa [hups, List.getElem?_append_left (by rw [List.length_take]; omega),
        List.getElem?_take_of_lt hk'] at hu
    refine ⟨?_, ?_⟩
    · rw [himage.get_eq (by omega), hold, Option.elim_some]
    · exact (mem_eq_bytes hs' (List.mem_of_getElem? hu)).trans
        (mem_eq_bytes hs (List.mem_of_getElem? hold)).symm
  · obtain ⟨u, hu, rfl⟩ := himage'.getElem? hk' hroom' hget
    have hu' := List.mem_of_getElem? hu
    rw [lt_pgRoundUp_iff] at hk'
    have hlow : ups.length ≤ k := by
      rw [← Nat.not_lt, himage.size, ← lt_pgRoundUp_iff]
      exact Nat.not_lt.mpr hk
    have hin : u ∈ new := by
      rw [hups, List.getElem?_append_right (by rw [List.length_take]; omega)] at hu
      exact List.mem_of_getElem? hu
    exact (mem_eq_bytes hs' hu').trans (hnew u hin).2

/-- `growproc` for a size that would be negative: success, with nothing done. -/
theorem growproc_negative (hneg : (p.sz : ℤ) + n.toInt < 0) (choices : ℕ → Bool) (s : Shared) :
    ∃ p', (growproc p n).run choices s = some ((true, p'), s) ∧ p'.sz = p.sz := by
  have hn : n.toInt < 0 := by omega
  have hmin := n.le_toInt
  have hnewsz : p.sz ≤ (((p.sz : ℤ) + n.toInt) % 2 ^ 64).toNat := by
    norm_num at hmin
    omega
  rw [growproc]
  simp only
  rw [if_neg (by omega), if_pos hn, uvmdealloc, if_pos hnewsz, Prog.pure_bind]
  exact ⟨_, rfl, rfl⟩

theorem keeps_growproc (p : Proc) (n : Int32) : (growproc p n).Keeps refState := by
  rw [growproc]
  dsimp only
  split
  · refine (keeps_uvmalloc ..).bind fun r ↦ ?_
    split
    · exact keeps_pure _
    · exact keeps_pure _
  · split
    · exact (keeps_uvmdealloc ..).bind fun r ↦ keeps_pure _
    · exact keeps_pure _

/-- `growproc` runs to its end: the break has moved, or nothing has happened. -/
theorem growproc_run (himage : Image trampoline p ups) (hs : Balanced ram s (p.holds ups + rest))
    (choices : ℕ → Bool) (hnonneg : 0 ≤ (p.sz : ℤ) + n.toInt) :
    ∃ grown p' s', (growproc p n).run choices s = some ((grown, p'), s') ∧
      (grown = true → Moved p p' s s' n) ∧ (grown = false → Unmoved p p' s s') := by
  have hwp : (growproc p n).wp (Balanced ram) (fun r h ↦ ∃ ups', Image trampoline r.2 ups' ∧
      (r.2.trapframe = p.trapframe ∧ r.2.keeps = p.keeps) ∧
        Break p.sz ups n.toInt (((p.sz : ℤ) + n.toInt) % 2 ^ 64).toNat r.1 r.2.sz ups' ∧
          h = r.2.holds ups') (p.holds ups) := by
    apply wp_growproc himage
    intro grown p' ups' himage' hkeeps hbreak
    exact ⟨ups', himage', hkeeps, hbreak, rfl⟩
  obtain ⟨⟨grown, p'⟩, s', h', hrun, hs', ups', himage', ⟨htf, hkeeps⟩, hbreak, rfl⟩ :=
    Prog.wp_run choices hwp hs
  have hroom := Proc.room ⟨s, rest, hs⟩
  have hbelow := (himage.wellFormed hroom).size
  have hmax := n.toInt_lt
  have hnewsz : ((((p.sz : ℤ) + n.toInt) % 2 ^ 64).toNat : ℤ) = p.sz + n.toInt := by
    simp only [pgRoundUp, PGSIZE, TRAPFRAME, TRAMPOLINE, MAXVA] at hbelow
    norm_num at hmax
    omega
  refine ⟨grown, p', s', hrun, ?_, ?_⟩
  · rintro rfl
    obtain ⟨new, hnew, hups, hsize⟩ : ∃ new, Fresh { w := true, r := true, u := true } new ∧
        ups' = ups.take (pageCount p'.sz) ++ new ∧ (p'.sz : ℤ) = p.sz + n.toInt := by
      dsimp only at hbreak
      generalize hsz : p'.sz = sz' at hbreak
      cases hbreak with
      | same hgrow hshrink =>
        refine ⟨[], fun u hu ↦ absurd hu List.not_mem_nil, ?_, by omega⟩
        rw [List.append_nil, List.take_of_length_le (Nat.le_of_eq himage.size)]
      | moved hnew => exact ⟨_, hnew, rfl, hnewsz⟩
    exact moved_of_break hs hs' himage himage' hups hnew hsize
  · rintro rfl
    have hpipes : s'.pipes = s.pipes :=
      congrArg (fun files ↦ files.2.2) ((keeps_growproc p n).run hrun)
    obtain ⟨hsz, rfl⟩ : p'.sz = p.sz ∧ ups' = ups := by
      dsimp only at hbreak
      generalize p'.sz = sz' at hbreak
      cases hbreak
      exact ⟨rfl, rfl⟩
    refine ⟨hsz, fun k hk ↦ ?_, ?_⟩
    · rw [himage.get_eq hk, himage'.get_eq hk, htf]
    · have hbalance := hs'.balance.trans hs.balance.symm
      rw [hpipes, Proc.holds, Proc.holds, hkeeps, add_assoc (res p'.pagetable),
        add_assoc (res p'.pagetable), add_assoc (res p.pagetable), add_assoc (res p.pagetable),
        pagesOf_add, pagesOf_add (res p.pagetable), ← add_assoc, ← add_assoc] at hbalance
      have hcancel := add_right_cancel hbalance
      rw [add_right_comm, add_right_comm (s.freelist : Multiset Page)] at hcancel
      exact add_right_cancel hcancel

/-- Exactly for sizes that are not negative, the break moves by `n` or nothing happens. -/
theorem growproc_moves_break_iff (himage : Image trampoline p ups)
    (hs : Balanced ram s (p.holds ups + rest)) (n : Int32) (choices : ℕ → Bool) :
    (∃ grown p' s', (growproc p n).run choices s = some ((grown, p'), s') ∧
      (grown = true → Moved p p' s s' n) ∧ (grown = false → Unmoved p p' s s')) ↔
    0 ≤ (p.sz : ℤ) + n.toInt := by
  refine ⟨?_, growproc_run himage hs choices⟩
  rintro ⟨grown, p', s', hrun, hmoved, -⟩
  by_contra hneg
  obtain ⟨q, hrun', hsz⟩ := growproc_negative (Int.not_le.mp hneg) choices s
  rw [hrun'] at hrun
  cases hrun
  have hsize := (hmoved rfl).size
  rw [hsz] at hsize
  omega

theorem growproc_moves_break_iff_child :
    ∃ w p, Live w 1 p ∧ 0 ≤ (p.sz : ℤ) + (1 : Int32).toInt ∧
      ∃ grown p' s', (growproc p 1).run (fun _ ↦ false) w.shared = some ((grown, p'), s') ∧
        (grown = true → Moved p p' w.shared s' 1) ∧ (grown = false → Unmoved p p' w.shared s') := by
  obtain ⟨w₀, w, -, p, hboots, hw, -, hp, -⟩ := exists_pipedChild
  have hp : Live w 1 p := .inl hp
  obtain ⟨held, hsound⟩ := reachable_sound hboots hw
  obtain ⟨ups, himage, hheld⟩ := hp.owns hsound
  have hbalanced := hsound.balanced_at 1
  rw [hheld] at hbalanced
  have hnonneg : 0 ≤ (p.sz : ℤ) + (1 : Int32).toInt := by
    rw [show (1 : Int32).toInt = 1 from rfl]
    omega
  exact ⟨w, p, hp, hnonneg, (growproc_moves_break_iff himage hbalanced 1 fun _ ↦ false).mpr hnonneg⟩

/-- The first process has one page; `sbrk(-8192)` succeeds without any effect. -/
theorem growproc_ignores_negative_size :
    ∃ p s, (userinit KERNBASE [] 1).run (fun _ ↦ false) smallStart = some (some p, s) ∧
      ¬ ∃ grown p' s', (growproc p (-8192)).run (fun _ ↦ false) s = some ((grown, p'), s') ∧
        (grown = true → Moved p p' s s' (-8192)) ∧ (grown = false → Unmoved p p' s s') := by
  have hrun : (((userinit KERNBASE [] 1).run (fun _ ↦ false) smallStart).bind Prod.fst).map
      (fun p ↦ p.sz) = some 4096 := by decide +kernel
  obtain ⟨p, hp, hsz⟩ := Option.map_eq_some_iff.mp hrun
  obtain ⟨⟨r, s⟩, hr, rfl⟩ := Option.bind_eq_some_iff.mp hp
  refine ⟨p, s, hr, ?_⟩
  rintro ⟨grown, p', s', hgrow, hmoved, -⟩
  have hneg : (p.sz : ℤ) + (-8192 : Int32).toInt < 0 := by
    rw [hsz]
    decide
  obtain ⟨q, hrun', hsz'⟩ := growproc_negative hneg (fun _ ↦ false) s
  rw [hrun'] at hgrow
  cases hgrow
  have hsize := (hmoved rfl).size
  rw [hsz', hsz] at hsize
  exact absurd hsize (by decide)

end EnhancedXv6.Vm
