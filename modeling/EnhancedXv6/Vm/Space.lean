import EnhancedXv6.Vm.Walk

/-!
# Address spaces

The functions of vm.c that work on the user pages of a process, and the page table that proc.c makes
around them.  A map that is free from page `base` on is extended by `uvmalloc` and `uvmcopy`; when
they fail it is what it was.
-/

namespace EnhancedXv6.Vm

open Radix Memory Resource

variable {ram : Ram} {h : Held} {t : Table} {m : ℕ → Option Pte} {base : ℕ}

def pageCount (sz : ℕ) : ℕ := pgRoundUp sz / PGSIZE

theorem pgRoundUp_eq (sz : ℕ) : pgRoundUp sz = pageCount sz * PGSIZE := by
  rw [pageCount, pgRoundUp, Nat.mul_div_cancel _ (by decide)]

theorem pageCount_page (k : ℕ) : pageCount (k * PGSIZE) = k := by
  rw [pageCount, pgRoundUp_page, Nat.mul_div_cancel _ (by decide)]

theorem pageCount_mono {sz sz' : ℕ} (hle : sz ≤ sz') : pageCount sz ≤ pageCount sz' := by
  simp only [pageCount, pgRoundUp, PGSIZE]
  omega

theorem lt_pageCount {k sz : ℕ} (hk : k * PGSIZE < sz) : k < pageCount sz := by
  simp only [pageCount, pgRoundUp, PGSIZE] at hk ⊢
  omega

theorem pageCount_add_rounds {oldsz newsz : ℕ} (hle : oldsz ≤ newsz) :
    pageCount oldsz + rounds (pgRoundUp oldsz) newsz = pageCount newsz := by
  simp only [pageCount, rounds, pgRoundUp, PGSIZE]
  omega

/-! ## uvmdealloc -/

theorem wp_uvmdealloc {drop : List UPage} {oldsz newsz : ℕ} {Q : ℕ × Table → Held → Prop}
    (hm : Maps t (overlay m base drop)) (hle : newsz ≤ oldsz) (hnew : pageCount newsz = base)
    (hold : pageCount oldsz = base + drop.length)
    (hfree : ∀ k, base ≤ k → k < base + drop.length → m k = none)
    (hperm : ∀ u ∈ drop, u.perm ≠ {}) (hlast : base + drop.length ≤ VAPAGES)
    (hQ : ∀ t', Maps t' m → Q (newsz, t') (res t' + h)) :
    (uvmdealloc t oldsz newsz).wp (Balanced ram) Q (res t + dataOf drop + h) := by
  have hnothing : drop = [] → Q (newsz, t) (res t + dataOf drop + h) := by
    rintro rfl
    rw [dataOf_nil, add_zero]
    rw [overlay_nil] at hm
    exact hQ t hm
  rw [uvmdealloc, pgRoundUp_eq, pgRoundUp_eq, hnew, hold]
  by_cases heq : newsz ≥ oldsz
  · obtain rfl : newsz = oldsz := by omega
    rw [if_pos heq]
    exact Prog.wp_pure (hnothing (List.eq_nil_of_length_eq_zero (by omega)))
  · rw [if_neg heq]
    by_cases hlt : base * PGSIZE < (base + drop.length) * PGSIZE
    · have hcount : ((base + drop.length) * PGSIZE - base * PGSIZE) / PGSIZE = drop.length := by
        rw [← Nat.sub_mul, Nat.add_sub_cancel_left, Nat.mul_div_cancel _ (by decide)]
      rw [if_pos hlt]
      simp only [hcount]
      apply Prog.wp_bind
      apply wp_uvmunmap hm hfree hperm hlast
      intro t' hm'
      exact Prog.wp_pure (hQ t' hm')
    · rw [if_neg hlt]
      refine Prog.wp_pure (hnothing (List.eq_nil_of_length_eq_zero ?_))
      simp only [PGSIZE] at hlt
      omega

/-! ## uvmalloc -/

/-- A new page after the pages `ups`, with the contents that `fill` gives it. -/
theorem wp_addPage {fill : Page → Prog Shared Unit} {perm : Perm} {bytes : Bytes}
    {ups : List UPage} {Q : Bool × Table → Held → Prop} (hm : Maps t (overlay m base ups))
    (hfill : ∀ mem (Q : Unit → Held → Prop), Q () (res t + dataOf ups + h + {.data mem bytes}) →
      (fill mem).wp (Balanced ram) Q (res t + dataOf ups + h + {.page mem}))
    (hfree : ∀ k, base ≤ k → k < RAMPAGES → m k = none) (hbase : base ≤ (pagesOf h).card)
    (hfail : ∀ t', Maps t' (overlay m base ups) → Q (false, t') (res t' + dataOf ups + h))
    (hok : ∀ t' mem, Maps t' (overlay m base (ups ++ [⟨mem, perm, bytes⟩])) →
      Q (true, t') (res t' + dataOf (ups ++ [⟨mem, perm, bytes⟩]) + h)) :
    (addPage fill t ((base + ups.length) * PGSIZE) perm).wp (Balanced ram) Q
      (res t + dataOf ups + h) := by
  rw [addPage]
  apply Prog.wp_bind
  apply wp_kalloc
  · exact Prog.wp_pure (hfail t hm)
  intro mem
  apply Prog.wp_bind
  apply hfill
  -- the pages that are held bound the number of the new page
  apply Prog.wp_of_possible
  intro hpossible
  have hlt : base + ups.length < RAMPAGES := by
    have hcard := card_le_of_possible hpossible
    simp only [pagesOf_add, Multiset.card_add, card_pagesOf_dataOf, pagesOf_singleton,
      pages_data, Multiset.card_singleton] at hcard
    omega
  have hmax : RAMPAGES ≤ VAPAGES := by decide
  have hnone : overlay m base ups (base + ups.length) = none := by
    rw [overlay, if_neg (by omega), Nat.add_sub_cancel_left, List.getElem?_eq_none le_rfl]
    exact hfree _ (by omega) hlt
  rw [Multiset.add_assoc, Multiset.add_assoc]
  apply Prog.wp_bind
  apply wp_mappages hm (by omega) hnone
  · intro t' hm'
    apply Prog.wp_bind
    rw [← Multiset.add_assoc, ← Multiset.add_assoc]
    exact wp_kfree (.data bytes) rfl (Prog.wp_pure (hfail t' hm'))
  · intro t' hm'
    apply Prog.wp_pure
    have hheld : res t' + (dataOf ups + (h + {.data mem bytes})) =
        res t' + dataOf (ups ++ [⟨mem, perm, bytes⟩]) + h := by
      rw [dataOf_concat, Multiset.add_comm h, ← Multiset.add_assoc (dataOf ups),
        Multiset.add_assoc (res t'), UPage.tok]
    rw [hheld]
    apply hok
    rwa [overlay_append_singleton]

def Fresh (perm : Perm) (ups : List UPage) : Prop := ∀ u ∈ ups, u.perm = perm ∧ u.bytes = zeros

section Alloc

variable {new : List UPage} {newsz : ℕ} {perm : Perm} {Q : ℕ × Table → Held → Prop}

/-- The loop of `uvmalloc` after it has added the pages `new`. -/
theorem wp_allocLoop {n : ℕ} (hm : Maps t (overlay m base new)) (hnew : Fresh perm new)
    (hperm : perm ≠ {}) (hfree : ∀ k, base ≤ k → k < RAMPAGES → m k = none)
    (hbase : base ≤ (pagesOf h).card)
    (hfail : ∀ t', Maps t' m → Q (0, t') (res t' + h))
    (hok : ∀ t' new', Maps t' (overlay m base new') → new'.length = new.length + n →
      Fresh perm new' → Q (newsz, t') (res t' + dataOf new' + h)) :
    (allocLoop (base * PGSIZE) newsz perm n t ((base + new.length) * PGSIZE)).wp (Balanced ram) Q
      (res t + dataOf new + h) := by
  induction n generalizing t new with
  | zero => exact Prog.wp_pure (hok t new hm rfl hnew)
  | succ n ih =>
    rw [allocLoop]
    apply Prog.wp_bind
    apply wp_addPage hm (fun mem Q ↦ wp_memset .page rfl) hfree hbase
    · intro t' hm'
      apply Prog.wp_of_possible
      intro hpossible
      have hcard := card_le_of_possible hpossible
      simp only [pagesOf_add, Multiset.card_add, card_pagesOf_dataOf] at hcard
      have hmax : RAMPAGES ≤ VAPAGES := by decide
      apply Prog.wp_bind
      apply wp_uvmdealloc hm'
      · exact Nat.mul_le_mul_right _ (Nat.le_add_right _ _)
      · exact pageCount_page _
      · exact pageCount_page _
      · intro k hle hlt
        exact hfree k hle (by omega)
      · intro u hu
        rw [(hnew u hu).1]
        exact hperm
      · omega
      · intro t'' hm''
        exact Prog.wp_pure (hfail t'' hm'')
    · intro t' mem hm'
      have hlen : (new ++ [(⟨mem, perm, zeros⟩ : UPage)]).length = new.length + 1 := List.length_append
      have hnew' : Fresh perm (new ++ [⟨mem, perm, zeros⟩]) := by
        intro u hu
        rcases List.mem_append.mp hu with hu | hu
        · exact hnew u hu
        · rw [List.mem_singleton.mp hu]
          exact ⟨rfl, rfl⟩
      have hnext : (base + new.length) * PGSIZE + PGSIZE =
          (base + (new ++ [(⟨mem, perm, zeros⟩ : UPage)]).length) * PGSIZE := by
        rw [hlen, ← Nat.add_assoc, Nat.succ_mul]
      simp only [Bool.true_eq_false, if_false]
      rw [hnext]
      refine ih hm' hnew' fun t'' new' hm'' hlen' hfresh ↦ ?_
      exact hok t'' new' hm'' (by omega) hfresh

/-- `uvmalloc` adds pages of zeros, or nothing. -/
theorem wp_uvmalloc {oldsz : ℕ} {xperm : Perm} (hm : Maps t m) (hle : oldsz ≤ newsz)
    (hfree : ∀ k, pageCount oldsz ≤ k → k < RAMPAGES → m k = none)
    (hbase : pageCount oldsz ≤ (pagesOf h).card)
    (hfail : ∀ t', Maps t' m → Q (0, t') (res t' + h))
    (hok : ∀ t' new, Maps t' (overlay m (pageCount oldsz) new) →
      pageCount oldsz + new.length = pageCount newsz →
      Fresh { xperm with r := true, u := true } new → Q (newsz, t') (res t' + dataOf new + h)) :
    (uvmalloc t oldsz newsz xperm).wp (Balanced ram) Q (res t + h) := by
  rw [uvmalloc, if_neg (by omega)]
  simp only
  rw [pgRoundUp_eq, ← Multiset.add_zero (res t), ← dataOf_nil,
    show pageCount oldsz * PGSIZE = (pageCount oldsz + ([] : List UPage).length) * PGSIZE from rfl]
  apply wp_allocLoop
  · rwa [overlay_nil]
  · exact fun u hu ↦ absurd hu List.not_mem_nil
  · exact fun heq ↦ absurd (congrArg Perm.r heq) (by simp)
  · exact hfree
  · exact hbase
  · exact hfail
  · intro t' new' hm' hlen hfresh
    refine hok t' new' hm' ?_ hfresh
    rw [hlen, List.length_nil, Nat.zero_add, Nat.add_zero, ← pgRoundUp_eq, pageCount_add_rounds hle]

end Alloc

/-! ## uvmcopy -/

def UPage.contents (u : UPage) : Perm × Bytes := (u.perm, u.bytes)

def CopyOf (ups' ups : List UPage) : Prop := ups'.map UPage.contents = ups.map UPage.contents

theorem CopyOf.length {ups' ups : List UPage} (hcopy : CopyOf ups' ups) :
    ups'.length = ups.length := by
  have hlen := congrArg List.length hcopy
  simpa using hlen

theorem CopyOf.exists_getElem? {ups' ups : List UPage} {k : ℕ} {u : UPage}
    (hcopy : CopyOf ups' ups) (hu : ups'[k]? = some u) :
    ∃ u', ups[k]? = some u' ∧ u.contents = u'.contents := by
  have hk : (ups.map UPage.contents)[k]? = some u.contents := by
    rw [← hcopy, List.getElem?_map, hu, Option.map_some]
  rw [List.getElem?_map, Option.map_eq_some_iff] at hk
  obtain ⟨u', hu', hcontents⟩ := hk
  exact ⟨u', hu', hcontents.symm⟩

theorem CopyOf.exists_mem {ups' ups : List UPage} {u : UPage} (hcopy : CopyOf ups' ups)
    (hu : u ∈ ups') : ∃ u' ∈ ups, u.contents = u'.contents := by
  obtain ⟨k, hk⟩ := List.mem_iff_getElem?.mp hu
  obtain ⟨u', hu', hcontents⟩ := hcopy.exists_getElem? hk
  exact ⟨u', List.mem_of_getElem? hu', hcontents⟩

theorem CopyOf.perm_ne {ups' ups : List UPage} (hcopy : CopyOf ups' ups)
    (hperm : ∀ u ∈ ups, u.perm ≠ {}) : ∀ u ∈ ups', u.perm ≠ {} := by
  intro u hu
  obtain ⟨u', hu', hcontents⟩ := hcopy.exists_mem hu
  rw [show u.perm = u'.perm from congrArg Prod.fst hcontents]
  exact hperm u' hu'

section Copy

variable {old : Table} {mo : ℕ → Option Pte} {ups cs : List UPage} {Q : Bool × Table → Held → Prop}

/-- The loop of `uvmcopy` after it has copied the pages `cs`. -/
theorem wp_copyLoop {n : ℕ} (hlen : cs.length + n = ups.length) (hold : Maps old (overlay mo 0 ups))
    (hcopy : CopyOf cs (ups.take cs.length)) (hperm : ∀ u ∈ ups, u.perm ≠ {})
    (hm : Maps t (overlay m 0 cs)) (hfree : ∀ k < RAMPAGES, m k = none)
    (hfail : ∀ t', Maps t' m → Q (false, t') (res t' + (dataOf ups + h)))
    (hok : ∀ t' cs', Maps t' (overlay m 0 cs') → CopyOf cs' ups →
      Q (true, t') (res t' + dataOf cs' + (dataOf ups + h))) :
    (copyLoop old n t ((0 + cs.length) * PGSIZE)).wp (Balanced ram) Q
      (res t + dataOf cs + (dataOf ups + h)) := by
  induction n generalizing t cs with
  | zero =>
    rw [List.take_of_length_le (by omega)] at hcopy
    exact Prog.wp_pure (hok t cs hm hcopy)
  | succ n ih =>
    apply Prog.wp_of_possible
    intro hpossible
    have hcard := card_le_of_possible hpossible
    simp only [pagesOf_add, Multiset.card_add, card_pagesOf_dataOf] at hcard
    have hmax : RAMPAGES ≤ VAPAGES := by decide
    obtain ⟨u, hu⟩ : ∃ u, ups[cs.length]? = some u :=
      ⟨_, List.getElem?_eq_getElem (by omega)⟩
    have hmem : u ∈ ups := List.mem_of_getElem? hu
    have hget : old.get ((0 + cs.length) * PGSIZE) = some u.pte := by
      rw [hold _ (vapages_lt (by omega)), overlay, if_neg (by omega), Nat.sub_zero, Nat.zero_add,
        hu, Option.elim_some]
    rw [copyLoop, (walk_of_get (by omega) hget).1, Prog.pure_bind]
    simp only [Bool.true_eq_false, if_false, hget]
    have hsrc : u.tok ∈ res t + dataOf cs + (dataOf ups + h) := by
      rw [Multiset.mem_add, Multiset.mem_add (s := dataOf ups)]
      exact .inr (.inl (List.mem_map_of_mem hmem))
    apply Prog.wp_bind
    apply wp_addPage hm (fun mem Q ↦ wp_memmove .page rfl hsrc) (fun k _ ↦ hfree k)
      (Nat.zero_le _)
    · intro t' hm'
      apply Prog.wp_bind
      rw [Nat.mul_div_cancel _ (by decide), Nat.zero_add, ← Nat.zero_mul PGSIZE]
      apply wp_uvmunmap hm'
      · intro k _ hlt
        exact hfree k (by omega)
      · exact hcopy.perm_ne fun u hu ↦ hperm u (List.mem_of_mem_take hu)
      · omega
      · intro t'' hm''
        exact Prog.wp_pure (hfail t'' hm'')
    · intro t' mem hm'
      have hlen' : (cs ++ [(⟨mem, u.perm, u.bytes⟩ : UPage)]).length = cs.length + 1 := List.length_append
      have hcopy' : CopyOf (cs ++ [⟨mem, u.perm, u.bytes⟩]) (ups.take (cs.length + 1)) := by
        rw [List.take_add_one, hu]
        simp only [CopyOf, List.map_append, Option.toList_some, List.map_singleton]
        rw [hcopy]
        rfl
      have hnext : (0 + cs.length) * PGSIZE + PGSIZE =
          (0 + (cs ++ [(⟨mem, u.perm, u.bytes⟩ : UPage)]).length) * PGSIZE := by
        rw [hlen', ← Nat.add_assoc, Nat.succ_mul]
      rw [← hlen'] at hcopy'
      simp only [Bool.true_eq_false, if_false]
      rw [hnext]
      exact ih (by omega) hcopy' hm'

/-- `uvmcopy` makes a copy of all pages, or nothing. -/
theorem wp_uvmcopy {sz : ℕ} (hsz : ups.length = pageCount sz) (hold : Maps old (overlay mo 0 ups))
    (hperm : ∀ u ∈ ups, u.perm ≠ {}) (hm : Maps t m) (hfree : ∀ k < RAMPAGES, m k = none)
    (hfail : ∀ t', Maps t' m → Q (false, t') (res t' + (dataOf ups + h)))
    (hok : ∀ t' cs, Maps t' (overlay m 0 cs) → CopyOf cs ups →
      Q (true, t') (res t' + dataOf cs + (dataOf ups + h))) :
    (uvmcopy old t sz).wp (Balanced ram) Q (res t + (dataOf ups + h)) := by
  have hrounds : rounds 0 sz = ups.length := by
    rw [hsz, pageCount, pgRoundUp, Nat.mul_div_cancel _ (by decide), rounds, Nat.sub_zero]
  rw [uvmcopy, hrounds, ← Multiset.add_zero (res t), ← dataOf_nil,
    show 0 = (0 + ([] : List UPage).length) * PGSIZE from rfl]
  apply wp_copyLoop (Nat.zero_add _) hold (show CopyOf [] _ from rfl) hperm
  · rwa [overlay_nil]
  · exact hfree
  · exact hfail
  · exact hok

end Copy

/-! ## The page table of a process -/

/-- What the page table of a process has besides the user pages. -/
def layout (trampoline trapframe : Page) (k : ℕ) : Option Pte :=
  if k = TRAPFRAME / PGSIZE then some ⟨trapframe, { r := true, w := true }⟩
  else if k = TRAMPOLINE / PGSIZE then some ⟨trampoline, { r := true, x := true }⟩
  else none

theorem layout_eq_none {trampoline trapframe : Page} {k : ℕ} (hk : k < RAMPAGES) :
    layout trampoline trapframe k = none := by
  have hmax : RAMPAGES ≤ TRAPFRAME / PGSIZE := by decide
  have hnext : TRAPFRAME / PGSIZE ≤ TRAMPOLINE / PGSIZE := by decide
  rw [layout, if_neg (by omega), if_neg (by omega)]

theorem wp_uvmfree {ups : List UPage} {sz : ℕ} {Q : Unit → Held → Prop}
    (hsz : ups.length = pageCount sz) (hm : Maps t (overlay (fun _ ↦ none) 0 ups))
    (hperm : ∀ u ∈ ups, u.perm ≠ {}) (hQ : Q () h) :
    (uvmfree t sz).wp (Balanced ram) Q (res t + dataOf ups + h) := by
  apply Prog.wp_of_possible
  intro hpossible
  have hcard := card_le_of_possible hpossible
  simp only [pagesOf_add, Multiset.card_add, card_pagesOf_dataOf] at hcard
  have hmax : RAMPAGES ≤ VAPAGES := by decide
  rw [uvmfree]
  by_cases hpos : sz > 0
  · rw [if_pos hpos]
    apply Prog.wp_bind
    rw [show pgRoundUp sz / PGSIZE = ups.length from hsz.symm, ← Nat.zero_mul PGSIZE]
    apply wp_uvmunmap hm (fun _ _ _ ↦ rfl) hperm (by omega)
    intro t' hm'
    exact wp_freewalk hm'.bare hQ
  · obtain rfl : sz = 0 := by omega
    obtain rfl : ups = [] := List.eq_nil_of_length_eq_zero hsz
    rw [overlay_nil] at hm
    rw [if_neg hpos, dataOf_nil, Multiset.add_zero]
    exact wp_freewalk hm.bare hQ

theorem update_layout (trampoline trapframe : Page) :
    Function.update (Function.update (fun _ ↦ none) (TRAMPOLINE / PGSIZE)
      (some ⟨trampoline, { r := true, x := true }⟩)) (TRAPFRAME / PGSIZE)
      (some ⟨trapframe, { r := true, w := true }⟩) = layout trampoline trapframe := by
  funext k
  simp only [Function.update_apply, layout]

theorem page_trampoline : TRAMPOLINE = TRAMPOLINE / PGSIZE * PGSIZE := by decide

theorem page_trapframe : TRAPFRAME = TRAPFRAME / PGSIZE * PGSIZE := by decide

theorem trampoline_lt : TRAMPOLINE / PGSIZE < VAPAGES := by decide

theorem trapframe_lt : TRAPFRAME / PGSIZE < VAPAGES := by decide

theorem wp_uvmfree_zero {Q : Unit → Held → Prop} (hm : Maps t fun _ ↦ none) (hQ : Q () h) :
    (uvmfree t 0).wp (Balanced ram) Q (res t + h) := by
  rw [← Multiset.add_zero (res t), ← dataOf_nil]
  exact wp_uvmfree rfl (by rwa [overlay_nil]) (fun u hu ↦ absurd hu List.not_mem_nil) hQ

theorem wp_procPagetable {trampoline trapframe : Page} {Q : Option Table → Held → Prop}
    (hfail : Q none h) (hok : ∀ t, Maps t (layout trampoline trapframe) → Q (some t) (res t + h)) :
    (procPagetable trampoline trapframe).wp (Balanced ram) Q h := by
  rw [procPagetable, uvmcreate]
  apply Prog.wp_bind
  apply Prog.wp_bind
  apply wp_kalloc
  · exact Prog.wp_pure (Prog.wp_pure hfail)
  · intro pg
    apply Prog.wp_pure
    rw [Multiset.add_comm, ← res_empty 2 pg]
    have hm := maps_empty pg
    generalize (empty 2 pg : Table) = t at hm ⊢
    apply Prog.wp_bind
    rw [page_trampoline]
    apply wp_mappages hm trampoline_lt rfl
    · intro t hm
      apply Prog.wp_bind
      exact wp_uvmfree_zero hm (Prog.wp_pure hfail)
    · intro t hm
      apply Prog.wp_bind
      rw [page_trapframe]
      apply wp_mappages hm trapframe_lt (by rw [Function.update_of_ne (by decide)])
      · intro t hm
        apply Prog.wp_bind
        apply wp_uvmunmap_keep hm trampoline_lt (Function.update_self ..) (by simp)
        intro t hm
        rw [Function.update_idem, Function.update_eq_self_iff.mpr rfl] at hm
        apply Prog.wp_bind
        exact wp_uvmfree_zero hm (Prog.wp_pure hfail)
      · intro t hm
        rw [update_layout] at hm
        exact Prog.wp_pure (hok t hm)

theorem wp_procFreepagetable {trampoline trapframe : Page} {ups : List UPage} {sz : ℕ}
    {Q : Unit → Held → Prop} (hsz : ups.length = pageCount sz)
    (hm : Maps t (overlay (layout trampoline trapframe) 0 ups))
    (hperm : ∀ u ∈ ups, u.perm ≠ {}) (hQ : Q () h) :
    (procFreepagetable t sz).wp (Balanced ram) Q (res t + dataOf ups + h) := by
  apply Prog.wp_of_possible
  intro hpossible
  have hcard := card_le_of_possible hpossible
  simp only [pagesOf_add, Multiset.card_add, card_pagesOf_dataOf] at hcard
  have hmax : RAMPAGES ≤ TRAPFRAME / PGSIZE := by decide
  have hnext : TRAPFRAME / PGSIZE < TRAMPOLINE / PGSIZE := by decide
  have houtside : ∀ m k, RAMPAGES ≤ k → overlay m 0 ups k = m k := by
    intro m k hk
    rw [overlay, if_neg (by omega), List.getElem?_eq_none (by omega), Option.elim_none]
  rw [procFreepagetable]
  apply Prog.wp_bind
  rw [page_trampoline, Multiset.add_assoc]
  apply wp_uvmunmap_keep hm trampoline_lt
  · rw [houtside _ _ (by omega), layout, if_neg (by omega), if_pos rfl]
  · simp
  intro t hm
  apply Prog.wp_bind
  rw [page_trapframe]
  apply wp_uvmunmap_keep hm trapframe_lt
  · rw [Function.update_of_ne (by omega), houtside _ _ (by omega), layout, if_pos rfl]
  · simp
  intro t hm
  rw [← Multiset.add_assoc]
  refine wp_uvmfree hsz (hm.congr fun k _ ↦ ?_) hperm hQ
  rw [Function.update_apply, Function.update_apply]
  by_cases hframe : k = TRAPFRAME / PGSIZE
  · rw [if_pos hframe, houtside _ _ (by omega)]
  · rw [if_neg hframe]
    by_cases htramp : k = TRAMPOLINE / PGSIZE
    · rw [if_pos htramp, houtside _ _ (by omega)]
    · rw [if_neg htramp]
      simp only [overlay, layout, if_neg hframe, if_neg htramp]

end EnhancedXv6.Vm
