import EnhancedXv6.Vm.Addresses
import EnhancedXv6.Vm.Frame

/-!
# The page table as a partial map

What a run of `mappages` or `uvmunmap` that comes to its end has done to the entry of every page; that
`walk` finds different entries for different pages; and which pages `freewalk` frees.
-/

namespace EnhancedXv6.Vm

open Radix Memory Resource

/-! ## Words -/

def Perm.bits (perm : Perm) : ℕ :=
  perm.r.toNat <<< 1 ||| perm.w.toNat <<< 2 ||| perm.x.toNat <<< 3 ||| perm.u.toNat <<< 4

/-- `PA2PTE(pa) | perm | PTE_V` -/
def Pte.word (pte : Pte) : ℕ := (pte.pa >>> 12) <<< 10 ||| (pte.perm.bits ||| 1)

/-- What a word stands for; `PTE2PA(pte)` is its page. -/
def Pte.ofWord (word : ℕ) : Option Pte :=
  if word &&& 1 = 0 then none
  else some ⟨(word >>> 10) <<< 12,
    ⟨word.testBit 1, word.testBit 2, word.testBit 3, word.testBit 4⟩⟩

theorem Pte.ofWord_word {pte : Pte} (hpa : pte.pa % PGSIZE = 0) :
    Pte.ofWord pte.word = some pte := by
  obtain ⟨pa, r, w, x, u⟩ := pte
  have hsmall : ∀ r w x u, (Perm.bits ⟨r, w, x, u⟩ ||| 1) < 2 ^ 10 := by decide
  have hflags : ∀ r w x u, (List.range 5).map (Perm.bits ⟨r, w, x, u⟩ ||| 1).testBit =
      [true, r, w, x, u] := by decide
  obtain ⟨b, hb⟩ : ∃ b, b = Perm.bits ⟨r, w, x, u⟩ ||| 1 := ⟨_, rfl⟩
  have hlt := hsmall r w x u
  have hbits := hflags r w x u
  rw [← hb] at hlt hbits
  have hlow : ∀ i < 10, ((pa >>> 12) <<< 10 ||| b).testBit i = b.testBit i := by
    intro i hi
    rw [Nat.testBit_or, Nat.testBit_shiftLeft, decide_eq_false (by omega), Bool.false_and,
      Bool.false_or]
  have hpage : (((pa >>> 12) <<< 10 ||| b) >>> 10) <<< 12 = pa := by
    rw [Nat.shiftRight_or_distrib, Nat.shiftLeft_shiftRight, Nat.shiftRight_eq_div_pow b,
      Nat.div_eq_of_lt hlt, Nat.or_zero, Nat.shiftRight_eq_div_pow, Nat.shiftLeft_eq]
    exact Nat.div_mul_cancel (Nat.dvd_of_mod_eq_zero hpa)
  simp only [List.range_succ, List.range_zero, List.nil_append, List.map_cons,
    List.map_nil, List.cons_append, List.cons.injEq, and_true] at hbits
  have hvalid : ((pa >>> 12) <<< 10 ||| b) &&& 1 ≠ 0 := by
    have h0 := hlow 0 (by omega)
    rw [hbits.1, Nat.testBit_zero, decide_eq_true_iff] at h0
    rw [Nat.and_one_is_mod, h0]
    decide
  rw [Pte.word, ← hb, Pte.ofWord, if_neg hvalid, hpage, hlow 1 (by omega), hlow 2 (by omega),
    hlow 3 (by omega), hlow 4 (by omega), hbits.2.1, hbits.2.2.1, hbits.2.2.2.1, hbits.2.2.2.2]

/-! ## Entries -/

variable {choices : ℕ → Bool} {s s' : Shared}

/-- `walk` adds no entry; where it finds one, the nodes are there. -/
theorem walkFrom_run {alloc : Bool} {path : ℕ → Fin 512} {n : ℕ}
    {t t' : Tree Page (Fin 512) Pte (n + 1)} {found : Bool}
    (hrun : (walkFrom alloc path n t).run choices s = some ((found, t'), s')) :
    (∀ path', lookup (n + 1) t' path' = lookup (n + 1) t path') ∧
      (found = true → HasPath n t' path) := by
  induction n generalizing choices s s' found with
  | zero =>
    cases hrun
    exact ⟨fun _ ↦ rfl, fun _ ↦ trivial⟩
  | succ n ih =>
    rw [walkFrom] at hrun
    cases hi : t.entry (path (n + 1)) with
    | some child =>
      rw [hi] at hrun
      obtain ⟨⟨found', child'⟩, s₁, choices₁, hchild, hrest⟩ := Prog.exists_of_run_bind hrun
      cases hrest
      obtain ⟨hlookup, hpath⟩ := ih hchild
      exact ⟨lookup_setEntry_congr hi hlookup, fun hfound ↦ ⟨child', by simp [setEntry], hpath hfound⟩⟩
    | none =>
      rw [hi] at hrun
      dsimp only at hrun
      split_ifs at hrun with halloc
      · obtain ⟨pg, s₁, choices₁, -, hrest⟩ := Prog.exists_of_run_bind hrun
        cases pg with
        | none =>
          cases hrest
          exact ⟨fun _ ↦ rfl, fun h ↦ absurd h Bool.false_ne_true⟩
        | some pg =>
          obtain ⟨⟨found', child'⟩, s₂, choices₂, hchild, hrest⟩ := Prog.exists_of_run_bind hrest
          cases hrest
          obtain ⟨hlookup, hpath⟩ := ih hchild
          exact ⟨lookup_setEntry_empty hi hlookup,
            fun hfound ↦ ⟨child', by simp [setEntry], hpath hfound⟩⟩
      · cases hrun
        exact ⟨fun _ ↦ rfl, fun h ↦ absurd h Bool.false_ne_true⟩

theorem walk_run {t t' : Table} {k : ℕ} {alloc found : Bool}
    (hrun : (walk t (k * PGSIZE) alloc).run choices s = some ((found, t'), s')) :
    k < VAPAGES ∧ (∀ k', t'.get (k' * PGSIZE) = t.get (k' * PGSIZE)) ∧
      (found = true → HasPath 2 t' (px (k * PGSIZE))) := by
  rw [walk] at hrun
  split_ifs at hrun with hva
  · cases hrun
  · obtain ⟨hlookup, hpath⟩ := walkFrom_run hrun
    refine ⟨?_, fun k' ↦ hlookup _, hpath⟩
    simp only [PGSIZE, MAXVA] at hva
    simp only [VAPAGES]
    omega

theorem Table.get_put {t : Table} {k k' : ℕ} (hk : k < PAGES) (hk' : k' < PAGES)
    (hpath : HasPath 2 t (px (k * PGSIZE))) (pte : Option Pte) :
    (t.put (k * PGSIZE) pte).get (k' * PGSIZE) = if k' = k then pte else t.get (k' * PGSIZE) := by
  have hmaps := Maps.put (m := fun k ↦ t.get (k * PGSIZE)) (fun _ _ ↦ rfl) hk hpath pte k' hk'
  rw [hmaps, Function.update_apply]

theorem page_succ (k : ℕ) : k * PGSIZE + PGSIZE = (k + 1) * PGSIZE := (Nat.succ_mul k PGSIZE).symm

/-- The loop of `mappages` writes its pages and no other entry. -/
theorem mapLoop_run {perm : Perm} {n k : ℕ} {t t' : Table} {pa : Page}
    (hrun : (mapLoop perm n t (k * PGSIZE) pa).run choices s = some ((true, t'), s')) :
    k + n < VAPAGES ∧ ∀ k' < PAGES, t'.get (k' * PGSIZE) =
      if k ≤ k' ∧ k' ≤ k + n then some ⟨pa + (k' - k) * PGSIZE, perm⟩ else t.get (k' * PGSIZE) := by
  induction n generalizing k t pa choices s with
  | zero =>
    rw [mapLoop] at hrun
    obtain ⟨⟨found, t₁⟩, s₁, choices₁, hwalk, hrest⟩ := Prog.exists_of_run_bind hrun
    obtain ⟨hk, hsame, hpath⟩ := walk_run hwalk
    dsimp only at hrest
    split_ifs at hrest with hfound hremap
    · cases hrest
    · cases hrest
    · cases hrest
      refine ⟨hk, fun k' hk' ↦ ?_⟩
      rw [Table.get_put (vapages_lt hk) hk' (hpath (Bool.eq_true_of_not_eq_false hfound)), hsame]
      by_cases heq : k' = k
      · rw [if_pos heq, if_pos (by omega), heq, Nat.sub_self, Nat.zero_mul, Nat.add_zero]
      · rw [if_neg heq, if_neg (by omega)]
  | succ n ih =>
    rw [mapLoop] at hrun
    obtain ⟨⟨found, t₁⟩, s₁, choices₁, hwalk, hrest⟩ := Prog.exists_of_run_bind hrun
    obtain ⟨hk, hsame, hpath⟩ := walk_run hwalk
    dsimp only at hrest
    split_ifs at hrest with hfound hremap
    · cases hrest
    · cases hrest
    · rw [page_succ] at hrest
      obtain ⟨hbound, hget⟩ := ih hrest
      refine ⟨by omega, fun k' hk' ↦ ?_⟩
      rw [hget k' hk', Table.get_put (vapages_lt hk) hk' (hpath (Bool.eq_true_of_not_eq_false hfound)), hsame]
      rcases Nat.lt_trichotomy k' k with hlt | rfl | hgt
      · rw [if_neg (by omega), if_neg (by omega), if_neg (by omega)]
      · rw [if_neg (by omega), if_pos rfl, if_pos (by omega), Nat.sub_self, Nat.zero_mul,
          Nat.add_zero]
      · rw [if_neg (show k' ≠ k by omega)]
        have hpage : pa + PGSIZE + (k' - (k + 1)) * PGSIZE = pa + (k' - k) * PGSIZE := by
          rw [show k' - k = k' - (k + 1) + 1 by omega, Nat.add_one_mul, Nat.add_comm (_ * _),
            Nat.add_assoc]
        rw [hpage]
        exact if_congr (by omega) rfl rfl

/-- The loop of `uvmunmap` clears its pages and no other entry. -/
theorem unmapLoop_run {doFree : Bool} {n k : ℕ} {t t' : Table}
    (hrun : (unmapLoop doFree n t (k * PGSIZE)).run choices s = some (t', s')) :
    (n = 0 ∨ k + n ≤ VAPAGES) ∧ ∀ k' < PAGES, t'.get (k' * PGSIZE) =
      if k ≤ k' ∧ k' < k + n then none else t.get (k' * PGSIZE) := by
  induction n generalizing k t choices s with
  | zero =>
    cases hrun
    refine ⟨.inl rfl, fun k' _ ↦ ?_⟩
    rw [if_neg (by omega)]
  | succ n ih =>
    rw [unmapLoop] at hrun
    obtain ⟨⟨found, t₁⟩, s₁, choices₁, hwalk, hrest⟩ := Prog.exists_of_run_bind hrun
    obtain ⟨hk, hsame, hpath⟩ := walk_run hwalk
    dsimp only at hrest
    by_cases hfound : found = false
    · rw [if_pos hfound] at hrest
      cases hrest
    rw [if_neg hfound] at hrest
    cases hget : t₁.get (k * PGSIZE) with
    | none =>
      rw [hget] at hrest
      cases hrest
    | some pte =>
      rw [hget] at hrest
      dsimp only at hrest
      have hnext : ∃ s₂ choices₂, (unmapLoop doFree n (t₁.put (k * PGSIZE) none)
          (k * PGSIZE + PGSIZE)).run choices₂ s₂ = some (t', s') := by
        split_ifs at hrest with hleaf hfree
        · cases hrest
        · obtain ⟨-, s₂, choices₂, -, hrest⟩ := Prog.exists_of_run_bind hrest
          exact ⟨s₂, choices₂, hrest⟩
        · exact ⟨_, _, hrest⟩
      obtain ⟨s₂, choices₂, hrest⟩ := hnext
      rw [page_succ] at hrest
      obtain ⟨hbound, hrest⟩ := ih hrest
      refine ⟨by omega, fun k' hk' ↦ ?_⟩
      rw [hrest k' hk', Table.get_put (vapages_lt hk) hk' (hpath (Bool.eq_true_of_not_eq_false hfound)), hsame]
      rcases Nat.lt_trichotomy k' k with hlt | rfl | hgt
      · rw [if_neg (by omega), if_neg (by omega), if_neg (by omega)]
      · rw [if_neg (by omega), if_pos rfl, if_pos (by omega)]
      · rw [if_neg (show k' ≠ k by omega)]
        exact if_congr (by omega) rfl rfl

/-! ## Pages of the table -/

/-- The pages of a table in a machine that accounts for its pages. -/
theorem res_nodup {ram : Ram} {n : ℕ} {t : Tree Page (Fin 512) Pte n} {rest : Held}
    (hs : Balanced ram s (res t + rest)) : (pagesOf (res t)).Nodup := by
  have hle : pagesOf (res t) ≤ ram.pages := by
    rw [← hs.balance, pagesOf_add]
    exact (Multiset.le_add_right _ _).trans (Multiset.le_add_left _ _)
  exact Multiset.nodup_of_le hle ram.nodup

theorem path_eq_of_slot {ram : Ram} {n : ℕ} {t : Tree Page (Fin 512) Pte (n + 1)} {rest : Held}
    {path path' : ℕ → Fin 512} {l : Page × Fin 512} (hs : Balanced ram s (res t + rest))
    (h : slot n t path = some l) (h' : slot n t path' = some l) :
    ∀ level < n + 1, path level = path' level := by
  refine slot_inj ?_ h h'
  rw [← pagesOf_res]
  exact res_nodup hs

theorem freewalk_run {ram : Ram} {t : Table} {rest : Held} (hs : Balanced ram s (res t + rest))
    (hnone : ∀ k < PAGES, t.get (k * PGSIZE) = none) (choices : ℕ → Bool) :
    ∃ s', (freewalk 2 t).run choices s = some ((), s') ∧
      (s'.freelist : Multiset Page) = pagesOf (res t) + s.freelist := by
  have hwp : (freewalk 2 t).wp (Balanced ram) (fun _ h ↦ h = 0) (res t + 0) :=
    wp_freewalk (Maps.bare hnone) rfl
  rw [add_zero] at hwp
  obtain ⟨⟨⟩, s', h', hrun, hs', rfl⟩ := Prog.wp_run choices hwp hs
  refine ⟨s', hrun, ?_⟩
  have hpipes : s'.pipes = s.pipes :=
    congrArg (fun files ↦ files.2.2) ((keeps_freewalk keeps_kfree t).run hrun)
  have hbalance := hs'.balance.trans hs.balance.symm
  rw [hpipes, zero_add, pagesOf_add, ← add_assoc] at hbalance
  have hcancel := add_right_cancel hbalance
  rw [add_right_comm] at hcancel
  exact (add_right_cancel hcancel).trans (add_comm _ _)

/-- The entries after `mappages` and `uvmunmap`, whose ranges end below `MAXVA` if they come to an end;
`walk` without `alloc`; entries of different pages; and `freewalk`. -/
theorem pageTable_is_partial_map (t : Table) :
    (∀ va size pa perm choices s t' s',
      (mappages t va size pa perm).run choices s = some ((true, t'), s') →
      va + size ≤ MAXVA ∧ ∀ k < PAGES, t'.get (k * PGSIZE) =
        if pgRoundDown va ≤ k * PGSIZE ∧ k * PGSIZE ≤ pgRoundDown (va + size - 1) then
          some ⟨pa + (k * PGSIZE - pgRoundDown va), perm⟩
        else t.get (k * PGSIZE)) ∧
    (∀ va npages doFree choices s t' s',
      (uvmunmap t va npages doFree).run choices s = some (t', s') →
      (npages = 0 ∨ va + npages * PGSIZE ≤ MAXVA) ∧ ∀ k < PAGES, t'.get (k * PGSIZE) =
        if va ≤ k * PGSIZE ∧ k * PGSIZE < va + npages * PGSIZE then none else t.get (k * PGSIZE)) ∧
    (∀ va < MAXVA, ∃ found, walk t va false = pure (found, t) ∧
      ((t.get va).isSome = true → found = true)) ∧
    (∀ pte : Pte, pte.pa % PGSIZE = 0 → Pte.ofWord pte.word = some pte) ∧
    ∀ (ram : Ram) (s : Shared) (rest : Held), Balanced ram s (res t + rest) →
      (∀ k < VAPAGES, ∀ k' < VAPAGES, ∀ l, slot 2 t (px (k * PGSIZE)) = some l →
        slot 2 t (px (k' * PGSIZE)) = some l → k = k') ∧
      ((∀ k < PAGES, t.get (k * PGSIZE) = none) → ∀ choices,
        ∃ s', (freewalk 2 t).run choices s = some ((), s') ∧
          (s'.freelist : Multiset Page) = pagesOf (res t) + s.freelist ∧
            (pagesOf (res t)).Nodup) := by
  refine ⟨fun va size pa perm choices s t' s' hrun ↦ ?_,
    fun va npages doFree choices s t' s' hrun ↦ ?_, fun va hva ↦ ?_,
    fun pte hpa ↦ Pte.ofWord_word hpa, fun ram s rest hs ↦ ⟨?_, fun hnone choices ↦ ?_⟩⟩
  · rw [mappages] at hrun
    split_ifs at hrun with hsize
    · cases hrun
    have hrounds : (pgRoundDown (va + size - 1) - pgRoundDown va) / PGSIZE =
        (va + size - 1) / PGSIZE - va / PGSIZE := by
      rw [pgRoundDown, pgRoundDown, ← Nat.mul_sub_right_distrib, Nat.mul_div_cancel _ (by decide)]
    have hle : va / PGSIZE ≤ (va + size - 1) / PGSIZE := Nat.div_le_div_right (by omega)
    dsimp only at hrun
    rw [hrounds, pgRoundDown] at hrun
    obtain ⟨hbound, hget⟩ := mapLoop_run hrun
    refine ⟨?_, fun k hk ↦ ?_⟩
    · simp only [VAPAGES, PGSIZE, MAXVA] at hbound hle ⊢
      omega
    · rw [hget k hk, pgRoundDown, pgRoundDown, ← Nat.mul_sub_right_distrib]
      refine if_congr ?_ rfl rfl
      rw [Nat.mul_le_mul_right_iff (by decide), Nat.mul_le_mul_right_iff (by decide)]
      omega
  · rw [uvmunmap] at hrun
    split_ifs at hrun with haligned
    · cases hrun
    obtain ⟨k₀, rfl⟩ := exists_eq_mul_left_of_dvd (Nat.dvd_of_mod_eq_zero (not_not.mp haligned))
    obtain ⟨hbound, hget⟩ := unmapLoop_run hrun
    refine ⟨hbound.imp_right fun hbound ↦ ?_, fun k hk ↦ ?_⟩
    · rw [← Nat.add_mul]
      exact Nat.mul_le_mul_right PGSIZE hbound
    · rw [hget k hk, ← Nat.add_mul]
      refine if_congr ?_ rfl rfl
      rw [Nat.mul_le_mul_right_iff (by decide), Nat.mul_lt_mul_right (by decide)]
  · have hwalk : walk t va false = walkFrom false (px va) 2 t := by
      rw [walk, if_neg (Nat.not_le.mpr hva)]
    cases hget : t.get va with
    | none =>
      obtain ⟨found, heq⟩ := walkFrom_false (px va) t
      exact ⟨found, hwalk.trans heq, by simp⟩
    | some pte =>
      exact ⟨true, hwalk.trans (walkFrom_of_hasPath (hasPath_of_lookup hget)), fun _ ↦ rfl⟩
  · intro k hk k' hk' l hl hl'
    exact page_eq_of_px (vapages_lt hk) (vapages_lt hk') (path_eq_of_slot hs hl hl')
  · obtain ⟨s', hrun, hfree⟩ := freewalk_run hs hnone choices
    exact ⟨s', hrun, hfree, res_nodup hs⟩

/-- Two pages are mapped in an empty table. -/
theorem pageTable_is_partial_map_twoPages :
    ∃ t' s', (mappages (empty 2 KERNBASE) 0x3000 0x1001 0x87000000 { r := true }).run
        (fun _ ↦ false) smallStart = some ((true, t'), s') ∧
      t'.get (4 * PGSIZE) = some ⟨0x87001000, { r := true }⟩ ∧ t'.get (5 * PGSIZE) = none := by
  have hrun : (((mappages (empty 2 KERNBASE) 0x3000 0x1001 0x87000000 { r := true }).run
      (fun _ ↦ false) smallStart).any fun r ↦ r.1.1) = true := by decide +kernel
  obtain ⟨⟨⟨_, t'⟩, s'⟩, hr, rfl⟩ := (Option.any_eq_true _ _).mp hrun
  have hget := ((pageTable_is_partial_map _).1 _ _ _ _ _ _ _ _ hr).2
  refine ⟨t', s', hr, ?_, ?_⟩
  · rw [hget 4 (by decide)]
    decide +kernel
  · rw [hget 5 (by decide)]
    decide +kernel

end EnhancedXv6.Vm
