import EnhancedXv6.Storage.Writes
import EnhancedXv6.Vm.Addresses

/-!
# Copies between kernel and user memory

`copyin`, `copyout`, `copyinstr` and `fetchstr` on the contents of the pages, with addresses of 64 bits.
They go through the user's range page by page; what they do is what a copy byte by byte would do, where
`loc` says which byte of memory a user address stands for.
-/

namespace EnhancedXv6.Vm

open Radix Memory Resource Kernel Transition

/-- The byte of memory at a user address: below `MAXVA`, on a valid page for the user. -/
def loc (t : Table) (va : ℕ) : Option (Page × Fin PGSIZE) :=
  if va < MAXVA then
    ((t.get (pgRoundDown va)).filter fun pte ↦ pte.perm.u).map fun pte ↦
      (pte.pa, Fin.ofNat PGSIZE va)
  else none

def locAt (t : Table) (va i : ℕ) : Option (Page × Fin PGSIZE) := loc t ((va + i) % 2 ^ 64)

def byteAt (t : Table) (mem : Page → Bytes) (va i : ℕ) : Option UInt8 :=
  (locAt t va i).map fun l ↦ mem l.1 l.2

/-- All bytes of the range are below `MAXVA` and on valid user pages. -/
def UserRange (t : Table) (va len : ℕ) : Prop := ∀ i < len, (locAt t va i).isSome = true

/-- User pages are mapped to distinct physical pages. -/
def Distinct (t : Table) : Prop :=
  ∀ k k' pte pte', k * PGSIZE < MAXVA → t.get (k * PGSIZE) = some pte → pte.perm.u = true →
    k' * PGSIZE < MAXVA → t.get (k' * PGSIZE) = some pte' → pte'.perm.u = true →
    pte.pa = pte'.pa → k = k'

/-! ## The functions -/

/-- The loop of `copyin(pagetable, dst, srcva, len)`: whether it returns 0, and what it copies. -/
def copyinLoop (t : Table) (mem : Page → Bytes) : ℕ → ℕ → ℕ → Bool × List UInt8
  | 0, _, _ => (true, [])
  | rounds + 1, srcva, len =>
    if len = 0 then (true, [])
    else
      let va0 := pgRoundDown srcva
      match walkaddr t va0 with
      | none => (false, [])
      | some pa0 =>
        let n := min (PGSIZE - (srcva - va0)) len
        let rest := copyinLoop t mem rounds ((va0 + PGSIZE) % 2 ^ 64) (len - n)
        (rest.1, ((List.range n).map fun i ↦ mem pa0 (Fin.ofNat PGSIZE (srcva - va0 + i))) ++ rest.2)

def copyin (t : Table) (mem : Page → Bytes) (srcva : UInt64) (len : ℕ) : Bool × List UInt8 :=
  copyinLoop t mem len srcva.toNat len

/-- The loop of `copyout`: whether it returns 0, and the memory after it. -/
def copyoutMem (t : Table) : ℕ → ℕ → List UInt8 → (Page → Bytes) → Bool × (Page → Bytes)
  | 0, _, _, mem => (true, mem)
  | rounds + 1, dstva, src, mem =>
    if src = [] then (true, mem)
    else
      let va0 := pgRoundDown dstva
      match walkaddr t va0 with
      | none => (false, mem)
      | some pa0 =>
        let n := min (PGSIZE - (dstva - va0)) src.length
        copyoutMem t rounds ((va0 + PGSIZE) % 2 ^ 64) (src.drop n)
          (Function.update mem pa0 (patch (mem pa0) (dstva - va0) (src.take n)))

def copyoutTo (t : Table) (mem : Page → Bytes) (dstva : UInt64) (src : List UInt8) :
    Bool × (Page → Bytes) :=
  copyoutMem t src.length dstva.toNat src mem

/-- The inner loop of `copyinstr`, over `n` bytes of a page from `off` on: whether it meets a NUL, and
what it writes. -/
def stringLoop (page : Bytes) : ℕ → ℕ → Bool × List UInt8
  | 0, _ => (false, [])
  | n + 1, off =>
    let c := page (Fin.ofNat PGSIZE off)
    if c = 0 then (true, [0])
    else
      let rest := stringLoop page n (off + 1)
      (rest.1, c :: rest.2)

def copyinstrLoop (t : Table) (mem : Page → Bytes) : ℕ → ℕ → ℕ → Bool × List UInt8
  | 0, _, _ => (false, [])
  | rounds + 1, srcva, max =>
    if max = 0 then (false, [])
    else
      let va0 := pgRoundDown srcva
      match walkaddr t va0 with
      | none => (false, [])
      | some pa0 =>
        let n := min (PGSIZE - (srcva - va0)) max
        let found := stringLoop (mem pa0) n (srcva - va0)
        if found.1 = true then found
        else
          let rest := copyinstrLoop t mem rounds ((va0 + PGSIZE) % 2 ^ 64) (max - n)
          (rest.1, found.2 ++ rest.2)

/-- `copyinstr(pagetable, dst, srcva, max)`: whether it returns 0, and what it writes to `dst`. -/
def copyinstr (t : Table) (mem : Page → Bytes) (srcva : UInt64) (max : ℕ) : Bool × List UInt8 :=
  copyinstrLoop t mem max srcva.toNat max

/-- `fetchstr(addr, buf, max)`, with `none` for -1; `strlen` ends at the NUL that was copied. -/
def fetchstr (t : Table) (mem : Page → Bytes) (addr : UInt64) (max : ℕ) : Option ℕ :=
  let r := copyinstr t mem addr max
  if r.1 = true then some (r.2.takeWhile (· ≠ 0)).length else none

variable {t : Table} {mem : Page → Bytes} {va : ℕ} {pa : Page}

/-! ## Pages and bytes -/

/-- `walkaddr` finds the pages below `MAXVA` that are valid and for the user. -/
theorem walkaddr_eq_some_iff :
    walkaddr t va = some pa ↔
      va < MAXVA ∧ ∃ pte, t.get va = some pte ∧ pte.perm.u = true ∧ pte.pa = pa := by
  rw [walkaddr]
  by_cases hge : va ≥ MAXVA
  · rw [if_pos hge]
    exact iff_of_false (by simp) fun h ↦ absurd h.1 (Nat.not_lt.mpr hge)
  · rw [if_neg hge, and_iff_right (Nat.not_le.mp hge)]
    cases t.get va with
    | none => simp
    | some pte =>
      dsimp only
      split_ifs with hu <;> simp [hu]

/-- A byte is where `walkaddr` finds its page. -/
theorem loc_eq_walkaddr (t : Table) (va : ℕ) :
    loc t va = (walkaddr t (pgRoundDown va)).map fun pa ↦ (pa, Fin.ofNat PGSIZE va) := by
  have hbelow : pgRoundDown va ≥ MAXVA ↔ ¬ va < MAXVA := by
    simp only [pgRoundDown, PGSIZE, MAXVA]
    omega
  rw [loc, walkaddr]
  by_cases hva : va < MAXVA
  · rw [if_pos hva, if_neg (mt hbelow.mp (not_not.mpr hva))]
    cases t.get (pgRoundDown va) with
    | none => rfl
    | some pte =>
      dsimp only
      split_ifs with hu <;> simp [hu, Option.filter]
  · rw [if_neg hva, if_pos (hbelow.mpr hva)]
    rfl

theorem Distinct.walkaddr_inj {k k' : ℕ} (hdistinct : Distinct t)
    (h : walkaddr t (k * PGSIZE) = some pa) (h' : walkaddr t (k' * PGSIZE) = some pa) : k = k' := by
  obtain ⟨hlt, pte, hget, hu, hpa⟩ := walkaddr_eq_some_iff.mp h
  obtain ⟨hlt', pte', hget', hu', hpa'⟩ := walkaddr_eq_some_iff.mp h'
  exact hdistinct k k' pte pte' hlt hget hu hlt' hget' hu' (hpa.trans hpa'.symm)

/-- A page of the user does not end the address space. -/
theorem page_below (hwalk : walkaddr t (pgRoundDown va) = some pa) :
    pgRoundDown va + PGSIZE ≤ MAXVA := by
  have hlt := (walkaddr_eq_some_iff.mp hwalk).1
  simp only [pgRoundDown, PGSIZE, MAXVA] at hlt ⊢
  omega

theorem pgRoundDown_le (va : ℕ) : pgRoundDown va ≤ va ∧ va < pgRoundDown va + PGSIZE := by
  simp only [pgRoundDown, PGSIZE]
  omega

theorem ofNat_offset (va i : ℕ) :
    Fin.ofNat PGSIZE (va + i) = Fin.ofNat PGSIZE (va - pgRoundDown va + i) := by
  apply Fin.ext
  simp only [Fin.ofNat, pgRoundDown, PGSIZE]
  omega

/-- The bytes up to the end of the page. -/
theorem locAt_page (hwalk : walkaddr t (pgRoundDown va) = some pa) {i : ℕ}
    (hi : i < PGSIZE - (va - pgRoundDown va)) :
    locAt t va i = some (pa, Fin.ofNat PGSIZE (va - pgRoundDown va + i)) := by
  have hbelow := page_below hwalk
  have hdown := pgRoundDown_le va
  have hsmall : (va + i) % 2 ^ 64 = va + i := by
    refine Nat.mod_eq_of_lt ?_
    simp only [MAXVA] at hbelow
    omega
  have hpage : pgRoundDown (va + i) = pgRoundDown va := by
    simp only [pgRoundDown, PGSIZE] at hi hdown ⊢
    omega
  rw [locAt, hsmall, loc_eq_walkaddr, hpage, hwalk, Option.map_some, ofNat_offset]

/-- The bytes behind it. -/
theorem locAt_next (va i : ℕ) :
    locAt t va (PGSIZE - (va - pgRoundDown va) + i) =
      locAt t ((pgRoundDown va + PGSIZE) % 2 ^ 64) i := by
  have hdown := pgRoundDown_le va
  have hsum : va + (PGSIZE - (va - pgRoundDown va) + i) = pgRoundDown va + PGSIZE + i := by omega
  rw [locAt, locAt, hsum, Nat.mod_add_mod]

theorem locAt_first (hva : va < 2 ^ 64) (hwalk : walkaddr t (pgRoundDown va) = none) :
    locAt t va 0 = none := by
  rw [locAt, Nat.add_zero, Nat.mod_eq_of_lt hva, loc_eq_walkaddr, hwalk]
  rfl

theorem page_bytes (hwalk : walkaddr t (pgRoundDown va) = some pa) {n : ℕ}
    (hn : n ≤ PGSIZE - (va - pgRoundDown va)) :
    ∀ i < n, byteAt t mem va i = some (mem pa (Fin.ofNat PGSIZE (va - pgRoundDown va + i))) := by
  intro i hi
  rw [byteAt, locAt_page hwalk (hi.trans_le hn)]
  rfl

theorem bytes_behind {n : ℕ} (hn : n = PGSIZE - (va - pgRoundDown va)) :
    (fun i ↦ byteAt t mem va (n + i)) = byteAt t mem ((pgRoundDown va + PGSIZE) % 2 ^ 64) := by
  funext i
  rw [byteAt, byteAt, ← locAt_next, hn]

/-! ## copyin -/

/-- Bytes one after the other, up to the first that is not there. -/
def fetch : (ℕ → Option UInt8) → ℕ → Bool × List UInt8
  | _, 0 => (true, [])
  | f, n + 1 =>
    match f 0 with
    | none => (false, [])
    | some c =>
      let rest := fetch (fun i ↦ f (i + 1)) n
      (rest.1, c :: rest.2)

theorem fetch_add {f : ℕ → Option UInt8} {g : ℕ → UInt8} {n m : ℕ} (h : ∀ i < n, f i = some (g i)) :
    fetch f (n + m) = ((fetch (fun i ↦ f (n + i)) m).1,
      (List.range n).map g ++ (fetch (fun i ↦ f (n + i)) m).2) := by
  induction n generalizing f g with
  | zero => simp
  | succ n ih =>
    have hrest := ih (f := fun i ↦ f (i + 1)) (g := fun i ↦ g (i + 1)) fun i hi ↦ h (i + 1) (by omega)
    have hshift : ∀ i, n + i + 1 = n + 1 + i := fun i ↦ by omega
    rw [Nat.succ_add, fetch, h 0 (Nat.succ_pos n)]
    simp only [hrest, hshift, List.range_succ_eq_map, List.map_cons, List.map_map, List.cons_append]
    rfl

theorem fetch_fst {f : ℕ → Option UInt8} {n : ℕ} :
    (fetch f n).1 = true ↔ ∀ i < n, (f i).isSome = true := by
  induction n generalizing f with
  | zero => simp [fetch]
  | succ n ih =>
    rw [fetch, Nat.forall_lt_succ_left]
    cases f 0 with
    | none => simp
    | some c => simpa using ih

theorem fetch_snd {f : ℕ → Option UInt8} {g : ℕ → UInt8} {n : ℕ} (h : ∀ i < n, f i = some (g i)) :
    fetch f n = (true, (List.range n).map g) := by
  rw [← Nat.add_zero n, fetch_add h]
  simp [fetch]

theorem copyinLoop_eq {rounds len : ℕ} (hva : va < 2 ^ 64) (hrounds : len ≤ rounds) :
    copyinLoop t mem rounds va len = fetch (byteAt t mem va) len := by
  induction rounds generalizing va len with
  | zero =>
    obtain rfl := Nat.le_zero.mp hrounds
    rfl
  | succ rounds ih =>
    rw [copyinLoop]
    by_cases hlen : len = 0
    · rw [if_pos hlen, hlen]
      rfl
    · rw [if_neg hlen]
      dsimp only
      cases hwalk : walkaddr t (pgRoundDown va) with
      | none =>
        obtain ⟨n, rfl⟩ := Nat.exists_eq_succ_of_ne_zero hlen
        rw [fetch, byteAt, locAt_first hva hwalk]
        rfl
      | some pa =>
        have hdown := pgRoundDown_le va
        obtain ⟨n, hn⟩ : ∃ n, n = min (PGSIZE - (va - pgRoundDown va)) len := ⟨_, rfl⟩
        dsimp only
        rw [← hn, ih (Nat.mod_lt _ (by decide)) (by omega)]
        obtain ⟨m, rfl⟩ : ∃ m, len = n + m := ⟨len - n, by omega⟩
        rw [fetch_add (page_bytes hwalk (by omega)), Nat.add_sub_cancel_left]
        rcases Nat.eq_zero_or_pos m with rfl | hm
        · simp only [fetch]
        · rw [bytes_behind (n := n) (by omega)]

/-! ## copyout -/

/-- It is the `copyout` of the other modules without interruption. -/
theorem run_copyoutLoop (choices : ℕ → Bool) (s : Shared) (rounds : ℕ) (src : List UInt8) :
    (copyoutLoop t rounds va src).run choices s =
      some ((copyoutMem t rounds va src s.mem).1,
        { s with mem := (copyoutMem t rounds va src s.mem).2 }) := by
  induction rounds generalizing va src s choices with
  | zero => rfl
  | succ rounds ih =>
    rw [copyoutLoop, copyoutMem]
    by_cases hsrc : src = []
    · rw [if_pos hsrc, if_pos hsrc]
      rfl
    · rw [if_neg hsrc, if_neg hsrc]
      dsimp only
      cases hwalk : walkaddr t (pgRoundDown va) with
      | none => rfl
      | some pa =>
        have hbelow := page_below hwalk
        have hsmall : (pgRoundDown va + PGSIZE) % 2 ^ 64 = pgRoundDown va + PGSIZE :=
          Nat.mod_eq_of_lt (Nat.lt_of_le_of_lt hbelow (by decide))
        dsimp only
        rw [hsmall]
        exact ih _ _ _

/-- Byte `i` of the range is reached: there is a byte of memory for it and for all before it. -/
def Reached (t : Table) (va i : ℕ) : Prop := ∀ j ≤ i, (locAt t va j).isSome = true

/-- The page has the bytes `src` from offset `off` on. -/
def Holds (page : Bytes) (off : ℕ) (src : List UInt8) : Prop :=
  ∀ i < src.length, some (page (Fin.ofNat PGSIZE (off + i))) = src[i]?

theorem patch_at {bytes : Bytes} {off i : ℕ} {src : List UInt8} (hi : off + i < PGSIZE) :
    patch bytes off src (Fin.ofNat PGSIZE (off + i)) =
      src[i]?.getD (bytes (Fin.ofNat PGSIZE (off + i))) := by
  have hval : (Fin.ofNat PGSIZE (off + i)).val = off + i := Nat.mod_eq_of_lt hi
  rw [patch, if_neg (by omega), hval, Nat.add_sub_cancel_left]

theorem patch_changes {bytes : Bytes} {off : ℕ} {src : List UInt8} {o : Fin PGSIZE}
    (h : patch bytes off src o ≠ bytes o) : off ≤ o ∧ o - off < src.length := by
  have hoff : off ≤ o := by
    by_contra hlt
    exact h (if_pos (Nat.not_le.mp hlt))
  refine ⟨hoff, ?_⟩
  by_contra hlen
  apply h
  rw [patch, if_neg (Nat.not_lt.mpr hoff), List.getElem?_eq_none (Nat.not_lt.mp hlen), Option.getD_none]

theorem copyoutMem_fst {rounds : ℕ} {src : List UInt8} (hva : va < 2 ^ 64)
    (hrounds : src.length ≤ rounds) :
    (copyoutMem t rounds va src mem).1 = true ↔ UserRange t va src.length := by
  induction rounds generalizing va src mem with
  | zero =>
    obtain rfl := List.eq_nil_of_length_eq_zero (Nat.le_zero.mp hrounds)
    exact iff_of_true rfl fun i hi ↦ absurd hi (Nat.not_lt_zero i)
  | succ rounds ih =>
    rw [copyoutMem]
    by_cases hsrc : src = []
    · subst hsrc
      exact iff_of_true rfl fun i hi ↦ absurd hi (Nat.not_lt_zero i)
    · have hpos := List.length_pos_of_ne_nil hsrc
      rw [if_neg hsrc]
      dsimp only
      cases hwalk : walkaddr t (pgRoundDown va) with
      | none =>
        refine iff_of_false Bool.false_ne_true fun h ↦ ?_
        have h0 := h 0 hpos
        rw [locAt_first hva hwalk] at h0
        cases h0
      | some pa =>
        have hdown := pgRoundDown_le va
        dsimp only
        rw [ih (Nat.mod_lt _ (by decide)) (by rw [List.length_drop]; omega), List.length_drop]
        constructor
        · intro h i hi
          by_cases hpage : i < PGSIZE - (va - pgRoundDown va)
          · rw [locAt_page hwalk hpage]
            rfl
          · have hnext := h (i - (PGSIZE - (va - pgRoundDown va))) (by omega)
            rwa [← locAt_next, Nat.add_sub_cancel' (Nat.not_lt.mp hpage)] at hnext
        · intro h i hi
          rw [← locAt_next]
          exact h _ (by omega)

/-! The bytes that are reached lie in one piece below `MAXVA`, and at distinct locations. -/

theorem loc_eq_some {o : Fin PGSIZE} (h : loc t va = some (pa, o)) :
    walkaddr t (va / PGSIZE * PGSIZE) = some pa ∧ o.val = va % PGSIZE := by
  rw [loc_eq_walkaddr, Option.map_eq_some_iff] at h
  obtain ⟨pa', hwalk, heq⟩ := h
  cases heq
  exact ⟨hwalk, rfl⟩

theorem Reached.lt {i : ℕ} (hva : va < 2 ^ 64) (h : Reached t va i) : va + i < MAXVA := by
  have hloc : ∀ x, (loc t x).isSome = true → x < MAXVA := by
    intro x hx
    obtain ⟨⟨pa, o⟩, hl⟩ := Option.isSome_iff_exists.mp hx
    have hbelow := page_below (loc_eq_some hl).1
    have hdown := pgRoundDown_le x
    simp only [pgRoundDown, PGSIZE] at hbelow hdown
    omega
  induction i with
  | zero =>
    have h0 := hloc _ (h 0 le_rfl)
    rwa [Nat.add_zero, Nat.mod_eq_of_lt hva] at h0
  | succ i ih =>
    have hlt := ih fun j hj ↦ h j (by omega)
    have hnext := hloc _ (h (i + 1) le_rfl)
    rw [Nat.mod_eq_of_lt (by simp only [MAXVA] at hlt; omega)] at hnext
    omega

theorem Distinct.loc_inj {va' : ℕ} (hdistinct : Distinct t) {l : Page × Fin PGSIZE}
    (h : loc t va = some l) (h' : loc t va' = some l) : va = va' := by
  obtain ⟨pa, o⟩ := l
  obtain ⟨hwalk, ho⟩ := loc_eq_some h
  obtain ⟨hwalk', ho'⟩ := loc_eq_some h'
  have hpage := hdistinct.walkaddr_inj hwalk hwalk'
  calc va = PGSIZE * (va / PGSIZE) + va % PGSIZE := (Nat.div_add_mod _ _).symm
    _ = PGSIZE * (va' / PGSIZE) + va' % PGSIZE := by rw [hpage, ← ho, ho']
    _ = va' := Nat.div_add_mod _ _

theorem Distinct.locAt_inj (hdistinct : Distinct t) (hva : va < 2 ^ 64) {i j : ℕ}
    (hi : Reached t va i) (hj : Reached t va j) (heq : locAt t va i = locAt t va j) : i = j := by
  obtain ⟨l, hl⟩ := Option.isSome_iff_exists.mp (hi i le_rfl)
  have hsum := hdistinct.loc_inj hl (heq.symm.trans hl)
  have hlt := hi.lt hva
  have hlt' := hj.lt hva
  simp only [MAXVA] at hlt hlt'
  omega

/-- Where bytes are stored one after the other, up to the first that has no place. -/
def placed {L : Type} : (ℕ → Option L) → List UInt8 → List (L × UInt8)
  | _, [] => []
  | f, c :: src =>
    match f 0 with
    | none => []
    | some l => (l, c) :: placed (fun i ↦ f (i + 1)) src

/-- A byte is stored if it and all before it have a place. -/
theorem mem_placed {L : Type} {f : ℕ → Option L} {src : List UInt8} {l : L} {c : UInt8} :
    (l, c) ∈ placed f src ↔
      ∃ i, (∀ j ≤ i, (f j).isSome = true) ∧ f i = some l ∧ src[i]? = some c := by
  induction src generalizing f with
  | nil => simp [placed]
  | cons x src ih =>
    rw [placed]
    cases hf : f 0 with
    | none =>
      refine iff_of_false List.not_mem_nil ?_
      rintro ⟨i, hall, -⟩
      simpa [hf] using hall 0 (Nat.zero_le i)
    | some l₀ =>
      rw [List.mem_cons, ih, Prod.mk.injEq]
      constructor
      · rintro (⟨rfl, rfl⟩ | ⟨i, hall, hl, hc⟩)
        · exact ⟨0, fun j hj ↦ by simp [Nat.le_zero.mp hj, hf], hf, rfl⟩
        · refine ⟨i + 1, fun j hj ↦ ?_, hl, hc⟩
          cases j with
          | zero => simp [hf]
          | succ j => exact hall j (by omega)
      · rintro ⟨i, hall, hl, hc⟩
        cases i with
        | zero => exact .inl ⟨Option.some.inj (hl.symm.trans hf), (Option.some.inj hc).symm⟩
        | succ i => exact .inr ⟨i, fun j hj ↦ hall (j + 1) (by omega), hl, hc⟩

theorem patch_cons (bytes : Bytes) {off : ℕ} (hoff : off < PGSIZE) (c : UInt8) (src : List UInt8) :
    patch bytes off (c :: src) =
      patch (Function.update bytes (Fin.ofNat PGSIZE off) c) (off + 1) src := by
  have hval : (Fin.ofNat PGSIZE off).val = off := Nat.mod_eq_of_lt hoff
  funext o
  rcases Nat.lt_trichotomy o.val off with hlt | heq | hgt
  · have hne : o ≠ Fin.ofNat PGSIZE off := fun h ↦ by rw [h, hval] at hlt; exact lt_irrefl _ hlt
    rw [patch, patch, if_pos hlt, if_pos (by omega), Function.update_of_ne hne]
  · obtain rfl : o = Fin.ofNat PGSIZE off := Fin.ext (heq.trans hval.symm)
    rw [patch, patch, if_neg (by omega), if_pos (by omega), hval, Nat.sub_self, Function.update_self]
    rfl
  · have hne : o ≠ Fin.ofNat PGSIZE off := fun h ↦ by rw [h, hval] at hgt; exact lt_irrefl _ hgt
    obtain ⟨d, hd⟩ : ∃ d, o.val = off + 1 + d := ⟨o.val - (off + 1), by omega⟩
    rw [patch, patch, if_neg (by omega), if_neg (by omega), Function.update_of_ne hne, hd,
      Nat.add_assoc, Nat.add_sub_cancel_left, ← Nat.add_assoc, Nat.add_sub_cancel_left, Nat.add_comm 1,
      List.getElem?_cons_succ]

/-- The bytes of one page. -/
theorem applyWrites_page {f : ℕ → Option (Page × Fin PGSIZE)} {off : ℕ} {src : List UInt8}
    (hoff : off + src.length ≤ PGSIZE)
    (hf : ∀ i < src.length, f i = some (pa, Fin.ofNat PGSIZE (off + i))) (rest : List UInt8) :
    Storage.applyWrites (Function.uncurry mem) (placed f (src ++ rest)) =
      Storage.applyWrites (Function.uncurry (Function.update mem pa (patch (mem pa) off src)))
        (placed (fun i ↦ f (src.length + i)) rest) := by
  induction src generalizing f off mem with
  | nil =>
    have hpatch : patch (mem pa) off [] = mem pa := by
      funext o
      simp [patch]
    simp [hpatch]
  | cons c src ih =>
    rw [List.length_cons] at hoff hf
    have hfirst := hf 0 (Nat.succ_pos _)
    have hshift : ∀ i, src.length + i + 1 = src.length + 1 + i := fun i ↦ by omega
    rw [List.cons_append, placed, hfirst, Nat.add_zero]
    dsimp only
    have hrest : ∀ i < src.length, f (i + 1) = some (pa, Fin.ofNat PGSIZE (off + 1 + i)) := by
      intro i hi
      rw [hf (i + 1) (by omega), Nat.add_right_comm, Nat.add_assoc]
    rw [Storage.applyWrites_cons, ← Function.uncurry_update_update, ih (by omega) hrest]
    simp only [Function.update_self, Function.update_idem, hshift, List.length_cons,
      patch_cons (mem pa) (by omega : off < PGSIZE)]

/-- Page by page, the bytes are stored one after the other. -/
theorem copyoutMem_eq_applyWrites (mem : Page → Bytes) {rounds : ℕ} {src : List UInt8}
    (hva : va < 2 ^ 64) (hrounds : src.length ≤ rounds) :
    Function.uncurry (copyoutMem t rounds va src mem).2 =
      Storage.applyWrites (Function.uncurry mem) (placed (locAt t va) src) := by
  induction rounds generalizing va src mem with
  | zero =>
    obtain rfl := List.eq_nil_of_length_eq_zero (Nat.le_zero.mp hrounds)
    rfl
  | succ rounds ih =>
    rw [copyoutMem]
    by_cases hsrc : src = []
    · rw [if_pos hsrc, hsrc]
      rfl
    · have hpos := List.length_pos_of_ne_nil hsrc
      rw [if_neg hsrc]
      dsimp only
      cases hwalk : walkaddr t (pgRoundDown va) with
      | none =>
        obtain ⟨c, rest, rfl⟩ := List.exists_cons_of_ne_nil hsrc
        rw [placed, locAt_first hva hwalk]
        rfl
      | some pa =>
        have hdown := pgRoundDown_le va
        obtain ⟨n, hn⟩ : ∃ n, n = min (PGSIZE - (va - pgRoundDown va)) src.length := ⟨_, rfl⟩
        have hlen : (src.take n).length = n := by
          rw [List.length_take]
          omega
        dsimp only
        rw [← hn, ih _ (Nat.mod_lt _ (by decide)) (by rw [List.length_drop]; omega)]
        conv_rhs => rw [← List.take_append_drop n src]
        have hplaced : ∀ i < (src.take n).length,
            locAt t va i = some (pa, Fin.ofNat PGSIZE (va - pgRoundDown va + i)) :=
          fun i hi ↦ locAt_page hwalk (by omega)
        rw [applyWrites_page (by rw [hlen]; omega) hplaced, hlen]
        by_cases hrest : n = src.length
        · rw [hrest, List.drop_length, placed, placed]
        · have hnext : (fun i ↦ locAt t va (n + i)) =
              locAt t ((pgRoundDown va + PGSIZE) % 2 ^ 64) := by
            funext i
            rw [← locAt_next, show n = PGSIZE - (va - pgRoundDown va) by omega]
          rw [hnext]

/-- What is changed was reached. -/
theorem copyoutMem_changes {rounds : ℕ} {src : List UInt8} {o : Fin PGSIZE} (hva : va < 2 ^ 64)
    (hrounds : src.length ≤ rounds) (h : (copyoutMem t rounds va src mem).2 pa o ≠ mem pa o) :
    ∃ i < src.length, Reached t va i ∧ locAt t va i = some (pa, o) := by
  have hbytes := congrFun (copyoutMem_eq_applyWrites (t := t) mem hva hrounds) (pa, o)
  by_cases hkey : (pa, o) ∈ (placed (locAt t va) src).map Prod.fst
  · obtain ⟨i, hreached, hloc, hc⟩ := mem_placed.mp
      (Storage.applyWrites_mem (s := Function.uncurry mem) hkey)
    exact ⟨i, (List.getElem?_eq_some_iff.mp hc).1, hreached, hloc⟩
  · exact absurd (hbytes.trans (Storage.applyWrites_of_notMem hkey)) h

/-- What is reached is written. -/
theorem copyoutMem_writes {rounds : ℕ} {src : List UInt8} (hva : va < 2 ^ 64)
    (hrounds : src.length ≤ rounds) (hdistinct : Distinct t) {i : ℕ} {c : UInt8} {o : Fin PGSIZE}
    (hreached : Reached t va i) (hc : src[i]? = some c) (hloc : locAt t va i = some (pa, o)) :
    (copyoutMem t rounds va src mem).2 pa o = c := by
  have hbytes := congrFun (copyoutMem_eq_applyWrites (t := t) mem hva hrounds) (pa, o)
  have hkey : (pa, o) ∈ (placed (locAt t va) src).map Prod.fst :=
    List.mem_map.mpr ⟨((pa, o), c), mem_placed.mpr ⟨i, hreached, hloc, hc⟩, rfl⟩
  -- another byte at this place would be at the same address
  obtain ⟨j, hreachedj, hlocj, hcj⟩ := mem_placed.mp
    (Storage.applyWrites_mem (s := Function.uncurry mem) hkey)
  obtain rfl := hdistinct.locAt_inj hva hreached hreachedj (hloc.trans hlocj.symm)
  exact hbytes.trans (Option.some.inj (hcj.symm.trans hc))

theorem byteAt_of_reached {i : ℕ} (h : Reached t va i) :
    ∃ pa o, locAt t va i = some (pa, o) ∧ ∀ mem, byteAt t mem va i = some (mem pa o) := by
  obtain ⟨⟨pa, o⟩, hl⟩ := Option.isSome_iff_exists.mp (h i le_rfl)
  refine ⟨pa, o, hl, fun mem ↦ ?_⟩
  rw [byteAt, hl]
  rfl

theorem UserRange.reached {len i : ℕ} (h : UserRange t va len) (hi : i < len) : Reached t va i :=
  fun j hj ↦ h j (hj.trans_lt hi)

theorem copyin_eq (va : UInt64) (len : ℕ) :
    copyin t mem va len = fetch (byteAt t mem va.toNat) len :=
  copyinLoop_eq va.toNat_lt le_rfl

theorem copyin_of_userRange {va : UInt64} {bytes : List UInt8}
    (h : ∀ i < bytes.length, byteAt t mem va.toNat i = bytes[i]?) :
    copyin t mem va bytes.length = (true, bytes) := by
  have hsome : ∀ i < bytes.length, byteAt t mem va.toNat i = some (bytes[i]?.getD 0) := by
    intro i hi
    rw [h i hi, List.getElem?_eq_getElem hi, Option.getD_some]
  rw [copyin_eq, fetch_snd hsome]
  refine Prod.ext rfl (List.ext_getElem (by simp) fun i hi hi' ↦ ?_)
  simp [List.getElem?_eq_getElem hi']

theorem copyin_succeeds (va : UInt64) (len : ℕ) :
    (copyin t mem va len).1 = true ↔ UserRange t va.toNat len := by
  rw [copyin_eq, fetch_fst]
  simp only [byteAt, Option.isSome_map]
  rfl

theorem copyoutTo_writes (hdistinct : Distinct t) {va : UInt64} {src : List UInt8} {i : ℕ}
    (hi : i < src.length) (hreached : Reached t va.toNat i) :
    byteAt t (copyoutTo t mem va src).2 va.toNat i = src[i]? := by
  obtain ⟨pa, o, hloc, hbyte⟩ := byteAt_of_reached hreached
  have hc := List.getElem?_eq_getElem hi
  rw [hbyte, hc, copyoutTo, copyoutMem_writes va.toNat_lt le_rfl hdistinct hreached hc hloc]

theorem userRange_first_page (hwalk : (walkaddr t 0).isSome = true) {len : ℕ}
    (hlen : va + len ≤ PGSIZE) : UserRange t va len := by
  intro i hi
  have hpage : pgRoundDown ((va + i) % 2 ^ 64) = 0 := by
    simp only [pgRoundDown, PGSIZE] at hlen ⊢
    omega
  rw [locAt, loc_eq_walkaddr, Option.isSome_map, hpage, hwalk]

/-- The user pages of a process are all its own. -/
theorem Image.distinct {trampoline : Page} {p : Proc} {ups : List UPage}
    (himage : Image trampoline p ups) (hnodup : (ups.map UPage.pa).Nodup) : Distinct p.pagetable := by
  have hpage : ∀ k pte, k * PGSIZE < MAXVA → p.pagetable.get (k * PGSIZE) = some pte →
      pte.perm.u = true → (ups.map UPage.pa)[k]? = some pte.pa := by
    intro k pte hlt hget hu
    have hk : k < PAGES := by
      simp only [PGSIZE, MAXVA] at hlt
      simp only [PAGES]
      omega
    rw [himage.get_eq hk] at hget
    cases hups : ups[k]? with
    | none =>
      -- the trampoline and the trapframe are not for the user
      rw [hups, Option.elim_none, layout] at hget
      split_ifs at hget <;> cases hget <;> cases hu
    | some u =>
      rw [hups, Option.elim_some] at hget
      cases hget
      rw [List.getElem?_map, hups]
      rfl
  intro k k' pte pte' hlt hget hu hlt' hget' hu' hpa
  have hk := hpage k pte hlt hget hu
  have hk' := hpage k' pte' hlt' hget' hu'
  obtain ⟨hbound, -⟩ := List.getElem?_eq_some_iff.mp hk
  exact (List.getElem?_inj hbound hnodup).mp (hk.trans (by rw [hk', hpa]))

theorem Live.distinct {trampoline : Page} {ram : Ram} {w w₀ : World} {i : Slot} {p : Proc}
    (hboots : Boots trampoline ram w₀) (hw : (system trampoline w₀).Reachable (fun _ _ ↦ True) w)
    (hlive : Live w i p) : Distinct p.pagetable := by
  obtain ⟨held, hsound⟩ := reachable_sound hboots hw
  obtain ⟨ups, himage, hheld⟩ := hlive.owns hsound
  have hnodup := hsound.nodup_at i
  rw [hheld, Proc.holds, pagesOf_add, pagesOf_add, pagesOf_dataOf] at hnodup
  exact himage.distinct (Multiset.nodup_of_le (Multiset.le_add_left _ _)
    (Multiset.nodup_of_le (Multiset.le_add_right _ _) hnodup))

/-- Both copies succeed if all bytes of the range are there, they then transfer exactly these, and what
was copied out is copied in again. -/
theorem userCopies_are_exact (hdistinct : Distinct t) (mem : Page → Bytes) (va : UInt64) :
    (∀ len, ((copyin t mem va len).1 = true ↔ UserRange t va.toNat len) ∧
      (UserRange t va.toNat len → (copyin t mem va len).2.length = len ∧
        ∀ i < len, (copyin t mem va len).2[i]? = byteAt t mem va.toNat i)) ∧
    ∀ src, ((copyoutTo t mem va src).1 = true ↔ UserRange t va.toNat src.length) ∧
      (UserRange t va.toNat src.length →
        (∀ i < src.length, byteAt t (copyoutTo t mem va src).2 va.toNat i = src[i]?) ∧
        (∀ pa o, (∀ i < src.length, locAt t va.toNat i ≠ some (pa, o)) →
          (copyoutTo t mem va src).2 pa o = mem pa o) ∧
        copyin t (copyoutTo t mem va src).2 va src.length = (true, src)) := by
  refine ⟨fun len ↦ ⟨copyin_succeeds va len, fun hrange ↦ ?_⟩, fun src ↦ ⟨?_, fun hrange ↦ ?_⟩⟩
  · have hsome : ∀ i < len, byteAt t mem va.toNat i = some ((byteAt t mem va.toNat i).getD 0) := by
      intro i hi
      obtain ⟨pa, o, -, hbyte⟩ := byteAt_of_reached (hrange.reached hi)
      rw [hbyte, Option.getD_some]
    rw [copyin_eq, fetch_snd hsome]
    refine ⟨by simp, fun i hi ↦ ?_⟩
    rw [List.getElem?_map, List.getElem?_range hi, Option.map_some, ← hsome i hi]
  · exact copyoutMem_fst va.toNat_lt le_rfl
  · have hwrites : ∀ i < src.length,
        byteAt t (copyoutTo t mem va src).2 va.toNat i = src[i]? := fun i hi ↦
      copyoutTo_writes hdistinct hi (hrange.reached hi)
    refine ⟨hwrites, fun pa o hout ↦ ?_, copyin_of_userRange hwrites⟩
    by_contra hne
    obtain ⟨i, hi, -, hloc⟩ := copyoutMem_changes va.toNat_lt le_rfl hne
    exact hout i hi hloc

theorem userCopies_are_exact_child :
    ∃ w p, Live w 1 p ∧
      copyin p.pagetable (copyoutTo p.pagetable w.shared.mem 8 [1, 2, 3]).2 8 3 = (true, [1, 2, 3]) := by
  obtain ⟨w₀, w, -, p, hboots, hw, -, hp, -, hwalk, -⟩ := exists_pipedChild
  have hp : Live w 1 p := .inl hp
  have hexact := userCopies_are_exact (Live.distinct hboots hw hp) w.shared.mem 8
  exact ⟨w, p, hp, ((hexact.2 [1, 2, 3]).2 (userRange_first_page hwalk (by decide))).2.2⟩

/-! ## Pages without `PTE_W` -/

def Writable (t : Table) (va : ℕ) : Prop :=
  ∃ pte, t.get (pgRoundDown va) = some pte ∧ pte.perm.u = true ∧ pte.perm.w = true

/-- Whatever `copyout` copies to a range, it changes only what the user may write, and fails for a range
with anything else. -/
def KeepsToWritable (t : Table) (va : UInt64) (len : ℕ) : Prop :=
  ∀ mem src, src.length = len →
    (∀ pa o, (copyoutTo t mem va src).2 pa o ≠ mem pa o →
      ∃ i < len, locAt t va.toNat i = some (pa, o) ∧ Writable t ((va.toNat + i) % 2 ^ 64)) ∧
    ((∃ i < len, ¬ Writable t ((va.toNat + i) % 2 ^ 64)) → (copyoutTo t mem va src).1 = false)

/-- `walkaddr` does not look at `PTE_W`: the pages up to the first that is missing must have it. -/
theorem keepsToWritable_iff (hdistinct : Distinct t) (va : UInt64) (len : ℕ) :
    KeepsToWritable t va len ↔
      ∀ i < len, Reached t va.toNat i → Writable t ((va.toNat + i) % 2 ^ 64) := by
  constructor
  · intro hkeeps i hi hreached
    -- ones over zeros: every byte that is reached changes
    obtain ⟨pa, o, hloc, hbyte⟩ := byteAt_of_reached hreached
    have hlen : (List.replicate len (1 : UInt8)).length = len := List.length_replicate
    have hwrites : byteAt t (copyoutTo t (fun _ ↦ zeros) va (List.replicate len 1)).2 va.toNat i =
        (List.replicate len 1)[i]? := copyoutTo_writes hdistinct (by rwa [hlen]) hreached
    rw [hbyte, List.getElem?_replicate_of_lt hi, Option.some_inj] at hwrites
    have hchanged : (copyoutTo t (fun _ ↦ zeros) va (List.replicate len 1)).2 pa o ≠ zeros o := by
      rw [hwrites]
      exact (by decide : (1 : UInt8) ≠ 0)
    obtain ⟨i', -, hloc', hwritable⟩ := (hkeeps _ _ hlen).1 pa o hchanged
    rwa [hdistinct.loc_inj hloc hloc']
  · intro h mem src hlen
    subst hlen
    refine ⟨fun pa o hne ↦ ?_, ?_⟩
    · obtain ⟨i, hi, hreached, hloc⟩ := copyoutMem_changes va.toNat_lt le_rfl hne
      exact ⟨i, hi, hloc, h i hi hreached⟩
    · rintro ⟨i, hi, hnot⟩
      refine Bool.eq_false_iff.mpr fun hok ↦ hnot (h i hi ?_)
      exact ((copyoutMem_fst va.toNat_lt le_rfl).mp hok).reached hi

/-- `walkaddr` does not look at `PTE_W`: for a process of any run, the pages up to the first that is
missing must have it. -/
theorem copyout_keepsToWritable_iff {trampoline : Page} {ram : Ram} {w w₀ : World} {i : Slot}
    {p : Proc} (hboots : Boots trampoline ram w₀)
    (hw : (system trampoline w₀).Reachable (fun _ _ ↦ True) w) (hlive : Live w i p) (va : UInt64)
    (len : ℕ) :
    KeepsToWritable p.pagetable va len ↔
      ∀ j < len, Reached p.pagetable va.toNat j → Writable p.pagetable ((va.toNat + j) % 2 ^ 64) :=
  keepsToWritable_iff (Live.distinct hboots hw hlive) va len

theorem copyout_keepsToWritable_iff_child :
    ∃ w p, Live w 1 p ∧ (KeepsToWritable p.pagetable 8 4 ↔
      ∀ j < 4, Reached p.pagetable 8 j → Writable p.pagetable ((8 + j) % 2 ^ 64)) := by
  obtain ⟨w₀, w, -, p, hboots, hw, -, hp, -⟩ := exists_pipedChild
  have hp : Live w 1 p := .inl hp
  exact ⟨w, p, hp, copyout_keepsToWritable_iff hboots hw hp 8 4⟩

/-- `init` execs a program that is all text. -/
def execText : Prog Shared (Option Proc) := do
  match ← userinit KERNBASE [] 1 with
  | none => pure none
  | some p => do
    let (argc, p) ← exec KERNBASE p [] (some (2, textFile)) []
    pure (argc.map fun _ ↦ p)

/-- `wait(8)` can store a status in the text of this program. -/
theorem copyout_writes_text :
    ∃ p s, execText.run (fun _ ↦ false) smallStart = some (some p, s) ∧
      ¬ KeepsToWritable p.pagetable 8 4 := by
  have hrun : ((execText.run (fun _ ↦ false) smallStart).bind Prod.fst).map (fun p ↦
      ((walkaddr p.pagetable 0).isSome, (p.pagetable.get 0).map Pte.perm)) =
        some (true, some { r := true, x := true, u := true }) := by
    decide +kernel
  obtain ⟨p, hp, heq⟩ := Option.map_eq_some_iff.mp hrun
  obtain ⟨⟨r, s⟩, hr, rfl⟩ := Option.bind_eq_some_iff.mp hp
  obtain ⟨hwalk, hperm⟩ := Prod.mk.inj heq
  refine ⟨p, s, hr, fun hkeeps ↦ ?_⟩
  have hfails := (hkeeps (fun _ ↦ zeros) [0, 0, 0, 0] rfl).2 ⟨0, by decide, ?_⟩
  · exact Bool.eq_false_iff.mp hfails
      ((copyoutMem_fst (UInt64.toNat_lt 8) le_rfl).mpr (userRange_first_page hwalk (by decide)))
  · rintro ⟨pte, hget, -, hw⟩
    rw [show pgRoundDown ((UInt64.toNat 8 + 0) % 2 ^ 64) = 0 from rfl] at hget
    rw [hget, Option.map_some, Option.some_inj] at hperm
    rw [hperm] at hw
    cases hw

/-! ## copyinstr -/

/-- Bytes one after the other up to a NUL, at most `n`. -/
def fetchString : (ℕ → Option UInt8) → ℕ → Bool × List UInt8
  | _, 0 => (false, [])
  | f, n + 1 =>
    match f 0 with
    | none => (false, [])
    | some c =>
      if c = 0 then (true, [0])
      else
        let rest := fetchString (fun i ↦ f (i + 1)) n
        (rest.1, c :: rest.2)

/-- The string `s` and its NUL are there. -/
def StringAt (f : ℕ → Option UInt8) (s : List UInt8) : Prop :=
  0 ∉ s ∧ ∀ i ≤ s.length, f i = (s ++ [0])[i]?

theorem stringAt_cons {f : ℕ → Option UInt8} {c : UInt8} {s : List UInt8} :
    StringAt f (c :: s) ↔ c ≠ 0 ∧ f 0 = some c ∧ StringAt (fun i ↦ f (i + 1)) s := by
  simp only [StringAt, List.mem_cons, not_or, List.length_cons, List.cons_append, Nat.le_iff_lt_add_one,
    Nat.forall_lt_succ_left, List.getElem?_cons_zero, List.getElem?_cons_succ, ne_comm (a := c)]
  tauto

theorem fetchString_add {f : ℕ → Option UInt8} {page : Bytes} {off n m : ℕ}
    (h : ∀ i < n, f i = some (page (Fin.ofNat PGSIZE (off + i)))) :
    fetchString f (n + m) =
      if (stringLoop page n off).1 = true then stringLoop page n off
      else ((fetchString (fun i ↦ f (n + i)) m).1,
        (stringLoop page n off).2 ++ (fetchString (fun i ↦ f (n + i)) m).2) := by
  induction n generalizing f off with
  | zero => simp [stringLoop]
  | succ n ih =>
    have hpage : ∀ i < n, f (i + 1) = some (page (Fin.ofNat PGSIZE (off + 1 + i))) := fun i hi ↦ by
      rw [h (i + 1) (by omega), Nat.add_right_comm, Nat.add_assoc]
    have hrest := ih (f := fun i ↦ f (i + 1)) hpage
    have hshift : ∀ i, n + i + 1 = n + 1 + i := fun i ↦ by omega
    rw [Nat.succ_add, fetchString, h 0 (Nat.succ_pos n), stringLoop]
    simp only [Nat.add_zero, hrest, hshift]
    split <;> simp
    split <;> simp

theorem fetchString_length (f : ℕ → Option UInt8) (n : ℕ) : (fetchString f n).2.length ≤ n := by
  induction n generalizing f with
  | zero => exact le_rfl
  | succ n ih =>
    rw [fetchString]
    cases f 0 with
    | none => exact Nat.zero_le _
    | some c =>
      dsimp only
      split
      · exact Nat.succ_le_succ (Nat.zero_le n)
      · exact Nat.succ_le_succ (ih _)

theorem fetchString_of_stringAt {f : ℕ → Option UInt8} {s : List UInt8} {n : ℕ} (hn : s.length < n)
    (h : StringAt f s) : fetchString f n = (true, s ++ [0]) := by
  induction s generalizing f n with
  | nil =>
    obtain ⟨n, rfl⟩ := Nat.exists_eq_succ_of_ne_zero (Nat.ne_zero_of_lt hn)
    rw [fetchString, h.2 0 le_rfl]
    rfl
  | cons c s ih =>
    obtain ⟨hc, h0, hs⟩ := stringAt_cons.mp h
    obtain ⟨n, rfl⟩ := Nat.exists_eq_succ_of_ne_zero (Nat.ne_zero_of_lt hn)
    rw [fetchString, h0]
    dsimp only
    rw [if_neg hc, ih (Nat.lt_of_succ_lt_succ hn) hs]
    rfl

theorem exists_stringAt {f : ℕ → Option UInt8} {n : ℕ} (h : (fetchString f n).1 = true) :
    ∃ s, s.length < n ∧ StringAt f s := by
  induction n generalizing f with
  | zero => cases h
  | succ n ih =>
    rw [fetchString] at h
    cases h0 : f 0 with
    | none =>
      rw [h0] at h
      cases h
    | some c =>
      rw [h0] at h
      dsimp only at h
      by_cases hc : c = 0
      · refine ⟨[], Nat.succ_pos n, List.not_mem_nil, fun i hi ↦ ?_⟩
        rw [Nat.le_zero.mp hi, h0, hc]
        rfl
      · rw [if_neg hc] at h
        obtain ⟨s, hlt, hs⟩ := ih h
        exact ⟨c :: s, Nat.succ_lt_succ hlt, stringAt_cons.mpr ⟨hc, h0, hs⟩⟩

theorem copyinstrLoop_eq {rounds max : ℕ} (hva : va < 2 ^ 64) (hrounds : max ≤ rounds) :
    copyinstrLoop t mem rounds va max = fetchString (byteAt t mem va) max := by
  induction rounds generalizing va max with
  | zero =>
    obtain rfl := Nat.le_zero.mp hrounds
    rfl
  | succ rounds ih =>
    rw [copyinstrLoop]
    by_cases hmax : max = 0
    · rw [if_pos hmax, hmax]
      rfl
    · rw [if_neg hmax]
      dsimp only
      cases hwalk : walkaddr t (pgRoundDown va) with
      | none =>
        obtain ⟨n, rfl⟩ := Nat.exists_eq_succ_of_ne_zero hmax
        rw [fetchString, byteAt, locAt_first hva hwalk]
        rfl
      | some pa =>
        have hdown := pgRoundDown_le va
        obtain ⟨n, hn⟩ : ∃ n, n = min (PGSIZE - (va - pgRoundDown va)) max := ⟨_, rfl⟩
        dsimp only
        rw [← hn, ih (Nat.mod_lt _ (by decide)) (by omega)]
        obtain ⟨m, rfl⟩ : ∃ m, max = n + m := ⟨max - n, by omega⟩
        rw [fetchString_add (page_bytes hwalk (by omega)), Nat.add_sub_cancel_left]
        rcases Nat.eq_zero_or_pos m with rfl | hm
        · simp only [fetchString]
        · rw [bytes_behind (n := n) (by omega)]

/-- `copyinstr` finds the string if it is there with its NUL in the first `max` bytes; it writes no more
than these. -/
theorem copyinstr_is_exact (t : Table) (mem : Page → Bytes) (va : UInt64) (max : ℕ) :
    ((copyinstr t mem va max).1 = true ↔
      ∃ s, s.length < max ∧ StringAt (byteAt t mem va.toNat) s) ∧
    (∀ s, s.length < max → StringAt (byteAt t mem va.toNat) s →
      copyinstr t mem va max = (true, s ++ [0]) ∧ fetchstr t mem va max = some s.length) ∧
    (copyinstr t mem va max).2.length ≤ max ∧
    ((¬ ∃ s, s.length < max ∧ StringAt (byteAt t mem va.toNat) s) → fetchstr t mem va max = none) := by
  have heq : copyinstr t mem va max = fetchString (byteAt t mem va.toNat) max :=
    copyinstrLoop_eq va.toNat_lt le_rfl
  rw [fetchstr, heq]
  have hiff : (fetchString (byteAt t mem va.toNat) max).1 = true ↔
      ∃ s, s.length < max ∧ StringAt (byteAt t mem va.toNat) s := by
    refine ⟨exists_stringAt, ?_⟩
    rintro ⟨s, hlt, hs⟩
    rw [fetchString_of_stringAt hlt hs]
  refine ⟨hiff, fun s hlt hs ↦ ?_, fetchString_length _ _, fun hnone ↦ if_neg (mt hiff.mp hnone)⟩
  rw [fetchString_of_stringAt hlt hs]
  refine ⟨rfl, ?_⟩
  have hnul : ∀ c ∈ s, decide (c ≠ 0) = true := fun c hc ↦
    decide_eq_true fun h0 ↦ hs.1 (h0 ▸ hc)
  dsimp only
  rw [if_pos rfl, List.takeWhile_append_of_pos hnul, List.takeWhile_cons_of_neg (by simp),
    List.append_nil]

end EnhancedXv6.Vm
