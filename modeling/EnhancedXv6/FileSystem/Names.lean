import Mathlib.Algebra.GroupWithZero.Nat
import Mathlib.Data.List.DropRight
import Mathlib.Data.List.TakeWhile
import Mathlib.Tactic.Common

/-!
# Names, directory entries and paths

The string functions that directories rest on, the 16 bytes of a directory entry, and the elements of
a path.  A C string is the list of its bytes; behind its end stand zeros.  `cstr n s` is what
`strncmp` and `strncpy` see of a string, so that names agree under `namecmp` if and only if they have
the same `key`.
-/

namespace EnhancedXv6.FileSystem

abbrev DIRSIZ : ℕ := 14

abbrev Name := List UInt8

/-! ## Strings -/

def strncmp : Name → Name → ℕ → ℤ
  | _, _, 0 => 0
  | p, q, n + 1 =>
    if p.headD 0 ≠ 0 ∧ p.headD 0 = q.headD 0 then strncmp p.tail q.tail n
    else (p.headD 0).toNat - (q.headD 0).toNat

def strncpy : Name → ℕ → Name
  | _, 0 => []
  | t, n + 1 => if t.headD 0 = 0 then List.replicate (n + 1) 0 else t.headD 0 :: strncpy t.tail n

def cstr : ℕ → Name → Name
  | 0, _ => []
  | n + 1, t => if t.headD 0 = 0 then [] else t.headD 0 :: cstr n t.tail

theorem strncmp_eq_zero (n : ℕ) (p q : Name) : strncmp p q n = 0 ↔ cstr n p = cstr n q := by
  induction n generalizing p q with
  | zero => simp [strncmp, cstr]
  | succ n ih =>
    rw [strncmp, cstr, cstr]
    have hih := ih p.tail q.tail
    generalize p.headD 0 = a, q.headD 0 = b
    by_cases hab : a = b
    · subst hab
      by_cases ha : a = 0 <;> simp [ha, hih]
    · have hdiff : ((a.toNat : ℤ) - b.toNat = 0) ↔ False := by
        refine iff_false_intro fun h ↦ hab (UInt8.toNat_inj.mp (by omega))
      rw [if_neg (fun h ↦ hab h.2), hdiff]
      split_ifs <;> simp_all

theorem cstr_replicate (n m : ℕ) : cstr n (List.replicate m 0) = [] := by
  cases n with
  | zero => rfl
  | succ n => cases m <;> simp [cstr, List.replicate_succ]

theorem cstr_strncpy (n : ℕ) (t : Name) : cstr n (strncpy t n) = cstr n t := by
  induction n generalizing t with
  | zero => rfl
  | succ n ih =>
    by_cases h : t.headD 0 = 0
    · rw [strncpy, if_pos h, cstr_replicate, cstr, if_pos h]
    · rw [strncpy, if_neg h, cstr, cstr, if_neg h, List.headD_cons, if_neg h, List.tail_cons, ih]

theorem length_strncpy (t : Name) (n : ℕ) : (strncpy t n).length = n := by
  induction n generalizing t with
  | zero => rfl
  | succ n ih =>
    rw [strncpy]
    split_ifs <;> simp [ih]

def namecmp (s t : Name) : ℤ := strncmp s t DIRSIZ

def key (name : Name) : Name := cstr DIRSIZ name

theorem namecmp_eq_zero (s t : Name) : namecmp s t = 0 ↔ key s = key t := strncmp_eq_zero _ s t

@[simp] theorem key_strncpy (t : Name) : key (strncpy t DIRSIZ) = key t := cstr_strncpy _ t

def dot : Name := [46]

def dotdot : Name := [46, 46]

/-! ## Directory entries -/

abbrev DIRENT : ℕ := 16

structure Dirent where
  inum : ℕ
  /-- the array of `DIRSIZ` bytes -/
  name : Name
  deriving DecidableEq

def Dirent.decode (bytes : ℕ → UInt8) : Dirent where
  inum := (bytes 0).toNat + 2 ^ 8 * (bytes 1).toNat
  name := (List.range DIRSIZ).map fun i ↦ bytes (i + 2)

/-- The bytes of an entry; `de.inum` is a `ushort`. -/
def Dirent.encode (de : Dirent) (i : ℕ) : UInt8 :=
  if i = 0 then UInt8.ofNat de.inum
  else if i = 1 then UInt8.ofNat (de.inum / 2 ^ 8)
  else de.name.getD (i - 2) 0

theorem Dirent.decode_congr {bytes bytes' : ℕ → UInt8}
    (h : ∀ i < DIRENT, bytes i = bytes' i) : decode bytes = decode bytes' := by
  rw [decode, decode, h 0 (by decide), h 1 (by decide)]
  congr 1
  refine List.map_congr_left fun i hi ↦ h _ ?_
  exact Nat.add_lt_add_right (List.mem_range.mp hi) 2

theorem Dirent.decode_encode {de : Dirent} (hinum : de.inum < 2 ^ 16)
    (hname : de.name.length = DIRSIZ) : decode de.encode = de := by
  have hfields : (decode de.encode).inum = de.inum := by
    simp only [decode, encode, if_true, UInt8.toNat_ofNat']
    simp
    omega
  have hbytes : (decode de.encode).name = de.name := by
    apply List.ext_getElem
    · simp [decode, hname]
    · intro i hi hi'
      simp [decode, encode, hi']
  cases de
  simp_all [decode]

/-! ## Paths -/

def slash : UInt8 := 47

def skipelem (path : List UInt8) : Option (Name × List UInt8) :=
  let path := path.dropWhile (· == slash)
  if path.isEmpty then none
  else
    some ((path.takeWhile (· != slash)).take DIRSIZ,
      (path.dropWhile (· != slash)).dropWhile (· == slash))

theorem skipelem_length {path rest : List UInt8} {name : Name}
    (h : skipelem path = some (name, rest)) : rest.length < path.length := by
  have hhead := List.head?_dropWhile_not (· == slash) path
  have hle := (List.dropWhile_sublist (· == slash) (l := path)).length_le
  unfold skipelem at h
  generalize path.dropWhile (· == slash) = start at h hhead hle
  cases start with
  | nil => simp at h
  | cons c tail =>
    have hc : c ≠ slash := by simpa using hhead
    have hrest : ((c :: tail).dropWhile (· != slash)).dropWhile (· == slash) = rest := by
      simpa using (Prod.mk.inj (Option.some.inj h)).2
    rw [List.dropWhile_cons_of_pos (by simpa using hc)] at hrest
    have hsub := ((List.dropWhile_sublist (· == slash)).trans
      (List.dropWhile_sublist (· != slash) (l := tail))).length_le
    rw [hrest] at hsub
    rw [List.length_cons] at hle
    omega

def elements : ℕ → List UInt8 → List Name
  | 0, _ => []
  | fuel + 1, path =>
    match skipelem path with
    | none => []
    | some (name, rest) => name :: elements fuel rest

/-- The non-empty parts of a path between slashes, each cut to `DIRSIZ` bytes. -/
def components (path : List UInt8) : List Name :=
  ((path.splitOnP (· == slash)).filter fun part ↦ !part.isEmpty).map (·.take DIRSIZ)

theorem components_slash (path : List UInt8) : components (slash :: path) = components path := by
  simp [components, List.splitOnP_cons_eq_if_modifyHead]

theorem components_dropWhile (path : List UInt8) :
    components (path.dropWhile (· == slash)) = components path := by
  induction path with
  | nil => rfl
  | cons c path ih =>
    by_cases hc : c = slash
    · rw [List.dropWhile_cons_of_pos (by simpa using hc), ih, hc, components_slash]
    · rw [List.dropWhile_cons_of_neg (by simpa using hc)]

/-- A word and the slash behind it, if there is one. -/
theorem components_append {word rest : List UInt8} (hne : word ≠ []) (hword : ∀ c ∈ word, c ≠ slash)
    (hrest : rest = [] ∨ rest.head? = some slash) :
    components (word ++ rest) = word.take DIRSIZ :: components rest := by
  have hsplit : ∀ c ∈ word, (c == slash) = false := fun c hc ↦ by simpa using hword c hc
  cases rest with
  | nil =>
    rw [List.append_nil, components, List.splitOnP_eq_singleton hsplit]
    simp [components, hne]
  | cons c tail =>
    obtain rfl : c = slash := by simpa using hrest
    rw [components_slash, components,
      List.splitOnP_append_cons_of_forall_mem hsplit slash (by simp) tail]
    simp [components, hne]

/-- One call of `skipelem` takes the first component away. -/
theorem components_eq (path : List UInt8) :
    components path =
      match skipelem path with
      | none => []
      | some (name, rest) => name :: components rest := by
  rw [← components_dropWhile path, skipelem]
  have hhead := List.head?_dropWhile_not (· == slash) path
  generalize path.dropWhile (· == slash) = start at hhead ⊢
  cases start with
  | nil => rfl
  | cons c tail =>
    have hc : c ≠ slash := by simpa using hhead
    have hword : ∀ d ∈ (c :: tail).takeWhile (· != slash), d ≠ slash :=
      fun d hd ↦ by simpa using List.mem_takeWhile_imp hd
    have hne : (c :: tail).takeWhile (· != slash) ≠ [] := by
      simp [hc]
    have hrest : (c :: tail).dropWhile (· != slash) = [] ∨
        ((c :: tail).dropWhile (· != slash)).head? = some slash := by
      have hstop := List.head?_dropWhile_not (· != slash) (c :: tail)
      cases hdrop : (c :: tail).dropWhile (· != slash) with
      | nil => exact .inl rfl
      | cons d rest =>
        rw [hdrop] at hstop
        exact .inr (by simpa using hstop)
    have happend := components_append hne hword hrest
    rw [List.takeWhile_append_dropWhile] at happend
    simp only [List.isEmpty_cons, Bool.false_eq_true, if_false]
    rw [happend, components_dropWhile]

/-- Repeated calls of `skipelem` return the components and end. -/
theorem elements_eq_components {fuel : ℕ} {path : List UInt8} (h : path.length < fuel) :
    elements fuel path = components path := by
  induction fuel generalizing path with
  | zero => omega
  | succ fuel ih =>
    rw [elements, components_eq]
    cases hskip : skipelem path with
    | none => rfl
    | some r =>
      have := skipelem_length hskip
      exact congrArg (r.1 :: ·) (ih (by omega))

/-- `skipelem` leaves nothing if and only if that was the last component. -/
theorem skipelem_rest {path rest : List UInt8} {name : Name}
    (h : skipelem path = some (name, rest)) : rest = [] ↔ components rest = [] := by
  have hslash : rest.dropWhile (· == slash) = rest := by
    unfold skipelem at h
    dsimp only at h
    split_ifs at h
    obtain ⟨-, rfl⟩ := Prod.mk.inj (Option.some.inj h)
    exact List.dropWhile_idempotent _ _
  refine ⟨fun hrest ↦ by rw [hrest]; rfl, fun hnone ↦ ?_⟩
  rw [components_eq, skipelem, hslash] at hnone
  cases rest with
  | nil => rfl
  | cons c tail => simp at hnone

end EnhancedXv6.FileSystem
