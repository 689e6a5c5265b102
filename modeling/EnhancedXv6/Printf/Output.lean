import Mathlib.Algebra.Order.BigOperators.Group.List
import Mathlib.Algebra.Order.Ring.Nat
import Mathlib.Data.BitVec
import Mathlib.Tactic.Common

/-!
# What printf prints

`vprintf` of the user library over a format and its arguments, and the text that the format asks for.
Numbers are printed from their digits in `buf`, which has 16 bytes.  A format is given by its parts, each
with its part of the format, its argument and its text.  The argument of `%l` passes through the `int` of
`printint`, so that its upper half is lost.
-/

namespace EnhancedXv6.Printf

def digits : List UInt8 := [48, 49, 50, 51, 52, 53, 54, 55, 56, 57, 65, 66, 67, 68, 69, 70]

/-- The loop that stores digits, with the room left in `buf`.  The bytes are listed from the last one
on, as they are printed; there is no result if one would be stored outside `buf`. -/
def storeDigits (base : BitVec 32) : ℕ → BitVec 32 → List UInt8 → Option (List UInt8)
  | 0, _, _ => none
  | room + 1, x, buf =>
    let buf := digits.getD (x % base).toNat 0 :: buf
    if x / base ≠ 0 then storeDigits base room (x / base) buf else some buf

def printint (xx base : BitVec 32) (sgn : Bool) : Option (List UInt8) :=
  if sgn = true ∧ xx.toInt < 0 then
    (storeDigits base 16 (-xx) []).bind fun buf ↦
      if buf.length < 16 then some (45 :: buf) else none
  else storeDigits base 16 xx []

def ptrDigits : ℕ → BitVec 64 → List UInt8
  | 0, _ => []
  | n + 1, x => digits.getD (x >>> 60).toNat 0 :: ptrDigits n (x <<< 4)

def printptr (x : BitVec 64) : List UInt8 := 48 :: 120 :: ptrDigits 16 x

/-- One place in the argument list: 64 bits, or a pointer to a string. -/
inductive Arg
  | word (x : BitVec 64)
  | string (s : List UInt8)

def vaWord : List Arg → Option (BitVec 64 × List Arg)
  | .word x :: ap => some (x, ap)
  | _ => none

/-- `va_arg` for a string, with `"(null)"` for the null pointer -/
def vaString : List Arg → Option (List UInt8 × List Arg)
  | .string s :: ap => some (s, ap)
  | .word 0 :: ap => some ([40, 110, 117, 108, 108, 41], ap)
  | _ => none

/-- `printint` of the next argument, which is converted to `int` -/
def printArg (base : BitVec 32) (sgn : Bool) (ap : List Arg) : Option (List UInt8 × List Arg) :=
  (vaWord ap).bind fun (x, ap) ↦ (printint (x.setWidth 32) base sgn).map (·, ap)

/-- What is printed for the character `c` behind `%`, and the arguments that remain. -/
def conversion (c : UInt8) (ap : List Arg) : Option (List UInt8 × List Arg) :=
  if c = 100 then printArg 10 true ap
  else if c = 108 then printArg 10 false ap
  else if c = 120 then printArg 16 false ap
  else if c = 112 then (vaWord ap).map fun (x, ap) ↦ (printptr x, ap)
  else if c = 115 then vaString ap
  else if c = 99 then (vaWord ap).map fun (x, ap) ↦ ([.ofBitVec (x.setWidth 8)], ap)
  else if c = 37 then some ([c], ap)
  else some ([37, c], ap)

/-- The loop of `vprintf`; `state` says whether the last character was a `%`. -/
def vprintfLoop : Bool → List UInt8 → List Arg → Option (List UInt8)
  | _, [], _ => some []
  | false, c :: fmt, ap =>
    if c = 37 then vprintfLoop true fmt ap else (vprintfLoop false fmt ap).map (c :: ·)
  | true, c :: fmt, ap =>
    (conversion c ap).bind fun (out, ap) ↦ (vprintfLoop false fmt ap).map (out ++ ·)

def vprintf (fmt : List UInt8) (ap : List Arg) : Option (List UInt8) := vprintfLoop false fmt ap

/-! ## What a format asks for -/

def numeral (base n : ℕ) : List UInt8 :=
  (Nat.toDigits base n).map fun c ↦ .ofNat c.toUpper.toNat

def signed (z : ℤ) : List UInt8 :=
  if z < 0 then 45 :: numeral 10 z.natAbs else numeral 10 z.natAbs

/-- A part of a format, with its argument. -/
inductive Part
  | plain (c : UInt8) (hc : c ≠ 0 ∧ c ≠ 37)
  | int (n : BitVec 32)
  | long (n : BitVec 64)
  | hex (n : BitVec 32)
  | ptr (n : BitVec 64)
  | str (s : List UInt8) (hs : 0 ∉ s)
  | char (c : UInt8)
  | percent

namespace Part

/-- `%d`, `%l`, `%x`, `%p`, `%s`, `%c` and `%%` -/
def format : Part → List UInt8
  | plain c _ => [c]
  | int _ => [37, 100]
  | long _ => [37, 108]
  | hex _ => [37, 120]
  | ptr _ => [37, 112]
  | str _ _ => [37, 115]
  | char _ => [37, 99]
  | percent => [37, 37]

/-- A number of 32 bits is passed in 64 bits, with its sign. -/
def args : Part → List Arg
  | plain _ _ | percent => []
  | int n | hex n => [.word (n.signExtend 64)]
  | long n | ptr n => [.word n]
  | str s _ => [.string s]
  | char c => [.word (c.toBitVec.setWidth 64)]

def text : Part → List UInt8
  | plain c _ => [c]
  | int n => signed n.toInt
  | long n => numeral 10 n.toNat
  | hex n => numeral 16 n.toNat
  | ptr n => 48 :: 120 :: (List.range 16).flatMap fun k ↦ numeral 16 (n.toNat / 16 ^ (15 - k) % 16)
  | str s _ => s
  | char c => [c]
  | percent => [37]

/-- What is printed: of the argument of `%l` the lower half. -/
def output : Part → List UInt8
  | long n => numeral 10 (n.toNat % 2 ^ 32)
  | part => part.text

end Part

/-! ## Numerals -/

theorem digit_eq {k : ℕ} (hk : k < 16) :
    UInt8.ofNat (Nat.digitChar k).toUpper.toNat = digits.getD k 0 := by
  revert k
  decide

theorem numeral_of_lt {base n : ℕ} (hbase : base ≤ 16) (hn : n < base) :
    numeral base n = [digits.getD n 0] := by
  rw [numeral, Nat.toDigits_of_lt_base hn, List.map_singleton, digit_eq (by omega)]

theorem numeral_of_le {base n : ℕ} (hone : 1 < base) (hbase : base ≤ 16) (hn : base ≤ n) :
    numeral base n = numeral base (n / base) ++ [digits.getD (n % base) 0] := by
  have hlast : n % base < 16 := (Nat.mod_lt n (Nat.zero_lt_of_lt hone)).trans_le hbase
  rw [numeral, Nat.toDigits_of_base_le hone hn, List.map_append, List.map_singleton, digit_eq hlast]
  rfl

theorem length_numeral_le_iff {base n k : ℕ} (hone : 1 < base) (hk : 0 < k) :
    (numeral base n).length ≤ k ↔ n < base ^ k := by
  rw [numeral, List.length_map, Nat.length_toDigits_le_iff hone hk]

def value (text : List UInt8) : ℕ := text.foldl (fun v c ↦ 10 * v + (c.toNat - 48)) 0

theorem value_numeral (n : ℕ) : value (numeral 10 n) = n := by
  have hdigit : ∀ k < 10, (digits.getD k 0).toNat - 48 = k := by decide
  induction n using Nat.strong_induction_on with
  | _ n ih =>
    by_cases hn : n < 10
    · rw [numeral_of_lt (by decide) hn]
      simpa [value] using hdigit n hn
    · have hrest : value (numeral 10 (n / 10)) = n / 10 := ih _ (by omega)
      rw [value] at hrest
      rw [numeral_of_le (by decide) (by decide) (by omega), value, List.foldl_append, hrest]
      simp only [List.foldl_cons, List.foldl_nil, hdigit _ (Nat.mod_lt n (by decide))]
      omega

/-! ## The functions -/

theorem storeDigits_eq {base x : BitVec 32} {room : ℕ} (hone : 1 < base.toNat)
    (hbase : base.toNat ≤ 16) (buf : List UInt8) (hx : x.toNat < base.toNat ^ (room + 1)) :
    storeDigits base (room + 1) x buf = some (numeral base.toNat x.toNat ++ buf) := by
  induction room generalizing x buf with
  | zero =>
    have hlt : x.toNat < base.toNat := by simpa using hx
    have hquot : x / base = 0 := by
      apply BitVec.eq_of_toNat_eq
      simp [Nat.div_eq_of_lt hlt]
    simp [storeDigits, hquot, numeral_of_lt hbase hlt, Nat.mod_eq_of_lt hlt]
  | succ room ih =>
    rw [storeDigits]
    by_cases hlt : x.toNat < base.toNat
    · have hquot : x / base = 0 := by
        apply BitVec.eq_of_toNat_eq
        simp [Nat.div_eq_of_lt hlt]
      rw [hquot, if_neg (not_not.mpr rfl), numeral_of_lt hbase hlt, BitVec.toNat_umod,
        Nat.mod_eq_of_lt hlt]
      rfl
    · have hquot : x / base ≠ 0 := by
        intro hzero
        have hdiv : x.toNat / base.toNat = 0 := by
          rw [← BitVec.toNat_udiv, hzero]
          rfl
        exact hlt ((Nat.div_eq_zero_iff_lt (Nat.zero_lt_of_lt hone)).mp hdiv)
      have hrest : (x / base).toNat < base.toNat ^ (room + 1) := by
        rw [BitVec.toNat_udiv]
        exact Nat.div_lt_of_lt_mul (by rwa [← Nat.pow_succ'])
      rw [if_pos hquot, ih _ hrest, BitVec.toNat_udiv, BitVec.toNat_umod,
        numeral_of_le hone hbase (Nat.not_lt.mp hlt), List.append_assoc, List.singleton_append]

theorem storeDigits_word {base : BitVec 32} (hbase : base = 10 ∨ base = 16) (x : BitVec 32) :
    storeDigits base 16 x [] = some (numeral base.toNat x.toNat) ∧
      (numeral base.toNat x.toNat).length ≤ 10 := by
  have hx : x.toNat < 2 ^ 32 := x.isLt
  obtain ⟨hone, hle, hten⟩ : 1 < base.toNat ∧ base.toNat ≤ 16 ∧ 2 ^ 32 ≤ base.toNat ^ 10 := by
    rcases hbase with rfl | rfl <;> decide
  have hroom : base.toNat ^ 10 ≤ base.toNat ^ 16 := Nat.pow_le_pow_right (by omega) (by decide)
  refine ⟨?_, (length_numeral_le_iff hone (by decide)).mpr (by omega)⟩
  rw [storeDigits_eq hone hle [] ((hx.trans_le hten).trans_le hroom), List.append_nil]

theorem printint_unsigned {base : BitVec 32} (hbase : base = 10 ∨ base = 16) (xx : BitVec 32) :
    printint xx base false = some (numeral base.toNat xx.toNat) := by
  rw [printint, if_neg (by simp), (storeDigits_word hbase xx).1]

theorem printint_signed {base : BitVec 32} (hbase : base = 10 ∨ base = 16) (xx : BitVec 32) :
    printint xx base true = some (if xx.toInt < 0 then 45 :: numeral base.toNat xx.toInt.natAbs
      else numeral base.toNat xx.toInt.natAbs) := by
  rw [printint]
  by_cases hneg : xx.toInt < 0
  · have habs : (-xx).toNat = xx.toInt.natAbs := by
      rw [BitVec.toInt_eq_toNat_cond] at hneg ⊢
      rw [BitVec.toNat_neg]
      split_ifs at hneg ⊢ <;> omega
    obtain ⟨hstore, hlen⟩ := storeDigits_word hbase (-xx)
    rw [if_pos ⟨rfl, hneg⟩, hstore, Option.bind_some, if_pos (by omega), if_pos hneg, habs]
  · have habs : xx.toNat = xx.toInt.natAbs := by
      rw [BitVec.toInt_eq_toNat_cond] at hneg ⊢
      split_ifs at hneg ⊢ <;> omega
    rw [if_neg (fun h ↦ hneg h.2), (storeDigits_word hbase xx).1, if_neg hneg, habs]

theorem ptrDigits_eq (n : ℕ) (x : BitVec 64) :
    ptrDigits n x =
      (List.range n).map fun k ↦ digits.getD (x.toNat * 16 ^ k % 2 ^ 64 / 2 ^ 60) 0 := by
  induction n generalizing x with
  | zero => rfl
  | succ n ih =>
    have hshift : (x <<< 4).toNat = x.toNat * 16 % 2 ^ 64 := by
      rw [BitVec.toNat_shiftLeft, Nat.shiftLeft_eq]
    have hfirst : (x >>> 60).toNat = x.toNat * 16 ^ 0 % 2 ^ 64 / 2 ^ 60 := by
      rw [BitVec.toNat_ushiftRight, Nat.shiftRight_eq_div_pow, Nat.pow_zero, Nat.mul_one,
        Nat.mod_eq_of_lt x.isLt]
    rw [ptrDigits, ih, hfirst, hshift, List.range_succ_eq_map, List.map_cons, List.map_map]
    refine congrArg _ (List.map_congr_left fun k _ ↦ ?_)
    have hpow : x.toNat * 16 ^ k.succ = x.toNat * 16 * 16 ^ k := by rw [Nat.pow_succ', Nat.mul_assoc]
    rw [Function.comp, hpow, Nat.mod_mul_mod]

/-- Digit `k` of 16, from the left. -/
theorem shifted_digit {x k : ℕ} (hk : k < 16) :
    x * 16 ^ k % 2 ^ 64 / 2 ^ 60 = x / 16 ^ (15 - k) % 16 := by
  have hpow : 2 ^ 60 = 16 ^ (15 - k) * 16 ^ k := by
    rw [← Nat.pow_add, Nat.sub_add_cancel (by omega)]
    rfl
  have hquot : x * 16 ^ k / 2 ^ 60 = x / 16 ^ (15 - k) := by
    rw [hpow, Nat.mul_div_mul_right _ _ (Nat.pow_pos (by decide))]
  calc x * 16 ^ k % 2 ^ 64 / 2 ^ 60
      = x * 16 ^ k % (2 ^ 60 * 16) / 2 ^ 60 := rfl
    _ = x * 16 ^ k / 2 ^ 60 % 16 := Nat.mod_mul_right_div_self ..
    _ = x / 16 ^ (15 - k) % 16 := by rw [hquot]

theorem printptr_eq (x : BitVec 64) : printptr x = (Part.ptr x).text := by
  have hdigits : ∀ k ∈ List.range 16, numeral 16 (x.toNat / 16 ^ (15 - k) % 16) =
      [digits.getD (x.toNat * 16 ^ k % 2 ^ 64 / 2 ^ 60) 0] := by
    intro k hk
    rw [shifted_digit (List.mem_range.mp hk)]
    exact numeral_of_lt (Nat.le_refl _) (Nat.mod_lt _ (by decide))
  rw [printptr, Part.text, ptrDigits_eq, List.map_eq_flatMap, List.flatMap_def, List.flatMap_def,
    List.map_congr_left hdigits]

/-! ## The loop over the format -/

theorem setWidth_signExtend (n : BitVec 32) : (n.signExtend 64).setWidth 32 = n := by
  apply BitVec.eq_of_getLsbD_eq
  intro i hi
  have hwide : i < 64 := by omega
  rw [BitVec.getLsbD_setWidth, BitVec.getLsbD_signExtend]
  simp [hi, hwide]

theorem conversion_eq {part : Part} {c : UInt8} (hformat : part.format = [37, c]) (ap : List Arg) :
    conversion c (part.args ++ ap) = some (part.output, ap) := by
  cases part with
  | plain c hc => cases hformat
  | int n =>
    cases hformat
    change (printint ((n.signExtend 64).setWidth 32) 10 true).map (·, ap) = _
    rw [setWidth_signExtend, printint_signed (.inl rfl)]
    rfl
  | long n =>
    cases hformat
    change (printint (n.setWidth 32) 10 false).map (·, ap) = _
    rw [printint_unsigned (.inl rfl), BitVec.toNat_setWidth]
    rfl
  | hex n =>
    cases hformat
    change (printint ((n.signExtend 64).setWidth 32) 16 false).map (·, ap) = _
    rw [setWidth_signExtend, printint_unsigned (.inr rfl)]
    rfl
  | ptr n =>
    cases hformat
    exact congrArg (fun out ↦ some (out, ap)) (printptr_eq n)
  | str s hs =>
    cases hformat
    rfl
  | char c =>
    cases hformat
    simp [conversion, vaWord, Part.args, Part.output, Part.text]
  | percent =>
    cases hformat
    rfl

/-- A part of the format is printed, and the rest with the arguments that remain. -/
theorem vprintfLoop_part (part : Part) (fmt : List UInt8) (ap : List Arg) :
    vprintfLoop false (part.format ++ fmt) (part.args ++ ap) =
      (vprintfLoop false fmt ap).map (part.output ++ ·) := by
  have hconversion : ∀ c, part.format = [37, c] →
      vprintfLoop false (part.format ++ fmt) (part.args ++ ap) =
        (vprintfLoop false fmt ap).map (part.output ++ ·) := by
    intro c hc
    rw [hc, List.cons_append, vprintfLoop, if_pos rfl, List.singleton_append, vprintfLoop,
      conversion_eq hc, Option.bind_some]
  cases part with
  | plain c hc => exact if_neg hc.2
  | _ => exact hconversion _ rfl

theorem vprintf_parts (parts : List Part) :
    vprintf (parts.flatMap Part.format) (parts.flatMap Part.args) =
      some (parts.flatMap Part.output) := by
  rw [vprintf]
  induction parts with
  | nil => rfl
  | cons part parts ih =>
    rw [List.flatMap_cons, List.flatMap_cons, List.flatMap_cons, vprintfLoop_part, ih]
    rfl

/-! ## What is printed and what is asked for -/

/-- Two texts of which no part is longer in the first agree only part by part. -/
theorem eq_of_flatMap_eq {α β : Type} {f g : α → List β} {xs : List α}
    (hlen : ∀ a, (f a).length ≤ (g a).length) (h : xs.flatMap f = xs.flatMap g) :
    ∀ a ∈ xs, f a = g a := by
  induction xs with
  | nil => simp
  | cons a xs ih =>
    have hrest : (xs.flatMap f).length ≤ (xs.flatMap g).length := by
      rw [List.length_flatMap, List.length_flatMap]
      exact List.sum_le_sum fun b _ ↦ hlen b
    rw [List.flatMap_cons, List.flatMap_cons] at h
    have htotal := congrArg List.length h
    rw [List.length_append, List.length_append] at htotal
    have hhead := hlen a
    obtain ⟨hfirst, hxs⟩ := List.append_inj h (by omega)
    intro b hb
    rcases List.mem_cons.mp hb with rfl | hb
    · exact hfirst
    · exact ih hxs b hb

theorem length_output_le (part : Part) : part.output.length ≤ part.text.length := by
  cases part with
  | long n =>
    have hpos : 0 < (numeral 10 n.toNat).length := by
      rw [numeral, List.length_map]
      exact List.length_pos_iff.mpr Nat.toDigits_ne_nil
    have hlt := (length_numeral_le_iff (by decide) hpos).mp (Nat.le_refl _)
    exact (length_numeral_le_iff (by decide) hpos).mpr ((Nat.mod_le _ _).trans_lt hlt)
  | _ => exact Nat.le_refl _

theorem output_eq_text_iff (part : Part) :
    part.output = part.text ↔ ∀ n, part = .long n → n.toNat < 2 ^ 32 := by
  cases part with
  | long n =>
    constructor
    · intro heq m hm
      cases hm
      have hvalue := congrArg value heq
      rw [Part.output, Part.text, value_numeral, value_numeral] at hvalue
      exact hvalue ▸ Nat.mod_lt _ (by decide)
    · intro hlt
      rw [Part.output, Part.text, Nat.mod_eq_of_lt (hlt n rfl)]
  | _ => exact iff_of_true rfl nofun

/-- `printint` stays within `buf`.  What a format asks for is printed if and only if no argument of `%l`
has more than 32 bits. -/
theorem vprintf_exact_iff (parts : List Part) :
    (∀ (xx : BitVec 32) (sgn : Bool), (printint xx 10 sgn).isSome ∧ (printint xx 16 sgn).isSome) ∧
    (vprintf (parts.flatMap Part.format) (parts.flatMap Part.args) =
      some (parts.flatMap Part.text) ↔ ∀ n, .long n ∈ parts → n.toNat < 2 ^ 32) := by
  refine ⟨fun xx sgn ↦ ?_, ?_⟩
  · cases sgn <;> simp [printint_signed, printint_unsigned]
  rw [vprintf_parts, Option.some.injEq]
  constructor
  · intro h n hn
    exact (output_eq_text_iff _).mp (eq_of_flatMap_eq length_output_le h _ hn) n rfl
  · intro h
    rw [List.flatMap_def, List.flatMap_def, List.map_congr_left fun part hpart ↦ ?_]
    exact (output_eq_text_iff part).mpr fun n hn ↦ h n (hn ▸ hpart)

/-- `printf("%l", 1L << 32)` prints `0`. -/
theorem vprintf_cuts_long :
    vprintf [37, 108] [.word (2 ^ 32)] = some [48] ∧ (Part.long (2 ^ 32)).text ≠ [48] := by
  decide +kernel

end EnhancedXv6.Printf
