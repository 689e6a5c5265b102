import Mathlib.Computability.Language

/-!
# The matcher of grep

`match`, `matchhere` and `matchstar` of grep.c.  A C string is the list of its bytes, so that its end is
the end of the list.  `matchstar` calls `matchhere` for a shorter pattern, which is its first argument
here; so all three end for every pattern and text.

A pattern is read from left to right as a sequence of items, each one character or a character with a
star, and an anchor at the end.
-/

namespace EnhancedXv6.Grep

abbrev star : UInt8 := 42
abbrev anyChar : UInt8 := 46
abbrev caret : UInt8 := 94
abbrev dollar : UInt8 := 36

def matchstar (matchhere : List UInt8 → Bool) (c : UInt8) : List UInt8 → Bool
  | [] => matchhere []
  | x :: text => matchhere (x :: text) || ((x == c || c == anyChar) && matchstar matchhere c text)

def matchhere : List UInt8 → List UInt8 → Bool
  | [], _ => true
  | [c], text =>
    if c = dollar then text.isEmpty
    else
      match text with
      | [] => false
      | x :: _ => c == anyChar || c == x
  | c :: d :: re, text =>
    if d = star then matchstar (matchhere re) c text
    else
      match text with
      | [] => false
      | x :: text => (c == anyChar || c == x) && matchhere (d :: re) text

def matchLoop (re : List UInt8) : List UInt8 → Bool
  | [] => matchhere re []
  | x :: text => matchhere re (x :: text) || matchLoop re text

def matchText (re text : List UInt8) : Bool :=
  match re with
  | [] => matchLoop [] text
  | c :: rest => if c = caret then matchhere rest text else matchLoop (c :: rest) text

/-! ## What a pattern means -/

inductive Item
  | one (c : UInt8)
  | many (c : UInt8)

/-- The characters that a character of a pattern stands for. -/
def Stands (c x : UInt8) : Prop := c = anyChar ∨ c = x

def Item.language : Item → Language UInt8
  | .one c => { w | ∃ x, w = [x] ∧ Stands c x }
  | .many c => { w | ∀ x ∈ w, Stands c x }

/-- The items of a pattern, and whether a `$` ends it. -/
def items : List UInt8 → List Item × Bool
  | [] => ([], false)
  | [c] => if c = dollar then ([], true) else ([.one c], false)
  | c :: d :: re =>
    if d = star then (.many c :: (items re).1, (items re).2)
    else (.one c :: (items (d :: re)).1, (items (d :: re)).2)

def language (re : List UInt8) : Language UInt8 := ((items re).1.map Item.language).prod

structure Occurs (re before part after : List UInt8) : Prop where
  mem : part ∈ language (if re.head? = some caret then re.tail else re)
  atStart : re.head? = some caret → before = []
  atEnd : (items (if re.head? = some caret then re.tail else re)).2 = true → after = []

/-! ## Correctness -/

variable {c : UInt8} {re text : List UInt8}

theorem matchhere_dollar : matchhere [dollar] text = text.isEmpty := by
  rw [matchhere.eq_def]
  exact if_pos rfl

theorem matchhere_star : matchhere (c :: star :: re) text = matchstar (matchhere re) c text := by
  rw [matchhere.eq_def]
  exact if_pos rfl

theorem matchhere_one_nil {re' : List UInt8} (hre : re = c :: re')
    (hdollar : re' = [] → c ≠ dollar) (hstar : re'.head? ≠ some star) : matchhere re [] = false := by
  subst hre
  rw [matchhere.eq_def]
  cases re' with
  | nil => exact if_neg (hdollar rfl)
  | cons d re' => exact if_neg fun hd ↦ hstar (by rw [hd]; rfl)

theorem matchhere_one {x : UInt8} {re' : List UInt8} (hre : re = c :: re')
    (hdollar : re' = [] → c ≠ dollar) (hstar : re'.head? ≠ some star) :
    matchhere re (x :: text) = ((c == anyChar || c == x) && matchhere re' text) := by
  subst hre
  rw [matchhere.eq_def]
  cases re' with
  | nil => exact (if_neg (hdollar rfl)).trans (Bool.and_true _).symm
  | cons d re' => exact if_neg fun hd ↦ hstar (by rw [hd]; rfl)

theorem stands_iff {x : UInt8} : (c == anyChar || c == x) = true ↔ Stands c x := by
  simp [Stands]

theorem matchstar_iff {f : List UInt8 → Bool} :
    matchstar f c text = true ↔ ∃ u v, text = u ++ v ∧ (∀ x ∈ u, Stands c x) ∧ f v = true := by
  induction text with
  | nil =>
    rw [matchstar]
    constructor
    · intro h
      exact ⟨[], [], rfl, by simp, h⟩
    · rintro ⟨u, v, huv, -, hv⟩
      obtain ⟨-, rfl⟩ := List.append_eq_nil_iff.mp huv.symm
      exact hv
  | cons x text ih =>
    have hx : (x == c || c == anyChar) = true ↔ Stands c x := by
      rw [Bool.or_eq_true, beq_iff_eq, beq_iff_eq, Stands, or_comm, eq_comm (a := x)]
    rw [matchstar, Bool.or_eq_true, Bool.and_eq_true, ih, hx]
    constructor
    · rintro (h | ⟨hc, u, v, rfl, hu, hv⟩)
      · exact ⟨[], x :: text, rfl, by simp, h⟩
      · exact ⟨x :: u, v, rfl, by simpa using ⟨hc, hu⟩, hv⟩
    · rintro ⟨u, v, huv, hu, hv⟩
      cases u with
      | nil => exact .inl (by rwa [huv])
      | cons y u =>
        obtain ⟨rfl, rfl⟩ := List.cons.inj huv
        exact .inr ⟨hu x List.mem_cons_self, u, v, rfl, fun z hz ↦ hu z (List.mem_cons_of_mem _ hz), hv⟩

/-- What `matchhere` decides: a part of the text from its beginning on. -/
def Here (re text : List UInt8) : Prop :=
  ∃ part after, text = part ++ after ∧ part ∈ language re ∧ ((items re).2 = true → after = [])

theorem here_one {re' : List UInt8} (hitems : items re = (.one c :: (items re').1, (items re').2)) :
    Here re text ↔ ∃ x rest, text = x :: rest ∧ Stands c x ∧ Here re' rest := by
  unfold Here language
  rw [hitems, List.map_cons, List.prod_cons]
  constructor
  · rintro ⟨_, after, rfl, ⟨_, ⟨x, rfl, hx⟩, w, hw, rfl⟩, hend⟩
    exact ⟨x, w ++ after, rfl, hx, w, after, rfl, hw, hend⟩
  · rintro ⟨x, _, rfl, hx, w, after, rfl, hw, hend⟩
    exact ⟨x :: w, after, rfl, ⟨[x], ⟨x, rfl, hx⟩, w, hw, rfl⟩, hend⟩

theorem here_many {re' : List UInt8} (hitems : items re = (.many c :: (items re').1, (items re').2)) :
    Here re text ↔ ∃ u v, text = u ++ v ∧ (∀ x ∈ u, Stands c x) ∧ Here re' v := by
  unfold Here language
  rw [hitems, List.map_cons, List.prod_cons]
  constructor
  · rintro ⟨_, after, rfl, ⟨u, hu, w, hw, rfl⟩, hend⟩
    exact ⟨u, w ++ after, List.append_assoc .., hu, w, after, rfl, hw, hend⟩
  · rintro ⟨u, _, rfl, hu, w, after, rfl, hw, hend⟩
    exact ⟨u ++ w, after, (List.append_assoc ..).symm, ⟨u, hu, w, hw, rfl⟩, hend⟩

theorem here_nil : Here [] text :=
  ⟨[], text, rfl, rfl, fun h ↦ absurd h (by decide)⟩

theorem matchhere_iff_of_one {re' : List UInt8} (hdollar : re' = [] → c ≠ dollar)
    (hstar : re'.head? ≠ some star) (ih : ∀ {text}, matchhere re' text = true ↔ Here re' text)
    (hitems : items (c :: re') = (.one c :: (items re').1, (items re').2)) :
    matchhere (c :: re') text = true ↔ Here (c :: re') text := by
  rw [here_one hitems]
  cases text with
  | nil => simp [matchhere_one_nil rfl hdollar hstar]
  | cons x rest =>
    rw [matchhere_one rfl hdollar hstar, Bool.and_eq_true, stands_iff, ih]
    constructor
    · rintro ⟨hx, hrest⟩
      exact ⟨x, rest, rfl, hx, hrest⟩
    · rintro ⟨_, _, heq, hx, hrest⟩
      obtain ⟨rfl, rfl⟩ := List.cons.inj heq
      exact ⟨hx, hrest⟩

theorem matchhere_iff : matchhere re text = true ↔ Here re text := by
  induction re using items.induct generalizing text with
  | case1 => exact iff_of_true rfl here_nil
  | case2 =>
    rw [matchhere_dollar, List.isEmpty_iff]
    constructor
    · rintro rfl
      exact ⟨[], [], rfl, rfl, fun _ ↦ rfl⟩
    · rintro ⟨part, after, rfl, hpart, hend⟩
      rw [hend rfl, show part = [] from hpart]
      rfl
  | case3 c hc =>
    exact matchhere_iff_of_one (fun _ ↦ hc) (by simp) (iff_of_true rfl here_nil) (if_neg hc)
  | case4 c re ih =>
    rw [here_many (show items (c :: star :: re) = _ from if_pos rfl), matchhere_star, matchstar_iff]
    simp only [ih]
  | case5 c d re hd ih =>
    exact matchhere_iff_of_one (by simp) (by simpa using hd) ih (if_neg hd)

theorem matchLoop_iff :
    matchLoop re text = true ↔ ∃ before rest, text = before ++ rest ∧ Here re rest := by
  induction text with
  | nil =>
    rw [matchLoop, matchhere_iff]
    constructor
    · intro h
      exact ⟨[], [], rfl, h⟩
    · rintro ⟨before, rest, heq, h⟩
      obtain ⟨-, rfl⟩ := List.append_eq_nil_iff.mp heq.symm
      exact h
  | cons x text ih =>
    rw [matchLoop, Bool.or_eq_true, matchhere_iff, ih]
    constructor
    · rintro (h | ⟨before, rest, rfl, h⟩)
      · exact ⟨[], x :: text, rfl, h⟩
      · exact ⟨x :: before, rest, rfl, h⟩
    · rintro ⟨before, rest, heq, h⟩
      cases before with
      | nil => exact .inl (by rwa [heq])
      | cons y before =>
        obtain ⟨-, rfl⟩ := List.cons.inj heq
        exact .inr ⟨before, rest, rfl, h⟩

/-- `match` returns 1 if and only if some part of the text is in the language of the pattern, from the
beginning of the text on if the pattern starts with `^`, and up to its end if it ends with `$`. -/
theorem matchText_is_occurrence (re text : List UInt8) :
    matchText re text = true ↔
      ∃ before part after, text = before ++ part ++ after ∧ Occurs re before part after := by
  have hloop : matchLoop re text = true ↔ ∃ before part after, text = before ++ part ++ after ∧
      part ∈ language re ∧ ((items re).2 = true → after = []) := by
    rw [matchLoop_iff]
    constructor
    · rintro ⟨before, _, rfl, part, after, rfl, hpart⟩
      exact ⟨before, part, after, (List.append_assoc ..).symm, hpart⟩
    · rintro ⟨before, part, after, rfl, hpart⟩
      exact ⟨before, part ++ after, List.append_assoc .., part, after, rfl, hpart⟩
  by_cases hcaret : re.head? = some caret
  · obtain ⟨rest, rfl⟩ := List.head?_eq_some_iff.mp hcaret
    rw [matchText, if_pos rfl, matchhere_iff]
    constructor
    · rintro ⟨part, after, rfl, hmem, hend⟩
      exact ⟨[], part, after, rfl, hmem, fun _ ↦ rfl, hend⟩
    · rintro ⟨before, part, after, rfl, hmem, hstart, hend⟩
      rw [hstart rfl]
      exact ⟨part, after, rfl, hmem, hend⟩
  · have hmatch : matchText re text = matchLoop re text := by
      cases re with
      | nil => rfl
      | cons c rest => exact if_neg fun hc ↦ hcaret (by rw [hc]; rfl)
    rw [hmatch, hloop]
    constructor
    · rintro ⟨before, part, after, heq, hmem, hend⟩
      refine ⟨before, part, after, heq, ?_, fun h ↦ absurd h hcaret, ?_⟩
      · rwa [if_neg hcaret]
      · rwa [if_neg hcaret]
    · rintro ⟨before, part, after, heq, hmem, -, hend⟩
      rw [if_neg hcaret] at hmem hend
      exact ⟨before, part, after, heq, hmem, hend⟩

-- `^a*b$` matches all of `aab`, and no part of `caab`
example : matchText [94, 97, 42, 98, 36] [97, 97, 98] = true ∧
    matchText [94, 97, 42, 98, 36] [99, 97, 97, 98] = false := by decide

end EnhancedXv6.Grep
