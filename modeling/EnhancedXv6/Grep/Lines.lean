import EnhancedXv6.Grep.Match

/-!
# The reader of grep

The loop of `grep` in grep.c over a buffer of 1024 bytes.  A `read` returns some of the bytes that are
left, at least one if there is room for one; how many is up to `sizes`.  The buffer holds the beginning
of a line between two reads.  When it is full of one line there is no room to read into, `read` returns 0,
and `grep` takes that for the end of the input.
-/

namespace EnhancedXv6.Grep

abbrev newline : UInt8 := 10

abbrev room : ℕ := 1023

def strchr (c : UInt8) : List UInt8 → Option ℕ
  | [] => none
  | x :: s => if x = 0 then none else if x = c then some 0 else (strchr c s).map (· + 1)

def scan (pattern : List UInt8) : ℕ → List UInt8 → List UInt8 × List UInt8
  | 0, p => ([], p)
  | fuel + 1, p =>
    match strchr newline p with
    | none => ([], p)
    | some q =>
      let rest := scan pattern fuel (p.drop (q + 1))
      ((if matchText pattern (p.take q) = true then p.take (q + 1) else []) ++ rest.1, rest.2)

/-- The outer loop, with the bytes that are in the buffer and those that are still to be read. -/
def readLoop (pattern : List UInt8) : ℕ → (ℕ → ℕ) → List UInt8 → List UInt8 → List UInt8
  | 0, _, _, _ => []
  | fuel + 1, sizes, held, input =>
    let n := min (room - held.length) (min (sizes 0 + 1) input.length)
    if n = 0 then []
    else
      let buf := held ++ input.take n
      let r := scan pattern buf.length buf
      r.1 ++ readLoop pattern fuel (fun i ↦ sizes (i + 1)) r.2 (input.drop n)

def grep (pattern : List UInt8) (sizes : ℕ → ℕ) (input : List UInt8) : List UInt8 :=
  readLoop pattern (input.length + 1) sizes [] input

/-! ## Lines -/

/-- The lines that a newline ends; `cur` is what stands before the input. -/
def linesFrom (cur : List UInt8) : List UInt8 → List (List UInt8)
  | [] => []
  | c :: input => if c = newline then cur :: linesFrom [] input else linesFrom (cur ++ [c]) input

/-- The lines before the first one of `room` bytes or more. -/
def shortFrom (cur : List UInt8) : List UInt8 → List (List UInt8)
  | [] => []
  | c :: input =>
    if room ≤ cur.length then []
    else if c = newline then cur :: shortFrom [] input
    else shortFrom (cur ++ [c]) input

def matching (pattern : List UInt8) (lines : List (List UInt8)) : List UInt8 :=
  lines.flatMap fun line ↦ if matchText pattern line = true then line ++ [newline] else []

/-- The lines from the first one of `room` bytes or more on. -/
def lost (input : List UInt8) : List (List UInt8) :=
  (linesFrom [] input).drop (shortFrom [] input).length

variable {pattern cur input l : List UInt8}

theorem matching_append (ls ls' : List (List UInt8)) :
    matching pattern (ls ++ ls') = matching pattern ls ++ matching pattern ls' :=
  List.flatMap_append ..

theorem shortFrom_prefix (cur input : List UInt8) : shortFrom cur input <+: linesFrom cur input := by
  induction input generalizing cur with
  | nil => exact List.prefix_rfl
  | cons c input ih =>
    rw [shortFrom, linesFrom]
    split_ifs
    · exact List.nil_prefix
    · exact List.nil_prefix
    · exact List.cons_prefix_cons.mpr ⟨rfl, ih []⟩
    · exact ih _

theorem linesFrom_eq (input : List UInt8) :
    linesFrom [] input = shortFrom [] input ++ lost input := by
  obtain ⟨rest, hrest⟩ := shortFrom_prefix [] input
  rw [lost, ← hrest, List.drop_left]

/-- Bytes that do not end a line and leave room in the buffer. -/
theorem shortFrom_append (hl : newline ∉ l) (hroom : (cur ++ l).length ≤ room) :
    shortFrom cur (l ++ input) = shortFrom (cur ++ l) input := by
  induction l generalizing cur with
  | nil => rw [List.append_nil, List.nil_append]
  | cons c l ih =>
    have hc : c ≠ newline := fun h ↦ hl (by simp [h])
    have hlen : ¬ room ≤ cur.length := by
      simp only [List.length_append, List.length_cons] at hroom
      omega
    rw [List.cons_append, shortFrom, if_neg hlen, if_neg hc,
      ih (fun h ↦ hl (List.mem_cons_of_mem _ h)) (by simpa using hroom), List.append_assoc]
    rfl

theorem shortFrom_full (hfull : room ≤ cur.length) : shortFrom cur input = [] := by
  cases input with
  | nil => rfl
  | cons c input => exact if_pos hfull

/-! ## One buffer -/

/-- The first newline of a text without NULs. -/
theorem strchr_eq {s : List UInt8} (hs : 0 ∉ s) :
    (strchr newline s = none ∧ newline ∉ s) ∨
      ∃ line rest, s = line ++ newline :: rest ∧ newline ∉ line ∧
        strchr newline s = some line.length := by
  induction s with
  | nil => exact .inl ⟨rfl, List.not_mem_nil⟩
  | cons x s ih =>
    have hx : x ≠ 0 := fun h ↦ hs (by simp [h])
    rw [strchr, if_neg hx]
    by_cases hnl : x = newline
    · rw [if_pos hnl]
      exact .inr ⟨[], s, by rw [hnl]; rfl, List.not_mem_nil, rfl⟩
    · rw [if_neg hnl]
      rcases ih fun h ↦ hs (List.mem_cons_of_mem _ h) with ⟨hnone, hnot⟩ | ⟨line, rest, rfl, hline, hsome⟩
      · refine .inl ⟨by rw [hnone]; rfl, fun h ↦ ?_⟩
        rcases List.mem_cons.mp h with h | h
        · exact hnl h.symm
        · exact hnot h
      · refine .inr ⟨x :: line, rest, rfl, fun h ↦ ?_, by rw [hsome]; rfl⟩
        rcases List.mem_cons.mp h with h | h
        · exact hnl h.symm
        · exact hline h

/-- The inner loop writes the lines of the buffer that match, and leaves what follows the last one. -/
theorem scan_spec (pattern : List UInt8) {fuel : ℕ} {buf : List UInt8} (hfuel : buf.length ≤ fuel)
    (hnul : 0 ∉ buf)
    (hroom : buf.length ≤ room) :
    ∃ lines held, scan pattern fuel buf = (matching pattern lines, held) ∧ held <:+ buf ∧
      newline ∉ held ∧ ∀ input, shortFrom [] (buf ++ input) = lines ++ shortFrom held input := by
  induction fuel generalizing buf with
  | zero =>
    obtain rfl := List.eq_nil_of_length_eq_zero (Nat.le_zero.mp hfuel)
    exact ⟨[], [], rfl, List.suffix_rfl, List.not_mem_nil, fun _ ↦ rfl⟩
  | succ fuel ih =>
    rw [scan]
    rcases strchr_eq hnul with ⟨hnone, hnot⟩ | ⟨line, rest, rfl, hline, hsome⟩
    · rw [hnone]
      refine ⟨[], buf, rfl, List.suffix_rfl, hnot, fun input ↦ ?_⟩
      rw [shortFrom_append hnot (by simpa using hroom)]
      rfl
    · rw [hsome]
      have hdrop : (line ++ newline :: rest).drop (line.length + 1) = rest := by
        rw [← List.drop_drop, List.drop_left]
        rfl
      have htake : (line ++ newline :: rest).take (line.length + 1) = line ++ [newline] := by
        rw [List.take_append, List.take_of_length_le (by omega), Nat.add_sub_cancel_left]
        rfl
      simp only [List.length_append, List.length_cons] at hfuel hroom
      have hrest : 0 ∉ rest := fun h ↦ hnul (by simp [h])
      obtain ⟨lines, held, hscan, hsuffix, hheld, hshort⟩ := ih (by omega) hrest (by omega)
      refine ⟨line :: lines, held, ?_, ?_, hheld, fun input ↦ ?_⟩
      · dsimp only
        rw [hdrop, htake, List.take_left, hscan]
        rfl
      · exact hsuffix.trans ((List.suffix_cons _ _).trans (List.suffix_append _ _))
      · rw [List.append_assoc, shortFrom_append hline (by simp; omega), List.nil_append,
          List.cons_append, shortFrom, if_neg (by omega), if_pos rfl, hshort, List.cons_append]

/-! ## The whole input -/

theorem readLoop_eq {fuel : ℕ} {sizes : ℕ → ℕ} {held : List UInt8} (hfuel : input.length < fuel)
    (hnul : 0 ∉ held ++ input) (hheld : newline ∉ held) (hroom : held.length ≤ room) :
    readLoop pattern fuel sizes held input = matching pattern (shortFrom held input) := by
  induction fuel generalizing sizes held input with
  | zero => omega
  | succ fuel ih =>
    rw [readLoop]
    obtain ⟨n, hn⟩ : ∃ n, n = min (room - held.length) (min (sizes 0 + 1) input.length) := ⟨_, rfl⟩
    dsimp only
    rw [← hn]
    by_cases hzero : n = 0
    · rw [if_pos hzero]
      by_cases hfull : room ≤ held.length
      · rw [shortFrom_full hfull]
        rfl
      · obtain rfl := List.eq_nil_of_length_eq_zero (show input.length = 0 by omega)
        rfl
    · rw [if_neg hzero]
      have hsplit : input = input.take n ++ input.drop n := (List.take_append_drop n input).symm
      have hlen : (held ++ input.take n).length ≤ room := by
        rw [List.length_append, List.length_take]
        omega
      have hsub : ∀ {x}, x ∈ held ++ input.take n → x ∈ held ++ input := by
        intro x hx
        rcases List.mem_append.mp hx with h | h
        · exact List.mem_append_left _ h
        · exact List.mem_append_right _ (List.mem_of_mem_take h)
      obtain ⟨lines, held', hscan, hsuffix, hheld', hshort⟩ :=
        scan_spec pattern le_rfl (fun h ↦ hnul (hsub h)) hlen
      rw [hscan, ih]
      · rw [← matching_append, ← hshort, List.append_assoc, ← hsplit,
          shortFrom_append hheld (by simpa using hroom), List.nil_append]
      · rw [List.length_drop]
        omega
      · intro h
        rcases List.mem_append.mp h with h | h
        · exact hnul (hsub (hsuffix.mem h))
        · exact hnul (List.mem_append_right _ (List.mem_of_mem_drop h))
      · exact hheld'
      · exact hsuffix.length_le.trans hlen

theorem matching_eq_nil_iff {ls : List (List UInt8)} :
    matching pattern ls = [] ↔ ∀ l ∈ ls, matchText pattern l = false := by
  rw [matching, List.flatMap_eq_nil_iff]
  refine forall₂_congr fun l _ ↦ ?_
  split_ifs with h <;> simp [h]

/-- For every pattern, every input without NULs and every way in which it is read: `grep` writes the lines
that match, each once and in order, if and only if no line matches from the first one of 1023 bytes or
more on. -/
theorem grep_writes_matching_lines_iff (pattern : List UInt8) (sizes : ℕ → ℕ) (input : List UInt8)
    (hnul : 0 ∉ input) :
    grep pattern sizes input = matching pattern (linesFrom [] input) ↔
      ∀ line ∈ lost input, matchText pattern line = false := by
  have hgrep : grep pattern sizes input = matching pattern (shortFrom [] input) :=
    readLoop_eq (Nat.lt_succ_self _) (by simpa using hnul) List.not_mem_nil (Nat.zero_le _)
  rw [hgrep, linesFrom_eq, matching_append, ← matching_eq_nil_iff]
  constructor
  · intro h
    exact List.append_cancel_left (h.symm.trans (List.append_nil _).symm)
  · intro h
    rw [h, List.append_nil]

/-- Two short lines, read three bytes at a time. -/
theorem grep_writes_matching_lines_iff_short :
    grep [97] (fun _ ↦ 2) [98, 97, 10, 98, 10, 97, 97, 10] =
      matching [97] (linesFrom [] [98, 97, 10, 98, 10, 97, 97, 10]) :=
  (grep_writes_matching_lines_iff [97] (fun _ ↦ 2) [98, 97, 10, 98, 10, 97, 97, 10]
    (by decide)).mpr (by decide)

/-- A line of 1023 bytes: the empty pattern matches it, and `grep` writes nothing. -/
theorem grep_loses_long_line :
    0 ∉ List.replicate 1023 97 ++ [newline] ∧
      grep [] (fun _ ↦ 1022) (List.replicate 1023 97 ++ [newline]) = [] ∧
      matching [] (linesFrom [] (List.replicate 1023 97 ++ [newline])) ≠ [] := by
  decide +kernel

end EnhancedXv6.Grep
