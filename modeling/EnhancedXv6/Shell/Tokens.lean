import EnhancedXv6.Shell.Model
import Mathlib.Data.List.DropRight
import Mathlib.Tactic.Common

/-!
# The tokens of a line

`lex` is the line split by `gettoken`.  What `peek` and `gettoken` return, and where they leave the
cursor, depends only on the tokens from there on, so the parser can be described on tokens.
-/

namespace EnhancedXv6.Shell

theorem length_skip_le (s : Text) : (skip s).length ≤ s.length :=
  (List.dropWhile_suffix _).length_le

@[simp] theorem skip_skip (s : Text) : skip (skip s) = skip s :=
  List.dropWhile_idempotent _ _

/-- Where a scan stopped. -/
theorem dropWhile_head {α : Type} {p : α → Bool} {s rest : List α} {c : α}
    (h : s.dropWhile p = c :: rest) : p c = false := by
  have hhead := List.head?_dropWhile_not p s
  simpa [h] using hhead

/-! ## One token -/

def Tok.first {W : Type} : Tok W → Option UInt8
  | .eof => none
  | .pipe => some (chr '|')
  | .lparen => some (chr '(')
  | .rparen => some (chr ')')
  | .semi => some (chr ';')
  | .amp => some (chr '&')
  | .less => some (chr '<')
  | .greater => some (chr '>')
  | .append => some (chr '>')
  | .word _ => none

/-- Characters of words are what is left when the tokens of symbols are tried. -/
theorem isWord_of_symbol {c : UInt8} (hspace : whitespace.contains c = false)
    (hsym : symbol c = none) (hgt : c ≠ chr '>') : isWord c = true := by
  have hsymbols : symbols.contains c = false := by
    simp only [symbol] at hsym
    split_ifs at hsym with h1 h2 h3 h4 h5 h6
    simp [symbols, h1, h2, h3, h4, h5, h6, hgt]
  simp only [isWord, hspace, hsymbols]
  rfl

theorem symbol_spec {c : UInt8} {tok : Tok Span} (h : symbol c = some tok) :
    tok ≠ .eof ∧ tok.first = some c := by
  simp only [symbol] at h
  split_ifs at h with h1 h2 h3 h4 h5 h6
  all_goals
    cases h
    subst c
    exact ⟨by simp, rfl⟩

/-- At a character that is not white space there is a token, and it is a word or starts with that
character. -/
theorem token_spec (es : ℕ) {c : UInt8} (rest : Text) (hspace : whitespace.contains c = false) :
    (token es (c :: rest)).1 ≠ .eof ∧
      (token es (c :: rest)).2.length ≤ rest.length ∧
      ((token es (c :: rest)).1.first = some c ∨
        (token es (c :: rest)).1.first = none ∧ isWord c = true) := by
  simp only [token]
  split
  next tok hsym =>
    obtain ⟨hne, hfirst⟩ := symbol_spec hsym
    exact ⟨hne, le_refl _, .inl hfirst⟩
  next hsym =>
    split_ifs with hgt hgt'
    · refine ⟨by simp, ?_, .inl (by rw [hgt]; rfl)⟩
      simp
    · exact ⟨by simp, le_refl _, .inl (by rw [hgt]; rfl)⟩
    · have hword := isWord_of_symbol hspace hsym hgt
      refine ⟨by simp, ?_, .inr ⟨rfl, hword⟩⟩
      rw [List.dropWhile_cons_of_pos hword]
      exact (List.dropWhile_suffix _).length_le

/-! ## The tokens -/

theorem gettoken_of_skip_nil {es : ℕ} {ps : Text} (h : skip ps = []) :
    gettoken es ps = (.eof, []) := by
  simp only [gettoken, h]
  rfl

theorem gettoken_of_skip_cons (es : ℕ) {ps rest : Text} {c : UInt8} (h : skip ps = c :: rest) :
    (gettoken es ps).1 ≠ .eof ∧ (gettoken es ps).2.length < ps.length := by
  obtain ⟨hne, hlength, -⟩ := token_spec es rest (dropWhile_head h)
  have hps := length_skip_le ps
  have hskip := length_skip_le (token es (c :: rest)).2
  simp only [gettoken, h]
  rw [h, List.length_cons] at hps
  exact ⟨hne, by omega⟩

theorem length_gettoken_lt {es : ℕ} {ps : Text} (h : (gettoken es ps).1 ≠ .eof) :
    (gettoken es ps).2.length < ps.length := by
  cases hskip : skip ps with
  | nil => simp [gettoken_of_skip_nil hskip] at h
  | cons c rest => exact (gettoken_of_skip_cons es hskip).2

def lex (es : ℕ) (ps : Text) : List (Tok Span) :=
  if _h : (gettoken es ps).1 = .eof then []
  else (gettoken es ps).1 :: lex es (gettoken es ps).2
termination_by ps.length
decreasing_by exact length_gettoken_lt _h

section

variable {es : ℕ} {ps : Text}

@[simp] theorem lex_skip : lex es (skip ps) = lex es ps := by
  have hsame : gettoken es (skip ps) = gettoken es ps := by simp only [gettoken, skip_skip]
  rw [lex.eq_1 es (skip ps), lex.eq_1 es ps, hsame]

theorem lex_gettoken (h : (gettoken es ps).1 ≠ .eof) :
    lex es ps = (gettoken es ps).1 :: lex es (gettoken es ps).2 := by
  rw [lex, dif_neg h]

theorem length_lex_le (es : ℕ) (ps : Text) : (lex es ps).length ≤ ps.length := by
  induction ps using lex.induct es with
  | case1 ps heof => simp [lex, heof]
  | case2 ps hne ih =>
    have hlt := length_gettoken_lt hne
    rw [lex_gettoken hne, List.length_cons]
    omega

/-- At the end of the tokens `gettoken` says so. -/
theorem gettoken_of_nil (h : lex es ps = []) : gettoken es ps = (.eof, []) := by
  apply gettoken_of_skip_nil
  cases hskip : skip ps with
  | nil => rfl
  | cons c rest => simp [lex_gettoken (gettoken_of_skip_cons es hskip).1] at h

theorem ne_eof_of_cons {tok : Tok Span} {rest : List (Tok Span)} (h : lex es ps = tok :: rest) :
    tok ≠ .eof := by
  rw [lex] at h
  split_ifs at h with heof
  rw [← (List.cons.inj h).1]
  exact heof

/-- Before the end `gettoken` returns the next token and goes behind it. -/
theorem gettoken_of_cons {tok : Tok Span} {rest : List (Tok Span)} (h : lex es ps = tok :: rest) :
    ∃ ps', gettoken es ps = (tok, ps') ∧ lex es ps' = rest := by
  rw [lex] at h
  split_ifs at h
  rw [List.cons.injEq] at h
  exact ⟨(gettoken es ps).2, by rw [← h.1], h.2⟩

theorem skip_of_nil (h : lex es ps = []) : skip ps = [] := by
  cases hskip : skip ps with
  | nil => rfl
  | cons c rest => simp [lex_gettoken (gettoken_of_skip_cons es hskip).1] at h

theorem lex_of_skip_nil (h : skip ps = []) : lex es ps = [] := by
  rw [lex, gettoken_of_skip_nil h]
  rfl

def Starts {W : Type} (toks : List Char) (tokens : List (Tok W)) : Bool :=
  tokens.head?.any fun tok ↦ tok.first.any fun c ↦ (toks.map chr).contains c

/-- `peek` for symbols looks at the next token. -/
theorem peek_eq {toks : List Char} (es : ℕ) (htoks : ∀ c ∈ toks, chr c ∈ symbols) :
    (peek ps toks).1 = Starts toks (lex es ps) := by
  cases hskip : skip ps with
  | nil => simp [peek, Starts, hskip, lex_of_skip_nil hskip]
  | cons c rest =>
    have hlex := lex_gettoken (gettoken_of_skip_cons es hskip).1
    have htok : (gettoken es ps).1 = (token es (c :: rest)).1 := by
      simp only [gettoken, hskip]
    obtain ⟨-, -, hfirst | ⟨hfirst, hword⟩⟩ := token_spec es rest (dropWhile_head hskip)
    · simp only [peek, hskip, Starts, hlex, htok, List.head?_cons, Option.any_some, hfirst]
    · have hnot : (toks.map chr).contains c = false := by
        rw [Bool.eq_false_iff]
        intro hmem
        obtain ⟨t, ht, rfl⟩ := List.mem_map.mp (List.contains_iff_mem.mp hmem)
        have hsymbol : chr t ∈ symbols := htoks t ht
        simp [isWord, hsymbol] at hword
      simp only [peek, hskip, Starts, hlex, htok, List.head?_cons, Option.any_some, hfirst, hnot,
        Option.any_none]

end

end EnhancedXv6.Shell
