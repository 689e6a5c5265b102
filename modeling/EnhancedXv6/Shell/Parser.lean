import EnhancedXv6.Shell.Grammar
import EnhancedXv6.Shell.Tokens
import EnhancedXv6.Transition.Fallible

/-!
# The parser accepts its grammar

Soundness: with enough fuel each function either panics or returns the tree of a derivation of the
tokens it passed.  Completeness: on the tokens of a derivation, followed by a token that cannot
continue it, each function returns the tree of the derivation and stops behind it.
-/

namespace EnhancedXv6.Shell

open Fallible

/-- The parser returns something in `Q`, or panics. -/
def Ends {α : Type} (Q : α → Prop) : Except Fault α → Prop
  | .ok a => Q a
  | .error e => e ≠ .outOfFuel

theorem Ends.bind {α β : Type} {P : α → Prop} {Q : β → Prop} {x : Except Fault α}
    {f : α → Except Fault β} (hx : Ends P x) (hf : ∀ a, P a → Ends Q (f a)) : Ends Q (x >>= f) := by
  cases x with
  | error e => exact hx
  | ok a => exact hf a hx

theorem Ends.mono {α : Type} {P Q : α → Prop} {x : Except Fault α} (hx : Ends P x)
    (h : ∀ a, P a → Q a) : Ends Q x := by
  cases x with
  | error e => exact hx
  | ok a => exact h a hx

section

variable {es : ℕ}

/-! ## The next token -/

def singles : List (Char × Tok Span) :=
  [('&', .amp), (';', .semi), ('|', .pipe), ('(', .lparen), (')', .rparen)]

theorem starts_single {c : Char} {tok : Tok Span} (h : (c, tok) ∈ singles)
    {ts : List (Tok Span)} : Starts [c] ts = true ↔ ∃ rest, ts = tok :: rest := by
  cases ts with
  | nil => simp [Starts]
  | cons t rest =>
    simp only [singles, List.mem_cons, Prod.mk.injEq, List.not_mem_nil, or_false] at h
    obtain ⟨rfl, rfl⟩ | ⟨rfl, rfl⟩ | ⟨rfl, rfl⟩ | ⟨rfl, rfl⟩ | ⟨rfl, rfl⟩ := h
    all_goals cases t <;> simp [Starts, Tok.first, chr]

theorem chr_single {c : Char} {tok : Tok Span} (h : (c, tok) ∈ singles) : chr c ∈ symbols := by
  simp only [singles, List.mem_cons, Prod.mk.injEq, List.not_mem_nil, or_false] at h
  obtain ⟨rfl, -⟩ | ⟨rfl, -⟩ | ⟨rfl, -⟩ | ⟨rfl, -⟩ | ⟨rfl, -⟩ := h
  all_goals decide

theorem peek_single (es : ℕ) {c : Char} (tok : Tok Span) (h : (c, tok) ∈ singles) {ps : Text} :
    (peek ps [c]).1 = true ↔
      ∃ ps', gettoken es ps = (tok, ps') ∧ lex es ps = tok :: lex es ps' := by
  have hpeek : (peek ps [c]).1 = Starts [c] (lex es ps) := by
    apply peek_eq
    intro c' hc'
    rw [List.mem_singleton.mp hc']
    exact chr_single h
  rw [hpeek, starts_single h]
  constructor
  · rintro ⟨rest, hlex⟩
    obtain ⟨ps', hget, hrest⟩ := gettoken_of_cons hlex
    exact ⟨ps', hget, by rw [hlex, hrest]⟩
  · rintro ⟨ps', -, hlex⟩
    exact ⟨lex es ps', hlex⟩

def StartsRedir {W : Type} (ts : List (Tok W)) : Prop := ∃ op rest, ts = RedirOp.tok op :: rest

theorem starts_redir {ts : List (Tok Span)} : Starts ['<', '>'] ts = true ↔ StartsRedir ts := by
  cases ts with
  | nil => simp [Starts, StartsRedir]
  | cons t rest =>
    constructor
    · intro h
      cases t with
      | less => exact ⟨.input, rest, rfl⟩
      | greater => exact ⟨.output, rest, rfl⟩
      | append => exact ⟨.append, rest, rfl⟩
      | _ => simp [Starts, Tok.first, chr] at h
    · rintro ⟨op, rest, h⟩
      cases h
      cases op <;> rfl

theorem peek_redir (es : ℕ) {ps : Text} :
    (peek ps ['<', '>']).1 = true ↔ StartsRedir (lex es ps) := by
  rw [peek_eq es (by simp [symbols]), starts_redir]

def Nonterminal.follow : Nonterminal → List (Tok Span)
  | .line => [.rparen]
  | .pipe => [.rparen, .amp, .semi]
  | .exec => [.rparen, .amp, .semi, .pipe]

/-- The rest of the line after a nonterminal. -/
def Follows (nt : Nonterminal) (k : List (Tok Span)) : Prop := ∀ t ∈ k.head?, t ∈ nt.follow

theorem peek_follow (es : ℕ) {ps : Text} :
    (peek ps ['|', ')', '&', ';']).1 = true ↔
      ∃ t ∈ (lex es ps).head?, t ∈ Nonterminal.exec.follow := by
  rw [peek_eq es (by simp [symbols])]
  cases lex es ps with
  | nil => simp [Starts]
  | cons t rest => cases t <;> simp [Starts, Tok.first, chr, Nonterminal.follow]

/-! ## Soundness -/

theorem parseredirs_sound {fuel : ℕ} {cmd : Cmd Span} {ps : Text}
    (hfuel : (lex es ps).length < fuel) :
    Ends (fun r ↦ ∃ ts rs, Redirs ts rs ∧ lex es ps = ts ++ lex es r.2 ∧ r.1 = wrap cmd rs)
      (parseredirs es fuel cmd ps) := by
  induction fuel generalizing cmd ps with
  | zero => omega
  | succ fuel ih =>
    rw [parseredirs]
    split_ifs with hpeek
    · obtain ⟨op, rest, hlex⟩ := (peek_redir es).mp hpeek
      obtain ⟨ps₁, hget, rfl⟩ := gettoken_of_cons hlex
      simp only [hget]
      cases hlex₁ : lex es ps₁ with
      | nil =>
        rw [gettoken_of_nil hlex₁]
        exact Fault.noConfusion
      | cons tok rest =>
        obtain ⟨ps₂, hget₂, rfl⟩ := gettoken_of_cons hlex₁
        rw [hget₂]
        cases tok with
        | word file =>
          rw [hlex, hlex₁, List.length_cons, List.length_cons] at hfuel
          apply (ih (by omega)).mono
          rintro ⟨cmd', ps'⟩ ⟨ts, rs, hrs, hlex₂, rfl⟩
          rw [redirCmd_tok, hlex, hlex₁, hlex₂]
          exact ⟨_, _, .cons op file hrs, rfl, rfl⟩
        | _ => exact Fault.noConfusion
    · exact ⟨[], [], .nil, by simp, rfl⟩

/-- The arguments read are those of the tokens consumed. -/
theorem parseargs_sound {fuel argc : ℕ} {ws : List Span} {rs : List (Redir Span)} {ps : Text}
    (hfuel : (lex es ps).length < fuel) (hargc : argc = ws.length) (hmax : argc < MAXARGS) :
    Ends (fun r ↦ ∃ ts ws' rs', Args ts ws' rs' ∧ lex es ps = ts ++ lex es r.2 ∧
        (ws ++ ws').length < MAXARGS ∧ r.1 = wrap (.exec (ws ++ ws')) (rs ++ rs'))
      (parseargs es fuel (wrap (.exec ws) rs) argc ps) := by
  induction fuel generalizing ws rs argc ps with
  | zero => omega
  | succ fuel ih =>
    have hnone : ∃ ts ws' rs', Args ts ws' rs' ∧ lex es ps = ts ++ lex es ps ∧
        (ws ++ ws').length < MAXARGS ∧ wrap (.exec ws) rs = wrap (.exec (ws ++ ws')) (rs ++ rs') :=
      ⟨[], [], [], .nil, rfl, by simpa [← hargc] using hmax, by simp⟩
    rw [parseargs]
    by_cases hpeek : (peek ps ['|', ')', '&', ';']).1 = true
    · rw [if_pos hpeek]
      simpa [Ends] using hnone
    · rw [if_neg hpeek]
      cases hlex : lex es ps with
      | nil =>
        rw [gettoken_of_nil hlex]
        have hend : lex es [] = [] := lex_of_skip_nil rfl
        simpa [Ends, hlex, hend] using hnone
      | cons tok rest =>
        obtain ⟨ps₁, hget, rfl⟩ := gettoken_of_cons hlex
        rw [hget]
        cases tok with
        | word q =>
          simp only
          split_ifs with hmany
          · exact Fault.noConfusion
          · rw [hlex, List.length_cons] at hfuel
            rw [addArg_wrap]
            apply (parseredirs_sound (by omega)).bind
            rintro ⟨ret, ps₂⟩ ⟨ts₁, rs₁, hrs₁, hlex₁, rfl⟩
            simp only at hlex₁ ⊢
            rw [hlex₁, List.length_append] at hfuel
            rw [← wrap_append]
            apply (ih (by omega) (by simp [hargc]) (by omega)).mono
            rintro ⟨ret, ps₃⟩ ⟨ts₂, ws₂, rs₂, hargs, hlex₂, hlength, hret⟩
            refine ⟨_, _, _, .cons q hrs₁ hargs, ?_, ?_, ?_⟩
            · simp [hlex₁, hlex₂]
            · simpa using hlength
            · simpa using hret
        | eof => exact absurd rfl (ne_eof_of_cons hlex)
        | _ => exact Fault.noConfusion

theorem parseback_sound {fuel : ℕ} {cmd : Cmd Span} {ps : Text}
    (hfuel : (lex es ps).length < fuel) :
    Ends (fun r ↦ ∃ n, lex es ps = List.replicate n .amp ++ lex es r.2 ∧ r.1 = backs n cmd)
      (parseback es fuel cmd ps) := by
  induction fuel generalizing cmd ps with
  | zero => omega
  | succ fuel ih =>
    rw [parseback]
    split_ifs with hpeek
    · obtain ⟨ps₁, hget, hlex⟩ := (peek_single es .amp (by simp [singles])).mp hpeek
      rw [hlex, List.length_cons] at hfuel
      simp only [hget]
      apply (ih (by omega)).mono
      rintro ⟨cmd', ps'⟩ ⟨n, hlex₁, rfl⟩
      exact ⟨n + 1, by rw [hlex, hlex₁]; rfl, rfl⟩
    · exact ⟨0, by simp, rfl⟩

def parse (es : ℕ) : Nonterminal → ℕ → Text → Parse
  | .line => parseline es
  | .pipe => parsepipe es
  | .exec => parseexec es

/-- What each nonterminal needs besides four for each token. -/
def Nonterminal.need : Nonterminal → ℕ
  | .line => 4
  | .pipe => 3
  | .exec => 2

/-- A tree of the tokens between two cursors. -/
def Parsed (es : ℕ) (nt : Nonterminal) (ps : Text) (r : Cmd Span × Text) : Prop :=
  ∃ ts, Derives nt ts r.1 ∧ lex es ps = ts ++ lex es r.2

theorem Parsed.length_le {nt : Nonterminal} {ps : Text} {r : Cmd Span × Text}
    (h : Parsed es nt ps r) : (lex es r.2).length ≤ (lex es ps).length := by
  obtain ⟨ts, -, hlex⟩ := h
  simp [hlex]

def Sound (es : ℕ) (nt : Nonterminal) (fuel : ℕ) : Prop :=
  ∀ ps, 4 * (lex es ps).length + nt.need ≤ fuel → Ends (Parsed es nt ps) (parse es nt fuel ps)

theorem parseline_sound {fuel : ℕ} (hpipe : Sound es .pipe fuel) (hline : Sound es .line fuel) :
    Sound es .line (fuel + 1) := by
  intro ps hfuel
  simp only [Nonterminal.need] at hfuel
  rw [parse, parseline]
  apply (hpipe ps (by simp only [Nonterminal.need]; omega)).bind
  rintro ⟨cmd, ps₁⟩ hcmd
  have hlength₁ := hcmd.length_le
  obtain ⟨ts, hderives, hlex⟩ := hcmd
  apply (parseback_sound (by simp only at hlength₁; omega)).bind
  rintro ⟨cmd₁, ps₂⟩ ⟨n, hlex₁, rfl⟩
  simp only
  split_ifs with hpeek
  · obtain ⟨ps₃, hget, hlex₂⟩ := (peek_single es .semi (by simp [singles])).mp hpeek
    rw [hget]
    have hlength : (lex es ps₃).length < (lex es ps).length := by
      simp only [hlex, hlex₁, hlex₂, List.length_append, List.length_cons]
      omega
    apply (hline ps₃ (by simp only [Nonterminal.need]; omega)).bind
    rintro ⟨right, ps₄⟩ ⟨ts₁, hright, hlex₃⟩
    refine ⟨_, .seq n hderives hright, ?_⟩
    simp [hlex, hlex₁, hlex₂, hlex₃]
  · refine ⟨_, .last n hderives, ?_⟩
    simp [hlex, hlex₁]

theorem parsepipe_sound {fuel : ℕ} (hexec : Sound es .exec fuel) (hpipe : Sound es .pipe fuel) :
    Sound es .pipe (fuel + 1) := by
  intro ps hfuel
  simp only [Nonterminal.need] at hfuel
  rw [parse, parsepipe]
  apply (hexec ps (by simp only [Nonterminal.need]; omega)).bind
  rintro ⟨cmd, ps₁⟩ ⟨ts, hderives, hlex⟩
  simp only
  split_ifs with hpeek
  · obtain ⟨ps₂, hget, hlex₁⟩ := (peek_single es .pipe (by simp [singles])).mp hpeek
    rw [hget]
    have hlength : (lex es ps₂).length < (lex es ps).length := by
      simp only [hlex, hlex₁, List.length_append, List.length_cons]
      omega
    apply (hpipe ps₂ (by simp only [Nonterminal.need]; omega)).bind
    rintro ⟨right, ps₃⟩ ⟨ts₁, hright, hlex₂⟩
    refine ⟨_, .piped hderives hright, ?_⟩
    simp [hlex, hlex₁, hlex₂]
  · refine ⟨_, .one hderives, ?_⟩
    simp [hlex]

theorem parseexec_sound {fuel : ℕ} (hline : Sound es .line fuel) : Sound es .exec (fuel + 2) := by
  intro ps hfuel
  simp only [Nonterminal.need] at hfuel
  rw [parse, parseexec]
  split_ifs with hpeek
  · obtain ⟨ps₁, hget, hlex⟩ := (peek_single es .lparen (by simp [singles])).mp hpeek
    rw [hlex, List.length_cons] at hfuel
    rw [parseblock, if_neg (by simp [hpeek]), hget]
    apply (hline ps₁ (by simp only [Nonterminal.need]; omega)).bind
    rintro ⟨cmd, ps₂⟩ hcmd
    have hlength := hcmd.length_le
    obtain ⟨ts, hderives, hlex₁⟩ := hcmd
    simp only at hlength ⊢
    split_ifs with hclose
    · exact Fault.noConfusion
    · rw [Bool.not_eq_false] at hclose
      obtain ⟨ps₃, hget₃, hlex₂⟩ :=
        (peek_single es .rparen (by simp [singles])).mp hclose
      rw [hlex₂, List.length_cons] at hlength
      simp only [hget₃]
      apply (parseredirs_sound (by omega)).mono
      rintro ⟨cmd', ps₄⟩ ⟨ts₁, rs, hrs, hlex₃, rfl⟩
      refine ⟨_, .block hderives hrs, ?_⟩
      simp [hlex, hlex₁, hlex₂, hlex₃]
  · apply (parseredirs_sound (by omega)).bind
    rintro ⟨ret, ps₁⟩ ⟨ts, rs, hrs, hlex, rfl⟩
    have hlength : (lex es ps₁).length ≤ (lex es ps).length := by simp [hlex]
    apply (parseargs_sound (by omega) rfl (by decide)).mono
    rintro ⟨ret, ps₂⟩ ⟨ts₁, ws, rs₁, hargs, hlex₁, hmax, rfl⟩
    refine ⟨_, .simple hrs hargs hmax, ?_⟩
    simp [hlex, hlex₁]

theorem parse_sound (fuel : ℕ) (nt : Nonterminal) : Sound es nt fuel := by
  induction fuel using Nat.strong_induction_on generalizing nt with
  | _ fuel ih =>
    match fuel, nt with
    | 0, nt =>
      intro ps hfuel
      cases nt <;> simp only [Nonterminal.need] at hfuel <;> omega
    | fuel + 1, .line =>
      exact parseline_sound (ih fuel (by omega) .pipe) (ih fuel (by omega) .line)
    | fuel + 1, .pipe =>
      exact parsepipe_sound (ih fuel (by omega) .exec) (ih fuel (by omega) .pipe)
    | 1, .exec =>
      intro ps hfuel
      simp only [Nonterminal.need] at hfuel
      omega
    | fuel + 2, .exec => exact parseexec_sound (ih fuel (by omega) .line)

/-! ## Completeness -/

/-- The result of a function that returns `cmd` before the tokens `k`. -/
def Returns (es : ℕ) (p : Parse) (cmd : Cmd Span) (k : List (Tok Span)) : Prop :=
  ∃ ps', p = .ok (cmd, ps') ∧ lex es ps' = k

theorem Returns.bind {p : Parse} {f : Cmd Span × Text → Parse} {cmd cmd' : Cmd Span}
    {k k' : List (Tok Span)} (hp : Returns es p cmd k)
    (hf : ∀ ps, lex es ps = k → Returns es (f (cmd, ps)) cmd' k') : Returns es (p >>= f) cmd' k' := by
  obtain ⟨ps, rfl, hlex⟩ := hp
  exact hf ps hlex

theorem not_startsRedir_of_follows {k : List (Tok Span)} (h : Follows .exec k) :
    ¬ StartsRedir k := by
  rintro ⟨op, rest, rfl⟩
  have hmem := h op.tok rfl
  cases op <;> simp [Nonterminal.follow, RedirOp.tok] at hmem

theorem Follows.exec_of_pipe {k : List (Tok Span)} (h : Follows .pipe k) : Follows .exec k := by
  intro t ht
  have hmem := h t ht
  simp only [Nonterminal.follow, List.mem_cons, List.not_mem_nil, or_false] at hmem ⊢
  tauto

theorem follows_cons {nt : Nonterminal} {t : Tok Span} (ht : t ∈ nt.follow)
    (k : List (Tok Span)) : Follows nt (t :: k) := by
  intro t' ht'
  rwa [← Option.some.inj ht']

theorem follows_replicate {n : ℕ} {k : List (Tok Span)} (hk : Follows .pipe k) :
    Follows .pipe (List.replicate n .amp ++ k) := by
  cases n with
  | zero => exact hk
  | succ n => exact follows_cons (by simp [Nonterminal.follow]) _

theorem not_peek_single {c : Char} (tok : Tok Span) (h : (c, tok) ∈ singles) {ps : Text}
    (hne : ∀ t ∈ (lex es ps).head?, t ≠ tok) : ¬ (peek ps [c]).1 = true := by
  rw [peek_single es tok h]
  rintro ⟨ps', -, hlex⟩
  exact hne tok (by rw [hlex]; rfl) rfl

theorem parseredirs_complete {ts : List (Tok Span)} {rs : List (Redir Span)} (h : Redirs ts rs)
    {fuel : ℕ} {cmd : Cmd Span} {ps : Text} {k : List (Tok Span)} (hlex : lex es ps = ts ++ k)
    (hk : ¬ StartsRedir k) (hfuel : ts.length < fuel) :
    Returns es (parseredirs es fuel cmd ps) (wrap cmd rs) k := by
  induction h generalizing fuel cmd ps with
  | nil =>
    obtain ⟨fuel, rfl⟩ := Nat.exists_eq_succ_of_ne_zero (Nat.ne_zero_of_lt hfuel)
    rw [parseredirs, if_neg]
    · exact ⟨skip ps, rfl, by simpa using hlex⟩
    · rw [peek_redir es, hlex]
      exact hk
  | cons op file h ih =>
    obtain ⟨fuel, rfl⟩ := Nat.exists_eq_succ_of_ne_zero (Nat.ne_zero_of_lt hfuel)
    have hpeek : (peek ps ['<', '>']).1 = true := (peek_redir es).mpr ⟨op, _, hlex⟩
    obtain ⟨ps₁, hget₁, hlex₁⟩ := gettoken_of_cons hlex
    obtain ⟨ps₂, hget₂, hlex₂⟩ := gettoken_of_cons hlex₁
    rw [parseredirs, if_pos hpeek]
    simp only [hget₁, hget₂, redirCmd_tok]
    simp only [List.length_cons] at hfuel
    exact ih hlex₂ (by omega)

/-- Behind the redirections of a word comes the next word, or the end of the command. -/
theorem Args.not_startsRedir {ts : List (Tok Span)} {ws : List Span} {rs : List (Redir Span)}
    (h : Args ts ws rs) {k : List (Tok Span)} (hk : Follows .exec k) : ¬ StartsRedir (ts ++ k) := by
  cases h with
  | nil => exact not_startsRedir_of_follows hk
  | cons w _ _ =>
    rintro ⟨op, rest, hop⟩
    cases op <;> simp [RedirOp.tok] at hop

theorem parseargs_complete {ts : List (Tok Span)} {ws : List Span} {rs : List (Redir Span)}
    (h : Args ts ws rs) {fuel argc : ℕ} {ws₀ : List Span} {rs₀ : List (Redir Span)} {ps : Text}
    {k : List (Tok Span)} (hlex : lex es ps = ts ++ k) (hk : Follows .exec k)
    (hfuel : ts.length < fuel) (hmax : argc + ws.length < MAXARGS) :
    Returns es (parseargs es fuel (wrap (.exec ws₀) rs₀) argc ps)
      (wrap (.exec (ws₀ ++ ws)) (rs₀ ++ rs)) k := by
  induction h generalizing fuel argc ws₀ rs₀ ps with
  | nil =>
    obtain ⟨fuel, rfl⟩ := Nat.exists_eq_succ_of_ne_zero (Nat.ne_zero_of_lt hfuel)
    rw [List.nil_append] at hlex
    rw [parseargs, List.append_nil, List.append_nil]
    cases k with
    | nil =>
      rw [if_neg (by simp [peek_follow es, hlex]), gettoken_of_nil hlex]
      exact ⟨[], rfl, lex_of_skip_nil rfl⟩
    | cons t k =>
      rw [if_pos ((peek_follow es).mpr ⟨t, by simp [hlex], hk t rfl⟩)]
      exact ⟨skip ps, rfl, by simpa using hlex⟩
  | cons w hredirs hargs ih =>
    obtain ⟨fuel, rfl⟩ := Nat.exists_eq_succ_of_ne_zero (Nat.ne_zero_of_lt hfuel)
    rw [List.length_cons] at hmax
    rw [List.length_cons, List.length_append] at hfuel
    rw [List.cons_append, List.append_assoc] at hlex
    have hpeek : ¬ (peek ps ['|', ')', '&', ';']).1 = true := by
      simp [peek_follow es, hlex, Nonterminal.follow]
    obtain ⟨ps₁, hget, hlex₁⟩ := gettoken_of_cons hlex
    rw [parseargs, if_neg hpeek, hget]
    simp only
    rw [if_neg (by omega), addArg_wrap]
    apply (parseredirs_complete hredirs hlex₁ (hargs.not_startsRedir hk) (by omega)).bind
    intro ps₂ hlex₂
    simp only
    rw [← wrap_append, ← List.append_assoc, List.append_cons]
    exact ih hlex₂ (by omega) (by omega)

theorem parseback_complete {n fuel : ℕ} {cmd : Cmd Span} {ps : Text} {k : List (Tok Span)}
    (hlex : lex es ps = List.replicate n .amp ++ k) (hk : ∀ t ∈ k.head?, t ≠ .amp)
    (hfuel : n < fuel) : Returns es (parseback es fuel cmd ps) (backs n cmd) k := by
  induction n generalizing fuel cmd ps with
  | zero =>
    obtain ⟨fuel, rfl⟩ := Nat.exists_eq_succ_of_ne_zero (Nat.ne_zero_of_lt hfuel)
    rw [List.replicate_zero, List.nil_append] at hlex
    rw [parseback, if_neg (not_peek_single .amp (by simp [singles]) (by rwa [hlex]))]
    exact ⟨skip ps, rfl, by rw [lex_skip, hlex]⟩
  | succ n ih =>
    obtain ⟨fuel, rfl⟩ := Nat.exists_eq_succ_of_ne_zero (Nat.ne_zero_of_lt hfuel)
    obtain ⟨ps₁, hget, hlex₁⟩ := gettoken_of_cons hlex
    have hpeek : (peek ps ['&']).1 = true :=
      (peek_single es .amp (by simp [singles])).mpr ⟨ps₁, hget, by rw [hlex, hlex₁]; rfl⟩
    rw [parseback, if_pos hpeek, hget]
    exact ih hlex₁ (by omega)

/-- A derivation of the tokens before `k` is what the parser returns. -/
def Complete (es : ℕ) (nt : Nonterminal) (ts : List (Tok Span)) (cmd : Cmd Span) : Prop :=
  ∀ fuel ps k, lex es ps = ts ++ k → Follows nt k → 4 * ts.length + nt.need ≤ fuel →
    Returns es (parse es nt fuel ps) cmd k

theorem peek_of_cons (c : Char) {tok : Tok Span} (h : (c, tok) ∈ singles) {ps : Text}
    {k : List (Tok Span)} (hlex : lex es ps = tok :: k) :
    (peek ps [c]).1 = true ∧ lex es (gettoken es ps).2 = k := by
  obtain ⟨ps', hget, hk⟩ := gettoken_of_cons hlex
  refine ⟨(peek_single es tok h).mpr ⟨ps', hget, by rw [hlex, hk]⟩, ?_⟩
  rw [hget, hk]

theorem parseblock_complete {ts ts' : List (Tok Span)} {cmd : Cmd Span} {rs : List (Redir Span)}
    (hline : Complete es .line ts cmd) (hredirs : Redirs ts' rs) :
    Complete es .exec (.lparen :: (ts ++ .rparen :: ts')) (wrap cmd rs) := by
  intro fuel ps k hlex hk hfuel
  simp only [Nonterminal.need, List.length_cons, List.length_append] at hfuel
  obtain ⟨fuel, rfl⟩ := Nat.exists_eq_add_of_le' (show 2 ≤ fuel by omega)
  rw [List.cons_append, List.append_assoc, List.cons_append] at hlex
  obtain ⟨hopen, hlex₁⟩ := peek_of_cons '(' (by simp [singles]) hlex
  rw [parse, parseexec, if_pos hopen, parseblock, if_neg (by simp [hopen])]
  have hclosed : Follows .line (.rparen :: (ts' ++ k)) :=
    follows_cons (by simp [Nonterminal.follow]) _
  apply (hline fuel _ _ hlex₁ hclosed (by simp only [Nonterminal.need]; omega)).bind
  intro ps₁ hlex₂
  obtain ⟨hclose, hlex₃⟩ := peek_of_cons ')' (by simp [singles]) hlex₂
  simp only
  rw [if_neg (by simp [hclose])]
  exact parseredirs_complete hredirs hlex₃ (not_startsRedir_of_follows hk) (by omega)

theorem parsesimple_complete {ts ts' : List (Tok Span)} {ws : List Span} {rs rs' : List (Redir Span)}
    (hredirs : Redirs ts rs) (hargs : Args ts' ws rs') (hmax : ws.length < MAXARGS) :
    Complete es .exec (ts ++ ts') (wrap (.exec ws) (rs ++ rs')) := by
  intro fuel ps k hlex hk hfuel
  simp only [Nonterminal.need, List.length_append] at hfuel
  obtain ⟨fuel, rfl⟩ := Nat.exists_eq_add_of_le' (show 1 ≤ fuel by omega)
  rw [List.append_assoc] at hlex
  have hfirst : ∀ t ∈ (lex es ps).head?, t ≠ .lparen := by
    rw [hlex]
    intro t ht
    rintro rfl
    cases hredirs with
    | cons op file _ => cases op <;> simp [RedirOp.tok] at ht
    | nil =>
      cases hargs with
      | cons w _ _ => simp at ht
      | nil => simpa [Nonterminal.follow] using hk _ ht
  rw [parse, parseexec, if_neg (not_peek_single .lparen (by simp [singles]) hfirst)]
  apply (parseredirs_complete hredirs hlex (hargs.not_startsRedir hk) (by omega)).bind
  intro ps₁ hlex₁
  rw [← List.nil_append ws]
  exact parseargs_complete hargs hlex₁ hk (by omega) (by omega)

theorem parsepipe_complete {ts ts' : List (Tok Span)} {left right : Cmd Span}
    (hleft : Complete es .exec ts left) (hright : Complete es .pipe ts' right) :
    Complete es .pipe (ts ++ .pipe :: ts') (.pipe left right) := by
  intro fuel ps k hlex hk hfuel
  simp only [Nonterminal.need, List.length_append, List.length_cons] at hfuel
  obtain ⟨fuel, rfl⟩ := Nat.exists_eq_add_of_le' (show 1 ≤ fuel by omega)
  rw [List.append_assoc, List.cons_append] at hlex
  have hbar : Follows .exec (.pipe :: (ts' ++ k)) := follows_cons (by simp [Nonterminal.follow]) _
  rw [parse, parsepipe]
  apply (hleft fuel ps _ hlex hbar (by simp only [Nonterminal.need]; omega)).bind
  intro ps₁ hlex₁
  obtain ⟨hpeek, hlex₂⟩ := peek_of_cons '|' (by simp [singles]) hlex₁
  simp only
  rw [if_pos hpeek]
  apply (hright fuel _ k hlex₂ hk (by simp only [Nonterminal.need]; omega)).bind
  intro ps₂ hlex₃
  exact ⟨ps₂, rfl, hlex₃⟩

theorem parsepipe_complete_one {ts : List (Tok Span)} {cmd : Cmd Span}
    (hexec : Complete es .exec ts cmd) : Complete es .pipe ts cmd := by
  intro fuel ps k hlex hk hfuel
  simp only [Nonterminal.need] at hfuel
  obtain ⟨fuel, rfl⟩ := Nat.exists_eq_add_of_le' (show 1 ≤ fuel by omega)
  rw [parse, parsepipe]
  apply (hexec fuel ps k hlex hk.exec_of_pipe (by simp only [Nonterminal.need]; omega)).bind
  intro ps₁ hlex₁
  have hnobar : ∀ t ∈ (lex es ps₁).head?, t ≠ .pipe := by
    rw [hlex₁]
    rintro t ht rfl
    simpa [Nonterminal.follow] using hk _ ht
  simp only
  rw [if_neg (not_peek_single .pipe (by simp [singles]) hnobar)]
  exact ⟨skip ps₁, rfl, by rw [lex_skip, hlex₁]⟩

theorem parseline_complete {n : ℕ} {ts ts' : List (Tok Span)} {left right : Cmd Span}
    (hleft : Complete es .pipe ts left) (hright : Complete es .line ts' right) :
    Complete es .line (ts ++ List.replicate n .amp ++ .semi :: ts') (.list (backs n left) right) := by
  intro fuel ps k hlex hk hfuel
  simp only [Nonterminal.need, List.length_append, List.length_cons, List.length_replicate] at hfuel
  obtain ⟨fuel, rfl⟩ := Nat.exists_eq_add_of_le' (show 1 ≤ fuel by omega)
  rw [List.append_assoc, List.append_assoc, List.cons_append] at hlex
  have hsemi : Follows .pipe (.semi :: (ts' ++ k)) := follows_cons (by simp [Nonterminal.follow]) _
  rw [parse, parseline]
  apply (hleft fuel ps _ hlex (follows_replicate hsemi)
    (by simp only [Nonterminal.need]; omega)).bind
  intro ps₁ hlex₁
  apply (parseback_complete hlex₁ (by simp) (by omega)).bind
  intro ps₂ hlex₂
  obtain ⟨hpeek, hlex₃⟩ := peek_of_cons ';' (by simp [singles]) hlex₂
  simp only
  rw [if_pos hpeek]
  apply (hright fuel _ k hlex₃ hk (by simp only [Nonterminal.need]; omega)).bind
  intro ps₃ hlex₄
  exact ⟨ps₃, rfl, hlex₄⟩

theorem parseline_complete_last {n : ℕ} {ts : List (Tok Span)} {cmd : Cmd Span}
    (hpipe : Complete es .pipe ts cmd) :
    Complete es .line (ts ++ List.replicate n .amp) (backs n cmd) := by
  intro fuel ps k hlex hk hfuel
  simp only [Nonterminal.need, List.length_append, List.length_replicate] at hfuel
  obtain ⟨fuel, rfl⟩ := Nat.exists_eq_add_of_le' (show 1 ≤ fuel by omega)
  rw [List.append_assoc] at hlex
  have hclosing : ∀ t ∈ k.head?, t = .rparen := by
    intro t ht
    simpa [Nonterminal.follow] using hk t ht
  have hk' : Follows .pipe k := by
    intro t ht
    simp [hclosing t ht, Nonterminal.follow]
  rw [parse, parseline]
  apply (hpipe fuel ps _ hlex (follows_replicate hk') (by simp only [Nonterminal.need]; omega)).bind
  intro ps₁ hlex₁
  apply (parseback_complete hlex₁ (fun t ht ↦ by simp [hclosing t ht]) (by omega)).bind
  intro ps₂ hlex₂
  have hnosemi : ∀ t ∈ (lex es ps₂).head?, t ≠ .semi := by
    rw [hlex₂]
    intro t ht
    simp [hclosing t ht]
  simp only
  rw [if_neg (not_peek_single .semi (by simp [singles]) hnosemi)]
  exact ⟨skip ps₂, rfl, by rw [lex_skip, hlex₂]⟩

theorem parse_complete {nt : Nonterminal} {ts : List (Tok Span)} {cmd : Cmd Span}
    (h : Derives nt ts cmd) : Complete es nt ts cmd := by
  induction h with
  | block _ hredirs ih => exact parseblock_complete ih hredirs
  | simple hredirs hargs hmax => exact parsesimple_complete hredirs hargs hmax
  | one _ ih => exact parsepipe_complete_one ih
  | piped _ _ ihleft ihright => exact parsepipe_complete ihleft ihright
  | last n _ ih => exact parseline_complete_last ih
  | seq n _ _ ihleft ihright => exact parseline_complete ihleft ihright

end

/-! ## Whole lines -/

theorem fuelFor_suffices (s : Text) :
    4 * (lex s.length s).length + Nonterminal.line.need ≤ fuelFor s.length := by
  have hlength := length_lex_le s.length s
  simp only [Nonterminal.need, fuelFor]
  omega

/-- A sentence of the grammar is parsed into its tree. -/
theorem parsecmd_complete {s : Text} {cmd : Cmd Span} (h : Derives .line (lex s.length s) cmd) :
    parsecmd s = .ok (cmd, nulterminate cmd (s ++ [0])) := by
  have hlex : lex s.length s = lex s.length s ++ [] := by simp
  obtain ⟨ps, hparse, hlex⟩ :=
    parse_complete h _ s [] hlex (by simp [Follows]) (fuelFor_suffices s)
  rw [parse] at hparse
  simp only [parsecmd, hparse, ok_bind]
  rw [if_neg (by simp [peek, skip_of_nil hlex])]

/-- A line is parsed into the tree of a derivation, or `panic` is called. -/
theorem parsecmd_sound (s : Text) :
    Ends (fun r ↦ Derives .line (lex s.length s) r.1 ∧ r.2 = nulterminate r.1 (s ++ [0]))
      (parsecmd s) := by
  apply (parse_sound (fuelFor s.length) .line s (fuelFor_suffices s)).bind
  rintro ⟨cmd, ps⟩ ⟨ts, hderives, hlex⟩
  simp only
  split_ifs with hleft
  · exact Fault.noConfusion
  · simp only [peek, ne_eq, Decidable.not_not] at hleft
    rw [lex_of_skip_nil hleft, List.append_nil] at hlex
    exact ⟨by rwa [hlex], rfl⟩

end EnhancedXv6.Shell
