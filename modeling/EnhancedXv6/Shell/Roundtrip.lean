import EnhancedXv6.Shell.Words

/-!
# Printed commands

A tree is printed with parentheses around the parts of pipes, lists, redirections and background
commands, and with a blank behind every token.
-/

namespace EnhancedXv6.Shell

/-! ## Trees of the grammar -/

/-- Simple commands have room for their arguments and redirections have the modes of an operator. -/
def Proper {W : Type} : Cmd W → Prop
  | .exec argv => argv.length < MAXARGS
  | .redir cmd _ mode fd => Proper cmd ∧ ∃ op : RedirOp, mode = op.mode ∧ fd = op.fd
  | .pipe left right => Proper left ∧ Proper right
  | .list left right => Proper left ∧ Proper right
  | .back cmd => Proper cmd

section

variable {W : Type}

theorem proper_wrap {cmd : Cmd W} (h : Proper cmd) (rs : List (Redir W)) :
    Proper (wrap cmd rs) := by
  induction rs generalizing cmd with
  | nil => exact h
  | cons r rs ih => exact ih ⟨h, r.op, rfl, rfl⟩

theorem proper_backs {cmd : Cmd W} (h : Proper cmd) (n : ℕ) : Proper (backs n cmd) := by
  induction n generalizing cmd with
  | zero => exact h
  | succ n ih => exact ih (show Proper (.back cmd) from h)

theorem Derives.proper {nt : Nonterminal} {ts : List (Tok W)} {cmd : Cmd W}
    (h : Derives nt ts cmd) : Proper cmd := by
  induction h with
  | block _ _ ih => exact proper_wrap ih _
  | simple _ _ hmax => exact proper_wrap (show Proper (.exec _) from hmax) _
  | one _ ih => exact ih
  | piped _ _ ihleft ihright => exact ⟨ihleft, ihright⟩
  | last n _ ih => exact proper_backs ih n
  | seq n _ _ ihleft ihright => exact ⟨proper_backs ihleft n, ihright⟩

/-! ## Printing -/

def opOf (mode : ℕ) : RedirOp :=
  if mode = RedirOp.input.mode then .input
  else if mode = RedirOp.output.mode then .output
  else .append

def parens (tokens : List (Tok W)) : List (Tok W) := .lparen :: (tokens ++ [.rparen])

def Cmd.tokens : Cmd W → List (Tok W)
  | .exec argv => argv.map .word
  | .redir cmd file mode _ => .lparen :: (cmd.tokens ++ .rparen :: [(opOf mode).tok, .word file])
  | .pipe left right => parens left.tokens ++ .pipe :: parens right.tokens
  | .list left right => parens left.tokens ++ .semi :: parens right.tokens
  | .back cmd => parens cmd.tokens ++ [.amp]

theorem args_words (argv : List W) : Args (argv.map .word) argv [] := by
  induction argv with
  | nil => exact .nil
  | cons w argv ih => exact .cons w .nil ih

theorem derives_parens {cmd : Cmd W} {ts : List (Tok W)} (h : Derives .line ts cmd) :
    Derives .pipe (parens ts) cmd :=
  .one (.block h .nil)

/-- A printed tree is a sentence of the grammar, with that tree. -/
theorem derives_tokens {cmd : Cmd W} (h : Proper cmd) : Derives .line cmd.tokens cmd := by
  -- no `&` follows, the background commands apart
  have hlast : ∀ {ts cmd}, Derives (W := W) .pipe ts cmd → Derives .line ts cmd := by
    intro ts cmd hpipe
    simpa [backs] using Derives.last 0 hpipe
  induction cmd with
  | exec argv => exact hlast (.one (.simple .nil (args_words argv) h))
  | redir cmd file mode fd ih =>
    obtain ⟨hcmd, op, rfl, rfl⟩ := h
    have hop : opOf op.mode = op := by cases op <;> rfl
    rw [Cmd.tokens, hop]
    exact hlast (.one (.block (ih hcmd) (.cons op file .nil)))
  | pipe left right ihleft ihright =>
    exact hlast (.piped (.block (ihleft h.1) .nil) (derives_parens (ihright h.2)))
  | list left right ihleft ihright =>
    have hseq := Derives.seq 0 (derives_parens (ihleft h.1)) (hlast (derives_parens (ihright h.2)))
    simpa [Cmd.tokens, backs] using hseq
  | back cmd ih => exact .last 1 (derives_parens (ih h))

theorem word_mem_tokens {cmd : Cmd W} {w : W} (h : Tok.word w ∈ cmd.tokens) : w ∈ cmd.words := by
  induction cmd with
  | exec argv => simpa [Cmd.tokens, Cmd.words] using h
  | redir cmd file mode fd ih =>
    have hop : ∀ op : RedirOp, Tok.word w ≠ op.tok := by
      intro op
      cases op <;> simp [RedirOp.tok]
    simp only [Cmd.tokens, List.mem_cons, List.mem_append, reduceCtorEq, false_or, hop,
      Tok.word.injEq, List.not_mem_nil, or_false] at h
    rw [Cmd.words, List.mem_append, List.mem_singleton]
    exact h.imp_left ih
  | pipe left right ihleft ihright =>
    simp only [Cmd.tokens, parens, List.mem_cons, List.mem_append, reduceCtorEq, false_or,
      List.not_mem_nil, or_false] at h
    rw [Cmd.words, List.mem_append]
    exact h.imp ihleft ihright
  | list left right ihleft ihright =>
    simp only [Cmd.tokens, parens, List.mem_cons, List.mem_append, reduceCtorEq, false_or,
      List.not_mem_nil, or_false] at h
    rw [Cmd.words, List.mem_append]
    exact h.imp ihleft ihright
  | back cmd ih =>
    simp only [Cmd.tokens, parens, List.mem_cons, List.mem_append, reduceCtorEq, false_or,
      List.not_mem_nil, or_false] at h
    exact ih h

theorem eof_notMem_tokens (cmd : Cmd W) : Tok.eof ∉ cmd.tokens := by
  induction cmd with
  | exec argv => simp [Cmd.tokens]
  | redir cmd file mode fd ih =>
    have hop : ∀ op : RedirOp, Tok.eof ≠ op.tok (W := W) := by
      intro op
      cases op <;> simp [RedirOp.tok]
    simp [Cmd.tokens, ih, hop]
  | pipe left right ihleft ihright => simp [Cmd.tokens, parens, ihleft, ihright]
  | list left right ihleft ihright => simp [Cmd.tokens, parens, ihleft, ihright]
  | back cmd ih => simp [Cmd.tokens, parens, ih]

end

def Tok.chars : Tok Text → Text
  | .eof => []
  | .pipe => [chr '|']
  | .lparen => [chr '(']
  | .rparen => [chr ')']
  | .semi => [chr ';']
  | .amp => [chr '&']
  | .less => [chr '<']
  | .greater => [chr '>']
  | .append => [chr '>', chr '>']
  | .word w => w

def render (tokens : List (Tok Text)) : Text := tokens.flatMap fun tok ↦ tok.chars ++ [chr ' ']

def print (cmd : Cmd Text) : Text := render cmd.tokens

/-! ## Reading it back -/

theorem skip_cons {c : UInt8} {rest : Text} (h : whitespace.contains c = false) :
    skip (c :: rest) = c :: rest :=
  List.dropWhile_cons_of_neg (by simpa using h)

theorem skip_blank (rest : Text) : skip (chr ' ' :: rest) = skip rest :=
  List.dropWhile_cons_of_pos (by decide)

theorem symbol_of_isWord {c : UInt8} (h : isWord c = true) :
    whitespace.contains c = false ∧ symbol c = none ∧ c ≠ chr '>' := by
  simp only [isWord, Bool.and_eq_true, Bool.not_eq_true'] at h
  have hmem : c ∉ symbols := by simpa using h.2
  simp only [symbols, List.map_cons, List.map_nil, List.mem_cons, List.not_mem_nil, or_false,
    not_or] at hmem
  obtain ⟨h1, h2, h3, h4, h5, h6, h7⟩ := hmem
  exact ⟨h.1, by simp [symbol, h1, h2, h4, h5, h6, h7], h3⟩

theorem gettoken_word (before : Text) {w : Text} (rest : Text) (hw : IsWordText w) {s : Text}
    (hs : s = before ++ (w ++ chr ' ' :: rest)) :
    gettoken s.length (w ++ chr ' ' :: rest) =
      (.word ⟨before.length, before.length + w.length⟩, skip (chr ' ' :: rest)) := by
  obtain ⟨hne, hchars⟩ := hw
  have hdrop : (w ++ chr ' ' :: rest).dropWhile isWord = chr ' ' :: rest := by
    rw [List.dropWhile_append_of_pos hchars]
    rfl
  have hstart : s.length - (w ++ chr ' ' :: rest).length = before.length := by
    simp [hs]
  have hstop : s.length - (chr ' ' :: rest).length = before.length + w.length := by
    simp only [hs, List.length_append]
    omega
  obtain ⟨c, w, rfl⟩ := List.exists_cons_of_ne_nil hne
  obtain ⟨hspace, hsym, hgt⟩ := symbol_of_isWord (hchars c (by simp))
  rw [List.cons_append] at hdrop hstart ⊢
  rw [gettoken, skip_cons hspace]
  simp only [token, hsym, if_neg hgt, hdrop, hstart, hstop]

theorem gettoken_chars (before : Text) {tok : Tok Text} (rest : Text) (heof : tok ≠ .eof)
    (hword : ∀ w, tok = .word w → IsWordText w) {s : Text}
    (hs : s = before ++ (tok.chars ++ chr ' ' :: rest)) :
    (gettoken s.length (tok.chars ++ chr ' ' :: rest)).1.map (text s) = tok ∧
      (gettoken s.length (tok.chars ++ chr ' ' :: rest)).2 = skip rest := by
  rw [← skip_blank rest]
  cases tok with
  | eof => exact absurd rfl heof
  | word w =>
    have hget := gettoken_word before rest (hword w rfl) hs
    rw [Tok.chars] at hs ⊢
    rw [hget]
    refine ⟨?_, rfl⟩
    simp [Tok.map, text, hs]
  | _ =>
    simp only [Tok.chars, List.cons_append, List.nil_append, gettoken]
    rw [skip_cons (by decide)]
    exact ⟨rfl, rfl⟩

theorem lex_render {tokens : List (Tok Text)} (heof : Tok.eof ∉ tokens)
    (hwords : ∀ w, Tok.word w ∈ tokens → IsWordText w) (before : Text) {s : Text}
    (hs : s = before ++ render tokens) :
    (lex s.length (render tokens)).map (Tok.map (text s)) = tokens := by
  induction tokens generalizing before with
  | nil =>
    have hnil : render [] = [] := rfl
    rw [hnil, lex_of_skip_nil rfl]
    rfl
  | cons tok tokens ih =>
    have hrender : render (tok :: tokens) = tok.chars ++ chr ' ' :: render tokens := by
      simp [render]
    rw [List.mem_cons, not_or] at heof
    rw [hrender] at hs ⊢
    obtain ⟨htok, hrest⟩ := gettoken_chars before (render tokens) (Ne.symm heof.1)
      (fun w hw ↦ hwords w (by simp [hw])) hs
    have hne : (gettoken s.length (tok.chars ++ chr ' ' :: render tokens)).1 ≠ .eof := by
      intro h
      rw [h] at htok
      exact heof.1 htok
    have hs' : s = (before ++ tok.chars ++ [chr ' ']) ++ render tokens := by simp [hs]
    rw [lex_gettoken hne, List.map_cons, htok, hrest, lex_skip,
      ih heof.2 (fun w hw ↦ hwords w (by simp [hw])) _ hs']

theorem zero_notMem_print {cmd : Cmd Text} (h : ∀ w ∈ cmd.words, 0 ∉ w) : 0 ∉ print cmd := by
  simp only [print, render, List.mem_flatMap, List.mem_append, List.mem_singleton, not_exists,
    not_and, not_or]
  intro tok htok
  refine ⟨?_, by decide⟩
  cases tok with
  | word w => exact h w (word_mem_tokens htok)
  | _ => decide

/-! ## The parser -/

theorem parsecmd_inv {s : Text} {cmd : Cmd Span} {buf : List UInt8}
    (h : parsecmd s = .ok (cmd, buf)) :
    Derives .line (lex s.length s) cmd ∧ buf = terminate cmd.words (s ++ [0]) := by
  have hsound := parsecmd_sound s
  rw [h] at hsound
  exact ⟨hsound.1, hsound.2.trans (nulterminate_eq_terminate cmd _)⟩

/-- No word of a tree is damaged by the terminator of another. -/
theorem parsecmd_words {s : Text} (h0 : 0 ∉ s) {cmd : Cmd Span} {buf : List UInt8}
    (h : parsecmd s = .ok (cmd, buf)) {w : Span} (hw : w ∈ cmd.words) :
    Tok.word w ∈ lex s.length s ∧ IsWordText (text s w) ∧
      cstring buf w.start = text s w ∧ buf[w.stop]? = some 0 := by
  obtain ⟨hderives, rfl⟩ := parsecmd_inv h
  have hwords : ∀ w ∈ cmd.words, ∃ word, WordAt s w word := by
    intro w hw
    exact wordAt_of_mem_lex List.suffix_rfl (hderives.word_mem hw)
  obtain ⟨hzero, hstring⟩ := cstring_terminate h0 hwords hw
  obtain ⟨word, hat⟩ := hwords w hw
  refine ⟨hderives.word_mem hw, ?_, hstring, hzero⟩
  rw [hat.text_eq]
  obtain ⟨-, -, -, -, htext, -⟩ := hat
  exact htext

theorem parsecmd_panic {s : Text} (h : ¬ ∃ cmd, Derives .line (lex s.length s) cmd) :
    ∃ msg, parsecmd s = .error (.panic msg) := by
  have hsound := parsecmd_sound s
  cases hparse : parsecmd s with
  | ok r => exact absurd ⟨r.1, (parsecmd_inv hparse).1⟩ h
  | error e =>
    cases e with
    | panic msg => exact ⟨msg, rfl⟩
    | outOfFuel =>
      rw [hparse] at hsound
      exact absurd rfl hsound

theorem parsecmd_print {cmd : Cmd Text} (hcmd : Proper cmd)
    (hwords : ∀ w ∈ cmd.words, IsWordText w ∧ 0 ∉ w) :
    ∃ cmd' buf, parsecmd (print cmd) = .ok (cmd', buf) ∧
      cmd'.map (fun w ↦ cstring buf w.start) = cmd := by
  have h0 : 0 ∉ print cmd := zero_notMem_print fun w hw ↦ (hwords w hw).2
  have hlex : (lex (print cmd).length (print cmd)).map (Tok.map (text (print cmd))) = cmd.tokens :=
    lex_render (eof_notMem_tokens cmd) (fun w hw ↦ (hwords w (word_mem_tokens hw)).1) [] rfl
  have hderives := derives_tokens hcmd
  rw [← hlex] at hderives
  obtain ⟨cmd', hcmd', hmap⟩ := hderives.of_map
  have hparse := parsecmd_complete hcmd'
  refine ⟨cmd', _, hparse, ?_⟩
  calc
    cmd'.map (fun w ↦ cstring _ w.start) = cmd'.map (text (print cmd)) :=
      Cmd.map_congr fun w hw ↦ (parsecmd_words h0 hparse hw).2.2.1
    _ = cmd := hmap

/-- For every command line the parser returns exactly the tree the grammar gives its tokens, and
panics when there is none; after it every word of the tree is the terminated text of a word of the
line; and a printed tree is read back. -/
theorem parser_is_grammar (s : Text) (h0 : 0 ∉ s) :
    (∀ cmd, (∃ buf, parsecmd s = .ok (cmd, buf)) ↔ Derives .line (lex s.length s) cmd) ∧
    ((¬ ∃ cmd, Derives .line (lex s.length s) cmd) → ∃ msg, parsecmd s = .error (.panic msg)) ∧
    (∀ cmd buf, parsecmd s = .ok (cmd, buf) → ∀ w ∈ cmd.words,
      Tok.word w ∈ lex s.length s ∧ IsWordText (text s w) ∧
        cstring buf w.start = text s w ∧ buf[w.stop]? = some 0) ∧
    (∀ cmd : Cmd Text, (∃ ts, Derives .line ts cmd) →
      (∀ w ∈ cmd.words, IsWordText w ∧ 0 ∉ w) →
      ∃ cmd' buf, parsecmd (print cmd) = .ok (cmd', buf) ∧
        cmd'.map (fun w ↦ cstring buf w.start) = cmd) := by
  refine ⟨?_, parsecmd_panic, ?_, ?_⟩
  · intro cmd
    constructor
    · rintro ⟨buf, hparse⟩
      exact (parsecmd_inv hparse).1
    · intro hderives
      exact ⟨_, parsecmd_complete hderives⟩
  · intro cmd buf hparse w hw
    exact parsecmd_words h0 hparse hw
  · rintro cmd ⟨ts, hderives⟩ hwords
    exact parsecmd_print hderives.proper hwords

/-- The words of `ls>f|wc&`, where no blank separates the tokens. -/
theorem parser_is_grammar_no_blanks :
    ∃ buf, parsecmd ("ls>f|wc&".toList.map chr) =
        .ok (.back (.pipe (.redir (.exec [⟨0, 2⟩]) ⟨3, 4⟩ 0x601 1) (.exec [⟨5, 7⟩])), buf) ∧
      cstring buf 0 = "ls".toList.map chr ∧ cstring buf 3 = "f".toList.map chr ∧
      cstring buf 5 = "wc".toList.map chr := by
  have h := parser_is_grammar ("ls>f|wc&".toList.map chr) (by decide)
  have hparse : parsecmd ("ls>f|wc&".toList.map chr) =
      .ok (.back (.pipe (.redir (.exec [⟨0, 2⟩]) ⟨3, 4⟩ 0x601 1) (.exec [⟨5, 7⟩])),
        [108, 115, 0, 102, 0, 119, 99, 0, 0]) := by decide +kernel
  have hwords := h.2.2.1 _ _ hparse
  refine ⟨_, hparse, ?_, ?_, ?_⟩
  · exact (hwords ⟨0, 2⟩ (by decide)).2.2.1
  · exact (hwords ⟨3, 4⟩ (by decide)).2.2.1
  · exact (hwords ⟨5, 7⟩ (by decide)).2.2.1

end EnhancedXv6.Shell
