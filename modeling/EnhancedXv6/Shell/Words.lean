import EnhancedXv6.Shell.Parser

/-!
# The words of a line

The terminator of a word goes to the first byte behind it, which is in no word.  So the strings of
the tree are the words of the line, and a printed tree is parsed into the same tree.
-/

namespace EnhancedXv6.Shell

/-! ## Words and their places -/

def text (s : Text) (w : Span) : Text := (s.drop w.start).take (w.stop - w.start)

/-- Words are runs of word characters. -/
def IsWordText (w : Text) : Prop := w ≠ [] ∧ ∀ c ∈ w, isWord c = true

/-- The bytes at `w` are a word that goes as far as it can. -/
def WordAt (s : Text) (w : Span) (word : Text) : Prop :=
  ∃ before after, s = before ++ (word ++ after) ∧
    w = ⟨before.length, before.length + word.length⟩ ∧ IsWordText word ∧
      ∀ c ∈ after.head?, isWord c = false

theorem WordAt.text_eq {s word : Text} {w : Span} (h : WordAt s w word) : text s w = word := by
  obtain ⟨before, after, rfl, rfl, -, -⟩ := h
  simp [text]

theorem wordAt_of_token {s sk : Text} (hsk : sk <:+ s)
    (hspace : ∀ c ∈ sk.head?, whitespace.contains c = false) {w : Span}
    (h : (token s.length sk).1 = .word w) : ∃ word, WordAt s w word := by
  cases sk with
  | nil => simp [token] at h
  | cons c rest =>
    simp only [token] at h
    split at h
    next tok hsym =>
      have hfirst := (symbol_spec hsym).2
      rw [show tok = .word w from h] at hfirst
      cases hfirst
    next hsym =>
      split_ifs at h with hgt hgt'
      rw [Tok.word.injEq] at h
      have hword := isWord_of_symbol (hspace c rfl) hsym hgt
      obtain ⟨before, rfl⟩ := hsk
      have hsplit := List.takeWhile_append_dropWhile (p := isWord) (l := c :: rest)
      refine ⟨(c :: rest).takeWhile isWord, before, (c :: rest).dropWhile isWord, ?_, ?_, ?_, ?_⟩
      · rw [hsplit]
      · rw [← h]
        have hlength := congrArg List.length hsplit
        simp only [List.length_append] at hlength ⊢
        congr 1
        · omega
        · omega
      · refine ⟨by simp [hword], ?_⟩
        intro c' hc'
        exact List.mem_takeWhile_imp hc'
      · intro c' hc'
        have hnot := List.head?_dropWhile_not isWord (c :: rest)
        rw [Option.mem_def.mp hc'] at hnot
        exact hnot

theorem gettoken_suffix (es : ℕ) (ps : Text) : (gettoken es ps).2 <:+ ps := by
  have htoken : ∀ s : Text, (token es s).2 <:+ s := by
    intro s
    cases s with
    | nil => exact List.suffix_rfl
    | cons c rest =>
      simp only [token]
      split
      · exact List.suffix_cons c rest
      · split_ifs
        · exact (List.tail_suffix rest).trans (List.suffix_cons c rest)
        · exact List.suffix_cons c rest
        · exact List.dropWhile_suffix _
  have hskipped : (gettoken es ps).2 <:+ (token es (skip ps)).2 := List.dropWhile_suffix _
  exact (hskipped.trans (htoken _)).trans (List.dropWhile_suffix _)

theorem wordAt_of_mem_lex {s ps : Text} (hps : ps <:+ s) {w : Span}
    (h : Tok.word w ∈ lex s.length ps) : ∃ word, WordAt s w word := by
  induction ps using lex.induct s.length with
  | case1 ps heof => simp [lex, heof] at h
  | case2 ps hne ih =>
    rw [lex_gettoken hne, List.mem_cons] at h
    rcases h with hw | hrest
    · apply wordAt_of_token ((List.dropWhile_suffix _).trans hps) _ hw.symm
      intro c hc
      cases hskip : skip ps with
      | nil =>
        rw [show ps.dropWhile whitespace.contains = [] from hskip] at hc
        cases hc
      | cons c' rest =>
        rw [show ps.dropWhile whitespace.contains = c' :: rest from hskip] at hc
        cases hc
        exact dropWhile_head hskip
    · exact ih ((gettoken_suffix _ _).trans hps) hrest

/-! ## The words of a tree -/

section

variable {W : Type}

theorem words_wrap (cmd : Cmd W) (rs : List (Redir W)) :
    (wrap cmd rs).words = cmd.words ++ rs.map Redir.file := by
  induction rs generalizing cmd with
  | nil => simp
  | cons r rs ih => simp [ih, Redir.around, Cmd.words]

theorem words_backs (n : ℕ) (cmd : Cmd W) : (backs n cmd).words = cmd.words := by
  induction n generalizing cmd with
  | zero => rfl
  | succ n ih => exact ih (.back cmd)

theorem Redirs.word_mem {ts : List (Tok W)} {rs : List (Redir W)} (h : Redirs ts rs) {w : W}
    (hw : w ∈ rs.map Redir.file) : Tok.word w ∈ ts := by
  induction h with
  | nil => simp at hw
  | cons op file _ ih =>
    rw [List.map_cons, List.mem_cons] at hw
    rcases hw with rfl | hw
    · simp
    · simp [ih hw]

theorem Args.word_mem {ts : List (Tok W)} {ws : List W} {rs : List (Redir W)} (h : Args ts ws rs)
    {w : W} (hw : w ∈ ws ++ rs.map Redir.file) : Tok.word w ∈ ts := by
  induction h with
  | nil => simp at hw
  | cons v hredirs _ ih =>
    simp only [List.cons_append, List.map_append, List.mem_cons, List.mem_append] at hw ih ⊢
    obtain rfl | hw | hw | hw := hw
    · exact .inl rfl
    · exact .inr (.inr (ih (.inl hw)))
    · exact .inr (.inl (hredirs.word_mem hw))
    · exact .inr (.inr (ih (.inr hw)))

theorem Derives.word_mem {nt : Nonterminal} {ts : List (Tok W)} {cmd : Cmd W}
    (h : Derives nt ts cmd) {w : W} (hw : w ∈ cmd.words) : Tok.word w ∈ ts := by
  induction h with
  | block _ hredirs ih =>
    rw [words_wrap, List.mem_append] at hw
    rcases hw with hw | hw
    · simp [ih hw]
    · simp [hredirs.word_mem hw]
  | simple hredirs hargs _ =>
    rw [words_wrap, List.map_append] at hw
    simp only [Cmd.words, List.mem_append] at hw
    rw [List.mem_append]
    rcases hw with hw | hw | hw
    · exact .inr (hargs.word_mem (List.mem_append_left _ hw))
    · exact .inl (hredirs.word_mem hw)
    · exact .inr (hargs.word_mem (List.mem_append_right _ hw))
  | one _ ih => exact ih hw
  | piped _ _ ihleft ihright =>
    rw [Cmd.words, List.mem_append] at hw
    rcases hw with hw | hw
    · simp [ihleft hw]
    · simp [ihright hw]
  | last n _ ih =>
    rw [words_backs] at hw
    simp [ih hw]
  | seq n _ _ ihleft ihright =>
    rw [Cmd.words, words_backs, List.mem_append] at hw
    rcases hw with hw | hw
    · simp [ihleft hw]
    · simp [ihright hw]

end

/-! ## NUL termination -/

def terminate (words : List Span) (buf : List UInt8) : List UInt8 :=
  words.foldl (fun buf word ↦ buf.set word.stop 0) buf

theorem nulterminate_eq_terminate (cmd : Cmd Span) (buf : List UInt8) :
    nulterminate cmd buf = terminate cmd.words buf := by
  induction cmd generalizing buf with
  | exec argv => rfl
  | redir cmd file mode fd ih =>
    rw [nulterminate, ih, Cmd.words, terminate, terminate, List.foldl_append]
    rfl
  | pipe left right ihleft ihright =>
    rw [nulterminate, ihright, ihleft, Cmd.words, terminate, terminate, terminate,
      List.foldl_append]
  | list left right ihleft ihright =>
    rw [nulterminate, ihright, ihleft, Cmd.words, terminate, terminate, terminate,
      List.foldl_append]
  | back cmd ih => exact ih buf

/-- Zeros are written behind the words, and nothing else changes. -/
theorem getElem?_terminate (words : List Span) (buf : List UInt8) {i : ℕ} (hi : i < buf.length) :
    (terminate words buf)[i]? = if ∃ w ∈ words, w.stop = i then some 0 else buf[i]? := by
  induction words generalizing buf with
  | nil => simp [terminate]
  | cons w words ih =>
    have hset : (terminate (w :: words) buf)[i]? = (terminate words (buf.set w.stop 0))[i]? := rfl
    rw [hset, ih (buf.set w.stop 0) (by simpa using hi), List.getElem?_set]
    by_cases hstop : w.stop = i
    · simp [hstop, hi]
    · simp [hstop]

/-- The string at `start` is what stands there before the first zero. -/
theorem cstring_eq {buf word : List UInt8} {start : ℕ} (h0 : 0 ∉ word)
    (hword : ∀ i < word.length, buf[start + i]? = word[i]?)
    (hend : buf[start + word.length]? = some 0) : cstring buf start = word := by
  have hdrop : buf.drop start = word ++ 0 :: buf.drop (start + word.length + 1) := by
    apply List.ext_getElem?
    intro i
    rw [List.getElem?_drop]
    rcases lt_trichotomy i word.length with hi | rfl | hi
    · rw [hword i hi, List.getElem?_append_left hi]
    · rw [hend, List.getElem?_append_right le_rfl, Nat.sub_self]
      rfl
    · rw [List.getElem?_append_right hi.le]
      obtain ⟨j, rfl⟩ := Nat.exists_eq_add_of_lt hi
      rw [show word.length + j + 1 - word.length = j + 1 by omega, List.getElem?_cons_succ,
        List.getElem?_drop]
      congr 1
      omega
  rw [cstring, hdrop, List.takeWhile_append_of_pos]
  · simp
  · intro c hc
    simpa using ne_of_mem_of_not_mem hc h0

/-- Where a word stands no other word ends. -/
theorem WordAt.stop_notMem {s word word' : Text} {w w' : Span} (h : WordAt s w word)
    (h' : WordAt s w' word') {i : ℕ} (hi : i < word.length) : w'.stop ≠ w.start + i := by
  obtain ⟨before, after, hline, rfl, ⟨-, hchars⟩, -⟩ := h
  obtain ⟨before', after', hline', rfl, -, hends⟩ := h'
  intro hstop
  simp only at hstop
  have hchar : s[before.length + i]? = some word[i] := by
    rw [hline, List.getElem?_append_right (by omega), Nat.add_sub_cancel_left,
      List.getElem?_append_left hi, List.getElem?_eq_getElem hi]
  have hbehind : s[before.length + i]? = after'.head? := by
    rw [← hstop, hline', List.getElem?_append_right (by omega), Nat.add_sub_cancel_left,
      List.getElem?_append_right le_rfl, Nat.sub_self, List.head?_eq_getElem?]
  have hnot := hends word[i] (by rw [← hbehind, hchar]; rfl)
  rw [hchars _ (List.getElem_mem hi)] at hnot
  cases hnot

/-- After the termination of words of the line each of them is a string. -/
theorem cstring_terminate {s : Text} (h0 : 0 ∉ s) {words : List Span}
    (hwords : ∀ w ∈ words, ∃ word, WordAt s w word) {w : Span} (hw : w ∈ words) :
    (terminate words (s ++ [0]))[w.stop]? = some 0 ∧
      cstring (terminate words (s ++ [0])) w.start = text s w := by
  obtain ⟨word, hat⟩ := hwords w hw
  have hstop : w.stop = w.start + word.length ∧ w.start + word.length ≤ s.length ∧
      ∀ i < word.length, s[w.start + i]? = word[i]? := by
    obtain ⟨before, after, rfl, rfl, -, -⟩ := hat
    refine ⟨rfl, by simp, ?_⟩
    intro i hi
    rw [List.getElem?_append_right (by simp), Nat.add_sub_cancel_left, List.getElem?_append_left hi]
  obtain ⟨hlength, hle, hbytes⟩ := hstop
  have hzero : (terminate words (s ++ [0]))[w.stop]? = some 0 := by
    rw [getElem?_terminate words _ (by simp; omega), if_pos ⟨w, hw, rfl⟩]
  refine ⟨hzero, ?_⟩
  rw [hat.text_eq]
  apply cstring_eq
  · intro hmem
    obtain ⟨before, after, rfl, -, -, -⟩ := hat
    simp [hmem] at h0
  · intro i hi
    rw [getElem?_terminate words _ (by simp; omega), if_neg, ← hbytes i hi,
      List.getElem?_append_left (by omega)]
    rintro ⟨w', hw', hstop⟩
    obtain ⟨word', hat'⟩ := hwords w' hw'
    exact hat.stop_notMem hat' hi hstop
  · rw [← hlength, hzero]

end EnhancedXv6.Shell
