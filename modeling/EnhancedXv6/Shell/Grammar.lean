import EnhancedXv6.Shell.Model
import Mathlib.Logic.Function.Iterate
import Mathlib.Tactic.Common

/-!
# The grammar of the shell

    line ::= pipe {'&'} [';' line]
    pipe ::= exec ['|' pipe]
    exec ::= '(' line ')' redirs | redirs {word redirs}
    redirs ::= {('<' | '>' | '>>') word}

with at most nine words in a simple command.  A derivation gives the tree of its tokens: pipes and
lists nest to the right, redirections in the order of the text, from the inside out.
-/

namespace EnhancedXv6.Shell

/-! ## Redirections -/

inductive RedirOp
  | input
  | output
  | append
  deriving DecidableEq

namespace RedirOp

def tok {W : Type} : RedirOp → Tok W
  | input => .less
  | output => .greater
  | append => .append

def mode : RedirOp → ℕ
  | input => O_RDONLY
  | output => O_WRONLY ||| O_CREATE ||| O_TRUNC
  | append => O_WRONLY ||| O_CREATE

def fd : RedirOp → ℕ
  | input => 0
  | output => 1
  | append => 1

end RedirOp

structure Redir (W : Type) where
  op : RedirOp
  file : W

section

variable {W V : Type}

def Redir.around (cmd : Cmd W) (r : Redir W) : Cmd W := .redir cmd r.file r.op.mode r.op.fd

/-- A command with redirections around it, the first one innermost. -/
def wrap (cmd : Cmd W) (redirs : List (Redir W)) : Cmd W := redirs.foldl Redir.around cmd

@[simp] theorem wrap_nil (cmd : Cmd W) : wrap cmd [] = cmd := rfl

@[simp] theorem wrap_cons (cmd : Cmd W) (r : Redir W) (rs : List (Redir W)) :
    wrap cmd (r :: rs) = wrap (r.around cmd) rs := rfl

theorem wrap_append (cmd : Cmd W) (rs rs' : List (Redir W)) :
    wrap cmd (rs ++ rs') = wrap (wrap cmd rs) rs' :=
  List.foldl_append

theorem redirCmd_tok (cmd : Cmd W) (file : W) (op : RedirOp) :
    redirCmd cmd file op.tok = Redir.around cmd ⟨op, file⟩ := by
  cases op with
  | input => rfl
  | output => rfl
  | append => rfl

/-- Arguments reach the simple command through the redirections around it. -/
theorem addArg_wrap (q : W) (cmd : Cmd W) (rs : List (Redir W)) :
    addArg q (wrap cmd rs) = wrap (addArg q cmd) rs := by
  induction rs generalizing cmd with
  | nil => rfl
  | cons r rs ih => exact ih (r.around cmd)

/-! ## Derivations -/

inductive Redirs : List (Tok W) → List (Redir W) → Prop
  | nil : Redirs [] []
  | cons (op : RedirOp) (file : W) {ts rs} : Redirs ts rs →
      Redirs (op.tok :: .word file :: ts) (⟨op, file⟩ :: rs)

inductive Args : List (Tok W) → List W → List (Redir W) → Prop
  | nil : Args [] [] []
  | cons (w : W) {ts ts' ws rs rs'} : Redirs ts rs → Args ts' ws rs' →
      Args (.word w :: (ts ++ ts')) (w :: ws) (rs ++ rs')

inductive Nonterminal
  | line
  | pipe
  | exec

def backs (n : ℕ) (cmd : Cmd W) : Cmd W := Cmd.back^[n] cmd

inductive Derives : Nonterminal → List (Tok W) → Cmd W → Prop
  | block {ts ts' cmd rs} : Derives .line ts cmd → Redirs ts' rs →
      Derives .exec (.lparen :: (ts ++ .rparen :: ts')) (wrap cmd rs)
  | simple {ts ts' ws rs rs'} : Redirs ts rs → Args ts' ws rs' → ws.length < MAXARGS →
      Derives .exec (ts ++ ts') (wrap (.exec ws) (rs ++ rs'))
  | one {ts cmd} : Derives .exec ts cmd → Derives .pipe ts cmd
  | piped {ts ts' left right} : Derives .exec ts left → Derives .pipe ts' right →
      Derives .pipe (ts ++ .pipe :: ts') (.pipe left right)
  | last (n : ℕ) {ts cmd} : Derives .pipe ts cmd →
      Derives .line (ts ++ List.replicate n .amp) (backs n cmd)
  | seq (n : ℕ) {ts ts' left right} : Derives .pipe ts left → Derives .line ts' right →
      Derives .line (ts ++ List.replicate n .amp ++ .semi :: ts') (.list (backs n left) right)

/-! ## Other words -/

def Tok.map (f : W → V) : Tok W → Tok V
  | .eof => .eof
  | .pipe => .pipe
  | .lparen => .lparen
  | .rparen => .rparen
  | .semi => .semi
  | .amp => .amp
  | .less => .less
  | .greater => .greater
  | .append => .append
  | .word w => .word (f w)

def Cmd.map (f : W → V) : Cmd W → Cmd V
  | .exec argv => .exec (argv.map f)
  | .redir cmd file mode fd => .redir (cmd.map f) (f file) mode fd
  | .pipe left right => .pipe (left.map f) (right.map f)
  | .list left right => .list (left.map f) (right.map f)
  | .back cmd => .back (cmd.map f)

def Cmd.words : Cmd W → List W
  | .exec argv => argv
  | .redir cmd file _ _ => cmd.words ++ [file]
  | .pipe left right => left.words ++ right.words
  | .list left right => left.words ++ right.words
  | .back cmd => cmd.words

theorem Cmd.map_congr {f g : W → V} {cmd : Cmd W} (h : ∀ w ∈ cmd.words, f w = g w) :
    cmd.map f = cmd.map g := by
  induction cmd with
  | exec argv => exact congrArg Cmd.exec (List.map_congr_left h)
  | redir cmd file mode fd ih =>
    simp only [words, List.mem_append, List.mem_singleton] at h
    simp only [map, ih fun w hw ↦ h w (.inl hw), h file (.inr rfl)]
  | pipe left right ihleft ihright =>
    simp only [words, List.mem_append] at h
    simp only [map, ihleft fun w hw ↦ h w (.inl hw), ihright fun w hw ↦ h w (.inr hw)]
  | list left right ihleft ihright =>
    simp only [words, List.mem_append] at h
    simp only [map, ihleft fun w hw ↦ h w (.inl hw), ihright fun w hw ↦ h w (.inr hw)]
  | back cmd ih => simp only [map, ih h]

def Redir.map (f : W → V) (r : Redir W) : Redir V := ⟨r.op, f r.file⟩

theorem map_wrap (f : W → V) (cmd : Cmd W) (rs : List (Redir W)) :
    (wrap cmd rs).map f = wrap (cmd.map f) (rs.map (Redir.map f)) := by
  induction rs generalizing cmd with
  | nil => rfl
  | cons r rs ih => exact ih (r.around cmd)

theorem map_backs (f : W → V) (n : ℕ) (cmd : Cmd W) : (backs n cmd).map f = backs n (cmd.map f) := by
  induction n generalizing cmd with
  | zero => rfl
  | succ n ih => exact ih (.back cmd)

section

variable {f : W → V} {tok : Tok W}

@[simp] theorem Tok.map_eq_pipe : tok.map f = .pipe ↔ tok = .pipe := by cases tok <;> simp [map]

@[simp] theorem Tok.map_eq_lparen : tok.map f = .lparen ↔ tok = .lparen := by
  cases tok <;> simp [map]

@[simp] theorem Tok.map_eq_rparen : tok.map f = .rparen ↔ tok = .rparen := by
  cases tok <;> simp [map]

@[simp] theorem Tok.map_eq_semi : tok.map f = .semi ↔ tok = .semi := by cases tok <;> simp [map]

@[simp] theorem Tok.map_eq_amp : tok.map f = .amp ↔ tok = .amp := by cases tok <;> simp [map]

theorem Tok.map_eq_op {op : RedirOp} : tok.map f = op.tok ↔ tok = op.tok := by
  cases op <;> cases tok <;> simp [map, RedirOp.tok]

theorem Tok.map_eq_word {v : V} : tok.map f = .word v ↔ ∃ w, tok = .word w ∧ f w = v := by
  cases tok <;> simp [map]

end

/-! A derivation of tokens with their words replaced is one of the tokens themselves. -/

theorem Redirs.of_map {f : W → V} {ts : List (Tok W)} {rs' : List (Redir V)}
    (h : Redirs (ts.map (Tok.map f)) rs') : ∃ rs, Redirs ts rs ∧ rs.map (Redir.map f) = rs' := by
  generalize hts : ts.map (Tok.map f) = ts' at h
  induction h generalizing ts with
  | nil =>
    rw [List.map_eq_nil_iff.mp hts]
    exact ⟨[], .nil, rfl⟩
  | cons op file h ih =>
    obtain ⟨first, ts, rfl, hfirst, hts⟩ := List.map_eq_cons_iff.mp hts
    obtain ⟨second, ts, rfl, hsecond, hts⟩ := List.map_eq_cons_iff.mp hts
    obtain ⟨rs, hrs, rfl⟩ := ih hts
    obtain ⟨w, rfl, rfl⟩ := Tok.map_eq_word.mp hsecond
    rw [Tok.map_eq_op.mp hfirst]
    exact ⟨⟨op, w⟩ :: rs, .cons op w hrs, rfl⟩

theorem Args.of_map {f : W → V} {ts : List (Tok W)} {ws' : List V} {rs' : List (Redir V)}
    (h : Args (ts.map (Tok.map f)) ws' rs') :
    ∃ ws rs, Args ts ws rs ∧ ws.map f = ws' ∧ rs.map (Redir.map f) = rs' := by
  generalize hts : ts.map (Tok.map f) = ts' at h
  induction h generalizing ts with
  | nil =>
    rw [List.map_eq_nil_iff.mp hts]
    exact ⟨[], [], .nil, rfl, rfl⟩
  | cons v hredirs _ ih =>
    obtain ⟨first, ts, rfl, hfirst, hts⟩ := List.map_eq_cons_iff.mp hts
    obtain ⟨ts₁, ts₂, rfl, rfl, hrest⟩ := List.map_eq_append_iff.mp hts
    obtain ⟨rs, hrs, rfl⟩ := hredirs.of_map
    obtain ⟨ws, rs', hargs, rfl, rfl⟩ := ih hrest
    obtain ⟨w, rfl, rfl⟩ := Tok.map_eq_word.mp hfirst
    exact ⟨w :: ws, rs ++ rs', .cons w hrs hargs, rfl, by simp⟩

theorem eq_replicate_of_map_amp {f : W → V} {ts : List (Tok W)} {n : ℕ}
    (h : ts.map (Tok.map f) = List.replicate n .amp) : ts = List.replicate n .amp := by
  rw [List.eq_replicate_iff] at h ⊢
  simpa using h

/-- The grammar does not look at the words. -/
theorem Derives.of_map {f : W → V} {nt : Nonterminal} {ts : List (Tok W)} {cmd' : Cmd V}
    (h : Derives nt (ts.map (Tok.map f)) cmd') : ∃ cmd, Derives nt ts cmd ∧ cmd.map f = cmd' := by
  generalize hts : ts.map (Tok.map f) = ts' at h
  induction h generalizing ts with
  | block _ hredirs ih =>
    obtain ⟨first, ts, rfl, hfirst, hts⟩ := List.map_eq_cons_iff.mp hts
    obtain ⟨ts₁, ts₂, rfl, hline, hts⟩ := List.map_eq_append_iff.mp hts
    obtain ⟨close, ts₂, rfl, hclose, rfl⟩ := List.map_eq_cons_iff.mp hts
    obtain ⟨cmd, hcmd, rfl⟩ := ih hline
    obtain ⟨rs, hrs, rfl⟩ := hredirs.of_map
    rw [Tok.map_eq_lparen.mp hfirst, Tok.map_eq_rparen.mp hclose]
    exact ⟨wrap cmd rs, .block hcmd hrs, map_wrap f cmd rs⟩
  | simple hredirs hargs hlength =>
    obtain ⟨ts₁, ts₂, rfl, rfl, rfl⟩ := List.map_eq_append_iff.mp hts
    obtain ⟨rs, hrs, rfl⟩ := hredirs.of_map
    obtain ⟨ws, rs', hws, rfl, rfl⟩ := hargs.of_map
    rw [List.length_map] at hlength
    refine ⟨_, .simple hrs hws hlength, ?_⟩
    rw [map_wrap, List.map_append]
    rfl
  | one _ ih =>
    obtain ⟨cmd, hcmd, rfl⟩ := ih hts
    exact ⟨cmd, .one hcmd, rfl⟩
  | piped _ _ ihleft ihright =>
    obtain ⟨ts₁, ts₂, rfl, hleft, hts⟩ := List.map_eq_append_iff.mp hts
    obtain ⟨bar, ts₂, rfl, hbar, hright⟩ := List.map_eq_cons_iff.mp hts
    obtain ⟨left, hl, rfl⟩ := ihleft hleft
    obtain ⟨right, hr, rfl⟩ := ihright hright
    rw [Tok.map_eq_pipe.mp hbar]
    exact ⟨.pipe left right, .piped hl hr, rfl⟩
  | last n _ ih =>
    obtain ⟨ts₁, amps, rfl, hpipe, hamps⟩ := List.map_eq_append_iff.mp hts
    obtain ⟨cmd, hcmd, rfl⟩ := ih hpipe
    rw [eq_replicate_of_map_amp hamps]
    exact ⟨backs n cmd, .last n hcmd, map_backs f n cmd⟩
  | seq n _ _ ihleft ihright =>
    obtain ⟨front, back, rfl, hfront, hback⟩ := List.map_eq_append_iff.mp hts
    obtain ⟨ts₁, amps, rfl, hleft, hamps⟩ := List.map_eq_append_iff.mp hfront
    obtain ⟨sep, ts₂, rfl, hsemi, hright⟩ := List.map_eq_cons_iff.mp hback
    obtain ⟨left, hl, rfl⟩ := ihleft hleft
    obtain ⟨right, hr, rfl⟩ := ihright hright
    rw [eq_replicate_of_map_amp hamps, Tok.map_eq_semi.mp hsemi]
    exact ⟨_, .seq n hl hr, by rw [Cmd.map, map_backs]⟩

end

end EnhancedXv6.Shell
