import Mathlib.Data.List.Basic

/-!
# The parser of the shell

`gettoken`, `peek` and the functions from `parsecmd` to `nulterminate` of sh.c.  The cursor `*ps` is
the text from there to the end `es` of the line, and `es` is its position.  Words stay in the line:
the tree has the positions of their first byte and of the byte after them, where `nulterminate` writes
a NUL.  The mutually recursive functions and the loops take fuel.
-/

namespace EnhancedXv6.Shell

/-! ## Tokens -/

abbrev Text := List UInt8

def chr (c : Char) : UInt8 := UInt8.ofNat c.toNat

def whitespace : List UInt8 := [' ', '\t', '\r', '\n', Char.ofNat 0x0b].map chr

def symbols : List UInt8 := ['<', '|', '>', '&', ';', '(', ')'].map chr

def isWord (c : UInt8) : Bool := !whitespace.contains c && !symbols.contains c

def skip (s : Text) : Text := s.dropWhile whitespace.contains

/-- What `gettoken` returns, with the words `W`; `0` is `eof` and `'+'` is `append`. -/
inductive Tok (W : Type)
  | eof
  | pipe
  | lparen
  | rparen
  | semi
  | amp
  | less
  | greater
  | append
  | word (w : W)
  deriving DecidableEq

structure Span where
  start : ℕ
  stop : ℕ
  deriving DecidableEq

/-- The tokens of one character, `>` apart. -/
def symbol (c : UInt8) : Option (Tok Span) :=
  if c = chr '|' then some .pipe
  else if c = chr '(' then some .lparen
  else if c = chr ')' then some .rparen
  else if c = chr ';' then some .semi
  else if c = chr '&' then some .amp
  else if c = chr '<' then some .less
  else none

/-- The token at `s`, where there is no white space. -/
def token (es : ℕ) (s : Text) : Tok Span × Text :=
  match s with
  | [] => (.eof, [])
  | c :: rest =>
    match symbol c with
    | some tok => (tok, rest)
    | none =>
      if c = chr '>' then
        if rest.head? = some (chr '>') then (.append, rest.tail) else (.greater, rest)
      else
        (.word ⟨es - s.length, es - (s.dropWhile isWord).length⟩, s.dropWhile isWord)

def gettoken (es : ℕ) (ps : Text) : Tok Span × Text :=
  let (tok, s) := token es (skip ps)
  (tok, skip s)

/-- Whether the next character is one of `toks`, and the cursor before it. -/
def peek (ps : Text) (toks : List Char) : Bool × Text :=
  ((skip ps).head?.any fun c ↦ (toks.map chr).contains c, skip ps)

/-! ## Commands -/

/-- `struct cmd`, with the words `W`. -/
inductive Cmd (W : Type)
  | exec (argv : List W)
  | redir (cmd : Cmd W) (file : W) (mode fd : ℕ)
  | pipe (left right : Cmd W)
  | list (left right : Cmd W)
  | back (cmd : Cmd W)
  deriving DecidableEq

abbrev MAXARGS : ℕ := 10

abbrev O_RDONLY : ℕ := 0x000
abbrev O_WRONLY : ℕ := 0x001
abbrev O_CREATE : ℕ := 0x200
abbrev O_TRUNC : ℕ := 0x400

/-- How the parser ends without a tree. -/
inductive Fault
  | panic (msg : String)
  | outOfFuel
  deriving DecidableEq

abbrev Parse := Except Fault (Cmd Span × Text)

def redirCmd {W : Type} (cmd : Cmd W) (file : W) : Tok W → Cmd W
  | .less => .redir cmd file O_RDONLY 0
  | .greater => .redir cmd file (O_WRONLY ||| O_CREATE ||| O_TRUNC) 1
  | .append => .redir cmd file (O_WRONLY ||| O_CREATE) 1
  | _ => cmd

/-- `cmd->argv[argc] = q`, where `ret` has redirections around `cmd`. -/
def addArg {W : Type} (q : W) : Cmd W → Cmd W
  | .exec argv => .exec (argv ++ [q])
  | .redir cmd file mode fd => .redir (addArg q cmd) file mode fd
  | cmd => cmd

section

variable (es : ℕ)

def parseredirs : ℕ → Cmd Span → Text → Parse
  | 0, _, _ => .error .outOfFuel
  | fuel + 1, cmd, ps =>
    if (peek ps ['<', '>']).1 = true then
      let (tok, ps) := gettoken es ps
      match gettoken es ps with
      | (.word file, ps) => parseredirs fuel (redirCmd cmd file tok) ps
      | _ => .error (.panic "missing file for redirection")
    else .ok (cmd, skip ps)

/-- The loop of `parseexec`, with `argc` arguments in `ret`. -/
def parseargs : ℕ → Cmd Span → ℕ → Text → Parse
  | 0, _, _, _ => .error .outOfFuel
  | fuel + 1, ret, argc, ps =>
    if (peek ps ['|', ')', '&', ';']).1 = true then .ok (ret, skip ps)
    else
      match gettoken es ps with
      | (.eof, ps) => .ok (ret, ps)
      | (.word q, ps) =>
        if argc + 1 ≥ MAXARGS then .error (.panic "too many args")
        else do
          let (ret, ps) ← parseredirs es fuel (addArg q ret) ps
          parseargs fuel ret (argc + 1) ps
      | _ => .error (.panic "syntax")

def parseback : ℕ → Cmd Span → Text → Parse
  | 0, _, _ => .error .outOfFuel
  | fuel + 1, cmd, ps =>
    if (peek ps ['&']).1 = true then parseback fuel (.back cmd) (gettoken es ps).2
    else .ok (cmd, skip ps)

mutual

def parseline : ℕ → Text → Parse
  | 0, _ => .error .outOfFuel
  | fuel + 1, ps => do
    let (cmd, ps) ← parsepipe fuel ps
    let (cmd, ps) ← parseback es fuel cmd ps
    if (peek ps [';']).1 = true then do
      let (right, ps) ← parseline fuel (gettoken es ps).2
      .ok (.list cmd right, ps)
    else .ok (cmd, skip ps)

def parsepipe : ℕ → Text → Parse
  | 0, _ => .error .outOfFuel
  | fuel + 1, ps => do
    let (cmd, ps) ← parseexec fuel ps
    if (peek ps ['|']).1 = true then do
      let (right, ps) ← parsepipe fuel (gettoken es ps).2
      .ok (.pipe cmd right, ps)
    else .ok (cmd, skip ps)

def parseblock : ℕ → Text → Parse
  | 0, _ => .error .outOfFuel
  | fuel + 1, ps =>
    if (peek ps ['(']).1 = false then .error (.panic "parseblock")
    else do
      let (cmd, ps) ← parseline fuel (gettoken es ps).2
      if (peek ps [')']).1 = false then .error (.panic "syntax - missing )")
      else parseredirs es fuel cmd (gettoken es ps).2

def parseexec : ℕ → Text → Parse
  | 0, _ => .error .outOfFuel
  | fuel + 1, ps =>
    if (peek ps ['(']).1 = true then parseblock fuel ps
    else do
      let (ret, ps) ← parseredirs es fuel (.exec []) ps
      parseargs es fuel ret 0 ps

end

end

/-! ## NUL termination -/

/-- NUL-terminates the words of a command in the line `buf`. -/
def nulterminate : Cmd Span → List UInt8 → List UInt8
  | .exec argv, buf => argv.foldl (fun buf word ↦ buf.set word.stop 0) buf
  | .redir cmd file _ _, buf => (nulterminate cmd buf).set file.stop 0
  | .pipe left right, buf => nulterminate right (nulterminate left buf)
  | .list left right, buf => nulterminate right (nulterminate left buf)
  | .back cmd, buf => nulterminate cmd buf

def fuelFor (es : ℕ) : ℕ := 4 * es + 4

/-- The tree of a command line and the buffer of the line after `nulterminate`. -/
def parsecmd (s : Text) : Except Fault (Cmd Span × List UInt8) := do
  let (cmd, ps) ← parseline s.length (fuelFor s.length) s
  if (peek ps []).2 ≠ [] then .error (.panic "syntax")
  else .ok (cmd, nulterminate cmd (s ++ [0]))

def cstring (buf : List UInt8) (start : ℕ) : List UInt8 := (buf.drop start).takeWhile (· ≠ 0)

end EnhancedXv6.Shell
