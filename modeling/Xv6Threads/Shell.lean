import Mathlib.Data.List.Basic
import Mathlib.Order.Nat

namespace Xv6Threads.Shell

abbrev MAXARGS : ℕ := 10
abbrev O_RDONLY : ℕ := 0x000
abbrev O_WRONLY : ℕ := 0x001
abbrev O_CREATE : ℕ := 0x200

abbrev NUL : Char := '\x00'

/-- A word of the command: `q` and `eq` of `gettoken`. -/
structure Word where
  q : ℕ
  eq : ℕ
  deriving DecidableEq

/-- A command with words of type `ω`. -/
inductive Cmd (ω : Type)
  | exec (argv : List ω)
  | redir (cmd : Cmd ω) (file : ω) (mode fd : ℕ)
  | pipe (left right : Cmd ω)
  | list (left right : Cmd ω)
  | back (cmd : Cmd ω)
  deriving DecidableEq

def Cmd.words {ω : Type} : Cmd ω → List ω
  | exec argv => argv
  | redir cmd file _ _ => cmd.words ++ [file]
  | pipe left right => left.words ++ right.words
  | list left right => left.words ++ right.words
  | back cmd => cmd.words

def whitespace : List Char := [' ', '\t', '\r', '\n', '\x0b']
def symbols : List Char := ['<', '|', '>', '&', ';', '(', ')']

def isSpace (c : Char) : Bool := c ∈ whitespace
def isWord (c : Char) : Bool := !(c ∈ whitespace) && !(c ∈ symbols)

section
variable (text : List Char)

/-- `*s`; behind the last character there is a NUL. -/
def char (s : ℕ) : Char := text.getD s NUL

/-- `while(s < es && p(*s)) s++`. -/
def skip (p : Char → Bool) (s : ℕ) : ℕ := s + ((text.drop s).takeWhile p).length

/-- The token with its beginning and end, and the cursor after it. -/
def gettoken (s : ℕ) : Char × Word × ℕ :=
  let s := skip text isSpace s
  let c := char text s
  let (ret, eq) :=
    if c = NUL then (c, s)
    else if c ∈ ['|', '(', ')', ';', '&', '<'] then (c, s + 1)
    else if c = '>' then if char text (s + 1) = '>' then ('+', s + 2) else (c, s + 1)
    else ('a', skip text isWord s)
  (ret, ⟨s, eq⟩, skip text isSpace eq)

/-- Whether the next character is one of `toks`, and the cursor before it. -/
def peek (s : ℕ) (toks : List Char) : Bool × ℕ :=
  let s := skip text isSpace s
  (decide (char text s ≠ NUL ∧ char text s ∈ toks), s)

end

inductive Fail
  | panic (msg : String)
  /-- the bound on the number of turns is met -/
  | turns
  deriving DecidableEq

abbrev Parsed := Except Fail (Cmd Word × ℕ)

def panic {α : Type} (msg : String) : Except Fail α := .error (.panic msg)

/-- The redirection for the token `tok`. -/
def redircmd {ω : Type} (cmd : Cmd ω) (file : ω) (tok : Char) : Cmd ω :=
  if tok = '<' then .redir cmd file O_RDONLY 0
  else .redir cmd file (O_WRONLY ||| O_CREATE) 1

/-- `cmd->argv[argc] = q`, where `cmd` is the command inside the redirections. -/
def addArg {ω : Type} (w : ω) : Cmd ω → Cmd ω
  | .exec argv => .exec (argv ++ [w])
  | .redir cmd file mode fd => .redir (addArg w cmd) file mode fd
  | cmd => cmd

section
variable (text : List Char)

def parseredirs : ℕ → Cmd Word → ℕ → Parsed
  | 0, _, _ => .error .turns
  | turns + 1, cmd, s =>
    let (more, s) := peek text s ['<', '>']
    if more then
      let (tok, _, s) := gettoken text s
      let (ret, file, s) := gettoken text s
      if ret ≠ 'a' then panic "missing file for redirection"
      else parseredirs turns (redircmd cmd file tok) s
    else .ok (cmd, s)

/-- The loop of `parseexec`. -/
def parseargs : ℕ → Cmd Word → ℕ → ℕ → Parsed
  | 0, _, _, _ => .error .turns
  | turns + 1, ret, argc, s =>
    let (stop, s) := peek text s ['|', ')', '&', ';']
    if stop then .ok (ret, s)
    else
      let (tok, w, s) := gettoken text s
      if tok = NUL then .ok (ret, s)
      else if tok ≠ 'a' then panic "syntax"
      else if argc + 1 ≥ MAXARGS then panic "too many args"
      else do
        let (ret, s) ← parseredirs text (text.length + 1) (addArg w ret) s
        parseargs turns ret (argc + 1) s

/-- The loop of `parseline`. -/
def parseback : ℕ → Cmd Word → ℕ → Parsed
  | 0, _, _ => .error .turns
  | turns + 1, cmd, s =>
    let (more, s) := peek text s ['&']
    if more then
      let (_, _, s) := gettoken text s
      parseback turns (.back cmd) s
    else .ok (cmd, s)

mutual

def parseline : ℕ → ℕ → Parsed
  | 0, _ => .error .turns
  | turns + 1, s => do
    let (cmd, s) ← parsepipe turns s
    let (cmd, s) ← parseback text (text.length + 1) cmd s
    let (more, s) := peek text s [';']
    if more then
      let (_, _, s) := gettoken text s
      let (right, s) ← parseline turns s
      .ok (.list cmd right, s)
    else .ok (cmd, s)

def parsepipe : ℕ → ℕ → Parsed
  | 0, _ => .error .turns
  | turns + 1, s => do
    let (cmd, s) ← parseexec turns s
    let (more, s) := peek text s ['|']
    if more then
      let (_, _, s) := gettoken text s
      let (right, s) ← parsepipe turns s
      .ok (.pipe cmd right, s)
    else .ok (cmd, s)

def parseexec : ℕ → ℕ → Parsed
  | 0, _ => .error .turns
  | turns + 1, s =>
    let (block, s) := peek text s ['(']
    if block then parseblock turns s
    else do
      let (ret, s) ← parseredirs text (text.length + 1) (.exec []) s
      parseargs text (text.length + 1) ret 0 s

def parseblock : ℕ → ℕ → Parsed
  | 0, _ => .error .turns
  | turns + 1, s =>
    let (block, s) := peek text s ['(']
    if !block then panic "parseblock"
    else do
      let (_, _, s) := gettoken text s
      let (cmd, s) ← parseline turns s
      let (closed, s) := peek text s [')']
      if !closed then panic "syntax - missing )"
      else
        let (_, _, s) := gettoken text s
        parseredirs text (text.length + 1) cmd s

end

end

/-- The characters of the command with the NUL behind them. -/
abbrev Buffer := ℕ → Char

def nulterminate : Cmd Word → Buffer → Buffer
  | .exec argv, buf => argv.foldl (fun buf w => Function.update buf w.eq NUL) buf
  | .redir cmd file _ _, buf => Function.update (nulterminate cmd buf) file.eq NUL
  | .pipe left right, buf => nulterminate right (nulterminate left buf)
  | .list left right, buf => nulterminate right (nulterminate left buf)
  | .back cmd, buf => nulterminate cmd buf

/-- The command and the characters to which its words point. -/
def parsecmd (text : List Char) : Except Fail (Cmd Word × Buffer) := do
  let (cmd, s) ← parseline text (4 * text.length + 4) 0
  let (_, s) := peek text s []
  if s ≠ text.length then panic "syntax"
  else .ok (cmd, nulterminate cmd (char text))

/-- The string that begins at `q`, of at most `n` characters. -/
def cstr (buf : Buffer) : ℕ → ℕ → List Char
  | 0, _ => []
  | n + 1, q => if buf q = NUL then [] else buf q :: cstr buf n (q + 1)

inductive Tok
  | word (w : Word)
  | lt | gt | gtgt | bar | amp | semi | lpar | rpar
  deriving DecidableEq

/-- Where the scanner is: between tokens, in a word that began at `q`, or behind a `>`. -/
inductive Mode
  | idle
  | word (q : ℕ)
  | gt
  deriving DecidableEq

def Mode.flush (i : ℕ) : Mode → List Tok
  | .idle => []
  | .word q => [.word ⟨q, i⟩]
  | .gt => [.gt]

def single (c : Char) : Option Tok :=
  if c = '<' then some .lt else if c = '|' then some .bar else if c = '&' then some .amp
  else if c = ';' then some .semi else if c = '(' then some .lpar else if c = ')' then some .rpar
  else none

/-- The tokens that end with the character at `i`, and where the scanner is behind it. -/
def Mode.next (m : Mode) (i : ℕ) (c : Char) : List Tok × Mode :=
  if isSpace c then (m.flush i, .idle)
  else if c = '>' then if m = .gt then ([.gtgt], .idle) else (m.flush i, .gt)
  else
    match single c with
    | some t => (m.flush i ++ [t], .idle)
    | none =>
      match m with
      | .word q => ([], .word q)
      | m => (m.flush i, .word i)

/-- The tokens of the characters from place `i` on. -/
def scan : Mode → ℕ → List Char → List Tok
  | m, i, [] => m.flush i
  | m, i, c :: cs => (m.next i c).1 ++ scan (m.next i c).2 (i + 1) cs

def tokens (text : List Char) : List Tok := scan .idle 0 text

inductive Redir (ω : Type)
  | read (file : ω)
  | write (file : ω)
  | append (file : ω)

namespace Redir

variable {ω : Type}

/-- `>>` opens the file as `>` does. -/
def apply (cmd : Cmd ω) : Redir ω → Cmd ω
  | read file => .redir cmd file O_RDONLY 0
  | write file => .redir cmd file (O_WRONLY ||| O_CREATE) 1
  | append file => .redir cmd file (O_WRONLY ||| O_CREATE) 1

def toks : Redir Word → List Tok
  | read file => [.lt, .word file]
  | write file => [.gt, .word file]
  | append file => [.gtgt, .word file]

end Redir

def redirect {ω : Type} (cmd : Cmd ω) (rs : List (Redir ω)) : Cmd ω := rs.foldl Redir.apply cmd

def redirs (rs : List (Redir Word)) : List Tok := rs.flatMap Redir.toks

/-- The words of a simple command, each with the redirections behind it. -/
abbrev Args := List (Word × List (Redir Word))

def Args.toks (as : Args) : List Tok := as.flatMap fun a => .word a.1 :: redirs a.2

def background {ω : Type} : ℕ → Cmd ω → Cmd ω
  | 0, cmd => cmd
  | n + 1, cmd => background n (.back cmd)

inductive Symbol
  | line | pipe | exec

inductive Derives : Symbol → List Tok → Cmd Word → Prop
  | line {ts cmd} (n : ℕ) : Derives .pipe ts cmd →
    Derives .line (ts ++ List.replicate n .amp) (background n cmd)
  | list {ts us cmd right} (n : ℕ) : Derives .pipe ts cmd → Derives .line us right →
    Derives .line (ts ++ List.replicate n .amp ++ .semi :: us) (.list (background n cmd) right)
  | exec {ts cmd} : Derives .exec ts cmd → Derives .pipe ts cmd
  | pipe {ts us cmd right} : Derives .exec ts cmd → Derives .pipe us right →
    Derives .pipe (ts ++ .bar :: us) (.pipe cmd right)
  | block {ts cmd} (rs : List (Redir Word)) : Derives .line ts cmd →
    Derives .exec (.lpar :: (ts ++ .rpar :: redirs rs)) (redirect cmd rs)
  | simple (rs : List (Redir Word)) (as : Args) : as.length ≤ MAXARGS - 1 →
    Derives .exec (redirs rs ++ as.toks)
      (redirect (.exec (as.map Prod.fst)) (rs ++ as.flatMap Prod.snd))

end Xv6Threads.Shell
