import Xv6.Sh.Syntax

/-!
# The parser: `user/sh.c`

`gettoken`, `peek` and the functions of the recursive descent.  A pointer into the line is given by
what is left from it to `es`, the end of the line; `*s` at the end is the terminating 0.  A word of
a command is the pair of pointers `q` and `eq`.

The functions take fuel, since nothing in their text says that they terminate; a store to `argv`
beyond its end is an error of its own.
-/

namespace Xv6.Sh

/-- A pointer into the line, up to `es`. -/
abbrev Ptr := List UInt8

/-- `*s` -/
def deref (s : Ptr) : UInt8 := s.headD 0

/-- A pointer to the beginning of a word and one to its end: `argv[i]` and `eargv[i]`, or `file` and
`efile`. -/
structure Word where
  q : Ptr
  eq : Ptr
  deriving DecidableEq

/-- The characters between the two pointers. -/
def Word.text (w : Word) : List UInt8 := w.q.take (w.q.length - w.eq.length)

/-- Why the parser does not return a command. -/
inductive Stop where
  /-- `panic("syntax")` -/
  | badSyntax
  /-- `panic("missing file for redirection")` -/
  | missingFile
  /-- `panic("parseblock")` -/
  | parseblock
  /-- `panic("syntax - missing )")` -/
  | missingParen
  /-- `panic("too many args")` -/
  | tooManyArgs
  /-- A store to `argv[i]` with `MAXARGS <= i`. -/
  | overrun
  /-- The model has run out of fuel. -/
  | fuel
  deriving DecidableEq

/-! ## Tokens -/

/-- `while (s < es && strchr(whitespace, *s)) s++;` -/
def skip (s : Ptr) : Ptr := s.dropWhile isSpace

/-- What `gettoken` gives: its value, `*q`, `*eq` and the new `*ps`. -/
structure Tok where
  ret : UInt8
  q : Ptr
  eq : Ptr
  ps : Ptr

/-- `gettoken(ps, es, q, eq)`; `'+'` is `>>` and `'a'` a word. -/
def gettoken (ps : Ptr) : Tok :=
  let s := skip ps
  let c := deref s
  if c = 0 then { ret := 0, q := s, eq := s, ps := skip s }
  else if c ∈ [124, 40, 41, 59, 38, 60] then { ret := c, q := s, eq := s.tail, ps := skip s.tail }
  else if c = 62 then
    if deref s.tail = 62 then { ret := 43, q := s, eq := s.tail.tail, ps := skip s.tail.tail }
    else { ret := 62, q := s, eq := s.tail, ps := skip s.tail }
  else
    let e := s.dropWhile isWordChar
    { ret := 97, q := s, eq := e, ps := skip e }

/-- `peek(ps, es, toks)`: the new `*ps` and the answer. -/
def peek (ps : Ptr) (toks : List UInt8) : Ptr × Bool :=
  let s := skip ps
  (s, deref s ≠ 0 && decide (deref s ∈ toks))

/-! ## The descent -/

/-- The mode of the token `<`, `>` or `+`. -/
def modeOf (tok : UInt8) : Mode :=
  if tok = 60 then .input else if tok = 62 then .output else .append

/-- Store `argv` to the command inside `ret`, to which `parseexec` has kept a pointer. -/
def Cmd.fill {W : Type} (argv : List W) : Cmd W → Cmd W
  | .exec _ => .exec argv
  | .redir c file mode => .redir (c.fill argv) file mode
  | c => c

/-- `parseredirs(cmd, ps, es)` -/
def parseredirs : (fuel : Nat) → Cmd Word → Ptr → Except Stop (Cmd Word × Ptr)
  | 0, _, _ => .error .fuel
  | fuel + 1, cmd, ps =>
    let (ps, more) := peek ps [60, 62]
    if more then
      let tok := gettoken ps
      let file := gettoken tok.ps
      if file.ret ≠ 97 then .error .missingFile
      else parseredirs fuel (.redir cmd ⟨file.q, file.eq⟩ (modeOf tok.ret)) file.ps
    else .ok (cmd, ps)

/-- `cmd->argv[argc] = 0; cmd->eargv[argc] = 0; return ret;` in `parseexec` -/
def finishExec (ret : Cmd Word) (argv : List Word) (ps : Ptr) : Except Stop (Cmd Word × Ptr) :=
  if maxargs ≤ argv.length then .error .overrun else .ok (ret.fill argv, ps)

/-- The loop of `parseexec`, with the words in `argv` stored already. -/
def parseargs : (fuel : Nat) → (ret : Cmd Word) → (argv : List Word) → Ptr →
    Except Stop (Cmd Word × Ptr)
  | 0, _, _, _ => .error .fuel
  | fuel + 1, ret, argv, ps =>
    let (ps, stop) := peek ps [124, 41, 38, 59]
    if stop then finishExec ret argv ps
    else
      let tok := gettoken ps
      if tok.ret = 0 then finishExec ret argv tok.ps
      else if tok.ret ≠ 97 then .error .badSyntax
      else if maxargs ≤ argv.length then .error .overrun
      else
        let argv := argv ++ [⟨tok.q, tok.eq⟩]
        if maxargs ≤ argv.length then .error .tooManyArgs
        else do
          let (ret, ps) ← parseredirs fuel ret tok.ps
          parseargs fuel ret argv ps

/-- The loop of `parseline`. -/
def parsebacks : (fuel : Nat) → Cmd Word → Ptr → Except Stop (Cmd Word × Ptr)
  | 0, _, _ => .error .fuel
  | fuel + 1, cmd, ps =>
    let (ps, more) := peek ps [38]
    if more then parsebacks fuel (.back cmd) (gettoken ps).ps else .ok (cmd, ps)

mutual

/-- `parseline(ps, es)` -/
def parseline : (fuel : Nat) → Ptr → Except Stop (Cmd Word × Ptr)
  | 0, _ => .error .fuel
  | fuel + 1, ps => do
    let (cmd, ps) ← parsepipe fuel ps
    let (cmd, ps) ← parsebacks fuel cmd ps
    let (ps, more) := peek ps [59]
    if more then
      let (right, ps) ← parseline fuel (gettoken ps).ps
      pure (.list cmd right, ps)
    else pure (cmd, ps)

/-- `parsepipe(ps, es)` -/
def parsepipe : (fuel : Nat) → Ptr → Except Stop (Cmd Word × Ptr)
  | 0, _ => .error .fuel
  | fuel + 1, ps => do
    let (cmd, ps) ← parseexec fuel ps
    let (ps, more) := peek ps [124]
    if more then
      let (right, ps) ← parsepipe fuel (gettoken ps).ps
      pure (.pipe cmd right, ps)
    else pure (cmd, ps)

/-- `parseexec(ps, es)` -/
def parseexec : (fuel : Nat) → Ptr → Except Stop (Cmd Word × Ptr)
  | 0, _ => .error .fuel
  | fuel + 1, ps =>
    let (ps, block) := peek ps [40]
    if block then parseblock fuel ps
    else do
      let (ret, ps) ← parseredirs fuel (.exec []) ps
      parseargs fuel ret [] ps

/-- `parseblock(ps, es)` -/
def parseblock : (fuel : Nat) → Ptr → Except Stop (Cmd Word × Ptr)
  | 0, _ => .error .fuel
  | fuel + 1, ps =>
    let (ps, ok) := peek ps [40]
    if ok then do
      let (cmd, ps) ← parseline fuel (gettoken ps).ps
      let (ps, ok) := peek ps [41]
      if ok then parseredirs fuel cmd (gettoken ps).ps else .error .missingParen
    else .error .parseblock

end

/-! ## Strings -/

/-- `*p = 0`, in a buffer that begins with a line of length `n`. -/
def terminateAt (n : Nat) (b : List UInt8) (p : Ptr) : List UInt8 := b.set (n - p.length) 0

/-- `nulterminate(cmd)` -/
def nulterminate (n : Nat) : Cmd Word → List UInt8 → List UInt8
  | .exec argv, b => argv.foldl (fun b w => terminateAt n b w.eq) b
  | .redir c file _, b => terminateAt n (nulterminate n c b) file.eq
  | .pipe l r, b | .list l r, b => nulterminate n r (nulterminate n l b)
  | .back c, b => nulterminate n c b

/-- The string at a pointer: up to the next 0. -/
def readString (n : Nat) (b : List UInt8) (p : Ptr) : List UInt8 :=
  (b.drop (n - p.length)).takeWhile (· ≠ 0)

/-- `parsecmd(s)` for the string `line`: the command, and the buffer with the line afterwards. -/
def parsecmd (fuel : Nat) (line : List UInt8) : Except Stop (Cmd Word × List UInt8) := do
  let (cmd, s) ← parseline fuel line
  let (s, _) := peek s []
  if s ≠ [] then .error .badSyntax
  else pure (cmd, nulterminate line.length cmd (line ++ [0]))

end Xv6.Sh
