import Mathlib.Data.List.TakeWhile

/-!
# The language of the shell

The reference for `user/sh.c`: how a command line falls into words and symbols, the grammar

    line  ::= pipe '&'* [';' line]
    pipe  ::= exec ['|' pipe]
    exec  ::= '(' line ')' redir*  |  redir* (word redir*)*     with fewer than MAXARGS words
    redir ::= ('<' | '>' | '>>') word

and the tree that belongs to each derivation.  Nothing here is taken from the parser; that it
recognises this language is the subject of `Xv6.Sh.Correctness`.
-/

namespace Xv6.Sh

/-! ## Characters -/

/-- `whitespace`: blank, tab, return, newline, vertical tab. -/
def isSpace (c : UInt8) : Bool := c ∈ [32, 9, 13, 10, 11]

/-- `symbols`: `<`, `|`, `>`, `&`, `;`, `(`, `)`. -/
def isSymbol (c : UInt8) : Bool := c ∈ [60, 124, 62, 38, 59, 40, 41]

/-- The characters of words. -/
def isWordChar (c : UInt8) : Bool := !isSpace c && !isSymbol c

/-! ## Trees -/

/-- How a file is opened for a redirection: for `<`, `>` and `>>`. -/
inductive Mode where
  /-- `O_RDONLY` -/
  | input
  /-- `O_WRONLY|O_CREATE|O_TRUNC` -/
  | output
  /-- `O_WRONLY|O_CREATE` -/
  | append
  deriving DecidableEq, Repr

/-- `rcmd->fd` -/
def Mode.fd : Mode → Nat
  | .input => 0
  | .output | .append => 1

/-- `struct cmd`, where `W` is how words are given. -/
inductive Cmd (W : Type) where
  | exec (argv : List W)
  | redir (cmd : Cmd W) (file : W) (mode : Mode)
  | pipe (left right : Cmd W)
  | list (left right : Cmd W)
  | back (cmd : Cmd W)
  deriving DecidableEq, Repr

namespace Cmd

variable {V W : Type}

/-- Give the words in another way. -/
def map (f : V → W) : Cmd V → Cmd W
  | exec argv => exec (argv.map f)
  | redir c file mode => redir (c.map f) (f file) mode
  | pipe l r => pipe (l.map f) (r.map f)
  | list l r => list (l.map f) (r.map f)
  | back c => back (c.map f)

/-- All words of a command. -/
def words : Cmd W → List W
  | exec argv => argv
  | redir c file _ => c.words ++ [file]
  | pipe l r | list l r => l.words ++ r.words
  | back c => c.words

/-- The argument lists of a command. -/
def execs : Cmd W → List (List W)
  | exec argv => [argv]
  | redir c _ _ => c.execs
  | pipe l r | list l r => l.execs ++ r.execs
  | back c => c.execs

/-- Several redirections, the first one innermost. -/
def redirs (c : Cmd W) (rs : List (W × Mode)) : Cmd W := rs.foldl (fun c r => c.redir r.1 r.2) c

/-- `&` several times. -/
def backs (c : Cmd W) : (k : Nat) → Cmd W
  | 0 => c
  | k + 1 => c.back.backs k

end Cmd

/-! ## Words and symbols -/

/-- What a line consists of. -/
inductive Token where
  | word (w : List UInt8)
  | redir (mode : Mode)
  | bar
  | amp
  | semi
  | lpar
  | rpar
  deriving DecidableEq

/-- The token for a symbol other than `>`. -/
def symbolToken (c : UInt8) : Token :=
  if c = 60 then .redir .input
  else if c = 124 then .bar
  else if c = 38 then .amp
  else if c = 59 then .semi
  else if c = 40 then .lpar
  else .rpar

/-- One more character at the beginning of a word. -/
def extend (c : UInt8) : List Token → List Token
  | .word w :: ts => .word (c :: w) :: ts
  | ts => .word [c] :: ts

/-- The tokens of a line.  Words are as long as possible, and so is `>>`. -/
def lex : List UInt8 → List Token
  | [] => []
  | [c] =>
    if isSpace c then []
    else if c = 62 then [.redir .output]
    else if isSymbol c then [symbolToken c]
    else [.word [c]]
  | c :: d :: ds =>
    if isSpace c then lex (d :: ds)
    else if c = 62 then
      if d = 62 then .redir .append :: lex ds else .redir .output :: lex (d :: ds)
    else if isSymbol c then symbolToken c :: lex (d :: ds)
    else if isWordChar d then extend c (lex (d :: ds))
    else .word [c] :: lex (d :: ds)

/-! ## The grammar -/

/-- `MAXARGS` -/
def maxargs : Nat := 10

/-- Words as they are written. -/
abbrev Tree := Cmd (List UInt8)

/-- `redir*` -/
inductive Redirs : List Token → List (List UInt8 × Mode) → Prop
  | nil : Redirs [] []
  | cons {mode : Mode} {w : List UInt8} {ts : List Token} {rs : List (List UInt8 × Mode)}
      (h : Redirs ts rs) : Redirs (.redir mode :: .word w :: ts) ((w, mode) :: rs)

/-- `(word redir*)*` -/
inductive Words : List Token → List (List UInt8) → List (List UInt8 × Mode) → Prop
  | nil : Words [] [] []
  | cons {w : List UInt8} {ts us : List Token} {rs rs' : List (List UInt8 × Mode)}
      {ws : List (List UInt8)} (h : Redirs ts rs) (h' : Words us ws rs') :
      Words (.word w :: ts ++ us) (w :: ws) (rs ++ rs')

mutual

/-- `line` -/
inductive Line : List Token → Tree → Prop
  | last {ts : List Token} {t : Tree} {k : Nat} (h : Pipe ts t) :
      Line (ts ++ List.replicate k .amp) (t.backs k)
  | list {ts us : List Token} {t u : Tree} {k : Nat} (h : Pipe ts t) (h' : Line us u) :
      Line (ts ++ List.replicate k .amp ++ .semi :: us) (.list (t.backs k) u)

/-- `pipe` -/
inductive Pipe : List Token → Tree → Prop
  | last {ts : List Token} {t : Tree} (h : Exec ts t) : Pipe ts t
  | pipe {ts us : List Token} {t u : Tree} (h : Exec ts t) (h' : Pipe us u) :
      Pipe (ts ++ .bar :: us) (.pipe t u)

/-- `exec` -/
inductive Exec : List Token → Tree → Prop
  | block {ts us : List Token} {t : Tree} {rs : List (List UInt8 × Mode)} (h : Line ts t)
      (h' : Redirs us rs) : Exec (.lpar :: ts ++ .rpar :: us) (t.redirs rs)
  | simple {ts us : List Token} {rs rs' : List (List UInt8 × Mode)} {ws : List (List UInt8)}
      (h : Redirs ts rs) (h' : Words us ws rs') (hlen : ws.length < maxargs) :
      Exec (ts ++ us) (Cmd.redirs (.exec ws) (rs ++ rs'))

end

end Xv6.Sh
