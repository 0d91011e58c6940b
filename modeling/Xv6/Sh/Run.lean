import Xv6.Lib.Code
import Xv6.Lib.System
import Xv6.Sh.Syntax

/-!
# Running a command: `runcmd` in `user/sh.c`

`runcmd` as code that issues system calls, and the processes that run it.  A process has a table of
descriptors; `fork` copies it, `open`, `dup` and `pipe` take the lowest free entries (`fdalloc` in
`kernel/sysfile.c`).  Every call succeeds, except that a full table makes `fdalloc` fail.  What
`exec` starts is an arbitrary program: it may close, duplicate and open descriptors, fork and exit
as it likes.

For the statements, `runcmd` says when it enters a command and when it is about to wait for the two
ends of a pipe, its calls of `exec` are recorded, and files remember the command for which they were
opened.  No step depends on any of this.
-/

namespace Xv6.Sh

/-! ## Places in a command -/

/-- From a command to a part of it. -/
inductive Dir where
  | inner
  | left
  | right
  deriving DecidableEq, Repr

/-- The way from the whole command to one of its parts. -/
abbrev Path := List Dir

/-- What the history records. -/
inductive Event where
  /-- `runcmd` has been called for this part. -/
  | enter (node : Path)
  /-- The process of this pipe has reached its first `wait`. -/
  | waits (node : Path)
  /-- `exec` has been called for this part. -/
  | exec (node : Path)
  deriving DecidableEq

/-- The part of the command that an event is about. -/
def Event.node : Event → Path
  | .enter node | .waits node | .exec node => node

/-- Where an event leaves a process that was at `node`. -/
def Event.place (node : Path) : Event → Path
  | .enter node' => node'
  | _ => node

/-! ## `runcmd` -/

/-- What `runcmd` asks the kernel for. -/
inductive Call (W : Type) where
  | event (e : Event)
  | close (fd : Nat)
  | opens (file : W) (mode : Mode)
  | pipe
  | dup (fd : Nat)
  | fork
  | wait
  | exec (argv : List W)
  | exit (status : Nat)
  /-- `fprintf(2, fmt, arg)`, where the argument is a word or a fixed text. -/
  | fprintf (fmt : String) (arg : W ⊕ String)

/-- What a call returns: `pipe` the two descriptors, `exit` nothing ever, and `exec` only if it
fails. -/
def Call.Ret {W : Type} : Call W → Type
  | .event _ | .exec _ | .fprintf _ _ => Unit
  | .close _ | .opens _ _ | .dup _ | .fork | .wait => Int
  | .pipe => Option (Nat × Nat)
  | .exit _ => Empty

/-- Code of the shell. -/
abbrev Run (W α : Type) := Code (Call W) Call.Ret α

section Code

variable {W : Type}

/-- A system call. -/
def call (c : Call W) : Run W c.Ret := Code.call c

/-- `panic(s)` -/
def panic (s : String) : Run W Empty := do
  call (.fprintf "%s\n" (.inr s))
  call (.exit 1)

/-- `fork1()`, followed by what the child and the parent do. -/
def fork1 (child parent : Run W Empty) : Run W Empty := do
  let pid : Int ← call .fork
  if pid = -1 then panic "fork"
  else if pid = 0 then child
  else parent

/-- `runcmd(cmd)` for the part `cmd` at the place `node`.  It never returns. -/
def runcmd : (node : Path) → Cmd W → Run W Empty
  | node, .exec argv => do
    call (.event (.enter node))
    match argv with
    | [] => call (.exit 1)
    | w :: ws => do
      call (.exec (w :: ws))
      call (.fprintf "exec %s failed\n" (.inl w))
      call (.exit 0)
  | node, .redir cmd file mode => do
    call (.event (.enter node))
    let _ : Int ← call (.close mode.fd)
    let fd : Int ← call (.opens file mode)
    if fd < 0 then do
      call (.fprintf "open %s failed\n" (.inl file))
      call (.exit 1)
    else runcmd (node ++ [.inner]) cmd
  | node, .list l r => do
    call (.event (.enter node))
    fork1 (runcmd (node ++ [.left]) l) do
      let _ : Int ← call .wait
      runcmd (node ++ [.right]) r
  | node, .pipe l r => do
    call (.event (.enter node))
    let p : Option (Nat × Nat) ← call .pipe
    match p with
    | none => panic "pipe"
    | some (p0, p1) =>
      fork1 (do
          let _ : Int ← call (.close 1)
          let _ : Int ← call (.dup p1)
          let _ : Int ← call (.close p0)
          let _ : Int ← call (.close p1)
          runcmd (node ++ [.left]) l) <|
        fork1 (do
          let _ : Int ← call (.close 0)
          let _ : Int ← call (.dup p0)
          let _ : Int ← call (.close p0)
          let _ : Int ← call (.close p1)
          runcmd (node ++ [.right]) r) <| do
        let _ : Int ← call (.close p0)
        let _ : Int ← call (.close p1)
        call (.event (.waits node))
        let _ : Int ← call .wait
        let _ : Int ← call .wait
        call (.exit 0)
  | node, .back cmd => do
    call (.event (.enter node))
    fork1 (runcmd (node ++ [.inner]) cmd) (call (.exit 0))

end Code

/-! ## Descriptors -/

/-- `struct file`.  A file opened by the shell remembers for which part of the command. -/
inductive File (W : Type) where
  /-- One of those with which the shell has started the command. -/
  | given (fd : Nat)
  | opened (serial : Nat) (node : Path) (file : W) (mode : Mode)
  | readEnd (serial : Nat) (node : Path)
  | writeEnd (serial : Nat) (node : Path)
  /-- Opened by a program. -/
  | other (serial : Nat)
  deriving DecidableEq

/-- `p->ofile` -/
abbrev Fds (W : Type) := List (Option (File W))

section Fds

variable {W : Type}

/-- `fdalloc(f)`: the lowest free descriptor, and the new table. -/
def fdalloc (f : File W) (fds : Fds W) : Option (Nat × Fds W) :=
  (fds.findIdx? (·.isNone)).map fun fd => (fd, fds.set fd (some f))

/-- `NOFILE` -/
def nofile : Nat := 16

/-- Exactly the descriptors 0, 1 and 2. -/
def std (f0 f1 f2 : File W) : Fds W :=
  [some f0, some f1, some f2] ++ List.replicate (nofile - 3) none

/-- `sys_open`, for a file that can be opened. -/
def opens (f : File W) (fds : Fds W) : Int × Fds W :=
  match fdalloc f fds with
  | none => (-1, fds)
  | some (fd, fds) => (fd, fds)

/-- `sys_pipe`, with the two ends. -/
def pipe (rf wf : File W) (fds : Fds W) : Option (Nat × Nat) × Fds W :=
  match fdalloc rf fds with
  | none => (none, fds)
  | some (fd0, fds') =>
    match fdalloc wf fds' with
    | none => (none, fds'.set fd0 none)
    | some (fd1, fds'') => (some (fd0, fd1), fds'')

/-- `sys_dup` -/
def dup (fd : Nat) (fds : Fds W) : Int × Fds W :=
  match fds[fd]? with
  | some (some f) => opens f fds
  | _ => (-1, fds)

/-- `sys_close` -/
def close (fd : Nat) (fds : Fds W) : Int × Fds W :=
  match fds[fd]? with
  | some (some _) => (0, fds.set fd none)
  | _ => (-1, fds)

end Fds

/-! ## Processes -/

/-- What a process is doing. -/
inductive Phase (W : Type) where
  | shell (code : Run W Empty)
  | program (argv : List W)
  | zombie
  /-- Its parent has waited for it. -/
  | reaped

/-- A process; `node` is the part of the command it has entered last. -/
structure Proc (W : Type) where
  parent : Option Nat
  node : Path
  fds : Fds W
  phase : Phase W

/-- All processes, numbered in the order in which they were forked, the number of files opened so
far, and what has happened. -/
structure State (W : Type) where
  procs : List (Proc W)
  serial : Nat
  log : List Event

/-- What a program may do. -/
inductive Op (W : Type) where
  | close (fd : Nat)
  | dup (fd : Nat)
  | opens
  | pipe
  | fork
  | exec (argv : List W)
  | wait (child : Nat)
  | exit

/-- Who takes the next step.  A process in the shell makes its next call; `child` is the one that a
`wait` finds. -/
inductive Action (W : Type) where
  | shell (pid child : Nat)
  | program (pid : Nat) (op : Op W)

namespace State

variable {W : Type}

/-- A process as it is after one of its calls. -/
def setProc (s : State W) (pid : Nat) (pr : Proc W) : State W :=
  { s with procs := s.procs.set pid pr }

/-- `fork`: the child gets the next number. -/
def fork (s : State W) (pid : Nat) (pr : Proc W) (child parent : Phase W) : State W :=
  { s with
    procs := s.procs.set pid { pr with phase := parent } ++
      [{ pr with parent := some pid, phase := child }] }

/-- `exit`: the descriptors are closed, and children have a new parent. -/
def exit (s : State W) (pid : Nat) (pr : Proc W) : State W :=
  { s with
    procs := (s.procs.set pid { pr with fds := pr.fds.map fun _ => none, phase := .zombie }).map
      fun q => if q.parent = some pid then { q with parent := none } else q }

/-- The process `child`, if it is a child of `pid` that has exited and has not been waited for. -/
def zombieOf (s : State W) (pid child : Nat) : Option (Proc W) :=
  s.procs[child]?.filter fun c => c.parent == some pid && c.phase matches .zombie

/-- A child that has not been waited for. -/
def hasChild (s : State W) (pid : Nat) : Bool :=
  s.procs.any fun q => q.parent == some pid && !(q.phase matches .reaped)

/-- `wait`: `child` has exited, or there are no children at all. -/
def wait (s : State W) (pid child : Nat) : Option (Int × State W) :=
  match s.zombieOf pid child with
  | some c => some (child, s.setProc child { c with phase := .reaped })
  | none => if s.hasChild pid then none else some (-1, s)

/-- The next call of a process in the shell, and what it goes on with. -/
def shellStep (s : State W) (pid child : Nat) (pr : Proc W) :
    (c : Call W) → (c.Ret → Run W Empty) → Option (State W)
  | .event e, k =>
    let node := e.place pr.node
    some { s.setProc pid { pr with node, phase := .shell (k ()) } with log := e :: s.log }
  | .close fd, k =>
    let (r, fds) := close fd pr.fds
    some (s.setProc pid { pr with fds, phase := .shell (k r) })
  | .opens file mode, k =>
    let (r, fds) := opens (.opened s.serial pr.node file mode) pr.fds
    some { s.setProc pid { pr with fds, phase := .shell (k r) } with serial := s.serial + 1 }
  | .pipe, k =>
    let (r, fds) := pipe (.readEnd s.serial pr.node) (.writeEnd s.serial pr.node) pr.fds
    some { s.setProc pid { pr with fds, phase := .shell (k r) } with serial := s.serial + 1 }
  | .dup fd, k =>
    let (r, fds) := dup fd pr.fds
    some (s.setProc pid { pr with fds, phase := .shell (k r) })
  | .fork, k =>
    let r : Int := s.procs.length
    some (s.fork pid pr (.shell (k (0 : Int))) (.shell (k r)))
  | .wait, k => do
    let (r, s) ← s.wait pid child
    pure (s.setProc pid { pr with phase := .shell (k r) })
  | .exec argv, _ =>
    some { s.setProc pid { pr with phase := .program argv } with log := .exec pr.node :: s.log }
  | .exit _, _ => some (s.exit pid pr)
  | .fprintf _ _, k => some (s.setProc pid { pr with phase := .shell (k ()) })

/-- A step of a program. -/
def programStep (s : State W) (pid : Nat) (pr : Proc W) : Op W → Option (State W)
  | .close fd => some (s.setProc pid { pr with fds := (close fd pr.fds).2 })
  | .dup fd => some (s.setProc pid { pr with fds := (dup fd pr.fds).2 })
  | .opens =>
    let fds := (opens (.other s.serial) pr.fds).2
    some { s.setProc pid { pr with fds } with serial := s.serial + 1 }
  | .pipe =>
    let fds := (pipe (.other s.serial) (.other (s.serial + 1)) pr.fds).2
    some { s.setProc pid { pr with fds } with serial := s.serial + 2 }
  | .fork => some (s.fork pid pr pr.phase pr.phase)
  | .exec argv => some (s.setProc pid { pr with phase := .program argv })
  | .wait child => (s.wait pid child).map Prod.snd
  | .exit => some (s.exit pid pr)

/-- A step of one process. -/
def step (s : State W) : Action W → Option (State W)
  | .shell pid child => do
    let pr ← s.procs[pid]?
    match pr.phase with
    | .shell (.cmd c k) => s.shellStep pid child pr c k
    | _ => none
  | .program pid op => do
    let pr ← s.procs[pid]?
    match pr.phase with
    | .program _ => s.programStep pid pr op
    | _ => none

/-- A process about to run a command, with the descriptors 0, 1 and 2. -/
def start (cmd : Cmd W) : State W where
  procs := [{
    parent := none
    node := []
    fds := std (.given 0) (.given 1) (.given 2)
    phase := .shell (runcmd [] cmd) }]
  serial := 0
  log := []

end State

/-- The processes of a command. -/
def running {W : Type} (cmd : Cmd W) : Lts.System (State W) (Action W) where
  init s := s = State.start cmd
  step := State.step

end Xv6.Sh
