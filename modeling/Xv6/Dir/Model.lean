import Xv6.Dir.Code
import Xv6.Lib.System

/-!
# Processes making system calls on directories

The machine in which any number of processes run the code of the previous module at the same time,
one command of one process per step.  Locked inodes make others wait; in between everything
interleaves.

The inodes in memory are written back by `iupdate` before they are unlocked, so one table stands for
the disk and for the valid copies in the cache.  `ref`, `valid` and `lock` are the fields of a cache
entry that are not on disk.  An open file counts as one reference until somebody closes it for the
last time; which processes have it open does not matter.
-/

namespace Xv6.Dir

open Lts
open Function (update)

/-- What a process is doing. -/
inductive Thread where
  | idle
  | run (c : K Unit)

/-- The state of the machine. -/
structure State (P : Type) where
  /-- The inodes. -/
  node : Nat → Node
  /-- `ip->ref`, 0 when the inode is not in the cache. -/
  ref : Nat → Nat
  /-- `ip->valid` -/
  valid : Nat → Bool
  /-- The holder of `ip->lock`. -/
  lock : Nat → Option P
  /-- `p->cwd`, `none` for a process that does not exist. -/
  cwd : P → Option Nat
  /-- The inodes of the open files. -/
  files : List Nat
  thread : P → Thread
  /-- History: the directory whose entry the process has erased in `sys_unlink`, until it has given
  it back. -/
  removing : P → Option Nat
  /-- The panic that has stopped the machine. -/
  halted : Option Panic

variable {P : Type} [DecidableEq P]

namespace State

/-- Store to an inode. -/
def set (s : State P) (i : Nat) (n : Node) : State P := { s with node := update s.node i n }

/-- Go on with the code `c`. -/
def goto (s : State P) (p : P) (c : K Unit) : State P :=
  { s with thread := update s.thread p (.run c) }

/-- `iget(dev, i)` -/
def iget (s : State P) (i : Nat) : State P :=
  { s with
    ref := update s.ref i (s.ref i + 1)
    valid := if s.ref i = 0 then update s.valid i false else s.valid }

/-- `ip->ref--` -/
def unref (s : State P) (i : Nat) : State P :=
  { s with ref := update s.ref i (s.ref i - 1) }

def halt (s : State P) (m : Panic) : State P := { s with halted := some m }

end State

/-- `nlink++` on a `short`. -/
def inc16 (n : Nat) : Nat := (n + 1) % 2 ^ 16

/-- `nlink--` on a `short`. -/
def dec16 (n : Nat) : Nat := (n + 2 ^ 16 - 1) % 2 ^ 16

/-- `nlink < 1` for a `short`: zero or negative. -/
def below1 (n : Nat) : Bool := decide (n = 0 ∨ 2 ^ 15 ≤ n)

/-- What is left open by the model: the inode `ialloc` finds, and whether `open` gets a file. -/
structure Choice where
  inum : Nat
  ok : Bool

/-- One command of process `p`, which goes on with `k`.  `n` is the number of inodes. -/
def stepCmd (n : Nat) (s : State P) (p : P) (o : Choice) :
    (c : Cmd) → (Ans c → K Unit) → Option (State P)
  | .iget i, k => some ((s.iget i).goto p (k ()))
  | .idupCwd, k =>
    match s.cwd p with
    | some i => some ((s.iget i).goto p (k i))
    | none => none
  | .ilock i, k =>
    if s.lock i = none then
      if s.valid i = false ∧ (s.node i).kind = .free then some (s.halt .ilockNoType)
      else
        some ({ s with lock := update s.lock i (some p)
                       valid := update s.valid i true }.goto p (k ()))
    else none
  | .kind i, k => some (s.goto p (k (s.node i).kind))
  | .iunlock i, k =>
    some ({ s with lock := update s.lock i none }.goto p (k ()))
  | .iputTest i, k =>
    if s.ref i = 1 ∧ s.valid i = true ∧ (s.node i).nlink = 0 then
      if s.lock i = none then
        some ({ s with lock := update s.lock i (some p) }.goto p (k true))
      else none
    else
      some ({ (s.unref i) with
        removing := if s.removing p = some i then update s.removing p none
          else s.removing }.goto p (k false))
  | .ifree i, k =>
    some ({ (s.set i { kind := .free, nlink := (s.node i).nlink, ents := [] }) with
      valid := update s.valid i false
      lock := update s.lock i none
      removing := if s.removing p = some i then update s.removing p none
        else s.removing }.goto p (k ()))
  | .iputDrop i, k => some ((s.unref i).goto p (k ()))
  | .dirlookup d name, k =>
    if (s.node d).kind = .dir then
      match lookup (s.node d).ents name with
      | some (i, off) => some ((s.iget i).goto p (k (some (i, off))))
      | none => some (s.goto p (k none))
    else some (s.halt .dirlookupNotDir)
  | .dirwrite d name i, k =>
    some ((s.set d { s.node d with ents := insert (s.node d).ents ⟨i, name⟩ }).goto p (k ()))
  | .direrase d off i, k =>
    some ({ (s.set d { s.node d with ents := (s.node d).ents.set off ⟨0, []⟩ }) with
      removing := if (s.node i).kind = Kind.dir then update s.removing p (some i)
        else s.removing }.goto p (k ()))
  | .isdirempty d, k => some (s.goto p (k (isEmpty (s.node d).ents)))
  | .nlinkBad i, k => some (s.goto p (k (below1 (s.node i).nlink)))
  | .nlinkInit i, k => some ((s.set i { s.node i with nlink := 1 }).goto p (k ()))
  | .nlinkInc i, k =>
    some ((s.set i { s.node i with nlink := inc16 (s.node i).nlink }).goto p (k ()))
  | .nlinkDec i, k =>
    some ((s.set i { s.node i with nlink := dec16 (s.node i).nlink }).goto p (k ()))
  | .ialloc t, k =>
    if 0 < o.inum ∧ o.inum < n ∧ (s.node o.inum).kind = .free then
      some ((s.set o.inum { kind := t, nlink := 0, ents := [] }).goto p (k o.inum))
    else none
  | .takeCwd, k =>
    match s.cwd p with
    | some i => some ({ s with cwd := update s.cwd p none }.goto p (k i))
    | none => none
  | .setCwd i, k =>
    match s.cwd p with
    | some j => some ({ s with cwd := update s.cwd p (some i) }.goto p (k j))
    | none => none
  | .openFile i, k =>
    if o.ok then
      some ({ s with files := i :: s.files
                     lock := update s.lock i none }.goto p (k true))
    else some (s.goto p (k false))
  | .takeFile j, k =>
    match s.files[j]? with
    | some i => some ({ s with files := s.files.eraseIdx j }.goto p (k (some i)))
    | none => some (s.goto p (k none))
  | .panic m, _ => some (s.halt m)

/-- The actions of the machine. -/
inductive Act (P : Type) where
  /-- A process makes a system call. -/
  | call (p : P) (c : Syscall)
  /-- The next command of a process. -/
  | run (p : P) (o : Choice)
  /-- `fork`: the new process has the same current directory. -/
  | fork (p q : P)

/-- One step. -/
def step (n : Nat) (s : State P) (a : Act P) : Option (State P) :=
  if s.halted ≠ none then none
  else
    match a with
    | .call p c =>
      match s.thread p, s.cwd p with
      | .idle, some _ => some (s.goto p c.code)
      | _, _ => none
    | .run p o =>
      match s.thread p with
      | .run (.cmd c k) => stepCmd n s p o c k
      | .run (.ret _) => some { s with thread := update s.thread p .idle }
      | .idle => none
    | .fork p q =>
      match s.cwd p, s.cwd q, s.thread p, s.thread q with
      | some i, none, .idle, .idle =>
        some { (s.iget i) with cwd := update s.cwd q (some i) }
      | _, _, _, _ => none

/-- The machine with `n` inodes, started with a file system that satisfies `image`.  Nobody has
anything open but processes with `/` as their current directory. -/
def machine (P : Type) [DecidableEq P] [Fintype P] (n : Nat) (image : (Nat → Node) → Prop) :
    System (State P) (Act P) where
  init := fun s => image s.node ∧
    (∀ p, s.cwd p = none ∨ s.cwd p = some rootIno) ∧
    (∀ i, s.ref i = if i = rootIno then count Option.isSome s.cwd else 0) ∧
    (∀ i, s.lock i = none) ∧ (∀ p, s.thread p = .idle) ∧ (∀ p, s.removing p = none) ∧
    s.files = [] ∧ s.halted = none
  step := step n

end Xv6.Dir
