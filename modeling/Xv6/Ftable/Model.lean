import Mathlib.Algebra.Ring.Int.Defs
import Xv6.Lib.Account

/-!
# The table of open files

`ftable` (file.c) holds the open files of all processes, and `p->ofile` those of one: a file is
shared by every descriptor that points at it, and `f->ref` counts them.  `open`, `pipe`, `dup`,
`close`, `fork` and `exit` take and give back references, and what a file stands for, an inode or
one end of a pipe, is released when its count gets to 0.

Every section of code under `ftable.lock` or under the lock of a pipe is one step here, and so is
every access to `p->ofile` and the filling of a file that is new.  In between all processes go on.
The state also has `books`, which the code does not: there each process writes down what it has
taken and not given back.  No step reads them.
-/

namespace Xv6.Ftable

open Account
open Function (update)

/-! ## The state -/

/-- `NOFILE`, `NFILE` (param.h) -/
def nofile : Nat := 16
def nfile : Nat := 100

/-- `NDEV` (param.h) -/
def ndev : Int := 10

/-- A descriptor of a process. -/
abbrev Fd := Fin nofile

/-- A `struct file *`. -/
abbrev F := Fin nfile

/-- `f->type` -/
inductive FdType where
  | none | pipe | inode | device
deriving DecidableEq

/-- `struct file`, without what `read` and `write` use; pipes are addresses and inodes are numbers.
-/
structure File where
  type : FdType
  ref : Nat
  readable : Bool
  writable : Bool
  pipe : Nat
  ip : Nat
deriving DecidableEq

/-- `struct pipe`, without its data. -/
structure Pipe where
  readopen : Bool
  writeopen : Bool
deriving DecidableEq

/-- What a process is. `embryo` is a process that `fork` is still making: it is `UNUSED` in the
code, but its lock is held. -/
inductive Life where
  | unused | embryo | alive | zombie
deriving DecidableEq

/-- What must not happen: the two panics, and giving back what is not there any more. -/
inductive Fault where
  | filedup | fileclose | iput | pipeclose | kfree
deriving DecidableEq

/-- What a process has taken and not given back yet: references to files, which are negative while
there is a descriptor that nobody has counted yet; references to inodes; ends of pipes; pages to be
freed; and the files it has allocated and not filled yet. -/
@[ext] structure Books where
  files : F → ℤ
  inodes : Nat → ℤ
  ends : Nat × Bool → ℤ
  pages : Nat → ℤ
  fresh : F → Bool

/-- Nothing taken. -/
def Books.clear : Books := ⟨0, 0, 0, 0, fun _ => false⟩

/-- `iref` counts the references to inodes that open files and calls of `open` have; a page that is
not a pipe has no `pipe`. -/
structure State (P : Type) where
  file : F → File
  ofile : P → Fd → Option F
  life : P → Life
  child : P → Option P
  iref : Nat → Nat
  pipe : Nat → Option Pipe
  fault : Option Fault
  books : P → Books

/-! ## The commands -/

/-- `ip->type` -/
inductive IType where
  | dir | file | device
deriving DecidableEq

/-- What `sys_open` reads of the inode it has found. -/
structure Found where
  inum : Nat
  type : IType
  major : Int

/-- The atomic steps.

* `ofile` reads `p->ofile[fd]`, `clear` sets it to 0, and `fdalloc` is the function of that name.
* `filealloc` and `filedup` are whole functions; `closeRef` is `fileclose` up to its `release`, and
  answers the copy `ff` if that was the last reference.
* `setPipe` and `setInode` fill a new file.
* `lookup` is `create`, or `namei` and `ilock`; `iput` gives the inode back.
* `kalloc` also sets up the pipe; `closeEnd` is `pipeclose` up to its `release`, and answers whether
  both ends are closed; `kfree` frees the page.
* `copyout` and `uvmcopy` only answer whether they could.
* `allocproc`, `freeproc`, `childOfile` and `runnable` are those of `fork`, `zombie` is the end of
  `exit`, and `reap` is `wait` when it has found a zombie. -/
inductive Cmd (P : Type) where
  | ofile (fd : Fd)
  | clear (fd : Fd)
  | fdalloc (f : F)
  | filealloc
  | filedup (f : F)
  | closeRef (f : F)
  | setPipe (f : F) (pi : Nat) (writable : Bool)
  | setInode (f : F) (device : Bool) (ip : Nat) (readable writable : Bool)
  | lookup
  | iput (ip : Nat)
  | kalloc
  | closeEnd (pi : Nat) (writable : Bool)
  | kfree (pi : Nat)
  | copyout
  | uvmcopy
  | allocproc
  | freeproc (np : P)
  | childOfile (np : P) (fd : Fd) (f : F)
  | runnable (np : P)
  | zombie
  | reap

/-- What a command answers. -/
abbrev Cmd.Ans {P : Type} : Cmd P → Type
  | .ofile _ => Option F
  | .fdalloc _ => Option Fd
  | .filealloc => Option F
  | .closeRef _ => Option File
  | .lookup => Option Found
  | .kalloc => Option Nat
  | .closeEnd _ _ => Bool
  | .copyout | .uvmcopy => Bool
  | .allocproc => Option P
  | _ => Unit

/-- The code of the file layer. -/
abbrev K (P : Type) := Code (Cmd P) Cmd.Ans

variable {P : Type}

/-- Issue a command. -/
abbrev Cmd.run (c : Cmd P) : K P c.Ans := Code.call c

/-! ## file.c and pipe.c -/

/-- `pipeclose` -/
def pipeclose (pi : Nat) (writable : Bool) : K P Unit := do
  if ← (Cmd.closeEnd pi writable).run then
    (Cmd.kfree pi).run

/-- The end of `fileclose`, after the last reference has gone. -/
def closeLast (ff : File) : K P Unit :=
  match ff.type with
  | .pipe => pipeclose ff.pipe ff.writable
  | .inode => (Cmd.iput ff.ip).run
  | .device => (Cmd.iput ff.ip).run
  | .none => pure ()

/-- `fileclose` -/
def fileclose (f : F) : K P Unit := do
  match ← (Cmd.closeRef f).run with
  | none => pure ()
  | some ff => closeLast ff

/-- The failing end of `pipealloc`. -/
def pipeallocBad (pi : Option Nat) (f₀ f₁ : Option F) : K P (Option (F × F)) := do
  match pi with
  | some pi => (Cmd.kfree pi).run
  | none => pure ()
  match f₀ with
  | some f => fileclose f
  | none => pure ()
  match f₁ with
  | some f => fileclose f
  | none => pure ()
  pure none

/-- `pipealloc` -/
def pipealloc : K P (Option (F × F)) := do
  match ← Cmd.filealloc.run with
  | none => pipeallocBad none none none
  | some f₀ =>
    match ← Cmd.filealloc.run with
    | none => pipeallocBad none (some f₀) none
    | some f₁ =>
      match ← Cmd.kalloc.run with
      | none => pipeallocBad none (some f₀) (some f₁)
      | some pi =>
        (Cmd.setPipe f₀ pi false).run
        (Cmd.setPipe f₁ pi true).run
        pure (some (f₀, f₁))

/-! ## sysfile.c and proc.c -/

/-- `argfd` -/
def argfd (fd : Int) : K P (Option (Fd × F)) :=
  if h : 0 ≤ fd ∧ fd < nofile then do
    let fd : Fd := ⟨fd.toNat, by omega⟩
    match ← (Cmd.ofile fd).run with
    | some f => pure (some (fd, f))
    | none => pure none
  else pure none

/-- `sys_dup`: the descriptor is there before the reference is counted. -/
def sysDup (fd : Int) : K P Int := do
  match ← argfd fd with
  | none => pure (-1)
  | some (_, f) =>
    match ← (Cmd.fdalloc f).run with
    | none => pure (-1)
    | some fd =>
      (Cmd.filedup f).run
      pure fd.val

/-- `sys_close` -/
def sysClose (fd : Int) : K P Int := do
  match ← argfd fd with
  | none => pure (-1)
  | some (fd, f) =>
    (Cmd.clear fd).run
    fileclose f
    pure 0

/-- The bits of `omode` (fcntl.h). -/
structure Omode where
  wronly : Bool
  rdwr : Bool
  create : Bool
  trunc : Bool
deriving DecidableEq

/-- `O_RDONLY` -/
def Omode.rdonly : Omode := ⟨false, false, false, false⟩

/-- `sys_open` -/
def sysOpen (omode : Omode) : K P Int := do
  match ← Cmd.lookup.run with
  | none => pure (-1)
  | some ip =>
    if !omode.create ∧ ip.type = .dir ∧ omode ≠ .rdonly then do
      (Cmd.iput ip.inum).run
      pure (-1)
    else if ip.type = .device ∧ (ip.major < 0 ∨ ip.major ≥ ndev) then do
      (Cmd.iput ip.inum).run
      pure (-1)
    else
      match ← Cmd.filealloc.run with
      | none =>
        (Cmd.iput ip.inum).run
        pure (-1)
      | some f =>
        match ← (Cmd.fdalloc f).run with
        | none =>
          fileclose f
          (Cmd.iput ip.inum).run
          pure (-1)
        | some fd =>
          (Cmd.setInode f (ip.type = .device) ip.inum (!omode.wronly)
            (omode.wronly || omode.rdwr)).run
          pure fd.val

/-- `sys_pipe`, when it fails: the descriptors it has got are cleared, and both files closed. -/
def sysPipeBad (fd₀ fd₁ : Option Fd) (rf wf : F) : K P Int := do
  match fd₀ with
  | some fd => (Cmd.clear fd).run
  | none => pure ()
  match fd₁ with
  | some fd => (Cmd.clear fd).run
  | none => pure ()
  fileclose rf
  fileclose wf
  pure (-1)

/-- `sys_pipe`; the second `copyout` is only made if the first one succeeds. -/
def sysPipe : K P Int := do
  match ← pipealloc with
  | none => pure (-1)
  | some (rf, wf) =>
    match ← (Cmd.fdalloc rf).run with
    | none => sysPipeBad none none rf wf
    | some fd₀ =>
      match ← (Cmd.fdalloc wf).run with
      | none => sysPipeBad (some fd₀) none rf wf
      | some fd₁ =>
        if ← Cmd.copyout.run then
          if ← Cmd.copyout.run then
            return 0
        sysPipeBad (some fd₀) (some fd₁) rf wf

/-- The loop of `fork` over the open files. -/
def forkFiles (np : P) : List Fd → K P Unit
  | [] => pure ()
  | fd :: fds => do
    match ← (Cmd.ofile fd).run with
    | some f =>
      (Cmd.filedup f).run
      (Cmd.childOfile np fd f).run
    | none => pure ()
    forkFiles np fds

/-- `fork` -/
def fork : K P Unit := do
  match ← Cmd.allocproc.run with
  | none => pure ()
  | some np =>
    if ← Cmd.uvmcopy.run then
      forkFiles np (List.finRange nofile)
      (Cmd.runnable np).run
    else
      (Cmd.freeproc np).run

/-- The loop of `exit` over the open files: each is closed before its descriptor is cleared. -/
def exitFiles : List Fd → K P Unit
  | [] => pure ()
  | fd :: fds => do
    match ← (Cmd.ofile fd).run with
    | some f =>
      fileclose f
      (Cmd.clear fd).run
    | none => pure ()
    exitFiles fds

/-- `exit` -/
def exit : K P Unit := do
  exitFiles (List.finRange nofile)
  Cmd.zombie.run

/-! ## The machine -/

/-- The system calls. -/
inductive Call where
  | dup (fd : Int)
  | close (fd : Int)
  | open (omode : Omode)
  | pipe
  | fork
  | exit
  | wait

/-- The code of a system call. -/
def Call.body : Call → K P Unit
  | .dup fd => do let _ ← sysDup fd
  | .close fd => do let _ ← sysClose fd
  | .open omode => do let _ ← sysOpen omode
  | .pipe => do let _ ← sysPipe
  | .fork => Ftable.fork
  | .exit => Ftable.exit
  | .wait => Cmd.reap.run

/-- What the steps leave open: the inode that a path names, a free page, a process, and whether a
copy succeeds. -/
structure Choice (P : Type) where
  ip : Option Found
  page : Option Nat
  proc : Option P
  ok : Bool

/-- Whether this end of the pipe is open. -/
def Pipe.isOpen (x : Pipe) (writable : Bool) : Bool := if writable then x.writeopen else x.readopen

/-- `pi->writeopen = 0`, or `pi->readopen = 0` -/
def Pipe.close (x : Pipe) (writable : Bool) : Pipe :=
  if writable then { x with writeopen := false } else { x with readopen := false }

/-! ### The books -/

@[simps -fullyApplied] def Books.addFile (b : Books) (f : F) (n : ℤ) : Books :=
  { b with files := bump b.files f n }

@[simps -fullyApplied] def Books.addInode (b : Books) (ip : Nat) (n : ℤ) : Books :=
  { b with inodes := bump b.inodes ip n }

@[simps -fullyApplied] def Books.addEnd (b : Books) (e : Nat × Bool) (n : ℤ) : Books :=
  { b with ends := bump b.ends e n }

@[simps -fullyApplied] def Books.addPage (b : Books) (pi : Nat) (n : ℤ) : Books :=
  { b with pages := bump b.pages pi n }

@[simps -fullyApplied] def Books.setFresh (b : Books) (f : F) (x : Bool) : Books :=
  { b with fresh := update b.fresh f x }

/-- What a file gives back when its last reference goes. -/
def Books.release (b : Books) (ff : File) : Books :=
  match ff.type with
  | .pipe => b.addEnd (ff.pipe, ff.writable) 1
  | .inode => b.addInode ff.ip 1
  | .device => b.addInode ff.ip 1
  | .none => b

section Act

variable [DecidableEq P]

/-- Other books for `p`. -/
@[simps -fullyApplied] def State.note (s : State P) (p : P) (b : Books) : State P :=
  { s with books := update s.books p b }

/-- Another file. -/
@[simps -fullyApplied] def State.setFile (s : State P) (f : F) (x : File) : State P :=
  { s with file := update s.file f x }

/-- `p->ofile[fd] = f` -/
@[simps -fullyApplied] def State.setOfile (s : State P) (p : P) (fd : Fd) (f : Option F) :
    State P :=
  { s with ofile := update s.ofile p (update (s.ofile p) fd f) }

/-- What a command of `p` does.  A command that cannot be carried out in this way is a `fault`. -/
def effect (p : P) : (c : Cmd P) → Choice P → State P → Option (c.Ans × State P)
  | .ofile fd, _, s => some (s.ofile p fd, s)
  | .clear fd, _, s =>
    let b := s.books p
    match s.ofile p fd with
    | some f => some ((), (s.setOfile p fd none).note p (b.addFile f 1))
    | none => some ((), s)
  | .fdalloc f, _, s =>
    let b := s.books p
    match (List.finRange nofile).find? fun fd => s.ofile p fd = none with
    | some fd =>
      some (some fd, (s.setOfile p fd (some f)).note p (b.addFile f (-1)))
    | none => some (none, s)
  | .filealloc, _, s =>
    let b := s.books p
    match (List.finRange nfile).find? fun f => (s.file f).ref = 0 with
    | some f =>
      some (some f, (s.setFile f { s.file f with ref := 1 }).note p
        ((b.addFile f 1).setFresh f true))
    | none => some (none, s)
  | .filedup f, _, s =>
    let b := s.books p
    if (s.file f).ref < 1 then some ((), { s with fault := some .filedup })
    else some ((), (s.setFile f { s.file f with ref := (s.file f).ref + 1 }).note p
      (b.addFile f 1))
  | .closeRef f, _, s =>
    let b := s.books p
    let b' := (b.addFile f (-1)).setFresh f false
    if (s.file f).ref < 1 then some (none, { s with fault := some .fileclose })
    else if 0 < (s.file f).ref - 1 then
      some (none, (s.setFile f { s.file f with ref := (s.file f).ref - 1 }).note p b')
    else
      some (some (s.file f), (s.setFile f { s.file f with ref := 0, type := .none }).note p
        (b'.release (s.file f)))
  | .setPipe f pi writable, _, s =>
    let b := s.books p
    some ((), (s.setFile f
        { s.file f with
          type := .pipe, readable := !writable, writable := writable, pipe := pi }).note p
      ((b.addEnd (pi, writable) (-1)).setFresh f false))
  | .setInode f device ip readable writable, _, s =>
    let b := s.books p
    some ((), (s.setFile f
        { s.file f with
          type := if device then .device else .inode
          ip := ip
          readable := readable
          writable := writable }).note p
      ((b.addInode ip (-1)).setFresh f false))
  | .lookup, o, s =>
    let b := s.books p
    match o.ip with
    | some ip =>
      some (some ip, ({ s with iref := update s.iref ip.inum (s.iref ip.inum + 1) }).note p
        (b.addInode ip.inum 1))
    | none => some (none, s)
  | .iput ip, _, s =>
    let b := s.books p
    if s.iref ip < 1 then some ((), { s with fault := some .iput })
    else some ((), ({ s with iref := update s.iref ip (s.iref ip - 1) }).note p
      (b.addInode ip (-1)))
  | .kalloc, o, s =>
    let b := s.books p
    match o.page with
    | some a =>
      if s.pipe a = none then
        some (some a, ({ s with pipe := update s.pipe a (some ⟨true, true⟩) }).note p
          ((b.addEnd (a, false) 1).addEnd (a, true) 1))
      else none
    | none => some (none, s)
  | .closeEnd pi writable, _, s =>
    let b := s.books p
    let b' := b.addEnd (pi, writable) (-1)
    match s.pipe pi with
    | some x =>
      if x.isOpen writable then
        let x := x.close writable
        let s := { s with pipe := update s.pipe pi (some x) }
        if !x.readopen && !x.writeopen then
          some (true, s.note p (b'.addPage pi 1))
        else some (false, s.note p b')
      else some (false, { s with fault := some .pipeclose })
    | none => some (false, { s with fault := some .pipeclose })
  | .kfree pi, _, s =>
    let b := s.books p
    if s.pipe pi = none then some ((), { s with fault := some .kfree })
    else some ((), ({ s with pipe := update s.pipe pi none }).note p
      (b.addPage pi (-1)))
  | .copyout, o, s => some (o.ok, s)
  | .uvmcopy, o, s => some (o.ok, s)
  | .allocproc, o, s =>
    match o.proc with
    | some np =>
      if s.life np = .unused then
        some (some np, { s with
          life := update s.life np .embryo, child := update s.child p (some np) })
      else none
    | none => some (none, s)
  | .freeproc np, _, s =>
    some ((), { s with
      life := update s.life np .unused, child := update s.child p none })
  | .childOfile np fd f, _, s =>
    let b := s.books p
    some ((), (s.setOfile np fd (some f)).note p (b.addFile f (-1)))
  | .runnable np, _, s =>
    some ((), { s with
      life := update s.life np .alive, child := update s.child p none })
  | .zombie, _, s => some ((), { s with life := update s.life p .zombie })
  | .reap, o, s =>
    match o.proc with
    | some np =>
      if s.life np = .zombie then some ((), { s with life := update s.life np .unused })
      else none
    | none => some ((), s)

/-- A fault stops the machine. -/
def act (p : P) (c : Cmd P) (o : Choice P) (s : State P) : Option (c.Ans × State P) :=
  if s.fault = none then effect p c o s else none

/-- Processes that share the table of open files. -/
def machine (P : Type) [DecidableEq P] :
    Account.Machine P (State P) (Cmd P) Cmd.Ans (Choice P) Call where
  act := act
  body := Call.body
  ready := fun s p => s.life p = .alive

/-- The first process, with no file open. -/
def boot (p₀ : P) : State P where
  file := fun _ => ⟨.none, 0, false, false, 0, 0⟩
  ofile := fun _ _ => none
  life := fun p => if p = p₀ then .alive else .unused
  child := fun _ => none
  iref := fun _ => 0
  pipe := fun _ => none
  fault := none
  books := fun _ => .clear

end Act

end Xv6.Ftable
