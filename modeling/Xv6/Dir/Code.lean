import Xv6.Lib.Code
import Mathlib.Data.List.Basic

/-!
# System calls on directories: `kernel/sysfile.c` and the directory layer of `kernel/fs.c`

`mkdir`, `open`, `mknod`, `link`, `unlink`, `chdir`, `close` and `exit`, as code over the inode
layer.  A command is what happens under one lock, or to one inode that the caller has locked:
`dirlookup` reads a directory that stays locked, `ip->nlink++` is followed by `iupdate` before the
inode is unlocked, and so on.  What matters here is the kind of an inode, its link count and, for a
directory, its entries; an inode is known by its number.

`iput` is not one command.  When it frees the inode it gives `icache.lock` up in between, so it is
three: the test, `itrunc` and `iupdate` with the inode locked, and `ip->ref--`.
-/

namespace Xv6
namespace Dir

/-! ## Names and paths -/

/-- `DIRSIZ` -/
def dirsiz : Nat := 14

/-- A name in a directory entry: the characters before the first 0. -/
abbrev Name := List Char

/-- `"."` -/
def dot : Name := ['.']

/-- `".."` -/
def dotdot : Name := ['.', '.']

/-- `skipelem(path, name)`: the next element of the path, cut off after `DIRSIZ` characters, and the
rest of the path without leading slashes. -/
def skipelem (path : List Char) : Option (Name × List Char) :=
  match path.dropWhile (· = '/') with
  | [] => none
  | s => some ((s.takeWhile (· ≠ '/')).take dirsiz, (s.dropWhile (· ≠ '/')).dropWhile (· = '/'))

/-- The elements of a path; `fuel` is at least its length. -/
def elements : (fuel : Nat) → List Char → List Name
  | 0, _ => []
  | fuel + 1, path =>
    match skipelem path with
    | none => []
    | some (name, rest) => name :: elements fuel rest

/-! ## Inodes -/

/-- `type` of an inode: `free` is 0. -/
inductive Kind where
  | free
  | dir
  | file
  | dev
  deriving DecidableEq

/-- `struct dirent`; an entry with `inum` 0 is empty. -/
structure Ent where
  inum : Nat
  name : Name
  deriving DecidableEq

/-- What matters here of an inode.  `nlink` is a `short`, given by its 16 bits. -/
structure Node where
  kind : Kind
  nlink : Nat
  /-- The entries of a directory. -/
  ents : List Ent
  deriving DecidableEq

/-- `ROOTINO` -/
def rootIno : Nat := 1

/-- The search of `dirlookup`: the first entry with this name that is not empty, and where it is. -/
def lookupFrom (name : Name) : (off : Nat) → List Ent → Option (Nat × Nat)
  | _, [] => none
  | off, e :: es =>
    if e.inum ≠ 0 ∧ e.name = name then some (e.inum, off) else lookupFrom name (off + 1) es

/-- `dirlookup(dp, name, &off)` on the entries of `dp`. -/
def lookup (ents : List Ent) (name : Name) : Option (Nat × Nat) := lookupFrom name 0 ents

/-- The second half of `dirlink`: write an entry to the first empty place, or to the end. -/
def insert : List Ent → Ent → List Ent
  | [], e => [e]
  | x :: xs, e => if x.inum = 0 then e :: xs else x :: insert xs e

/-- `isdirempty(dp)`: nothing from the third entry on. -/
def isEmpty (ents : List Ent) : Bool := (ents.drop 2).all fun e => decide (e.inum = 0)

/-! ## Commands -/

/-- Panics of the functions modelled here. -/
inductive Panic where
  /-- `panic("ilock: no type")` -/
  | ilockNoType
  /-- `panic("dirlookup not DIR")` -/
  | dirlookupNotDir
  /-- `panic("unlink: nlink < 1")` -/
  | unlinkNlink
  /-- `panic("create dots")` -/
  | createDots
  /-- `panic("create: dirlink")` -/
  | createDirlink
  deriving DecidableEq

/-- The commands. -/
inductive Cmd where
  /-- `iget(dev, i)` -/
  | iget (i : Nat)
  /-- `idup(myproc()->cwd)` -/
  | idupCwd
  /-- `ilock(ip)` -/
  | ilock (i : Nat)
  /-- Read `ip->type`. -/
  | kind (i : Nat)
  /-- `iunlock(ip)` -/
  | iunlock (i : Nat)
  /-- The first locked section of `iput(ip)`.  It decides whether the inode is to be freed, and
  locks it then; otherwise it does `ip->ref--`. -/
  | iputTest (i : Nat)
  /-- `itrunc(ip); ip->type = 0; iupdate(ip); ip->valid = 0` and `releasesleep(&ip->lock)` in
  `iput(ip)`. -/
  | ifree (i : Nat)
  /-- `ip->ref--` in `iput(ip)` after the inode has been freed. -/
  | iputDrop (i : Nat)
  /-- `dirlookup(dp, name, &off)` -/
  | dirlookup (d : Nat) (name : Name)
  /-- The part of `dirlink(dp, name, inum)` that writes the entry. -/
  | dirwrite (d : Nat) (name : Name) (i : Nat)
  /-- `writei` of an empty entry over the one at `off`, which is that of `i`. -/
  | direrase (d off i : Nat)
  /-- `isdirempty(dp)` -/
  | isdirempty (d : Nat)
  /-- The test `ip->nlink < 1`. -/
  | nlinkBad (i : Nat)
  /-- `ip->nlink = 1; iupdate(ip)` -/
  | nlinkInit (i : Nat)
  /-- `ip->nlink++; iupdate(ip)` -/
  | nlinkInc (i : Nat)
  /-- `ip->nlink--; iupdate(ip)` -/
  | nlinkDec (i : Nat)
  /-- `ialloc(dev, type)`, before its `iget`. -/
  | ialloc (k : Kind)
  /-- `p->cwd = 0` in `exit`; it answers the old one, to be given back. -/
  | takeCwd
  /-- `p->cwd = ip` in `sys_chdir`; it answers the old one, to be given back.  The source does that
  first, but nobody else looks at `p->cwd`. -/
  | setCwd (i : Nat)
  /-- `filealloc` and `fdalloc`, and then `f->ip = ip` and `iunlock(ip)`; `false` if one of the
  first two fails, or if the device does not exist.  Nobody can see the file before the call
  returns. -/
  | openFile (i : Nat)
  /-- The last `fileclose` of an open file. -/
  | takeFile (k : Nat)
  /-- `panic` -/
  | panic (m : Panic)

/-- What a command answers. -/
abbrev Ans : Cmd → Type
  | .idupCwd | .ialloc _ | .takeCwd | .setCwd _ => Nat
  | .kind _ => Kind
  | .iputTest _ | .isdirempty _ | .nlinkBad _ | .openFile _ => Bool
  | .dirlookup .. => Option (Nat × Nat)
  | .takeFile _ => Option Nat
  | .panic _ => Empty
  | _ => Unit

/-- Code of a system call. -/
abbrev K (α : Type) := Code Cmd Ans α

def iget (i : Nat) : K Unit := Code.call (Cmd.iget i)
def idupCwd : K Nat := Code.call Cmd.idupCwd
def ilock (i : Nat) : K Unit := Code.call (Cmd.ilock i)
def kind (i : Nat) : K Kind := Code.call (Cmd.kind i)
def iunlock (i : Nat) : K Unit := Code.call (Cmd.iunlock i)
def iputTest (i : Nat) : K Bool := Code.call (Cmd.iputTest i)
def ifree (i : Nat) : K Unit := Code.call (Cmd.ifree i)
def iputDrop (i : Nat) : K Unit := Code.call (Cmd.iputDrop i)
def dirlookup (d : Nat) (name : Name) : K (Option (Nat × Nat)) := Code.call (Cmd.dirlookup d name)
def dirwrite (d : Nat) (name : Name) (i : Nat) : K Unit := Code.call (Cmd.dirwrite d name i)
def direrase (d off i : Nat) : K Unit := Code.call (Cmd.direrase d off i)
def isdirempty (d : Nat) : K Bool := Code.call (Cmd.isdirempty d)
def nlinkBad (i : Nat) : K Bool := Code.call (Cmd.nlinkBad i)
def nlinkInit (i : Nat) : K Unit := Code.call (Cmd.nlinkInit i)
def nlinkInc (i : Nat) : K Unit := Code.call (Cmd.nlinkInc i)
def nlinkDec (i : Nat) : K Unit := Code.call (Cmd.nlinkDec i)
def ialloc (k : Kind) : K Nat := Code.call (Cmd.ialloc k)
def takeCwd : K Nat := Code.call Cmd.takeCwd
def setCwd (i : Nat) : K Nat := Code.call (Cmd.setCwd i)
def openFile (i : Nat) : K Bool := Code.call (Cmd.openFile i)
def takeFile (k : Nat) : K (Option Nat) := Code.call (Cmd.takeFile k)

/-- `panic(m)` does not return. -/
def panic {α : Type} (m : Panic) : K α := .cmd (.panic m) fun e => e.elim

/-- Go on if the call succeeded. -/
def orPanic (ok : Bool) (m : Panic) : K Unit := if ok then pure () else panic m

/-! ## The inode and directory layers -/

/-- `iput(ip)` -/
def iput (i : Nat) : K Unit := do
  let free ← iputTest i
  if free then
    ifree i
    iputDrop i

/-- `iunlockput(ip)` -/
def iunlockput (i : Nat) : K Unit := do
  iunlock i
  iput i

/-- `dirlink(dp, name, inum)`; `false` is -1. -/
def dirlink (d : Nat) (name : Name) (i : Nat) : K Bool := do
  match ← dirlookup d name with
  | some (ip, _) =>
    iput ip
    pure false
  | none =>
    dirwrite d name i
    pure true

/-- The loop of `namex`, from the inode `ip` on. -/
def namexFrom (nameiparent : Bool) : (ip : Nat) → List Name → K (Option (Nat × Name))
  | ip, [] =>
    if nameiparent then do
      iput ip
      pure none
    else pure (some (ip, []))
  | ip, name :: rest => do
    ilock ip
    let type ← kind ip
    if type ≠ .dir then
      iunlockput ip
      pure none
    else if nameiparent && rest.isEmpty then
      -- stop one level early
      iunlock ip
      pure (some (ip, name))
    else
      match ← dirlookup ip name with
      | none =>
        iunlockput ip
        pure none
      | some (next, _) =>
        iunlockput ip
        namexFrom nameiparent next rest

/-- `namex(path, nameiparent, name)` -/
def namex (nameiparent : Bool) (path : List Char) : K (Option (Nat × Name)) := do
  let ip ←
    if path.head? = some '/' then do
      iget rootIno
      pure rootIno
    else idupCwd
  namexFrom nameiparent ip (elements path.length path)

/-- `namei(path)` -/
def namei (path : List Char) : K (Option Nat) := do
  let r ← namex false path
  pure (r.map Prod.fst)

/-! ## System calls -/

/-- Create the entries `.` and `..` of a new directory. -/
def createDots (dp ip : Nat) : K Unit := do
  nlinkInc dp
  let ok ← dirlink ip dot ip
  orPanic ok .createDots
  let ok ← dirlink ip dotdot dp
  orPanic ok .createDots

/-- The part of `create` that makes a new inode `ip` and enters it into `dp`, which is locked. -/
def createNew (dp : Nat) (name : Name) (type : Kind) : K Nat := do
  let ip ← ialloc type
  iget ip
  ilock ip
  nlinkInit ip
  if type = .dir then createDots dp ip else pure ()
  let ok ← dirlink dp name ip
  orPanic ok .createDirlink
  iunlockput dp
  pure ip

/-- `create(path, type, major, minor)`: the inode is locked when it returns. -/
def create (path : List Char) (type : Kind) : K (Option Nat) := do
  match ← namex true path with
  | none => pure none
  | some (dp, name) =>
    ilock dp
    match ← dirlookup dp name with
    | some (ip, _) =>
      iunlockput dp
      ilock ip
      let t ← kind ip
      if type = .file ∧ (t = .file ∨ t = .dev) then pure (some ip)
      else
        iunlockput ip
        pure none
    | none =>
      let ip ← createNew dp name type
      pure (some ip)

/-- The end of `sys_open`, with the inode locked. -/
def openLocked (ip : Nat) : K Unit := do
  let ok ← openFile ip
  if ok then pure () else iunlockput ip

/-- `sys_open(path, omode)`: with `O_CREATE` or without, and then `omode` is `O_RDONLY` or not. -/
def sysOpen (path : List Char) (creat rdonly : Bool) : K Unit := do
  if creat then
    match ← create path .file with
    | none => pure ()
    | some ip => openLocked ip
  else
    match ← namei path with
    | none => pure ()
    | some ip =>
      ilock ip
      let t ← kind ip
      if t = .dir ∧ rdonly = false then iunlockput ip else openLocked ip

/-- `sys_mkdir(path)` and `sys_mknod(path, major, minor)` -/
def sysMake (path : List Char) (type : Kind) : K Unit := do
  match ← create path type with
  | none => pure ()
  | some ip => iunlockput ip

/-- The label `bad` of `sys_link`. -/
def linkBad (ip : Nat) : K Unit := do
  ilock ip
  nlinkDec ip
  iunlockput ip

/-- `sys_link(old, new)` -/
def sysLink (old new : List Char) : K Unit := do
  match ← namei old with
  | none => pure ()
  | some ip =>
    ilock ip
    let t ← kind ip
    if t = .dir then iunlockput ip
    else
      nlinkInc ip
      iunlock ip
      match ← namex true new with
      | none => linkBad ip
      | some (dp, name) =>
        ilock dp
        let ok ← dirlink dp name ip
        iunlockput dp
        if ok then iput ip else linkBad ip

/-- `sys_unlink` from where the entry is erased: `ip` at `off` in `dp`, both locked. -/
def unlinkErase (dp off ip : Nat) (t : Kind) : K Unit := do
  direrase dp off ip
  if t = .dir then nlinkDec dp else pure ()
  iunlockput dp
  nlinkDec ip
  iunlockput ip

/-- `sys_unlink(path)` -/
def sysUnlink (path : List Char) : K Unit := do
  match ← namex true path with
  | none => pure ()
  | some (dp, name) =>
    ilock dp
    if name = dot ∨ name = dotdot then iunlockput dp
    else
      match ← dirlookup dp name with
      | none => iunlockput dp
      | some (ip, off) =>
        ilock ip
        let low ← nlinkBad ip
        if low then panic .unlinkNlink
        else
          let t ← kind ip
          let busy ← if t = .dir then (do let e ← isdirempty ip; pure !e) else pure false
          if busy then
            iunlockput ip
            iunlockput dp
          else unlinkErase dp off ip t

/-- `sys_chdir(path)` -/
def sysChdir (path : List Char) : K Unit := do
  match ← namei path with
  | none => pure ()
  | some ip =>
    ilock ip
    let t ← kind ip
    if t ≠ .dir then iunlockput ip
    else
      iunlock ip
      let cwd ← setCwd ip
      iput cwd

/-- `sys_close` of the `k`-th open file, when nobody else has it open. -/
def sysClose (k : Nat) : K Unit := do
  match ← takeFile k with
  | none => pure ()
  | some ip => iput ip

/-- The part of `exit` that gives `p->cwd` back. -/
def sysExit : K Unit := do
  let cwd ← takeCwd
  iput cwd

/-- The system calls. -/
inductive Syscall where
  | open (path : List Char) (creat rdonly : Bool)
  | mkdir (path : List Char)
  | mknod (path : List Char)
  | link (old new : List Char)
  | unlink (path : List Char)
  | chdir (path : List Char)
  | close (k : Nat)
  | exit

/-- The code of a system call. -/
def Syscall.code : Syscall → K Unit
  | .open path creat rdonly => sysOpen path creat rdonly
  | .mkdir path => sysMake path .dir
  | .mknod path => sysMake path .dev
  | .link old new => sysLink old new
  | .unlink path => sysUnlink path
  | .chdir path => sysChdir path
  | .close k => sysClose k
  | .exit => sysExit

end Dir
end Xv6
