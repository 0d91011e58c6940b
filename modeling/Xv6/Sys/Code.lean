import Xv6.Ftable.Model
import Xv6.Fs.Paths

/-!
# The system calls on path names

`sys_link`, `sys_unlink`, `sys_open`, `sys_mkdir`, `sys_mknod` and `sys_chdir` (sysfile.c), as code
over the buffer cache and with nobody else around.  What the calls use besides the disk is in `Mem`:
the current directory and the descriptors of the process, the table of open files, and how many
references there are to each inode while no call is running.

* A path is `none` if `argstr` fails.
* `ilock` reads the inode from the disk, with which the copy in memory agrees; what a call then does
  to the copy it passes on.
* `dp->dev != ip->dev` is never true: there is one device.
* `begin_op` and `end_op` do nothing that the caller could see.

`Xv6.Dir.Code` has these calls again, for many processes and with nodes in place of blocks.
-/

namespace Xv6.Sys

open Bio Fs
open Function (update)

/-! ## Memory -/

/-- `T_DEVICE` -/
def tDevice : Nat := 3

/-- `O_WRONLY`, `O_RDWR`, `O_CREATE` and `O_TRUNC` (fcntl.h), as bits of `omode`. -/
def oWronly (omode : Nat) : Bool := omode.testBit 0
def oRdwr (omode : Nat) : Bool := omode.testBit 1
def oCreate (omode : Nat) : Bool := omode.testBit 9
def oTrunc (omode : Nat) : Bool := omode.testBit 10

/-- `struct file`, without pipes; `ip` is the number of the inode. -/
structure File where
  type : Ftable.FdType
  ref : Nat
  readable : Bool
  writable : Bool
  ip : Nat
  off : Nat
  major : Nat

/-- What a system call uses besides the disk. -/
structure Mem where
  /-- `p->cwd` -/
  cwd : Nat
  /-- `p->ofile` -/
  ofile : Ftable.Fd → Option Ftable.F
  /-- `ftable.file` -/
  file : Ftable.F → File
  /-- `ip->ref`, while no call is running. -/
  iref : Nat → Nat
  /-- A file that is not in use has been closed, or never opened. -/
  free : ∀ f, (file f).ref = 0 → (file f).type = .none

/-- `filealloc()`, up to the store to `f->ref`. -/
def Mem.filealloc (x : Mem) : Option Ftable.F :=
  (List.finRange Ftable.nfile).find? fun f => (x.file f).ref = 0

/-- `fdalloc(f)`, up to the store to `p->ofile[fd]`. -/
def Mem.fdalloc (x : Mem) : Option Ftable.Fd :=
  (List.finRange Ftable.nofile).find? fun fd => (x.ofile fd).isNone

/-- `filealloc()` has set `f->ref`. -/
def Mem.take (x : Mem) (f : Ftable.F) : Mem where
  __ := x
  file := update x.file f { x.file f with ref := 1 }
  free := by
    intro g hg
    rw [Function.update_apply] at hg ⊢
    split
    · rename_i h
      simp [if_pos h] at hg
    · rename_i h
      rw [if_neg h] at hg
      exact x.free g hg

/-- `fileclose(f)` of a file that `filealloc` has just returned: its type is still `FD_NONE`, so it
is nothing but a free file again. -/
def Mem.close (x : Mem) (f : Ftable.F) : Mem where
  __ := x
  file := update x.file f { x.file f with ref := 0, type := .none }
  free := by
    intro g hg
    rw [Function.update_apply] at hg ⊢
    split
    · rfl
    · rename_i h
      rw [if_neg h] at hg
      exact x.free g hg

/-- The stores to a new file at the end of `sys_open`, and the reference to the inode that it keeps.
-/
def Mem.fill (x : Mem) (fd : Ftable.Fd) (f : Ftable.F) (ip : Inode) (omode : Nat) : Mem where
  cwd := x.cwd
  ofile := update x.ofile fd (some f)
  file := update x.file f { x.file f with
    ref := 1
    type := if ip.type = tDevice then .device else .inode
    major := if ip.type = tDevice then ip.major else (x.file f).major
    off := if ip.type = tDevice then (x.file f).off else 0
    ip := ip.inum
    readable := !oWronly omode
    writable := oWronly omode || oRdwr omode }
  iref := hold x.iref ip.inum
  free := by
    intro g hg
    rw [Function.update_apply] at hg ⊢
    split
    · rename_i h
      simp [if_pos h] at hg
    · rename_i h
      rw [if_neg h] at hg
      exact x.free g hg

/-- `p->cwd = ip`, where the reference to the old directory has been dropped. -/
def Mem.setCwd (x : Mem) (i : Nat) : Mem :=
  { x with cwd := i, iref := hold (update x.iref x.cwd (x.iref x.cwd - 1)) i }

/-! ## The calls -/

section

variable {H : Type}

/-- `ip->nlink++` and `ip->nlink--` -/
def incr (ip : Inode) : Inode := ip.setMeta ip.major ip.minor (ip.nlink + 1)
def decr (ip : Inode) : Inode := ip.setMeta ip.major ip.minor (ip.nlink + (2 ^ 16 - 1))

/-- `iput(ip)` of an inode that has been locked before, so that `ip->valid` is 1. -/
def iput (sb : Superblock) (others : Nat → Nat) (ip : Inode) : K H Unit := iunlockput sb others ip

/-- What `sys_link` does after `ip->nlink++`, up to the label `bad`; `false` is a jump to it. -/
def linkInto (sb : Superblock) (x : Mem) (ip : Inode) (new : List UInt8) : K H Bool := do
  match ← nameiparent sb (hold x.iref ip.inum) x.cwd new with
  | none => pure false
  | some (d, name) =>
    let dp ← ilockRead sb d
    let (ok, dp) ← dirlink sb dp name ip.inum
    iunlockput sb (hold x.iref ip.inum) dp
    pure ok

/-- `sys_link` -/
def sysLink (sb : Superblock) (x : Mem) (old new : List UInt8) : K H Int := do
  match ← namei sb x.iref x.cwd old with
  | none => pure (-1)
  | some i =>
    let ip ← ilockRead sb i
    if ip.type = tDir then
      iunlockput sb x.iref ip
      pure (-1)
    else
      iupdate sb (incr ip)
      if ← linkInto sb x (incr ip) new then
        iput sb x.iref (incr ip)
        pure 0
      else
        -- bad:
        let ip ← ilockRead sb i
        iupdate sb (decr ip)
        iunlockput sb x.iref (decr ip)
        pure (-1)

/-- A directory may be removed if it is empty, and everything else may be removed. -/
def removable (sb : Superblock) (ip : Inode) : K H (Bool × Inode) :=
  if ip.type = tDir then isdirempty sb ip else pure (true, ip)

/-- With a directory the link of its `..` goes away. -/
def dropDotdot (sb : Superblock) (dp ip : Inode) : K H Inode :=
  if ip.type = tDir then do
    iupdate sb (decr dp)
    pure (decr dp)
  else pure dp

/-- What `sys_unlink` does with the entry for `ip` at `off` of `dp`. -/
def removeEntry (sb : Superblock) (x : Mem) (dp ip : Inode) (off : Nat) : K H Int := do
  let (r, dp) ← writei sb dp (.kernel (List.replicate direntSize 0)) off direntSize
  if r ≠ some direntSize then panic .unlinkWritei
  else
    let dp ← dropDotdot sb dp ip
    iunlockput sb (hold x.iref ip.inum) dp
    iupdate sb (decr ip)
    iunlockput sb x.iref (decr ip)
    pure 0

/-- `sys_unlink` -/
def sysUnlink (sb : Superblock) (x : Mem) (path : List UInt8) : K H Int := do
  match ← nameiparent sb x.iref x.cwd path with
  | none => pure (-1)
  | some (d, name) =>
    let dp ← ilockRead sb d
    if strncmpEq dirsiz name [46] ∨ strncmpEq dirsiz name [46, 46] then
      iunlockput sb x.iref dp
      pure (-1)
    else
      match ← dirlookup sb dp name with
      | (none, dp) =>
        iunlockput sb x.iref dp
        pure (-1)
      | (some (i, off), dp) =>
        let ip ← ilockRead sb i
        -- `ip->nlink` is a `short`
        if ip.nlink < 1 ∨ 2 ^ 15 ≤ ip.nlink then panic .unlinkNlink
        else
          let (ok, ip) ← removable sb ip
          if ok then removeEntry sb x dp ip off
          else
            iunlockput sb (hold x.iref d) ip
            iunlockput sb x.iref dp
            pure (-1)

/-- The entries `.` and `..` of a new directory. -/
def createDots (sb : Superblock) (dp ip : Inode) : K H Inode := do
  match ← dirlink sb ip [46] ip.inum with
  | (false, _) => panic .createDots
  | (true, ip) =>
    match ← dirlink sb ip [46, 46] dp.inum with
    | (false, _) => panic .createDots
    | (true, ip) => pure ip

/-- The end of `create`: the entry for the new inode. -/
def createEntry (sb : Superblock) (others : Nat → Nat) (dp ip : Inode) (name : List UInt8) :
    K H Inode := do
  match ← dirlink sb dp name ip.inum with
  | (false, _) => panic .createDirlink
  | (true, dp) =>
    iunlockput sb (hold others ip.inum) dp
    pure ip

/-- `create` of a name that is not in `dp`. -/
def createNew (sb : Superblock) (others : Nat → Nat) (dp : Inode) (name : List UInt8)
    (type major minor : Nat) : K H Inode := do
  let i ← ialloc sb type
  let ip ← ilockRead sb i
  iupdate sb (ip.setMeta major minor 1)
  let ip := ip.setMeta major minor 1
  if type = tDir then
    -- for `..`
    iupdate sb (incr dp)
    let ip ← createDots sb (incr dp) ip
    createEntry sb others (incr dp) ip name
  else createEntry sb others dp ip name

/-- `create(path, type, major, minor)` -/
def create (sb : Superblock) (x : Mem) (path : List UInt8) (type major minor : Nat) :
    K H (Option Inode) := do
  match ← nameiparent sb x.iref x.cwd path with
  | none => pure none
  | some (d, name) =>
    let dp ← ilockRead sb d
    match ← dirlookup sb dp name with
    | (some (i, _), dp) =>
      iunlockput sb (hold x.iref i) dp
      let ip ← ilockRead sb i
      if type = tFile ∧ (ip.type = tFile ∨ ip.type = tDevice) then pure (some ip)
      else
        iunlockput sb x.iref ip
        pure none
    | (none, dp) =>
      let ip ← createNew sb x.iref dp name type major minor
      pure (some ip)

/-- The inode that `sys_open` opens, and which is then locked. -/
def openInode (sb : Superblock) (x : Mem) (path : List UInt8) (omode : Nat) : K H (Option Inode) :=
  if oCreate omode then create sb x path tFile 0 0
  else do
    match ← namei sb x.iref x.cwd path with
    | none => pure none
    | some i =>
      let ip ← ilockRead sb i
      if ip.type = tDir ∧ omode ≠ 0 then
        iunlockput sb x.iref ip
        pure none
      else pure (some ip)

/-- What `sys_open` does with the inode. -/
def openFile (sb : Superblock) (x : Mem) (ip : Inode) (omode : Nat) : K H (Int × Mem) :=
  -- `ip->major` is a `short`
  if ip.type = tDevice ∧ (2 ^ 15 ≤ ip.major ∨ Ftable.ndev ≤ ip.major) then do
    iunlockput sb x.iref ip
    pure (-1, x)
  else
    match x.filealloc with
    | none => do
      iunlockput sb x.iref ip
      pure (-1, x)
    | some f =>
      match (x.take f).fdalloc with
      | none => do
        iunlockput sb x.iref ip
        pure (-1, (x.take f).close f)
      | some fd =>
        if oTrunc omode ∧ ip.type = tFile then do
          let ip ← itrunc sb ip
          pure (fd.val, x.fill fd f ip omode)
        else pure (fd.val, x.fill fd f ip omode)

/-- `sys_open` -/
def sysOpen (sb : Superblock) (x : Mem) (path : List UInt8) (omode : Nat) : K H (Int × Mem) := do
  match ← openInode sb x path omode with
  | none => pure (-1, x)
  | some ip => openFile sb x ip omode

/-- What `sys_mkdir` and `sys_mknod` do. -/
def make (sb : Superblock) (x : Mem) (path : List UInt8) (type major minor : Nat) : K H Int := do
  match ← create sb x path type major minor with
  | none => pure (-1)
  | some ip =>
    iunlockput sb x.iref ip
    pure 0

/-- `sys_mkdir` -/
def sysMkdir (sb : Superblock) (x : Mem) (path : List UInt8) : K H Int := make sb x path tDir 0 0

/-- `sys_mknod` -/
def sysMknod (sb : Superblock) (x : Mem) (path : List UInt8) (major minor : Nat) : K H Int :=
  make sb x path tDevice major minor

/-- `sys_chdir` -/
def sysChdir (sb : Superblock) (x : Mem) (path : List UInt8) : K H (Int × Mem) := do
  match ← namei sb x.iref x.cwd path with
  | none => pure (-1, x)
  | some i =>
    let ip ← ilockRead sb i
    if ip.type ≠ tDir then
      iunlockput sb x.iref ip
      pure (-1, x)
    else
      -- the old directory is in use, and so its inode is in memory
      let old ← ilockRead sb x.cwd
      iput sb (hold (update x.iref x.cwd (x.iref x.cwd - 1)) i) old
      pure (0, x.setCwd i)

/-- A system call and its arguments. -/
inductive Call where
  | link (old new : Option (List UInt8))
  | unlink (path : Option (List UInt8))
  | mkdir (path : Option (List UInt8))
  | mknod (path : Option (List UInt8)) (major minor : Nat)
  | chdir (path : Option (List UInt8))
  | open (path : Option (List UInt8)) (omode : Nat)

/-- A call that does not change `Mem`. -/
def leaving (x : Mem) (c : K H Int) : K H (Int × Mem) := do
  let r ← c
  pure (r, x)

/-- What a system call does; it returns what the process gets in `a0`, and what is then in memory.
-/
def Call.run (sb : Superblock) (x : Mem) : Call → K H (Int × Mem)
  | .link (some old) (some new) => leaving x (sysLink sb x old new)
  | .unlink (some path) => leaving x (sysUnlink sb x path)
  | .mkdir (some path) => leaving x (sysMkdir sb x path)
  | .mknod (some path) major minor => leaving x (sysMknod sb x path major minor)
  | .chdir (some path) => sysChdir sb x path
  | .open (some path) omode => sysOpen sb x path omode
  -- `argstr` has failed
  | _ => pure (-1, x)

end

end Xv6.Sys
