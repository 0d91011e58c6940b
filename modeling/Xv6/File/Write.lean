import Xv6.Fs.Inodes
import Xv6.Lib.Monitor

/-!
# `filewrite` on an inode: `kernel/file.c`

Processes that share a `struct file`, because they inherited the descriptor or made it with `dup`,
share its offset.  `filewrite` reads and moves the offset with the inode locked; but it writes a few
blocks at a time, each in a transaction of its own, and gives the lock back in between.

The machine is that of `Monitor`: the lock is that of the inode, and what it protects are the
blocks, the entry of the inode in `icache` and the offset.  Every access to a block is a step of its
own.
-/

namespace Xv6.File

open Bio Fs Monitor

/-- What the writers share. -/
structure Shared where
  /-- The contents of the blocks. -/
  disk : Disk
  /-- `f->ip->valid` -/
  valid : Bool
  /-- The other fields of `f->ip`. -/
  ip : Inode
  /-- `f->off` -/
  off : Nat

/-- Operations on it. -/
inductive Op where
  /-- A command of the block layer, by a process with memory `m`. -/
  | block (m : UserMem) (c : Bio.Cmd Nat)
  /-- Read the fields of `f->ip`. -/
  | getInode
  /-- Store to the fields of `f->ip`, which is valid then. -/
  | setInode (ip : Inode)
  /-- Read `f->off`. -/
  | getOff
  /-- Store to `f->off`. -/
  | setOff (off : Nat)
  /-- `panic("short filewrite")` -/
  | shortFilewrite

/-- What they answer. -/
abbrev Op.Res : Op → Type
  | .block _ c => Bio.Ans c
  | .getInode => Bool × Inode
  | .getOff => Nat
  | .setInode _ | .setOff _ => Unit
  | .shortFilewrite => Empty

/-- What they do.  A panic has no answer: the process stops there. -/
def Op.act : (o : Op) → Shared → Option (o.Res × Shared)
  | .block m c, x =>
    match answer m c x.disk with
    | .ok (r, d) => some (r, { x with disk := d })
    | .error _ => none
  | .getInode, x => some ((x.valid, x.ip), x)
  | .setInode ip, x => some ((), { x with valid := true, ip := ip })
  | .getOff, x => some (x.off, x)
  | .setOff off, x => some ((), { x with off := off })
  | .shortFilewrite, _ => none

/-- Code of a process. -/
abbrev W (α : Type) := Prog Op Op.Res α

def block (m : UserMem) (c : Bio.Cmd Nat) : W (Bio.Ans c) := op (Op.block m c)
def getInode : W (Bool × Inode) := op Op.getInode
def setInode (ip : Inode) : W Unit := op (Op.setInode ip)
def getOff : W Nat := op Op.getOff
def setOff (off : Nat) : W Unit := op (Op.setOff off)

/-- `panic("short filewrite")` does not return. -/
def shortFilewrite {α : Type} : W α := .cmd (.op .shortFilewrite) fun e => e.elim

/-- Code of the block layer. -/
def blocks {α : Type} (m : UserMem) (c : K Nat α) : W α := Code.interp (block m) c

/-- `ilock(f->ip)` -/
def ilock (sb : Superblock) : W Inode := do
  acquire
  let (valid, ip) ← getInode
  if valid then pure ip
  else
    let ip ← blocks noMem (ilockRead sb ip.inum)
    setInode ip
    pure ip

/-- `iunlock(f->ip)` -/
def iunlock : W Unit := release

/-- `max`, the number of bytes that are written in one transaction. -/
def maxWrite : Nat := (maxOpBlocks - 1 - 1 - 2) / 2 * bsize

/-- `if ((r = writei(f->ip, 1, addr + i, f->off, n1)) > 0) f->off += r;` between `ilock` and
`iunlock`; `none` is -1. -/
def writeChunk (sb : Superblock) (m : UserMem) (addr n1 : Nat) : W (Option Nat) := do
  let ip ← ilock sb
  let off ← getOff
  let (r, ip) ← blocks m (writei sb ip (.user addr) off n1)
  setInode ip
  if 0 < r.getD 0 then setOff ((off + r.getD 0) % 2 ^ 32)
  iunlock
  pure r

/-- The loop of `filewrite`, which returns `i`.  Every round writes something, so there are at most
`n` rounds. -/
def filewriteLoop (sb : Superblock) (m : UserMem) (addr n : Nat) : (rounds i : Nat) → W Nat
  | 0, i => pure i
  | rounds + 1, i =>
    if i < n then do
      let n1 := min (n - i) maxWrite
      block m .beginOp
      let r ← writeChunk sb m ((addr + i) % 2 ^ 64) n1
      let _ ← block m .endOp
      match r with
      | none => pure i
      | some r =>
        if r ≠ n1 then shortFilewrite
        else filewriteLoop sb m addr n rounds (i + r)
    else pure i

/-- A call of `write`: the memory of the process, and the arguments. -/
structure Call where
  mem : UserMem
  addr : Nat
  n : Int

/-- `filewrite(f, addr, n)` for a file of type `FD_INODE`. -/
def filewrite (sb : Superblock) (writable : Bool) (c : Call) : W Int :=
  if writable = false then pure (-1)
  else do
    let i ← filewriteLoop sb c.mem c.addr c.n.toNat c.n.toNat 0
    pure (if (i : Int) = c.n then c.n else -1)

/-- One call after the other. -/
def writeAll (sb : Superblock) (writable : Bool) : List Call → W (List Int)
  | [] => pure []
  | c :: cs => do
    let r ← filewrite sb writable c
    let rs ← writeAll sb writable cs
    pure (r :: rs)

/-- Processes that write to the same open file. -/
def writers {P : Type} [DecidableEq P] (sb : Superblock) (writable : Bool) (x : Shared)
    (calls : P → List Call) : Lts.System (State P Shared Op Op.Res (List Int)) P :=
  machine Op.act x fun p => writeAll sb writable (calls p)

end Xv6.File
