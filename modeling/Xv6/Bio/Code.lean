import Xv6.Lib.Code
import Xv6.Log.Model

/-!
# Kernel code above the buffer cache

`log.c` and `fs.c` work on disk blocks through the buffer cache.  What they do there is a handful
of commands — `bread`, a store to `bp->data`, `bwrite`, `brelse`, `log_write`, … — and everything
else is computation on values they have read.  This module fixes the commands and writes the code
of `log.c` with them; `fs.c` follows in its own module.

`H` stands for a `struct buf *`.  The machine with many processes takes it to be an index into
`bcache.buf`, a sequential run of the same code takes it to be the block number.
-/

namespace Xv6

/-! ## User memory -/

/-- `PGSIZE` -/
def pgSize : Nat := 4096

/-- The memory of a process as `walkaddr` shows it: the contents of the page at a page-aligned
address, `none` where `walkaddr` returns 0. -/
abbrev UserMem := Nat → Option (Nat → UInt8)

/-- The loop of `copyin`.  It returns the bytes it has copied and whether it reached the end;
every round copies at least one byte, so `len` rounds are enough. -/
def copyinLoop (m : UserMem) : (rounds srcva len : Nat) → List UInt8 × Bool
  | 0, _, len => ([], decide (len = 0))
  | rounds + 1, srcva, len =>
    if len = 0 then ([], true)
    else
      let va0 := srcva - srcva % pgSize
      match m va0 with
      | none => ([], false)
      | some page =>
        let n := min (pgSize - (srcva - va0)) len
        let rest := copyinLoop m rounds ((va0 + pgSize) % 2 ^ 64) (len - n)
        ((List.range n).map (fun j => page (srcva - va0 + j)) ++ rest.1, rest.2)

/-- `copyin`: the bytes that have been stored at `dst` when it returns, and whether it returns 0.
When it returns -1, what came before the page that is missing has been copied. -/
def copyin (m : UserMem) (srcva len : Nat) : List UInt8 × Bool := copyinLoop m len srcva len

/-- `memmove` of some bytes into a block. -/
def Block.splice (b : Block) (off : Nat) (bytes : List UInt8) : Block := fun j =>
  if off ≤ j.val ∧ j.val < off + bytes.length then bytes.getD (j.val - off) 0 else b j

namespace Bio

/-! ## Commands -/

/-- The panics of `bio.c`, `log.c` and `fs.c` that are reached through the commands. -/
inductive Panic where
  /-- One of the panics of `log.c`, or a store past the end of `log.lh.block[]`. -/
  | log (h : Log.Halt)
  /-- `panic("bget: no buffers")` -/
  | bgetNoBuffers
  /-- `panic("bwrite")` -/
  | bwrite
  /-- `panic("brelse")` -/
  | brelse
  /-- `panic("balloc: out of blocks")` -/
  | ballocOutOfBlocks
  /-- `panic("freeing free block")` -/
  | freeingFreeBlock
  /-- `panic("ialloc: no inodes")` -/
  | iallocNoInodes
  /-- `panic("bmap: out of range")` -/
  | bmapOutOfRange
  /-- `panic("ilock: no type")` -/
  | ilockNoType
  /-- `panic("iget: no inodes")` -/
  | igetNoInodes
  /-- `panic("dirlookup not DIR")` -/
  | dirlookupNotDir
  /-- `panic("dirlookup read")` -/
  | dirlookupRead
  /-- `panic("isdirempty: readi")` -/
  | isdiremptyReadi
  /-- `panic("dirlink read")` -/
  | dirlinkRead
  /-- `panic("dirlink")` -/
  | dirlink
  /-- `panic("create dots")` -/
  | createDots
  /-- `panic("create: dirlink")` -/
  | createDirlink
  /-- `panic("unlink: nlink < 1")` -/
  | unlinkNlink
  /-- `panic("unlink: writei")` -/
  | unlinkWritei
  /-- `panic("fileclose")` -/
  | fileclose
  deriving DecidableEq

/-- The commands. -/
inductive Cmd (H : Type) where
  /-- `bread(dev, b)` -/
  | bread (b : Nat)
  /-- A store to `bp->data`; `v` is what the whole block holds afterwards. -/
  | store (h : H) (v : Block)
  /-- `copyin(p->pagetable, bp->data + off, va, n)` -/
  | copyin (h : H) (off va n : Nat)
  /-- `copyout(p->pagetable, va, …, n)` of these `n` bytes -/
  | copyout (va : Nat) (bytes : List UInt8)
  /-- `bwrite(bp)` -/
  | bwrite (h : H)
  /-- `bunpin(bp)` -/
  | bunpin (h : H)
  /-- `brelse(bp)` -/
  | brelse (h : H)
  /-- `log_write(bp)` -/
  | logWrite (h : H)
  /-- `begin_op()` -/
  | beginOp
  /-- The first locked section of `end_op()`. -/
  | endOp
  /-- The last locked section of `end_op()`, after `commit()`. -/
  | endCommit
  /-- Read `log.lh`. -/
  | readLh
  /-- Set `log.lh`. -/
  | setLh (lh : List Nat)
  /-- `panic` -/
  | panic (m : Panic)

/-- What a command answers: `bread` a buffer and its contents, `copyin` and `copyout` whether they
return 0, `endOp` the flag `do_commit`. -/
abbrev Ans {H : Type} : Cmd H → Type
  | .bread _ => H × Block
  | .copyin .. | .copyout .. | .endOp => Bool
  | .readLh => List Nat
  | .panic _ => Empty
  | _ => Unit

/-- Kernel code that returns an `α`. -/
abbrev K (H α : Type) := Code (Cmd H) Ans α

section Code

variable {H : Type}

def bread (b : Nat) : K H (H × Block) := Code.call (Cmd.bread b)
def store (h : H) (v : Block) : K H Unit := Code.call (Cmd.store h v)
def bwrite (h : H) : K H Unit := Code.call (Cmd.bwrite h)
def bunpin (h : H) : K H Unit := Code.call (Cmd.bunpin h)
def brelse (h : H) : K H Unit := Code.call (Cmd.brelse h)
def logWrite (h : H) : K H Unit := Code.call (Cmd.logWrite h)
def beginOp : K H Unit := Code.call Cmd.beginOp
def readLh : K H (List Nat) := Code.call Cmd.readLh
def setLh (lh : List Nat) : K H Unit := Code.call (Cmd.setLh lh)

/-- `panic(m)` does not return. -/
def panic {α : Type} (m : Panic) : K H α := .cmd (.panic m) fun e => e.elim

/-! ## `log.c`

`log.lh` changes in `log_write`, inside an operation, and in `commit` itself, which runs when no
operation does; so each loop reads it once. -/

/-- The loop of `write_log`, from `tail` on. -/
def writeLogFrom (start : Nat) : Nat → List Nat → K H Unit
  | _, [] => pure ()
  | tail, b :: lh => do
    let (dst, _) ← bread (start + tail + 1)
    let (src, d) ← bread b
    store dst d
    bwrite dst
    brelse src
    brelse dst
    writeLogFrom start (tail + 1) lh

/-- `write_log()` -/
def writeLog (start : Nat) : K H Unit := do
  let lh ← readLh
  writeLogFrom start 0 lh

/-- The loop of `install_trans`, from `tail` on. -/
def installTransFrom (start : Nat) : Nat → List Nat → K H Unit
  | _, [] => pure ()
  | tail, b :: lh => do
    let (lbuf, d) ← bread (start + tail + 1)
    let (dbuf, _) ← bread b
    store dbuf d
    bwrite dbuf
    bunpin dbuf
    brelse lbuf
    brelse dbuf
    installTransFrom start (tail + 1) lh

/-- `install_trans()`, used by `commit` and by `recover_from_log` alike. -/
def installTrans (start : Nat) : K H Unit := do
  let lh ← readLh
  installTransFrom start 0 lh

/-- `read_head()` -/
def readHead (start : Nat) : K H Unit := do
  let (buf, d) ← bread start
  setLh (Log.readHead d)
  brelse buf

/-- `write_head()` -/
def writeHead (start : Nat) : K H Unit := do
  let (buf, d) ← bread start
  let lh ← readLh
  store buf (Log.writeHead d lh)
  bwrite buf
  brelse buf

/-- `recover_from_log()` -/
def recoverFromLog (start : Nat) : K H Unit := do
  readHead start
  installTrans start
  setLh []
  writeHead start

/-- `commit()` -/
def commit (start : Nat) : K H Unit := do
  let lh ← readLh
  if lh.length > 0 then
    writeLog start
    writeHead start
    installTrans start
    setLh []
    writeHead start

/-- `end_op()` -/
def endOp (start : Nat) : K H Unit := do
  let doCommit ← Code.call Cmd.endOp
  if doCommit then
    commit start
    Code.call Cmd.endCommit

end Code

end Bio
end Xv6
