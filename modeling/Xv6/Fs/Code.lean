import Xv6.Bio.Code
import Xv6.Fs.Layout

/-!
# The file system: the block and inode layers of `kernel/fs.c`

The functions that touch disk blocks, as code over the buffer cache.  Everything a system call does
to a block goes through one of them.

An in-memory inode is passed as a value and returned when the function changes it: the caller holds
`ip->lock`, so nobody else sees it in between.  Loops over `tot` take a bound on the number of
rounds, which is never reached: every round moves at least one byte.
-/

namespace Xv6
namespace Fs

open Bio

section

variable {H : Type}

/-! ## Blocks -/

/-- `bzero(dev, bno)` -/
def bzero (bno : Nat) : K H Unit := do
  let (bp, _) ← bread bno
  store bp Block.zero
  logWrite bp
  brelse bp

/-- The inner loop of `balloc`: the first free bit of the block of the free map that starts with
block `b`. -/
@[irreducible] def freeBit (sb : Superblock) (d : Block) (b : Nat) : Option Nat :=
  (List.range bpb).find? fun bi => decide (b + bi < sb.size) && !bit d bi

/-- One round of the outer loop of `balloc`, in which `bp` is the block of the free map with
contents `d`; `next` is the rest of the loop. -/
def ballocRound (sb : Superblock) (bp : H) (d : Block) (b : Nat) (next : K H Nat) : K H Nat :=
  match freeBit sb d b with
  | some bi => do
    store bp (setBit d bi)
    logWrite bp
    brelse bp
    bzero (b + bi)
    pure (b + bi)
  | none => do
    brelse bp
    next

/-- The outer loop of `balloc`, over the blocks of the free map. -/
def ballocFrom (sb : Superblock) : List Nat → K H Nat
  | [] => panic .ballocOutOfBlocks
  | b :: bs => do
    let (bp, d) ← bread (bblock sb b)
    ballocRound sb bp d b (ballocFrom sb bs)

/-- `balloc(dev)`: `b = 0, BPB, 2*BPB, …` while `b < sb.size`. -/
def balloc (sb : Superblock) : K H Nat :=
  ballocFrom sb ((List.range ((sb.size + bpb - 1) / bpb)).map (· * bpb))

/-- `bfree(dev, b)` -/
def bfree (sb : Superblock) (b : Nat) : K H Unit := do
  let (bp, d) ← bread (bblock sb b)
  let bi := b % bpb
  if bit d bi = false then panic .freeingFreeBlock
  else
    store bp (clearBit d bi)
    logWrite bp
    brelse bp

/-! ## Inodes -/

/-- The loop of `ialloc`, over `inum = 1, 2, …` -/
def iallocFrom (sb : Superblock) (type : Nat) : List Nat → K H Nat
  | [] => panic .iallocNoInodes
  | inum :: rest => do
    let (bp, d) ← bread (iblock sb inum)
    if dinodeType d inum = 0 then
      store bp (clearDinode d inum type)
      logWrite bp
      brelse bp
      pure inum
    else
      brelse bp
      iallocFrom sb type rest

/-- `ialloc(dev, type)`, up to the `iget` of the inode it has found. -/
def ialloc (sb : Superblock) (type : Nat) : K H Nat :=
  iallocFrom sb type (List.range' 1 (sb.ninodes - 1))

/-- `iupdate(ip)` -/
def iupdate (sb : Superblock) (ip : Inode) : K H Unit := do
  let (bp, d) ← bread (iblock sb ip.inum)
  store bp (writeDinode d ip)
  logWrite bp
  brelse bp

/-- The part of `ilock(ip)` that reads the inode from disk, when `ip->valid` is 0. -/
def ilockRead (sb : Superblock) (inum : Nat) : K H Inode := do
  let (bp, d) ← bread (iblock sb inum)
  brelse bp
  let ip := readDinode d inum
  if ip.type = 0 then panic .ilockNoType else pure ip

/-- `addrs[i]`, for an index of the C array. -/
def Inode.addr (ip : Inode) (i : Nat) : Nat :=
  if h : i < ndirect + 1 then ip.addrs ⟨i, h⟩ else 0

/-- `addrs[i] = v` -/
def Inode.setAddr (ip : Inode) (i v : Nat) : Inode :=
  if h : i < ndirect + 1 then { ip with addrs := Function.update ip.addrs ⟨i, h⟩ v } else ip

/-- `bmap(ip, bn)` for a direct block. -/
def bmapDirect (sb : Superblock) (ip : Inode) (bn : Nat) : K H (Nat × Inode) :=
  if ip.addr bn = 0 then do
    let addr ← balloc sb
    pure (addr, ip.setAddr bn addr)
  else pure (ip.addr bn, ip)

/-- `bmap(ip, bn)`: the disk block of the `bn`-th block of the file, allocated if need be. -/
def bmap (sb : Superblock) (ip : Inode) (bn : Nat) : K H (Nat × Inode) :=
  if bn < ndirect then bmapDirect sb ip bn
  else if bn - ndirect < nindirect then do
    -- load the indirect block, allocating if necessary
    let (ind, ip) ← bmapDirect sb ip ndirect
    let (bp, a) ← bread ind
    if entry a (bn - ndirect) = 0 then
      let addr ← balloc sb
      store bp (setEntry a (bn - ndirect) addr)
      logWrite bp
      brelse bp
      pure (addr, ip)
    else
      brelse bp
      pure (entry a (bn - ndirect), ip)
  else panic .bmapOutOfRange

/-- The loop of `itrunc` over the direct blocks. -/
def itruncDirect (sb : Superblock) : List Nat → Inode → K H Inode
  | [], ip => pure ip
  | i :: is, ip =>
    if ip.addr i ≠ 0 then do
      bfree sb (ip.addr i)
      itruncDirect sb is (ip.setAddr i 0)
    else itruncDirect sb is ip

/-- The loop of `itrunc` over the entries of the indirect block. -/
def itruncIndirect (sb : Superblock) (a : Block) : List Nat → K H Unit
  | [] => pure ()
  | j :: js =>
    if entry a j ≠ 0 then do
      bfree sb (entry a j)
      itruncIndirect sb a js
    else itruncIndirect sb a js

/-- The part of `itrunc` that frees the indirect block and what it points to. -/
def itruncRest (sb : Superblock) (ip : Inode) : K H Inode :=
  if ip.addr ndirect ≠ 0 then do
    let (bp, a) ← bread (ip.addr ndirect)
    itruncIndirect sb a (List.range nindirect)
    brelse bp
    bfree sb (ip.addr ndirect)
    pure (ip.setAddr ndirect 0)
  else pure ip

/-- `itrunc(ip)` -/
def itrunc (sb : Superblock) (ip : Inode) : K H Inode := do
  let ip ← itruncDirect sb (List.range ndirect) ip
  let ip ← itruncRest sb ip
  let ip := { ip with size := 0 }
  iupdate sb ip
  pure ip

/-- The part of `iput(ip)` that frees the inode, when there are no links and no other references. -/
def iputFree (sb : Superblock) (ip : Inode) : K H Inode := do
  let ip ← itrunc sb ip
  let ip := { ip with type := 0 }
  iupdate sb ip
  pure ip

/-! ## Reading and writing -/

/-- Where `readi` puts data: a user address, or kernel memory. -/
inductive Dst where
  | user (va : Nat)
  | kernel

/-- `either_copyout` of some bytes, `tot` bytes into the destination. -/
def eitherCopyout (dst : Dst) (tot : Nat) (bytes : List UInt8) : K H Bool :=
  match dst with
  | .user va => Code.call (Cmd.copyout ((va + tot) % 2 ^ 64) bytes)
  | .kernel => pure true

/-- The loop of `readi`; it returns `tot`, the bytes that have been copied and the inode. -/
def readiLoop (sb : Superblock) (dst : Dst) (n : Nat) :
    (rounds : Nat) → Inode → (tot off : Nat) → List UInt8 → K H (Nat × List UInt8 × Inode)
  | 0, ip, tot, _, acc => pure (tot, acc, ip)
  | rounds + 1, ip, tot, off, acc =>
    if tot < n then do
      let (addr, ip) ← bmap sb ip (off / bsize)
      let (bp, d) ← bread addr
      let m := min (n - tot) (bsize - off % bsize)
      let bytes := (List.range m).map fun j => UInt8.ofNat (d.byte (off % bsize + j))
      let ok ← eitherCopyout dst tot bytes
      brelse bp
      if ok then
        readiLoop sb dst n rounds ip (tot + m) (off + m) (acc ++ bytes)
      else pure (tot, acc, ip)
    else pure (tot, acc, ip)

/-- `readi(ip, user_dst, dst, off, n)`; `off` and `n` are `uint`s. -/
def readi (sb : Superblock) (ip : Inode) (dst : Dst) (off n : Nat) :
    K H (Nat × List UInt8 × Inode) :=
  if off > ip.size ∨ (off + n) % 2 ^ 32 < off then pure (0, [], ip)
  else
    let n := if off + n > ip.size then ip.size - off else n
    readiLoop sb dst n n ip 0 off []

/-- Where `writei` takes data from: a user address, or kernel memory with these contents. -/
inductive Src where
  | user (va : Nat)
  | kernel (bytes : List UInt8)

/-- `either_copyin` of `m` bytes, `tot` bytes into the source, to offset `off` of a buffer with
contents `d`. -/
def eitherCopyin (bp : H) (d : Block) (off : Nat) (src : Src) (tot m : Nat) : K H Bool :=
  match src with
  | .user va => Code.call (Cmd.copyin bp off ((va + tot) % 2 ^ 64) m)
  | .kernel bytes => do
    store bp (d.splice off ((bytes.drop tot).take m))
    pure true

/-- The loop of `writei`; it returns `off` and the inode. -/
def writeiLoop (sb : Superblock) (src : Src) (n : Nat) :
    (rounds : Nat) → Inode → (tot off : Nat) → K H (Nat × Inode)
  | 0, ip, _, off => pure (off, ip)
  | rounds + 1, ip, tot, off =>
    if tot < n then do
      let (addr, ip) ← bmap sb ip (off / bsize)
      let (bp, d) ← bread addr
      let m := min (n - tot) (bsize - off % bsize)
      let ok ← eitherCopyin bp d (off % bsize) src tot m
      if ok then
        logWrite bp
        brelse bp
        writeiLoop sb src n rounds ip (tot + m) (off + m)
      else
        brelse bp
        pure (off, ip)
    else pure (off, ip)

/-- `writei(ip, user_src, src, off, n)`; `off` and `n` are `uint`s and `none` is -1.  It returns `n`
even when the source faulted. -/
def writei (sb : Superblock) (ip : Inode) (src : Src) (off n : Nat) :
    K H (Option Nat × Inode) :=
  if off > ip.size ∨ (off + n) % 2 ^ 32 < off then pure (none, ip)
  else if off + n > maxfile * bsize then pure (none, ip)
  else do
    let (off, ip) ← writeiLoop sb src n n ip 0 off
    if n > 0 then
      let ip := if off > ip.size then { ip with size := off } else ip
      iupdate sb ip
      pure (some n, ip)
    else pure (some n, ip)

end

end Fs
end Xv6
