import Xv6.Fs.Inodes

/-!
# `mkfs/mkfs.c`

The program that builds the image of a file system from a list of files.  It keeps two counters, for
the next inode and the next block, and writes blocks of the image one by one; an assertion that
fails, a file that cannot be opened and a read past the end of the image stop it.  Errors of the
host system when it writes the image are not modelled: they stop it, too.

Integers on disk are little-endian, so `xshort` and `xint` do not appear: the accessors of the
on-disk format already read and write them in that way.
-/

namespace Xv6.Mkfs

open Fs

/-! ## Constants -/

/-- `FSSIZE` -/
def fssize : Nat := 1000

/-- `NINODES` -/
def ninodes : Nat := 200

/-- `nbitmap` -/
def nbitmap : Nat := fssize / (bsize * 8) + 1

/-- `ninodeblocks` -/
def ninodeblocks : Nat := ninodes / ipb + 1

/-- `nmeta` -/
def nmeta : Nat := 2 + logSize + ninodeblocks + nbitmap

/-- `sb` -/
def sb : Superblock where
  size := fssize
  ninodes := ninodes
  nlog := logSize
  logstart := 2
  inodestart := 2 + logSize
  bmapstart := 2 + logSize + ninodeblocks

/-- `FSMAGIC` -/
def fsmagic : Nat := 0x10203040

/-- The block that `sb` is copied to. -/
def superBlock : Block :=
  ((((((((Block.zero.set 0 4 fsmagic).set 4 4 sb.size).set 8 4 (fssize - nmeta)).set 12 4
    sb.ninodes).set 16 4 sb.nlog).set 20 4 sb.logstart).set 24 4 sb.inodestart).set 28 4
    sb.bmapstart)

/-! ## The image -/

/-- Why the program stops without an image. -/
inductive Stop where
  /-- `rsect` reads past the end of the image. -/
  | read
  /-- `assert(rootino == ROOTINO)` -/
  | assertRoot
  /-- `assert(index(shortname, '/') == 0)` -/
  | assertSlash
  /-- A file cannot be opened. -/
  | open
  /-- `assert(fbn < MAXFILE)` -/
  | assertFbn
  /-- `assert(used < BSIZE*8)` -/
  | assertUsed
  deriving DecidableEq

/-- The image, the number of blocks it has, and the two counters. -/
structure Mk where
  disk : Disk
  len : Nat
  freeinode : Nat
  freeblock : Nat

/-- `rsect(sec, buf)` -/
def rsect (s : Mk) (sec : Nat) : Except Stop Block :=
  if sec < s.len then .ok (s.disk sec) else .error .read

/-- `wsect(sec, buf)` -/
def wsect (s : Mk) (sec : Nat) (buf : Block) : Mk :=
  { s with disk := Function.update s.disk sec buf, len := max s.len (sec + 1) }

/-- `winode(inum, ip)` -/
def winode (s : Mk) (ip : Inode) : Except Stop Mk := do
  let buf ← rsect s (iblock sb ip.inum)
  pure (wsect s (iblock sb ip.inum) (writeDinode buf ip))

/-- `rinode(inum, ip)` -/
def rinode (s : Mk) (inum : Nat) : Except Stop Inode := do
  let buf ← rsect s (iblock sb inum)
  pure (readDinode buf inum)

/-- The inode that `ialloc` writes. -/
def newInode (inum type : Nat) : Inode where
  inum := inum
  type := type
  major := 0
  minor := 0
  nlink := 1
  size := 0
  addrs := fun _ => 0

/-- `ialloc(type)` -/
def ialloc (s : Mk) (type : Nat) : Except Stop (Nat × Mk) := do
  let inum := s.freeinode
  let s ← winode { s with freeinode := inum + 1 } (newInode inum type)
  pure (inum, s)

/-- `balloc(used)` -/
def balloc (s : Mk) (used : Nat) : Except Stop Mk :=
  if used < bsize * 8 then
    .ok (wsect s sb.bmapstart ((List.range used).foldl setBit Block.zero))
  else .error .assertUsed

/-! ## Appending to a file -/

/-- `if(din.addrs[i] == 0) din.addrs[i] = freeblock++;` -/
def fillAddr (s : Mk) (din : Inode) (i : Nat) : Inode × Mk :=
  if din.addr i = 0 then (din.setAddr i s.freeblock, { s with freeblock := s.freeblock + 1 })
  else (din, s)

/-- The same for an entry of the indirect block, which is then written back. -/
def fillEntry (s : Mk) (din : Inode) (indirect : Block) (j : Nat) : Block × Mk :=
  if entry indirect j = 0 then
    (setEntry indirect j s.freeblock,
      wsect { s with freeblock := s.freeblock + 1 } (din.addr ndirect)
        (setEntry indirect j s.freeblock))
  else (indirect, s)

/-- The block of the file with number `fbn`. -/
def blockFor (s : Mk) (din : Inode) (fbn : Nat) : Except Stop (Nat × Inode × Mk) :=
  if fbn < ndirect then
    let (din, s) := fillAddr s din fbn
    .ok (din.addr fbn, din, s)
  else do
    let (din, s) := fillAddr s din ndirect
    let indirect ← rsect s (din.addr ndirect)
    let (indirect, s) := fillEntry s din indirect (fbn - ndirect)
    pure (entry indirect (fbn - ndirect), din, s)

/-- The loop of `iappend`.  Every round copies at least one byte. -/
def iappendLoop : (rounds : Nat) → Mk → Inode → (off : Nat) → List UInt8 →
    Except Stop (Inode × Nat × Mk)
  | 0, s, din, off, _ => .ok (din, off, s)
  | rounds + 1, s, din, off, p =>
    if p = [] then .ok (din, off, s)
    else if off / bsize < maxfile then do
      let (x, din, s) ← blockFor s din (off / bsize)
      let n1 := min p.length ((off / bsize + 1) * bsize - off)
      let buf ← rsect s x
      let s := wsect s x (buf.splice (off - off / bsize * bsize) (p.take n1))
      iappendLoop rounds s din (off + n1) (p.drop n1)
    else .error .assertFbn

/-- `iappend(inum, p, n)` -/
def iappend (s : Mk) (inum : Nat) (p : List UInt8) : Except Stop Mk := do
  let din ← rinode s inum
  let (din, off, s) ← iappendLoop p.length s din din.size p
  winode s { din with size := off }

/-! ## Names -/

/-- `strncpy(de.name, name, DIRSIZ)` into zeros. -/
def padName (name : List UInt8) : List UInt8 := name.take 14 ++ List.replicate (14 - name.length) 0

/-- The bytes of a `struct dirent`. -/
def dirent (inum : Nat) (name : List UInt8) : List UInt8 :=
  UInt8.ofNat inum :: UInt8.ofNat (inum / 256) :: padName name

/-- `shortname` before the leading `_` is skipped: the path without `user/`. -/
def stripUser (path : List UInt8) : List UInt8 :=
  if path.take 5 = [117, 115, 101, 114, 47] then path.drop 5 else path

/-- `if(shortname[0] == '_') shortname += 1;` -/
def skipUnderscore : List UInt8 → List UInt8
  | 95 :: name => name
  | name => name

/-- The name of the file in the root directory. -/
def shortName (path : List UInt8) : List UInt8 := skipUnderscore (stripUser path)

/-! ## The program -/

/-- An argument of the program: the path, and what `open` and `read` give; a file that can be opened
is read in pieces. -/
structure Arg where
  path : List UInt8
  data : Option (List (List UInt8))

/-- `while((cc = read(fd, buf, sizeof(buf))) > 0) iappend(inum, buf, cc);` -/
def appendAll (s : Mk) (inum : Nat) : List (List UInt8) → Except Stop Mk
  | [] => .ok s
  | buf :: bufs => do
    let s ← iappend s inum buf
    appendAll s inum bufs

/-- The body of the loop over the arguments. -/
def addFile (s : Mk) (a : Arg) : Except Stop Mk :=
  if 47 ∈ stripUser a.path then .error .assertSlash
  else
    match a.data with
    | none => .error .open
    | some bufs => do
      let (inum, s) ← ialloc s 2
      let s ← iappend s 1 (dirent inum (shortName a.path))
      appendAll s inum bufs

/-- The loop over the arguments. -/
def addFiles (s : Mk) : List Arg → Except Stop Mk
  | [] => .ok s
  | a :: as => do
    let s ← addFile s a
    addFiles s as

/-- The image of zeros, with the super block. -/
def blank : Mk where
  disk := Function.update (fun _ => Block.zero) 1 superBlock
  len := fssize
  freeinode := 1
  freeblock := nmeta

/-- The root directory with its two entries. -/
def makeRoot : Except Stop Mk := do
  let (rootino, s) ← ialloc blank 1
  if rootino ≠ 1 then throw .assertRoot
  let s ← iappend s 1 (dirent 1 [46])
  iappend s 1 (dirent 1 [46, 46])

/-- `((off/BSIZE) + 1) * BSIZE` -/
def roundUp (off : Nat) : Nat := (off / bsize + 1) * bsize

/-- `main`, after the image has been opened. -/
def mkfs (args : List Arg) : Except Stop Mk := do
  let s ← makeRoot
  let s ← addFiles s args
  -- fix size of root inode dir
  let din ← rinode s 1
  let s ← winode s { din with size := roundUp din.size }
  balloc s s.freeblock

end Xv6.Mkfs
