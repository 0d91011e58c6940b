import Xv6.Block

/-!
# The on-disk format: `kernel/fs.h`

What the blocks of a file system mean: the super block's numbers, bits of the free map, disk inodes
and the entries of indirect blocks.  Each is an access to a block at some offset, and each comes
with two facts: what was written is read back, and nothing else has changed.
-/

namespace Xv6
namespace Fs

variable {i j k o off v : Nat} {d : Block} {addrs : Nat → Nat} {ip : Inode}

/-! ## Constants -/

/-- `NDIRECT` -/
def ndirect : Nat := 12

/-- `NINDIRECT` -/
def nindirect : Nat := bsize / 4

/-- `MAXFILE`, in blocks. -/
def maxfile : Nat := ndirect + nindirect

/-- `sizeof(struct dinode)` -/
def dinodeSize : Nat := 64

/-- `IPB`, inodes per block. -/
def ipb : Nat := bsize / dinodeSize

/-- `BPB`, bits of the free map per block. -/
def bpb : Nat := bsize * 8

/-- `struct superblock`, without the fields the kernel does not use after `fsinit`. -/
structure Superblock where
  /-- Size of the file system image, in blocks. -/
  size : Nat
  /-- Number of inodes. -/
  ninodes : Nat
  /-- Number of log blocks. -/
  nlog : Nat
  /-- First log block. -/
  logstart : Nat
  /-- First inode block. -/
  inodestart : Nat
  /-- First block of the free map. -/
  bmapstart : Nat

/-- The numbers in the super block of `mkfs`. -/
def mkfsSuper : Superblock :=
  { size := 1000, ninodes := 200, nlog := 30, logstart := 2, inodestart := 32, bmapstart := 45 }

/-- `IBLOCK(i, sb)` -/
def iblock (sb : Superblock) (i : Nat) : Nat := i / ipb + sb.inodestart

/-- `BBLOCK(b, sb)` -/
def bblock (sb : Superblock) (b : Nat) : Nat := b / bpb + sb.bmapstart

/-! ## Bits of the free map -/

/-- `bp->data[bi/8] & (1 << (bi % 8))` -/
def bit (d : Block) (bi : Nat) : Bool := (d.byte (bi / 8)).testBit (bi % 8)

/-- `bp->data[bi/8] |= 1 << (bi % 8)` -/
def setBit (d : Block) (bi : Nat) : Block :=
  d.set (bi / 8) 1 (d.byte (bi / 8) ||| 2 ^ (bi % 8))

/-- `bp->data[bi/8] &= ~(1 << (bi % 8))` -/
def clearBit (d : Block) (bi : Nat) : Block :=
  d.set (bi / 8) 1 (d.byte (bi / 8) &&& (255 ^^^ 2 ^ (bi % 8)))

theorem byte_set_one (hi : i < bsize) (hv : v < 256) :
    (d.set i 1 v).byte j = if j = i then v else d.byte j := by
  split
  · rename_i h
    subst h
    rw [Block.byte_set_in hi (by omega), Nat.sub_self, pow_zero, Nat.div_one, Nat.mod_eq_of_lt hv]
  · exact Block.byte_set_out (by omega)

theorem eq_of_div_mod {a b : Nat} (h1 : a / 8 = b / 8) (h2 : a % 8 = b % 8) : a = b := by omega

theorem bit_setBit {bi bj : Nat} (hi : bi < bpb) :
    bit (setBit d bi) bj = (decide (bj = bi) || bit d bj) := by
  have hlt : d.byte (bi / 8) ||| 2 ^ (bi % 8) < 2 ^ 8 :=
    Nat.or_lt_two_pow (d.byte_lt _) (Nat.pow_lt_pow_right (by omega) (by omega))
  rw [bit, setBit, byte_set_one (by rw [bpb, bsize] at hi; rw [bsize]; omega) hlt, bit]
  split
  · rename_i h
    rw [h, Nat.testBit_or, Nat.testBit_two_pow, Bool.or_comm]
    congr 1
    rw [decide_eq_decide]
    exact ⟨fun h' => eq_of_div_mod h h'.symm, fun h' => by rw [h']⟩
  · rename_i h
    have : bj ≠ bi := fun h' => h (by rw [h'])
    simp [this]

theorem bit_clearBit {bi bj : Nat} (hi : bi < bpb) :
    bit (clearBit d bi) bj = (!decide (bj = bi) && bit d bj) := by
  have hlt : d.byte (bi / 8) &&& (255 ^^^ 2 ^ (bi % 8)) < 2 ^ 8 :=
    Nat.and_lt_two_pow _ (Nat.xor_lt_two_pow (by norm_num)
      (Nat.pow_lt_pow_right (by omega) (by omega)))
  rw [bit, clearBit, byte_set_one (by rw [bpb, bsize] at hi; rw [bsize]; omega) hlt, bit]
  split
  · rename_i h
    rw [h, Nat.testBit_and, Nat.testBit_xor, Nat.testBit_two_pow,
      show (255 : Nat) = 2 ^ 8 - 1 by rfl, Nat.testBit_two_pow_sub_one]
    have h8 : bj % 8 < 8 := Nat.mod_lt _ (by omega)
    have hiff : (bi % 8 = bj % 8) ↔ bj = bi :=
      ⟨fun h' => eq_of_div_mod h h'.symm, fun h' => by rw [h']⟩
    simp [h8, hiff, Bool.and_comm]
  · rename_i h
    have : bj ≠ bi := fun h' => h (by rw [h'])
    simp [this]

/-! ## Entries of an indirect block -/

/-- `((uint*)bp->data)[j]` -/
def entry (d : Block) (j : Nat) : Nat := d.get (4 * j) 4

/-- `((uint*)bp->data)[j] = v` -/
def setEntry (d : Block) (j v : Nat) : Block := d.set (4 * j) 4 v

theorem entry_setEntry (hi : i < nindirect) (hv : v < 2 ^ 32) :
    entry (setEntry d i v) j = if j = i then v else entry d j := by
  rw [entry, setEntry, entry]
  split
  · rename_i h
    rw [h, Block.get_set_self (by rw [nindirect, bsize] at hi; rw [bsize]; omega)
      (by simpa using hv)]
  · exact Block.get_set_of_disjoint (by omega)

/-! ## Inodes -/

/-- The fields that `struct inode` and `struct dinode` have in common, and the number of the inode.
A `short` is represented by its 16 bits. -/
@[ext] structure Inode where
  inum : Nat
  type : Nat
  major : Nat
  minor : Nat
  nlink : Nat
  size : Nat
  addrs : Fin (ndirect + 1) → Nat

/-- The offset of an inode in its block. -/
def dinodeOff (inum : Nat) : Nat := dinodeSize * (inum % ipb)

/-- `dip->type` of the inode `inum` in its block. -/
def dinodeType (d : Block) (inum : Nat) : Nat := d.get (dinodeOff inum) 2

/-- Read `struct dinode`. -/
def readDinode (d : Block) (inum : Nat) : Inode where
  inum := inum
  type := dinodeType d inum
  major := d.get (dinodeOff inum + 2) 2
  minor := d.get (dinodeOff inum + 4) 2
  nlink := d.get (dinodeOff inum + 6) 2
  size := d.get (dinodeOff inum + 8) 4
  addrs i := d.get (dinodeOff inum + 12 + 4 * i) 4

/-- `memmove(dip->addrs, ip->addrs, sizeof(ip->addrs))`, from `addrs[i]` on. -/
def writeAddrs (d : Block) (off : Nat) (addrs : Nat → Nat) : Nat → Block
  | 0 => d
  | n + 1 => (writeAddrs d off addrs n).set (off + 4 * n) 4 (addrs n)

/-- Write `struct dinode`. -/
def writeDinode (d : Block) (ip : Inode) : Block :=
  let o := dinodeOff ip.inum
  let d := d.set o 2 ip.type
  let d := d.set (o + 2) 2 ip.major
  let d := d.set (o + 4) 2 ip.minor
  let d := d.set (o + 6) 2 ip.nlink
  let d := d.set (o + 8) 4 ip.size
  writeAddrs d (o + 12) (fun i => if h : i < ndirect + 1 then ip.addrs ⟨i, h⟩ else 0) (ndirect + 1)

/-- `memset(dip, 0, sizeof(*dip))` followed by `dip->type = type`. -/
def clearDinode (d : Block) (inum type : Nat) : Block :=
  (d.set (dinodeOff inum) dinodeSize 0).set (dinodeOff inum) 2 type

/-- The fields fit into the integers that hold them. -/
structure Inode.Fits (ip : Inode) : Prop where
  type : ip.type < 2 ^ 16
  major : ip.major < 2 ^ 16
  minor : ip.minor < 2 ^ 16
  nlink : ip.nlink < 2 ^ 16
  size : ip.size < 2 ^ 32
  addrs : ∀ i, ip.addrs i < 2 ^ 32

theorem get_writeAddrs_of_disjoint :
    ∀ {n : Nat}, o + k ≤ off ∨ off + 4 * n ≤ o →
      (writeAddrs d off addrs n).get o k = d.get o k
  | 0, _ => rfl
  | n + 1, h => by
    rw [writeAddrs, Block.get_set_of_disjoint (by omega), get_writeAddrs_of_disjoint (by omega)]

theorem get_writeAddrs (hv : addrs i < 2 ^ 32) :
    ∀ {n : Nat}, i < n → off + 4 * n ≤ bsize →
      (writeAddrs d off addrs n).get (off + 4 * i) 4 = addrs i
  | 0, h, _ => absurd h (by omega)
  | n + 1, h, hb => by
    rw [writeAddrs]
    by_cases hin : i = n
    · subst hin
      exact Block.get_set_self (by omega) (by simpa using hv)
    · rw [Block.get_set_of_disjoint (by omega), get_writeAddrs hv (by omega) (by omega)]

theorem dinodeOff_le (inum : Nat) : dinodeOff inum + dinodeSize ≤ bsize := by
  have : inum % ipb < ipb := Nat.mod_lt _ (by decide)
  simp only [dinodeOff, dinodeSize, ipb, bsize] at *
  omega

theorem readDinode_writeDinode (h : ip.Fits) : readDinode (writeDinode d ip) ip.inum = ip := by
  have hb := dinodeOff_le ip.inum
  rw [dinodeSize] at hb
  have hlow : ∀ o k, o + k ≤ dinodeOff ip.inum + 12 →
      (writeDinode d ip).get o k = (((((d.set (dinodeOff ip.inum) 2 ip.type).set
        (dinodeOff ip.inum + 2) 2 ip.major).set (dinodeOff ip.inum + 4) 2 ip.minor).set
        (dinodeOff ip.inum + 6) 2 ip.nlink).set (dinodeOff ip.inum + 8) 4 ip.size).get o k :=
    fun o k hk => get_writeAddrs_of_disjoint (by omega)
  ext i
  · rfl
  · change (writeDinode d ip).get _ _ = _
    rw [hlow _ _ (by omega), Block.get_set_of_disjoint (by omega),
      Block.get_set_of_disjoint (by omega), Block.get_set_of_disjoint (by omega),
      Block.get_set_of_disjoint (by omega), Block.get_set_self (by omega) h.type]
  · change (writeDinode d ip).get _ _ = _
    rw [hlow _ _ (by omega), Block.get_set_of_disjoint (by omega),
      Block.get_set_of_disjoint (by omega), Block.get_set_of_disjoint (by omega),
      Block.get_set_self (by omega) h.major]
  · change (writeDinode d ip).get _ _ = _
    rw [hlow _ _ (by omega), Block.get_set_of_disjoint (by omega),
      Block.get_set_of_disjoint (by omega), Block.get_set_self (by omega) h.minor]
  · change (writeDinode d ip).get _ _ = _
    rw [hlow _ _ (by omega), Block.get_set_of_disjoint (by omega),
      Block.get_set_self (by omega) h.nlink]
  · change (writeDinode d ip).get _ _ = _
    rw [hlow _ _ (by omega), Block.get_set_self (by omega) h.size]
  · change (writeDinode d ip).get _ _ = _
    have hi := i.isLt
    rw [writeDinode, get_writeAddrs (by rw [dif_pos hi]; exact h.addrs i) hi
      (by rw [ndirect]; omega),
      dif_pos hi]

theorem dinodeOff_disjoint (h : i % ipb ≠ j % ipb) :
    dinodeOff i + dinodeSize ≤ dinodeOff j ∨ dinodeOff j + dinodeSize ≤ dinodeOff i := by
  simp only [dinodeOff, dinodeSize]
  omega

theorem get_writeDinode_of_disjoint
    (h : o + k ≤ dinodeOff ip.inum ∨ dinodeOff ip.inum + dinodeSize ≤ o) :
    (writeDinode d ip).get o k = d.get o k := by
  rw [dinodeSize] at h
  rw [writeDinode, get_writeAddrs_of_disjoint (by rw [ndirect]; omega)]
  repeat rw [Block.get_set_of_disjoint (by omega)]

theorem get_clearDinode_of_disjoint {inum type : Nat}
    (h : o + k ≤ dinodeOff inum ∨ dinodeOff inum + dinodeSize ≤ o) :
    (clearDinode d inum type).get o k = d.get o k := by
  rw [clearDinode, Block.get_set_of_disjoint (by rw [dinodeSize] at h; omega),
    Block.get_set_of_disjoint (by omega)]

end Fs
end Xv6
