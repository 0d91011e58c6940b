import Mathlib.Data.Nat.ModEq
import Mathlib.Tactic.Ring

/-!
# Constants and disk blocks

The compile-time constants of `kernel/param.h` and `kernel/fs.h`, and the contents of a disk block.

A block is its `BSIZE` bytes.  The kernel looks at them through casts — `(struct logheader *)
buf->data`, `(uint *) bp->data`, `(struct dinode *) bp->data + i` — all of which come down to
reading and writing little-endian integers at fixed byte offsets.  `Block.get` and `Block.set` are
those two accesses, for an integer of any number of bytes; `Block.get_set_self` and
`Block.get_set_of_disjoint` are all that is ever needed about them.
-/

namespace Xv6

/-! ## Constants -/

/-- `NPROC`, the size of the process table. -/
def nproc : Nat := 64

/-- `MAXOPBLOCKS`, the number of blocks one file-system operation may log. -/
def maxOpBlocks : Nat := 10

/-- `LOGSIZE`, the length of `log.lh.block[]`, and the `nlog` of the image `mkfs` builds. -/
def logSize : Nat := maxOpBlocks * 3

/-- `NBUF`, the size of the buffer cache. -/
def nbuf : Nat := maxOpBlocks * 3

/-- `BSIZE`, the number of bytes in a block. -/
def bsize : Nat := 1024

theorem mod_bsize_lt (o : Nat) : o % bsize < bsize := Nat.mod_lt o (by decide)

/-! ## Blocks -/

/-- The contents of a disk block. -/
abbrev Block := Fin bsize → UInt8

namespace Block

/-- The block `mkfs` and `bzero` write: all bytes zero. -/
def zero : Block := fun _ => 0

/-- The byte at an offset, `0` outside the block. -/
def byte (b : Block) (i : Nat) : Nat := if h : i < bsize then (b ⟨i, h⟩).toNat else 0

/-- The little-endian integer of `n` bytes at offset `off`. -/
def get (b : Block) (off : Nat) : Nat → Nat
  | 0 => 0
  | n + 1 => b.byte off + 256 * get b (off + 1) n

/-- Store the little-endian integer `v` in the `n` bytes at offset `off`. -/
def set (b : Block) (off n v : Nat) : Block := fun j =>
  if off ≤ j.val ∧ j.val < off + n then UInt8.ofNat (v / 256 ^ (j.val - off)) else b j

theorem byte_lt (b : Block) (i : Nat) : b.byte i < 256 := by
  rw [byte]
  split
  · exact UInt8.toNat_lt _
  · omega

theorem byte_set_in {b : Block} {off n v i : Nat} (hi : i < bsize) (h : off ≤ i ∧ i < off + n) :
    (b.set off n v).byte i = v / 256 ^ (i - off) % 256 := by
  rw [byte, dif_pos hi, set, if_pos h]
  simp

theorem byte_set_out {b : Block} {off n v i : Nat} (h : i < off ∨ off + n ≤ i) :
    (b.set off n v).byte i = b.byte i := by
  rw [byte, byte]
  split
  · rw [set, if_neg (show ¬ (off ≤ i ∧ i < off + n) by omega)]
  · rfl

theorem get_of_byte {b : Block} {n : Nat} : ∀ {off v : Nat},
    (∀ k, k < n → b.byte (off + k) = v / 256 ^ k % 256) → b.get off n = v % 256 ^ n := by
  induction n with
  | zero => intro off v _; rw [get, Nat.pow_zero, Nat.mod_one]
  | succ n ih =>
    intro off v h
    have h0 : b.byte off = v % 256 := by simpa using h 0 (by omega)
    have hrest : b.get (off + 1) n = v / 256 % 256 ^ n := by
      refine ih fun k hk => ?_
      have hk' := h (k + 1) (by omega)
      rw [show off + (k + 1) = off + 1 + k by ring, pow_succ', ← Nat.div_div_eq_div_mul] at hk'
      exact hk'
    rw [get, h0, hrest, pow_succ', Nat.mod_mul]

theorem get_congr {b c : Block} {n : Nat} : ∀ {off : Nat},
    (∀ i, off ≤ i → i < off + n → b.byte i = c.byte i) → b.get off n = c.get off n := by
  induction n with
  | zero => intro off _; rfl
  | succ n ih =>
    intro off h
    rw [get, get, h off (by omega) (by omega), ih fun i hi hi' => h i (by omega) (by omega)]

theorem get_lt (b : Block) (n : Nat) : ∀ off : Nat, b.get off n < 256 ^ n := by
  induction n with
  | zero => intro off; simp [get]
  | succ n ih =>
    intro off
    have hb := byte_lt b off
    have hr := ih (off + 1)
    rw [get, pow_succ']
    omega

theorem get_set_self {b : Block} {off n v : Nat} (h : off + n ≤ bsize) (hv : v < 256 ^ n) :
    (b.set off n v).get off n = v := by
  rw [get_of_byte (v := v), Nat.mod_eq_of_lt hv]
  intro k hk
  rw [byte_set_in (by omega) (by omega), Nat.add_sub_cancel_left]

theorem get_set_of_disjoint {b : Block} {off n v off' n' : Nat}
    (h : off' + n' ≤ off ∨ off + n ≤ off') : (b.set off n v).get off' n' = b.get off' n' :=
  get_congr fun i hi hi' => byte_set_out (by omega)

@[simp] theorem get_zero (off n : Nat) : zero.get off n = 0 := by
  induction n generalizing off with
  | zero => rfl
  | succ n ih =>
    rw [get, ih, byte]
    split <;> rfl

end Block

end Xv6
