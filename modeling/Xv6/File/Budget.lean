import Xv6.File.Write
import Xv6.Fs.Logged
import Xv6.Fs.Transfer

/-!
# One round of `filewrite` fits into the log

`filewrite` cuts a write into pieces of at most `max` bytes, so that a transaction logs no more than
`MAXOPBLOCKS` blocks.  The comment in the source counts the inode, the indirect block, the blocks of
the free map and two blocks for a write that is not aligned.  The count comes out exactly: a piece
that is not aligned touches four blocks of the file, but the first of them is there already, because
the file has no holes and the write does not begin beyond its end.
-/

namespace Xv6.File

open Bio Code Fs Finset

/-- One round of the loop of `filewrite`, on the inode of which `ip` is the copy in memory; `valid`
is `ip->valid`. -/
def filewriteRound (sb : Superblock) (valid : Bool) (ip : Inode) (addr off n1 : Nat) :
    K Nat (Option Nat × Inode) := do
  beginOp
  let ip ← if valid then pure ip else ilockRead sb ip.inum
  let r ← writei sb ip (.user addr) off n1
  let _ ← Code.call Cmd.endOp
  pure r

section Round

variable {sb : Superblock} {m : UserMem} {s : Disk} {i off n : Nat}

theorem logged_filewriteRound {valid : Bool} {addr : Nat} (ht : (dinode sb s i).type ≠ 0) :
    logged m (filewriteRound sb valid (dinode sb s i) addr off n) s =
      logged m (writei sb (dinode sb s i) (.user addr) off n) s := by
  have hend : ∀ c : K Nat (Option Nat × Inode),
      logged m (c >>= fun r => Code.call Cmd.endOp >>= fun _ => pure r) s = logged m c s := by
    intro c
    cases hx : exec (answer m) c s with
    | error e => exact logged_bind_error hx
    | ok r =>
      rw [logged_bind_ok hx]
      exact List.append_nil _
  cases valid with
  | true => exact hend _
  | false =>
    have hread : exec (answer m) (ilockRead sb (dinode sb s i).inum) s = .ok (dinode sb s i, s) :=
      yields_ilockRead ht
    have hnone : logged m (ilockRead sb (dinode sb s i).inum) s = [] := by
      rw [ilockRead, logged_bread]
      change logged m (if (dinode sb s i).type = 0 then _ else _) s = []
      rw [if_neg ht]
      rfl
    change logged m (ilockRead sb (dinode sb s i).inum >>= fun ip =>
      writei sb ip (.user addr) off n >>= fun r => Code.call Cmd.endOp >>= fun _ => pure r) s = _
    rw [logged_bind_ok hread, hnone, List.nil_append]
    exact hend _

/-- The slots that a piece has to fill, together with those it looks at. -/
theorem card_slots_missing_le (hf : Full sb s) (hi : i < sb.ninodes)
    (ht : (dinode sb s i).type ≠ 0) (hoff : off ≤ (dinode sb s i).size) (hn : n ≤ maxWrite) :
    ((blocksOf off n).biUnion slotsOf).card + (missing s (dinode sb s i) off n).card + 1 ≤
      maxOpBlocks := by
  have hmax : maxWrite = 3072 := rfl
  rcases Nat.eq_zero_or_pos n with rfl | hpos
  · exact Nat.le_of_ble_eq_true rfl
  have hslots := card_slots_le off n
  have hblocks := card_blocksOf_le off hpos
  have hmiss : (missing s (dinode sb s i) off n).card ≤ ((blocksOf off n).biUnion slotsOf).card :=
    card_le_card (filter_subset ..)
  have hdiv := Nat.div_add_mod off bsize
  by_cases hal : off % bsize = 0
  · have : (blocksOf off n).card ≤ 3 := by
      rw [bsize] at *
      omega
    rw [maxOpBlocks]
    omega
  · -- the block of the first byte is there
    have hfirst : (dinode sb s i).ref s (slotOf (off / bsize)) ≠ 0 := by
      have hlt : off / bsize * bsize < (dinode sb s i).size := by
        rw [Nat.mul_comm]
        omega
      have h0 := (hf i hi ht _ hlt).2
      rwa [refs_self hi ht] at h0
    have hnot : slotOf (off / bsize) ∉ missing s (dinode sb s i) off n := fun h =>
      hfirst (mem_filter.mp h).2
    have hin : slotOf (off / bsize) ∈ (blocksOf off n).biUnion slotsOf :=
      mem_biUnion.mpr ⟨_, div_mem_blocksOf hpos, slotOf_mem_slotsOf _⟩
    have hlt : (missing s (dinode sb s i) off n).card < ((blocksOf off n).biUnion slotsOf).card :=
      card_lt_card ⟨filter_subset .., fun hsub => hnot (hsub hin)⟩
    have : (blocksOf off n).card ≤ 4 := by
      rw [bsize] at *
      omega
    rw [maxOpBlocks]
    omega

end Round

/-- **A round of `filewrite` fits its log budget**: on a disk of any size whose free map is right
and on which no file has a hole, it logs at most `MAXOPBLOCKS` different blocks, whatever the memory
of the process is and whether or not it runs out of blocks. -/
theorem filewrite_round_fits {sb : Superblock} (hl : Layout sb) {s : Disk} (hs : Sound sb s)
    (hf : Full sb s) {i : Nat} (hi : i < sb.ninodes) (ht : (dinode sb s i).type ≠ 0) (m : UserMem)
    (valid : Bool) (addr off : Nat) {n1 : Nat} (hn : n1 ≤ maxWrite) :
    (logged m (filewriteRound sb valid (dinode sb s i) addr off n1) s).toFinset.card ≤
    maxOpBlocks := by
  rw [logged_filewriteRound ht]
  by_cases hoff : off ≤ (dinode sb s i).size
  · obtain ⟨R, hlog⟩ := exists_logged_writei (m := m) hl (hs.busy hi ht)
    exact (card_logged_le hlog).trans (card_slots_missing_le hf hi ht hoff hn)
  · rw [writei, if_pos (.inl (Nat.not_le.mp hoff))]
    exact Nat.zero_le _

/-- The first three blocks of a new file: the blocks, the inode and the block of the free map. -/
theorem filewrite_round_fits_withFile :
    (logged onePage (filewriteRound mkfsSuper false (dinode mkfsSuper withFile 1) 0 0 3072)
      withFile).toFinset.card ≤ maxOpBlocks ∧
    logged onePage (filewriteRound mkfsSuper false (dinode mkfsSuper withFile 1) 0 0 3072)
      withFile =
      [45, 46, 46, 45, 47, 47, 45, 48, 48, 32] := by
  have hset := settled_withFile
  refine ⟨filewrite_round_fits mkfsSuper_layout hset.own.sound (hset.full full_noFiles) (i := 1)
    (by decide) (by rw [hset.mine]; decide) onePage false 0 0 (by decide), ?_⟩
  decide +kernel

end Xv6.File
