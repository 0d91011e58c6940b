import Xv6.Fs.Inodes

/-!
# Files have no holes, so reading does not write

`readi` and `writei` share `bmap`, which allocates a block where it finds none.  `Full` says that no
allocated inode has such a place below its size; the inode layer keeps that, whatever calls are
made.  Then `readi` only reads blocks that belong to files: it does not get to `balloc`, which
starts by reading the free map, and neither stores to a buffer nor calls `log_write`.  The same
holds for `dirlookup` and `isdirempty`, which only use `readi`.

The free map has to be right for that.  Where a block of one file is the indirect block of another,
writing to the first makes holes in the second.
-/

namespace Xv6.Fs

open Bio Code Lts Lts.System

/-! ## Directories -/

/-- `T_DIR` -/
def tDir : Nat := 1

/-- `DIRSIZ` -/
def dirsiz : Nat := 14

/-- `sizeof(struct dirent)` -/
def direntSize : Nat := 16

/-- `de.inum`, for the bytes of a `struct dirent`. -/
def direntInum (bytes : List UInt8) : Nat :=
  (bytes.getD 0 0).toNat + 2 ^ 8 * (bytes.getD 1 0).toNat

/-- `strncmp(s, t, n) == 0`; a string that ends is followed by a zero byte. -/
def strncmpEq : (n : Nat) → List UInt8 → List UInt8 → Bool
  | 0, _, _ => true
  | n + 1, s, t =>
    if s.headD 0 ≠ t.headD 0 then false
    else if s.headD 0 = 0 then true
    else strncmpEq n s.tail t.tail

section

variable {H : Type}

/-- The loop of `dirlookup`; it returns `de.inum` and `off` of the entry it finds, and the inode. -/
def dirlookupLoop (sb : Superblock) (name : List UInt8) :
    (rounds : Nat) → Inode → (off : Nat) → K H (Option (Nat × Nat) × Inode)
  | 0, dp, _ => pure (none, dp)
  | rounds + 1, dp, off =>
    if off < dp.size then do
      let (tot, de, dp) ← readi sb dp .kernel off direntSize
      if tot ≠ direntSize then panic .dirlookupRead
      else if direntInum de = 0 then dirlookupLoop sb name rounds dp (off + direntSize)
      else if strncmpEq dirsiz name (de.drop 2) then pure (some (direntInum de, off), dp)
      else dirlookupLoop sb name rounds dp (off + direntSize)
    else pure (none, dp)

/-- `dirlookup(dp, name, &off)`, up to the `iget` of the inode it has found. -/
def dirlookup (sb : Superblock) (dp : Inode) (name : List UInt8) :
    K H (Option (Nat × Nat) × Inode) :=
  if dp.type ≠ tDir then panic .dirlookupNotDir
  else dirlookupLoop sb name dp.size dp 0

/-- The loop of `isdirempty`. -/
def isdiremptyLoop (sb : Superblock) : (rounds : Nat) → Inode → (off : Nat) → K H (Bool × Inode)
  | 0, dp, _ => pure (true, dp)
  | rounds + 1, dp, off =>
    if off < dp.size then do
      let (tot, de, dp) ← readi sb dp .kernel off direntSize
      if tot ≠ direntSize then panic .isdiremptyReadi
      else if direntInum de ≠ 0 then pure (false, dp)
      else isdiremptyLoop sb rounds dp (off + direntSize)
    else pure (true, dp)

/-- `isdirempty(dp)` -/
def isdirempty (sb : Superblock) (dp : Inode) : K H (Bool × Inode) :=
  isdiremptyLoop sb dp.size dp (2 * direntSize)

end

/-! ## Code that only reads -/

section

variable {sb : Superblock} {m : UserMem} {s : Disk} {ip : Inode}

theorem reads_dirlookup (h : Busy sb s ip) (hm : HoleFree sb s ip) (name : List UInt8) :
    Reads sb m (fun e => e = .dirlookupNotDir ∨ e = .dirlookupRead) (dirlookup sb ip name) s
      fun _ => True := by
  have hloop : ∀ rounds off, Reads sb m (fun e => e = .dirlookupNotDir ∨ e = .dirlookupRead)
      (dirlookupLoop sb name rounds ip off) s fun _ => True := by
    intro rounds
    induction rounds with
    | zero => intro off; exact ⟨rfl, trivial⟩
    | succ rounds ih =>
      intro off
      rw [dirlookupLoop]
      split
      · refine (reads_readi h hm).bind ?_
        rintro ⟨tot, de, ip1⟩ (rfl : ip1 = ip)
        dsimp only
        split
        · exact .inr rfl
        split
        · exact ih _
        split
        · exact ⟨rfl, trivial⟩
        · exact ih _
      · exact ⟨rfl, trivial⟩
  rw [dirlookup]
  split
  · exact .inl rfl
  · exact hloop _ _

theorem reads_isdirempty (h : Busy sb s ip) (hm : HoleFree sb s ip) :
    Reads sb m (fun e => e = .isdiremptyReadi) (isdirempty sb ip) s fun _ => True := by
  have hloop : ∀ rounds off, Reads sb m (fun e => e = .isdiremptyReadi)
      (isdiremptyLoop sb rounds ip off) s fun _ => True := by
    intro rounds
    induction rounds with
    | zero => intro off; exact ⟨rfl, trivial⟩
    | succ rounds ih =>
      intro off
      rw [isdiremptyLoop]
      split
      · refine (reads_readi h hm).bind ?_
        rintro ⟨tot, de, ip1⟩ (rfl : ip1 = ip)
        dsimp only
        split
        · exact rfl
        split
        · exact ⟨rfl, trivial⟩
        · exact ih _
      · exact ⟨rfl, trivial⟩
  rw [isdirempty]
  exact hloop _ _

end

/-! ## The inode layer -/

/-- **No holes.**  From a sound disk without holes every sequence of calls leads to disks without
holes.  An inode that has been read into the cache has none either, so `readi`, `dirlookup` and
`isdirempty` only read blocks that belong to files: they neither store to a block nor log one, they
do not look at the free map, and the disk and the inode are the same afterwards. -/
theorem reading_never_writes {sb : Superblock} (hl : Layout sb) {s : FsState}
    (h : (inodeLayer sb fun d => Sound sb d ∧ Full sb d).Reach Any s) :
    Full sb s.disk ∧ ∀ e, s.Locked e → HoleFree sb s.disk (s.icache e).ip ∧ ∀ m,
      (∀ dst off n, Reads sb m (fun _ => False) (readi sb (s.icache e).ip dst off n) s.disk
        fun r => r.2.2 = (s.icache e).ip) ∧
      (∀ name, Reads sb m (fun p => p = .dirlookupNotDir ∨ p = .dirlookupRead)
        (dirlookup sb (s.icache e).ip name) s.disk fun _ => True) ∧
      Reads sb m (fun p => p = .isdiremptyReadi) (isdirempty sb (s.icache e).ip) s.disk
        fun _ => True := by
  have hg := Good.of_full hl h
  refine ⟨hg.full trivial, fun e he => ?_⟩
  obtain ⟨hn, hd, ht⟩ := hg.locked he
  have hbusy := Busy.of_own hg.own hd hn ht
  have hm : HoleFree sb s.disk (s.icache e).ip := by
    rw [HoleFree, refsWith_dinode hd]
    have := hg.full trivial _ hn (hd ▸ ht)
    rwa [hd] at this
  exact ⟨hm, fun m => ⟨fun dst off n => reads_readi hbusy hm,
    fun name => reads_dirlookup hbusy hm name, reads_isdirempty hbusy hm⟩⟩

/-- A file of one block is read after it has been written. -/
theorem reading_never_writes_fault : ∃ s : FsState,
    (inodeLayer mkfsSuper fun d => Sound mkfsSuper d ∧ Full mkfsSuper d).Reach Any s ∧
    s.Locked entry0 ∧ (s.icache entry0).ip.size = 1024 ∧
    Reads mkfsSuper onePage (fun _ => False) (readi mkfsSuper (s.icache entry0).ip (.user 0) 0 1024)
      s.disk fun r => r.2.2 = (s.icache entry0).ip := by
  obtain ⟨s, hreach, hlock, hsize⟩ : ∃ s : FsState,
      (inodeLayer mkfsSuper fun d => Sound mkfsSuper d ∧ Full mkfsSuper d).Reach Any s ∧
        s.Locked entry0 ∧ (s.icache entry0).ip.size = 1024 :=
    (Reach.init (init_booted ⟨sound_noFiles, full_noFiles⟩)).replay createAndFault
      (by decide +kernel)
  exact ⟨s, hreach, hlock, hsize,
    ((reading_never_writes mkfsSuper_layout hreach).2 entry0 hlock).2 onePage |>.1 _ _ _⟩

/-! ## A disk that is not sound -/

/-- A file of one block, block 50. -/
def small : Inode :=
  { inum := 1, type := 2, major := 0, minor := 0, nlink := 1, size := 1024,
    addrs i := if i.val = 0 then 50 else 0 }

/-- A file of 13 blocks, with block 50 as its indirect block. -/
def large : Inode :=
  { inum := 2, type := 2, major := 0, minor := 0, nlink := 1, size := 13312,
    addrs i := if i.val < 12 then 51 + i.val else 50 }

/-- Both files on one disk; the first entry of block 50 is block 63. -/
def overlap : Disk :=
  updated mkfsSuper (updated mkfsSuper
    (Function.update noFiles 50 (setEntry Block.zero 0 63)) small) large

theorem full_overlap : Full mkfsSuper overlap := by
  have htype : ∀ i < 200, (dinode mkfsSuper overlap i).type ≠ 0 →
      (dinode mkfsSuper overlap i).size ≤ 13 * bsize ∧ ∀ bn < 13,
        bn * bsize < (dinode mkfsSuper overlap i).size →
          refs mkfsSuper overlap (i, slotOf bn) ≠ 0 := by
    decide +kernel
  intro i hi ht bn hbn
  obtain ⟨h1, h2⟩ := htype i hi ht
  have h13 : bn < 13 := by
    rw [bsize] at h1 hbn
    omega
  exact ⟨h13.trans (by decide), h2 bn h13 hbn⟩

/-- No file has a hole at first; but a `write` of four zeros to one of them makes one in the other.
-/
theorem hole_by_sharing : Full mkfsSuper overlap ∧ ∃ s : FsState,
    (inodeLayer mkfsSuper (Full mkfsSuper)).Reach Any s ∧ s.halted = none ∧
    ¬ Full mkfsSuper s.disk := by
  refine ⟨full_overlap, ?_⟩
  obtain ⟨s, hs, h0, ht, hsize, href⟩ : ∃ s, (inodeLayer mkfsSuper (Full mkfsSuper)).Reach Any s ∧
      s.halted = none ∧ (dinode mkfsSuper s.disk 2).type = 2 ∧
      (dinode mkfsSuper s.disk 2).size = 13312 ∧ refs mkfsSuper s.disk (2, slotOf 12) = 0 :=
    (Reach.init (init_booted full_overlap)).replay
      [.iget 1, .ilock entry0, .writei entry0 noMem (.kernel [0, 0, 0, 0]) 0 4] (by decide +kernel)
  refine ⟨s, hs, h0, fun hf => ?_⟩
  have hm := hf 2 (by decide) (by rw [ht]; decide) 12
  rw [hsize] at hm
  exact (hm (by decide)).2 href

end Xv6.Fs
