import Xv6.Fs.Room
import Xv6.Fs.Names

/-!
# The contents of files

`content` are the bytes of a file: as many as its size says, read through its block map.  This
module says what `readi` and `writei` do in these terms, for every offset and length, on a disk
whose free map is right and on which no file has a hole.

* A write that is in range replaces bytes, and makes the file longer if it has to; the other files
  are as they were.  It needs a free block for each slot that it has to fill (`missing`).
* A write that is not in range does nothing.
* A read returns the bytes that are there, as many as it asks for or up to the end.
-/

namespace Xv6.Fs

open Bio Code Function

/-! ## Contents -/

/-- The bytes of the inode `i` on disk. -/
def content (sb : Superblock) (s : Disk) (i : Nat) : List UInt8 := (dinode sb s i).bytes s

section Contents

variable {sb : Superblock} {s s' : Disk} {ip ip' : Inode} {data : List UInt8} {off : Nat}

/-- A file without holes is on disk where `readi` looks for it. -/
theorem Inode.holds_bytes
    (h : ∀ bn, bn * bsize < ip.size → bn < maxfile ∧ ip.ref s (slotOf bn) ≠ 0) :
    Holds s ip (ip.bytes s) := by
  intro o ho
  rw [length_bytes] at ho
  have hle : o / bsize * bsize < ip.size := (Nat.div_mul_le_self o bsize).trans_lt ho
  obtain ⟨hmax, h0⟩ := h _ hle
  refine ⟨hmax, h0, ?_⟩
  rw [getElem_bytes, byteAt, block, if_neg h0, Block.byte, dif_pos (mod_bsize_lt o)]

theorem Inode.bytes_congr (hs : ∀ y, ip.ref s y ≠ 0 → s' (ip.ref s y) = s (ip.ref s y)) :
    ip.bytes s' = ip.bytes s := by
  rw [bytes, bytes, Inode.byteAt_congr (fun _ => rfl) hs]

end Contents

/-! ## Reads and writes -/

/-- A write of `data` at `off` of the file `i` has taken the disk from `s` to `s'`. -/
structure Overwritten (sb : Superblock) (s : Disk) (i off : Nat) (data : List UInt8)
    (s' : Disk) : Prop where
  content : content sb s' i = overwrite (content sb s i) off data
  size : (dinode sb s' i).size = max (dinode sb s i).size (off + data.length)
  others : ∀ j, j < sb.ninodes → (dinode sb s j).type ≠ 0 → j ≠ i →
    Fs.content sb s' j = Fs.content sb s j
  sound : Sound sb s'
  full : Full sb s'

section Transfer

variable {sb : Superblock} {s s' : Disk} {i off : Nat} {m : UserMem} {src : Src} {data : List UInt8}

theorem refs_self (hi : i < sb.ninodes) (ht : (dinode sb s i).type ≠ 0) (y : Slot) :
    refs sb s (i, y) = (dinode sb s i).ref s y := if_pos ⟨hi, ht⟩

/-- The copy of an inode in memory that has just been read. -/
theorem Sound.busy (hs : Sound sb s) (hi : i < sb.ninodes) (ht : (dinode sb s i).type ≠ 0) :
    Busy sb s (dinode sb s i) := .of_own hs.own rfl hi ht

theorem Full.holds (hf : Full sb s) (hi : i < sb.ninodes) (ht : (dinode sb s i).type ≠ 0) :
    Holds s (dinode sb s i) (Fs.content sb s i) := by
  refine Inode.holds_bytes fun bn hbn => ?_
  obtain ⟨h1, h2⟩ := hf i hi ht bn hbn
  exact ⟨h1, by rwa [← refs_self hi ht]⟩

theorem content_of_keeps (hk : KeepsOthers sb s (dinode sb s i) s') {j : Nat} (hj : j < sb.ninodes)
    (htj : (dinode sb s j).type ≠ 0) (hne : j ≠ i) (hd : dinode sb s' j = dinode sb s j) :
    content sb s' j = content sb s j := by
  rw [content, content, hd]
  refine Inode.bytes_congr fun y hy => ?_
  have hx := hk (j, y) hne
  rw [refsWith_dinode rfl, refs_self hj htj] at hx
  exact hx hy

theorem writei_in_range (hl : Layout sb) (hs : Sound sb s) (hf : Full sb s) (hi : i < sb.ninodes)
    (ht : (dinode sb s i).type ≠ 0) (hsrc : src.Gives m data) (hoff : off ≤ (dinode sb s i).size)
    (hmax : off + data.length ≤ maxfile * bsize)
    (hroom : (missing s (dinode sb s i) off data.length).card ≤ (freeBlocks sb s).card) :
    ∃ s', exec (answer m) (writei sb (dinode sb s i) src off data.length) s =
      .ok ((some data.length, dinode sb s' i), s') ∧ Overwritten sb s i off data s' := by
  have hb := hs.busy hi ht
  have hret : Returns m (writei sb (dinode sb s i) src off data.length) s :=
    returns_writei hl hb hroom
  obtain ⟨⟨⟨r, ip'⟩, s'⟩, hexec⟩ := hret
  obtain ⟨hset, hkeep, -, -, harrive⟩ := Ends.of_ok (runs_writei hl hs.own rfl hi ht) hexec
  obtain ⟨hr, hsize, hbytes⟩ := harrive data hsrc rfl hoff hmax
  dsimp only at hr hsize hbytes hset hkeep
  subst hr
  have hmine : dinode sb s' i = ip' := hset.mine
  refine ⟨s', by rw [hexec, hmine], ?_, ?_, fun j hj htj hne => ?_, hset.own.sound, hset.full hf⟩
  · rw [content, hmine]
    exact Inode.bytes_of_written hoff hsize hbytes
  · rw [hmine, hsize, Nat.max_comm]
  · exact content_of_keeps hkeep hj htj hne (hset.others j hj hne)

/-- A write that is not in range, in the arithmetic of `uint`s. -/
theorem writei_out_of_range {ip : Inode} {n : Nat}
    (h : ¬ (off ≤ ip.size ∧ off + n ≤ maxfile * bsize)) :
    exec (answer m) (writei sb ip src off n) s = .ok ((none, ip), s) := by
  have hbig : maxfile * bsize < 2 ^ 32 := by decide
  rw [writei]
  split
  · rfl
  · rename_i hno
    rw [if_pos]
    · rfl
    · by_contra hle
      have hmod := Nat.mod_lt (off + n) (Nat.two_pow_pos 32)
      omega

end Transfer

/-- **File contents.**  On a disk whose free map is right and on which no file has a hole, for every
offset and every length, both `uint`s:

* a write in range whose source can be read, with a free block for every slot that it has to fill,
  returns the length; the bytes of the file are replaced from the offset on, and the other files are
  as they were;
* a write that is not in range returns -1 and does nothing;
* a read into memory that can be written returns the bytes from the offset on, as many as there are,
  or none if the sum of offset and length is not a `uint`, and does nothing. -/
theorem file_contents {sb : Superblock} (hl : Layout sb) {s : Disk} (hs : Sound sb s)
    (hf : Full sb s)
    {i : Nat} (hi : i < sb.ninodes) (ht : (dinode sb s i).type ≠ 0) (m : UserMem) {off n : Nat}
    (hoff : off < 2 ^ 32) (hn : n < 2 ^ 32) :
    (∀ src data, data.length = n → Src.Gives m data src → off ≤ (dinode sb s i).size →
      off + n ≤ maxfile * bsize →
      (missing s (dinode sb s i) off n).card ≤ (freeBlocks sb s).card →
      ∃ s', exec (answer m) (writei sb (dinode sb s i) src off n) s =
        .ok ((some n, dinode sb s' i), s') ∧ Overwritten sb s i off data s') ∧
    (∀ src, ¬ (off ≤ (dinode sb s i).size ∧ off + n ≤ maxfile * bsize) →
      exec (answer m) (writei sb (dinode sb s i) src off n) s = .ok ((none, dinode sb s i), s)) ∧
    (∀ dst, Dst.Takes m n dst → exec (answer m) (readi sb (dinode sb s i) dst off n) s = .ok
      (if off + n < 2 ^ 32 then
        (min n ((dinode sb s i).size - off), ((content sb s i).drop off).take n, dinode sb s i)
      else (0, [], dinode sb s i), s)) := by
  have h32 : (dinode sb s i).size < 2 ^ 32 := (dinode_fits sb s i).size
  refine ⟨?_, fun src hout => writei_out_of_range hout, fun dst hdst => ?_⟩
  · rintro src data rfl hsrc hle hmax hroom
    exact writei_in_range hl hs hf hi ht hsrc hle hmax hroom
  · have hread : Yields m (readi sb (dinode sb s i) dst off n) s _ :=
      yields_readi (hf.holds hi ht) (Inode.length_bytes ..) h32 hoff hn hdst
    rw [List.length_take, List.length_drop, content, Inode.length_bytes] at hread
    exact hread

/-- A disk with one file, which is empty. -/
def withFile : Disk :=
  update noFiles (iblock mkfsSuper 1) (clearDinode (noFiles (iblock mkfsSuper 1)) 1 tFile)

theorem settled_withFile : Settled mkfsSuper noFiles 1 withFile (freshInode 1 tFile) :=
  .ialloc mkfsSuper_layout sound_noFiles.own (by decide) (by decide) (dinode_noFiles (by decide))

/-- Three bytes are written to an empty file, and read back. -/
theorem file_contents_withFile : ∃ s, exec (answer noMem)
      (writei mkfsSuper (dinode mkfsSuper withFile 1) (.kernel [1, 2, 3]) 0 3) withFile =
        .ok ((some 3, dinode mkfsSuper s 1), s) ∧
    exec (answer noMem) (readi mkfsSuper (dinode mkfsSuper s 1) .kernel 0 3) s =
      .ok ((3, [1, 2, 3], dinode mkfsSuper s 1), s) := by
  have hset := settled_withFile
  have hcontent : content mkfsSuper withFile 1 = [] := by
    rw [content, hset.mine]
    rfl
  obtain ⟨s, hexec, hw⟩ := (file_contents mkfsSuper_layout hset.own.sound (hset.full full_noFiles)
    (i := 1) (by decide) (by rw [hset.mine]; decide) noMem (by decide : 0 < 2 ^ 32)
    (by decide : 3 < 2 ^ 32)).1
    (.kernel [1, 2, 3]) [1, 2, 3] rfl rfl (Nat.zero_le _) (by decide) (by decide +kernel)
  have hsize : (dinode mkfsSuper s 1).size = 3 := by
    rw [hw.size, hset.mine]
    rfl
  have htype : (exec (answer noMem) (writei mkfsSuper (dinode mkfsSuper withFile 1)
      (.kernel [1, 2, 3]) 0 3) withFile).toOption.map (fun r => (dinode mkfsSuper r.2 1).type) =
      some tFile := by decide +kernel
  rw [hexec] at htype
  have ht : (dinode mkfsSuper s 1).type ≠ 0 :=
    fun h0 => absurd (h0.symm.trans (Option.some.inj htype))
    (by decide)
  have hread := (file_contents mkfsSuper_layout hw.sound hw.full (i := 1) (by decide) ht noMem
    (by decide : 0 < 2 ^ 32) (by decide : 3 < 2 ^ 32)).2.2 .kernel trivial
  rw [hw.content, hcontent, hsize] at hread
  exact ⟨s, hexec, hread⟩

end Xv6.Fs
