import Xv6.Fs.Blocks

/-!
# Which file a block belongs to

A block is referred to from one of three kinds of places: a direct slot of an inode, the slot of
its indirect block, and the entries of the indirect block.  `refAt` lists these references for a
table of inodes, `refs` for the table that is on disk.

While a system call works on an inode, the copy in memory is ahead of the one on disk.  `refsWith`
is the list in which that copy stands in for the one on disk, and `Busy` says that the free map
agrees with it.  Every function of `fs.c` is specified by what it does to it; `iupdate` at the end
makes `refsWith` and `refs` the same again.
-/

namespace Xv6.Fs

open Bio Code Nat
open Function (update update_self update_of_ne update_eq_self_iff)

variable {bn i j n off : Nat} {dst : Dst} {ip' : Inode} {src : Src}

/-! ## References -/

/-- The places in a file that refer to blocks. -/
inductive Slot where
  /-- `addrs[i]`; `addrs[NDIRECT]` is the indirect block. -/
  | addr (i : Nat)
  /-- The `j`-th entry of the indirect block. -/
  | ent (j : Nat)
  deriving DecidableEq

/-- A slot of one of the inodes. -/
abbrev Site := Nat × Slot

/-- The slot of the `bn`-th block of a file. -/
def slotOf (bn : Nat) : Slot := if bn < ndirect then .addr bn else .ent (bn - ndirect)

/-- The block a slot of an inode refers to, 0 for none. -/
def Inode.ref (ip : Inode) (s : Disk) : Slot → Nat
  | .addr i => ip.addr i
  | .ent j =>
    if ip.addr ndirect ≠ 0 ∧ j < nindirect then entry (s (ip.addr ndirect)) j else 0

/-- The references from the allocated inodes of a table. -/
def refAt (sb : Superblock) (t : Nat → Inode) (s : Disk) (x : Site) : Nat :=
  if x.1 < sb.ninodes ∧ (t x.1).type ≠ 0 then (t x.1).ref s x.2 else 0

/-- The inode `i` on disk. -/
def dinode (sb : Superblock) (s : Disk) (i : Nat) : Inode := readDinode (s (iblock sb i)) i

/-- The references from the inodes on disk. -/
def refs (sb : Superblock) (s : Disk) : Site → Nat := refAt sb (dinode sb s) s

/-- The references when `ip` stands in for the inode on disk. -/
def refsWith (sb : Superblock) (s : Disk) (ip : Inode) : Site → Nat :=
  refAt sb (update (dinode sb s) ip.inum ip) s

section Addrs

variable {ip : Inode} {i bn v : Nat}

theorem Inode.addr_setAddr (h : bn ≤ ndirect) :
    (ip.setAddr bn v).addr i = if i = bn then v else ip.addr i := by
  rw [setAddr, dif_pos (lt_succ_of_le h), addr, addr]
  split
  · by_cases hi : i = bn
    · subst hi; simp
    · dsimp only
      rw [if_neg hi, update_of_ne (by simpa using hi)]
  · rw [if_neg (by omega)]

/-- Only `addrs` differs. -/
def Inode.Same (ip ip' : Inode) : Prop := ip' = { ip with addrs := ip'.addrs }

theorem Inode.Same.refl (ip : Inode) : ip.Same ip := rfl

theorem Inode.Same.trans {a b c : Inode} (h : a.Same b) (h' : b.Same c) : a.Same c := by
  rw [Same] at *
  rw [h', h]

theorem Inode.same_setAddr : ip.Same (ip.setAddr bn v) := by
  rw [setAddr]
  split <;> rfl

theorem Inode.Same.inum (h : ip.Same ip') : ip'.inum = ip.inum := by rw [h]
theorem Inode.Same.type (h : ip.Same ip') : ip'.type = ip.type := by rw [h]
theorem Inode.Same.nlink (h : ip.Same ip') : ip'.nlink = ip.nlink := by rw [h]
theorem Inode.Same.size (h : ip.Same ip') : ip'.size = ip.size := by rw [h]

theorem Inode.Fits.setAddr (h : ip.Fits) (hv : v < 2 ^ 32) : (ip.setAddr bn v).Fits := by
  rw [Inode.setAddr]
  split
  · refine ⟨h.type, h.major, h.minor, h.nlink, h.size, fun i => ?_⟩
    dsimp only
    by_cases hi : i = ⟨bn, ‹_›⟩
    · rw [hi, update_self]; exact hv
    · rw [update_of_ne hi]; exact h.addrs i
  · exact h

theorem dinode_fits (sb : Superblock) (s : Disk) (i : Nat) : (dinode sb s i).Fits :=
  ⟨Block.get_lt _ 2 _, Block.get_lt _ 2 _, Block.get_lt _ 2 _, Block.get_lt _ 2 _,
    Block.get_lt _ 4 _, fun _ => Block.get_lt _ 4 _⟩

end Addrs

section Refs

variable {sb : Superblock} {t t' : Nat → Inode} {s s' : Disk} {ip : Inode}

/-- The references depend on the inodes and on the contents of the indirect blocks, nothing else. -/
theorem refAt_congr (ht : ∀ i, i < sb.ninodes → t' i = t i)
    (hs : ∀ i, refAt sb t s (i, .addr ndirect) ≠ 0 →
      s' (refAt sb t s (i, .addr ndirect)) = s (refAt sb t s (i, .addr ndirect))) :
    refAt sb t' s' = refAt sb t s := by
  funext ⟨i, x⟩
  rw [refAt, refAt]
  by_cases hi : i < sb.ninodes
  · rw [ht i hi]
    split
    · rename_i hti
      cases x with
      | addr k => rfl
      | ent j =>
        have hri : refAt sb t s (i, .addr ndirect) = (t i).addr ndirect := if_pos hti
        have := hs i
        rw [hri] at this
        rw [Inode.ref, Inode.ref]
        split
        · rename_i hj
          rw [this hj.1]
        · rfl
    · rfl
  · rw [if_neg (fun h => hi h.1), if_neg (fun h => hi h.1)]

theorem refsWith_self (x : Slot) (hi : ip.inum = i) (hn : ip.inum < sb.ninodes) (ht : ip.type ≠ 0) :
    refsWith sb s ip (i, x) = ip.ref s x := by
  subst hi
  rw [refsWith, refAt, if_pos (by simpa using ⟨hn, ht⟩), update_self]

theorem refsWith_other (x : Slot) (hi : i ≠ ip.inum) :
    refsWith sb s ip (i, x) = refs sb s (i, x) := by
  rw [refsWith, refAt, update_of_ne hi, refs, refAt]

theorem dinode_congr (h : ∀ i, i < sb.ninodes → s' (iblock sb i) = s (iblock sb i))
    (hi : i < sb.ninodes) : dinode sb s' i = dinode sb s i := by
  rw [dinode, h i hi, dinode]

/-- With the copy on disk standing in for itself nothing changes. -/
theorem refsWith_dinode (h : dinode sb s ip.inum = ip) : refsWith sb s ip = refs sb s := by
  have ht : update (dinode sb s) ip.inum ip = dinode sb s := by
    rw [update_eq_self_iff, h]
  rw [refsWith, ht, refs]

theorem refsWith_congr (hi : ∀ i, i < sb.ninodes → s' (iblock sb i) = s (iblock sb i))
    (hs : ∀ i, refsWith sb s ip (i, .addr ndirect) ≠ 0 →
      s' (refsWith sb s ip (i, .addr ndirect)) = s (refsWith sb s ip (i, .addr ndirect))) :
    refsWith sb s' ip = refsWith sb s ip := by
  refine refAt_congr (fun i hin => ?_) hs
  by_cases h : i = ip.inum
  · rw [h, update_self, update_self]
  · rw [update_of_ne h, update_of_ne h, dinode_congr hi hin]

/-- Filling or clearing a slot of the inode in memory.  The slot of the indirect block brings its
entries with it, so these have to be empty. -/
theorem refsWith_setAddr {v : Nat} (hbn : bn ≤ ndirect) (hn : ip.inum < sb.ninodes)
    (ht : ip.type ≠ 0) (hv : bn = ndirect → ip.addr ndirect = 0 ∧ ∀ j, entry (s v) j = 0) :
    refsWith sb s (ip.setAddr bn v) = update (refsWith sb s ip) (ip.inum, .addr bn) v := by
  have hsame : ip.Same (ip.setAddr bn v) := Inode.same_setAddr
  funext ⟨i, x⟩
  by_cases hi : i = ip.inum
  · subst hi
    rw [refsWith_self x hsame.inum (by rwa [hsame.inum]) (by rwa [hsame.type])]
    cases x with
    | addr k =>
      rw [Inode.ref, Inode.addr_setAddr hbn]
      by_cases hk : k = bn
      · rw [if_pos hk, hk, update_self]
      · rw [if_neg hk, update_of_ne (by simpa using hk), refsWith_self _ rfl hn ht,
          Inode.ref]
    | ent j =>
      rw [update_of_ne (by simp), refsWith_self _ rfl hn ht, Inode.ref, Inode.ref,
        Inode.addr_setAddr hbn]
      by_cases hb : bn = ndirect
      · obtain ⟨h0, hz⟩ := hv hb
        rw [if_pos hb.symm, hz j, h0]
        simp
      · rw [if_neg fun h : ndirect = bn => hb h.symm]
  · rw [refsWith_other x (by rwa [hsame.inum]), update_of_ne (by simp [hi]),
      refsWith_other x hi]

theorem refsWith_setEntry {b : Nat} (hj : j < nindirect) (hb : b < 2 ^ 32)
    (hn : ip.inum < sb.ninodes) (ht : ip.type ≠ 0) (hind : ip.addr ndirect ≠ 0)
    (hblk : ∀ i, i < sb.ninodes → iblock sb i ≠ ip.addr ndirect)
    (hone : ∀ i, i ≠ ip.inum → refs sb s (i, .addr ndirect) ≠ ip.addr ndirect) :
    refsWith sb (update s (ip.addr ndirect) (setEntry (s (ip.addr ndirect)) j b)) ip
      = update (refsWith sb s ip) (ip.inum, .ent j) b := by
  set s' := update s (ip.addr ndirect) (setEntry (s (ip.addr ndirect)) j b) with hs'
  have hin : ∀ i, i < sb.ninodes → s' (iblock sb i) = s (iblock sb i) :=
    fun i hi => update_of_ne (hblk i hi) ..
  funext ⟨i, x⟩
  by_cases hi : i = ip.inum
  · subst hi
    rw [refsWith_self x rfl hn ht]
    cases x with
    | addr k => rw [update_of_ne (by simp), refsWith_self _ rfl hn ht, Inode.ref, Inode.ref]
    | ent k =>
      rw [Inode.ref, hs', update_self, entry_setEntry hj hb]
      by_cases hk : k = j
      · subst hk
        rw [update_self, if_pos ⟨hind, hj⟩, if_pos rfl]
      · rw [update_of_ne (by simpa using hk), refsWith_self _ rfl hn ht, Inode.ref,
          if_neg hk]
  · rw [refsWith_other x hi, update_of_ne (by simp [hi]), refsWith_other x hi, refs, refs]
    -- the other inodes: their indirect blocks are not the one written to
    rw [refAt, refAt]
    by_cases hni : i < sb.ninodes
    · rw [dinode_congr hin hni]
      split
      · rename_i hti
        cases x with
        | addr k => rfl
        | ent k =>
          have hri : refs sb s (i, .addr ndirect) = (dinode sb s i).addr ndirect := if_pos hti
          have := hone i hi
          rw [hri] at this
          rw [Inode.ref, Inode.ref, hs', update_of_ne this]
      · rfl
    · rw [if_neg (fun h => hni h.1), if_neg (fun h => hni h.1)]

end Refs

/-! ## An inode that is being worked on -/

/-- The caller holds the lock of the inode, of which `ip` is the copy in memory, and the free map
agrees with it. -/
structure Busy (sb : Superblock) (s : Disk) (ip : Inode) : Prop where
  own : Own sb s (refsWith sb s ip)
  inum : ip.inum < sb.ninodes
  type : ip.type ≠ 0
  fits : ip.Fits

/-- The blocks of the other files are as they were. -/
def KeepsOthers (sb : Superblock) (s : Disk) (ip : Inode) (s' : Disk) : Prop :=
  ∀ x : Site, x.1 ≠ ip.inum → refsWith sb s ip x ≠ 0 →
    s' (refsWith sb s ip x) = s (refsWith sb s ip x)

/-- What `bmap` and stores to file contents do: the copy in memory gets more blocks and keeps those
it has; the inodes on disk and the blocks of other files do not change. -/
structure Extends (sb : Superblock) (s : Disk) (ip : Inode) (s' : Disk) (ip' : Inode) : Prop where
  busy : Busy sb s' ip'
  inodes : ∀ i, i < sb.ninodes → s' (iblock sb i) = s (iblock sb i)
  same : ip.Same ip'
  keeps : ∀ x, refsWith sb s ip x ≠ 0 → refsWith sb s' ip' x = refsWith sb s ip x
  others : KeepsOthers sb s ip s'

/-- What `bmap` does to the contents of files: they stay, and a block that a file gets is zero. -/
structure Clean (sb : Superblock) (s : Disk) (ip : Inode) (s' : Disk) (ip' : Inode) : Prop where
  old : ∀ x, x.2 ≠ .addr ndirect → refsWith sb s ip x ≠ 0 →
    s' (refsWith sb s ip x) = s (refsWith sb s ip x)
  fresh : ∀ x, x.2 ≠ .addr ndirect → refsWith sb s ip x = 0 → refsWith sb s' ip' x ≠ 0 →
    s' (refsWith sb s' ip' x) = Block.zero

section Busy

variable {sb : Superblock} {s s' s'' : Disk} {ip ip' ip'' : Inode} {m : UserMem} {b : Nat}

theorem Busy.ref (h : Busy sb s ip) (x : Slot) :
    refsWith sb s ip (ip.inum, x) = ip.ref s x := refsWith_self x rfl h.inum h.type

theorem Busy.addr (h : Busy sb s ip) (i : Nat) :
    refsWith sb s ip (ip.inum, .addr i) = ip.addr i := h.ref _

theorem Busy.addr_data (h : Busy sb s ip) (hi : ip.addr i ≠ 0) : IsData sb (ip.addr i) := by
  have := h.own.owned.managed (ip.inum, .addr i)
  rw [h.addr] at this
  exact this hi

theorem Extends.refl (h : Busy sb s ip) : Extends sb s ip s ip :=
  ⟨h, fun _ _ => rfl, .refl _, fun _ _ => rfl, fun _ _ _ => rfl⟩

theorem Extends.trans (h : Extends sb s ip s' ip') (h' : Extends sb s' ip' s'' ip'') :
    Extends sb s ip s'' ip'' := by
  refine ⟨h'.busy, fun i hi => (h'.inodes i hi).trans (h.inodes i hi), h.same.trans h'.same,
    fun x hx => ?_, fun x hi hx => ?_⟩
  · have hx' := h.keeps x hx
    rw [h'.keeps x (by rwa [hx']), hx']
  · have hx' := h.keeps x hx
    rw [← hx', h'.others x (by rwa [h.same.inum]) (by rwa [hx']), hx', h.others x hi hx]

theorem Clean.refl (s : Disk) (ip : Inode) : Clean sb s ip s ip :=
  ⟨fun _ _ _ => rfl, fun _ _ h0 h => absurd h0 h⟩

theorem Clean.trans (h : Clean sb s ip s' ip') (he : Extends sb s ip s' ip')
    (h' : Clean sb s' ip' s'' ip'') (he' : Extends sb s' ip' s'' ip'') :
    Clean sb s ip s'' ip'' := by
  refine ⟨fun x hx h0 => ?_, fun x hx h0 h0' => ?_⟩
  · have hk := he.keeps x h0
    rw [← hk, h'.old x hx (by rwa [hk]), hk, h.old x hx h0]
  · by_cases h1 : refsWith sb s' ip' x = 0
    · exact h'.fresh x hx h1 h0'
    · rw [he'.keeps x h1, h'.old x hx h1, h.fresh x hx h0 h1]

/-- A block that has just been allocated, before anything refers to it. -/
theorem Busy.refsWith_allocated (hl : Layout sb) (h : Busy sb s ip) (hb : b < sb.size)
    (hf : used sb s b = false) : refsWith sb (allocated sb s b) ip = refsWith sb s ip := by
  have hd := h.own.data_of_free hb hf
  refine refsWith_congr (fun i hi => allocated_of_ne (hd.ne_iblock hi) (hl.iblock_ne_bblock hi hb))
    fun i hi => allocated_of_ne (h.own.owned.ne_of_free hd hf _) fun he => ?_
  exact (h.own.owned.managed _ hi).ne_bblock hb he.symm

theorem Busy.allocated_old (h : Busy sb s ip) (hb : b < sb.size) (hf : used sb s b = false)
    {x : Site} (hx : refsWith sb s ip x ≠ 0) :
    allocated sb s b (refsWith sb s ip x) = s (refsWith sb s ip x) :=
  allocated_of_ne (h.own.owned.ne_of_free (h.own.data_of_free hb hf) hf _) fun he =>
    (h.own.owned.managed _ hx).ne_bblock hb he.symm

section

variable (hl : Layout sb) (h : Busy sb s ip)

include hl h

section

variable (hb : b < sb.size) (hf : used sb s b = false) (hbn : bn ≤ ndirect) (h0 : ip.addr bn = 0)

include hb hf hbn h0

theorem Busy.refs_setAddr :
    refsWith sb (allocated sb s b) (ip.setAddr bn b)
      = update (refsWith sb s ip) (ip.inum, .addr bn) b := by
  rw [refsWith_setAddr hbn h.inum h.type, h.refsWith_allocated hl hb hf]
  rintro rfl
  exact ⟨h0, fun j => by rw [allocated_self, entry, Block.get_zero]⟩

theorem Clean.setAddr : Clean sb s ip (allocated sb s b) (ip.setAddr bn b) := by
  refine ⟨fun x _ hx => h.allocated_old hb hf hx, fun x _ hx hx' => ?_⟩
  rw [h.refs_setAddr hl hb hf hbn h0] at hx' ⊢
  by_cases he : x = (ip.inum, .addr bn)
  · rw [he, update_self, allocated_self]
  · rw [update_of_ne he] at hx'
    exact absurd hx hx'

/-- Putting an allocated block into a slot of the inode in memory. -/
theorem Extends.setAddr : Extends sb s ip (allocated sb s b) (ip.setAddr bn b) := by
  have hd := h.own.data_of_free hb hf
  have hsame : ip.Same (ip.setAddr bn b) := Inode.same_setAddr
  have href := h.refs_setAddr hl hb hf hbn h0
  refine ⟨⟨?_, by rw [hsame.inum]; exact h.inum, by rw [hsame.type]; exact h.type,
    h.fits.setAddr (hb.trans hl.size)⟩,
    fun i hi => allocated_of_ne (hd.ne_iblock hi) (hl.iblock_ne_bblock hi hb), hsame,
    fun x hx => ?_, fun x _ => h.allocated_old hb hf⟩
  · rw [href]
    exact h.own.allocated hb hf (by rw [h.addr, h0])
  · rw [href, update_of_ne]
    rintro rfl
    exact hx (by rw [h.addr, h0])

end

/-- `bmap` for a direct block, and for the indirect block. -/
theorem runs_bmapDirect (hbn : bn ≤ ndirect) :
    Runs m (bmapDirect sb ip bn) s fun r s' =>
      Extends sb s ip s' r.2 ∧ r.1 = r.2.addr bn ∧ r.1 ≠ 0 ∧ Clean sb s ip s' r.2 ∧
        (ip.addr bn ≠ 0 → r.2 = ip) := by
  rw [bmapDirect]
  split
  · rename_i h0
    refine runs_balloc.bind ?_
    rintro b _ ⟨hb, hf, rfl⟩
    have hd := h.own.data_of_free hb hf
    refine ⟨.setAddr hl h hb hf hbn h0, ?_, hd.ne_zero, .setAddr hl h hb hf hbn h0, absurd h0⟩
    rw [Inode.addr_setAddr hbn, if_pos rfl]
  · exact ⟨.refl h, rfl, ‹_›, .refl .., fun _ => rfl⟩

section

variable (hb : b < sb.size) (hf : used sb s b = false) (hj : j < nindirect)
  (hind : ip.addr ndirect ≠ 0)

include hb hf hj hind

theorem Busy.refs_setEntry :
    refsWith sb (update (allocated sb s b) (ip.addr ndirect)
      (setEntry (s (ip.addr ndirect)) j b)) ip
      = update (refsWith sb s ip) (ip.inum, .ent j) b := by
  have hid := h.addr_data hind
  have hx : refsWith sb s ip (ip.inum, .addr ndirect) ≠ 0 := by rwa [h.addr]
  have hkeep := h.allocated_old hb hf hx
  rw [h.addr] at hkeep
  rw [← hkeep, refsWith_setEntry hj (hb.trans hl.size) h.inum h.type hind fun i hi =>
    hid.ne_iblock hi,
    h.refsWith_allocated hl hb hf]
  intro i hi he
  rw [← refsWith_other _ hi, h.refsWith_allocated hl hb hf, ← h.addr] at he
  have := h.own.owned.once _ _ (by rw [he, h.addr]; exact hind) he
  exact hi (congrArg Prod.fst this)

theorem Clean.setEntry :
    Clean sb s ip (update (allocated sb s b) (ip.addr ndirect)
      (Fs.setEntry (s (ip.addr ndirect)) j b)) ip := by
  refine ⟨fun x hx h0 => ?_, fun x hx h0 h0' => ?_⟩
  · rw [update_of_ne, h.allocated_old hb hf h0]
    rw [← h.addr]
    exact fun he => hx (by rw [h.own.owned.once _ _ h0 he])
  · rw [h.refs_setEntry hl hb hf hj hind] at h0' ⊢
    by_cases he : x = (ip.inum, .ent j)
    · have hne : b ≠ ip.addr ndirect := by
        rw [← h.addr]
        exact (h.own.owned.ne_of_free (h.own.data_of_free hb hf) hf _).symm
      rw [he, update_self, update_of_ne hne, allocated_self]
    · rw [update_of_ne he] at h0'
      exact absurd h0 h0'

/-- Putting an allocated block into an entry of the indirect block. -/
theorem Extends.setEntry (h0 : entry (s (ip.addr ndirect)) j = 0) :
    Extends sb s ip (update (allocated sb s b) (ip.addr ndirect)
      (Fs.setEntry (s (ip.addr ndirect)) j b)) ip ∧
    refsWith sb (update (allocated sb s b) (ip.addr ndirect)
      (Fs.setEntry (s (ip.addr ndirect)) j b)) ip (ip.inum, .ent j) = b := by
  have hd := h.own.data_of_free hb hf
  have hid := h.addr_data hind
  have hblk : ∀ i, i < sb.ninodes → iblock sb i ≠ ip.addr ndirect := fun i hi => hid.ne_iblock hi
  have href := h.refs_setEntry hl hb hf hj hind
  have hempty : refsWith sb s ip (ip.inum, .ent j) = 0 := by
    rw [h.ref, Inode.ref, if_pos ⟨hind, hj⟩, h0]
  refine ⟨⟨⟨?_, h.inum, h.type, h.fits⟩, fun i hi => ?_, .refl _, fun x hx => ?_,
    fun x hi hx => ?_⟩, ?_⟩
  · rw [href]
    exact (h.own.allocated hb hf hempty).congr fun c hc => used_update (hid.ne_bblock hc)
  · rw [update_of_ne (hblk i hi)]
    exact allocated_of_ne (hd.ne_iblock hi) (hl.iblock_ne_bblock hi hb)
  · rw [href, update_of_ne]
    rintro rfl
    exact hx hempty
  · -- the indirect block is that of this file
    rw [update_of_ne, h.allocated_old hb hf hx]
    rw [← h.addr]
    exact fun he => hi (by rw [h.own.owned.once _ _ hx he])
  · rw [href, update_self]

end

/-- **What `bmap` does.** -/
theorem runs_bmap (hbn : bn < maxfile) :
    Runs m (bmap sb ip bn) s fun r s' => Extends sb s ip s' r.2 ∧
      r.1 = refsWith sb s' r.2 (ip.inum, slotOf bn) ∧ r.1 ≠ 0 ∧ Clean sb s ip s' r.2 ∧
        (refsWith sb s ip (ip.inum, slotOf bn) ≠ 0 → r.2 = ip) := by
  rw [bmap, h.ref, slotOf]
  split
  · rename_i hd
    refine (runs_bmapDirect hl h (le_of_lt hd)).mono ?_
    rintro r s' ⟨he, hr, h0, hc, hsame⟩
    refine ⟨he, ?_, h0, hc, hsame⟩
    rw [hr, ← he.same.inum, he.busy.addr]
  · rename_i hd
    rw [maxfile] at hbn
    have hj : bn - ndirect < nindirect := by omega
    rw [if_pos hj]
    refine (runs_bmapDirect hl h (le_refl _)).bind ?_
    rintro ⟨ind, ip'⟩ s' ⟨he, hi, hind, hc, hsame⟩
    dsimp only at he hi hind hc hsame ⊢
    subst hi
    have hsame : ip.ref s (.ent (bn - ndirect)) ≠ 0 → ip' = ip := fun hent =>
      hsame fun hz => hent (if_neg fun hne => hne.1 hz)
    rw [ends_bread]
    rw [← he.same.inum]
    split
    · rename_i h0
      refine runs_balloc.bind ?_
      rintro b _ ⟨hb, hf, rfl⟩
      rw [ends_store, ends_logWrite, ends_brelse]
      obtain ⟨hext, href⟩ := Extends.setEntry hl he.busy hb hf hj hind h0
      exact ⟨he.trans hext, href.symm, (he.busy.own.data_of_free hb hf).ne_zero,
        hc.trans he (.setEntry hl he.busy hb hf hj hind) hext, hsame⟩
    · rename_i h0
      rw [ends_brelse]
      refine ⟨he, ?_, h0, hc, hsame⟩
      rw [he.busy.ref, Inode.ref, if_pos ⟨hind, hj⟩]

end

theorem Busy.refs_store (h : Busy sb s ip) {x : Slot} (hx : refsWith sb s ip (ip.inum, x) ≠ 0)
    (hd : x ≠ .addr ndirect) (v : Block) :
    refsWith sb (update s (refsWith sb s ip (ip.inum, x)) v) ip = refsWith sb s ip := by
  have hdata := h.own.owned.managed _ hx
  refine refsWith_congr (fun i hi => update_of_ne (hdata.ne_iblock hi) ..)
    fun i hi => update_of_ne (fun he => hd ?_) ..
  exact congrArg Prod.snd (h.own.owned.once _ _ hi he).symm

/-- A store to a block of the file. -/
theorem Extends.store (h : Busy sb s ip) {x : Slot} (hx : refsWith sb s ip (ip.inum, x) ≠ 0)
    (hd : x ≠ .addr ndirect) (v : Block) :
    Extends sb s ip (update s (refsWith sb s ip (ip.inum, x)) v) ip := by
  have hdata := h.own.owned.managed _ hx
  have href := h.refs_store hx hd v
  refine ⟨⟨?_, h.inum, h.type, h.fits⟩, fun i hi => update_of_ne (hdata.ne_iblock hi) ..,
    .refl _, fun _ _ => by rw [href], fun y hi hy => update_of_ne (fun he => hi ?_) ..⟩
  · rw [href]
    exact h.own.congr fun c hc => used_update (hdata.ne_bblock hc)
  · rw [h.own.owned.once _ _ hy he]

theorem slotOf_inj {a : Nat} (h : slotOf a = slotOf b) : a = b := by
  rw [slotOf, slotOf] at h
  split at h <;> split at h
  · exact Slot.addr.inj h
  · nomatch h
  · nomatch h
  · have := Slot.ent.inj h
    omega

theorem slotOf_ne (bn : Nat) : slotOf bn ≠ .addr ndirect := by
  rw [slotOf]
  split
  · rename_i h
    intro he
    rw [Slot.addr.injEq] at he
    omega
  · simp

end Busy

/-! ## Writing an inode back -/

/-- What `iupdate` does to the blocks. -/
def updated (sb : Superblock) (s : Disk) (ip : Inode) : Disk :=
  update s (iblock sb ip.inum) (writeDinode (s (iblock sb ip.inum)) ip)

/-- The blocks of the file up to `size` are all there, and are not too many. -/
def Mapped (ref : Site → Nat) (i size : Nat) : Prop :=
  ∀ bn, bn * bsize < size → bn < maxfile ∧ ref (i, slotOf bn) ≠ 0

/-- No file has a hole. -/
def Full (sb : Superblock) (s : Disk) : Prop :=
  ∀ i, i < sb.ninodes → (dinode sb s i).type ≠ 0 → Mapped (refs sb s) i (dinode sb s i).size

/-- Where a function that works on the inode `inum` has arrived when it returns: the free map agrees
with the inodes on disk, of which one is `ip`, and the others are as they were. -/
structure Settled (sb : Superblock) (s : Disk) (inum : Nat) (s' : Disk) (ip : Inode) : Prop where
  own : Own sb s' (refs sb s')
  mine : dinode sb s' inum = ip
  others : ∀ i, i < sb.ninodes → i ≠ inum → dinode sb s' i = dinode sb s i
  full : Full sb s → Full sb s'

section Update

variable {sb : Superblock} {s s' : Disk} {ip ip' : Inode} {m : UserMem}

theorem runs_iupdate (ip : Inode) : Runs m (iupdate sb ip) s fun _ s' => s' = updated sb s ip := rfl

theorem readDinode_congr {d d' : Block}
    (h : ∀ o k, dinodeOff i ≤ o → o + k ≤ dinodeOff i + dinodeSize → d'.get o k = d.get o k) :
    readDinode d' i = readDinode d i := by
  have h' : ∀ o k, o + k ≤ dinodeSize → d'.get (dinodeOff i + o) k = d.get (dinodeOff i + o) k :=
    fun o k hk => h _ _ (by omega) (by omega)
  rw [dinodeSize] at h'
  rw [readDinode, readDinode, dinodeType, dinodeType]
  have h0 := h' 0 2 (by omega)
  rw [add_zero] at h0
  rw [h0, h' 2 2 (by omega), h' 4 2 (by omega), h' 6 2 (by omega), h' 8 4 (by omega)]
  congr 1
  funext k
  have hk : k.val ≤ 12 := le_of_lt_succ k.isLt
  rw [add_assoc, h' _ _ (by omega)]

/-- Changing one inode of a block leaves the others alone. -/
theorem dinode_update_of_ne {v : Block} (hij : i ≠ j)
    (hv : ∀ o k, o + k ≤ dinodeOff j ∨ dinodeOff j + dinodeSize ≤ o →
      v.get o k = (s (iblock sb j)).get o k) :
    dinode sb (update s (iblock sb j) v) i = dinode sb s i := by
  rw [dinode, dinode]
  by_cases hb : iblock sb i = iblock sb j
  · have hm : i % ipb ≠ j % ipb := by
      intro hm
      have hd : i / ipb = j / ipb := add_right_cancel hb
      exact hij (by rw [← div_add_mod i ipb, ← div_add_mod j ipb, hd, hm])
    rw [hb, update_self]
    have hdis := dinodeOff_disjoint hm
    exact readDinode_congr fun o k h1 h2 => hv o k (by omega)
  · rw [update_of_ne hb]

theorem dinode_updated (h : ip.Fits) :
    dinode sb (updated sb s ip) = update (dinode sb s) ip.inum ip := by
  funext i
  by_cases hi : i = ip.inum
  · subst hi
    rw [update_self, dinode, updated, update_self, readDinode_writeDinode h]
  · rw [update_of_ne hi, updated,
      dinode_update_of_ne hi fun o k hd => get_writeDinode_of_disjoint hd]

/-- A change to the inodes keeps the free map and the contents of files. -/
theorem refAt_iblock {t : Nat → Inode} (h : Own sb s (refAt sb t s)) (hi : i < sb.ninodes)
    (v : Block) :
    refAt sb t (update s (iblock sb i) v) = refAt sb t s :=
  refAt_congr (fun _ _ => rfl) fun _ hj =>
    update_of_ne (fun he => (h.owned.managed _ hj).ne_iblock hi he.symm) ..

theorem Own.iblock {ι : Type} {ref : ι → Nat} (hl : Layout sb) (h : Own sb s ref)
    (hi : i < sb.ninodes) (v : Block) : Own sb (update s (iblock sb i) v) ref :=
  h.congr fun _ hc => used_update fun he => hl.iblock_ne_bblock hi hc he.symm

/-- What was true of the copy in memory is true of the disk once it has been written to the block
of the inode.  `v` is what that block then holds. -/
theorem Settled.write (hl : Layout sb) {v : Block}
    (hv : dinode sb (update s' (Fs.iblock sb ip.inum) v)
      = update (dinode sb s') ip.inum ip)
    (hin : ∀ i, i < sb.ninodes → s' (Fs.iblock sb i) = s (Fs.iblock sb i))
    (h : Own sb s' (refsWith sb s' ip)) (hn : ip.inum < sb.ninodes)
    (hm : Full sb s → ip.type ≠ 0 → Mapped (refsWith sb s' ip) ip.inum ip.size)
    (ho : ∀ i x, i ≠ ip.inum → refsWith sb s' ip (i, x) = 0 → refs sb s (i, x) = 0) :
    Settled sb s ip.inum (update s' (Fs.iblock sb ip.inum) v) ip := by
  set s'' := update s' (Fs.iblock sb ip.inum) v with hs''
  have hr : refs sb s'' = refsWith sb s' ip := by
    rw [refs, hv, hs'', refAt_iblock h hn, refsWith]
  have hother : ∀ i, i < sb.ninodes → i ≠ ip.inum → dinode sb s'' i = dinode sb s i := by
    intro i hi hii
    rw [hv, update_of_ne hii, dinode_congr hin hi]
  have hmine : dinode sb s'' ip.inum = ip := by rw [hv, update_self]
  refine ⟨?_, hmine, hother, fun hfull i hi ht => ?_⟩
  · rw [hr]
    exact h.iblock hl hn _
  · rw [hr]
    by_cases hii : i = ip.inum
    · subst hii
      rw [hmine] at ht ⊢
      exact hm hfull ht
    · rw [hother i hi hii] at ht ⊢
      intro bn hbn
      obtain ⟨h1, h2⟩ := hfull i hi ht bn hbn
      exact ⟨h1, fun h0 => h2 (ho i _ hii h0)⟩

/-- **What `iupdate` does**, at the end of a function that has changed file contents and the free
map. -/
theorem Settled.update (hl : Layout sb)
    (hin : ∀ i, i < sb.ninodes → s' (Fs.iblock sb i) = s (Fs.iblock sb i))
    (h : Own sb s' (refsWith sb s' ip)) (hn : ip.inum < sb.ninodes) (hf : ip.Fits)
    (hm : Full sb s → ip.type ≠ 0 → Mapped (refsWith sb s' ip) ip.inum ip.size)
    (ho : ∀ i x, i ≠ ip.inum → refsWith sb s' ip (i, x) = 0 → refs sb s (i, x) = 0) :
    Settled sb s ip.inum (updated sb s' ip) ip :=
  .write hl (dinode_updated hf) hin h hn hm ho

theorem Settled.trans {s'' : Disk} (h : Settled sb s i s' ip) (h' : Settled sb s' i s'' ip') :
    Settled sb s i s'' ip' :=
  ⟨h'.own, h'.mine, fun k hk hki => (h'.others k hk hki).trans (h.others k hk hki),
    fun hf => h'.full (h.full hf)⟩

theorem Busy.of_own (h : Own sb s (refs sb s)) (hd : dinode sb s ip.inum = ip)
    (hn : ip.inum < sb.ninodes) (ht : ip.type ≠ 0) : Busy sb s ip :=
  ⟨by rwa [refsWith_dinode hd], hn, ht, hd ▸ dinode_fits sb s _⟩

end Update

/-! ## Growing a file -/

section Write

variable {sb : Superblock} {s s' : Disk} {ip ip' : Inode} {m : UserMem}

theorem Mapped.extend (h : Extends sb s ip s' ip') (hm : Mapped (refsWith sb s ip) i off) :
    Mapped (refsWith sb s' ip') i off := by
  intro bn hbn
  obtain ⟨h1, h2⟩ := hm bn hbn
  exact ⟨h1, by rwa [h.keeps _ h2]⟩

theorem Mapped.append {ref : Site → Nat} (hm : Mapped ref i off) (hlt : off / bsize < maxfile)
    (hr : ref (i, slotOf (off / bsize)) ≠ 0) (hn : n ≤ bsize - off % bsize) :
    Mapped ref i (off + n) := by
  intro bn hbn
  by_cases h : bn * bsize < off
  · exact hm bn h
  · have : bn = off / bsize := by
      rw [bsize] at *
      omega
    subst this
    exact ⟨hlt, hr⟩

/-- References do not depend on the other fields of the inode. -/
theorem refsWith_fields (hi : ip'.inum = ip.inum) (ht : ip'.type = ip.type)
    (ha : ip'.addrs = ip.addrs) : refsWith sb s ip' = refsWith sb s ip := by
  have haddr : ip'.addr = ip.addr := by
    funext k
    rw [Inode.addr, Inode.addr, ha]
  have href : ip'.ref s = ip.ref s := by
    funext x
    cases x <;> rw [Inode.ref, Inode.ref, haddr]
  funext ⟨i, x⟩
  rw [refsWith, refsWith, refAt, refAt, hi]
  by_cases h : i = ip.inum
  · rw [h, update_self, update_self, ht, href]
  · rw [update_of_ne h, update_of_ne h]

theorem Extends.refs_eq_zero (h : Extends sb s ip s' ip') (hd : dinode sb s ip.inum = ip) {x : Site}
    (hx : refsWith sb s' ip' x = 0) : refs sb s x = 0 := by
  by_contra h0
  rw [← refsWith_dinode hd] at h0
  exact h0 (by rw [← h.keeps x h0, hx])

/-- The inode after `if(off > ip->size) ip->size = off`. -/
def Inode.grow (ip : Inode) (off : Nat) : Inode :=
  if off > ip.size then { ip with size := off } else ip

theorem Inode.grow_inum (ip : Inode) (off : Nat) : (ip.grow off).inum = ip.inum := by
  rw [grow]; split <;> rfl

theorem Inode.grow_type (ip : Inode) (off : Nat) : (ip.grow off).type = ip.type := by
  rw [grow]; split <;> rfl

theorem Inode.grow_size (ip : Inode) (off : Nat) : (ip.grow off).size = max off ip.size := by
  rw [grow]
  split
  · rename_i h
    exact (max_eq_left (le_of_lt h)).symm
  · rename_i h
    exact (max_eq_right (le_of_not_gt h)).symm

theorem Inode.Fits.grow {ip : Inode} (h : ip.Fits) (ho : off < 2 ^ 32) : (ip.grow off).Fits := by
  rw [Inode.grow]
  split
  · exact ⟨h.type, h.major, h.minor, h.nlink, ho, h.addrs⟩
  · exact h

theorem refsWith_grow (ip : Inode) (off : Nat) : refsWith sb s (ip.grow off) = refsWith sb s ip :=
  refsWith_fields (ip.grow_inum off) (ip.grow_type off) (by rw [Inode.grow]; split <;> rfl)

end Write

/-! ## Code that only reads -/

/-- The commands of code that reads files: it reads blocks that may belong to a file, it stores to
none and logs none, and it panics only with `E`. -/
def reading (sb : Superblock) (m : UserMem) (E : Panic → Prop) :
    (c : Cmd Nat) → Disk → (Ans c → Disk → Prop) → Prop
  | .bread b, s, Q => IsData sb b ∧ Q (b, s b) s
  | .copyout va bytes, s, Q => Q (copyin m va bytes.length).2 s
  | .brelse _, s, Q => Q () s
  | .panic e, _, _ => E e
  | _, _, _ => False

theorem monotone_reading (sb : Superblock) (m : UserMem) (E : Panic → Prop) :
    Code.Monotone (reading sb m E) := by
  intro c s Q Q' hQ hs
  cases c with
  | bread b => exact ⟨hs.1, hQ _ _ hs.2⟩
  | copyout va bytes | brelse b => exact hQ _ _ hs
  | panic e => exact hs
  | _ => exact hs.elim

/-- The code only reads when it is run from `s`, and returns with `Q`. -/
abbrev Reads (sb : Superblock) (m : UserMem) (E : Panic → Prop) {α : Type} (c : K Nat α) (s : Disk)
    (Q : α → Prop) : Prop :=
  wp (reading sb m E) c s fun a s' => s' = s ∧ Q a

section Rules

variable {α β : Type} {sb : Superblock} {m : UserMem} {E E' : Panic → Prop} {s : Disk} {ip : Inode}
  {Q : α → Prop} {b n : Nat} {dst : Dst}

/-- **What `readi` and the like do** to the disk: nothing. -/
theorem Reads.runs {c : K Nat α} (hc : Reads sb m Tolerated c s Q) :
    Runs m c s fun a s' => s' = s ∧ Q a := by
  refine wp_imp (monotone_reading sb m Tolerated) (fun c s Q h => ?_) hc
  cases c with
  | bread b => exact h.2
  | copyout va bytes | brelse b | panic e => exact h
  | _ => exact h.elim

theorem Reads.bind {c : K Nat β} {f : β → K Nat α} {R : β → Prop} (hc : Reads sb m E c s R)
    (hf : ∀ a, R a → Reads sb m E (f a) s Q) : Reads sb m E (c >>= f) s Q := by
  refine wp_bind (monotone_reading sb m E) (wp_mono (monotone_reading sb m E) ?_ hc)
  rintro a s' ⟨rfl, ha⟩
  exact hf a ha

theorem reads_bread {k : Nat × Block → K Nat α} :
    Reads sb m E (bread b >>= k) s Q ↔ IsData sb b ∧ Reads sb m E (k (b, s b)) s Q := Iff.rfl

theorem reads_brelse {k : Unit → K Nat α} :
    Reads sb m E (brelse b >>= k) s Q ↔ Reads sb m E (k ()) s Q := Iff.rfl

theorem reads_eitherCopyout {tot : Nat} {bytes : List UInt8} {k : Bool → K Nat α}
    (hk : ∀ ok, Reads sb m E (k ok) s Q) :
    Reads sb m E (eitherCopyout dst tot bytes >>= k) s Q := by
  cases dst with
  | user va | kernel => exact hk _

/-- The blocks of a file below its size are there. -/
abbrev HoleFree (sb : Superblock) (s : Disk) (ip : Inode) : Prop :=
  Mapped (refsWith sb s ip) ip.inum ip.size

theorem reads_bmap (h : Busy sb s ip) {bn : Nat} (hbn : bn < maxfile)
    (hm : refsWith sb s ip (ip.inum, slotOf bn) ≠ 0) :
    Reads sb m E (bmap sb ip bn) s fun r => r.2 = ip ∧ IsData sb r.1 := by
  have hdata := h.own.owned.managed _ hm
  rw [bmap]
  rw [slotOf] at hm hdata
  split
  · rename_i hd
    rw [if_pos hd, h.addr] at hm hdata
    rw [bmapDirect, if_neg hm]
    exact ⟨rfl, rfl, hdata⟩
  · rename_i hd
    rw [maxfile] at hbn
    have hj : bn - ndirect < nindirect := by omega
    rw [if_neg hd, h.ref, Inode.ref] at hm hdata
    have hind : ip.addr ndirect ≠ 0 := fun h0 => hm (by simp [h0])
    rw [if_pos ⟨hind, hj⟩] at hm hdata
    rw [if_pos hj, bmapDirect, if_neg hind, pure_eq, ret_bind, reads_bread]
    refine ⟨h.addr_data hind, ?_⟩
    dsimp only
    rw [if_neg hm, reads_brelse]
    exact ⟨rfl, rfl, hdata⟩

theorem reads_readiLoop (h : Busy sb s ip) (hm : HoleFree sb s ip) (rounds : Nat) :
    ∀ {tot off : Nat} {acc : List UInt8}, tot ≤ n → off + (n - tot) ≤ ip.size →
      Reads sb m E (readiLoop sb dst n rounds ip tot off acc) s fun r => r.2.2 = ip := by
  induction rounds with
  | zero => intro tot off acc _ _; exact ⟨rfl, rfl⟩
  | succ rounds ih =>
    intro tot off acc htot hlen
    rw [readiLoop]
    split
    · have hb : off / bsize * bsize < ip.size := by
        have := Nat.div_mul_le_self off bsize
        omega
      obtain ⟨hbn, h0⟩ := hm _ hb
      refine (reads_bmap h hbn h0).bind ?_
      rintro ⟨addr, ip1⟩ ⟨hip, hdata⟩
      dsimp only at hip hdata ⊢
      subst hip
      refine reads_bread.mpr ⟨hdata, ?_⟩
      refine reads_eitherCopyout fun ok => ?_
      rw [reads_brelse]
      split
      · have hle : min (n - tot) (bsize - off % bsize) ≤ n - tot := Nat.min_le_left ..
        exact ih (by omega) (by omega)
      · exact ⟨rfl, rfl⟩
    · exact ⟨rfl, rfl⟩

theorem reads_readi (h : Busy sb s ip) (hm : HoleFree sb s ip) {off : Nat} :
    Reads sb m E (readi sb ip dst off n) s fun r => r.2.2 = ip := by
  rw [readi]
  split
  · exact ⟨rfl, rfl⟩
  · rename_i hoff
    refine reads_readiLoop h hm _ (Nat.zero_le _) ?_
    split <;> omega

end Rules

end Xv6.Fs
