import Xv6.Fs.Transfer

/-!
# The file system as a map from inode numbers to nodes

What a system call is about is not blocks and slots: an inode has a type, device numbers, a link
count and some bytes, or it is free.  `nodes` is a disk seen in this way, and `Represents sb s ns`
says that `s` is a sound disk, without holes, on which one sees `ns`.

Each function that changes the disk changes one node:

* `runs_writei_node`: `writei` in range replaces bytes;
* `runs_iupdate_node`: `iupdate` after stores to the device numbers or the link count;
* `runs_ialloc_node`: `ialloc` makes a node without bytes and links;
* `runs_itrunc_node`, `runs_iputFree_node`: the bytes go away, or the whole node, which is what
  `iunlockput` may do.

The other nodes stay, for two reasons that are kept apart below.  Their inodes are not written
(`Settled.others`), and their blocks are not (`KeepsOthers`).
-/

namespace Xv6.Fs

open Bio Code
open Function (update)

variable {b k off : Nat} {ip : Inode} {src : Src}

/-! ## Code that may panic -/

section Ends

variable {α β : Type} {m : UserMem} {E : Panic → Prop} {s : Disk} {Q : α → Disk → Prop}

theorem Yields.ends_bind {c : K Nat β} {f : β → K Nat α} {b : β} (hc : Yields m c s b)
    (hf : Ends m E (f b) s Q) : Ends m E (c >>= f) s Q := by
  rw [Ends, wp_specOf_iff, exec_bind, hc]
  exact wp_specOf_iff.mp hf

theorem Ends.total {c : K Nat α} {E' : Panic → Prop} (hc : Ends m E c s Q) (hr : Returns m c s) :
    Ends m E' c s Q := by
  obtain ⟨r, hr⟩ := hr
  rw [Ends, wp_specOf_iff, hr] at hc ⊢
  exact hc

theorem Ends.exists_ok {c : K Nat α} (hc : Ends m (fun _ => False) c s Q) :
    ∃ a s', exec (answer m) c s = .ok (a, s') ∧ Q a s' := by
  rw [Ends, wp_specOf_iff] at hc
  split at hc
  · exact ⟨_, _, ‹_›, hc⟩
  · exact hc.elim

end Ends

/-! ## Nodes -/

/-- An inode that is not free, as a system call sees it. -/
structure Node where
  type : Nat
  major : Nat
  minor : Nat
  nlink : Nat
  bytes : List UInt8
  deriving DecidableEq

/-- The node that an inode stands for. -/
def Inode.node (ip : Inode) (s : Disk) : Node := ⟨ip.type, ip.major, ip.minor, ip.nlink, ip.bytes s⟩

/-- The nodes on a disk. -/
def nodes (sb : Superblock) (s : Disk) (i : Nat) : Option Node :=
  if i < sb.ninodes ∧ (dinode sb s i).type ≠ 0 then some ((dinode sb s i).node s) else none

/-- The disk is sound and without holes, and has these nodes. -/
structure Represents (sb : Superblock) (s : Disk) (ns : Nat → Option Node) : Prop where
  sound : Sound sb s
  full : Full sb s
  eq : nodes sb s = ns

section Nodes

variable {sb : Superblock} {s s' : Disk} {ns : Nat → Option Node} {i : Nat} {n : Node} {ip : Inode}

theorem nodes_eq_some_iff : nodes sb s i = some n ↔
    i < sb.ninodes ∧ (dinode sb s i).type ≠ 0 ∧ (dinode sb s i).node s = n := by
  rw [nodes]
  split
  · rename_i h
    rw [Option.some_inj]
    exact ⟨fun hn => ⟨h.1, h.2, hn⟩, fun hn => hn.2.2⟩
  · rename_i h
    exact ⟨nofun, fun hn => absurd ⟨hn.1, hn.2.1⟩ h⟩

theorem nodes_eq_none_iff (hi : i < sb.ninodes) :
    nodes sb s i = none ↔ (dinode sb s i).type = 0 := by
  rw [nodes]
  split
  · rename_i h
    exact iff_of_false nofun h.2
  · rename_i h
    exact iff_of_true rfl (by_contra fun h0 => h ⟨hi, h0⟩)

namespace Represents

variable (h : Represents sb s ns) (hn : ns i = some n)

include h hn

theorem get : nodes sb s i = some n := by rw [h.eq, hn]

theorem lt : i < sb.ninodes := (nodes_eq_some_iff.mp (h.get hn)).1

theorem type_ne : (dinode sb s i).type ≠ 0 := (nodes_eq_some_iff.mp (h.get hn)).2.1

theorem node : (dinode sb s i).node s = n := (nodes_eq_some_iff.mp (h.get hn)).2.2

theorem type : (dinode sb s i).type = n.type := congrArg Node.type (h.node hn)

theorem nlink : (dinode sb s i).nlink = n.nlink := congrArg Node.nlink (h.node hn)

theorem major : (dinode sb s i).major = n.major := congrArg Node.major (h.node hn)

theorem content : content sb s i = n.bytes := congrArg Node.bytes (h.node hn)

theorem size : (dinode sb s i).size = n.bytes.length := by
  rw [← h.content hn, Fs.content, Inode.length_bytes]

theorem holds : Holds s (dinode sb s i) n.bytes :=
  h.content hn ▸ h.full.holds (h.lt hn) (h.type_ne hn)

theorem size_le : n.bytes.length ≤ maxfile * bsize := by
  rw [← h.size hn]
  by_contra hlt
  rw [Nat.not_le] at hlt
  obtain ⟨hmax, -⟩ := h.full i (h.lt hn) (h.type_ne hn) maxfile hlt
  exact absurd hmax (Nat.lt_irrefl _)

theorem busy : Busy sb s (dinode sb s i) := h.sound.busy (h.lt hn) (h.type_ne hn)

end Represents

/-- The blocks of other files, for an inode that is free before or has the blocks it has on disk. -/
theorem nodes_of_keeps (hset : Settled sb s i s' ip)
    (hk : ∀ j, j ≠ i → ∀ y, refs sb s (j, y) ≠ 0 → s' (refs sb s (j, y)) = s (refs sb s (j, y)))
    (hi : i < sb.ninodes) :
    nodes sb s' = update (nodes sb s) i (if ip.type = 0 then none else some (ip.node s')) := by
  funext j
  by_cases hj : j = i
  · subst hj
    rw [Function.update_self, nodes, hset.mine]
    by_cases h0 : ip.type = 0
    · rw [if_pos h0, if_neg fun h => h.2 h0]
    · rw [if_neg h0, if_pos ⟨hi, h0⟩]
  rw [Function.update_of_ne hj]
  by_cases hlt : j < sb.ninodes
  · have hd := hset.others j hlt hj
    rw [nodes, nodes, hd]
    split
    · rename_i h
      have hbytes : (dinode sb s j).bytes s' = (dinode sb s j).bytes s := by
        refine Inode.bytes_congr fun y hy => ?_
        have := hk j hj y
        rw [refs_self hlt h.2] at this
        exact this hy
      rw [Inode.node, Inode.node, hbytes]
    · rfl
  · rw [nodes, nodes, if_neg fun h => hlt h.1, if_neg fun h => hlt h.1]

/-- A function that has written one inode and the blocks of this inode only. -/
theorem Represents.settled (h : Represents sb s ns) (hset : Settled sb s i s' ip)
    (hk : ∀ j, j ≠ i → ∀ y, refs sb s (j, y) ≠ 0 → s' (refs sb s (j, y)) = s (refs sb s (j, y)))
    (hi : i < sb.ninodes) :
    Represents sb s' (update ns i (if ip.type = 0 then none else some (ip.node s'))) :=
  ⟨hset.own.sound, hset.full h.full, by rw [nodes_of_keeps hset hk hi, h.eq]⟩

/-- The inodes other than `i` are as they were, with all their block numbers. -/
def KeepsInodes (sb : Superblock) (s : Disk) (i : Nat) (s' : Disk) : Prop :=
  ∀ j, j < sb.ninodes → j ≠ i → dinode sb s' j = dinode sb s j

theorem KeepsOthers.refs (hk : KeepsOthers sb s (dinode sb s i) s') (j : Nat) (hj : j ≠ i)
    (y : Slot)
    (hy : refs sb s (j, y) ≠ 0) : s' (Fs.refs sb s (j, y)) = s (Fs.refs sb s (j, y)) := by
  have := hk (j, y) hj
  rw [refsWith_dinode rfl] at this
  exact this hy

theorem refs_iblock (hs : Sound sb s) (hi : i < sb.ninodes) (v : Block) (x : Site)
    (hx : refs sb s x ≠ 0) :
    update s (iblock sb i) v (refs sb s x) = s (refs sb s x) :=
  Function.update_of_ne (fun he => (hs.own.owned.managed x hx).ne_iblock hi he.symm) ..

end Nodes

/-! ## What the functions do to nodes -/

section Functions

variable {sb : Superblock} {m : UserMem} {s s' : Disk} {ns : Nat → Option Node} {i : Nat} {n : Node}
  {E : Panic → Prop}

/-- **`writei`** in range. -/
theorem runs_writei_node (hl : Layout sb) (h : Represents sb s ns) (hn : ns i = some n)
    {data : List UInt8} (hsrc : src.Gives m data) (hoff : off ≤ n.bytes.length)
    (hmax : off + data.length ≤ maxfile * bsize) :
    Runs m (writei sb (dinode sb s i) src off data.length) s fun r s' =>
      r = (some data.length, dinode sb s' i) ∧ KeepsInodes sb s i s' ∧
        Represents sb s' (update ns i (some { n with bytes := overwrite n.bytes off data })) := by
  have hsize : off ≤ (dinode sb s i).size := by rwa [h.size hn]
  refine Ends.mono (runs_writei hl h.sound.own rfl (h.lt hn) (h.type_ne hn)) ?_
  rintro ⟨r, ip⟩ s' ⟨hset, hkeep, hfields, -, harrive⟩
  obtain ⟨hr, hsize', hbytes⟩ := harrive data hsrc rfl hsize hmax
  dsimp only at hset hkeep hfields hr hsize' hbytes
  change Settled sb s i s' ip at hset
  refine ⟨by rw [hr, hset.mine], hset.others, ?_⟩
  have hrep := h.settled hset hkeep.refs (h.lt hn)
  rw [if_neg (by rw [hfields]; exact h.type_ne hn)] at hrep
  have hnode : ip.node s' = { n with bytes := overwrite n.bytes off data } := by
    rw [← h.node hn, Inode.node, Inode.bytes_of_written hsize hsize' hbytes]
    conv_lhs => rw [hfields]
    rfl
  rwa [hnode] at hrep

/-- **A write within a file** does not change its inode. -/
theorem runs_writei_inside (hl : Layout sb) (h : Represents sb s ns) (hn : ns i = some n)
    (hle : off + k ≤ n.bytes.length) :
    Runs m (writei sb (dinode sb s i) src off k) s fun r _ => r.2 = dinode sb s i := by
  refine Ends.mono (runs_writei hl h.sound.own rfl (h.lt hn) (h.type_ne hn)) ?_
  rintro r s' ⟨-, -, -, hin, -⟩
  refine hin ?_ (by rwa [h.size hn])
  rw [refsWith_dinode rfl]
  exact h.full i (h.lt hn) (h.type_ne hn)

/-- **`iupdate`** after stores to `major`, `minor` and `nlink`. -/
theorem runs_iupdate_node (hl : Layout sb) (h : Represents sb s ns) (hn : ns i = some n)
    (major minor nlink : Nat) :
    Runs m (iupdate sb ((dinode sb s i).setMeta major minor nlink)) s fun _ s' =>
      dinode sb s' i = (dinode sb s i).setMeta major minor nlink ∧ KeepsInodes sb s i s' ∧
      Represents sb s' (update ns i (some { n with
        major := major % 2 ^ 16, minor := minor % 2 ^ 16, nlink := nlink % 2 ^ 16 })) := by
  refine (runs_iupdate _).mono ?_
  rintro _ _ rfl
  have hset : Settled sb s i (updated sb s ((dinode sb s i).setMeta major minor nlink)) _ :=
    .setMeta hl h.sound.own rfl (h.lt hn) (h.type_ne hn) major minor nlink
  refine ⟨hset.mine, hset.others, ?_⟩
  have hrep := h.settled hset (fun j _ y hy => refs_iblock h.sound (h.lt hn) _ (j, y) hy) (h.lt hn)
  rw [if_neg (by exact h.type_ne hn)] at hrep
  have hbytes : (dinode sb s i).bytes (updated sb s ((dinode sb s i).setMeta major minor nlink)) =
      (dinode sb s i).bytes s := by
    refine Inode.bytes_congr fun y hy => ?_
    have := refs_iblock h.sound (h.lt hn) (writeDinode (s (iblock sb i))
      ((dinode sb s i).setMeta major minor nlink)) (i, y)
    rw [refs_self (h.lt hn) (h.type_ne hn)] at this
    exact this hy
  have hnode : ((dinode sb s i).setMeta major minor nlink).node
      (updated sb s ((dinode sb s i).setMeta major minor nlink)) = { n with
        major := major % 2 ^ 16, minor := minor % 2 ^ 16, nlink := nlink % 2 ^ 16 } := by
    rw [← h.node hn, Inode.node]
    exact congrArg (Node.mk _ _ _ _) hbytes
  rwa [hnode] at hrep

/-- The inodes and the free map are written, and no block of a file. -/
def KeepsData (sb : Superblock) (s s' : Disk) : Prop := ∀ c, IsData sb c → s' c = s c

theorem KeepsData.iblock (hi : i < sb.ninodes) (v : Block) :
    KeepsData sb s (update s (Fs.iblock sb i) v) :=
  fun _ hc => Function.update_of_ne (fun he => hc.ne_iblock hi he.symm) ..

theorem KeepsData.trans {s'' : Disk} (h : KeepsData sb s s') (h' : KeepsData sb s' s'') :
    KeepsData sb s s'' := fun c hc => (h' c hc).trans (h c hc)

theorem KeepsData.refs (hk : KeepsData sb s s') (hs : Sound sb s) (j : Nat) (y : Slot)
    (hy : refs sb s (j, y) ≠ 0) : s' (Fs.refs sb s (j, y)) = s (Fs.refs sb s (j, y)) :=
  hk _ (hs.own.owned.managed _ hy)

/-- The node that `ialloc` makes. -/
def freshNode (type : Nat) : Node := ⟨type, 0, 0, 0, []⟩

/-- **`ialloc`** -/
theorem runs_ialloc_node (hl : Layout sb) (h : Represents sb s ns) {type : Nat} (ht : type ≠ 0)
    (hlt : type < 2 ^ 16) :
    Runs m (ialloc sb type) s fun inum s' => 1 ≤ inum ∧ inum < sb.ninodes ∧ ns inum = none ∧
      dinode sb s' inum = freshInode inum type ∧ KeepsInodes sb s inum s' ∧
      Represents sb s' (update ns inum (some (freshNode type))) := by
  refine runs_ialloc.mono ?_
  rintro inum s' ⟨h1, hi, h0, rfl⟩
  have hset := Settled.ialloc hl h.sound.own hi hlt h0
  refine ⟨h1, hi, by rw [← h.eq]; exact (nodes_eq_none_iff hi).mpr h0, hset.mine, hset.others, ?_⟩
  have hrep := h.settled hset (fun j _ y hy => refs_iblock h.sound hi _ (j, y) hy) hi
  rwa [if_neg (by exact ht)] at hrep

theorem runs_itrunc_keeps (hl : Layout sb) (hb : Busy sb s ip) :
    Runs m (itrunc sb ip) s fun ip' s' => KeepsData sb s s' ∧
      ip' = { ip with size := 0, addrs := ip'.addrs } := by
  rw [itrunc]
  refine (runs_itruncDirect hl _ hb fun i hi => List.mem_range.mp hi).bind ?_
  rintro ip1 s1 ⟨hm1, hb1, hsame1, -⟩
  refine (runs_itruncRest hl hb1).bind ?_
  rintro ip2 s2 ⟨hm2, hb2, hsame2, -⟩
  have hsame : ip2 = { ip with addrs := ip2.addrs } := hsame1.trans hsame2
  refine ⟨KeepsData.trans (fun c hc => (hm1.trans hm2).data hc) (.iblock hb2.inum _), ?_⟩
  rw [hsame]

/-- **`itrunc`** -/
theorem runs_itrunc_node (hl : Layout sb) (h : Represents sb s ns) (hn : ns i = some n)
    (hip : dinode sb s i = ip) :
    Runs m (itrunc sb ip) s fun ip' s' => ip' = dinode sb s' i ∧ KeepsInodes sb s i s' ∧
      Represents sb s' (update ns i (some { n with bytes := [] })) := by
  have hinum : ip.inum = i := by rw [← hip]; rfl
  have hset : Runs m (itrunc sb ip) s _ :=
    runs_itrunc hl h.sound.own (by rw [hinum, hip]) (hinum ▸ h.lt hn) (hip ▸ h.type_ne hn)
  refine Ends.mono (wp_specOf_and hset (runs_itrunc_keeps hl (hip ▸ h.busy hn))) ?_
  rintro ip' s' ⟨⟨hset, -, htype, hsize, -⟩, hk, hfields⟩
  rw [hinum] at hset
  refine ⟨hset.mine.symm, hset.others, ?_⟩
  have hrep := h.settled hset (fun j _ y hy => hk.refs h.sound j y hy) (h.lt hn)
  rw [if_neg (by rw [htype, ← hip]; exact h.type_ne hn)] at hrep
  have hnode : ip'.node s' = { n with bytes := [] } := by
    rw [← h.node hn, hip, Inode.node, Inode.bytes, hsize]
    conv_lhs => rw [hfields]
    rfl
  rwa [hnode] at hrep

/-- **`iput`** when it frees the inode. -/
theorem runs_iputFree_node (hl : Layout sb) (h : Represents sb s ns) (hn : ns i = some n)
    (hip : dinode sb s i = ip) :
    Runs m (iputFree sb ip) s fun _ s' => KeepsInodes sb s i s' ∧
      Represents sb s' (update ns i none) := by
  have hinum : ip.inum = i := by rw [← hip]; rfl
  have hset : Runs m (iputFree sb ip) s _ :=
    runs_iputFree hl h.sound.own (by rw [hinum, hip]) (hinum ▸ h.lt hn) (hip ▸ h.type_ne hn)
  have hkeep : Runs m (iputFree sb ip) s fun _ s' => KeepsData sb s s' := by
    rw [iputFree]
    refine (runs_itrunc_keeps hl (hip ▸ h.busy hn)).bind ?_
    rintro ip1 s1 ⟨hk, hfields⟩
    refine hk.trans (.iblock ?_ _)
    rw [hfields]
    exact hinum ▸ h.lt hn
  refine Ends.mono (wp_specOf_and hset hkeep) ?_
  rintro ip' s' ⟨⟨hset, htype⟩, hk⟩
  rw [hinum] at hset
  have hrep := h.settled hset (fun j _ y hy => hk.refs h.sound j y hy) (h.lt hn)
  rw [if_pos htype] at hrep
  exact ⟨hset.others, hrep⟩

/-- **`iunlockput`**: with the last reference to an inode without links the inode goes away. -/
theorem runs_iunlockput (hl : Layout sb) (h : Represents sb s ns) (hn : ns i = some n)
    (others : Nat → Nat) (hip : dinode sb s i = ip) :
    Runs m (iunlockput sb others ip) s fun _ s' => s' = s ∨ n.nlink = 0 ∧ others i = 0 ∧
      KeepsInodes sb s i s' ∧ Represents sb s' (update ns i none) := by
  have hinum : ip.inum = i := by rw [← hip]; rfl
  rw [iunlockput, hinum]
  split
  · rename_i h0
    refine (runs_iputFree_node hl h hn hip).bind ?_
    rintro _ s' ⟨hk, hrep⟩
    refine .inr ⟨?_, h0.1, hk, hrep⟩
    rw [← h.nlink hn, hip, h0.2]
  · exact .inl rfl

end Functions

end Xv6.Fs
