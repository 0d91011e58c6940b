import Xv6.Fs.Directory
import Xv6.Mkfs.Result

/-!
# `mkfs` and the kernel agree on the format

`iappend` and `bmap` are two programs for one layout, and so are the writer of the root directory in
`mkfs` and `dirlookup` in the kernel.  `mkfs_readable` runs the second on what the first has left:
the kernel finds each file under its name, and reads from it what was given to `mkfs`.

The two halves meet at `Holds`.  `Finished.holds` says that the image has the bytes of a file where
the kernel looks for them; what the kernel then reads is `yields_readi`.  For the names there is
`direntSlot_dirent`: `dirlookup` sees the first `DIRSIZ` bytes of the name in an entry.
-/

namespace Xv6.Mkfs

open Fs Bio List

/-! ## Files -/

/-- The bytes of a file are where the kernel looks for them. -/
theorem Finished.holds {s : Mk} {f : Nat → List UInt8} (h : Finished s f) {i : Nat}
    (hi : i < ninodes) (ht : (dinode sb s.disk i).type ≠ 0) :
    Holds s.disk (dinode sb s.disk i) (f i) := by
  intro o ho
  have href : ∀ x, refs sb s.disk (i, x) = (dinode sb s.disk i).ref s.disk x := fun x =>
    if_pos ⟨hi, ht⟩
  have hbn : o / bsize < sizes f i := lt_nblocks.mpr ((Nat.div_mul_le_self ..).trans_lt ho)
  have hmod := mod_bsize_lt o
  have hne := (h.img.blocks i _).mpr hbn
  have hbyte := h.img.bytes i _ ⟨o % bsize, hmod⟩ hbn
  rw [href] at hne hbyte
  refine ⟨length_le_of_img h.img hbn, hne, ?_⟩
  rw [Block.byte, dif_pos hmod, hbyte]
  rw [Nat.div_add_mod', getD_eq_getElem _ _ ho]

/-! ## Names -/

theorem cname_padded {name : List UInt8} (hz : 0 ∉ name) (n : Nat) :
    cname (name.take dirsiz ++ List.replicate n 0) = name.take dirsiz := by
  have hall : ∀ c ∈ name.take dirsiz, decide (c ≠ 0) = true := fun c hc =>
    decide_eq_true fun h0 => hz (h0 ▸ mem_of_mem_take hc)
  rw [cname, take_append, take_of_length_le (length_take_le ..), take_replicate,
    takeWhile_append_of_pos hall]
  simp

theorem direntInum_dirent {i : Nat} (hi : i < 2 ^ 16) (name : List UInt8) :
    direntInum (dirent i name) = i := by
  change (UInt8.ofNat i).toNat + 2 ^ 8 * (UInt8.ofNat (i / 256)).toNat = i
  rw [UInt8.toNat_ofNat', UInt8.toNat_ofNat']
  omega

/-- **What `dirlookup` sees of an entry that `mkfs` has written**: the first `DIRSIZ` bytes of the
name. -/
theorem direntSlot_dirent {i : Nat} (h1 : 1 ≤ i) (hi : i < 2 ^ 16) {name : List UInt8}
    (hz : 0 ∉ name) : direntSlot (dirent i name) = some (name.take dirsiz, i) := by
  rw [direntSlot, direntInum_dirent hi, if_neg (by omega)]
  exact congrArg (fun t => some (t, i)) (cname_padded hz _)

/-- Entries with different names are all found. -/
theorem lookup_entries {args : List Arg} {i k : Nat} {a : Arg}
    (hz : ∀ a ∈ args, 0 ∉ shortName a.path)
    (hd : (args.map fun a => (shortName a.path).take dirsiz).Nodup) (h1 : 1 ≤ i)
    (hi : i + args.length ≤ 2 ^ 16) (ha : args[k]? = some a) :
    SlotMap.lookup ((shortName a.path).take dirsiz) ((entries i args).map direntSlot) =
      some (i + k, k) := by
  induction args generalizing i k with
  | nil => nomatch ha
  | cons a' as ih =>
    rw [length_cons] at hi
    rw [map_cons, nodup_cons] at hd
    rw [entries, map_cons, direntSlot_dirent h1 (by omega) (hz a' mem_cons_self), SlotMap.lookup]
    cases k with
    | zero =>
      cases ha
      rw [if_pos rfl]
      rfl
    | succ k =>
      have ha : as[k]? = some a := ha
      have hne : (shortName a'.path).take dirsiz ≠ (shortName a.path).take dirsiz := fun he =>
        hd.1 (he ▸ mem_map_of_mem (mem_of_getElem? ha))
      rw [if_neg hne, ih (fun a h => hz a (mem_cons_of_mem _ h)) hd.2 (by omega) (by omega) ha,
        Nat.add_right_comm]
      rfl

theorem suffix_skipUnderscore (name : List UInt8) : skipUnderscore name <:+ name := by
  rw [skipUnderscore.eq_def]
  split
  · exact suffix_cons ..
  · exact suffix_rfl

theorem suffix_stripUser (path : List UInt8) : stripUser path <:+ path := by
  rw [stripUser]
  split
  · exact drop_suffix ..
  · exact suffix_rfl

/-- The arguments of `mkfs`, as far as their names matter: C strings, not too many of them, and
names in the root directory that can be told apart. -/
structure Proper (args : List Arg) : Prop where
  cstr : ∀ a ∈ args, 0 ∉ a.path
  count : args.length < ninodes - 1
  named : ∀ a ∈ args, shortName a.path ≠ [] ∧ shortName a.path ≠ [46] ∧ shortName a.path ≠ [46, 46]
  distinct : (args.map fun a => (shortName a.path).take dirsiz).Nodup

theorem eq_of_take_eq {l l' : List UInt8} {n : Nat} (hl : l'.length < n)
    (h : l.take n = l'.take n) : l = l' := by
  rw [take_of_length_le hl.le] at h
  have hlen := congrArg List.length h
  rw [length_take] at hlen
  rw [← h, take_of_length_le (by omega)]

namespace Proper

variable {args : List Arg} {k : Nat} {a : Arg}

theorem zero_notMem (h : Proper args) (ha : a ∈ args) : 0 ∉ shortName a.path := fun h0 =>
  h.cstr a ha ((suffix_stripUser _).mem ((suffix_skipUnderscore _).mem h0))

theorem inum_lt (h : Proper args) (ha : args[k]? = some a) : 2 + k < ninodes := by
  obtain ⟨hk, -⟩ := List.getElem?_eq_some_iff.mp ha
  have := h.count
  omega

theorem lookup (h : Proper args) (ha : args[k]? = some a) :
    SlotMap.lookup ((shortName a.path).take dirsiz) ((rootEntries args).map direntSlot) =
      some (2 + k, k + 2) := by
  have hnamed := h.named a (mem_of_getElem? ha)
  have hcount : args.length < 199 := h.count
  rw [rootEntries, map_cons, map_cons, direntSlot_dirent le_rfl (by decide) (by decide),
    direntSlot_dirent le_rfl (by decide) (by decide), SlotMap.lookup, if_neg, SlotMap.lookup,
    if_neg, lookup_entries (fun a => h.zero_notMem) h.distinct (by omega) (by omega) ha]
  · rfl
  · exact fun he => hnamed.2.2 (eq_of_take_eq (by decide) he.symm)
  · exact fun he => hnamed.2.1 (eq_of_take_eq (by decide) he.symm)

end Proper

/-! ## The kernel on the image -/

theorem yields_readsb {s : Mk} (h : s.disk 1 = superBlock) (m : UserMem) :
    Yields m readsb s.disk (fsmagic, sb) := by
  obtain ⟨h0, h4, h12, h16, h20, h24, h28⟩ : superBlock.get 0 4 = fsmagic ∧
      superBlock.get 4 4 = sb.size ∧ superBlock.get 12 4 = sb.ninodes ∧
      superBlock.get 16 4 = sb.nlog ∧ superBlock.get 20 4 = sb.logstart ∧
      superBlock.get 24 4 = sb.inodestart ∧ superBlock.get 28 4 = sb.bmapstart := by
    decide +kernel
  rw [readsb, yields_bread]
  rw [yields_brelse, h, h0, h4, h12, h16, h20, h24, h28]
  exact yields_pure

namespace Written

variable {args : List Arg} {s : Mk} {f : Nat → List UInt8} {m : UserMem} {k : Nat} {a : Arg}

theorem yields_namei (h : Written args s f) (hp : Proper args) (ha : args[k]? = some a)
    (others : Nat → Nat) (cwd : Nat) :
    Yields m (namei sb others cwd (47 :: shortName a.path)) s.disk (some (2 + k)) := by
  have hmem := List.mem_of_getElem? ha
  obtain ⟨hk, hak⟩ := List.getElem?_eq_some_iff.mp ha
  have hslash : 47 ∉ shortName a.path := fun h47 =>
    (hak ▸ (h.files k hk).slash) ((suffix_skipUnderscore _).mem h47)
  have hfits := dinode_fits sb s.disk 1
  have hholds := h.finished.holds (i := 1) (by decide) (by rw [h.root.1]; decide)
  have hsize : (f 1).length ≤ (dinode sb s.disk 1).size := by
    rw [h.finished.root.2, roundUp, bsize]
    omega
  rw [h.entries] at hholds hsize
  have hfound : SlotMap.lookup (cname ((shortName a.path).take dirsiz))
      (slots (rootEntries args).flatten) = some (2 + k, k + 2) := by
    have hkey := cname_padded (hp.zero_notMem hmem) 0
    rw [replicate_zero, append_nil] at hkey
    rw [hkey, slots, dirents_flatten fun _ => mem_rootEntries]
    exact hp.lookup ha
  have hlook : Yields m (dirlookup sb (dinode sb s.disk 1) ((shortName a.path).take dirsiz)) s.disk
      _ := yields_dirlookup_slots hholds hsize hfits.size h.root.1 (.inr (by simp [hfound]))
  rw [hfound] at hlook
  exact Fs.yields_namei (hp.named a hmem).1 hslash h.root.1 (h.root.2.trans_ne (by decide)) hlook

end Written

/-- What the kernel finds on the image for the argument `a`, whose file has these contents. -/
structure Readable (m : UserMem) (d : Disk) (a : Arg) (contents : List UInt8) (inum : Nat)
    (ip : Inode) : Prop where
  namei : ∀ others cwd, Yields m (namei sb others cwd (47 :: shortName a.path)) d (some inum)
  ilock : Yields m (ilockRead sb inum) d ip
  type : ip.type = tFile
  size : ip.size = contents.length
  readi : ∀ dst off n, off < 2 ^ 32 → n < 2 ^ 32 → dst.Takes m n →
    Yields m (readi sb ip dst off n) d
      (if off + n < 2 ^ 32 then
        (((contents.drop off).take n).length, (contents.drop off).take n, ip)
      else (0, [], ip))

theorem readable_of_mem {args : List Arg} (hp : Proper args) {s : Mk} (hr : mkfs args = .ok s)
    (m : UserMem) {a : Arg} (ha : a ∈ args) :
    ∃ bufs inum ip, a.data = some bufs ∧ Readable m s.disk a bufs.flatten inum ip := by
  have hn : args.length < 199 := hp.count
  obtain ⟨f, h⟩ := written_mkfs hn hr
  obtain ⟨k, hk, rfl⟩ := getElem_of_mem ha
  have hak : args[k]? = some args[k] := getElem?_eq_getElem hk
  have hb := h.files k hk
  obtain ⟨bufs, hbufs, hf⟩ := Option.map_eq_some_iff.mp hb.data
  have hlt := hp.inum_lt hak
  have ht : (dinode sb s.disk (2 + k)).type ≠ 0 := by
    rw [hb.type]
    decide
  have hsize : (dinode sb s.disk (2 + k)).size = bufs.flatten.length := by
    rw [hf, h.finished.inode _ (by omega) hlt ht]
  have hholds := h.finished.holds hlt ht
  rw [← hf] at hholds
  exact ⟨bufs, 2 + k, dinode sb s.disk (2 + k), hbufs, h.yields_namei hp hak, yields_ilockRead ht,
    hb.type, hsize, fun dst off n hoff hn' hdst =>
      yields_readi hholds hsize.symm (dinode_fits ..).size hoff hn' hdst⟩

/-- **`mkfs` and the kernel agree on the format.**  If `mkfs` ends without an error, the kernel
reads the super block that `mkfs` has in mind; `namei` finds every file under its name; the inode it
finds is that of a file with the length of the one given to `mkfs`; and `readi` reads its bytes, at
every offset and length whose sum is a `uint`.  If the sum is none, `readi` returns 0. -/
theorem mkfs_readable {args : List Arg} (hp : Proper args) {s : Mk} (hr : mkfs args = .ok s)
    (m : UserMem) : Yields m readsb s.disk (fsmagic, sb) ∧
      ∀ a ∈ args, ∃ bufs inum ip, a.data = some bufs ∧
      Readable m s.disk a bufs.flatten inum ip := by
  obtain ⟨f, h⟩ := written_mkfs hp.count hr
  exact ⟨yields_readsb h.super m, fun a ha => readable_of_mem hp hr m ha⟩

/-- One file of two bytes, with the name `a`. -/
def twoBytes : Arg := ⟨[95, 97], some [[1, 2]]⟩

theorem proper_twoBytes : Proper [twoBytes] := by
  refine ⟨?_, by decide, ?_, nodup_singleton _⟩
  · simp [twoBytes]
  · simp [twoBytes, shortName, stripUser, skipUnderscore]

theorem mkfs_readable_twoBytes : Proper [twoBytes] ∧ ∃ s, mkfs [twoBytes] = .ok s ∧
    ∃ inum ip, Readable onePage s.disk twoBytes [1, 2] inum ip := by
  obtain ⟨s, hs⟩ := exists_image (a := [twoBytes]) (by decide +kernel)
  refine ⟨proper_twoBytes, s, hs, ?_⟩
  obtain ⟨bufs, inum, ip, hbufs, hread⟩ :=
    (mkfs_readable proper_twoBytes hs onePage).2 twoBytes (by simp)
  cases hbufs
  exact ⟨inum, ip, hread⟩

/-- From the second byte on `readi` reads nothing when it is asked for 2^32 - 1 bytes. -/
theorem readi_sum_overflows : ∃ s inum ip, mkfs [twoBytes] = .ok s ∧ Proper [twoBytes] ∧
    (∀ others cwd, Yields onePage (namei sb others cwd (47 :: shortName twoBytes.path)) s.disk
      (some inum)) ∧
    Yields onePage (ilockRead sb inum) s.disk ip ∧
    Yields onePage (readi sb ip .kernel 1 (2 ^ 32 - 1)) s.disk (0, [], ip) ∧
    twoBytes.data = some [[1, 2]] ∧ (([1, 2] : List UInt8).drop 1).take (2 ^ 32 - 1) = [2] := by
  obtain ⟨s, hs⟩ := exists_image (a := [twoBytes]) (by decide +kernel)
  obtain ⟨bufs, inum, ip, -, hread⟩ := readable_of_mem proper_twoBytes hs onePage
    (a := twoBytes) (by simp)
  have hzero := hread.readi .kernel 1 (2 ^ 32 - 1) (by decide) (by decide) trivial
  rw [if_neg (by decide)] at hzero
  exact ⟨s, inum, ip, hs, proper_twoBytes, hread.namei, hread.ilock, hzero, rfl, rfl⟩

end Xv6.Mkfs
