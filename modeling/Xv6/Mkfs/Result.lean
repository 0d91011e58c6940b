import Xv6.Mkfs.Image
import Xv6.Fs.Names

/-!
# The image that `mkfs` writes

When the program does not stop, the image has everything the kernel relies on, except that

* inode numbers are not compared with `NINODES`, so 199 files are too many;
* the size of the root directory is rounded up to the *next* multiple of the block size, also when
  it is one already, and then its last block is missing;
* names are cut off after `DIRSIZ` bytes and never compared.

`mkfs_wellBuilt_iff` says that there is nothing else.
-/

namespace Xv6.Mkfs

open Fs List
open Function (update update_self update_of_ne update_idem update_eq_self)

variable {i k bn fb : Nat} {args : List Arg} {s : Mk} {bufs : List (List UInt8)} {d : Disk}
  {de : List UInt8} {f : Nat → List UInt8}

/-! ## Files and names -/

/-- The entries that `mkfs` writes to the root directory for its arguments; `i` is the next inode
number. -/
def entries : (i : Nat) → List Arg → List (List UInt8)
  | _, [] => []
  | i, a :: as => dirent i (shortName a.path) :: entries (i + 1) as

/-- All entries of the root directory. -/
def rootEntries (args : List Arg) : List (List UInt8) :=
  dirent 1 [46] :: dirent 1 [46, 46] :: entries 2 args

/-- The names in these entries. -/
def names (args : List Arg) : List (List UInt8) :=
  padName [46] :: padName [46, 46] :: args.map fun a => padName (shortName a.path)

theorem length_padName (name : List UInt8) : (padName name).length = 14 := by
  rw [padName, length_append, length_take, length_replicate]
  omega

theorem length_dirent (i : Nat) (name : List UInt8) : (dirent i name).length = 16 := by
  rw [dirent, length_cons, length_cons, length_padName]

theorem entries_eq (args : List Arg) : ∀ i, ∀ k < args.length,
    (entries i args)[k]? = (args[k]?).map fun a => dirent (i + k) (shortName a.path) := by
  induction args with
  | nil => nofun
  | cons a as ih =>
    intro i k hk
    cases k with
    | zero => simp [entries]
    | succ k =>
      rw [entries, getElem?_cons_succ, getElem?_cons_succ,
        ih (i + 1) k (by simpa using hk), Nat.add_assoc, Nat.add_comm 1 k]

theorem length_entries (args : List Arg) : ∀ i, (entries i args).length = args.length := by
  induction args with
  | nil => intro i; rfl
  | cons a as ih => intro i; rw [entries, length_cons, length_cons, ih]

theorem length_rootEntries (args : List Arg) : (rootEntries args).length = args.length + 2 := by
  rw [rootEntries, length_cons, length_cons, length_entries]

theorem length_names (args : List Arg) : (names args).length = args.length + 2 := by
  rw [names, length_cons, length_cons, length_map]

theorem mem_entries : ∀ {i : Nat}, de ∈ entries i args → de.length = 16 := by
  induction args with
  | nil => nofun
  | cons a as ih =>
    intro i h
    rcases mem_cons.mp h with rfl | h
    · exact length_dirent ..
    · exact ih h

theorem mem_rootEntries (h : de ∈ rootEntries args) : de.length = 16 := by
  rw [rootEntries, mem_cons, mem_cons] at h
  rcases h with rfl | rfl | h
  · exact length_dirent ..
  · exact length_dirent ..
  · exact mem_entries h

/-- Each entry has an inode number that is not 0, and the name at the same place. -/
theorem rootEntries_eq (hn : args.length < 199) (hk : k < args.length + 2) :
    ∃ i name, 1 ≤ i ∧ i < ninodes ∧
      (rootEntries args)[k]? = some (dirent i name) ∧ (names args)[k]? = some (padName name) := by
  match k with
  | 0 => exact ⟨1, [46], le_rfl, by decide, rfl, rfl⟩
  | 1 => exact ⟨1, [46, 46], le_rfl, by decide, rfl, rfl⟩
  | k + 2 =>
    have hk' : k < args.length := by omega
    refine ⟨2 + k, shortName args[k].path, by omega, ?_, ?_, ?_⟩
    · rw [ninodes]
      omega
    · rw [rootEntries, getElem?_cons_succ, getElem?_cons_succ, entries_eq args 2 k hk',
        getElem?_eq_getElem hk']
      rfl
    · rw [names, getElem?_cons_succ, getElem?_cons_succ, getElem?_map,
        getElem?_eq_getElem hk']
      rfl

theorem getD_flatten {l : List (List UInt8)} {m : Nat} (h : ∀ b ∈ l, b.length = m) :
    ∀ {k j : Nat}, j < m → l.flatten.getD (k * m + j) 0 = (l.getD k []).getD j 0 := by
  induction l with
  | nil => intro k j _; simp
  | cons b l ih =>
    intro k j hj
    have hb : b.length = m := h b (by simp)
    rw [flatten_cons]
    cases k with
    | zero => rw [getD_append _ _ _ _ (by omega), Nat.zero_mul, Nat.zero_add]; rfl
    | succ k =>
      rw [getD_append_right _ _ _ _ (by rw [Nat.succ_mul]; omega), hb,
        show (k + 1) * m + j - m = k * m + j by rw [Nat.succ_mul]; omega,
        ih (fun b hb => h b (mem_cons_of_mem _ hb)) hj]
      rfl

/-! ## The program -/

section Files

variable {s s' : Mk} {f : Nat → List UInt8} {a : Arg}

theorem Rest.appendAll (h1 : 1 ≤ i) :
    ∀ {s : Mk} {f : Nat → List UInt8}, Rest s f → i < s.freeinode →
      appendAll s i bufs = .ok s' →
      Rest s' (update f i (f i ++ bufs.flatten)) ∧ s'.freeinode = s.freeinode ∧
        Steady s s' := by
  induction bufs with
  | nil =>
    intro s f h _ hr
    obtain rfl := Except.ok.inj hr
    rw [flatten_nil, append_nil, update_eq_self]
    exact ⟨h, rfl, .refl s⟩
  | cons buf bufs ih =>
    intro s f h hi hr
    rw [Mkfs.appendAll] at hr
    obtain ⟨s1, ha, hr⟩ := bind_eq_ok.mp hr
    obtain ⟨h2, h3, h4⟩ := h.iappend h1 hi ha
    obtain ⟨h5, h6, h7⟩ := ih h2 (h3 ▸ hi) hr
    rw [update_self, update_idem, append_assoc] at h5
    exact ⟨h5, h6.trans h3, h4.trans h7 h3.ge⟩

/-- The file `i` is the one that `mkfs` has made for the argument `a`. -/
structure Built (s : Mk) (f : Nat → List UInt8) (i : Nat) (a : Arg) : Prop where
  type : (dinode sb s.disk i).type = 2
  data : a.data.map List.flatten = some (f i)
  slash : 47 ∉ stripUser a.path

theorem Built.steady {f' : Nat → List UInt8} (h : Built s f i a) (hs : Steady s s') (h1 : 1 ≤ i)
    (hi : i < s.freeinode) (hf : f' i = f i) : Built s' f' i a :=
  ⟨(hs.inode i h1 hi).1.trans h.type, hf ▸ h.data, h.slash⟩

theorem Rest.addFile (h : Rest s f) (h1 : 2 ≤ s.freeinode) (hi : s.freeinode < ninodes)
    (hr : addFile s a = .ok s') :
    ∃ f', Rest s' f' ∧ f' 1 = f 1 ++ dirent s.freeinode (shortName a.path) ∧
      s'.freeinode = s.freeinode + 1 ∧ Steady s s' ∧ Built s' f' s.freeinode a ∧
      ∀ j, 2 ≤ j → j < s.freeinode → f' j = f j := by
  rw [Mkfs.addFile] at hr
  split at hr
  · nomatch hr
  rename_i hslash
  split at hr
  · nomatch hr
  rename_i bufs hbufs
  obtain ⟨⟨inum, s1⟩, ha, hr⟩ := bind_eq_ok.mp hr
  obtain ⟨rfl, h2, h3, h4, hnew⟩ := h.ialloc hi (by decide) (by decide) ha
  obtain ⟨s2, hap, hr⟩ := bind_eq_ok.mp hr
  obtain ⟨h5, h6, h7⟩ := h2.iappend le_rfl (by omega) hap
  obtain ⟨h8, h9, h10⟩ := h5.appendAll (by omega) (by omega) hr
  have hsteady : Steady s1 s' := h7.trans h10 h6.ge
  refine ⟨_, h8, ?_, by omega, h4.trans hsteady (by omega), ⟨?_, ?_, hslash⟩, fun j h2j hj => ?_⟩
  · rw [update_of_ne (by omega), update_self]
  · rw [(hsteady.inode _ (by omega) (by omega)).1, hnew]
    rfl
  · rw [hbufs, update_self, update_of_ne (by omega), h.dead _ (.inr le_rfl)]
    rfl
  · rw [update_of_ne hj.ne, update_of_ne (by omega)]

/-- **The files are there, and the root directory names them.** -/
theorem Rest.addFiles : ∀ {s : Mk} {f : Nat → List UInt8}, Rest s f →
    2 ≤ s.freeinode → s.freeinode + args.length ≤ ninodes → addFiles s args = .ok s' →
    ∃ f', Rest s' f' ∧ f' 1 = f 1 ++ (entries s.freeinode args).flatten ∧
      s'.freeinode = s.freeinode + args.length ∧ Steady s s' ∧
      (∀ j, 2 ≤ j → j < s.freeinode → f' j = f j) ∧
      ∀ k (hk : k < args.length), Built s' f' (s.freeinode + k) args[k] := by
  induction args with
  | nil =>
    intro s f h _ _ hr
    obtain rfl := Except.ok.inj hr
    exact ⟨f, h, by simp [entries], rfl, .refl s, fun _ _ _ => rfl, nofun⟩
  | cons a as ih =>
    intro s f h h1 hn hr
    rw [length_cons] at hn
    rw [Mkfs.addFiles] at hr
    obtain ⟨s1, ha, hr⟩ := bind_eq_ok.mp hr
    obtain ⟨f1, h2, h3, h4, h5, h6, h7⟩ := h.addFile h1 (by omega) ha
    obtain ⟨f', h8, h9, h10, h11, h12, h13⟩ := ih h2 (by omega) (by omega) hr
    refine ⟨f', h8, ?_, by rw [h10, h4, length_cons]; omega, h5.trans h11 (by omega),
      fun j h2j hj => (h12 j h2j (by omega)).trans (h7 j h2j hj), fun k hk => ?_⟩
    · rw [h9, h3, h4, entries, flatten_cons, append_assoc]
    · cases k with
      | zero => exact h6.steady h11 (by omega) (by omega) (h12 _ (by omega) (by omega))
      | succ k =>
        have := h13 k (by simpa using hk)
        rwa [h4, Nat.add_assoc, Nat.add_comm 1 k] at this

theorem rest_makeRoot (hr : makeRoot = .ok s) :
    Rest s (update (fun _ => []) 1 (dirent 1 [46] ++ dirent 1 [46, 46])) ∧
      s.freeinode = 2 ∧ s.disk 1 = superBlock ∧ (dinode sb s.disk 1).type = 1 ∧
      (dinode sb s.disk 1).nlink = 1 := by
  rw [makeRoot] at hr
  obtain ⟨⟨inum, s1⟩, ha, hr⟩ := bind_eq_ok.mp hr
  obtain ⟨rfl, h2, h3, h4, hnew⟩ := rest_blank.ialloc (by decide) (by decide) (by decide) ha
  obtain ⟨s2, hap, hr⟩ := bind_eq_ok.mp hr
  change s1.freeinode = 2 at h3
  change dinode sb s1.disk 1 = newInode 1 1 at hnew
  obtain ⟨h5, h6, h7⟩ := h2.iappend le_rfl (by omega) hap
  obtain ⟨h8, h9, h10⟩ := h5.iappend le_rfl (by omega) hr
  rw [update_self, update_idem, nil_append] at h8
  have hsteady : Steady s1 s := h7.trans h10 h6.ge
  obtain ⟨ht, hl⟩ := hsteady.inode 1 le_rfl (by omega)
  rw [hnew] at ht hl
  exact ⟨h8, by omega, (hsteady.super.trans h4.super).trans blank_super, ht, hl⟩

end Files

/-! ## The counter of inodes -/

section Counter

variable {s s' : Mk}

theorem freeinode_winode {ip : Inode} (h : winode s ip = .ok s') : s'.freeinode = s.freeinode := by
  rw [winode_eq_ok h]

theorem freeinode_fillAddr (s : Mk) (ip : Inode) (i : Nat) :
    (fillAddr s ip i).2.freeinode = s.freeinode := by
  rw [fillAddr]
  split <;> rfl

theorem freeinode_blockFor {ip ip' : Inode} {x : Nat} (h : blockFor s ip bn = .ok (x, ip', s')) :
    s'.freeinode = s.freeinode := by
  rw [blockFor] at h
  split at h
  · have := freeinode_fillAddr s ip bn
    cases hf : fillAddr s ip bn with
    | mk ip1 s1 =>
      rw [hf] at h this
      obtain ⟨-, -, rfl⟩ : _ ∧ _ ∧ s1 = s' := by simpa using h
      exact this
  · have := freeinode_fillAddr s ip ndirect
    cases hf : fillAddr s ip ndirect with
    | mk ip1 s1 =>
      rw [hf] at h this
      obtain ⟨v, -, h⟩ := bind_eq_ok.mp h
      have h2 : (Mkfs.fillEntry s1 ip1 v (bn - ndirect)).2.freeinode = s1.freeinode := by
        rw [Mkfs.fillEntry]
        split <;> rfl
      cases he : Mkfs.fillEntry s1 ip1 v (bn - ndirect) with
      | mk w s2 =>
        rw [he] at h h2
        obtain ⟨-, -, rfl⟩ : _ ∧ _ ∧ s2 = s' := by simpa [pure, Except.pure] using h
        exact h2.trans this

theorem freeinode_iappendLoop (rounds : Nat) : ∀ {s : Mk} {ip ip' : Inode} {off off' : Nat}
    {p : List UInt8}, iappendLoop rounds s ip off p = .ok (ip', off', s') →
      s'.freeinode = s.freeinode := by
  induction rounds with
  | zero =>
    intro s ip ip' off off' p h
    obtain ⟨-, -, rfl⟩ : _ ∧ _ ∧ s = s' := by simpa [iappendLoop] using h
    rfl
  | succ rounds ih =>
    intro s ip ip' off off' p h
    rw [iappendLoop] at h
    split at h
    · obtain ⟨-, -, rfl⟩ : _ ∧ _ ∧ s = s' := by simpa using h
      rfl
    split at h
    · obtain ⟨⟨x, ip1, s1⟩, hb, h⟩ := bind_eq_ok.mp h
      obtain ⟨buf, -, h⟩ := bind_eq_ok.mp h
      rw [ih h]
      change s1.freeinode = s.freeinode
      exact freeinode_blockFor hb
    · cases h

theorem freeinode_iappend {p : List UInt8} (h : iappend s i p = .ok s') :
    s'.freeinode = s.freeinode := by
  rw [iappend] at h
  obtain ⟨din, -, h⟩ := bind_eq_ok.mp h
  obtain ⟨⟨ip, off, s1⟩, hl, h⟩ := bind_eq_ok.mp h
  exact (freeinode_winode h).trans (freeinode_iappendLoop _ hl)

theorem freeinode_appendAll :
    ∀ {s : Mk}, appendAll s i bufs = .ok s' → s'.freeinode = s.freeinode := by
  induction bufs with
  | nil =>
    intro s h
    rw [← Except.ok.inj h]
  | cons buf bufs ih =>
    intro s h
    rw [appendAll] at h
    obtain ⟨s1, ha, h⟩ := bind_eq_ok.mp h
    exact (ih h).trans (freeinode_iappend ha)

/-- Every file takes one inode, however many there are. -/
theorem freeinode_addFiles :
    ∀ {s : Mk}, addFiles s args = .ok s' → s'.freeinode = s.freeinode + args.length := by
  induction args with
  | nil =>
    intro s h
    rw [← Except.ok.inj h]
    rfl
  | cons a as ih =>
    intro s h
    rw [addFiles] at h
    obtain ⟨s1, ha, h⟩ := bind_eq_ok.mp h
    have h1 : s1.freeinode = s.freeinode + 1 := by
      rw [addFile] at ha
      split at ha
      · nomatch ha
      split at ha
      · nomatch ha
      obtain ⟨⟨inum, s2⟩, hi, ha⟩ := bind_eq_ok.mp ha
      obtain ⟨s3, hap, hall⟩ := bind_eq_ok.mp ha
      rw [ialloc] at hi
      obtain ⟨s4, hw, hi⟩ := bind_eq_ok.mp hi
      cases hi
      rw [freeinode_appendAll hall, freeinode_iappend hap, freeinode_winode hw]
    rw [ih h, h1, length_cons]
    omega

theorem freeinode_mkfs (h : mkfs args = .ok s) : s.freeinode = args.length + 2 := by
  rw [mkfs] at h
  obtain ⟨s1, hm, h⟩ := bind_eq_ok.mp h
  obtain ⟨s2, hadd, h⟩ := bind_eq_ok.mp h
  obtain ⟨din, -, h⟩ := bind_eq_ok.mp h
  obtain ⟨s3, hw, h⟩ := bind_eq_ok.mp h
  rw [balloc] at h
  split at h
  · cases h
    change s3.freeinode = _
    rw [freeinode_winode hw, freeinode_addFiles hadd, (rest_makeRoot hm).2.1, Nat.add_comm]
  · nomatch h

end Counter

/-! ## The finished image -/

/-- A byte of a file on the image. -/
def fileByte (d : Disk) (i o : Nat) : UInt8 :=
  d (refs sb d (i, slotOf (o / bsize))) ⟨o % bsize, mod_bsize_lt o⟩

/-- `de.inum` of the `k`-th entry of the root directory. -/
def entryInum (d : Disk) (k : Nat) : Nat :=
  (fileByte d 1 (k * 16)).toNat + 256 * (fileByte d 1 (k * 16 + 1)).toNat

/-- `de.name` of the `k`-th entry of the root directory. -/
def entryName (d : Disk) (k : Nat) : List UInt8 :=
  (List.range 14).map fun j => fileByte d 1 (k * 16 + (j + 2))

/-- What the kernel relies on. -/
structure WellBuilt (s : Mk) : Prop where
  /-- The free map marks exactly the metadata and the blocks of files, each of which belongs to one
  file once. -/
  sound : Sound sb s.disk
  /-- The inode numbers that have been handed out are below `sb.ninodes`. -/
  inums : ∀ i, i < s.freeinode → i < sb.ninodes
  /-- No file has a hole below its size. -/
  full : Full sb s.disk
  /-- The names in the root directory are distinct. -/
  names : ∀ k l, k * 16 < (dinode sb s.disk 1).size → l * 16 < (dinode sb s.disk 1).size →
    entryInum s.disk k ≠ 0 → entryInum s.disk l ≠ 0 →
    entryName s.disk k = entryName s.disk l → k = l
  /-- No inode is in the blocks of the free map. -/
  apart : ∀ i, i < s.freeinode → iblock sb i < sb.bmapstart

/-- What the arguments have to be like. -/
def Suitable (args : List Arg) : Prop :=
  args.length < 199 ∧ (args.length + 2) % 64 ≠ 0 ∧ (names args).Nodup

instance (args : List Arg) : Decidable (Suitable args) := inferInstanceAs (Decidable (_ ∧ _ ∧ _))

theorem bit_foldl_setBit {n b : Nat} (hn : n ≤ bpb) :
    bit ((List.range n).foldl setBit Block.zero) b = decide (b < n) := by
  induction n with
  | zero =>
    rw [range_zero, foldl_nil, bit, Block.byte]
    split <;> simp [Block.zero]
  | succ n ih =>
    rw [range_succ, foldl_append, foldl_cons, foldl_nil, bit_setBit (by omega),
      ih (by omega), ← Bool.decide_or, decide_eq_decide]
    omega

/-- The image after the last two steps: the size of the root directory is rounded up, and the free
map is written. -/
structure Finished (s : Mk) (f : Nat → List UInt8) : Prop where
  img : Img s.disk s.freeblock (refs sb s.disk) f (sizes f)
  count : 2 ≤ s.freeinode ∧ s.freeinode ≤ ninodes
  root : (dinode sb s.disk 1).type ≠ 0 ∧ (dinode sb s.disk 1).size = roundUp (f 1).length
  inode : ∀ i, 2 ≤ i → i < ninodes → (dinode sb s.disk i).type ≠ 0 →
    (dinode sb s.disk i).size = (f i).length
  free : (dinode sb s.disk 0).type = 0
  map : ∀ b, b < fssize → (used sb s.disk b = true ↔ b < s.freeblock)

theorem length_le_of_img (h : Img d fb (refs sb d) f (sizes f)) (hbn : bn < sizes f i) :
    bn < maxfile := by
  by_contra hge
  have hne := (h.blocks i bn).mpr hbn
  rw [refs, refAt] at hne
  split at hne
  · rw [slotOf, if_neg (by rw [maxfile] at hge; omega), Inode.ref,
      if_neg (fun hj => by rw [maxfile] at hge; omega)] at hne
    exact hne rfl
  · exact hne rfl

/-- The free map is written to a block that holds nothing else. -/
theorem refs_map {k : Nat → Nat} {v : Block} (h : Img d fb (refs sb d) f k) :
    refs sb (update d sb.bmapstart v) = refs sb d ∧
      ∀ i, i < ninodes → dinode sb (update d sb.bmapstart v) i = dinode sb d i := by
  have hin : ∀ i, i < ninodes → dinode sb (update d sb.bmapstart v) i = dinode sb d i :=
    fun i hi => by rw [dinode, update_of_ne (iblock_lt hi).ne, dinode]
  refine ⟨refAt_congr hin fun j hj => update_of_ne (fun he => ?_) .., hin⟩
  have hlo := (h.data hj).1
  change refs sb d (j, .addr ndirect) = _ at he
  change nmeta ≤ refs sb d (j, .addr ndirect) at hlo
  rw [he] at hlo
  exact absurd hlo (by decide)

/-- The finished image for these arguments. -/
structure Written (args : List Arg) (s : Mk) (f : Nat → List UInt8) : Prop where
  finished : Finished s f
  entries : f 1 = (rootEntries args).flatten
  super : s.disk 1 = superBlock
  root : (dinode sb s.disk 1).type = 1 ∧ (dinode sb s.disk 1).nlink = 1
  files : ∀ k (hk : k < args.length), Built s f (2 + k) args[k]

/-- **What `mkfs` has written when it ends.** -/
theorem written_mkfs (hn : args.length < 199) (hr : mkfs args = .ok s) : ∃ f, Written args s f := by
  rw [mkfs] at hr
  obtain ⟨s0, h0, hr⟩ := bind_eq_ok.mp hr
  obtain ⟨s1, h1, hr⟩ := bind_eq_ok.mp hr
  obtain ⟨din, hd, hr⟩ := bind_eq_ok.mp hr
  obtain ⟨s2, hw, hr⟩ := bind_eq_ok.mp hr
  obtain rfl := rinode_eq_ok hd
  obtain rfl := winode_eq_ok hw
  obtain ⟨hroot, hfi, hsuper, hdir, hlink⟩ := rest_makeRoot h0
  obtain ⟨f, hf, hf1, hfi', hsteady, -, hbuilt⟩ :=
    hroot.addFiles (by omega) (by rw [hfi, ninodes]; omega) h1
  rw [hfi] at hf1 hfi' hbuilt
  have hf1' : f 1 = (rootEntries args).flatten := by
    rw [hf1, update_self, rootEntries, flatten_cons, flatten_cons,
      append_assoc]
  obtain ⟨ht, hsize⟩ := hf.inode 1 le_rfl (by omega)
  -- the inode of the root directory
  set ip : Inode := { dinode sb s1.disk 1 with size := roundUp (dinode sb s1.disk 1).size } with hip
  have hshort : (f 1).length ≤ maxfile * bsize :=
    have h1 : At s1 (dinode sb s1.disk 1) f (sizes f) :=
      ⟨by rw [refsWith_dinode rfl]; exact hf.img, hf.len, by change 1 < ninodes; decide, ht,
        dinode_fits ..⟩
    h1.short
  have hfits : ip.Fits := by
    have h := dinode_fits sb s1.disk 1
    refine ⟨h.type, h.major, h.minor, h.nlink, ?_, h.addrs⟩
    change roundUp (dinode sb s1.disk 1).size < 2 ^ 32
    rw [hsize, roundUp]
    have hle : (f 1).length / bsize ≤ maxfile := Nat.div_le_of_le_mul (by rwa [Nat.mul_comm])
    exact (Nat.mul_le_mul_right bsize (Nat.succ_le_succ hle)).trans_lt (by decide)
  have himg : Img s1.disk s1.freeblock (refsWith sb s1.disk ip) f (sizes f) := by
    have hfields : refsWith sb s1.disk ip = refsWith sb s1.disk (dinode sb s1.disk 1) :=
      refsWith_fields rfl rfl rfl
    rw [hfields, refsWith_dinode rfl]
    exact hf.img
  have h1n : ip.inum < ninodes := by change 1 < ninodes; decide
  have himg' := himg.updated hfits h1n
  -- the free map
  rw [balloc] at hr
  split at hr
  · rename_i hused
    cases hr
    obtain ⟨hrefs, hin⟩ := refs_map
      (v := (List.range s1.freeblock).foldl setBit Block.zero) himg'
    set d := update (updated sb s1.disk ip) sb.bmapstart
      ((List.range s1.freeblock).foldl setBit Block.zero) with hd'
    have hdin : ∀ i, i < ninodes → i ≠ 1 → dinode sb (updated sb s1.disk ip) i =
        dinode sb s1.disk i :=
      fun i _ hne => by rw [dinode_updated hfits]; exact update_of_ne hne ..
    have hmine : dinode sb (updated sb s1.disk ip) 1 = ip := by
      rw [dinode_updated hfits]
      exact update_self ..
    -- neither changes a type or the super block
    have hlast : Steady s1 (wsect
        { s1 with disk := updated sb s1.disk ip, len := max s1.len (iblock sb ip.inum + 1) }
        sb.bmapstart ((List.range s1.freeblock).foldl setBit Block.zero)) := by
      refine ⟨?_, fun j _ hj => ?_⟩
      · rw [wsect_super (by decide)]
        exact updated_super s1.disk ip
      have hj' : j < ninodes := hj.trans_le hf.count.2
      change (dinode sb d j).type = _ ∧ (dinode sb d j).nlink = _
      rw [hin j hj']
      by_cases h1 : j = 1
      · rw [h1, hmine]
        exact ⟨rfl, rfl⟩
      · rw [hdin j hj' h1]
        exact ⟨rfl, rfl⟩
    obtain ⟨hty, hnl⟩ := (hsteady.trans hlast (by omega)).inode 1 le_rfl (by omega)
    refine ⟨f, ⟨?_, ?_, ?_, fun i h2 hi hti => ?_, ?_, fun b hb => ?_⟩, hf1',
      (hlast.super.trans hsteady.super).trans hsuper, ⟨hty.trans hdir, hnl.trans hlink⟩,
      fun k hk => (hbuilt k hk).steady hlast (by omega) (by omega) rfl⟩
    · change Img d s1.freeblock (refs sb d) f (sizes f)
      rw [hrefs]
      have hmap : sb.bmapstart < nmeta := by decide
      have hlo := himg'.lo
      refine himg'.store (by omega) fun i bn hx he => ?_
      have := (himg'.data hx).1
      omega
    · change 2 ≤ s1.freeinode ∧ s1.freeinode ≤ ninodes
      rw [hfi', ninodes]
      omega
    · change (dinode sb d 1).type ≠ 0 ∧ (dinode sb d 1).size = _
      rw [hin 1 (by decide), hmine, ← hsize]
      exact ⟨ht, rfl⟩
    · change (dinode sb d i).type ≠ 0 at hti
      change (dinode sb d i).size = _
      rw [hin i hi, hdin i hi (by omega)] at hti ⊢
      refine (hf.inode i (by omega) ?_).2
      by_contra hge
      exact hti (hf.free i hi (.inr (not_lt.mp hge)))
    · change (dinode sb d 0).type = 0
      rw [hin 0 (by decide), hdin 0 (by decide) (by decide)]
      exact hf.free 0 (by decide) (.inl rfl)
    · have hb' : b < 1000 := hb
      have hblk : bblock sb b = sb.bmapstart := by
        rw [bblock, Nat.div_eq_of_lt (by rw [bpb, bsize]; omega), Nat.zero_add]
      have hmod : b % bpb = b := Nat.mod_eq_of_lt (by rw [bpb, bsize]; omega)
      change bit (d (bblock sb b)) (b % bpb) = true ↔ b < s1.freeblock
      rw [hblk, hmod, hd', update_self, bit_foldl_setBit hused.le, decide_eq_true_iff]
  · cases hr

theorem finished_mkfs (hn : args.length < 199) (hr : mkfs args = .ok s) :
    ∃ f, Finished s f ∧ f 1 = (rootEntries args).flatten := by
  obtain ⟨f, h⟩ := written_mkfs hn hr
  exact ⟨f, h.finished, h.entries⟩

namespace Finished

variable {s : Mk} {f : Nat → List UInt8} {args : List Arg}

theorem sound (h : Finished s f) : Sound sb s.disk := by
  refine ⟨fun b hb => ?_, fun x hx => ?_, h.img.own.once⟩
  · rw [h.map b hb]
    by_cases hd : IsData sb b
    · have hlo := (isData_iff.mp hd).1
      rw [or_iff_right hd.2, ← decide_eq_true_iff (p := b < s.freeblock), h.img.own.mark b hd]
      refine ⟨fun ⟨x, hx⟩ => ⟨x, hx, fun y hy => ?_⟩, fun ⟨x, hx, _⟩ => ⟨x, hx⟩⟩
      exact h.img.own.once y x (by rw [hy]; exact hd.ne_zero) (by rw [hy, hx])
    · have hlt : b < nmeta := by
        by_contra hge
        exact hd (isData_iff.mpr ⟨not_lt.mp hge, hb⟩)
      refine iff_of_true (hlt.trans_le h.img.lo) (.inl ?_)
      by_contra hm
      exact hd ⟨hb, hm⟩
  · exact h.img.own.managed x hx

theorem length_root (hf : f 1 = (rootEntries args).flatten) :
    (f 1).length = (args.length + 2) * 16 := by
  rw [hf, length_flatten_of_forall fun _ => mem_rootEntries, length_rootEntries]

/-- **Only the root directory may have a hole**, and it has one if its entries fill its blocks. -/
theorem full_iff (h : Finished s f) (hf : f 1 = (rootEntries args).flatten) :
    Full sb s.disk ↔ (args.length + 2) % 64 ≠ 0 := by
  have hlen := length_root hf
  constructor
  · intro hfull h0
    have hm := hfull 1 (by decide) h.root.1 ((args.length + 2) / 64)
    rw [h.root.2, hlen] at hm
    refine (hm ?_).2 ?_
    · rw [roundUp, bsize]
      omega
    · by_contra hne
      have hlt := (h.img.blocks 1 _).mp hne
      rw [sizes, lt_nblocks, hlen, bsize] at hlt
      omega
  · intro hne i hi ht bn hbn
    have hsz : bn < sizes f i := by
      rw [sizes, lt_nblocks]
      by_cases h0 : i = 0
      · exact absurd (h0 ▸ h.free) ht
      by_cases h1 : i = 1
      · subst h1
        rw [h.root.2, hlen, roundUp] at hbn
        rw [hlen]
        rw [bsize] at *
        omega
      · rwa [h.inode i (by omega) hi ht] at hbn
    exact ⟨length_le_of_img h.img hsz, (h.img.blocks i bn).mpr hsz⟩

theorem fileByte_eq (h : Finished s f) {o : Nat} (ho : o / bsize < sizes f 1) :
    fileByte s.disk 1 o = (f 1).getD o 0 := by
  rw [fileByte, h.img.bytes 1 _ _ ho]
  rw [Nat.div_add_mod']

end Finished

theorem map_getD_range (l : List UInt8) : ((List.range l.length).map fun j => l.getD j 0) = l := by
  refine ext_getElem (by simp) fun i h1 h2 => ?_
  rw [getElem_map, getElem_range, getD_eq_getElem _ _ h2]

namespace Finished

variable {s : Mk} {f : Nat → List UInt8} {args : List Arg}

section

variable (h : Finished s f) (hf : f 1 = (rootEntries args).flatten)

include h hf

theorem entryByte (hne : (args.length + 2) % 64 ≠ 0) {j : Nat} (hk : k * 16 < roundUp (f 1).length)
    (hj : j < 16) : fileByte s.disk 1 (k * 16 + j) = ((rootEntries args).getD k []).getD j 0 := by
  have hlen := length_root hf
  rw [h.fileByte_eq, hf, getD_flatten (fun _ => mem_rootEntries) hj]
  rw [sizes, lt_nblocks, hlen]
  rw [hlen, roundUp] at hk
  rw [bsize] at *
  omega

theorem entry_eq (hn : args.length < 199) (hne : (args.length + 2) % 64 ≠ 0)
    (hk : k < args.length + 2) :
    k * 16 < roundUp (f 1).length ∧ entryInum s.disk k ≠ 0 ∧
      (names args)[k]? = some (entryName s.disk k) := by
  have hlen := length_root hf
  have hsize : k * 16 < roundUp (f 1).length := by
    rw [hlen, roundUp, bsize]
    omega
  obtain ⟨i, name, h1, h2, he, hname⟩ := rootEntries_eq hn hk
  have hget : (rootEntries args).getD k [] = dirent i name := by
    rw [getD_eq_getElem?_getD, he]
    rfl
  have hbyte : ∀ j < 16, fileByte s.disk 1 (k * 16 + j) = (dirent i name).getD j 0 := fun j hj => by
    rw [h.entryByte hf hne hsize hj, hget]
  rw [ninodes] at h2
  refine ⟨hsize, ?_, ?_⟩
  · have hb0 := hbyte 0 (by decide)
    have hb1 := hbyte 1 (by decide)
    rw [Nat.add_zero] at hb0
    rw [entryInum, hb0, hb1]
    change (UInt8.ofNat i).toNat + 256 * (UInt8.ofNat (i / 256)).toNat ≠ 0
    rw [UInt8.toNat_ofNat', UInt8.toNat_ofNat']
    omega
  · rw [hname, entryName]
    congr 1
    have hmap := map_getD_range (padName name)
    rw [length_padName] at hmap
    rw [← hmap]
    refine map_congr_left fun j hj => ?_
    rw [hbyte (j + 2) (by have := mem_range.mp hj; omega)]
    rfl

/-- The rest of the last block of the root directory is empty. -/
theorem entry_zero (hne : (args.length + 2) % 64 ≠ 0) (hk : args.length + 2 ≤ k)
    (hsize : k * 16 < roundUp (f 1).length) : entryInum s.disk k = 0 := by
  have hget : (rootEntries args).getD k [] = [] :=
    getD_eq_default _ _ (by rwa [length_rootEntries])
  have hb0 := h.entryByte hf hne hsize (j := 0) (by decide)
  have hb1 := h.entryByte hf hne hsize (j := 1) (by decide)
  rw [hget, Nat.add_zero] at hb0
  rw [hget] at hb1
  rw [entryInum, hb0, hb1]
  rfl

theorem names_iff (hn : args.length < 199) (hne : (args.length + 2) % 64 ≠ 0) :
    (∀ k l, k * 16 < (dinode sb s.disk 1).size → l * 16 < (dinode sb s.disk 1).size →
      entryInum s.disk k ≠ 0 → entryInum s.disk l ≠ 0 →
      entryName s.disk k = entryName s.disk l → k = l) ↔ (names args).Nodup := by
  rw [h.root.2]
  constructor
  · intro hd
    rw [nodup_iff_getElem?_ne_getElem?]
    intro k l hkl hl he
    rw [length_names] at hl
    obtain ⟨k1, k2, k3⟩ := h.entry_eq hf hn hne (hkl.trans hl)
    obtain ⟨l1, l2, l3⟩ := h.entry_eq hf hn hne hl
    rw [k3, l3] at he
    exact absurd (hd k l k1 l1 k2 l2 (Option.some.inj he)) hkl.ne
  · intro hd k l hk hl hk0 hl0 he
    have hk' : k < args.length + 2 := by
      by_contra hge
      exact hk0 (h.entry_zero hf hne (not_lt.mp hge) hk)
    have hl' : l < args.length + 2 := by
      by_contra hge
      exact hl0 (h.entry_zero hf hne (not_lt.mp hge) hl)
    have k3 := (h.entry_eq hf hn hne hk').2.2
    have l3 := (h.entry_eq hf hn hne hl').2.2
    rw [he, ← l3] at k3
    exact (getElem?_inj (by rwa [length_names]) hd).mp k3

end

end Finished

theorem wellBuilt_iff (hr : mkfs args = .ok s) : WellBuilt s ↔ Suitable args := by
  by_cases hn : args.length < 199
  · obtain ⟨f, h, hf⟩ := finished_mkfs hn hr
    rw [Suitable, ← h.full_iff hf]
    constructor
    · intro hw
      exact ⟨hn, hw.full, (h.names_iff hf hn ((h.full_iff hf).mp hw.full)).mp hw.names⟩
    · rintro ⟨-, hfull, hd⟩
      have hle := h.count.2
      exact ⟨h.sound, fun i hi => hi.trans_le hle, hfull,
        (h.names_iff hf hn ((h.full_iff hf).mp hfull)).mpr hd,
        fun i hi => iblock_lt (hi.trans_le hle)⟩
  · refine iff_of_false (fun hw => ?_) fun hs => hn hs.1
    have hlt := hw.inums 200 (by rw [freeinode_mkfs hr]; omega)
    nomatch hlt

/-- **The image of `mkfs`**: when the program does not stop, the image has everything the kernel
relies on if and only if there are at most 198 files, the entries of the root directory do not fill
its blocks exactly, and no two names agree in their first `DIRSIZ` bytes. -/
theorem mkfs_wellBuilt_iff (args : List Arg) : match mkfs args with
    | .ok s => WellBuilt s ↔ Suitable args
    | .error _ => True := by
  split
  · exact wellBuilt_iff ‹_›
  · trivial

/-- Empty files with the names `_AA`, `_AB`, ... -/
def emptyFiles (n : Nat) : List Arg :=
  (List.range n).map fun i => ⟨[95, 65 + (i / 16).toUInt8, 65 + (i % 16).toUInt8], some []⟩

/-- Two empty files whose names differ in the fifteenth character only. -/
def longNames : List Arg :=
  [⟨List.replicate 14 97 ++ [97], some []⟩, ⟨List.replicate 14 97 ++ [98], some []⟩]

theorem exists_image {a : List Arg} (h : (mkfs a).toOption.isSome = true) :
    ∃ s, mkfs a = .ok s := by
  cases hr : mkfs a with
  | ok s => exact ⟨s, rfl⟩
  | error e =>
    rw [hr] at h
    nomatch h

/-- With 62 files the root directory has a hole; with 199 files one of them has an inode number that
the kernel does not know; and of two long names the second is never found. -/
theorem mkfs_not_wellBuilt : (∃ s, mkfs (emptyFiles 62) = .ok s ∧ ¬ Full sb s.disk) ∧
    (∃ s, mkfs (emptyFiles 199) = .ok s ∧ ∃ i < s.freeinode, sb.ninodes ≤ i) ∧
    (∃ s, mkfs longNames = .ok s ∧ ¬ ∀ k l, k * 16 < (dinode sb s.disk 1).size →
      l * 16 < (dinode sb s.disk 1).size → entryInum s.disk k ≠ 0 → entryInum s.disk l ≠ 0 →
      entryName s.disk k = entryName s.disk l → k = l) := by
  refine ⟨?_, ?_, ?_⟩
  · obtain ⟨s, hr⟩ := exists_image (a := emptyFiles 62) (by decide +kernel)
    obtain ⟨f, h, hf⟩ := finished_mkfs (by decide) hr
    exact ⟨s, hr, fun hfull => (h.full_iff hf).mp hfull (by decide)⟩
  · obtain ⟨s, hr⟩ := exists_image (a := emptyFiles 199) (by decide +kernel)
    have hfi : s.freeinode = 201 := freeinode_mkfs hr
    exact ⟨s, hr, 200, by rw [hfi]; decide, le_rfl⟩
  · obtain ⟨s, hr⟩ := exists_image (a := longNames) (by decide +kernel)
    obtain ⟨f, h, hf⟩ := finished_mkfs (by decide) hr
    exact ⟨s, hr, fun hd => absurd ((h.names_iff hf (by decide) (by decide)).mp hd) (by decide)⟩

end Xv6.Mkfs
