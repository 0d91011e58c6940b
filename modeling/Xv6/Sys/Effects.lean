import Xv6.Sys.Code

/-!
# What the pieces of the system calls do to nodes

One lemma for each piece that changes the disk, in terms of `nodes`:

* `runs_incr` and `runs_decr`: a link count goes up or down;
* `ends_createNew`: a new node, and an entry for it;
* `ends_removeEntry`: an entry goes away, and perhaps the node it was for.

They hold whenever the disk represents nodes and the directory consists of entries.  None of them
asks for link counts that are right, or for names that lead anywhere.  A panic is one that `E`
allows; the panics of `createNew` need not be allowed, except that of `dirlink` for a directory that
cannot get longer.
-/

namespace Xv6.Sys

open Bio Code Fs
open Function (update update_self update_of_ne update_idem update_apply update_eq_self update_comm)

variable {dp ip : Inode}

section

variable {sb : Superblock} {m : UserMem} {E : Panic → Prop} {s s' : Disk} {ns : Nat → Option Node}
  {i d : Nat} {n n' : Node} {name : List UInt8} {others : Nat → Nat}

/-! ## Link counts -/

/-- A node with one link more. -/
def raised (n : Node) : Node := { n with nlink := (n.nlink + 1) % 2 ^ 16 }

/-- A node with one link less. -/
def lowered (n : Node) : Node := { n with nlink := (n.nlink + (2 ^ 16 - 1)) % 2 ^ 16 }

theorem shorts_of_represents (h : Represents sb s ns) (hn : ns i = some n) :
    n.major < 2 ^ 16 ∧ n.minor < 2 ^ 16 ∧ n.nlink < 2 ^ 16 := by
  have hf := dinode_fits sb s i
  rw [← h.node hn]
  exact ⟨hf.major, hf.minor, hf.nlink⟩

/-- To lower a link count takes back that it has been raised. -/
theorem lowered_raised (h : n.nlink < 2 ^ 16) : lowered (raised n) = n := by
  have hmod : ((n.nlink + 1) % 2 ^ 16 + (2 ^ 16 - 1)) % 2 ^ 16 = n.nlink := by omega
  rw [lowered, raised]
  rw [hmod]

section

variable (hl : Layout sb) (h : Represents sb s ns) (hn : ns i = some n)

include hl h hn

theorem runs_setNlink (f : Nat → Nat)
    (hip : (dinode sb s i).setMeta (dinode sb s i).major (dinode sb s i).minor
      (f (dinode sb s i).nlink) = ip) :
    Runs m (iupdate sb ip) s fun _ s' => dinode sb s' i = ip ∧ KeepsInodes sb s i s' ∧
      Represents sb s' (update ns i (some { n with nlink := f n.nlink % 2 ^ 16 })) := by
  subst hip
  refine (runs_iupdate_node hl h hn _ _ _).mono ?_
  rintro _ s' ⟨hd, hk, hrep⟩
  refine ⟨hd, hk, ?_⟩
  obtain ⟨h1, h2, -⟩ := shorts_of_represents h hn
  have hmin : (dinode sb s i).minor = n.minor := congrArg Node.minor (h.node hn)
  rwa [h.nlink hn, h.major hn, hmin, Nat.mod_eq_of_lt h1, Nat.mod_eq_of_lt h2] at hrep

theorem runs_incr :
    Runs m (iupdate sb (incr (dinode sb s i))) s fun _ s' =>
      dinode sb s' i = incr (dinode sb s i) ∧ KeepsInodes sb s i s' ∧
        Represents sb s' (update ns i (some (raised n))) :=
  runs_setNlink hl h hn (· + 1) rfl

theorem runs_decr :
    Runs m (iupdate sb (decr (dinode sb s i))) s fun _ s' =>
      dinode sb s' i = decr (dinode sb s i) ∧ KeepsInodes sb s i s' ∧
        Represents sb s' (update ns i (some (lowered n))) :=
  runs_setNlink hl h hn (· + (2 ^ 16 - 1)) rfl

end

/-- The directories are the same when the link count of a file has been raised. -/
theorem of_update_raised {j : Nat} (hdir : n.type ≠ tDir)
    (hj : update ns i (some (raised n)) j = some n') (ht : n'.type = tDir) : ns j = some n' := by
  rw [update_apply] at hj
  split at hj
  · cases hj
    exact absurd ht hdir
  · exact hj

theorem KeepsInodes.trans {s1 s2 : Disk} (h : KeepsInodes sb s i s1) (h' : KeepsInodes sb s1 i s2) :
    KeepsInodes sb s i s2 := fun j hj hne => (h' j hj hne).trans (h j hj hne)

/-! ## `create` -/

/-- A new directory with its two entries. -/
def withDots (n : Node) (i d : Nat) : Node := (n.linked [46] i).linked [46, 46] d

theorem ends_createDots (hl : Layout sb) (h : Represents sb s ns) (hn : ns i = some n)
    (hd : n.IsDir) (hb : n.bytes = []) (hip : dinode sb s i = ip) (hE : ∀ e, Tolerated e → E e) :
    Ends m E (createDots sb dp ip) s fun ip' s' => ip' = dinode sb s' i ∧ KeepsInodes sb s i s' ∧
      Represents sb s' (update ns i (some (withDots n i dp.inum))) := by
  have hnone : ∀ name, found n.bytes name = none := fun name => by rw [hb]; rfl
  have hroom : n.bytes.length + direntSize ≤ maxfile * bsize := by rw [hb]; decide
  have hroom1 : (n.linked [46] i).bytes.length + direntSize ≤ maxfile * bsize := by
    rw [hd.length_linked, hb]
    decide
  subst hip
  rw [createDots]
  refine (h.ends_dirlink hl hn hd i (hnone [46]) (.inl hE) fun _ => .inr hroom).bind ?_
  rintro _ s1 ⟨rfl, hk1, h1⟩
  have hn1 : update ns i (some (n.linked [46] i)) i = some (n.linked [46] i) :=
    update_self ..
  refine (h1.ends_dirlink hl hn1 (hd.linked ..) dp.inum
    (found_linked_eq_none hd i (hnone [46, 46]) (by decide)) (.inl hE) fun _ => .inr hroom1).bind ?_
  rintro _ s2 ⟨rfl, hk2, h2⟩
  rw [update_idem] at h2
  exact ends_pure ⟨rfl, KeepsInodes.trans hk1 hk2, h2⟩

/-- The node that `create` makes. -/
def made (type major minor i d : Nat) : Node :=
  let n : Node := ⟨type, major % 2 ^ 16, minor % 2 ^ 16, 1, []⟩
  if type = tDir then withDots n i d else n

/-- The directory in which it makes it. -/
def parentWith (type : Nat) (n : Node) (name : List UInt8) (i : Nat) : Node :=
  (if type = tDir then raised n else n).linked name i

theorem ends_createEntry (hl : Layout sb) (h : Represents sb s ns) (hn : ns d = some n)
    (hd : n.IsDir) (ha : found n.bytes name = none) (hid : i ≠ d) (hi : i < sb.ninodes)
    (hdp : dinode sb s d = dp) (hip : dinode sb s i = ip) (hE : ∀ e, Tolerated e → E e)
    (hfit : ¬ E .dirlink → none ∈ slots n.bytes ∨ n.bytes.length + direntSize ≤ maxfile * bsize) :
    Ends m E (createEntry sb others dp ip name) s fun ip' s' => ip' = dinode sb s' i ∧ ∃ o,
      Represents sb s' (update ns d o) ∧ (o = some (n.linked name i) ∨ o = none) := by
  subst hdp
  have hinum : ip.inum = i := by rw [← hip]; rfl
  rw [createEntry, hinum]
  refine (h.ends_dirlink hl hn hd i ha (.inl hE) hfit).bind ?_
  rintro _ s1 ⟨rfl, hk1, h1⟩
  have hn1 : update ns d (some (n.linked name i)) d = some (n.linked name i) :=
    update_self ..
  refine ((runs_iunlockput hl h1 hn1 (hold others i) rfl).ends hE).bind ?_
  rintro _ s2 (rfl | ⟨-, -, hk2, h2⟩)
  · exact ends_pure ⟨by rw [hk1 i hi hid, hip], _, h1, .inl rfl⟩
  · rw [update_idem] at h2
    exact ends_pure ⟨by rw [hk2 i hi hid, hk1 i hi hid, hip], none, h2, .inr rfl⟩

/-- **`create` of a name that is not there.** -/
theorem ends_createNew (hl : Layout sb) (h : Represents sb s ns) (hn : ns d = some n) (hd : n.IsDir)
    (ha : found n.bytes name = none) {type : Nat} (ht0 : type ≠ 0) (ht : type < 2 ^ 16)
    (major minor : Nat) (hdp : dinode sb s d = dp) (hE : ∀ e, Tolerated e → E e)
    (hfit : ¬ E .dirlink → none ∈ slots n.bytes ∨ n.bytes.length + direntSize ≤ maxfile * bsize) :
    Ends m E (createNew sb others dp name type major minor) s fun ip s' => ∃ i, 1 ≤ i ∧
      i < sb.ninodes ∧ ns i = none ∧ ip = dinode sb s' i ∧ ∃ o,
        Represents sb s' (update (update ns i (some (made type major minor i d))) d o) ∧
        (o = some (parentWith type n name i) ∨ o = none) := by
  have hlt := h.lt hn
  rw [createNew]
  refine ((runs_ialloc_node hl h ht0 ht).ends hE).bind ?_
  rintro i s1 ⟨h1, hi, hfree, hdin, hk1, h₁⟩
  have hid : i ≠ d := by
    rintro rfl
    simp [hn] at hfree
  have hn1 : update ns i (some (freshNode type)) i = some (freshNode type) :=
    update_self ..
  refine (h₁.yields_ilockRead hn1).ends_bind ?_
  refine ((runs_iupdate_node hl h₁ hn1 major minor 1).ends hE).bind ?_
  rintro _ s2 ⟨hip, hk2, h2⟩
  rw [update_idem] at h2
  have hdp2 : dinode sb s2 d = dp := by rw [hk2 d hlt hid.symm, hk1 d hlt hid.symm, hdp]
  generalize (dinode sb s1 i).setMeta major minor 1 = ip at hip ⊢
  split
  · rename_i hdir
    subst hdir
    have hnd : update ns i (some (⟨tDir, major % 2 ^ 16, minor % 2 ^ 16, 1, []⟩ : Node)) d =
        some n := by rw [update_of_ne hid.symm, hn]
    rw [← hdp2]
    refine ((runs_incr hl h2 hnd).ends hE).bind ?_
    rintro _ s3 ⟨hdp3, hk3, h3⟩
    generalize incr (dinode sb s2 d) = dp' at hdp3 ⊢
    have hinum : dp'.inum = d := by rw [← hdp3]; rfl
    have hni : update (update ns i (some (⟨tDir, major % 2 ^ 16, minor % 2 ^ 16, 1, []⟩
        : Node))) d (some (raised n)) i = some ⟨tDir, major % 2 ^ 16, minor % 2 ^ 16, 1, []⟩ := by
      rw [update_of_ne hid, update_self]
    refine (ends_createDots hl h3 hni ⟨rfl, Nat.dvd_zero _⟩ rfl
      (by rw [hk3 i hi hid]; exact hip) hE).bind ?_
    rintro ip' s4 ⟨hip4, hk4, h4⟩
    rw [hinum, update_comm hid, update_idem, ← update_comm hid] at h4
    refine (ends_createEntry hl h4 (update_self ..) ⟨hd.type, hd.aligned⟩ ha hid hi
      (by rw [hk4 d hlt hid.symm, hdp3]) hip4.symm hE hfit).mono ?_
    rintro ip'' s5 ⟨hip5, o, h5, ho⟩
    rw [update_idem] at h5
    refine ⟨i, h1, hi, hfree, hip5, o, ?_, ?_⟩
    · rwa [made, if_pos rfl]
    · rwa [parentWith, if_pos rfl]
  · rename_i hdir
    refine (ends_createEntry hl h2 (by rw [update_of_ne hid.symm, hn]) hd ha hid hi hdp2 hip hE
      hfit).mono ?_
    rintro ip' s3 ⟨hip3, o, h3, ho⟩
    refine ⟨i, h1, hi, hfree, hip3, o, ?_, ?_⟩
    · rwa [made, if_neg hdir]
    · rwa [parentWith, if_neg hdir]

/-! ## `sys_unlink` -/

theorem exists_removable (h : Represents sb s ns) (hn : ns i = some n)
    (hd : n.type = tDir → n.IsDir) :
    ∃ b, Yields m (removable sb (dinode sb s i)) s (b, dinode sb s i) := by
  rw [removable]
  split
  · rename_i hdir
    rw [h.type hn] at hdir
    exact ⟨_, h.isdirempty hn (hd hdir) m⟩
  · exact ⟨true, yields_pure⟩

section

variable (hl : Layout sb) (h : Represents sb s ns)

include hl h

theorem ends_put (hn : ns i = some n) (others : Nat → Nat) (hip : dinode sb s i = ip)
    (hE : ∀ e, Tolerated e → E e) :
    Ends m E (iunlockput sb others ip) s fun _ s' => ∃ ns', Freed sb others s ns s' ns' ∧
      ∀ j, j < sb.ninodes → j ≠ i → ns' j = ns j ∧ dinode sb s' j = dinode sb s j := by
  refine ((runs_iunlockput hl h hn others hip).ends hE).mono ?_
  rintro _ s' (rfl | ⟨-, h0, hk, h'⟩)
  · exact ⟨ns, .refl h, fun _ _ _ => ⟨rfl, rfl⟩⟩
  · exact ⟨_, .erase h0 hk h', fun j hj hne => ⟨update_of_ne hne .., hk j hj hne⟩⟩

theorem ends_dropDotdot (hn : ns d = some n) (hdp : dinode sb s d = dp)
    (hE : ∀ e, Tolerated e → E e) :
    Ends m E (dropDotdot sb dp ip) s fun dp' s' => dinode sb s' d = dp' ∧
    (dp' = dp ∨ dp' = decr dp) ∧
      KeepsInodes sb s d s' ∧ ∃ n', Represents sb s' (update ns d (some n')) ∧
        n'.type = n.type ∧ n'.bytes = n.bytes := by
  have hlow : (lowered n).type = n.type ∧ (lowered n).bytes = n.bytes := by
    rw [lowered]
    exact ⟨rfl, rfl⟩
  rw [dropDotdot]
  split
  · have hdecr : Ends m E (iupdate sb (decr (dinode sb s d))) s _ := (runs_decr hl h hn).ends hE
    rw [hdp] at hdecr
    refine hdecr.bind ?_
    rintro _ s' ⟨hd, hk, h'⟩
    exact ends_pure ⟨hd, .inr rfl, hk, lowered n, h', hlow⟩
  · refine ends_pure ⟨hdp, .inl rfl, fun _ _ _ => rfl, n, ?_, rfl, rfl⟩
    rwa [← hn, update_eq_self]

/-- **An entry is removed**, and with it perhaps the inode that it was for. -/
theorem ends_removeEntry (hn : ns d = some n) (hd : n.IsDir) {k : Nat}
    (hk : k < (slots n.bytes).length) (hn' : ns i = some n') (x : Mem)
    (hE : ∀ e, Tolerated e → E e) :
    Ends m E (removeEntry sb x (dinode sb s d) (dinode sb s i) (k * direntSize)) s fun r s' =>
      r = 0 ∧
      ∃ ns', Represents sb s' ns' ∧
        Pruned ns' (update ns d (some (n.zeroed (k * direntSize)))) := by
  have hi := h.lt hn'
  have hlt := h.lt hn
  have hle := hd.entry_le hk
  rw [removeEntry]
  refine (((h.runs_zero hl hn hd hk).ends hE).and (runs_writei_inside hl h hn hle)).bind ?_
  rintro _ s1 ⟨⟨rfl, hk1, h1⟩, hdp1⟩
  dsimp only at hdp1 ⊢
  rw [if_neg (not_not.mpr rfl), hdp1]
  -- the copy of the inode in memory is what is on disk, also if it is the directory itself
  have hip1 : dinode sb s1 i = dinode sb s i := by
    by_cases hid : i = d
    · rw [hid, hdp1]
    · exact hk1 i hi hid
  generalize hip : dinode sb s i = ip at hip1 ⊢
  generalize hdp : dinode sb s d = dp at hdp1 ⊢
  refine (ends_dropDotdot hl h1 (update_self ..) hdp1 hE).bind ?_
  rintro dp2 s2 ⟨hdp2, hor, hk2, n2, h2, ht2, hb2⟩
  rw [update_idem] at h2
  have hprune2 : Pruned (update ns d (some n2))
      (update ns d (some (n.zeroed (k * direntSize)))) := by
    have hset := Pruned.set (update_self d (some (n.zeroed (k * direntSize))) ns) ht2 hb2
    rwa [update_idem] at hset
  have hmeta : ∃ major minor nlink, decr ip = (dinode sb s2 i).setMeta major minor nlink := by
    refine ⟨ip.major, ip.minor, ip.nlink + (2 ^ 16 - 1), ?_⟩
    by_cases hid : i = d
    · have hipdp : ip = dp := by rw [← hip, ← hdp, hid]
      rw [hid, hdp2, hipdp]
      rcases hor with rfl | rfl
      · rfl
      · rfl
    · rw [hk2 i hi hid, hip1]
      rfl
  have hinum : ip.inum = i := by rw [← hip]; rfl
  rw [hinum]
  refine (ends_put hl h2 (update_self ..) (hold x.iref i) hdp2 hE).bind ?_
  rintro _ s3 ⟨ns3, h3, hk3⟩
  obtain ⟨hns3, hip3⟩ := h3.used i hi hold_self_ne_zero
  have hn3 : ∃ n3, ns3 i = some n3 := by
    rw [hns3, update_apply]
    split
    · exact ⟨n2, rfl⟩
    · exact ⟨n', hn'⟩
  obtain ⟨n3, hn3⟩ := hn3
  obtain ⟨major, minor, nlink, hmeta⟩ := hmeta
  rw [← hip3] at hmeta
  rw [hmeta]
  refine ((runs_iupdate_node hl h3.rep hn3 major minor nlink).ends hE).bind ?_
  rintro _ s4 ⟨hip4, -, h4⟩
  refine (ends_put hl h4 (update_self ..) x.iref hip4 hE).bind ?_
  rintro _ s5 ⟨ns5, h5, -⟩
  refine ends_pure ⟨rfl, ns5, h5.rep, ?_⟩
  have hset : Pruned (update ns3 i (some { n3 with
      major := major % 2 ^ 16, minor := minor % 2 ^ 16, nlink := nlink % 2 ^ 16 })) ns3 :=
    .set hn3 rfl rfl
  exact (Pruned.of_sub h5.sub).trans (hset.trans ((Pruned.of_sub h3.sub).trans hprune2))

end

end

end Xv6.Sys
