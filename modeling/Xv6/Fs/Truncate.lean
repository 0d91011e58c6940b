import Xv6.Fs.Ownership

/-!
# Giving blocks and inodes back

`itrunc` frees the blocks of a file one after the other.  It clears the direct slots as it goes, but
the entries of the indirect block stay where they are: between the first `bfree` of an entry and
the end of the loop the free map agrees with no state of the inode.  The loop is specified by the
references themselves, `runs_itruncIndirect`, and only when the indirect block is gone too are they
those of an inode again.

`ialloc` and `iput` are the two ends of an inode's life.
-/

namespace Xv6.Fs

open Bio Code Nat
open Function (update update_self update_of_ne update_eq_self)

/-! ## `itrunc` -/

/-- The two states differ in blocks of the free map only. -/
def OnlyMap (sb : Superblock) (s s' : Disk) : Prop :=
  ∀ c, (∀ b, b < sb.size → c ≠ bblock sb b) → s' c = s c

/-- The references, without those from the entries `l` of the indirect block of inode `i`. -/
def dropEntries (ref : Site → Nat) (i : Nat) (l : List Nat) (x : Site) : Nat :=
  if x ∈ l.map (fun j => (i, Slot.ent j)) then 0 else ref x

section Trunc

variable {sb : Superblock} {s s' s'' : Disk} {ip ip' : Inode} {m : UserMem} {d : Block}
  {i type inum : Nat}

theorem OnlyMap.refl (s : Disk) : OnlyMap sb s s := fun _ _ => rfl

theorem OnlyMap.trans (h : OnlyMap sb s s') (h' : OnlyMap sb s' s'') : OnlyMap sb s s'' :=
  fun c hc => (h' c hc).trans (h c hc)

theorem OnlyMap.freed {b : Nat} (hb : b < sb.size) : OnlyMap sb s (freed sb s b) :=
  fun _ hc => freed_of_ne (hc b hb)

theorem OnlyMap.inodes (hl : Layout sb) (h : OnlyMap sb s s') (i : Nat) (hi : i < sb.ninodes) :
    s' (iblock sb i) = s (iblock sb i) := h _ fun _ hb => hl.iblock_ne_bblock hi hb

theorem OnlyMap.data {c : Nat} (h : OnlyMap sb s s') (hc : IsData sb c) : s' c = s c :=
  h _ fun _ hb he => hc.ne_bblock hb he.symm

theorem OnlyMap.refsWith (hl : Layout sb) (h : OnlyMap sb s s') (ho : Own sb s (refsWith sb s ip)) :
    refsWith sb s' ip = refsWith sb s ip :=
  refsWith_congr (h.inodes hl) fun _ hi => h.data (ho.owned.managed _ hi)

theorem Busy.freeAddr (hl : Layout sb) (h : Busy sb s ip) (hi : i < ndirect) (h0 : ip.addr i ≠ 0) :
    Busy sb (freed sb s (ip.addr i)) (ip.setAddr i 0) := by
  have hsame : ip.Same (ip.setAddr i 0) := Inode.same_setAddr
  have hmap : OnlyMap sb s (freed sb s (ip.addr i)) := .freed (h.addr_data h0).1
  refine ⟨?_, by rw [hsame.inum]; exact h.inum, by rw [hsame.type]; exact h.type,
    h.fits.setAddr (by norm_num)⟩
  rw [refsWith_setAddr (Nat.le_of_lt hi) h.inum h.type (fun he => absurd he (Nat.ne_of_lt hi)),
    hmap.refsWith hl h.own, ← h.addr]
  exact h.own.freed (by rwa [h.addr])

theorem runs_itruncDirect (hl : Layout sb) (l : List Nat) :
    ∀ {s : Disk} {ip : Inode}, Busy sb s ip → (∀ i ∈ l, i < ndirect) →
      Runs m (itruncDirect sb l ip) s fun ip' s' => OnlyMap sb s s' ∧ Busy sb s' ip' ∧
        ip.Same ip' ∧ ∀ i, ip'.addr i = if i ∈ l then 0 else ip.addr i := by
  induction l with
  | nil => intro s ip h _; exact ⟨.refl s, h, .refl _, by simp⟩
  | cons i l ih =>
    intro s ip h hl'
    have hi : i < ndirect := hl' i (by simp)
    have hrest : ∀ k ∈ l, k < ndirect := fun k hk => hl' k (by simp [hk])
    rw [itruncDirect]
    split
    · rename_i h0
      have hused : used sb s (ip.addr i) = true := by
        rw [← h.addr]
        exact h.own.owned.marked (by rwa [h.addr])
      refine runs_bfree hused ((ih (h.freeAddr hl hi h0) hrest).mono ?_)
      rintro ip' s' ⟨h1, h2, h3, h4⟩
      refine ⟨(OnlyMap.freed (h.addr_data h0).1).trans h1, h2, Inode.same_setAddr.trans h3,
        fun k => ?_⟩
      rw [h4, Inode.addr_setAddr (le_of_lt hi)]
      by_cases hk : k = i <;> by_cases hkl : k ∈ l <;> simp [hk, hkl]
    · rename_i h0
      refine (ih h hrest).mono ?_
      rintro ip' s' ⟨h1, h2, h3, h4⟩
      refine ⟨h1, h2, h3, fun k => ?_⟩
      rw [h4]
      by_cases hk : k = i
      · subst hk
        simp [of_not_not h0]
      · simp [hk]

theorem dropEntries_addr (ref : Site → Nat) (i : Nat) (l : List Nat) (i' k : Nat) :
    dropEntries ref i l (i', .addr k) = ref (i', .addr k) := if_neg (by simp)

theorem dropEntries_cons (ref : Site → Nat) (i j : Nat) (l : List Nat) :
    dropEntries ref i (j :: l) = dropEntries (update ref (i, .ent j) 0) i l := by
  funext x
  rw [dropEntries, dropEntries]
  by_cases hx : x = (i, .ent j) <;> simp [hx]

/-- The loop over the entries of the indirect block: each entry that is freed is taken off the
list of references. -/
theorem runs_itruncIndirect {a : Block} (l : List Nat) :
    ∀ {s : Disk} {ref : Site → Nat}, Own sb s ref → l.Nodup →
      (∀ j ∈ l, ref (i, .ent j) = entry a j) →
      Runs m (itruncIndirect sb a l) s fun _ s' => OnlyMap sb s s' ∧
        Own sb s' (dropEntries ref i l) := by
  induction l with
  | nil => intro s ref h _ _; exact ⟨.refl s, h⟩
  | cons j l ih =>
    intro s ref h hnd hl
    have hj := hl j (by simp)
    rw [List.nodup_cons] at hnd
    rw [itruncIndirect]
    split
    · rename_i h0
      rw [← hj] at h0 ⊢
      have hnext : ∀ k ∈ l, update ref (i, .ent j) 0 (i, .ent k) = entry a k := by
        intro k hk
        rw [update_of_ne (by rintro ⟨⟩; exact hnd.1 hk)]
        exact hl k (by simp [hk])
      refine runs_bfree (h.owned.marked h0) ((ih (h.freed h0) hnd.2 hnext).mono ?_)
      rintro _ s' ⟨h1, h2⟩
      refine ⟨(OnlyMap.freed (h.owned.managed _ h0).1).trans h1, ?_⟩
      rwa [dropEntries_cons]
    · rename_i h0
      refine (ih h hnd.2 fun k hk => hl k (by simp [hk])).mono ?_
      rintro _ s' ⟨h1, h2⟩
      refine ⟨h1, ?_⟩
      have hz : ref (i, .ent j) = 0 := hj.trans (of_not_not h0)
      rwa [dropEntries_cons, ← hz, update_eq_self]

/-- The references without those from the indirect block are those of the inode without it. -/
theorem refsWith_drop_indirect (hn : ip.inum < sb.ninodes) (ht : ip.type ≠ 0) :
    refsWith sb s (ip.setAddr ndirect 0) =
      update (dropEntries (refsWith sb s ip) ip.inum (List.range nindirect))
        (ip.inum, .addr ndirect) 0 := by
  have hsame : ip.Same (ip.setAddr ndirect 0) := Inode.same_setAddr
  funext ⟨i, x⟩
  by_cases hi : i = ip.inum
  · subst hi
    rw [refsWith_self x hsame.inum (by rwa [hsame.inum]) (by rwa [hsame.type])]
    cases x with
    | addr k =>
      rw [Inode.ref, Inode.addr_setAddr (le_refl _)]
      by_cases hk : k = ndirect
      · rw [if_pos hk, hk, update_self]
      · rw [if_neg hk, update_of_ne (by simpa using hk), dropEntries_addr,
          refsWith_self _ rfl hn ht, Inode.ref]
    | ent j =>
      rw [update_of_ne (by simp), dropEntries, refsWith_self _ rfl hn ht, Inode.ref,
        Inode.ref, Inode.addr_setAddr (le_refl _), if_pos rfl, if_neg (by simp)]
      split
      · rfl
      · rename_i hj
        have hj' : ¬ j < nindirect := fun h => hj (List.mem_map.mpr ⟨j, List.mem_range.mpr h, rfl⟩)
        rw [if_neg fun h => hj' h.2]
  · rw [refsWith_other x (by rwa [hsame.inum]), update_of_ne (by simp [hi]),
      dropEntries, if_neg, refsWith_other x hi]
    simp only [List.mem_map, Prod.mk.injEq, not_exists, not_and]
    exact fun _ _ h => absurd h.symm hi

theorem runs_itruncRest (hl : Layout sb) (h : Busy sb s ip) :
    Runs m (itruncRest sb ip) s fun ip' s' => OnlyMap sb s s' ∧ Busy sb s' ip' ∧
      ip.Same ip' ∧ ∀ i, ip'.addr i = if i = ndirect then 0 else ip.addr i := by
  rw [itruncRest]
  split
  · rename_i h0
    rw [Runs, ends_bread]
    have hent : ∀ j ∈ List.range nindirect,
        refsWith sb s ip (ip.inum, .ent j) = entry (s (ip.addr ndirect)) j := by
      intro j hj
      rw [h.ref, Inode.ref, if_pos ⟨h0, List.mem_range.mp hj⟩]
    refine (runs_itruncIndirect _ h.own List.nodup_range hent).bind ?_
    rintro _ s1 ⟨hm1, ho1⟩
    rw [ends_brelse]
    have hind := dropEntries_addr (refsWith sb s ip) ip.inum (List.range nindirect) ip.inum ndirect
    rw [h.addr] at hind
    have hused : used sb s1 (ip.addr ndirect) = true := by
      rw [← hind]
      exact ho1.owned.marked (by rwa [hind])
    refine runs_bfree hused ?_
    have hsame : ip.Same (ip.setAddr ndirect 0) := Inode.same_setAddr
    have hmap : OnlyMap sb s (freed sb s1 (ip.addr ndirect)) :=
      hm1.trans (.freed (h.addr_data h0).1)
    refine ⟨hmap, ⟨?_, by rw [hsame.inum]; exact h.inum, by rw [hsame.type]; exact h.type,
      h.fits.setAddr (by norm_num)⟩, hsame, fun i => Inode.addr_setAddr (le_refl _)⟩
    have hown := ho1.freed (x := (ip.inum, .addr ndirect)) (by rwa [hind])
    rw [hind] at hown
    rwa [refsWith_drop_indirect h.inum h.type, hmap.refsWith hl h.own]
  · rename_i h0
    refine ⟨.refl s, h, .refl _, fun i => ?_⟩
    split
    · rename_i hi
      rw [hi]
      exact of_not_not h0
    · rfl

/-- **What `itrunc` does**: the file has no blocks left. -/
theorem runs_itrunc (hl : Layout sb) (h : Own sb s (refs sb s)) (hd : dinode sb s ip.inum = ip)
    (hn : ip.inum < sb.ninodes) (ht : ip.type ≠ 0) :
    Runs m (itrunc sb ip) s fun ip' s' => Settled sb s ip.inum s' ip' ∧
      ip'.inum = ip.inum ∧ ip'.type = ip.type ∧ ip'.size = 0 ∧ ∀ i, ip'.addr i = 0 := by
  have hrange : ∀ i ∈ List.range ndirect, i < ndirect := fun i hi => List.mem_range.mp hi
  rw [itrunc]
  refine (runs_itruncDirect hl _ (.of_own h hd hn ht) hrange).bind ?_
  rintro ip1 s1 ⟨hm1, hb1, hsame1, haddr1⟩
  refine (runs_itruncRest hl hb1).bind ?_
  rintro ip2 s2 ⟨hm2, hb2, hsame2, haddr2⟩
  have hm := hm1.trans hm2
  have hsame := hsame1.trans hsame2
  have hzero : ∀ i, ip2.addr i = 0 := by
    intro i
    rw [haddr2, haddr1]
    by_cases h1 : i = ndirect <;> by_cases h2 : i < ndirect <;> simp [h1, h2]
    rw [Inode.addr, dif_neg (by omega)]
  change Settled sb s ip.inum (updated sb s2 { ip2 with size := 0 }) { ip2 with size := 0 } ∧
    ip2.inum = ip.inum ∧ ip2.type = ip.type ∧ 0 = 0 ∧ ∀ i, ip2.addr i = 0
  refine ⟨?_, hsame.inum, hsame.type, rfl, hzero⟩
  have hfit := hb2.fits
  have href : refsWith sb s2 { ip2 with size := 0 } = refsWith sb s2 ip2 :=
    refsWith_fields rfl rfl rfl
  have hinum : ({ ip2 with size := 0 } : Inode).inum = ip.inum := hsame.inum
  rw [← hinum]
  refine .update hl (hm.inodes hl) (by rw [href]; exact hb2.own) hb2.inum
    ⟨hfit.type, hfit.major, hfit.minor, hfit.nlink, by norm_num, hfit.addrs⟩
    (fun _ _ bn hbn => absurd hbn (not_lt_zero _)) fun i x hi h0 => ?_
  rw [refsWith_other x hi, refs, refAt_congr (fun _ => dinode_congr (hm.inodes hl)) fun j hj =>
    hm.data (h.owned.managed _ hj)] at h0
  exact h0

/-! ## `iput` and `ialloc` -/

theorem Inode.ref_eq_zero (h : ∀ i, ip.addr i = 0) (x : Slot) : ip.ref s x = 0 := by
  cases x with
  | addr i => rw [Inode.ref, h]
  | ent j => rw [Inode.ref, h, if_neg (by simp)]

/-- An inode that refers to nothing may stand in for another such. -/
theorem refsWith_eq_refs (h : ∀ x, refs sb s (ip.inum, x) = 0) (ha : ∀ i, ip.addr i = 0) :
    refsWith sb s ip = refs sb s := by
  funext ⟨i, x⟩
  by_cases hi : i = ip.inum
  · subst hi
    rw [h, refsWith, refAt, update_self, Inode.ref_eq_zero ha]
    split <;> rfl
  · exact refsWith_other x hi

/-- **What `iput` does** when it frees the inode. -/
theorem runs_iputFree (hl : Layout sb) (h : Own sb s (refs sb s)) (hd : dinode sb s ip.inum = ip)
    (hn : ip.inum < sb.ninodes) (ht : ip.type ≠ 0) :
    Runs m (iputFree sb ip) s fun ip' s' => Settled sb s ip.inum s' ip' ∧ ip'.type = 0 := by
  rw [iputFree]
  refine (runs_itrunc hl h hd hn ht).bind ?_
  rintro ip1 s1 ⟨hset, hinum, htype, hsize, hzero⟩
  refine ⟨hset.trans ?_, rfl⟩
  have hfit : ip1.Fits := hset.mine ▸ dinode_fits sb s1 _
  have href : refsWith sb s1 { ip1 with type := 0 } = refs sb s1 := by
    refine refsWith_eq_refs (fun x => ?_) hzero
    rw [refs, refAt]
    rw [hinum, hset.mine, Inode.ref_eq_zero hzero]
    split <;> rfl
  have hinum' : ({ ip1 with type := 0 } : Inode).inum = ip.inum := hinum
  rw [← hinum']
  refine .update hl (fun _ _ => rfl) (by rw [href]; exact hset.own) (by rwa [hinum'])
    ⟨by norm_num, hfit.major, hfit.minor, hfit.nlink, hfit.size, hfit.addrs⟩
    (fun _ h0 => absurd rfl h0) fun i x _ h0 => by rwa [href] at h0

/-- The inode `ialloc` writes. -/
def freshInode (inum type : Nat) : Inode where
  inum := inum
  type := type
  major := 0
  minor := 0
  nlink := 0
  size := 0
  addrs _ := 0

theorem get_clearDinode {o k : Nat} (ho : dinodeOff inum + 2 ≤ o)
    (hk : o + k ≤ dinodeOff inum + dinodeSize) : (clearDinode d inum type).get o k = 0 := by
  have hb := dinodeOff_le inum
  rw [clearDinode, Block.get_set_of_disjoint (by omega), Block.get_of_byte (v := 0), zero_mod]
  intro j hj
  rw [Block.byte_set_in (by omega) (by omega), Nat.zero_div, Nat.zero_div]

theorem readDinode_clearDinode (ht : type < 2 ^ 16) :
    readDinode (clearDinode d inum type) inum = freshInode inum type := by
  have hb := dinodeOff_le inum
  have hz : ∀ o k, 2 ≤ o → o + k ≤ dinodeSize →
      (clearDinode d inum type).get (dinodeOff inum + o) k = 0 :=
    fun o k h1 h2 => get_clearDinode (by omega) (by omega)
  rw [dinodeSize] at hz hb
  rw [readDinode, freshInode, dinodeType, hz 2 2 (by omega) (by omega),
    hz 4 2 (by omega) (by omega), hz 6 2 (by omega) (by omega), hz 8 4 (by omega) (by omega),
    clearDinode, Block.get_set_self (by omega) ht]
  congr 1
  funext k
  have hk : k.val ≤ 12 := le_of_lt_succ k.isLt
  rw [add_assoc]
  exact hz _ _ (by omega) (by omega)

theorem Settled.ialloc (hl : Layout sb) (h : Own sb s (refs sb s)) (hn : inum < sb.ninodes)
    (ht : type < 2 ^ 16) (h0 : (dinode sb s inum).type = 0) :
    Settled sb s inum (Function.update s (iblock sb inum)
      (clearDinode (s (iblock sb inum)) inum type))
      (freshInode inum type) := by
  have haddr : ∀ i, (freshInode inum type).addr i = 0 := by
    intro i
    rw [Inode.addr]
    split <;> rfl
  have href : refsWith sb s (freshInode inum type) = refs sb s := by
    refine refsWith_eq_refs (fun x => ?_) haddr
    rw [refs, refAt, if_neg fun hx => hx.2 h0]
  change Settled sb s (freshInode inum type).inum
    (Function.update s (iblock sb (freshInode inum type).inum) _) (freshInode inum type)
  refine .write hl ?_ (fun _ _ => rfl) (by rwa [href]) hn
    (fun _ _ bn hbn => absurd hbn (not_lt_zero _)) fun i x _ hx => by rwa [href] at hx
  change dinode sb (Function.update s (iblock sb inum) _) = Function.update (dinode sb s) inum _
  funext i
  by_cases hi : i = inum
  · subst hi
    rw [update_self, dinode, update_self, readDinode_clearDinode ht]
  · rw [update_of_ne hi,
      dinode_update_of_ne hi fun o k hd => get_clearDinode_of_disjoint hd]

/-- **What `ialloc` does**: it takes an inode that is free. -/
theorem runs_ialloc : Runs m (ialloc sb type) s fun inum s' => 1 ≤ inum ∧
    inum < sb.ninodes ∧ (dinode sb s inum).type = 0 ∧
      s' = update s (iblock sb inum) (clearDinode (s (iblock sb inum)) inum type) := by
  have hloop : ∀ l : List Nat, (∀ i ∈ l, 1 ≤ i ∧ i < sb.ninodes) → Runs m (iallocFrom sb type l) s
      fun inum s' => 1 ≤ inum ∧ inum < sb.ninodes ∧ (dinode sb s inum).type = 0 ∧
        s' = update s (iblock sb inum) (clearDinode (s (iblock sb inum)) inum type) := by
    intro l
    induction l with
    | nil => intro _; exact .inr (.inl rfl)
    | cons i l ih =>
      intro hl'
      obtain ⟨h1, hi⟩ := hl' i (by simp)
      rw [iallocFrom, Runs, ends_bread]
      dsimp only
      split
      · rename_i h0
        exact ⟨h1, hi, h0, rfl⟩
      · exact ih fun k hk => hl' k (by simp [hk])
  refine hloop _ fun i hi => ?_
  rw [List.mem_range'_1] at hi
  omega

end Trunc

end Xv6.Fs
