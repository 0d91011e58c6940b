import Xv6.Fs.Inodes

/-!
# When `writei` does not run out of blocks

What the modules on ownership say about a function they say of the runs that return: `balloc` may
panic.  This module is about the runs that do.  `freeBlocks` is what is left on the disk, and
`missing` are the slots of a file that a write has to fill.  `bmap` takes one block off the first
for each slot it takes off the second, so a write for which there is enough room returns.
-/

namespace Xv6.Fs

open Bio Code Finset Nat
open Function (update)

variable {b bn : Nat} {d : Block} {src : Src}

/-! ## Code that returns -/

/-- The code returns when it is run from `s`. -/
def Returns {α : Type} (m : UserMem) (c : K Nat α) (s : Disk) : Prop :=
  ∃ r, exec (answer m) c s = .ok r

/-! ## Free blocks -/

/-- The blocks that are not marked in the free map. -/
def freeBlocks (sb : Superblock) (s : Disk) : Finset Nat :=
  (range sb.size).filter fun b => used sb s b = false

section Free

variable {sb : Superblock} {m : UserMem} {s : Disk} {b : Nat}

theorem mem_freeBlocks : b ∈ freeBlocks sb s ↔ b < sb.size ∧ used sb s b = false := by
  rw [freeBlocks, mem_filter, mem_range]

theorem freeBlocks_congr {s' : Disk} (h : ∀ c, c < sb.size → used sb s' c = used sb s c) :
    freeBlocks sb s' = freeBlocks sb s := by
  ext c
  rw [mem_freeBlocks, mem_freeBlocks]
  exact and_congr_right fun hc => by rw [h c hc]

theorem freeBlocks_store (hb : IsData sb b) (v : Block) :
    freeBlocks sb (update s b v) = freeBlocks sb s :=
  freeBlocks_congr fun _ hc => used_update (hb.ne_bblock hc)

theorem card_freeBlocks_allocated (hd : IsData sb b) (hf : used sb s b = false) :
    (freeBlocks sb (allocated sb s b)).card + 1 = (freeBlocks sb s).card := by
  have heq : freeBlocks sb (allocated sb s b) = (freeBlocks sb s).erase b := by
    ext c
    rw [mem_erase, mem_freeBlocks, mem_freeBlocks]
    by_cases hc : c < sb.size
    · rw [used_allocated hd hc]
      by_cases hcb : c = b
      · subst hcb
        rw [Function.update_self]
        simp
      · rw [Function.update_of_ne hcb]
        simp [hc, hcb]
    · simp [hc]
  rw [heq]
  exact card_erase_add_one (mem_freeBlocks.mpr ⟨hd.1, hf⟩)

end Free

/-! ## What code takes off the free blocks -/

/-- The code takes at most `n` blocks, and returns if there are so many. -/
def Costs {α : Type} (sb : Superblock) (m : UserMem) (c : K Nat α) (s : Disk) (n : Nat) : Prop :=
  Ends m (fun _ => (freeBlocks sb s).card < n) c s fun _ s' =>
    (freeBlocks sb s).card ≤ (freeBlocks sb s').card + n

section Costs

variable {α β : Type} {sb : Superblock} {m : UserMem} {s : Disk} {n k : Nat}

theorem costs_pure (a : α) : Costs sb m (pure a) s n := Nat.le_add_right ..

theorem Costs.returns {c : K Nat α} (hc : Costs sb m c s n) (hn : n ≤ (freeBlocks sb s).card) :
    Returns m c s := by
  rw [Costs, Ends, wp_specOf_iff] at hc
  cases hx : exec (answer m) c s with
  | ok r => exact ⟨r, hx⟩
  | error e =>
    rw [hx] at hc
    exact absurd hn (not_le.mpr hc)

theorem Costs.mono {c : K Nat α} (hc : Costs sb m c s n) (h : n ≤ k) : Costs sb m c s k :=
  Ends.imp hc (fun _ hlt => hlt.trans_le h) fun _ _ hle => hle.trans (Nat.add_le_add_left h _)

theorem Costs.bind {c : K Nat β} {f : β → K Nat α} {R : β → Disk → Prop} (hc : Costs sb m c s n)
    (hr : Runs m c s R) (hf : ∀ a s', R a s' → Costs sb m (f a) s' k) :
    Costs sb m (c >>= f) s (n + k) := by
  refine Ends.bind (Ends.imp (Ends.and hc hr) (fun _ h => ?_) fun _ _ => id) ?_
  · exact h.trans_le (Nat.le_add_right ..)
  · rintro a s' ⟨h1, h2⟩
    refine Ends.imp (hf a s' h2) (fun _ h => ?_) fun _ s'' h => ?_
    · omega
    · omega

theorem costs_balloc (h : ∀ b, b < sb.size → used sb s b = false → IsData sb b) :
    Costs sb m (balloc sb) s 1 := by
  refine Ends.imp ends_balloc (fun _ he => ?_) ?_
  · rw [Nat.lt_one_iff, Finset.card_eq_zero, eq_empty_iff_forall_notMem]
    intro b hb
    obtain ⟨hb, hf⟩ := mem_freeBlocks.mp hb
    simp [he.2 b hb] at hf
  · rintro b s' ⟨hb, hf, rfl⟩
    exact (card_freeBlocks_allocated (h b hb hf) hf).ge

theorem costs_of_store {c : K Nat α} (hb : IsData sb b) (v : Block)
    (h : Costs sb m c (update s b v) n) :
    Ends m (fun _ => (freeBlocks sb s).card < n) c (update s b v) fun _ s' =>
      (freeBlocks sb s).card ≤ (freeBlocks sb s').card + n := by
  rwa [← freeBlocks_store hb v]

end Costs

/-! ## The slots a write fills -/

/-- The slots that `bmap` looks at for the `bn`-th block of a file. -/
def slotsOf (bn : Nat) : Finset Slot :=
  if bn < ndirect then {.addr bn} else {.addr ndirect, .ent (bn - ndirect)}

/-- The blocks of a file that `n` bytes from `off` on are in. -/
def blocksOf (off n : Nat) : Finset Nat := (range n).image fun j => (off + j) / bsize

/-- The slots to be filled before these bytes can be written. -/
def missing (s : Disk) (ip : Inode) (off n : Nat) : Finset Slot :=
  ((blocksOf off n).biUnion slotsOf).filter fun x => ip.ref s x = 0

section Bmap

variable {sb : Superblock} {m : UserMem} {s : Disk} {ip : Inode} {bn : Nat}

theorem costs_bmapDirect (h : Busy sb s ip) :
    Costs sb m (bmapDirect sb ip bn) s (if ip.addr bn = 0 then 1 else 0) := by
  rw [bmapDirect]
  split
  · exact (costs_balloc fun b => h.own.data_of_free).bind (k := 0) runs_balloc fun _ _ _ =>
      costs_pure _
  · exact costs_pure _

theorem card_slotsOf_direct (hbn : bn < ndirect) :
    ((slotsOf bn).filter fun x => ip.ref s x = 0).card = if ip.addr bn = 0 then 1 else 0 := by
  rw [slotsOf, if_pos hbn, filter_singleton]
  change (if ip.addr bn = 0 then ({.addr bn} : Finset Slot) else ∅).card = _
  split <;> rfl

theorem card_slotsOf_indirect (hbn : ¬ bn < ndirect) :
    ((slotsOf bn).filter fun x => ip.ref s x = 0).card =
      (if ip.addr ndirect = 0 then 1 else 0) +
        if ip.ref s (.ent (bn - ndirect)) = 0 then 1 else 0 := by
  rw [slotsOf, if_neg hbn, filter_insert, filter_singleton]
  change (if ip.addr ndirect = 0 then insert (.addr ndirect : Slot) _ else _ : Finset Slot).card = _
  by_cases h1 : ip.addr ndirect = 0 <;> by_cases h2 : ip.ref s (.ent (bn - ndirect)) = 0 <;>
    simp [h1, h2]

/-- **What `bmap` takes**: one block for each slot it has to fill. -/
theorem costs_bmap (hl : Layout sb) (h : Busy sb s ip) (hbn : bn < maxfile) :
    Costs sb m (bmap sb ip bn) s ((slotsOf bn).filter fun x => ip.ref s x = 0).card := by
  rw [bmap]
  split
  · rename_i hd
    rw [card_slotsOf_direct hd]
    exact costs_bmapDirect h
  · rename_i hd
    have hj : bn - ndirect < nindirect := by
      rw [maxfile] at hbn
      omega
    rw [if_pos hj, card_slotsOf_indirect hd]
    refine (costs_bmapDirect h).bind (R := fun r s' => Busy sb s' r.2 ∧ r.1 = r.2.addr ndirect ∧
      r.1 ≠ 0 ∧ (entry (s' r.1) (bn - ndirect) = 0 ↔ ip.ref s (.ent (bn - ndirect)) = 0)) ?_ ?_
    · -- a new indirect block is empty
      rw [bmapDirect]
      split
      · rename_i h0
        refine runs_balloc.bind ?_
        rintro b _ ⟨hb, hf, rfl⟩
        have he := Extends.setAddr hl h hb hf le_rfl h0
        refine ⟨he.busy, ?_, (h.own.data_of_free hb hf).ne_zero, iff_of_true ?_ ?_⟩
        · rw [Inode.addr_setAddr le_rfl, if_pos rfl]
        · rw [allocated_self, entry, Block.get_zero]
        · exact if_neg fun hne => hne.1 h0
      · rename_i h0
        refine ⟨h, rfl, h0, ?_⟩
        rw [Inode.ref, if_pos ⟨h0, hj⟩]
    · rintro ⟨ind, ip1⟩ s1 ⟨hbusy, hind, h0, hent⟩
      dsimp only at hbusy hind h0 hent ⊢
      have hdata : IsData sb ind := hind ▸ hbusy.addr_data (hind ▸ h0)
      rw [Costs, ends_bread]
      simp only [← hent]
      split
      · refine (costs_balloc fun b => hbusy.own.data_of_free).bind (k := 0) runs_balloc
          fun _ _ _ => ?_
        rw [Costs, ends_store, ends_logWrite, ends_brelse]
        exact costs_of_store hdata _ (costs_pure _)
      · rw [ends_brelse]
        exact ends_pure (Nat.le_add_right ..)

end Bmap

/-! ## `writei` -/

section Writei

variable {sb : Superblock} {m : UserMem} {s s' : Disk} {ip ip' : Inode} {src : Src} {off n k : Nat}
  {x : Slot}

theorem mem_blocksOf : bn ∈ blocksOf off n ↔ ∃ j < n, (off + j) / bsize = bn := by
  simp [blocksOf]

/-- The block of the first byte, and the blocks after the piece that is written to it. -/
theorem div_mem_blocksOf (hn : 0 < n) : off / bsize ∈ blocksOf off n :=
  mem_blocksOf.mpr ⟨0, hn, rfl⟩

theorem blocksOf_subset (hk : k ≤ n) : blocksOf (off + k) (n - k) ⊆ blocksOf off n := by
  intro bn hbn
  obtain ⟨j, hj, rfl⟩ := mem_blocksOf.mp hbn
  exact mem_blocksOf.mpr ⟨k + j, by omega, by rw [add_assoc]⟩

/-- References that are there stay, and those of the block that `bmap` was called for are there. -/
theorem missing_subset (off : Nat) (hk : k ≤ n) (hkeep : ∀ x, ip'.ref s' x = 0 → ip.ref s x = 0)
    (hfill : ∀ x ∈ slotsOf bn, ip'.ref s' x ≠ 0) :
    missing s' ip' (off + k) (n - k) ⊆
      missing s ip off n \ (slotsOf bn).filter fun x => ip.ref s x = 0 := by
  intro x hx
  rw [missing, mem_filter, mem_biUnion] at hx
  obtain ⟨⟨c, hc, hxc⟩, h0⟩ := hx
  rw [mem_sdiff, missing, mem_filter, mem_biUnion, mem_filter]
  exact ⟨⟨⟨c, blocksOf_subset hk hc, hxc⟩, hkeep x h0⟩, fun h => hfill x h.1 h0⟩

theorem filter_slotsOf_subset (hbn : bn ∈ blocksOf off n) :
    ((slotsOf bn).filter fun x => ip.ref s x = 0) ⊆ missing s ip off n := by
  intro x hx
  rw [mem_filter] at hx
  rw [missing, mem_filter, mem_biUnion]
  exact ⟨⟨bn, hbn, hx.1⟩, hx.2⟩

theorem ref_ne_zero_of_slotsOf (h : ip.ref s (slotOf bn) ≠ 0) (hx : x ∈ slotsOf bn) :
    ip.ref s x ≠ 0 := by
  rw [slotsOf] at hx
  rw [slotOf] at h
  split at hx
  · rename_i hd
    rw [if_pos hd] at h
    rwa [mem_singleton.mp hx]
  · rename_i hd
    rw [if_neg hd] at h
    rcases mem_insert.mp hx with rfl | hx
    · intro h0
      exact h (if_neg fun hne => hne.1 h0)
    · rwa [mem_singleton.mp hx]

theorem Extends.ref_eq (h : Busy sb s ip) (he : Extends sb s ip s' ip') (hx : ip.ref s x ≠ 0) :
    ip'.ref s' x = ip.ref s x := by
  have hk := he.keeps (ip.inum, x)
  rw [h.ref, ← he.same.inum, he.busy.ref] at hk
  exact hk hx

theorem Extends.ref_eq_zero (hb : Busy sb s ip) (he : Extends sb s ip s' ip') (h : ip'.ref s' x = 0)
    : ip.ref s x = 0 := by
  by_contra h0
  exact h0 (by rw [← he.ref_eq hb h0, h])

theorem card_missing_round (h : Busy sb s ip) (he : Extends sb s ip s' ip')
    (h0 : refsWith sb s' ip' (ip'.inum, slotOf (off / bsize)) ≠ 0) (v : Block) (hn : 0 < n)
    (hk : k ≤ n) :
    (missing (update s' (refsWith sb s' ip' (ip'.inum, slotOf (off / bsize))) v) ip' (off + k)
      (n - k)).card + ((slotsOf (off / bsize)).filter fun x => ip.ref s x = 0).card ≤
        (missing s ip off n).card := by
  have hst := Extends.store he.busy h0 (slotOf_ne _) v
  have hfill := h0
  rw [← he.busy.refs_store h0 (slotOf_ne _) v, hst.busy.ref] at hfill
  have hsub : ((slotsOf (off / bsize)).filter fun x => ip.ref s x = 0) ⊆ missing s ip off n :=
    filter_slotsOf_subset (div_mem_blocksOf hn)
  have hmiss := card_le_card (missing_subset off hk
    (fun x hx => he.ref_eq_zero h (hst.ref_eq_zero he.busy hx))
    fun x hx => ref_ne_zero_of_slotsOf hfill hx)
  rw [card_sdiff_of_subset hsub] at hmiss
  have := card_le_card hsub
  omega

/-- The loop of `writei` takes no more than what is missing, and returns if there is so much. -/
theorem costs_writeiLoop (hl : Layout sb) (rounds : Nat) :
    ∀ {s : Disk} {ip : Inode} {tot off : Nat}, Busy sb s ip → tot ≤ n →
      off + (n - tot) ≤ maxfile * bsize →
      Costs sb m (writeiLoop sb src n rounds ip tot off) s (missing s ip off (n - tot)).card := by
  induction rounds with
  | zero => exact fun _ _ _ => costs_pure _
  | succ rounds ih =>
    intro s ip tot off h htot hlen
    rw [writeiLoop]
    split
    · rename_i hlt
      have hbn : off / bsize < maxfile := Nat.div_lt_of_lt_mul (by rw [Nat.mul_comm]; omega)
      generalize hk : min (n - tot) (bsize - off % bsize) = k
      have hkn : k ≤ n - tot := by omega
      have hsub : ((slotsOf (off / bsize)).filter fun x => ip.ref s x = 0).card ≤
          (missing s ip off (n - tot)).card :=
        card_le_card (filter_slotsOf_subset (div_mem_blocksOf (by omega)))
      rw [← Nat.add_sub_cancel' hsub]
      refine (costs_bmap hl h hbn).bind (runs_bmap hl h hbn) ?_
      rintro ⟨addr, ip1⟩ s1 ⟨he, ha, h0, -⟩
      dsimp only at he ha h0 ⊢
      rw [ha, ← he.same.inum] at h0 ⊢
      rw [Costs, ends_bread]
      refine ends_eitherCopyin fun v ok => costs_of_store (he.busy.own.owned.managed _ h0) v ?_
      have hst := Extends.store he.busy h0 (slotOf_ne _) v
      have hround := card_missing_round h he h0 v (by omega : 0 < n - tot) hkn
      split
      · rw [Costs, ends_logWrite, ends_brelse]
        refine (ih hst.busy (by omega) (by omega)).mono ?_
        rw [Nat.sub_sub] at hround
        omega
      · rw [Costs, ends_brelse]
        exact ends_pure (Nat.le_add_right ..)
    · exact costs_pure _

theorem freeBlocks_updated (hl : Layout sb) (hi : ip.inum < sb.ninodes) :
    freeBlocks sb (updated sb s ip) = freeBlocks sb s :=
  freeBlocks_congr fun _ hc => used_update fun he => hl.iblock_ne_bblock hi hc he.symm

/-- **What `writei` takes**: no more than what is missing. -/
theorem costs_writei (hl : Layout sb) (h : Busy sb s ip) :
    Costs sb m (writei sb ip src off n) s (missing s ip off n).card := by
  rw [writei]
  split
  · exact costs_pure _
  split
  · exact costs_pure _
  rename_i hmax
  have hloop : Costs sb m (writeiLoop sb src n n ip 0 off) s (missing s ip off n).card :=
    costs_writeiLoop hl n h (zero_le n) (not_lt.mp hmax)
  rw [← add_zero (missing s ip off n).card]
  refine hloop.bind (runs_writeiLoop hl n h (zero_le n) (not_lt.mp hmax)) ?_
  rintro ⟨off', ip1⟩ s1 ⟨he, -⟩
  dsimp only at he ⊢
  split
  · have hinum : (ip1.grow off').inum < sb.ninodes := by
      rw [Inode.grow_inum, he.same.inum]
      exact h.inum
    have hfree := freeBlocks_updated (s := s1) hl hinum
    refine Ends.bind (R := fun _ s' => s' = updated sb s1 (ip1.grow off')) rfl ?_
    rintro _ _ rfl
    change (freeBlocks sb s1).card ≤ (freeBlocks sb (updated sb s1 (ip1.grow off'))).card + 0
    rw [hfree, add_zero]
  · exact costs_pure _

/-- **`writei` returns** if there is room. -/
theorem returns_writei (hl : Layout sb) (h : Busy sb s ip)
    (hroom : (missing s ip off n).card ≤ (freeBlocks sb s).card) :
    Returns m (writei sb ip src off n) s :=
  (costs_writei hl h).returns hroom

end Writei

end Xv6.Fs
