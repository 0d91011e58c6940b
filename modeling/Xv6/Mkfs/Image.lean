import Xv6.Mkfs.Code
import Mathlib.Data.List.GetD

/-!
# What is on the image while `mkfs` works

`mkfs` hands out blocks by counting, so the blocks in use are those below `freeblock`; the free map
is only written at the end.  `Img` relates an image to the contents `f i` that the files have so
far: each file has its first `k i` blocks, no block belongs to two files, the bytes in the blocks
are those of `f i` followed by zeros, and the blocks that are not in use yet are zero.

`Rest` is this between two calls of `iappend`.  Everything here is about inode numbers below
`NINODES`; beyond them `winode` writes to the free map and to the contents of files.
-/

namespace Xv6.Mkfs

open Fs List Nat
open Function (update update_self update_of_ne update_idem update_eq_self update_eq_self_iff)

variable {b i len off sec : Nat} {s s' s'' : Mk} {ip : Inode} {bs : List UInt8}

theorem bind_eq_ok {ε α β : Type} {a : Except ε α} {f : α → Except ε β} {r : β} :
    (a >>= f) = .ok r ↔ ∃ x, a = .ok x ∧ f x = .ok r := by
  cases a with
  | error e => exact ⟨nofun, fun ⟨_, h, _⟩ => nomatch h⟩
  | ok x => exact ⟨fun h => ⟨x, rfl, h⟩, fun ⟨y, h, h'⟩ => by cases h; exact h'⟩

theorem rsect_eq_ok {b : Block} : rsect s sec = .ok b ↔ sec < s.len ∧ s.disk sec = b := by
  rw [rsect]
  split
  · simp [*]
  · simp [*]

/-! ## Blocks of files -/

theorem isData_iff : IsData sb b ↔ nmeta ≤ b ∧ b < fssize := by
  simp only [IsData, IsMeta, sb, nmeta, fssize, ninodeblocks, nbitmap, ninodes, logSize,
    maxOpBlocks,
    bpb, ipb, bsize, dinodeSize]
  omega

theorem iblock_lt (hi : i < ninodes) : iblock sb i < sb.bmapstart := by
  rw [ninodes] at hi
  change i / 16 + 32 < 45
  omega

/-- The image `d`, in which the blocks below `fb` are in use and `ref` lists the references to
blocks, holds the files `f`, of which the file `i` has its first `k i` blocks. -/
structure Img (d : Disk) (fb : Nat) (ref : Site → Nat) (f : Nat → List UInt8) (k : Nat → Nat) :
    Prop where
  lo : nmeta ≤ fb
  hi : fb ≤ fssize
  own : Slots.Owned 0 (IsData sb) (fun b => decide (b < fb)) ref
  zero : ∀ b, fb ≤ b → b < fssize → d b = Block.zero
  blocks : ∀ i bn, ref (i, slotOf bn) ≠ 0 ↔ bn < k i
  fits : ∀ i, (f i).length ≤ k i * bsize
  bytes : ∀ i bn (j : Fin bsize), bn < k i →
    d (ref (i, slotOf bn)) j = (f i).getD (bn * bsize + j.val) 0

namespace Img

variable {d : Disk} {fb : Nat} {ref : Site → Nat} {f : Nat → List UInt8} {k : Nat → Nat}
  {i bn b : Nat} {x : Site} {v : Block}

variable (h : Img d fb ref f k)

include h

theorem data (hx : ref x ≠ 0) : nmeta ≤ ref x ∧ ref x < fssize ∧ ref x < fb := by
  obtain ⟨h1, h2⟩ := isData_iff.mp (h.own.managed x hx)
  exact ⟨h1, h2, of_decide_eq_true (h.own.marked hx)⟩

theorem owned_fill (hx : ref x = 0) (hb : fb < fssize) :
    Slots.Owned 0 (IsData sb) (fun b => decide (b < fb + 1)) (update ref x fb) := by
  have hf := h.own.fill (b := fb) (isData_iff.mpr ⟨h.lo, hb⟩) (by simp) hx not_isData_zero
  refine hf.congr_used fun b _ => ?_
  by_cases hbf : b = fb
  · simp [hbf]
  · rw [update_of_ne hbf]
    simp only [decide_eq_decide]
    omega

theorem fillBlock (hk : k i = bn) (hb : fb < fssize) :
    Img d (fb + 1) (update ref (i, slotOf bn) fb) f (update k i (bn + 1)) := by
  have h0 : fb ≠ 0 := fun h0 => by
    have := h.lo
    rw [h0] at this
    nomatch this
  have hx : ref (i, slotOf bn) = 0 := by
    by_contra hne
    have := (h.blocks i bn).mp hne
    omega
  have hcases : ∀ j bn', (j, slotOf bn') = (i, slotOf bn) ∨
      (j, slotOf bn') ≠ (i, slotOf bn) ∧ (bn' < update k i (bn + 1) j ↔ bn' < k j) := by
    intro j bn'
    by_cases hj : j = i
    · subst hj
      by_cases hbn : bn' = bn
      · exact .inl (by rw [hbn])
      · refine .inr ⟨fun he => hbn (slotOf_inj (Prod.mk.inj he).2), ?_⟩
        rw [update_self]
        omega
    · exact .inr ⟨fun he => hj (Prod.mk.inj he).1, by rw [update_of_ne hj]⟩
  have hmine : ∀ j bn', (j, slotOf bn') = (i, slotOf bn) → j = i ∧ bn' = bn := fun j bn' he =>
    ⟨(Prod.mk.inj he).1, slotOf_inj (Prod.mk.inj he).2⟩
  refine ⟨h.lo.trans (le_succ _), hb, h.owned_fill hx hb, fun b hbf hb' => h.zero b (by omega) hb',
    fun j bn' => ?_, fun j => ?_, fun j bn' o hbn' => ?_⟩
  · rcases hcases j bn' with he | ⟨hne, hiff⟩
    · obtain ⟨rfl, rfl⟩ := hmine j bn' he
      rw [update_self, update_self]
      exact iff_of_true h0 (lt_succ_self _)
    · rw [update_of_ne hne, hiff]
      exact h.blocks j bn'
  · by_cases hj : j = i
    · subst hj
      rw [update_self]
      refine (h.fits j).trans (mul_le_mul_right _ ?_)
      omega
    · simpa [hj] using h.fits j
  · rcases hcases j bn' with he | ⟨hne, hiff⟩
    · obtain ⟨rfl, rfl⟩ := hmine j bn' he
      have hlen := h.fits j
      rw [update_self, h.zero fb le_rfl hb, getD_eq_default]
      · rfl
      · rw [hk] at hlen
        omega
    · simpa [hne] using h.bytes j bn' o (hiff.mp hbn')

theorem fillIndirect (hx : ref (i, .addr ndirect) = 0) (hb : fb < fssize) :
    Img d (fb + 1) (update ref (i, .addr ndirect) fb) f k := by
  have hne : ∀ j bn', (j, slotOf bn') ≠ (i, Slot.addr ndirect) := fun j bn' he =>
    slotOf_ne bn' (Prod.mk.inj he).2
  refine ⟨h.lo.trans (le_succ _), hb, h.owned_fill hx hb, fun b hbf hb' => h.zero b (by omega) hb',
    fun j bn' => ?_, h.fits, fun j bn' o hbn' => ?_⟩
  · rw [update_of_ne (hne j bn')]
    exact h.blocks j bn'
  · rw [update_of_ne (hne j bn')]
    exact h.bytes j bn' o hbn'

/-- A store to a block in use that holds no bytes of a file. -/
theorem store (hb : b < fb) (hne : ∀ i bn, ref (i, slotOf bn) ≠ 0 → ref (i, slotOf bn) ≠ b) :
    Img (update d b v) fb ref f k := by
  refine ⟨h.lo, h.hi, h.own, fun c hc hc' => ?_, h.blocks, h.fits, fun j bn' o hbn' => ?_⟩
  · rw [update_of_ne (by omega)]
    exact h.zero c hc hc'
  · rw [update_of_ne (hne j bn' ((h.blocks j bn').mpr hbn'))]
    exact h.bytes j bn' o hbn'

/-- Bytes are appended to the file `i`, all of them in its block `bn`. -/
theorem append (hbn : bn < k i) (hoff : (f i).length = bn * bsize + off)
    (hbs : off + bs.length ≤ bsize) :
    Img (update d (ref (i, slotOf bn)) ((d (ref (i, slotOf bn))).splice off bs)) fb ref
      (update f i (f i ++ bs)) k := by
  have hx := (h.blocks i bn).mpr hbn
  have hlt := (h.data hx).2.2
  refine ⟨h.lo, h.hi, h.own, fun c hc hc' => ?_, h.blocks, fun j => ?_, fun j bn' o hbn' => ?_⟩
  · rw [update_of_ne (by omega)]
    exact h.zero c hc hc'
  · by_cases hj : j = i
    · subst hj
      have hle : (bn + 1) * bsize ≤ k j * bsize := mul_le_mul_right _ hbn
      rw [update_self, length_append]
      rw [add_mul] at hle
      omega
    · simpa [hj] using h.fits j
  · have hx' := (h.blocks j bn').mpr hbn'
    by_cases he : (j, slotOf bn') = (i, slotOf bn)
    · obtain ⟨rfl, hs⟩ := Prod.mk.inj he
      obtain rfl := slotOf_inj hs
      have hold := h.bytes j bn' o hbn'
      have ho := o.isLt
      rw [update_self, update_self, Block.splice]
      split
      · rename_i hin
        rw [getD_append_right _ _ _ _ (by omega)]
        congr 1
        omega
      · rename_i hout
        rw [hold]
        rcases lt_or_ge o.val off with hlo | hhi
        · rw [getD_append _ _ _ _ (by omega)]
        · rw [getD_eq_default _ _ (by omega), getD_eq_default]
          rw [length_append]
          omega
    · rw [update_of_ne fun hr => he (h.own.once _ _ hx' hr), h.bytes j bn' o hbn']
      by_cases hj : j = i
      · subst hj
        have hne : bn' ≠ bn := fun hb => he (by rw [hb])
        have ho := o.isLt
        rw [update_self]
        rcases lt_or_gt_of_ne hne with hlo | hhi
        · have hle : (bn' + 1) * bsize ≤ bn * bsize := mul_le_mul_right _ hlo
          rw [add_mul] at hle
          rw [getD_append _ _ _ _ (by omega)]
        · have hle : (bn + 1) * bsize ≤ bn' * bsize := mul_le_mul_right _ hhi
          rw [add_mul] at hle
          rw [getD_eq_default _ _ (by omega), getD_eq_default]
          rw [length_append]
          omega
      · rw [update_of_ne hj]

end Img

/-! ## Appending to a file -/

/-- `iappend` is at work on the file of which `ip` is the inode. -/
structure At (s : Mk) (ip : Inode) (f : Nat → List UInt8) (k : Nat → Nat) : Prop where
  img : Img s.disk s.freeblock (refsWith sb s.disk ip) f k
  len : s.len = fssize
  inum : ip.inum < ninodes
  type : ip.type ≠ 0
  fits : ip.Fits

/-- What a part of `iappend` leaves alone: the blocks before those of files, the counter of inodes,
and the fields of the inode other than the block addresses. -/
structure Keeps (s s' : Mk) (ip ip' : Inode) : Prop where
  same : ip.Same ip'
  freeinode : s'.freeinode = s.freeinode
  low : ∀ b, b < nmeta → s'.disk b = s.disk b

theorem Keeps.refl (s : Mk) (ip : Inode) : Keeps s s ip ip := ⟨.refl ip, rfl, fun _ _ => rfl⟩

theorem Keeps.trans {ip' ip'' : Inode} (h : Keeps s s' ip ip') (h' : Keeps s' s'' ip' ip'') :
    Keeps s s'' ip ip'' :=
  ⟨h.same.trans h'.same, h'.freeinode.trans h.freeinode,
    fun b hb => (h'.low b hb).trans (h.low b hb)⟩

namespace At

variable {s s' : Mk} {ip ip' : Inode} {f : Nat → List UInt8} {k : Nat → Nat} {i bn x : Nat}

theorem ref (h : At s ip f k) (y : Slot) :
    refsWith sb s.disk ip (ip.inum, y) = ip.ref s.disk y := refsWith_self y rfl h.inum h.type

theorem addr_data (h : At s ip f k) (hi : ip.addr i ≠ 0) :
    nmeta ≤ ip.addr i ∧ ip.addr i < fssize ∧ ip.addr i < s.freeblock := by
  have hx : refsWith sb s.disk ip (ip.inum, .addr i) ≠ 0 := by rwa [h.ref]
  have := h.img.data hx
  rwa [h.ref] at this

/-- A block of the contents of files is not one of the inodes. -/
theorem iblock_ne {j : Nat} (hj : j < ninodes) (hb : nmeta ≤ b) : iblock sb j ≠ b := by
  have h1 := iblock_lt hj
  have h2 : sb.bmapstart < nmeta := by decide
  omega

section

variable (h : At s ip f k)

include h

theorem setAddr {k' : Nat → Nat} {a : Nat} (ha : a ≤ ndirect) (hz : ip.addr a = 0)
    (hb : s.freeblock < fssize)
    (hi : Img s.disk (s.freeblock + 1)
      (update (refsWith sb s.disk ip) (ip.inum, .addr a) s.freeblock) f k') :
    At { s with freeblock := s.freeblock + 1 } (ip.setAddr a s.freeblock) f k' := by
  have hsame : ip.Same (ip.setAddr a s.freeblock) := Inode.same_setAddr
  refine ⟨?_, h.len, hsame.inum ▸ h.inum, by rw [hsame.type]; exact h.type, ?_⟩
  · rw [refsWith_setAddr ha h.inum h.type]
    · exact hi
    · rintro rfl
      refine ⟨hz, fun j => ?_⟩
      rw [h.img.zero _ le_rfl hb]
      exact Block.get_zero ..
  · refine h.fits.setAddr (hb.trans ?_)
    decide

theorem fillIndirect (hr : fillAddr s ip ndirect = (ip', s')) (hx : ip'.addr ndirect < s'.len) :
    At s' ip' f k ∧ ip'.addr ndirect ≠ 0 ∧
    Keeps s s' ip ip' := by
  rw [fillAddr] at hr
  split at hr
  · rename_i hz
    cases hr
    rw [Inode.addr_setAddr le_rfl, if_pos rfl] at hx ⊢
    have hb : s.freeblock < fssize := h.len ▸ hx
    have hlo := h.img.lo
    refine ⟨h.setAddr le_rfl hz hb (h.img.fillIndirect ?_ hb), ?_, Inode.same_setAddr, rfl,
      fun _ _ => rfl⟩
    · rw [h.ref]
      exact hz
    · rintro h0
      rw [h0] at hlo
      nomatch hlo
  · rename_i hz
    cases hr
    exact ⟨h, hz, .refl ..⟩

theorem fillDirect (hbn : bn < ndirect) (hk : bn ≤ k ip.inum ∧ k ip.inum ≤ bn + 1)
    (hr : fillAddr s ip bn = (ip', s')) (hx : ip'.addr bn < s'.len) :
    At s' ip' f (update k ip.inum (bn + 1)) ∧ Keeps s s' ip ip' := by
  have hslot : slotOf bn = .addr bn := if_pos hbn
  have hblk := h.img.blocks ip.inum bn
  rw [hslot, h.ref, Inode.ref] at hblk
  rw [fillAddr] at hr
  split at hr
  · rename_i hz
    cases hr
    rw [Inode.addr_setAddr hbn.le, if_pos rfl] at hx
    have hb : s.freeblock < fssize := h.len ▸ hx
    have hkb : k ip.inum = bn := by
      have := mt hblk.mpr (not_not.mpr hz)
      omega
    have hfill := h.img.fillBlock hkb hb
    rw [hslot] at hfill
    exact ⟨h.setAddr hbn.le hz hb hfill, Inode.same_setAddr, rfl, fun _ _ => rfl⟩
  · rename_i hz
    cases hr
    have hkb : update k ip.inum (bn + 1) = k := by
      rw [update_eq_self_iff]
      have := hblk.mp hz
      omega
    rw [hkb]
    exact ⟨h, .refl ..⟩

theorem fillEntry (hind : ip.addr ndirect ≠ 0) (hd : ¬ bn < ndirect) (hbn : bn < maxfile)
    (hk : bn ≤ k ip.inum ∧ k ip.inum ≤ bn + 1) {v : Block}
    (hr : Mkfs.fillEntry s ip (s.disk (ip.addr ndirect)) (bn - ndirect) = (v, s'))
    (hx : entry v (bn - ndirect) < s'.len) :
    At s' ip f (update k ip.inum (bn + 1)) ∧ s'.disk (ip.addr ndirect) = v ∧
      Keeps s s' ip ip := by
  have hslot : slotOf bn = .ent (bn - ndirect) := if_neg hd
  have hj : bn - ndirect < nindirect := by
    rw [maxfile] at hbn
    omega
  have hblk := h.img.blocks ip.inum bn
  rw [hslot, h.ref, Inode.ref, if_pos ⟨hind, hj⟩] at hblk
  obtain ⟨hlo, hlt, hfb⟩ := h.addr_data hind
  have hlen : max s.len (ip.addr ndirect + 1) = fssize := by
    rw [h.len]
    omega
  rw [Mkfs.fillEntry] at hr
  split at hr
  · rename_i hz
    cases hr
    have hkb : k ip.inum = bn := by
      have := mt hblk.mpr (not_not.mpr hz)
      omega
    have h32 : s.freeblock < 2 ^ 32 := h.img.hi.trans_lt (by decide)
    have hb : s.freeblock < fssize := by
      change _ < max s.len (ip.addr ndirect + 1) at hx
      rwa [entry_setEntry hj h32, if_pos rfl, hlen] at hx
    have hother : ∀ j y, refsWith sb s.disk ip (j, y) = ip.addr ndirect →
        (j, y) = (ip.inum, .addr ndirect) := fun j y he => by
      refine h.img.own.once _ _ (by rwa [he]) ?_
      rw [he, h.ref, Inode.ref]
    have hfill := (h.img.store (v := setEntry (s.disk (ip.addr ndirect)) (bn - ndirect) s.freeblock)
      hfb fun j bn' _ he => slotOf_ne bn' (Prod.mk.inj (hother j _ he)).2).fillBlock hkb hb
    refine ⟨⟨?_, hlen, h.inum, h.type, h.fits⟩, update_self .., .refl ip, rfl,
      fun b hb => update_of_ne (hb.trans_le hlo).ne ..⟩
    change Img _ _ (refsWith sb (update s.disk (ip.addr ndirect) _) ip) _ _
    rw [refsWith_setEntry hj h32 h.inum h.type hind (fun j hj => iblock_ne hj hlo), ← hslot]
    · exact hfill
    · intro j hji he
      rw [← refsWith_other _ hji] at he
      exact hji (Prod.mk.inj (hother j _ he)).1
  · rename_i hz
    cases hr
    have hkb : update k ip.inum (bn + 1) = k := by
      rw [update_eq_self_iff]
      have := hblk.mp hz
      omega
    rw [hkb]
    exact ⟨h, rfl, .refl ..⟩

/-- **What `blockFor` does**: the file has the block afterwards, and keeps those it has. -/
theorem blockFor (hbn : bn < maxfile) (hk : bn ≤ k ip.inum ∧ k ip.inum ≤ bn + 1)
    (hr : Mkfs.blockFor s ip bn = .ok (x, ip', s')) (hx : x < s'.len) :
    At s' ip' f (update k ip.inum (bn + 1)) ∧
      x = refsWith sb s'.disk ip' (ip'.inum, slotOf bn) ∧ Keeps s s' ip ip' := by
  rw [Mkfs.blockFor] at hr
  split at hr
  · rename_i hd
    cases hf : fillAddr s ip bn with
    | mk ip1 s1 =>
      rw [hf] at hr
      obtain ⟨rfl, rfl, rfl⟩ : ip1.addr bn = x ∧ ip1 = ip' ∧ s1 = s' := by simpa using hr
      obtain ⟨h1, h2⟩ := h.fillDirect hd hk hf hx
      refine ⟨h1, ?_, h2⟩
      rw [h1.ref, slotOf, if_pos hd, Inode.ref]
  · rename_i hd
    cases hf : fillAddr s ip ndirect with
    | mk ip1 s1 =>
      rw [hf] at hr
      obtain ⟨ind, hrd, hr⟩ := bind_eq_ok.mp hr
      obtain ⟨hlt, rfl⟩ := rsect_eq_ok.mp hrd
      obtain ⟨h1, hind, h2⟩ := h.fillIndirect hf hlt
      cases he : Mkfs.fillEntry s1 ip1 (s1.disk (ip1.addr ndirect)) (bn - ndirect) with
      | mk v s2 =>
        rw [he] at hr
        obtain ⟨rfl, rfl, rfl⟩ : entry v (bn - ndirect) = x ∧ ip1 = ip' ∧ s2 = s' := by
          simpa [pure, Except.pure] using hr
        obtain ⟨h3, h4, h5⟩ := h1.fillEntry hind hd hbn (by rwa [h2.same.inum]) he hx
        have hj : bn - ndirect < nindirect := by
          rw [maxfile] at hbn
          omega
        rw [h2.same.inum] at h3
        refine ⟨h3, ?_, h2.trans h5⟩
        rw [h3.ref, slotOf, if_neg hd, Inode.ref, if_pos ⟨hind, hj⟩, h4]

theorem write (hbn : bn < k ip.inum) (hoff : (f ip.inum).length = bn * bsize + off)
    (hbs : off + bs.length ≤ bsize) (hx : x = refsWith sb s.disk ip (ip.inum, slotOf bn)) :
    At (wsect s x ((s.disk x).splice off bs)) ip (update f ip.inum (f ip.inum ++ bs)) k ∧
      Keeps s (wsect s x ((s.disk x).splice off bs)) ip ip := by
  have hne : refsWith sb s.disk ip (ip.inum, slotOf bn) ≠ 0 := (h.img.blocks _ _).mpr hbn
  have happ := h.img.append hbn hoff hbs
  obtain ⟨hlo, hlt, -⟩ := h.img.data hne
  rw [← hx] at hne happ hlo hlt
  have href : refsWith sb (update s.disk x ((s.disk x).splice off bs)) ip =
      refsWith sb s.disk ip := by
    refine refsWith_congr (fun j hj => update_of_ne (iblock_ne hj hlo) ..) fun j hj => ?_
    refine update_of_ne (fun he => slotOf_ne bn ?_) ..
    exact (Prod.mk.inj (h.img.own.once _ _ hj (he.trans hx))).2.symm
  refine ⟨⟨?_, ?_, h.inum, h.type, h.fits⟩, .refl ip, rfl,
    fun b hb => update_of_ne (hb.trans_le hlo).ne ..⟩
  · change Img _ _ (refsWith sb (update s.disk x _) ip) _ _
    rw [href]
    exact happ
  · change max s.len (x + 1) = fssize
    rw [h.len]
    omega

end

end At

/-- The number of blocks of a file of `len` bytes. -/
def nblocks (len : Nat) : Nat := (len + (bsize - 1)) / bsize

/-- The numbers of blocks of all files. -/
def sizes (f : Nat → List UInt8) (i : Nat) : Nat := nblocks (f i).length

theorem lt_nblocks {bn : Nat} : bn < nblocks len ↔ bn * bsize < len := by
  rw [nblocks, bsize]
  omega

theorem nblocks_bounds (len : Nat) : len / bsize ≤ nblocks len ∧ nblocks len ≤ len / bsize + 1 := by
  rw [nblocks, bsize]
  omega

/-- **One round of `iappend` after the other** appends the bytes. -/
theorem At.loop (rounds : Nat) : ∀ {s s' : Mk} {ip ip' : Inode}
    {f : Nat → List UInt8} {off off' : Nat} {p : List UInt8}, At s ip f (sizes f) →
      (f ip.inum).length = off → p.length ≤ rounds →
      iappendLoop rounds s ip off p = .ok (ip', off', s') →
      At s' ip' (update f ip.inum (f ip.inum ++ p))
        (sizes (update f ip.inum (f ip.inum ++ p))) ∧
      off' = off + p.length ∧ Keeps s s' ip ip' := by
  induction rounds with
  | zero =>
    intro s s' ip ip' f off off' p h hoff hp hr
    obtain rfl : p = [] := length_eq_zero_iff.mp (le_zero.mp hp)
    obtain ⟨rfl, rfl, rfl⟩ : ip = ip' ∧ off = off' ∧ s = s' := by simpa [iappendLoop] using hr
    rw [append_nil, update_eq_self]
    exact ⟨h, rfl, .refl ..⟩
  | succ rounds ih =>
    intro s s' ip ip' f off off' p h hoff hp hr
    rw [iappendLoop] at hr
    split at hr
    · rename_i hnil
      subst hnil
      obtain ⟨rfl, rfl, rfl⟩ : ip = ip' ∧ off = off' ∧ s = s' := by simpa using hr
      rw [append_nil, update_eq_self]
      exact ⟨h, rfl, .refl ..⟩
    rename_i hne
    split at hr
    · rename_i hmax
      obtain ⟨⟨x, ip1, s1⟩, hb, hr⟩ := bind_eq_ok.mp hr
      obtain ⟨buf, hrd, hr⟩ := bind_eq_ok.mp hr
      obtain ⟨hlt, rfl⟩ := rsect_eq_ok.mp hrd
      subst hoff
      obtain ⟨h1, hx, hk1⟩ := h.blockFor hmax (nblocks_bounds _) hb hlt
      have hinum := hk1.same.inum
      rw [← hinum] at h1 hx hr ⊢
      generalize hbn : (f ip1.inum).length / bsize = bn at h1 hx hr
      generalize hn : min p.length ((bn + 1) * bsize - (f ip1.inum).length) = n1 at hr
      have hpos : 0 < p.length := length_pos_iff.mpr hne
      have hdiv := div_add_mod' (f ip1.inum).length bsize
      have hmod : (f ip1.inum).length % bsize < bsize := mod_lt _ (by decide)
      rw [hbn] at hdiv
      rw [succ_mul] at hn
      have htake : (p.take n1).length = n1 := by
        rw [length_take]
        omega
      have hin : (f ip1.inum).length = bn * bsize + ((f ip1.inum).length - bn * bsize) := by omega
      have hfit : (f ip1.inum).length - bn * bsize + (p.take n1).length ≤ bsize := by omega
      obtain ⟨h2, hk2⟩ := h1.write (by rw [update_self]; omega) hin hfit hx
      have hf1 : update f ip1.inum (f ip1.inum ++ p.take n1) ip1.inum =
          f ip1.inum ++ p.take n1 := update_self ..
      have hsizes : update (sizes f) ip1.inum (bn + 1) =
          sizes (update f ip1.inum (f ip1.inum ++ p.take n1)) := by
        funext j
        by_cases hj : j = ip1.inum
        · rw [hj, update_self, sizes, hf1, length_append, htake, nblocks]
          simp only [bsize] at hdiv hmod hn ⊢
          omega
        · rw [update_of_ne hj, sizes, sizes, update_of_ne hj]
      rw [hsizes] at h2
      obtain ⟨h3, h4, h5⟩ := ih h2 (by rw [hf1, length_append, htake])
        (by rw [length_drop]; omega) hr
      rw [hf1, update_idem, append_assoc, take_append_drop] at h3
      refine ⟨h3, ?_, (hk1.trans hk2).trans h5⟩
      rw [h4, length_drop]
      omega
    · cases hr

theorem At.short {f : Nat → List UInt8} (h : At s ip f (sizes f)) :
    (f ip.inum).length ≤ maxfile * bsize := by
  by_contra hlt
  have hne := (h.img.blocks ip.inum maxfile).mpr (lt_nblocks.mpr (not_le.mp hlt))
  rw [h.ref, slotOf, if_neg (by decide), Inode.ref,
    if_neg (fun hj => absurd hj.2 (by decide))] at hne
  exact hne rfl

/-! ## Between two calls -/

/-- The image holds the files `f`, and the inodes on it are up to date. -/
structure Rest (s : Mk) (f : Nat → List UInt8) : Prop where
  img : Img s.disk s.freeblock (refs sb s.disk) f (sizes f)
  len : s.len = fssize
  count : 1 ≤ s.freeinode ∧ s.freeinode ≤ ninodes
  inode : ∀ i, 1 ≤ i → i < s.freeinode →
    (dinode sb s.disk i).type ≠ 0 ∧ (dinode sb s.disk i).size = (f i).length
  free : ∀ i, i < ninodes → i = 0 ∨ s.freeinode ≤ i → (dinode sb s.disk i).type = 0
  dead : ∀ i, i = 0 ∨ s.freeinode ≤ i → f i = []

theorem rinode_eq_ok (h : rinode s i = .ok ip) : dinode sb s.disk i = ip := by
  rw [rinode, bind_eq_ok] at h
  obtain ⟨b, hb, h⟩ := h
  obtain ⟨-, rfl⟩ := rsect_eq_ok.mp hb
  exact Except.ok.inj h

theorem winode_eq_ok (h : winode s ip = .ok s') :
    s' = { s with disk := updated sb s.disk ip, len := max s.len (iblock sb ip.inum + 1) } := by
  rw [winode, bind_eq_ok] at h
  obtain ⟨b, hb, h⟩ := h
  obtain ⟨-, rfl⟩ := rsect_eq_ok.mp hb
  exact (Except.ok.inj h).symm

section Update

variable {d : Disk} {fb : Nat} {f : Nat → List UInt8} {k : Nat → Nat} {ip : Inode}

/-- Writing an inode back makes its references those on disk. -/
theorem refs_updated (h : Img d fb (refsWith sb d ip) f k) (hf : ip.Fits) (hn : ip.inum < ninodes) :
    refs sb (updated sb d ip) = refsWith sb d ip := by
  rw [refs, dinode_updated hf, refsWith]
  refine refAt_congr (fun _ _ => rfl) fun j hj => update_of_ne (fun he => ?_) ..
  exact At.iblock_ne hn (h.data hj).1 he.symm

theorem Img.updated (h : Img d fb (refsWith sb d ip) f k) (hf : ip.Fits) (hn : ip.inum < ninodes) :
    Img (updated sb d ip) fb (refs sb (Fs.updated sb d ip)) f k := by
  rw [refs_updated h hf hn]
  have hlt := iblock_lt hn
  have hmap : sb.bmapstart < nmeta := by decide
  have hlo := h.lo
  exact h.store (by omega) fun i bn hx => (At.iblock_ne hn (h.data hx).1).symm

theorem max_iblock (hl : len = fssize) (hi : i < ninodes) : max len (iblock sb i + 1) = fssize := by
  have h1 := iblock_lt hi
  have h2 : sb.bmapstart < fssize := by decide
  omega

end Update

/-- What `mkfs` does not change once it has written it: the super block, and the type and the number
of links of an inode. -/
structure Steady (s s' : Mk) : Prop where
  super : s'.disk 1 = s.disk 1
  inode : ∀ j, 1 ≤ j → j < s.freeinode → (dinode sb s'.disk j).type = (dinode sb s.disk j).type ∧
    (dinode sb s'.disk j).nlink = (dinode sb s.disk j).nlink

theorem Steady.refl (s : Mk) : Steady s s := ⟨rfl, fun _ _ _ => ⟨rfl, rfl⟩⟩

theorem Steady.trans (h : Steady s s') (h' : Steady s' s'') (hle : s.freeinode ≤ s'.freeinode) :
    Steady s s'' := by
  refine ⟨h'.super.trans h.super, fun j h1 hj => ?_⟩
  obtain ⟨h2, h3⟩ := h.inode j h1 hj
  obtain ⟨h4, h5⟩ := h'.inode j h1 (hj.trans_le hle)
  exact ⟨h4.trans h2, h5.trans h3⟩

theorem wsect_super {buf : Block} (h : sec ≠ 1) : (wsect s sec buf).disk 1 = s.disk 1 := by
  rw [wsect]
  dsimp only
  rw [update_of_ne h.symm]

theorem updated_super (d : Disk) (ip : Inode) : updated sb d ip 1 = d 1 := by
  refine update_of_ne ?_ ..
  change 1 ≠ ip.inum / 16 + 32
  omega

namespace Rest

variable {s s' : Mk} {f : Nat → List UInt8} {i : Nat}

/-- **`iappend` appends.** -/
theorem iappend (h : Rest s f) (h1 : 1 ≤ i) (hi : i < s.freeinode) {p : List UInt8}
    (hr : Mkfs.iappend s i p = .ok s') :
    Rest s' (update f i (f i ++ p)) ∧ s'.freeinode = s.freeinode ∧ Steady s s' := by
  rw [Mkfs.iappend] at hr
  obtain ⟨din, hrd, hr⟩ := bind_eq_ok.mp hr
  obtain rfl := rinode_eq_ok hrd
  obtain ⟨⟨ip, off, s1⟩, hloop, hr⟩ := bind_eq_ok.mp hr
  dsimp only at hr
  obtain rfl := winode_eq_ok hr
  have hn : i < ninodes := hi.trans_le h.count.2
  obtain ⟨ht, hsize⟩ := h.inode i h1 hi
  have hat : At s (dinode sb s.disk i) f (sizes f) :=
    ⟨by rw [refsWith_dinode rfl]; exact h.img, h.len, hn, ht, dinode_fits ..⟩
  obtain ⟨h2, rfl, h3⟩ := hat.loop _ hsize.symm le_rfl hloop
  change At s1 ip (update f i (f i ++ p)) (sizes (update f i (f i ++ p))) at h2
  have hinum : ip.inum = i := h3.same.inum
  have hlen : (update f i (f i ++ p) i).length = (f i).length + p.length := by
    rw [update_self, length_append]
  have hshort := h2.short
  rw [hinum, hlen, ← hsize] at hshort
  set ip' : Inode := { ip with size := (dinode sb s.disk i).size + p.length } with hip'
  have hfits : ip'.Fits :=
    ⟨h2.fits.type, h2.fits.major, h2.fits.minor, h2.fits.nlink, hshort.trans_lt (by decide),
      h2.fits.addrs⟩
  have hfields : refsWith sb s1.disk ip' = refsWith sb s1.disk ip := refsWith_fields rfl rfl rfl
  have himg : Img s1.disk s1.freeblock (refsWith sb s1.disk ip') _ _ := hfields ▸ h2.img
  have hdin : ∀ j, j < ninodes → dinode sb (updated sb s1.disk ip') j =
      if j = i then ip' else dinode sb s.disk j := by
    intro j hj
    rw [dinode_updated hfits]
    by_cases hji : j = i
    · rw [if_pos hji, hji, ← hinum]
      exact update_self ..
    · rw [if_neg hji, update_of_ne (by rw [show ip'.inum = i from hinum]; exact hji),
        dinode_congr (fun j hj => h3.low _ ((iblock_lt hj).trans (by decide))) hj]
  refine ⟨⟨himg.updated hfits (hinum ▸ hn), max_iblock h2.len (hinum ▸ hn), ?_, fun j hj hj' => ?_,
    fun j hj hj' => ?_, fun j hj => ?_⟩, h3.freeinode, ?_, fun j _ hj => ?_⟩
  · change 1 ≤ s1.freeinode ∧ s1.freeinode ≤ ninodes
    rw [h3.freeinode]
    exact h.count
  · change j < s1.freeinode at hj'
    rw [h3.freeinode] at hj'
    rw [hdin j (hj'.trans_le h.count.2)]
    by_cases hji : j = i
    · rw [if_pos hji, hji, hlen, ← hsize]
      exact ⟨h2.type, rfl⟩
    · rw [if_neg hji, update_of_ne hji]
      exact h.inode j hj hj'
  · change j = 0 ∨ s1.freeinode ≤ j at hj'
    rw [h3.freeinode] at hj'
    rw [hdin j hj, if_neg (by omega)]
    exact h.free j hj hj'
  · change j = 0 ∨ s1.freeinode ≤ j at hj
    rw [h3.freeinode] at hj
    rw [update_of_ne (by omega)]
    exact h.dead j hj
  · exact (updated_super s1.disk ip').trans (h3.low 1 (by decide))
  · dsimp only
    rw [hdin j (hj.trans_le h.count.2)]
    by_cases hji : j = i
    · rw [if_pos hji, hji]
      exact ⟨h3.same.type, h3.same.nlink⟩
    · rw [if_neg hji]
      exact ⟨rfl, rfl⟩

/-- **`ialloc` makes an empty file.** -/
theorem ialloc (h : Rest s f) (hi : s.freeinode < ninodes) {t inum : Nat} (ht : t ≠ 0)
    (ht' : t < 2 ^ 16) (hr : Mkfs.ialloc s t = .ok (inum, s')) :
    inum = s.freeinode ∧ Rest s' f ∧ s'.freeinode = s.freeinode + 1 ∧ Steady s s' ∧
      dinode sb s'.disk inum = newInode inum t := by
  rw [Mkfs.ialloc] at hr
  obtain ⟨s1, hw, hr⟩ := bind_eq_ok.mp hr
  obtain rfl := winode_eq_ok hw
  cases hr
  set ip := newInode s.freeinode t with hip
  have h16 : 1 < 2 ^ 16 := by decide
  have hfits : ip.Fits := ⟨ht', Nat.two_pow_pos 16, Nat.two_pow_pos 16, h16, Nat.two_pow_pos 32,
    fun _ => Nat.two_pow_pos 32⟩
  have hold : ∀ x, refs sb s.disk (ip.inum, x) = 0 := fun x =>
    if_neg fun hc => hc.2 (h.free _ hi (.inr le_rfl))
  have hzero : ∀ i, ip.addr i = 0 := fun i => by
    rw [Inode.addr]
    split <;> rfl
  have himg : Img s.disk s.freeblock (refsWith sb s.disk ip) f (sizes f) := by
    rw [refsWith_eq_refs hold hzero]
    exact h.img
  have hcount := h.count
  have hdin : ∀ j, j ≠ s.freeinode → dinode sb (updated sb s.disk ip) j = dinode sb s.disk j :=
    fun j hj => by rw [dinode_updated hfits]; exact update_of_ne hj ..
  have hmine : dinode sb (updated sb s.disk ip) s.freeinode = ip := by
    rw [dinode_updated hfits]
    exact update_self ..
  refine ⟨rfl, ⟨himg.updated hfits hi, max_iblock h.len hi, ⟨le_add_left 1 _, hi⟩,
    fun j hj hj' => ?_, fun j hj hj' => ?_,
    fun j hj => h.dead j (hj.imp_right fun hj => by dsimp only at hj; omega)⟩, rfl,
    ⟨updated_super s.disk ip, fun j _ hj => ?_⟩, hmine⟩
  · by_cases hji : j = s.freeinode
    · change (dinode sb (updated sb s.disk ip) j).type ≠ 0 ∧ (dinode sb _ j).size = _
      rw [hji, hmine, h.dead s.freeinode (by omega)]
      exact ⟨ht, rfl⟩
    · change (dinode sb (updated sb s.disk ip) j).type ≠ 0 ∧ (dinode sb _ j).size = _
      rw [hdin j hji]
      exact h.inode j hj (by dsimp only at hj'; omega)
  · change (dinode sb (updated sb s.disk ip) j).type = 0
    dsimp only at hj'
    rw [hdin j (by omega)]
    exact h.free j hj (by omega)
  · change (dinode sb (updated sb s.disk ip) j).type = _ ∧ (dinode sb _ j).nlink = _
    rw [hdin j hj.ne]
    exact ⟨rfl, rfl⟩

end Rest

theorem blank_disk (hb : b ≠ 1) : blank.disk b = Block.zero := by
  rw [blank]
  dsimp only
  rw [update_of_ne hb]

theorem blank_super : blank.disk 1 = superBlock := by
  rw [blank]
  dsimp only
  rw [update_self]

theorem rest_blank : Rest blank fun _ => [] := by
  have htype : ∀ i, i < ninodes → (dinode sb blank.disk i).type = 0 := fun i hi => by
    have hne : iblock sb i ≠ 1 := by
      change i / 16 + 32 ≠ 1
      omega
    rw [dinode, blank_disk hne]
    exact Block.get_zero ..
  have href : refs sb blank.disk = fun _ => 0 := by
    funext x
    exact if_neg fun hc => hc.2 (htype _ hc.1)
  have hsizes : ∀ i bn, ¬ bn < sizes (fun _ => []) i := fun i bn h => by
    rw [sizes, lt_nblocks] at h
    exact not_lt_zero _ h
  refine ⟨?_, rfl, by decide, fun i h1 h2 => ?_, fun i hi _ => htype i hi, fun _ _ => rfl⟩
  · rw [href]
    refine ⟨le_rfl, by decide, ⟨fun _ h => absurd rfl h, fun _ _ h => absurd rfl h, fun b hb => ?_⟩,
      fun b hb _ => blank_disk ?_, fun i bn => iff_of_false (fun h => h rfl) (hsizes i bn),
      fun i => zero_le _, fun i bn j hbn => absurd hbn (hsizes i bn)⟩
    · have hlo := (isData_iff.mp hb).1
      refine iff_of_false (fun h => absurd (of_decide_eq_true h) (not_lt.mpr hlo)) ?_
      rintro ⟨x, hx⟩
      rw [← hx] at hlo
      cases hlo
    · rintro rfl
      exact absurd hb (by decide)
  · change i < 1 at h2
    omega

end Xv6.Mkfs
