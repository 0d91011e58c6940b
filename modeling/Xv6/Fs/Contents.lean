import Xv6.Fs.Ownership
import Mathlib.Data.List.GetD

/-!
# What `writei` does to the bytes of a file

The modules on ownership say where the blocks of a file are; this one says what is in them.
`Inode.byteAt` is a byte of a file, 0 where there is a hole, and `written` is a file in which some
bytes have been replaced.  `bmap` does not change any byte: a block it allocates is zero, and so was
the hole.  `runs_writei` puts the rounds of `writei` together: if the source can be read, all bytes
arrive, at their places.
-/

namespace Xv6.Fs

open Bio Code List Nat
open Function (update)

/-! ## Bytes -/

/-- The contents of the `bn`-th block of a file. -/
def Inode.block (ip : Inode) (s : Disk) (bn : Nat) : Block :=
  if ip.ref s (slotOf bn) = 0 then Block.zero else s (ip.ref s (slotOf bn))

/-- A byte of a file. -/
def Inode.byteAt (ip : Inode) (s : Disk) (o : Nat) : UInt8 :=
  ip.block s (o / bsize) ⟨o % bsize, mod_bsize_lt o⟩

/-- The bytes of a file. -/
def Inode.bytes (ip : Inode) (s : Disk) : List UInt8 := (List.range ip.size).map (ip.byteAt s)

/-- The bytes `f`, with `bs` from `off` on. -/
def written (f : Nat → UInt8) (off : Nat) (bs : List UInt8) (o : Nat) : UInt8 :=
  if off ≤ o ∧ o < off + bs.length then bs.getD (o - off) 0 else f o

/-- A file with `data` in the place of what it had from `off` on. -/
def overwrite (old : List UInt8) (off : Nat) (data : List UInt8) : List UInt8 :=
  old.take off ++ data ++ old.drop (off + data.length)

theorem written_nil (f : Nat → UInt8) (off : Nat) : written f off [] = f := by
  funext o
  exact if_neg (by rw [length_nil]; omega)

theorem written_append (f : Nat → UInt8) (off : Nat) (a b : List UInt8) :
    written (written f off a) (off + a.length) b = written f off (a ++ b) := by
  funext o
  simp only [written, length_append]
  split
  · rw [if_pos (by omega), getD_append_right _ _ _ _ (by omega), Nat.sub_sub]
  · split
    · rw [if_pos (by omega), getD_append _ _ _ _ (by omega)]
    · rw [if_neg (by omega)]

theorem map_written (f : Nat → UInt8) {off n : Nat} (bs : List UInt8) (h : off ≤ n) :
    (List.range (max (off + bs.length) n)).map (written f off bs) =
      overwrite ((List.range n).map f) off bs := by
  refine ext_getElem (by simp [overwrite]; omega) fun j h1 h2 => ?_
  rw [length_map, length_range] at h1
  simp only [getElem_map, getElem_range, written, overwrite]
  have hlen : (((List.range n).map f).take off).length = off := by simp; omega
  by_cases hlo : j < off
  · rw [if_neg (by omega), getElem_append_left (by rw [length_append]; omega),
      getElem_append_left (by omega), getElem_take, getElem_map, getElem_range]
  · by_cases hin : j < off + bs.length
    · rw [if_pos ⟨by omega, hin⟩, getElem_append_left (by rw [length_append]; omega),
        getElem_append_right (by omega), getD_eq_getElem _ _ (by omega)]
      simp only [hlen]
    · rw [if_neg (by omega), getElem_append_right (by rw [length_append]; omega),
        getElem_drop, getElem_map, getElem_range, length_append, hlen]
      congr 1
      omega

section Bytes

variable {sb : Superblock} {s s' : Disk} {ip ip' : Inode} {bn off : Nat}

@[simp] theorem Inode.length_bytes (ip : Inode) (s : Disk) : (ip.bytes s).length = ip.size := by
  rw [bytes, length_map, length_range]

theorem Inode.getElem_bytes {o : Nat} (h : o < (ip.bytes s).length) :
    (ip.bytes s)[o] = ip.byteAt s o := by
  simp only [bytes, getElem_map, getElem_range]

/-- What `writei` does to single bytes, for the file as a whole. -/
theorem Inode.bytes_of_written {data : List UInt8} (hoff : off ≤ ip.size)
    (hsize : ip'.size = max (off + data.length) ip.size)
    (hw : ip'.byteAt s' = written (ip.byteAt s) off data) :
    ip'.bytes s' = overwrite (ip.bytes s) off data := by
  rw [bytes, hsize, hw]
  exact map_written _ _ hoff

/-- `bmap` does not change the contents. -/
theorem Clean.block (h : Clean sb s ip s' ip') (hb : Busy sb s ip) (he : Extends sb s ip s' ip') :
    ip'.block s' bn = ip.block s bn := by
  have hx : (ip.inum, slotOf bn).2 ≠ .addr ndirect := slotOf_ne bn
  have hr := hb.ref (slotOf bn)
  have hr' := he.busy.ref (slotOf bn)
  rw [he.same.inum] at hr'
  rw [Inode.block, Inode.block, ← hr, ← hr']
  by_cases h0 : refsWith sb s ip (ip.inum, slotOf bn) = 0
  · rw [if_pos h0]
    split
    · rfl
    · exact h.fresh _ hx h0 ‹_›
  · rw [he.keeps _ h0, if_neg h0, if_neg h0, h.old _ hx h0]

theorem Busy.block_store (h : Busy sb s ip) {v : Block} {bn' : Nat}
    (h0 : refsWith sb s ip (ip.inum, slotOf bn) ≠ 0) :
    ip.block (update s (refsWith sb s ip (ip.inum, slotOf bn)) v) bn' =
      if bn' = bn then v else ip.block s bn' := by
  have hst := Extends.store h h0 (slotOf_ne bn) v
  -- the blocks are where they were
  rw [Inode.block, Inode.block, ← hst.busy.ref, h.refs_store h0 (slotOf_ne bn) v, ← h.ref]
  by_cases hbn : bn' = bn
  · rw [if_pos hbn, hbn, if_neg h0, Function.update_self]
  · rw [if_neg hbn]
    split
    · rfl
    · rename_i h0'
      refine Function.update_of_ne (fun he => hbn (slotOf_inj ?_)) ..
      exact (Prod.mk.inj (h.own.owned.once _ _ h0' he)).2

theorem Busy.byteAt_store (h : Busy sb s ip) {v : List UInt8}
    (h0 : refsWith sb s ip (ip.inum, slotOf (off / bsize)) ≠ 0)
    (hv : v.length ≤ bsize - off % bsize) :
    ip.byteAt (update s (refsWith sb s ip (ip.inum, slotOf (off / bsize)))
      ((s (refsWith sb s ip (ip.inum, slotOf (off / bsize)))).splice (off % bsize) v)) =
      written (ip.byteAt s) off v := by
  have hmod : off % bsize < bsize := mod_lt _ (by decide)
  funext o
  have homod : o % bsize < bsize := mod_lt _ (by decide)
  have hdiv := div_add_mod o bsize
  have hdiv' := div_add_mod off bsize
  rw [Inode.byteAt, h.block_store h0, written]
  split
  · rename_i hbn
    rw [hbn] at hdiv
    rw [Block.splice]
    dsimp only
    by_cases hin : off % bsize ≤ o % bsize ∧ o % bsize < off % bsize + v.length
    · rw [if_pos hin, if_pos (by omega)]
      congr 1
      omega
    · rw [if_neg hin, if_neg (by omega), Inode.byteAt, Inode.block, hbn, ← h.ref, if_neg h0]
  · rename_i hbn
    rw [if_neg, Inode.byteAt]
    rintro ⟨h1, h2⟩
    refine hbn ?_
    rw [bsize] at *
    omega

/-- Bytes only depend on the addresses and on the blocks there. -/
theorem Inode.byteAt_congr (ha : ∀ i, ip'.addr i = ip.addr i)
    (hs : ∀ y, ip.ref s y ≠ 0 → s' (ip.ref s y) = s (ip.ref s y)) :
    ip'.byteAt s' = ip.byteAt s := by
  have href : ∀ y, ip'.ref s' y = ip.ref s y := by
    intro y
    cases y with
    | addr i => exact ha i
    | ent j =>
      rw [Inode.ref, Inode.ref, ha]
      by_cases h : ip.addr ndirect ≠ 0 ∧ j < nindirect
      · have hind : s' (ip.addr ndirect) = s (ip.addr ndirect) := hs (.addr ndirect) h.1
        rw [if_pos h, if_pos h, hind]
      · rw [if_neg h, if_neg h]
  funext o
  rw [Inode.byteAt, Inode.byteAt, Inode.block, Inode.block, href]
  split
  · rfl
  · rw [hs _ ‹_›]

theorem Inode.grow_addr (ip : Inode) (off i : Nat) : (ip.grow off).addr i = ip.addr i := by
  rw [Inode.grow]
  split <;> rfl

theorem Busy.byteAt_updated (h : Busy sb s ip) (off : Nat) :
    (ip.grow off).byteAt (updated sb s (ip.grow off)) = ip.byteAt s := by
  refine Inode.byteAt_congr (ip.grow_addr off) fun y hy => Function.update_of_ne (fun he => ?_) ..
  rw [Inode.grow_inum] at he
  have hdata := h.own.owned.managed (ip.inum, y) (by rwa [h.ref])
  rw [h.ref] at hdata
  exact hdata.ne_iblock h.inum he.symm

end Bytes

/-! ## User memory -/

/-- The byte at a user address, if there is a page. -/
def userByte (m : UserMem) (va : Nat) : Option UInt8 :=
  (m (va - va % pgSize)).map fun page => page (va % pgSize)

/-- The `n` bytes at a user address are all mapped, and these are they.  Addresses are `uint64`s. -/
def UserBuffer (m : UserMem) (addr : Nat) (data : List UInt8) : Prop :=
  ∀ j (h : j < data.length), userByte m ((addr + j) % 2 ^ 64) = some data[j]

theorem UserBuffer.drop {m : UserMem} {addr : Nat} {data : List UInt8} (h : UserBuffer m addr data)
    (k : Nat) : UserBuffer m ((addr + k) % 2 ^ 64) (data.drop k) := by
  intro j hj
  rw [length_drop] at hj
  rw [mod_add_mod, add_assoc, getElem_drop]
  exact h (k + j) (by omega)

theorem UserBuffer.take {m : UserMem} {addr : Nat} {data : List UInt8} (h : UserBuffer m addr data)
    (k : Nat) : UserBuffer m addr (data.take k) := by
  intro j hj
  rw [length_take] at hj
  rw [getElem_take]
  exact h j (by omega)

theorem copyinLoop_of_mapped (m : UserMem) (rounds : Nat) : ∀ {va : Nat} {data : List UInt8},
    va < 2 ^ 64 → data.length ≤ rounds → UserBuffer m va data →
    copyinLoop m rounds va data.length = (data, true) := by
  induction rounds with
  | zero =>
    intro va data _ hr _
    obtain rfl := length_eq_zero_iff.mp (le_zero.mp hr)
    rfl
  | succ rounds ih =>
    intro va data hva hr h
    rw [copyinLoop]
    by_cases h0 : data.length = 0
    · rw [if_pos h0, length_eq_zero_iff.mp h0]
    rw [if_neg h0]
    have hmod : va % pgSize < pgSize := mod_lt _ (by decide)
    have hle : va % pgSize ≤ va := mod_le ..
    -- the page of the first byte
    have hfirst := h 0 (by omega)
    rw [add_zero, mod_eq_of_lt hva, userByte, Option.map_eq_some_iff] at hfirst
    obtain ⟨page, hpage, -⟩ := hfirst
    dsimp only
    rw [hpage, Nat.sub_sub_self hle]
    dsimp only
    generalize hn : min (pgSize - va % pgSize) data.length = n
    have hin : (List.range n).map (fun j => page (va % pgSize + j)) = data.take n := by
      refine ext_getElem (by simp; omega) fun j h1 _ => ?_
      rw [length_map, length_range] at h1
      have hj := h j (by omega)
      have hm : (va + j) % 2 ^ 64 = va + j := by
        rw [pgSize] at *
        omega
      have hp : va + j - (va + j) % pgSize = va - va % pgSize ∧
          (va + j) % pgSize = va % pgSize + j := by
        rw [pgSize] at *
        omega
      rw [hm, userByte, hp.1, hp.2, hpage] at hj
      rw [getElem_map, getElem_range, getElem_take]
      exact Option.some.inj hj
    have hrest : copyinLoop m rounds ((va - va % pgSize + pgSize) % 2 ^ 64) (data.length - n) =
        (data.drop n, true) := by
      rw [← length_drop]
      by_cases hlast : data.length = n
      · rw [drop_of_length_le hlast.le]
        cases rounds <;> rfl
      · have hnext : va - va % pgSize + pgSize = va + n := by omega
        rw [hnext]
        exact ih (mod_lt _ (by decide)) (by rw [length_drop]; omega) (h.drop n)
    rw [hin, hrest, take_append_drop]

/-- What `writei` is to write are these bytes; for a user address, all of them are mapped. -/
def Src.Gives (m : UserMem) (data : List UInt8) : Src → Prop
  | .kernel bytes => bytes = data
  | .user va => UserBuffer m va data

/-! ## `writei` -/

section Write

variable {sb : Superblock} {s : Disk} {ip : Inode} {m : UserMem} {src : Src} {n off : Nat}

/-- What is copied to a block is known if the source can be read. -/
theorem runs_eitherCopyin {α : Type} {b tot k : Nat} {f : Bool → K Nat α} {Q : α → Disk → Prop}
    (h : ∀ v ok, (∀ data, src.Gives m data → tot + k ≤ data.length → ok = true ∧
      v = (s b).splice off ((data.drop tot).take k)) → Runs m (f ok) (update s b v) Q) :
    Runs m (eitherCopyin b (s b) off src tot k >>= f) s Q := by
  cases src with
  | kernel bytes =>
    refine h _ _ fun data hdata _ => ?_
    obtain rfl : bytes = data := hdata
    exact ⟨rfl, rfl⟩
  | user va =>
    refine h _ _ fun data hdata hk => ?_
    have hlen : ((data.drop tot).take k).length = k := by
      rw [length_take, length_drop]
      omega
    have hc := copyinLoop_of_mapped m k (mod_lt _ (by decide)) hlen.le
      ((UserBuffer.drop hdata tot).take k)
    rw [hlen] at hc
    change copyin m _ k = _ at hc
    rw [hc]
    exact ⟨rfl, rfl⟩

/-- The loop of `writei`, from offset `off` of the file on; `n - tot` bytes are still to be written.
It leaves the inode alone where all blocks are there, and all bytes arrive if the source can be
read. -/
theorem runs_writeiLoop (hl : Layout sb) (rounds : Nat) :
    ∀ {s : Disk} {ip : Inode} {tot off : Nat}, Busy sb s ip → tot ≤ n →
      off + (n - tot) ≤ maxfile * bsize →
      Runs m (writeiLoop sb src n rounds ip tot off) s fun r s' =>
        Extends sb s ip s' r.2 ∧ off ≤ r.1 ∧ r.1 ≤ off + (n - tot) ∧
        (Mapped (refsWith sb s ip) ip.inum off → Mapped (refsWith sb s' r.2) ip.inum r.1) ∧
        ((∀ j < n - tot, refsWith sb s ip (ip.inum, slotOf ((off + j) / bsize)) ≠ 0) → r.2 = ip) ∧
        ∀ data, src.Gives m data → data.length = n → n - tot ≤ rounds →
          r.1 = off + (n - tot) ∧ r.2.byteAt s' = written (ip.byteAt s) off (data.drop tot) := by
  induction rounds with
  | zero =>
    intro s ip tot off h _ _
    refine ⟨.refl h, Nat.le_refl _, Nat.le_add_right .., id, fun _ => rfl, fun data _ hn hr => ?_⟩
    rw [drop_of_length_le (by omega), written_nil]
    exact ⟨by omega, rfl⟩
  | succ rounds ih =>
    intro s ip tot off h htot hlen
    rw [writeiLoop]
    split
    · rename_i hlt
      have hbn : off / bsize < maxfile := Nat.div_lt_of_lt_mul (by rw [Nat.mul_comm]; omega)
      have hmod := mod_bsize_lt off
      refine (runs_bmap hl h hbn).bind ?_
      rintro ⟨addr, ip1⟩ s1 ⟨he, ha, h0, hclean, hsame⟩
      dsimp only at he ha h0 hclean hsame ⊢
      have hold : ip1.byteAt s1 = ip.byteAt s := by
        funext o
        rw [Inode.byteAt, Inode.byteAt, hclean.block h he]
      rw [← he.same.inum] at ha hsame ⊢
      rw [ha] at h0 ⊢
      rw [ends_bread]
      dsimp only
      generalize hw : min (n - tot) (bsize - off % bsize) = w
      refine runs_eitherCopyin fun v ok hcopy => ?_
      have hst := Extends.store he.busy h0 (slotOf_ne _) v
      split
      · rw [Runs, ends_logWrite, ends_brelse]
        refine (ih hst.busy (by omega) (by omega)).mono ?_
        rintro r s' ⟨he', h1, h2, h3, h4, h5⟩
        refine ⟨(he.trans hst).trans he', by omega, by omega, fun hm => ?_, fun hrefs => ?_,
          fun data hdata hn hr => ?_⟩
        · exact h3 ((hm.extend (he.trans hst)).append hbn (by rwa [hst.keeps _ h0]) (by omega))
        · obtain rfl := hsame (hrefs 0 (by omega))
          refine h4 fun j hj => ?_
          have hj := hrefs (w + j) (by omega)
          rw [← Nat.add_assoc] at hj
          rwa [(he.trans hst).keeps _ hj]
        · obtain ⟨h6, h7⟩ := h5 data hdata hn (by omega)
          obtain ⟨-, rfl⟩ := hcopy data hdata (by omega)
          have hpiece : ((data.drop tot).take w).length = w := by
            rw [length_take, length_drop]
            omega
          have happ := written_append (ip.byteAt s) off ((data.drop tot).take w)
            (data.drop (tot + w))
          rw [hpiece, ← drop_drop, take_append_drop] at happ
          refine ⟨by omega, ?_⟩
          rw [h7, he.busy.byteAt_store h0 (by omega), hold, ← drop_drop, happ]
      · rename_i hok
        rw [Runs, ends_brelse]
        refine ⟨he.trans hst, Nat.le_refl _, Nat.le_add_right .., fun hm =>
          hm.extend (he.trans hst),
          fun hrefs => hsame (hrefs 0 (by omega)), fun data hdata hn _ => ?_⟩
        exact absurd (hcopy data hdata (by omega)).1 hok
    · refine ⟨.refl h, Nat.le_refl _, Nat.le_add_right .., id, fun _ => rfl, fun data _ hn _ => ?_⟩
      rw [drop_of_length_le (by omega), written_nil]
      exact ⟨by omega, rfl⟩

/-- **What `writei` does**, whether or not the source faults.  It leaves the inode alone where it
writes inside the file, and all bytes arrive if the source can be read and there is room. -/
theorem runs_writei (hl : Layout sb) (h : Own sb s (refs sb s)) (hd : dinode sb s ip.inum = ip)
    (hn : ip.inum < sb.ninodes) (ht : ip.type ≠ 0) :
    Runs m (writei sb ip src off n) s fun r s' =>
      Settled sb s ip.inum s' r.2 ∧ KeepsOthers sb s ip s' ∧
      r.2 = { ip with size := r.2.size, addrs := r.2.addrs } ∧
      (Mapped (refsWith sb s ip) ip.inum ip.size → off + n ≤ ip.size → r.2 = ip) ∧
      ∀ data, src.Gives m data → data.length = n → off ≤ ip.size → off + n ≤ maxfile * bsize →
        r.1 = some n ∧ r.2.size = max (off + n) ip.size ∧
        r.2.byteAt s' = written (ip.byteAt s) off data := by
  have hsame : Settled sb s ip.inum s ip := ⟨h, hd, fun _ _ _ => rfl, id⟩
  have hbusy := Busy.of_own h hd hn ht
  have hbig : maxfile * bsize < 2 ^ 32 := by decide
  rw [writei]
  split
  · exact ⟨hsame, fun _ _ _ => rfl, rfl, fun _ _ => rfl, fun _ _ _ _ _ => by omega⟩
  split
  · exact ⟨hsame, fun _ _ _ => rfl, rfl, fun _ _ => rfl, fun _ _ _ _ _ => by omega⟩
  rcases Nat.eq_zero_or_pos n with rfl | hpos
  · refine ⟨hsame, fun _ _ _ => rfl, rfl, fun _ _ => rfl, fun data _ hdata _ _ => ?_⟩
    rw [length_eq_zero_iff.mp hdata, written_nil]
    exact ⟨rfl, (max_eq_right ‹_›).symm, rfl⟩
  refine (runs_writeiLoop hl n hbusy (zero_le n) (by omega)).bind ?_
  rintro ⟨off', ip1⟩ s1 ⟨he, h1, h2, h3, h4, h5⟩
  dsimp only at he h1 h2 h3 h4 h5 ⊢
  rw [if_pos hpos]
  change Settled sb s ip.inum (updated sb s1 (ip1.grow off')) (ip1.grow off') ∧
    KeepsOthers sb s ip (updated sb s1 (ip1.grow off')) ∧ ip1.grow off' = _ ∧
    (_ → _ → ip1.grow off' = _) ∧ ∀ _, _ → _ → _ → _ → _ ∧ (ip1.grow off').size = _ ∧
      (ip1.grow off').byteAt (updated sb s1 (ip1.grow off')) = _
  have hinum : (ip1.grow off').inum = ip.inum := by rw [ip1.grow_inum, he.same.inum]
  refine ⟨?_, fun x hx h0 => ?_, ?_, fun hmap hin => ?_, fun data hdata hlen _ _ => ?_⟩
  rotate_left
  · rw [updated, Function.update_of_ne, he.others x hx h0]
    rw [hinum]
    exact fun heq => (hbusy.own.owned.managed x h0).ne_iblock hn heq.symm
  · have hsame : ip1 = { ip with addrs := ip1.addrs } := he.same
    rw [Inode.grow]
    split <;> rw [hsame]
  · obtain rfl := h4 fun j hj => (hmap _ ((div_mul_le_self ..).trans_lt (by omega))).2
    exact if_neg (by omega)
  · obtain ⟨h6, h7⟩ := h5 data hdata hlen (sub_le ..)
    rw [Inode.grow_size, he.same.size, he.busy.byteAt_updated, h6, h7]
    exact ⟨rfl, rfl, rfl⟩
  rw [← hinum]
  refine .update hl he.inodes (by rw [refsWith_grow]; exact he.busy.own) (by rwa [hinum])
    (he.busy.fits.grow (by omega)) (fun hfull _ => ?_) fun i x _ h0 => ?_
  · -- up to the old size nothing is missing, and the loop has filled in the rest
    have hmap : Mapped (refsWith sb s ip) ip.inum ip.size := by
      rw [refsWith_dinode hd, ← hd]
      exact hfull _ (hd ▸ hn) (hd ▸ ht)
    have hle : off ≤ ip.size := by omega
    rw [refsWith_grow, hinum, Inode.grow_size, he.same.size]
    rcases le_total off' ip.size with hcase | hcase
    · rw [max_eq_right hcase]
      exact hmap.extend he
    · rw [max_eq_left hcase]
      exact h3 fun bn hbn => hmap bn (by omega)
  · rw [refsWith_grow] at h0
    exact he.refs_eq_zero hd h0

end Write

end Xv6.Fs
