import Xv6.Mkfs.Agreement
import Xv6.Sys.Insertion
import Mathlib.Order.Interval.Finset.Nat

/-!
# The longest directory

A run of `sys_link` that ends in `panic("dirlink")`.  It starts from the disk that `mkfs` makes for
one file, and gives that file one name after the other in the root directory, until the directory
has `MAXFILE` blocks and each of its slots is taken.  There are 17149 calls that succeed, too many
to be run; they are counted instead (`Filling`): each of them takes one slot (`Filling.link`), and
when all are taken the next one panics (`Filling.panic`).  That the disk does not run out of blocks
has to be shown on the way.  A call takes no more than two, and none unless the directory goes on to
a new block.
-/

namespace Xv6.Sys

open Bio Code Fs Lts List Nat
open Function (update update_self update_of_ne update_apply)

/-! ## A link in a tree -/

section Link

variable {sb : Superblock} {m : UserMem} {E : Panic → Prop} {s : Disk} {ns : Nat → Option Node}
  {x : Mem} {i d : Nat} {n nd : Node} {old new t : List UInt8} {others : Nat → Nat}

theorem ends_incr (hl : Layout sb) (h : Represents sb s ns) (hn : ns i = some n) :
    Ends m E (iupdate sb (incr (dinode sb s i))) s fun _ s' =>
      dinode sb s' i = incr (dinode sb s i) ∧
      Represents sb s' (update ns i (some (raised n))) ∧
      freeBlocks sb s' = freeBlocks sb s := by
  have hboth : Ends m Tolerated (iupdate sb (incr (dinode sb s i))) s _ :=
    ((runs_incr hl h hn).ends fun _ => id).and ((runs_iupdate _).ends fun _ => id)
  refine (hboth.total ⟨_, rfl⟩).mono ?_
  rintro _ s' ⟨⟨hd, -, hrep⟩, rfl⟩
  have hinum : (incr (dinode sb s i)).inum < sb.ninodes := h.lt hn
  exact ⟨hd, hrep, freeBlocks_updated hl hinum⟩

theorem kept_raise {j : Nat} (h : Kept ns others j) (hn : ns i = some n) :
    Kept (update ns i (some (raised n))) (hold others i) j := by
  obtain ⟨n', hn', hk⟩ := h
  by_cases hji : j = i
  · subst hji
    exact ⟨_, update_self .., .inr hold_self_ne_zero⟩
  · refine ⟨n', by rw [update_of_ne hji, hn'], ?_⟩
    rwa [hold, update_of_ne hji]

theorem tree_raise (h : Tree ns others) (hn : ns i = some n) (hdir : n.type ≠ tDir) :
    Tree (update ns i (some (raised n))) (hold others i) :=
  ⟨fun hj ht => h.dirs (of_update_raised hdir hj ht) ht,
    fun hj ht hf => kept_raise (h.named (of_update_raised hdir hj ht) ht hf) hn⟩

/-- The nodes when the inode `i` has one more name, in the directory `d`. -/
abbrev withLink (ns : Nat → Option Node) (i : Nat) (n : Node) (d : Nat) (nd : Node)
    (t : List UInt8) :
    Nat → Option Node :=
  update (update ns i (some (raised n))) d (some (nd.linked t i))

/-- What `dirlink` does when `sys_link` has raised the link count. -/
def Enters (sb : Superblock) (m : UserMem) (E : Panic → Prop) (s : Disk) (ns : Nat → Option Node)
    (i : Nat) (n : Node) (d : Nat) (nd : Node) (t : List UInt8) (Q : Disk → Prop) : Prop :=
  ∀ s₁, Represents sb s₁ (update ns i (some (raised n))) → freeBlocks sb s₁ = freeBlocks sb s →
    Ends m E (dirlink sb (dinode sb s₁ d) t i) s₁ fun r s₂ => r = (true, dinode sb s₂ d) ∧
      KeepsInodes sb s₁ d s₂ ∧ Represents sb s₂ (withLink ns i n d nd t) ∧ Q s₂

/-- **`sys_link`** of a file that is there to a name in a directory that is there.  All that may go
wrong is `dirlink`. -/
theorem ends_sysLink_tree {Q : Disk → Prop} (hl : Layout sb) (h : Represents sb s ns)
    (ht : Tree ns x.iref) (hroot : Kept ns x.iref rootIno) (hcwd : Kept ns x.iref x.cwd)
    (hold : follow ns (start x.cwd old) (elems old) = some i) (hn : ns i = some n)
    (hdir : n.type ≠ tDir) (hnlink : n.nlink + 1 < 2 ^ 16)
    (hnew : parentOf ns (start x.cwd new) (elems new) = some (d, t)) (hnd : ns d = some nd)
    (hlink : Enters sb m E s ns i n d nd t Q) :
    Ends m E (sysLink sb x old new) s fun r s' => r = 0 ∧
      Represents sb s' (withLink ns i n d nd t) ∧ Q s' := by
  have hi := h.lt hn
  obtain ⟨-, hfd, nd', hnd', htd⟩ := parentOf_eq_some hnew
  obtain rfl : nd = nd' := Option.some.inj (hnd.symm.trans hnd')
  have hid : i ≠ d := by
    rintro rfl
    rw [hn] at hnd
    cases hnd
    exact hdir htd
  rw [sysLink]
  refine (h.yields_namei ht hroot hcwd old).ends_bind ?_
  rw [hold]
  refine (h.yields_ilockRead hn).ends_bind ?_
  rw [h.type hn, if_neg hdir]
  refine (ends_incr hl h hn).bind ?_
  rintro _ s1 ⟨hip1, h1, hfree⟩
  have hinum : (incr (dinode sb s i)).inum = i := rfl
  generalize incr (dinode sb s i) = ip at hip1 hinum ⊢
  have hn1 : update ns i (some (raised n)) d = some nd := by
    rw [update_of_ne hid.symm, hnd]
  have hpar : parentOf (update ns i (some (raised n))) (start x.cwd new) (elems new) =
      some (d, t) := by
    refine parentOf_of_pruned (fun j n' hj => ?_) hnew
    by_cases hji : j = i
    · subst hji
      rw [hn] at hj
      cases hj
      exact ⟨raised n, update_self .., rfl, rfl⟩
    · exact ⟨n', by rw [update_of_ne hji, hj], rfl, rfl⟩
  obtain ⟨nd0, hnd0, hkd⟩ := ht.kept_follow (kept_start hroot hcwd new) hfd
  obtain rfl : nd = nd0 := Option.some.inj (hnd.symm.trans hnd0)
  have hinto : Ends m E (linkInto sb x ip new) s1 fun ok s2 => ok = true ∧ dinode sb s2 i = ip ∧
      Represents sb s2 (withLink ns i n d nd t) ∧ Q s2 := by
    rw [linkInto, hinum]
    refine (h1.yields_nameiparent (tree_raise ht hn hdir) (kept_raise hroot hn)
      (kept_raise hcwd hn) new).ends_bind ?_
    rw [hpar]
    refine (h1.yields_ilockRead hn1).ends_bind ?_
    refine (hlink s1 h1 hfree).bind ?_
    rintro _ s2 ⟨rfl, hk, h2, hQ⟩
    refine (h2.yields_iunlockput ⟨nd.linked t i, update_self .., ?_⟩).ends_bind
      (ends_pure ⟨rfl, by rw [hk i hi hid, hip1], h2, hQ⟩)
    rw [Fs.hold, update_of_ne hid.symm]
    exact hkd
  refine hinto.bind ?_
  rintro _ s2 ⟨rfl, hip2, h2, hQ⟩
  have hput : Yields m (iput sb x.iref ip) s2 () := by
    rw [iput, ← hip2]
    refine h2.yields_iunlockput ⟨raised n, ?_, .inl ?_⟩
    · rw [withLink, update_of_ne hid, update_self]
    · rw [raised]
      rw [mod_eq_of_lt hnlink]
      exact succ_ne_zero _
  exact hput.ends_bind (ends_pure ⟨rfl, h2, hQ⟩)

end Link

/-! ## What an entry costs -/

section Cost

variable {sb : Superblock} {m : UserMem} {E : Panic → Prop} {s : Disk} {ns : Nat → Option Node}
  {i inum : Nat} {n : Node} {name : List UInt8}

theorem missing_eq_empty_of_block {ip : Inode} {off k bn : Nat} (hb : blocksOf off k ⊆ {bn})
    (h : ip.ref s (slotOf bn) ≠ 0) : missing s ip off k = ∅ := by
  rw [missing, Finset.filter_eq_empty_iff]
  intro y hy
  obtain ⟨c, hc, hy⟩ := Finset.mem_biUnion.mp hy
  rw [Finset.mem_singleton.mp (hb hc)] at hy
  exact ref_ne_zero_of_slotsOf h hy

/-- At the end of a directory at most two blocks are missing, and none unless it is the end of a
block. -/
theorem card_missing_le (h : Represents sb s ns) (hn : ns i = some n) (hd : n.IsDir) :
    (missing s (dinode sb s i) n.bytes.length direntSize).card ≤
      if n.bytes.length % bsize = 0 then 2 else 0 := by
  have hblocks : blocksOf n.bytes.length direntSize ⊆ {n.bytes.length / bsize} := by
    intro bn hbn
    obtain ⟨j, hj, rfl⟩ := mem_blocksOf.mp hbn
    have h16 : n.bytes.length % 16 = 0 := mod_eq_zero_of_dvd hd.aligned
    have hj : j < 16 := hj
    rw [Finset.mem_singleton, bsize]
    omega
  split
  · refine (Finset.card_filter_le _ _).trans ((Finset.card_le_card
      (Finset.biUnion_subset_biUnion_of_subset_left slotsOf hblocks)).trans ?_)
    rw [Finset.singleton_biUnion, slotsOf]
    split
    · exact le_of_lt one_lt_two
    · exact Finset.card_le_two
  · rename_i hmid
    -- the last byte of the directory is in the same block
    have hpos : 0 < n.bytes.length := pos_of_ne_zero fun h0 => hmid (by rw [h0]; rfl)
    have hlast := (h.holds hn (n.bytes.length - 1) (by omega)).2.1
    have hdiv : (n.bytes.length - 1) / bsize = n.bytes.length / bsize := by
      rw [bsize] at hmid ⊢
      omega
    rw [hdiv] at hlast
    rw [le_zero, Finset.card_eq_zero]
    exact missing_eq_empty_of_block hblocks hlast

/-- **`dirlink`** in a directory for which there is room, and the blocks that it takes. -/
theorem ends_dirlink_room (hl : Layout sb) (h : Represents sb s ns) (hn : ns i = some n)
    (hd : n.IsDir)
    (inum : Nat) (ha : found n.bytes name = none) (hroom : RoomFor sb s i n) :
    Ends m E (dirlink sb (dinode sb s i) name inum) s fun r s' => r = (true, dinode sb s' i) ∧
      KeepsInodes sb s i s' ∧ Represents sb s' (update ns i (some (n.linked name inum))) ∧
      (freeBlocks sb s).card ≤ (freeBlocks sb s').card +
        if none ∈ slots n.bytes then 0 else
          (missing s (dinode sb s i) n.bytes.length direntSize).card := by
  have hspec : Ends m E (dirlink sb (dinode sb s i) name inum) s _ :=
    h.ends_dirlink hl hn hd inum ha (.inr hroom) fun _ => hroom.imp_right And.left
  have hcost : Ends m (fun _ => True) (dirlink sb (dinode sb s i) name inum) s fun _ s' =>
      (freeBlocks sb s).card ≤ (freeBlocks sb s').card + (missing s (dinode sb s i)
        (SlotMap.firstFree (slots n.bytes) * direntSize) direntSize).card := by
    rw [Ends, wp_specOf_iff, h.exec_dirlink hn hd m inum ha, ← wp_specOf_iff]
    refine Ends.bind (Ends.imp (costs_writei hl (h.busy hn)) (fun _ _ => trivial) fun _ _ => id) ?_
    rintro ⟨r, dp⟩ s' hle
    dsimp only
    split
    · exact ends_panic trivial
    · exact ends_pure hle
  refine (hspec.and hcost).mono ?_
  rintro r s' ⟨⟨hr, hk, hrep⟩, hle⟩
  refine ⟨hr, hk, hrep, ?_⟩
  split
  · rename_i hfree
    rwa [h.missing_eq_empty hn (hd.of_lt_firstFree hfree)] at hle
  · rename_i hfree
    rwa [hd.firstFree_eq hfree] at hle

end Cost

/-! ## Names -/

/-- The name that is entered when `k` slots are taken. -/
def nameOf (k : Nat) : List UInt8 := [98, UInt8.ofNat (110 + k / 136), UInt8.ofNat (110 + k % 136)]

theorem toNat_byte {a : Nat} (h : a < 136) : (UInt8.ofNat (110 + a)).toNat = 110 + a := by
  rw [UInt8.toNat_ofNat', mod_eq_of_lt (by omega)]

theorem byte_ne {a : Nat} (h : a < 136) {c : UInt8} (hc : c.toNat < 110) :
    UInt8.ofNat (110 + a) ≠ c := by
  rintro rfl
  rw [toNat_byte h] at hc
  omega

section Names

variable {j k : Nat}

theorem div_lt_136 (hk : k < 136 * 136) : k / 136 < 136 := Nat.div_lt_of_lt_mul hk

theorem mod_lt_136 (k : Nat) : k % 136 < 136 := mod_lt k (by decide)

theorem nameOf_inj (hj : j < 136 * 136) (hk : k < 136 * 136) (h : nameOf j = nameOf k) : j = k := by
  simp only [nameOf, List.cons.injEq, and_true, true_and] at h
  have h1 := congrArg UInt8.toNat h.1
  have h2 := congrArg UInt8.toNat h.2
  rw [toNat_byte (div_lt_136 hj), toNat_byte (div_lt_136 hk)] at h1
  rw [toNat_byte (mod_lt_136 j), toNat_byte (mod_lt_136 k)] at h2
  omega

theorem mem_nameOf (hk : k < 136 * 136) {c c' : UInt8} (hc : c ∈ nameOf k) (hc' : c'.toNat < 98) :
    c ≠ c' := by
  simp only [nameOf, mem_cons, not_mem_nil, or_false] at hc
  rcases hc with rfl | rfl | rfl
  · rintro rfl
    nomatch hc'
  · exact byte_ne (div_lt_136 hk) (by omega)
  · exact byte_ne (mod_lt_136 k) (by omega)

theorem cname_nameOf (hk : k < 136 * 136) : cname (nameOf k) = nameOf k := by
  rw [cname, take_of_length_le (le_of_ble_eq_true rfl), takeWhile_eq_self_iff]
  intro c hc
  exact decide_eq_true (mem_nameOf hk hc (by decide))

theorem elems_nameOf (hk : k < 136 * 136) : elems (nameOf k) = [nameOf k] := by
  have hsplit : (nameOf k).splitOn 47 = [nameOf k] := by
    refine splitOnP_eq_singleton fun c hc => ?_
    simpa using mem_nameOf hk hc (by decide)
  rw [elems, hsplit]
  rfl

end Names

/-! ## The directory fills up -/

/-- `link("a", name)` -/
def linkCall (k : Nat) : Call := .link (some [97]) (some (nameOf k))

/-- The number of slots of a directory that is as long as a file can be. -/
def maxSlots : Nat := maxfile * (bsize / direntSize)

/-- The root directory `n` has entries in `k` slots, all but two of which are names of the file `f`.
-/
structure Filling (s : Disk) (ns : Nat → Option Node) (n f : Node) (k : Nat) : Prop where
  rep : Represents mkfsSuper s ns
  root : ns rootIno = some n
  dir : n.IsDir
  file : ns 2 = some f
  type : f.type = tFile
  nlink : f.nlink + 2 = k
  linked : 3 ≤ k
  only : ∀ {i n'}, ns i = some n' → n'.type = tDir → i = rootIno
  entries : ∀ {name e}, some (name, e) ∈ slots n.bytes → e = rootIno ∨ e = 2
  distinct : SlotMap.Distinct (slots n.bytes)
  present : ∃ off, found n.bytes [97] = some (2, off)
  absent : ∀ {j}, k ≤ j → j ≤ maxSlots → found n.bytes (nameOf j) = none
  count : (slots n.bytes).countP (·.isSome) = k
  free : 2 * maxfile ≤ (freeBlocks mkfsSuper s).card + 2 * ((n.bytes.length + (bsize - 1)) / bsize)

section Filling

variable {s : Disk} {ns : Nat → Option Node} {n f : Node} {k : Nat}

section

variable (h : Filling s ns n f k)

include h

theorem Filling.kept_root : Kept ns atRoot.iref rootIno :=
  ⟨n, h.root, .inr one_ne_zero⟩

theorem Filling.tree : Tree ns atRoot.iref := by
  refine ⟨fun hi ht => ?_, fun hi ht hf => ?_⟩
  · obtain rfl := h.only hi ht
    cases h.root.symm.trans hi
    exact h.dir
  · obtain rfl := h.only hi ht
    cases h.root.symm.trans hi
    rcases h.entries (mem_slots_of_found hf) with rfl | rfl
    · exact h.kept_root
    · have h1 := h.nlink
      have h2 := h.linked
      exact ⟨f, h.file, .inl (by omega)⟩

theorem Filling.ends_sysLink {E : Panic → Prop} {Q : Disk → Prop} (hk : k ≤ maxSlots)
    (hlink : Enters mkfsSuper noMem E s ns 2 f rootIno n (nameOf k) Q) :
    Ends noMem E (sysLink mkfsSuper atRoot [97] (nameOf k)) s fun r s' => r = 0 ∧
      Represents mkfsSuper s' (withLink ns 2 f rootIno n (nameOf k)) ∧ Q s' := by
  have hk' : k < 136 * 136 := hk.trans_lt (by decide)
  have hstart : ∀ path, start atRoot.cwd path = rootIno := fun path => by
    rw [start]
    split <;> rfl
  have hnl := h.nlink
  have hmax : maxSlots < 2 ^ 16 := by decide
  refine ends_sysLink_tree mkfsSuper_layout h.rep h.tree h.kept_root h.kept_root ?_ h.file ?_
    (by omega) ?_
    h.root hlink
  · obtain ⟨off, hf⟩ := h.present
    rw [hstart, show elems [97] = [[97]] from rfl, follow, child_of_dir h.root h.dir.type, hf]
    rfl
  · rw [h.type]
    decide
  · rw [hstart, elems_nameOf hk', parentOf, h.root, Option.bind_some, if_pos h.dir.type]

/-- The slots that are taken are not more than a file has room for. -/
theorem Filling.le_slots : k ≤ (slots n.bytes).length ∧ (slots n.bytes).length ≤ maxSlots := by
  have hlen := h.dir.length_slots
  have hmax := h.rep.size_le h.root
  have hcap : maxSlots * direntSize = maxfile * bsize := by decide
  have h16 : direntSize = 16 := rfl
  refine ⟨?_, by rw [h16] at hlen hcap; omega⟩
  rw [← h.count]
  exact countP_le_length

/-- The directory has no empty slot if it has as many entries as slots. -/
theorem Filling.none_notMem (hk : (slots n.bytes).length ≤ k) : none ∉ slots n.bytes := by
  have hall : (slots n.bytes).countP (·.isSome) = (slots n.bytes).length :=
    le_antisymm countP_le_length (by rw [h.count]; exact hk)
  intro hmem
  have := countP_eq_length.mp hall none hmem
  nomatch this

theorem Filling.roomFor (hk : k < maxSlots) {s1 : Disk} {ns1 : Nat → Option Node}
    (h1 : Represents mkfsSuper s1 ns1) (hroot : ns1 rootIno = some n)
    (hfree : freeBlocks mkfsSuper s1 = freeBlocks mkfsSuper s) :
    RoomFor mkfsSuper s1 rootIno n := by
  by_cases hnone : none ∈ slots n.bytes
  · exact .inl hnone
  have hlen := h.dir.length_slots
  have heq : (slots n.bytes).length = k := by
    rw [← h.count]
    refine (countP_eq_length.mpr fun o ho => ?_).symm
    cases o with
    | none => exact absurd ho hnone
    | some _ => rfl
  have hcap : maxSlots * direntSize = maxfile * bsize := by decide
  have hmiss := card_missing_le h1 hroot h.dir
  have hfr := h.free
  have h16 : direntSize = 16 := rfl
  have hb : bsize = 1024 := rfl
  have hm : maxfile = 268 := rfl
  rw [heq, h16] at hlen
  rw [h16, hb, hm] at hcap
  refine .inr ⟨by rw [h16, hb, hm]; omega, hmiss.trans ?_⟩
  rw [hb, hm] at hfr
  rw [hb, hfree]
  split
  · omega
  · exact zero_le _

end

theorem step_linkCall (s : Disk) (k : Nat) :
    (pathCalls mkfsSuper).step ⟨s, none⟩ (atRoot, linkCall k) =
      match exec (answer noMem) (sysLink mkfsSuper atRoot [97] (nameOf k)) s with
      | .ok (_, d) => some ⟨d, none⟩
      | .error e => some ⟨s, some e⟩ := by
  have hcwd : atRoot.cwd < mkfsSuper.ninodes := by decide
  simp only [pathCalls, hcwd, and_self, if_true, linkCall, Call.run, leaving, exec_bind]
  cases exec (answer noMem) (sysLink mkfsSuper atRoot [97] (nameOf k)) s <;> rfl

theorem Filling.root_raised (h : Filling s ns n f k) :
    update ns 2 (some (raised f)) rootIno = some n := by
  rw [update_of_ne (by decide), h.root]

theorem Filling.next (h : Filling s ns n f k) (hk : k < maxSlots) {s' : Disk}
    (h' : Represents mkfsSuper s' (withLink ns 2 f rootIno n (nameOf k)))
    (hfree : (freeBlocks mkfsSuper s).card ≤ (freeBlocks mkfsSuper s').card +
      if none ∈ slots n.bytes then 0 else if n.bytes.length % bsize = 0 then 2 else 0) :
    Filling s' (withLink ns 2 f rootIno n (nameOf k)) (n.linked (nameOf k) 2) (raised f)
      (k + 1) := by
  have hbig : maxSlots < 136 * 136 := by decide
  have ha : found n.bytes (nameOf k) = none := h.absent le_rfl hk.le
  have hslots : slots (n.linked (nameOf k) 2).bytes =
      SlotMap.insert (slots n.bytes) (cname (nameOf k)) 2 :=
    h.dir.slots_linked (by decide) (by decide) (nameOf k)
  have hnl := h.nlink
  have hnlink : (raised f).nlink = f.nlink + 1 := by
    rw [raised]
    have hmax : maxSlots < 2 ^ 16 := by decide
    exact mod_eq_of_lt (by omega)
  refine ⟨h', update_self .., h.dir.linked .., ?_, h.type, by omega, by have := h.linked; omega,
    fun {i n'} hi ht => ?_, fun {name e} hm => ?_, ?_, ?_, fun {j} hj hj' => ?_, ?_, ?_⟩
  · rw [withLink, update_of_ne (by decide), update_self]
  · by_contra hne
    rw [withLink, update_of_ne hne, update_apply] at hi
    split at hi
    · cases hi
      rw [show (raised f).type = f.type from rfl, h.type] at ht
      cases ht
    · exact hne (h.only hi ht)
  · rw [hslots] at hm
    rcases SlotMap.mem_of_mem_put hm with hm | hm
    · exact h.entries hm
    · cases hm
      exact .inr rfl
  · rw [hslots]
    exact h.distinct.insert (found_eq_none_iff.mp ha) 2
  · obtain ⟨off, hf⟩ := h.present
    refine ⟨off, ?_⟩
    rw [found_linked_of_ne h.dir h.distinct (by decide) (by decide) ha, hf]
    rw [cname_nameOf (hk.trans hbig)]
    intro heq
    cases congrArg List.length heq
  · refine found_linked_eq_none h.dir 2 (h.absent (by omega) hj') fun heq => ?_
    rw [cname_nameOf (hj'.trans_lt hbig), cname_nameOf (hk.trans hbig)] at heq
    have := nameOf_inj (hj'.trans_lt hbig) (hk.trans hbig) heq
    omega
  · rw [hslots, SlotMap.countP_insert, h.count]
  · have hfr := h.free
    have h16 : direntSize = 16 := rfl
    rw [h.dir.length_linked, h16]
    rw [bsize] at hfr hfree ⊢
    have h0 : n.bytes.length % 16 = 0 := mod_eq_zero_of_dvd h.dir.aligned
    split
    · rw [if_pos ‹_›] at hfree
      omega
    · rw [if_neg ‹_›] at hfree
      split at hfree <;> omega

/-- **One more name.** -/
theorem Filling.link (h : Filling s ns n f k) (hk : k < maxSlots) : ∃ s' ns' n' f',
    (pathCalls mkfsSuper).step ⟨s, none⟩ (atRoot, linkCall k) = some ⟨s', none⟩ ∧
      Filling s' ns' n' f' (k + 1) := by
  have hends : Ends noMem (fun _ => False) (sysLink mkfsSuper atRoot [97] (nameOf k)) s _ :=
    h.ends_sysLink hk.le (Q := fun s' => (freeBlocks mkfsSuper s).card ≤
      (freeBlocks mkfsSuper s').card +
      if none ∈ slots n.bytes then 0 else if n.bytes.length % bsize = 0 then 2 else 0)
      fun s1 h1 hfree => by
        refine (ends_dirlink_room mkfsSuper_layout h1 h.root_raised h.dir 2 (h.absent le_rfl hk.le)
          (h.roomFor hk h1 h.root_raised hfree)).mono ?_
        rintro r s2 ⟨hr, hkeep, hrep, hle⟩
        refine ⟨hr, hkeep, hrep, ?_⟩
        rw [← hfree]
        refine hle.trans (Nat.add_le_add_left ?_ _)
        split
        · exact Nat.le_refl 0
        · exact card_missing_le h1 h.root_raised h.dir
  rw [Ends, wp_specOf_iff] at hends
  rw [step_linkCall]
  split at hends
  · rename_i r s' heq
    rw [heq]
    exact ⟨s', _, _, _, rfl, h.next hk hends.2.1 hends.2.2⟩
  · exact absurd hends id

/-- **When all slots are taken**, `writei` returns -1. -/
theorem Filling.panic (h : Filling s ns n f maxSlots) :
    (pathCalls mkfsSuper).step ⟨s, none⟩ (atRoot, linkCall maxSlots) = some ⟨s, some .dirlink⟩ := by
  have hfull : none ∉ slots n.bytes := h.none_notMem h.le_slots.2
  have hlen : (slots n.bytes).length = maxSlots := le_antisymm h.le_slots.2 h.le_slots.1
  have hends : Ends noMem (· = .dirlink) (sysLink mkfsSuper atRoot [97] (nameOf maxSlots)) s _ :=
    h.ends_sysLink le_rfl (Q := fun _ => False) fun s1 h1 _ => by
      rw [Ends, wp_specOf_iff, h1.exec_dirlink h.root_raised h.dir noMem 2 (h.absent le_rfl le_rfl),
        h.dir.firstFree_eq hfull, ← h.dir.length_slots, hlen, ← wp_specOf_iff]
      have hw : Yields noMem (writei mkfsSuper (dinode mkfsSuper s1 rootIno)
          (.kernel (direntBytes 2 (nameOf maxSlots))) (maxSlots * direntSize) direntSize) s1
          (none, dinode mkfsSuper s1 rootIno) := by
        rw [writei]
        split
        · exact yields_pure
        · rw [if_pos (by decide)]
          exact yields_pure
      exact hw.ends_bind (ends_panic rfl)
  rw [Ends, wp_specOf_iff] at hends
  rw [step_linkCall]
  split at hends
  · exact absurd hends.2.2 id
  · rename_i e heq
    rw [heq, hends]

theorem Filling.exec_links : ∀ {j : Nat} {s : Disk} {ns : Nat → Option Node} {n f : Node} {k : Nat},
    Filling s ns n f k → k + j = maxSlots → ∃ s', (pathCalls mkfsSuper).exec ⟨s, none⟩
      ((List.range' k (j + 1)).map fun k => (atRoot, linkCall k)) = some ⟨s', some .dirlink⟩
  | 0, s, _, _, _, k, h, hk => by
    obtain rfl : k = maxSlots := hk
    refine ⟨s, ?_⟩
    rw [range'_one, map_singleton, System.exec, h.panic]
    rfl
  | j + 1, s, _, _, _, k, h, hk => by
    obtain ⟨s1, ns1, n1, f1, hstep, h1⟩ := h.link (by omega)
    obtain ⟨s', hexec⟩ := h1.exec_links (j := j) (by omega)
    refine ⟨s', ?_⟩
    rw [range'_succ, map_cons, System.exec, hstep]
    exact hexec

end Filling

/-! ## From the disk that `mkfs` makes -/

/-- What has to be looked up on the disk: which inodes there are, and how much of the disk is taken.
-/
def imageOk (s : Mkfs.Mk) : Bool :=
  (List.range mkfsSuper.ninodes).all (fun i =>
    (dinode mkfsSuper s.disk i).type == 0 || i == 1 || i == 2) &&
  (dinode mkfsSuper s.disk 2).nlink == 1 && decide (s.freeblock ≤ 50)

theorem exists_imageOk : ∃ s, Mkfs.mkfs [Mkfs.twoBytes] = .ok s ∧ imageOk s = true := by
  have hok : (Mkfs.mkfs [Mkfs.twoBytes]).toOption.any imageOk = true := by decide +kernel
  cases hr : Mkfs.mkfs [Mkfs.twoBytes] with
  | ok s =>
    rw [hr] at hok
    exact ⟨s, rfl, hok⟩
  | error e =>
    rw [hr] at hok
    nomatch hok

/-- The entries that `mkfs` writes, and zeros up to the end of the block. -/
def rootBytes : List UInt8 :=
  (List.range bsize).map fun o => (Mkfs.rootEntries [Mkfs.twoBytes]).flatten.getD o 0

theorem slots_rootBytes : slots rootBytes = SlotMap.insert (SlotMap.insert (SlotMap.insert
    (List.replicate 64 none) [46] 1) [46, 46] 1) [97] 2 := by
  decide +kernel

theorem distinct_rootBytes : SlotMap.Distinct (slots rootBytes) := by
  have hempty : SlotMap.Distinct (List.replicate 64 (none : Option (List UInt8 × Nat))) := by
    intro n n' k v v' hn
    nomatch eq_of_mem_replicate (mem_of_getElem? hn)
  rw [slots_rootBytes]
  exact ((hempty.insert (by decide) 1).insert (by decide) 1).insert (by decide) 2

theorem mem_rootBytes {name : List UInt8} {e : Nat} (h : some (name, e) ∈ slots rootBytes) :
    name.length < 3 ∧ (e = rootIno ∨ e = 2) := by
  have hall : (slots rootBytes).all (·.all fun p => p.1.length < 3 ∧ (p.2 = rootIno ∨ p.2 = 2)) =
      true := by
    decide +kernel
  simpa using all_eq_true.mp hall _ h

theorem content_root {s : Mkfs.Mk} {f : Nat → List UInt8} (h : Mkfs.Written [Mkfs.twoBytes] s f) :
    content mkfsSuper s.disk rootIno = rootBytes := by
  have hsize : (dinode mkfsSuper s.disk rootIno).size = bsize := by
    refine h.finished.root.2.trans ?_
    rw [h.entries]
    rfl
  rw [content, Inode.bytes, hsize, rootBytes]
  refine map_congr_left fun o ho => ?_
  have hbn : o / bsize < Mkfs.sizes f 1 := by
    rw [div_eq_of_lt (mem_range.mp ho), Mkfs.sizes, h.entries]
    decide
  have hne := (h.finished.img.blocks 1 (o / bsize)).mpr hbn
  have hbyte := h.finished.fileByte_eq hbn
  have href : refs mkfsSuper s.disk (rootIno, slotOf (o / bsize)) =
      (dinode mkfsSuper s.disk rootIno).ref s.disk (slotOf (o / bsize)) :=
    refs_self (by decide) h.finished.root.1 _
  change refs mkfsSuper s.disk (rootIno, slotOf (o / bsize)) ≠ 0 at hne
  change s.disk (refs mkfsSuper s.disk (rootIno, slotOf (o / bsize))) _ = _ at hbyte
  rw [href] at hne hbyte
  rw [Inode.byteAt, Inode.block, if_neg hne, hbyte, h.entries]

/-- **The disk that `mkfs` makes** for one file. -/
theorem filling_mkfs {s : Mkfs.Mk} (hr : Mkfs.mkfs [Mkfs.twoBytes] = .ok s)
    (hok : imageOk s = true) :
    ∃ n f, Filling s.disk (nodes mkfsSuper s.disk) n f 3 := by
  obtain ⟨w, h⟩ := Mkfs.written_mkfs (by decide) hr
  simp only [imageOk, Bool.and_eq_true, all_eq_true, mem_range, Bool.or_eq_true, beq_iff_eq,
    decide_eq_true_eq] at hok
  obtain ⟨⟨hfree, hnlink⟩, hblocks⟩ := hok
  have hfull : Full mkfsSuper s.disk := (h.finished.full_iff h.entries).mpr (by decide)
  have htype : (dinode mkfsSuper s.disk 2).type = tFile := (h.files 0 (by decide)).type
  have hroot : ((dinode mkfsSuper s.disk rootIno).node s.disk).bytes = rootBytes := content_root h
  have halign : direntSize ∣ rootBytes.length := by
    rw [rootBytes, length_map, length_range]
    decide
  refine ⟨(dinode mkfsSuper s.disk rootIno).node s.disk, (dinode mkfsSuper s.disk 2).node s.disk,
    ⟨h.finished.sound, hfull, rfl⟩, nodes_eq_some_iff.mpr ⟨by decide, h.finished.root.1, rfl⟩,
    ⟨h.root.1, hroot ▸ halign⟩, nodes_eq_some_iff.mpr ⟨by decide, by rw [htype]; decide, rfl⟩,
    htype, by rw [Inode.node, hnlink], le_rfl, fun {i n'} hi ht => ?_, fun hm => ?_, ?_, ⟨32, ?_⟩,
    fun {j} _ hj => ?_, ?_, ?_⟩
  · obtain ⟨hlt, h0, rfl⟩ := nodes_eq_some_iff.mp hi
    rcases hfree i hlt with (hi | hi) | hi
    · exact absurd hi h0
    · exact hi
    · subst hi
      change (dinode mkfsSuper s.disk 2).type = tDir at ht
      rw [htype] at ht
      cases ht
  · rw [hroot] at hm
    exact (mem_rootBytes hm).2
  · rw [hroot]
    exact distinct_rootBytes
  · rw [hroot, found, slots_rootBytes]
    decide
  · rw [hroot, found_eq_none_iff, SlotMap.lookup_eq_none_iff]
    intro l v hl
    have hlen := (mem_rootBytes (mem_of_getElem? hl)).1
    rw [cname_nameOf (hj.trans_lt (by decide))] at hlen
    exact absurd hlen (lt_irrefl 3)
  · rw [hroot, slots_rootBytes]
    decide
  · have hsub : Finset.Ico 50 1000 ⊆ freeBlocks mkfsSuper s.disk := by
      intro b hb
      obtain ⟨h50, hlt⟩ := Finset.mem_Ico.mp hb
      refine mem_freeBlocks.mpr ⟨hlt, Bool.eq_false_iff.mpr fun hu => ?_⟩
      have := (h.finished.map b hlt).mp hu
      omega
    have hcard := Finset.card_le_card hsub
    rw [card_Ico] at hcard
    have hmax : 2 * maxfile = 536 := by decide
    omega

/-- **`panic("dirlink")`**: with the disk that `mkfs` makes for one file, `a`, the calls of
`link("a", name)` with other and other names succeed until the root directory has 17152 entries, and
then there is a panic. -/
theorem link_panics : ∃ s₀, Mkfs.mkfs [Mkfs.twoBytes] = .ok s₀ ∧
    (pathCalls mkfsSuper).init ⟨s₀.disk, none⟩ ∧ ∃ s, (pathCalls mkfsSuper).exec ⟨s₀.disk, none⟩
      ((List.range' 3 17150).map fun k => (atRoot, linkCall k)) = some ⟨s, some .dirlink⟩ := by
  obtain ⟨s₀, hr, hok⟩ := exists_imageOk
  obtain ⟨n, f, h⟩ := filling_mkfs hr hok
  refine ⟨s₀, hr, ⟨⟨_, h.rep, ?_⟩, by decide, rfl⟩, h.exec_links (j := 17149) rfl⟩
  refine ⟨h.tree.dirs, fun {i n'} name e hi ht hm => ?_⟩
  obtain rfl := h.only hi ht
  cases h.root.symm.trans hi
  rcases h.entries hm with rfl | rfl <;> decide

end Xv6.Sys
