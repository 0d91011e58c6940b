import Xv6.Sys.Effects

/-!
# Names are entered

`dirlink` panics if `writei` does not write the whole entry, and `create` panics if `dirlink` finds
the name that `dirlookup` has not found.  The second never happens, not even with `.` and `..` of a
new directory.  The first happens when a directory has no empty slot and is as long as a file can
be: with `MAXFILE` blocks, that is 17152 entries, `writei` returns -1.

`pathCalls` makes one call after the other, each of them by some process, whatever is open or in use
then.  No run in which each call finds room for the name that it may enter (`HasRoom`) ends in one
of these panics: `insertion_never_panics`.  What carries over from call to call is that directories
consist of entries for inodes that the disk has (`Sane`).  It does not matter whether the inodes are
there: a call that comes to one that is not panics, but in `ilock`.
-/

namespace Xv6.Sys

open Bio Code Fs Lts Option
open Function (update update_self update_of_ne)

/-! ## The system -/

/-- The disk between two calls. -/
structure State where
  disk : Disk
  /-- The panic the last call ended in; `disk` is then what it was before that call. -/
  halted : Option Panic

/-- There is a file system on the disk. -/
def Clean (sb : Superblock) (s : Disk) : Prop := ∃ ns, Represents sb s ns ∧ Sane sb ns

/-- Calls on path names, one after the other and by any process. -/
def pathCalls (sb : Superblock) : System State (Mem × Call) where
  init s := Clean sb s.disk ∧ rootIno < sb.ninodes ∧ s.halted = none
  step := fun s (x, c) => if s.halted = none ∧ x.cwd < sb.ninodes then
      match exec (answer noMem) (c.run sb x) s.disk with
      | .ok (_, d) => some { disk := d, halted := none }
      | .error e => some { s with halted := some e }
    else none

/-- The panics when a name is entered. -/
def OfInsertion (e : Panic) : Prop := e = .dirlink ∨ e = .createDirlink ∨ e = .createDots

/-- The path that a call may have to enter in a directory. -/
def Call.entered : Call → Option (List UInt8)
  | .link _ new => new
  | .mkdir path => path
  | .mknod path _ _ => path
  | .open path omode => if oCreate omode then path else none
  | .unlink _ => none
  | .chdir _ => none

/-- If the last element is not in its directory, there is an empty slot for it or the directory may
get longer. -/
def Room (ns : Nat → Option Node) (cwd : Nat) (path : List UInt8) : Prop :=
  ∀ d t n, parentOf ns (start cwd path) (elems path) = some (d, t) → ns d = some n →
    found n.bytes t = none → none ∈ slots n.bytes ∨ n.bytes.length + direntSize ≤ maxfile * bsize

/-- The call finds room for the name that it may enter. -/
def HasRoom (sb : Superblock) (s : State) (l : Mem × Call) : Prop :=
  ∀ path, l.2.entered = some path → Room (nodes sb s.disk) l.1.cwd path

/-! ## What is kept -/

section Kept

variable {sb : Superblock} {ns ns' : Nat → Option Node} {i d e : Nat} {n : Node} {path : List UInt8}

section

variable (hd : n.IsDir) (hr : ∀ name e, some (name, e) ∈ slots n.bytes → e < sb.ninodes)

include hd hr

theorem range_linked (hi : i < sb.ninodes) (name : List UInt8) :
    ∀ name' e, some (name', e) ∈ slots (n.linked name i).bytes → e < sb.ninodes := by
  intro name' e hm
  rw [hd.slots_put] at hm
  rcases SlotMap.mem_of_mem_put hm with hm | hm
  · exact hr name' e hm
  · split at hm
    · nomatch hm
    · cases hm
      exact (Nat.mod_le ..).trans_lt hi

theorem range_zeroed {k : Nat} (hk : k < (slots n.bytes).length) :
    ∀ name e, some (name, e) ∈ slots (n.zeroed (k * direntSize)).bytes → e < sb.ninodes := by
  intro name e hm
  rw [hd.slots_zeroed hk.le] at hm
  rcases SlotMap.mem_of_mem_put hm with hm | hm
  · exact hr name e hm
  · nomatch hm

end

theorem Room.pruned {cwd : Nat} (h : Room ns cwd path) (hp : Pruned ns' ns) :
    Room ns' cwd path := by
  intro d t n' hpar hn' hf
  obtain ⟨n, hn, -, hb⟩ := hp d n' hn'
  rw [hb] at hf ⊢
  exact h d t n (parentOf_of_pruned hp hpar) hn hf

end Kept

/-! ## The calls -/

section Calls

variable {sb : Superblock} {m : UserMem} {s : Disk} {ns : Nat → Option Node} {x : Mem} {i d : Nat}
  {n : Node} {path : List UInt8} {ip : Inode}

theorem not_ofInsertion_of_tolerated (e : Panic) (h : Tolerated e) : ¬ OfInsertion e := by
  rcases h with rfl | rfl | rfl <;> rintro (h | h | h) <;> nomatch h

theorem isDir_of_parentOf {ns1 : Nat → Option Node} {t : List UInt8} (hsub : Sub ns1 ns)
    (hs : Sane sb ns) {es : List (List UInt8)} (hp : parentOf ns i es = some (d, t))
    (hd : ∃ n, ns1 d = some n) : ∃ n, ns1 d = some n ∧ n.IsDir := by
  obtain ⟨n, hn⟩ := hd
  obtain ⟨-, -, n', hn', ht⟩ := parentOf_eq_some hp
  obtain rfl : n = n' := some.inj ((hsub d n hn).symm.trans hn')
  exact ⟨n, hn, hs.dirs hn' ht⟩

theorem exists_of_found {bytes name : List UInt8} {off : Nat}
    (h : found bytes name = some (i, off)) :
    ∃ k, k < (slots bytes).length ∧ off = k * direntSize := by
  obtain ⟨⟨v, k⟩, hl, he⟩ := map_eq_some_iff.mp h
  cases he
  exact ⟨k, SlotMap.lt_length_of_lookup hl, rfl⟩

/-- A call drops its last reference to an inode and returns. -/
theorem clean_put (hl : Layout sb) (h : Represents sb s ns) (hs : Sane sb ns) (hn : ns i = some n)
    (others : Nat → Nat) (hip : dinode sb s i = ip) {α : Type} {r : α} :
    Ends m (¬ OfInsertion ·) (do iunlockput sb others ip; pure r) s fun _ s' => Clean sb s' := by
  refine (ends_put hl h hn others hip not_ofInsertion_of_tolerated).bind ?_
  rintro _ s' ⟨ns', h', -⟩
  exact ends_pure ⟨ns', h'.rep, hs.pruned (.of_sub h'.sub)⟩

theorem clean_openFile (hl : Layout sb) (h : Represents sb s ns) (hs : Sane sb ns)
    (hn : ns i = some n) (hip : dinode sb s i = ip) (omode : Nat) :
    Ends m (¬ OfInsertion ·) (openFile sb x ip omode) s fun _ s' => Clean sb s' := by
  rw [openFile]
  split
  · exact clean_put hl h hs hn x.iref hip
  split
  · exact clean_put hl h hs hn x.iref hip
  split
  · exact clean_put hl h hs hn x.iref hip
  split
  · rename_i htrunc
    refine ((runs_itrunc_node hl h hn hip).ends not_ofInsertion_of_tolerated).bind ?_
    rintro ip' s' ⟨-, -, h'⟩
    refine ends_pure ⟨_, h', hs.set fun hdir => absurd ?_ (show tFile ≠ tDir by decide)⟩
    rw [← htrunc.2, ← hip, h.type hn]
    exact hdir
  · exact ends_pure ⟨ns, h, hs⟩

theorem sane_made (hs : Sane sb ns) (hi : i < sb.ninodes) (hd : d < sb.ninodes)
    (type major minor : Nat) : Sane sb (update ns i (some (made type major minor i d))) := by
  refine hs.set fun ht => ?_
  have htype : type = tDir := by
    rw [made] at ht
    split at ht
    · assumption
    · exact ht
  rw [made, if_pos htype]
  have hdir : (⟨type, major % 2 ^ 16, minor % 2 ^ 16, 1, []⟩ : Node).IsDir :=
    ⟨htype, Nat.dvd_zero _⟩
  have hempty : slots (⟨type, major % 2 ^ 16, minor % 2 ^ 16, 1, []⟩ : Node).bytes = [] :=
    List.length_eq_zero_iff.mp (length_slots [])
  generalize (⟨type, major % 2 ^ 16, minor % 2 ^ 16, 1, []⟩ : Node) = n at hdir hempty ⊢
  have hdot : ∀ name e, some (name, e) ∈ slots (n.linked [46] i).bytes → e < sb.ninodes :=
    range_linked hdir (fun _ _ hm => by rw [hempty] at hm; cases hm) hi [46]
  exact ⟨(hdir.linked ..).linked .., range_linked (hdir.linked ..) hdot hd [46, 46]⟩

theorem sane_parentWith (hs : Sane sb ns) (hn : ns d = some n) (hd : n.IsDir) (hi : i < sb.ninodes)
    (type : Nat) (name : List UInt8) :
    Sane sb (update ns d (some (parentWith type n name i))) := by
  refine hs.set fun _ => ?_
  have hr : ∀ name e, some (name, e) ∈ slots n.bytes → e < sb.ninodes := fun _ _ =>
    hs.range hn hd.type
  rw [parentWith]
  split
  · have hd' : (raised n).IsDir := ⟨hd.type, hd.aligned⟩
    exact ⟨hd'.linked .., range_linked hd' hr hi name⟩
  · exact ⟨hd.linked .., range_linked hd hr hi name⟩

section

variable (hl : Layout sb) (h : Represents sb s ns) (hs : Sane sb ns) (hroot : rootIno < sb.ninodes)
  (hcwd : x.cwd < sb.ninodes) {type : Nat}

include hl h hs hroot hcwd

/-- The entry that `sys_link` makes; the inode it is for stays locked in memory. -/
theorem clean_linkInto (hn : ns i = some n) (hdir : n.type ≠ tDir) (hroom : Room ns x.cwd path)
    (hip : dinode sb s i = ip) :
    Ends m (¬ OfInsertion ·) (linkInto sb x ip path) s fun _ s' => dinode sb s' i = ip ∧
      ∃ ns', Represents sb s' ns' ∧ Sane sb ns' ∧ ns' i = some n := by
  have hi := h.lt hn
  have hinum : ip.inum = i := by rw [← hip]; rfl
  have hE := not_ofInsertion_of_tolerated
  rw [linkInto, hinum]
  refine (h.ends_nameiparent hl hs hE path (start_lt hroot hcwd path)).bind ?_
  rintro r s1 ⟨hr, -, ns1, h1, hpar⟩
  obtain ⟨hn1, hip1⟩ := h1.used i hi hold_self_ne_zero
  rw [hn] at hn1
  rw [hip] at hip1
  have hs1 := hs.pruned (.of_sub h1.sub)
  cases r with
  | none => exact ends_pure ⟨hip1, ns1, h1.rep, hs1, hn1⟩
  | some p =>
    obtain ⟨d, t⟩ := p
    obtain ⟨nd, hnd1, hd⟩ := isDir_of_parentOf h1.sub hs hr.symm (hpar _ rfl)
    have hnd := h1.sub d nd hnd1
    have hid : i ≠ d := by
      rintro rfl
      rw [hn] at hnd
      cases hnd
      exact hdir hd.type
    refine (h1.rep.yields_ilockRead hnd1).ends_bind ?_
    by_cases ha : found nd.bytes t = none
    · refine (h1.rep.ends_dirlink hl hnd1 hd i ha (.inl hE) fun _ =>
        hroom d t nd hr.symm hnd ha).bind ?_
      rintro _ s2 ⟨rfl, hk2, h2⟩
      have hs2 : Sane sb (update ns1 d (some (nd.linked t i))) :=
        hs1.set fun _ => ⟨hd.linked .., range_linked hd (fun _ _ => hs.range hnd hd.type) hi t⟩
      refine (ends_put hl h2 (update_self ..) (hold x.iref i) rfl hE).bind ?_
      rintro _ s3 ⟨ns3, h3, hk3⟩
      obtain ⟨hn3, hip3⟩ := hk3 i hi hid
      rw [update_of_ne hid, hn1] at hn3
      exact ends_pure ⟨by rw [hip3, hk2 i hi hid, hip1], ns3, h3.rep,
        hs2.pruned (.of_sub h3.sub), hn3⟩
    · refine (h1.rep.dirlink_present hnd1 hd m i ha).ends_bind ?_
      refine (ends_put hl h1.rep hnd1 (hold x.iref i) rfl hE).bind ?_
      rintro _ s3 ⟨ns3, h3, hk3⟩
      obtain ⟨hn3, hip3⟩ := hk3 i hi hid
      exact ends_pure ⟨by rw [hip3, hip1], ns3, h3.rep,
        hs1.pruned (.of_sub h3.sub), by rw [hn3, hn1]⟩

theorem clean_sysLink (old : List UInt8) {new : List UInt8} (hroom : Room ns x.cwd new) :
    Ends m (¬ OfInsertion ·) (sysLink sb x old new) s fun _ s' => Clean sb s' := by
  have hE := not_ofInsertion_of_tolerated
  rw [sysLink]
  refine (h.ends_namei hl hs hE old (start_lt hroot hcwd old)).bind ?_
  rintro r s1 ⟨hr, -, ns1, h1⟩
  have hs1 := hs.pruned (.of_sub h1.sub)
  cases r with
  | none => exact ends_pure ⟨ns1, h1.rep, hs1⟩
  | some i =>
    have hi := hs.lt_of_follow (start_lt hroot hcwd old) hr.symm
    refine h1.rep.ends_ilockRead hi hE fun n hn => ?_
    rw [h1.rep.type hn]
    split
    · exact clean_put hl h1.rep hs1 hn x.iref rfl
    rename_i hdir
    refine ((runs_incr hl h1.rep hn).ends hE).bind ?_
    rintro _ s2 ⟨hip2, -, h2⟩
    have hset : Pruned (update ns1 i (some (raised n))) ns1 := .set hn rfl rfl
    have hs2 := hs1.pruned hset
    have hdir2 : (raised n).type ≠ tDir := hdir
    generalize incr (dinode sb s1 i) = ip at hip2 ⊢
    refine (clean_linkInto hl h2 hs2 hroot hcwd (update_self ..) hdir2
      (hroom.pruned (hset.trans (.of_sub h1.sub))) hip2).bind ?_
    rintro ok s3 ⟨hip3, ns3, h3, hs3, hn3⟩
    cases ok with
    | true => exact clean_put hl h3 hs3 hn3 x.iref hip3
    | false =>
      refine (h3.yields_ilockRead hn3).ends_bind ?_
      refine ((runs_decr hl h3 hn3).ends hE).bind ?_
      rintro _ s4 ⟨hip4, -, h4⟩
      have hset4 : Pruned (update ns3 i (some (lowered (raised n)))) ns3 :=
        .set hn3 (by rw [lowered]) (by rw [lowered])
      exact clean_put hl h4 (hs3.pruned hset4) (update_self ..) x.iref hip4

theorem clean_sysUnlink (path : List UInt8) :
    Ends m (¬ OfInsertion ·) (sysUnlink sb x path) s fun _ s' => Clean sb s' := by
  have hE := not_ofInsertion_of_tolerated
  rw [sysUnlink]
  refine (h.ends_nameiparent hl hs hE path (start_lt hroot hcwd path)).bind ?_
  rintro r s1 ⟨hr, -, ns1, h1, hpar⟩
  have hs1 := hs.pruned (.of_sub h1.sub)
  cases r with
  | none => exact ends_pure ⟨ns1, h1.rep, hs1⟩
  | some p =>
    obtain ⟨d, t⟩ := p
    obtain ⟨n, hn, hd⟩ := isDir_of_parentOf h1.sub hs hr.symm (hpar _ rfl)
    refine (h1.rep.yields_ilockRead hn).ends_bind ?_
    split
    · exact clean_put hl h1.rep hs1 hn x.iref rfl
    refine (h1.rep.dirlookup hn hd m t).ends_bind ?_
    cases hf : found n.bytes t with
    | none => exact clean_put hl h1.rep hs1 hn x.iref rfl
    | some q =>
      obtain ⟨i, off⟩ := q
      obtain ⟨k, hk, hoff⟩ := exists_of_found hf
      subst hoff
      have hi : i < sb.ninodes := hs1.range hn hd.type (mem_slots_of_found hf)
      refine h1.rep.ends_ilockRead hi hE fun n' hn' => ?_
      split
      · exact ends_panic (by rintro (h | h | h) <;> nomatch h)
      obtain ⟨b, hb⟩ := exists_removable (m := m) h1.rep hn' (hs1.dirs hn')
      refine hb.ends_bind ?_
      cases b with
      | true =>
        refine (ends_removeEntry hl h1.rep hn hd hk hn' x hE).mono ?_
        rintro _ s2 ⟨-, ns2, h2, hp2⟩
        refine ⟨ns2, h2, Sane.pruned (hs1.set fun _ => ⟨hd.zeroed hk, ?_⟩) hp2⟩
        exact range_zeroed hd (fun _ _ => hs1.range hn hd.type) hk
      | false =>
        refine (ends_put hl h1.rep hn' (hold x.iref d) rfl hE).bind ?_
        rintro _ s2 ⟨ns2, h2, -⟩
        obtain ⟨hn2, hdp2⟩ := h2.used d (h1.rep.lt hn) hold_self_ne_zero
        rw [hn] at hn2
        exact clean_put hl h2.rep (hs1.pruned (.of_sub h2.sub)) hn2 x.iref hdp2

theorem clean_create (hroom : Room ns x.cwd path) (ht0 : type ≠ 0) (ht : type < 2 ^ 16)
    (major minor : Nat) :
    Ends m (¬ OfInsertion ·) (create sb x path type major minor) s fun r s' => ∃ ns',
      Represents sb s' ns' ∧ Sane sb ns' ∧
        ∀ ip, r = some ip → ∃ i n, dinode sb s' i = ip ∧ ns' i = some n := by
  have hE := not_ofInsertion_of_tolerated
  rw [create]
  refine (h.ends_nameiparent hl hs hE path (start_lt hroot hcwd path)).bind ?_
  rintro r s1 ⟨hr, -, ns1, h1, hpar⟩
  have hs1 := hs.pruned (.of_sub h1.sub)
  cases r with
  | none => exact ends_pure ⟨ns1, h1.rep, hs1, nofun⟩
  | some p =>
    obtain ⟨d, t⟩ := p
    obtain ⟨n, hn, hd⟩ := isDir_of_parentOf h1.sub hs hr.symm (hpar _ rfl)
    refine (h1.rep.yields_ilockRead hn).ends_bind ?_
    refine (h1.rep.dirlookup hn hd m t).ends_bind ?_
    cases hf : found n.bytes t with
    | some q =>
      obtain ⟨i, off⟩ := q
      have hi : i < sb.ninodes := hs1.range hn hd.type (mem_slots_of_found hf)
      refine (ends_put hl h1.rep hn (hold x.iref i) rfl hE).bind ?_
      rintro _ s2 ⟨ns2, h2, -⟩
      have hs2 := hs1.pruned (.of_sub h2.sub)
      refine h2.rep.ends_ilockRead hi hE fun n' hn' => ?_
      split
      · refine ends_pure ⟨ns2, h2.rep, hs2, fun ip hip => ⟨i, n', ?_, hn'⟩⟩
        exact some.inj hip
      · refine (ends_put hl h2.rep hn' x.iref rfl hE).bind ?_
        rintro _ s3 ⟨ns3, h3, -⟩
        exact ends_pure ⟨ns3, h3.rep, hs2.pruned (.of_sub h3.sub), nofun⟩
    | none =>
      have hfit := hroom d t n hr.symm (h1.sub d n hn) hf
      refine (ends_createNew hl h1.rep hn hd hf ht0 ht major minor rfl hE fun _ => hfit).bind ?_
      rintro ip s2 ⟨i, -, hi, hfree, hip, o, h2, ho⟩
      have hid : i ≠ d := by
        rintro rfl
        simp [hn] at hfree
      refine ends_pure ⟨_, h2, ?_, fun ip' hip' => ⟨i, made type major minor i d, ?_, ?_⟩⟩
      · have hsm := sane_made hs1 hi (h1.rep.lt hn) type major minor
        have hnd : update ns1 i (some (made type major minor i d)) d = some n := by
          rw [update_of_ne hid.symm, hn]
        rcases ho with rfl | rfl
        · exact sane_parentWith hsm hnd hd hi type t
        · exact hsm.pruned (.of_sub (.erase _ d))
      · cases hip'
        exact hip.symm
      · rw [update_of_ne hid, update_self]

theorem clean_make (hroom : Room ns x.cwd path) (ht0 : type ≠ 0) (ht : type < 2 ^ 16)
    (major minor : Nat) :
    Ends m (¬ OfInsertion ·) (make sb x path type major minor) s fun _ s' => Clean sb s' := by
  rw [make]
  refine (clean_create hl h hs hroot hcwd hroom ht0 ht major minor).bind ?_
  rintro (_ | ip) s1 ⟨ns1, h1, hs1, hip⟩
  · exact ends_pure ⟨ns1, h1, hs1⟩
  · obtain ⟨i, n, hip, hn⟩ := hip ip rfl
    exact clean_put hl h1 hs1 hn x.iref hip

theorem clean_sysOpen {omode : Nat} (hroom : oCreate omode → Room ns x.cwd path) :
    Ends m (¬ OfInsertion ·) (sysOpen sb x path omode) s fun _ s' => Clean sb s' := by
  have hE := not_ofInsertion_of_tolerated
  have hopen : Ends m (¬ OfInsertion ·) (openInode sb x path omode) s fun r s' => ∃ ns',
      Represents sb s' ns' ∧ Sane sb ns' ∧
        ∀ ip, r = some ip → ∃ i n, dinode sb s' i = ip ∧ ns' i = some n := by
    rw [openInode]
    split
    · exact clean_create hl h hs hroot hcwd (hroom ‹_›) (by decide) (by decide) 0 0
    refine (h.ends_namei hl hs hE path (start_lt hroot hcwd path)).bind ?_
    rintro r s1 ⟨hr, -, ns1, h1⟩
    have hs1 := hs.pruned (.of_sub h1.sub)
    cases r with
    | none => exact ends_pure ⟨ns1, h1.rep, hs1, nofun⟩
    | some i =>
      have hi := hs.lt_of_follow (start_lt hroot hcwd path) hr.symm
      refine h1.rep.ends_ilockRead hi hE fun n hn => ?_
      split
      · refine (ends_put hl h1.rep hn x.iref rfl hE).bind ?_
        rintro _ s2 ⟨ns2, h2, -⟩
        exact ends_pure ⟨ns2, h2.rep, hs1.pruned (.of_sub h2.sub), nofun⟩
      · exact ends_pure ⟨ns1, h1.rep, hs1, fun ip hip => ⟨i, n, some.inj hip, hn⟩⟩
  rw [sysOpen]
  refine hopen.bind ?_
  rintro (_ | ip) s1 ⟨ns1, h1, hs1, hip⟩
  · exact ends_pure ⟨ns1, h1, hs1⟩
  · obtain ⟨i, n, hip, hn⟩ := hip ip rfl
    exact clean_openFile hl h1 hs1 hn hip omode

theorem clean_sysChdir (path : List UInt8) :
    Ends m (¬ OfInsertion ·) (sysChdir sb x path) s fun _ s' => Clean sb s' := by
  have hE := not_ofInsertion_of_tolerated
  rw [sysChdir]
  refine (h.ends_namei hl hs hE path (start_lt hroot hcwd path)).bind ?_
  rintro r s1 ⟨hr, -, ns1, h1⟩
  have hs1 := hs.pruned (.of_sub h1.sub)
  cases r with
  | none => exact ends_pure ⟨ns1, h1.rep, hs1⟩
  | some i =>
    have hi := hs.lt_of_follow (start_lt hroot hcwd path) hr.symm
    refine h1.rep.ends_ilockRead hi hE fun n hn => ?_
    split
    · exact clean_put hl h1.rep hs1 hn x.iref rfl
    refine h1.rep.ends_ilockRead hcwd hE fun n' hn' => ?_
    rw [iput]
    exact clean_put hl h1.rep hs1 hn' _ rfl

/-- **One call**, by whatever process. -/
theorem clean_call (c : Call) (hroom : ∀ path, c.entered = some path → Room ns x.cwd path) :
    Ends m (¬ OfInsertion ·) (c.run sb x) s fun _ s' => Clean sb s' := by
  have hstay : Ends m (¬ OfInsertion ·) (pure ((-1 : Int), x)) s fun _ s' => Clean sb s' :=
    ends_pure ⟨ns, h, hs⟩
  have hleave : ∀ {k : K Nat Int}, Ends m (¬ OfInsertion ·) k s (fun _ s' => Clean sb s') →
      Ends m (¬ OfInsertion ·) (leaving x k) s fun _ s' => Clean sb s' :=
    fun hk => hk.bind fun _ _ hc => ends_pure hc
  match c with
  | .link none none | .link none (some _) | .link (some _) none | .unlink none | .mkdir none
  | .mknod none _ _ | .chdir none | .open none _ => exact hstay
  | .link (some old) (some new) =>
    exact hleave (clean_sysLink hl h hs hroot hcwd old (hroom new rfl))
  | .unlink (some path) => exact hleave (clean_sysUnlink hl h hs hroot hcwd path)
  | .mkdir (some path) =>
    exact hleave (clean_make hl h hs hroot hcwd (hroom path rfl) (by decide) (by decide) 0 0)
  | .mknod (some path) major minor =>
    exact hleave (clean_make hl h hs hroot hcwd (hroom path rfl) (by decide)
      (by decide) major minor)
  | .chdir (some path) => exact clean_sysChdir hl h hs hroot hcwd path
  | .open (some path) omode =>
    exact clean_sysOpen hl h hs hroot hcwd fun hc => hroom path (if_pos hc)

end

end Calls

/-- **No name is entered in vain.**  In every run of calls, from every file system and by whatever
processes, all of which find room for the name that they may have to enter, there is no
`panic("dirlink")`, no `panic("create: dirlink")` and no `panic("create dots")`. -/
theorem insertion_never_panics {sb : Superblock} (hl : Layout sb) {s : State}
    (h : (pathCalls sb).Reach (HasRoom sb) s) :
    s.halted ≠ some .dirlink ∧ s.halted ≠ some .createDirlink ∧ s.halted ≠ some .createDots := by
  have hinv : Clean sb s.disk ∧ rootIno < sb.ninodes ∧ ∀ e, s.halted = some e →
      ¬ OfInsertion e := by
    refine h.inv (I := fun s => Clean sb s.disk ∧ rootIno < sb.ninodes ∧
      ∀ e, s.halted = some e → ¬ OfInsertion e) ?_ ?_
    · rintro s ⟨hc, hroot, h0⟩
      refine ⟨hc, hroot, fun e he => ?_⟩
      simp [h0] at he
    · rintro s ⟨x, c⟩ s' ⟨⟨ns, hrep, hs⟩, hroot, -⟩ hroom hstep
      rw [HasRoom, hrep.eq] at hroom
      change (if s.halted = none ∧ x.cwd < sb.ninodes then _ else _) = some s' at hstep
      split at hstep
      · rename_i hcall
        have hends := clean_call (m := noMem) hl hrep hs hroot hcall.2 c hroom
        rw [Ends, wp_specOf_iff] at hends
        split at hstep
        · rename_i heq
          rw [heq] at hends
          cases hstep
          exact ⟨hends, hroot, by simp⟩
        · rename_i e heq
          rw [heq] at hends
          cases hstep
          refine ⟨⟨ns, hrep, hs⟩, hroot, fun e' he' => ?_⟩
          cases he'
          exact hends
      · cases hstep
  exact ⟨fun he => hinv.2.2 _ he (.inl rfl), fun he => hinv.2.2 _ he (.inr (.inl rfl)),
    fun he => hinv.2.2 _ he (.inr (.inr rfl))⟩

/-- A process in the root directory that has nothing open. -/
def atRoot : Mem where
  cwd := rootIno
  ofile _ := none
  file _ := ⟨.none, 0, false, false, 0, 0, 0⟩
  iref i := if i = rootIno then 1 else 0
  free _ _ := rfl

/-- The type of inode 2 after `mkdir("a")`, if it returns. -/
def madeType : Option Nat :=
  match exec (answer noMem) ((Call.mkdir (some [97])).run mkfsSuper atRoot) rootDisk with
  | .ok (_, s) => some (dinode mkfsSuper s 2).type
  | .error _ => none

/-- `mkdir("a")` in an empty root directory. -/
theorem insertion_never_panics_mkdir : ∃ s, (pathCalls mkfsSuper).Reach (HasRoom mkfsSuper) s ∧
    (dinode mkfsSuper s.disk 2).type = tDir ∧ s.halted ≠ some .dirlink := by
  have hmade : madeType = some tDir := by decide +kernel
  have hinit : (pathCalls mkfsSuper).init ⟨rootDisk, none⟩ :=
    ⟨⟨rootNodes, represents_rootDisk, sane_rootNodes⟩, by decide, rfl⟩
  have hroom : HasRoom mkfsSuper ⟨rootDisk, none⟩ (atRoot, .mkdir (some [97])) := by
    rintro path - d t n - hn -
    rw [represents_rootDisk.eq] at hn
    obtain ⟨-, rfl⟩ := rootNodes_eq_some hn
    exact .inr (by decide)
  rw [madeType] at hmade
  split at hmade
  · rename_i r s heq
    have hreach : (pathCalls mkfsSuper).Reach (HasRoom mkfsSuper) ⟨s, none⟩ := by
      refine (System.Reach.init hinit).step hroom ?_
      change (match exec (answer noMem) ((Call.mkdir (some [97])).run mkfsSuper atRoot)
        rootDisk with
        | .ok (_, d) => some (⟨d, none⟩ : State)
        | .error e => some ⟨rootDisk, some e⟩) = _
      rw [heq]
    exact ⟨⟨s, none⟩, hreach, some.inj hmade,
      (insertion_never_panics mkfsSuper_layout hreach).1⟩
  · nomatch hmade

end Xv6.Sys
