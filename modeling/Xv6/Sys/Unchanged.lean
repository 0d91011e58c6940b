import Xv6.Sys.Effects

/-!
# Calls that fail

A call that returns -1 may have changed something by then: `sys_link` has raised a link count,
`sys_open` has allocated a file.  `sys_link` lowers the count again and `sys_open` gives the file
back, and all other calls fail before they change anything.  But `sys_open` with `O_CREATE` does not
take back that it has made a new file, when there is no `struct file` or no descriptor left for it.

The nodes are the same after a call that returns -1, and so is the memory, unless it is this one:
`failed_call_unchanged_iff`.  The state before the call is one between calls (`Ready`): an inode
without links that nobody uses has been freed, so that `namex` frees nothing on its way.  An entry
may name an inode that is not there any more, as `..` does in a directory that has been removed
while in use.  Whether a call panics is not the question here, so that every panic is allowed.
-/

namespace Xv6.Sys

open Bio Code Fs
open Function (update update_self update_of_ne update_idem update_apply update_eq_self
  update_eq_self_iff)

/-- The disk has these nodes, with whole entries for inodes in range, and the inodes that a path can
lead to have a link or are in use, if they are there. -/
structure Ready (sb : Superblock) (s : Disk) (ns : Nat → Option Node) (x : Mem) : Prop where
  rep : Represents sb s ns
  sane : Sane sb ns
  root : rootIno < sb.ninodes
  cwd : x.cwd < sb.ninodes
  kept : ∀ {i j n}, i = rootIno ∨ i = x.cwd → Met ns i j → ns j = some n → n.nlink ≠ 0 ∨
    x.iref j ≠ 0

/-- The code panics, or leaves this behind. -/
abbrev Leaves {α : Type} (m : UserMem) : K Nat α → Disk → (α → Disk → Prop) → Prop :=
  Ends m fun _ => True

/-- The directory of the last element is there, and does not have it. -/
def Absent (ns : Nat → Option Node) (cwd : Nat) (path : List UInt8) : Prop :=
  ∃ d t n, parentOf ns (start cwd path) (elems path) = some (d, t) ∧ ns d = some n ∧
    found n.bytes t = none

section

variable {sb : Superblock} {m : UserMem} {s : Disk} {ns : Nat → Option Node} {x : Mem}
  {i d type : Nat} {n : Node} {path name : List UInt8} {ip : Inode} {α : Type}

theorem Ready.not_orphaned (h : Ready sb s ns x) (path : List UInt8) :
    ¬ Orphaned ns x.iref (start x.cwd path) := by
  rintro ⟨j, n, hj, hn, h0, h0'⟩
  exact (h.kept (start_eq _ path) hj hn).elim (· h0) (· h0')

theorem Ready.ends_nameiparent {f : Option (Nat × List UInt8) → K Nat α} {Q : α → Disk → Prop}
    (hl : Layout sb) (h : Ready sb s ns x) (path : List UInt8)
    (hnone : parentOf ns (start x.cwd path) (elems path) = none → Leaves m (f none) s Q)
    (hsome : ∀ d t n, parentOf ns (start x.cwd path) (elems path) = some (d, t) → ns d = some n →
      n.IsDir → Met ns (start x.cwd path) d → Kept ns x.iref d →
      Leaves m (f (some (d, t))) s Q) :
    Leaves m (nameiparent sb x.iref x.cwd path >>= f) s Q := by
  refine (h.rep.ends_nameiparent hl h.sane (fun _ _ => trivial) path
    (start_lt h.root h.cwd path)).bind ?_
  rintro r s' ⟨hr, hch, -⟩
  obtain rfl := hch.resolve_right (h.not_orphaned path)
  cases r with
  | none => exact hnone hr.symm
  | some p =>
    obtain ⟨-, hf, n, hn, hdir⟩ := parentOf_eq_some hr.symm
    exact hsome p.1 p.2 n hr.symm hn (h.sane.dirs hn hdir) ⟨_, hf⟩
      ⟨n, hn, h.kept (start_eq _ path) ⟨_, hf⟩ hn⟩

/-- `namei` changes nothing, and neither does the `ilock` of what it has found. -/
theorem Ready.ends_namei {f : Option Nat → K Nat α} {Q : α → Disk → Prop} (hl : Layout sb)
    (h : Ready sb s ns x) (path : List UInt8) (hnone : Leaves m (f none) s Q)
    (hsome : ∀ i, i < sb.ninodes → (∀ n, ns i = some n → Kept ns x.iref i) →
      Leaves m (f (some i)) s Q) :
    Leaves m (namei sb x.iref x.cwd path >>= f) s Q := by
  refine (h.rep.ends_namei hl h.sane (fun _ _ => trivial) path (start_lt h.root h.cwd path)).bind ?_
  rintro r s' ⟨hr, hch, -⟩
  obtain rfl := hch.resolve_right (h.not_orphaned path)
  cases r with
  | none => exact hnone
  | some i =>
    exact hsome i (h.sane.lt_of_follow (start_lt h.root h.cwd path) hr.symm) fun n hn =>
      ⟨n, hn, h.kept (start_eq _ path) ⟨_, hr.symm⟩ hn⟩

theorem Ready.kept_found (h : Ready sb s ns x) {e off : Nat} (hmet : Met ns (start x.cwd path) d)
    (hn : ns d = some n) (hd : n.IsDir) (hf : found n.bytes name = some (e, off)) :
    e < sb.ninodes ∧ ∀ n', ns e = some n' → Kept ns x.iref e := by
  have hc : child ns d name = some e := by
    rw [child_of_dir hn hd.type, hf]
    rfl
  exact ⟨h.sane.lt_of_child hc, fun n' hn' =>
    ⟨n', hn', h.kept (start_eq _ path) (hmet.child hc) hn'⟩⟩

/-! ## `sys_link` -/

/-- The tree while `sys_link` holds a file whose link count it has raised. -/
theorem Ready.raise (h : Ready sb s ns x) (hn : ns i = some n) (hdir : n.type ≠ tDir) {s' : Disk}
    (hrep : Represents sb s' (update ns i (some (raised n)))) :
    Ready sb s' (update ns i (some (raised n))) { x with iref := hold x.iref i } := by
  refine ⟨hrep, ⟨fun hj ht => h.sane.dirs (of_update_raised hdir hj ht) ht, fun hj ht hm =>
    h.sane.range (of_update_raised hdir hj ht) ht hm⟩, h.root, h.cwd,
      fun {i0 j n'} hi0 hmet hn' => ?_⟩
  by_cases hji : j = i
  · subst hji
    exact .inr hold_self_ne_zero
  · change _ ∨ hold x.iref i j ≠ 0
    rw [update_of_ne hji] at hn'
    rw [hold, update_of_ne hji]
    obtain ⟨es, hes⟩ := hmet
    have hdir' : (raised n).type ≠ tDir := hdir
    rw [follow_congr (child_update hn hdir hdir')] at hes
    exact h.kept hi0 ⟨es, hes⟩ hn'

/-- The entry is not made: the name is there, or its directory is not. -/
theorem ends_linkInto (hl : Layout sb) (h : Ready sb s ns { x with iref := hold x.iref ip.inum }) :
    Leaves m (linkInto sb x ip path) s fun ok s' => ok = false → Represents sb s' ns := by
  rw [linkInto]
  refine h.ends_nameiparent hl path (fun _ => ends_pure fun _ => h.rep)
    fun d t n hp hn hd hmet hkept => ?_
  refine (h.rep.yields_ilockRead hn).ends_bind ?_
  by_cases ha : found n.bytes t = none
  · refine (h.rep.ends_dirlink hl hn hd ip.inum ha (.inl fun _ _ => trivial)
      fun hno => absurd trivial hno).bind ?_
    rintro _ s1 ⟨rfl, -⟩
    exact (ends_trivial _ _).bind fun _ _ _ => ends_pure nofun
  · refine (h.rep.dirlink_present hn hd m ip.inum ha).ends_bind ?_
    exact (h.rep.yields_iunlockput hkept).ends_bind (ends_pure fun _ => h.rep)

theorem ends_sysLink (hl : Layout sb) (h : Ready sb s ns x) (old new : List UInt8) :
    Leaves m (sysLink sb x old new) s fun r s' => r = -1 → Represents sb s' ns := by
  rw [sysLink]
  refine h.ends_namei hl old (ends_pure fun _ => h.rep) fun i hi hkept => ?_
  refine h.rep.ends_ilockRead hi (fun _ _ => trivial) fun n hn => ?_
  split
  · exact (h.rep.yields_iunlockput (hkept n hn)).ends_bind (ends_pure fun _ => h.rep)
  rename_i hdir
  rw [h.rep.type hn] at hdir
  refine ((runs_incr hl h.rep hn).ends fun _ _ => trivial).bind ?_
  rintro _ s1 ⟨hip, -, h1⟩
  have hinum : (incr (dinode sb s i)).inum = i := rfl
  generalize incr (dinode sb s i) = ip at hip hinum ⊢
  have hready := h.raise hn hdir h1
  rw [← hinum] at hready
  refine (ends_linkInto hl hready).bind ?_
  rintro ok s2 hok
  cases ok with
  | true => exact (ends_trivial _ _).bind fun _ _ _ => ends_pure nofun
  | false =>
    have h2 := hok rfl
    rw [hinum] at h2
    have hn2 : update ns i (some (raised n)) i = some (raised n) := update_self ..
    refine (h2.yields_ilockRead hn2).ends_bind ?_
    refine ((runs_decr hl h2 hn2).ends fun _ _ => trivial).bind ?_
    rintro _ s3 ⟨hip3, -, h3⟩
    -- the count is what it was
    rw [update_idem, lowered_raised (shorts_of_represents h.rep hn).2.2, ← hn,
      update_eq_self] at h3
    rw [← hip3]
    exact (h3.yields_iunlockput (hkept n hn)).ends_bind (ends_pure fun _ => h3)

/-! ## `sys_unlink` -/

/-- Once the entry is being removed, the call succeeds. -/
theorem ends_removeEntry_zero (dp ip : Inode) (off : Nat) (s : Disk) :
    Leaves m (removeEntry sb x dp ip off) s fun r _ => r = 0 := by
  rw [removeEntry]
  refine (ends_trivial _ _).bind fun p s1 _ => ?_
  dsimp only
  split
  · exact ends_panic trivial
  · refine (ends_trivial _ _).bind fun _ _ _ => (ends_trivial _ _).bind fun _ _ _ => ?_
    exact (ends_trivial _ _).bind fun _ _ _ => (ends_trivial _ _).bind fun _ _ _ => ends_pure rfl

theorem ends_sysUnlink (hl : Layout sb) (h : Ready sb s ns x) (path : List UInt8) :
    Leaves m (sysUnlink sb x path) s fun r s' => r = -1 → Represents sb s' ns := by
  rw [sysUnlink]
  refine h.ends_nameiparent hl path (fun _ => ends_pure fun _ => h.rep)
    fun d t n hp hn hd hmet hkept => ?_
  refine (h.rep.yields_ilockRead hn).ends_bind ?_
  split
  · exact (h.rep.yields_iunlockput hkept).ends_bind (ends_pure fun _ => h.rep)
  refine (h.rep.dirlookup hn hd m t).ends_bind ?_
  cases hf : found n.bytes t with
  | none => exact (h.rep.yields_iunlockput hkept).ends_bind (ends_pure fun _ => h.rep)
  | some q =>
    obtain ⟨i, off⟩ := q
    obtain ⟨hi, hkept'⟩ := h.kept_found hmet hn hd hf
    refine h.rep.ends_ilockRead hi (fun _ _ => trivial) fun n' hn' => ?_
    split
    · exact ends_panic trivial
    obtain ⟨b, hb⟩ := exists_removable (m := m) h.rep hn' (h.sane.dirs hn')
    refine hb.ends_bind ?_
    cases b with
    | true =>
      refine (ends_removeEntry_zero _ _ _ _).mono ?_
      rintro _ _ rfl
      exact nofun
    | false =>
      refine (h.rep.yields_iunlockput ((hkept' n' hn').hold d)).ends_bind ?_
      exact (h.rep.yields_iunlockput hkept).ends_bind (ends_pure fun _ => h.rep)

/-! ## `create` -/

theorem absent_iff {cwd d : Nat} (hp : parentOf ns (start cwd path) (elems path) = some (d, name))
    (hn : ns d = some n) : Absent ns cwd path ↔ found n.bytes name = none := by
  constructor
  · rintro ⟨d', t', n', hp', hn', hf⟩
    rw [hp] at hp'
    cases hp'
    rw [hn] at hn'
    cases hn'
    exact hf
  · exact fun hf => ⟨d, name, n, hp, hn, hf⟩

/-- **What `create` does**: it fails and changes nothing, it finds a file, or it makes one. -/
theorem ends_create (hl : Layout sb) (h : Ready sb s ns x) (path : List UInt8) (ht0 : type ≠ 0)
    (ht : type < 2 ^ 16) (major minor : Nat) :
    Leaves m (create sb x path type major minor) s fun r s' => match r with
      | none => ¬ Absent ns x.cwd path ∧ Represents sb s' ns
      | some ip => ∃ i, ip = dinode sb s' i ∧
          (¬ Absent ns x.cwd path ∧ Kept ns x.iref i ∧ Represents sb s' ns ∨
            Absent ns x.cwd path ∧ ns i = none ∧ ∃ ns' n, Represents sb s' ns' ∧ ns' i = some n ∧
              n.type = type ∧ n.nlink = 1) := by
  rw [create]
  refine h.ends_nameiparent hl path (fun hp => ends_pure ⟨?_, h.rep⟩)
    fun d t n hp hn hd hmet hkept => ?_
  · rintro ⟨d, t, n, hp', -⟩
    rw [hp] at hp'
    nomatch hp'
  refine (h.rep.yields_ilockRead hn).ends_bind ?_
  refine (h.rep.dirlookup hn hd m t).ends_bind ?_
  cases hf : found n.bytes t with
  | some q =>
    obtain ⟨i, off⟩ := q
    obtain ⟨hi, hkept'⟩ := h.kept_found hmet hn hd hf
    have hno : ¬ Absent ns x.cwd path := by
      rw [absent_iff hp hn, hf]
      exact nofun
    refine (h.rep.yields_iunlockput (hkept.hold i)).ends_bind ?_
    refine h.rep.ends_ilockRead hi (fun _ _ => trivial) fun n' hn' => ?_
    split
    · exact ends_pure ⟨i, rfl, .inl ⟨hno, hkept' n' hn', h.rep⟩⟩
    · exact (h.rep.yields_iunlockput (hkept' n' hn')).ends_bind (ends_pure ⟨hno, h.rep⟩)
  | none =>
    refine (ends_createNew hl h.rep hn hd hf ht0 ht major minor rfl (fun _ _ => trivial)
      fun hno => absurd trivial hno).bind ?_
    rintro ip s' ⟨i, -, -, hfree, hip, o, h', -⟩
    have hid : i ≠ d := by
      rintro rfl
      simp [hn] at hfree
    refine ends_pure ⟨i, hip, .inr ⟨⟨d, t, n, hp, hn, hf⟩, hfree, _, made type major minor i d, h',
      ?_, ?_, ?_⟩⟩
    · rw [update_of_ne hid, update_self]
    · rw [made]
      split <;> rfl
    · rw [made]
      split <;> rfl

theorem ends_make (hl : Layout sb) (h : Ready sb s ns x) (path : List UInt8) (ht0 : type ≠ 0)
    (ht : type < 2 ^ 16) (major minor : Nat) :
    Leaves m (make sb x path type major minor) s fun r s' => r = -1 → Represents sb s' ns := by
  rw [make]
  refine (ends_create hl h path ht0 ht major minor).bind ?_
  rintro (_ | ip) s1 h1
  · exact ends_pure fun _ => h1.2
  · exact (ends_trivial _ _).bind fun _ _ _ => ends_pure nofun

/-! ## `sys_chdir` -/

theorem ends_sysChdir (hl : Layout sb) (h : Ready sb s ns x) (path : List UInt8) :
    Leaves m (sysChdir sb x path) s fun r s' => r.1 = -1 → r.2 = x ∧ Represents sb s' ns := by
  rw [sysChdir]
  refine h.ends_namei hl path (ends_pure fun _ => ⟨rfl, h.rep⟩) fun i hi hkept => ?_
  refine h.rep.ends_ilockRead hi (fun _ _ => trivial) fun n hn => ?_
  split
  · exact (h.rep.yields_iunlockput (hkept n hn)).ends_bind (ends_pure fun _ => ⟨rfl, h.rep⟩)
  · exact (ends_trivial _ _).bind fun _ _ _ => (ends_trivial _ _).bind fun _ _ _ => ends_pure nofun

/-! ## `sys_open` -/

theorem close_take {f : Ftable.F} (hf : x.filealloc = some f) : (x.take f).close f = x := by
  have href : (x.file f).ref = 0 := by simpa using List.find?_some hf
  have htype := x.free f href
  have hfile : ((x.take f).close f).file = x.file := by
    change update (update x.file f _) f _ = x.file
    rw [update_idem]
    refine update_eq_self_iff.mpr ?_
    change { update x.file f { x.file f with ref := 1 } f with ref := 0, type := .none } = x.file f
    rw [update_self]
    cases hx : x.file f
    rw [hx] at href htype
    cases href
    cases htype
    rfl
  obtain ⟨cwd, ofile, file, iref, free⟩ := x
  rw [Mem.close]
  congr 1

/-- The file is made, but cannot be opened. -/
def Leftover (ns : Nat → Option Node) (x : Mem) : Call → Prop
  | .open (some path) omode => oCreate omode ∧ Absent ns x.cwd path ∧
      (x.filealloc = none ∨ x.fdalloc = none)
  | _ => False

/-- **What `sys_open` leaves** of an inode that it has found or made, when it fails. -/
theorem ends_openFile (h : Represents sb s ns) (hkept : Kept ns x.iref i) (hip : ip = dinode sb s i)
    (omode : Nat) :
    Leaves m (openFile sb x ip omode) s fun r s' => r.1 = -1 →
      r.2 = x ∧ Represents sb s' ns ∧
      (ip.type = tDevice ∨ x.filealloc = none ∨ x.fdalloc = none) := by
  have hput : Yields m (iunlockput sb x.iref ip) s () := by
    rw [hip]
    exact h.yields_iunlockput hkept
  rw [openFile]
  split
  · rename_i hdev
    exact hput.ends_bind (ends_pure fun _ => ⟨rfl, h, .inl hdev.1⟩)
  split
  · rename_i hfile
    exact hput.ends_bind (ends_pure fun _ => ⟨rfl, h, .inr (.inl hfile)⟩)
  · rename_i f hfile
    split
    · rename_i hfd
      exact hput.ends_bind (ends_pure fun _ => ⟨close_take hfile, h, .inr (.inr hfd)⟩)
    · -- a descriptor is not -1
      split
      · exact (ends_trivial _ _).bind fun _ _ _ => ends_pure fun hfd => by simp at hfd
      · exact ends_pure fun hfd => by simp at hfd

theorem ends_openInode (hl : Layout sb) (h : Ready sb s ns x) (path : List UInt8) (omode : Nat) :
    Leaves m (openInode sb x path omode) s fun r s' => match r with
      | none => ¬ (oCreate omode ∧ Absent ns x.cwd path) ∧ Represents sb s' ns
      | some ip => ∃ i, ip = dinode sb s' i ∧
          (¬ (oCreate omode ∧ Absent ns x.cwd path) ∧ Kept ns x.iref i ∧ Represents sb s' ns ∨
            (oCreate omode ∧ Absent ns x.cwd path) ∧ ns i = none ∧ ∃ ns' n, Represents sb s' ns' ∧
              ns' i = some n ∧ n.type = tFile ∧ n.nlink = 1) := by
  rw [openInode]
  split
  · rename_i hc
    simp only [hc, true_and]
    exact ends_create hl h path (by decide) (by decide) 0 0
  · rename_i hc
    have hno : ¬ (oCreate omode ∧ Absent ns x.cwd path) := fun h' => hc h'.1
    refine h.ends_namei hl path (ends_pure ⟨hno, h.rep⟩) fun i hi hkept => ?_
    refine h.rep.ends_ilockRead hi (fun _ _ => trivial) fun n hn => ?_
    split
    · exact (h.rep.yields_iunlockput (hkept n hn)).ends_bind (ends_pure ⟨hno, h.rep⟩)
    · exact ends_pure ⟨i, rfl, .inl ⟨hno, hkept n hn, h.rep⟩⟩

theorem ends_sysOpen (hl : Layout sb) (h : Ready sb s ns x) (path : List UInt8) (omode : Nat) :
    Leaves m (sysOpen sb x path omode) s fun r s' => r.1 = -1 → r.2 = x ∧
      (nodes sb s' = ns ↔ ¬ Leftover ns x (.open (some path) omode)) := by
  rw [sysOpen]
  refine (ends_openInode hl h path omode).bind ?_
  rintro (_ | ip) s1 h1
  · obtain ⟨hno, h1⟩ := h1
    exact ends_pure fun _ => ⟨rfl, iff_of_true h1.eq fun hl => hno ⟨hl.1, hl.2.1⟩⟩
  · obtain ⟨i, hip, ⟨hno, hkept, h1⟩ | ⟨hyes, hfree, ns', n, h1, hn, htype, hlink⟩⟩ := h1
    · refine (ends_openFile h1 hkept hip omode).mono fun r s' hr hneg => ?_
      obtain ⟨hx, h', -⟩ := hr hneg
      exact ⟨hx, iff_of_true h'.eq fun hl => hno ⟨hl.1, hl.2.1⟩⟩
    · have hkept : Kept ns' x.iref i := ⟨n, hn, .inl (by rw [hlink]; decide)⟩
      refine (ends_openFile h1 hkept hip omode).mono fun r s' hr hneg => ?_
      obtain ⟨hx, h', hfull⟩ := hr hneg
      have hdev : ip.type ≠ tDevice := by
        rw [hip, h1.type hn, htype]
        decide
      refine ⟨hx, iff_of_false (fun heq => ?_) fun hno =>
        hno ⟨hyes.1, hyes.2, hfull.resolve_left hdev⟩⟩
      -- the new file is there
      rw [h'.eq] at heq
      simp [heq, hfree] at hn

end

/-! ## All calls -/

/-- **A call that fails changes nothing**, in memory and on disk, if and only if it is not an `open`
that has made a file and then finds no `struct file` or descriptor for it.  For every file system
between calls, every descriptor table and all arguments. -/
theorem failed_call_unchanged_iff {sb : Superblock} (hl : Layout sb) {s : Disk}
    {ns : Nat → Option Node} {x : Mem} (h : Ready sb s ns x) (m : UserMem) (c : Call) {x' : Mem}
    {s' : Disk} (hrun : exec (answer m) (c.run sb x) s = .ok ((-1, x'), s')) :
    x' = x ∧ (nodes sb s' = nodes sb s ↔ ¬ Leftover ns x c) := by
  rw [h.rep.eq]
  have hspec : Leaves m (c.run sb x) s fun r s' =>
      r.1 = -1 → r.2 = x ∧ (nodes sb s' = ns ↔ ¬ Leftover ns x c) := by
    have hleave : ∀ {c : Call} {k : K Nat Int}, ¬ Leftover ns x c →
        Leaves m k s (fun r s' => r = -1 → Represents sb s' ns) →
        Leaves m (leaving x k) s fun r s' =>
          r.1 = -1 → r.2 = x ∧ (nodes sb s' = ns ↔ ¬ Leftover ns x c) := by
      intro c k hno hk
      rw [leaving]
      refine hk.bind fun r s₁ hr => ends_pure fun hneg => ⟨rfl, iff_of_true (hr hneg).eq hno⟩
    have hstay : ∀ {c : Call}, ¬ Leftover ns x c →
        Leaves m (pure (-1, x)) s fun r s' =>
          r.1 = -1 → r.2 = x ∧ (nodes sb s' = ns ↔ ¬ Leftover ns x c) :=
      fun hno => ends_pure fun _ => ⟨rfl, iff_of_true h.rep.eq hno⟩
    match c with
    | .link none none | .link none (some _) | .link (some _) none | .unlink none | .mkdir none
    | .mknod none _ _ | .chdir none | .open none _ => exact hstay id
    | .link (some old) (some new) => exact hleave id (ends_sysLink hl h old new)
    | .unlink (some path) => exact hleave id (ends_sysUnlink hl h path)
    | .mkdir (some path) => exact hleave id (ends_make hl h path (by decide) (by decide) 0 0)
    | .mknod (some path) major minor =>
      exact hleave id (ends_make hl h path (by decide) (by decide) major minor)
    | .chdir (some path) =>
      refine (ends_sysChdir hl h path).mono fun r s₁ hr hneg => ?_
      exact ⟨(hr hneg).1, iff_of_true (hr hneg).2.eq id⟩
    | .open (some path) omode => exact ends_sysOpen hl h path omode
  rw [Leaves, Ends, wp_specOf_iff, hrun] at hspec
  exact hspec rfl

/-- The first file. -/
def file0 : Ftable.F := ⟨0, by decide⟩

/-- A process in the root directory, with a file open under all its descriptors. -/
def allTaken : Mem where
  cwd := rootIno
  ofile _ := some file0
  file f :=
    if f = file0 then ⟨.device, 16, true, true, 2, 0, 1⟩ else ⟨.none, 0, false, false, 0, 0, 0⟩
  iref i := if i = rootIno then 1 else 0
  free := by
    intro f hf
    split at hf
    · nomatch hf
    · rename_i h
      rw [if_neg h]

theorem ready_allTaken : Ready mkfsSuper rootDisk rootNodes allTaken :=
  ⟨represents_rootDisk, sane_rootNodes, by decide, by decide, fun _ _ hn => by
    obtain ⟨-, rfl⟩ := rootNodes_eq_some hn
    exact .inl Nat.one_ne_zero⟩

theorem ready_treeDisk : Ready mkfsSuper treeDisk treeNodes allTaken :=
  ⟨represents_treeDisk, sane_treeNodes, by decide, by decide,
    fun _ _ hn => .inl (treeNodes_eq_some hn).2.1⟩

/-- What a call returns, and the type of inode 2 then. -/
def resultOf (d : Disk) (c : Call) : Option (Int × Nat) :=
  match exec (answer noMem) (c.run mkfsSuper allTaken) d with
  | .ok ((r, _), s) => some (r, (dinode mkfsSuper s 2).type)
  | .error _ => none

theorem exists_of_resultOf {d : Disk} {c : Call} {t : Nat} (h : resultOf d c = some (-1, t)) :
    ∃ x s, exec (answer noMem) (c.run mkfsSuper allTaken) d = .ok ((-1, x), s) ∧
      (dinode mkfsSuper s 2).type = t := by
  rw [resultOf] at h
  split at h
  · rename_i r x s hrun
    cases h
    exact ⟨x, s, hrun, rfl⟩
  · nomatch h

/-- `link("a", "a")` fails as the new name is there, when it has incremented the link count. -/
theorem failed_call_unchanged_link : ∃ x s,
    exec (answer noMem) ((Call.link (some [97]) (some [97])).run mkfsSuper allTaken) treeDisk =
      .ok ((-1, x), s) ∧ x = allTaken ∧ nodes mkfsSuper s = nodes mkfsSuper treeDisk := by
  have hres : resultOf treeDisk (.link (some [97]) (some [97])) = some (-1, tFile) := by
    decide +kernel
  obtain ⟨x, s, hrun, -⟩ := exists_of_resultOf hres
  obtain ⟨hx, hiff⟩ := failed_call_unchanged_iff mkfsSuper_layout ready_treeDisk noMem _ hrun
  exact ⟨x, s, hrun, hx, hiff.mpr id⟩

/-- `open("a", O_CREATE | O_WRONLY)` fails as there is no descriptor left; but it has made the file.
-/
theorem open_fails_and_creates : Ready mkfsSuper rootDisk rootNodes allTaken ∧ ∃ x s,
    exec (answer noMem) ((Call.open (some [97]) 0x201).run mkfsSuper allTaken) rootDisk =
      .ok ((-1, x), s) ∧ nodes mkfsSuper rootDisk 2 = none ∧ nodes mkfsSuper s 2 ≠ none := by
  have hres : resultOf rootDisk (.open (some [97]) 0x201) = some (-1, tFile) := by decide +kernel
  obtain ⟨x, s, hrun, htype⟩ := exists_of_resultOf hres
  refine ⟨ready_allTaken, x, s, hrun, by rw [represents_rootDisk.eq]; rfl, fun hnone => ?_⟩
  rw [(nodes_eq_none_iff (by decide)).mp hnone] at htype
  nomatch htype

end Xv6.Sys
