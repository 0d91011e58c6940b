import Xv6.Fs.Contents
import Xv6.Fs.Truncate

/-!
# The inode layer

`icache` holds copies of inodes: `iget` finds or makes an entry, `ilock` reads the inode into it,
and the system calls then use `writei`, `itrunc` and `iupdate` on the copy.  This module is the
machine of which these calls are the steps, one at a time, in any order in which an inode is only
used once it has been read.  Every transaction of a system call is a sequence of such steps, so its
end is one of the states between them.

`WellFormed` compares the free map with the references, block by block.  By itself it does not say
enough to be kept: it allows a block that two slots refer to, provided its bit is clear, and
metadata that belongs to a file.  `Sound` excludes both, and `block_ownership` says that it holds
after every step.  A hole below the size of a file is a danger of its own, as `readi` fills it with
a block that only the copy in memory refers to; files without holes stay so.
-/

namespace Xv6.Fs

open Bio Code Lts Lts.System Option Function

variable {d : Disk} {inum i : Nat} {ip : Inode} {sb : Superblock} {good : Disk → Prop} {s : FsState}

/-! ## The inode cache -/

/-- `NINODE` -/
def ninode : Nat := 50

/-- An entry of `icache.inode[]`.  The number of references is bounded by the number of open files,
current directories and system calls, so it does not wrap. -/
structure Entry where
  ref : Nat
  valid : Bool
  /-- `inum` and the fields read from disk. -/
  ip : Inode

/-- `icache.inode[]` -/
abbrev Icache := Fin ninode → Entry

/-- The entry of an inode that is in the cache. -/
def Icache.find (c : Icache) (inum : Nat) : Option (Fin ninode) :=
  (List.finRange ninode).find? fun e => decide (0 < (c e).ref ∧ (c e).ip.inum = inum)

/-- The first entry that is not in use. -/
def Icache.empty (c : Icache) : Option (Fin ninode) :=
  (List.finRange ninode).find? fun e => decide ((c e).ref = 0)

theorem Icache.find_some {c : Icache} {e : Fin ninode} (h : c.find inum = some e) :
    0 < (c e).ref ∧ (c e).ip.inum = inum := by
  rw [find] at h
  simpa using List.find?_some h

theorem Icache.find_none {c : Icache} (h : c.find inum = none) (e : Fin ninode) (he : 0 < (c e).ref)
    : (c e).ip.inum ≠ inum := by
  intro hi
  rw [find] at h
  exact List.find?_eq_none.mp h e (List.mem_finRange _) (decide_eq_true ⟨he, hi⟩)

/-- `iget(dev, inum)`; `none` is `panic("iget: no inodes")`. -/
def Icache.iget (c : Icache) (inum : Nat) : Option Icache :=
  match c.find inum with
  | some e => some (update c e { c e with ref := (c e).ref + 1 })
  | none =>
    match c.empty with
    | some e =>
      some (update c e { ref := 1, valid := false, ip := { (c e).ip with inum := inum } })
    | none => none

/-- The state between two calls. -/
structure FsState where
  disk : Disk
  icache : Icache
  /-- The panic the last call ended in; `disk` is then what it was before that call. -/
  halted : Option Panic

/-! ## The steps -/

/-- The calls of the inode layer, as the system calls make them. -/
inductive Op where
  /-- `iget` of an inode that a directory entry names. -/
  | iget (inum : Nat)
  /-- `idup(ip)` -/
  | idup (e : Fin ninode)
  /-- `ilock(ip)` -/
  | ilock (e : Fin ninode)
  /-- `ialloc(dev, type)` -/
  | ialloc (type : Nat)
  /-- `readi`, by a process with memory `m` -/
  | readi (e : Fin ninode) (m : UserMem) (dst : Dst) (off n : Nat)
  /-- `writei`, by a process with memory `m` -/
  | writei (e : Fin ninode) (m : UserMem) (src : Src) (off n : Nat)
  /-- `itrunc(ip)` -/
  | itrunc (e : Fin ninode)
  /-- Stores to `ip->major`, `ip->minor` and `ip->nlink`, and `iupdate(ip)`. -/
  | iupdate (e : Fin ninode) (major minor nlink : Nat)
  /-- `iput(ip)` -/
  | iput (e : Fin ninode)

/-- Stores to the fields of an inode that system calls change directly; they are `short`s. -/
def Inode.setMeta (ip : Inode) (major minor nlink : Nat) : Inode :=
  { ip with major := major % 2 ^ 16, minor := minor % 2 ^ 16, nlink := nlink % 2 ^ 16 }

/-- Run code of `fs.c`, and go on with `f` unless it panics. -/
def FsState.run {α : Type} (s : FsState) (m : UserMem) (c : K Nat α) (f : α → FsState → FsState) :
    FsState :=
  match exec (answer m) c s.disk with
  | .ok (a, d) => f a { s with disk := d }
  | .error p => { s with halted := some p }

/-- Replace an entry of the cache. -/
def FsState.set (s : FsState) (e : Fin ninode) (x : Entry) : FsState :=
  { s with icache := update s.icache e x }

@[simp] theorem FsState.set_self (s : FsState) (e : Fin ninode) (x : Entry) :
    (s.set e x).icache e = x := update_self ..

theorem FsState.set_of_ne (s : FsState) {e e' : Fin ninode} (h : e' ≠ e) (x : Entry) :
    (s.set e x).icache e' = s.icache e' := update_of_ne h ..

/-- Store to the copy of an inode. -/
def FsState.setIp (s : FsState) (e : Fin ninode) (ip : Inode) : FsState :=
  s.set e { s.icache e with ip := ip }

/-- `iget` -/
def FsState.iget (s : FsState) (inum : Nat) : FsState :=
  match s.icache.iget inum with
  | some c => { s with icache := c }
  | none => { s with halted := some .igetNoInodes }

/-- No memory: the calls that do not copy from or to a process. -/
def noMem : UserMem := fun _ => none

/-- The entry holds an inode that has been read: the caller has it locked. -/
def FsState.Locked (s : FsState) (e : Fin ninode) : Prop :=
  0 < (s.icache e).ref ∧ (s.icache e).valid = true

instance (s : FsState) (e : Fin ninode) : Decidable (s.Locked e) :=
  inferInstanceAs (Decidable (_ ∧ _))

/-- One call, run to its end. -/
def FsState.call (sb : Superblock) (s : FsState) : Op → Option FsState
  | .iget inum => if inum < sb.ninodes then some (s.iget inum) else none
  | .idup e =>
    if 0 < (s.icache e).ref then
      some (s.set e { s.icache e with ref := (s.icache e).ref + 1 })
    else none
  | .ilock e =>
    if 0 < (s.icache e).ref then
      if (s.icache e).valid then some s
      else some (s.run noMem (ilockRead sb (s.icache e).ip.inum) fun ip s =>
        s.set e { s.icache e with valid := true, ip := ip })
    else none
  | .ialloc type =>
    if 0 < type ∧ type < 2 ^ 15 then
      some (s.run noMem (Fs.ialloc sb type) fun inum s => s.iget inum)
    else none
  | .readi e m dst off n =>
    if s.Locked e then
      some (s.run m (Fs.readi sb (s.icache e).ip dst off n) fun r s => s.setIp e r.2.2)
    else none
  | .writei e m src off n =>
    if s.Locked e then
      some (s.run m (Fs.writei sb (s.icache e).ip src off n) fun r s => s.setIp e r.2)
    else none
  | .itrunc e =>
    if s.Locked e then
      some (s.run noMem (Fs.itrunc sb (s.icache e).ip) fun ip s => s.setIp e ip)
    else none
  | .iupdate e major minor nlink =>
    if s.Locked e then
      let ip := (s.icache e).ip.setMeta major minor nlink
      some (s.run noMem (Fs.iupdate sb ip) fun _ s => s.setIp e ip)
    else none
  | .iput e =>
    if 0 < (s.icache e).ref then
      if (s.icache e).ref = 1 ∧ (s.icache e).valid = true ∧ (s.icache e).ip.nlink = 0 then
        some (s.run noMem (iputFree sb (s.icache e).ip) fun ip s =>
          s.set e { ref := 0, valid := false, ip := ip })
      else some (s.set e { s.icache e with ref := (s.icache e).ref - 1 })
    else none

/-- The inode layer of a kernel that boots with a disk satisfying `good`: the cache is empty. -/
def inodeLayer (sb : Superblock) (good : Disk → Prop) : System FsState Op where
  init s := good s.disk ∧ (∀ e, (s.icache e).ref = 0) ∧ s.halted = none
  step s op := if s.halted = none then s.call sb op else none

/-! ## Well-formed disks -/

/-- The bit of a block is set if and only if it is metadata or there is exactly one reference to
it. -/
def WellFormed (sb : Superblock) (d : Disk) : Prop :=
  ∀ b, b < sb.size → (used sb d b = true ↔ IsMeta sb b ∨ ∃! x, refs sb d x = b)

/-- Moreover files only have blocks that may belong to a file, and no two slots refer to the same
block. -/
structure Sound (sb : Superblock) (d : Disk) : Prop where
  wf : WellFormed sb d
  data : ∀ x, refs sb d x ≠ 0 → refs sb d x < sb.size ∧ ¬ IsMeta sb (refs sb d x)
  once : ∀ x y, refs sb d x ≠ 0 → refs sb d x = refs sb d y → x = y

theorem Sound.own (h : Sound sb d) : Own sb d (refs sb d) := by
  refine ⟨⟨h.data, h.once, fun b hb => ?_⟩, fun b hb hm => (h.wf b hb).mpr (.inl hm)⟩
  rw [h.wf b hb.1, or_iff_right hb.2]
  refine ⟨fun ⟨x, hx, _⟩ => ⟨x, hx⟩, fun ⟨x, hx⟩ => ⟨x, hx, fun y hy => ?_⟩⟩
  exact h.once y x (by rw [hy]; exact hb.ne_zero) (by rw [hy, hx])

theorem Own.sound (h : Own sb d (refs sb d)) : Sound sb d := by
  refine ⟨fun b hb => ?_, h.owned.managed, h.owned.once⟩
  by_cases hm : IsMeta sb b
  · exact iff_of_true (h.kept b hb hm) (.inl hm)
  · have hd : IsData sb b := ⟨hb, hm⟩
    rw [or_iff_right hm, h.owned.mark b hd]
    refine ⟨fun ⟨x, hx⟩ => ⟨x, hx, fun y hy => ?_⟩, fun ⟨x, hx, _⟩ => ⟨x, hx⟩⟩
    exact h.owned.once y x (by rw [hy]; exact hd.ne_zero) (by rw [hy, hx])

/-! ## What every step keeps -/

/-- The free map agrees with the inodes on disk, and the copies in the cache are those on disk.
With `f` there are no holes either. -/
structure Good (sb : Superblock) (f : Prop) (s : FsState) : Prop where
  own : Own sb s.disk (refs sb s.disk)
  full : f → Full sb s.disk
  inum : ∀ e, 0 < (s.icache e).ref → (s.icache e).ip.inum < sb.ninodes
  unique : ∀ e e', 0 < (s.icache e).ref → 0 < (s.icache e').ref →
    (s.icache e).ip.inum = (s.icache e').ip.inum → e = e'
  cached : ∀ e, s.Locked e → dinode sb s.disk (s.icache e).ip.inum = (s.icache e).ip ∧
    (s.icache e).ip.type ≠ 0
  halted : ∀ p, s.halted = some p → Tolerated p ∨ p = .igetNoInodes

/-- `readi` meets no hole. -/
def NoHole (sb : Superblock) (s : FsState) : Op → Prop
  | .readi e _ _ _ _ => Mapped (refs sb s.disk) (s.icache e).ip.inum (s.icache e).ip.size
  | _ => True

section Steps

variable {sb : Superblock} {f : Prop} {s s' : FsState} {e : Fin ninode} {m : UserMem} {op : Op}

section

variable (h : Good sb f s)

include h

theorem Good.run {α : Type} {c : K Nat α} {R : α → Disk → Prop} (hc : Runs m c s.disk R)
    {g : α → FsState → FsState} (hg : ∀ a d, R a d → Good sb f (g a { s with disk := d })) :
    Good sb f (s.run m c g) := by
  have hx := wp_specOf_iff.mp hc
  rw [FsState.run]
  cases hr : exec (answer m) c s.disk with
  | ok r =>
    rw [hr] at hx
    exact hg r.1 r.2 hx
  | error p =>
    rw [hr] at hx
    exact ⟨h.own, h.full, h.inum, h.unique, h.cached,
      fun q hq => .inl ((some.injEq _ _ ▸ hq : p = q) ▸ hx)⟩

/-- A change to one entry.  It keeps its number or was not in use before. -/
theorem Good.set {x : Entry}
    (hn : 0 < x.ref → x.ip.inum < sb.ninodes ∧
      ∀ e', e' ≠ e → 0 < (s.icache e').ref → (s.icache e').ip.inum ≠ x.ip.inum)
    (hc : 0 < x.ref → x.valid = true → dinode sb s.disk x.ip.inum = x.ip ∧ x.ip.type ≠ 0) :
    Good sb f (s.set e x) := by
  refine ⟨h.own, h.full, fun e1 h1 => ?_, fun e1 e2 h1 h2 h12 => ?_, fun e1 h1 => ?_, h.halted⟩
  · by_cases he1 : e1 = e
    · subst he1
      rw [FsState.set_self] at h1 ⊢
      exact (hn h1).1
    · rw [s.set_of_ne he1] at h1 ⊢
      exact h.inum e1 h1
  · by_cases he1 : e1 = e <;> by_cases he2 : e2 = e
    · rw [he1, he2]
    · subst he1
      rw [FsState.set_self] at h1 h12
      rw [s.set_of_ne he2] at h2 h12
      exact absurd h12.symm ((hn h1).2 e2 he2 h2)
    · subst he2
      rw [FsState.set_self] at h2 h12
      rw [s.set_of_ne he1] at h1 h12
      exact absurd h12 ((hn h2).2 e1 he1 h1)
    · rw [s.set_of_ne he1] at h1 h12
      rw [s.set_of_ne he2] at h2 h12
      exact h.unique e1 e2 h1 h2 h12
  · rw [FsState.Locked] at h1
    by_cases he1 : e1 = e
    · subst he1
      rw [FsState.set_self] at h1 ⊢
      exact hc h1.1 h1.2
    · rw [s.set_of_ne he1] at h1 ⊢
      exact h.cached e1 h1

theorem Good.other (he : 0 < (s.icache e).ref) (e' : Fin ninode) (hne : e' ≠ e)
    (he' : 0 < (s.icache e').ref) : (s.icache e').ip.inum ≠ (s.icache e).ip.inum :=
  fun hi => hne (h.unique e' e he' he hi)

theorem Good.iget (hi : inum < sb.ninodes) : Good sb f (s.iget inum) := by
  rw [FsState.iget, Icache.iget]
  cases hf : s.icache.find inum with
  | some e =>
    have hp := Icache.find_some hf
    exact h.set (fun _ => ⟨h.inum e hp.1, h.other hp.1⟩) fun _ hv => h.cached e ⟨hp.1, hv⟩
  | none =>
    cases he : s.icache.empty with
    | some e =>
      exact h.set (fun _ => ⟨hi, fun e' _ hr => Icache.find_none hf e' hr⟩)
        fun _ hv => absurd hv (by simp)
    | none =>
      exact ⟨h.own, h.full, h.inum, h.unique, h.cached, fun p hp => .inr (by simpa using hp.symm)⟩

/-- A change to the inode `i` on disk, of which the cache does not hold a copy. -/
theorem Good.disk (hs : Settled sb s.disk i d ip) (hi : ∀ e, s.Locked e →
    (s.icache e).ip.inum ≠ i) :
    Good sb f { s with disk := d } := by
  refine ⟨hs.own, fun hf => hs.full (h.full hf), h.inum, h.unique, fun e he => ?_, h.halted⟩
  rw [hs.others _ (h.inum e he.1) (hi e he)]
  exact h.cached e he

/-- A change to an inode on disk and to the entry that holds it. -/
theorem Good.settled (he : 0 < (s.icache e).ref) {x : Entry}
    (hs : Settled sb s.disk (s.icache e).ip.inum d x.ip)
    (hi : 0 < x.ref → x.ip.inum = (s.icache e).ip.inum)
    (ht : 0 < x.ref → x.valid = true → x.ip.type ≠ 0) :
    Good sb f ({ s with disk := d }.set e x) := by
  -- without this entry the change to the disk is not seen in the cache
  set s0 := s.set e { s.icache e with valid := false } with hs0
  have hg0 : Good sb f s0 :=
    h.set (fun _ => ⟨h.inum e he, h.other he⟩) fun _ hv => absurd hv Bool.false_ne_true
  have hne : ∀ e', e' ≠ e → s0.icache e' = s.icache e' := fun e' h' => s.set_of_ne h' _
  have hg1 : Good sb f { s0 with disk := d } := by
    refine hg0.disk hs fun e' he' => ?_
    by_cases hee : e' = e
    · have := he'.2
      rw [hee, hs0, FsState.set_self] at this
      exact absurd this Bool.false_ne_true
    · have hr := he'.1
      rw [hne e' hee] at hr ⊢
      exact h.other he e' hee hr
  have hg2 : Good sb f ({ s0 with disk := d }.set e x) := by
    refine hg1.set (fun hx => ⟨by rw [hi hx]; exact h.inum e he, fun e' he' hr => ?_⟩)
      fun hx hv => ?_
    · change 0 < (s0.icache e').ref at hr
      rw [hne e' he'] at hr ⊢
      rw [hi hx]
      exact h.other he e' he' hr
    · rw [hi hx]
      exact ⟨hs.mine, ht hx hv⟩
  have heq : { s0 with disk := d }.set e x = { s with disk := d }.set e x := by
    rw [FsState.set, FsState.set, hs0, FsState.set]
    rw [update_idem]
  rwa [heq] at hg2

end

theorem Inode.Fits.setMeta (h : ip.Fits) (major minor nlink : Nat) :
    (ip.setMeta major minor nlink).Fits :=
  ⟨h.type, Nat.mod_lt major (by norm_num), Nat.mod_lt minor (by norm_num),
    Nat.mod_lt nlink (by norm_num), h.size, h.addrs⟩

theorem refsWith_setMeta (d : Disk) (ip : Inode) (major minor nlink : Nat) :
    refsWith sb d (ip.setMeta major minor nlink) = refsWith sb d ip := refsWith_fields rfl rfl rfl

/-- `iupdate` after stores to `major`, `minor` and `nlink`. -/
theorem Settled.setMeta (hl : Layout sb) (h : Own sb d (refs sb d)) (hd : dinode sb d ip.inum = ip)
    (hn : ip.inum < sb.ninodes) (ht : ip.type ≠ 0) (major minor nlink : Nat) :
    Settled sb d ip.inum (updated sb d (ip.setMeta major minor nlink))
      (ip.setMeta major minor nlink) := by
  have href : refsWith sb d (ip.setMeta major minor nlink) = refs sb d := by
    rw [refsWith_setMeta, refsWith_dinode hd]
  change Settled sb d (ip.setMeta major minor nlink).inum _ _
  refine .update hl (fun _ _ => rfl) (by rwa [href]) hn
    (Inode.Fits.setMeta (hd ▸ dinode_fits sb d _) ..) (fun hf _ => ?_)
    fun i x _ h0 => by rwa [href] at h0
  rw [href]
  rw [← hd]
  exact hf _ (hd ▸ hn) (hd ▸ ht)

theorem Good.locked (h : Good sb f s) (he : s.Locked e) : (s.icache e).ip.inum < sb.ninodes ∧
    dinode sb s.disk (s.icache e).ip.inum = (s.icache e).ip ∧ (s.icache e).ip.type ≠ 0 :=
  ⟨h.inum e he.1, h.cached e he⟩

/-- **Every call keeps the invariant.** -/
theorem Good.call (hl : Layout sb) (h : Good sb f s) (hop : f ∨ NoHole sb s op)
    (hs : s.call sb op = some s') : Good sb f s' := by
  cases op with
  | iget inum =>
    rw [FsState.call] at hs
    split at hs
    · cases hs; exact h.iget ‹_›
    · cases hs
  | idup e =>
    obtain ⟨he, ⟨⟩⟩ := ite_none_right_eq_some.mp hs
    exact h.set (fun _ => ⟨h.inum e he, h.other he⟩) fun _ hv => h.cached e ⟨he, hv⟩
  | ilock e =>
    rw [FsState.call] at hs
    split at hs
    · rename_i he
      split at hs
      · cases hs; exact h
      · cases hs
        refine h.run (R := fun ip d => d = s.disk ∧ ip.type ≠ 0 ∧
          ip = dinode sb s.disk (s.icache e).ip.inum) ?_ ?_
        · rw [ilockRead, Runs, ends_bread, ends_brelse]
          dsimp only
          split
          · exact .inr (.inr rfl)
          · exact ⟨rfl, ‹_›, rfl⟩
        · rintro ip d ⟨rfl, ht, rfl⟩
          exact h.set (fun _ => ⟨h.inum e he, h.other he⟩) fun _ _ => ⟨rfl, ht⟩
    · cases hs
  | ialloc type =>
    obtain ⟨ht, ⟨⟩⟩ := ite_none_right_eq_some.mp hs
    refine h.run runs_ialloc ?_
    rintro inum d ⟨-, hi, h0, rfl⟩
    refine (h.disk (.ialloc hl h.own hi (by omega) h0) fun e he hi' => ?_).iget hi
    obtain ⟨-, hd, hty⟩ := h.locked he
    rw [← hd, hi', h0] at hty
    exact hty rfl
  | readi e m dst off n =>
    obtain ⟨he, ⟨⟩⟩ := ite_none_right_eq_some.mp hs
    obtain ⟨hn, hd, ht⟩ := h.locked he
    have hmap : Mapped (refs sb s.disk) (s.icache e).ip.inum (s.icache e).ip.size := by
      rcases hop with hf | hm
      · rw [← hd]
        exact h.full hf _ (hd ▸ hn) (hd ▸ ht)
      · exact hm
    have hbusy := Busy.of_own h.own hd hn ht
    refine h.run (reads_readi hbusy (by rwa [HoleFree, refsWith_dinode hd])).runs ?_
    rintro r d ⟨rfl, hip⟩
    rw [hip]
    exact h.set (fun _ => ⟨hn, h.other he.1⟩) fun _ _ => ⟨hd, ht⟩
  | writei e m src off n =>
    obtain ⟨he, ⟨⟩⟩ := ite_none_right_eq_some.mp hs
    obtain ⟨hn, hd, ht⟩ := h.locked he
    refine h.run (runs_writei hl h.own hd hn ht) ?_
    rintro r d ⟨hset, -, hr, -⟩
    exact h.settled he.1 hset (fun _ => by rw [hr]) fun _ _ => by rw [hr]; exact ht
  | itrunc e =>
    obtain ⟨he, ⟨⟩⟩ := ite_none_right_eq_some.mp hs
    obtain ⟨hn, hd, ht⟩ := h.locked he
    refine h.run (runs_itrunc hl h.own hd hn ht) ?_
    rintro ip d ⟨hset, hi, hty, -, -⟩
    exact h.settled he.1 hset (fun _ => hi) fun _ _ => by rw [hty]; exact ht
  | iupdate e major minor nlink =>
    obtain ⟨he, ⟨⟩⟩ := ite_none_right_eq_some.mp hs
    obtain ⟨hn, hd, ht⟩ := h.locked he
    refine h.run (runs_iupdate _) ?_
    rintro - d rfl
    exact h.settled he.1 (.setMeta hl h.own hd hn ht ..) (fun _ => rfl) fun _ _ => ht
  | iput e =>
    rw [FsState.call] at hs
    split at hs
    · rename_i he
      split at hs
      · rename_i hfree
        cases hs
        obtain ⟨hn, hd, ht⟩ := h.locked ⟨he, hfree.2.1⟩
        refine h.run (runs_iputFree hl h.own hd hn ht) ?_
        rintro ip d ⟨hset, -⟩
        exact h.settled he hset (fun hx => absurd hx (Nat.lt_irrefl 0))
          fun hx => absurd hx (Nat.lt_irrefl 0)
      · cases hs
        exact h.set (fun _ => ⟨h.inum e he, h.other he⟩) fun _ hv => h.cached e ⟨he, hv⟩
    · cases hs

/-- The cache of a kernel that has just booted is empty. -/
theorem Good.boot (ho : Own sb s.disk (refs sb s.disk)) (hf : f → Full sb s.disk)
    (he : ∀ e, (s.icache e).ref = 0) (hh : s.halted = none) : Good sb f s := by
  have hn : ∀ e, ¬ 0 < (s.icache e).ref := fun e => by rw [he e]; exact Nat.lt_irrefl 0
  exact ⟨ho, hf, fun e h => absurd h (hn e), fun e _ h => absurd h (hn e),
    fun e h => absurd h.1 (hn e), fun p hp => by rw [hh] at hp; cases hp⟩

theorem Good.step (hl : Layout sb) (h : Good sb f s) (hop : f ∨ NoHole sb s op)
    (hs : (inodeLayer sb good).step s op = some s') : Good sb f s' := by
  simp only [inodeLayer] at hs
  split at hs
  · exact h.call hl hop hs
  · cases hs

end Steps

theorem Good.of_full (hl : Layout sb)
    (h : (inodeLayer sb fun d => Sound sb d ∧ Full sb d).Reach Any s) : Good sb True s := by
  refine h.inv (fun s hs => ?_) fun s op s' hg _ hs => ?_
  · exact .boot hs.1.1.own (fun _ => hs.1.2) hs.2.1 hs.2.2
  · exact hg.step hl (.inl trivial) hs

/-- **Block ownership.**  Between any two calls every block of the image is marked in the free map
if and only if it is metadata or there is exactly one reference to it; references are to blocks that
may belong to a file, and no two are to the same block, so no block is shared, used twice or leaked.
`bfree` never finds the block free.

This is so if no file has a hole when the kernel boots, and in any case as long as `readi` does not
meet one. -/
theorem block_ownership {sb : Superblock} (hl : Layout sb) {s : FsState}
    (h : (inodeLayer sb fun d => Sound sb d ∧ Full sb d).Reach Any s ∨
      (inodeLayer sb (Sound sb)).Reach (NoHole sb) s) :
    Sound sb s.disk ∧ s.halted ≠ some .freeingFreeBlock := by
  have hgood : ∃ f, Good sb f s := by
    rcases h with h | h
    · exact ⟨True, .of_full hl h⟩
    · refine ⟨False, h.inv (fun s hs => ?_) fun s op s' hg hop hs => ?_⟩
      · exact .boot hs.1.own False.elim hs.2.1 hs.2.2
      · exact hg.step hl (.inr hop) hs
  obtain ⟨f, hg⟩ := hgood
  refine ⟨hg.own.sound, fun hp => ?_⟩
  rcases hg.halted _ hp with h | h
  · rcases h with h | h | h <;> cases h
  · cases h

/-! ## Runs -/

/-- The block of the free map in which the 46 blocks of metadata of `mkfs` are marked. -/
def metaMap : Block := fun j => if j.val < 5 then 255 else if j.val = 5 then 63 else 0

/-- A disk without files. -/
def noFiles : Disk := fun b => if b = 45 then metaMap else Block.zero

theorem mkfsSuper_layout : Layout mkfsSuper := ⟨by decide, by decide⟩

theorem dinode_noFiles (hi : i < mkfsSuper.ninodes) : (dinode mkfsSuper noFiles i).type = 0 := by
  have hb : iblock mkfsSuper i ≠ 45 := by
    have hi' : i < 200 := hi
    change i / 16 + 32 ≠ 45
    omega
  rw [dinode, noFiles, if_neg hb]
  exact Block.get_zero ..

theorem refs_noFiles (x : Site) : refs mkfsSuper noFiles x = 0 :=
  if_neg fun h => h.2 (dinode_noFiles h.1)

theorem used_noFiles : ∀ b, b < mkfsSuper.size →
    (used mkfsSuper noFiles b = true ↔ IsMeta mkfsSuper b) := by
  decide +kernel

theorem sound_noFiles : Sound mkfsSuper noFiles := by
  refine ⟨fun b hb => ?_, fun x hx => absurd (refs_noFiles x) hx,
    fun x _ hx => absurd (refs_noFiles x) hx⟩
  rw [used_noFiles b hb]
  refine ⟨.inl, fun h => h.elim id ?_⟩
  rintro ⟨x, hx, -⟩
  rw [refs_noFiles] at hx
  exact .inl hx.symm

theorem full_noFiles : Full mkfsSuper noFiles := fun _ hi ht => absurd (dinode_noFiles hi) ht

/-- A kernel that has just booted with this disk. -/
def booted (d : Disk) : FsState :=
  { disk := d, icache := fun _ => { ref := 0, valid := false, ip := freshInode 0 0 },
    halted := none }

theorem init_booted (h : good d) : (inodeLayer sb good).init (booted d) := ⟨h, fun _ => rfl, rfl⟩

/-- User memory of one page. -/
def onePage : UserMem := fun va => if va = 0 then some fun _ => 1 else none

/-- The first entry of the cache. -/
def entry0 : Fin ninode := ⟨0, by decide⟩

/-- `open` with `O_CREATE`, and a `write` of two blocks of which the second lies beyond the memory
of the process. -/
def createAndFault : List Op :=
  [.ialloc 2, .ilock entry0, .iupdate entry0 0 0 1, .writei entry0 onePage (.user 3072) 0 2048]

/-- The second block has been allocated when the copy fails.  It lies beyond the end of the file,
but the inode on disk refers to it and the free map agrees. -/
theorem block_ownership_fault : ∃ s : FsState,
    (inodeLayer mkfsSuper fun d => Sound mkfsSuper d ∧ Full mkfsSuper d).Reach Any s ∧
    (dinode mkfsSuper s.disk 1).size = 1024 ∧ refs mkfsSuper s.disk (1, .addr 1) = 47 ∧
    Sound mkfsSuper s.disk := by
  obtain ⟨s, hreach, hsize, href⟩ : ∃ s : FsState,
      (inodeLayer mkfsSuper fun d => Sound mkfsSuper d ∧ Full mkfsSuper d).Reach Any s ∧
        (dinode mkfsSuper s.disk 1).size = 1024 ∧ refs mkfsSuper s.disk (1, .addr 1) = 47 :=
    (Reach.init (init_booted ⟨sound_noFiles, full_noFiles⟩)).replay createAndFault
      (by decide +kernel)
  exact ⟨s, hreach, hsize, href, (block_ownership mkfsSuper_layout (.inl hreach)).1⟩

/-- **The inode cache is write-through.**  Between any two calls no inode is cached twice, and a
copy that has been read is equal to the inode on disk, which is allocated. -/
theorem inode_cache {sb : Superblock} (hl : Layout sb)
    (h : (inodeLayer sb fun d => Sound sb d ∧ Full sb d).Reach Any s) :
    (∀ e e', 0 < (s.icache e).ref → 0 < (s.icache e').ref →
      (s.icache e).ip.inum = (s.icache e').ip.inum → e = e') ∧
    ∀ e, s.Locked e → dinode sb s.disk (s.icache e).ip.inum = (s.icache e).ip ∧
    (s.icache e).ip.type ≠ 0 := by
  have hg := Good.of_full hl h
  exact ⟨hg.unique, hg.cached⟩

theorem inode_cache_fault : ∃ s : FsState, (s.icache entry0).ip.size = 1024 ∧
    dinode mkfsSuper s.disk (s.icache entry0).ip.inum = (s.icache entry0).ip := by
  obtain ⟨s, hreach, hsize, he⟩ : ∃ s,
      (inodeLayer mkfsSuper fun d => Sound mkfsSuper d ∧ Full mkfsSuper d).Reach Any s ∧
        (s.icache entry0).ip.size = 1024 ∧ s.Locked entry0 :=
    (Reach.init (init_booted ⟨sound_noFiles, full_noFiles⟩)).replay createAndFault
      (by decide +kernel)
  exact ⟨s, hsize, ((inode_cache mkfsSuper_layout hreach).2 entry0 he).1⟩

/-- A file that has block 46 twice. -/
def twice : Inode :=
  { inum := 1, type := 2, major := 0, minor := 0, nlink := 1, size := 2048,
    addrs i := if i.val < 2 then 46 else 0 }

theorem twice_fits : twice.Fits :=
  ⟨by decide, by decide, by decide, by decide, by decide, by decide⟩

theorem refs_twice (x : Site) : refs mkfsSuper (updated mkfsSuper noFiles twice) x
    = if x = (1, .addr 0) ∨ x = (1, .addr 1) then 46 else 0 := by
  obtain ⟨i, x⟩ := x
  rw [refs, refAt, dinode_updated twice_fits]
  dsimp only
  by_cases hi : i = 1
  · subst hi
    rw [if_pos ⟨by decide, by decide⟩]
    change twice.ref _ x = _
    cases x with
    | addr k =>
      rw [Inode.ref, Inode.addr]
      by_cases hk : k < 2
      · rw [dif_pos (by rw [ndirect]; omega), if_pos (by simp; omega)]
        exact if_pos hk
      · rw [if_neg (by simp; omega)]
        split
        · exact if_neg hk
        · rfl
    | ent j => rw [Inode.ref, if_neg (fun h => h.1 (by decide)), if_neg (by simp)]
  · change ¬ i = twice.inum at hi
    rw [update_of_ne hi, if_neg fun h => h.2 (dinode_noFiles h.1),
      if_neg fun h => h.elim (fun h => hi (congrArg Prod.fst h)) fun h => hi (congrArg Prod.fst h)]

/-- The disk with that file satisfies `WellFormed`: block 46 is not marked, and there is not exactly
one reference to it. -/
theorem wellFormed_twice : WellFormed mkfsSuper (updated mkfsSuper noFiles twice) := by
  intro b hb
  have hne : bblock mkfsSuper b ≠ iblock mkfsSuper twice.inum :=
    (mkfsSuper_layout.iblock_ne_bblock (by decide) hb).symm
  rw [updated, used_update hne, used_noFiles b hb, ← updated]
  refine ⟨.inl, fun h => h.elim id ?_⟩
  rintro ⟨x, hx, huniq⟩
  by_cases h0 : b = 0
  · exact .inl h0
  · have hx' : b = 46 := by
      rw [← hx, refs_twice, if_pos]
      by_contra hn
      rw [refs_twice, if_neg hn] at hx
      exact h0 hx.symm
    have h1 := huniq (1, .addr 0) ((refs_twice _).trans (by rw [if_pos (.inl rfl), hx']))
    have h2 := huniq (1, .addr 1) ((refs_twice _).trans (by rw [if_pos (.inr rfl), hx']))
    rw [← h2] at h1
    cases h1

/-- **Exactly one reference is not enough.**  Truncating that file, as `open` with `O_TRUNC` does,
panics in `bfree`. -/
theorem block_ownership_fails : ∃ s : FsState,
    (inodeLayer mkfsSuper (WellFormed mkfsSuper)).Reach Any s ∧
    s.halted = some .freeingFreeBlock :=
  (Reach.init (init_booted wellFormed_twice)).replay [.iget 1, .ilock entry0, .itrunc entry0]
    (by decide +kernel)

end Xv6.Fs
