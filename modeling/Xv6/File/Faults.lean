import Xv6.File.Shared
import Xv6.Fs.Transfer

/-!
# What `write` reports when the memory of the caller is not all there

`writei` stops when a copy from user memory fails, but returns the length it was asked for.
`filewrite` believes it: the offset moves on and the caller is told that everything has been
written.

`copied` counts the bytes that have arrived in buffers that are then logged.  The loop of `writei`
keeps that number in `off` (`copied_writeiLoop`), so it is exact that the copy of a piece has not
failed if and only if all of it has arrived.  `write_reports_iff` says for which calls the report is
right: those for which the memory is there, as far as the call gets.
-/

namespace Xv6.File

open Bio Code Fs Monitor List Option Nat

/-! ## Copying from user memory -/

/-- The byte at a user address is there. -/
def Readable (m : UserMem) (va : Nat) : Prop := (userByte m (va % 2 ^ 64)).isSome

instance (m : UserMem) (va : Nat) : Decidable (Readable m va) :=
  inferInstanceAs (Decidable (_ = true))

theorem readable_of_copyinLoop (m : UserMem) (rounds : Nat) : ∀ {va len : Nat}, va < 2 ^ 64 →
    (copyinLoop m rounds va len).2 = true → ∀ j < len, Readable m (va + j) := by
  induction rounds with
  | zero =>
    intro va len _ h j hj
    simp [of_decide_eq_true (p := len = 0) h] at hj
  | succ rounds ih =>
    intro va len hva h j hj
    rw [copyinLoop, if_neg (by omega)] at h
    dsimp only at h
    have hmod : va % pgSize < pgSize := mod_lt _ (by decide)
    have hle : va % pgSize ≤ va := mod_le ..
    split at h
    · cases h
    · rename_i page hpage
      dsimp only at h
      rw [Nat.sub_sub_self hle] at h
      by_cases hin : j < pgSize - va % pgSize
      · -- a byte of the first page
        have hm : (va + j) % 2 ^ 64 = va + j := by
          rw [pgSize] at *
          omega
        have hp : va + j - (va + j) % pgSize = va - va % pgSize := by
          rw [pgSize] at *
          omega
        rw [Readable, hm, userByte, hp, hpage]
        rfl
      · have hnext := ih (mod_lt _ (by decide)) h (j - (pgSize - va % pgSize)) (by omega)
        rw [Readable, mod_add_mod] at hnext
        rw [Readable]
        have hsum : va - va % pgSize + pgSize + (j - (pgSize - va % pgSize)) = va + j := by omega
        rwa [hsum] at hnext

theorem forall_readable_split {m : UserMem} {va w n : Nat} (h : w ≤ n) :
    (∀ j < n, Readable m (va + j)) ↔
      (∀ j < w, Readable m (va + j)) ∧ ∀ j < n - w, Readable m (va + w + j) := by
  refine ⟨fun hall => ⟨fun j hj => hall j (by omega), fun j hj => ?_⟩, fun ⟨h1, h2⟩ j hj => ?_⟩
  · rw [add_assoc]
    exact hall _ (by omega)
  · by_cases hin : j < w
    · exact h1 j hin
    · have hrest := h2 (j - w) (by omega)
      rwa [Nat.add_assoc, Nat.add_sub_cancel' (by omega)] at hrest

/-- **When `copyin` succeeds.** -/
theorem copyin_ok_iff (m : UserMem) {va : Nat} (hva : va < 2 ^ 64) (n : Nat) :
    (copyin m va n).2 = true ↔ ∀ j < n, Readable m (va + j) := by
  refine ⟨fun h => readable_of_copyinLoop m n hva h, fun h => ?_⟩
  let c : Call := ⟨m, va, n⟩
  have hc : c.Mapped := fun j hj => h j hj
  have hall := copyinLoop_of_mapped m n hva (c.length_data.trans (Int.toNat_natCast n)).le hc.buffer
  rw [c.length_data] at hall
  exact congrArg Prod.snd hall

/-! ## Counting the bytes that arrive -/

/-- The bytes that a command has copied from user memory, if it succeeded. -/
def copies : (c : Bio.Cmd Nat) → Bio.Ans c → Nat
  | .copyin _ _ _ n, ok => if ok then n else 0
  | _, _ => 0

/-- The bytes that code copies from user memory when it is run from `s`, without those of a copy
that fails. -/
def copied {α : Type} (m : UserMem) : K Nat α → Disk → Nat
  | .ret _, _ => 0
  | .cmd c k, s =>
    match answer m c s with
    | .ok (r, s') => copies c r + copied m (k r) s'
    | .error _ => 0

/-- A command that does not touch user memory. -/
def Plain : Bio.Cmd Nat → Prop
  | .copyin .. | .copyout .. => False
  | _ => True

/-- Code that does not touch user memory. -/
def NoCopy {α : Type} : K Nat α → Prop
  | .ret _ => True
  | .cmd c k => Plain c ∧ ∀ r, NoCopy (k r)

section Copied

variable {α β : Type} {m : UserMem} {s s' : Disk} {f : β → K Nat α}

theorem copied_bind {c : K Nat β} {a : β} :
    ∀ {s : Disk}, exec (answer m) c s = .ok (a, s') →
      copied m (c >>= f) s = copied m c s + copied m (f a) s' := by
  induction c with
  | ret x =>
    intro s h
    cases h
    exact (zero_add _).symm
  | cmd c k ih =>
    intro s h
    rw [exec] at h
    rw [cmd_bind, copied, copied]
    cases hc : answer m c s with
    | ok r =>
      rw [hc] at h
      dsimp only at h ⊢
      rw [ih r.1 h, add_assoc]
    | error e =>
      simp [hc] at h

theorem NoCopy.bind {c : K Nat β} (hc : NoCopy c) (hf : ∀ a, NoCopy (f a)) : NoCopy (c >>= f) := by
  induction c with
  | ret a => exact hf a
  | cmd c k ih => exact ⟨hc.1, fun r => ih r (hc.2 r)⟩

theorem Plain.copies_eq_zero {c : Bio.Cmd Nat} (h : Plain c) (r : Bio.Ans c) : copies c r = 0 := by
  cases c with
  | copyin | copyout => exact h.elim
  | _ => rfl

theorem NoCopy.copied_eq_zero {c : K Nat α} : ∀ {s : Disk}, NoCopy c → copied m c s = 0 := by
  induction c with
  | ret a => exact fun _ => rfl
  | cmd c k ih =>
    intro s h
    rw [copied]
    split
    · rw [h.1.copies_eq_zero, ih _ (h.2 _)]
    · rfl

theorem noCopy_panic (e : Panic) : NoCopy (Bio.panic e : K Nat α) := ⟨trivial, fun r => r.elim⟩

theorem noCopy_bread (b : Nat) : NoCopy (bread b : K Nat _) := ⟨trivial, fun _ => trivial⟩

theorem noCopy_store (b : Nat) (v : Block) : NoCopy (store b v : K Nat _) :=
  ⟨trivial, fun _ => trivial⟩

theorem noCopy_logWrite (b : Nat) : NoCopy (logWrite b : K Nat _) :=
  ⟨trivial, fun _ => trivial⟩

theorem noCopy_brelse (b : Nat) : NoCopy (brelse b : K Nat _) :=
  ⟨trivial, fun _ => trivial⟩

end Copied

section Blocks

variable {sb : Superblock}

theorem noCopy_change (b : Nat) (v : Block) :
    NoCopy (store b v >>= fun _ => logWrite b >>= fun _ => brelse b : K Nat Unit) :=
  (noCopy_store b v).bind fun _ => (noCopy_logWrite b).bind fun _ => noCopy_brelse b

theorem noCopy_ballocFrom (bs : List Nat) : NoCopy (ballocFrom sb bs : K Nat Nat) := by
  induction bs with
  | nil => exact noCopy_panic _
  | cons b bs ih =>
    refine (noCopy_bread _).bind fun r => ?_
    change NoCopy (ballocRound sb r.1 r.2 b (ballocFrom sb bs))
    rw [ballocRound]
    split
    · refine (noCopy_store _ _).bind fun _ => (noCopy_logWrite _).bind fun _ =>
        (noCopy_brelse _).bind fun _ => ?_
      exact ((noCopy_bread _).bind fun _ => noCopy_change _ _).bind fun _ => trivial
    · exact (noCopy_brelse _).bind fun _ => ih

theorem noCopy_balloc : NoCopy (balloc sb : K Nat Nat) := noCopy_ballocFrom _

theorem noCopy_bmapDirect (ip : Inode) (bn : Nat) : NoCopy (bmapDirect sb ip bn : K Nat _) := by
  rw [bmapDirect]
  split
  · exact noCopy_balloc.bind fun _ => trivial
  · trivial

theorem noCopy_bmap (ip : Inode) (bn : Nat) : NoCopy (bmap sb ip bn : K Nat _) := by
  rw [bmap]
  split
  · exact noCopy_bmapDirect ip bn
  split
  · refine (noCopy_bmapDirect ip ndirect).bind fun r => (noCopy_bread _).bind fun a => ?_
    dsimp only
    split
    · exact noCopy_balloc.bind fun _ => (noCopy_store _ _).bind fun _ =>
        (noCopy_logWrite _).bind fun _ => (noCopy_brelse _).bind fun _ => trivial
    · exact (noCopy_brelse _).bind fun _ => trivial
  · exact noCopy_panic _

theorem noCopy_iupdate (ip : Inode) : NoCopy (iupdate sb ip : K Nat Unit) :=
  (noCopy_bread _).bind fun _ => noCopy_change _ _

theorem noCopy_ilockRead (i : Nat) : NoCopy (ilockRead sb i : K Nat Inode) := by
  refine (noCopy_bread _).bind fun _ => (noCopy_brelse _).bind fun _ => ?_
  dsimp only
  split
  · exact noCopy_panic _
  · trivial

end Blocks

/-! ## What `writei` stores -/

section Copies

variable {α β : Type} {m : UserMem} {s : Disk} {ip : Inode} {off : Nat}

/-- If the code returns, then so, and with this number of bytes. -/
def Copies (m : UserMem) (c : K Nat α) (s : Disk) (Q : α → Disk → Nat → Prop) : Prop :=
  ∀ a s', exec (answer m) c s = .ok (a, s') → Q a s' (copied m c s)

theorem Copies.bind {c : K Nat β} {f : β → K Nat α} {R : β → Disk → Nat → Prop}
    {Q : α → Disk → Nat → Prop} (hc : Copies m c s R)
    (hf : ∀ a s' k, R a s' k → Copies m (f a) s' fun b s'' k' => Q b s'' (k + k')) :
    Copies m (c >>= f) s Q := by
  intro b s'' h
  rw [exec_bind] at h
  cases hx : exec (answer m) c s with
  | error e =>
    rw [hx] at h
    nomatch h
  | ok r =>
    rw [hx] at h
    rw [copied_bind hx]
    exact hf r.1 r.2 _ (hc r.1 r.2 hx) b s'' h

theorem NoCopy.copies {c : K Nat α} (h : NoCopy c) : Copies m c s fun _ _ k => k = 0 :=
  fun _ _ _ => h.copied_eq_zero

theorem copies_pure {a : α} : Copies m (pure a) s fun r _ k => r = a ∧ k = 0 := by
  intro r s' h
  exact ⟨(Prod.mk.inj (Except.ok.inj h)).1.symm, rfl⟩

theorem copies_eitherCopyin {b va tot n : Nat} {d : Block} :
    Copies m (eitherCopyin b d off (.user va) tot n) s fun ok _ k =>
      k = (if ok then n else 0) ∧ (ok = true ↔ ∀ j < n, Readable m (va + tot + j)) := by
  intro ok s' h
  cases h
  refine ⟨rfl, (copyin_ok_iff m (mod_lt _ (by decide)) n).trans ?_⟩
  simp only [Readable, mod_add_mod]

variable {sb : Superblock} {va n : Nat}

/-- **The loop of `writei`** moves `off` over what it has stored, and gets to the end if and only if
the source is there. -/
theorem copied_writeiLoop (rounds : Nat) : ∀ {s : Disk} {ip : Inode} {tot off : Nat}, tot ≤ n →
    n - tot ≤ rounds → Copies m (writeiLoop sb (.user va) n rounds ip tot off) s fun r _ k =>
      r.1 = off + k ∧ k ≤ n - tot ∧ (k = n - tot ↔ ∀ j < n - tot, Readable m (va + tot + j)) := by
  have hdone : ∀ {s : Disk} {ip : Inode} {tot off : Nat}, n ≤ tot →
      Copies m (pure (off, ip)) s fun r _ k => r.1 = off + k ∧ k ≤ n - tot ∧
        (k = n - tot ↔ ∀ j < n - tot, Readable m (va + tot + j)) := by
    intro s ip tot off hle r s' h
    obtain ⟨rfl, hk⟩ := copies_pure r s' h
    rw [hk, Nat.sub_eq_zero_of_le hle]
    exact ⟨rfl, Nat.le_refl _, nofun, fun _ => rfl⟩
  induction rounds with
  | zero => exact fun _ hr => hdone (by omega)
  | succ rounds ih =>
    intro s ip tot off htot hr
    rw [writeiLoop]
    split
    · rename_i hlt
      have hb : 0 < bsize - off % bsize := Nat.sub_pos_of_lt (mod_bsize_lt _)
      obtain ⟨w, hw⟩ : ∃ w, w = min (n - tot) (bsize - off % bsize) := ⟨_, rfl⟩
      rw [← hw]
      refine (noCopy_bmap ip _).copies.bind ?_
      rintro ⟨addr, ip1⟩ s1 _ rfl
      refine (noCopy_bread addr).copies.bind ?_
      rintro ⟨bp, d⟩ s2 _ rfl
      refine copies_eitherCopyin.bind ?_
      rintro ok s3 k ⟨rfl, hok⟩
      split
      · rename_i htrue
        refine (noCopy_logWrite bp).copies.bind ?_
        rintro _ s4 _ rfl
        refine (noCopy_brelse bp).copies.bind ?_
        rintro _ s5 _ rfl
        intro r s' h
        obtain ⟨h1, h2, h3⟩ := ih (by omega) (by omega) r s' h
        refine ⟨by omega, by omega, ?_⟩
        generalize copied m _ s5 = k at h1 h2 h3 ⊢
        have hiff : 0 + (0 + (w + (0 + (0 + k)))) = n - tot ↔ k = n - (tot + w) := by omega
        rw [hiff, h3, forall_readable_split (show w ≤ n - tot by omega)]
        rw [← Nat.sub_sub, ← Nat.add_assoc]
        exact (and_iff_right (hok.mp htrue)).symm
      · rename_i hfalse
        refine (noCopy_brelse bp).copies.bind ?_
        rintro _ s4 _ rfl
        intro r s' h
        obtain ⟨rfl, hk⟩ := copies_pure r s' h
        rw [hk]
        refine ⟨rfl, zero_le _, fun h0 => absurd h0 (by omega), fun hall => ?_⟩
        exact absurd (hok.mpr fun j hj => hall j (by omega)) hfalse
    · exact hdone (by omega)

/-- **What `writei` stores** of a piece that fits into the file. -/
theorem copied_writei (hoff : off ≤ ip.size) (hmax : off + n ≤ maxfile * bsize) :
    Copies m (writei sb ip (.user va) off n) s fun r _ k =>
      r.1 = some n ∧ k ≤ n ∧ (k = n ↔ ∀ j < n, Readable m (va + j)) := by
  have hbig : maxfile * bsize < 2 ^ 32 := by decide
  rw [writei, if_neg (by omega), if_neg (by omega)]
  refine (copied_writeiLoop n (zero_le n) (sub_le ..)).bind ?_
  rintro ⟨off', ip'⟩ s' k ⟨-, hle, hiff⟩
  rw [Nat.sub_zero] at hle hiff
  dsimp only
  split
  · refine (noCopy_iupdate _).copies.bind ?_
    rintro _ s'' _ rfl
    intro r s3 h
    obtain ⟨rfl, hk⟩ := copies_pure r s3 h
    rw [hk]
    exact ⟨rfl, hle, hiff⟩
  · intro r s3 h
    obtain ⟨rfl, hk⟩ := copies_pure r s3 h
    rw [hk]
    exact ⟨rfl, hle, hiff⟩

theorem writei_of_not_fit {src : Src} (h : ¬ (off ≤ ip.size ∧ off + n ≤ maxfile * bsize)) :
    (writei sb ip src off n : K Nat _) = pure (none, ip) := by
  rw [writei]
  split
  · rfl
  · rw [if_pos (by omega)]

end Copies

/-! ## A call that is not disturbed -/

/-- The bytes that an operation has stored. -/
def Op.stored : (o : Op) → o.Res → Nat
  | .block _ c, r => copies c r
  | _, _ => 0

/-- Code of a process, run while no other process runs: what it returns, the state after it, and the
number of bytes it has stored in the file.  A panic has no result. -/
def alone {α : Type} : W α → Shared → Option (α × Shared × Nat)
  | .ret a, x => some (a, x, 0)
  | .cmd .acquire k, x => alone (k ()) x
  | .cmd .release k, x => alone (k ()) x
  | .cmd (.op o) k, x =>
    match o.act x with
    | some (r, x') => (alone (k r) x').map fun y => (y.1, y.2.1, o.stored r + y.2.2)
    | none => none

section Alone

variable {α β : Type} {m : UserMem} {x : Shared}

/-- If the code returns, then so. -/
def Alone (c : W α) (x : Shared) (Q : α → Shared → Nat → Prop) : Prop :=
  ∀ a x' k, alone c x = some (a, x', k) → Q a x' k

theorem alone_bind {c : W β} {f : β → W α} : ∀ {x : Shared}, alone (c >>= f) x =
    (alone c x).bind fun y => (alone (f y.1) y.2.1).map fun z => (z.1, z.2.1, y.2.2 + z.2.2) := by
  induction c with
  | ret a =>
    intro x
    change alone (f a) x = (alone (f a) x).map _
    simp only [zero_add, Option.map_id']
  | cmd c k ih =>
    intro x
    cases c with
    | acquire | release => exact ih ()
    | op o =>
      rw [cmd_bind, alone, alone]
      cases o.act x with
      | none => rfl
      | some r =>
        dsimp only
        rw [ih, Option.map_bind, Option.bind_map]
        simp only [Function.comp_def, Option.map_map, add_assoc]

theorem Alone.bind {c : W β} {f : β → W α} {R : β → Shared → Nat → Prop}
    {Q : α → Shared → Nat → Prop} (hc : Alone c x R)
    (hf : ∀ a x' k, R a x' k → Alone (f a) x' fun b x'' k' => Q b x'' (k + k')) :
    Alone (c >>= f) x Q := by
  intro b x' n h
  rw [alone_bind] at h
  obtain ⟨⟨a, x1, k⟩, hrun, hrest⟩ := bind_eq_some_iff.mp h
  obtain ⟨⟨b', x2, k'⟩, hrun', heq⟩ := map_eq_some_iff.mp hrest
  obtain ⟨rfl, rfl, rfl⟩ := heq
  exact hf a x1 k (hc a x1 k hrun) _ _ _ hrun'

theorem Alone.mono {c : W α} {Q R : α → Shared → Nat → Prop} (h : Alone c x R)
    (hq : ∀ a x' k, R a x' k → Q a x' k) : Alone c x Q :=
  fun a x' k hrun => hq a x' k (h a x' k hrun)

theorem alone_pure {a : α} : Alone (pure a) x fun r x' k => r = a ∧ x' = x ∧ k = 0 := by
  rintro r x' k ⟨⟩
  exact ⟨rfl, rfl, rfl⟩

theorem alone_acquire : Alone acquire x fun _ x' k => x' = x ∧ k = 0 := by
  rintro r x' k ⟨⟩
  exact ⟨rfl, rfl⟩

theorem alone_op {o : Op} {r : o.Res} {x' : Shared} (h : o.act x = some (r, x')) :
    Alone (op o) x fun r' y k => r' = r ∧ y = x' ∧ k = o.stored r := by
  intro r' y k hrun
  rw [op, call, alone, h] at hrun
  obtain ⟨rfl, rfl, rfl⟩ := some.inj hrun
  exact ⟨rfl, rfl, rfl⟩

theorem alone_getOff : Alone getOff x fun off x' k => off = x.off ∧ x' = x ∧ k = 0 := alone_op rfl

theorem alone_blocks {c : K Nat α} : Alone (blocks m c) x fun a x' k =>
    exec (answer m) c x.disk = .ok (a, x'.disk) ∧ k = copied m c x.disk ∧
      x' = { x with disk := x'.disk } := by
  induction c generalizing x with
  | ret a =>
    rintro r x' k ⟨⟩
    exact ⟨rfl, rfl, rfl⟩
  | cmd c k ih =>
    intro a x' n h
    change alone (.cmd (.op (.block m c)) fun r => blocks m (k r)) x = _ at h
    rw [alone, Op.act] at h
    rw [exec, copied]
    cases hc : answer m c x.disk with
    | error e =>
      simp [hc] at h
    | ok r =>
      rw [hc] at h
      obtain ⟨⟨a', x'', n'⟩, hrun, heq⟩ := map_eq_some_iff.mp h
      obtain ⟨rfl, rfl, rfl⟩ := heq
      obtain ⟨h1, rfl, h3⟩ := ih r.1 _ _ _ hrun
      exact ⟨h1, rfl, h3⟩

/-- Code of the block layer, by what is known about it. -/
theorem Alone.of_blocks {c : K Nat α} {Q : α → Disk → Prop} {R : α → Disk → Nat → Prop}
    (hq : Runs m c x.disk Q) (hr : Copies m c x.disk R) :
    Alone (blocks m c) x fun a x' k => ∃ d, x' = { x with disk := d } ∧ Q a d ∧ R a d k := by
  intro a x' k h
  obtain ⟨hexec, rfl, hx⟩ := alone_blocks a x' k h
  exact ⟨x'.disk, hx, hq.of_ok hexec, hr a x'.disk hexec⟩

end Alone

/-! ## One round -/

/-- The file is open and no block belongs to two files; the copy of the inode, if it is valid, is
what is on disk. -/
structure Opened (sb : Superblock) (x : Shared) : Prop where
  layout : Layout sb
  own : Own sb x.disk (refs sb x.disk)
  inum : x.ip.inum < sb.ninodes
  valid : x.valid = true → x.inode sb = x.ip ∧ x.ip.type ≠ 0

/-- What a round does to a piece of `n` bytes from `addr` on. -/
structure Round (sb : Superblock) (m : UserMem) (addr n : Nat) (x : Shared) (r : Option Nat)
    (x' : Shared) (k : Nat) : Prop where
  opened : Opened sb x'
  result : r = if x.off ≤ (x.inode sb).size ∧ x.off + n ≤ maxfile * bsize then some n else none
  off : x'.off = x.off + r.getD 0
  refused : r = none → x'.disk = x.disk ∧ x'.inode sb = x.inode sb
  stored : k ≤ r.getD 0
  all : k = r.getD 0 ↔ ∀ j < r.getD 0, Readable m (addr + j)
  bytes : ∀ data, r = some data.length → UserBuffer m addr data →
    (x'.inode sb).size = max (x.off + data.length) (x.inode sb).size ∧
      (x'.inode sb).byteAt x'.disk = written ((x.inode sb).byteAt x.disk) x.off data

section Rounds

variable {sb : Superblock} {m : UserMem} {x : Shared}

theorem alone_ilock (h : Opened sb x) : Alone (ilock sb) x fun ip x' k =>
    k = 0 ∧ x' = { x with valid := true, ip := ip } ∧ ip = x.inode sb ∧ ip.type ≠ 0 := by
  rw [ilock]
  refine alone_acquire.bind ?_
  rintro _ _ _ ⟨rfl, rfl⟩
  refine (alone_op (o := .getInode) rfl).bind ?_
  rintro _ _ _ ⟨rfl, rfl, rfl⟩
  dsimp only
  split
  · rename_i hv
    rintro ip x' k ⟨⟩
    obtain ⟨h1, h2⟩ := h.valid hv
    exact ⟨rfl, by rw [← hv], h1.symm, h2⟩
  · refine (Alone.of_blocks runs_ilockRead (noCopy_ilockRead _).copies).bind ?_
    rintro ip _ _ ⟨_, rfl, ⟨rfl, rfl, ht⟩, rfl⟩
    refine (alone_op (o := .setInode _) rfl).bind ?_
    rintro _ _ _ ⟨rfl, rfl, rfl⟩
    rintro _ _ _ ⟨⟩
    exact ⟨rfl, rfl, rfl, ht⟩

/-- A piece that fits: `writei` says that it has written all of it. -/
theorem alone_writei (h : Opened sb x) (ht : (x.inode sb).type ≠ 0) {addr n : Nat}
    (hoff : x.off ≤ (x.inode sb).size) (hmax : x.off + n ≤ maxfile * bsize) :
    Alone (blocks m (writei sb (x.inode sb) (.user addr) x.off n)) x fun r x' k =>
      ∃ d, x' = { x with disk := d } ∧ Settled sb x.disk x.ip.inum d r.2 ∧ r.2.inum = x.ip.inum ∧
        r.2.type ≠ 0 ∧ r.1 = some n ∧ k ≤ n ∧ (k = n ↔ ∀ j < n, Readable m (addr + j)) ∧
        ∀ data, n = data.length → UserBuffer m addr data →
          r.2.size = max (x.off + data.length) (x.inode sb).size ∧
            r.2.byteAt d = written ((x.inode sb).byteAt x.disk) x.off data := by
  have hself : dinode sb x.disk (x.inode sb).inum = x.inode sb := rfl
  have hset : Runs m (writei sb (x.inode sb) (.user addr) x.off n) x.disk _ :=
    runs_writei h.layout h.own hself h.inum ht
  intro r x' k hrun
  obtain ⟨d, rfl, ⟨h1, -, h2, -, h3⟩, h4, h5, h6⟩ :=
    Alone.of_blocks hset (copied_writei hoff hmax) r x' k hrun
  refine ⟨d, rfl, h1, by rw [h2]; rfl, by rw [h2]; exact ht, h4, h5, h6, ?_⟩
  rintro data rfl hbuf
  exact (h3 data hbuf rfl hoff hmax).2

theorem alone_moveOff (x : Shared) (ip : Inode) (r : Option Nat)
    (h : 0 < r.getD 0 → x.off + r.getD 0 < 2 ^ 32) :
    Alone (do
      setInode ip
      if 0 < r.getD 0 then setOff ((x.off + r.getD 0) % 2 ^ 32)
      iunlock
      pure r) x fun r' x' k => k = 0 ∧ r' = r ∧
        x' = { x with valid := true, ip := ip, off := x.off + r.getD 0 } := by
  split
  · rename_i hpos
    rintro _ _ _ ⟨⟩
    rw [mod_eq_of_lt (h hpos)]
    exact ⟨rfl, rfl, rfl⟩
  · rename_i h0
    rintro _ _ _ ⟨⟩
    rw [Nat.eq_zero_of_not_pos h0]
    exact ⟨rfl, rfl, rfl⟩

/-- **One round of `filewrite`.** -/
theorem alone_writeChunk (h : Opened sb x) {addr n : Nat} :
    Alone (writeChunk sb m addr n) x (Round sb m addr n x) := by
  rw [writeChunk]
  refine (alone_ilock h).bind ?_
  rintro _ _ _ ⟨rfl, rfl, rfl, ht⟩
  refine alone_getOff.bind ?_
  rintro _ _ _ ⟨rfl, rfl, rfl⟩
  -- the state after `ilock`
  obtain ⟨y, hy⟩ : ∃ y, y = { x with valid := true, ip := x.inode sb } := ⟨_, rfl⟩
  have hyi : y.inode sb = x.inode sb := by rw [hy]; rfl
  have hopen : Opened sb y := by
    subst hy
    exact ⟨h.layout, h.own, h.inum, fun _ => ⟨rfl, ht⟩⟩
  by_cases hfit : x.off ≤ (x.inode sb).size ∧ x.off + n ≤ maxfile * bsize
  · have hw : Alone (blocks m (writei sb (y.inode sb) (.user addr) y.off n)) y _ :=
      alone_writei hopen (by rwa [hyi]) (by rw [hyi, hy]; exact hfit.1) (by rw [hy]; exact hfit.2)
    rw [hyi] at hw
    subst hy
    refine hw.bind ?_
    rintro ⟨r, ip⟩ _ k ⟨d, rfl, hset, hi, hty, rfl, hle, hiff, hbytes⟩
    have hbig : maxfile * bsize < 2 ^ 32 := by decide
    refine (alone_moveOff { x with disk := d, valid := true, ip := x.inode sb } ip (some n) fun _ =>
      lt_of_le_of_lt hfit.2 hbig).mono ?_
    rintro _ _ _ ⟨rfl, rfl, rfl⟩
    have hd : dinode sb d ip.inum = ip := hi ▸ hset.mine
    rw [zero_add, zero_add, add_zero]
    refine ⟨⟨h.layout, hset.own, hi ▸ h.inum, fun _ => ⟨hd, hty⟩⟩, (if_pos hfit).symm, rfl, by simp,
      hle, hiff, fun data hlen hbuf => ?_⟩
    rw [Shared.inode, hd]
    exact hbytes data (some.inj hlen) hbuf
  · rw [writei_of_not_fit hfit]
    refine alone_pure.bind ?_
    rintro _ _ _ ⟨rfl, rfl, rfl⟩
    refine (alone_moveOff { x with valid := true, ip := x.inode sb } (x.inode sb) none
      (by simp)).mono ?_
    rintro _ _ _ ⟨rfl, rfl, rfl⟩
    exact ⟨⟨h.layout, h.own, h.inum, fun _ => ⟨rfl, ht⟩⟩, (if_neg hfit).symm, rfl,
      fun _ => ⟨rfl, rfl⟩, le_refl _, ⟨by simp, fun _ => rfl⟩, by simp⟩

end Rounds

/-! ## The whole call -/

/-- How far a call gets that is to write `n` bytes at `off`: to the end, or to the last piece that
fits into the file. -/
def attempted (size off n : Nat) : Nat :=
  if size < off then 0
  else if off + n ≤ maxfile * bsize then n
  else (maxfile * bsize - off) / maxWrite * maxWrite

theorem attempted_zero (size off : Nat) : attempted size off 0 = 0 := by
  rw [attempted]
  split
  · rfl
  · split
    · rfl
    · rw [Nat.sub_eq_zero_of_le (by omega), Nat.zero_div, Nat.zero_mul]

theorem attempted_of_fit {size off n : Nat} (hoff : off ≤ size)
    (hmax : off + min n maxWrite ≤ maxfile * bsize) :
    attempted size off n = min n maxWrite +
      attempted (max (off + min n maxWrite) size) (off + min n maxWrite) (n - min n maxWrite) := by
  have hw : maxWrite = 3072 := rfl
  rw [attempted, if_neg (not_lt.mpr hoff), attempted,
    if_neg (not_lt.mpr (le_max_left ..))]
  generalize maxfile * bsize = M at *
  split
  · rw [if_pos (by omega)]
    omega
  · rw [if_neg (by omega), min_eq_right (by omega), hw]
    omega

theorem attempted_of_not_fit {size off n : Nat}
    (h : ¬ (off ≤ size ∧ off + min n maxWrite ≤ maxfile * bsize)) : attempted size off n = 0 := by
  have hw : maxWrite = 3072 := rfl
  rw [attempted]
  generalize maxfile * bsize = M at *
  split
  · rfl
  · rw [if_neg (by omega), hw, div_eq_of_lt (by omega), zero_mul]

theorem readable_mod {m : UserMem} {va j : Nat} :
    Readable m (va % 2 ^ 64 + j) ↔ Readable m (va + j) := by
  rw [Readable, Readable, mod_add_mod]

/-- What the loop of `filewrite` does from `i` on: it returns `a`. -/
structure Outcome (sb : Superblock) (m : UserMem) (addr n i : Nat) (x : Shared) (a : Nat)
    (x' : Shared)
    (k : Nat) : Prop where
  /-- The offset moves at least over what has been stored; -/
  le : x.off + k ≤ x'.off
  /-- exactly so if the memory is there, -/
  exact : (∀ j < attempted (x.inode sb).size x.off (n - i), Readable m (addr + i + j)) →
    a = i + k ∧ x'.off = x.off + k ∧ k = attempted (x.inode sb).size x.off (n - i)
  /-- and then the bytes are in the file; -/
  bytes : ∀ data, data.length = attempted (x.inode sb).size x.off (n - i) →
    UserBuffer m ((addr + i) % 2 ^ 64) data →
    (x.inode sb).size ≤ (x'.inode sb).size ∧
      (data ≠ [] → x.off + data.length ≤ (x'.inode sb).size) ∧
      (x'.inode sb).byteAt x'.disk = written ((x.inode sb).byteAt x.disk) x.off data
  /-- otherwise it moves too far. -/
  short : ¬ (∀ j < attempted (x.inode sb).size x.off (n - i), Readable m (addr + i + j)) →
    x.off + k < x'.off

section Call

variable {sb : Superblock} {m : UserMem} {x x' : Shared} {addr n i : Nat}

/-- Nothing is attempted, and nothing happens to the file. -/
theorem Outcome.stop (hoff : x'.off = x.off) (hbytes : x'.disk = x.disk)
    (hip : x'.inode sb = x.inode sb) (h0 : attempted (x.inode sb).size x.off (n - i) = 0) :
    Outcome sb m addr n i x i x' 0 := by
  refine ⟨hoff.ge, fun _ => ⟨rfl, hoff, h0.symm⟩, fun data hlen _ => ?_, fun hall => ?_⟩
  · obtain rfl : data = [] := eq_nil_of_length_eq_zero (hlen.trans h0)
    rw [hip, hbytes, written_nil]
    exact ⟨le_refl _, fun h => absurd rfl h, rfl⟩
  · rw [h0] at hall
    exact absurd (nofun) hall

theorem Outcome.next {a k k' w : Nat} {x1 : Shared} (hw : w = min (n - i) maxWrite)
    (hr : Round sb m ((addr + i) % 2 ^ 64) w x (some w) x1 k)
    (h : Outcome sb m addr n (i + w) x1 a x' k') : Outcome sb m addr n i x a x' (k + k') := by
  obtain ⟨hoff, hmax⟩ : x.off ≤ (x.inode sb).size ∧ x.off + w ≤ maxfile * bsize := by
    by_contra hfit
    have := hr.result
    simp [if_neg hfit] at this
  have hmove : x1.off = x.off + w := hr.off
  have hle : k ≤ w := hr.stored
  have hatt := attempted_of_fit hoff (n := n - i) (by rwa [← hw])
  rw [← hw, ← hmove, Nat.sub_sub] at hatt
  have hfirst : k = w ↔ ∀ j < w, Readable m (addr + i + j) :=
    hr.all.trans (forall₂_congr fun _ _ => readable_mod)
  have hmin := h.le
  by_cases hread : ∀ j < w, Readable m (addr + i + j)
  · obtain rfl := hfirst.mpr hread
    -- the file ends behind the piece now, so that the rest is attempted as before
    let c : Call := ⟨m, (addr + i) % 2 ^ 64, k⟩
    have hc : c.Mapped := fun j hj => readable_mod.mpr (hread j hj)
    have hsize := (hr.bytes c.data (congrArg some c.length_data.symm) hc.buffer).1
    rw [c.length_data.trans (Int.toNat_natCast k), ← hmove] at hsize
    rw [← hsize] at hatt
    have hall : (∀ j < attempted (x.inode sb).size x.off (n - i), Readable m (addr + i + j)) ↔ _ :=
      forall_readable_split (Nat.le.intro hatt.symm)
    rw [hatt, Nat.add_sub_cancel_left, Nat.add_assoc addr i k] at hall
    refine ⟨by omega, fun hrd => ?_, fun data hlen hbuf => ?_, fun hrd => ?_⟩ <;> rw [hatt] at *
    · obtain ⟨h1, h2, h3⟩ := h.exact (hall.mp hrd).2
      exact ⟨by omega, by omega, by omega⟩
    · have htake : (data.take k).length = k := by
        rw [length_take]
        omega
      have hrest : UserBuffer m ((addr + (i + k)) % 2 ^ 64) (data.drop k) := by
        have hdrop := hbuf.drop k
        rwa [mod_add_mod, add_assoc] at hdrop
      obtain ⟨-, hb⟩ := hr.bytes (data.take k) (congrArg some htake.symm) (hbuf.take k)
      obtain ⟨hs', hl', hb'⟩ := h.bytes (data.drop k) (by rw [length_drop]; omega) hrest
      refine ⟨by omega, fun _ => ?_, ?_⟩
      · rcases eq_or_ne (data.drop k) [] with hnil | hne
        · have := drop_eq_nil_iff.mp hnil
          omega
        · have := hl' hne
          rw [length_drop] at this
          omega
      · have happ := written_append ((x.inode sb).byteAt x.disk) x.off (data.take k) (data.drop k)
        rw [htake, take_append_drop] at happ
        rw [hb', hb, hmove, happ]
    · have := h.short fun hrest => hrd (hall.mpr ⟨hread, hrest⟩)
      omega
  · have hlt : k < w := lt_of_le_of_ne hle (mt hfirst.mp hread)
    have hpiece : w ≤ attempted (x.inode sb).size x.off (n - i) := Nat.le.intro hatt.symm
    refine ⟨by omega, fun hrd => absurd (fun j hj => hrd j (by omega)) hread, ?_, fun _ => by omega⟩
    intro data hlen hbuf
    refine absurd (fun j hj => ?_) hread
    rw [← readable_mod, Readable, hbuf j (by omega)]
    rfl

/-- **The loop of `filewrite`.** -/
theorem alone_filewriteLoop (rounds : Nat) :
    ∀ {x : Shared} {i : Nat}, Opened sb x → n - i ≤ rounds →
    Alone (filewriteLoop sb m addr n rounds i) x (Outcome sb m addr n i x) := by
  have hdone : ∀ {x : Shared} {i : Nat}, n ≤ i → Alone (pure i) x (Outcome sb m addr n i x) := by
    intro x i hle
    refine alone_pure.mono ?_
    rintro _ _ _ ⟨rfl, rfl, rfl⟩
    refine .stop rfl rfl rfl ?_
    rw [Nat.sub_eq_zero_of_le hle, attempted_zero]
  induction rounds with
  | zero => exact fun _ hr => hdone (by omega)
  | succ rounds ih =>
    intro x i h hr
    rw [filewriteLoop]
    split
    · obtain ⟨w, hw⟩ : ∃ w, w = min (n - i) maxWrite := ⟨_, rfl⟩
      have hpos : 0 < maxWrite := by decide
      rw [← hw]
      refine (alone_op (o := .block m .beginOp) rfl).bind ?_
      rintro _ _ _ ⟨-, rfl, rfl⟩
      refine (alone_writeChunk h).bind ?_
      intro r x1 k hround
      refine (alone_op (o := .block m .endOp) rfl).bind ?_
      rintro _ _ _ ⟨-, rfl, rfl⟩
      have hres := hround.result
      split at hres
      · subst hres
        dsimp only
        rw [if_neg (not_not.mpr rfl)]
        refine (ih hround.opened (by omega)).mono fun a x' k' ho => ?_
        have hnext := Outcome.next hw hround ho
        rwa [← zero_add (k + k'), ← zero_add k'] at hnext
      · subst hres
        rename_i hfit
        obtain ⟨hdisk, hip⟩ := hround.refused rfl
        refine alone_pure.mono ?_
        rintro _ _ _ ⟨rfl, rfl, rfl⟩
        obtain rfl := le_zero.mp hround.stored
        exact .stop hround.off hdisk hip (attempted_of_not_fit (hw ▸ hfit))
    · exact hdone (by omega)

/-- The report of a call: it returns `n` only if all bytes of the buffer stand in the file, from the
old offset on, and the offset has moved over the bytes that have been stored. -/
def Reports (sb : Superblock) (x : Shared) (c : Call) (r : Int) (x' : Shared) (k : Nat) : Prop :=
  (r = c.n → c.Mapped ∧ (((x'.inode sb).bytes x'.disk).drop x.off).take c.n.toNat = c.data) ∧
    x'.off = x.off + k

theorem take_drop_bytes {d : Disk} {ip : Inode} {f : Nat → UInt8} {off : Nat} {data : List UInt8}
    (hsize : data ≠ [] → off + data.length ≤ ip.size) (hb : ip.byteAt d = written f off data) :
    ((ip.bytes d).drop off).take data.length = data := by
  refine ext_getElem ?_ fun j h1 h2 => ?_
  · rcases eq_or_ne data [] with rfl | hne
    · exact length_take_le ..  |> le_zero.mp
    · have := hsize hne
      rw [length_take, length_drop, Inode.length_bytes]
      omega
  · rw [getElem_take, getElem_drop, Inode.getElem_bytes, hb, written]
    rw [if_pos (by omega), Nat.add_sub_cancel_left, getD_eq_getElem]

theorem alone_filewrite (h : Opened sb x) {c : Call} : Alone (filewrite sb true c) x fun r y k =>
    ∃ a, Outcome sb c.mem c.addr c.n.toNat 0 x a y k ∧ r = if (a : Int) = c.n then c.n else -1 := by
  rw [filewrite, if_neg (by simp)]
  refine (alone_filewriteLoop c.n.toNat h (sub_le ..)).bind fun a y k ho => ?_
  refine alone_pure.mono ?_
  rintro _ _ _ ⟨rfl, rfl, rfl⟩
  exact ⟨a, ho, rfl⟩

/-- **When `write` reports what it has stored.**  For a call on an open file that returns: if and
only if the buffer is mapped as far as the call gets. -/
theorem write_reports_iff (h : Opened sb x) {writable : Bool} {c : Call} (hn : 0 ≤ c.n) {r : Int}
    {x' : Shared} {k : Nat} (hrun : alone (filewrite sb writable c) x = some (r, x', k)) :
    Reports sb x c r x' k ↔ (writable = true →
      ∀ j < attempted (x.inode sb).size x.off c.n.toNat, Readable c.mem (c.addr + j)) := by
  cases writable with
  | false =>
    obtain ⟨rfl, rfl, rfl⟩ := hrun
    exact ⟨fun _ => nofun, fun _ => ⟨fun hr => absurd hr (by omega), rfl⟩⟩
  | true =>
    obtain ⟨a, ho, rfl⟩ := alone_filewrite h r x' k hrun
    rw [eq_self, true_imp_iff]
    refine ⟨fun hrep => ?_, fun hread => ?_⟩
    · by_contra hread
      have := ho.short hread
      have := hrep.2
      omega
    · obtain ⟨rfl, hoff, hk⟩ := ho.exact hread
      refine ⟨fun hr => ?_, hoff⟩
      -- the loop has got to the end
      have hend : k = c.n.toNat := by
        by_contra hne
        rw [if_neg (by omega)] at hr
        omega
      have hc : c.Mapped := fun j hj => hread j (by rwa [Nat.sub_zero, ← hk, hend] at *)
      have hbuf : UserBuffer c.mem ((c.addr + 0) % 2 ^ 64) c.data := by
        intro j hj
        rw [mod_add_mod]
        exact hc.buffer j hj
      obtain ⟨-, hsize, hb⟩ := ho.bytes c.data (by rw [c.length_data, ← hk, hend]) hbuf
      refine ⟨hc, ?_⟩
      rw [← c.length_data]
      exact take_drop_bytes hsize hb

end Call

/-- The empty file of `withFile`, opened. -/
def atStart : Shared := ⟨withFile, true, freshInode 1 tFile, 0⟩

theorem opened_atStart : Opened mkfsSuper atStart where
  layout := mkfsSuper_layout
  own := settled_withFile.own
  inum := by decide
  valid _ := ⟨settled_withFile.mine, by decide⟩

/-- A call with a buffer that is mapped: it reports what it has stored. -/
theorem write_reports_iff_mapped : ∃ x' k,
    alone (filewrite mkfsSuper true ⟨onePage, 4000, 96⟩) atStart = some (96, x', k) ∧
      Reports mkfsSuper atStart ⟨onePage, 4000, 96⟩ 96 x' k := by
  have hrun : (alone (filewrite mkfsSuper true ⟨onePage, 4000, 96⟩) atStart).map (·.1) =
      some 96 := by
    decide +kernel
  obtain ⟨⟨_, x', k⟩, hx, rfl⟩ := map_eq_some_iff.mp hrun
  refine ⟨x', k, hx, (write_reports_iff opened_atStart (by decide) hx).mpr fun _ => ?_⟩
  decide +kernel

/-- Two blocks are to be written, of which the second is not mapped: 1024 bytes are stored, but the
call returns 2048 and the offset has moved by as much. -/
theorem write_overreports : ∃ x',
    alone (filewrite mkfsSuper true ⟨onePage, 3072, 2048⟩) atStart = some (2048, x', 1024) ∧
      x'.off = 2048 ∧ (x'.inode mkfsSuper).size = 1024 ∧
      ¬ Reports mkfsSuper atStart ⟨onePage, 3072, 2048⟩ 2048 x' 1024 := by
  have hrun : (alone (filewrite mkfsSuper true ⟨onePage, 3072, 2048⟩) atStart).map
      (fun y => (y.1, y.2.1.off, (y.2.1.inode mkfsSuper).size, y.2.2)) =
        some (2048, 2048, 1024, 1024) := by
    decide +kernel
  obtain ⟨⟨r, x', k⟩, hx, heq⟩ := map_eq_some_iff.mp hrun
  obtain ⟨rfl, hoff, hsize, rfl⟩ : r = 2048 ∧ x'.off = 2048 ∧ (x'.inode mkfsSuper).size = 1024 ∧
      k = 1024 := by simpa using heq
  refine ⟨x', hx, hoff, hsize, fun hrep => ?_⟩
  have hmoved : x'.off = 0 + 1024 := hrep.2
  omega

end Xv6.File
