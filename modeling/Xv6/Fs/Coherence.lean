import Xv6.Bio.Counts
import Xv6.Fs.Code

/-!
# The cache agrees with the disk

Every function of `fs.c` that stores to `bp->data` calls `log_write` before `brelse` — but for one
path: when `either_copyin` fails in `writei`, the buffer is released without it.  `copyin` copies
page by page, so by then it may have copied something.

`Calls` is what a system call does to disk blocks: any sequence of the functions of `fs.c`, in which
what comes next may depend on what has been read, with those that write between `begin_op` and
`end_op`.  `coherence` says that a valid buffer agrees with the disk, in every run of such calls in
which no copy is torn and no boot finds a transaction to install.  It also asks that nothing is
stored outside of operations: `readi` allocates the blocks it finds missing, and `read` calls it
without `begin_op`.  `coherence_fails` is a `write` whose user buffer ends in the middle.
-/

namespace Xv6.Fs

open Bio Code Lts Lts.System Ctx

/-! ## The code of `fs.c` keeps the rules -/

section Keeps

variable {H : Type} [DecidableEq H] {α β : Type} {start b : Nat} {d : Block} {f : α → K H β} {i : H}
  {x : Ctx H}

/-- The process runs a system call. -/
def Calling (x : Ctx H) : Prop := x.place = .inOp ∨ x.place = .outside

/-- Code that releases what it has read, and logs before that what it has stored. -/
def Keeps (start : Nat) (c : K H α) : Prop :=
  ∀ x : Ctx H, Calling x → wp (spec .logging start) c x fun _ y => y = x

omit [DecidableEq H] in
theorem Calling.ne_recover (h : Calling x) : x.place ≠ .recover := by
  rcases h with h | h <;> simp [h]

theorem Calling.hold (h : Calling x) (i : H) (b : Nat) (d : Mark) : Calling (x.hold i b d) := h

theorem Keeps.pure (a : α) : Keeps (H := H) start (Pure.pure a) := fun _ _ => rfl

theorem Keeps.panic (m : Panic) : Keeps (H := H) (α := α) start (Bio.panic m) := fun _ _ => trivial

/-- Code that keeps the rules can be followed by other code. -/
theorem Keeps.wp_bind {c : K H α} (hc : Keeps start c) (hx : Calling x) {Q : β → Ctx H → Prop}
    (hf : ∀ a, wp (spec .logging start) (f a) x Q) : wp (spec .logging start) (c >>= f) x Q := by
  refine Code.wp_bind (monotone_spec _ _) (wp_mono (monotone_spec _ _) ?_ (hc x hx))
  rintro a _ rfl
  exact hf a

theorem Keeps.bind {c : K H α} (hc : Keeps start c) (hf : ∀ a, Keeps start (f a)) :
    Keeps start (c >>= f) :=
  fun x hx => hc.wp_bind hx fun a => hf a x hx

theorem wp_drop (hi : x.held i = none) {k : Unit → K H α} {Q : α → Ctx H → Prop}
    (hk : wp (spec .logging start) (k ()) x Q) :
    wp (spec .logging start) (brelse i >>= k) (x.hold i b .clean) Q := by
  refine wp_brelse (d := .clean) (by simp) (held_hold_self ..) ?_
  rwa [hold_drop hi]

/-- Log a buffer that has been stored to, and release it. -/
theorem wp_logDrop (hx : x.place = .inOp) (hi : x.held i = none) {k : Unit → K H α}
    {Q : α → Ctx H → Prop} (hk : wp (spec .logging start) (k ()) x Q) :
    wp (spec .logging start) (logWrite i >>= fun _ => brelse i >>= k) (x.hold i b .dirty) Q := by
  refine ⟨.inl hx, b, .dirty, held_hold_self .., fun _ => ?_⟩
  rw [hold_hold]
  exact wp_drop hi hk

/-- Store to a buffer, log it and release it.  Outside of an operation there is nothing to show. -/
theorem wp_update (hx : Calling x) (hi : x.held i = none) {v : Block} {k : Unit → K H α}
    {Q : α → Ctx H → Prop} (hk : wp (spec .logging start) (k ()) x Q) :
    wp (spec .logging start) (store i v >>= fun _ => logWrite i >>= fun _ => brelse i >>= k)
      (x.hold i b .clean) Q := by
  refine wp_store hx.ne_recover (held_hold_self ..) fun hin => ?_
  rw [hold_hold]
  exact wp_logDrop (hx.resolve_right (hin rfl)) hi hk

theorem keeps_bzero (bno : Nat) : Keeps (H := H) start (bzero bno) := by
  intro x hx
  rw [bzero, wp_bread]
  intro i v hi _
  exact wp_update (k := .ret) hx hi rfl

theorem wp_ballocRound {sb : Superblock} (hx : Calling x) (hi : x.held i = none) {c : Nat}
    {next : K H Nat} (hnext : Keeps start next) :
    wp (spec .logging start) (ballocRound sb i d b next) (x.hold i c .clean) fun _ y => y = x := by
  unfold ballocRound
  generalize freeBit sb d b = o
  cases o with
  | none => exact wp_drop hi (hnext x hx)
  | some bi => exact wp_update hx hi ((keeps_bzero _).wp_bind hx fun _ => rfl)

section

variable (sb : Superblock)

include sb

theorem keeps_ballocFrom (bs : List Nat) : Keeps (H := H) start (ballocFrom sb bs) := by
  induction bs with
  | nil => exact Keeps.panic _
  | cons b bs ih =>
    intro x hx
    rw [ballocFrom, wp_bread]
    intro i d hi _
    exact wp_ballocRound hx hi ih

theorem keeps_balloc : Keeps (H := H) start (balloc sb) := by
  rw [balloc]
  exact keeps_ballocFrom sb _

theorem keeps_bfree (b : Nat) : Keeps (H := H) start (bfree sb b) := by
  intro x hx
  rw [bfree, wp_bread]
  intro i d hi _
  dsimp only
  split
  · trivial
  · exact wp_update (k := .ret) hx hi rfl

theorem keeps_iallocFrom (type : Nat) (l : List Nat) :
    Keeps (H := H) start (iallocFrom sb type l) := by
  induction l with
  | nil => exact Keeps.panic _
  | cons inum rest ih =>
    intro x hx
    rw [iallocFrom, wp_bread]
    intro i d hi _
    dsimp only
    split
    · exact wp_update hx hi rfl
    · exact wp_drop hi (ih x hx)

theorem keeps_iupdate (ip : Inode) : Keeps (H := H) start (iupdate sb ip) := by
  intro x hx
  rw [iupdate, wp_bread]
  intro i v hi _
  exact wp_update (k := .ret) hx hi rfl

theorem keeps_ilockRead (inum : Nat) : Keeps (H := H) start (ilockRead sb inum) := by
  intro x hx
  rw [ilockRead, wp_bread]
  intro i v hi _
  refine wp_drop hi ?_
  dsimp only
  split
  · trivial
  · rfl

theorem keeps_bmapDirect (ip : Inode) (bn : Nat) : Keeps (H := H) start (bmapDirect sb ip bn) := by
  rw [bmapDirect]
  split
  · exact (keeps_balloc sb).bind fun _ => Keeps.pure _
  · exact Keeps.pure _

theorem keeps_bmap (ip : Inode) (bn : Nat) : Keeps (H := H) start (bmap sb ip bn) := by
  rw [bmap]
  split
  · exact keeps_bmapDirect sb ip bn
  split
  · refine (keeps_bmapDirect sb ip ndirect).bind ?_
    rintro ⟨ind, ip'⟩ x hx
    rw [wp_bread]
    intro i a hi _
    dsimp only
    split
    · -- the indirect block stays locked while a block is allocated
      exact (keeps_balloc sb).wp_bind (hx.hold ..) fun addr => wp_update hx hi rfl
    · exact wp_drop hi rfl
  · exact Keeps.panic _

theorem keeps_itruncDirect (l : List Nat) :
    ∀ ip : Inode, Keeps (H := H) start (itruncDirect sb l ip) := by
  induction l with
  | nil => exact fun ip => Keeps.pure ip
  | cons i is ih =>
    intro ip
    rw [itruncDirect]
    split
    · exact (keeps_bfree sb _).bind fun _ => ih _
    · exact ih ip

theorem keeps_itruncIndirect (a : Block) (l : List Nat) :
    Keeps (H := H) start (itruncIndirect sb a l) := by
  induction l with
  | nil => exact Keeps.pure ()
  | cons j js ih =>
    rw [itruncIndirect]
    split
    · exact (keeps_bfree sb _).bind fun _ => ih
    · exact ih

theorem keeps_itruncRest (ip : Inode) : Keeps (H := H) start (itruncRest sb ip) := by
  rw [itruncRest]
  split
  · intro x hx
    rw [wp_bread]
    intro i a hi _
    refine (keeps_itruncIndirect sb a _).wp_bind (hx.hold ..) fun _ => wp_drop hi ?_
    exact (keeps_bfree sb _).wp_bind hx fun _ => rfl
  · exact Keeps.pure ip

theorem keeps_itrunc (ip : Inode) : Keeps (H := H) start (itrunc sb ip) := by
  refine (keeps_itruncDirect sb _ ip).bind fun ip' => (keeps_itruncRest sb ip').bind fun ip'' => ?_
  exact (keeps_iupdate sb _).bind fun _ => Keeps.pure _

end

theorem keeps_eitherCopyout (dst : Dst) (tot : Nat) (bytes : List UInt8) :
    Keeps (H := H) start (eitherCopyout dst tot bytes) := by
  cases dst with
  | user va => exact fun _ _ => ⟨rfl, rfl⟩
  | kernel => exact Keeps.pure true

theorem keeps_readiLoop (sb : Superblock) (dst : Dst) (n rounds : Nat) :
    ∀ (ip : Inode) (tot off : Nat) (acc : List UInt8),
      Keeps (H := H) start (readiLoop sb dst n rounds ip tot off acc) := by
  induction rounds with
  | zero => exact fun ip tot off acc => Keeps.pure _
  | succ rounds ih =>
    intro ip tot off acc
    rw [readiLoop]
    split
    · refine (keeps_bmap sb ip _).bind ?_
      rintro ⟨addr, ip'⟩ x hx
      rw [wp_bread]
      intro i d hi _
      refine (keeps_eitherCopyout dst tot _).wp_bind (hx.hold ..) fun ok => wp_drop hi ?_
      split
      · exact ih _ _ _ _ x hx
      · rfl
    · exact Keeps.pure _

theorem keeps_readi (sb : Superblock) (ip : Inode) (dst : Dst) (off n : Nat) :
    Keeps (H := H) start (readi sb ip dst off n) := by
  rw [readi]
  split
  · exact Keeps.pure _
  · exact keeps_readiLoop sb dst _ _ ip 0 off []

/-- `either_copyin` leaves the buffer dirty when it succeeds.  When it fails it counts as clean,
which is right only if it has not changed anything. -/
theorem wp_eitherCopyin (hx : Calling x) {bp : H} {off : Nat} {src : Src} {tot m : Nat}
    {k : Bool → K H α} {Q : α → Ctx H → Prop}
    (htrue : x.place = .inOp → wp (spec .logging start) (k true) (x.hold bp b .dirty) Q)
    (hfalse : wp (spec .logging start) (k false) (x.hold bp b .clean) Q) :
    wp (spec .logging start) (eitherCopyin bp d off src tot m >>= k) (x.hold bp b .clean) Q := by
  cases src with
  | user va =>
    refine ⟨hx, b, held_hold_self .., fun hin => ⟨?_, hfalse⟩⟩
    rw [hold_hold]
    exact htrue (hx.resolve_right (hin rfl))
  | kernel bytes =>
    refine ⟨hx.ne_recover, b, .clean, held_hold_self .., fun hin => ?_⟩
    rw [hold_hold]
    exact htrue (hx.resolve_right (hin rfl))

theorem keeps_writeiLoop (sb : Superblock) (src : Src) (n rounds : Nat) :
    ∀ (ip : Inode) (tot off : Nat),
      Keeps (H := H) start (writeiLoop sb src n rounds ip tot off) := by
  induction rounds with
  | zero => exact fun ip tot off => Keeps.pure _
  | succ rounds ih =>
    intro ip tot off
    rw [writeiLoop]
    split
    · refine (keeps_bmap sb ip _).bind ?_
      rintro ⟨addr, ip'⟩ x hx
      rw [wp_bread]
      intro i d hi _
      refine wp_eitherCopyin hx (fun hin => ?_) ?_
      · exact wp_logDrop hin hi (ih _ _ _ x hx)
      · exact wp_drop hi rfl
    · exact Keeps.pure _

theorem keeps_writei (sb : Superblock) (ip : Inode) (src : Src) (off n : Nat) :
    Keeps (H := H) start (writei sb ip src off n) := by
  rw [writei]
  split
  · exact Keeps.pure _
  split
  · exact Keeps.pure _
  · refine (keeps_writeiLoop sb src n n ip 0 off).bind ?_
    rintro ⟨off', ip'⟩
    dsimp only
    split
    · exact (keeps_iupdate sb _).bind fun _ => Keeps.pure _
    · exact Keeps.pure _

end Keeps

/-! ## System calls -/

/-- What a system call does to disk blocks.  The index says whether it is between `begin_op` and
`end_op`. -/
inductive Calls : Bool → Type
  | ret : Calls false
  | beginOp (k : Calls true) : Calls false
  | endOp (k : Calls false) : Calls true
  /-- `ilock` of an inode that is not valid. -/
  | ilock {o : Bool} (inum : Nat) (k : Inode → Calls o) : Calls o
  | readi {o : Bool} (ip : Inode) (dst : Dst) (off n : Nat)
      (k : Nat × List UInt8 × Inode → Calls o) : Calls o
  | ialloc (type : Nat) (k : Nat → Calls true) : Calls true
  | iupdate (ip : Inode) (k : Calls true) : Calls true
  | itrunc (ip : Inode) (k : Inode → Calls true) : Calls true
  | writei (ip : Inode) (src : Src) (off n : Nat) (k : Option Nat × Inode → Calls true) :
      Calls true

/-- The code of a system call. -/
def Calls.code (sb : Superblock) (start : Nat) : {o : Bool} → Calls o → K (Fin nbuf) Unit
  | _, .ret => pure ()
  | _, .beginOp k => do
    Bio.beginOp
    k.code sb start
  | _, .endOp k => do
    Bio.endOp start
    k.code sb start
  | _, .ilock inum k => do
    let ip ← ilockRead sb inum
    (k ip).code sb start
  | _, .readi ip dst off n k => do
    let r ← Fs.readi sb ip dst off n
    (k r).code sb start
  | _, .ialloc type k => do
    let inum ← Fs.ialloc sb type
    (k inum).code sb start
  | _, .iupdate ip k => do
    Fs.iupdate sb ip
    k.code sb start
  | _, .itrunc ip k => do
    let ip ← Fs.itrunc sb ip
    (k ip).code sb start
  | _, .writei ip src off n k => do
    let r ← Fs.writei sb ip src off n
    (k r).code sb start

/-- A process in a system call, holding nothing. -/
def Calls.ctx : Bool → Ctx (Fin nbuf)
  | true => { idle with place := .inOp }
  | false => idle

theorem Calls.calling (o : Bool) : Calling (Calls.ctx o) := by
  cases o with
  | true => exact .inl rfl
  | false => exact .inr rfl

theorem Calls.wp_code (sb : Superblock) (start : Nat) {o : Bool} (c : Calls o) :
    wp (spec .logging start) (c.code sb start) (Calls.ctx o) fun _ y => y = idle := by
  induction c with
  | ret => rfl
  | beginOp k ih => exact ⟨rfl, ih⟩
  | endOp k ih => exact Code.wp_bind (monotone_spec _ _) (wp_endOp rfl rfl rfl ih)
  | ilock inum k ih => exact (keeps_ilockRead sb inum).wp_bind (Calls.calling _) ih
  | readi ip dst off n k ih => exact (keeps_readi sb ip dst off n).wp_bind (Calls.calling _) ih
  | ialloc type k ih => exact (keeps_iallocFrom sb type _).wp_bind (Calls.calling _) ih
  | iupdate ip k ih => exact (keeps_iupdate sb ip).wp_bind (Calls.calling _) fun _ => ih
  | itrunc ip k ih => exact (keeps_itrunc sb ip).wp_bind (Calls.calling _) ih
  | writei ip src off n k ih => exact (keeps_writei sb ip src off n).wp_bind (Calls.calling _) ih

/-- The machine in which processes make system calls. -/
def syscalls (P : Type) [DecidableEq P] (sb : Superblock) :
    System (State P) (Act (Calls false) P) :=
  machine P fun start c => c.code sb start

/-- No boot finds a transaction to install, nothing is stored outside of operations, and no copy is
torn. -/
def Untorn {P : Type} (s : State P) (a : Act (Calls false) P) : Prop :=
  CleanBoot s a ∧ Inside s a ∧ WholeCopy s a

variable {P : Type} [DecidableEq P] [Fintype P]

/-- **The cache agrees with the disk.**  Whenever no buffer is locked, a valid buffer has the
contents of its disk block unless the block is in the running transaction.  And a buffer that `bget`
may recycle always does, so nothing is lost by reading the block again. -/
theorem coherence (sb : Superblock) (hP : Fintype.card P ≤ nproc) {s : State P}
    (h : (syscalls P sb).Reach Untorn s) (hm : ∀ m, s.mode ≠ .halted m) :
    ((∀ i, (s.buf i).lock = none) → ∀ i, (s.buf i).valid = true → (s.buf i).dev = rootDev →
      (s.buf i).blockno ∉ s.log.lh → (s.buf i).data = s.disk (s.buf i).blockno) ∧
    (∀ i, s.victim = some i → (s.buf i).valid = true → (s.buf i).dev = rootDev →
      (s.buf i).data = s.disk (s.buf i).blockno) := by
  have hinv : Inv .logging s := inv_reach (fun start c => c.wp_code sb start) hP
    (fun _ _ hok => hok.1) (fun _ _ _ hok => hok.2) h
  obtain ⟨-, -, x, hx, hcoh⟩ := hinv.live hm
  -- a dirty buffer is locked
  have hdirty : ∀ i, (s.buf i).lock = none → ¬ ∃ q b, (x q).held i = some (b, .dirty) := by
    rintro i hi ⟨q, b, hq⟩
    have := ((hx q).held i).mpr (by simp [hq])
    simp [hi] at this
  refine ⟨fun hl i hv hd hb => ?_, fun i hi hv hd => ?_⟩
  · rcases (hcoh rfl).contents i hv hd with hc | hc | hc
    · exact hc
    · exact absurd (List.mem_of_mem_drop hc) hb
    · exact absurd hc (hdirty i (hl i))
  · obtain ⟨hg, hpin⟩ := hinv.refs.of_refcnt_eq_zero (Turn.victim_some hi)
    have hfree : (s.buf i).lock = none := by
      by_contra hne
      have := hinv.refs.gets_pos_of_lock hne
      omega
    rcases (hcoh rfl).contents i hv hd with hc | hc | hc
    · exact hc
    · exact absurd ⟨hd, hc⟩ hpin
    · exact absurd hc (hdirty i hfree)

/-! ## Runs -/

/-- A test that implies `Untorn`. -/
def untorn {P : Type} (s : State P) : Act (Calls false) P → Bool
  | .powerOn _ => decide (Log.readHead (s.disk s.log.start) = [])
  | .run p m =>
    match s.thread p with
    | .run (.cmd (.store _ _) _) | .run (.cmd (.logWrite _) _) => decide (s.place p ≠ .outside)
    | .run (.cmd (.copyin _ _ va n) _) => decide (s.place p ≠ .outside) && (copyin m va n).2
    | _ => true
  | .call .. | .boot => true

theorem Untorn.of_test {P : Type} {s : State P} {a : Act (Calls false) P}
    (h : untorn s a = true) : Untorn s a := by
  cases a with
  | powerOn p => exact ⟨of_decide_eq_true h, trivial, trivial⟩
  | call p t | boot => exact ⟨trivial, trivial, trivial⟩
  | run p m =>
    rw [untorn] at h
    refine ⟨trivial, ?_⟩
    rw [Inside, WholeCopy]
    split at h
    · rename_i ht
      rw [ht]
      exact ⟨of_decide_eq_true h, trivial⟩
    · rename_i ht
      rw [ht]
      exact ⟨of_decide_eq_true h, trivial⟩
    · rename_i ht
      rw [ht]
      rw [Bool.and_eq_true] at h
      exact ⟨of_decide_eq_true h.1, .inl h.2⟩
    · rename_i hstore hlog hcopy
      refine ⟨?_, ?_⟩
      · split
        · exact absurd ‹_› (hstore _ _ _)
        · exact absurd ‹_› (hcopy _ _ _ _ _)
        · exact absurd ‹_› (hlog _ _)
        · trivial
      · split
        · exact absurd ‹_› (hcopy _ _ _ _ _)
        · trivial

/-- A file of one block, block 70. -/
def oneBlockFile : Inode :=
  { inum := 5, type := 2, major := 0, minor := 0, nlink := 1, size := 1024,
    addrs i := if i = 0 then 70 else 0 }

/-- A machine with that file on its disk, and zeros everywhere else. -/
def oneFile : State (Fin 2) :=
  powerOff (fun b => if b = 32 then writeDinode Block.zero oneBlockFile else Block.zero) 2 30

theorem oneFile_init : (syscalls (Fin 2) mkfsSuper).init oneFile := ⟨_, _, _, rfl⟩

/-- Write a block to the file, from the last 512 bytes of the first page and what follows. -/
def writeAcross : Calls false :=
  .beginOp (.ilock 5 fun ip => .writei ip (.user 3584) 0 1024 fun _ => .endOp .ret)

/-- User memory full of ones, with one page or with two. -/
def ones (pages : Nat) : UserMem := fun va => if va < pages * pgSize then some fun _ => 1 else none

/-- Boot, and let the first process make that call. -/
def bootAndWrite (pages n : Nat) : List (Act (Calls false) (Fin 2)) :=
  [.powerOn 0] ++ List.replicate 16 (.run 0 (ones pages)) ++ [.boot, .call 0 writeAcross] ++
    List.replicate n (.run 0 (ones pages))

/-- With two pages of user memory the block has been written to the disk in the end, and the cache
has the same. -/
theorem coherence_two_pages : ∃ s : State (Fin 2), (syscalls (Fin 2) mkfsSuper).Reach Untorn s ∧
    (s.buf (bufAt 2)).blockno = 70 ∧ (s.buf (bufAt 2)).data.byte 0 = 1 ∧
    (s.buf (bufAt 2)).data = s.disk 70 := by
  have hrun : ((syscalls (Fin 2) mkfsSuper).execOk untorn oneFile (bootAndWrite 2 96)).map
      (fun s => decide (s.mode = .running ∧ (∀ i, (s.buf i).lock = none) ∧
        (s.buf (bufAt 2)).valid = true ∧ (s.buf (bufAt 2)).dev = rootDev ∧ s.log.lh = [] ∧
        (s.buf (bufAt 2)).blockno = 70 ∧ (s.buf (bufAt 2)).data.byte 0 = 1)) = some true := by
    decide +kernel
  obtain ⟨s, hs, hd⟩ := Option.map_eq_some_iff.mp hrun
  have hreach : (syscalls (Fin 2) mkfsSuper).Reach Untorn s :=
    (reach_of_execOk (.init oneFile_init) hs).mono fun _ _ h => .of_test h
  obtain ⟨hm, hl, hv, hdev, hlh, hb, h1⟩ := of_decide_eq_true hd
  have hc := (coherence mkfsSuper (by decide) hreach (by simp [hm])).1 hl (bufAt 2) hv hdev
    (by simp [hlh])
  exact ⟨s, hreach, hb, h1, hb ▸ hc⟩

/-- **A torn copy stays in the cache.**  With one page of user memory `copyin` stops after 512 bytes
and `writei` releases the buffer without logging it.  When the call has returned and no buffer is
locked, the cached block starts with a one and the block on the disk with a zero, and it is not in
any transaction. -/
theorem coherence_fails : ∃ s : State (Fin 2), (syscalls (Fin 2) mkfsSuper).Reach Any s ∧
    s.mode = .running ∧ (∀ i, (s.buf i).lock = none) ∧ (s.buf (bufAt 2)).valid = true ∧
    (s.buf (bufAt 2)).dev = rootDev ∧ (s.buf (bufAt 2)).blockno = 70 ∧ s.log.lh = [] ∧
    (s.buf (bufAt 2)).data.byte 0 = 1 ∧ (s.disk 70).byte 0 = 0 :=
  (Reach.init oneFile_init).replay (bootAndWrite 1 68) (by decide +kernel)

end Xv6.Fs
