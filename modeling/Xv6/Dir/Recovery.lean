import Xv6.Dir.Links

/-!
# Inodes after a crash

Every system call on directories runs between `begin_op` and `end_op`, and the log commits when no
call is inside: what is on disk after a crash and `recover_from_log` is the file system at such a
moment.  The reboot knows nothing of open files and current directories, and nothing looks for
inodes that only they kept alive.

`named_iff_linked` says when a crash loses no inode: exactly when the committed file system has no
allocated inode with link count 0.  `sys_unlink` commits such a file system when the file is still
open, and the inode is then allocated for ever (`open_file_lost`).
-/

namespace Xv6.Dir

open Lts System Multigraph

/-! ## The machine -/

/-- The running system, and what is on disk. -/
structure Mounted (P : Type) where
  fs : State P
  committed : Nat → Node

variable {P : Type} [Fintype P] [DecidableEq P]

/-- The steps of system calls, and those of the log. -/
inductive LogAct (P : Type) where
  | fs (a : Act P)
  /-- `commit`, when no operation is outstanding. -/
  | commit
  /-- A crash, the reboot with `recover_from_log`, and the first process. -/
  | crash (p : P)

/-- After a reboot. -/
def boot (N : Nat → Node) (p : P) : State P where
  node := N
  ref i := if i = rootIno then 1 else 0
  valid _ := false
  lock _ := none
  cwd q := if q = p then some rootIno else none
  files := []
  thread _ := .idle
  removing _ := none
  halted := none

/-- A step. -/
def Mounted.step (n : Nat) (s : Mounted P) : LogAct P → Option (Mounted P)
  | .fs a => (Dir.step n s.fs a).map fun t => { s with fs := t }
  | .commit =>
    if s.fs.halted = none ∧ ∀ p, (s.fs.thread p).isIdle = true then
      some { s with committed := s.fs.node }
    else none
  | .crash p => some { s with fs := boot s.committed p }

/-- The machine starts with a well-formed file system on disk. -/
def logged (P : Type) [Fintype P] [DecidableEq P] (n : Nat) : System (Mounted P) (LogAct P) where
  init s := (machine P n (WellFormed n)).init s.fs ∧ s.committed = s.fs.node
  step := Mounted.step n

/-- The condition of `nlink_eq_links`, on the steps of system calls. -/
def CarefulLog (n : Nat) (s : Mounted P) : LogAct P → Prop
  | .fs a => Careful n true s.fs a
  | _ => True

/-! ## What is committed -/

/-- A file system in which no call is in progress. -/
structure Snapshot (n : Nat) (N : Nat → Node) : Prop where
  graph : Graph n true N (fun _ => False) fun _ => 0
  good : ∀ d q, (N d).kind = .dir → up (N d).ents = some q → Good N (fun _ => False) q

variable {n : Nat} {s s' : Mounted P}

omit [Fintype P] [DecidableEq P] in
theorem fresh_idle : (Fresh (jobs fun _ : P => Ctx.idle)) = fun _ => False := by
  funext i
  exact eq_false not_fresh_idle

omit [DecidableEq P] in
theorem Safe.snapshot {t : State P} (h : Safe n true t) (ht : Between t) : Snapshot n t.node := by
  have hI := h.idle ht
  have g := hI.graph
  rw [owed_idle, fresh_idle] at g
  refine ⟨g, fun d q hd hu => ?_⟩
  have hp := hI.parents d q hd not_fresh_idle hu
  rw [fresh_idle] at hp
  refine hp.resolve_right ?_
  rintro ⟨⟨p, hp⟩, -⟩
  rcases hI.table.removing p d hp with h | h <;> nomatch h

theorem Snapshot.safe {N : Nat → Node} (h : Snapshot n N) (p : P) : Safe n true (boot N p) := by
  refine ⟨by rintro ⟨⟩, fun _ => .idle, ?_, fun _ _ => rfl⟩
  have hcount : count Option.isSome (boot N p).cwd = 1 := by
    have hp : ∀ q, (Option.isSome ((boot N p).cwd q) = true) = (q = p) := fun q => by
      by_cases hq : q = p <;> simp [boot, hq]
    simp only [count, hp, Finset.filter_eq', Finset.mem_univ, if_true, Finset.card_singleton]
  exact {
    table := table_idle (fun q => by by_cases hq : q = p <;> simp [boot, hq])
      (fun i => by rw [hcount]; rfl) (fun _ => rfl) (fun _ => rfl) rfl (by
        rw [show (boot N p).node = N from rfl, h.graph.root.1]
        rintro ⟨⟩)
    graph := by
      rw [owed_idle, fresh_idle]
      exact h.graph
    jobs := ⟨fun _ => trivial, by intros; contradiction, by rintro _ _ ⟨⟩, by intros; contradiction⟩
    parents d q hd _ hu := by
      rw [fresh_idle]
      exact .inl (h.good d q hd hu) }

/-! ## Names -/

/-- Some entry of a directory that can be reached from the root names the inode. -/
def Named (N : Nat → Node) (i : Nat) : Prop := ∃ d e, Reachable N d ∧ e ∈ (N d).ents ∧ e.inum = i

section Names

variable {N : Nat → Node} {d i : Nat}

theorem Snapshot.nlink_eq (h : Snapshot n N) (hi : (N i).kind ≠ .free) :
    (N i).nlink = total n N (fun _ => 0) i := h.graph.counts_eq i hi (.inr rfl)

theorem Snapshot.nlink_pos_of_reachable (h : Snapshot n N) (hd : Reachable N d) :
    0 < (N d).nlink := by
  rw [h.nlink_eq (by rw [hd.1]; exact nofun), total]
  rcases hd.2.cases_tail with h1 | ⟨e, _, he⟩
  · rw [if_pos h1]
    omega
  · have := indeg_pos.mpr ⟨e, h.graph.lt_of_mem he, he⟩
    omega

/-- **An allocated inode has a name if and only if it has a link.** -/
theorem Snapshot.named_iff (h : Snapshot n N) (hi : (N i).kind ≠ .free) :
    Named N i ↔ 0 < (N i).nlink := by
  constructor
  · rintro ⟨d, e, hd, he, rfl⟩
    obtain ⟨q, hq⟩ := h.graph.shape d hd.1 id
    rcases hq.mem_cases he (h.graph.bound _ hi).1 with ⟨h1, -⟩ | h1 | ⟨h1, -⟩
    · rw [h1]
      exact h.nlink_pos_of_reachable hd
    · rw [h1]
      exact (h.good d q hd.1 hq.up_eq).2.1
    · have ho : e.inum ∈ outs N d := mem_outs.mpr ⟨hd.1, h1⟩
      have := indeg_pos.mpr ⟨d, h.graph.lt_of_mem ho, ho⟩
      rw [h.nlink_eq hi, total]
      omega
  · intro hpos
    by_cases hr : i = rootIno
    · subst hr
      obtain ⟨q, rest, hes, -⟩ := h.graph.shape rootIno h.graph.root.1 id
      refine ⟨rootIno, ⟨rootIno, dot⟩, ⟨h.graph.root.1, .refl⟩, ?_, rfl⟩
      rw [hes]
      exact List.mem_cons_self
    · rw [h.nlink_eq hi, h.graph.total_eq_links fun _ => id] at hpos
      obtain ⟨d, e, hd, he, -, hei⟩ := exists_entry_of_links hr hpos
      exact ⟨d, e, hd, he, hei⟩

end Names

/-! ## Runs with crashes -/

theorem inv_logged (h : (logged P n).Reach (CarefulLog n) s) :
    Safe n true s.fs ∧ Snapshot n s.committed := by
  refine h.inv (I := fun s => Safe n true s.fs ∧ Snapshot n s.committed) (fun s hs => ?_) ?_
  · obtain ⟨hs, hc⟩ := hs
    have hsafe : Safe n true s.fs := .init hs
    rw [hc]
    exact ⟨hsafe, hsafe.snapshot ⟨hs.2.2.2.2.2.2.2, hs.2.2.2.2.1⟩⟩
  · rintro s a s' ⟨hsafe, hsnap⟩ ha hs
    cases a with
    | fs a =>
      obtain ⟨t, ht, rfl⟩ := Option.map_eq_some_iff.mp hs
      exact ⟨hsafe.step ha ht, hsnap⟩
    | commit =>
      have hs : (if s.fs.halted = none ∧ ∀ p, (s.fs.thread p).isIdle = true then
        some { s with committed := s.fs.node } else none) = some s' := hs
      split at hs
      · rename_i hb
        cases hs
        exact ⟨hsafe, hsafe.snapshot ⟨hb.1, fun p => Thread.eq_idle (hb.2 p)⟩⟩
      · nomatch hs
    | crash p =>
      cases hs
      exact ⟨hsnap.safe p, hsnap⟩

/-- **What a crash loses.**  After a crash and the recovery, every allocated inode has a name if and
only if what had been committed has no allocated inode without links. -/
theorem named_iff_linked (h : (logged P n).Reach (CarefulLog n) s) {p : P}
    (hs : (logged P n).step s (.crash p) = some s') :
    (∀ i, (s'.fs.node i).kind ≠ .free → Named s'.fs.node i) ↔
      ∀ i, (s.committed i).kind ≠ .free → 0 < (s.committed i).nlink := by
  cases hs
  exact forall_congr' fun i => forall_congr' fun hi => (inv_logged h).2.named_iff hi

instance (n : Nat) (s : Mounted P) : (a : LogAct P) → Decidable (CarefulLog n s a)
  | .fs a => inferInstanceAs (Decidable (Careful n true s.fs a))
  | .commit | .crash _ => isTrue trivial

theorem init_logged {n : Nat} (hn : rootIno < n) : (logged (Fin 1) n).init ⟨alone, emptyRoot⟩ :=
  ⟨init_alone hn, rfl⟩

/-- A file is made, and that is committed. -/
def makeFile : List (LogAct (Fin 1)) :=
  (whole (.open "f".toList true true) 16 2).map .fs ++ [.commit]

/-- Then a crash loses nothing: the root and the new file have names. -/
theorem named_iff_linked_makeFile : ∃ s s', (logged (Fin 1) 200).Reach (CarefulLog 200) s ∧
    (logged (Fin 1) 200).step s (.crash 0) = some s' ∧ (s'.fs.node 2).kind = .file ∧
    Named s'.fs.node rootIno ∧ Named s'.fs.node 2 := by
  obtain ⟨s, hreach, hroot, hfile, hlinks⟩ : ∃ s, (logged (Fin 1) 200).Reach (CarefulLog 200) s ∧
      (s.committed rootIno).kind = .dir ∧ (s.committed 2).kind = .file ∧
      ∀ i : Fin 200, (s.committed i).kind = .free ∨ 0 < (s.committed i).nlink :=
    (Reach.init (init_logged (by decide))).replay makeFile (by decide +kernel)
  have hnamed := (named_iff_linked hreach (p := 0) rfl).mpr fun i hi =>
    (hlinks ⟨i, ((inv_logged hreach).2.graph.bound i hi).2⟩).resolve_left hi
  exact ⟨s, _, hreach, rfl, hfile, hnamed rootIno (by rintro h; cases hroot.symm.trans h),
    hnamed 2 (by rintro h; cases hfile.symm.trans h)⟩

/-- The file is unlinked while it is open, that is committed too, and then there is a crash. -/
def unlinkOpen : List (LogAct (Fin 1)) :=
  makeFile ++ (whole (.unlink "f".toList) 16 0).map .fs ++ [.commit, .crash 0]

/-- The inode is allocated, nobody refers to it, and no entry of any directory names it. -/
theorem open_file_lost : ∃ s, (logged (Fin 1) 200).Reach Any s ∧ (s.fs.node 2).kind = .file ∧
    s.fs.ref 2 = 0 ∧
    ¬ Named s.fs.node 2 := by
  obtain ⟨s, hreach, hk, href, hl, hh, ht⟩ : ∃ s, (logged (Fin 1) 200).Reach (CarefulLog 200) s ∧
      (s.fs.node 2).kind = .file ∧ s.fs.ref 2 = 0 ∧ (s.fs.node 2).nlink = 0 ∧
      s.fs.halted = none ∧ (s.fs.thread 0).isIdle :=
    (Reach.init (init_logged (by decide))).replay unlinkOpen (by decide +kernel)
  have hsnap := (inv_logged hreach).1.snapshot ⟨hh, Fin.forall_fin_one.mpr (Thread.eq_idle ht)⟩
  refine ⟨s, hreach.mono fun _ _ _ => trivial, hk, href, fun hn => ?_⟩
  have := (hsnap.named_iff (by rw [hk]; exact nofun)).mp hn
  omega

end Xv6.Dir
