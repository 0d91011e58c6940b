import Xv6.Bio.Invariant

/-!
# Reference counts, across boots

`install_trans` is used twice: by `commit`, where `log_write` has pinned the blocks it installs, and
by `recover_from_log`, where nobody has.  Its `bunpin` is right in the first case only.

`refcnt_exact` says what the counts are as long as no boot finds a transaction to install, for any
processes that run any code which keeps the rules of `Rules.pinning`.  `refcnt_fails` is a boot
after a crash in `commit`: the count of the buffer that was installed wraps around, the next `bread`
of that block brings it to zero, and `bget` is ready to recycle a buffer that is locked.
-/

namespace Xv6.Bio

open Lts Lts.System Ctx

variable {P T : Type} [DecidableEq P] [Fintype P] {code : Nat → T → K (Fin nbuf) Unit}

/-- The invariant holds in every run of code that keeps the rules. -/
theorem inv_reach {r : Rules} (hcode : ∀ start t, Disciplined r start (code start t))
    (hP : Fintype.card P ≤ nproc) {ok : State P → Act T P → Prop}
    (hboot : ∀ s a, ok s a → CleanBoot s a)
    (hin : r = .logging → ∀ s a, ok s a → Inside s a ∧ WholeCopy s a) {s : State P}
    (h : (machine P code).Reach ok s) : Inv r s := by
  refine h.inv ?_ fun s a s' hi hok hs => ?_
  · rintro s ⟨disk, start, size, rfl⟩
    exact inv_powerOff disk start size
  · exact inv_step hP hcode hi (hboot s a hok) (fun hr => hin hr s a hok) hs

/-- Code that uses buffers and the log as it should. -/
structure Client where
  code : Nat → K (Fin nbuf) Unit
  disciplined : ∀ start, Disciplined .pinning start (code start)

/-- The machine in which processes run any such code. -/
def clients (P : Type) [DecidableEq P] : System (State P) (Act Client P) :=
  machine P fun start c => c.code start

/-- **The reference counts are exact** in every run that never boots with a transaction to install:
each is the number of `bget` calls not yet matched by `brelse`, plus one if the block is in the
running transaction.  During `install_trans`, the entries it has unpinned no longer count; when no
commit is going on, all of `log.lh` does.  So `bget` recycles only buffers that nobody has and that
are not pinned, and a pinned block stays cached. -/
theorem refcnt_exact (hP : Fintype.card P ≤ nproc) {s : State P}
    (h : (clients P).Reach CleanBoot s) :
    (∀ i, (s.buf i).refcnt = s.gets i + if (s.buf i).In s.pins then 1 else 0) ∧
    (s.mode = .running → s.log.committing = false → s.pins = s.log.lh) ∧
    (∀ i, s.victim = some i →
      (s.buf i).lock = none ∧ s.gets i = 0 ∧ ¬ (s.buf i).In s.pins) ∧
    (∀ b ∈ s.pins, ∃ i, (s.buf i).dev = rootDev ∧ (s.buf i).blockno = b) := by
  have hinv : Inv .pinning s :=
    inv_reach (fun start c => c.disciplined start) hP (fun _ _ h => h) (by simp) h
  refine ⟨hinv.refs.refcnt, fun hm hc => ?_, fun i hi => ?_, hinv.refs.cached⟩
  · have hlive := hinv.live (by simp [hm])
    rw [State.pins, hlive.proto.pinned hc, List.drop_zero]
  · obtain ⟨hg, hpin⟩ := hinv.refs.of_refcnt_eq_zero (Turn.victim_some hi)
    refine ⟨?_, hg, hpin⟩
    by_contra hl
    have := hinv.refs.gets_pos_of_lock hl
    omega

instance {T : Type} (s : State P) (a : Act T P) : Decidable (CleanBoot s a) :=
  match a with
  | .powerOn _ => inferInstanceAs (Decidable (_ = _))
  | .call .. | .run .. | .boot => .isTrue trivial

/-! ## Runs -/

/-- An operation that overwrites one block. -/
def overwrite (b : Nat) (v : Block) (start : Nat) : K (Fin nbuf) Unit := do
  beginOp
  let (bp, _) ← bread b
  store bp v
  logWrite bp
  brelse bp
  endOp start

theorem disciplined_overwrite (b : Nat) (v : Block) (start : Nat) :
    Disciplined .pinning start (overwrite b v start) := by
  refine ⟨rfl, ?_⟩
  intro i w hi _
  refine wp_store (by simp [idle]) (held_hold_self ..) fun _ => ?_
  refine ⟨.inl rfl, b, .dirty, held_hold_self .., fun _ => ?_⟩
  refine wp_brelse (d := .clean) (by simp) (held_hold_self ..) ?_
  simp only [hold_hold]
  rw [hold_drop hi]
  exact wp_endOp rfl rfl rfl rfl

/-- Read one block. -/
def look (b : Nat) (_ : Nat) : K (Fin nbuf) Unit := do
  let (bp, _) ← bread b
  brelse bp

theorem disciplined_look (b start : Nat) : Disciplined .pinning start (look b start) := by
  intro i w hi _
  refine ⟨b, .clean, held_hold_self .., by simp, ?_⟩
  exact hold_drop hi

/-- The process `p` takes `n` steps. -/
def steps {P : Type} (p : P) (n : Nat) : List (Act Client P) :=
  List.replicate n (.run p fun _ => none)

/-- `&bcache.buf[n]` -/
def bufAt (n : Nat) (h : n < nbuf := by decide) : Fin nbuf := ⟨n, h⟩

/-- The machine before it is switched on, with an empty disk and the log area of `mkfs`. -/
def blank : State (Fin 2) := powerOff (fun _ => Block.zero) 2 30

theorem blank_init : (machine (Fin 2) code).init blank := ⟨_, _, _, rfl⟩

/-- Boot with an empty log and overwrite block 50, up to the call of `brelse`. -/
def bootAndLog : List (Act Client (Fin 2)) :=
  [.powerOn 0] ++ steps 0 16 ++ [.boot] ++
  [.call 0 ⟨overwrite 50 Block.zero, disciplined_overwrite 50 Block.zero⟩] ++ steps 0 8

/-- A buffer that is locked and pinned has a count of two. -/
theorem refcnt_exact_logged : ∃ s : State (Fin 2), (clients (Fin 2)).Reach CleanBoot s ∧
    (s.buf (bufAt 1)).lock = some 0 ∧ s.pins = [50] ∧ s.gets (bufAt 1) = 1 ∧
    (s.buf (bufAt 1)).refcnt = s.gets (bufAt 1) + if (s.buf (bufAt 1)).In s.pins then 1 else 0 := by
  obtain ⟨s, hreach, h1, h2, h3⟩ : ∃ s : State (Fin 2), (clients (Fin 2)).Reach CleanBoot s ∧
      (s.buf (bufAt 1)).lock = some 0 ∧ s.pins = [50] ∧ s.gets (bufAt 1) = 1 :=
    (Reach.init blank_init).replay bootAndLog (by decide +kernel)
  exact ⟨s, hreach, h1, h2, h3, (refcnt_exact (by decide) hreach).1 (bufAt 1)⟩

/-- Boot with an empty log, overwrite block 50, and lose power when `commit` has written the header.
After the next boot the first process reads block 50 and has its buffer locked. -/
def crashInCommit : List (Act Client (Fin 2)) :=
  [.powerOn 0] ++ steps 0 16 ++ [.boot] ++
  [.call 0 ⟨overwrite 50 Block.zero, disciplined_overwrite 50 Block.zero⟩] ++ steps 0 31 ++
  [.powerOn 0] ++ steps 0 29 ++ [.boot] ++
  [.call 0 ⟨look 50, disciplined_look 50⟩] ++ steps 0 3

/-- **Recovery unpins what nobody has pinned.**  One `bget` of the buffer is unmatched and its count
is zero; a process holds its lock and `bget` would recycle it. -/
theorem refcnt_fails : ∃ s : State (Fin 2), (clients (Fin 2)).Reach Any s ∧
    s.mode = .running ∧ s.gets (bufAt 2) = 1 ∧ (s.buf (bufAt 2)).refcnt = 0 ∧
    (s.buf (bufAt 2)).refcnt ≠ s.gets (bufAt 2) + (if (s.buf (bufAt 2)).In s.pins then 1 else 0) ∧
    s.victim = some (bufAt 2) ∧ (s.buf (bufAt 2)).lock = some 0 :=
  (Reach.init blank_init).replay crashInCommit (by decide +kernel)

end Xv6.Bio
