import Xv6.Log.History

/-!
# Log space admission

`begin_op` reserves `MAXOPBLOCKS` blocks for every operation it lets in and stops at `LOGSIZE`;
`log_write` panics when the transaction has reached `LOGSIZE` blocks or the last block of the log
area; and `mkfs` makes the log area `LOGSIZE` blocks long, **including the header block**.  So the
area has room for `LOGSIZE - 1` blocks, the reservations go up to `LOGSIZE`, and the test is made
before it is known whether the block is new.

`tooBig_iff` says when the test fires, in terms of what the operations have logged:
`admission` is the statement over whole runs.  The three operations of `admission_fails` keep to
their budget of `MAXOPBLOCKS` blocks each, and the last `log_write` panics all the same.
-/

namespace Xv6
namespace Log

open Lts Lts.System State

variable {P : Type} [DecidableEq P] {a : Act P} {ok : State P × History P → Act P → Prop}
variable {x : State P × History P}

/-- The blocks `p` has recorded since its last `begin_op`. -/
def opBlocks (p : P) : List (Event P) → List Nat → List Nat
  | [], acc => acc
  | .beginOp q :: es, acc => opBlocks p es (if q = p then [] else acc)
  | .logWrite q b _ :: es, acc => opBlocks p es (if q = p then b :: acc else acc)
  | .endOp _ :: es, acc => opBlocks p es acc

/-- The operation keeps to its budget: with the block it is about to log, it has logged at most
`MAXOPBLOCKS` distinct blocks. -/
def inBudget (x : State P × History P) : Act P → Bool
  | .logCall p b _ => decide ((b :: opBlocks p x.2.cur []).toFinset.card ≤ maxOpBlocks)
  | _ => true

/-- The blocks the running transaction has recorded so far. -/
def transBlocks (h : History P) : Finset Nat := (h.cur.filterMap Event.block).toFinset

/-- When a block is about to be logged, the operations of the running transaction have together
logged fewer than `LOGSIZE - 1` distinct blocks. -/
def hasRoom (x : State P × History P) : Act P → Bool
  | .logCall _ _ _ => decide ((transBlocks x.2).card < logSize - 1)
  | _ => true

/-- The traced machine on the layout `mkfs` writes: `sb.nlog = LOGSIZE`. -/
def mkfsLog (P : Type) [DecidableEq P] : System (State P × History P) (Act P) where
  init x := (traced P).init x ∧ x.1.log.size = logSize
  step := (traced P).step

variable [Fintype P]

section

omit [Fintype P]

theorem reach_traced_of_mkfsLog (h : (mkfsLog P).Reach ok x) : (traced P).Reach ok x := by
  induction h with
  | init h => exact Reach.init h.1
  | step _ ha hs ih => exact ih.step ha hs

theorem step_area {s s' : State P} (hs : step s a = some s') : s'.log.area = s.log.area := by
  cases a with
  | beginOp p =>
    obtain ⟨_, _, rfl⟩ := of_beginOp hs
    rw [stepBeginOp]
    split
    · exact rfl
    · rename_i hb
      obtain ⟨_, rfl⟩ := beginOp_eq_some hb
      exact rfl
  | kill p =>
    obtain ⟨_, _, rfl⟩ := of_kill hs
    exact rfl
  | logCall p b v =>
    obtain ⟨_, _, _, _, rfl⟩ := of_logCall hs
    split <;> exact rfl
  | logTest p =>
    obtain ⟨_, _, _, _, rfl⟩ := of_logTest hs
    split <;> exact rfl
  | logWrite p =>
    obtain ⟨b, _, _, _, rfl⟩ := of_logWrite hs
    rw [stepLogWrite]
    rcases logWrite_cases s.log b with ⟨_, he⟩ | ⟨_, _, he⟩ | ⟨_, _, he⟩ <;> rw [he] <;>
      exact rfl
  | endOp p =>
    obtain ⟨_, _, rfl⟩ := of_endOp hs
    rw [stepEndOp]
    cases hc : s.log.committing with
    | true => rw [endOp_of_committing hc]; exact rfl
    | false =>
      by_cases ho : s.log.outstanding = 1
      · rw [endOp_last hc ho]; exact rfl
      · rw [endOp_more hc ho]; exact rfl
  | commit p =>
    obtain ⟨c, _, _, rfl⟩ := of_commit hs
    cases c <;> rw [stepCommit] <;> (try split) <;>
      first | exact rfl | exact bread_of (Q := fun s' => s'.log.area = _) rfl rfl
  | evict b =>
    obtain ⟨_, rfl⟩ := of_evict hs
    exact rfl
  | crash =>
    obtain rfl := of_crash hs
    exact rfl
  | recover =>
    obtain ⟨r, _, _, rfl⟩ := of_recover hs
    cases r <;> rw [stepRecover] <;> first | exact rfl | (split <;> exact rfl)
  | boot =>
    obtain ⟨_, rfl⟩ := of_boot hs
    exact rfl

theorem size_mkfsLog (h : (mkfsLog P).Reach ok x) : x.1.log.size = logSize := by
  induction h with
  | init h => exact h.2
  | step _ _ hs ih => exact (congrArg Area.size (step_area (of_traced hs).1)).trans ih

end

/-- **When the test of `log_write` fires**: once the running transaction has recorded
`LOGSIZE - 1` distinct blocks, whether or not the block is one of them. -/
theorem tooBig_iff (hi : Inv x.1) (w : Watches x.1 x.2) (hsize : x.1.log.size = logSize)
    (hup : x.1.Up) (hc : x.1.log.committing = false) :
    tooBig x.1.log = true ↔ logSize - 1 ≤ (transBlocks x.2).card := by
  have hlen := length_lh_eq hi w hup hc
  rw [tooBig, hsize, Bool.or_eq_true, decide_eq_true_eq, decide_eq_true_eq, hlen, transBlocks]
  omega

/-- A step gets to the panic only from the test of a `log_write` that has no room. -/
theorem tooBig_step {x' : State P × History P} (hi : Inv x.1) (w : Watches x.1 x.2)
    (hsize : x.1.log.size = logSize) (hs : (traced P).step x a = some x')
    (hm : x.1.mode ≠ .halted .tooBigATransaction) :
    x'.1.mode = .halted .tooBigATransaction ↔ hasRoom x a = false := by
  obtain ⟨hs, -⟩ := of_traced hs
  have hroom : ∀ {p b v}, a = .logCall p b v →
      (tooBig x.1.log = true ↔ hasRoom x a = false) ∧ x'.1 =
        if tooBig x.1.log then x.1.halt .tooBigATransaction else x.1.goto p (.logTested b v) := by
    rintro p b v rfl
    obtain ⟨hmode, hp, _, _, hx⟩ := of_logCall hs
    have hnc := hi.not_committing (p := p) (by rw [hp]; rfl)
    rw [hasRoom, decide_eq_false_iff_not, Nat.not_lt]
    exact ⟨tooBig_iff hi w hsize (up_of_running hmode) hnc, hx⟩
  constructor
  · intro hm'
    obtain h | h | ⟨-, ht, p, b, v, ha⟩ := halted_of_step hi hs hm hm'
    · nomatch h
    · nomatch h
    · exact (hroom ha).1.mp ht
  · intro hr
    cases a with
    | logCall p b v =>
      obtain ⟨hiff, hx⟩ := hroom rfl
      rw [hx, if_pos (hiff.mpr hr)]
      rfl
    | _ => nomatch hr

/-- **Log space admission.**  On the layout `mkfs` writes, with every operation within its budget:
as long as no `log_write` is called when the running transaction already has `LOGSIZE - 1` distinct
blocks, the panic is not reached; and a `log_write` called when it has them does reach it. -/
theorem admission :
    (∀ x, (mkfsLog P).Reach (fun x a => inBudget x a = true ∧ hasRoom x a = true) x →
      x.1.mode ≠ .halted .tooBigATransaction) ∧
    (∀ x a x', (mkfsLog P).Reach (fun x a => inBudget x a = true) x →
      (mkfsLog P).step x a = some x' → hasRoom x a = false →
      x'.1.mode = .halted .tooBigATransaction) := by
  constructor
  · intro x h
    induction h with
    | init h =>
      obtain ⟨⟨disk, start, size, _, _, rfl⟩, _⟩ := h
      simp [powerOn]
    | step h ha hs ih =>
      have hr := reach_traced_of_mkfsLog h
      intro hm
      have := (tooBig_step (inv_traced hr) (watches_reach hr) (size_mkfsLog h) hs ih).mp hm
      exact absurd (ha.2.symm.trans this) (by simp)
  · intro x a x' h hs hroom
    have hr := reach_traced_of_mkfsLog h
    refine (tooBig_step (inv_traced hr) (watches_reach hr) (size_mkfsLog h) hs ?_).mpr hroom
    -- only a call of `log_write` can be without room, and none is made in a halted machine
    cases a with
    | logCall p b v =>
      obtain ⟨hm, _⟩ := of_logCall (of_traced hs).1
      rw [hm]; simp
    | _ => exact absurd hroom (by simp [hasRoom])

/-- `p` logs the block `50 + i`. -/
def logOne (p : P) (i : Nat) : List (Act P) :=
  [.logCall p (50 + i) Block.zero, .logTest p, .logWrite p]

/-- Three operations log ten distinct blocks each. -/
def threeFullOps : List (Act (Fin 3)) :=
  bootActs ++ [.beginOp 0, .beginOp 1, .beginOp 2] ++
    (List.range 10).flatMap (logOne 0) ++
    (List.range 10).flatMap (fun i => logOne 1 (10 + i)) ++
    (List.range 9).flatMap (fun i => logOne 2 (20 + i)) ++
    [.logCall 2 79 Block.zero]

/-- The disk right after `mkfs`, as far as the log is concerned, and no history. -/
def freshLog (P : Type) [DecidableEq P] : State P × History P :=
  (powerOn (fun _ => Block.zero) 2 logSize,
    { base := fun _ => Block.zero, groups := [], returned := 0, cur := [] })

theorem readHead_zero : readHead Block.zero = [] := by
  simp [readHead]

omit [Fintype P] in
theorem freshLog_init : (mkfsLog P).init (freshLog P) :=
  ⟨⟨_, _, _, by decide, readHead_zero, rfl⟩, rfl⟩

/-- **Three operations within their budgets can exhaust the log.**  The thirtieth block finds
twenty-nine in the transaction, which is all the log area holds besides its header. -/
theorem admission_fails : ¬ ∀ x, (mkfsLog (Fin 3)).Reach (fun x a => inBudget x a = true) x →
      x.1.mode ≠ .halted .tooBigATransaction := by
  intro hall
  obtain ⟨x, hx, hm⟩ : ∃ x, (mkfsLog (Fin 3)).Reach (fun x a => inBudget x a = true) x ∧
      x.1.mode = .halted .tooBigATransaction :=
    (Reach.init freshLog_init).replay threeFullOps (by decide +kernel)
  exact hall x hx hm

end Log
end Xv6
