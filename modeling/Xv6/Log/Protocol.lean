import Xv6.Log.Model

/-!
# The log protocol

What holds across every interleaving of `begin_op`, `log_write`, `end_op`, crashes and recovery.

The counters in `struct log` are compared with the processes themselves: `Inv` says that
`log.outstanding` is the number of processes inside an operation, that at most one process is in
`commit()` and that `log.committing` says whether there is one, that nobody is inside an operation
then, and that the transaction is empty whenever nobody is doing anything.  Nothing here needs a
bound on how much an operation logs.

`Inv` is proved one action at a time (`inv_step`); `protocol` reads the state-machine properties of
`log.c` off it.
-/

namespace Xv6
open Function (update)

namespace Log

open Lts Lts.System Option State

variable {P : Type} [DecidableEq P] {a : Act P} {s' : State P} {v : Block}
variable {b : Nat} {l : Log} {s : State P}

/-- The machine, switched on with any disk and any log area. -/
def machine (P : Type) [DecidableEq P] : System (State P) (Act P) where
  init s := ∃ disk start size, s = powerOn disk start size
  step := step

/-! ## What each action does

One lemma for each action: when it is enabled, and where it leads. -/

section Actions

variable {s s' : State P} {p : P}

theorem of_beginOp (h : step s (.beginOp p) = some s') :
    s.mode = .running ∧ (s.pc p = .idle ∨ s.pc p = .woken) ∧ s' = stepBeginOp s p := by
  rw [step] at h
  split at h
  · rename_i hm hp
    exact ⟨hm, Or.inl hp, (some.inj h).symm⟩
  · rename_i hm hp
    exact ⟨hm, Or.inr hp, (some.inj h).symm⟩
  · nomatch h

theorem of_kill (h : step s (.kill p) = some s') :
    s.mode = .running ∧ s.pc p = .sleeping ∧ s' = s.goto p .woken := by
  rw [step] at h
  split at h
  · rename_i hm hp
    exact ⟨hm, hp, (some.inj h).symm⟩
  · nomatch h

theorem of_logCall (h : step s (.logCall p b v) = some s') :
    s.mode = .running ∧ s.pc p = .inOp ∧ s.log.area.Home b ∧ b < 2 ^ 32 ∧
      s' = if tooBig s.log then s.halt .tooBigATransaction else s.goto p (.logTested b v) := by
  rw [step] at h
  split at h
  · rename_i hm hp
    split at h
    · rename_i hb
      exact ⟨hm, hp, hb.1, hb.2, (some.inj h).symm⟩
    · nomatch h
  · nomatch h

theorem of_logTest (h : step s (.logTest p) = some s') :
    ∃ b v, s.mode = .running ∧ s.pc p = .logTested b v ∧
      s' = if s.log.outstanding < 1 then s.halt .logWriteOutsideOfTrans
        else s.goto p (.logAcquire b v) := by
  rw [step] at h
  split at h
  · rename_i b v hm hp
    exact ⟨b, v, hm, hp, (some.inj h).symm⟩
  · nomatch h

theorem of_logWrite (h : step s (.logWrite p) = some s') :
    ∃ b v, s.mode = .running ∧ s.pc p = .logAcquire b v ∧ s' = stepLogWrite s p b v := by
  rw [step] at h
  split at h
  · rename_i b v hm hp
    exact ⟨b, v, hm, hp, (some.inj h).symm⟩
  · nomatch h

theorem of_endOp (h : step s (.endOp p) = some s') :
    s.mode = .running ∧ s.pc p = .inOp ∧ s' = stepEndOp s p := by
  rw [step] at h
  split at h
  · rename_i hm hp
    exact ⟨hm, hp, (some.inj h).symm⟩
  · nomatch h

theorem of_commit (h : step s (.commit p) = some s') :
    ∃ c, s.mode = .running ∧ s.pc p = .commit c ∧ s' = stepCommit s p c := by
  rw [step] at h
  split at h
  · rename_i c hm hp
    exact ⟨c, hm, hp, (some.inj h).symm⟩
  · nomatch h

omit [DecidableEq P] in
/-- What holds after `bread` if it finds a buffer, and if it panics. -/
theorem bread_of {Q : State P → Prop} {l : List Nat} (hs : Q s')
    (hh : Q (s.halt .bgetNoBuffers)) : Q (s.bread l b s') := by
  rw [State.bread]
  split
  · exact hs
  · exact hh

theorem mode_stepCommit (s : State P) (p : P) (c : Commit) :
    (stepCommit s p c).mode = s.mode ∨ (stepCommit s p c).mode = .halted .bgetNoBuffers := by
  cases c <;> rw [stepCommit] <;> (try split) <;>
    first
    | exact .inl rfl
    | exact bread_of (Q := fun s' => s'.mode = _ ∨ s'.mode = _) (.inl rfl) (.inr rfl)

theorem of_evict (h : step s (.evict b) = some s') :
    b ∉ s.log.lh ∧ s' = { s with cache := update s.cache b (s.disk b) } := by
  rw [step] at h
  split at h
  · nomatch h
  · rename_i hb
    exact ⟨hb, (some.inj h).symm⟩

theorem of_crash (h : step s .crash = some s') : s' = powerOn s.disk s.log.start s.log.size := by
  rw [step] at h
  exact (some.inj h).symm

theorem of_recover (h : step s .recover = some s') :
    ∃ r, r ≠ .returned ∧ s.mode = .recovering r ∧ s' = stepRecover s r := by
  rw [step] at h
  split at h
  · rename_i r hm
    split at h
    · nomatch h
    · rename_i hr
      exact ⟨r, hr, hm, (some.inj h).symm⟩
  · nomatch h

theorem of_boot (h : step s .boot = some s') :
    s.mode = .recovering .returned ∧ s' = { s with mode := .running } := by
  rw [step] at h
  split at h
  · rename_i hm
    exact ⟨hm, (some.inj h).symm⟩
  · nomatch h

end Actions

/-! ## What the locked sections do to `struct log` -/

theorem beginOp_eq_some {l' : Log} (h : beginOp l = some l') :
    l.committing = false ∧ l' = { l with outstanding := l.outstanding + 1 } := by
  rw [beginOp] at h
  split at h
  · nomatch h
  · rename_i hc
    split at h
    · nomatch h
    · exact ⟨by simpa using hc, (some.inj h).symm⟩

/-- `begin_op` sleeps only while a commit is going on or somebody is inside an operation: an idle
log has room for one. -/
theorem beginOp_eq_none (h : beginOp l = none) (hout : 0 ≤ l.outstanding)
    (hidle : l.outstanding = 0 → l.committing = false → l.lh = []) :
    l.committing = true ∨ 0 < l.outstanding := by
  rw [beginOp] at h
  split at h
  · rename_i hc
    exact Or.inl hc
  · rename_i hc
    split at h
    · rename_i hroom
      right
      rcases Int.lt_or_eq_of_le hout with hlt | heq
      · exact hlt
      · rw [hidle heq.symm (by simpa using hc), ← heq] at hroom
        simp [logSize, maxOpBlocks] at hroom
    · nomatch h

theorem logWrite_of_mem (h : b ∈ l.lh) : logWrite l b = .ok l := by
  have hi : l.lh.idxOf b < l.lh.length := List.idxOf_lt_length_of_mem h
  have hset := List.set_getElem_self hi
  rw [List.getElem_idxOf hi] at hset
  rw [logWrite, if_pos hi, hset]

theorem logWrite_of_notMem (h : b ∉ l.lh) :
    logWrite l b = if l.lh.length < logSize then .ok { l with lh := l.lh ++ [b] }
      else .error .overrun := by
  rw [logWrite, List.idxOf_eq_length h, if_neg (Nat.lt_irrefl _)]

/-- The locked section of `log_write` records the block once, or runs off the array. -/
theorem logWrite_cases (l : Log) (b : Nat) : (b ∈ l.lh ∧ logWrite l b = .ok l) ∨
    (b ∉ l.lh ∧ l.lh.length < logSize ∧ logWrite l b = .ok { l with lh := l.lh ++ [b] }) ∨
    (b ∉ l.lh ∧ logSize ≤ l.lh.length ∧ logWrite l b = .error .overrun) := by
  by_cases hb : b ∈ l.lh
  · exact Or.inl ⟨hb, logWrite_of_mem hb⟩
  · right
    rw [logWrite_of_notMem hb]
    by_cases hn : l.lh.length < logSize
    · exact Or.inl ⟨hb, hn, if_pos hn⟩
    · exact Or.inr ⟨hb, by omega, if_neg hn⟩

theorem endOp_of_committing (h : l.committing = true) : endOp l = .error .logCommitting := by
  simp [endOp, h]

theorem endOp_last (h : l.committing = false) (ho : l.outstanding = 1) :
    endOp l = .ok (true, { l with outstanding := 0, committing := true }) := by
  simp [endOp, h, ho]

theorem endOp_more (h : l.committing = false) (ho : l.outstanding ≠ 1) :
    endOp l = .ok (false, { l with outstanding := l.outstanding - 1 }) := by
  have hne : l.outstanding - 1 ≠ 0 := by omega
  simp [endOp, h, hne]

/-! ## The invariant -/

/-- Between the return of `begin_op` and the call of `end_op`. -/
def Pc.inside : Pc → Bool
  | .inOp | .logTested _ _ | .logAcquire _ _ => true
  | _ => false

/-- In `commit()`, or about to clear `log.committing` after it. -/
def Pc.inCommit : Pc → Bool
  | .commit _ => true
  | _ => false

/-- Past the point of `commit()` where `log.lh.n` is set to zero. -/
def Pc.erased : Pc → Bool
  | .commit .eraseHead | .commit .returned => true
  | _ => false

/-- Running, or stopped while running: `recover_from_log` has returned. -/
def State.Up (s : State P) : Prop := ∀ r, s.mode ≠ .recovering r

/-- What holds of `struct log` and the processes together. -/
structure Inv [Fintype P] (s : State P) : Prop where
  /-- `log.outstanding` counts the processes inside an operation. -/
  outstanding : s.log.outstanding = count Pc.inside s.pc
  /-- `log.committing` says whether a process is in `commit()`, and there is at most one. -/
  committing : count Pc.inCommit s.pc = if s.log.committing then 1 else 0
  /-- Nobody is inside an operation during a commit. -/
  exclusive : s.log.committing = true → s.log.outstanding = 0
  /-- Whoever sleeps has somebody to wait for. -/
  sleepers : ∀ p, s.pc p = .sleeping → s.log.committing = true ∨ 0 < s.log.outstanding
  /-- Once `commit()` has erased the transaction it stays erased. -/
  erased : ∀ p, (s.pc p).erased = true → s.log.lh = []
  /-- The transaction is empty when nobody is doing anything. -/
  empty : s.Up → s.log.outstanding = 0 → s.log.committing = false → s.log.lh = []
  /-- A block is recorded once. -/
  nodup : s.Up → s.log.lh.Nodup
  /-- During recovery there is no process. -/
  alone : ∀ r, s.mode = .recovering r → ∀ p, s.pc p = .idle
  /-- Recovery, too, erases the transaction. -/
  recovered : s.mode = .recovering .writeHead ∨ s.mode = .recovering .returned → s.log.lh = []

section

omit [DecidableEq P]

theorem wakeup_inside (pc : P → Pc) (p : P) : (wakeup pc p).inside = (pc p).inside := by
  rw [wakeup]; split <;> simp_all [Pc.inside]

theorem wakeup_inCommit (pc : P → Pc) (p : P) : (wakeup pc p).inCommit = (pc p).inCommit := by
  rw [wakeup]; split <;> simp_all [Pc.inCommit]

theorem wakeup_erased (pc : P → Pc) (p : P) : (wakeup pc p).erased = (pc p).erased := by
  rw [wakeup]; split <;> simp_all [Pc.erased]

theorem wakeup_ne_sleeping (pc : P → Pc) (p : P) : wakeup pc p ≠ .sleeping := by
  rw [wakeup]; split <;> simp_all

theorem up_of_running (h : s.mode = .running) : s.Up := by
  intro r hr
  simp [h] at hr

end

variable [Fintype P]

omit [DecidableEq P] in
theorem inv_powerOn (disk : Nat → Block) (start size : Nat) :
    Inv (powerOn disk start size : State P) where
  outstanding := by
    have h : count Pc.inside (fun _ : P => Pc.idle) = 0 := count_eq_zero.mpr fun _ => rfl
    simp [powerOn, h]
  committing := count_eq_zero.mpr fun _ => rfl
  exclusive h := absurd h (by simp [powerOn])
  sleepers p h := absurd h (by simp [powerOn])
  erased _ _ := rfl
  empty _ _ _ := rfl
  nodup _ := List.nodup_nil
  alone _ _ _ := rfl
  recovered _ := rfl

namespace Inv

variable {s : State P} {p : P}

section

variable (h : Inv s)

include h

section

omit [DecidableEq P]

theorem outstanding_pos (hp : (s.pc p).inside = true) : 0 < s.log.outstanding := by
  rw [h.outstanding]
  exact_mod_cast count_pos hp

theorem outstanding_nonneg : 0 ≤ s.log.outstanding := by
  rw [h.outstanding]
  exact Int.natCast_nonneg _

theorem not_committing (hp : (s.pc p).inside = true) : s.log.committing = false := by
  rcases hc : s.log.committing with _ | _
  · rfl
  · have h0 := h.exclusive hc
    have h1 := h.outstanding_pos hp
    omega

theorem committing_of_inCommit (hp : (s.pc p).inCommit = true) : s.log.committing = true := by
  rcases hc : s.log.committing with _ | _
  · have h0 := h.committing
    have h1 := count_pos hp
    rw [hc, if_neg (by simp)] at h0
    omega
  · rfl

end

/-- Only one process is ever in `commit()`. -/
theorem inCommit_unique {q : P} (hp : (s.pc p).inCommit = true) (hq : (s.pc q).inCommit = true) :
    q = p := by
  by_contra hne
  have h0 := h.committing
  rw [if_pos (h.committing_of_inCommit hp)] at h0
  have h1 := count_update_out (x := Pc.idle) hp rfl
  have h2 : 0 < count Pc.inCommit (update s.pc p .idle) :=
    count_pos (i := q) (by rw [Function.update_of_ne hne]; exact hq)
  omega

/-- A process moves without entering or leaving an operation or a commit, and changes the
transaction. -/
theorem record (hup : s.Up) {c : Pc} {lh : List Nat} {cache : Nat → Block}
    (hin : c.inside = (s.pc p).inside) (hco : c.inCommit = (s.pc p).inCommit)
    (hsl : c = .sleeping → s.log.committing = true ∨ 0 < s.log.outstanding)
    (her : ∀ q, (update s.pc p c q).erased = true → lh = [])
    (hempty : s.log.outstanding = 0 → s.log.committing = false → lh = []) (hnd : lh.Nodup) :
    Inv ({ s with log := { s.log with lh := lh }, cache := cache }.goto p c) where
  outstanding := by
    rw [goto, count_update_same hin]
    exact h.outstanding
  committing := by
    rw [goto, count_update_same hco]
    exact h.committing
  exclusive := h.exclusive
  sleepers q hq := by
    by_cases hqp : q = p
    · subst hqp
      exact hsl (by simpa [goto] using hq)
    · exact h.sleepers q (by simpa [goto, hqp] using hq)
  erased := her
  empty _ := hempty
  nodup _ := hnd
  alone r hr := absurd hr (hup r)
  recovered hr := hr.elim (fun hr => absurd hr (hup _)) fun hr => absurd hr (hup _)

/-- A process moves without entering or leaving an operation or a commit. -/
theorem goto (hup : s.Up) {c : Pc} (hin : c.inside = (s.pc p).inside)
    (hco : c.inCommit = (s.pc p).inCommit)
    (hsl : c = .sleeping → s.log.committing = true ∨ 0 < s.log.outstanding)
    (her : c.erased = true → s.log.lh = []) : Inv (s.goto p c) := by
  refine h.record hup hin hco hsl (fun q hq => ?_) (h.empty hup) (h.nodup hup)
  by_cases hqp : q = p
  · subst hqp
    exact her (by simpa using hq)
  · exact h.erased q (by simpa [hqp] using hq)

section

omit [DecidableEq P]

theorem halt (hup : s.Up) (x : Halt) : Inv (s.halt x) where
  __ := h
  empty _ := h.empty hup
  nodup _ := h.nodup hup
  alone _ hr := absurd hr (by simp [State.halt])
  recovered hr := absurd hr (by simp [State.halt])

theorem bread (hup : s.Up) (h' : Inv s') {l : List Nat} {b : Nat} : Inv (s.bread l b s') :=
  bread_of h' (h.halt hup _)

/-- The invariant does not look at the disk or the cache. -/
theorem bwrite (b : Nat) (v : Block) : Inv (Log.bwrite s b v) :=
  { h with }

end

theorem stepBeginOp (hup : s.Up) (hp : s.pc p = .idle ∨ s.pc p = .woken) :
    Inv (Log.stepBeginOp s p) := by
  have hin : (s.pc p).inside = false := by rcases hp with hp | hp <;> rw [hp] <;> rfl
  have hco : (s.pc p).inCommit = false := by rcases hp with hp | hp <;> rw [hp] <;> rfl
  rw [Log.stepBeginOp]
  split
  · rename_i hb
    exact h.goto hup hin.symm hco.symm
      (fun _ => beginOp_eq_none hb h.outstanding_nonneg (h.empty hup))
      nofun
  · rename_i l hb
    obtain ⟨hnc, rfl⟩ := beginOp_eq_some hb
    have hout := h.outstanding
    have hnn := h.outstanding_nonneg
    refine ⟨?_, ?_, ?_, ?_, ?_, ?_, h.nodup, fun r hr => absurd hr (hup r),
      fun hr => hr.elim (fun hr => absurd hr (hup _)) fun hr => absurd hr (hup _)⟩
    · show s.log.outstanding + 1 = _
      rw [State.goto, count_update_in hin rfl, hout]
      simp
    · show count _ (update s.pc p .inOp) = _
      rw [count_update_same hco.symm]
      exact h.committing
    · intro hc
      exact absurd (hnc.symm.trans hc) (by simp)
    · intro q hq
      exact Or.inr (by show 0 < s.log.outstanding + 1; omega)
    · intro q hq
      by_cases hqp : q = p
      · subst hqp
        exact absurd hq (by simp [State.goto, Pc.erased])
      · exact h.erased q (by simpa [State.goto, hqp] using hq)
    · intro _ ho _
      exact absurd ho (by show s.log.outstanding + 1 ≠ 0; omega)

theorem stepLogWrite (hup : s.Up) (hp : s.pc p = .logAcquire b v) :
    Inv (Log.stepLogWrite s p b v) := by
  have hin : (s.pc p).inside = true := by rw [hp]; rfl
  have hco : (s.pc p).inCommit = false := by rw [hp]; rfl
  have hpos := h.outstanding_pos hin
  have hgoto : ∀ lh : List Nat, lh.Nodup →
      Inv ({ s with log := { s.log with lh := lh }, cache := update s.cache b v }.goto p
        .inOp) := by
    intro lh hnd
    refine h.record hup hin.symm hco.symm nofun (fun q hq => ?_) (fun ho _ => by omega) hnd
    have hqc : (s.pc q).inCommit = true := by
      by_cases hqp : q = p
      · subst hqp; exact absurd hq (by simp [Pc.erased])
      · revert hq
        simp only [Function.update_of_ne hqp]
        cases s.pc q <;> simp [Pc.erased, Pc.inCommit]
    have := h.exclusive (h.committing_of_inCommit hqc)
    omega
  rw [Log.stepLogWrite]
  rcases logWrite_cases s.log b with ⟨_, he⟩ | ⟨hb, _, he⟩ | ⟨_, _, he⟩
  · rw [he]
    exact hgoto _ (h.nodup hup)
  · rw [he]
    exact hgoto _ (by simpa using (h.nodup hup).concat hb)
  · rw [he]
    exact h.halt hup _

theorem stepEndOp (hup : s.Up) (hp : s.pc p = .inOp) : Inv (Log.stepEndOp s p) := by
  have hin : (s.pc p).inside = true := by rw [hp]; rfl
  have hco : (s.pc p).inCommit = false := by rw [hp]; rfl
  have hnc := h.not_committing hin
  have hpos := h.outstanding_pos hin
  have hout := h.outstanding
  rw [Log.stepEndOp]
  by_cases ho : s.log.outstanding = 1
  · -- the last operation: this process commits
    rw [endOp_last hnc ho]
    have hcnt := count_update_out (x := Pc.commit .start) hin rfl
    have hcom := h.committing
    rw [hnc, if_neg (by simp)] at hcom
    refine ⟨?_, ?_, fun _ => rfl, fun _ _ => Or.inl rfl, ?_, ?_, h.nodup,
      fun r hr => absurd hr (hup r),
      fun hr => hr.elim (fun hr => absurd hr (hup _)) fun hr => absurd hr (hup _)⟩
    · show (0 : Int) = count _ (update s.pc p (.commit .start))
      omega
    · show count _ (update s.pc p (.commit .start)) = 1
      rw [count_update_in hco rfl, hcom]
    · intro q hq
      by_cases hqp : q = p
      · subst hqp; exact absurd hq (by simp [State.goto, Pc.erased])
      · exact h.erased q (by simpa [State.goto, hqp] using hq)
    · intro _ _ hc
      exact absurd hc (by simp [State.goto])
  · -- others remain: wake whoever waits for log space
    rw [endOp_more hnc ho]
    refine ⟨?_, ?_, ?_, ?_, ?_, ?_, h.nodup, fun r hr => absurd hr (hup r),
      fun hr => hr.elim (fun hr => absurd hr (hup _)) fun hr => absurd hr (hup _)⟩
    · show s.log.outstanding - 1 = count _ (update (wakeup s.pc) p .idle)
      have hcnt := count_update_out (x := Pc.idle) ((wakeup_inside s.pc p).trans hin) rfl
      have hw := count_congr (wakeup_inside s.pc)
      omega
    · show count _ (update (wakeup s.pc) p .idle) = _
      rw [count_update_same (by rw [wakeup_inCommit, hco]; rfl),
        count_congr (wakeup_inCommit s.pc)]
      exact h.committing
    · intro hc
      exact absurd (hnc.symm.trans hc) (by simp)
    · intro q _
      exact Or.inr (by show 0 < s.log.outstanding - 1; omega)
    · intro q hq
      by_cases hqp : q = p
      · subst hqp; exact absurd hq (by simp [State.goto, Pc.erased])
      · exact h.erased q (by simpa [State.goto, hqp, wakeup_erased] using hq)
    · intro _ ho' _
      exact absurd ho' (by show s.log.outstanding - 1 ≠ 0; omega)

theorem stepCommit (hup : s.Up) {c : Commit} (hp : s.pc p = .commit c) :
    Inv (Log.stepCommit s p c) := by
  have hin : (s.pc p).inside = false := by rw [hp]; rfl
  have hco : (s.pc p).inCommit = true := by rw [hp]; rfl
  have hmove : ∀ c' : Commit, (Pc.erased (.commit c') = true → s.log.lh = []) →
      Inv (s.goto p (.commit c')) := fun c' he =>
    h.goto hup hin.symm hco.symm nofun he
  have hwrite : ∀ (c' : Commit) {l : List Nat} {b b' : Nat} {v : Block},
      (Pc.erased (.commit c') = true → s.log.lh = []) →
      Inv (s.bread l b ((Log.bwrite s b' v).goto p (.commit c'))) := fun c' _ _ _ _ he =>
    h.bread hup ((hmove c' he).bwrite _ _)
  cases c with
  | start =>
    rw [Log.stepCommit]
    split
    · exact hmove _ nofun
    · rename_i hn
      exact hmove _ fun _ => List.length_eq_zero_iff.mp (by omega)
  | writeLog tail =>
    rw [Log.stepCommit]
    split
    · exact hwrite _ nofun
    · exact hmove _ nofun
  | writeHead => exact hwrite _ nofun
  | installTrans tail =>
    rw [Log.stepCommit]
    split
    · exact hwrite _ nofun
    · -- `log.lh.n = 0`
      exact h.record hup hin.symm hco.symm nofun (fun _ _ => rfl) (fun _ _ => rfl) List.nodup_nil
  | eraseHead =>
    exact (hmove .returned fun _ => h.erased p (by rw [hp]; rfl)).bwrite _ _
  | returned =>
    -- the commit is over: nobody is inside an operation and nobody is left asleep
    have herased := h.erased p (by rw [hp]; rfl)
    have hcom := h.committing
    rw [if_pos (h.committing_of_inCommit hco)] at hcom
    refine ⟨?_, ?_, fun hc => absurd hc (by simp [Log.stepCommit, State.goto]), ?_,
      fun _ _ => herased, fun _ _ _ => herased, h.nodup, fun r hr => absurd hr (hup r),
      fun _ => herased⟩
    · show s.log.outstanding = count _ (update (wakeup s.pc) p .idle)
      rw [count_update_same (by rw [wakeup_inside, hin]; rfl), count_congr (wakeup_inside s.pc)]
      exact h.outstanding
    · show count _ (update (wakeup s.pc) p .idle) = 0
      have hcnt := count_update_out (x := Pc.idle) ((wakeup_inCommit s.pc p).trans hco) rfl
      have hw := count_congr (wakeup_inCommit s.pc)
      omega
    · intro q hq
      by_cases hqp : q = p
      · subst hqp; exact absurd hq (by simp [Log.stepCommit, State.goto])
      · exact absurd (by simpa [Log.stepCommit, State.goto, hqp] using hq)
          (wakeup_ne_sleeping s.pc q)

omit [DecidableEq P] in
theorem stepRecover {r : Recovery} (hr : r ≠ .returned) (hm : s.mode = .recovering r) :
    Inv (Log.stepRecover s r) := by
  have hidle := h.alone r hm
  have hmk : ∀ (disk cache : Nat → Block) (lh : List Nat) (r' : Recovery),
      (r' = .writeHead ∨ r' = .returned → lh = []) → Inv { s with
        disk := disk, cache := cache, log := { s.log with lh := lh }, mode := .recovering r' } :=
    fun disk cache lh r' hrec => { h with
      erased p hp := absurd hp (by simp [hidle p, Pc.erased])
      empty hup := absurd rfl (hup r')
      nodup hup := absurd rfl (hup r')
      alone _ _ := hidle
      recovered := by simpa using hrec }
  cases r with
  | readHead => exact hmk _ _ _ _ (by simp)
  | installTrans tail =>
    rw [Log.stepRecover]
    split
    · exact hmk _ _ _ _ (by simp)
    · exact hmk _ _ _ _ fun _ => rfl
  | writeHead => exact hmk _ _ _ _ fun _ => h.recovered (Or.inl hm)
  | returned => exact absurd rfl hr

end

end Inv

/-- **Every action keeps the invariant.** -/
theorem inv_step (h : Inv s) (hs : step s a = some s') : Inv s' := by
  cases a with
  | beginOp p =>
    obtain ⟨hm, hp, rfl⟩ := of_beginOp hs
    exact h.stepBeginOp (up_of_running hm) hp
  | kill p =>
    obtain ⟨hm, hp, rfl⟩ := of_kill hs
    exact h.goto (up_of_running hm) (by rw [hp]; rfl) (by rw [hp]; rfl) nofun nofun
  | logCall p b v =>
    obtain ⟨hm, hp, _, _, rfl⟩ := of_logCall hs
    have hup := up_of_running hm
    split
    · exact h.halt hup _
    · exact h.goto hup (by rw [hp]; rfl) (by rw [hp]; rfl) nofun nofun
  | logTest p =>
    obtain ⟨b, v, hm, hp, rfl⟩ := of_logTest hs
    have hup := up_of_running hm
    split
    · exact h.halt hup _
    · exact h.goto hup (by rw [hp]; rfl) (by rw [hp]; rfl) nofun nofun
  | logWrite p =>
    obtain ⟨b, v, hm, hp, rfl⟩ := of_logWrite hs
    exact h.stepLogWrite (up_of_running hm) hp
  | endOp p =>
    obtain ⟨hm, hp, rfl⟩ := of_endOp hs
    exact h.stepEndOp (up_of_running hm) hp
  | commit p =>
    obtain ⟨c, hm, hp, rfl⟩ := of_commit hs
    exact h.stepCommit (up_of_running hm) hp
  | evict b =>
    obtain ⟨_, rfl⟩ := of_evict hs
    exact { h with }
  | crash =>
    obtain rfl := of_crash hs
    exact inv_powerOn _ _ _
  | recover =>
    obtain ⟨r, hr, hm, rfl⟩ := of_recover hs
    exact h.stepRecover hr hm
  | boot =>
    obtain ⟨hm, rfl⟩ := of_boot hs
    have hlh := h.recovered (Or.inr hm)
    exact { h with
      empty _ _ _ := hlh
      nodup _ := hlh ▸ List.nodup_nil
      alone := nofun
      recovered := by simp }

theorem inv_reach {ok : State P → Act P → Prop} (h : (machine P).Reach ok s) : Inv s := by
  refine Reach.inv (I := Inv) ?_ (fun _ _ _ hi _ hs => inv_step hi hs) h
  rintro s ⟨disk, start, size, rfl⟩
  exact inv_powerOn disk start size

/-! ## The protocol -/

/-- **The panics that a step can end in**: `end_op` never finds a commit going on, and `log_write`
never finds `log.outstanding` zero. -/
theorem halted_of_step (h : Inv s) (hs : step s a = some s') {m : Halt}
    (hne : s.mode ≠ .halted m) (hm : s'.mode = .halted m) : m = .overrun ∨ m = .bgetNoBuffers ∨
      m = .tooBigATransaction ∧ tooBig s.log = true ∧ ∃ p b v, a = .logCall p b v := by
  cases a with
  | beginOp p =>
    obtain ⟨_, _, rfl⟩ := of_beginOp hs
    rw [stepBeginOp] at hm
    split at hm <;> exact absurd hm hne
  | kill p =>
    obtain ⟨_, _, rfl⟩ := of_kill hs
    exact absurd hm hne
  | logCall p b v =>
    obtain ⟨_, _, _, _, rfl⟩ := of_logCall hs
    split at hm
    · cases hm
      exact .inr (.inr ⟨rfl, ‹_›, p, b, v, rfl⟩)
    · exact absurd hm hne
  | logTest p =>
    obtain ⟨b, v, _, hp, rfl⟩ := of_logTest hs
    have hpos := h.outstanding_pos (p := p) (by rw [hp]; rfl)
    rw [if_neg (by omega)] at hm
    exact absurd hm hne
  | logWrite p =>
    obtain ⟨b, v, _, _, rfl⟩ := of_logWrite hs
    rw [stepLogWrite] at hm
    rcases logWrite_cases s.log b with ⟨_, he⟩ | ⟨_, _, he⟩ | ⟨_, _, he⟩ <;> rw [he] at hm
    · exact absurd hm hne
    · exact absurd hm hne
    · cases hm
      exact .inl rfl
  | endOp p =>
    obtain ⟨_, hp, rfl⟩ := of_endOp hs
    have hnc := h.not_committing (p := p) (by rw [hp]; rfl)
    rw [stepEndOp] at hm
    by_cases ho : s.log.outstanding = 1
    · rw [endOp_last hnc ho] at hm
      exact absurd hm hne
    · rw [endOp_more hnc ho] at hm
      exact absurd hm hne
  | commit p =>
    obtain ⟨c, _, _, rfl⟩ := of_commit hs
    obtain hc | hc := mode_stepCommit s p c <;> rw [hc] at hm
    · exact absurd hm hne
    · cases hm
      exact .inr (.inl rfl)
  | evict b =>
    obtain ⟨_, rfl⟩ := of_evict hs
    exact absurd hm hne
  | crash =>
    obtain rfl := of_crash hs
    nomatch hm
  | recover =>
    obtain ⟨r, hr, _, rfl⟩ := of_recover hs
    cases r with
    | readHead | writeHead => nomatch hm
    | installTrans tail =>
      rw [stepRecover] at hm
      split at hm <;> nomatch hm
    | returned => exact absurd rfl hr
  | boot =>
    obtain ⟨_, rfl⟩ := of_boot hs
    nomatch hm

theorem mode_ne_reach (h : (machine P).Reach Any s) :
    s.mode ≠ .halted .logCommitting ∧ s.mode ≠ .halted .logWriteOutsideOfTrans := by
  induction h with
  | init h =>
    obtain ⟨disk, start, size, rfl⟩ := h
    simp [powerOn]
  | step h _ hs ih =>
    exact ⟨fun hm => by simpa using halted_of_step (inv_reach h) hs ih.1 hm,
      fun hm => by simpa using halted_of_step (inv_reach h) hs ih.2 hm⟩

/-- No action of `log_write` is enabled: neither a call, nor its second test, nor its locked
section. -/
def NoLogWrite (s : State P) : Prop :=
  ∀ p, (∀ b v, step s (.logCall p b v) = none) ∧ step s (.logTest p) = none ∧
    step s (.logWrite p) = none

theorem noLogWrite_of_count (h : count Pc.inside s.pc = 0) : NoLogWrite s := by
  have hpc := count_eq_zero.mp h
  intro p
  have hp := hpc p
  refine ⟨fun b v => ?_, ?_, ?_⟩
  all_goals
    rw [step]
    split
    · rename_i heq
      rw [heq] at hp
      exact absurd hp (by simp [Pc.inside])
    · rfl

/-- **The log protocol.**  In every state of every interleaving: `log.outstanding` is the number of
operations going on; a commit excludes operations and `log_write`; an idle log is empty; no block
is recorded twice; the two panics that guard the protocol are not reached; and nobody is left
asleep in `begin_op` when there is nobody to wait for. -/
theorem protocol {s : State P} (h : (machine P).Reach Any s) :
    s.mode ≠ .halted .logCommitting ∧ s.mode ≠ .halted .logWriteOutsideOfTrans ∧
      (s.Up →
        s.log.outstanding = count Pc.inside s.pc ∧
        (s.log.committing = true → s.log.outstanding = 0 ∧ NoLogWrite s) ∧
        (s.log.outstanding = 0 → s.log.committing = false → s.log.lh = []) ∧
        s.log.lh.Nodup ∧
        ∀ p, s.pc p = .sleeping → ¬ (s.log.outstanding = 0 ∧ s.log.committing = false)) := by
  have hi := inv_reach h
  refine ⟨(mode_ne_reach h).1, (mode_ne_reach h).2, fun hup =>
    ⟨hi.outstanding, fun hc => ?_, hi.empty hup, hi.nodup hup, fun p hp hx => ?_⟩⟩
  · have h0 := hi.exclusive hc
    refine ⟨h0, noLogWrite_of_count ?_⟩
    have := hi.outstanding
    omega
  · rcases hi.sleepers p hp with hc | ho
    · simp [hx.2] at hc
    · omega

/-- From power on to running, on a disk whose header block is empty. -/
def bootActs : List (Act P) := [.recover, .recover, .recover, .boot]

/-- Four processes, the fourth of which finds no room and sleeps. -/
theorem protocol_four_processes : ∃ s, (machine (Fin 4)).exec (powerOn (fun _ => Block.zero) 2 30)
        (bootActs ++ [.beginOp 0, .beginOp 1, .beginOp 2, .beginOp 3]) = some s ∧
      s.pc 3 = .sleeping ∧ s.log.outstanding = count Pc.inside s.pc ∧ s.log.outstanding = 3 := by
  obtain ⟨s, hs⟩ : ∃ s, (machine (Fin 4)).exec (powerOn (fun _ => Block.zero) 2 30)
      (bootActs ++ [.beginOp 0, .beginOp 1, .beginOp 2, .beginOp 3]) = some s := ⟨_, rfl⟩
  have hr := reach_of_exec (M := machine (Fin 4)) (Reach.init ⟨_, _, _, rfl⟩) hs
  have hcount : s.Up → s.log.outstanding = count Pc.inside s.pc := fun hup =>
    ((protocol hr).2.2 hup).1
  obtain rfl : _ = s := some.inj hs
  exact ⟨_, hs, rfl, hcount (up_of_running rfl), rfl⟩

end Log
end Xv6
