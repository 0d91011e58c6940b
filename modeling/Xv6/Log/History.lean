import Xv6.Log.Protocol

/-!
# What the processes did

The machine of `Xv6.Log.Model` does not remember what it has committed.  To say what a crash may
lose, a *history* is kept beside it: the events since the last commit, and the groups of events
that went into a commit.  The history only watches; no step of the machine depends on it.

* An `Event` is the return of `begin_op`, a block recorded by `log_write`, or a call of `end_op`.
* The events since the last `end_op` that found itself the last are `cur`.  When that happens they
  become a *group*, the next one in `groups`, and `commit()` starts working on it; `returned` is
  the number of groups whose `commit()` has returned.
* `base` is what the disk held when the machine last started running processes.  A crash forgets
  `cur`; nothing else, until `recover_from_log` has returned and processes run again.

`History.after j` is the contents the disk ought to have once the first `j` groups are in effect.
-/

namespace Xv6
namespace Log

open Lts Lts.System List Function State

variable {P : Type} [DecidableEq P] {a : Act P} {p : P} {s : State P}

/-- What a process does to the log. -/
inductive Event (P : Type) where
  /-- `begin_op` returns. -/
  | beginOp (p : P)
  /-- `log_write` records a block, which then has the given contents. -/
  | logWrite (p : P) (b : Nat) (v : Block)
  /-- `end_op` is called. -/
  | endOp (p : P)

/-- What is remembered of a run. -/
structure History (P : Type) where
  /-- The disk when processes last started running. -/
  base : Nat → Block
  /-- The groups handed to `commit()` since then, in order. -/
  groups : List (List (Event P))
  /-- How many of them `commit()` has returned from. -/
  returned : Nat
  /-- The events since the last group was closed. -/
  cur : List (Event P)

/-- The block number an event records. -/
def Event.block : Event P → Option Nat
  | .logWrite _ b _ => some b
  | _ => none

/-- The effect of an event on the contents of the blocks. -/
def Event.apply (d : Nat → Block) : Event P → Nat → Block
  | .logWrite _ b v => update d b v
  | _ => d

/-- The effect of a list of events, in order. -/
def applyAll (d : Nat → Block) (es : List (Event P)) : Nat → Block := es.foldl Event.apply d

/-- The contents of the blocks once the first `j` groups are in effect. -/
def History.after (h : History P) (j : Nat) : Nat → Block :=
  applyAll h.base (h.groups.take j).flatten

/-- Follow one process through the events: `some true` while it is inside an operation, `none`
once it has done something out of order. -/
def track (p : P) : Option Bool → Event P → Option Bool
  | some false, .beginOp q => some (decide (q = p))
  | some true, .beginOp q => if q = p then none else some true
  | some o, .logWrite q _ _ => if q = p ∧ o = false then none else some o
  | some false, .endOp q => if q = p then none else some false
  | some true, .endOp q => some (decide (q ≠ p))
  | none, _ => none

/-- **A group of complete operations**: what each process does in it is a sequence of operations,
each from its `begin_op` to its `end_op` with all its `log_write`s. -/
def Complete (g : List (Event P)) : Prop := ∀ p, g.foldl (track p) (some false) = some false

/-- How an action of the machine extends the history. -/
def observe (s : State P) (h : History P) : Act P → History P
  | .beginOp p =>
    match beginOp s.log with
    | some _ => { h with cur := h.cur ++ [.beginOp p] }
    | none => h
  | .logWrite p =>
    match s.pc p with
    | .logAcquire b v =>
      match logWrite s.log b with
      | .ok _ => { h with cur := h.cur ++ [.logWrite p b v] }
      | .error _ => h
    | _ => h
  | .endOp p =>
    match endOp s.log with
    | .ok (true, _) => { h with groups := h.groups ++ [h.cur ++ [.endOp p]], cur := [] }
    | .ok (false, _) => { h with cur := h.cur ++ [.endOp p] }
    | .error _ => h
  | .commit p =>
    match s.pc p with
    | .commit .start =>
      if s.log.lh.length > 0 then h else { h with returned := h.returned + 1 }
    | .commit .eraseHead => { h with returned := h.returned + 1 }
    | _ => h
  | .crash => { h with cur := [] }
  | .boot => { base := s.disk, groups := [], returned := 0, cur := [] }
  | _ => h

/-- The machine with its history, switched on with an empty header block. -/
def traced (P : Type) [DecidableEq P] : System (State P × History P) (Act P) where
  init x := ∃ disk start size, 0 < size ∧ readHead (disk start) = [] ∧
    x = (powerOn disk start size, { base := disk, groups := [], returned := 0, cur := [] })
  step x a := (step x.1 a).map fun s' => (s', observe x.1 x.2 a)

theorem of_traced {x x' : State P × History P} (h : (traced P).step x a = some x') :
    step x.1 a = some x'.1 ∧ x'.2 = observe x.1 x.2 a := by
  obtain ⟨s', hs, rfl⟩ := Option.map_eq_some_iff.mp h
  exact ⟨hs, rfl⟩

/-- The history only watches: what the traced machine reaches, the machine reaches. -/
theorem reach_machine {ok : State P × History P → Act P → Prop} {x : State P × History P}
    (h : (traced P).Reach ok x) : (machine P).Reach Any x.1 := by
  induction h with
  | init h =>
    obtain ⟨disk, start, size, _, _, rfl⟩ := h
    exact Reach.init ⟨disk, start, size, rfl⟩
  | step _ _ hs ih => exact ih.step trivial (of_traced hs).1

theorem inv_traced [Fintype P] {ok : State P × History P → Act P → Prop}
    {x : State P × History P} (h : (traced P).Reach ok x) : Inv x.1 :=
  inv_reach (reach_machine h)

/-! ## The effect of events -/

section

omit [DecidableEq P]

theorem applyAll_append (d : Nat → Block) (es fs : List (Event P)) :
    applyAll d (es ++ fs) = applyAll (applyAll d es) fs :=
  foldl_append

theorem applyAll_of_notMem {es : List (Event P)} {b : Nat} (h : b ∉ es.filterMap Event.block) :
    ∀ d : Nat → Block, applyAll d es b = d b := by
  induction es with
  | nil => intro d; rfl
  | cons e es ih =>
    intro d
    rw [applyAll, foldl_cons, ← applyAll]
    cases e with
    | logWrite p c v =>
      simp only [Event.block, filterMap_cons, mem_cons, not_or] at h
      rw [ih h.2, Event.apply, update_of_ne h.1]
    | beginOp p | endOp p => exact ih (by simpa [Event.block] using h) d

theorem after_length_append {h h' : History P} {g : List (Event P)} (hb : h'.base = h.base)
    (hg : h'.groups = h.groups ++ [g]) :
    h'.after (h.groups.length + 1) = applyAll (h.after h.groups.length) g := by
  rw [History.after, History.after, hb, hg, take_length, take_of_length_le (by simp),
    flatten_append, applyAll_append]
  simp

theorem after_append_of_le {h h' : History P} {g : List (Event P)} {j : Nat}
    (hb : h'.base = h.base) (hg : h'.groups = h.groups ++ [g]) (hj : j ≤ h.groups.length) :
    h'.after j = h.after j := by
  rw [History.after, History.after, hb, hg, take_append_of_le_length hj]

end

/-! ## The history and the machine -/

/-- How the events since the last group relate to `struct log` and the processes. -/
structure Watches (s : State P) (h : History P) : Prop where
  /-- The blocks of the running transaction are those recorded since the last group. -/
  blocks : s.Up → s.log.committing = false → ∀ b, b ∈ s.log.lh ↔ b ∈ h.cur.filterMap Event.block
  /-- During a commit nothing is recorded. -/
  quiet : s.log.committing = true → h.cur = []
  /-- Nor is it during recovery. -/
  recovering : ∀ r, s.mode = .recovering r → h.cur = []
  /-- Each process is inside an operation exactly if its events say so. -/
  inside : ∀ p, h.cur.foldl (track p) (some false) = some (s.pc p).inside
  /-- Every group handed to `commit()` consists of complete operations. -/
  complete : ∀ g ∈ h.groups, Complete g

theorem track_other {q : P} (h : q ≠ p) (o : Bool) :
    track p (some o) (.beginOp q) = some o ∧ track p (some o) (.endOp q) = some o ∧
      ∀ b v, track p (some o) (.logWrite q b v) = some o := by
  cases o <;> simp [track, h]

namespace Watches

variable {s s' : State P} {h : History P} {c : Pc}

/-- The history is compared with the transaction, the flag, the mode and who is inside. -/
theorem congr (w : Watches s h) (hlh : s'.log.lh = s.log.lh)
    (hc : s'.log.committing = s.log.committing)
    (hm : ∀ r, s'.mode = .recovering r ↔ s.mode = .recovering r)
    (hin : ∀ p, (s'.pc p).inside = (s.pc p).inside) : Watches s' h where
  blocks hup hco b := by
    rw [hlh]
    exact w.blocks (fun r hr => hup r ((hm r).mpr hr)) (hc ▸ hco) b
  quiet hco := w.quiet (hc ▸ hco)
  recovering r hr := w.recovering r ((hm r).mp hr)
  inside p := by rw [hin]; exact w.inside p
  complete := w.complete

theorem goto (w : Watches s h) (hin : c.inside = (s.pc p).inside) : Watches (s.goto p c) h := by
  refine w.congr rfl rfl (fun _ => Iff.rfl) fun q => ?_
  by_cases hq : q = p
  · subst hq; simpa [State.goto] using hin
  · simp [State.goto, hq]

theorem halt (w : Watches s h) (hup : s.Up) (x : Halt) : Watches (s.halt x) h :=
  w.congr rfl rfl (fun r => ⟨fun hr => absurd hr (by simp [State.halt]),
    fun hr => absurd hr (hup r)⟩) fun _ => rfl

/-- One more event of a process, which then is at `c`. -/
theorem event (w : Watches s h) (hup : s.Up) (hc : s.log.committing = false) {e : Event P} {l : Log}
    {C : Nat → Block} (hl : l.committing = false)
    (hblk : ∀ b, b ∈ l.lh ↔ b ∈ s.log.lh ∨ e.block = some b)
    (hother : ∀ q, q ≠ p → ∀ o, track q (some o) e = some o)
    (hself : track p (some (s.pc p).inside) e = some c.inside) :
    Watches ({ s with log := l, cache := C }.goto p c) { h with cur := h.cur ++ [e] } where
  blocks _ _ b := by
    rw [filterMap_append, mem_append, ← w.blocks hup hc b]
    show b ∈ l.lh ↔ _
    rw [hblk b]
    cases hb : e.block <;> simp [hb, eq_comm]
  quiet hco := absurd hco (by simp [State.goto, hl])
  recovering r hr := absurd hr (hup r)
  inside q := by
    rw [foldl_append, w.inside q, foldl_cons, foldl_nil]
    by_cases hq : q = p
    · subst hq; simpa [State.goto] using hself
    · simpa [State.goto, hq] using hother q hq _
  complete := w.complete

end Watches

variable [Fintype P]

omit [Fintype P] in
theorem watches_powerOn (disk : Nat → Block) (start size : Nat) (h : History P) (hc : h.cur = [])
    (hg : ∀ g ∈ h.groups, Complete g) : Watches (powerOn disk start size : State P) h where
  blocks hup := absurd rfl (hup .readHead)
  quiet hco := absurd hco (by simp [powerOn])
  recovering _ _ := hc
  inside _ := by rw [hc]; rfl
  complete := hg

theorem watches_endOp {h : History P} (hi : Inv s) (w : Watches s h) (hup : s.Up)
    (hp : s.pc p = .inOp) : Watches (stepEndOp s p) (observe s h (.endOp p)) := by
  have hin : (s.pc p).inside = true := by rw [hp]; rfl
  have hnc := hi.not_committing hin
  rw [stepEndOp, observe]
  by_cases ho : s.log.outstanding = 1
  · -- the last operation closes the group
    rw [endOp_last hnc ho]
    have hout : ∀ q, q ≠ p → (s.pc q).inside = false := by
      have hcnt := count_update_out (x := Pc.idle) hin rfl
      have hout := hi.outstanding
      intro q hq
      have h0 : count Pc.inside (update s.pc p .idle) = 0 := by omega
      simpa [hq] using count_eq_zero.mp h0 q
    refine ⟨fun _ hc => absurd hc (by simp [goto]), fun _ => rfl, fun _ _ => rfl,
      fun q => ?_, fun g hg => ?_⟩
    · by_cases hq : q = p
      · subst hq; simp [goto, Pc.inside]
      · simp [goto, hq, hout q hq]
    · rcases mem_append.mp hg with hg | hg
      · exact w.complete g hg
      · obtain rfl := mem_singleton.mp hg
        intro q
        rw [foldl_append, w.inside q, foldl_cons, foldl_nil]
        by_cases hq : q = p
        · subst hq; simp [hin, track]
        · rw [hout q hq]
          exact (track_other (Ne.symm hq) false).2.1
  · rw [endOp_more hnc ho]
    have hw : Watches { s with pc := wakeup s.pc } h :=
      w.congr rfl rfl (fun _ => Iff.rfl) (wakeup_inside s.pc)
    refine hw.event (C := s.cache) hup hnc (c := .idle) hnc (fun b => by simp [Event.block])
      (fun q hq o => (track_other (Ne.symm hq) o).2.1) ?_
    rw [wakeup_inside, hin]
    simp [track, Pc.inside]

theorem watches_commit {h : History P} {c : Commit} (hi : Inv s) (w : Watches s h) (hup : s.Up)
    (hp : s.pc p = .commit c) : Watches (stepCommit s p c) (observe s h (.commit p)) := by
  have hc : s.log.committing = true := hi.committing_of_inCommit (p := p) (by rw [hp]; rfl)
  have hin : (s.pc p).inside = false := by rw [hp]; rfl
  -- the history changes in the count of groups that have returned at most
  have hhist : ∀ s', Watches s' h → Watches s' (observe s h (.commit p)) := by
    intro s' hw
    rw [observe, hp]
    cases c with
    | start => dsimp only; split <;> exact ⟨hw.1, hw.2, hw.3, hw.4, hw.5⟩
    | eraseHead => exact ⟨hw.1, hw.2, hw.3, hw.4, hw.5⟩
    | writeLog tail | writeHead | installTrans tail | returned => exact hw
  refine hhist _ ?_
  have hmove : ∀ c' : Commit, Watches (s.goto p (.commit c')) h := fun c' => w.goto hin.symm
  have hwrite : ∀ (c' : Commit) (b : Nat) (v : Block),
      Watches ((bwrite s b v).goto p (.commit c')) h := fun c' b v =>
    (hmove c').congr rfl rfl (fun _ => Iff.rfl) fun _ => rfl
  have hread : ∀ (c' : Commit) {l : List Nat} {a b : Nat} {v : Block},
      Watches (s.bread l a ((bwrite s b v).goto p (.commit c'))) h := fun c' _ _ b v =>
    bread_of (Q := (Watches · h)) (hwrite c' b v) (w.halt hup _)
  cases c with
  | start => exact hmove _
  | writeLog tail =>
    rw [stepCommit]
    split
    · exact hread _
    · exact hmove _
  | writeHead => exact hread _
  | eraseHead => exact hwrite _ _ _
  | installTrans tail =>
    rw [stepCommit]
    split
    · exact hread _
    · have hm := hmove .eraseHead
      exact ⟨fun _ hco => absurd (hc.symm.trans hco) (by simp), hm.2, hm.3, hm.4, hm.5⟩
  | returned =>
    have hlh := hi.erased p (by rw [hp]; rfl)
    have hcur := w.quiet hc
    refine ⟨fun _ _ b => ?_, fun _ => hcur, fun _ _ => hcur, fun q => ?_, w.complete⟩
    · show b ∈ s.log.lh ↔ _
      rw [hlh, hcur]; simp
    · rw [w.inside q]
      by_cases hq : q = p
      · subst hq; rw [hin]; simp [stepCommit, goto, Pc.inside]
      · simp [stepCommit, goto, hq, wakeup_inside]

/-- **Every action keeps the history true.** -/
theorem watches_step {s' : State P} {h : History P} (hi : Inv s) (w : Watches s h)
    (hs : step s a = some s') : Watches s' (observe s h a) := by
  cases a with
  | beginOp p =>
    obtain ⟨hm, hp, rfl⟩ := of_beginOp hs
    have hin : (s.pc p).inside = false := by rcases hp with hp | hp <;> rw [hp] <;> rfl
    rw [stepBeginOp, observe]
    cases hb : beginOp s.log with
    | none => exact w.goto hin.symm
    | some l =>
      obtain ⟨hnc, rfl⟩ := beginOp_eq_some hb
      refine w.event (C := s.cache) (up_of_running hm) hnc hnc
        (fun b => by simp [Event.block]) (fun q hq o => (track_other (Ne.symm hq) o).1) ?_
      rw [hin]
      simp [track, Pc.inside]
  | kill p =>
    obtain ⟨_, hp, rfl⟩ := of_kill hs
    exact w.goto (by rw [hp]; rfl)
  | logCall p b v =>
    obtain ⟨hm, hp, _, _, rfl⟩ := of_logCall hs
    split
    · exact w.halt (up_of_running hm) _
    · exact w.goto (by rw [hp]; rfl)
  | logTest p =>
    obtain ⟨b, v, hm, hp, rfl⟩ := of_logTest hs
    split
    · exact w.halt (up_of_running hm) _
    · exact w.goto (by rw [hp]; rfl)
  | logWrite p =>
    obtain ⟨b, v, hm, hp, rfl⟩ := of_logWrite hs
    have hin : (s.pc p).inside = true := by rw [hp]; rfl
    have hnc := hi.not_committing hin
    have hup := up_of_running hm
    rw [stepLogWrite, observe, hp]
    rcases logWrite_cases s.log b with ⟨hb, he⟩ | ⟨hb, _, he⟩ | ⟨_, _, he⟩
    · simp only [he]
      refine w.event hup hnc hnc (fun c => ?_)
        (fun q hq o => (track_other (Ne.symm hq) o).2.2 b v) ?_
      · simp only [Event.block, Option.some.injEq]
        exact ⟨Or.inl, fun hc => hc.elim id fun hc => hc ▸ hb⟩
      · rw [hin]; simp [track, Pc.inside]
    · simp only [he]
      refine w.event hup hnc hnc (fun c => ?_)
        (fun q hq o => (track_other (Ne.symm hq) o).2.2 b v) ?_
      · simp [Event.block, eq_comm]
      · rw [hin]; simp [track, Pc.inside]
    · simp only [he]
      exact w.halt hup _
  | endOp p =>
    obtain ⟨hm, hp, rfl⟩ := of_endOp hs
    exact watches_endOp hi w (up_of_running hm) hp
  | commit p =>
    obtain ⟨c, hm, hp, rfl⟩ := of_commit hs
    exact watches_commit hi w (up_of_running hm) hp
  | evict b =>
    obtain ⟨_, rfl⟩ := of_evict hs
    exact w.congr rfl rfl (fun _ => Iff.rfl) fun _ => rfl
  | crash =>
    obtain rfl := of_crash hs
    exact watches_powerOn _ _ _ _ rfl w.complete
  | recover =>
    obtain ⟨r, hr, hm, rfl⟩ := of_recover hs
    have hcur := w.recovering r hm
    have hidle := hi.alone r hm
    have hmk : ∀ s' : State P, s'.pc = s.pc → (∃ r', s'.mode = .recovering r') → Watches s' h := by
      rintro s' hpc ⟨r', hr'⟩
      refine ⟨fun hup => absurd hr' (hup r'), fun _ => hcur, fun _ _ => hcur, fun q => ?_,
        w.complete⟩
      rw [hpc, hcur, hidle q]; rfl
    cases r with
    | readHead | writeHead => exact hmk _ rfl ⟨_, rfl⟩
    | installTrans tail =>
      rw [stepRecover]
      split <;> exact hmk _ rfl ⟨_, rfl⟩
    | returned => exact absurd rfl hr
  | boot =>
    obtain ⟨hm, rfl⟩ := of_boot hs
    have hidle := hi.alone _ hm
    refine ⟨fun _ _ b => ?_, fun _ => rfl, fun _ _ => rfl, fun q => ?_, fun g hg => ?_⟩
    · show b ∈ s.log.lh ↔ _
      rw [hi.recovered (Or.inr hm)]; simp [observe]
    · show _ = some (s.pc q).inside
      rw [hidle q]; rfl
    · exact absurd hg (by simp [observe])

theorem watches_reach {ok : State P × History P → Act P → Prop} {x : State P × History P}
    (h : (traced P).Reach ok x) : Watches x.1 x.2 := by
  induction h with
  | init h =>
    obtain ⟨disk, start, size, _, _, rfl⟩ := h
    exact watches_powerOn _ _ _ _ rfl fun g hg => absurd hg not_mem_nil
  | step h _ hs ih =>
    obtain ⟨hs, hh⟩ := of_traced hs
    rw [hh]
    exact watches_step (inv_traced h) ih hs

/-- The length of the transaction is the number of distinct blocks recorded since the last
group. -/
theorem length_lh_eq {h : History P} (hi : Inv s) (w : Watches s h) (hup : s.Up)
    (hc : s.log.committing = false) :
    s.log.lh.length = (h.cur.filterMap Event.block).toFinset.card := by
  rw [← toFinset_card_of_nodup (hi.nodup hup)]
  congr 1
  ext b
  simpa using w.blocks hup hc b

end Log
end Xv6
