import Xv6.Kernel.Flat

/-!
# No lost wakeup

`sleep(chan, lk)` takes `p->lock` before it releases `lk` and gives `p->lock` up only in the
scheduler, after `p->state` has been set.  So a `wakeup(chan)` that begins after `lk` was released
gets `p->lock` only when the process is `SLEEPING`, and finds it.

The history counts the calls of `sleep` and remembers, for every call of `wakeup`, the calls of
`sleep` on its channel that had begun before it.  A context is the stack of the calls of `wakeup` in
which a thread is: there may be several of them, since one can be interrupted.
-/

namespace Xv6.Kernel

open Lts System Code
open Function (update update_self update_of_ne update_eq_self)

variable {n o : Nat} {C : Type} [DecidableEq C] {cmd : Cmd n}

namespace Naps

/-- A call of `wakeup` that has not returned. -/
structure Entry (n : Nat) where
  id : Nat
  chan : Chan n
  only : Option (Fin n)
  /-- The processes it has looked at. -/
  seen : List (Fin n)

/-- The processes that a call of `wakeup` or `wakeup1` has to look at. -/
def Covers (only : Option (Fin n)) (p : Fin n) : Prop := only = none ∨ only = some p

/-- The rules. -/
def spec : (cmd : Cmd n) → List (Entry n) → (Ans cmd → List (Entry n) → Prop) → Prop
  | .wakeBegin ch only, x, Q => ∀ w, Q w (⟨w, ch, only, []⟩ :: x)
  | .wake p ch w, x, Q => ∃ e x', x = e :: x' ∧ e.id = w ∧ e.chan = ch ∧
      Q () ({ e with seen := p :: e.seen } :: x')
  | .wakeEnd w, x, Q => ∃ e x', x = e :: x' ∧ e.id = w ∧
    (∀ p, Covers e.only p → p ∈ e.seen) ∧ Q () x'
  | .panic _, _, _ => True
  | _, x, Q => ∀ a, Q a x

theorem monotone_spec : Code.Monotone (spec (n := n)) := by
  intro cmd x Q Q' h hs
  cases cmd with
  | wake p ch w | wakeEnd w =>
    obtain ⟨e, x', h1, h2, h3, h4⟩ := hs
    exact ⟨e, x', h1, h2, h3, h _ _ h4⟩
  | panic m => trivial
  | _ => exact fun a => h _ _ (hs a)

/-! ## The code keeps the rules -/

theorem uniform : Uniform fun (α : Type) (k : K n α) => Keeps spec k where
  ret _ _ := rfl
  bind hk hf := hk.bind monotone_spec hf
  panic _ _ := trivial
  loop _ _ _ := rfl
  basic {c} hc x := by
    cases c with
    | wakeBegin | wake | wakeEnd | panic => exact absurd hc id
    | _ => exact fun _ => rfl

/-- The loop of `wakeup` looks at all processes of the list. -/
theorem wp_wakeupOne (ch : Chan n) (w : Nat) (ps : List (Fin n)) (e : Entry n) (x : List (Entry n))
    (hid : e.id = w) (hch : e.chan = ch) {Q : Unit → List (Entry n) → Prop}
    (hQ : ∀ e', e'.id = w → e'.only = e.only → (∀ p, p ∈ ps ∨ p ∈ e.seen → p ∈ e'.seen) →
      Q () (e' :: x)) : wp spec (forEach (wakeupOne ch w) ps) (e :: x) Q := by
  induction ps generalizing e with
  | nil => exact hQ e hid rfl fun p hp => hp.resolve_left nofun
  | cons p ps ih =>
    rw [forEach]
    refine wp_bind monotone_spec ?_
    refine (uniform.acquire _).seq monotone_spec fun _ => ?_
    refine ⟨e, x, rfl, hid, hch, ?_⟩
    refine (uniform.release _).post monotone_spec fun _ => ih _ hid hch fun e' h1 h2 h3 => ?_
    refine hQ e' h1 h2 fun q hq => h3 q ?_
    rw [List.mem_cons] at hq ⊢
    tauto

theorem wakeup (ch : Chan n) : Keeps spec (wakeup ch) := by
  intro x w
  change wp spec (forEach (wakeupOne ch w) procs >>= fun _ => run (.wakeEnd w))
    (⟨w, ch, none, []⟩ :: x) _
  refine wp_bind monotone_spec (wp_wakeupOne ch w procs _ x rfl rfl fun e' h1 _ h3 => ?_)
  exact ⟨e', x, rfl, h1, fun p _ => h3 p (.inl (List.mem_finRange p)), rfl⟩

theorem wakeup1 (p : Fin n) : Keeps spec (wakeup1 p) := by
  intro x
  refine (uniform.basic (c := .holding (.proc p)) trivial).seq monotone_spec fun b => ?_
  refine (uniform.check b .wakeup1).seq monotone_spec fun _ => ?_
  intro w
  refine ⟨_, x, rfl, rfl, rfl, _, x, rfl, rfl, fun q hq => ?_, rfl⟩
  have hq : some p = some q := hq.resolve_left nofun
  rw [Option.some.inj hq]
  exact List.mem_cons_self ..

theorem whole : Whole fun (α : Type) (k : K n α) => Keeps spec k where
  toUniform := uniform
  setPid _ _ _ _ := rfl
  setParent _ _ _ _ := rfl
  ready _ _ _ := rfl
  setZombie _ _ _ _ := rfl
  freeproc _ _ _ := rfl
  newContext _ _ _ := rfl
  wakeup := wakeup
  wakeup1 := wakeup1
  sleep _ _ _ := uniform.sleep (fun _ _ _ => rfl) _

/-! ## What the contexts say -/

/-- A thread is in this call. -/
structure Entry.In (s : Sys n C) (e : Entry n) : Prop where
  lt : e.id < s.ncalls
  chan : (s.call e.id).chan = e.chan
  only : (s.call e.id).only = e.only
  seen : ∀ p ∈ e.seen, (s.call e.id).passed p = true

/-- What is true of the calls of `wakeup`. -/
structure Good (s : Sys n C) (x : Thread n C → List (Entry n)) : Prop where
  mine : ∀ t, ∀ e ∈ x t, e.In s
  finished : ∀ i, i < s.ncalls → (s.call i).finished = true → ∀ p, Covers (s.call i).only p →
    (s.call i).passed p = true
  /-- A call of `sleep` that it had to end is over when it has looked at the process. -/
  passed : ∀ i p, i < s.ncalls → (s.call i).passed p = true →
    (s.call i).due p = some (s.proc p).nap →
      (s.proc p).state ≠ .sleeping ∧ (s.proc p).dozing = false
  due : ∀ i p m, i < s.ncalls → (s.call i).due p = some m →
    m ≤ (s.proc p).nap ∧ (m = (s.proc p).nap → (s.proc p).bed = some (s.call i).chan)
  bed : ∀ p, (s.proc p).state = .sleeping → (s.proc p).chan = (s.proc p).bed

/-- A change that has nothing to do with sleeping. -/
structure Quiet (r r' : Proc n) : Prop where
  nap : r'.nap = r.nap
  bed : r'.bed = r.bed
  dozing : r'.dozing = r.dozing
  sleeping : r'.state = .sleeping → r.state = .sleeping ∧ r'.chan = r.chan

theorem Quiet.refl (r : Proc n) : Quiet r r := ⟨rfl, rfl, rfl, fun h => ⟨h, rfl⟩⟩

theorem Quiet.of_awake {r r' : Proc n} (h1 : r'.nap = r.nap) (h2 : r'.bed = r.bed)
    (h3 : r'.dozing = r.dozing) (h4 : r'.state ≠ .sleeping) : Quiet r r' :=
  ⟨h1, h2, h3, fun h => absurd h h4⟩

theorem Quiet.wake (r : Proc n) (ch : Chan n) : Quiet r (r.wake ch) := by
  rw [Proc.wake]
  split
  · exact .of_awake rfl rfl rfl (by simp)
  · exact .refl r

theorem Quiet.rouse (r : Proc n) : Quiet r r.rouse := by
  rw [Proc.rouse]
  split
  · exact .of_awake rfl rfl rfl (by simp)
  · exact .refl r

/-- All commands but those of `sleep` make such changes. -/
theorem Quiet.of_touch {r r' : Proc n} (h1 : ∀ p ch, cmd ≠ .doze p ch)
    (h2 : ∀ p ch, cmd ≠ .setSleeping p ch) (h3 : ∀ p, cmd = .clearChan p → r.state ≠ .sleeping)
    (h : cmd.Touch r r') : Quiet r r' := by
  cases cmd with
  | doze p ch => exact absurd rfl (h1 p ch)
  | setSleeping p ch => exact absurd rfl (h2 p ch)
  | clearChan p =>
    obtain rfl := h
    exact .of_awake rfl rfl rfl (h3 p rfl)
  | setCur q =>
    obtain ⟨b, rfl⟩ := h
    exact ⟨rfl, rfl, rfl, fun h => ⟨h, rfl⟩⟩
  | setPid p v | setParent p q | newContext p =>
    obtain rfl := h
    exact ⟨rfl, rfl, rfl, fun h => ⟨h, rfl⟩⟩
  | ready p | setRunnable p | setRunning p | setZombie p v | freeproc p =>
    obtain rfl := h
    exact .of_awake rfl rfl rfl nofun
  | wake p ch w =>
    obtain rfl := h
    exact .wake r ch
  | mark p v =>
    obtain rfl := h
    exact .rouse r
  | _ => exact absurd h id

section

variable {s s' : Sys n C} {x : Thread n C → List (Entry n)} {c : C} {p : Fin n} {e : Entry n}
  {t : Thread n C}

/-- What a call of `wakeup` does to its record. -/
structure Later (k k' : Call n) : Prop where
  chan : k'.chan = k.chan
  only : k'.only = k.only
  due : k'.due = k.due
  passed : ∀ p, k.passed p = true → k'.passed p = true

theorem Later.refl (k : Call n) : Later k k := ⟨rfl, rfl, rfl, fun _ h => h⟩

theorem later_update {call : Nat → Call n} {w : Nat} {k : Call n} (h : Later (call w) k) (i : Nat) :
    Later (call i) (update call w k i) := by
  by_cases hi : i = w
  · subst hi
    simpa using h
  · simpa [hi] using .refl _

section

omit [DecidableEq C]

theorem Entry.In.later (h : e.In s) (hn : s'.ncalls = s.ncalls)
    (hl : Later (s.call e.id) (s'.call e.id)) : e.In s' :=
  ⟨hn ▸ h.lt, hl.chan.trans h.chan, hl.only.trans h.only, fun p hp => hl.passed p (h.seen p hp)⟩

/-- Calls of `wakeup` go on, and nobody falls asleep. -/
theorem Good.later (h : Good s x) {x' : Thread n C → List (Entry n)}
    (hp : ∀ q, Quiet (s.proc q) (s'.proc q)) (hn : s'.ncalls = s.ncalls)
    (hl : ∀ i, Later (s.call i) (s'.call i)) (hx : ∀ t, ∀ e ∈ x' t, e.In s')
    (hf : ∀ i, (s'.call i).finished = true → (s.call i).finished = true ∨
      ∀ p, Covers (s.call i).only p → (s'.call i).passed p = true)
    (hq : ∀ i p, i < s.ncalls → (s'.call i).passed p = true → (s.call i).passed p = true ∨
      ((s.call i).due p = some (s.proc p).nap →
        (s'.proc p).state ≠ .sleeping ∧ (s'.proc p).dozing = false)) : Good s' x' where
  mine := hx
  finished i hi hi' p hc := by
    rw [(hl i).only] at hc
    obtain h1 | h1 := hf i hi'
    · exact (hl i).passed p (h.finished i (hn ▸ hi) h1 p hc)
    · exact h1 p hc
  passed i p hi h1 h2 := by
    rw [(hl i).due, (hp p).nap] at h2
    obtain h3 | h3 := hq i p (hn ▸ hi) h1
    · obtain ⟨h4, h5⟩ := h.passed i p (hn ▸ hi) h3 h2
      exact ⟨fun h6 => h4 ((hp p).sleeping h6).1, (hp p).dozing.trans h5⟩
    · exact h3 h2
  due i p m hi hd := by
    rw [(hl i).due] at hd
    rw [(hp p).nap, (hp p).bed, (hl i).chan]
    exact h.due i p m (hn ▸ hi) hd
  bed p hs := by
    rw [((hp p).sleeping hs).2, (hp p).bed]
    exact h.bed p ((hp p).sleeping hs).1

theorem Good.quiet (h : Good s x) (hp : ∀ q, Quiet (s.proc q) (s'.proc q)) (hc : s'.call = s.call)
    (hn : s'.ncalls = s.ncalls) : Good s' x :=
  h.later hp hn (fun _ => hc ▸ .refl _) (fun t e he => (h.mine t e he).later hn (hc ▸ .refl _))
    (fun _ hi => .inl (hc ▸ hi)) fun _ _ _ hq => .inl (hc ▸ hq)

theorem Good.like (h : Good s x) (hl : s.Like s') : Good s' x := by
  refine h.quiet (fun q => ?_) hl.call hl.ncalls
  obtain ⟨b, hb⟩ := hl.proc q
  rw [hb]
  exact ⟨rfl, rfl, rfl, fun h => ⟨h, rfl⟩⟩

end

theorem in_update {y : List (Entry n)} (hold : ∀ t, ∀ e ∈ x t, e.In s) (hnew : ∀ e ∈ y, e.In s) :
    ∀ t', ∀ e ∈ update x t y t', e.In s := by
  intro t' e he
  by_cases ht : t' = t
  · subst ht
    rw [update_self] at he
    exact hnew e he
  · rw [update_of_ne ht] at he
    exact hold t' e he

omit [DecidableEq C] in
theorem Good.doze (h : Good s x) (ch : Chan n) (hp : (s.proc p).state ≠ .sleeping) :
    Good (s.modify p fun r => { r with nap := r.nap + 1, bed := some ch, dozing := true }) x where
  mine t e he := ⟨(h.mine t e he).lt, (h.mine t e he).chan, (h.mine t e he).only,
    (h.mine t e he).seen⟩
  finished := h.finished
  passed i q hi h1 h2 := by
    by_cases hq : q = p
    · subst hq
      rw [Sys.modify_self] at h2
      exact absurd (h.due i q _ hi h2).1 (Nat.not_succ_le_self _)
    · rw [Sys.modify_of_ne _ _ hq] at h2 ⊢
      exact h.passed i q hi h1 h2
  due i q m hi hd := by
    have hm := h.due i q m hi hd
    by_cases hq : q = p
    · subst hq
      rw [Sys.modify_self]
      have hlt : m < (s.proc q).nap + 1 := Nat.lt_succ_of_le hm.1
      exact ⟨hlt.le, fun he => absurd he hlt.ne⟩
    · rw [Sys.modify_of_ne _ _ hq]
      exact hm
  bed q hq := by
    by_cases hqp : q = p
    · subst hqp
      rw [Sys.modify_self] at hq
      exact absurd hq hp
    · rw [Sys.modify_of_ne _ _ hqp] at hq ⊢
      exact h.bed q hq

omit [DecidableEq C] in
theorem Good.setSleeping (h : Good s x) {ch : Chan n} (hd : (s.proc p).dozing = true)
    (hb : (s.proc p).bed = some ch) :
    Good (s.modify p fun r =>
      { r with chan := some ch, state := .sleeping, dozing := false }) x where
  mine t e he := ⟨(h.mine t e he).lt, (h.mine t e he).chan, (h.mine t e he).only,
    (h.mine t e he).seen⟩
  finished := h.finished
  passed i q hi h1 h2 := by
    by_cases hq : q = p
    · subst hq
      rw [Sys.modify_self] at h2
      simp [(h.passed i q hi h1 h2).2] at hd
    · rw [Sys.modify_of_ne _ _ hq] at h2 ⊢
      exact h.passed i q hi h1 h2
  due i q m hi he := by
    have hm := h.due i q m hi he
    by_cases hq : q = p
    · subst hq
      rw [Sys.modify_self]
      exact hm
    · rw [Sys.modify_of_ne _ _ hq]
      exact hm
  bed q hq := by
    by_cases hqp : q = p
    · subst hqp
      rw [Sys.modify_self]
      exact hb.symm
    · rw [Sys.modify_of_ne _ _ hqp] at hq ⊢
      exact h.bed q hq

theorem Good.wakeBegin (h : Good s x) (t : Thread n C) (ch : Chan n) (only : Option (Fin n)) :
    Good (s.wakeBegin ch only) (update x t (⟨s.ncalls, ch, only, []⟩ :: x t)) := by
  have hself : (s.wakeBegin ch only).call s.ncalls = _ := update_self ..
  have hne : ∀ i, i < s.ncalls → (s.wakeBegin ch only).call i = s.call i := fun i hi =>
    update_of_ne hi.ne ..
  have hin : ∀ e : Entry n, e.In s → e.In (s.wakeBegin ch only) := fun e he =>
    ⟨Nat.lt_succ_of_lt he.lt, by rw [hne _ he.lt, he.chan], by rw [hne _ he.lt, he.only],
      by rw [hne _ he.lt]; exact he.seen⟩
  refine ⟨in_update (fun t e he => hin e (h.mine t e he)) fun e he => ?_, fun i hi => ?_,
    fun i q hi => ?_, fun i q m hi => ?_, h.bed⟩
  · obtain rfl | he := List.mem_cons.mp he
    · exact ⟨Nat.lt_succ_self _, by rw [hself], by rw [hself], nofun⟩
    · exact hin e (h.mine t e he)
  · obtain hi | rfl := Nat.lt_succ_iff_lt_or_eq.mp hi
    · rw [hne i hi]
      exact h.finished i hi
    · rw [hself]
      exact nofun
  · obtain hi | rfl := Nat.lt_succ_iff_lt_or_eq.mp hi
    · rw [hne i hi]
      exact h.passed i q hi
    · rw [hself]
      exact nofun
  · obtain hi | rfl := Nat.lt_succ_iff_lt_or_eq.mp hi
    · rw [hne i hi]
      exact h.due i q m hi
    · rw [hself]
      dsimp only
      split
      · rename_i hb
        intro hm
        cases hm
        exact ⟨Nat.le_refl _, fun _ => hb.1⟩
      · exact nofun

theorem Good.wake (h : Good s x) {x' : List (Entry n)} (hx : x t = e :: x')
    (hp : (s.proc p).dozing = false) :
    Good ({ s with
      call := update s.call e.id
        { s.call e.id with passed := update (s.call e.id).passed p true } }.modify p fun r =>
          r.wake e.chan)
      (update x t ({ e with seen := p :: e.seen } :: x')) := by
  have he := h.mine t e (by simp [hx])
  have hpass : ∀ q, update (s.call e.id).passed p true q = true ↔
      q = p ∨ (s.call e.id).passed q = true := fun q => by
    by_cases hq : q = p <;> simp [hq]
  generalize hk : { s.call e.id with passed := update (s.call e.id).passed p true } = k
  have hkp : k.passed = update (s.call e.id).passed p true := by rw [← hk]
  have hself : update s.call e.id k e.id = k := update_self ..
  have hlater : ∀ i, Later (s.call i) (update s.call e.id k i) := by
    refine later_update ⟨?_, ?_, ?_, fun q hq => hkp ▸ (hpass q).mpr (.inr hq)⟩ <;> rw [← hk]
  refine h.later (fun q => ?_) rfl hlater (in_update
    (fun t e' he' => (h.mine t e' he').later rfl (hlater _)) fun e' he' => ?_) (fun i hi => .inl ?_)
    fun i q hi hq => ?_
  · obtain hq | ⟨-, hq⟩ := s.modify_proc p q fun r => r.wake e.chan
    · exact hq ▸ .refl _
    · exact hq ▸ .wake _ _
  · obtain rfl | he' := List.mem_cons.mp he'
    · refine ⟨he.lt, (hlater _).chan.trans he.chan, (hlater _).only.trans he.only, fun q hq => ?_⟩
      refine (congrArg (Call.passed · q) hself).trans (hkp ▸ (hpass q).mpr ?_)
      exact (List.mem_cons.mp hq).imp_right (he.seen q)
    · exact (h.mine t e' (by simp [hx, he'])).later rfl (hlater _)
  · have hi : (update s.call e.id k i).finished = true := hi
    by_cases hie : i = e.id
    · subst hie
      rwa [hself, ← hk] at hi
    · rwa [update_of_ne hie] at hi
  · have hq : (update s.call e.id k i).passed q = true := hq
    by_cases hie : i = e.id
    · subst hie
      rw [hself, hkp, hpass] at hq
      refine hq.symm.imp_right ?_
      rintro rfl hd
      have hb := (h.due e.id q _ he.lt hd).2 rfl
      rw [Sys.modify_self]
      refine ⟨?_, (Quiet.wake ..).dozing.trans hp⟩
      -- if it sleeps, it is on the channel of this call
      rw [Proc.wake]
      split
      · rintro ⟨⟩
      · rename_i hns
        exact fun hs => hns ⟨hs, by rw [h.bed q hs, hb, he.chan]⟩
    · rw [update_of_ne hie] at hq
      exact .inl hq

theorem Good.wakeEnd (h : Good s x) {x' : List (Entry n)} (hx : x t = e :: x')
    (hp : ∀ p, Covers e.only p → p ∈ e.seen) :
    Good { s with call := update s.call e.id { s.call e.id with finished := true } }
      (update x t x') := by
  have he := h.mine t e (by simp [hx])
  have hlater : ∀ i, Later (s.call i) (update s.call e.id
      { s.call e.id with finished := true } i) := later_update ⟨rfl, rfl, rfl, fun _ h => h⟩
  have hpass : ∀ i q, (update s.call e.id { s.call e.id with finished := true } i).passed q =
      (s.call i).passed q := fun i q => by
    by_cases hie : i = e.id
    · subst hie
      rw [update_self]
    · rw [update_of_ne hie]
  refine h.later (fun q => .refl _) rfl hlater (in_update
    (fun t e' he' => (h.mine t e' he').later rfl (hlater _)) fun e' he' => ?_) (fun i hi => ?_)
    fun i q _ hq => .inl ((hpass i q).symm.trans hq)
  · exact (h.mine t e' (by simp [hx, he'])).later rfl (hlater _)
  · by_cases hie : i = e.id
    · subst hie
      refine .inr fun q hq => (hpass e.id q).trans (he.seen q (hp q ?_))
      rwa [he.only] at hq
    · dsimp only at hi
      rw [update_of_ne hie] at hi
      exact .inl hi

end

/-! ## The layer -/

section Layer

variable {boot : C} {init : Fin n} {ok : State n C → Act C → Prop} {s : State n C}

theorem effect_good {x : Thread n C → List (Entry n)} {c : C} {k : Ans cmd → K n Unit} {r : Ans cmd}
    {s' : Sys n C} {Q : Ans cmd → List (Entry n) → Prop} (hs : (machine n C boot init).Reach ok s)
    (h : Good s.sys x) (hc : s.run c = .code (.cmd cmd k))
    (he : effect boot s.sys c o cmd = .done r s') (hQ : spec cmd (x (s.sys.who c)) Q) :
    ∃ y, Q r y ∧ Good s' (update x (s.sys.who c) y) := by
  have hf := effect_change he
  obtain ⟨z, R, hz, hR⟩ := Locking.next hs hc
  cases cmd with
  | wakeBegin ch only =>
    cases he
    exact ⟨_, hQ _, h.wakeBegin _ ch only⟩
  | wake p ch w =>
    cases he
    obtain ⟨e, x', hx, rfl, rfl, hQ⟩ := hQ
    obtain ⟨r, hv, hd, -⟩ := hR
    obtain ⟨-, rfl⟩ := (hz.cpu c).of_view hv
    exact ⟨_, hQ, h.wake hx hd⟩
  | wakeEnd w =>
    cases he
    obtain ⟨e, x', hx, rfl, hp, hQ⟩ := hQ
    exact ⟨_, hQ, h.wakeEnd hx hp⟩
  | panic m => nomatch he
  | doze p ch =>
    cases he
    obtain ⟨r, hv, -, hr, -⟩ := hR
    obtain ⟨-, rfl⟩ := (hz.cpu c).of_view hv
    refine ⟨_, hQ (), ?_⟩
    rw [update_eq_self]
    exact h.doze ch (by simp [hr])
  | setSleeping p ch =>
    cases he
    obtain ⟨r, hv, -, -, hd, hb, -⟩ := hR
    obtain ⟨-, rfl⟩ := (hz.cpu c).of_view hv
    refine ⟨_, hQ (), ?_⟩
    rw [update_eq_self]
    exact h.setSleeping hd hb
  | clearChan p =>
    obtain ⟨r, hv, hr, -⟩ := hR
    obtain ⟨-, rfl⟩ := (hz.cpu c).of_view hv
    refine ⟨_, hQ _, ?_⟩
    rw [update_eq_self]
    refine h.quiet (hf.rel .refl fun q hq => .of_touch nofun nofun fun _ _ => ?_) (hf.call id).1
      (hf.call id).2
    obtain rfl : q = p := hq
    simp [hr]
  | _ =>
    refine ⟨_, hQ _, ?_⟩
    rw [update_eq_self]
    exact h.quiet (hf.rel .refl fun q _ => .of_touch nofun nofun nofun) (hf.call id).1
      (hf.call id).2

theorem layer : Flat spec Good boot init ok where
  mono := monotone_spec
  scheduler := uniform.scheduler
  forkret := uniform.forkret
  kerneltrap := whole.kerneltrap
  intrOn _ _ hQ _ := hQ
  body l := by
    by_cases hl : l.Tests
    · exact whole.testBody hl fun ch lk => uniform.sleep (fun _ _ _ => rfl) lk
    · exact whole.body hl
  loop _ _ _ hQ := hQ
  swtchSched _ _ _ hQ := hQ ()
  swtchProc _ _ _ hQ := hQ ()
  newContext _ _ _ hQ := hQ ()
  first mem _ := by
    refine ⟨fun _ => [], nofun, nofun, nofun, nofun, fun p hp => ?_⟩
    dsimp only [start, firstProc] at hp
    split at hp <;> nomatch hp
  eff s x c o cmd k r sys' Q hs _ hG hc _ he hQ := effect_good hs hG hc he hQ
  like _ _ _ h hl := h.like hl
  trap s x c p t hs hG hc := by
    refine ⟨x (.inl p), wp_usertrap monotone_spec whole init t (fun d _ => ?_)
      fun _ _ _ => trivial, ?_⟩
    · refine (whole.syscall init d fun pid _ => ?_).post monotone_spec fun _ _ => trivial
      exact uniform.killFrom (fun _ _ _ _ => rfl) pid _
    · rw [update_eq_self]
      exact hG.quiet (fun _ => .refl _) rfl rfl

end Layer

section Since

variable {s s' : Sys n C} {p : Fin n} {m i : Nat} {ch : Chan n} {cmd : Cmd n}

/-- Since the call number `i` of `wakeup`, the process has been in its call number `m` of `sleep`,
on `ch`, unless it has called `sleep` again. -/
structure Since (s : Sys n C) (p : Fin n) (m : Nat) (ch : Chan n) (i : Nat) : Prop where
  nap : m ≤ (s.proc p).nap
  bed : (s.proc p).nap = m → (s.proc p).bed = some ch
  due : ∀ j, i ≤ j → j < s.ncalls → (s.call j).chan = ch → Covers (s.call j).only p →
    (s.proc p).nap = m → (s.call j).due p = some m

theorem nap_of_touch {r r' : Proc n} (hd : ∀ p ch, cmd ≠ .doze p ch) (h : cmd.Touch r r') :
    r'.nap = r.nap ∧ r'.bed = r.bed := by
  cases cmd with
  | doze p ch => exact absurd rfl (hd p ch)
  | setCur q =>
    obtain ⟨b, rfl⟩ := h
    exact ⟨rfl, rfl⟩
  | wake p ch w =>
    obtain rfl := h
    exact ⟨(Quiet.wake r ch).nap, (Quiet.wake r ch).bed⟩
  | mark p v =>
    obtain rfl := h
    exact ⟨(Quiet.rouse r).nap, (Quiet.rouse r).bed⟩
  | setPid p v | setParent p q | newContext p | ready p | setRunnable p | setRunning p
  | setZombie p v
  | freeproc p | setSleeping p ch | clearChan p =>
    obtain rfl := h
    exact ⟨rfl, rfl⟩
  | _ => exact absurd h id

omit [DecidableEq C] in
theorem Since.keep (h : Since s p m ch i)
    (hp : (s'.proc p).nap = (s.proc p).nap ∧ (s'.proc p).bed = (s.proc p).bed)
    (hl : ∀ j, Later (s.call j) (s'.call j)) (hn : s'.ncalls = s.ncalls) : Since s' p m ch i where
  nap := hp.1 ▸ h.nap
  bed hm := by
    rw [hp.2]
    exact h.bed (hp.1 ▸ hm)
  due j hj hj' hch hc hm := by
    rw [(hl j).chan] at hch
    rw [(hl j).only] at hc
    rw [(hl j).due]
    exact h.due j hj (hn ▸ hj') hch hc (hp.1 ▸ hm)

theorem Since.effect {boot : C} {c : C} {r : Ans cmd} (h : Since s p m ch i)
    (he : effect boot s c o cmd = .done r s') : Since s' p m ch i := by
  have hf := effect_change he
  have hp : (∀ q ch, cmd ≠ .doze q ch) → (s'.proc p).nap = (s.proc p).nap ∧
      (s'.proc p).bed = (s.proc p).bed := fun hd =>
    hf.rel (R := fun r r' => r'.nap = r.nap ∧ r'.bed = r.bed) (fun _ => ⟨rfl, rfl⟩)
      (fun _ _ => nap_of_touch hd) p
  cases cmd with
  | doze q ch' =>
    cases he
    by_cases hq : p = q
    · subst hq
      have hlt : m < (s.proc p).nap + 1 := Nat.lt_succ_of_le h.nap
      refine ⟨?_, fun hm => ?_, fun j _ _ _ _ hm => ?_⟩
      · rw [Sys.modify_self]
        exact hlt.le
      · rw [Sys.modify_self] at hm
        exact absurd hm hlt.ne'
      · rw [Sys.modify_self] at hm
        exact absurd hm hlt.ne'
    · refine h.keep ?_ (fun _ => .refl _) rfl
      rw [Sys.modify_of_ne _ _ hq]
      exact ⟨rfl, rfl⟩
  | wakeBegin ch' only =>
    cases he
    refine ⟨h.nap, h.bed, fun j hj hj' hch hc hm => ?_⟩
    have hm : (s.proc p).nap = m := hm
    obtain hj' | rfl := Nat.lt_succ_iff_lt_or_eq.mp hj'
    · have hne : (s.wakeBegin ch' only).call j = s.call j := update_of_ne hj'.ne ..
      rw [hne] at hch hc ⊢
      exact h.due j hj hj' hch hc hm
    · have hself : (s.wakeBegin ch' only).call s.ncalls = _ := update_self ..
      rw [hself] at hch hc ⊢
      obtain rfl : ch' = ch := hch
      exact (if_pos ⟨h.bed hm, hc⟩).trans (congrArg some hm)
  | wake q ch' w =>
    have hw := hp nofun
    cases he
    refine h.keep hw (later_update ⟨rfl, rfl, rfl, fun q' hq' => ?_⟩) rfl
    by_cases hq : q' = q <;> simp [hq, hq']
  | wakeEnd w =>
    cases he
    exact h.keep ⟨rfl, rfl⟩ (later_update ⟨rfl, rfl, rfl, fun _ h => h⟩) rfl
  | _ => exact h.keep (hp nofun) (fun _ => (hf.call id).1 ▸ .refl _) (hf.call id).2

end Since

end Naps

section Results

variable {boot : C} {init : Fin n} {s s' : State n C} {p : Fin n} {ch : Chan n}

theorem Naps.Since.step {m i : Nat} {a : Act C} (h : Since s.sys p m ch i)
    (hs : (machine n C boot init).step s a = some s') : Since s'.sys p m ch i := by
  have hm := moves_of_step hs
  generalize s'.sys = t at hm
  cases hm with
  | like hl =>
    obtain ⟨b, hb⟩ := hl.proc p
    refine h.keep ?_ (fun _ => hl.call ▸ .refl _) hl.ncalls
    rw [hb]
    exact ⟨rfl, rfl⟩
  | effect hc he => exact h.effect he
  | enter hc hp => exact h.keep ⟨rfl, rfl⟩ (fun _ => .refl _) rfl

/-- **No lost wakeup.**  The process `p` has called `sleep` on `ch` before the state `s`, where it
may still be about to release `lk`.  A `wakeup` on that channel that begins after `s` and returns
before `s'` has ended that call of `sleep`.  And `sleep(chan, lk)` returns only on a CPU that holds
`lk`. -/
theorem no_lost_wakeup (h : (machine n C boot init).Reach Any s) {as : List (Act C)}
    (hs : (machine n C boot init).exec s as = some s') :
    (∀ i, (s.sys.proc p).bed = some ch → s.sys.ncalls ≤ i → i < s'.sys.ncalls →
      (s'.sys.call i).chan = ch → ((s'.sys.call i).only = none ∨ (s'.sys.call i).only = some p) →
      (s'.sys.call i).finished = true →
      ¬ ((s'.sys.proc p).nap = (s.sys.proc p).nap ∧
        ((s'.sys.proc p).state = .sleeping ∨ (s'.sys.proc p).dozing = true))) ∧
    ∀ c lk k, s'.run c = .code (.cmd (.slept lk) k) → s'.sys.lock lk = some c := by
  have h' := reach_of_exec h hs
  refine ⟨fun i hb h1 h2 h3 h4 h5 => ?_, fun c lk k hc => ?_⟩
  · rintro ⟨hnap, hsl⟩
    obtain ⟨x, -, hG⟩ := Naps.layer.inv h'
    have hsince : Naps.Since s'.sys p (s.sys.proc p).nap ch s.sys.ncalls :=
      exec_inv (I := fun t => Naps.Since t.sys p _ ch s.sys.ncalls) (fun _ _ _ hi hs => hi.step hs)
        ⟨Nat.le_refl _, fun _ => hb, fun j hj hj' => absurd hj' (Nat.not_lt.mpr hj)⟩ hs
    have hdue := hsince.due i h1 h2 h3 h4 hnap
    obtain ⟨hne, hd⟩ := hG.passed i p h2 (hG.finished i h2 h5 p h4) (hnap ▸ hdue)
    rw [hd] at hsl
    exact hsl.elim hne nofun
  · obtain ⟨z, R, hz, hl, -⟩ := Locking.next h' hc
    exact ((hz.cpu c).lock lk).mpr hl

/-- The first process calls `sleep(1)`; the clock ticks while it is about to give up the CPU. -/
theorem no_lost_wakeup_ticks : ∃ (s s' : State 1 Unit) (as : List (Act Unit)),
    (machine 1 Unit () 0).Reach Any s ∧ (machine 1 Unit () 0).exec s as = some s' ∧
    (s.sys.proc 0).bed = some .ticks ∧ (s'.sys.call s.sys.ncalls).finished = true ∧
    (s'.sys.proc 0).nap = (s.sys.proc 0).nap ∧ (s'.sys.proc 0).state ≠ .sleeping := by
  have hrun : ((machine 1 Unit () 0).exec (start 0 (firstMem 0)) (List.replicate 19 (.step () 0) ++
      .trap () (.syscall (.sleep 1)) :: List.replicate 14 (.step () 0))).map
        (fun s => (decide ((s.sys.proc 0).bed = some .ticks ∧ (s.sys.proc 0).nap = 1 ∧
            s.sys.ncalls = 0),
          ((machine 1 Unit () 0).exec s (List.replicate 12 (.step () 0) ++
            .intr () .timer :: List.replicate 11 (.step () 0))).map fun s =>
              decide ((s.sys.proc 0).nap = 1 ∧ s.sys.ncalls = 1 ∧ (s.sys.call 0).chan = .ticks ∧
                (s.sys.call 0).only = none ∧ (s.sys.call 0).finished = true))) =
      some (true, some true) := by decide +kernel
  obtain ⟨s, hs, hst⟩ := Option.map_eq_some_iff.mp hrun
  obtain ⟨hst, hst'⟩ := Prod.mk.inj hst
  obtain ⟨s', hs', hst'⟩ := Option.map_eq_some_iff.mp hst'
  obtain ⟨hb, hn, hc⟩ := of_decide_eq_true hst
  obtain ⟨hn', hc', hch, ho, hf⟩ := of_decide_eq_true hst'
  have hr := reach_of_exec (reach_start () 0) hs
  refine ⟨s, s', _, hr, hs', hb, by rwa [hc], hn'.trans hn.symm, fun hsl => ?_⟩
  exact (no_lost_wakeup hr hs').1 0 hb hc.le (by omega) hch (.inl ho) hf
    ⟨hn'.trans hn.symm, .inl hsl⟩

end Results

end Xv6.Kernel
