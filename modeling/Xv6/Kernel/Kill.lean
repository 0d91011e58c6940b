import Xv6.Kernel.Flat

/-!
# Whom `kill` hits

`kill` looks for its pid in all slots and does not ask whether the slot is in use.  A slot that is
`UNUSED` has pid 0, or still the pid that a failed `allocproc` has given it; so `kill(0)` marks a
free slot, and the process that gets the slot next has been killed before it has begun.

Apart from that, `kill` does what it should: as long as it does not find a slot that is `UNUSED`, a
process is marked only if it has deserved that, and `kill` returns 0 exactly if it has found
somebody.
-/

namespace Xv6.Kernel

open Lts System Code
open Function (update update_self update_of_ne update_eq_self)

variable {n : Nat} {C : Type} [DecidableEq C]

namespace Kill

/-- The rules.  A process knows whether it has marked somebody since it has entered the kernel. -/
def spec : (cmd : Cmd n) → Option (Option Bool) → (Ans cmd → Option (Option Bool) → Prop) → Prop
  | .mark _ _, x, Q => x ≠ none ∧ Q () (some (some true))
  | .returned (.kill _) r, x, Q =>
    (r = 0 ∧ x = some (some true) ∨ r = failed ∧ x = some none) ∧ Q () x
  | .panic _, _, _ => True
  | _, x, Q => ∀ a, Q a x

theorem monotone_spec : Code.Monotone (spec (n := n)) := by
  intro cmd x Q Q' h hs
  cases cmd with
  | mark p v => exact ⟨hs.1, h _ _ hs.2⟩
  | returned d r =>
    cases d with
    | kill pid => exact ⟨hs.1, h _ _ hs.2⟩
    | _ => exact fun a => h _ _ (hs a)
  | panic m => trivial
  | _ => exact fun a => h _ _ (hs a)

theorem uniform : Uniform fun (α : Type) (k : K n α) => Keeps spec k where
  ret _ _ := rfl
  bind hk hf := hk.bind monotone_spec hf
  panic _ _ := trivial
  loop _ _ _ := rfl
  basic {c} hc x := by
    cases c with
    | mark | returned | panic => exact absurd hc id
    | _ => exact fun _ => rfl

theorem sleep (ch : Chan n) (lk : Lock n) : Keeps spec (sleep ch lk) :=
  uniform.sleep (fun _ _ _ => rfl) lk

theorem whole : Whole fun (α : Type) (k : K n α) => Keeps spec k where
  toUniform := uniform
  setPid _ _ _ _ := rfl
  setParent _ _ _ _ := rfl
  ready _ _ _ := rfl
  setZombie _ _ _ _ := rfl
  freeproc _ _ _ := rfl
  newContext _ _ _ := rfl
  wakeup := uniform.wakeup (fun _ _ _ _ => rfl) (fun _ _ _ _ _ => rfl) fun _ _ _ => rfl
  wakeup1 := uniform.wakeup1 (fun _ _ _ _ => rfl) (fun _ _ _ _ _ => rfl) fun _ _ _ => rfl
  sleep ch lk _ := sleep ch lk

/-- `kill` marks a process if it returns 0, and otherwise none. -/
theorem wp_killFrom (pid : Int) (ps : List (Fin n)) : wp spec (killFrom pid ps) (some none)
    fun r y => r = 0 ∧ y = some (some true) ∨ r = failed ∧ y = some none := by
  induction ps with
  | nil => exact .inr ⟨rfl, rfl⟩
  | cons p ps ih =>
    refine (uniform.acquire (.proc p)).seq monotone_spec fun _ v => ?_
    change wp spec (if v = pid then _ else _) _ _
    split
    · exact ⟨nofun, fun _ => .inl ⟨rfl, rfl⟩⟩
    · exact (uniform.release (.proc p)).seq monotone_spec fun _ => ih

/-! ## What the contexts say -/

/-- Nobody is marked without a reason. -/
structure Good (s : Sys n C) (x : Thread n C → Option (Option Bool)) : Prop where
  hit : ∀ p, x (.inl p) = some (s.hit p)
  sched : ∀ c, x (.inr c) = none
  killed : ∀ p, s.killed p = true → s.doomed p = true
  unused : ∀ p, (s.proc p).state = .unused → s.killed p = false

theorem unused_of_touch {c : Cmd n} {r r' : Proc n} (hf : ∀ p, c ≠ .freeproc p)
    (h : c.Touch r r') (hr : r'.state = .unused) : r.state = .unused := by
  cases c with
  | freeproc p => exact absurd rfl (hf p)
  | setCur q =>
    obtain ⟨b, rfl⟩ := h
    exact hr
  | setPid p v | setParent p q | newContext p | clearChan p | doze p ch =>
    obtain rfl := h
    exact hr
  | ready p | setRunnable p | setRunning p | setZombie p v | setSleeping p ch =>
    obtain rfl := h
    nomatch hr
  | wake p ch w =>
    obtain rfl := h
    rw [Proc.wake] at hr
    split at hr
    · nomatch hr
    · exact hr
  | mark p v =>
    obtain rfl := h
    rw [Proc.rouse] at hr
    split at hr
    · nomatch hr
    · exact hr
  | _ => exact absurd h id

section

variable {s s' : Sys n C} {x : Thread n C → Option (Option Bool)} {c : C} {p : Fin n}

omit [DecidableEq C] in
theorem Good.keep (h : Good s x)
    (hp : ∀ q, (s'.proc q).state = .unused → (s.proc q).state = .unused)
    (hk : s'.killed = s.killed) (hd : s'.doomed = s.doomed) (hh : s'.hit = s.hit) : Good s' x where
  hit q := hh ▸ h.hit q
  sched := h.sched
  killed q hq := hd ▸ h.killed q (hk ▸ hq)
  unused q hq := hk ▸ h.unused q (hp q hq)

omit [DecidableEq C] in
theorem Good.like (h : Good s x) (hl : s.Like s') : Good s' x := by
  refine h.keep (fun q hq => ?_) hl.killed hl.doomed hl.hit
  obtain ⟨b, hb⟩ := hl.proc q
  rw [hb] at hq
  exact hq

theorem Good.mark (h : Good s x) {q : Fin n} {f : Proc n → Proc n} {v : Fin n → Option Bool}
    (hp : (s.proc p).state ≠ .unused) (hf : ∀ r, (f r).state = .unused → r.state = .unused)
    (hv : v = update s.hit q (some true)) :
    Good ({ s with
      killed := update s.killed p true
      doomed := update s.doomed p (s.doomed p || true)
      hit := v }.modify p f) (update x (.inl q) (some (some true))) where
  hit r := by
    subst hv
    change _ = some (update s.hit q (some true) r)
    by_cases hr : r = q
    · rw [hr, update_self, update_self]
    · rw [update_of_ne (by simpa using hr), update_of_ne hr]
      exact h.hit r
  sched d := by
    rw [update_of_ne (by simp)]
    exact h.sched d
  killed r hr := by
    have hr : update s.killed p true r = true := hr
    change update s.doomed p (s.doomed p || true) r = true
    by_cases hrp : r = p
    · rw [hrp, update_self, Bool.or_true]
    · rw [update_of_ne hrp] at hr ⊢
      exact h.killed r hr
  unused r hr := by
    change update s.killed p true r = false
    by_cases hrp : r = p
    · subst hrp
      rw [Sys.modify_self] at hr
      exact absurd (hf _ hr) hp
    · rw [Sys.modify_of_ne _ _ hrp] at hr
      simpa [hrp] using h.unused r hr

omit [DecidableEq C] in
theorem Good.fatal (h : Good s x) (hp : (s.proc p).state ≠ .unused) : Good { s with
      killed := update s.killed p true
      doomed := update s.doomed p true } x where
  hit := h.hit
  sched := h.sched
  killed r hr := by
    dsimp only at hr ⊢
    by_cases hrp : r = p
    · rw [hrp, update_self]
    · rw [update_of_ne hrp] at hr ⊢
      exact h.killed r hr
  unused r hr := by
    have hrp : r ≠ p := fun he => hp (he ▸ hr)
    dsimp only
    simpa [hrp] using h.unused r hr

omit [DecidableEq C] in
/-- A slot in which nobody is marked is given to a new process, or set free. -/
theorem Good.renew (h : Good s x) (hk : ∀ q, s'.killed q = true → q ≠ p ∧ s.killed q = true)
    (hproc : ∀ q, q ≠ p → s'.proc q = s.proc q)
    (h2 : s'.doomed = update s.doomed p false) (h3 : s'.hit = s.hit) : Good s' x where
  hit q := h3 ▸ h.hit q
  sched := h.sched
  killed q hq := by
    obtain ⟨hqp, hq⟩ := hk q hq
    rw [h2, update_of_ne hqp]
    exact h.killed q hq
  unused q hq := by
    refine Bool.eq_false_iff.mpr fun hkq => ?_
    obtain ⟨hqp, hkq⟩ := hk q hkq
    rw [hproc q hqp] at hq
    exact Bool.eq_false_iff.mp (h.unused q hq) hkq

end

/-- `kill` does not find a slot that is `UNUSED`. -/
def Used (s : State n C) : Act C → Prop
  | .step c _ => ∀ p v k, s.run c = .code (.cmd (.mark p v) k) → (s.sys.proc p).state ≠ .unused
  | _ => True

section Layer

variable {boot : C} {init : Fin n} {s : State n C}

theorem effect_good {x : Thread n C → Option (Option Bool)} {c : C} {o : Nat} {cmd : Cmd n}
    {k : Ans cmd → K n Unit} {r : Ans cmd} {s' : Sys n C}
    {Q : Ans cmd → Option (Option Bool) → Prop} (hs : (machine n C boot init).Reach Used s)
    (hok : Used s (.step c o)) (h : Good s.sys x) (hc : s.run c = .code (.cmd cmd k))
    (he : effect boot s.sys c o cmd = .done r s') (hQ : spec cmd (x (s.sys.who c)) Q) :
    ∃ y, Q r y ∧ Good s' (update x (s.sys.who c) y) := by
  have hf := effect_change he
  obtain ⟨z, R, hz, hR⟩ := Locking.next hs hc
  cases cmd with
  | mark p v =>
    cases he
    obtain ⟨hx, hQ⟩ := hQ
    obtain ⟨r, hv, rfl, -⟩ := hR
    obtain ⟨-, rfl⟩ := (hz.cpu c).of_view hv
    have hun := hok p _ k hc
    refine ⟨_, hQ, ?_⟩
    cases ht : s.sys.thr c with
    | none => exact absurd (Layer.who_of_none ht ▸ h.sched c) hx
    | some q =>
      rw [Layer.who_of_some ht, hz.thr c q ht, decide_eq_true (p := _ ∧ _) ⟨hun, rfl⟩]
      refine h.mark hun (fun r hr => ?_) rfl
      exact unused_of_touch (c := .mark p 0) nofun rfl hr
  | fatal p =>
    cases he
    refine ⟨_, hQ (), ?_⟩
    rw [update_eq_self]
    have hrun := hz.running c p (by rw [← (hz.cpu c).me, hR.1]; rfl) fun hl => by
      have := ((hz.cpu c).lock _).mp hl
      rw [hR.1] at this
      nomatch this
    exact h.fatal (by simp [hrun])
  | freeproc p =>
    cases he
    refine ⟨_, hQ (), ?_⟩
    rw [update_eq_self]
    refine h.renew (fun q hq => ?_) (fun q hq => Sys.modify_of_ne _ _ hq) rfl rfl
    have hq : update s.sys.killed p false q = true := hq
    by_cases hqp : q = p
    · rw [hqp, update_self] at hq
      nomatch hq
    · rw [update_of_ne hqp] at hq
      exact ⟨hqp, hq⟩
  | setPid p v =>
    cases he
    obtain ⟨r, hv, hun, -⟩ := hR
    obtain ⟨-, rfl⟩ := (hz.cpu c).of_view hv
    refine ⟨_, hQ (), ?_⟩
    rw [update_eq_self]
    refine h.renew (fun q hq => ⟨fun hqp => ?_, hq⟩) (fun q hq => Sys.modify_of_ne _ _ hq) rfl rfl
    have hq : s.sys.killed q = true := hq
    rw [hqp, h.unused p hun] at hq
    nomatch hq
  | returned d v =>
    cases he
    have hQ : Q () (x (s.sys.who c)) := by
      cases d with
      | kill pid => exact hQ.2
      | _ => exact hQ ()
    exact ⟨_, hQ, by rwa [update_eq_self]⟩
  | panic m => nomatch he
  | _ =>
    refine ⟨_, hQ _, ?_⟩
    rw [update_eq_self]
    exact h.keep (hf.rel (R := fun r r' => r'.state = .unused → r.state = .unused) (fun _ h => h)
      fun q _ => unused_of_touch nofun) (hf.killed id).1 ((hf.killed id).2 nofun) (hf.hit nofun)

theorem layer : Flat spec Good boot init (Used (n := n) (C := C)) where
  mono := monotone_spec
  scheduler := uniform.scheduler
  forkret := uniform.forkret
  kerneltrap := whole.kerneltrap
  intrOn _ _ hQ _ := hQ
  body l := by
    by_cases hl : l.Tests
    · exact whole.testBody hl sleep
    · exact whole.body hl
  loop _ _ _ hQ := hQ
  swtchSched _ _ _ hQ := hQ ()
  swtchProc _ _ _ hQ := hQ ()
  newContext _ _ _ hQ := hQ ()
  first mem _ := ⟨fun t => t.elim (fun _ => some none) fun _ => none, fun _ => rfl,
    fun _ => rfl, nofun,
    fun _ _ => rfl⟩
  eff s x c o cmd k r sys' Q hs hok hG hc _ he hQ := effect_good hs hok hG hc he hQ
  like _ _ _ h hl := h.like hl
  trap s x c p t hs hG hc := by
    refine ⟨some none, wp_usertrap monotone_spec whole init t (fun d _ => ?_)
      fun _ _ _ => trivial, ?_⟩
    · cases d with
      | kill pid =>
        exact wp_mono monotone_spec (fun r y hr => ⟨hr, trivial⟩) (wp_killFrom pid procs)
      | _ => exact (whole.syscall init _ (by exact nofun)).post monotone_spec fun _ _ => trivial
    · refine ⟨fun q => ?_, fun d => ?_, hG.killed, hG.unused⟩
      · change _ = some (update s.sys.hit p none q)
        by_cases hq : q = p
        · rw [hq, update_self, update_self]
        · rw [update_of_ne (by simpa using hq), update_of_ne hq]
          exact hG.hit q
      · rw [update_of_ne (by simp)]
        exact hG.sched d

end Layer

end Kill

section Results

variable {boot : C} {init : Fin n} {s : State n C}

/-- **Whom `kill` hits**, as long as it does not find a slot that is `UNUSED`. -/
theorem kill_hits_target (h : (machine n C boot init).Reach Kill.Used s) :
    -- a process has taken a fatal trap itself, or `kill` has been called with its pid
    (∀ p, s.sys.killed p = true → s.sys.doomed p = true ∧ (s.sys.proc p).state ≠ .unused) ∧
    -- `kill` returns 0 if it has marked such a process, and -1 otherwise
    (∀ c p pid r k, s.run c = .code (.cmd (.returned (.kill pid) r) k) → s.sys.thr c = some p →
      r = 0 ∧ s.sys.hit p = some true ∨ r = -1 ∧ s.sys.hit p = none) ∧
    -- a child of `fork` has not been killed
    ∀ c p k, s.run c = .code (.cmd (.ready p) k) → s.sys.killed p = false := by
  obtain ⟨x, hr, hG⟩ := Kill.layer.inv h
  refine ⟨fun p hp => ⟨hG.killed p hp, fun hun => ?_⟩, fun c p pid r k hc ht => ?_,
    fun c p k hc => ?_⟩
  · simp [hG.unused p hun] at hp
  · obtain ⟨hres, -⟩ := hr.code c _ hc
    rw [Layer.who_of_some ht, hG.hit p] at hres
    exact hres.imp (fun h => ⟨h.1, Option.some.inj h.2⟩) fun h => ⟨h.1, Option.some.inj h.2⟩
  · obtain ⟨z, R, hz, r, hv, hun, -⟩ := Locking.next h hc
    obtain ⟨-, rfl⟩ := (hz.cpu c).of_view hv
    exact hG.unused p hun

/-- The condition as a test. -/
def Kill.used (s : State n C) : Act C → Bool
  | .step c _ =>
    match s.run c with
    | .code (.cmd (.mark p _) _) => decide ((s.sys.proc p).state ≠ .unused)
    | _ => true
  | _ => true

omit [DecidableEq C] in
theorem Kill.Used.of_used {a : Act C} : Kill.used s a = true → Kill.Used s a := by
  intro h
  cases a with
  | step c o =>
    intro p v k hc
    rw [used, hc] at h
    exact of_decide_eq_true h
  | trap | intr => trivial

/-- The first process kills itself. -/
theorem kill_hits_target_self : ∃ s : State 2 Unit, (machine 2 Unit () 0).Reach Kill.Used s ∧
    s.sys.killed 0 = true ∧ s.sys.doomed 0 = true := by
  have hrun : ((machine 2 Unit () 0).execOk Kill.used (start 0 (firstMem 0))
      (List.replicate 19 (.step () 0) ++
        .trap () (.syscall (.kill 1)) :: List.replicate 9 (.step () 0))).map
          (fun s => s.sys.killed 0) = some true := by decide +kernel
  obtain ⟨s, hs, hk⟩ := Option.map_eq_some_iff.mp hrun
  have hr := (reach_of_execOk (reach_start () 0) hs).mono fun _ _ => Kill.Used.of_used
  exact ⟨s, hr, hk, ((kill_hits_target hr).1 0 hk).1⟩

/-- `kill(0)` returns 0. -/
def Run.killsZero : Run n → Bool
  | .code (.cmd (.returned (.kill 0) 0) _) => true
  | _ => false

/-- `kill(0)` finds a slot that is `UNUSED` and returns 0.  The next child gets that slot and is
killed from the start, for no reason. -/
theorem kill_hits_free_slot : (∃ s : State 2 Unit, (machine 2 Unit () 0).Reach Any s ∧
      (∃ k, s.run () = .code (.cmd (.returned (.kill 0) 0) k)) ∧ s.sys.thr () = some 0 ∧
      s.sys.hit 0 = some false) ∧
    ∃ s : State 2 Unit, (machine 2 Unit () 0).Reach Any s ∧ (s.sys.proc 1).state = .runnable ∧
      s.sys.killed 1 = true ∧ s.sys.doomed 1 = false := by
  let acts : List (Act Unit) := List.replicate 19 (.step () 0) ++
    .trap () (.syscall (.kill 0)) :: List.replicate 12 (.step () 1)
  obtain ⟨s, hr, hm, hst⟩ : ∃ s : State 2 Unit, (machine 2 Unit () 0).Reach Any s ∧
      (s.run ()).killsZero = true ∧ s.sys.thr () = some 0 ∧ s.sys.hit 0 = some false :=
    (reach_start () 0).replay acts (by decide +kernel)
  refine ⟨⟨s, hr, ?_, hst⟩, (reach_start () 0).replay (acts ++ List.replicate 4 (.step () 1) ++
    .trap () (.syscall .fork) :: List.replicate 50 (.step () 1)) (by decide +kernel)⟩
  rw [Run.killsZero.eq_def] at hm
  split at hm
  · rename_i k hk
    exact ⟨k, hk⟩
  · cases hm

end Results

end Xv6.Kernel
