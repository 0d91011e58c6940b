import Xv6.Kernel.Model

/-!
# Reasoning about one thread at a time

The threads are the processes and the schedulers, one for each CPU.  To prove something about all
interleavings, say what a thread knows — a *context* — and give each command a rule: in which
contexts it is allowed, and what the context is afterwards.  Then it is enough to look at the code
of each thread by itself, with `Code.wp`, and at each command by itself: whether it keeps the
relation between the machine and the contexts of all threads.

`Layer` is such a set of rules.  There are several of them, for different properties, and the later
ones use what the earlier ones have established: that is the `F` of `Layer.Sound`.
`Layer.Sound.inv` is the induction over all runs, done once.

Switching is the only place where the context of a thread changes while another one runs.  A process
that has called `swtch` goes on in any context that `Wakes` allows, and a scheduler in any context
that `Returns` allows.
-/

namespace Xv6.Kernel

open Lts Code
open Function (update update_self update_of_ne)

variable {n : Nat} {C : Type} [DecidableEq C]
variable {f k : K n Unit} {sys : Sys n C} {p : Fin n}

/-- A process or the scheduler of a CPU. -/
abbrev Thread (n : Nat) (C : Type) := Fin n ⊕ C

/-- The thread that a CPU runs. -/
def Sys.who (s : Sys n C) (c : C) : Thread n C :=
  match s.thr c with
  | some p => .inl p
  | none => .inr c

/-! ## What the commands change -/

namespace Sys

omit [DecidableEq C]

variable (s : Sys n C) (p q : Fin n) (f : Proc n → Proc n)

@[simp] theorem modify_self : (s.modify p f).proc p = f (s.proc p) := update_self ..

variable {p q} in
theorem modify_of_ne (h : q ≠ p) : (s.modify p f).proc q = s.proc q := update_of_ne h ..

variable {s p q f} in
theorem saved_of_ne (h : q ≠ p) (hq : ((s.modify p f).proc q).saved = true) :
    (s.proc q).saved = true :=
  modify_of_ne s f h ▸ hq

theorem modify_proc :
    (s.modify p f).proc q = s.proc q ∨ q = p ∧ (s.modify p f).proc q = f (s.proc q) := by
  by_cases hq : q = p
  · subst hq
    exact .inr ⟨rfl, modify_self ..⟩
  · exact .inl (modify_of_ne s f hq)

end Sys

/-- The processes that a command changes. -/
def Cmd.At : Cmd n → Fin n → Prop
  | .setCur _, _ => True
  | .setPid p _, q | .setParent p _, q | .ready p, q | .setRunnable p, q
  | .setRunning p, q | .doze p _, q | .setSleeping p _, q | .clearChan p, q | .setZombie p _, q
  | .wake p _ _, q | .mark p _, q | .freeproc p, q | .newContext p, q => q = p
  | _, _ => False

/-- How it changes them. -/
def Cmd.Touch : Cmd n → Proc n → Proc n → Prop
  | .setCur _, r, r' => ∃ b, r' = { r with on := b }
  | .setPid _ v, r, r' => r' = { r with pid := v }
  | .setParent _ q, r, r' => r' = { r with parent := some q }
  | .ready _, r, r' | .setRunnable _, r, r' => r' = { r with state := .runnable }
  | .setRunning _, r, r' => r' = { r with state := .running }
  | .doze _ ch, r, r' => r' = { r with nap := r.nap + 1, bed := some ch, dozing := true }
  | .setSleeping _ ch, r, r' =>
    r' = { r with chan := some ch, state := .sleeping, dozing := false }
  | .clearChan _, r, r' => r' = { r with chan := none }
  | .setZombie _ v, r, r' => r' = { r with xstate := v, state := .zombie }
  | .wake _ ch _, r, r' => r' = r.wake ch
  | .mark _ _, r, r' => r' = r.rouse
  | .freeproc _, r, r' => r' = r.free
  | .newContext _, r, r' => r' = { r with saved := true }
  | _, _, _ => False

/-- The commands of `wakeup`. -/
def Cmd.OfWakeup : Cmd n → Prop
  | .wakeBegin .. | .wake .. | .wakeEnd _ => True
  | _ => False

/-- The commands that store to `p->killed`. -/
def Cmd.OfKill : Cmd n → Prop
  | .mark .. | .fatal _ | .freeproc _ => True
  | _ => False

/-- What a command changes. -/
structure Frame (cmd : Cmd n) (s s' : Sys n C) : Prop where
  proc : ∀ q, s'.proc q = s.proc q ∨ cmd.At q ∧ cmd.Touch (s.proc q) (s'.proc q)
  mem : (∀ o v, cmd ≠ .put o v) → s'.mem = s.mem
  call : ¬ cmd.OfWakeup → s'.call = s.call ∧ s'.ncalls = s.ncalls
  killed : ¬ cmd.OfKill → s'.killed = s.killed ∧ ((∀ p v, cmd ≠ .setPid p v) → s'.doomed = s.doomed)
  hit : (∀ p v, cmd ≠ .mark p v) → s'.hit = s.hit
  lock : (∀ l, cmd ≠ .take l) → (∀ l, cmd ≠ .release l) → s'.lock = s.lock
  thr : s'.thr = s.thr

namespace Frame

omit [DecidableEq C]

variable {cmd : Cmd n} {s s' : Sys n C}

variable (cmd s) in
theorem refl : Frame cmd s s :=
  ⟨fun _ => .inl rfl, fun _ => rfl, fun _ => ⟨rfl, rfl⟩, fun _ => ⟨rfl, fun _ => rfl⟩,
    fun _ => rfl, fun _ _ => rfl, rfl⟩

theorem rel (h : Frame cmd s s') {R : Proc n → Proc n → Prop} (hr : ∀ r, R r r)
    (ht : ∀ q, cmd.At q → cmd.Touch (s.proc q) (s'.proc q) → R (s.proc q) (s'.proc q)) (q : Fin n) :
    R (s.proc q) (s'.proc q) := by
  obtain he | ⟨ha, htouch⟩ := h.proc q
  · rw [he]
    exact hr _
  · exact ht q ha htouch

/-- Only `newContext` saves a context. -/
theorem saved (h : Frame cmd s s') (hnew : ∀ p, cmd ≠ .newContext p) :
    ∀ p, (s'.proc p).saved = true → (s.proc p).saved = true := by
  refine h.rel (R := fun r r' => r'.saved = true → r.saved = true) (fun _ => id) fun q _ => ?_
  generalize s.proc q = r
  generalize s'.proc q = r'
  intro ht
  cases cmd with
  | newContext p => exact absurd rfl (hnew p)
  | setCur o =>
    obtain ⟨b, rfl⟩ := ht
    exact id
  | wake p ch w =>
    cases ht
    rw [Proc.wake]
    split <;> exact id
  | mark p pid =>
    cases ht
    rw [Proc.rouse]
    split <;> exact id
  | freeproc p =>
    cases ht
    exact nofun
  | setPid p v | setParent p q | ready p | setRunnable p | setRunning p | doze p ch
  | setSleeping p ch | clearChan p | setZombie p v =>
    cases ht
    exact id
  | _ => exact ht.elim

end Frame

theorem Sys.setCur_proc (s : Sys n C) (c : C) (o : Option (Fin n)) (q : Fin n) :
    ∃ b, (s.setCur c o).proc q = { s.proc q with on := b } := by
  have hmod : ∀ (s : Sys n C) p b, ∃ b',
      (s.modify p fun r => { r with on := b }).proc q = { s.proc q with on := b' } := fun s p b =>
    (s.modify_proc p q fun r => { r with on := b }).elim (⟨_, ·⟩) (⟨_, ·.2⟩)
  rw [setCur.eq_def]
  cases s.cur c <;> cases o <;> dsimp only
  · exact ⟨_, rfl⟩
  · exact hmod ..
  · exact hmod ..
  · rename_i p p'
    obtain ⟨_, h⟩ := hmod s p false
    obtain ⟨_, h'⟩ := hmod (s.modify p _) p' true
    exact ⟨_, h'.trans (by rw [h])⟩

theorem Sys.setCur_eq (s : Sys n C) (c : C) (o : Option (Fin n)) :
    s.setCur c o = { s with proc := (s.setCur c o).proc, cur := Function.update s.cur c o } := by
  rw [setCur.eq_def]
  cases s.cur c <;> cases o <;> rfl

/-- Every command changes what `Frame` says, and no more. -/
theorem effect_change {boot c : C} {o : Nat} {cmd : Cmd n} {s s' : Sys n C} {r : Ans cmd}
    (h : effect boot s c o cmd = .done r s') : Frame cmd s s' := by
  -- each case says what is different from doing nothing
  cases cmd with
  | take l =>
    rw [effect] at h
    split at h
    · cases h
      exact { Frame.refl (.take l) s with lock := fun hl => absurd rfl (hl l) }
    · split at h <;> cases h
  | release l =>
    rw [effect] at h
    split at h
    · split at h
      · cases h
      · split at h
        · cases h
        · cases h
          exact { Frame.refl (.release l) s with lock := fun _ hl => absurd rfl (hl l) }
    · cases h
  | swtchSched p | swtchProc p | loop l | panic m => cases h
  | pushOff | holding l | intrOn | intrOff | intrGet | noff | intena | setIntena b | isBoot | myproc
  | state p | parent p | pid p | xstate p | killed p | slept l | returned d v
  | ask | get x =>
    cases h
    exact { Frame.refl _ s with }
  | setCur q =>
    cases h
    have hp := s.setCur_proc c q
    rw [s.setCur_eq c q]
    exact { Frame.refl _ s with proc := fun p => .inr ⟨trivial, hp p⟩ }
  | put x v =>
    cases h
    exact { Frame.refl _ s with mem := fun hx => absurd rfl (hx x v) }
  | wakeBegin ch q | wakeEnd w =>
    cases h
    exact { Frame.refl _ s with call := fun hw => absurd trivial hw }
  | fatal p =>
    cases h
    exact { Frame.refl _ s with killed := fun hk => absurd trivial hk }
  | wake p ch w =>
    cases h
    exact { Frame.refl _ s with
      proc q := Sys.modify_proc _ p q _
      call hw := absurd trivial hw }
  | mark p pid =>
    cases h
    exact { Frame.refl _ s with
      proc q := Sys.modify_proc _ p q _
      killed hk := absurd trivial hk
      hit hm := absurd rfl (hm p pid) }
  | freeproc p =>
    cases h
    exact { Frame.refl _ s with
      proc q := Sys.modify_proc _ p q _
      killed hk := absurd trivial hk }
  | setPid p v =>
    cases h
    exact { Frame.refl _ s with
      proc q := Sys.modify_proc _ p q _
      killed _ := ⟨rfl, fun hp => absurd rfl (hp p v)⟩ }
  | setParent p q | ready p | setRunnable p | setRunning p | doze p ch
  | setSleeping p ch | clearChan p | setZombie p v | newContext p =>
    cases h
    exact { Frame.refl _ s with proc := fun q => Sys.modify_proc _ p q _ }

/-- Contexts, rules for the commands, and what the contexts mean. -/
structure Layer (n : Nat) (C : Type) where
  /-- Contexts. -/
  X : Type
  /-- The rule of each command. -/
  spec : (cmd : Cmd n) → X → (Ans cmd → X → Prop) → Prop
  /-- The contexts of a process in user space. -/
  User : X → Prop
  /-- In which contexts a process goes on that has called `swtch`. -/
  Wakes : Fin n → X → X → Prop
  /-- In which contexts a scheduler goes on that has called `swtch`. -/
  Returns : X → X → Prop
  /-- The panics that may happen. -/
  Panics : Panic → Prop
  /-- What the contexts of all threads say about the machine. -/
  G : Sys n C → (Thread n C → X) → Prop

namespace Layer

variable (L : Layer n C) {cmd : Cmd n}

/-- Code of a process keeps the rules from here on. -/
def Ok (k : K n Unit) (x : L.X) : Prop := wp L.spec k x fun _ y => L.User y

/-- The code of all threads keeps the rules. -/
structure Runs (s : State n C) (x : Thread n C → L.X) : Prop where
  code : ∀ c k, s.run c = .code k → L.Ok k (x (s.sys.who c))
  loadSched : ∀ c, s.run c = .load none → s.sys.thr c = none ∧ L.Ok (s.sctx c) (x (.inr c))
  loadProc : ∀ c p, s.run c = .load (some p) →
    s.sys.thr c = some p ∧ L.Ok (s.context p) (x (.inl p))
  proc : ∀ p, (∀ c, s.sys.thr c ≠ some p) → (s.sys.proc p).saved = true →
    ∀ y, L.Wakes p (x (.inl p)) y → L.Ok (s.context p) y
  sched : ∀ c, s.sys.thr c ≠ none → ∀ y, L.Returns (x (.inr c)) y → L.Ok (s.sctx c) y
  panics : ∀ m, s.halted = some m → L.Panics m

/-- What a layer has to show, for runs whose steps all satisfy `ok` and whose states satisfy `F`. -/
structure Sound (boot : C) (init : Fin n) (ok : State n C → Act C → Prop)
    (F : State n C → Prop) : Prop where
  mono : Code.Monotone L.spec
  /-- No process runs on two CPUs. -/
  inj : ∀ s x, F s → L.G s.sys x → ∀ c c' p, s.sys.thr c = some p → s.sys.thr c' = some p → c = c'
  first : ∀ mem, FirstMem init mem → ∃ x, L.G (start init mem).sys x ∧
    (∀ c, L.Ok (scheduler >>= fun e => e.elim) (x (.inr c))) ∧
    ∀ y, L.Wakes init (x (.inl init)) y → L.Ok forkret y
  /-- The bodies of loops keep the rules. -/
  body : ∀ l x Q, L.spec (.loop l) x Q → wp L.spec l.body x Q
  /-- Commands keep the meaning of the contexts. -/
  eff : ∀ s x c o cmd k r sys' Q, F s → ok s (.step c o) → L.G s.sys x →
    s.run c = .code (.cmd cmd k) → (∀ p, cmd ≠ .newContext p) →
    effect boot s.sys c o cmd = .done r sys' → L.spec cmd (x (s.sys.who c)) Q →
    ∃ y, Q r y ∧ L.G sys' (update x (s.sys.who c) y)
  halt : ∀ s x c o cmd k m Q, F s → ok s (.step c o) → L.G s.sys x →
    s.run c = .code (.cmd cmd k) → effect boot s.sys c o cmd = .halt m →
    L.spec cmd (x (s.sys.who c)) Q → L.Panics m
  /-- A new process starts at `forkret`. -/
  new : ∀ s x c p k Q, F s → L.G s.sys x → s.run c = .code (.cmd (.newContext p) k) →
    L.spec (.newContext p) (x (s.sys.who c)) Q → (∀ d, s.sys.thr d ≠ some p) ∧
    ∃ y z, Q () y ∧ (∀ w, L.Wakes p z w → L.Ok forkret w) ∧
      L.G (s.sys.modify p fun r => { r with saved := true })
        (update (update x (s.sys.who c) y) (.inl p) z)
  /-- A process gives the CPU up. -/
  save : ∀ s x c p k Q, F s → L.G s.sys x → s.run c = .code (.cmd (.swtchSched p) k) →
    L.spec (.swtchSched p) (x (s.sys.who c)) Q → s.sys.thr c = some p ∧
    ∃ y z, L.Returns (x (.inr c)) y ∧ (∀ w, L.Wakes p z w → Q () w) ∧
      L.G ({ s.sys with thr := update s.sys.thr c none }.modify p fun r => { r with saved := true })
        (update (update x (.inl p) z) (.inr c) y)
  /-- A scheduler gives the CPU to a process. -/
  resume : ∀ s x c p k Q, F s → L.G s.sys x → s.run c = .code (.cmd (.swtchProc p) k) →
    L.spec (.swtchProc p) (x (s.sys.who c)) Q → s.sys.thr c = none ∧
    (∀ d, s.sys.thr d ≠ some p) ∧ (s.sys.proc p).saved = true ∧
    ∃ y z, L.Wakes p (x (.inl p)) y ∧ (∀ w, L.Returns z w → Q () w) ∧
      L.G ({ s.sys with thr := update s.sys.thr c (some p) }.modify p fun r =>
          { r with saved := false })
        (update (update x (.inl p) y) (.inr c) z)
  /-- User code enters the kernel. -/
  trap : ∀ s x c p u t, F s → L.G s.sys x → s.run c = .code (.ret u) → s.sys.thr c = some p →
    L.User (x (.inl p)) → ∃ y, L.Ok (usertrap init t) y ∧
      L.G (s.sys.enter c p) (update x (.inl p) y)
  /-- Kernel code is interrupted. -/
  intr : ∀ s x c cmd k i, F s → L.G s.sys x → s.run c = .code (.cmd cmd k) →
    s.sys.sie c = true → L.Ok (.cmd cmd k) (x (s.sys.who c)) →
    L.Ok (kerneltrap i >>= fun _ => .cmd .intrOn fun _ => .cmd cmd k) (x (s.sys.who c)) ∧
      L.G { s.sys with sie := update s.sys.sie c false } x

variable {L}

/-! ## The induction -/

/-- A command that does not change what the CPU runs. -/
theorem stepCmd_eq (boot : C) (s : State n C) (c : C) (o : Nat) (k : Ans cmd → K n Unit)
    (h1 : ∀ p, cmd ≠ .swtchSched p) (h2 : ∀ p, cmd ≠ .swtchProc p) (h3 : ∀ l, cmd ≠ .loop l)
    (h4 : ∀ p, cmd ≠ .newContext p) :
    stepCmd boot s c o cmd k =
      match effect boot s.sys c o cmd with
      | .blocked => none
      | .halt m => some { s with halted := some m }
      | .done a sys => some ({ s with sys := sys }.goto c (.code (k a))) := by
  cases cmd with
  | swtchSched p => exact absurd rfl (h1 p)
  | swtchProc p => exact absurd rfl (h2 p)
  | loop l => exact absurd rfl (h3 l)
  | newContext p => exact absurd rfl (h4 p)
  | _ => rfl

section Steps

variable {boot : C} {init : Fin n} {ok : State n C → Act C → Prop} {F : State n C → Prop}
  {s s' : State n C} {x : Thread n C → L.X} {c : C} {o : Nat}

@[simp] theorem goto_run (s : State n C) (c : C) (r : Run n) : (s.goto c r).run c = r :=
  update_self ..

section

omit [DecidableEq C]

theorem who_of_some (h : sys.thr c = some p) : sys.who c = .inl p := by
  rw [Sys.who, h]

theorem who_of_none (h : sys.thr c = none) : sys.who c = .inr c := by
  rw [Sys.who, h]

theorem who_eq_inl : sys.who c = .inl p ↔ sys.thr c = some p := by
  refine ⟨fun h => ?_, who_of_some⟩
  rw [Sys.who] at h
  split at h
  · rename_i q hq
    rw [hq, Sum.inl.inj h]
  · nomatch h

theorem who_eq_inr {d : C} : sys.who c = .inr d ↔ sys.thr c = none ∧ c = d := by
  refine ⟨fun h => ?_, fun h => h.2 ▸ who_of_none h.1⟩
  rw [Sys.who] at h
  split at h
  · nomatch h
  · rename_i hc
    exact ⟨hc, Sum.inr.inj h⟩

end

variable {sys : Sys n C} {context : Fin n → K n Unit} {sctx : C → K n Unit} {v z : L.X}

/-- One CPU does something.  The threads on the other CPUs and their schedulers notice nothing; what
remains is the thread on this CPU, its scheduler, and the processes that do not run. -/
theorem Runs.change (h : L.Runs s x) {y : Thread n C → L.X} {r : Run n}
    (hthr : ∀ d, d ≠ c → sys.thr d = s.sys.thr d)
    (hproc : ∀ d p, d ≠ c → s.sys.thr d = some p →
      y (.inl p) = x (.inl p) ∧ context p = s.context p)
    (hsched : ∀ d, d ≠ c → y (.inr d) = x (.inr d) ∧ sctx d = s.sctx d)
    (hrun : match r with
      | .code k => L.Ok k (y (sys.who c))
      | .load none => sys.thr c = none ∧ L.Ok (sctx c) (y (.inr c))
      | .load (some p) => sys.thr c = some p ∧ L.Ok (context p) (y (.inl p)))
    (hidle : ∀ p, (∀ d, sys.thr d ≠ some p) → (sys.proc p).saved = true →
      ∀ w, L.Wakes p (y (.inl p)) w → L.Ok (context p) w)
    (hback : sys.thr c ≠ none → ∀ w, L.Returns (y (.inr c)) w → L.Ok (sctx c) w) :
    L.Runs ({ s with sys, context, sctx }.goto c r) y := by
  have hother : ∀ d, d ≠ c → ({ s with sys, context, sctx }.goto c r).run d = s.run d :=
    fun d hd => update_of_ne hd ..
  refine ⟨fun d k hd => ?_, fun d hd => ?_, fun d p hd => ?_, hidle, fun d hd w hw => ?_, h.panics⟩
  · by_cases hdc : d = c
    · subst hdc
      rw [goto_run] at hd
      subst hd
      exact hrun
    · rw [hother d hdc] at hd
      have hok := h.code d k hd
      change L.Ok k (y (sys.who d))
      cases ht : s.sys.thr d with
      | none =>
        rw [who_of_none ht] at hok
        rwa [who_of_none ((hthr d hdc).trans ht), (hsched d hdc).1]
      | some p =>
        rw [who_of_some ht] at hok
        rwa [who_of_some ((hthr d hdc).trans ht), (hproc d p hdc ht).1]
  · by_cases hdc : d = c
    · subst hdc
      rw [goto_run] at hd
      subst hd
      exact hrun
    · rw [hother d hdc] at hd
      obtain ⟨h1, h2⟩ := h.loadSched d hd
      refine ⟨(hthr d hdc).trans h1, ?_⟩
      change L.Ok (sctx d) _
      rwa [(hsched d hdc).1, (hsched d hdc).2]
  · by_cases hdc : d = c
    · subst hdc
      rw [goto_run] at hd
      subst hd
      exact hrun
    · rw [hother d hdc] at hd
      obtain ⟨h1, h2⟩ := h.loadProc d p hd
      refine ⟨(hthr d hdc).trans h1, ?_⟩
      change L.Ok (context p) _
      rwa [(hproc d p hdc h1).1, (hproc d p hdc h1).2]
  · by_cases hdc : d = c
    · subst hdc
      exact hback hd w hw
    · rw [(hsched d hdc).1] at hw
      change L.Ok (sctx d) w
      rw [(hsched d hdc).2]
      exact h.sched d (hthr d hdc ▸ hd) w hw

/-- No process runs on two CPUs. -/
abbrev Inj (s : State n C) : Prop :=
  ∀ c c' p, s.sys.thr c = some p → s.sys.thr c' = some p → c = c'

theorem Runs.advance (h : L.Runs s x) (hinj : Inj s) (hk : L.Ok k v) (hthr : sys.thr = s.sys.thr)
    (hsaved : ∀ p, (sys.proc p).saved = true → (s.sys.proc p).saved = true) :
    L.Runs ({ s with sys }.goto c (.code k)) (update x (s.sys.who c) v) := by
  have hwho : sys.who c = s.sys.who c := by rw [Sys.who, Sys.who, hthr]
  refine h.change (fun d _ => by rw [hthr]) (fun d p hd hp =>
    ⟨update_of_ne (fun he => hd ?_) .., rfl⟩)
    (fun d hd => ⟨update_of_ne (fun he => hd ?_) .., rfl⟩) ?_ (fun p hp hs w hw => ?_)
    fun hc w hw => ?_
  · exact hinj d c p hp (who_eq_inl.mp he.symm)
  · exact (who_eq_inr.mp he.symm).2.symm
  · rwa [hwho, update_self]
  · have hne : Sum.inl p ≠ s.sys.who c := fun he => hp c (by rw [hthr]; exact who_eq_inl.mp he.symm)
    rw [update_of_ne hne] at hw
    exact h.proc p (fun d => hthr ▸ hp d) (hsaved p hs) w hw
  · rw [hthr] at hc
    have hne : Sum.inr c ≠ s.sys.who c := fun he => hc (who_eq_inr.mp he.symm).1
    rw [update_of_ne hne] at hw
    exact h.sched c hc w hw

/-- The same, where what the thread knows does not change. -/
theorem Runs.loaded (h : L.Runs s x) (hinj : Inj s) (hk : L.Ok k (x (s.sys.who c)))
    (hthr : sys.thr = s.sys.thr)
    (hsaved : ∀ p, (sys.proc p).saved = true → (s.sys.proc p).saved = true) :
    L.Runs ({ s with sys }.goto c (.code k)) x := by
  have := h.advance (c := c) hinj hk hthr hsaved
  rwa [Function.update_eq_self] at this

theorem Runs.spawn (h : L.Runs s x) (hinj : Inj s) (hk : L.Ok k v)
    (hp : ∀ d, s.sys.thr d ≠ some p) (hz : ∀ w, L.Wakes p z w → L.Ok f w)
    (hthr : sys.thr = s.sys.thr)
    (hsaved : ∀ q, q ≠ p → (sys.proc q).saved = true → (s.sys.proc q).saved = true) :
    L.Runs ({ s with sys, context := update s.context p f }.goto c (.code k))
      (update (update x (s.sys.who c) v) (.inl p) z) := by
  have hwho : sys.who c = s.sys.who c := by rw [Sys.who, Sys.who, hthr]
  have hne : ∀ d, s.sys.who d ≠ .inl p := fun d he => hp d (who_eq_inl.mp he)
  refine h.change (fun d _ => by rw [hthr]) (fun d q hd hq => ?_) (fun d hd => ?_) ?_
    (fun q hq hs w hw => ?_) fun hc w hw => ?_
  · have hqp : q ≠ p := fun he => hp d (he ▸ hq)
    rw [update_of_ne (by simpa using hqp), update_of_ne hqp]
    refine ⟨update_of_ne (fun he => hd ?_) .., rfl⟩
    exact hinj d c q hq (who_eq_inl.mp he.symm)
  · rw [update_of_ne (by simp)]
    refine ⟨update_of_ne (fun he => hd ?_) .., rfl⟩
    exact (who_eq_inr.mp he.symm).2.symm
  · rwa [hwho, update_of_ne (hne c), update_self]
  · by_cases hqp : q = p
    · subst hqp
      rw [update_self] at hw ⊢
      exact hz w hw
    · have hne' : Sum.inl q ≠ s.sys.who c := fun he =>
        hq c (by rw [hthr]; exact who_eq_inl.mp he.symm)
      rw [update_of_ne (by simpa using hqp), update_of_ne hne'] at hw
      simpa [hqp] using h.proc q (fun d => hthr ▸ hq d) (hsaved q hqp hs) w hw
  · rw [hthr] at hc
    have hne' : Sum.inr c ≠ s.sys.who c := fun he => hc (who_eq_inr.mp he.symm).1
    rw [update_of_ne (by simp), update_of_ne hne'] at hw
    exact h.sched c hc w hw

/-- The process on CPU `c` has saved its context, and the scheduler is to be loaded. -/
theorem Runs.park (h : L.Runs s x) (hinj : Inj s) (hc : s.sys.thr c = some p)
    (hv : L.Returns (x (.inr c)) v) (hz : ∀ w, L.Wakes p z w → L.Ok f w)
    (hthr : sys.thr = update s.sys.thr c none)
    (hsaved : ∀ q, q ≠ p → (sys.proc q).saved = true → (s.sys.proc q).saved = true) :
    L.Runs ({ s with sys, context := update s.context p f }.goto c (.load none))
      (update (update x (.inl p) z) (.inr c) v) := by
  refine h.change (fun d hd => ?_) (fun d q hd hq => ?_) (fun d hd => ?_) ?_
    (fun q hq hs w hw => ?_) fun hc' => ?_
  · rw [hthr, update_of_ne hd]
  · have hqp : q ≠ p := fun he => hd (hinj d c p (he ▸ hq) hc)
    rw [update_of_ne (by simp), update_of_ne (by simpa using hqp), update_of_ne hqp]
    exact ⟨rfl, rfl⟩
  · rw [update_of_ne (by simpa using hd), update_of_ne (by simp)]
    exact ⟨rfl, rfl⟩
  · rw [hthr, update_self, update_self]
    exact ⟨rfl, h.sched c (by rw [hc]; nofun) v hv⟩
  · rw [update_of_ne (by simp)] at hw
    by_cases hqp : q = p
    · subst hqp
      rw [update_self] at hw ⊢
      exact hz w hw
    · rw [update_of_ne (by simpa using hqp)] at hw
      rw [update_of_ne hqp]
      refine h.proc q (fun d hd => hq d ?_) (hsaved q hqp hs) w hw
      by_cases hdc : d = c
      · subst hdc
        exact absurd (Option.some.inj (hd.symm.trans hc)) hqp
      · rwa [hthr, update_of_ne hdc]
  · rw [hthr, update_self] at hc'
    exact absurd rfl hc'

/-- The scheduler of CPU `c` has saved its context, and a process is to be loaded. -/
theorem Runs.unpark (h : L.Runs s x) (hc : s.sys.thr c = none) (hp : ∀ d, s.sys.thr d ≠ some p)
    (hs : (s.sys.proc p).saved = true) (hv : L.Wakes p (x (.inl p)) v)
    (hz : ∀ w, L.Returns z w → L.Ok f w) (hthr : sys.thr = update s.sys.thr c (some p))
    (hsaved : ∀ q, (sys.proc q).saved = true → (s.sys.proc q).saved = true) :
    L.Runs ({ s with sys, sctx := update s.sctx c f }.goto c (.load (some p)))
      (update (update x (.inl p) v) (.inr c) z) := by
  refine h.change (fun d hd => ?_) (fun d q hd hq => ?_) (fun d hd => ?_) ?_
    (fun q hq hs' w hw => ?_) fun _ w hw => ?_
  · rw [hthr, update_of_ne hd]
  · have hqp : q ≠ p := fun he => hp d (he ▸ hq)
    rw [update_of_ne (by simp), update_of_ne (by simpa using hqp)]
    exact ⟨rfl, rfl⟩
  · rw [update_of_ne (by simpa using hd), update_of_ne (by simp), update_of_ne hd]
    exact ⟨rfl, rfl⟩
  · dsimp only
    rw [hthr, update_self, update_of_ne (by simp), update_self]
    exact ⟨rfl, h.proc p hp hs v hv⟩
  · have hqp : q ≠ p := fun he => hq c (by rw [hthr, update_self, he])
    rw [update_of_ne (by simp), update_of_ne (by simpa using hqp)] at hw
    refine h.proc q (fun d hd => hq d ?_) (hsaved q hs') w hw
    have hdc : d ≠ c := fun he => by rw [he, hc] at hd; nomatch hd
    rwa [hthr, update_of_ne hdc]
  · rw [update_self] at hw ⊢
    exact hz w hw

namespace Sound

variable (hL : L.Sound boot init ok F)

include hL

theorem stepCmd (hF : F s) (hok : ok s (.step c o)) (hr : L.Runs s x) (hG : L.G s.sys x)
    {k : Ans cmd → K n Unit} (hc : s.run c = .code (.cmd cmd k))
    (hs : Kernel.stepCmd boot s c o cmd k = some s') : ∃ y, L.Runs s' y ∧ L.G s'.sys y := by
  have hinj : Inj s := hL.inj s x hF hG
  have hwp := hr.code c _ hc
  rw [Layer.Ok, wp_cmd] at hwp
  by_cases h1 : ∃ p, cmd = .swtchSched p
  · obtain ⟨p, rfl⟩ := h1
    obtain ⟨ht, y, z, hy, hz, hG'⟩ := hL.save s x c p k _ hF hG hc hwp
    cases hs
    refine ⟨_, hr.park hinj ht hy hz rfl fun q hq hsq => ?_, hG'⟩
    have hsq' := Sys.saved_of_ne hq hsq
    exact hsq'
  by_cases h2 : ∃ p, cmd = .swtchProc p
  · obtain ⟨p, rfl⟩ := h2
    obtain ⟨ht, hp, hsv, y, z, hy, hz, hG'⟩ := hL.resume s x c p k _ hF hG hc hwp
    cases hs
    refine ⟨_, hr.unpark ht hp hsv hy hz rfl fun q hsq => ?_, hG'⟩
    by_cases hqp : q = p
    · rwa [hqp]
    · have hsq' := Sys.saved_of_ne hqp hsq
      exact hsq'
  by_cases h3 : ∃ l, cmd = .loop l
  · obtain ⟨l, rfl⟩ := h3
    cases hs
    have hbody : L.Ok (l.body >>= k) (x (s.sys.who c)) := wp_bind hL.mono (hL.body l _ _ hwp)
    exact ⟨_, hr.loaded hinj hbody rfl fun _ h => h, hG⟩
  by_cases h4 : ∃ p, cmd = .newContext p
  · obtain ⟨p, rfl⟩ := h4
    obtain ⟨hp, y, z, hy, hz, hG'⟩ := hL.new s x c p k _ hF hG hc hwp
    cases hs
    exact ⟨_, hr.spawn hinj hy hp hz rfl fun q hq hsq => Sys.saved_of_ne hq hsq, hG'⟩
  rw [stepCmd_eq boot s c o k (fun p h => h1 ⟨p, h⟩) (fun p h => h2 ⟨p, h⟩) (fun l h => h3 ⟨l, h⟩)
    (fun p h => h4 ⟨p, h⟩)] at hs
  split at hs
  · nomatch hs
  · rename_i m he
    cases hs
    have hm := hL.halt s x c o cmd k m _ hF hok hG hc he hwp
    exact ⟨x, ⟨hr.code, hr.loadSched, hr.loadProc, hr.proc, hr.sched,
      fun m' hm' => Option.some.inj hm' ▸ hm⟩, hG⟩
  · rename_i a sys he
    cases hs
    obtain ⟨y, hy, hG'⟩ := hL.eff s x c o cmd k a sys _ hF hok hG hc (fun p h => h4 ⟨p, h⟩) he hwp
    have hf := effect_change he
    exact ⟨_, hr.advance hinj hy hf.thr (hf.saved fun p h => h4 ⟨p, h⟩), hG'⟩

theorem step {a : Act C} (hF : F s) (hok : ok s a) (hr : L.Runs s x) (hG : L.G s.sys x)
    (hs : Kernel.step boot init s a = some s') : ∃ y, L.Runs s' y ∧ L.G s'.sys y := by
  have hinj : Inj s := hL.inj s x hF hG
  rw [Kernel.step.eq_def] at hs
  split at hs
  · nomatch hs
  cases a with
  | step c o =>
    dsimp only at hs
    split at hs
    · nomatch hs
    · rename_i hc
      exact hL.stepCmd hF hok hr hG hc hs
    · rename_i hc
      cases hs
      obtain ⟨ht, hk⟩ := hr.loadSched c hc
      rw [← who_of_none ht] at hk
      exact ⟨x, hr.loaded hinj hk rfl fun _ h => h, hG⟩
    · rename_i p hc
      cases hs
      obtain ⟨ht, hk⟩ := hr.loadProc c p hc
      rw [← who_of_some ht] at hk
      exact ⟨x, hr.loaded hinj hk rfl fun _ h => h, hG⟩
  | trap c t =>
    dsimp only at hs
    split at hs
    · rename_i u p hc ht
      cases hs
      have huser := hr.code c _ hc
      rw [who_of_some ht] at huser
      obtain ⟨y, hy, hG'⟩ := hL.trap s x c p u t hF hG hc ht huser
      rw [← who_of_some ht] at hG'
      exact ⟨_, hr.advance hinj hy rfl fun _ h => h, hG'⟩
    · nomatch hs
  | intr c i =>
    dsimp only at hs
    split at hs
    · rename_i cmd k hc
      split at hs
      · rename_i hsie
        cases hs
        obtain ⟨hk, hG'⟩ := hL.intr s x c cmd k i hF hG hc hsie (hr.code c _ hc)
        exact ⟨x, hr.loaded hinj hk rfl fun _ h => h, hG'⟩
      · nomatch hs
    · nomatch hs

/-- **The invariant of a layer** holds in every state of every run whose steps satisfy `ok`. -/
theorem inv (hF : ∀ s, System.Reach (machine n C boot init) ok s → F s)
    (h : System.Reach (machine n C boot init) ok s) : ∃ x, L.Runs s x ∧ L.G s.sys x := by
  induction h with
  | @init s h =>
    obtain ⟨mem, hmem, rfl⟩ := h
    obtain ⟨x, hG, hsched, hinit⟩ := hL.first mem hmem
    refine ⟨x, ⟨fun c k hk => ?_, fun c hc => ?_, fun c p hc => ?_, fun p _ hs y hy => ?_,
      fun c hc => ?_, fun m hm => ?_⟩, hG⟩
    · exact Run.code.inj hk ▸ hsched c
    · nomatch hc
    · nomatch hc
    · obtain rfl : p = init := of_decide_eq_true hs
      exact hinit y hy
    · exact absurd rfl hc
    · nomatch hm
  | step h hok hs ih =>
    obtain ⟨x, hr, hG⟩ := ih
    exact hL.step (hF _ h) hok hr hG hs

end Sound

end Steps

end Layer

end Xv6.Kernel
