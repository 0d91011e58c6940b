import Xv6.Kernel.Walk

/-!
# What every thread knows: its locks, and the processes it has locked

The rules of the first layer.  A thread knows which process it is, the spin locks it holds and how
often it has turned interrupts off; and of every process whose `p->lock` it holds it knows the whole
`struct proc`, because nobody else can change it.  While `p->lock` is free, the process is in order
(`Proc.Free`): it is `RUNNING` if and only if it is current on some CPU, and if it could run its
context has been saved.

The second half of this module shows that all code keeps these rules.  Most functions leave the
context of their caller as it was.  The one thing they do not promise is to call `sleep` without
further locks; `sched` panics then, and that may happen.
-/

namespace Xv6.Kernel

open Code List
open Function (update_self update_of_ne update_idem update_eq_self)

variable {n : Nat} {L : List (Lock n)}
variable {q : Fin n}

/-- What is true of a process while nobody holds its lock. -/
structure Proc.Free (r : Proc n) : Prop where
  running : r.state = .running ↔ r.on = true
  saved : r.state ≠ .unused → r.state ≠ .running → r.saved = true
  dozing : r.dozing = false

namespace Proc.Free

variable {r : Proc n}

/-- So is one that is saved and does not run. -/
theorem of_saved (h1 : r.state ≠ .running) (h2 : r.on = false) (h3 : r.saved = true)
    (h4 : r.dozing = false) : r.Free :=
  ⟨by simp [h1, h2], fun _ _ => h3, h4⟩

theorem of_unused (h1 : r.state = .unused) (h2 : r.on = false) (h3 : r.dozing = false) : r.Free :=
  ⟨by simp [h1, h2], fun h => absurd h1 h, h3⟩

theorem on_eq (h : r.Free) (hs : r.state ≠ .running) : r.on = false :=
  Bool.eq_false_iff.mpr fun ho => hs (h.running.mpr ho)

theorem wake (h : r.Free) (ch : Chan n) : (r.wake ch).Free := by
  rw [Proc.wake]
  split
  · rename_i hs
    exact of_saved (by simp) (h.on_eq (by simp [hs.1])) (h.saved (by simp [hs.1]) (by simp [hs.1]))
      h.dozing
  · exact h

theorem rouse (h : r.Free) : r.rouse.Free := by
  rw [Proc.rouse]
  split
  · rename_i hs
    exact of_saved (by simp) (h.on_eq (by simp [hs])) (h.saved (by simp [hs]) (by simp [hs]))
      h.dozing
  · exact h

end Proc.Free

namespace Locking

/-- What a thread knows. -/
@[ext] structure Ctx (n : Nat) where
  /-- The process, `none` for a scheduler. -/
  me : Option (Fin n)
  /-- `mycpu()->proc` -/
  cur : Option (Fin n)
  /-- `mycpu()->noff` -/
  off : Nat
  held : List (Lock n)
  /-- The processes that are locked. -/
  view : Fin n → Option (Proc n)
  /-- The process is a `ZOMBIE`. -/
  dead : Bool

namespace Ctx

/-- A thread of `o` that holds these locks, and knows nothing more. -/
def calm (o : Option (Fin n)) (L : List (Lock n)) : Ctx n where
  me := o
  cur := o
  off := L.length
  held := L
  view _ := none
  dead := false

/-- The process `p` is locked, and is `r` now. -/
def see (x : Ctx n) (p : Fin n) (r : Proc n) : Ctx n :=
  { x with view := Function.update x.view p (some r) }

/-- After `acquire(&p->lock)`, if `p` is `r` then. -/
def lockProc (x : Ctx n) (p : Fin n) (r : Proc n) : Ctx n :=
  { x with off := x.off + 1, held := .proc p :: x.held }.see p r

/-- After `release(&p->lock)`. -/
def unlockProc (x : Ctx n) (p : Fin n) : Ctx n :=
  { x with
    off := x.off - 1
    held := x.held.erase (.proc p)
    view := Function.update x.view p none }

/-- A process that holds only its own lock. -/
def awake (p : Fin n) (r : Proc n) : Ctx n := (calm (some p) []).lockProc p r

/-- A scheduler that has locked `p`, which is current. -/
def switching (p : Fin n) (r : Proc n) : Ctx n := { calm none [] with cur := some p }.lockProc p r

/-- Other locks are held. -/
def locks (x : Ctx n) (L : List (Lock n)) : Ctx n := { x with off := L.length, held := L }

/-- Interrupts are off only for the locks that are held, and the thread does not switch. -/
structure Even (x : Ctx n) : Prop where
  off : x.off = x.held.length
  cur : x.cur = x.me

theorem Even.lockProc {x : Ctx n} (h : x.Even) (p : Fin n) (r : Proc n) : (x.lockProc p r).Even :=
  ⟨congrArg (· + 1) h.off, h.cur⟩

end Ctx

/-- The panics that may happen.  Those of `sched` other than the one about further locks are not
among them, nor are those of `release`, `wakeup1` and `exit`. -/
def Panics : Panic → Prop
  | .release | .popOffInterruptible | .popOff | .schedLock | .schedRunning | .schedInterruptible
  | .wakeup1 | .zombieExit => False
  | _ => True

/-- The rules. -/
def spec : (cmd : Cmd n) → Ctx n → (Ans cmd → Ctx n → Prop) → Prop
  | .pushOff, x, Q => Q () { x with off := x.off + 1 }
  | .take (.proc p), x, Q => x.held.length < x.off ∧ (.proc p ∉ x.held → ∀ r, r.Free →
      (x.me = some p → r.state = .running) → Q () ({ x with held := .proc p :: x.held }.see p r))
  | .take l, x, Q => x.held.length < x.off ∧ (l ∉ x.held → Q () { x with held := l :: x.held })
  | .release (.proc p), x, Q => .proc p ∈ x.held ∧ 0 < x.off ∧ x.cur = x.me ∧
      (∃ r, x.view p = some r ∧ r.Free) ∧ Q () (x.unlockProc p)
  | .release l, x, Q => l ∈ x.held ∧ 0 < x.off ∧
      Q () { x with off := x.off - 1, held := x.held.erase l }
  | .holding l, x, Q => Q (decide (l ∈ x.held)) x
  | .intrOn, x, Q => x.off = 0 ∧ Q () x
  | .intrOff, x, Q | .setIntena _, x, Q | .wakeEnd _, x, Q | .put _ _, x, Q | .returned .., x, Q =>
    Q () x
  | .intrGet, x, Q => ∀ b, (x.off ≠ 0 → b = false) → Q b x
  | .noff, x, Q => Q x.off x
  | .intena, x, Q | .isBoot, x, Q | .killed _, x, Q => ∀ b, Q b x
  | .ask, x, Q | .wakeBegin _ _, x, Q => ∀ v, Q v x
  | .get _, x, Q => ∀ v, Q v x
  | .myproc, x, Q => Q x.cur x
  | .setCur none, x, Q => x.me = none ∧
      match x.cur with
      | none => Q () x
      | some p => ∃ r, x.view p = some r ∧
        Q () ({ x with cur := none }.see p { r with on := false })
  | .setCur (some p), x, Q => x.me = none ∧ x.cur = none ∧ ∃ r, x.view p = some r ∧ r.on = false ∧
      Q () ({ x with cur := some p }.see p { r with on := true })
  | .swtchSched p, x, Q => ∃ r, x.me = some p ∧ x.held = [.proc p] ∧ x.off = 1 ∧
      x.view p = some r ∧ r.state ≠ .running ∧ r.state ≠ .unused ∧ r.dozing = false ∧
      (x.dead = false → ∀ r', r'.Free → r'.state = .running → Q () (.awake p r'))
  | .swtchProc p, x, Q => ∃ r, x = .switching p r ∧ r.state = .running ∧ r.saved = true ∧
      r.dozing = false ∧ ∀ r', r'.state ≠ .running → r'.on = true → r'.saved = true →
        r'.dozing = false → Q () (.switching p r')
  | .state p, x, Q => ∀ v, (∀ r, x.view p = some r → v = r.state) →
      (x.view p = none → x.me = some p → v = .running) → Q v x
  | .parent p, x, Q => ∀ v, (∀ r, x.view p = some r → v = r.parent) → Q v x
  | .pid p, x, Q => ∀ v, (∀ r, x.view p = some r → v = r.pid) → Q v x
  | .xstate p, x, Q => ∀ v, (∀ r, x.view p = some r → v = r.xstate) → Q v x
  | .setPid p v, x, Q => ∃ r, x.view p = some r ∧ r.state = .unused ∧
      Q () (x.see p { r with pid := v })
  | .setParent p q, x, Q => ∃ r, x.view p = some r ∧ Q () (x.see p { r with parent := some q })
  | .ready p, x, Q => ∃ r, x.view p = some r ∧ r.state = .unused ∧ r.saved = true ∧
      Q () (x.see p { r with state := .runnable })
  | .setRunnable p, x, Q => ∃ r, x.view p = some r ∧ x.me = some p ∧ r.state = .running ∧
      Q () (x.see p { r with state := .runnable })
  | .setRunning p, x, Q => ∃ r, x.view p = some r ∧ x.me = none ∧ r.state = .runnable ∧
      Q () (x.see p { r with state := .running })
  | .doze p ch, x, Q => ∃ r, x.view p = some r ∧ x.me = some p ∧ r.state = .running ∧
      Q () (x.see p { r with nap := r.nap + 1, bed := some ch, dozing := true })
  | .setSleeping p ch, x, Q => ∃ r, x.view p = some r ∧ x.me = some p ∧ r.state = .running ∧
      r.dozing = true ∧ r.bed = some ch ∧
        Q () (x.see p { r with chan := some ch, state := .sleeping, dozing := false })
  | .clearChan p, x, Q => ∃ r, x.view p = some r ∧ r.state = .running ∧
      Q () (x.see p { r with chan := none })
  | .slept l, x, Q => l ∈ x.held ∧ Q () x
  | .setZombie p v, x, Q => ∃ r, x.view p = some r ∧ x.me = some p ∧ r.state = .running ∧
      Q () ({ x with dead := true }.see p { r with xstate := v, state := .zombie })
  | .wake p ch _, x, Q => ∃ r, x.view p = some r ∧ r.dozing = false ∧ Q () (x.see p (r.wake ch))
  | .mark p pid, x, Q => ∃ r, x.view p = some r ∧ r.pid = pid ∧ Q () (x.see p r.rouse)
  | .fatal p, x, Q => x = .calm (some p) [] ∧ Q () x
  | .freeproc p, x, Q => ∃ r, x.view p = some r ∧ (r.state = .zombie ∨ r.state = .unused) ∧
      r.on = false ∧ Q () (x.see p r.free)
  | .newContext p, x, Q => ∃ r, x.view p = some r ∧ r.state = .unused ∧ r.on = false ∧
      Q () (x.see p { r with saved := true })
  | .loop .scheduler, x, _ => x = .calm none []
  | .loop (.wait p _), x, Q => ∃ r, r.Free ∧ r.state = .running ∧ x = .awake p r ∧
      ∀ a, Q a (.calm (some p) [])
  | .loop l, x, Q => ∃ o L, (l.Slow → o ≠ none) ∧ x = .calm o (l.lock.toList ++ L) ∧
      ∀ a, Q a (.calm o (if l.keeps a then l.lock.toList ++ L else L))
  | .panic m, _, _ => Panics m

theorem monotone_spec : Code.Monotone (spec (n := n)) := by
  intro cmd x Q Q' h
  cases cmd with
  | take l | release l | loop l => cases l <;> simp only [spec] <;> gcongr <;> exact h _ _
  | setCur o =>
    cases o with
    | none =>
      refine And.imp id ?_
      split
      · exact h _ _
      · gcongr
        exact h _ _
    | some p =>
      simp only [spec]
      gcongr
      exact h _ _
  | _ =>
    simp only [spec]
    try gcongr
    all_goals exact h _ _

/-! ## Rules for the basic functions -/

namespace Ctx

variable (x : Ctx n) (p : Fin n) (r r' : Proc n)

@[simp] theorem lockProc_view : (x.lockProc p r).view p = some r := update_self ..

variable {x p r} in
theorem lockProc_view_of_not_mem (hq : .proc q ∉ (x.lockProc p r).held) (hv : x.view q = none) :
    (x.lockProc p r).view q = none := by
  have hne : q ≠ p := fun h => hq (h ▸ mem_cons_self ..)
  exact (update_of_ne hne ..).trans hv

variable {x} in
theorem locks_self (h1 : x.held = L) (h2 : x.off = L.length) : x = x.locks L := by
  rw [locks, ← h2, ← h1]

@[simp] theorem see_view : (x.see p r).view p = some r := update_self ..

@[simp] theorem lockProc_see : (x.lockProc p r).see p r' = x.lockProc p r' := by
  simp only [lockProc, see, update_idem]

theorem lockProc_setCur (o : Option (Fin n)) :
    { x.lockProc p r with cur := o }.see p r' = { x with cur := o }.lockProc p r' :=
  Ctx.ext rfl rfl rfl rfl (update_idem ..) rfl

variable {x p} in
@[simp] theorem lockProc_unlockProc (h : x.view p = none) : (x.lockProc p r).unlockProc p = x := by
  have hv : Function.update x.view p none = x.view := by rw [← h, update_eq_self]
  simp only [lockProc, unlockProc, see, update_idem, erase_cons_head,
    Nat.add_sub_cancel, hv]

end Ctx

section Rules

variable {α β : Type} {x : Ctx n} {p : Fin n} {r : Proc n} {Q : α → Ctx n → Prop} {l : Lock n}

theorem wp_seq {c : K n β} {f : β → K n α} {R : β → Ctx n → Prop} (hc : wp spec c x R)
    (hf : ∀ b y, R b y → wp spec (f b) y Q) : wp spec (c >>= f) x Q :=
  wp_bind monotone_spec (wp_mono monotone_spec hf hc)

theorem wp_run {c : Cmd n} {k : Ans c → K n α} (h : spec c x fun a y => wp spec (k a) y Q) :
    wp spec (run c >>= k) x Q := h

theorem wp_post {c : K n α} {f : α → Ctx n} (hc : wp spec c x fun a y => y = f a)
    (hQ : ∀ a, Q a (f a)) : wp spec c x Q := by
  refine wp_mono monotone_spec ?_ hc
  rintro a - rfl
  exact hQ a

theorem wp_keep {c : K n β} {f : β → K n α} (hc : wp spec c x fun _ y => y = x)
    (hf : ∀ b, wp spec (f b) x Q) : wp spec (c >>= f) x Q :=
  wp_seq hc fun b _ hy => hy ▸ hf b

theorem wp_acquire (hl : l.Simple) (h : x.off = x.held.length) {k : Unit → K n α}
    (hk : l ∉ x.held → wp spec (k ()) (x.locks (l :: x.held)) Q) :
    wp spec (acquire l >>= k) x Q := by
  have h' : x.held.length < x.off + 1 := by omega
  have hx : x.locks (l :: x.held) = { x with off := x.off + 1, held := l :: x.held } := by
    rw [Ctx.locks, h, length_cons]
  rw [hx] at hk
  cases l with
  | proc p => nomatch hl
  | _ => exact ⟨h', hk⟩

theorem wp_release (hl : l.Simple) (hmem : l ∈ x.held) (h : x.off = x.held.length)
    {k : Unit → K n α} (hk : wp spec (k ()) (x.locks (x.held.erase l)) Q) :
    wp spec (release l >>= k) x Q := by
  have hoff : 0 < x.off := h ▸ length_pos_of_mem hmem
  rw [Ctx.locks, length_erase_of_mem hmem, ← h] at hk
  cases l with
  | proc p => nomatch hl
  | _ => exact ⟨hmem, hoff, hk⟩

theorem wp_acquire_proc (h : x.off = x.held.length) {k : Unit → K n α}
    (hk : .proc p ∉ x.held → ∀ r, r.Free → (x.me = some p → r.state = .running) →
      wp spec (k ()) (x.lockProc p r) Q) : wp spec (acquire (.proc p) >>= k) x Q :=
  ⟨h ▸ Nat.lt_succ_self _, hk⟩

theorem wp_release_proc (hl : .proc p ∈ x.held) (h : x.Even) (hv : x.view p = some r)
    (hr : r.Free) {k : Unit → K n α} (hk : wp spec (k ()) (x.unlockProc p) Q) :
    wp spec (release (.proc p) >>= k) x Q :=
  ⟨hl, h.off ▸ length_pos_of_mem hl, h.cur, ⟨r, hv, hr⟩, hk⟩

theorem wp_unlock (h : x.Even) (hv : x.view q = none) (hr : r.Free) {k : Unit → K n α}
    (hk : wp spec (k ()) x Q) :
    wp spec (release (.proc q) >>= k) (x.lockProc q r) Q := by
  refine wp_release_proc (mem_cons_self ..) (h.lockProc q r) (Ctx.lockProc_view ..) hr ?_
  rwa [Ctx.lockProc_unlockProc _ hv]

theorem wp_myproc (h : x.cur = some p) {k : Fin n → K n α} (hk : wp spec (k p) x Q) :
    wp spec (myproc >>= k) x Q := by
  refine wp_run ?_
  change wp spec _ x Q
  rw [h]
  exact hk

theorem wp_check {b : Bool} {m : Panic} (hm : b = false → Panics m) {k : Unit → K n α}
    (hk : b = true → wp spec (k ()) x Q) : wp spec (check b m >>= k) x Q := by
  cases b with
  | true => exact hk rfl
  | false => exact hm rfl

/-- `a = b ? k : k'`, in the middle of some code. -/
theorem wp_choose {b : Prop} [Decidable b] {k k' : K n β} {f : β → K n α}
    (hk : wp spec k x fun _ y => y = x) (hk' : wp spec k' x fun _ y => y = x)
    (hf : ∀ a, wp spec (f a) x Q) :
    wp spec (if b then k >>= fun r => f r else k' >>= fun r => f r) x Q := by
  split
  · exact wp_keep hk hf
  · exact wp_keep hk' hf

/-- What holds when `sched()` returns. -/
structure Back (x : Ctx n) (p : Fin n) (y : Ctx n) : Prop where
  dead : x.dead = false
  held : x.held = [.proc p]
  awake : ∃ r : Proc n, r.Free ∧ r.state = .running ∧ y = .awake p r

/-- `sched()`.  A process that is not a `ZOMBIE` comes back some time later. -/
theorem wp_sched (hc : x.cur = some p) (hm : x.me = some p) (hl : .proc p ∈ x.held)
    (h : x.off = x.held.length) (hv : x.view p = some r) (h1 : r.state ≠ .running)
    (h2 : r.state ≠ .unused) (h3 : r.dozing = false) : wp spec sched x fun _ y => Back x p y := by
  refine wp_myproc hc (wp_run (wp_check (fun hb => ?_) fun _ => ?_))
  · exact absurd hl (of_decide_eq_false hb)
  refine wp_run (wp_check (m := .schedLocks) (fun _ => trivial) fun hoff => ?_)
  have hoff : x.off = 1 := of_decide_eq_true hoff
  have hheld : x.held = [.proc p] := by
    obtain ⟨a, ha⟩ := length_eq_one_iff.mp (h.symm.trans hoff)
    rw [ha] at hl ⊢
    rw [mem_singleton.mp hl]
  refine wp_run fun st hst _ => ?_
  have hst : st = r.state := hst r hv
  refine wp_check (fun hb => ?_) fun _ => ?_
  · exact absurd (hst ▸ h1) (of_decide_eq_false hb)
  refine wp_run fun b hb => ?_
  have hb : b = false := hb (by omega)
  refine wp_check (fun hb' => ?_) fun _ => ?_
  · rw [hb] at hb'
    nomatch hb'
  exact fun _ => ⟨r, hm, hheld, hoff, hv, h1, h2, h3, fun hd r' h4 h5 =>
    ⟨hd, hheld, r', h4, h5, rfl⟩⟩

theorem wp_yield (o : Fin n) (L : List (Lock n)) :
    wp spec yield (.calm (some o) L) fun _ y => y = .calm (some o) L := by
  refine wp_myproc rfl (wp_acquire_proc rfl fun _ r hr hrun => ?_)
  refine wp_run ⟨r, Ctx.lockProc_view .., rfl, hrun rfl, ?_⟩
  rw [Ctx.lockProc_see]
  refine wp_seq (wp_sched rfl rfl (mem_cons_self ..) rfl (Ctx.lockProc_view ..) nofun nofun
    hr.dozing) ?_
  rintro - - ⟨-, hheld, r', h1, h2, rfl⟩
  obtain rfl : L = [] := (List.cons.inj hheld).2
  exact wp_unlock (k := .ret) ⟨rfl, rfl⟩ rfl h1 rfl

theorem wp_sleep (ch : Chan n) {lk : Lock n} (hlk : lk.Simple) (L : List (Lock n)) :
    wp spec (sleep ch lk) (.calm (some p) (lk :: L)) fun _ y => y = .calm (some p) (lk :: L) := by
  have hne : lk ≠ .proc p := by
    rintro rfl
    exact hlk
  have hrel : ∀ r : Proc n, ((Ctx.calm (some p) (lk :: L)).lockProc p r).locks
      (((Ctx.calm (some p) (lk :: L)).lockProc p r).held.erase lk) =
        (Ctx.calm (some p) L).lockProc p r := by
    intro r
    change Ctx.locks _ ((Lock.proc p :: lk :: L).erase lk) = _
    rw [erase_cons_tail (by simpa using hne.symm), erase_cons_head]
    rfl
  refine wp_myproc rfl ?_
  simp only [if_pos hne]
  refine wp_acquire_proc rfl fun _ r hr hrun => wp_run ⟨r, Ctx.lockProc_view .., rfl, hrun rfl, ?_⟩
  rw [Ctx.lockProc_see]
  refine wp_release hlk (mem_cons_of_mem _ (mem_cons_self ..)) rfl ?_
  rw [hrel]
  refine wp_run ⟨_, Ctx.lockProc_view .., rfl, hrun rfl, rfl, rfl, ?_⟩
  rw [Ctx.lockProc_see]
  refine wp_seq (wp_sched rfl rfl (mem_cons_self ..) rfl (Ctx.lockProc_view ..) nofun nofun rfl) ?_
  rintro - - ⟨-, hheld, r', h1, h2, rfl⟩
  obtain rfl : L = [] := (List.cons.inj hheld).2
  refine wp_run ⟨r', Ctx.lockProc_view .., h2, ?_⟩
  rw [Ctx.awake, Ctx.lockProc_see]
  refine wp_unlock (x := .calm (some p) []) ⟨rfl, rfl⟩ rfl ?_ ?_
  · exact ⟨h1.running, h1.saved, h1.dozing⟩
  exact wp_acquire hlk rfl fun _ => ⟨mem_cons_self .., rfl⟩

/-- `sleep(p, &p->lock)`, as in `wait`. -/
theorem wp_sleep_self (ch : Chan n) (h : r.state = .running) :
    wp spec (sleep ch (.proc p)) (.awake p r) fun _ y =>
      ∃ r' : Proc n, r'.Free ∧ r'.state = .running ∧ y = .awake p r' := by
  refine wp_myproc rfl ?_
  simp only [ne_eq, not_true_eq_false, if_false]
  refine wp_run ⟨r, Ctx.lockProc_view .., rfl, h, wp_run ⟨_, Ctx.see_view .., rfl, h, rfl, rfl, ?_⟩⟩
  rw [Ctx.awake, Ctx.lockProc_see, Ctx.lockProc_see]
  refine wp_seq (wp_sched rfl rfl (mem_cons_self ..) rfl (Ctx.lockProc_view ..) nofun nofun rfl) ?_
  rintro - - ⟨-, -, r', h1, h2, rfl⟩
  refine wp_run ⟨r', Ctx.lockProc_view .., h2, ?_⟩
  rw [Ctx.awake, Ctx.lockProc_see]
  exact ⟨mem_cons_self .., { r' with chan := none }, ⟨h1.running, h1.saved, h1.dozing⟩, h2, rfl⟩

/-! ## `proc.c` -/

theorem wp_visit (h : x.Even) (hv : x.view q = none) {k : K n Unit}
    (hk : ∀ r : Proc n, r.Free →
      wp spec k (x.lockProc q r) fun _ y => ∃ r' : Proc n, r'.Free ∧ y = x.lockProc q r') :
    wp spec (acquire (.proc q) >>= fun _ => k >>= fun _ => release (.proc q)) x fun _ y =>
      y = x := by
  refine wp_acquire_proc h.off fun _ r hr _ => wp_seq (hk r hr) ?_
  rintro - - ⟨r', hr', rfl⟩
  exact wp_unlock (k := .ret) h hv hr' rfl

theorem wp_forEach {f : Fin n → K n Unit} (hf : ∀ q, wp spec (f q) x fun _ y => y = x)
    (qs : List (Fin n)) : wp spec (forEach f qs) x fun _ y => y = x := by
  induction qs with
  | nil => exact rfl
  | cons q qs ih => exact wp_keep (hf q) fun _ => ih

theorem wp_wakeup (h : x.Even) (hv : ∀ q, x.view q = none) (ch : Chan n) :
    wp spec (wakeup ch) x fun _ y => y = x := by
  refine wp_run fun w => wp_keep (wp_forEach (fun q => ?_) procs) fun _ => rfl
  refine wp_visit h (hv q) fun r hr => ⟨r, Ctx.lockProc_view .., hr.dozing, _, hr.wake ch, ?_⟩
  rw [Ctx.lockProc_see]

theorem wp_wakeup1 (hl : .proc p ∈ x.held) (hv : x.view p = some r) (hd : r.dozing = false) :
    wp spec (wakeup1 p) x fun _ y => y = x.see p (r.wake (.proc p)) := by
  refine wp_run (wp_check (fun hb => ?_) fun _ => fun w => ⟨r, hv, hd, rfl⟩)
  exact absurd hl (of_decide_eq_false hb)

theorem wp_killFrom (h : x.Even) (hv : ∀ q, x.view q = none) (pid : Int)
    (qs : List (Fin n)) : wp spec (killFrom pid qs) x fun _ y => y = x := by
  induction qs with
  | nil => exact rfl
  | cons q qs ih =>
    refine wp_acquire_proc h.off fun _ r hr _ => wp_run fun v hv' => ?_
    have hpid : v = r.pid := hv' r (Ctx.lockProc_view ..)
    dsimp only
    split
    · rename_i he
      refine wp_run ⟨r, Ctx.lockProc_view .., hpid ▸ he, ?_⟩
      rw [Ctx.lockProc_see]
      exact wp_unlock h (hv q) hr.rouse rfl
    · exact wp_unlock h (hv q) hr ih

theorem wp_schedule (q : Fin n) :
    wp spec (schedule q) (.calm none []) fun _ y => y = .calm none [] := by
  refine wp_acquire_proc rfl fun _ r hr _ => wp_run fun st hst _ => ?_
  have hst : st = r.state := hst r (Ctx.lockProc_view ..)
  dsimp only
  split
  · rename_i he
    have hrun : r.state = .runnable := hst ▸ he
    refine wp_run ⟨r, Ctx.lockProc_view .., rfl, hrun, ?_⟩
    rw [Ctx.lockProc_see]
    refine wp_run ⟨rfl, rfl, _, Ctx.lockProc_view .., hr.on_eq (by simp [hrun]), ?_⟩
    rw [Ctx.lockProc_setCur]
    refine wp_run ⟨_, rfl, rfl, hr.saved (by simp [hrun]) (by simp [hrun]), hr.dozing,
      fun r' h1 _ h3 h4 => ?_⟩
    refine wp_run ⟨rfl, r', Ctx.lockProc_view .., ?_⟩
    rw [Ctx.switching, Ctx.lockProc_setCur]
    refine wp_unlock (k := .ret) (x := .calm none []) ⟨rfl, rfl⟩ rfl ?_ rfl
    exact ⟨by simp [h1], fun _ _ => h3, h4⟩
  · exact wp_unlock (k := .ret) ⟨rfl, rfl⟩ rfl hr rfl

theorem wp_schedulerBody {R : Empty → Ctx n → Prop} : wp spec schedulerBody (.calm none []) R :=
  wp_run ⟨rfl, wp_keep (wp_forEach wp_schedule procs) fun _ => rfl⟩

/-- `allocproc()` gives a locked slot that is ready for `fork` to fill. -/
def New (x : Ctx n) (o : Option (Fin n)) (y : Ctx n) : Prop :=
  match o with
  | none => y = x
  | some q => ∃ r : Proc n, r.Free ∧ r.state = .unused ∧ r.saved = true ∧ y = x.lockProc q r ∧
      .proc q ∉ x.held

theorem wp_allocpid (h : x.off = x.held.length) : wp spec allocpid x fun _ y => y = x := by
  refine wp_acquire (l := .pid) trivial h fun _ => wp_run fun v => wp_run ?_
  refine wp_release (l := .pid) trivial (mem_cons_self ..) rfl ?_
  change x.locks ((Lock.pid :: x.held).erase .pid) = x
  rw [erase_cons_head, Ctx.locks, ← h]

theorem wp_works {k : Bool → K n α} (hk : ∀ b, wp spec (k b) x Q) : wp spec (works >>= k) x Q :=
  fun _ => hk _

theorem wp_storeStatus {v : Int} : wp spec (storeStatus p v) x fun _ y => y = x := by
  refine wp_works fun b => ?_
  split <;> exact rfl

theorem wp_found (h : x.Even) (hv : x.view q = none) (hr : r.Free) (hs : r.state = .unused)
    (hq : .proc q ∉ x.held) :
    wp spec (found q) (x.lockProc q r) fun o y => New x o y := by
  have ho : r.on = false := hr.on_eq (by simp [hs])
  refine wp_keep (wp_allocpid (h.lockProc q r).off) fun v => ?_
  refine wp_run ⟨r, Ctx.lockProc_view .., hs, wp_works fun b => ?_⟩
  rw [Ctx.lockProc_see]
  split
  · refine wp_works fun b => ?_
    split
    · refine wp_run ⟨_, Ctx.lockProc_view .., hs, ho, ?_⟩
      rw [Ctx.lockProc_see]
      exact ⟨{ r with pid := v, saved := true }, ⟨hr.running, fun h => absurd hs h,
        hr.dozing⟩, hs, rfl, rfl, hq⟩
    · refine wp_run ⟨_, Ctx.lockProc_view .., .inr hs, ho, ?_⟩
      rw [Ctx.lockProc_see]
      refine wp_unlock h hv ?_ ?_
      · exact Proc.Free.of_unused rfl ho hr.dozing
      · exact rfl
  · refine wp_unlock h hv ?_ ?_
    · exact ⟨hr.running, hr.saved, hr.dozing⟩
    · exact rfl

theorem wp_allocprocFrom (h : x.Even) (hv : ∀ q, x.view q = none)
    (qs : List (Fin n)) : wp spec (allocprocFrom qs) x fun o y => New x o y := by
  induction qs with
  | nil => exact rfl
  | cons q qs ih =>
    refine wp_acquire_proc h.off fun hq r hr _ => wp_run fun st hst _ => ?_
    have hst : st = r.state := hst r (Ctx.lockProc_view ..)
    dsimp only
    split
    · rename_i he
      exact wp_found h (hv q) hr (hst ▸ he) hq
    · exact wp_unlock h (hv q) hr ih

theorem wp_reap {r' : Proc n} (hrun : r.Free) (hr : r'.Free) (hz : r'.state = .zombie)
    (hv : (Ctx.awake p r).view q = none) (addr : Nat) :
    wp spec (reap p q addr) ((Ctx.awake p r).lockProc q r') fun _ y => y = .calm (some p) [] := by
  refine wp_run fun v _ => wp_run fun xs _ => wp_choose wp_storeStatus rfl fun ok => ?_
  split
  · refine wp_run ⟨r', Ctx.lockProc_view .., .inl hz, hr.on_eq (by simp [hz]), ?_⟩
    rw [Ctx.lockProc_see]
    refine wp_unlock ⟨rfl, rfl⟩ hv ?_ (wp_unlock ⟨rfl, rfl⟩ rfl hrun rfl)
    exact Proc.Free.of_unused rfl (hr.on_eq (by simp [hz])) hr.dozing
  · exact wp_unlock ⟨rfl, rfl⟩ hv hr (wp_unlock ⟨rfl, rfl⟩ rfl hrun rfl)

/-- The scan keeps `p->lock`, unless it has found a `ZOMBIE`. -/
theorem wp_waitScan (hr : r.Free) (addr : Nat) (kids : Bool) (qs : List (Fin n)) :
    wp spec (waitScan p addr kids qs) (.awake p r) fun o y => y = match o with
        | .inl _ => .calm (some p) []
        | .inr _ => .awake p r := by
  induction qs generalizing kids with
  | nil => exact rfl
  | cons q qs ih =>
    refine wp_run fun v _ => ?_
    dsimp only
    split
    · refine wp_acquire_proc rfl fun hq r' hr' _ => wp_run fun st hst _ => ?_
      have hst : st = r'.state := hst r' (Ctx.lockProc_view ..)
      dsimp only
      split
      · rename_i hz
        refine wp_seq (wp_reap hr hr' (hst ▸ hz) (Ctx.lockProc_view_of_not_mem hq rfl) addr) ?_
        rintro a - rfl
        exact rfl
      · exact wp_unlock ⟨rfl, rfl⟩ (Ctx.lockProc_view_of_not_mem hq rfl) hr' (ih true)
    · exact ih kids

theorem wp_waitBody (hr : r.Free) (h1 : r.state = .running) (addr : Nat) :
    wp spec (waitBody p addr) (.awake p r) fun _ y => y = .calm (some p) [] := by
  refine wp_seq (wp_waitScan hr addr false procs) fun o y hy => ?_
  subst hy
  cases o with
  | inl v => exact rfl
  | inr kids =>
    refine wp_choose (fun _ => rfl) rfl fun stop => ?_
    split
    · exact wp_unlock ⟨rfl, rfl⟩ rfl hr rfl
    · refine wp_seq (wp_sleep_self (.proc p) h1) ?_
      rintro - - ⟨r', h3, h4, rfl⟩
      exact ⟨r', h3, h4, rfl, fun _ => rfl⟩

theorem wp_wait (addr : Nat) :
    wp spec (wait addr) (.calm (some p) []) fun _ y => y = .calm (some p) [] := by
  exact wp_myproc rfl (wp_acquire_proc rfl fun _ r hr hrun => ⟨r, hr, hrun rfl, rfl, fun _ => rfl⟩)

theorem wp_reparent (h : x.Even) (hv : ∀ q, .proc q ∉ x.held → x.view q = none)
    (init : Fin n) : wp spec (reparent init p) x fun _ y => y = x := by
  refine wp_forEach (fun q => ?_) procs
  refine wp_run (c := .parent q) fun v _ => ?_
  dsimp only
  split
  · refine wp_acquire_proc h.off fun hq r hr _ => wp_run ⟨r, Ctx.lockProc_view .., ?_⟩
    rw [Ctx.lockProc_see]
    refine wp_unlock (k := .ret) h (hv q hq) ?_ rfl
    exact ⟨hr.running, hr.saved, hr.dozing⟩
  · exact rfl

theorem wp_exitFinal (init : Fin n) (status : Int) :
    wp spec (exitFinal init p status : K n α) (.calm (some p) []) Q := by
  refine wp_acquire_proc rfl fun _ r hr _ => ?_
  refine wp_seq (wp_wakeup1 (mem_cons_self ..) (Ctx.lockProc_view ..) hr.dozing) ?_
  rintro - - rfl
  rw [Ctx.lockProc_see]
  refine wp_unlock ⟨rfl, rfl⟩ rfl (hr.wake _) (wp_acquire_proc rfl fun _ r hr hrun => ?_)
  refine wp_run (c := .parent p) fun op _ => wp_unlock ⟨rfl, rfl⟩ rfl hr ?_
  cases op with
  | none => exact trivial
  | some op =>
    refine wp_acquire_proc rfl fun _ ro hro _ => wp_acquire_proc rfl fun hp r hr hrun => ?_
    have hne : p ≠ op := fun h => hp (h ▸ mem_cons_self ..)
    refine wp_keep (wp_reparent ⟨rfl, rfl⟩ (fun q hq => ?_) init) fun _ => ?_
    · exact Ctx.lockProc_view_of_not_mem hq (Ctx.lockProc_view_of_not_mem
        (fun h => hq (mem_cons_of_mem _ h)) rfl)
    have hview : ((Ctx.calm (some p) []).lockProc op ro |>.lockProc p r).view op = some ro :=
      (update_of_ne hne.symm ..).trans (Ctx.lockProc_view ..)
    refine wp_seq (wp_wakeup1 (mem_cons_of_mem _ (mem_cons_self ..)) hview
      hro.dozing) ?_
    rintro - - rfl
    refine wp_run ⟨r, ?_, rfl, hrun rfl, ?_⟩
    · exact (update_of_ne hne ..).trans (Ctx.lockProc_view ..)
    refine wp_release_proc (r := ro.wake (.proc op)) (mem_cons_of_mem _ (mem_cons_self ..))
      ⟨rfl, rfl⟩ ?_ (hro.wake _) ?_
    · exact (update_of_ne hne.symm ..).trans (Ctx.see_view ..)
    have herase : [Lock.proc p, .proc op].erase (.proc op) = [.proc p] := by
      rw [erase_cons_tail (by simpa using hne), erase_cons_head]
    refine wp_seq (wp_sched (p := p) (r := { r with xstate := status, state := .zombie })
      rfl rfl ?_ ?_
      ?_ nofun nofun hr.dozing) ?_
    · change Lock.proc p ∈ [Lock.proc p, .proc op].erase (.proc op)
      rw [herase]
      exact mem_singleton_self _
    · exact (congrArg List.length herase).symm
    · exact (update_of_ne hne ..).trans (Ctx.see_view ..)
    · rintro - - ⟨hdead, -, -⟩
      nomatch hdead

/-! ## All other code -/

/-- Code that uses only locks that are not those of processes. -/
theorem plain_locks : Plain (fun _ => True) fun (α : Type) L (k : K n α) post =>
    ∀ x : Ctx n, x.held = L → x.off = L.length →
      wp spec k x fun a y => y = x.locks (post a) where
  ret _ _ _ h1 h2 := Ctx.locks_self h1 h2
  bind hk hf x h1 h2 := by
    refine wp_seq (hk x h1 h2) ?_
    rintro a - rfl
    exact hf a _ rfl rfl
  panic _ m _ hm _ _ _ := by
    cases m with
    | null | logCommitting | filedup | fileclose | igetNoInodes | iallocNoInodes | ilock | iunlock
    | dir m => exact trivial
    | _ => nomatch hm
  ask _ _ h1 h2 _ := Ctx.locks_self h1 h2
  getProc _ _ h1 h2 := Ctx.locks_self h1 h2
  isBoot _ _ h1 h2 _ := Ctx.locks_self h1 h2
  pid _ _ _ h1 h2 _ _ := Ctx.locks_self h1 h2
  get _ _ _ _ h1 h2 _ := Ctx.locks_self h1 h2
  put _ _ _ _ _ h1 h2 := Ctx.locks_self h1 h2
  acquire L l hl x h1 h2 :=
    wp_acquire (k := .ret) hl (h2.trans (congrArg List.length h1.symm)) fun _ => h1 ▸ rfl
  release L l hl x h1 h2 := by
    refine wp_release (k := .ret) hl (h1 ▸ mem_cons_self ..)
      (h2.trans (congrArg List.length h1.symm)) ?_
    rw [h1, erase_cons_head]
    exact rfl

/-- The rule that code keeps to which has no process locked. -/
def Calm (I : Option (Fin n) → Prop) : Rule n := fun _ L k post =>
  ∀ o, I o → wp spec k (.calm o L) fun a y => y = .calm o (post a)

theorem wakes_calm (I : Option (Fin n) → Prop) : Wakes (fun _ => True) (Calm I) where
  ret _ _ _ _ := rfl
  bind hk hf o ho := by
    refine wp_seq (hk o ho) ?_
    rintro a - rfl
    exact hf a o ho
  panic L _ post hm o _ := plain_locks.panic L post hm (.calm o L) rfl rfl
  ask L o _ := plain_locks.ask L (.calm o L) rfl rfl
  getProc L o _ := plain_locks.getProc L (.calm o L) rfl rfl
  isBoot L o _ := plain_locks.isBoot L (.calm o L) rfl rfl
  pid L p o _ := plain_locks.pid L p (.calm o L) rfl rfl
  get L _ h o _ := plain_locks.get L h (.calm o L) rfl rfl
  put L _ v h o _ := plain_locks.put L v h (.calm o L) rfl rfl
  acquire L _ hl o _ := plain_locks.acquire L hl (.calm o L) rfl rfl
  release L l hl o _ := plain_locks.release L hl (.calm o (l :: L)) rfl rfl
  low _ := trivial
  wakeup _ ch _ _ := wp_wakeup ⟨rfl, rfl⟩ (fun _ => rfl) ch
  quick L l hl o _ := by
    cases l with
    | uartstart | uartintr | diskIntr => exact ⟨o, L, nofun, rfl, fun _ => rfl⟩
    | _ => nomatch hl

theorem walk_calm : Walk (fun _ => True) (Calm (n := n) (· ≠ none)) where
  toWakes := wakes_calm _
  sleep L ch lk hlk _ o ho := by
    cases o with
    | none => exact absurd rfl ho
    | some p => exact wp_sleep ch hlk L
  slow L l hl o ho := by
    cases l with
    | uartstart | uartintr | diskIntr | scheduler | wait p addr => nomatch hl
    | _ => exact ⟨o, L, fun _ => ho, rfl, fun _ => rfl⟩

/-- Such code, with the lock of a process held. -/
theorem wp_plain {k : K n β} {f : β → K n α} (h1 : x.held = L) (h2 : x.off = L.length)
    (hk : ∀ x : Ctx n, x.held = L → x.off = L.length → wp spec k x fun _ y => y = x.locks L)
    (hf : ∀ b, wp spec (f b) x Q) : wp spec (k >>= f) x Q := by
  refine wp_keep ?_ hf
  have := hk x h1 h2
  rwa [← Ctx.locks_self h1 h2] at this

theorem wp_fork : wp spec fork (.calm (some p) []) fun _ y => y = .calm (some p) [] := by
  refine wp_myproc rfl (wp_seq (wp_allocprocFrom ⟨rfl, rfl⟩ (fun _ => rfl) procs) fun o y hy => ?_)
  cases o with
  | none => exact hy
  | some q =>
    obtain ⟨r, hr, hs, hsv, rfl, -⟩ := hy
    have ho : r.on = false := hr.on_eq (by simp [hs])
    refine wp_works fun b => ?_
    split
    · refine wp_run ⟨r, Ctx.lockProc_view .., wp_run ?_⟩
      rw [Ctx.lockProc_see]
      refine wp_plain rfl rfl (plain_locks.forkFiles (fun _ => trivial) p q _) fun _ => ?_
      refine wp_run fun cwd => ?_
      cases cwd with
      | none => exact trivial
      | some i =>
        refine wp_plain rfl rfl (plain_locks.idup (fun _ => trivial) i) fun _ => ?_
        refine wp_run fun _ => wp_run (wp_run fun _ _ =>
          wp_run ⟨_, Ctx.lockProc_view .., hs, hsv, ?_⟩)
        rw [Ctx.lockProc_see]
        refine wp_unlock ⟨rfl, rfl⟩ rfl ?_ rfl
        exact ⟨by simp [ho], fun _ _ => hsv, hr.dozing⟩
    · refine wp_run ⟨r, Ctx.lockProc_view .., .inr hs, ho, ?_⟩
      rw [Ctx.lockProc_see]
      refine wp_unlock ⟨rfl, rfl⟩ rfl ?_ rfl
      exact Proc.Free.of_unused rfl ho hr.dozing

theorem wp_exit (init : Fin n) (status : Int) :
    wp spec (exit init status : K n α) (.calm (some p) []) Q := by
  have hne : (some p) ≠ none := nofun
  refine wp_myproc rfl (wp_check (m := .initExiting) (fun _ => trivial) fun _ => ?_)
  refine wp_keep (walk_calm.exitFiles (fun _ => trivial) (fun _ => trivial) (fun _ => trivial) p _ _
    hne) fun _ => ?_
  refine wp_keep (walk_calm.beginOp _ hne) fun _ => wp_run fun cwd => ?_
  cases cwd with
  | none => exact trivial
  | some i =>
    exact wp_keep (walk_calm.iput (fun _ => trivial) i _ hne) fun _ =>
      wp_keep (walk_calm.endOp _ hne) fun _ => wp_run (wp_exitFinal init status)

theorem wp_syscall (init : Fin n) (c : Syscall) :
    wp spec (c.code init) (.calm (some p) []) fun _ y => y = .calm (some p) [] := by
  refine walk_calm.syscall (L := []) (fun _ => trivial) (fun _ => trivial) (fun _ => trivial) init c
    (fun _ o ho => ?_) (fun status _ o ho => ?_) (fun addr _ o ho => ?_)
    (fun pid _ o ho => ?_) _ nofun
  all_goals obtain ⟨q, rfl⟩ := Option.ne_none_iff_exists'.mp ho
  · exact wp_fork
  · exact wp_exit init status
  · exact wp_wait addr
  · exact wp_killFrom ⟨rfl, rfl⟩ (fun _ => rfl) pid procs

/-- `usertrap` returns to user space, if it returns. -/
theorem wp_usertrapEnd (init : Fin n) (t : Trap) : wp spec (do
    if ← run (.killed p) then exit init failed
    match t with
    | .irq .timer => yield
    | _ => pure ()
    run .intrOff) (.calm (some p) []) fun _ y => y = .calm (some p) [] := by
  refine wp_run fun b => ?_
  dsimp only
  split
  · exact wp_bind monotone_spec (wp_exit init failed)
  · split
    · exact wp_keep (wp_yield p []) fun _ => rfl
    · exact rfl

theorem wp_usertrap (init : Fin n) (t : Trap) :
    wp spec (usertrap init t) (.calm (some p) []) fun _ y => y = .calm (some p) [] := by
  have hend := @wp_usertrapEnd n p init t
  refine wp_myproc rfl ?_
  cases t with
  | syscall c =>
    refine wp_run fun b => ?_
    dsimp only
    split
    · exact wp_bind monotone_spec (wp_exit init failed)
    · exact wp_run ⟨rfl, wp_keep (wp_syscall init c) fun _ => wp_run (wp_run hend)⟩
  | irq i => exact wp_keep ((wakes_calm fun _ => True).devintr i _ trivial) fun _ => hend
  | fault => exact wp_run ⟨rfl, hend⟩

/-- An interrupt in the kernel does not change the context. -/
theorem wp_kerneltrap (o : Option (Fin n)) (i : Irq) :
    wp spec (kerneltrap i) (.calm o []) fun _ y => y = .calm o [] := by
  refine wp_keep ((wakes_calm fun _ => True).devintr i o trivial) fun _ => ?_
  split
  · refine wp_run ?_
    cases o with
    | none => exact rfl
    | some p =>
      refine wp_run fun st _ hst => ?_
      change wp spec (if st = .running then yield else pure ()) _ _
      rw [if_pos (hst rfl rfl)]
      exact wp_yield p []
  · exact rfl

theorem wp_forkret (hr : r.Free) :
    wp spec forkret (.awake p r) fun _ y => y = .calm (some p) [] := by
  refine wp_myproc rfl (wp_unlock ⟨rfl, rfl⟩ rfl hr ?_)
  refine wp_run (c := .get .first) fun first => ?_
  dsimp only
  split
  · exact ⟨some p, [], nofun, rfl, fun _ _ => rfl⟩
  · exact rfl

theorem wp_body (l : Loop n) {R : LoopAns l → Ctx n → Prop} (h : spec (.loop l) x R) :
    wp spec l.body x R := by
  have hquick : ∀ {l : Loop n} {R : LoopAns l → Ctx n → Prop} {o L}, l.Quick →
      (∀ a, R a (.calm o L)) → wp spec l.body (.calm o L) R := fun hl hR =>
    wp_post ((wakes_calm fun _ => True).quickBody hl _ trivial) hR
  have hslow : ∀ {l : Loop n} {R : LoopAns l → Ctx n → Prop} {o L}, l.Slow → (l.Slow → o ≠ none) →
      (∀ a, R a (.calm o (if l.keeps a then l.lock.toList ++ L else L))) →
      wp spec l.body (.calm o (l.lock.toList ++ L)) R := by
    intro l R o L hl ho hR
    refine wp_post ?_ hR
    by_cases ht : l.Tests
    · refine walk_calm.testBody hl ht (fun _ => trivial) (fun _ _ _ _ _ => rfl)
        (fun L ch lk hlk o ho => ?_) o (ho hl)
      obtain ⟨p, rfl⟩ := Option.ne_none_iff_exists'.mp ho
      exact wp_sleep ch hlk L
    · exact walk_calm.slowBody hl ht (fun _ _ => trivial) o (ho hl)
  cases l with
  | scheduler =>
    obtain rfl := h
    exact wp_schedulerBody
  | wait p addr =>
    obtain ⟨r, h1, h2, rfl, hR⟩ := h
    exact wp_post (wp_waitBody h1 h2 addr) hR
  | uartstart | uartintr | diskIntr =>
    obtain ⟨o, L, -, rfl, hR⟩ := h
    exact hquick trivial hR
  | _ =>
    obtain ⟨o, L, ho, rfl, hR⟩ := h
    exact hslow trivial ho hR

end Rules

end Locking

end Xv6.Kernel
