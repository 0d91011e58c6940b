import Xv6.Kernel.Walk

/-!
# Properties of single commands

For some properties it does not matter which locks are held.  If such a property is kept by
sequencing and holds of every basic command, it holds of all code that is made of them.  Here are
the functions of `proc.c`, each with the commands that are not basic as hypotheses, and the traps.
-/

namespace Xv6.Kernel

variable {n : Nat}

/-- The commands that need no attention in any of the properties that are proved in this way. -/
def Cmd.Basic : Cmd n → Prop
  | .setPid .. | .setParent .. | .ready _ | .setSleeping .. | .setZombie .. | .wakeBegin ..
  | .wake .. | .wakeEnd _ | .mark .. | .fatal _ | .freeproc _
  | .newContext _ | .returned .. | .loop _ | .panic _ => False
  | _ => True

/-- A property of code that is kept by sequencing and holds of the basic commands. -/
structure Uniform (P : ∀ ⦃α : Type⦄, K n α → Prop) : Prop where
  ret : ∀ {α : Type} (a : α), P (.ret a)
  bind : ∀ {α β : Type} {k : K n α} {f : α → K n β}, P k → (∀ a, P (f a)) → P (k >>= f)
  panic : ∀ {α : Type} (m : Panic), P (panic m : K n α)
  loop : ∀ l, P (run (.loop l))
  basic : ∀ {c : Cmd n}, c.Basic → P (run c)

namespace Uniform

variable {α β : Type} {P : ∀ ⦃α : Type⦄, K n α → Prop} (h : Uniform P) {b : Prop}

include h

theorem step {c : Cmd n} {f : Ans c → K n β} (hc : c.Basic) (hf : ∀ a, P (f a)) : P (run c >>= f) :=
  h.bind (h.basic hc) hf

theorem works : P works := h.step trivial fun _ => h.ret _

theorem check (b : Bool) (m : Panic) : P (check b m) := by
  rw [Kernel.check]
  split
  · exact h.ret ()
  · exact h.panic m

theorem myproc : P myproc := by
  refine h.step trivial fun p => ?_
  cases p with
  | none => exact h.panic _
  | some p => exact h.ret p

theorem acquire (l : Lock n) : P (acquire l) := h.step trivial fun _ => h.basic trivial

theorem release (l : Lock n) : P (release l) := h.basic trivial

theorem lock {l : Lock n} {f : Unit → K n β} (hf : P (f ())) : P (Kernel.acquire l >>= f) :=
  h.bind (h.acquire l) fun _ => hf

theorem unlock {l : Lock n} {f : Unit → K n β} (hf : P (f ())) : P (Kernel.release l >>= f) :=
  h.bind (h.release l) fun _ => hf

theorem optional [Decidable b] {k : K n Unit} {f : Unit → K n β} (hk : P k) (hf : P (f ())) :
    P (if b then k >>= fun r => f r else f ()) := by
  split
  · exact h.bind hk fun _ => hf
  · exact hf

theorem choose [Decidable b] {k k' : K n α} {f : α → K n β} (hk : P k) (hk' : P k')
    (hf : ∀ a, P (f a)) : P (if b then k >>= fun r => f r else k' >>= fun r => f r) := by
  split
  · exact h.bind hk hf
  · exact h.bind hk' hf

theorem forEach {f : Fin n → K n Unit} (hf : ∀ p, P (f p)) (ps : List (Fin n)) :
    P (forEach f ps) := by
  induction ps with
  | nil => exact h.ret ()
  | cons p ps ih => exact h.bind (hf p) fun _ => ih

/-! ## Switching -/

theorem sched : P sched :=
  h.bind h.myproc fun _ => h.step trivial fun _ => h.bind (h.check _ _) fun _ =>
    h.step trivial fun _ => h.bind (h.check _ _) fun _ => h.step trivial fun _ =>
      h.bind (h.check _ _) fun _ => h.step trivial fun _ => h.bind (h.check _ _) fun _ =>
        h.step trivial fun _ => h.step trivial fun _ => h.basic trivial

theorem yield : P yield :=
  h.bind h.myproc fun _ => h.lock <| h.step trivial fun _ => h.bind h.sched fun _ => h.release _

theorem schedule (p : Fin n) : P (schedule p) := by
  refine h.lock <| h.step trivial fun st => ?_
  split
  · exact h.step trivial fun _ => h.step trivial fun _ =>
      h.step trivial fun _ => h.step trivial fun _ => h.release _
  · exact h.release _

theorem schedulerBody : P schedulerBody :=
  h.step trivial fun _ => h.bind (h.forEach h.schedule _) fun _ => h.loop _

theorem scheduler : P scheduler := h.step trivial fun _ => h.loop _

theorem fsinit : P fsinit :=
  h.bind (h.loop _) fun _ => h.step trivial fun _ => h.basic trivial

theorem forkret : P forkret := by
  refine h.bind h.myproc fun _ => h.unlock <| h.step (c := .get .first) trivial fun first => ?_
  dsimp only
  split
  · exact h.step trivial fun _ => h.bind h.fsinit fun _ => h.basic trivial
  · exact h.basic trivial

/-- `sleep`, on a channel on which the property allows it. -/
theorem sleep {ch : Chan n} (hs : ∀ p, P (run (.setSleeping p ch))) (lk : Lock n) :
    P (sleep ch lk) := by
  refine h.bind h.myproc fun p => ?_
  split
  · exact h.lock <| h.step trivial fun _ => h.unlock <|
      h.bind (hs p) fun _ => h.bind h.sched fun _ => h.step trivial fun _ =>
        h.unlock <| h.lock <| h.basic trivial
  · exact h.step trivial fun _ => h.bind (hs p) fun _ => h.bind h.sched fun _ =>
      h.step trivial fun _ => h.basic trivial

/-! ## Waking up -/

section

variable (hb : ∀ ch q, P (run (.wakeBegin ch q))) (hw : ∀ p ch w, P (run (.wake p ch w)))
  (he : ∀ w, P (run (.wakeEnd w)))

include hb hw he

theorem wakeup (ch : Chan n) : P (wakeup ch) :=
  h.bind (hb _ _) fun _ => h.bind (h.forEach (fun _ => h.lock <|
    h.bind (hw _ _ _) fun _ => h.release _) _) fun _ => he _

theorem wakeup1 (p : Fin n) : P (wakeup1 p) :=
  h.step trivial fun _ => h.bind (h.check _ _) fun _ => h.bind (hb _ _) fun _ =>
    h.bind (hw _ _ _) fun _ => he _

end

theorem killFrom (hm : ∀ p v, P (run (.mark p v))) (pid : Int) (ps : List (Fin n)) :
    P (killFrom pid ps) := by
  induction ps with
  | nil => exact h.ret _
  | cons p ps ih =>
    refine h.lock <| h.step trivial fun v => ?_
    split
    · exact h.bind (hm _ _) fun _ => h.unlock <| h.ret _
    · exact h.unlock <| ih

/-! ## Processes begin and end -/

theorem allocpid : P allocpid :=
  h.lock <| h.step trivial fun _ => h.step trivial fun _ => h.unlock <| h.ret _

section

variable (hf : ∀ p, P (run (.freeproc p)))

include hf

theorem allocprocFrom (hp : ∀ p v, P (run (.setPid p v))) (hn : ∀ p, P (run (.newContext p)))
    (ps : List (Fin n)) : P (allocprocFrom ps) := by
  induction ps with
  | nil => exact h.ret _
  | cons p ps ih =>
    refine h.lock <| h.step trivial fun st => ?_
    split
    · refine h.bind h.allocpid fun _ => h.bind (hp _ _) fun _ => h.bind h.works fun b => ?_
      split
      · refine h.bind h.works fun b => ?_
        split
        · exact h.bind (hn _) fun _ => h.ret _
        · exact h.bind (hf _) fun _ => h.unlock <| h.ret _
      · exact h.unlock <| h.ret _
    · exact h.unlock <| ih

omit hf in
theorem storeStatus (p : Fin n) (v : Int) : P (storeStatus p v) := by
  refine h.bind h.works fun b => ?_
  split
  · exact h.step trivial fun _ => h.ret _
  · exact h.ret _

theorem reap (p np : Fin n) (addr : Nat) : P (reap p np addr) := by
  refine h.step trivial fun _ => h.step trivial fun _ =>
    h.choose (h.storeStatus _ _) (h.ret true) fun ok => ?_
  split
  · exact h.bind (hf _) fun _ => h.unlock <| h.unlock <| h.ret _
  · exact h.unlock <| h.unlock <| h.ret _

theorem waitScan (p : Fin n) (addr : Nat) (kids : Bool) (ps : List (Fin n)) :
    P (waitScan p addr kids ps) := by
  induction ps generalizing kids with
  | nil => exact h.ret _
  | cons np nps ih =>
    refine h.step trivial fun v => ?_
    split
    · refine h.lock <| h.step trivial fun st => ?_
      split
      · exact h.bind (h.reap hf _ _ _) fun _ => h.ret _
      · exact h.unlock <| ih true
    · exact ih kids

theorem waitBody (p : Fin n) (addr : Nat) (hs : P (Kernel.sleep (.proc p) (.proc p))) :
    P (waitBody p addr) := by
  refine h.bind (h.waitScan hf p addr false _) fun r => ?_
  cases r with
  | inl v => exact h.ret v
  | inr kids =>
    refine h.choose (h.basic (c := .killed p) trivial) (h.ret true) fun stop => ?_
    split
    · exact h.unlock <| h.ret _
    · exact h.bind hs fun _ => h.loop _

end

theorem wait (addr : Nat) : P (wait addr) :=
  h.bind h.myproc fun _ => h.lock <| h.loop _

theorem reparent (hp : ∀ p q, P (run (.setParent p q))) (init p : Fin n) : P (reparent init p) := by
  refine h.forEach (fun pp => ?_) _
  refine h.bind (h.basic (c := .parent pp) trivial) fun v => ?_
  split
  · exact h.lock <| h.bind (hp _ _) fun _ => h.release _
  · exact h.ret ()

theorem exitFinal (hp : ∀ p q, P (run (.setParent p q))) (hz : ∀ p v, P (run (.setZombie p v)))
    (hw : ∀ p, P (Kernel.wakeup1 p)) (init p : Fin n)
    (status : Int) : P (exitFinal init p status : K n α) := by
  refine h.lock <| h.bind (hw _) fun _ => h.unlock <|
    h.lock <| h.step (c := .parent p) trivial fun op => h.unlock <| ?_
  cases op with
  | none => exact h.panic _
  | some op =>
    exact h.lock <| h.lock <|
      h.bind (h.reparent hp _ _) fun _ => h.bind (hw _) fun _ => h.bind (hz _ _) fun _ =>
        h.unlock <| h.bind h.sched fun _ => h.panic _

/-! ## Everything else -/

theorem walk (hs : ∀ ch lk, ¬ ch.Tests → P (Kernel.sleep ch lk)) (hw : ∀ ch, P (Kernel.wakeup ch)) :
    Walk (fun _ => True) fun (α : Type) _ (k : K n α) _ => P k where
  ret a _ := h.ret a
  bind hk hf := h.bind hk hf
  panic _ _ _ _ := h.panic _
  ask _ := h.basic trivial
  getProc _ := h.basic trivial
  isBoot _ := h.basic trivial
  pid _ _ := h.basic trivial
  get _ _ _ := h.basic trivial
  put _ _ _ _ := h.basic trivial
  acquire _ _ _ := h.acquire _
  release _ _ _ := h.release _
  low _ := trivial
  wakeup _ ch := hw ch
  quick _ _ _ := h.loop _
  sleep _ ch lk _ hch := hs ch lk hch
  slow _ _ _ := h.loop _

section

variable (W : Walk (fun _ => True) fun (α : Type) _ (k : K n α) _ => P k)

include W

theorem fork (hf : ∀ p, P (run (.freeproc p))) (hp : ∀ p v, P (run (.setPid p v)))
    (hn : ∀ p, P (run (.newContext p))) (hsp : ∀ p q, P (run (.setParent p q)))
    (hr : ∀ p, P (run (.ready p))) : P fork := by
  refine h.bind h.myproc fun p => h.bind (h.allocprocFrom hf hp hn _) fun o => ?_
  cases o with
  | none => exact h.ret _
  | some np =>
    refine h.bind h.works fun b => ?_
    split
    · refine h.bind (hsp _ _) fun _ => h.step trivial fun _ =>
        h.bind (W.forkFiles (L := []) (fun _ => trivial) p np _) fun _ =>
          h.step trivial fun cwd => ?_
      cases cwd with
      | none => exact h.bind (h.panic _) fun _ => h.step trivial fun _ =>
          h.step trivial fun _ => h.step trivial fun _ => h.bind (hr _) fun _ => h.unlock <| h.ret _
      | some i =>
        exact h.bind (W.idup (L := []) (fun _ => trivial) i) fun _ => h.step trivial fun _ =>
          h.step trivial fun _ => h.step trivial fun _ => h.bind (hr _) fun _ => h.unlock <| h.ret _
    · exact h.bind (hf _) fun _ => h.unlock <| h.ret _

theorem exit (init : Fin n) (status : Int)
    (he : ∀ p, P (Kernel.exitFinal init p status : K n α)) : P (exit init status : K n α) := by
  refine h.bind h.myproc fun p => h.bind (h.check _ _) fun _ => h.bind (W.exitFiles (L := [])
    (fun _ => trivial) (fun _ => trivial) (fun _ => trivial) p _) fun _ =>
      h.bind (W.beginOp (L := [])) fun _ => h.step trivial fun cwd => ?_
  cases cwd with
  | none => exact h.bind (h.panic _) fun _ => h.bind (W.endOp (L := [])) fun _ =>
      h.step trivial fun _ => he _
  | some i =>
    exact h.bind (W.iput (L := []) (fun _ => trivial) i) fun _ =>
      h.bind (W.endOp (L := [])) fun _ =>
      h.step trivial fun _ => he _

omit W in
theorem usertrapEnd (init p : Fin n) (t : Trap) (he : P (Kernel.exit init failed : K n Unit)) :
    P (do
    if ← run (.killed p) then Kernel.exit init failed
    match t with
    | .irq .timer => Kernel.yield
    | _ => pure ()
    run .intrOff) := by
  refine h.step trivial fun b => h.optional he ?_
  split
  · exact h.bind h.yield fun _ => h.basic trivial
  · exact h.basic trivial

theorem kerneltrap (i : Irq) : P (kerneltrap i) := by
  refine h.bind (W.devintr (L := []) i) fun _ => ?_
  split
  · refine h.step trivial fun o => ?_
    cases o with
    | none => exact h.ret ()
    | some p =>
      refine h.step trivial fun st => ?_
      split
      · exact h.yield
      · exact h.ret ()
  · exact h.ret ()

end

end Uniform

/-- A property that holds of most commands, and of `wakeup` and `sleep` as long as the loops do not
test `p->killed`. -/
structure Whole (P : ∀ ⦃α : Type⦄, K n α → Prop) : Prop extends Uniform P where
  setPid : ∀ p v, P (run (.setPid p v))
  setParent : ∀ p q, P (run (.setParent p q))
  ready : ∀ p, P (run (.ready p))
  setZombie : ∀ p v, P (run (.setZombie p v))
  freeproc : ∀ p, P (run (.freeproc p))
  newContext : ∀ p, P (run (.newContext p))
  wakeup : ∀ ch, P (Kernel.wakeup ch)
  wakeup1 : ∀ p, P (Kernel.wakeup1 p)
  sleep : ∀ ch lk, ¬ ch.Tests → P (Kernel.sleep ch lk)

namespace Whole

variable {α : Type} {P : ∀ ⦃α : Type⦄, K n α → Prop} (h : Whole P) {l : Loop n}

include h

theorem walk : Walk (fun _ => True) fun (α : Type) _ (k : K n α) _ => P k :=
  h.toUniform.walk h.sleep h.wakeup

theorem exit (init : Fin n) (status : Int) : P (exit init status : K n α) :=
  h.toUniform.exit h.walk init status fun p =>
    h.exitFinal h.setParent h.setZombie h.wakeup1 init p status

theorem syscall (init : Fin n) (c : Syscall) (hk : ∀ pid, c = .kill pid → P (Kernel.kill pid)) :
    P (c.code init) :=
  h.walk.syscall (L := []) (fun _ => trivial) (fun _ => trivial) (fun _ => trivial) init c
    (fun _ => h.fork h.walk h.freeproc h.setPid h.newContext h.setParent h.ready)
      (fun _ _ => h.exit _ _)
    (fun _ _ => h.wait _) hk

theorem kerneltrap (i : Irq) : P (kerneltrap i) := h.toUniform.kerneltrap h.walk i

/-- The bodies of all loops that do not test `p->killed`. -/
theorem body (ht : ¬ l.Tests) : P l.body := by
  by_cases hl : l.Slow
  · have := h.walk.slowBody (L := []) hl ht fun _ _ => trivial
    exact this
  · cases l with
    | scheduler => exact h.schedulerBody
    | uartstart | uartintr | diskIntr => exact h.walk.quickBody (L := []) trivial
    | _ => first | exact absurd trivial ht | exact absurd trivial hl

theorem testBody (ht : l.Tests) (hs : ∀ ch lk, P (Kernel.sleep ch lk)) : P l.body := by
  by_cases hl : l.Slow
  · have := h.walk.testBody (L := []) hl ht (fun _ => trivial)
      (fun _ p => h.basic (c := .killed p) trivial) fun _ ch _ _ => hs ch _
    exact this
  · cases l with
    | wait p addr => exact h.waitBody h.freeproc p addr (hs _ _)
    | _ => first | exact absurd trivial hl | exact absurd ht id

end Whole

end Xv6.Kernel
