import Xv6.Kernel.Callers

/-!
# The machine: CPUs, processes and spin locks

Any number of CPUs run the code of the previous modules at the same time, one command of one CPU per
step.  A CPU is always either running some code, in its scheduler or on the kernel stack of a
process, or in the second half of `swtch`.  Code that has come to its end is in user space.  From
there a CPU enters the kernel by a trap, at any time; and in the kernel it can be interrupted before
any command while interrupts are on.

`swtch` takes two steps.  The first one saves the context and the second one loads the other one; in
between other CPUs can look.  A context that has been loaded stays in memory but is of no use any
more, which `saved` keeps track of.

Besides `saved` there are more history variables, which nothing else depends on.  They are marked in
the structures below.
-/

namespace Xv6.Kernel

open Lts
open Function (update)

/-! ## States -/

/-- `struct proc`.  `killed` is not here because it is not protected by `p->lock`. -/
@[ext] structure Proc (n : Nat) where
  state : PState
  chan : Option (Chan n)
  parent : Option (Fin n)
  xstate : Int
  pid : Int
  /-- History: some CPU has this process as its `c->proc`. -/
  on : Bool
  /-- History: `p->context` has been saved by `swtch`, or set up by `allocproc`, and since then no
  `swtch` to it has begun. -/
  saved : Bool
  /-- History: how often the processes in this slot have called `sleep`. -/
  nap : Nat
  /-- History: the channel of the last of these calls. -/
  bed : Option (Chan n)
  /-- History: in that call, about to set `p->state` to `SLEEPING`. -/
  dozing : Bool
  deriving DecidableEq

/-- History: a call of `wakeup` or `wakeup1`. -/
structure Call (n : Nat) where
  chan : Chan n
  /-- The process, for `wakeup1`. -/
  only : Option (Fin n)
  /-- The calls of `sleep` that this call has to end. -/
  due : Fin n → Option Nat
  /-- The processes it has looked at. -/
  passed : Fin n → Bool
  finished : Bool

/-- Everything but the code. -/
structure Sys (n : Nat) (C : Type) where
  proc : Fin n → Proc n
  /-- `p->killed` -/
  killed : Fin n → Bool
  /-- The CPU that holds each lock. -/
  lock : Lock n → Option C
  /-- `c->proc` -/
  cur : C → Option (Fin n)
  /-- `c->noff` -/
  noff : C → Nat
  /-- `c->intena` -/
  intena : C → Bool
  /-- Interrupts are on. -/
  sie : C → Bool
  mem : (o : Obj n) → Cell o
  /-- History: the process on whose kernel stack the CPU is running, `none` for the scheduler. -/
  thr : C → Option (Fin n)
  /-- History: since its slot was allocated, the process has taken a fatal trap, or `kill` has found
  it by its pid when it was not `UNUSED`. -/
  doomed : Fin n → Bool
  /-- History: since the process has last entered the kernel, `kill` has marked a process for it,
  and whether it was the right one. -/
  hit : Fin n → Option Bool
  /-- History: how often `wakeup` and `wakeup1` have been called. -/
  ncalls : Nat
  /-- History: these calls. -/
  call : Nat → Call n

/-- What a CPU is doing. -/
inductive Run (n : Nat) where
  /-- About to run this code. -/
  | code (k : K n Unit)
  /-- In the second half of `swtch`: about to load the context of a process, or of the scheduler. -/
  | load (p : Option (Fin n))

/-- The machine. -/
structure State (n : Nat) (C : Type) where
  sys : Sys n C
  run : C → Run n
  /-- `p->context` -/
  context : Fin n → K n Unit
  /-- `c->context` -/
  sctx : C → K n Unit
  halted : Option Panic

variable {n : Nat} {C : Type} [DecidableEq C]

/-! ## Commands -/

namespace Sys

/-- Change a `struct proc`. -/
def modify (s : Sys n C) (p : Fin n) (f : Proc n → Proc n) : Sys n C :=
  { s with proc := update s.proc p (f (s.proc p)) }

/-- `push_off()` -/
def pushOff (s : Sys n C) (c : C) : Sys n C :=
  { s with
    intena := if s.noff c = 0 then update s.intena c (s.sie c) else s.intena
    noff := update s.noff c (s.noff c + 1)
    sie := update s.sie c false }

/-- `pop_off()`, where it does not panic. -/
def popOff (s : Sys n C) (c : C) : Sys n C :=
  { s with
    noff := update s.noff c (s.noff c - 1)
    sie := if s.noff c - 1 = 0 ∧ s.intena c then update s.sie c true else s.sie }

/-- `c->proc = o` -/
def setCur (s : Sys n C) (c : C) (o : Option (Fin n)) : Sys n C :=
  let s := match s.cur c with
    | some q => s.modify q fun r => { r with on := false }
    | none => s
  let s := match o with
    | some p => s.modify p fun r => { r with on := true }
    | none => s
  { s with cur := update s.cur c o }

/-- `wakeup(ch)` begins; `only` is the process for `wakeup1`. -/
def wakeBegin (s : Sys n C) (ch : Chan n) (only : Option (Fin n)) : Sys n C :=
  { s with
    ncalls := s.ncalls + 1
    call := update s.call s.ncalls
      { chan := ch
        only := only
        due := fun p =>
          if (s.proc p).bed = some ch ∧ (only = none ∨ only = some p) then some (s.proc p).nap
          else none
        passed := fun _ => false
        finished := false } }

end Sys

namespace Proc

/-- `if(p->state == SLEEPING && p->chan == ch) p->state = RUNNABLE;` -/
def wake (r : Proc n) (ch : Chan n) : Proc n :=
  if r.state = .sleeping ∧ r.chan = some ch then { r with state := .runnable } else r

/-- `if(p->state == SLEEPING) p->state = RUNNABLE;` -/
def rouse (r : Proc n) : Proc n :=
  if r.state = .sleeping then { r with state := .runnable } else r

/-- `freeproc(p)`, but for `p->killed`. -/
def free (r : Proc n) : Proc n :=
  { r with
    state := .unused
    chan := none
    parent := none
    xstate := 0
    pid := 0
    saved := false }

end Proc

/-- What a command does. -/
inductive Effect (σ α : Type) where
  /-- The CPU has to wait. -/
  | blocked
  | halt (m : Panic)
  | done (a : α) (s : σ)

/-- What each command does on CPU `c`.  `o` is what is left open.  The commands that change what the
CPU is running are not treated here. -/
def effect (boot : C) (s : Sys n C) (c : C) (o : Nat) : (cmd : Cmd n) → Effect (Sys n C) (Ans cmd)
  | .pushOff => .done () (s.pushOff c)
  | .take l =>
    match s.lock l with
    | none => .done () { s with lock := update s.lock l (some c) }
    | some d => if d = c then .halt .acquire else .blocked
  | .release l =>
    if s.lock l = some c then
      if s.sie c then .halt .popOffInterruptible
      else if s.noff c < 1 then .halt .popOff
      else .done () { s.popOff c with lock := update s.lock l none }
    else .halt .release
  | .holding l => .done (decide (s.lock l = some c)) s
  | .intrOn => .done () { s with sie := update s.sie c true }
  | .intrOff => .done () { s with sie := update s.sie c false }
  | .intrGet => .done (s.sie c) s
  | .noff => .done (s.noff c) s
  | .intena => .done (s.intena c) s
  | .setIntena b => .done () { s with intena := update s.intena c b }
  | .isBoot => .done (decide (c = boot)) s
  | .myproc => .done (s.cur c) s
  | .setCur p => .done () (s.setCur c p)
  | .swtchSched _ | .swtchProc _ | .loop _ => .blocked
  | .state p => .done (s.proc p).state s
  | .parent p => .done (s.proc p).parent s
  | .pid p => .done (s.proc p).pid s
  | .xstate p => .done (s.proc p).xstate s
  | .killed p => .done (s.killed p) s
  | .setPid p v =>
    .done () ({ s with doomed := update s.doomed p false }.modify p fun r => { r with pid := v })
  | .setParent p q => .done () (s.modify p fun r => { r with parent := some q })
  | .ready p | .setRunnable p => .done () (s.modify p fun r => { r with state := .runnable })
  | .setRunning p => .done () (s.modify p fun r => { r with state := .running })
  | .doze p ch =>
    .done () (s.modify p fun r => { r with nap := r.nap + 1, bed := some ch, dozing := true })
  | .setSleeping p ch =>
    .done () (s.modify p fun r => { r with chan := some ch, state := .sleeping, dozing := false })
  | .clearChan p => .done () (s.modify p fun r => { r with chan := none })
  | .slept _ | .returned .. => .done () s
  | .setZombie p status =>
    .done () (s.modify p fun r => { r with xstate := status, state := .zombie })
  | .wakeBegin ch only => .done s.ncalls (s.wakeBegin ch only)
  | .wake p ch w =>
    .done () ({ s with
      call := update s.call w
        { s.call w with passed := update (s.call w).passed p true } }.modify p fun r =>
          r.wake ch)
  | .wakeEnd w =>
    .done () { s with call := update s.call w { s.call w with finished := true } }
  | .mark p pid =>
    let right := decide ((s.proc p).state ≠ .unused ∧ (s.proc p).pid = pid)
    .done () ({ s with
      killed := update s.killed p true
      doomed := update s.doomed p (s.doomed p || right)
      hit := match s.cur c with
        | some q => update s.hit q (some right)
        | none => s.hit }.modify p Proc.rouse)
  | .fatal p =>
    .done () { s with
      killed := update s.killed p true
      doomed := update s.doomed p true }
  | .freeproc p =>
    .done () ({ s with
      killed := update s.killed p false
      doomed := update s.doomed p false }.modify p Proc.free)
  | .newContext p => .done () (s.modify p fun r => { r with saved := true })
  | .ask => .done o s
  | .get x => .done (s.mem x) s
  | .put x v => .done () { s with mem := update s.mem x v }
  | .panic m => .halt m

/-! ## Steps -/

namespace State

/-- The CPU `c` goes on with `r`. -/
def goto (s : State n C) (c : C) (r : Run n) : State n C :=
  { s with run := update s.run c r }

end State

/-- One command of CPU `c`, which goes on with `k`. -/
def stepCmd (boot : C) (s : State n C) (c : C) (o : Nat) :
    (cmd : Cmd n) → (Ans cmd → K n Unit) → Option (State n C)
  | .swtchSched p, k =>
    some ({ s with
      sys := { s.sys with thr := update s.sys.thr c none }.modify p fun r =>
        { r with saved := true }
      context := update s.context p (k ()) }.goto c (.load none))
  | .swtchProc p, k =>
    some ({ s with
      sys := { s.sys with thr := update s.sys.thr c (some p) }.modify p fun r =>
        { r with saved := false }
      sctx := update s.sctx c (k ()) }.goto c (.load (some p)))
  | .loop l, k => some (s.goto c (.code (l.body >>= k)))
  | .newContext p, k =>
    some ({ s with
      sys := s.sys.modify p fun r => { r with saved := true }
      context := update s.context p forkret }.goto c (.code (k ())))
  | cmd, k =>
    match effect boot s.sys c o cmd with
    | .blocked => none
    | .halt m => some { s with halted := some m }
    | .done a sys => some ({ s with sys := sys }.goto c (.code (k a)))

/-- The actions. -/
inductive Act (C : Type) where
  /-- The next step of a CPU. -/
  | step (c : C) (o : Nat)
  /-- User code on a CPU enters the kernel. -/
  | trap (c : C) (t : Trap)
  /-- Kernel code on a CPU is interrupted. -/
  | intr (c : C) (i : Irq)

/-- User code of `p` enters the kernel on CPU `c`, which turns interrupts off. -/
def Sys.enter (s : Sys n C) (c : C) (p : Fin n) : Sys n C :=
  { s with
    sie := update s.sie c false
    hit := update s.hit p none }

/-- One step. -/
def step (boot : C) (init : Fin n) (s : State n C) (a : Act C) : Option (State n C) :=
  if s.halted ≠ none then none
  else
    match a with
    | .step c o =>
      match s.run c with
      | .code (.ret _) => none
      | .code (.cmd cmd k) => stepCmd boot s c o cmd k
      | .load none => some (s.goto c (.code (s.sctx c)))
      | .load (some p) => some (s.goto c (.code (s.context p)))
    | .trap c t =>
      match s.run c, s.sys.thr c with
      | .code (.ret _), some p =>
        some ({ s with sys := s.sys.enter c p }.goto c (.code (usertrap init t)))
      | _, _ => none
    | .intr c i =>
      match s.run c with
      | .code (.cmd cmd k) =>
        if s.sys.sie c then
          some ({ s with sys := { s.sys with sie := update s.sys.sie c false } }.goto c
            (.code (kerneltrap i >>= fun _ => .cmd .intrOn fun _ => .cmd cmd k)))
        else none
      | _ => none

/-! ## The beginning -/

/-- The slots, when `userinit` has returned. -/
def firstProc (init : Fin n) (p : Fin n) : Proc n where
  state := if p = init then .runnable else .unused
  chan := none
  parent := none
  xstate := 0
  pid := if p = init then 1 else 0
  on := false
  saved := decide (p = init)
  nap := 0
  bed := none
  dozing := false

/-- Memory, when `userinit` has returned: nothing is locked, nothing is open, and the only reference
to an inode is that of `init` to the root directory. -/
structure FirstMem (init : Fin n) (mem : (o : Obj n) → Cell o) : Prop where
  first : mem .first = true
  slk : ∀ k, mem (.slk k) = ⟨false, 0⟩
  icache : ∀ i, mem .icache i = if i = Dir.rootIno then 1 else 0
  ftable : ∀ f, mem .ftable f = 0
  ofile : ∀ p fd, mem (.ofile p) fd = none
  cwd : ∀ p, mem (.cwd p) = if p = init then some Dir.rootIno else none
  npipe : mem .npipe = 0

/-- Such a memory: all buffers are empty and the file system holds only its root directory. -/
def firstMem (init : Fin n) : (o : Obj n) → Cell o
  | .nextpid => 2
  | .first => true
  | .ticks | .npipe => 0
  | .pipe _ => Pipe.alloc fun _ => 0
  | .cons => { buf := fun _ => 0, r := 0, w := 0, e := 0 }
  | .uart => { buf := fun _ => 0, w := 0, r := 0 }
  | .log => { start := 2, size := 30, outstanding := 0, committing := false, lh := [] }
  | .disk => { free := List.replicate 8 true, busy := fun _ => false }
  | .icache => fun i => if i = Dir.rootIno then 1 else 0
  | .inode i =>
    { valid := false
      node :=
        if i = Dir.rootIno then
          { kind := .dir, nlink := 1, ents := [⟨1, Dir.dot⟩, ⟨1, Dir.dotdot⟩] }
        else { kind := .free, nlink := 0, ents := [] } }
  | .ftable => fun _ => 0
  | .file _ => { kind := .none, readable := false, writable := false }
  | .slk _ => ⟨false, 0⟩
  | .ofile _ => fun _ => none
  | .cwd p => if p = init then some Dir.rootIno else none
  | .ret _ => 0
  | .status _ => none

theorem firstMem_ok (init : Fin n) : FirstMem init (firstMem init) where
  first := rfl
  slk _ := rfl
  icache _ := rfl
  ftable _ := rfl
  ofile _ _ := rfl
  cwd _ := rfl
  npipe := rfl

/-- The machine when all CPUs call `scheduler`. -/
def start (init : Fin n) (mem : (o : Obj n) → Cell o) : State n C where
  sys :=
    { proc := firstProc init
      killed := fun _ => false
      lock := fun _ => none
      cur := fun _ => none
      noff := fun _ => 0
      intena := fun _ => false
      sie := fun _ => false
      mem := mem
      thr := fun _ => none
      doomed := fun _ => false
      hit := fun _ => none
      ncalls := 0
      call := fun _ =>
        { chan := .ticks
          only := none
          due := fun _ => none
          passed := fun _ => false
          finished := false } }
  run := fun _ => .code (scheduler >>= fun e => e.elim)
  context := fun _ => forkret
  sctx := fun _ => .ret ()
  halted := none

/-- The machine with CPUs `C` and `n` slots for processes, of which `init` has the slot of the first
one. -/
def machine (n : Nat) (C : Type) [DecidableEq C] (boot : C) (init : Fin n) :
    System (State n C) (Act C) where
  init s := ∃ mem, FirstMem init mem ∧ s = start init mem
  step := step boot init

theorem reach_start (boot : C) (init : Fin n) {ok : State n C → Act C → Prop} :
    (machine n C boot init).Reach ok (start init (firstMem init)) :=
  .init ⟨_, firstMem_ok init, rfl⟩

end Xv6.Kernel
