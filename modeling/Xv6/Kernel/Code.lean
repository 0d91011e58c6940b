import Xv6.Dir.Code
import Xv6.Kernel.PipeBuffer

/-!
# Processes: `kernel/proc.c` and `kernel/spinlock.c`

The code of the functions that switch between processes, put them to sleep and wake them up, start,
end and kill them.  It runs on several CPUs at once, so a command is small: taking a spin lock,
reading or storing to one field, one half of `swtch`.  What a CPU does while it holds the lock that
protects some data is split only where somebody could see the difference.

Loops that may go round any number of times, such as `while(…) sleep(…)`, are commands as well: a
CPU that reaches `loop l` goes on with the body of `l`, which is in the next module together with
all code that calls `sleep` and `wakeup`.

`p`, `np`, … stand for slots of `proc[NPROC]`, of which there are `n`.
-/

namespace Xv6
namespace Kernel

/-! ## Names for things -/

/-- `enum procstate` -/
inductive PState where
  | unused
  | sleeping
  | runnable
  | running
  | zombie
  deriving DecidableEq

/-- The sleep locks, of cached inodes and of buffers. -/
inductive SleepLock where
  | inode (i : Nat)
  | buf (b : Nat)
  deriving DecidableEq

/-- The spin locks. -/
inductive Lock (n : Nat) where
  /-- `p->lock` -/
  | proc (p : Fin n)
  /-- `pid_lock` -/
  | pid
  /-- `tickslock` -/
  | ticks
  /-- `pi->lock` -/
  | pipe (i : Nat)
  /-- `cons.lock` -/
  | cons
  /-- `uart_tx_lock` -/
  | uart
  /-- `log.lock` -/
  | log
  /-- `disk.vdisk_lock` -/
  | disk
  /-- `bcache.lock` -/
  | bcache
  /-- `icache.lock` -/
  | icache
  /-- `ftable.lock` -/
  | ftable
  /-- `kmem.lock` -/
  | kmem
  /-- The spin lock inside a sleep lock. -/
  | slk (k : SleepLock)
  deriving DecidableEq

/-- The addresses that processes sleep on. -/
inductive Chan (n : Nat) where
  /-- `p`, in `wait` -/
  | proc (p : Fin n)
  /-- `&ticks` -/
  | ticks
  /-- `&pi->nread` -/
  | nread (i : Nat)
  /-- `&pi->nwrite` -/
  | nwrite (i : Nat)
  /-- `&cons.r` -/
  | cons
  /-- `&uart_tx_r` -/
  | uart
  /-- `&log` -/
  | log
  /-- `&disk.free[0]` -/
  | free
  /-- A `struct buf *`, in `virtio_disk_rw` -/
  | buf (b : Nat)
  /-- A sleep lock. -/
  | slk (k : SleepLock)
  deriving DecidableEq

/-- Panics of the functions modelled here. -/
inductive Panic where
  /-- `panic("acquire")` -/
  | acquire
  /-- `panic("release")` -/
  | release
  /-- `panic("pop_off - interruptible")` -/
  | popOffInterruptible
  /-- `panic("pop_off")` -/
  | popOff
  /-- `panic("sched p->lock")` -/
  | schedLock
  /-- `panic("sched locks")` -/
  | schedLocks
  /-- `panic("sched running")` -/
  | schedRunning
  /-- `panic("sched interruptible")` -/
  | schedInterruptible
  /-- `panic("wakeup1")` -/
  | wakeup1
  /-- `panic("init exiting")` -/
  | initExiting
  /-- `panic("zombie exit")` -/
  | zombieExit
  /-- A null pointer is used. -/
  | null
  /-- `panic("log.committing")` -/
  | logCommitting
  /-- `panic("filedup")` -/
  | filedup
  /-- `panic("fileclose")` -/
  | fileclose
  /-- `panic("iget: no inodes")` -/
  | igetNoInodes
  /-- `panic("ialloc: no inodes")` -/
  | iallocNoInodes
  /-- `panic("ilock")` -/
  | ilock
  /-- `panic("iunlock")` -/
  | iunlock
  /-- One of the panics of the directory layer. -/
  | dir (m : Dir.Panic)
  deriving DecidableEq

/-- The system calls on paths. -/
inductive PathCall where
  | open (path : List Char) (creat rdonly : Bool)
  | mkdir (path : List Char)
  | mknod (path : List Char)
  | link (old new : List Char)
  | unlink (path : List Char)
  | chdir (path : List Char)
  | exec (path : List Char)

/-- The system calls. -/
inductive Syscall where
  | fork
  | exit (status : Int)
  | wait (addr : Nat)
  | kill (pid : Int)
  | sleep (m : Nat)
  | uptime
  | pipe
  | read (fd m : Nat)
  | write (fd m : Nat)
  | fstat (fd : Nat)
  | dup (fd : Nat)
  | close (fd : Nat)
  | path (c : PathCall)

/-! ## Data that is not in `struct proc` -/

/-- The input buffer of the console. -/
structure Cons where
  buf : Nat → UInt8
  r : Nat
  w : Nat
  e : Nat

/-- The output buffer of the UART. -/
structure Uart where
  buf : Nat → UInt8
  w : Nat
  r : Nat

/-- What matters here of `struct disk`, and `b->disk` of each buffer. -/
structure Vdisk where
  /-- `disk.free` -/
  free : List Bool
  /-- The buffers that the disk is working on. -/
  busy : Nat → Bool

/-- `struct sleeplock`, without its spin lock and its name. -/
structure SleepLockData where
  locked : Bool
  pid : Int
  deriving DecidableEq

/-- What a `struct file` refers to. -/
inductive FileKind where
  | none
  | pipe (i : Nat)
  | inode (i : Nat)
  | device (i : Nat)
  deriving DecidableEq

/-- `struct file`, without `ref` and `off`. -/
structure File where
  kind : FileKind
  readable : Bool
  writable : Bool
  deriving DecidableEq

/-- A cached inode: `valid` and its contents. -/
structure Inode where
  valid : Bool
  node : Dir.Node

/-- Pieces of memory. -/
inductive Obj (n : Nat) where
  /-- `nextpid` -/
  | nextpid
  /-- `first` of `forkret` -/
  | first
  /-- `ticks` -/
  | ticks
  | pipe (i : Nat)
  /-- How many pages have been used for pipes. -/
  | npipe
  | cons
  | uart
  | log
  | disk
  /-- `ip->ref` of each inode. -/
  | icache
  | inode (i : Nat)
  /-- `f->ref` of each file. -/
  | ftable
  | file (f : Nat)
  | slk (k : SleepLock)
  /-- `p->ofile` -/
  | ofile (p : Fin n)
  /-- `p->cwd` -/
  | cwd (p : Fin n)
  /-- `p->trapframe->a0`, which holds the result of a system call. -/
  | ret (p : Fin n)
  /-- Where the user program of `p` has told `wait` to store the exit status. -/
  | status (p : Fin n)
  deriving DecidableEq

/-- What they hold. -/
abbrev Cell {n : Nat} : Obj n → Type
  | .nextpid | .ret _ => Int
  | .first => Bool
  | .ticks | .npipe => Nat
  | .pipe _ => Pipe
  | .cons => Cons
  | .uart => Uart
  | .log => Log
  | .disk => Vdisk
  | .icache => Nat → Nat
  | .inode _ => Inode
  | .ftable => Nat → Nat
  | .file _ => File
  | .slk _ => SleepLockData
  | .ofile _ => Nat → Option Nat
  | .cwd _ => Option Nat
  | .status _ => Option Int

/-! ## Commands -/

/-- The loops. -/
inductive Loop (n : Nat) where
  /-- `for(;;)` of `scheduler` -/
  | scheduler
  /-- `for(;;)` of `wait(addr)`, called by `p` -/
  | wait (p : Fin n) (addr : Nat)
  /-- `while(pi->nwrite == pi->nread + PIPESIZE)` of `pipewrite` -/
  | pipeFull (i : Nat)
  /-- `while(pi->nread == pi->nwrite && pi->writeopen)` of `piperead` -/
  | pipeEmpty (i : Nat)
  /-- `while(cons.r == cons.w)` of `consoleread` -/
  | consEmpty
  /-- `while(ticks - ticks0 < n)` of `sys_sleep` -/
  | ticks (ticks0 n : Nat)
  /-- `while (lk->locked)` of `acquiresleep` -/
  | acquiresleep (k : SleepLock)
  /-- `while(1)` of `begin_op` -/
  | beginOp
  /-- `while(1)` of `uartputc` -/
  | uartputc (c : UInt8)
  /-- `while(1)` of `uartstart` -/
  | uartstart
  /-- `while(1)` of `uartintr` -/
  | uartintr
  /-- `while(1)` of `virtio_disk_rw` -/
  | allocDescs
  /-- `while(b->disk == 1)` of `virtio_disk_rw` -/
  | diskBusy (b : Nat)
  /-- The loop of `virtio_disk_intr` -/
  | diskIntr
  /-- Any number of accesses to disk blocks. -/
  | blocks

/-- What a loop returns.  Those that test `p->killed` return `false` if they have given up. -/
abbrev LoopAns {n : Nat} : Loop n → Type
  | .scheduler => Empty
  | .wait .. => Int
  | .pipeFull _ | .pipeEmpty _ | .consEmpty | .ticks .. => Bool
  | _ => Unit

/-- The commands. -/
inductive Cmd (n : Nat) where
  /-- `push_off()` -/
  | pushOff
  /-- The part of `acquire(lk)` after `push_off()`: spin until the lock is free. -/
  | take (l : Lock n)
  /-- `release(lk)` -/
  | release (l : Lock n)
  /-- `holding(lk)` -/
  | holding (l : Lock n)
  /-- `intr_on()` -/
  | intrOn
  /-- `intr_off()` -/
  | intrOff
  /-- `intr_get()` -/
  | intrGet
  /-- `mycpu()->noff` -/
  | noff
  /-- `mycpu()->intena` -/
  | intena
  /-- `mycpu()->intena = b` -/
  | setIntena (b : Bool)
  /-- `cpuid() == 0` -/
  | isBoot
  /-- `myproc()` -/
  | myproc
  /-- `c->proc = p` -/
  | setCur (p : Option (Fin n))
  /-- `swtch(&p->context, &mycpu()->context)` -/
  | swtchSched (p : Fin n)
  /-- `swtch(&c->context, &p->context)` -/
  | swtchProc (p : Fin n)
  /-- Read `p->state`. -/
  | state (p : Fin n)
  /-- Read `p->parent`. -/
  | parent (p : Fin n)
  /-- Read `p->pid`. -/
  | pid (p : Fin n)
  /-- Read `p->xstate`. -/
  | xstate (p : Fin n)
  /-- Read `p->killed`. -/
  | killed (p : Fin n)
  /-- `p->pid = v` in `allocproc`. -/
  | setPid (p : Fin n) (v : Int)
  /-- `p->parent = q` -/
  | setParent (p q : Fin n)
  /-- `np->state = RUNNABLE` in `fork`. -/
  | ready (p : Fin n)
  /-- `p->state = RUNNABLE` in `yield`. -/
  | setRunnable (p : Fin n)
  /-- `p->state = RUNNING` -/
  | setRunning (p : Fin n)
  /-- History: `p` is about to release `lk` in `sleep(chan, lk)`. -/
  | doze (p : Fin n) (ch : Chan n)
  /-- `p->chan = chan; p->state = SLEEPING;` -/
  | setSleeping (p : Fin n) (ch : Chan n)
  /-- `p->chan = 0` -/
  | clearChan (p : Fin n)
  /-- History: `sleep(chan, lk)` returns. -/
  | slept (l : Lock n)
  /-- `p->xstate = status; p->state = ZOMBIE;` -/
  | setZombie (p : Fin n) (status : Int)
  /-- History: the beginning of `wakeup(chan)`, or of `wakeup1(p)`.  It answers a number for the
  call. -/
  | wakeBegin (ch : Chan n) (only : Option (Fin n))
  /-- `if(p->state == SLEEPING && p->chan == chan) p->state = RUNNABLE;` -/
  | wake (p : Fin n) (ch : Chan n) (w : Nat)
  /-- History: the end of `wakeup` or `wakeup1`. -/
  | wakeEnd (w : Nat)
  /-- `p->killed = 1; if(p->state == SLEEPING) p->state = RUNNABLE;` in `kill(pid)`. -/
  | mark (p : Fin n) (pid : Int)
  /-- `p->killed = 1` in `usertrap`. -/
  | fatal (p : Fin n)
  /-- `freeproc(p)` -/
  | freeproc (p : Fin n)
  /-- Set `p->context` up to start at `forkret`. -/
  | newContext (p : Fin n)
  /-- History: a system call returns `r`. -/
  | returned (c : Syscall) (r : Int)
  /-- Something that is left open: whether `kalloc` finds a page, a byte of user memory, what a
  device says. -/
  | ask
  /-- Read an object. -/
  | get (o : Obj n)
  /-- Store to an object. -/
  | put (o : Obj n) (v : Cell o)
  /-- Go on with a loop. -/
  | loop (l : Loop n)
  /-- `panic` -/
  | panic (m : Panic)

/-- What a command answers. -/
abbrev Ans {n : Nat} : Cmd n → Type
  | .holding _ | .intrGet | .intena | .isBoot | .killed _ => Bool
  | .noff | .ask | .wakeBegin .. => Nat
  | .myproc | .parent _ => Option (Fin n)
  | .state _ => PState
  | .pid _ | .xstate _ => Int
  | .get o => Cell o
  | .loop l => LoopAns l
  | .panic _ => Empty
  | _ => Unit

/-- Kernel code that returns an `α`. -/
abbrev K (n : Nat) (α : Type) := Code (Cmd n) Ans α

section Proc

variable {n : Nat} {α : Type}

/-- Issue a command. -/
def run (c : Cmd n) : K n (Ans c) := Code.call c

/-- `panic(m)` does not return. -/
def panic (m : Panic) : K n α := .cmd (.panic m) fun e => e.elim

/-- `if(!b) panic(m)` -/
def check (b : Bool) (m : Panic) : K n Unit := if b then pure () else panic m

/-- The value -1 of a function that has failed. -/
def failed : Int := -1

/-- Something that works or does not. -/
def works : K n Bool := do
  let o ← run .ask
  pure (decide (o ≠ 0))

/-! ## Spin locks -/

/-- `acquire(lk)` -/
def acquire (l : Lock n) : K n Unit := do
  run .pushOff
  run (.take l)

/-- `release(lk)` -/
def release (l : Lock n) : K n Unit := run (.release l)

/-! ## Switching -/

/-- `myproc()`, where the caller is sure that there is one. -/
def myproc : K n (Fin n) := do
  match ← run .myproc with
  | some p => pure p
  | none => panic .null

/-- `sched()` -/
def sched : K n Unit := do
  let p ← myproc
  check (← run (.holding (.proc p))) .schedLock
  check (decide ((← run .noff) = 1)) .schedLocks
  check (decide ((← run (.state p)) ≠ .running)) .schedRunning
  check (!(← run .intrGet)) .schedInterruptible
  let intena ← run .intena
  run (.swtchSched p)
  run (.setIntena intena)

/-- `yield()` -/
def yield : K n Unit := do
  let p ← myproc
  acquire (.proc p)
  run (.setRunnable p)
  sched
  release (.proc p)

/-- The body of the inner loop of `scheduler`. -/
def schedule (p : Fin n) : K n Unit := do
  acquire (.proc p)
  if (← run (.state p)) = .runnable then
    run (.setRunning p)
    run (.setCur (some p))
    run (.swtchProc p)
    run (.setCur none)
  release (.proc p)

/-- `for(p = proc; p < &proc[NPROC]; p++)` -/
def forEach (f : Fin n → K n Unit) : List (Fin n) → K n Unit
  | [] => pure ()
  | p :: ps => do
    f p
    forEach f ps

/-- `proc`, `proc + 1`, … -/
def procs : List (Fin n) := List.finRange n

/-- The body of the outer loop of `scheduler`. -/
def schedulerBody : K n Empty := do
  run .intrOn
  forEach schedule procs
  run (.loop .scheduler)

/-- `scheduler()` -/
def scheduler : K n Empty := do
  run (.setCur none)
  run (.loop .scheduler)

/-! ## Sleeping and waking up -/

/-- `sleep(chan, lk)` -/
def sleep (ch : Chan n) (lk : Lock n) : K n Unit := do
  let p ← myproc
  if lk ≠ .proc p then
    acquire (.proc p)
    run (.doze p ch)
    release lk
  else
    run (.doze p ch)
  run (.setSleeping p ch)
  sched
  run (.clearChan p)
  if lk ≠ .proc p then
    release (.proc p)
    acquire lk
  run (.slept lk)

/-- The body of the loop of `wakeup`. -/
def wakeupOne (ch : Chan n) (w : Nat) (p : Fin n) : K n Unit := do
  acquire (.proc p)
  run (.wake p ch w)
  release (.proc p)

/-- `wakeup(chan)` -/
def wakeup (ch : Chan n) : K n Unit := do
  let w ← run (.wakeBegin ch none)
  forEach (wakeupOne ch w) procs
  run (.wakeEnd w)

/-- `wakeup1(p)` -/
def wakeup1 (p : Fin n) : K n Unit := do
  check (← run (.holding (.proc p))) .wakeup1
  let w ← run (.wakeBegin (.proc p) (some p))
  run (.wake p (.proc p) w)
  run (.wakeEnd w)

/-- The loop of `kill`. -/
def killFrom (pid : Int) : List (Fin n) → K n Int
  | [] => pure failed
  | p :: ps => do
    acquire (.proc p)
    if (← run (.pid p)) = pid then
      run (.mark p pid)
      release (.proc p)
      pure 0
    else
      release (.proc p)
      killFrom pid ps

/-- `kill(pid)` -/
def kill (pid : Int) : K n Int := killFrom pid procs

/-! ## Starting a process -/

/-- `nextpid + 1` for an `int`. -/
def nextPid (pid : Int) : Int := Int.bmod (pid + 1) (2 ^ 32)

/-- `allocpid()` -/
def allocpid : K n Int := do
  acquire .pid
  let pid ← run (.get .nextpid)
  run (.put .nextpid (nextPid pid))
  release .pid
  pure pid

/-- `allocproc` from the label `found` on. -/
def found (p : Fin n) : K n (Option (Fin n)) := do
  let pid ← allocpid
  run (.setPid p pid)
  -- the trapframe page
  if ← works then
    -- the user page table
    if ← works then
      run (.newContext p)
      pure (some p)
    else
      run (.freeproc p)
      release (.proc p)
      pure none
  else
    release (.proc p)
    pure none

/-- The loop of `allocproc`. -/
def allocprocFrom : List (Fin n) → K n (Option (Fin n))
  | [] => pure none
  | p :: ps => do
    acquire (.proc p)
    if (← run (.state p)) = .unused then found p
    else
      release (.proc p)
      allocprocFrom ps

/-- `allocproc()` -/
def allocproc : K n (Option (Fin n)) := allocprocFrom procs

/-! ## Waiting for children -/

/-- `copyout(p->pagetable, addr, &np->xstate, …)` -/
def storeStatus (p : Fin n) (v : Int) : K n Bool := do
  if ← works then
    run (.put (.status p) (some v))
    pure true
  else pure false

/-- `wait` has found the exited child `np`. -/
def reap (p np : Fin n) (addr : Nat) : K n Int := do
  let pid ← run (.pid np)
  let xstate ← run (.xstate np)
  let ok ← if addr ≠ 0 then storeStatus p xstate else pure true
  if ok then
    run (.freeproc np)
    release (.proc np)
    release (.proc p)
    pure pid
  else
    release (.proc np)
    release (.proc p)
    pure failed

/-- The scan of the table in `wait`: what `wait` returns, or else whether there are children. -/
def waitScan (p : Fin n) (addr : Nat) : (havekids : Bool) → List (Fin n) → K n (Int ⊕ Bool)
  | havekids, [] => pure (.inr havekids)
  | havekids, np :: nps => do
    if (← run (.parent np)) = some p then
      acquire (.proc np)
      if (← run (.state np)) = .zombie then
        let r ← reap p np addr
        pure (.inl r)
      else
        release (.proc np)
        waitScan p addr true nps
    else waitScan p addr havekids nps

/-- The body of the loop of `wait`. -/
def waitBody (p : Fin n) (addr : Nat) : K n Int := do
  match ← waitScan p addr false procs with
  | .inl r => pure r
  | .inr havekids =>
    let stop ← if havekids then run (.killed p) else pure true
    if stop then
      release (.proc p)
      pure failed
    else
      sleep (.proc p) (.proc p)
      run (.loop (.wait p addr))

/-- `wait(addr)` -/
def wait (addr : Nat) : K n Int := do
  let p ← myproc
  acquire (.proc p)
  run (.loop (.wait p addr))

/-! ## The end of a process -/

/-- `reparent(p)` -/
def reparent (init p : Fin n) : K n Unit :=
  forEach (fun pp => do
    if (← run (.parent pp)) = some p then
      acquire (.proc pp)
      run (.setParent pp init)
      release (.proc pp)) procs

/-- `exit` from where it wakes up `init`. -/
def exitFinal (init p : Fin n) (status : Int) : K n α := do
  acquire (.proc init)
  wakeup1 init
  release (.proc init)
  acquire (.proc p)
  let op ← run (.parent p)
  release (.proc p)
  match op with
  | none => panic .null
  | some op =>
    acquire (.proc op)
    acquire (.proc p)
    reparent init p
    wakeup1 op
    run (.setZombie p status)
    release (.proc op)
    sched
    panic .zombieExit

end Proc

end Kernel
end Xv6
