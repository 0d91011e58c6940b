import Xv6.Bio.Code

/-!
# The buffer cache: `kernel/bio.c`

The buffers with their sleep locks and reference counts, the disk, `struct log`, and processes that
run kernel code.  A process runs one command at a time, and a command takes several steps where
other processes can come in between:

* `bread` finds or recycles a buffer with `bcache.lock` held (`bget`), then waits for the sleep lock
  of the buffer, then reads the block if the buffer is not valid;
* `brelse` gives up the sleep lock and then, with `bcache.lock` held, takes its reference back;
* `log_write` makes its two tests one after the other before it takes `log.lock`.

A process that sleeps in `begin_op` or in `acquiresleep` takes no step until it can go on.

The machine can be switched off and on at any time, which loses everything but the disk.  The first
process then runs `recover_from_log`, and no other process runs before it has returned.

The fields `gets`, `unpinned` and `place` are history variables.  Nothing else depends on them.

`Xv6.Log.Model` is a machine of its own for the log, with no buffers but with every disk write of
`commit` as a step; it shares the functions under `log.lock` with this one.
-/

namespace Xv6.Bio

open Lts
open Function (update)

/-- `ROOTDEV`, the only device. -/
def rootDev : Nat := 1

/-- `struct buf`.  The sleep lock is represented by its holder. -/
structure Buf (P : Type) where
  /-- Has data been read from disk? -/
  valid : Bool
  dev : Nat
  blockno : Nat
  /-- The process that holds `lock`. -/
  lock : Option P
  /-- A 32-bit unsigned counter. -/
  refcnt : Nat
  data : Block

/-- `refcnt++` -/
def incr (r : Nat) : Nat := (r + 1) % 2 ^ 32

/-- `refcnt--` -/
def decr (r : Nat) : Nat := (r + (2 ^ 32 - 1)) % 2 ^ 32

/-- Where a process is with the command it is running. -/
inductive Thread where
  /-- About to run this code. -/
  | run (c : K (Fin nbuf) Unit)
  /-- In `bget`, with a reference to the buffer, waiting for its lock. -/
  | locking (i : Fin nbuf) (k : Fin nbuf × Block → K (Fin nbuf) Unit)
  /-- In `bread`, holding the lock, about to test `b->valid`. -/
  | reading (i : Fin nbuf) (k : Fin nbuf × Block → K (Fin nbuf) Unit)
  /-- In `brelse`, the lock released, about to drop the reference. -/
  | putting (i : Fin nbuf) (k : K (Fin nbuf) Unit)
  /-- In `log_write`, past its first test. -/
  | logTested (i : Fin nbuf) (k : K (Fin nbuf) Unit)
  /-- In `log_write`, past both tests, waiting for `log.lock`. -/
  | logAcquire (i : Fin nbuf) (k : K (Fin nbuf) Unit)

/-- Where a process is with respect to the log. -/
inductive Place where
  /-- Not in an operation. -/
  | outside
  /-- Between `begin_op` and `end_op`. -/
  | inOp
  /-- In `commit`. -/
  | commit
  /-- In `recover_from_log`, before it has read the header. -/
  | recover
  /-- In `recover_from_log`, after it has read the header. -/
  | recovered
  deriving DecidableEq

/-- What the machine as a whole is doing. -/
inductive Mode (P : Type) where
  /-- Switched off. -/
  | off
  /-- Booting: the given process runs `recover_from_log`. -/
  | recovering (p : P)
  | running
  | halted (m : Panic)
  deriving DecidableEq

/-- The machine. -/
structure State (P : Type) where
  disk : Nat → Block
  /-- `bcache.buf` -/
  buf : Fin nbuf → Buf P
  /-- The list through `bcache.head.next`, most recently used first. -/
  lru : List (Fin nbuf)
  log : Log
  thread : P → Thread
  mode : Mode P
  /-- For each buffer, the `bget` calls not yet matched by `brelse`. -/
  gets : Fin nbuf → Nat
  /-- How many entries of `log.lh` the running `install_trans` has unpinned. -/
  unpinned : Nat
  /-- Where each process is with respect to the log. -/
  place : P → Place

variable {P : Type} [DecidableEq P]

/-- The first loop of `bget`: the buffer that caches a block. -/
def State.lookup (s : State P) (b : Nat) : Option (Fin nbuf) :=
  s.lru.find? fun i => (s.buf i).dev = rootDev ∧ (s.buf i).blockno = b

/-- The second loop of `bget`: the least recently used buffer that is not in use. -/
def State.victim (s : State P) : Option (Fin nbuf) :=
  s.lru.reverse.find? fun i => (s.buf i).refcnt = 0

/-- Change one buffer. -/
def State.modify (s : State P) (i : Fin nbuf) (f : Buf P → Buf P) : State P :=
  { s with buf := update s.buf i (f (s.buf i)) }

/-- The process `p` goes to `t`. -/
def State.goto (s : State P) (p : P) (t : Thread) : State P :=
  { s with thread := update s.thread p t }

/-- The process `p` goes to a place. -/
def State.enter (s : State P) (p : P) (x : Place) : State P :=
  { s with place := update s.place p x }

/-- The kernel stops. -/
def State.halt (s : State P) (m : Panic) : State P := { s with mode := .halted m }

/-- The part of `bget` that runs with `bcache.lock` held. -/
def stepBget (s : State P) (p : P) (b : Nat) (k : Fin nbuf × Block → K (Fin nbuf) Unit) :
    State P :=
  match s.lookup b with
  | some i =>
    { s.modify i fun u => { u with refcnt := incr u.refcnt } with
      gets := update s.gets i (s.gets i + 1) }.goto p (.locking i k)
  | none =>
    match s.victim with
    | some i =>
      { s.modify i fun u =>
          { u with dev := rootDev, blockno := b, valid := false, refcnt := 1 } with
        gets := update s.gets i (s.gets i + 1) }.goto p (.locking i k)
    | none => s.halt .bgetNoBuffers

/-- The part of `brelse` that runs with `bcache.lock` held. -/
def stepPut (s : State P) (i : Fin nbuf) : State P :=
  let r := decr (s.buf i).refcnt
  { s.modify i fun u => { u with refcnt := r } with
    lru := if r = 0 then i :: s.lru.erase i else s.lru
    gets := update s.gets i (s.gets i - 1) }

/-- The locked section of `log_write`, with `bpin` inside. -/
def stepLogWrite (s : State P) (p : P) (i : Fin nbuf) (k : K (Fin nbuf) Unit) : State P :=
  let b := (s.buf i).blockno
  match Log.logWrite s.log b with
  | .error h => s.halt (.log h)
  | .ok l =>
    if l.lh.length = s.log.lh.length then { s with log := l }.goto p (.run k)
    else
      { s.modify i fun u => { u with refcnt := incr u.refcnt } with log := l }.goto p (.run k)

/-- The first step of a command, and the only one of most; `none` when the process has to sleep. -/
def stepCmd (s : State P) (p : P) (m : UserMem) :
    (c : Cmd (Fin nbuf)) → (Ans c → K (Fin nbuf) Unit) → Option (State P)
  | .bread b, k => some (stepBget s p b k)
  | .store i v, k => some ((s.modify i fun u => { u with data := v }).goto p (.run (k ())))
  | .copyin i off va n, k =>
    let r := copyin m va n
    some ((s.modify i fun u => { u with data := u.data.splice off r.1 }).goto p (.run (k r.2)))
  | .copyout va bytes, k => some (s.goto p (.run (k (copyin m va bytes.length).2)))
  | .bwrite i, k =>
    if (s.buf i).lock = some p then
      some ({ s with disk := update s.disk (s.buf i).blockno (s.buf i).data }.goto p
        (.run (k ())))
    else some (s.halt .bwrite)
  | .bunpin i, k =>
    some ({ s.modify i fun u => { u with refcnt := decr u.refcnt } with
      unpinned := s.unpinned + 1 }.goto p (.run (k ())))
  | .brelse i, k =>
    if (s.buf i).lock = some p then
      some ((s.modify i fun u => { u with lock := none }).goto p (.putting i (k ())))
    else some (s.halt .brelse)
  | .logWrite i, k =>
    some (if Log.tooBig s.log then s.halt (.log .tooBigATransaction)
      else s.goto p (.logTested i (k ())))
  | .beginOp, k =>
    match Log.beginOp s.log with
    | none => none
    | some l => some (({ s with log := l }.enter p .inOp).goto p (.run (k ())))
  | .endOp, k =>
    match Log.endOp s.log with
    | .error h => some (s.halt (.log h))
    | .ok (true, l) => some (({ s with log := l }.enter p .commit).goto p (.run (k true)))
    | .ok (false, l) => some (({ s with log := l }.enter p .outside).goto p (.run (k false)))
  | .endCommit, k =>
    some (({ s with log := { s.log with committing := false } }.enter p .outside).goto p
      (.run (k ())))
  | .readLh, k => some (s.goto p (.run (k s.log.lh)))
  | .setLh lh, k =>
    some (({ s with log := { s.log with lh := lh }, unpinned := 0 }.enter p
      (if s.place p = Place.recover then Place.recovered else s.place p)).goto p (.run (k ())))
  | .panic m, _ => some (s.halt m)

/-- The next step of a process. -/
def stepThread (s : State P) (p : P) (m : UserMem) : Thread → Option (State P)
  | .run (.ret _) => none
  | .run (.cmd c k) => stepCmd s p m c k
  | .locking i k =>
    if (s.buf i).lock = none then
      some ((s.modify i fun u => { u with lock := some p }).goto p (.reading i k))
    else none
  | .reading i k =>
    if (s.buf i).valid then some (s.goto p (.run (k (i, (s.buf i).data))))
    else
      let v := s.disk (s.buf i).blockno
      some ((s.modify i fun u => { u with valid := true, data := v }).goto p (.run (k (i, v))))
  | .putting i k => some ((stepPut s i).goto p (.run k))
  | .logTested i k =>
    some (if s.log.outstanding < 1 then s.halt (.log .logWriteOutsideOfTrans)
      else s.goto p (.logAcquire i k))
  | .logAcquire i k => some (stepLogWrite s p i k)

/-- `binit` leaves the buffers in this order. -/
def binit : List (Fin nbuf) := (List.finRange nbuf).reverse

/-- A machine that is switched off: only the disk means anything. -/
def powerOff (disk : Nat → Block) (start size : Nat) : State P where
  disk := disk
  buf := fun _ =>
    { valid := false, dev := 0, blockno := 0, lock := none, refcnt := 0, data := Block.zero }
  lru := binit
  log := { start := start, size := size, outstanding := 0, committing := false, lh := [] }
  thread := fun _ => .run (.ret ())
  mode := .off
  gets := fun _ => 0
  unpinned := 0
  place := fun _ => .outside

/-- A machine that has just been switched on, about to run `recover_from_log` in the process
`p`. -/
def powerOn (disk : Nat → Block) (start size : Nat) (p : P) : State P :=
  { powerOff disk start size with mode := .recovering p }.enter p .recover |>.goto p
    (.run (recoverFromLog start))

/-- The actions, when `T` names the code that processes may call. -/
inductive Act (T P : Type) where
  /-- A process with nothing to do calls `t`. -/
  | call (p : P) (t : T)
  /-- A process takes a step; `m` is its user memory at that moment. -/
  | run (p : P) (m : UserMem)
  /-- Switch the machine on, whatever it was doing; `p` will be the first process. -/
  | powerOn (p : P)
  /-- `recover_from_log` has returned; start running processes. -/
  | boot

variable {T : Type}

/-- The step function.  `code t` is the code that `t` names, given the first block of the log. -/
def step (code : Nat → T → K (Fin nbuf) Unit) (s : State P) : Act T P → Option (State P)
  | .call p t =>
    match s.mode, s.thread p with
    | .running, .run (.ret _) => some (s.goto p (.run (code s.log.start t)))
    | _, _ => none
  | .run p m =>
    match s.mode with
    | .running => stepThread s p m (s.thread p)
    | .recovering q => if p = q then stepThread s p m (s.thread p) else none
    | _ => none
  | .powerOn p => some (powerOn s.disk s.log.start s.log.size p)
  | .boot =>
    match s.mode with
    | .recovering p =>
      match s.thread p with
      | .run (.ret _) => some ({ s with mode := .running }.enter p .outside)
      | _ => none
    | _ => none

/-- The machine, with any disk. -/
def machine (P : Type) [DecidableEq P] {T : Type} (code : Nat → T → K (Fin nbuf) Unit) :
    System (State P) (Act T P) where
  init s := ∃ disk start size, s = powerOff disk start size
  step := step code

end Xv6.Bio
